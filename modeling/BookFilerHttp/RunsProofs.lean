import Mathlib

/-! # Runs of a machine

    A deterministic machine takes inputs one by one.  A step either is refused
    or gives the next state and the list of actions done on the way; a run gives
    the last state and all the actions, its TRACE.

    `run_split` is the rule for traces: an action of a trace was done by one
    step, and the trace around it splits into the trace before that step, the
    actions of that step, and the trace after it.  `run_invariant` is the rule
    for states.  `always_of_along` and `always_iff_along` are the rules for
    steps that must meet a CONDITION: when every step of a run meets it, the
    invariant holds in every state reached, and when the condition is exact for
    one step it is exact for the run. -/

namespace Runs

variable {σ ι α : Type}

/-- The run over a list of inputs, `none` when an input is refused. -/
def run (step : σ → ι → Option (σ × List α)) : σ → List ι → Option (σ × List α)
  | s, [] => some (s, [])
  | s, i :: is =>
      match step s i with
      | none => none
      | some (s', as) => (run step s' is).map (fun r => (r.1, as ++ r.2))

/-- `P` holds in every state reached. -/
def Always (step : σ → ι → Option (σ × List α)) (P : σ → Prop) :
    σ → List ι → Prop
  | s, [] => P s
  | s, i :: is =>
      P s ∧ ∀ s' as, step s i = some (s', as) → Always step P s' is

/-- Every step taken meets the condition `C` on the state before it and the
    input. -/
def Along (step : σ → ι → Option (σ × List α)) (C : σ → ι → Prop) :
    σ → List ι → Prop
  | _, [] => True
  | s, i :: is =>
      C s i ∧ ∀ s' as, step s i = some (s', as) → Along step C s' is

variable {step : σ → ι → Option (σ × List α)}

/-! ## Composition -/

/-- A run begins with its first step. -/
theorem run_cons {s s'' : σ} {i : ι} {is : List ι} {t : List α}
    (h : run step s (i :: is) = some (s'', t)) :
    ∃ s' as bs, step s i = some (s', as) ∧ run step s' is = some (s'', bs)
      ∧ t = as ++ bs := by
  rw [run] at h
  split at h
  · cases h
  · next s' as hstep =>
      obtain ⟨r, hr, heq⟩ := Option.map_eq_some_iff.mp h
      obtain ⟨hs, ht⟩ := Prod.mk.inj heq
      subst hs
      exact ⟨s', as, r.2, hstep, hr, ht.symm⟩

theorem run_step {s s' s'' : σ} {i : ι} {is : List ι} {as bs : List α}
    (hstep : step s i = some (s', as)) (hrun : run step s' is = some (s'', bs)) :
    run step s (i :: is) = some (s'', as ++ bs) := by
  rw [run, hstep]
  show (run step s' is).map _ = _
  rw [hrun]
  rfl

/-! ## The rules -/

/-- **INVARIANT RULE**: what every step keeps holds after every run. -/
theorem run_invariant {Inv : σ → Prop}
    (hstep : ∀ s i s' as, Inv s → step s i = some (s', as) → Inv s') :
    ∀ (is : List ι) {s s' : σ} {t : List α},
      Inv s → run step s is = some (s', t) → Inv s' := by
  intro is
  induction is with
  | nil =>
      intro s s' t hs h
      rw [← (Prod.mk.inj (Option.some.inj h)).1]
      exact hs
  | cons i rest ih =>
      intro s s' t hs h
      obtain ⟨s₁, as, bs, h₁, hrest, -⟩ := run_cons h
      exact ih (hstep s i s₁ as hs h₁) hrest

/-- **TRACE RULE**: an action of a trace is an action of one step. -/
theorem run_split :
    ∀ (is : List ι) {s s' : σ} {pre post : List α} {a : α},
      run step s is = some (s', pre ++ a :: post) →
      ∃ is₁ i is₂ s₁ s₂ t₁ as₁ as₂ t₂,
        run step s is₁ = some (s₁, t₁)
          ∧ step s₁ i = some (s₂, as₁ ++ a :: as₂)
          ∧ run step s₂ is₂ = some (s', t₂)
          ∧ pre = t₁ ++ as₁ ∧ post = as₂ ++ t₂ := by
  intro is
  induction is with
  | nil =>
      intro s s' pre post a h
      have hnil := (Prod.mk.inj (Option.some.inj h)).2
      exact absurd hnil.symm (List.append_ne_nil_of_right_ne_nil _ (List.cons_ne_nil _ _))
  | cons i rest ih =>
      intro s s' pre post a h
      obtain ⟨s₁, as, bs, hstep, hrest, ht⟩ := run_cons h
      rcases List.append_eq_append_iff.mp ht with ⟨ws, has, hbs⟩ | ⟨ws, hpre, hbs⟩
      · cases ws with
        | nil =>
            -- the action opens the rest of the run
            rw [List.append_nil] at has
            rw [List.nil_append] at hbs
            obtain ⟨is₁, j, is₂, u, v, t₁, as₁, as₂, t₂, h₁, hj, h₂, hp, hq⟩ :=
              @ih s₁ s' [] post a (hbs ▸ hrest)
            refine ⟨i :: is₁, j, is₂, u, v, as ++ t₁, as₁, as₂, t₂,
              run_step hstep h₁, hj, h₂, ?_, hq⟩
            rw [List.append_assoc, ← hp, List.append_nil, has]
        | cons w ws' =>
            obtain ⟨rfl, hpost⟩ := List.cons.inj hbs
            exact ⟨[], i, rest, s, s₁, [], pre, ws', bs, rfl, has ▸ hstep, hrest,
              rfl, hpost⟩
      · obtain ⟨is₁, j, is₂, u, v, t₁, as₁, as₂, t₂, h₁, hj, h₂, hp, hq⟩ :=
          ih (hbs ▸ hrest)
        refine ⟨i :: is₁, j, is₂, u, v, as ++ t₁, as₁, as₂, t₂,
          run_step hstep h₁, hj, h₂, ?_, hq⟩
        rw [hpre, hp, List.append_assoc]

/-- **CONDITIONAL INVARIANT RULE**: along a run whose steps meet the condition
    the invariant holds in every state. -/
theorem always_of_along {Inv : σ → Prop} {C : σ → ι → Prop}
    (hstep : ∀ s i s' as, Inv s → C s i → step s i = some (s', as) → Inv s') :
    ∀ (is : List ι) {s : σ}, Inv s → Along step C s is → Always step Inv s is := by
  intro is
  induction is with
  | nil => exact fun hs _ => hs
  | cons i rest ih =>
      intro s hs hC
      refine ⟨hs, ?_⟩
      intro s' as h
      exact ih (hstep s i s' as hs hC.1 h) (hC.2 s' as h)

theorem always_head {P : σ → Prop} (is : List ι) {s : σ} (h : Always step P s is) :
    P s := by
  cases is with
  | nil => exact h
  | cons i rest => exact h.1

/-- What holds always holds at the end. -/
theorem always_run {P : σ → Prop} :
    ∀ (is : List ι) {s s' : σ} {t : List α}, Always step P s is →
      run step s is = some (s', t) → P s' := by
  intro is
  induction is with
  | nil =>
      intro s s' t hs h
      rw [← (Prod.mk.inj (Option.some.inj h)).1]
      exact hs
  | cons i rest ih =>
      intro s s' t hs h
      obtain ⟨s₁, as, bs, h₁, hrest, -⟩ := run_cons h
      exact ih (hs.2 s₁ as h₁) hrest

/-- A weaker property holds wherever the stronger one does. -/
theorem always_mono {P Q : σ → Prop} (h : ∀ s, P s → Q s) :
    ∀ (is : List ι) {s : σ}, Always step P s is → Always step Q s is := by
  intro is
  induction is with
  | nil => exact fun hs => h _ hs
  | cons i rest ih =>
      rintro s ⟨hs, hall⟩
      exact ⟨h s hs, fun s' as hstep => ih (hall s' as hstep)⟩

/-- **EXACT CONDITION RULE**: when a step leads from a good state to a good state
    exactly if it meets the condition, a run from a good state stays in good states
    exactly if all its steps meet the condition. -/
theorem always_iff_along_of {P : σ → Prop} {C : σ → ι → Prop}
    (hstep : ∀ s i s' as, P s → step s i = some (s', as) → (P s' ↔ C s i)) :
    ∀ (is : List ι) {s s' : σ} {t : List α}, P s → run step s is = some (s', t) →
      (Always step P s is ↔ Along step C s is) := by
  intro is
  induction is with
  | nil => exact fun hs _ => iff_of_true hs trivial
  | cons i rest ih =>
      intro s s' t hs h
      obtain ⟨s₁, as, bs, h₁, hrest, -⟩ := run_cons h
      constructor
      · rintro ⟨-, hall⟩
        have halways := hall s₁ as h₁
        have hs₁ := always_head rest halways
        refine ⟨(hstep s i s₁ as hs h₁).mp hs₁, ?_⟩
        intro s₂ as₂ hs₂
        obtain ⟨rfl, -⟩ := Prod.mk.inj (Option.some.inj (h₁.symm.trans hs₂))
        exact (ih hs₁ hrest).mp halways
      · rintro ⟨hC, hall⟩
        refine ⟨hs, ?_⟩
        intro s₂ as₂ hs₂
        obtain ⟨rfl, -⟩ := Prod.mk.inj (Option.some.inj (h₁.symm.trans hs₂))
        have hs₁ : P s₁ := (hstep s i s₁ as hs h₁).mpr hC
        exact (ih hs₁ hrest).mpr (hall s₁ as h₁)

/-- When the condition is exact from any state, the start counts too. -/
theorem always_iff_along {P : σ → Prop} {C : σ → ι → Prop}
    (hstep : ∀ s i s' as, step s i = some (s', as) → (P s' ↔ C s i))
    (is : List ι) {s s' : σ} {t : List α} (h : run step s is = some (s', t)) :
    Always step P s is ↔ P s ∧ Along step C s is := by
  have hof : P s → (Always step P s is ↔ Along step C s is) := fun hs =>
    always_iff_along_of (fun s i s' as _ h₁ => hstep s i s' as h₁) is hs h
  constructor
  · intro hall
    have hs := always_head is hall
    exact ⟨hs, (hof hs).mp hall⟩
  · rintro ⟨hs, hC⟩
    exact (hof hs).mpr hC

/-- **CONDITION CHANGE RULE**: two conditions that say the same in every state
    of an invariant, which the steps that meet them keep, say the same along every
    run that starts in it. -/
theorem along_congr {Inv : σ → Prop} {C D : σ → ι → Prop}
    (hinv : ∀ s i s' as, Inv s → D s i → step s i = some (s', as) → Inv s')
    (h : ∀ s i, Inv s → (C s i ↔ D s i)) :
    ∀ (is : List ι) {s : σ}, Inv s → (Along step C s is ↔ Along step D s is) := by
  intro is
  induction is with
  | nil => exact fun _ => Iff.rfl
  | cons i rest ih =>
      intro s hs
      constructor
      · rintro ⟨hC, hrest⟩
        have hD := (h s i hs).mp hC
        refine ⟨hD, ?_⟩
        intro s' as hstep
        exact (ih (hinv s i s' as hs hD hstep)).mp (hrest s' as hstep)
      · rintro ⟨hD, hrest⟩
        refine ⟨(h s i hs).mpr hD, ?_⟩
        intro s' as hstep
        exact (ih (hinv s i s' as hs hD hstep)).mpr (hrest s' as hstep)

end Runs
