import BookFilerHttp.ByteStringProofs
import BookFilerHttp.RunsProofs

/-! # Waiting and notifying: `ModuleExport`

    `wait(h)` registers a condition variable for the handle under the global mutex
    and blocks on it; `notify(h)` looks the handle up WITHOUT the mutex and wakes
    one waiter, if there is one.  Nothing remembers a notification, and the wait
    has no predicate.

    The calls of all threads are broken into steps that interleave freely, and the
    threads that stand at one point of the code are counted, handle by handle.
    `notifications_kept` says that no notification is lost and no wait returns
    without one, in every run whose steps are all timely: a notification finds its
    handle and a waiter to wake, and no more waiters wake up than were notified.
    `untimely_loses` says that nothing less will do: after any other step the
    scheduler can lose one. -/

namespace HttpModule

open ByteString Runs

/-! ## The module -/

/-- The calls on one handle.  A wait is entering, holds the mutex, is blocked, is
    woken, or has returned; a notify has begun, stands before `notify_one`, or is
    completed. -/
structure Calls where
  registered : Bool
  started : Nat
  entering : Nat
  holding : Nat
  blocked : Nat
  woken : Nat
  returned : Nat
  begun : Nat
  notifying : Nat
  notified : Nat

def Calls.none : Calls := ⟨false, 0, 0, 0, 0, 0, 0, 0, 0, 0⟩

/-- `conditionVariableMap` and the calls under way, and whether `globalMutex` is
    held. -/
structure ModuleState (H : Type) where
  calls : H → Calls
  globalMutex : Bool

/-- The steps of `wait` and `notify`, and the spurious wakeup of a waiter. -/
inductive Step (H : Type) where
  | wait (h : H)
  | register (h : H)
  | block (h : H)
  | waitReturn (h : H)
  | notify (h : H)
  | notifyOne (h : H)
  | spurious (h : H)

variable {H : Type}

def ModuleState.init : ModuleState H := ⟨fun _ => Calls.none, false⟩

/-- One handle moves, and the mutex with it. -/
def ModuleState.set [DecidableEq H] (s : ModuleState H) (h : H) (c : Calls)
    (globalMutex : Bool) : ModuleState H :=
  ⟨Function.update s.calls h c, globalMutex⟩

/-- A waiter leaves the condition variable. -/
def Calls.wake (c : Calls) : Calls :=
  { c with blocked := c.blocked - 1, woken := c.woken + 1 }

/-- One step of one thread; a step that no thread stands before is refused. -/
def moduleStep [DecidableEq H] (s : ModuleState H) :
    Step H → Option (ModuleState H × List Unit)
  | .wait h =>
      let c := s.calls h
      some (s.set h { c with started := c.started + 1, entering := c.entering + 1 }
        s.globalMutex, [])
  | .register h =>
      -- the lock, `emplace` and `find`
      let c := s.calls h
      if 0 < c.entering ∧ s.globalMutex = false then
        some (s.set h { c with
          registered := true, entering := c.entering - 1, holding := c.holding + 1 }
          true, [])
      else none
  | .block h =>
      -- the condition variable releases the mutex
      let c := s.calls h
      if 0 < c.holding then
        some (s.set h { c with holding := c.holding - 1, blocked := c.blocked + 1 }
          false, [])
      else none
  | .waitReturn h =>
      -- the mutex is taken again and released
      let c := s.calls h
      if 0 < c.woken ∧ s.globalMutex = false then
        some (s.set h { c with woken := c.woken - 1, returned := c.returned + 1 }
          false, [])
      else none
  | .notify h =>
      -- `find`; an unknown handle ends the call
      let c := s.calls h
      if c.registered then
        some (s.set h { c with begun := c.begun + 1, notifying := c.notifying + 1 }
          s.globalMutex, [])
      else
        some (s.set h { c with begun := c.begun + 1, notified := c.notified + 1 }
          s.globalMutex, [])
  | .notifyOne h =>
      -- without a waiter `notify_one` does nothing
      let c := s.calls h
      if 0 < c.notifying then
        let c := { c with notifying := c.notifying - 1, notified := c.notified + 1 }
        some (s.set h (if 0 < c.blocked then c.wake else c) s.globalMutex, [])
      else none
  | .spurious h =>
      let c := s.calls h
      if 0 < c.blocked then some (s.set h c.wake s.globalMutex, []) else none

/-! ## No notification is lost -/

/-- No wait is blocked that has been notified for, and no wait has returned
    without a notify. -/
def Safe (s : ModuleState H) : Prop :=
  ∀ h, ¬ (0 < (s.calls h).blocked ∧ (s.calls h).started ≤ (s.calls h).notified)
    ∧ (s.calls h).returned ≤ (s.calls h).begun

/-- The waits that are over: woken, by a notify or spuriously. -/
def Calls.over (c : Calls) : Nat := c.woken + c.returned

/-- A notify finds its handle; `notify_one` finds a waiter to wake, or comes after
    a spurious wakeup that took its place; and a waiter wakes up only while fewer
    waits are over than notifies have begun. -/
def Timely (s : ModuleState H) : Step H → Prop
  | .notify h => (s.calls h).registered = true
  | .notifyOne h =>
      if 0 < (s.calls h).blocked then (s.calls h).over < (s.calls h).begun
      else (s.calls h).notified < (s.calls h).over
  | .spurious h => (s.calls h).over < (s.calls h).begun
  | _ => True

/-- Every wait and every notify is counted where it stands, and nothing has
    happened to the waits on an unknown handle. -/
structure Counted (c : Calls) : Prop where
  waits : c.started = c.entering + c.holding + c.blocked + c.over
  notifies : c.begun = c.notifying + c.notified
  unknown : c.registered = false → c.holding = 0 ∧ c.blocked = 0 ∧ c.over = 0

/-- The waits that are over lie between the notifies that are completed and those
    that have begun. -/
def InOrder (c : Calls) : Prop := c.notified ≤ c.over ∧ c.over ≤ c.begun

def Inv (s : ModuleState H) : Prop := ∀ h, Counted (s.calls h) ∧ InOrder (s.calls h)

theorem inv_init : Inv (ModuleState.init : ModuleState H) :=
  fun _ => ⟨⟨rfl, rfl, fun _ => ⟨rfl, rfl, rfl⟩⟩, Nat.le_refl _, Nat.le_refl _⟩

theorem safe_of_inv {s : ModuleState H} (hs : Inv s) : Safe s := by
  intro h
  obtain ⟨⟨hwaits, hnotifies, -⟩, hle, hge⟩ := hs h
  have hreturned : (s.calls h).returned ≤ (s.calls h).over := Nat.le_add_left _ _
  omega

variable {s s' : ModuleState H} {i : Step H} {as : List Unit}

/-- The change that a step makes to the calls on its handle, and to the mutex:
    calls stay counted, calls in order stay in order exactly when the step is
    timely, and the mutex is held by a wait that is about to block. -/
structure Change (s : ModuleState H) (i : Step H) (h : H) (c : Calls) (b : Bool) :
    Prop where
  counted : Counted (s.calls h) → Counted c
  inOrder : Counted (s.calls h) → InOrder (s.calls h) → (InOrder c ↔ Timely s i)
  held : b = true →
    0 < c.holding ∨ s.globalMutex = true ∧ c.holding = (s.calls h).holding

/-- A timely step that keeps calls in order. -/
theorem Change.of_inOrder {h : H} {c : Calls} {b : Bool}
    (hcounted : Counted (s.calls h) → Counted c)
    (hord : InOrder (s.calls h) → InOrder c) (hi : Timely s i)
    (hheld : b = true →
      0 < c.holding ∨ s.globalMutex = true ∧ c.holding = (s.calls h).holding) :
    Change s i h c b :=
  ⟨hcounted, fun _ ho => iff_of_true (hord ho) hi, hheld⟩

variable [DecidableEq H]

@[simp] theorem set_globalMutex (s : ModuleState H) (h : H) (c : Calls) (b : Bool) :
    (s.set h c b).globalMutex = b := rfl

@[simp] theorem set_calls (s : ModuleState H) (h : H) (c : Calls) (b : Bool) :
    (s.set h c b).calls h = c := Function.update_self ..

/-- A step on one handle leaves the other handles alone. -/
theorem forall_set {P : Calls → Prop} (hs : ∀ h, P (s.calls h)) {h : H} {c : Calls}
    (hc : P c) (b : Bool) : ∀ h', P ((s.set h c b).calls h') := by
  intro h'
  by_cases heq : h' = h
  · subst heq
    rw [set_calls]
    exact hc
  · show P (Function.update s.calls h c h')
    rw [Function.update_of_ne heq]
    exact hs h'

/-- **ONE STEP** changes the calls on one handle. -/
theorem step_change (h : moduleStep s i = some (s', as)) :
    ∃ h₀ c b, s' = s.set h₀ c b ∧ Change s i h₀ c b := by
  have hset : ∀ {h₀ : H} {c : Calls} {b : Bool},
      some (s.set h₀ c b, []) = some (s', as) → Change s i h₀ c b →
      ∃ h₀ c b, s' = s.set h₀ c b ∧ Change s i h₀ c b := by
    intro h₀ c b heq hc
    exact ⟨h₀, c, b, (Prod.mk.inj (Option.some.inj heq)).1.symm, hc⟩
  cases i with
  | wait h₀ =>
      refine hset h (Change.of_inOrder ?_ id trivial (fun hb => Or.inr ⟨hb, rfl⟩))
      rintro ⟨hwaits, hnotifies, hunknown⟩
      constructor <;> simp only [Calls.over] at * <;> grind
  | register h₀ =>
      obtain ⟨hguard, heq⟩ := Option.ite_none_right_eq_some.mp h
      refine hset heq (Change.of_inOrder ?_ id trivial
        (fun _ => Or.inl (Nat.succ_pos _)))
      rintro ⟨hwaits, hnotifies, hunknown⟩
      constructor <;> simp only [Calls.over] at * <;> grind
  | block h₀ =>
      obtain ⟨hguard, heq⟩ := Option.ite_none_right_eq_some.mp h
      refine hset heq (Change.of_inOrder ?_ id trivial (fun hb => nomatch hb))
      rintro ⟨hwaits, hnotifies, hunknown⟩
      constructor <;> simp only [Calls.over] at * <;> grind
  | waitReturn h₀ =>
      obtain ⟨hguard, heq⟩ := Option.ite_none_right_eq_some.mp h
      refine hset heq (Change.of_inOrder ?_ ?_ trivial (fun hb => nomatch hb))
      · rintro ⟨hwaits, hnotifies, hunknown⟩
        constructor <;> simp only [Calls.over] at * <;> grind
      · rintro ⟨hle, hge⟩
        constructor <;> simp only [Calls.over] at * <;> omega
  | notify h₀ =>
      by_cases hfound : (s.calls h₀).registered = true
      · simp only [moduleStep, if_pos hfound] at h
        refine hset h (Change.of_inOrder ?_ ?_ hfound (fun hb => Or.inr ⟨hb, rfl⟩))
        · rintro ⟨hwaits, hnotifies, hunknown⟩
          constructor <;> simp only [Calls.over] at * <;> grind
        · exact fun ⟨hle, hge⟩ => ⟨hle, Nat.le_succ_of_le hge⟩
      · simp only [moduleStep, if_neg hfound] at h
        refine hset h ⟨?_, ?_, fun hb => Or.inr ⟨hb, rfl⟩⟩
        · rintro ⟨hwaits, hnotifies, hunknown⟩
          constructor <;> simp only [Calls.over] at * <;> grind
        · -- nobody waits on an unknown handle
          rintro ⟨-, -, hunknown⟩ -
          obtain ⟨-, -, hover⟩ := hunknown (Bool.eq_false_iff.mpr hfound)
          refine iff_of_false ?_ hfound
          rintro ⟨hle, -⟩
          simp only [Calls.over] at *
          omega
  | notifyOne h₀ =>
      obtain ⟨hguard, heq⟩ := Option.ite_none_right_eq_some.mp h
      by_cases hblocked : 0 < (s.calls h₀).blocked
      · -- a waiter is woken
        simp only [if_pos hblocked] at heq
        refine hset heq ⟨?_, ?_, fun hb => Or.inr ⟨hb, rfl⟩⟩
        · rintro ⟨hwaits, hnotifies, hunknown⟩
          constructor <;> simp only [Calls.over, Calls.wake] at * <;> grind
        · rintro - ⟨hle, hge⟩
          simp only [Timely, if_pos hblocked, InOrder, Calls.over, Calls.wake] at *
          omega
      · -- there is nobody to wake
        simp only [if_neg hblocked] at heq
        refine hset heq ⟨?_, ?_, fun hb => Or.inr ⟨hb, rfl⟩⟩
        · rintro ⟨hwaits, hnotifies, hunknown⟩
          constructor <;> simp only [Calls.over] at * <;> grind
        · rintro - ⟨hle, hge⟩
          simp only [Timely, if_neg hblocked, InOrder, Calls.over] at *
          omega
  | spurious h₀ =>
      obtain ⟨hblocked, heq⟩ := Option.ite_none_right_eq_some.mp h
      refine hset heq ⟨?_, ?_, fun hb => Or.inr ⟨hb, rfl⟩⟩
      · rintro ⟨hwaits, hnotifies, hunknown⟩
        constructor <;> simp only [Calls.over, Calls.wake] at * <;> grind
      · rintro - ⟨hle, hge⟩
        simp only [Timely, InOrder, Calls.over, Calls.wake] at *
        omega

/-- Balanced calls stay balanced exactly in a timely step. -/
theorem inv_step_iff (hs : Inv s) (h : moduleStep s i = some (s', as)) :
    Inv s' ↔ Timely s i := by
  obtain ⟨h₀, c, b, rfl, hc⟩ := step_change h
  obtain ⟨hcounted, hord⟩ := hs h₀
  constructor
  · intro hs'
    have hc' := hs' h₀
    rw [set_calls] at hc'
    exact (hc.inOrder hcounted hord).mp hc'.2
  · intro hi
    have hc' : Counted c ∧ InOrder c :=
      ⟨hc.counted hcounted, (hc.inOrder hcounted hord).mpr hi⟩
    exact forall_set (P := fun c => Counted c ∧ InOrder c) hs hc' b

/-- **HEADLINE**: in every interleaving of waits and notifies whose steps are all
    timely, no state reached has a lost notification. -/
theorem notifications_kept (steps : List (Step H))
    (h : Along moduleStep Timely ModuleState.init steps) :
    Always moduleStep Safe (ModuleState.init : ModuleState H) steps :=
  always_mono (fun _ => safe_of_inv) steps
    (always_of_along (fun _ _ _ _ hs hi hstep => (inv_step_iff hs hstep).mpr hi)
      steps inv_init h)

/-- A wait that blocks before it is notified. -/
theorem notifications_kept_auth :
    Always moduleStep Safe ModuleState.init [.wait (lit "auth"), .register (lit "auth"),
      .block (lit "auth"), .notify (lit "auth"), .notifyOne (lit "auth"),
      .waitReturn (lit "auth")] := by
  refine notifications_kept _ ?_
  simp [Along, moduleStep, Timely, ModuleState.init, ModuleState.set, Calls.none,
    Calls.wake, Calls.over]

/-- The redirect is handled before the application waits: the notification finds
    no handle, and the wait that follows stays blocked. -/
theorem notifications_not_kept :
    ¬ Always moduleStep Safe ModuleState.init [.notify (lit "auth"),
      .wait (lit "auth"), .register (lit "auth"), .block (lit "auth")] := by
  intro h
  have hrun : run moduleStep ModuleState.init [.notify (lit "auth"),
      .wait (lit "auth"), .register (lit "auth"), .block (lit "auth")]
      = some (⟨Function.update (fun _ => Calls.none) (lit "auth")
          ⟨true, 1, 0, 0, 1, 0, 0, 1, 0, 1⟩, false⟩, []) := by
    simp [run, moduleStep, ModuleState.init, ModuleState.set, Calls.none]
  have hsafe := (always_run _ h hrun (lit "auth")).1
  simp at hsafe

/-! ## An untimely step loses -/

/-- Some scheduling from here on loses a notification. -/
def Losable (s : ModuleState H) : Prop :=
  ∃ steps s' t, run moduleStep s steps = some (s', t) ∧ ¬ Safe s'

theorem Losable.of_step (h : moduleStep s i = some (s', as)) (hl : Losable s') :
    Losable s := by
  obtain ⟨steps, s'', t, hrun, hunsafe⟩ := hl
  exact ⟨i :: steps, s'', as ++ t, run_step h hrun, hunsafe⟩

/-- The mutex is held by a wait that is about to block. -/
def Held (s : ModuleState H) : Prop :=
  s.globalMutex = true → ∃ h, 0 < (s.calls h).holding

theorem held_step (hs : Held s) (h : moduleStep s i = some (s', as)) : Held s' := by
  obtain ⟨h₀, c, b, rfl, hc⟩ := step_change h
  intro hb
  rw [set_globalMutex] at hb
  rcases hc.held hb with hpos | ⟨hmutex, hsame⟩
  · exact ⟨h₀, by rw [set_calls]; exact hpos⟩
  · obtain ⟨h₁, hpos⟩ := hs hmutex
    by_cases heq : h₁ = h₀
    · subst heq
      refine ⟨h₁, ?_⟩
      rw [set_calls, hsame]
      exact hpos
    · refine ⟨h₁, ?_⟩
      show 0 < (Function.update s.calls h₀ c h₁).holding
      rw [Function.update_of_ne heq]
      exact hpos

/-- More waits have returned than were notified for, or will have. -/
theorem losable_returned (h : H) (n : Nat) :
    ∀ {s : ModuleState H}, s.globalMutex = false → (s.calls h).woken = n →
      (s.calls h).begun < (s.calls h).over → Losable s := by
  induction n with
  | zero =>
      intro s hmutex hwoken hover
      refine ⟨[], s, [], rfl, ?_⟩
      intro hsafe
      have hreturned := (hsafe h).2
      simp only [Calls.over] at hover
      omega
  | succ n ih =>
      intro s hmutex hwoken hover
      have hstep : moduleStep s (.waitReturn h) = some (s.set h { s.calls h with
          woken := (s.calls h).woken - 1, returned := (s.calls h).returned + 1 }
          false, []) :=
        if_pos ⟨by omega, hmutex⟩
      refine Losable.of_step hstep (ih rfl ?_ ?_)
      · rw [set_calls]
        show (s.calls h).woken - 1 = n
        omega
      · simp only [set_calls, Calls.over] at hover ⊢
        omega

/-- A blocked wait is left behind by the notifies that are still to come. -/
theorem losable_blocked (h : H) (n : Nat) :
    ∀ {s : ModuleState H}, (s.calls h).started ≤ (s.calls h).notified + n →
      0 < (s.calls h).blocked →
      (s.calls h).started < (s.calls h).blocked + (s.calls h).notified → Losable s := by
  induction n with
  | zero =>
      intro s hstarted hblocked hlost
      exact ⟨[], s, [], rfl, fun hsafe => (hsafe h).1 ⟨hblocked, hstarted⟩⟩
  | succ n ih =>
      intro s hstarted hblocked hlost
      by_cases hdone : (s.calls h).started ≤ (s.calls h).notified
      · exact ⟨[], s, [], rfl, fun hsafe => (hsafe h).1 ⟨hblocked, hdone⟩⟩
      · by_cases hfound : (s.calls h).registered = true
        · -- one more notify wakes one of at least two
          have hnotify : moduleStep s (.notify h) = some (s.set h { s.calls h with
              begun := (s.calls h).begun + 1,
              notifying := (s.calls h).notifying + 1 } s.globalMutex, []) :=
            if_pos hfound
          refine Losable.of_step hnotify ?_
          have hone : ∀ {s₁ : ModuleState H}, 0 < (s₁.calls h).notifying →
              0 < (s₁.calls h).blocked →
              moduleStep s₁ (.notifyOne h) = some (s₁.set h (Calls.wake { s₁.calls h with
                notifying := (s₁.calls h).notifying - 1,
                notified := (s₁.calls h).notified + 1 }) s₁.globalMutex, []) := by
            intro s₁ hnotifying hblocked₁
            simp only [moduleStep, if_pos hnotifying, if_pos hblocked₁]
          refine Losable.of_step (hone ?_ ?_) (ih ?_ ?_ ?_)
          all_goals simp only [set_calls, Calls.wake]
          all_goals omega
        · have hnotify : moduleStep s (.notify h) = some (s.set h { s.calls h with
              begun := (s.calls h).begun + 1, notified := (s.calls h).notified + 1 }
              s.globalMutex, []) :=
            if_neg hfound
          refine Losable.of_step hnotify (ih ?_ ?_ ?_)
          all_goals simp only [set_calls]
          all_goals omega

/-- The waits under way all block, and one of them is left behind. -/
theorem losable_entering (h : H) (n : Nat) :
    ∀ {s : ModuleState H}, 2 * (s.calls h).entering + (s.calls h).holding = n →
      (s.globalMutex = false ∨ 0 < (s.calls h).holding) →
      (s.calls h).started = (s.calls h).entering + (s.calls h).holding
        + (s.calls h).blocked + (s.calls h).over →
      0 < (s.calls h).entering + (s.calls h).holding + (s.calls h).blocked →
      (s.calls h).over < (s.calls h).notified → Losable s := by
  induction n with
  | zero =>
      intro s hn _ hwaits hpos hover
      exact losable_blocked h (s.calls h).started (Nat.le_add_left _ _) (by omega)
        (by omega)
  | succ n ih =>
      intro s hn hmutex hwaits hpos hover
      by_cases hholding : 0 < (s.calls h).holding
      · have hstep : moduleStep s (.block h) = some (s.set h { s.calls h with
            holding := (s.calls h).holding - 1, blocked := (s.calls h).blocked + 1 }
            false, []) :=
          if_pos hholding
        refine Losable.of_step hstep (ih ?_ (Or.inl rfl) ?_ ?_ ?_)
        all_goals simp only [set_calls, Calls.over] at *
        all_goals omega
      · have hstep : moduleStep s (.register h) = some (s.set h { s.calls h with
            registered := true, entering := (s.calls h).entering - 1,
            holding := (s.calls h).holding + 1 } true, []) :=
          if_pos ⟨by omega, hmutex.resolve_right hholding⟩
        refine Losable.of_step hstep (ih ?_ (Or.inr ?_) ?_ ?_ ?_)
        all_goals simp only [set_calls, Calls.over] at *
        all_goals omega

/-- The mutex can be had: whoever holds it blocks. -/
theorem exists_free (hs : Held s) (h : H) :
    ∃ s', (Losable s' → Losable s) ∧ s'.globalMutex = false
      ∧ (s'.calls h = s.calls h
        ∨ 0 < (s.calls h).holding ∧ s'.calls h = { s.calls h with
            holding := (s.calls h).holding - 1,
            blocked := (s.calls h).blocked + 1 }) := by
  by_cases hmutex : s.globalMutex = true
  · obtain ⟨h₁, hholding⟩ := hs hmutex
    have hstep : moduleStep s (.block h₁) = some (s.set h₁ { s.calls h₁ with
        holding := (s.calls h₁).holding - 1, blocked := (s.calls h₁).blocked + 1 }
        false, []) :=
      if_pos hholding
    refine ⟨_, Losable.of_step hstep, rfl, ?_⟩
    by_cases heq : h = h₁
    · subst heq
      exact Or.inr ⟨hholding, set_calls ..⟩
    · exact Or.inl (Function.update_of_ne heq ..)
  · exact ⟨s, id, Bool.eq_false_iff.mpr hmutex, Or.inl rfl⟩

/-- Calls out of order lose: either a wait can be left behind, or one can return
    too many. -/
theorem losable_of_not_inOrder (hs : Held s) {h : H} (hc : Counted (s.calls h))
    (hord : ¬ InOrder (s.calls h)) : Losable s := by
  obtain ⟨hwaits, -, -⟩ := hc
  obtain ⟨s₁, hlose, hmutex, hcalls⟩ := exists_free hs h
  refine hlose ?_
  by_cases hle : (s.calls h).notified ≤ (s.calls h).over
  · have hover : (s.calls h).begun < (s.calls h).over := by
      by_contra hge
      exact hord ⟨hle, Nat.le_of_not_lt hge⟩
    refine losable_returned h (s₁.calls h).woken hmutex rfl ?_
    rcases hcalls with heq | ⟨-, heq⟩
    · rw [heq]
      exact hover
    · rw [heq]
      exact hover
  · -- one more wait, so that there is one to leave behind
    have hstep : moduleStep s₁ (.wait h) = some (s₁.set h { s₁.calls h with
        started := (s₁.calls h).started + 1, entering := (s₁.calls h).entering + 1 }
        s₁.globalMutex, []) := rfl
    refine Losable.of_step hstep (losable_entering h _ rfl (Or.inl hmutex) ?_ ?_ ?_)
    all_goals rcases hcalls with heq | ⟨hholding, heq⟩
    all_goals simp only [set_calls, heq, Calls.over] at *
    all_goals omega

/-- **THE CONDITION IS EXACT**: after any untimely step there is a scheduling that
    loses a notification. -/
theorem untimely_loses {steps : List (Step H)} {t : List Unit}
    (hrun : run moduleStep ModuleState.init steps = some (s, t))
    (htimely : Along moduleStep Timely ModuleState.init steps)
    (hstep : moduleStep s i = some (s', as)) (hi : ¬ Timely s i) : Losable s' := by
  have hs : Inv s :=
    always_run steps (always_of_along
      (fun _ _ _ _ hs hi hstep => (inv_step_iff hs hstep).mpr hi) steps inv_init htimely)
      hrun
  have hinit : Held (ModuleState.init : ModuleState H) := by
    intro hb
    cases hb
  have hheld : Held s :=
    run_invariant (fun _ _ _ _ hs h => held_step hs h) steps hinit hrun
  obtain ⟨h₀, c, b, rfl, hc⟩ := step_change hstep
  obtain ⟨hcounted, hord⟩ := hs h₀
  refine losable_of_not_inOrder (held_step hheld hstep) (h := h₀) ?_ ?_
  · rw [set_calls]
    exact hc.counted hcounted
  · rw [set_calls]
    exact fun hord' => hi ((hc.inOrder hcounted hord).mp hord')

end HttpModule
