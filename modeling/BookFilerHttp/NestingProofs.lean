import Mathlib

/-! # Nesting

    Tokens that open and close nodes, the forest they stand for, and the machine
    that builds the forest in ONE pass with a stack of open nodes.  A closing token
    closes the innermost open node, whatever its name; the caller compares the names
    afterwards, when the forest is there.

    `build_iff` is the specification: the machine builds a forest whose nodes are
    all closed exactly from the tokens of that forest. -/

namespace Nesting

variable {α β γ : Type}

/-- What a scanner delivers. -/
inductive Token (α β γ : Type) where
  | leaf (a : α)
  | opening (b : β)
  | closing (c : γ)

/-- Leaves and nodes next to each other; a node that was never closed has no closing
    part. -/
inductive Forest (α β γ : Type) where
  | nil
  | leaf (a : α) (rest : Forest α β γ)
  | node (b : β) (body : Forest α β γ) (c : Option γ) (rest : Forest α β γ)

namespace Forest

def append : Forest α β γ → Forest α β γ → Forest α β γ
  | .nil, g => g
  | .leaf a rest, g => .leaf a (rest.append g)
  | .node b body c rest, g => .node b body c (rest.append g)

/-- The tokens of a forest. -/
def tokens : Forest α β γ → List (Token α β γ)
  | .nil => []
  | .leaf a rest => .leaf a :: rest.tokens
  | .node b body c rest =>
      .opening b :: (body.tokens ++ ((c.map Token.closing).toList ++ rest.tokens))

/-- The first node, in the order of the tokens, that is not closed as it should be. -/
def firstUnclosed (ok : β → γ → Bool) : Forest α β γ → Option β
  | .nil => none
  | .leaf _ rest => rest.firstUnclosed ok
  | .node b body c rest =>
      if c.any (ok b) then (body.firstUnclosed ok).or (rest.firstUnclosed ok)
      else some b

theorem append_nil (f : Forest α β γ) : f.append .nil = f := by
  induction f with
  | nil => rfl
  | leaf a rest ih => rw [append, ih]
  | node b body c rest _ ih => rw [append, ih]

theorem append_assoc (f g h : Forest α β γ) :
    (f.append g).append h = f.append (g.append h) := by
  induction f with
  | nil => rfl
  | leaf a rest ih => rw [append, append, append, ih]
  | node b body c rest _ ih => rw [append, append, append, ih]

/-- The tokens of forests next to each other follow each other. -/
theorem tokens_append (f g : Forest α β γ) :
    (f.append g).tokens = f.tokens ++ g.tokens := by
  induction f with
  | nil => rfl
  | leaf a rest ih => rw [append, tokens, tokens, ih, List.cons_append]
  | node b body c rest _ ih =>
      rw [append, tokens, tokens, ih, List.cons_append, List.append_assoc, List.append_assoc]

/-- The first open node of two forests is that of the first, if it has one. -/
theorem firstUnclosed_append (ok : β → γ → Bool) (f g : Forest α β γ) :
    (f.append g).firstUnclosed ok = (f.firstUnclosed ok).or (g.firstUnclosed ok) := by
  induction f with
  | nil => rfl
  | leaf a rest ih => rw [append, firstUnclosed, firstUnclosed, ih]
  | node b body c rest _ ih =>
      rw [append, firstUnclosed, firstUnclosed, ih]
      split
      · rw [Option.or_assoc]
      · rfl

/-- Forests of closed nodes next to each other have closed nodes. -/
theorem firstUnclosed_append_eq_none {ok : β → γ → Bool} {f g : Forest α β γ} :
    (f.append g).firstUnclosed ok = none
      ↔ f.firstUnclosed ok = none ∧ g.firstUnclosed ok = none := by
  rw [firstUnclosed_append, Option.or_eq_none_iff]

end Forest

/-! ## The machine -/

/-- The forest under the innermost open node, and around it, innermost first, each
    open node with the forest before it. -/
structure State (α β γ : Type) where
  here : Forest α β γ
  outer : List (Forest α β γ × β)

def State.start : State α β γ := ⟨.nil, []⟩

/-- Forests next to what is there. -/
def State.push (s : State α β γ) (f : Forest α β γ) : State α β γ :=
  { s with here := s.here.append f }

/-- One token; none for a closing token without an open node. -/
def step (s : State α β γ) : Token α β γ → Option (State α β γ)
  | .leaf a => some (s.push (.leaf a .nil))
  | .opening b => some ⟨.nil, (s.here, b) :: s.outer⟩
  | .closing c =>
      match s.outer with
      | [] => none
      | (before, b) :: outer => some ⟨before.append (.node b s.here (some c) .nil), outer⟩

/-- At the end of the input the nodes that are still open stay without a closing
    part. -/
def finish : Forest α β γ → List (Forest α β γ × β) → Forest α β γ
  | here, [] => here
  | here, (before, b) :: outer => finish (before.append (.node b here none .nil)) outer

def run : State α β γ → List (Token α β γ) → Option (State α β γ)
  | s, [] => some s
  | s, t :: ts => (step s t).bind fun s => run s ts

def build (ts : List (Token α β γ)) : Option (Forest α β γ) :=
  (run .start ts).map fun s => finish s.here s.outer

/-! ## The specification -/

/-- The tokens read up to a state. -/
def State.tokens (s : State α β γ) : List (Token α β γ) :=
  s.outer.foldr (fun o ts => ts ++ o.1.tokens ++ [.opening o.2]) [] ++ s.here.tokens

/-- The step: a token is added behind those of the open nodes and their children. -/
theorem step_tokens {s s' : State α β γ} {t : Token α β γ} (h : step s t = some s') :
    s'.tokens = s.tokens ++ [t] := by
  cases t with
  | leaf a =>
      rw [← Option.some.inj h, State.push, State.tokens, Forest.tokens_append, State.tokens,
        List.append_assoc]
      rfl
  | opening b =>
      rw [← Option.some.inj h, State.tokens, State.tokens, List.foldr_cons]
      exact List.append_nil _
  | closing c =>
      rw [step] at h
      split at h
      · cases h
      · next before b outer houter =>
          rw [← Option.some.inj h, State.tokens, State.tokens, houter, List.foldr_cons,
            Forest.tokens_append]
          simp [Forest.tokens]

/-- The run: no token is lost, and their order stays. -/
theorem run_tokens (ts : List (Token α β γ)) :
    ∀ {s s' : State α β γ}, run s ts = some s' → s'.tokens = s.tokens ++ ts := by
  induction ts with
  | nil =>
      intro s s' h
      rw [← Option.some.inj h, List.append_nil]
  | cons t ts ih =>
      intro s s' h
      obtain ⟨s₁, hstep, hrun⟩ := Option.bind_eq_some_iff.mp h
      rw [ih hrun, step_tokens hstep, List.append_assoc, List.singleton_append]

/-- Runs one after another. -/
theorem run_append (ts ts' : List (Token α β γ)) :
    ∀ s : State α β γ, run s (ts ++ ts') = (run s ts).bind fun s => run s ts' := by
  induction ts with
  | nil => exact fun s => rfl
  | cons t ts ih =>
      intro s
      rw [List.cons_append, run, run, Option.bind_assoc]
      exact congrArg _ (funext ih)

/-- A node that stays open is found. -/
theorem firstUnclosed_finish (ok : β → γ → Bool) :
    ∀ (outer : List (Forest α β γ × β)) (here : Forest α β γ),
      (finish here outer).firstUnclosed ok = none → outer = [] := by
  intro outer
  induction outer with
  | nil => exact fun _ _ => rfl
  | cons o outer ih =>
      intro here h
      obtain ⟨before, b⟩ := o
      rw [finish] at h
      have houter := ih _ h
      subst houter
      rw [finish, Forest.firstUnclosed_append_eq_none] at h
      cases h.2

/-- The machine reads a forest of closed nodes as one piece. -/
theorem run_forest (ok : β → γ → Bool) (f : Forest α β γ) :
    ∀ s : State α β γ, f.firstUnclosed ok = none → run s f.tokens = some (s.push f) := by
  induction f with
  | nil =>
      intro s _
      rw [State.push, Forest.append_nil]
      rfl
  | leaf a rest ih =>
      intro s h
      rw [Forest.tokens, run, step, Option.bind_some, ih _ h, State.push, State.push,
        State.push, Forest.append_assoc]
      rfl
  | node b body c rest ihbody ihrest =>
      intro s h
      rw [Forest.firstUnclosed] at h
      split at h
      · next hok =>
          obtain ⟨hbody, hrest⟩ := Option.or_eq_none_iff.mp h
          cases c with
          | none => cases hok
          | some c =>
              rw [Forest.tokens, run, step, Option.bind_some, run_append, ihbody _ hbody]
              show run ⟨s.here.append (.node b (Forest.append .nil body) (some c) .nil),
                s.outer⟩ rest.tokens = _
              rw [ihrest _ hrest, State.push, State.push, Forest.append_assoc]
              rfl
      · cases h

/-- **SPECIFICATION**: a forest whose nodes are closed as they should be is built exactly
    from its tokens. -/
theorem build_iff (ok : β → γ → Bool) (ts : List (Token α β γ)) (f : Forest α β γ) :
    (build ts = some f ∧ f.firstUnclosed ok = none)
      ↔ (f.tokens = ts ∧ f.firstUnclosed ok = none) := by
  refine and_congr_left fun hclosed => ?_
  constructor
  · intro h
    obtain ⟨s, hrun, rfl⟩ := Option.map_eq_some_iff.mp h
    have houter := firstUnclosed_finish ok _ _ hclosed
    have htokens := run_tokens ts hrun
    rw [State.tokens, houter] at htokens
    rw [houter]
    exact htokens
  · rintro rfl
    rw [build, run_forest ok f _ hclosed]
    rfl

end Nesting
