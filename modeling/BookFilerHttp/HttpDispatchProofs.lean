import BookFilerHttp.HttpRouteProofs
import BookFilerHttp.RunsProofs

/-! # Concurrent dispatch

    Requests in flight on several I/O threads run `doSignal` against the same
    routes.  The steps of one request are: look the signal up, store a combiner
    bound to the own response in the signal, start the invocation with the
    combiner the signal holds THEN, call the slots, write the response.  A step
    may fall between any two steps of any other request; each request has its
    own exchange, which only its own slots change.

    The combiner lives in the signal, so a second request of the same path
    replaces it.  `dispatch_isolated` says what that costs: along every run in
    which no request stores a combiner while another one waits to invoke the
    same signal, every request gets the response it would get alone; and a step
    that breaks this rule takes the combiner away from the waiting request for
    good. -/

namespace HttpDispatch

open ByteString HttpRequest HttpResponse HttpRoute Runs

variable {W : Type}

/-! ## The steps -/

/-- How far a request has come.  `bound` is the request whose response the
    invocation's combiner is bound to. -/
inductive Phase (W : Type) where
  | start
  | found (key : Key) (sig : Signal W)
  | armed (key : Key) (sig : Signal W)
  | running (key : Key) (bound : Nat) (todo : List (Slot W)) (valueLast : Bytes)
  | done (bound : Option Nat) (rc : Int)

/-- The combiner that runs, or ran, the chain of a request. -/
def Phase.bound : Phase W → Option Nat
  | .running _ bound _ _ => some bound
  | .done bound _ => bound
  | _ => none

structure DispatchState (W : Type) where
  phase : Nat → Phase W
  exchange : Nat → Exchange W
  combiner : Key → Option Nat

namespace DispatchState

/-- Nothing dispatched, every signal with its default combiner. -/
def init (x₀ : Nat → Exchange W) : DispatchState W :=
  ⟨fun _ => .start, x₀, fun _ => none⟩

def setPhase (s : DispatchState W) (i : Nat) (p : Phase W) : DispatchState W :=
  { s with phase := Function.update s.phase i p }

def setExchange (s : DispatchState W) (i : Nat) (x : Exchange W) :
    DispatchState W :=
  { s with exchange := Function.update s.exchange i x }

/-- `set_combiner`. -/
def setCombiner (s : DispatchState W) (key : Key) (i : Nat) : DispatchState W :=
  { s with combiner := Function.update s.combiner key (some i) }

/-- The end of `doSignal`: the own response is filled in. -/
def finish (s : DispatchState W) (i bound : Nat) (bodyStr : Bytes) :
    DispatchState W :=
  (s.setExchange i ((s.exchange i).respond bodyStr)).setPhase i
    (.done (some bound) 0)

@[simp] theorem setPhase_phase_self (s : DispatchState W) (i : Nat) (p : Phase W) :
    (s.setPhase i p).phase i = p := Function.update_self ..

@[simp] theorem setPhase_exchange (s : DispatchState W) (i : Nat) (p : Phase W) :
    (s.setPhase i p).exchange = s.exchange := rfl

@[simp] theorem setPhase_combiner (s : DispatchState W) (i : Nat) (p : Phase W) :
    (s.setPhase i p).combiner = s.combiner := rfl

@[simp] theorem setExchange_exchange_self (s : DispatchState W) (i : Nat)
    (x : Exchange W) : (s.setExchange i x).exchange i = x :=
  Function.update_self ..

@[simp] theorem setCombiner_exchange (s : DispatchState W) (key : Key) (i : Nat) :
    (s.setCombiner key i).exchange = s.exchange := rfl

@[simp] theorem setCombiner_combiner_self (s : DispatchState W) (key : Key)
    (i : Nat) : (s.setCombiner key i).combiner key = some i :=
  Function.update_self ..

@[simp] theorem finish_phase_self (s : DispatchState W) (i bound : Nat)
    (bodyStr : Bytes) : (s.finish i bound bodyStr).phase i = .done (some bound) 0 :=
  setPhase_phase_self ..

@[simp] theorem finish_exchange_self (s : DispatchState W) (i bound : Nat)
    (bodyStr : Bytes) :
    (s.finish i bound bodyStr).exchange i = (s.exchange i).respond bodyStr :=
  setExchange_exchange_self ..

end DispatchState

/-- One step of request `i`.  A request that is done takes no step; neither does
    one that would invoke a signal with the default combiner. -/
def step (routes : RouteImpl W) (path : Nat → Bytes) (s : DispatchState W)
    (i : Nat) : Option (DispatchState W × List Unit) :=
  match s.phase i with
  | .start =>
      match routes.findSignal (path i) .get with
      | none => some (s.setPhase i (.done none (-1)), [])
      | some (key, sig) => some (s.setPhase i (.found key sig), [])
  | .found key sig => some ((s.setCombiner key i).setPhase i (.armed key sig), [])
  | .armed key sig =>
      -- the combiner in the signal NOW, whoever stored it
      match s.combiner key with
      | none => none
      | some bound => some (s.setPhase i (.running key bound sig.slots []), [])
  | .running _ bound [] valueLast => some (s.finish i bound valueLast, [])
  | .running key bound (slot :: rest) _ =>
      let (valueLast, x) := slot.function (s.exchange i)
      let s' := s.setExchange i x
      -- the slot got the own response, the test looks at the bound one
      match RouteCombiner.ended (s'.exchange bound).res with
      | some body => some (s'.finish i bound body, [])
      | none => some (s'.setPhase i (.running key bound rest valueLast), [])
  | .done _ _ => none

variable {routes : RouteImpl W} {path : Nat → Bytes} {s s' : DispatchState W}
  {i : Nat} {t : List Unit}

/-! ## What a step does -/

/-- The state after a slot of request `i` has been called. -/
def called (s : DispatchState W) (i : Nat) (slot : Slot W) : DispatchState W :=
  s.setExchange i (slot.function (s.exchange i)).2

/-- The seven kinds of step. -/
theorem step_cases (h : step routes path s i = some (s', t)) :
    (s.phase i = .start ∧ routes.findSignal (path i) .get = none
        ∧ s' = s.setPhase i (.done none (-1)))
    ∨ (∃ key sig, s.phase i = .start
        ∧ routes.findSignal (path i) .get = some (key, sig)
        ∧ s' = s.setPhase i (.found key sig))
    ∨ (∃ key sig, s.phase i = .found key sig
        ∧ s' = (s.setCombiner key i).setPhase i (.armed key sig))
    ∨ (∃ key sig bound, s.phase i = .armed key sig ∧ s.combiner key = some bound
        ∧ s' = s.setPhase i (.running key bound sig.slots []))
    ∨ (∃ key bound valueLast, s.phase i = .running key bound [] valueLast
        ∧ s' = s.finish i bound valueLast)
    ∨ (∃ key bound slot rest valueLast body,
        s.phase i = .running key bound (slot :: rest) valueLast
        ∧ RouteCombiner.ended ((called s i slot).exchange bound).res = some body
        ∧ s' = (called s i slot).finish i bound body)
    ∨ (∃ key bound slot rest valueLast,
        s.phase i = .running key bound (slot :: rest) valueLast
        ∧ RouteCombiner.ended ((called s i slot).exchange bound).res = none
        ∧ s' = (called s i slot).setPhase i
            (.running key bound rest (slot.function (s.exchange i)).1)) := by
  rw [step] at h
  split at h
  · next hp =>
      split at h
      · next hf =>
          exact Or.inl ⟨hp, hf, (Prod.mk.inj (Option.some.inj h)).1.symm⟩
      · next key sig hf =>
          exact Or.inr (Or.inl
            ⟨key, sig, hp, hf, (Prod.mk.inj (Option.some.inj h)).1.symm⟩)
  · next key sig hp =>
      exact Or.inr (Or.inr (Or.inl
        ⟨key, sig, hp, (Prod.mk.inj (Option.some.inj h)).1.symm⟩))
  · next key sig hp =>
      split at h
      · cases h
      · next bound hc =>
          exact Or.inr (Or.inr (Or.inr (Or.inl
            ⟨key, sig, bound, hp, hc, (Prod.mk.inj (Option.some.inj h)).1.symm⟩)))
  · next key bound valueLast hp =>
      exact Or.inr (Or.inr (Or.inr (Or.inr (Or.inl
        ⟨key, bound, valueLast, hp, (Prod.mk.inj (Option.some.inj h)).1.symm⟩))))
  · next key bound slot rest valueLast hp =>
      change (match RouteCombiner.ended ((called s i slot).exchange bound).res with
        | some body => some ((called s i slot).finish i bound body, [])
        | none => some ((called s i slot).setPhase i
            (.running key bound rest (slot.function (s.exchange i)).1), []))
        = some (s', t) at h
      split at h
      · next body he =>
          exact Or.inr (Or.inr (Or.inr (Or.inr (Or.inr (Or.inl
            ⟨key, bound, slot, rest, valueLast, body, hp, he,
              (Prod.mk.inj (Option.some.inj h)).1.symm⟩)))))
      · next he =>
          exact Or.inr (Or.inr (Or.inr (Or.inr (Or.inr (Or.inr
            ⟨key, bound, slot, rest, valueLast, hp, he,
              (Prod.mk.inj (Option.some.inj h)).1.symm⟩)))))
  · cases h

/-- A step of one request leaves phase and exchange of every other alone. -/
theorem step_frame (h : step routes path s i = some (s', t)) {j : Nat}
    (hj : j ≠ i) : s'.phase j = s.phase j ∧ s'.exchange j = s.exchange j := by
  rcases step_cases h with ⟨-, -, rfl⟩ | ⟨key, sig, -, -, rfl⟩ | ⟨key, sig, -, rfl⟩
    | ⟨key, sig, b, -, -, rfl⟩ | ⟨key, b, v, -, rfl⟩
    | ⟨key, b, slot, rest, v, body, -, -, rfl⟩ | ⟨key, b, slot, rest, v, -, -, rfl⟩
  all_goals
    constructor <;>
    simp only [DispatchState.setPhase, DispatchState.setExchange,
      DispatchState.setCombiner, DispatchState.finish, called,
      Function.update_of_ne hj]

/-- Only `set_combiner` writes a combiner, and it writes the own one. -/
theorem step_combiner (h : step routes path s i = some (s', t)) (key : Key) :
    s'.combiner key = s.combiner key
      ∨ (s'.combiner key = some i ∧ ∃ sig, s.phase i = .found key sig) := by
  rcases step_cases h with ⟨-, -, rfl⟩ | ⟨k, sig, -, -, rfl⟩ | ⟨k, sig, hp, rfl⟩
    | ⟨k, sig, b, -, -, rfl⟩ | ⟨k, b, v, -, rfl⟩
    | ⟨k, b, slot, rest, v, body, -, -, rfl⟩ | ⟨k, b, slot, rest, v, -, -, rfl⟩
  case inr.inr.inl =>
    by_cases hk : key = k
    · subst hk
      exact Or.inr ⟨Function.update_self .., sig, hp⟩
    · exact Or.inl (Function.update_of_ne hk ..)
  all_goals exact Or.inl rfl

/-! ## Isolation -/

/-- The condition on a step: a request stores its combiner only while no other
    request waits to invoke the same signal. -/
def Undisturbed (s : DispatchState W) (i : Nat) : Prop :=
  ∀ key sig, s.phase i = .found key sig →
    ∀ j, j ≠ i → ∀ sig', s.phase j ≠ .armed key sig'

/-- Isolation: a chain is run by a combiner bound to the own response, and a
    request that is done got what it gets when dispatched alone. -/
structure Isolated (routes : RouteImpl W) (path : Nat → Bytes)
    (x₀ : Nat → Exchange W) (s : DispatchState W) : Prop where
  ownCombiner : ∀ i bound, (s.phase i).bound = some bound → bound = i
  ownResponse : ∀ i bound rc, s.phase i = .done bound rc →
    (rc, s.exchange i) = routes.doGetSignal (path i) (x₀ i)

/-- Where a request stands between its start and the result it gets alone. -/
def OnTrack (routes : RouteImpl W) (path : Nat → Bytes) (x₀ : Nat → Exchange W)
    (s : DispatchState W) (i : Nat) : Prop :=
  match s.phase i with
  | .start => s.exchange i = x₀ i
  | .found key sig =>
      s.exchange i = x₀ i ∧ routes.findSignal (path i) .get = some (key, sig)
  | .armed key sig =>
      s.exchange i = x₀ i ∧ routes.findSignal (path i) .get = some (key, sig)
        ∧ s.combiner key = some i
  | .running _ bound todo valueLast =>
      bound = i ∧ ∃ key sig, routes.findSignal (path i) .get = some (key, sig)
        ∧ RouteCombiner.loop todo valueLast (s.exchange i)
          = RouteCombiner.call sig.slots (x₀ i)
  | .done bound rc =>
      (∀ b, bound = some b → b = i)
        ∧ (rc, s.exchange i) = routes.doGetSignal (path i) (x₀ i)

variable {x₀ : Nat → Exchange W}

/-- A request that another one's step left alone is still on track, unless it
    waits for a combiner that the step replaced. -/
theorem onTrack_frame {j : Nat} (hphase : s'.phase j = s.phase j)
    (hexchange : s'.exchange j = s.exchange j)
    (hcombiner : ∀ key sig, s.phase j = .armed key sig →
      s'.combiner key = s.combiner key)
    (h : OnTrack routes path x₀ s j) : OnTrack routes path x₀ s' j := by
  rw [OnTrack, hphase, hexchange]
  rw [OnTrack] at h
  cases hp : s.phase j with
  | armed key sig =>
      rw [hp] at h
      obtain ⟨hx, hf, hc⟩ := h
      exact ⟨hx, hf, (hcombiner key sig hp).trans hc⟩
  | start => rwa [hp] at h
  | found key sig => rwa [hp] at h
  | running key b todo v => rwa [hp] at h
  | done b rc => rwa [hp] at h

/-- A request stays on track by its own steps. -/
theorem onTrack_step (h : step routes path s i = some (s', t))
    (htrack : OnTrack routes path x₀ s i) : OnTrack routes path x₀ s' i := by
  rw [OnTrack] at htrack
  rcases step_cases h with ⟨hp, hf, rfl⟩ | ⟨key, sig, hp, hf, rfl⟩
    | ⟨key, sig, hp, rfl⟩ | ⟨key, sig, b, hp, hc, rfl⟩ | ⟨key, b, v, hp, rfl⟩
    | ⟨key, b, slot, rest, v, body, hp, he, rfl⟩ | ⟨key, b, slot, rest, v, hp, he, rfl⟩
  · -- no signal: the response stays untouched
    rw [hp] at htrack
    simp only [OnTrack, DispatchState.setPhase_phase_self,
      DispatchState.setPhase_exchange]
    refine ⟨fun b hb => (nomatch hb), ?_⟩
    rw [RouteImpl.doGetSignal_none hf, htrack]
  · rw [hp] at htrack
    simp only [OnTrack, DispatchState.setPhase_phase_self,
      DispatchState.setPhase_exchange]
    exact ⟨htrack, hf⟩
  · rw [hp] at htrack
    simp only [OnTrack, DispatchState.setPhase_phase_self,
      DispatchState.setPhase_exchange, DispatchState.setPhase_combiner,
      DispatchState.setCombiner_exchange, DispatchState.setCombiner_combiner_self]
    exact ⟨htrack.1, htrack.2, trivial⟩
  · -- the invocation starts with the own combiner
    rw [hp] at htrack
    obtain ⟨hx, hf, hown⟩ := htrack
    simp only [OnTrack, DispatchState.setPhase_phase_self,
      DispatchState.setPhase_exchange]
    refine ⟨Option.some.inj (hc.symm.trans hown), key, sig, hf, ?_⟩
    rw [hx, RouteCombiner.call_eq]
  · -- the last slot has been called
    rw [hp] at htrack
    obtain ⟨rfl, key', sig, hf, hloop⟩ := htrack
    simp only [OnTrack, DispatchState.finish_phase_self,
      DispatchState.finish_exchange_self]
    refine ⟨fun b hb => (Option.some.inj hb).symm, ?_⟩
    rw [RouteImpl.doGetSignal_some hf, ← hloop]
    rfl
  · -- a slot has been called and the own response is ended
    rw [hp] at htrack
    obtain ⟨rfl, key', sig, hf, hloop⟩ := htrack
    simp only [called, DispatchState.setExchange_exchange_self] at he
    simp only [OnTrack, DispatchState.finish_phase_self,
      DispatchState.finish_exchange_self, called,
      DispatchState.setExchange_exchange_self]
    refine ⟨fun b hb => (Option.some.inj hb).symm, ?_⟩
    rw [RouteCombiner.loop] at hloop
    simp only [he] at hloop
    rw [RouteImpl.doGetSignal_some hf, ← hloop]
  · -- a slot has been called and the chain goes on
    rw [hp] at htrack
    obtain ⟨rfl, key', sig, hf, hloop⟩ := htrack
    simp only [called, DispatchState.setExchange_exchange_self] at he
    simp only [OnTrack, DispatchState.setPhase_phase_self,
      DispatchState.setPhase_exchange, called,
      DispatchState.setExchange_exchange_self]
    refine ⟨trivial, key', sig, hf, ?_⟩
    rw [RouteCombiner.loop] at hloop
    simp only [he] at hloop
    exact hloop

/-- An undisturbed step keeps every request on track. -/
theorem onTrack_undisturbed (htrack : ∀ j, OnTrack routes path x₀ s j)
    (hcond : Undisturbed s i) (h : step routes path s i = some (s', t)) (j : Nat) :
    OnTrack routes path x₀ s' j := by
  by_cases hj : j = i
  · subst hj
    exact onTrack_step h (htrack j)
  · obtain ⟨hphase, hexchange⟩ := step_frame h hj
    refine onTrack_frame hphase hexchange ?_ (htrack j)
    intro key sig harmed
    rcases step_combiner h key with hsame | ⟨-, sig', hfound⟩
    · exact hsame
    · exact absurd harmed (hcond key sig' hfound j hj sig)

theorem isolated_of_onTrack (h : ∀ i, OnTrack routes path x₀ s i) :
    Isolated routes path x₀ s := by
  constructor
  · intro i b hb
    have hi := h i
    rw [OnTrack] at hi
    cases hp : s.phase i with
    | start => rw [hp] at hb; cases hb
    | found key sig => rw [hp] at hb; cases hb
    | armed key sig => rw [hp] at hb; cases hb
    | running key b' todo v =>
        rw [hp] at hb hi
        rw [← Option.some.inj hb]
        exact hi.1
    | done b' rc =>
        rw [hp] at hb hi
        exact hi.1 b hb
  · intro i b rc hp
    have hi := h i
    rw [OnTrack, hp] at hi
    exact hi.2

/-! ## A disturbed request -/

/-- The request waits for a signal that holds a foreign combiner, or runs or has
    run its chain with one. -/
def Disturbed (s : DispatchState W) (j : Nat) : Prop :=
  (∃ key sig, s.phase j = .armed key sig ∧ s.combiner key ≠ some j)
    ∨ ∃ bound, (s.phase j).bound = some bound ∧ bound ≠ j

/-- Once disturbed, always disturbed: a request stores its combiner only once. -/
theorem disturbed_step {j : Nat} (hd : Disturbed s j)
    (h : step routes path s i = some (s', t)) : Disturbed s' j := by
  by_cases hj : j = i
  · subst hj
    rcases hd with ⟨key, sig, harmed, hforeign⟩ | ⟨bound, hbound, hne⟩
    · rcases step_cases h with ⟨hp, -, rfl⟩ | ⟨k, g, hp, -, rfl⟩ | ⟨k, g, hp, rfl⟩
        | ⟨k, g, b, hp, hc, rfl⟩ | ⟨k, b, v, hp, rfl⟩
        | ⟨k, b, slot, rest, v, body, hp, -, rfl⟩ | ⟨k, b, slot, rest, v, hp, -, rfl⟩
      case inr.inr.inr.inl =>
        obtain ⟨rfl, -⟩ := Phase.armed.inj (harmed.symm.trans hp)
        refine Or.inr ⟨b, ?_, ?_⟩
        · rw [DispatchState.setPhase_phase_self, Phase.bound]
        · rintro rfl
          exact hforeign hc
      all_goals cases harmed.symm.trans hp
    · refine Or.inr ⟨bound, ?_, hne⟩
      rcases step_cases h with ⟨hp, -, rfl⟩ | ⟨k, g, hp, -, rfl⟩ | ⟨k, g, hp, rfl⟩
        | ⟨k, g, b, hp, hc, rfl⟩ | ⟨k, b, v, hp, rfl⟩
        | ⟨k, b, slot, rest, v, body, hp, -, rfl⟩ | ⟨k, b, slot, rest, v, hp, -, rfl⟩
      all_goals rw [hp] at hbound
      all_goals first
        | rw [DispatchState.finish_phase_self]; exact hbound
        | rw [DispatchState.setPhase_phase_self]; exact hbound
        | cases hbound
  · obtain ⟨hphase, -⟩ := step_frame h hj
    rcases hd with ⟨key, sig, harmed, hforeign⟩ | ⟨bound, hbound, hne⟩
    · refine Or.inl ⟨key, sig, hphase.trans harmed, ?_⟩
      rcases step_combiner h key with hsame | ⟨hset, -⟩
      · rw [hsame]
        exact hforeign
      · rw [hset]
        exact fun heq => hj (Option.some.inj heq).symm
    · exact Or.inr ⟨bound, by rw [hphase]; exact hbound, hne⟩

/-- Storing a combiner while another request waits disturbs that request. -/
theorem disturbed_of_not_undisturbed (h : step routes path s i = some (s', t))
    {key : Key} {sig sig' : Signal W} {j : Nat} (hfound : s.phase i = .found key sig)
    (hj : j ≠ i) (harmed : s.phase j = .armed key sig') : Disturbed s' j := by
  obtain ⟨hphase, -⟩ := step_frame h hj
  refine Or.inl ⟨key, sig', hphase.trans harmed, ?_⟩
  have hset : s'.combiner key = some i := by
    rw [step, hfound] at h
    rw [← (Prod.mk.inj (Option.some.inj h)).1]
    exact DispatchState.setCombiner_combiner_self s key i
  rw [hset]
  exact fun heq => hj (Option.some.inj heq).symm

/-- **ISOLATION**: along every run whose steps are undisturbed, every state
    reached is isolated.  Conversely a step that is not undisturbed disturbs a
    waiting request, and in no state after it is that request's chain run by a
    combiner bound to its own response. -/
theorem dispatch_isolated (routes : RouteImpl W) (path : Nat → Bytes)
    (x₀ : Nat → Exchange W) (schedule : List Nat) :
    (Along (step routes path) Undisturbed (.init x₀) schedule →
      Always (step routes path) (Isolated routes path x₀) (.init x₀) schedule)
    ∧ ∀ (s : DispatchState W) (i : Nat), ¬ Undisturbed s i → ∃ j, j ≠ i ∧
        ∀ (rest : List Nat) (s' : DispatchState W) (t : List Unit),
          run (step routes path) s (i :: rest) = some (s', t) →
          (s'.phase j).bound ≠ some j := by
  constructor
  · intro halong
    have htrack : Always (step routes path)
        (fun s => ∀ i, OnTrack routes path x₀ s i) (.init x₀) schedule :=
      always_of_along (fun s i s' t hs hC h => onTrack_undisturbed hs hC h) schedule
        (fun i => rfl) halong
    exact always_mono (fun s hs => isolated_of_onTrack hs) schedule htrack
  · intro s i hcond
    rw [Undisturbed] at hcond
    push Not at hcond
    obtain ⟨key, sig, hfound, j, hj, sig', harmed⟩ := hcond
    refine ⟨j, hj, ?_⟩
    intro rest s' t hrun
    obtain ⟨s₁, as, bs, h₁, hrest, -⟩ := run_cons hrun
    have hd : Disturbed s' j :=
      run_invariant (fun s i s' as hs h => disturbed_step hs h) rest
        (disturbed_of_not_undisturbed h₁ hfound hj harmed) hrest
    rcases hd with ⟨k, g, hp, -⟩ | ⟨bound, hb, hne⟩
    · rw [hp]
      intro h
      cases h
    · rw [hb]
      exact fun h => hne (Option.some.inj h)

/-! ## Two visitors of one page -/

/-- A page that ends the response with the name of the visitor. -/
def greet (x : Exchange Bytes) : Bytes × Exchange Bytes :=
  ([], { x with res := (x.res.end_ x.world).2, hasResponse := x.hasResponse })

/-- The page is registered for GET at `/`. -/
def greetRoutes : RouteImpl Bytes := register [⟨.get, lit "/", 10, greet⟩]

/-- The exchange of a visitor of that name. -/
def visitor (name : Bytes) : Exchange Bytes :=
  .make name
    (RequestImpl.fresh.setRequest ⟨lit "GET", lit "/", 11, true, [], []⟩).2 rfl
    ResponseBeast.fresh

/-- The first visitor is `A`, all others are `B`. -/
def visitors (i : Nat) : Exchange Bytes := visitor (if i = 0 then lit "A" else lit "B")

/-- A schedule in which the two visits overlap, but each visitor invokes the
    signal before the other one stores a combiner. -/
theorem overlap_undisturbed :
    Along (step greetRoutes (fun _ => lit "/")) Undisturbed (.init visitors)
      [0, 0, 1, 0, 1, 1, 0, 1] := by
  have hfind : greetRoutes.findSignal (lit "/") .get
      = some ((.get, lit "/"), ⟨[⟨10, greet⟩], List.pairwise_singleton ..⟩) := rfl
  simp [Along, Undisturbed, step, hfind, greet, DispatchState.init,
    DispatchState.setPhase, DispatchState.setCombiner, DispatchState.setExchange,
    DispatchState.finish, RouteCombiner.ended, ResponseImpl.end_,
    ResponseImpl.writableEnded, Function.update_apply]
  -- what is left are the two steps that store a combiner
  constructor
  · intro j hj sig'
    simp [hj]
  · intro j _ sig'
    split <;> simp

theorem dispatch_isolated_overlap :
    Always (step greetRoutes (fun _ => lit "/"))
      (Isolated greetRoutes (fun _ => lit "/") visitors) (.init visitors)
      [0, 0, 1, 0, 1, 1, 0, 1] :=
  (dispatch_isolated greetRoutes (fun _ => lit "/") visitors
    [0, 0, 1, 0, 1, 1, 0, 1]).1 overlap_undisturbed

/-- Isolation fails: the second visitor stores its combiner before the first one
    invokes the signal, and the first visitor is served the page of the second. -/
theorem dispatch_not_isolated :
    (¬ ∀ (routes : RouteImpl Bytes) (path : Nat → Bytes) (x₀ : Nat → Exchange Bytes)
        (schedule : List Nat),
        Always (step routes path) (Isolated routes path x₀) (.init x₀) schedule)
      ∧ (run (step greetRoutes (fun _ => lit "/")) (.init visitors)
          [0, 0, 1, 1, 0, 1, 1, 0]).map (fun r => (r.1.exchange 0).resBeast.body)
        = some (lit "B")
      ∧ (greetRoutes.doGetSignal (lit "/") (visitors 0)).2.resBeast.body = lit "A" := by
  refine ⟨?_, by decide +kernel, by decide +kernel⟩
  intro h
  have hbound : (run (step greetRoutes (fun _ => lit "/")) (.init visitors)
      [0, 0, 1, 1, 0]).map (fun r => (r.1.phase 0).bound) = some (some 1) := by
    decide +kernel
  obtain ⟨r, hr, hb⟩ := Option.map_eq_some_iff.mp hbound
  have hiso := always_run _ (h greetRoutes (fun _ => lit "/") visitors [0, 0, 1, 1, 0]) hr
  exact absurd (hiso.ownCombiner 0 1 hb) (by decide)

end HttpDispatch
