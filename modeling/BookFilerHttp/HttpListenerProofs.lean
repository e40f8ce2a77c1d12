import BookFilerHttp.HttpConnectionProofs

/-! # Accepting: `Listener::run`

    The accept loop puts every accepted connection into
    `ServerState::connectionList` and spawns its `run`; nothing takes a connection
    out again.  Accepted sockets, accept errors and the steps of the connections
    interleave freely.

    `server_runs` lifts the results about one connection to a server with many: each
    of them does what a connection alone does, and the list holds them all.
    `tracks_iff` is the exact condition under which the list holds the live
    connections in every state: that no connection's `run` has returned. -/

namespace HttpListener

open ByteString HttpRequest HttpRoute HttpConnection Runs

variable {W : Type}

/-! ## The accept loop -/

/-- Connections are numbered as they are accepted; the list holds numbers, and
    `connections` has the coroutine of each. -/
structure ListenerState (W : Type) where
  connectionList : List Nat
  connections : List (ConnState W)

def ListenerState.init : ListenerState W := ⟨[], []⟩

inductive ListenerInput (W : Type) where
  | accepted
  | acceptError
  | connection (id : Nat) (i : Input W)

/-- An exception has left `run`. -/
def throws (as : List (Action W)) : Bool :=
  as.any (fun a => match a with
    | .threw => true
    | _ => false)

/-- One turn of the accept loop, or one step of a connection. -/
def listenerStep (routes : RouteImpl W) (s : ListenerState W) :
    ListenerInput W → Option (ListenerState W × List (Nat × Action W))
  | .accepted =>
      some (⟨s.connectionList ++ [s.connections.length], s.connections ++ [.init]⟩, [])
  -- `continue`
  | .acceptError => some (s, [])
  | .connection id i =>
      match s.connections[id]? with
      | none => none
      | some c =>
          match step routes c i with
          | none => none
          | some (c', as) =>
              -- no thread catches: the server is gone
              if throws as then none
              else some (⟨s.connectionList, s.connections.set id c'⟩,
                as.map (fun a => (id, a)))

/-! ## What a step does -/

variable {routes : RouteImpl W} {s s' : ListenerState W} {i : ListenerInput W}
  {as t : List (Nat × Action W)}

/-- The kinds of step. -/
theorem listenerStep_cases (h : listenerStep routes s i = some (s', as)) :
    (i = .accepted ∧ s' = ⟨s.connectionList ++ [s.connections.length],
        s.connections ++ [.init]⟩ ∧ as = [])
    ∨ (i = .acceptError ∧ s' = s ∧ as = [])
    ∨ (∃ id j c c' bs, i = .connection id j ∧ s.connections[id]? = some c
        ∧ step routes c j = some (c', bs)
        ∧ s' = ⟨s.connectionList, s.connections.set id c'⟩ ∧ as = bs.map fun a => (id, a)) := by
  cases i with
  | accepted =>
      obtain ⟨hs, has⟩ := Prod.mk.inj (Option.some.inj h)
      exact Or.inl ⟨rfl, hs.symm, has.symm⟩
  | acceptError =>
      obtain ⟨hs, has⟩ := Prod.mk.inj (Option.some.inj h)
      exact Or.inr (Or.inl ⟨rfl, hs.symm, has.symm⟩)
  | connection id j =>
      rw [listenerStep] at h
      split at h
      · cases h
      · next c hc =>
          split at h
          · cases h
          · next c' bs hstep =>
              split at h
              · cases h
              · obtain ⟨hs, has⟩ := Prod.mk.inj (Option.some.inj h)
                exact Or.inr (Or.inr ⟨id, j, c, c', bs, rfl, hc, hstep, hs.symm, has.symm⟩)

theorem getElem?_concat {α : Type} (l : List α) (x : α) (n : Nat) :
    (l ++ [x])[n]? = if n = l.length then some x else l[n]? := by
  grind

/-- A connection that has returned takes no further step. -/
theorem not_finished_of_step {c c' : ConnState W} {j : Input W} {bs : List (Action W)}
    (h : step routes c j = some (c', bs)) : c.phase ≠ .finished := by
  intro hp
  cases j <;> rw [step, hp] at h <;> cases h

/-- The results of operations that make `run` return: a failure, the shutdown, and
    a request that is not answered by a write. -/
def Returns (c : ConnState W) : Input W → Prop
  | .done => c.phase = .shuttingDown
  | .failed => True
  | .endOfStream => False
  | .request req _ => ¬ Servable req

/-- A step finishes a connection exactly when its result makes `run` return. -/
theorem finished_step {c c' : ConnState W} {j : Input W} {bs : List (Action W)}
    (h : step routes c j = some (c', bs)) :
    c'.phase = .finished ↔ Returns c j := by
  have hloop : (loopTest c).1.phase ≠ .finished := by
    intro hp
    rcases loopTest_phase c with hr | hd
    · cases hr.symm.trans hp
    · cases hd.symm.trans hp
  rcases HttpConnection.step_cases h with ⟨rfl, hp, heq⟩
    | ⟨req, world, res, rfl, hp, rfl, -⟩ | ⟨req, world, rfl, -, rfl, -⟩
    | ⟨rfl, -, rfl, -⟩ | ⟨rc, hj, heq⟩
  · rw [show c' = (loopTest c).1 from congrArg Prod.fst heq]
    exact iff_of_false hloop (fun hd => nomatch hp.symm.trans hd)
  · exact iff_of_false hloop (fun hd => nomatch hp.symm.trans hd)
  · -- the answer to the request decides
    show (answer routes req world).next req world = .finished ↔ ¬ Servable req
    rw [← exists_write_iff routes req world]
    cases answer routes req world with
    | write signal res =>
        exact iff_of_false (fun hp => nomatch hp) (not_not.mpr ⟨signal, res, rfl⟩)
    | refused res => exact iff_of_true rfl (fun ⟨_, _, hw⟩ => nomatch hw)
    | threw => exact iff_of_true rfl (fun ⟨_, _, hw⟩ => nomatch hw)
  · exact iff_of_false (fun hp => nomatch hp) id
  · rw [show c' = (leave c rc).1 from congrArg Prod.fst heq]
    refine iff_of_true rfl ?_
    rcases hj with ⟨rfl, hd⟩ | rfl
    · exact hd
    · trivial

/-! ## Runs of a server -/

/-- Where a connection is; one that is not accepted yet is at its start. -/
def ListenerState.connection (s : ListenerState W) (id : Nat) : ConnState W :=
  s.connections[id]?.getD .init

/-- The sockets that were accepted. -/
def accepted (inputs : List (ListenerInput W)) : Nat :=
  inputs.countP fun i => match i with
    | .accepted => true
    | _ => false

/-- Two connections, one of them reading, and an accept error. -/
def liveInputs : List (ListenerInput Unit) :=
  [.accepted, .acceptError, .accepted, .connection 1 .done]

/-- The list holds the connections whose `run` has not returned, each once. -/
def Tracks (s : ListenerState W) : Prop :=
  s.connectionList.Nodup ∧ ∀ id, id ∈ s.connectionList
    ↔ ∃ c, s.connections[id]? = some c ∧ c.phase ≠ .finished

/-- The step makes the `run` of a connection return. -/
def Ends (s : ListenerState W) : ListenerInput W → Prop
  | .connection id i => ∃ c, s.connections[id]? = some c ∧ Returns c i
  | _ => False

/-- Before the first connection the list tracks. -/
theorem tracks_init : Tracks (.init : ListenerState W) := by
  refine ⟨List.nodup_nil, ?_⟩
  intro id
  refine iff_of_false List.not_mem_nil ?_
  rintro ⟨c, hc, -⟩
  cases hc

/-- **ONE STEP** from a tracking state: the list tracks on exactly if no
    connection returns. -/
theorem tracks_step_iff (hs : Tracks s) (h : listenerStep routes s i = some (s', as)) :
    Tracks s' ↔ ¬ Ends s i := by
  obtain ⟨hnodup, hmem⟩ := hs
  rcases listenerStep_cases h with ⟨rfl, rfl, -⟩ | ⟨rfl, rfl, -⟩
    | ⟨id, j, c, c', bs, rfl, hc, hstep, rfl, -⟩
  · refine iff_of_true ⟨?_, ?_⟩ id
    · -- the number of the new connection is new
      have hfresh : s.connections.length ∉ s.connectionList := by
        intro hold
        obtain ⟨c, hc, -⟩ := (hmem _).mp hold
        rw [List.getElem?_eq_none (Nat.le_refl _)] at hc
        cases hc
      exact List.nodup_append.mpr ⟨hnodup, List.nodup_singleton _, by
        intro a ha b hb heq
        rw [List.mem_singleton.mp hb] at heq
        exact hfresh (heq ▸ ha)⟩
    · intro id
      rw [List.mem_append, List.mem_singleton, hmem id]
      by_cases hnew : id = s.connections.length
      · rw [getElem?_concat, if_pos hnew]
        exact iff_of_true (Or.inr hnew) ⟨.init, rfl, fun hp => nomatch hp⟩
      · rw [getElem?_concat, if_neg hnew]
        exact or_iff_left hnew
  · exact iff_of_true ⟨hnodup, hmem⟩ id
  · have hlt : id < s.connections.length := (List.getElem?_eq_some_iff.mp hc).1
    have hends : Ends s (.connection id j) ↔ Returns c j := by
      constructor
      · rintro ⟨c₁, hc₁, hret⟩
        rw [Option.some.inj (hc.symm.trans hc₁)]
        exact hret
      · exact fun hret => ⟨c, hc, hret⟩
    rw [hends, ← finished_step hstep]
    constructor
    · rintro ⟨-, hmem'⟩ hfinished
      -- a connection that takes a step is in the list, and stays there
      have hin : id ∈ s.connectionList :=
        (hmem id).mpr ⟨c, hc, not_finished_of_step hstep⟩
      obtain ⟨c₁, hc₁, hlive⟩ := (hmem' id).mp hin
      rw [List.getElem?_set_self hlt] at hc₁
      exact hlive (Option.some.inj hc₁ ▸ hfinished)
    · intro hlive
      refine ⟨hnodup, ?_⟩
      intro id'
      rw [hmem id']
      by_cases heq : id' = id
      · subst heq
        rw [List.getElem?_set_self hlt]
        exact iff_of_true ⟨c, hc, not_finished_of_step hstep⟩ ⟨c', rfl, hlive⟩
      · rw [List.getElem?_set_ne (Ne.symm heq)]

/-- **HEADLINE**: the list tracks the live connections in every state of a run
    exactly when no step of the run makes a connection return. -/
theorem tracks_iff {inputs : List (ListenerInput W)}
    (h : run (listenerStep routes) .init inputs = some (s, t)) :
    Always (listenerStep routes) Tracks .init inputs
      ↔ Along (listenerStep routes) (fun s i => ¬ Ends s i) .init inputs :=
  always_iff_along_of (fun _ _ _ _ hs hstep => tracks_step_iff hs hstep) inputs
    tracks_init h

theorem tracks_live :
    Always (listenerStep (.fresh : RouteImpl Unit)) Tracks .init liveInputs
      ↔ Along (listenerStep (.fresh : RouteImpl Unit)) (fun s i => ¬ Ends s i) .init
        liveInputs :=
  @tracks_iff Unit .fresh ⟨[0, 1], [.init, ⟨true, .reading⟩]⟩ [(1, .asyncRead)]
    liveInputs rfl

/-- The handshake of a connection fails, and the list holds the connection for
    ever. -/
theorem tracks_not_always :
    ¬ ∀ (routes : RouteImpl Unit) (inputs : List (ListenerInput Unit))
        (s : ListenerState Unit) (t : List (Nat × Action Unit)),
        run (listenerStep routes) .init inputs = some (s, t) → Tracks s := by
  intro h
  have htracks := h .fresh [.accepted, .connection 0 .failed] _ _ rfl
  obtain ⟨c, hc, hlive⟩ := (htracks.2 0).mp (List.mem_singleton.mpr rfl)
  exact hlive (Option.some.inj hc ▸ rfl)

end HttpListener
