import BookFilerHttp.HttpRouteProofs
import BookFilerHttp.RunsProofs

/-! # Connections: `Connection::run`

    The loop of a connection as a machine: its inputs are the results of the
    asynchronous operations, its actions are the operations it starts and what
    it does with a request.  `answer` is the body of the loop between the read
    and the write.

    The headlines are exact conditions on runs.  A run answers every request it
    read exactly when every one of them passes the guards and has a path that
    the URL library takes (`answered_iff`); it honours keep-alive exactly when
    it never answered a request that asked to close (`keepAlive_iff`); its
    responses can be read back exactly when no HEAD request was answered with a
    body (`framing_iff`). -/

namespace HttpConnection

open ByteString BoostUrl HttpRequest HttpResponse HttpRoute Framing Runs

variable {W : Type}

/-! ## The answer to one request -/

/-- The method check. -/
def acceptsMethod (req : RequestBeast) : Bool :=
  !(req.method != .get && req.method != .head)

/-- The target contains `..`. -/
def hasDotDot : Bytes → Bool
  | a :: b :: rest =>
      (a == '.'.toUInt8 && b == '.'.toUInt8) || hasDotDot (b :: rest)
  | _ => false

/-- The target check: absolute, and without `..`. -/
def legalTarget (target : Bytes) : Bool :=
  !(target.isEmpty || target.head? != some '/'.toUInt8 || hasDotDot target)

/-- The setup phase: a fresh request is parsed, a fresh response is made. -/
def setup (req : RequestBeast) (world : W) : Except Exn (Exchange W) :=
  match h : (RequestImpl.fresh.setRequest req).2.parseRequest with
  | .ok (_, reqImpl) =>
      .ok (.make world reqImpl (RequestImpl.parseRequest_isSome h rfl) .fresh)
  | .error ex => .error ex

/-- What becomes of a request. -/
inductive Answer where
  /-- `return badRequest(...)`: the response has been built, `run` returns. -/
  | refused (res : ResponseBeast)
  /-- An exception leaves `run`. -/
  | threw
  /-- The response is written; `signal` is the place of the signal invoked. -/
  | write (signal : Option Key) (res : ResponseBeast)
  deriving DecidableEq

/-- The response object built for the request. -/
def Answer.response : Answer → Option ResponseBeast
  | .refused res => some res
  | .threw => none
  | .write _ res => some res

/-- The loop body between the read and the write. -/
def answer (routes : RouteImpl W) (req : RequestBeast) (world : W) : Answer :=
  if acceptsMethod req = false then
    .refused (badRequest req .fresh (lit "Unknown HTTP-method"))
  else if legalTarget req.target = false then
    .refused (badRequest req .fresh (lit "Illegal request-target"))
  else
    match setup req world with
    | .error _ => .threw
    | .ok x =>
        let signal := (routes.findSignal x.req.path .get).map Prod.fst
        -- HEAD is dispatched as GET
        let (rc, x') := routes.doGetSignal x.req.path x
        if rc < 0 then .write signal (notFound req x'.resBeast x'.req.path)
        else .write signal x'.resBeast

/-! ## The loop -/

inductive Phase (W : Type) where
  | handshaking
  | reading
  | writing (req : RequestBeast) (world : W) (res : ResponseBeast)
  | shuttingDown
  | finished
  deriving DecidableEq

/-- The loop flag and the operation that is pending. -/
structure ConnState (W : Type) where
  close : Bool
  phase : Phase W
  deriving DecidableEq

/-- Results of asynchronous operations.  A read gives a request, together with
    the state of the world at that time. -/
inductive Input (W : Type) where
  | done
  | failed
  | endOfStream
  | request (req : RequestBeast) (world : W)

inductive Action (W : Type) where
  | asyncRead
  | got (req : RequestBeast) (world : W)
  | invoked (key : Key)
  | asyncWrite (res : ResponseBeast)
  | wrote (req : RequestBeast) (world : W) (res : ResponseBeast)
  | asyncShutdown
  | returned (rc : Int)
  | threw
  deriving DecidableEq

/-- Before the handshake has completed. -/
def ConnState.init : ConnState W := ⟨true, .handshaking⟩

/-- The loop test: read again, or leave the loop for the shutdown. -/
def loopTest (s : ConnState W) : ConnState W × List (Action W) :=
  if s.close then ({ s with phase := .reading }, [.asyncRead])
  else ({ s with phase := .shuttingDown }, [.asyncShutdown])

/-- `return rc`. -/
def leave (s : ConnState W) (rc : Int) : ConnState W × List (Action W) :=
  ({ s with phase := .finished }, [.returned rc])

/-- The actions that follow a request that was read. -/
def Answer.actions : Answer → List (Action W)
  | .refused _ => [.returned 0]
  | .threw => [.threw]
  | .write none res => [.asyncWrite res]
  | .write (some key) res => [.invoked key, .asyncWrite res]

def Answer.next (req : RequestBeast) (world : W) : Answer → Phase W
  | .write _ res => .writing req world res
  | _ => .finished

/-- One result of an asynchronous operation. -/
def step (routes : RouteImpl W) (s : ConnState W) :
    Input W → Option (ConnState W × List (Action W))
  | .done =>
      match s.phase with
      | .handshaking => some (loopTest s)
      -- nothing between the write and the loop test looks at `keep_alive`
      | .writing req world res =>
          some ((loopTest s).1, .wrote req world res :: (loopTest s).2)
      | .shuttingDown => some (leave s 0)
      | _ => none
  | .failed =>
      match s.phase with
      | .finished => none
      | _ => some (leave s (-1))
  | .endOfStream =>
      match s.phase with
      -- `break`: the one way from the loop to the shutdown
      | .reading => some ({ s with phase := .shuttingDown }, [.asyncShutdown])
      | _ => none
  | .request req world =>
      match s.phase with
      | .reading =>
          some ({ s with phase := (answer routes req world).next req world },
            .got req world :: (answer routes req world).actions)
      | _ => none

/-! ## What the setup and the answer are -/

theorem legalTarget_head {target : Bytes} (h : legalTarget target = true) :
    target.head? = some '/'.toUInt8 := by
  rw [legalTarget] at h
  by_contra hne
  have hhead : (target.head? != some '/'.toUInt8) = true := by
    rw [bne_iff_ne]
    exact hne
  rw [hhead, Bool.or_true, Bool.true_or] at h
  cases h

/-- The setup of a request with an absolute target. -/
theorem setup_cases {req : RequestBeast} (world : W)
    (h : req.target.head? = some '/'.toUInt8) :
    (pathAbsolute (targetPath req.target) = true
        ∧ ∃ x : Exchange W, setup req world = .ok x
          ∧ x.req.path = targetPath req.target ∧ x.req.requestBeast = some req)
      ∨ (pathAbsolute (targetPath req.target) = false
        ∧ setup req world = .error .invalidPart) := by
  have hfresh := RequestImpl.parseRequest_fresh h
  by_cases hacc : pathAbsolute (targetPath req.target) = true
  · rw [if_pos hacc] at hfresh
    obtain ⟨r, hr, hmsg, hpath⟩ := hfresh
    refine Or.inl ⟨hacc, ?_⟩
    -- the match of `setup` carries its equation: split it, do not rewrite
    unfold setup
    split
    · next rc r' hparse =>
        have heq : r' = r := (Prod.mk.inj (Except.ok.inj (hparse.symm.trans hr))).2
        subst heq
        exact ⟨_, rfl, hpath, hmsg⟩
    · next ex hparse => cases hparse.symm.trans hr
  · rw [if_neg hacc] at hfresh
    refine Or.inr ⟨Bool.eq_false_iff.mpr hacc, ?_⟩
    unfold setup
    split
    · next rc r' hparse => cases hparse.symm.trans hfresh
    · next ex hparse => rw [Except.error.inj (hparse.symm.trans hfresh)]

/-- **PARSING BEHIND THE GUARDS**: for a request with a legal target, parsing
    returns exactly when the URL library takes the path part of the target; no
    later call of the parser can raise. -/
theorem parseRequest_returns_iff {req : RequestBeast}
    (hlegal : legalTarget req.target = true) :
    (∃ r, (RequestImpl.fresh.setRequest req).2.parseRequest = .ok (0, r))
      ↔ pathAbsolute (targetPath req.target) = true := by
  have hfresh := RequestImpl.parseRequest_fresh (legalTarget_head hlegal)
  by_cases hacc : pathAbsolute (targetPath req.target) = true
  · rw [if_pos hacc] at hfresh
    obtain ⟨r, hr, -⟩ := hfresh
    exact iff_of_true ⟨r, hr⟩ hacc
  · rw [if_neg hacc] at hfresh
    refine iff_of_false ?_ hacc
    rintro ⟨r, hr⟩
    cases hfresh.symm.trans hr

/-- A request as a browser sends it, with a query and a Host field. -/
def plainRequest : RequestBeast :=
  ⟨lit "GET", lit "/page?a=b", 11, true, [(lit "host", lit "localhost")], []⟩

theorem parseRequest_returns_plain :
    (∃ r, (RequestImpl.fresh.setRequest plainRequest).2.parseRequest = .ok (0, r))
      ↔ pathAbsolute (targetPath plainRequest.target) = true :=
  parseRequest_returns_iff (by decide)

/-- A request that passes the guards and makes the parser throw: a lowercase
    percent escape. -/
def lowercaseEscape : RequestBeast := ⟨lit "GET", lit "/a%2f", 11, true, [], []⟩

theorem parseRequest_throws :
    ¬ ∀ req : RequestBeast, acceptsMethod req = true →
        legalTarget req.target = true →
        ∃ r, (RequestImpl.fresh.setRequest req).2.parseRequest = .ok (0, r) := by
  intro h
  obtain ⟨r, hr⟩ := h lowercaseEscape (by decide) (by decide)
  have hthrows := RequestImpl.parseRequest_setRequest .fresh lowercaseEscape
  rw [Parts.setEncodedPath_absolute rfl (by decide), if_neg (by decide)] at hthrows
  cases hthrows.symm.trans hr

/-- A request that is answered by a write: it passes the guards, and the URL
    library takes its path. -/
def Servable (req : RequestBeast) : Prop :=
  acceptsMethod req = true ∧ legalTarget req.target = true
    ∧ pathAbsolute (targetPath req.target) = true

instance (req : RequestBeast) : Decidable (Servable req) :=
  inferInstanceAs (Decidable (_ ∧ _ ∧ _))

/-- The two responses that are written. -/
theorem answer_servable (routes : RouteImpl W) {req : RequestBeast} (world : W)
    (h : Servable req) :
    ∃ x : Exchange W, setup req world = .ok x ∧ x.req.path = targetPath req.target
      ∧ ((routes.findSignal (targetPath req.target) .get = none
          ∧ answer routes req world
            = .write none (notFound req x.resBeast (targetPath req.target)))
        ∨ ∃ key sig,
            routes.findSignal (targetPath req.target) .get = some (key, sig)
            ∧ answer routes req world = .write (some key)
              ((RouteCombiner.call sig.slots x).2.respond
                (RouteCombiner.call sig.slots x).1).resBeast) := by
  obtain ⟨hmethod, hlegal, hpath⟩ := h
  rcases setup_cases world (legalTarget_head hlegal) with
    ⟨-, x, hx, hxpath, -⟩ | ⟨hfalse, -⟩
  · refine ⟨x, hx, hxpath, ?_⟩
    rw [answer, hmethod, hlegal, if_neg (by decide), if_neg (by decide), hx]
    simp only [hxpath]
    cases hf : routes.findSignal (targetPath req.target) .get with
    | none =>
        refine Or.inl ⟨rfl, ?_⟩
        simp only [RouteImpl.doGetSignal_none hf, hxpath]
        rfl
    | some found =>
        refine Or.inr ⟨found.1, found.2, rfl, ?_⟩
        simp only [RouteImpl.doGetSignal_some hf]
        rfl
  · rw [hpath] at hfalse
    cases hfalse

/-- A request that is not servable is answered by no write. -/
theorem answer_not_servable (routes : RouteImpl W) {req : RequestBeast} (world : W)
    (h : ¬ Servable req) :
    (∃ res, answer routes req world = .refused res)
      ∨ answer routes req world = .threw := by
  rw [answer]
  by_cases hmethod : acceptsMethod req = false
  · rw [if_pos hmethod]
    exact Or.inl ⟨_, rfl⟩
  · rw [if_neg hmethod]
    by_cases hlegal : legalTarget req.target = false
    · rw [if_pos hlegal]
      exact Or.inl ⟨_, rfl⟩
    · rw [if_neg hlegal]
      have hmethod' := Bool.not_eq_false _ ▸ hmethod
      have hlegal' := Bool.not_eq_false _ ▸ hlegal
      rcases setup_cases world (legalTarget_head hlegal') with ⟨hpath, -⟩ | ⟨-, hx⟩
      · exact absurd ⟨hmethod', hlegal', hpath⟩ h
      · rw [hx]
        exact Or.inr rfl

/-- A request is answered by a write exactly when it is servable. -/
theorem exists_write_iff (routes : RouteImpl W) (req : RequestBeast) (world : W) :
    (∃ signal res, answer routes req world = .write signal res) ↔ Servable req := by
  constructor
  · rintro ⟨signal, res, hwrite⟩
    by_contra hserv
    rcases answer_not_servable routes world hserv with ⟨r, hr⟩ | hr
    · cases hwrite.symm.trans hr
    · cases hwrite.symm.trans hr
  · intro hserv
    obtain ⟨x, -, -, ⟨-, hans⟩ | ⟨key, sig, -, hans⟩⟩ :=
      answer_servable routes world hserv
    · exact ⟨none, _, hans⟩
    · exact ⟨some key, _, hans⟩

/-! ## What a step does -/

variable {routes : RouteImpl W} {s s' : ConnState W} {i : Input W}
  {as t : List (Action W)}

/-- The kinds of step: the loop test after the handshake and after a write, a
    request, the end of the stream, and the returns. -/
theorem step_cases (h : step routes s i = some (s', as)) :
    (i = .done ∧ s.phase = .handshaking ∧ (s', as) = loopTest s)
    ∨ (∃ req world res, i = .done ∧ s.phase = .writing req world res
        ∧ s' = (loopTest s).1 ∧ as = .wrote req world res :: (loopTest s).2)
    ∨ (∃ req world, i = .request req world ∧ s.phase = .reading
        ∧ s' = { s with phase := (answer routes req world).next req world }
        ∧ as = .got req world :: (answer routes req world).actions)
    ∨ (i = .endOfStream ∧ s.phase = .reading
        ∧ s' = { s with phase := .shuttingDown } ∧ as = [.asyncShutdown])
    ∨ (∃ rc, (i = .done ∧ s.phase = .shuttingDown ∨ i = .failed)
        ∧ (s', as) = leave s rc) := by
  cases i with
  | done =>
      rw [step] at h
      split at h
      · next hp => exact Or.inl ⟨rfl, hp, (Option.some.inj h).symm⟩
      · next req world res hp =>
          obtain ⟨h₁, h₂⟩ := Prod.mk.inj (Option.some.inj h)
          exact Or.inr (Or.inl ⟨req, world, res, rfl, hp, h₁.symm, h₂.symm⟩)
      · next hp =>
          exact Or.inr (Or.inr (Or.inr (Or.inr
            ⟨0, Or.inl ⟨rfl, hp⟩, (Option.some.inj h).symm⟩)))
      · cases h
  | failed =>
      rw [step] at h
      split at h
      · cases h
      · exact Or.inr (Or.inr (Or.inr (Or.inr
          ⟨-1, Or.inr rfl, (Option.some.inj h).symm⟩)))
  | endOfStream =>
      rw [step] at h
      split at h
      · next hp =>
          obtain ⟨h₁, h₂⟩ := Prod.mk.inj (Option.some.inj h)
          exact Or.inr (Or.inr (Or.inr (Or.inl ⟨rfl, hp, h₁.symm, h₂.symm⟩)))
      · cases h
  | request req world =>
      rw [step] at h
      split at h
      · next hp =>
          obtain ⟨h₁, h₂⟩ := Prod.mk.inj (Option.some.inj h)
          exact Or.inr (Or.inr (Or.inl ⟨req, world, rfl, hp, h₁.symm, h₂.symm⟩))
      · cases h

/-- Only an answer by a write leaves a response pending. -/
theorem Answer.next_writing {ans : Answer} {req req' : RequestBeast}
    {world world' : W} {res : ResponseBeast}
    (h : ans.next req' world' = .writing req world res) :
    req' = req ∧ world' = world ∧ ∃ signal, ans = .write signal res := by
  cases ans with
  | refused r => cases h
  | threw => cases h
  | write signal r =>
      obtain ⟨hreq, hworld, rfl⟩ := Phase.writing.inj h
      exact ⟨hreq, hworld, signal, rfl⟩

/-- The test of the loop reads on or shuts down. -/
theorem loopTest_phase (s : ConnState W) :
    (loopTest s).1.phase = .reading ∨ (loopTest s).1.phase = .shuttingDown := by
  rw [loopTest]
  split
  · exact Or.inl rfl
  · exact Or.inr rfl

/-- The loop test leaves no response pending. -/
theorem loopTest_writing (s : ConnState W) (req : RequestBeast) (world : W)
    (res : ResponseBeast) : (loopTest s).1.phase ≠ .writing req world res := by
  intro hp
  rcases loopTest_phase s with hr | hd
  · cases hr.symm.trans hp
  · cases hd.symm.trans hp

theorem loopTest_close (s : ConnState W) : (loopTest s).1.close = s.close := by
  rw [loopTest]
  split <;> rfl

/-- The actions other than the arrival of a request and the completion of a
    response. -/
def Action.IsOther : Action W → Prop
  | .got _ _ => False
  | .wrote _ _ _ => False
  | _ => True

theorem isOther_of_mem_loopTest {a : Action W} (h : a ∈ (loopTest s).2) :
    a.IsOther := by
  rw [loopTest] at h
  split at h
  · rw [List.mem_singleton.mp h]
    trivial
  · rw [List.mem_singleton.mp h]
    trivial

theorem isOther_of_mem_actions {a : Action W} {ans : Answer}
    (h : a ∈ ans.actions) : a.IsOther := by
  cases ans with
  | refused res =>
      rw [List.mem_singleton.mp h]
      trivial
  | threw =>
      rw [List.mem_singleton.mp h]
      trivial
  | write signal res =>
      cases signal with
      | none =>
          rw [List.mem_singleton.mp h]
          trivial
      | some key =>
          rcases List.mem_cons.mp h with heq | hmem
          · rw [heq]
            trivial
          · rw [List.mem_singleton.mp hmem]
            trivial

/-- The loop flag is never cleared, and a response is pending only for a request
    whose answer it is. -/
def Sound (routes : RouteImpl W) (s : ConnState W) : Prop :=
  s.close = true ∧ ∀ req world res, s.phase = .writing req world res →
    ∃ signal, answer routes req world = .write signal res

/-- A step keeps `close` and writes only what answers the request. -/
theorem sound_step (hs : Sound routes s) (h : step routes s i = some (s', as)) :
    Sound routes s' := by
  obtain ⟨hclose, -⟩ := hs
  have hloop : Sound routes (loopTest s).1 := by
    refine ⟨(loopTest_close s).trans hclose, ?_⟩
    intro req world res hp
    exact absurd hp (loopTest_writing s req world res)
  rcases step_cases h with ⟨-, -, heq⟩ | ⟨req, world, res, -, -, rfl, -⟩
    | ⟨req, world, -, -, rfl, -⟩ | ⟨-, -, rfl, -⟩ | ⟨rc, -, heq⟩
  · rw [show s' = (loopTest s).1 from congrArg Prod.fst heq]
    exact hloop
  · exact hloop
  · refine ⟨hclose, ?_⟩
    intro req' world' res hp
    obtain ⟨rfl, rfl, hans⟩ := Answer.next_writing hp
    exact hans
  · exact ⟨hclose, fun req world res hp => nomatch hp⟩
  · rw [show s' = (leave s rc).1 from congrArg Prod.fst heq]
    exact ⟨hclose, fun req world res hp => nomatch hp⟩

theorem sound_init : Sound routes .init :=
  ⟨rfl, fun _ _ _ hp => nomatch hp⟩

/-! ## Requests and responses in a trace -/

/-- Where an action of a list that starts with `x` can stand. -/
theorem split_cons {α : Type} {x a : α} {l as₁ as₂ : List α}
    (h : as₁ ++ a :: as₂ = x :: l) : (as₁ = [] ∧ a = x ∧ as₂ = l) ∨ a ∈ l := by
  cases as₁ with
  | nil =>
      obtain ⟨hx, hl⟩ := List.cons.inj h
      exact Or.inl ⟨rfl, hx, hl⟩
  | cons y ys =>
      obtain ⟨-, hl⟩ := List.cons.inj h
      refine Or.inr ?_
      rw [← hl]
      exact List.mem_append_right _ (List.mem_cons_self ..)

/-- Where the actions of a step come from: a request is followed by the actions
    of its answer, a completed response by the loop test. -/
theorem step_emits {as₁ as₂ : List (Action W)} {a : Action W}
    (h : step routes s i = some (s', as₁ ++ a :: as₂)) :
    (∃ req world, a = .got req world ∧ i = .request req world
        ∧ s' = { s with phase := (answer routes req world).next req world }
        ∧ as₂ = (answer routes req world).actions)
    ∨ (∃ req world res, a = .wrote req world res ∧ i = .done
        ∧ s.phase = .writing req world res ∧ as₂ = (loopTest s).2)
    ∨ a.IsOther := by
  rcases step_cases h with ⟨-, -, heq⟩ | ⟨req, world, res, hi, hp, -, heq⟩
    | ⟨req, world, hi, -, rfl, heq⟩ | ⟨-, -, -, heq⟩ | ⟨rc, -, heq⟩
  · have hlist : as₁ ++ a :: as₂ = (loopTest s).2 := congrArg Prod.snd heq
    refine Or.inr (Or.inr (isOther_of_mem_loopTest (s := s) ?_))
    rw [← hlist]
    exact List.mem_append_right _ (List.mem_cons_self ..)
  · rcases split_cons heq with ⟨-, ha, has⟩ | hmem
    · exact Or.inr (Or.inl ⟨req, world, res, ha, hi, hp, has⟩)
    · exact Or.inr (Or.inr (isOther_of_mem_loopTest hmem))
  · rcases split_cons heq with ⟨-, ha, has⟩ | hmem
    · exact Or.inl ⟨req, world, ha, hi, rfl, has⟩
    · exact Or.inr (Or.inr (isOther_of_mem_actions hmem))
  · rcases split_cons heq with ⟨-, ha, -⟩ | hmem
    · rw [ha]
      exact Or.inr (Or.inr trivial)
    · cases hmem
  · have hlist : as₁ ++ a :: as₂ = [.returned rc] := congrArg Prod.snd heq
    rcases split_cons hlist with ⟨-, ha, -⟩ | hmem
    · rw [ha]
      exact Or.inr (Or.inr trivial)
    · cases hmem

/-- A request in a trace is followed by the actions of its answer, and the rest
    of the trace is a run from the state after it. -/
theorem got_in_run {inputs : List (Input W)} {pre post : List (Action W)}
    {req : RequestBeast} {world : W}
    (h : run (step routes) .init inputs
      = some (s, pre ++ .got req world :: post)) :
    ∃ s₂ is₂ t₂, run (step routes) s₂ is₂ = some (s, t₂)
      ∧ s₂.phase = (answer routes req world).next req world
      ∧ post = (answer routes req world).actions ++ t₂ := by
  obtain ⟨is₁, i, is₂, s₁, s₂, t₁, as₁, as₂, t₂, -, hstep, h₂, -, hpost⟩ :=
    run_split inputs h
  refine ⟨s₂, is₂, t₂, h₂, ?_⟩
  rcases step_emits hstep with ⟨req', world', ha, -, rfl, has⟩
    | ⟨req', world', res', ha, -⟩ | hother
  · obtain ⟨rfl, rfl⟩ := Action.got.inj ha
    exact ⟨rfl, by rw [hpost, has]⟩
  · cases ha
  · exact hother.elim

/-- A response in a trace is the answer to its request, and the loop reads again
    right after it. -/
theorem wrote_in_run {inputs : List (Input W)} {pre post : List (Action W)}
    {req : RequestBeast} {world : W} {res : ResponseBeast}
    (h : run (step routes) .init inputs
      = some (s, pre ++ .wrote req world res :: post)) :
    (∃ signal, answer routes req world = .write signal res)
      ∧ ∃ t₂, post = .asyncRead :: t₂ := by
  obtain ⟨is₁, i, is₂, s₁, s₂, t₁, as₁, as₂, t₂, h₁, hstep, -, -, hpost⟩ :=
    run_split inputs h
  obtain ⟨hclose, hpending⟩ :=
    run_invariant (fun s i s' as hs h => sound_step hs h) is₁ sound_init h₁
  rcases step_emits hstep with ⟨req', world', ha, -⟩
    | ⟨req', world', res', ha, -, hp, has⟩ | hother
  · cases ha
  · obtain ⟨rfl, rfl, rfl⟩ := Action.wrote.inj ha
    refine ⟨hpending _ _ _ hp, t₂, ?_⟩
    rw [hpost, has, loopTest, if_pos hclose]
    rfl
  · exact hother.elim

/-- A step shows a request exactly when it reads one. -/
theorem got_mem_step (h : step routes s i = some (s', as)) (req : RequestBeast)
    (world : W) : .got req world ∈ as ↔ i = .request req world := by
  constructor
  · intro hmem
    obtain ⟨as₁, as₂, rfl⟩ := List.append_of_mem hmem
    rcases step_emits h with ⟨req', world', ha, hi, -⟩ | ⟨req', world', res', ha, -⟩
      | hother
    · obtain ⟨rfl, rfl⟩ := Action.got.inj ha
      exact hi
    · cases ha
    · exact hother.elim
  · rintro rfl
    rcases step_cases h with ⟨hi, -⟩ | ⟨req', world', res', hi, -⟩
      | ⟨req', world', hi, -, -, rfl⟩ | ⟨hi, -⟩ | ⟨rc, ⟨hi, -⟩ | hi, -⟩
    case inr.inr.inl =>
      obtain ⟨rfl, rfl⟩ := Input.request.inj hi
      exact List.mem_cons_self ..
    all_goals cases hi

/-- A step shows a response exactly when the write of it completes. -/
theorem wrote_mem_step (h : step routes s i = some (s', as)) (req : RequestBeast)
    (world : W) (res : ResponseBeast) :
    .wrote req world res ∈ as ↔ i = .done ∧ s.phase = .writing req world res := by
  constructor
  · intro hmem
    obtain ⟨as₁, as₂, rfl⟩ := List.append_of_mem hmem
    rcases step_emits h with ⟨req', world', ha, -⟩
      | ⟨req', world', res', ha, hi, hp, -⟩ | hother
    · cases ha
    · obtain ⟨rfl, rfl, rfl⟩ := Action.wrote.inj ha
      exact ⟨hi, hp⟩
    · exact hother.elim
  · rintro ⟨rfl, hp⟩
    rw [step, hp] at h
    rw [← (Prod.mk.inj (Option.some.inj h)).2]
    exact List.mem_cons_self ..

/-- A response is pending after a step exactly when the step has read a servable
    request. -/
theorem writing_step (h : step routes s i = some (s', as)) (req : RequestBeast)
    (world : W) :
    (∃ res, s'.phase = .writing req world res)
      ↔ i = .request req world ∧ Servable req := by
  have hloop : ¬ ∃ res, (loopTest s).1.phase = .writing req world res := by
    rintro ⟨res, hp⟩
    exact loopTest_writing s req world res hp
  rcases step_cases h with ⟨rfl, -, heq⟩ | ⟨req', world', res', rfl, -, rfl, -⟩
    | ⟨req', world', rfl, -, rfl, -⟩ | ⟨rfl, -, rfl, -⟩ | ⟨rc, hi, heq⟩
  · rw [show s' = (loopTest s).1 from congrArg Prod.fst heq]
    exact iff_of_false hloop (fun hc => nomatch hc.1)
  · exact iff_of_false hloop (fun hc => nomatch hc.1)
  · -- a request has been read: its answer decides
    rw [← exists_write_iff routes req world]
    constructor
    · rintro ⟨res, hp⟩
      obtain ⟨rfl, rfl, signal, hans⟩ := Answer.next_writing hp
      exact ⟨rfl, signal, res, hans⟩
    · rintro ⟨hi, signal, res, hans⟩
      obtain ⟨rfl, rfl⟩ := Input.request.inj hi
      refine ⟨res, ?_⟩
      rw [hans]
      rfl
  · exact iff_of_false (fun ⟨res, hp⟩ => nomatch hp) (fun hc => nomatch hc.1)
  · rw [show s' = (leave s rc).1 from congrArg Prod.fst heq]
    refine iff_of_false (fun ⟨res, hp⟩ => nomatch hp) ?_
    rintro ⟨rfl, -⟩
    rcases hi with ⟨hi, -⟩ | hi <;> cases hi

/-- The requests of a trace are the requests read. -/
theorem got_mem_iff {req : RequestBeast} {world : W} (inputs : List (Input W)) :
    ∀ {s s' : ConnState W} {t : List (Action W)},
      run (step routes) s inputs = some (s', t) →
      (.got req world ∈ t ↔ .request req world ∈ inputs) := by
  induction inputs with
  | nil =>
      intro s s' t h
      rw [← (Prod.mk.inj (Option.some.inj h)).2]
      exact iff_of_false List.not_mem_nil List.not_mem_nil
  | cons i rest ih =>
      intro s s' t h
      obtain ⟨s₁, as, bs, hstep, hrest, rfl⟩ := run_cons h
      rw [List.mem_append, got_mem_step hstep, ih hrest, List.mem_cons]
      exact or_congr eq_comm Iff.rfl

/-- The request is servable, and it was read and its response written without an
    error. -/
def Completed (inputs : List (Input W)) (req : RequestBeast) (world : W) : Prop :=
  Servable req ∧ [.request req world, .done] <:+: inputs

/-- The responses of a trace, from any state: the pending one when its write
    completes, and those of the completed requests. -/
theorem wrote_mem_run {req : RequestBeast} {world : W} (inputs : List (Input W)) :
    ∀ {s s' : ConnState W} {t : List (Action W)},
      run (step routes) s inputs = some (s', t) →
      ((∃ res, .wrote req world res ∈ t)
        ↔ ((∃ res, s.phase = .writing req world res) ∧ [.done] <+: inputs)
          ∨ Completed inputs req world) := by
  induction inputs with
  | nil =>
      intro s s' t h
      rw [← (Prod.mk.inj (Option.some.inj h)).2]
      simp [Completed]
  | cons i rest ih =>
      intro s s' t h
      obtain ⟨s₁, as, bs, hstep, hrest, rfl⟩ := run_cons h
      -- the first two inputs decide whether the prefix is here or further on
      simp only [List.mem_append, exists_or, ih hrest, writing_step hstep,
        wrote_mem_step hstep, Completed, List.infix_cons_iff, List.cons_prefix_cons,
        List.nil_prefix, and_true]
      rw [exists_and_left, @eq_comm _ i .done, @eq_comm _ i (.request req world)]
      tauto

/-- The responses of a run are those of the completed requests. -/
theorem wrote_mem_iff {inputs : List (Input W)}
    (h : run (step routes) .init inputs = some (s, t)) (req : RequestBeast)
    (world : W) :
    (∃ res, .wrote req world res ∈ t) ↔ Completed inputs req world := by
  rw [wrote_mem_run inputs h]
  refine or_iff_right ?_
  rintro ⟨⟨res, hp⟩, -⟩
  cases hp

/-! ## One response for one request -/

/-- The actions before which a request must have been answered. -/
def Action.isBoundary : Action W → Bool
  | .asyncRead => true
  | .asyncShutdown => true
  | .returned _ => true
  | .threw => true
  | _ => false

/-- The response an action starts to write. -/
def Action.response? : Action W → Option ResponseBeast
  | .asyncWrite res => some res
  | _ => none

/-- The writes in front of the next boundary. -/
def writesFor (post : List (Action W)) : List ResponseBeast :=
  (post.takeWhile (fun a => !a.isBoundary)).filterMap Action.response?

/-- Every request read is followed by exactly one write, of the response built
    for it, before the next read, the shutdown and the end of the run. -/
def AnsweredOnce (routes : RouteImpl W) (t : List (Action W)) : Prop :=
  ∀ pre req world post, t = pre ++ .got req world :: post →
    ∃ res, (answer routes req world).response = some res ∧ writesFor post = [res]

/-- While a response is being written nothing else is written. -/
theorem writesFor_writing {is : List (Input W)} {req : RequestBeast} {world : W}
    {res : ResponseBeast} (hp : s.phase = .writing req world res)
    (h : run (step routes) s is = some (s', t)) : writesFor t = [] := by
  cases is with
  | nil =>
      rw [← (Prod.mk.inj (Option.some.inj h)).2]
      rfl
  | cons i rest =>
      obtain ⟨s₁, as, bs, hstep, -, rfl⟩ := run_cons h
      rcases step_cases hstep with ⟨-, hp', -⟩ | ⟨req', world', res', -, -, -, rfl⟩
        | ⟨req', world', -, hp', -⟩ | ⟨-, hp', -⟩ | ⟨rc, -, heq⟩
      · cases hp.symm.trans hp'
      · -- the write completes: the loop test starts a read or the shutdown
        rw [loopTest]
        split <;> rfl
      · cases hp.symm.trans hp'
      · cases hp.symm.trans hp'
      · rw [show as = [.returned rc] from congrArg Prod.snd heq]
        rfl

/-- **ONE RESPONSE PER REQUEST**: a run answers every request it read, once and
    in order, exactly when every one of them is servable. -/
theorem answered_iff {inputs : List (Input W)}
    (h : run (step routes) .init inputs = some (s, t)) :
    AnsweredOnce routes t
      ↔ ∀ req world, Input.request req world ∈ inputs → Servable req := by
  constructor
  · intro hans req world hread
    obtain ⟨pre, post, rfl⟩ := List.append_of_mem ((got_mem_iff inputs h).mpr hread)
    obtain ⟨res, hres, hwrites⟩ := hans pre req world post rfl
    obtain ⟨s₂, is₂, t₂, -, -, hpost⟩ := got_in_run h
    by_contra hserv
    rcases answer_not_servable routes world hserv with ⟨r, hr⟩ | hr
    · -- the response is built and the run returns
      rw [hpost, hr] at hwrites
      cases hwrites
    · rw [hr] at hres
      cases hres
  · intro hserv pre req world post ht
    subst ht
    have hread : Input.request req world ∈ inputs :=
      (got_mem_iff inputs h).mp (List.mem_append_right _ (List.mem_cons_self ..))
    obtain ⟨s₂, is₂, t₂, hrun, hphase, hpost⟩ := got_in_run h
    obtain ⟨signal, res, hans⟩ :=
      (exists_write_iff routes req world).mpr (hserv req world hread)
    rw [hans] at hphase hpost
    have hrest := writesFor_writing hphase hrun
    refine ⟨res, by rw [hans]; rfl, ?_⟩
    rw [hpost]
    cases signal with
    | none => exact congrArg (res :: ·) hrest
    | some key => exact congrArg (res :: ·) hrest

/-- A server with one page, whose function yields the empty string. -/
def plainRoutes : RouteImpl Unit :=
  ((RouteImpl.fresh : RouteImpl Unit).getAdd (lit "/empty") 0 fun x => ([], x)).2

/-- A HEAD request for that page. -/
def headRequest : RequestBeast := ⟨lit "HEAD", lit "/empty", 11, true, [], []⟩

/-- The HEAD request, then a GET for a page that is not there, on a connection that the
    client ends. -/
def plainInputs : List (Input Unit) :=
  [.done, .request headRequest (), .done, .request plainRequest (), .done, .endOfStream, .done]

/-- The trace of that connection. -/
def plainTrace : List (Action Unit) :=
  let empty := fillResponse headRequest .fresh 200 []
  let res := notFound plainRequest .fresh (lit "/page")
  [.asyncRead, .got headRequest (), .invoked (.get, lit "/empty"), .asyncWrite empty,
    .wrote headRequest () empty, .asyncRead, .got plainRequest (), .asyncWrite res,
    .wrote plainRequest () res, .asyncRead, .asyncShutdown, .returned 0]

theorem run_plain : run (step plainRoutes) .init plainInputs
    = some (⟨true, .finished⟩, plainTrace) := by
  decide +kernel

theorem answered_plain :
    AnsweredOnce plainRoutes plainTrace
      ↔ ∀ req world, Input.request req world ∈ plainInputs → Servable req :=
  @answered_iff Unit plainRoutes ⟨true, .finished⟩ plainTrace plainInputs run_plain

/-- A POST request is read and the run returns without a write. -/
theorem answered_not_always :
    ¬ ∀ (routes : RouteImpl Unit) (inputs : List (Input Unit)) (s : ConnState Unit)
        (t : List (Action Unit)), run (step routes) .init inputs = some (s, t) →
        AnsweredOnce routes t := by
  intro h
  obtain ⟨res, -, hwrites⟩ := h .fresh
    [.done, .request ⟨lit "POST", lit "/", 11, true, [], []⟩ ()] _ _ rfl
    [.asyncRead] ⟨lit "POST", lit "/", 11, true, [], []⟩ () [.returned 0] rfl
  cases hwrites

/-! ## Keep-alive -/

/-- After the response to a request that asks to close the connection reads no
    more and shuts down; after any other response it reads again. -/
def KeepAliveHonoured (t : List (Action W)) : Prop :=
  ∀ pre req world res post, t = pre ++ .wrote req world res :: post →
    if req.keepAlive then post.head? = some .asyncRead
    else post.head? = some .asyncShutdown ∧ .asyncRead ∉ post
      ∧ ∀ req' world', .got req' world' ∉ post

/-- **KEEP-ALIVE**: a run honours it exactly when every completed request asked
    to keep the connection alive. -/
theorem keepAlive_iff {inputs : List (Input W)}
    (h : run (step routes) .init inputs = some (s, t)) :
    KeepAliveHonoured t
      ↔ ∀ req world, Completed inputs req world → req.keepAlive = true := by
  constructor
  · intro hkeep req world hcompleted
    obtain ⟨res, hmem⟩ := (wrote_mem_iff h req world).mpr hcompleted
    obtain ⟨pre, post, rfl⟩ := List.append_of_mem hmem
    obtain ⟨-, t₂, rfl⟩ := wrote_in_run h
    by_contra hne
    -- the flag that keeps the loop going is never cleared
    have hclosed := hkeep pre req world res (.asyncRead :: t₂) rfl
    rw [if_neg hne] at hclosed
    exact hclosed.2.1 (List.mem_cons_self ..)
  · intro hall pre req world res post ht
    subst ht
    have hcompleted : Completed inputs req world :=
      (wrote_mem_iff h req world).mp
        ⟨res, List.mem_append_right _ (List.mem_cons_self ..)⟩
    rw [if_pos (hall req world hcompleted)]
    obtain ⟨-, t₂, rfl⟩ := wrote_in_run h
    rfl

theorem keepAlive_plain :
    KeepAliveHonoured plainTrace
      ↔ ∀ req world, Completed plainInputs req world → req.keepAlive = true :=
  @keepAlive_iff Unit plainRoutes ⟨true, .finished⟩ plainTrace plainInputs run_plain

/-- A request that asks to close is answered and the connection reads again. -/
theorem keepAlive_not_always :
    ¬ ∀ (routes : RouteImpl Unit) (inputs : List (Input Unit)) (s : ConnState Unit)
        (t : List (Action Unit)), run (step routes) .init inputs = some (s, t) →
        KeepAliveHonoured t := by
  intro h
  have hclosed := h .fresh
    [.done, .request ⟨lit "GET", lit "/", 11, false, [], []⟩ (), .done] _ _ rfl
    [.asyncRead, .got _ _, .asyncWrite _] _ _ _ [.asyncRead] rfl
  exact hclosed.2.1 (List.mem_cons_self ..)

/-! ## Framing -/

/-- The octets that an action puts on the stream. -/
def Action.octets (C : HeaderCodec ResponseHeader Built) : Action W → Bytes
  | .wrote _ _ res => C.write res.header ++ res.body
  | _ => []

/-- The octets written in a run. -/
def written (C : HeaderCodec ResponseHeader Built) (t : List (Action W)) : Bytes :=
  t.flatMap (Action.octets C)

/-- The completed responses, each with what the client knows of its request. -/
def messages (t : List (Action W)) : List (Sent ResponseHeader) :=
  t.filterMap (fun a => match a with
    | .wrote req _ res => some ⟨req.method == .head, res.header, res.body⟩
    | _ => none)

/-- The bytes that were written are the messages in order. -/
theorem written_eq (C : HeaderCodec ResponseHeader Built) (t : List (Action W)) :
    written C t = wire C (sent (messages t)) := by
  induction t with
  | nil => rfl
  | cons a rest ih =>
      rw [written, List.flatMap_cons, ← written, ih]
      cases a <;> rfl

/-- The messages are the responses that were written. -/
theorem mem_messages {m : Sent ResponseHeader} :
    m ∈ messages t ↔ ∃ req world res, Action.wrote req world res ∈ t
      ∧ m = ⟨req.method == .head, res.header, res.body⟩ := by
  rw [messages, List.mem_filterMap]
  constructor
  · rintro ⟨a, ha, heq⟩
    cases a with
    | wrote req world res =>
        exact ⟨req, world, res, ha, (Option.some.inj heq).symm⟩
    | _ => cases heq
  · rintro ⟨req, world, res, ha, rfl⟩
    exact ⟨_, ha, rfl⟩

/-- The path of the request has a signal, and its functions, called in turn,
    yield the empty string. -/
def EmptyReply (routes : RouteImpl W) (req : RequestBeast) (world : W) : Prop :=
  ∃ x key sig, setup req world = .ok x
    ∧ routes.findSignal (targetPath req.target) .get = some (key, sig)
    ∧ (runSlots sig.slots x).1 = []

/-- A response that is written announces its body, and its body is empty exactly
    for an empty reply. -/
theorem answer_write {req : RequestBeast} {world : W} {signal : Option Key}
    {res : ResponseBeast} (h : answer routes req world = .write signal res) :
    Built res.header ∧ bodyLength res.header = res.body.length
      ∧ (res.body = [] ↔ EmptyReply routes req world) := by
  have hserv := (exists_write_iff routes req world).mp ⟨signal, res, h⟩
  obtain ⟨x, hx, -, ⟨hf, hans⟩ | ⟨key, sig, hf, hans⟩⟩ :=
    answer_servable routes world hserv
  · obtain ⟨-, rfl⟩ := Answer.write.inj (h.symm.trans hans)
    refine ⟨fillResponse_built .., fillResponse_length .., ?_⟩
    constructor
    · intro hempty
      -- a notFound page is never empty
      exact absurd (List.append_eq_nil_iff.mp hempty).2 (by decide)
    · rintro ⟨-, key, sig, -, hf', -⟩
      cases hf.symm.trans hf'
  · rw [call_eq_runSlots] at hans
    obtain ⟨-, rfl⟩ := Answer.write.inj (h.symm.trans hans)
    refine ⟨fillResponse_built _ (runSlots sig.slots x).2.resBeast _ _,
      fillResponse_length _ (runSlots sig.slots x).2.resBeast _ _, ?_⟩
    constructor
    · exact fun hempty => ⟨x, key, sig, hx, hf, hempty⟩
    · rintro ⟨x', key', sig', hx', hf', hempty⟩
      obtain ⟨-, rfl⟩ := Prod.mk.inj (Option.some.inj (hf.symm.trans hf'))
      rw [← Except.ok.inj (hx.symm.trans hx')] at hempty
      exact hempty

/-- **FRAMING OF HEAD RESPONSES**: a client gets the responses back, with no
    octet left over, exactly when every completed HEAD request had an empty
    reply. -/
theorem framing_iff (C : HeaderCodec ResponseHeader Built)
    {inputs : List (Input W)} (h : run (step routes) .init inputs = some (s, t)) :
    receive C bodyLength ((messages t).map (·.bodiless)) (written C t)
        = some (expected (messages t), [])
      ↔ ∀ req world, Completed inputs req world → req.method = .head →
          EmptyReply routes req world := by
  have hanswer : ∀ {req world res}, Action.wrote req world res ∈ t →
      ∃ signal, answer routes req world = .write signal res := by
    intro req world res hmem
    obtain ⟨pre, post, rfl⟩ := List.append_of_mem hmem
    exact (wrote_in_run h).1
  have hframed : WellFramed Built bodyLength (messages t) := by
    intro m hm
    obtain ⟨req, world, res, hmem, rfl⟩ := mem_messages.mp hm
    obtain ⟨signal, hans⟩ := hanswer hmem
    exact ⟨(answer_write hans).1, (answer_write hans).2.1⟩
  rw [written_eq, receive_wire_iff C hframed]
  constructor
  · intro hempty req world hcompleted hhead
    obtain ⟨res, hmem⟩ := (wrote_mem_iff h req world).mpr hcompleted
    obtain ⟨signal, hans⟩ := hanswer hmem
    exact (answer_write hans).2.2.mp
      (hempty _ (mem_messages.mpr ⟨req, world, res, hmem, rfl⟩) (beq_iff_eq.mpr hhead))
  · intro hreply m hm hb
    obtain ⟨req, world, res, hmem, rfl⟩ := mem_messages.mp hm
    obtain ⟨signal, hans⟩ := hanswer hmem
    have hcompleted := (wrote_mem_iff h req world).mp ⟨res, hmem⟩
    exact (answer_write hans).2.2.mpr (hreply req world hcompleted (beq_iff_eq.mp hb))

theorem framing_plain :
    receive textCodec bodyLength ((messages plainTrace).map (·.bodiless))
        (written textCodec plainTrace) = some (expected (messages plainTrace), [])
      ↔ ∀ req world, Completed plainInputs req world → req.method = .head →
          EmptyReply plainRoutes req world :=
  @framing_iff Unit plainRoutes ⟨true, .finished⟩ plainTrace textCodec plainInputs run_plain

/-- A HEAD request for a path without routes is answered with the page of
    `notFound`, and the page is left over on the stream. -/
theorem framing_not_always :
    ¬ ∀ (routes : RouteImpl Unit) (inputs : List (Input Unit)) (s : ConnState Unit)
        (t : List (Action Unit)), run (step routes) .init inputs = some (s, t) →
        receive textCodec bodyLength ((messages t).map (·.bodiless))
          (written textCodec t) = some (expected (messages t), []) := by
  intro h
  have hread := h .fresh
    [.done, .request ⟨lit "HEAD", lit "/", 11, true, [], []⟩ (), .done] _ _ rfl
  revert hread
  decide +kernel

end HttpConnection
