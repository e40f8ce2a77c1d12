import BookFilerHttp.HttpResponseProofs
import BookFilerHttp.StableSortProofs

/-! # Routes: `RouteImpl`

    Three maps from paths to signals.  A signal holds the registered functions
    as slots, ordered by priority and, within one priority, by time of
    connection; it is invoked through a combiner that calls slot after slot and
    stops once the response has been ended.

    `doSignal` looks the path up in four places and runs the signal it finds
    first.  The headline is `doGetSignal_reference`: for every history of
    registrations the dispatch is the reference dispatch, which knows no signals
    and no maps, only the list of registrations, and of a response only what `end`
    has stored in it. -/

namespace HttpRoute

open ByteString HttpRequest HttpResponse StableSort

variable {W : Type}

/-! ## Route functions -/

/-- The request and the response a route function works on, and the rest of the
    program's state, the `world`.  Both wrappers hold a message: a null message
    cannot be passed. -/
structure Exchange (W : Type) where
  world : W
  req : RequestImpl
  res : ResponseImpl
  hasRequest : req.requestBeast.isSome = true
  hasResponse : res.resBeast.isSome = true

namespace Exchange

/-- `getRequest()`, dereferenced. -/
def reqBeast (x : Exchange W) : RequestBeast := x.req.requestBeast.get x.hasRequest

/-- `getResponse()`, dereferenced. -/
def resBeast (x : Exchange W) : ResponseBeast := x.res.resBeast.get x.hasResponse

/-- Overwrite the response message. -/
def setResBeast (x : Exchange W) (res : ResponseBeast) : Exchange W :=
  { x with res := (x.res.setResponse res).2, hasResponse := rfl }

/-- The exchange of a request that holds a message, with a fresh response. -/
def make (world : W) (req : RequestImpl) (h : req.requestBeast.isSome = true)
    (res : ResponseBeast) : Exchange W :=
  ⟨world, req, (ResponseImpl.fresh.setResponse res).2, h, rfl⟩

/-- The end of `doSignal`: the response message is filled in with status 200. -/
def respond (x : Exchange W) (bodyStr : Bytes) : Exchange W :=
  x.setResBeast (fillResponse x.reqBeast x.resBeast 200 bodyStr)

end Exchange

/-- A route function may change the request, the response and the world. -/
abbrev RouteFunction (W : Type) := Exchange W → Bytes × Exchange W

/-! ## Signals -/

/-- A connected function with the group it was connected in. -/
structure Slot (W : Type) where
  group : Int
  function : RouteFunction W

/-- A signal: its slots, ordered by group. -/
structure Signal (W : Type) where
  slots : List (Slot W)
  ordered : OrderedBy Slot.group slots

namespace Signal

def empty : Signal W := ⟨[], List.Pairwise.nil⟩

/-- `connect`: behind the slots of the same and of smaller groups. -/
def connect (sig : Signal W) (priority : Int) (routeFunction : RouteFunction W) :
    Signal W :=
  ⟨insertLast Slot.group ⟨priority, routeFunction⟩ sig.slots,
    insertLast_ordered Slot.group sig.ordered⟩

end Signal

namespace RouteCombiner

/-- The test after a call: the body of the response the combiner is bound to,
    once that response has been ended. -/
def ended (bound : ResponseImpl) : Option Bytes :=
  if bound.writableEnded then some bound.body else none

/-- The loop of `operator()`, with the value of the last call. -/
def loop : List (Slot W) → Bytes → Exchange W → Bytes × Exchange W
  | [], valueLast, x => (valueLast, x)
  | slot :: rest, _, x =>
      let (valueLast, x') := slot.function x
      match ended x'.res with
      | some body => (body, x')
      | none => loop rest valueLast x'

/-- `operator()` of a combiner bound to the exchange's own response: the empty
    string when there are no slots. -/
def call (slots : List (Slot W)) (x : Exchange W) : Bytes × Exchange W :=
  match slots with
  | [] => ([], x)
  | slots => loop slots [] x

theorem call_eq (slots : List (Slot W)) (x : Exchange W) :
    call slots x = loop slots [] x := by
  cases slots with
  | nil => rfl
  | cons slot rest => rfl

end RouteCombiner

/-! ## The route maps -/

/-- The three maps of a `RouteImpl`. -/
inductive Table where
  | post
  | get
  | all
  deriving DecidableEq

/-- The place of a signal: a map and a path. -/
abbrev Key := Table × Bytes

abbrev RouteMap (W : Type) := OrdMap.Map Bytes (Signal W)

structure RouteImpl (W : Type) where
  routePostMap : RouteMap W
  routeGetMap : RouteMap W
  routeAllMap : RouteMap W

namespace RouteImpl

def fresh : RouteImpl W := ⟨OrdMap.empty, OrdMap.empty, OrdMap.empty⟩

/-- `add`: the signal of the path, a new one if there is none, is connected. -/
def add (path : Bytes) (priority : Int) (routeFunction : RouteFunction W)
    (routeMap : RouteMap W) : RouteMap W :=
  OrdMap.alter path
    (fun it => (it.getD Signal.empty).connect priority routeFunction) routeMap

def getAdd (r : RouteImpl W) (path : Bytes) (priority : Int)
    (routeFunction : RouteFunction W) : Int × RouteImpl W :=
  (0, { r with routeGetMap := add path priority routeFunction r.routeGetMap })

def postAdd (r : RouteImpl W) (path : Bytes) (priority : Int)
    (routeFunction : RouteFunction W) : Int × RouteImpl W :=
  (0, { r with routePostMap := add path priority routeFunction r.routePostMap })

def allAdd (r : RouteImpl W) (path : Bytes) (priority : Int)
    (routeFunction : RouteFunction W) : Int × RouteImpl W :=
  (0, { r with routeAllMap := add path priority routeFunction r.routeAllMap })

/-- The signal at a place. -/
def find (r : RouteImpl W) : Key → Option (Signal W)
  | (.post, path) => OrdMap.find path r.routePostMap
  | (.get, path) => OrdMap.find path r.routeGetMap
  | (.all, path) => OrdMap.find path r.routeAllMap

/-- The four places that `doSignal` looks at, in turn. -/
def places (path : Bytes) (routeMap : Table) : List Key :=
  [(routeMap, path), (routeMap, lit "*"), (.all, path), (.all, lit "*")]

/-- The signal found first, with its place. -/
def findSignal (r : RouteImpl W) (path : Bytes) (routeMap : Table) :
    Option (Key × Signal W) :=
  (places path routeMap).findSome? (fun key => (r.find key).map (fun sig => (key, sig)))

/-- `doSignal`: -1 when no place has a signal.  The combiner always returns a
    string, so the test of `returnStrOpt` never fails. -/
def doSignal (r : RouteImpl W) (path : Bytes) (x : Exchange W)
    (routeMap : Table) : Int × Exchange W :=
  match r.findSignal path routeMap with
  | none => (-1, x)
  | some (_, pathSignal) =>
      let (returnStr, x') := RouteCombiner.call pathSignal.slots x
      (0, x'.respond returnStr)

def doGetSignal (r : RouteImpl W) (path : Bytes) (x : Exchange W) :
    Int × Exchange W :=
  r.doSignal path x .get

theorem doGetSignal_none {routes : RouteImpl W} {p : Bytes} {x : Exchange W}
    (h : routes.findSignal p .get = none) : routes.doGetSignal p x = (-1, x) := by
  rw [RouteImpl.doGetSignal, RouteImpl.doSignal, h]

/-- A signal that is found is run, and its value fills the response. -/
theorem doGetSignal_some {routes : RouteImpl W} {p : Bytes} {x : Exchange W}
    {key : Key} {sig : Signal W}
    (h : routes.findSignal p .get = some (key, sig)) :
    routes.doGetSignal p x
      = (0, (RouteCombiner.call sig.slots x).2.respond
          (RouteCombiner.call sig.slots x).1) := by
  rw [RouteImpl.doGetSignal, RouteImpl.doSignal, h]

end RouteImpl

/-! ## Histories of registrations -/

/-- One call of `getAdd`, `postAdd` or `allAdd`. -/
structure Registration (W : Type) where
  table : Table
  path : Bytes
  priority : Int
  function : RouteFunction W

namespace Registration

def key (g : Registration W) : Key := (g.table, g.path)

def slot (g : Registration W) : Slot W := ⟨g.priority, g.function⟩

def apply (r : RouteImpl W) (g : Registration W) : RouteImpl W :=
  match g.table with
  | .post => (r.postAdd g.path g.priority g.function).2
  | .get => (r.getAdd g.path g.priority g.function).2
  | .all => (r.allAdd g.path g.priority g.function).2

end Registration

/-- The routes after a history of registrations. -/
def register (regs : List (Registration W)) : RouteImpl W :=
  regs.foldl Registration.apply RouteImpl.fresh

/-- The functions registered at a place, in the order of registration. -/
def registered (regs : List (Registration W)) (key : Key) : List (Slot W) :=
  (regs.filter (fun g => g.key == key)).map Registration.slot

/-- A further registration stands last under its own key. -/
theorem registered_append (regs : List (Registration W)) (g : Registration W)
    (key : Key) :
    registered (regs ++ [g]) key
      = registered regs key ++ (if key = g.key then [g.slot] else []) := by
  rw [registered, List.filter_append, List.map_append, ← registered]
  by_cases h : key = g.key
  · have heq : (g.key == key) = true := beq_iff_eq.mpr h.symm
    rw [if_pos h, List.filter_cons, if_pos heq]
    rfl
  · have hne : ¬ (g.key == key) = true := fun hk => h (beq_iff_eq.mp hk).symm
    rw [if_neg h, List.filter_cons, if_neg hne]
    rfl

/-- A registration connects one slot at its place and touches no other place. -/
theorem find_apply (r : RouteImpl W) (g : Registration W) (key : Key) :
    (g.apply r).find key
      = if key = g.key
        then some (((r.find key).getD Signal.empty).connect g.priority g.function)
        else r.find key := by
  obtain ⟨table, path⟩ := key
  obtain ⟨gtable, gpath, priority, function⟩ := g
  have hwrite : ∀ m : RouteMap W,
      OrdMap.find path (RouteImpl.add gpath priority function m)
        = if path = gpath
          then some (((OrdMap.find path m).getD Signal.empty).connect priority function)
          else OrdMap.find path m := by
    intro m
    rw [RouteImpl.add, OrdMap.find_alter]
    by_cases h : path = gpath
    · rw [if_pos h, if_pos h]
    · rw [if_neg h, if_neg h]
  have hsame : ∀ t : Table, ((t, path) = (t, gpath)) = (path = gpath) :=
    fun t => propext ⟨fun h => (Prod.mk.inj h).2, fun h => h ▸ rfl⟩
  have hother : ∀ {t t' : Table}, t ≠ t' → ¬ (t, path) = (t', gpath) :=
    fun hne h => hne (Prod.mk.inj h).1
  -- the written map against the one looked at
  cases gtable <;> cases table <;>
    simp only [Registration.apply, Registration.key, RouteImpl.getAdd,
      RouteImpl.postAdd, RouteImpl.allAdd, RouteImpl.find, hwrite, hsame,
      hother (show Table.post ≠ .get by decide), hother (show Table.post ≠ .all by decide),
      hother (show Table.get ≠ .post by decide), hother (show Table.get ≠ .all by decide),
      hother (show Table.all ≠ .post by decide), hother (show Table.all ≠ .get by decide),
      if_false]

/-- The signal that holds a list of slots connected one by one; none for no
    slots. -/
def signalOf (slots : List (Slot W)) : Option (Signal W) :=
  if slots = [] then none
  else some ⟨insertEach Slot.group slots [],
    insertEach_ordered Slot.group slots List.Pairwise.nil⟩

/-- Connecting one more slot. -/
theorem signalOf_append (slots : List (Slot W)) (slot : Slot W) :
    signalOf (slots ++ [slot])
      = some (((signalOf slots).getD Signal.empty).connect slot.group
          slot.function) := by
  have hne : ¬ slots ++ [slot] = [] :=
    List.append_ne_nil_of_right_ne_nil _ (List.cons_ne_nil _ _)
  have hslots : insertEach Slot.group (slots ++ [slot]) []
      = insertLast Slot.group slot (insertEach Slot.group slots []) := by
    rw [insertEach, List.foldl_append]
    rfl
  have hold : ((signalOf slots).getD Signal.empty).slots
      = insertEach Slot.group slots [] := by
    rw [signalOf]
    by_cases hnil : slots = []
    · rw [if_pos hnil, hnil]
      rfl
    · rw [if_neg hnil]
      rfl
  rw [signalOf, if_neg hne]
  refine congrArg some ?_
  rw [Signal.mk.injEq, hslots]
  show _ = insertLast Slot.group slot ((signalOf slots).getD Signal.empty).slots
  rw [hold]

/-- **KEYS**: a place has a signal exactly when a function is registered for it,
    and the signal holds all of them. -/
theorem find_register (regs : List (Registration W)) (key : Key) :
    (register regs).find key = signalOf (registered regs key) := by
  induction regs using List.reverseRecOn with
  | nil =>
      obtain ⟨table, path⟩ := key
      cases table <;> rfl
  | append_singleton regs g ih =>
      have hfold : register (regs ++ [g]) = g.apply (register regs) := by
        rw [register, List.foldl_append]
        rfl
      rw [hfold, find_apply, registered_append, ih]
      by_cases h : key = g.key
      · rw [if_pos h, if_pos h, signalOf_append]
        rfl
      · rw [if_neg h, if_neg h, List.append_nil]

/-! ## The reference dispatch -/

/-- The results of calling every function of a list in turn. -/
def outcomes : List (Slot W) → Exchange W → List (Bytes × Exchange W)
  | [], _ => []
  | slot :: rest, x => slot.function x :: outcomes rest (slot.function x).2

/-- The reference run of a list of functions: the first outcome with an ended
    response counts, with the body stored in the response; without one the last
    outcome counts, with the value returned. -/
def runSlots (slots : List (Slot W)) (x : Exchange W) : Bytes × Exchange W :=
  match (outcomes slots x).find? (fun o => o.2.res.writableEnded) with
  | some o => (o.2.res.body, o.2)
  | none => (outcomes slots x).getLast?.getD ([], x)

/-- The first non-empty list among the functions registered for GET and the path,
    for GET and `*`, for all methods and the path, and for all methods and `*`. -/
def firstRegistered (regs : List (Registration W)) (path : Bytes) :
    Option (List (Slot W)) :=
  [registered regs (.get, path), registered regs (.get, lit "*"),
    registered regs (.all, path), registered regs (.all, lit "*")].find?
      (fun l => !l.isEmpty)

/-- Ascending priority, ties in registration order. -/
def byPriority (slots : List (Slot W)) : List (Slot W) :=
  slots.mergeSort (keyLe Slot.group)

/-- The response is as a call of `end` with the body leaves it. -/
def EndedWith (res : ResponseImpl) (body : Bytes) : Prop :=
  ∃ before : ResponseImpl, res = (before.end_ body).2

/-- Calling the functions of a list in turn, each once, up to the first after
    which the response has been ended: the body that counts, and the exchange
    after the last call. -/
inductive Calls : List (Slot W) → Exchange W → Bytes → Exchange W → Prop
  | ended {slot : Slot W} {rest : List (Slot W)} {x : Exchange W} {body : Bytes} :
      EndedWith (slot.function x).2.res body →
      Calls (slot :: rest) x body (slot.function x).2
  | last {slot : Slot W} {x : Exchange W} :
      (¬ ∃ body, EndedWith (slot.function x).2.res body) →
      Calls [slot] x (slot.function x).1 (slot.function x).2
  | next {slot slot' : Slot W} {rest : List (Slot W)} {x x' : Exchange W}
      {body : Bytes} :
      (¬ ∃ body, EndedWith (slot.function x).2.res body) →
      Calls (slot' :: rest) (slot.function x).2 body x' →
      Calls (slot :: slot' :: rest) x body x'

/-- The reference dispatch: -1 and nothing done without a registration, and else 0
    and the response filled in with the body that counts. -/
inductive Reference (regs : List (Registration W)) (path : Bytes) (x : Exchange W) :
    Int → Exchange W → Prop
  | notFound : firstRegistered regs path = none → Reference regs path x (-1) x
  | found {slots : List (Slot W)} {body : Bytes} {x' : Exchange W} :
      firstRegistered regs path = some slots →
      Calls (byPriority slots) x body x' →
      Reference regs path x 0 (x'.respond body)

/-- `writableEnded` and `body` read what `end` has stored. -/
theorem endedWith_iff {res : ResponseImpl} {body : Bytes} :
    EndedWith res body ↔ res.writableEnded = true ∧ res.body = body := by
  constructor
  · rintro ⟨before, rfl⟩
    exact ⟨rfl, rfl⟩
  · rintro ⟨hended, rfl⟩
    obtain ⟨resBeast, writableEndedFlag, bodyStr⟩ := res
    have hflag : writableEndedFlag = true := hended
    subst hflag
    exact ⟨⟨resBeast, true, bodyStr⟩, rfl⟩

/-- A response is not ended exactly when no call of `end` has left it. -/
theorem not_endedWith_iff {res : ResponseImpl} :
    (¬ ∃ body, EndedWith res body) ↔ res.writableEnded = false := by
  rw [← Bool.not_eq_true]
  refine not_congr ⟨?_, ?_⟩
  · rintro ⟨body, h⟩
    exact (endedWith_iff.mp h).1
  · intro h
    exact ⟨res.body, endedWith_iff.mpr ⟨h, rfl⟩⟩

/-- One turn of the loop of the combiner: it returns the stored body, or goes on. -/
theorem loop_cons (slot : Slot W) (rest : List (Slot W)) (v : Bytes) (x : Exchange W) :
    RouteCombiner.loop (slot :: rest) v x
      = if (slot.function x).2.res.writableEnded = true
        then ((slot.function x).2.res.body, (slot.function x).2)
        else RouteCombiner.loop rest (slot.function x).1 (slot.function x).2 := by
  rw [RouteCombiner.loop]
  show (match RouteCombiner.ended (slot.function x).2.res with
    | some body => (body, (slot.function x).2)
    | none => RouteCombiner.loop rest (slot.function x).1 (slot.function x).2) = _
  rw [RouteCombiner.ended]
  cases (slot.function x).2.res.writableEnded <;> rfl

/-- **THE COMBINER** calls the functions as the reference does, whatever value it
    starts with. -/
theorem calls_iff (slots : List (Slot W)) :
    slots ≠ [] → ∀ (v : Bytes) {x x' : Exchange W} {body : Bytes},
      Calls slots x body x' ↔ RouteCombiner.loop slots v x = (body, x') := by
  induction slots with
  | nil => exact fun hne => absurd rfl hne
  | cons slot rest ih =>
      intro _ v x x' body
      rw [loop_cons]
      by_cases hended : (slot.function x).2.res.writableEnded = true
      · -- the rest of the list is not called
        rw [if_pos hended]
        have hsome : ∃ body, EndedWith (slot.function x).2.res body :=
          ⟨_, endedWith_iff.mpr ⟨hended, rfl⟩⟩
        constructor
        · intro h
          cases h with
          | ended hwith => rw [(endedWith_iff.mp hwith).2]
          | last hno => exact absurd hsome hno
          | next hno _ => exact absurd hsome hno
        · intro h
          obtain ⟨hbody, hx⟩ := Prod.mk.inj h
          rw [← hx]
          exact .ended (endedWith_iff.mpr ⟨hended, hbody⟩)
      · rw [if_neg hended]
        have hno : ¬ ∃ body, EndedWith (slot.function x).2.res body :=
          not_endedWith_iff.mpr (Bool.not_eq_true _ ▸ hended)
        cases rest with
        | nil =>
            constructor
            · intro h
              cases h with
              | ended hwith => exact absurd ⟨_, hwith⟩ hno
              | last _ => rfl
            · intro h
              obtain ⟨hbody, hx⟩ := Prod.mk.inj h
              rw [← hbody, ← hx]
              exact .last hno
        | cons slot' rest' =>
            rw [← ih (List.cons_ne_nil _ _) (slot.function x).1]
            constructor
            · intro h
              cases h with
              | ended hwith => exact absurd ⟨_, hwith⟩ hno
              | next _ hrest => exact hrest
            · exact fun h => .next hno h

/-- The combiner computes the reference run. -/
theorem loop_eq_runSlots (slots : List (Slot W)) :
    ∀ (v : Bytes) (x : Exchange W),
      RouteCombiner.loop slots v x
        = match (outcomes slots x).find? (fun o => o.2.res.writableEnded) with
          | some o => (o.2.res.body, o.2)
          | none => (outcomes slots x).getLast?.getD (v, x) := by
  induction slots with
  | nil => exact fun v x => rfl
  | cons slot rest ih =>
      intro v x
      rw [loop_cons, outcomes, List.find?_cons]
      cases hended : (slot.function x).2.res.writableEnded with
      | true => rfl
      | false =>
          -- not ended: the value becomes the default of the rest
          simp only [Bool.false_eq_true, if_false]
          rw [ih, List.getLast?_cons]
          cases (outcomes rest (slot.function x).2).find?
              (fun o => o.2.res.writableEnded) with
          | some o => rfl
          | none => rfl

theorem call_eq_runSlots (slots : List (Slot W)) (x : Exchange W) :
    RouteCombiner.call slots x = runSlots slots x := by
  rw [RouteCombiner.call_eq, loop_eq_runSlots, runSlots]

/-- The signal found first is the one of the first place with a registration. -/
theorem findSignal_register (regs : List (Registration W)) (path : Bytes)
    (routeMap : Table) :
    ((register regs).findSignal path routeMap).map
        (fun found => (found.1, found.2.slots))
      = ((RouteImpl.places path routeMap).find?
          (fun key => !(registered regs key).isEmpty)).map
            (fun key => (key, byPriority (registered regs key))) := by
  rw [RouteImpl.findSignal]
  -- the argument does not depend on which places are looked at
  induction RouteImpl.places path routeMap with
  | nil => rfl
  | cons key rest ih =>
      rw [List.findSome?_cons, List.find?_cons, find_register, signalOf]
      by_cases hnil : registered regs key = []
      · rw [if_pos hnil, hnil]
        exact ih
      · have hne : (registered regs key).isEmpty = false := by
          rw [← Bool.not_eq_true, List.isEmpty_iff]
          exact hnil
        rw [if_neg hnil, hne]
        exact congrArg (fun slots => some (key, slots))
          (insertEach_eq_mergeSort Slot.group _)

/-- The signal found first holds the functions of the first non-empty list, in
    the order of the reference. -/
theorem findSignal_firstRegistered (regs : List (Registration W)) (path : Bytes) :
    ((register regs).findSignal path .get).map (fun found => found.2.slots)
      = (firstRegistered regs path).map byPriority := by
  have hfirst : firstRegistered regs path
      = ((RouteImpl.places path .get).find?
          (fun key => !(registered regs key).isEmpty)).map (registered regs) := by
    show ((RouteImpl.places path .get).map (registered regs)).find?
      (fun l => !l.isEmpty) = _
    exact List.find?_map ..
  have hslots := congrArg (Option.map Prod.snd) (findSignal_register regs path .get)
  rw [Option.map_map, Option.map_map] at hslots
  rw [hfirst, Option.map_map]
  exact hslots

theorem byPriority_ne_nil {regs : List (Registration W)} {path : Bytes}
    {slots : List (Slot W)} (h : firstRegistered regs path = some slots) :
    byPriority slots ≠ [] := by
  have hne : slots ≠ [] := by
    rintro rfl
    cases List.find?_some h
  intro hnil
  have hperm : (byPriority slots).Perm slots := List.mergeSort_perm ..
  rw [hnil] at hperm
  exact hne hperm.nil_eq.symm

/-- **ROUTER REFINEMENT**: after any history of registrations dispatching does what
    the reference dispatch does and nothing else; without a registration it returns
    -1 and has touched nothing, and otherwise the status is 200 and the body is the
    one that counts. -/
theorem doGetSignal_reference (regs : List (Registration W)) (path : Bytes)
    (x : Exchange W) :
    (∀ rc x', (register regs).doGetSignal path x = (rc, x') ↔ Reference regs path x rc x')
      ∧ match firstRegistered regs path with
        | none => (register regs).doGetSignal path x = (-1, x)
        | some slots =>
            ∃ body x', Calls (byPriority slots) x body x'
              ∧ (register regs).doGetSignal path x = (0, x'.respond body)
              ∧ ((register regs).doGetSignal path x).2.resBeast.header.result = 200
              ∧ ((register regs).doGetSignal path x).2.resBeast.body = body := by
  have hfound := findSignal_firstRegistered regs path
  cases hfirst : firstRegistered regs path with
  | none =>
      rw [hfirst] at hfound
      have hdo : (register regs).doGetSignal path x = (-1, x) :=
        RouteImpl.doGetSignal_none (Option.map_eq_none_iff.mp hfound)
      refine ⟨?_, hdo⟩
      intro rc x'
      rw [hdo]
      constructor
      · intro h
        obtain ⟨rfl, rfl⟩ := Prod.mk.inj h
        exact .notFound hfirst
      · intro h
        cases h with
        | notFound _ => rfl
        | found hsome _ => cases hfirst.symm.trans hsome
  | some slots =>
      rw [hfirst] at hfound
      obtain ⟨found, hsig, hslots⟩ := Option.map_eq_some_iff.mp hfound
      -- the combiner runs the list of the reference
      have hcalls : ∀ body x', Calls (byPriority slots) x body x'
          ↔ RouteCombiner.call found.2.slots x = (body, x') := by
        intro body x'
        rw [RouteCombiner.call_eq, hslots]
        exact calls_iff _ (byPriority_ne_nil hfirst) []
      have hdo := RouteImpl.doGetSignal_some (x := x) hsig
      constructor
      · intro rc x'
        rw [hdo]
        constructor
        · intro h
          obtain ⟨rfl, rfl⟩ := Prod.mk.inj h
          exact .found hfirst ((hcalls _ _).mpr rfl)
        · intro h
          cases h with
          | notFound hnone => cases hfirst.symm.trans hnone
          | @found slots' body x'' hsome hrun =>
              rw [Option.some.inj (hsome.symm.trans hfirst)] at hrun
              rw [(hcalls _ _).mp hrun]
      · exact ⟨_, _, (hcalls _ _).mpr rfl, hdo, by rw [hdo]; rfl, by rw [hdo]; rfl⟩

end HttpRoute
