import BookFilerHttp.HttpConnectionProofs

/-! # Servers: `ServerImpl::route`

    A route is registered from a map of options: a method, a path, a priority
    and a function, each with a default but the function.  `routeAll_register`
    relates a sequence of such calls to the histories of the router.

    The headline is `routes_alive_iff`: the exact condition under which every
    request that some registration matches is served by a matching
    registration.  The guard of the connection and the order of lookup decide
    it: POST never passes the guard, and HEAD is looked up as GET. -/

namespace HttpServer

open ByteString BoostUrl HttpRequest HttpResponse HttpRoute HttpConnection Runs

variable {W : Type}

/-! ## Registration from options -/

/-- The option values of `route`; a double is kept as its bits. -/
inductive RouteVariant (W : Type) where
  | int (n : Int)
  | double (bits : UInt64)
  | string (s : Bytes)
  | function (f : RouteFunction W)

/-- Route options, in key order. -/
abbrev RouteOptions (W : Type) := OrdMap.Map Bytes (RouteVariant W)

/-- The variables that the loop over the options fills. -/
structure RouteArgs (W : Type) where
  routeFunction : Option (RouteFunction W)
  method : Bytes
  path : Bytes
  priority : Int

namespace RouteArgs

/-- GET of any path, priority 10, no function. -/
def default : RouteArgs W := ⟨none, lit "GET", lit "*", 10⟩

/-- One option; a function counts under any key. -/
def read (a : RouteArgs W) (e : Bytes × RouteVariant W) : RouteArgs W :=
  match e.2 with
  | .int n => if e.1 = lit "priority" then { a with priority := n } else a
  | .double _ => a
  | .string s =>
      if e.1 = lit "method" then { a with method := s }
      else if e.1 = lit "path" then { a with path := s }
      else a
  | .function f => { a with routeFunction := some f }

def ofMap (m : RouteOptions W) : RouteArgs W := m.entries.foldl read default

end RouteArgs

/-- `ServerImpl::route`.  The function is dereferenced in the three branches
    that register: `none` when it is null there.  Any other method is accepted
    and registers nothing. -/
def route (r : RouteImpl W) (m : RouteOptions W) : Option (Int × RouteImpl W) :=
  let a := RouteArgs.ofMap m
  if a.method = lit "GET" then
    a.routeFunction.map (fun f => (0, (r.getAdd a.path a.priority f).2))
  else if a.method = lit "POST" then
    a.routeFunction.map (fun f => (0, (r.postAdd a.path a.priority f).2))
  else if a.method = lit "*" then
    a.routeFunction.map (fun f => (0, (r.allAdd a.path a.priority f).2))
  else some (0, r)

/-- A sequence of calls of `route`. -/
def routeAll : List (RouteOptions W) → RouteImpl W → Option (RouteImpl W)
  | [], r => some r
  | m :: ms, r =>
      match route r m with
      | none => none
      | some (_, r') => routeAll ms r'

/-- The map a method is registered in. -/
def tableOf (method : Bytes) : Option Table :=
  if method = lit "GET" then some .get
  else if method = lit "POST" then some .post
  else if method = lit "*" then some .all
  else none

/-- What a call of `route` registers. -/
def registrationOf (m : RouteOptions W) : Option (Registration W) :=
  let a := RouteArgs.ofMap m
  match tableOf a.method, a.routeFunction with
  | some table, some f => some ⟨table, a.path, a.priority, f⟩
  | _, _ => none

/-- A call that returns has applied its registration, if it has one. -/
theorem route_apply {r r' : RouteImpl W} {rc : Int} {m : RouteOptions W}
    (h : route r m = some (rc, r')) :
    rc = 0 ∧ r' = match registrationOf m with
      | some g => g.apply r
      | none => r := by
  have hderef : ∀ {o : Option (RouteFunction W)} {F : RouteFunction W → RouteImpl W},
      o.map (fun f => ((0 : Int), F f)) = some (rc, r') →
      ∃ f, o = some f ∧ rc = 0 ∧ r' = F f := by
    intro o F ho
    obtain ⟨f, hf, heq⟩ := Option.map_eq_some_iff.mp ho
    obtain ⟨h₁, h₂⟩ := Prod.mk.inj heq
    exact ⟨f, hf, h₁.symm, h₂.symm⟩
  rw [route] at h
  rw [registrationOf, tableOf]
  by_cases hget : (RouteArgs.ofMap m).method = lit "GET"
  · rw [if_pos hget] at h ⊢
    obtain ⟨f, hf, hrc, hr⟩ := hderef h
    rw [hf]
    exact ⟨hrc, hr⟩
  · rw [if_neg hget] at h ⊢
    by_cases hpost : (RouteArgs.ofMap m).method = lit "POST"
    · rw [if_pos hpost] at h ⊢
      obtain ⟨f, hf, hrc, hr⟩ := hderef h
      rw [hf]
      exact ⟨hrc, hr⟩
    · rw [if_neg hpost] at h ⊢
      by_cases hall : (RouteArgs.ofMap m).method = lit "*"
      · rw [if_pos hall] at h ⊢
        obtain ⟨f, hf, hrc, hr⟩ := hderef h
        rw [hf]
        exact ⟨hrc, hr⟩
      · rw [if_neg hall] at h ⊢
        obtain ⟨h₁, h₂⟩ := Prod.mk.inj (Option.some.inj h)
        exact ⟨h₁.symm, h₂.symm⟩

theorem routeAll_apply (ms : List (RouteOptions W)) :
    ∀ {r r' : RouteImpl W}, routeAll ms r = some r' →
      r' = (ms.filterMap registrationOf).foldl Registration.apply r := by
  induction ms with
  | nil => exact fun h => (Option.some.inj h).symm
  | cons m rest ih =>
      intro r r' h
      rw [routeAll] at h
      split at h
      · cases h
      · next rc r₁ hroute =>
          obtain ⟨-, hr₁⟩ := route_apply hroute
          rw [ih h, hr₁, List.filterMap_cons]
          cases registrationOf m with
          | none => rfl
          | some g => rfl

/-- **REGISTRATION**: the routes after a sequence of calls are those of the
    history of registrations. -/
theorem routeAll_register {ms : List (RouteOptions W)} {routes : RouteImpl W}
    (h : routeAll ms .fresh = some routes) :
    routes = register (ms.filterMap registrationOf) :=
  routeAll_apply ms h

/-! ## All or nothing -/

/-- A string option, the default when there is none of that type. -/
def givenString (m : RouteOptions W) (key default : Bytes) : Bytes :=
  match OrdMap.find key m with
  | some (.string s) => s
  | _ => default

/-- An integer option. -/
def givenInt (m : RouteOptions W) (key : Bytes) (default : Int) : Int :=
  match OrdMap.find key m with
  | some (.int n) => n
  | _ => default

/-- The handlers at a place. -/
def slotsAt (r : RouteImpl W) (key : Key) : List (Slot W) :=
  (r.find key).elim [] Signal.slots

/-- The tables of `r'` are those of `r` and one handler more, at the place `key`. -/
def OneMore (r r' : RouteImpl W) (key : Key) (slot : Slot W) : Prop :=
  (∃ before after, slotsAt r key = before ++ after
      ∧ slotsAt r' key = before ++ slot :: after)
    ∧ ∀ key' ≠ key, r'.find key' = r.find key'

/-- The call registers one handler of the map where the map says, or returns a
    negative number and leaves the tables as they are. -/
def AllOrNothing (r : RouteImpl W) (m : RouteOptions W) : Prop :=
  (∃ r' table k f, route r m = some (0, r')
      ∧ tableOf (givenString m (lit "method") (lit "GET")) = some table
      ∧ OrdMap.find k m = some (.function f)
      ∧ OneMore r r' (table, givenString m (lit "path") (lit "*"))
          ⟨givenInt m (lit "priority") 10, f⟩)
    ∨ ∃ rc, route r m = some (rc, r) ∧ rc < 0

/-- One option as each variable of the loop sees it. -/
theorem read_fields (a : RouteArgs W) (key : Bytes) (v : RouteVariant W) :
    (a.read (key, v)).method = (match v with
        | .string s => if key = lit "method" then s else a.method
        | _ => a.method)
      ∧ (a.read (key, v)).path = (match v with
        | .string s => if key = lit "path" then s else a.path
        | _ => a.path)
      ∧ (a.read (key, v)).priority = (match v with
        | .int n => if key = lit "priority" then n else a.priority
        | _ => a.priority)
      ∧ (a.read (key, v)).routeFunction = (match v with
        | .function f => some f
        | _ => a.routeFunction) := by
  have hdistinct : lit "method" ≠ lit "path" := by decide
  cases v with
  | int n =>
      by_cases h : key = lit "priority"
      · simp only [RouteArgs.read, if_pos h, and_self]
      · simp only [RouteArgs.read, if_neg h, and_self]
  | double b => exact ⟨rfl, rfl, rfl, rfl⟩
  | string s =>
      by_cases hm : key = lit "method"
      · have hp : ¬ key = lit "path" := fun hp => hdistinct (hm.symm.trans hp)
        simp only [RouteArgs.read, if_pos hm, if_neg hp, and_self]
      · by_cases hp : key = lit "path"
        · simp only [RouteArgs.read, if_neg hm, if_pos hp, and_self]
        · simp only [RouteArgs.read, if_neg hm, if_neg hp, and_self]
  | function f => exact ⟨rfl, rfl, rfl, rfl⟩

/-- A variable that the loop sets from the strings of one key. -/
theorem ofMap_string (f : RouteArgs W → Bytes) (key : Bytes)
    (hread : ∀ (a : RouteArgs W) key' v, f (a.read (key', v)) = match v with
      | .string s => if key' = key then s else f a
      | _ => f a) (m : RouteOptions W) :
    f (RouteArgs.ofMap m) = givenString m key (f RouteArgs.default) := by
  rw [RouteArgs.ofMap, OrdMap.foldl_field f key
    (fun v old => match v with | .string s => s | _ => old) ?_ ?_ _ _ m.sorted,
    givenString, OrdMap.find]
  · cases OrdMap.findL key m.entries with
    | none => rfl
    | some v => cases v <;> rfl
  · intro a v
    rw [hread]
    cases v with
    | string s => exact if_pos rfl
    | int | double | function => rfl
  · rintro a ⟨key', v⟩ hne
    rw [hread]
    cases v with
    | string s => exact if_neg hne
    | int | double | function => rfl

/-- What the loop collects: each of the three options from its own key. -/
theorem ofMap_options (m : RouteOptions W) :
    (RouteArgs.ofMap m).method = givenString m (lit "method") (lit "GET")
      ∧ (RouteArgs.ofMap m).path = givenString m (lit "path") (lit "*")
      ∧ (RouteArgs.ofMap m).priority = givenInt m (lit "priority") 10 := by
  refine ⟨?_, ?_, ?_⟩
  · exact ofMap_string RouteArgs.method (lit "method") (fun a key v => (read_fields a key v).1) m
  · exact ofMap_string RouteArgs.path (lit "path") (fun a key v => (read_fields a key v).2.1) m
  · rw [RouteArgs.ofMap, OrdMap.foldl_field RouteArgs.priority (lit "priority")
      (fun v old => match v with | .int n => n | _ => old) ?_ ?_ _ _ m.sorted,
      givenInt, OrdMap.find]
    · cases OrdMap.findL (lit "priority") m.entries with
      | none => rfl
      | some v => cases v <;> rfl
    · intro a v
      rw [(read_fields a (lit "priority") v).2.2.1]
      cases v with
      | int n => exact if_pos rfl
      | string | double | function => rfl
    · rintro a ⟨key, v⟩ hne
      rw [(read_fields a key v).2.2.1]
      cases v with
      | int n => exact if_neg hne
      | string | double | function => rfl

/-- The loop keeps the function it starts with, or ends with one of the entries. -/
theorem foldl_function (l : List (Bytes × RouteVariant W)) :
    ∀ a : RouteArgs W,
      ((l.foldl RouteArgs.read a).routeFunction = a.routeFunction
          ∧ ∀ e ∈ l, ∀ f, e.2 ≠ .function f)
        ∨ ∃ e ∈ l, ∃ f, e.2 = .function f
            ∧ (l.foldl RouteArgs.read a).routeFunction = some f := by
  induction l with
  | nil => exact fun a => Or.inl ⟨rfl, fun e he => by cases he⟩
  | cons e rest ih =>
      intro a
      obtain ⟨key, v⟩ := e
      rw [List.foldl_cons]
      rcases ih (a.read (key, v)) with ⟨hkeep, hno⟩ | ⟨e', he', f, hf, hlast⟩
      · rw [(read_fields a key v).2.2.2] at hkeep
        cases v with
        | function f => exact Or.inr ⟨_, List.mem_cons_self .., f, rfl, hkeep⟩
        | int | double | string =>
            refine Or.inl ⟨hkeep, ?_⟩
            intro e he f hf
            rcases List.mem_cons.mp he with rfl | hmem
            · cases hf
            · exact hno e hmem f hf
      · exact Or.inr ⟨e', List.mem_cons_of_mem _ he', f, hf, hlast⟩

/-- The loop ends with a function of the map, or the map has none. -/
theorem ofMap_function (m : RouteOptions W) :
    ((RouteArgs.ofMap m).routeFunction = none ∧ ∀ k f, OrdMap.find k m ≠ some (.function f))
      ∨ ∃ k f, OrdMap.find k m = some (.function f)
          ∧ (RouteArgs.ofMap m).routeFunction = some f := by
  rcases foldl_function m.entries RouteArgs.default with ⟨hkeep, hno⟩ | ⟨e, he, f, hf, hlast⟩
  · exact Or.inl ⟨hkeep, fun k f hfind => hno _ (OrdMap.mem_of_findL hfind) f rfl⟩
  · obtain ⟨key, v⟩ := e
    have hv : v = .function f := hf
    subst hv
    exact Or.inr ⟨key, f, OrdMap.findL_of_mem m.sorted he, hlast⟩

/-- **SPECIFICATION** of one call by the table of its method and its function. -/
theorem route_eq (r : RouteImpl W) (m : RouteOptions W) :
    route r m = match tableOf (RouteArgs.ofMap m).method with
      | none => some (0, r)
      | some table => (RouteArgs.ofMap m).routeFunction.map fun f =>
          (0, Registration.apply r
            ⟨table, (RouteArgs.ofMap m).path, (RouteArgs.ofMap m).priority, f⟩) := by
  rw [route, tableOf]
  by_cases hget : (RouteArgs.ofMap m).method = lit "GET"
  · rw [if_pos hget, if_pos hget]
    rfl
  · rw [if_neg hget, if_neg hget]
    by_cases hpost : (RouteArgs.ofMap m).method = lit "POST"
    · rw [if_pos hpost, if_pos hpost]
      rfl
    · rw [if_neg hpost, if_neg hpost]
      by_cases hall : (RouteArgs.ofMap m).method = lit "*"
      · rw [if_pos hall, if_pos hall]
        rfl
      · rw [if_neg hall, if_neg hall]

/-- A registration adds its slot at its place. -/
theorem oneMore_apply (r : RouteImpl W) (g : Registration W) :
    OneMore r (g.apply r) g.key g.slot := by
  constructor
  · have hold : (((r.find g.key).getD Signal.empty).slots) = slotsAt r g.key := by
      rw [slotsAt]
      cases r.find g.key with
      | none => rfl
      | some sig => rfl
    obtain ⟨before, after, hsplit, hinsert⟩ :=
      StableSort.insertLast_split Slot.group g.slot (slotsAt r g.key)
    refine ⟨before, after, hsplit, ?_⟩
    rw [slotsAt, find_apply, if_pos rfl]
    show StableSort.insertLast Slot.group g.slot ((r.find g.key).getD Signal.empty).slots = _
    rw [hold, hinsert]
  · intro key' hne
    rw [find_apply, if_neg hne]

/-- The methods that have a table. -/
theorem exists_tableOf (method : Bytes) :
    (∃ table, tableOf method = some table)
      ↔ method ∈ [lit "GET", lit "POST", lit "*"] := by
  rw [tableOf, List.mem_cons, List.mem_cons, List.mem_singleton]
  by_cases hget : method = lit "GET"
  · rw [if_pos hget]
    exact ⟨fun _ => Or.inl hget, fun _ => ⟨_, rfl⟩⟩
  · by_cases hpost : method = lit "POST"
    · rw [if_neg hget, if_pos hpost]
      exact ⟨fun _ => Or.inr (Or.inl hpost), fun _ => ⟨_, rfl⟩⟩
    · by_cases hall : method = lit "*"
      · rw [if_neg hget, if_neg hpost, if_pos hall]
        exact ⟨fun _ => Or.inr (Or.inr hall), fun _ => ⟨_, rfl⟩⟩
      · rw [if_neg hget, if_neg hpost, if_neg hall]
        constructor
        · rintro ⟨table, ht⟩
          cases ht
        · rintro (h | h | h)
          · exact (hget h).elim
          · exact (hpost h).elim
          · exact (hall h).elim

/-- **REGISTRATION**: a call of `route` is all or nothing exactly when the map has a
    function and its method is GET, POST or any. -/
theorem route_all_or_nothing_iff (r : RouteImpl W) (m : RouteOptions W) :
    AllOrNothing r m
      ↔ (∃ k f, OrdMap.find k m = some (.function f))
        ∧ givenString m (lit "method") (lit "GET")
          ∈ [lit "GET", lit "POST", lit "*"] := by
  obtain ⟨hmethod, hpath, hpriority⟩ := ofMap_options m
  rw [← exists_tableOf]
  constructor
  · rintro (⟨r', table, k, f, -, ht, hf, -⟩ | ⟨rc, hroute, hneg⟩)
    · exact ⟨⟨k, f, hf⟩, table, ht⟩
    · -- no call returns a negative number
      obtain ⟨hrc, -⟩ := route_apply hroute
      omega
  · rintro ⟨⟨k, f, hf⟩, table, ht⟩
    rcases ofMap_function m with ⟨-, hno⟩ | ⟨k', f', hf', hlast⟩
    · exact (hno k f hf).elim
    · refine Or.inl ⟨Registration.apply r ⟨table, (RouteArgs.ofMap m).path,
        (RouteArgs.ofMap m).priority, f'⟩, table, k', f', ?_, ht, hf', ?_⟩
      · rw [route_eq, hmethod, ht]
        show (RouteArgs.ofMap m).routeFunction.map _ = _
        rw [hlast]
        rfl
      · rw [hpath, hpriority]
        exact oneMore_apply r ⟨table, _, _, f'⟩

/-- A PUT route. -/
def putOptions : RouteOptions Unit :=
  OrdMap.insertAll [(lit "method", .string (lit "PUT")),
    (lit "function", .function (fun x => (lit "served", x)))] OrdMap.empty

/-- No options at all dereference the absent handler, and a PUT route is reported
    as a success and stored nowhere. -/
theorem route_partial :
    route (.fresh : RouteImpl Unit) OrdMap.empty = none
      ∧ route .fresh putOptions = some (0, .fresh)
      ∧ ¬ AllOrNothing (.fresh : RouteImpl Unit) OrdMap.empty
      ∧ ¬ AllOrNothing .fresh putOptions := by
  have hderef : route (.fresh : RouteImpl Unit) OrdMap.empty = none := by rfl
  have hput : route .fresh putOptions = some (0, .fresh) := by rfl
  refine ⟨hderef, hput, ?_, ?_⟩
  · rintro (⟨r', table, k, f, hroute, -⟩ | ⟨rc, hroute, -⟩)
    · cases hderef.symm.trans hroute
    · cases hderef.symm.trans hroute
  · rintro (⟨r', table, k, f, -, ht, -⟩ | ⟨rc, hroute, hneg⟩)
    · cases ht
    · have hrc := (Prod.mk.inj (Option.some.inj (hput.symm.trans hroute))).1
      omega

/-! ## Which registrations match a request -/

/-- GET and POST match their own method, the map of `*` matches any. -/
def tableMatches (table : Table) (method : Verb) : Bool :=
  match table with
  | .get => method == .get
  | .post => method == .post
  | .all => true

/-- The registration is for the method of the request, or for any, and for its
    path, or for any. -/
def isMatch (g : Registration W) (req : RequestBeast) : Bool :=
  tableMatches g.table req.method
    && (g.path == targetPath req.target || g.path == lit "*")

/-- The actions after a request begin with the invocation of a matching
    registration's signal and the write of its result. -/
def ServedBy (regs : List (Registration W)) (req : RequestBeast) (world : W)
    (post : List (Action W)) : Prop :=
  ∃ g ∈ regs, isMatch g req = true ∧ ∃ (x : Exchange W) (rest : List (Action W)),
    setup req world = .ok x
    ∧ post = .invoked g.key
        :: .asyncWrite ((runSlots (byPriority (registered regs g.key)) x).2.respond
            (runSlots (byPriority (registered regs g.key)) x).1).resBeast
        :: rest

/-- No accepted route is dead. -/
def RoutesAlive (regs : List (Registration W)) (t : List (Action W)) : Prop :=
  ∀ pre req world post, t = pre ++ .got req world :: post →
    legalTarget req.target = true → (∃ g ∈ regs, isMatch g req = true) →
    ServedBy regs req world post

/-- A request that reaches a matching registration: the URL library takes its
    path, and its method is GET, or HEAD while nothing is registered for GET of
    the path or of `*`. -/
def Reaches (regs : List (Registration W)) (req : RequestBeast) : Prop :=
  pathAbsolute (targetPath req.target) = true
    ∧ (req.method = .get
      ∨ req.method = .head
        ∧ registered regs (.get, targetPath req.target) = []
        ∧ registered regs (.get, lit "*") = [])

theorem registered_ne_nil {regs : List (Registration W)} {key : Key} :
    (!(registered regs key).isEmpty) = true ↔ ∃ g ∈ regs, g.key = key := by
  rw [Bool.not_eq_true', ← Bool.not_eq_true, List.isEmpty_iff, registered,
    List.map_eq_nil_iff, List.filter_eq_nil_iff]
  push Not
  simp only [beq_iff_eq]

/-- The places looked at, against the registrations that match GET. -/
theorem mem_places_iff {g : Registration W} {req : RequestBeast} :
    g.key ∈ RouteImpl.places (targetPath req.target) .get
      ↔ g.table ≠ .post ∧ (g.path = targetPath req.target ∨ g.path = lit "*") := by
  obtain ⟨table, path, priority, function⟩ := g
  cases table <;>
    simp [RouteImpl.places, Registration.key]

theorem acceptsMethod_iff (req : RequestBeast) :
    acceptsMethod req = true ↔ req.method = .get ∨ req.method = .head := by
  rw [acceptsMethod]
  cases req.method <;> decide

/-- A signal of the map of `*` is found only when GET has none. -/
theorem find_places_all {regs : List (Registration W)} {path : Bytes} {key : Key}
    (h : (RouteImpl.places path .get).find?
      (fun key => !(registered regs key).isEmpty) = some key)
    (hall : key.1 = .all) :
    registered regs (.get, path) = [] ∧ registered regs (.get, lit "*") = [] := by
  rw [RouteImpl.places, List.find?_cons] at h
  split at h
  · rw [← Option.some.inj h] at hall
    cases hall
  · next hpath =>
      rw [List.find?_cons] at h
      split at h
      · rw [← Option.some.inj h] at hall
        cases hall
      · next hstar =>
          rw [Bool.not_eq_false', List.isEmpty_iff] at hpath hstar
          exact ⟨hpath, hstar⟩

/-- The answer to a servable request, in terms of the registrations. -/
theorem answer_register (regs : List (Registration W)) {req : RequestBeast}
    (world : W) (h : Servable req) :
    ∃ x : Exchange W, setup req world = .ok x
      ∧ match (RouteImpl.places (targetPath req.target) .get).find?
            (fun key => !(registered regs key).isEmpty) with
        | none => ∃ res, answer (register regs) req world = .write none res
        | some key => answer (register regs) req world = .write (some key)
            ((runSlots (byPriority (registered regs key)) x).2.respond
              (runSlots (byPriority (registered regs key)) x).1).resBeast := by
  obtain ⟨x, hx, -, hans⟩ := answer_servable (register regs) world h
  refine ⟨x, hx, ?_⟩
  have hfound := findSignal_register regs (targetPath req.target) .get
  rcases hans with ⟨hf, hans⟩ | ⟨key, sig, hf, hans⟩
  · rw [hf] at hfound
    rw [Option.map_eq_none_iff.mp hfound.symm]
    exact ⟨_, hans⟩
  · rw [hf] at hfound
    obtain ⟨key', hkey, hpair⟩ := Option.map_eq_some_iff.mp hfound.symm
    obtain ⟨rfl, hslots⟩ := Prod.mk.inj hpair
    rw [hkey]
    show answer (register regs) req world = _
    rw [hans, call_eq_runSlots, ← hslots]

/-- A request that reaches a matching registration is served by one. -/
theorem servedBy_of_reaches {regs : List (Registration W)} {req : RequestBeast}
    {world : W} {t₂ : List (Action W)} (hlegal : legalTarget req.target = true)
    {g : Registration W} (hg : g ∈ regs) (hmatch : isMatch g req = true)
    (hreach : Reaches regs req) :
    ServedBy regs req world ((answer (register regs) req world).actions ++ t₂) := by
  obtain ⟨hpath, hmethod⟩ := hreach
  have haccepts : req.method = .get ∨ req.method = .head :=
    hmethod.imp_right (fun h => h.1)
  rw [isMatch, Bool.and_eq_true, Bool.or_eq_true, beq_iff_eq, beq_iff_eq] at hmatch
  have htable : g.table ≠ .post := by
    intro hpost
    rw [hpost, tableMatches, beq_iff_eq] at hmatch
    rcases haccepts with h | h <;> cases h.symm.trans hmatch.1
  obtain ⟨x, hx, hans⟩ := answer_register regs world
    ⟨(acceptsMethod_iff req).mpr haccepts, hlegal, hpath⟩
  cases hkey : (RouteImpl.places (targetPath req.target) .get).find?
      (fun key => !(registered regs key).isEmpty) with
  | none =>
      have hempty := List.find?_eq_none.mp hkey g.key
        (mem_places_iff.mpr ⟨htable, hmatch.2⟩)
      exact absurd (registered_ne_nil.mpr ⟨g, hg, rfl⟩) hempty
  | some key =>
      rw [hkey] at hans
      have hsome : (!(registered regs key).isEmpty) = true :=
        List.find?_some (p := fun key => !(registered regs key).isEmpty) hkey
      obtain ⟨g', hg', rfl⟩ := registered_ne_nil.mp hsome
      obtain ⟨htable', hpath'⟩ := mem_places_iff.mp (List.mem_of_find?_eq_some hkey)
      refine ⟨g', hg', ?_, x, t₂, hx, ?_⟩
      · rw [isMatch, Bool.and_eq_true, Bool.or_eq_true, beq_iff_eq, beq_iff_eq]
        refine ⟨?_, hpath'⟩
        rcases hmethod with hget | ⟨hhead, hp, hstar⟩
        · rw [hget]
          cases htab : g'.table with
          | post => exact absurd htab htable'
          | get => rfl
          | all => rfl
        · -- nothing is registered for GET, so the signal is one of the `*` map
          have hne : ¬ registered regs g'.key = [] := by
            intro hnil
            have h := registered_ne_nil.mpr ⟨g', hg', rfl⟩
            rw [hnil] at h
            cases h
          cases htab : g'.table with
          | post => exact absurd htab htable'
          | all => rfl
          | get =>
              exfalso
              rcases hpath' with hpath' | hpath'
              · exact hne (by rw [Registration.key, htab, hpath', hp])
              · exact hne (by rw [Registration.key, htab, hpath', hstar])
      · rw [show answer (register regs) req world = _ from hans]
        rfl

/-- A request that is served by a matching registration reaches one. -/
theorem reaches_of_servedBy {regs : List (Registration W)} {req : RequestBeast}
    {world : W} {t₂ : List (Action W)}
    (h : ServedBy regs req world
      ((answer (register regs) req world).actions ++ t₂)) : Reaches regs req := by
  obtain ⟨g, -, hmatch, x, rest, -, hpost⟩ := h
  have hserv : Servable req := by
    by_contra hne
    rcases answer_not_servable (register regs) world hne with ⟨res, hans⟩ | hans
    all_goals
      rw [hans] at hpost
      cases hpost
  obtain ⟨x', -, hans⟩ := answer_register regs world hserv
  obtain ⟨hmethod, -, hpath⟩ := hserv
  refine ⟨hpath, ?_⟩
  -- the place that was found is the place of the registration that served
  cases hkey : (RouteImpl.places (targetPath req.target) .get).find?
      (fun key => !(registered regs key).isEmpty) with
  | none =>
      rw [hkey] at hans
      obtain ⟨res, hans⟩ := hans
      rw [hans] at hpost
      cases hpost
  | some key =>
      rw [hkey] at hans
      rw [show answer (register regs) req world = _ from hans] at hpost
      have hgkey : key = g.key := Action.invoked.inj (List.cons.inj hpost).1
      rcases (acceptsMethod_iff req).mp hmethod with hget | hhead
      · exact Or.inl hget
      · refine Or.inr ⟨hhead, find_places_all hkey ?_⟩
        -- only a registration of the `*` map matches HEAD
        rw [isMatch, Bool.and_eq_true, hhead] at hmatch
        rw [hgkey, Registration.key]
        cases htab : g.table with
        | all => rfl
        | get => rw [htab] at hmatch; cases hmatch.1
        | post => rw [htab] at hmatch; cases hmatch.1

/-- **NO ROUTE IS DEAD, EXACTLY WHEN**: in a run over the routes of a sequence of
    calls, every request with a legal target that some registration matches is
    served by a matching registration exactly when all these requests reach
    one. -/
theorem routes_alive_iff {ms : List (RouteOptions W)} {routes : RouteImpl W}
    (hroutes : routeAll ms .fresh = some routes) {inputs : List (Input W)}
    {s : ConnState W} {t : List (Action W)}
    (h : run (step routes) .init inputs = some (s, t)) :
    RoutesAlive (ms.filterMap registrationOf) t
      ↔ ∀ req world, Input.request req world ∈ inputs → legalTarget req.target = true →
          (∃ g ∈ ms.filterMap registrationOf, isMatch g req = true) →
          Reaches (ms.filterMap registrationOf) req := by
  rw [routeAll_register hroutes] at h
  constructor
  · intro halive req world hread hlegal hmatch
    obtain ⟨pre, post, rfl⟩ := List.append_of_mem ((got_mem_iff inputs h).mpr hread)
    have hserved := halive pre req world post rfl hlegal hmatch
    obtain ⟨s₂, is₂, t₂, -, -, rfl⟩ := got_in_run h
    exact reaches_of_servedBy hserved
  · intro hreach pre req world post ht hlegal hmatch
    subst ht
    have hread : Input.request req world ∈ inputs :=
      (got_mem_iff inputs h).mp (List.mem_append_right _ (List.mem_cons_self ..))
    have hr := hreach req world hread hlegal hmatch
    obtain ⟨s₂, is₂, t₂, -, -, rfl⟩ := got_in_run h
    obtain ⟨g, hg, hgm⟩ := hmatch
    exact servedBy_of_reaches hlegal hg hgm hr

/-! ## A live and a dead route -/

/-- The options of a route at `/`. -/
def routeOptions (method : Bytes) : RouteOptions Unit :=
  OrdMap.insertAll [(lit "method", .string method), (lit "path", .string (lit "/")),
    (lit "function", .function (fun x => (lit "served", x)))] OrdMap.empty

/-- The routes after registering it. -/
def routesAt (method : Bytes) : RouteImpl Unit :=
  register ([routeOptions method].filterMap registrationOf)

/-- A request for `/`. -/
def rootRequest (method : Bytes) : RequestBeast := ⟨method, lit "/", 11, true, [], []⟩

theorem routes_alive_get :
    RoutesAlive ([routeOptions (lit "GET")].filterMap registrationOf)
        ([.asyncRead, .got (rootRequest (lit "GET")) (), .invoked (.get, lit "/"),
          .asyncWrite (fillResponse (rootRequest (lit "GET")) .fresh 200 (lit "served"))]
          : List (Action Unit))
      ↔ ∀ req world, Input.request req world
            ∈ ([.done, .request (rootRequest (lit "GET")) ()] : List (Input Unit)) →
          legalTarget req.target = true →
          (∃ g ∈ [routeOptions (lit "GET")].filterMap registrationOf,
            isMatch g req = true) →
          Reaches ([routeOptions (lit "GET")].filterMap registrationOf) req :=
  @routes_alive_iff Unit [routeOptions (lit "GET")] (routesAt (lit "GET")) rfl
    [.done, .request (rootRequest (lit "GET")) ()]
    ⟨true, .writing (rootRequest (lit "GET")) ()
      (fillResponse (rootRequest (lit "GET")) .fresh 200 (lit "served"))⟩ _
    (by decide +kernel)

/-- A POST request for a registered POST route is refused, and the run returns
    without a write. -/
theorem routes_not_alive :
    ¬ ∀ (ms : List (RouteOptions Unit)) (routes : RouteImpl Unit)
        (inputs : List (Input Unit)) (s : ConnState Unit) (t : List (Action Unit)),
        routeAll ms .fresh = some routes →
        run (step routes) .init inputs = some (s, t) →
        RoutesAlive (ms.filterMap registrationOf) t := by
  intro h
  have hmatch : ([routeOptions (lit "POST")].filterMap registrationOf).any
      (fun g => isMatch g (rootRequest (lit "POST"))) = true := by
    decide +kernel
  obtain ⟨g, hg, hgm⟩ := List.any_eq_true.mp hmatch
  have halive := h [routeOptions (lit "POST")] (routesAt (lit "POST"))
    [.done, .request (rootRequest (lit "POST")) ()] _ _ rfl rfl
  obtain ⟨g', -, -, x, rest, -, hpost⟩ :=
    halive [.asyncRead] _ _ [.returned 0] rfl (by decide) ⟨g, hg, hgm⟩
  cases hpost

end HttpServer
