import BookFilerHttp.SettingsManagerProofs

/-! # Loading the module

    The module manager looks for shared libraries under a directory, imports every
    interface it knows from each, and signals what it has loaded.  The loader of this
    module connects to the signals: a loaded module is initialized and asked for its
    settings, and as soon as as many modules are loaded as there are interfaces the
    settings file is deployed and the caller is called back.

    `loadModules_signals` gives the signals of the manager for any files and interfaces,
    `loadModule_correct` the outcome of the loader. -/

namespace ModuleLoader

open ByteString JsonValue SettingsManager

variable {M : Type}

/-! ## The module manager -/

/-- An entry of the directory; the import of an interface throws for most files. -/
structure File (M : Type) where
  path : Bytes
  isRegularFile : Bool
  importModule : Bytes → Option M

/-- `find` of a string finds something. -/
def contains (s needle : Bytes) : Bool := s.tails.any fun t => needle.isPrefixOf t

/-- The files that are tried; the parts of names that are looked for may stand anywhere in
    the path. -/
def isLibrary (f : File M) : Bool :=
  f.isRegularFile && (contains f.path (lit ".dll") || contains f.path (lit ".dylib")
    || contains f.path (lit ".so"))

/-- The signals, with what they hand over. -/
inductive Event (M : Type) where
  | loaded (moduleName : Bytes) (module : M)
  | loadedAll

/-- `ModuleManager`: the interfaces in the order in which the map is walked, with the
    modules of each, and the signals so far. -/
structure Manager (M : Type) where
  interfaceMap : List (Bytes × List M)
  modulesLoadedNum : UInt32
  events : List (Event M)

/-- `push_back` on the modules of an interface. -/
def pushModule (name : Bytes) (module : M) (map : List (Bytes × List M)) :
    List (Bytes × List M) :=
  map.map fun i => if i.1 = name then (i.1, i.2 ++ [module]) else i

/-- `modulePtrs.front()`. -/
def front (name : Bytes) (map : List (Bytes × List M)) : Option M :=
  (map.lookup name).bind List.head?

/-- One interface of one file: `addPath`, `callLoadedSignal`, and the count. -/
def Manager.loadInterface (f : File M) (m : Manager M) (name : Bytes) : Manager M :=
  match f.importModule name with
  | none => m
  | some module =>
      let interfaceMap := pushModule name module m.interfaceMap
      let modulesLoadedNum := m.modulesLoadedNum + 1
      ⟨interfaceMap, modulesLoadedNum,
        m.events ++ ((front name interfaceMap).map (Event.loaded name)).toList ++
          if modulesLoadedNum.toNat = interfaceMap.length then [.loadedAll] else []⟩

/-- `addModule` for each of these names, which are different. -/
def Manager.new (names : List Bytes) : Manager M := ⟨names.map fun n => (n, []), 0, []⟩

/-- `loadModules`. -/
def loadModules (names : List Bytes) (files : List (File M)) : Manager M :=
  files.foldl
    (fun m f =>
      if isLibrary f then (m.interfaceMap.map Prod.fst).foldl (Manager.loadInterface f) m
      else m)
    (.new names)

/-! ## Its signals -/

/-- The imports that succeed, in their order. -/
def loads (names : List Bytes) (files : List (File M)) : List (Bytes × M) :=
  (files.filter isLibrary).flatMap fun f =>
    names.filterMap fun n => (f.importModule n).map fun module => (n, module)

/-- The signals of a success, given all of them and how many there were before: the
    interface hands over the first module it ever had. -/
def signals (size : Nat) (all : List (Bytes × M)) (l : (Bytes × M) × Nat) : List (Event M) :=
  ((all.lookup l.1.1).map (Event.loaded l.1.1)).toList ++
    if (l.2 + 1) % 2 ^ 32 = size then [.loadedAll] else []

def eventsOf (size : Nat) (all : List (Bytes × M)) : List (Event M) :=
  all.zipIdx.flatMap (signals size all)

/-- What a manager holds after these successes. -/
structure Holds (names : List Bytes) (m : Manager M) (all : List (Bytes × M)) : Prop where
  keys : m.interfaceMap.map Prod.fst = names
  fronts : ∀ name, front name m.interfaceMap = all.lookup name
  count : m.modulesLoadedNum = UInt32.ofNat all.length
  events : m.events = eventsOf names.length all
  known : ∀ l ∈ all, l.1 ∈ names

theorem lookup_of_mem {all : List (Bytes × M)} {l : Bytes × M} (h : l ∈ all) :
    (all.lookup l.1).isSome = true := by
  induction all with
  | nil => cases h
  | cons e rest ih =>
      rw [List.lookup_cons]
      by_cases he : l.1 = e.1
      · rw [beq_iff_eq.mpr he]
        rfl
      · rw [beq_eq_false_iff_ne.mpr he]
        rcases List.mem_cons.mp h with rfl | h
        · exact absurd rfl he
        · exact ih h

/-- A further success adds its own signals and changes none. -/
theorem eventsOf_append (size : Nat) (all : List (Bytes × M)) (l : Bytes × M) :
    eventsOf size (all ++ [l]) = eventsOf size all ++ signals size (all ++ [l]) (l, all.length) := by
  rw [eventsOf, List.zipIdx_append, List.flatMap_append, eventsOf]
  refine congrArg₂ (· ++ ·) (List.flatMap_congr fun e he => ?_) ?_
  · have hmem : e.1 ∈ all := List.fst_mem_of_mem_zipIdx he
    rw [signals, signals, List.lookup_append, Option.or_of_isSome (lookup_of_mem hmem)]
  · rw [Nat.zero_add]
    exact List.append_nil _

theorem new_holds (names : List Bytes) : Holds names (Manager.new (M := M) names) [] := by
  refine ⟨?_, fun name => ?_, rfl, rfl, fun l hl => by cases hl⟩
  · show (names.map fun n => (n, ([] : List M))).map Prod.fst = names
    rw [List.map_map]
    exact List.map_id _
  · show ((names.map fun n => (n, ([] : List M))).lookup name).bind List.head? = none
    induction names with
    | nil => rfl
    | cons n rest ih =>
        rw [List.map_cons, List.lookup_cons]
        split
        · rfl
        · exact ih

theorem lookup_pushModule (name : Bytes) (module : M) (map : List (Bytes × List M))
    (name' : Bytes) :
    (pushModule name module map).lookup name'
      = if name' = name then (map.lookup name').map (· ++ [module]) else map.lookup name' := by
  induction map with
  | nil => exact (ite_self _).symm
  | cons i rest ih =>
      obtain ⟨n, ptrs⟩ := i
      show List.lookup name' ((if n = name then (n, ptrs ++ [module]) else (n, ptrs))
        :: pushModule name module rest) = _
      by_cases hn : n = name
      · subst hn
        rw [if_pos rfl, List.lookup_cons, List.lookup_cons, ih]
        by_cases hname : name' = n
        · rw [beq_iff_eq.mpr hname, if_pos hname, if_pos hname]
          rfl
        · rw [beq_eq_false_iff_ne.mpr hname, if_neg hname]
      · rw [if_neg hn, List.lookup_cons, List.lookup_cons, ih]
        by_cases hname : name' = n
        · have hne : ¬ name' = name := hname.symm ▸ hn
          rw [beq_iff_eq.mpr hname, if_neg hne, if_neg hne]
        · rw [beq_eq_false_iff_ne.mpr hname]

/-- A name of the map has modules, perhaps none. -/
theorem exists_lookup {map : List (Bytes × List M)} {name : Bytes}
    (h : name ∈ map.map Prod.fst) : ∃ ptrs, map.lookup name = some ptrs := by
  obtain ⟨i, hi, rfl⟩ := List.mem_map.mp h
  exact Option.isSome_iff_exists.mp (lookup_of_mem hi)

/-- The first module of an interface after a push is that of the successes. -/
theorem front_pushModule {map : List (Bytes × List M)} {all : List (Bytes × M)}
    {name : Bytes} (module : M) (hname : name ∈ map.map Prod.fst)
    (h : ∀ name', front name' map = all.lookup name') (name' : Bytes) :
    front name' (pushModule name module map) = (all ++ [(name, module)]).lookup name' := by
  rw [List.lookup_append, ← h, front, front, lookup_pushModule, List.lookup_cons]
  by_cases heq : name' = name
  · subst heq
    obtain ⟨ptrs, hptrs⟩ := exists_lookup hname
    rw [if_pos rfl, hptrs, beq_self_eq_true]
    show (ptrs ++ [module]).head? = ptrs.head?.or (some module)
    rw [List.head?_append]
    rfl
  · rw [if_neg heq, beq_eq_false_iff_ne.mpr heq]
    exact (Option.or_none ..).symm

theorem keys_pushModule (name : Bytes) (module : M) (map : List (Bytes × List M)) :
    (pushModule name module map).map Prod.fst = map.map Prod.fst := by
  rw [pushModule, List.map_map]
  refine List.map_congr_left fun i _ => ?_
  show (if i.1 = name then (i.1, i.2 ++ [module]) else i).1 = i.1
  split <;> rfl

/-- The step: one interface of one file. -/
theorem loadInterface_holds {names : List Bytes} {m : Manager M} {all : List (Bytes × M)}
    (f : File M) {name : Bytes} (hname : name ∈ names) (h : Holds names m all) :
    Holds names (m.loadInterface f name)
      (all ++ ((f.importModule name).map fun module => (name, module)).toList) := by
  rw [Manager.loadInterface]
  cases f.importModule name with
  | none =>
      rw [Option.map_none, Option.toList_none, List.append_nil]
      exact h
  | some module =>
      have hkey : name ∈ m.interfaceMap.map Prod.fst := h.keys.symm ▸ hname
      have hfronts := front_pushModule module hkey h.fronts
      have hcount : m.modulesLoadedNum + 1 = UInt32.ofNat (all.length + 1) := by
        rw [h.count, UInt32.ofNat_add]
        rfl
      have hlength : (pushModule name module m.interfaceMap).length = names.length := by
        rw [← h.keys, List.length_map, pushModule, List.length_map]
      refine ⟨?_, hfronts, ?_, ?_, ?_⟩
      · exact (keys_pushModule name module m.interfaceMap).trans h.keys
      · rw [hcount]
        show _ = UInt32.ofNat (all ++ [(name, module)]).length
        rw [List.length_append, List.length_singleton]
      · show m.events ++ _ ++ _ = _
        show _ = eventsOf names.length (all ++ [(name, module)])
        rw [eventsOf_append, h.events, hfronts, hcount, hlength, List.append_assoc, signals]
        show _ ++ (_ ++ if (UInt32.ofNat (all.length + 1)).toNat = _ then _ else _) = _
        rw [UInt32.toNat_ofNat']
      · intro l hl
        rcases List.mem_append.mp hl with hl | hl
        · exact h.known l hl
        · rw [List.mem_singleton.mp hl]
          exact hname

/-- All interfaces of one file. -/
theorem loadFile_holds {names : List Bytes} (f : File M) :
    ∀ (some : List Bytes) {m : Manager M} {all : List (Bytes × M)}, (∀ n ∈ some, n ∈ names) →
      Holds names m all →
      Holds names (some.foldl (Manager.loadInterface f) m)
        (all ++ some.filterMap fun n => (f.importModule n).map fun module => (n, module)) := by
  intro rest
  induction rest with
  | nil =>
      intro m all _ h
      rw [List.filterMap_nil, List.append_nil]
      exact h
  | cons n rest ih =>
      intro m all hnames h
      have hstep := ih (fun n' hn' => hnames n' (List.mem_cons_of_mem _ hn'))
        (loadInterface_holds f (hnames n (List.mem_cons_self ..)) h)
      rw [List.append_assoc] at hstep
      rw [List.filterMap_cons]
      cases hn : f.importModule n with
      | none =>
          rw [hn] at hstep
          exact hstep
      | some module =>
          rw [hn] at hstep
          exact hstep

/-- The run: all interfaces of all files. -/
theorem loadModules_holds (names : List Bytes) (files : List (File M)) :
    Holds names (loadModules names files) (loads names files) := by
  have hfold : ∀ (files : List (File M)) (m : Manager M) (all : List (Bytes × M)),
      Holds names m all →
      Holds names
        (files.foldl (fun m f =>
          if isLibrary f then (m.interfaceMap.map Prod.fst).foldl (Manager.loadInterface f) m
          else m) m)
        (all ++ loads names files) := by
    intro files
    induction files with
    | nil =>
        intro m all h
        exact (List.append_nil all).symm ▸ h
    | cons f rest ih =>
        intro m all h
        rw [List.foldl_cons, loads, List.filter_cons]
        by_cases hf : isLibrary f = true
        · rw [if_pos hf, if_pos hf, List.flatMap_cons, ← List.append_assoc, h.keys]
          exact ih _ _ (loadFile_holds f names (fun n hn => hn) h)
        · rw [if_neg hf, if_neg hf]
          exact ih _ _ h
  exact hfold files (.new names) [] (new_holds names)

/-- A signal that something is loaded, with what it hands over. -/
def Event.handed : Event M → Option (Bytes × M)
  | .loaded name module => some (name, module)
  | .loadedAll => none

/-- The signal that all are loaded. -/
def Event.isLoadedAll : Event M → Bool
  | .loaded _ _ => false
  | .loadedAll => true

/-- How often all are said to be loaded, from the `k`-th success on. -/
theorem countP_signals (size : Nat) (all : List (Bytes × M)) (later : List (Bytes × M)) :
    ∀ k : Nat, k + later.length < 2 ^ 32 →
      ((later.zipIdx k).flatMap (signals size all)).countP Event.isLoadedAll
        = if k < size ∧ size ≤ k + later.length then 1 else 0 := by
  induction later with
  | nil =>
      intro k _
      rw [if_neg (by rw [List.length_nil]; omega)]
      rfl
  | cons l later ih =>
      intro k hlt
      rw [List.length_cons] at hlt ⊢
      have hloaded : ((all.lookup l.1).map (Event.loaded l.1)).toList.countP
          Event.isLoadedAll = 0 := by
        cases all.lookup l.1 <;> rfl
      have hmod : (k + 1) % 2 ^ 32 = k + 1 := Nat.mod_eq_of_lt (by omega)
      rw [List.zipIdx_cons, List.flatMap_cons, List.countP_append, ih (k + 1) (by omega), signals,
        List.countP_append, hloaded, hmod]
      by_cases hk : k + 1 = size
      · rw [if_pos hk, if_neg (by omega), if_pos (by omega)]
        rfl
      · rw [if_neg hk]
        by_cases hlater : k + 1 < size ∧ size ≤ k + 1 + later.length
        · rw [if_pos hlater, if_pos (by omega)]
          rfl
        · rw [if_neg hlater, if_neg (by omega)]
          rfl

/-- **SIGNALS**: for any files and interfaces the successful imports are signalled one by
    one, each with the FIRST module of its interface, and the signal that all are loaded
    comes right after that of the success that makes them as many as the interfaces, even
    if they are successes of one interface only.  So it comes at most once. -/
theorem loadModules_signals (names : List Bytes) (files : List (File M))
    (h : (loads names files).length < 2 ^ 32) :
    (loadModules names files).events
        = (loads names files).zipIdx.flatMap (fun l =>
            (((loads names files).lookup l.1.1).map (Event.loaded l.1.1)).toList
              ++ if l.2 + 1 = names.length then [.loadedAll] else [])
      ∧ (loadModules names files).events.filterMap Event.handed
        = (loads names files).filterMap
            (fun l => ((loads names files).lookup l.1).map fun module => (l.1, module))
      ∧ (loadModules names files).events.countP Event.isLoadedAll
        = if 0 < names.length ∧ names.length ≤ (loads names files).length then 1 else 0 := by
  rw [(loadModules_holds names files).events]
  refine ⟨?_, ?_, ?_⟩
  · refine List.flatMap_congr fun l hl => ?_
    have hlt : l.2 < (loads names files).length := (List.mem_zipIdx' hl).1
    rw [signals, Nat.mod_eq_of_lt (by omega)]
  · have hhanded : ∀ (all later : List (Bytes × M)) (k : Nat),
        ((later.zipIdx k).flatMap (signals names.length all)).filterMap Event.handed
          = later.filterMap
              (fun l => (all.lookup l.1).map fun module => (l.1, module)) := by
      intro all later
      induction later with
      | nil => exact fun _ => rfl
      | cons l later ih =>
          intro k
          have hsignals : (signals names.length all (l, k)).filterMap Event.handed
              = ((all.lookup l.1).map fun module => (l.1, module)).toList := by
            rw [signals, List.filterMap_append]
            cases all.lookup l.1 with
            | none => split <;> rfl
            | some module => split <;> rfl
          rw [List.zipIdx_cons, List.flatMap_cons, List.filterMap_append, ih, hsignals,
            List.filterMap_cons]
          cases all.lookup l.1 <;> rfl
    exact hhanded _ _ 0
  · have hcount := countP_signals names.length (loads names files) (loads names files) 0 (by omega)
    rw [Nat.zero_add] at hcount
    exact hcount

/-! ## The loader -/

/-- The settings a module is asked for. -/
inductive Handle where
  | accounts
  | settings
  deriving DecidableEq

/-- `ModuleExport`, as far as loading goes: the calls of `init`, and the two documents. -/
structure ModuleExport where
  inits : Nat := 0
  accountsDoc : Option Value := none
  settingsDoc : Option Value := none

/-- `init`. -/
def ModuleExport.init (e : ModuleExport) : ModuleExport :=
  ⟨e.inits + 1, e.accountsDoc, e.settingsDoc⟩

/-- A member whose name and value are literals. -/
def literal (name handle : Bytes) : Member :=
  ⟨name, .string handle, false, fun _ _ h => by cases h⟩

/-- `registerSettings`; the callbacks are bound to the module. -/
def registerSettings (module : M) : Request (M × Handle) :=
  ⟨some [literal (lit "HTTP_accounts") (lit "HTTP_accountsCB"),
      literal (lit "HTTP_settings") (lit "HTTP_settingsCB")],
    [(lit "HTTP_accountsCB", (module, .accounts)), (lit "HTTP_settingsCB", (module, .settings))]⟩

/-- What the caller and the signals see: the caller's `module`, the modules, the settings
    manager with the number of documents it was handed, and what the caller has found at
    each of its callbacks. -/
structure Loader (M : Type) where
  module : Option M
  exports : M → ModuleExport
  settingsManager : SettingsManager.Manager (M × Handle)
  documents : Nat
  called : List (Option M × (M → ModuleExport))

/-- Before `loadModules`. -/
def Loader.start : Loader M := ⟨none, fun _ => {}, .new, 0, []⟩

section Loader

variable [DecidableEq M] (parseJson : Bytes → Option Value) (content : Option Bytes)

/-- `setAccounts` and `setSettings`. -/
def setDoc (exports : M → ModuleExport) (call : (M × Handle) × Value) : M → ModuleExport :=
  Function.update exports call.1.1
    (match call.1.2 with
      | .accounts => { exports call.1.1 with accountsDoc := some call.2 }
      | .settings => { exports call.1.1 with settingsDoc := some call.2 })

/-- The handlers of the two signals.  The document of a module is gone when the first one
    returns; the second one calls the caller back whatever becomes of the settings file. -/
def Loader.onEvent (l : Loader M) : Event M → Except Failure (Loader M)
  | .loaded _ module =>
      let exports := Function.update l.exports module (l.exports module).init
      let moduleRequest := registerSettings module
      (l.settingsManager.merge l.documents moduleRequest.document moduleRequest.callbacks).map
        fun merged => ⟨some module, exports, merged.1, l.documents + 1, l.called⟩
  | .loadedAll =>
      (l.settingsManager.deployFile parseJson (fun _ => false) content).map fun calls =>
        let exports := (calls.getD []).foldl setDoc l.exports
        ⟨l.module, exports, l.settingsManager, l.documents, l.called ++ [(l.module, exports)]⟩

/-- The name the module is exported under. -/
def moduleName : Bytes := lit "bookfilerHttpModule"

/-- `loadModule`. -/
def loadModule (files : List (File M)) : Except Failure (Loader M) :=
  (loadModules [moduleName] files).events.foldlM (Loader.onEvent parseJson content) .start

end Loader

/-! ## Its outcome -/

/-- The libraries that have the module. -/
def imported (files : List (File M)) : List M :=
  (files.filter isLibrary).filterMap fun f => f.importModule moduleName

/-- A module after `init`, with what the settings have for it. -/
def configured (inits : Nat) (settings : Option Value) : ModuleExport :=
  ⟨inits, settings.bind (memberAt [lit "HTTP_accounts"]),
    settings.bind (memberAt [lit "HTTP_settings"])⟩

theorem loads_single (files : List (File M)) :
    loads [moduleName] files = (imported files).map fun module => (moduleName, module) := by
  rw [loads, imported]
  induction files.filter isLibrary with
  | nil => rfl
  | cons f rest ih =>
      rw [List.flatMap_cons, ih, List.filterMap_cons, List.filterMap_cons]
      cases f.importModule moduleName <;> rfl

/-- The signals of one interface: all are loaded after the first success, and the further
    ones signal the first module again. -/
theorem eventsOf_single (module : M) (rest : List M) (h : rest.length < 2 ^ 32) :
    eventsOf 1 ((module :: rest).map fun m => (moduleName, m))
      = .loaded moduleName module :: .loadedAll ::
          List.replicate rest.length (.loaded moduleName module) := by
  obtain ⟨all, hall⟩ : ∃ all, all = (module :: rest).map fun m => (moduleName, m) := ⟨_, rfl⟩
  have hlookup : all.lookup moduleName = some module := by
    rw [hall, List.map_cons, List.lookup_cons, beq_self_eq_true]
  have hrest : ∀ (later : List M) (k : Nat), 0 < k → k + later.length ≤ 2 ^ 32 →
      ((later.map fun m => (moduleName, m)).zipIdx k).flatMap (signals 1 all)
        = List.replicate later.length (.loaded moduleName module) := by
    intro later
    induction later with
    | nil => exact fun _ _ _ => rfl
    | cons m later ih =>
        intro k hpos hle
        rw [List.length_cons] at hle
        have hcount : ¬ (k + 1) % 2 ^ 32 = 1 := by omega
        rw [List.map_cons, List.zipIdx_cons, List.flatMap_cons, ih (k + 1) (by omega) (by omega),
          signals, hlookup, if_neg hcount]
        rfl
  rw [eventsOf, ← hall, hall, List.map_cons, List.zipIdx_cons, List.flatMap_cons,
    ← List.map_cons (f := fun m => (moduleName, m)), ← hall, hrest rest (0 + 1) Nat.one_pos (by omega),
    signals, hlookup]
  rfl

/-- Both handles are registered. -/
theorem registered_handles (module : M) :
    registered (registerSettings module).callbacks (.string (lit "HTTP_accountsCB"))
        = some (module, .accounts)
      ∧ registered (registerSettings module).callbacks (.string (lit "HTTP_settingsCB"))
        = some (module, .settings) := by
  have haccounts : (lit "HTTP_accountsCB").takeWhile (· != 0) = lit "HTTP_accountsCB" := by
    decide +kernel
  have hsettings : (lit "HTTP_settingsCB").takeWhile (· != 0) = lit "HTTP_settingsCB" := by
    decide +kernel
  have hne : (lit "HTTP_settingsCB" == lit "HTTP_accountsCB") = false := by decide +kernel
  constructor
  · rw [registered, Value.asString, haccounts, Option.bind_some, registerSettings,
      List.lookup_cons, beq_self_eq_true]
  · rw [registered, Value.asString, hsettings, Option.bind_some, registerSettings,
      List.lookup_cons, hne, List.lookup_cons, beq_self_eq_true]

/-- The manager of one module has the calls of that module. -/
theorem owed_insertAll (module : M) (settings : Value) :
    owed (insertAll [] (registerSettings module).callbacks) settings
        (.object (registerSettings module).members)
      = owed (registerSettings module).callbacks settings
          (.object (registerSettings module).members) := by
  have hlookup : ∀ handle, (insertAll [] (registerSettings module).callbacks).lookup handle
      = (registerSettings module).callbacks.lookup handle := by
    intro handle
    rw [lookup_insertAll]
    rfl
  rw [owed, owed, congrFun (registered_congr hlookup) settings]

/-- The calls that a settings file with this root makes for one module. -/
theorem owed_registered (module : M) (settings : List (Bytes × Value)) :
    owed (registerSettings module).callbacks (.object settings)
        (.object (registerSettings module).members)
      = ((settings.lookup (lit "HTTP_accounts")).map fun d => ((module, Handle.accounts), d)).toList
        ++ ((settings.lookup (lit "HTTP_settings")).map
            fun d => ((module, Handle.settings), d)).toList := by
  obtain ⟨haccounts, hsettings⟩ := registered_handles module
  have hdue : ∀ (name handle : Bytes) (c : M × Handle),
      registered (registerSettings module).callbacks (.string handle) = some c →
      due (registerSettings module).callbacks (.object settings) ([name], .string handle)
        = (settings.lookup name).map fun d => (c, d) := by
    intro name handle c hc
    show ((settings.lookup name).bind some).bind _ = _
    dsimp only
    rw [hc]
    cases settings.lookup name <;> rfl
  show [([lit "HTTP_accounts"], Value.string (lit "HTTP_accountsCB")),
    ([lit "HTTP_settings"], Value.string (lit "HTTP_settingsCB"))].filterMap _ ++ [] = _
  rw [List.append_nil, List.filterMap_eq_flatMap_toList, List.flatMap_cons, List.flatMap_singleton,
    hdue _ _ _ haccounts, hdue _ _ _ hsettings]

section Outcome

variable [DecidableEq M]

/-- The documents of a module after those calls. -/
theorem setDoc_registered (module : M) (settings : List (Bytes × Value)) :
    (owed (registerSettings module).callbacks (.object settings)
        (.object (registerSettings module).members)).foldl setDoc
        (Function.update (fun _ => {}) module (configured 1 none))
      = Function.update (fun _ => {}) module (configured 1 (some (.object settings))) := by
  have hfind : ∀ name, (some (Value.object settings)).bind (memberAt [name])
      = settings.lookup name := by
    intro name
    show (settings.lookup name).bind some = _
    cases settings.lookup name <;> rfl
  rw [owed_registered, configured, configured, hfind, hfind]
  cases settings.lookup (lit "HTTP_accounts") with
  | none =>
      cases settings.lookup (lit "HTTP_settings") with
      | none => rfl
      | some d =>
          show setDoc _ _ = _
          rw [setDoc, Function.update_idem, Function.update_self]
          rfl
  | some a =>
      cases settings.lookup (lit "HTTP_settings") with
      | none =>
          show setDoc _ _ = _
          rw [setDoc, Function.update_idem, Function.update_self]
          rfl
      | some d =>
          show setDoc (setDoc _ _) _ = _
          rw [setDoc, setDoc, Function.update_idem, Function.update_self, Function.update_idem,
            Function.update_self]

/-- A further signal initializes the module once more and calls nobody back. -/
theorem onEvent_again (parseJson : Bytes → Option Value) (content : Option Bytes) (module : M)
    (n : Nat) :
    ∀ l : Loader M, l.module = some module →
      ∃ l' : Loader M,
        (List.replicate n (Event.loaded moduleName module)).foldlM
            (Loader.onEvent parseJson content) l = .ok l'
          ∧ l'.module = some module
          ∧ l'.exports = Function.update l.exports module
              ⟨(l.exports module).inits + n, (l.exports module).accountsDoc,
                (l.exports module).settingsDoc⟩
          ∧ l'.called = l.called := by
  induction n with
  | zero =>
      intro l hmodule
      refine ⟨l, rfl, hmodule, ?_, rfl⟩
      exact (Function.update_eq_self module l.exports).symm
  | succ n ih =>
      intro l _
      obtain ⟨next, hnext⟩ : ∃ next : Loader M, next = ⟨some module,
          Function.update l.exports module (l.exports module).init,
          ⟨l.settingsManager.master ++ (registerSettings module).entries l.documents,
            insertAll l.settingsManager.masterCallbackMap (registerSettings module).callbacks⟩,
          l.documents + 1, l.called⟩ := ⟨_, rfl⟩
      have hstep : l.onEvent parseJson content (.loaded moduleName module) = .ok next := by
        rw [Loader.onEvent, merge_request, hnext]
        rfl
      obtain ⟨l', hrun, hmodule', hexports, hcalled⟩ := ih next (by rw [hnext])
      rw [hnext] at hexports hcalled
      refine ⟨l', ?_, hmodule', ?_, hcalled⟩
      · rw [List.replicate_succ, List.foldlM_cons, hstep]
        exact hrun
      · dsimp only at hexports
        rw [hexports, Function.update_idem, Function.update_self, ModuleExport.init,
          Nat.add_assoc, Nat.add_comm 1 n]

/-- **LOADING**: without a library that has the module nothing happens.  Otherwise the
    caller's module is that of the first such library.  It is called back exactly once,
    after the first success, and finds the module with `init` called once and with the
    documents that the settings file has for it, if there is such a file and it can be
    parsed; an assertion fails if the root of the file is not an object.  Every further
    library that has the module initializes the FIRST one again, after the caller has been
    called back. -/
theorem loadModule_correct (parseJson : Bytes → Option Value) (content : Option Bytes)
    (files : List (File M)) (h : (imported files).length ≤ 2 ^ 32) :
    (imported files = [] → loadModule parseJson content files = .ok .start)
      ∧ ∀ module rest, imported files = module :: rest →
          (∀ settings, content.bind parseJson = some settings → settings.isObject = false →
              loadModule parseJson content files = .error (.assertion .isObject))
            ∧ ((∀ settings, content.bind parseJson = some settings →
                settings.isObject = true) →
              ∃ l, loadModule parseJson content files = .ok l ∧ l.module = some module
                ∧ l.exports = Function.update (fun _ => {}) module
                    (configured (imported files).length (content.bind parseJson))
                ∧ l.called = [(some module, Function.update (fun _ => {}) module
                    (configured 1 (content.bind parseJson)))]) := by
  have hevents := (loadModules_holds [moduleName] files).events
  rw [loads_single] at hevents
  constructor
  · intro hnone
    rw [loadModule, hevents, hnone]
    rfl
  · intro module rest hsome
    rw [hsome, List.length_cons] at h
    rw [hsome] at hevents
    have hsingle : (loadModules [moduleName] files).events
        = .loaded moduleName module :: .loadedAll ::
            List.replicate rest.length (.loaded moduleName module) :=
      hevents.trans (eventsOf_single module rest (by omega))
    obtain ⟨first, hfirst⟩ : ∃ first : Loader M, first = ⟨some module,
        Function.update (fun _ => {}) module (configured 1 none),
        ⟨(registerSettings module).entries 0, insertAll [] (registerSettings module).callbacks⟩,
        1, []⟩ := ⟨_, rfl⟩
    have hloaded : Loader.start.onEvent parseJson content (.loaded moduleName module)
        = .ok first := by
      rw [hfirst]
      rfl
    have hrun : loadModule parseJson content files
        = (first.onEvent parseJson content .loadedAll).bind fun l =>
            (List.replicate rest.length (Event.loaded moduleName module)).foldlM
              (Loader.onEvent parseJson content) l := by
      rw [loadModule, hsingle, List.foldlM_cons, hloaded]
      rfl
    have hmanager : first.settingsManager = ⟨(registerSettings module).entries 0,
        insertAll [] (registerSettings module).callbacks⟩ := by
      rw [hfirst]
    have hliterals : ∀ e ∈ (registerSettings module).entries 0,
        e.readable (fun _ => false) = true := by
      intro e he
      obtain ⟨member, hmember, rfl⟩ := List.mem_map.mp he
      rcases List.mem_pair.mp hmember with rfl | rfl <;> rfl
    constructor
    · intro settings hsettings hobj
      have hdeploy : first.settingsManager.deployFile parseJson (fun _ => false) content
          = .error (.assertion .isObject) := by
        rw [hmanager, SettingsManager.Manager.deployFile, hsettings]
        exact congrArg (Except.map some) (deploy_not_object (fun _ => false) _ hobj _ _)
      rw [hrun, Loader.onEvent, hdeploy]
      rfl
    · intro hobj
      obtain ⟨deployed, hdeployed⟩ : ∃ deployed : Loader M, deployed = ⟨some module,
          Function.update (fun _ => {}) module (configured 1 (content.bind parseJson)),
          first.settingsManager, 1, [(some module, Function.update (fun _ => {}) module
            (configured 1 (content.bind parseJson)))]⟩ := ⟨_, rfl⟩
      have hcallback : first.onEvent parseJson content .loadedAll = .ok deployed := by
        rw [Loader.onEvent, hmanager, SettingsManager.Manager.deployFile]
        rw [hdeployed, hfirst]
        cases hcontent : content.bind parseJson with
        | none => rfl
        | some settings =>
            obtain ⟨members, rfl⟩ := isObject_iff.mp (hobj settings hcontent)
            dsimp only
            rw [deploy_object _ members hliterals, tree_entries, owed_insertAll]
            show Except.ok _ = Except.ok _
            dsimp only [Option.getD_some]
            rw [setDoc_registered]
            rfl
      obtain ⟨l, hl, hmodule, hexports, hcalled⟩ :=
        onEvent_again parseJson content module rest.length deployed (by rw [hdeployed])
      rw [hdeployed] at hexports hcalled
      refine ⟨l, ?_, hmodule, ?_, hcalled⟩
      · rw [hrun, hcallback]
        exact hl
      · dsimp only at hexports
        rw [hexports, Function.update_idem, Function.update_self, hsome, List.length_cons,
          Nat.add_comm rest.length 1]
        rfl

end Outcome

/-- Two libraries that have the module, and a settings file. -/
theorem loadModule_correct_twice :
    ∃ l, loadModule (fun _ => some (.object [(lit "HTTP_settings", .int 8080)])) (some [])
          [⟨lit "modules/libhttp.so.1.0", true, fun _ => some 0⟩,
            ⟨lit "modules/notes.txt", true, fun _ => some 7⟩,
            ⟨lit "modules/libhttp.so.1.1", true, fun _ => some 1⟩] = .ok l
        ∧ l.module = some 0
        ∧ l.exports = Function.update (fun _ => {}) 0
            (configured 2 (some (.object [(lit "HTTP_settings", .int 8080)])))
        ∧ l.called = [(some 0, Function.update (fun _ => {}) 0
            (configured 1 (some (.object [(lit "HTTP_settings", .int 8080)]))))] := by
  have himported : imported
      [⟨lit "modules/libhttp.so.1.0", true, fun _ => some 0⟩,
        ⟨lit "modules/notes.txt", true, fun _ => some 7⟩,
        ⟨lit "modules/libhttp.so.1.1", true, fun _ => some 1⟩] = [0, 1] := by decide +kernel
  have h := ((loadModule_correct (fun _ => some (.object [(lit "HTTP_settings", .int 8080)]))
    (some []) _ (by rw [himported]; decide)).2 0 [1] himported).2
      (fun settings hs => by rw [← Option.some.inj hs]; rfl)
  rw [himported] at h
  exact h

/-- One interface twice counts for two interfaces. -/
theorem loadModules_signals_twice :
    (loadModules [lit "a", lit "b"]
        [⟨lit "x.so", true, fun n => if n = lit "a" then some 0 else none⟩,
          ⟨lit "y.so", true, fun n => if n = lit "a" then some 1 else none⟩]).events
      = [.loaded (lit "a") 0, .loaded (lit "a") 0, .loadedAll] := by
  have hloads : loads [lit "a", lit "b"]
      [⟨lit "x.so", true, fun n => if n = lit "a" then some 0 else none⟩,
        ⟨lit "y.so", true, fun n => if n = lit "a" then some 1 else none⟩]
      = [(lit "a", 0), (lit "a", 1)] := by decide +kernel
  have h := (loadModules_signals _ _ (by rw [hloads]; decide)).1
  rw [hloads] at h
  exact h

end ModuleLoader
