import BookFilerHttp.LevelOrderProofs
import BookFilerHttp.JsonValueProofs

/-! # The settings manager

    One settings file for several modules.  A module hands in a document, a tree of names
    whose leaves are handles, and a callback for each handle; the manager merges the trees,
    and when a file is deployed it walks the merged tree and the file side by side, with a
    queue, and calls the callback of each leaf that the file has a value for.

    Merging MOVES the members out of a document and copies nothing: the document is left
    with nulls, and what does not fit into a member stays in its memory.  So a document can
    be merged once, and it has to be there when a file is deployed unless all its members
    are literals.

    `deploy_merged` says which calls are made, for any modules and any file. -/

namespace SettingsManager

open ByteString JsonValue LevelOrder

variable {C : Type}

/-! ## The code -/

/-- An assertion has failed, or memory of a document that is gone may have been read. -/
inductive Failure where
  | assertion (a : Assertion)
  | freed
  deriving DecidableEq

/-- A member of a document.  `inPool` says that some of it lies in the memory of the
    document: characters of its name or value that are neither literals nor few, or the
    members of an object, which always lie there. -/
structure Member where
  name : Bytes
  value : Value
  inPool : Bool
  nested : ∀ e members, value = .object (e :: members) → inPool = true

/-- A document that a module hands in: an object, or something else.  Of a member that has
    been moved away a null name and a null value are left. -/
inductive Document where
  | object (members : List (Option Member))
  | other

/-- A member of the merged tree, with the number of the document it was moved from. -/
structure Entry where
  member : Member
  document : Nat

/-- `SettingsManager`: the merged tree, which is an object, and the callbacks by handle. -/
structure Manager (C : Type) where
  master : List Entry
  masterCallbackMap : List (Bytes × C)

/-- The constructor. -/
def Manager.new : Manager C := ⟨[], []⟩

/-- `unordered_map::insert` of a range: an entry that is there stays. -/
def insertAll (callbacks entries : List (Bytes × C)) : List (Bytes × C) :=
  entries.foldl (fun map e => if (map.lookup e.1).isSome then map else map ++ [e]) callbacks

/-- `AddMember`: the name has to be a string. -/
def addMember (document : Nat) (master : List Entry) :
    Option Member → Except Failure (List Entry)
  | none => .error (.assertion .isString)
  | some member => .ok (master ++ [⟨member, document⟩])

/-- `merge` of the document of a number: the manager, and what is left of the document. -/
def Manager.merge (m : Manager C) (document : Nat) (module : Document)
    (moduleCallbackMap : List (Bytes × C)) : Except Failure (Manager C × Document) :=
  match module with
  | .object members =>
      (members.foldlM (addMember document) m.master).map fun master =>
        (⟨master, insertAll m.masterCallbackMap moduleCallbackMap⟩,
          .object (members.map fun _ => none))
  | .other =>
      .ok (⟨m.master, insertAll m.masterCallbackMap moduleCallbackMap⟩, .other)

/-- The members of an object in the tree; they lie where the object does. -/
def Entry.below (e : Entry) : List Entry :=
  match e.member.value with
  | .object members => members.map fun m => ⟨⟨m.1, m.2, true, fun _ _ _ => rfl⟩, e.document⟩
  | _ => []

/-- The memory of the entry is there, if it has any, given the documents that are. -/
def Entry.readable (alive : Nat → Bool) (e : Entry) : Bool :=
  !e.member.inPool || alive e.document

/-- What one member of the merged tree asks for: a call, or a place in the queue.  The
    search for its name compares characters, so it counts as a read of all its memory. -/
def visitMember (alive : Nat → Bool) (callbacks : List (Bytes × C)) (settings : Value)
    (e : Entry) : Except Failure (List (C × Value) × List (Value × List Entry)) :=
  ((settings.findMember e.member.name).mapError .assertion).bind fun found =>
    if e.readable alive = false then .error .freed
    else match found with
      | none => .ok ([], [])
      | some d =>
          if e.member.value.isObject && d.isObject then .ok ([], [(d, e.below)])
          else if e.member.value.isString then
            (e.member.value.getString.mapError .assertion).map fun callbackHandle =>
              (((callbacks.lookup callbackHandle).map fun c => (c, d)).toList, [])
          else .ok ([], [])

/-- The loop over the members of the merged tree. -/
def visit (alive : Nat → Bool) (callbacks : List (Bytes × C))
    (pair : Value × List Entry) :
    Except Failure (List (C × Value) × List (Value × List Entry)) :=
  pair.2.foldlM
    (fun r e => (visitMember alive callbacks pair.1 e).map
      fun r' => (r.1 ++ r'.1, r.2 ++ r'.2)) ([], [])

mutual

/-- The objects in a value, which bound the turns of the queue. -/
def objects : Value → Nat
  | .object members => objectsIn members + 1
  | _ => 0

def objectsIn : List (Bytes × Value) → Nat
  | [] => 0
  | (_, v) :: rest => objects v + objectsIn rest

end

/-- The names and values of some entries. -/
def tree (entries : List Entry) : List (Bytes × Value) :=
  entries.map fun e => (e.member.name, e.member.value)

/-- `deploy`: the calls, each with a copy of its value. -/
def deploy (alive : Nat → Bool) (callbacks : List (Bytes × C)) (settings : Value)
    (master : List Entry) : Except Failure (List (C × Value)) :=
  loop (visit alive callbacks) (objects (.object (tree master))) [(settings, master)]

/-- `deployFile`: none without a file, or if the file cannot be parsed. -/
def Manager.deployFile (parseJson : Bytes → Option Value) (alive : Nat → Bool)
    (m : Manager C) (content : Option Bytes) :
    Except Failure (Option (List (C × Value))) :=
  match content.bind parseJson with
  | none => .ok none
  | some settings => (deploy alive m.masterCallbackMap settings m.master).map some

/-! ## Its purpose -/

/-- The entries of a tree `k` levels below its members, with their paths. -/
def entriesAt : Nat → Value → List (List Bytes × Value)
  | 0, .object members => members.map fun e => ([e.1], e.2)
  | k + 1, .object members =>
      members.flatMap fun e => (entriesAt k e.2).map fun p => (e.1 :: p.1, p.2)
  | _, _ => []

/-- The callback of a leaf. -/
def registered (callbacks : List (Bytes × C)) (v : Value) : Option C :=
  v.asString.bind fun callbackHandle => callbacks.lookup callbackHandle

/-- The call that an entry is owed: the settings have a value at its path. -/
def due (callbacks : List (Bytes × C)) (settings : Value) (entry : List Bytes × Value) :
    Option (C × Value) :=
  (memberAt entry.1 settings).bind fun d =>
    (registered callbacks entry.2).map fun c => (c, d)

/-- The calls that the entries of a tree are owed, level by level. -/
def owed (callbacks : List (Bytes × C)) (settings master : Value) : List (C × Value) :=
  (List.range (objects master)).flatMap fun k =>
    (entriesAt k master).filterMap (due callbacks settings)

/-! ## One turn of the queue -/

section Turn

variable (callbacks : List (Bytes × C))

/-- The calls of a member, given the members of the settings. -/
def calls (settings : List (Bytes × Value)) (e : Bytes × Value) : List (C × Value) :=
  ((settings.lookup e.1).bind fun d => (registered callbacks e.2).map fun c => (c, d)).toList

/-- The pair of objects an entry leads to. -/
def below (settings : List (Bytes × Value)) (e : Entry) : List (Value × List Entry) :=
  ((settings.lookup e.member.name).filter
    fun d => e.member.value.isObject && d.isObject).toList.map fun d => (d, e.below)

def emit : Value × List Entry → List (C × Value)
  | (.object settings, entries) => (tree entries).flatMap (calls callbacks settings)
  | _ => []

def children : Value × List Entry → List (Value × List Entry)
  | (.object settings, entries) => entries.flatMap (below settings)
  | _ => []

/-- The settings are an object, and the memory of the entries is there. -/
def Sound (alive : Nat → Bool) (pair : Value × List Entry) : Prop :=
  pair.1.isObject = true ∧ ∀ e ∈ pair.2, e.readable alive = true

theorem isObject_iff {v : Value} : v.isObject = true ↔ ∃ members, v = .object members := by
  constructor
  · intro h
    cases v with
    | object members => exact ⟨members, rfl⟩
    | null | bool | int | double | string | array => cases h
  · rintro ⟨members, rfl⟩
    rfl

/-- A member whose memory is there asks for its calls and its pair. -/
theorem visitMember_object {alive : Nat → Bool} (settings : List (Bytes × Value)) {e : Entry}
    (h : e.readable alive = true) :
    visitMember alive callbacks (.object settings) e
      = .ok (calls callbacks settings (e.member.name, e.member.value), below settings e) := by
  rw [visitMember]
  show (if e.readable alive = false then Except.error Failure.freed else _) = _
  rw [if_neg (by rw [h]; exact Bool.noConfusion), calls, below]
  cases settings.lookup e.member.name with
  | none => rfl
  | some d =>
      obtain ⟨⟨name, v, inPool, nested⟩, document⟩ := e
      cases v with
      | object members => cases d <;> rfl
      | string s => cases d <;> rfl
      | null | bool | int | double | array => cases d <;> rfl

/-- A visit to a readable pair calls what is due and pushes the pairs below. -/
theorem visit_sound {alive : Nat → Bool} {pair : Value × List Entry} (h : Sound alive pair) :
    visit alive callbacks pair = .ok (emit callbacks pair, children pair) := by
  obtain ⟨settings, entries⟩ := pair
  obtain ⟨hobj, hreadable⟩ := h
  obtain ⟨settings, rfl⟩ := isObject_iff.mp hobj
  have hfold : ∀ (entries : List Entry)
      (r : List (C × Value) × List (Value × List Entry)),
      (∀ e ∈ entries, e.readable alive = true) →
      entries.foldlM
          (fun r e => (visitMember alive callbacks (.object settings) e).map
            fun r' => (r.1 ++ r'.1, r.2 ++ r'.2)) r
        = .ok (r.1 ++ (tree entries).flatMap (calls callbacks settings),
            r.2 ++ entries.flatMap (below settings)) := by
    intro entries
    induction entries with
    | nil =>
        intro r _
        show Except.ok r = Except.ok (r.1 ++ [], r.2 ++ [])
        rw [List.append_nil, List.append_nil]
    | cons e rest ih =>
        intro r hr
        rw [List.foldlM_cons, visitMember_object callbacks settings (hr e (List.mem_cons_self ..))]
        refine (ih _ fun e he => hr e (List.mem_cons_of_mem _ he)).trans ?_
        show Except.ok ((r.1 ++ calls callbacks settings (e.member.name, e.member.value))
            ++ (tree rest).flatMap (calls callbacks settings),
          (r.2 ++ below settings e) ++ rest.flatMap (below settings)) = _
        rw [List.append_assoc, List.append_assoc]
        rfl
  exact hfold entries ([], []) hreadable

/-- What stands below an entry belongs to the document of the entry. -/
theorem mem_below {e e' : Entry} (h : e' ∈ e.below) :
    ∃ m members, e.member.value = .object (m :: members) ∧ e'.document = e.document := by
  rw [Entry.below] at h
  split at h
  · next members hmembers =>
      obtain ⟨m, hm, rfl⟩ := List.mem_map.mp h
      cases members with
      | nil => cases hm
      | cons m' members => exact ⟨m', members, hmembers, rfl⟩
  · cases h

/-- What lies in an object that is there is there. -/
theorem below_readable {alive : Nat → Bool} {e e' : Entry} (he : e.readable alive = true)
    (h : e' ∈ e.below) : e'.readable alive = true := by
  obtain ⟨m, members, hvalue, hdocument⟩ := mem_below h
  rw [Entry.readable, e.member.nested m members hvalue] at he
  have halive : alive e.document = true := he
  rw [Entry.readable, hdocument, halive, Bool.or_true]

theorem tree_below {e : Entry} {members : List (Bytes × Value)}
    (h : e.member.value = .object members) : tree e.below = members := by
  rw [Entry.below, h]
  show (members.map _).map _ = members
  rw [List.map_map]
  exact List.map_id _

/-- What a visit pushes is as readable as what it visits. -/
theorem children_sound {alive : Nat → Bool} {pair : Value × List Entry}
    (h : Sound alive pair) : ∀ b ∈ children pair, Sound alive b := by
  intro b hb
  obtain ⟨settings, entries⟩ := pair
  rw [children.eq_def] at hb
  split at hb
  · next heq =>
      obtain ⟨-, rfl⟩ := Prod.mk.inj heq
      obtain ⟨e, he, hb⟩ := List.mem_flatMap.mp hb
      obtain ⟨d, hd, rfl⟩ := List.mem_map.mp hb
      obtain ⟨-, hboth⟩ := Option.filter_eq_some_iff.mp (Option.mem_toList.mp hd)
      rw [Bool.and_eq_true] at hboth
      exact ⟨hboth.2, fun e' he' => below_readable (h.2 e he) he'⟩
  · cases hb

/-- What a visit pushes has in all fewer objects than what it visits: the queue empties. -/
theorem children_smaller {alive : Nat → Bool} {pair : Value × List Entry}
    (h : Sound alive pair) :
    ((children pair).map fun p => objects (.object (tree p.2))).sum
      < objects (.object (tree pair.2)) := by
  obtain ⟨settings, entries⟩ := pair
  obtain ⟨settings, rfl⟩ := isObject_iff.mp h.1
  have hle : ∀ entries : List Entry,
      ((entries.flatMap (below settings)).map fun p => objects (.object (tree p.2))).sum
        ≤ objectsIn (tree entries) := by
    intro entries
    induction entries with
    | nil => exact Nat.le_refl _
    | cons e rest ih =>
        have he : ((below settings e).map fun p => objects (.object (tree p.2))).sum
            ≤ objects e.member.value := by
          rw [below]
          cases hd : (settings.lookup e.member.name).filter
              fun d => e.member.value.isObject && d.isObject with
          | none => exact Nat.zero_le _
          | some d =>
              obtain ⟨-, hboth⟩ := Option.filter_eq_some_iff.mp hd
              obtain ⟨members, hmembers⟩ :=
                isObject_iff.mp (Bool.and_eq_true_iff.mp hboth).1
              show objects (.object (tree e.below)) + 0 ≤ _
              rw [tree_below hmembers, hmembers]
              exact Nat.le_refl _
        rw [List.flatMap_cons, List.map_append, List.sum_append]
        exact Nat.add_le_add he ih
  show _ < objectsIn (tree entries) + 1
  exact Nat.lt_succ_of_le (hle entries)

end Turn

/-! ## The whole walk -/

/-- No entry stands at the empty path. -/
theorem entriesAt_path {k : Nat} :
    ∀ {v : Value} {entry : List Bytes × Value}, entry ∈ entriesAt k v → entry.1 ≠ [] := by
  induction k with
  | zero =>
      intro v entry h
      cases v with
      | object members =>
          obtain ⟨e, -, rfl⟩ := List.mem_map.mp h
          exact List.cons_ne_nil _ _
      | null | bool | int | double | string | array => cases h
  | succ k ih =>
      intro v entry h
      cases v with
      | object members =>
          obtain ⟨e, -, h⟩ := List.mem_flatMap.mp h
          obtain ⟨p, -, rfl⟩ := List.mem_map.mp h
          exact List.cons_ne_nil _ _
      | null | bool | int | double | string | array => cases h

theorem entriesAt_of_not_object {v : Value} (h : v.isObject = false) (k : Nat) :
    entriesAt k v = [] := by
  cases v with
  | object members => cases h
  | null | bool | int | double | string | array => cases k <;> rfl

/-- Nothing is found below a value that is not an object. -/
theorem memberAt_of_not_object {d : Value} (h : d.isObject = false) {path : List Bytes}
    (hpath : path ≠ []) : memberAt path d = none := by
  cases path with
  | nil => exact absurd rfl hpath
  | cons name path =>
      cases d with
      | object members => cases h
      | null | bool | int | double | string | array => rfl

/-- The pairs of the queue `k` levels down ask for the calls that the entries at that
    depth are owed. -/
theorem level_calls (callbacks : List (Bytes × C)) (k : Nat) :
    ∀ (settings : List (Bytes × Value)) (entries : List Entry),
      (level children k [(Value.object settings, entries)]).flatMap (emit callbacks)
        = (entriesAt k (.object (tree entries))).filterMap
            (due callbacks (.object settings)) := by
  induction k with
  | zero =>
      intro settings entries
      show (tree entries).flatMap (calls callbacks settings) ++ []
        = ((tree entries).map fun e => ([e.1], e.2)).filterMap _
      rw [List.append_nil, List.filterMap_map, List.filterMap_eq_flatMap_toList]
      refine List.flatMap_congr fun e _ => ?_
      show calls callbacks settings e
        = (((settings.lookup e.1).bind some).bind fun d =>
            (registered callbacks e.2).map fun c => (c, d)).toList
      rw [calls]
      cases settings.lookup e.1 <;> rfl
  | succ k ih =>
      intro settings entries
      show (level children k (entries.flatMap (below settings) ++ [])).flatMap (emit callbacks)
        = ((tree entries).flatMap fun e =>
            (entriesAt k e.2).map fun p => (e.1 :: p.1, p.2)).filterMap _
      rw [List.append_nil, level_flatMap, List.flatMap_assoc, List.flatMap_assoc, tree,
        List.flatMap_map, List.filterMap_flatMap]
      refine List.flatMap_congr fun e _ => ?_
      rw [List.filterMap_map, below]
      cases hd : settings.lookup e.member.name with
      | none =>
          refine (List.filterMap_eq_nil_iff.mpr fun p _ => ?_).symm
          show ((settings.lookup e.member.name).bind (memberAt p.1)).bind _ = none
          rw [hd]
          rfl
      | some d =>
          have hdue : (due callbacks (.object settings)
              ∘ fun p => (e.member.name :: p.1, p.2)) = due callbacks d := by
            funext p
            show ((settings.lookup e.member.name).bind (memberAt p.1)).bind _ = _
            rw [hd]
            rfl
          rw [hdue]
          by_cases hboth : (e.member.value.isObject && d.isObject) = true
          · obtain ⟨hv, hobj⟩ := Bool.and_eq_true_iff.mp hboth
            obtain ⟨⟨members, hv⟩, settings', rfl⟩ :=
              And.intro (isObject_iff.mp hv) (isObject_iff.mp hobj)
            have hfilter : (some (Value.object settings')).filter
                (fun d => e.member.value.isObject && d.isObject)
                  = some (.object settings') :=
              Option.filter_some_pos hboth
            rw [hfilter, hv, ← tree_below hv]
            show (level children k [(.object settings', e.below)]).flatMap _ ++ [] = _
            rw [List.append_nil, ih]
          · have hfilter : (some d).filter
                (fun d => e.member.value.isObject && d.isObject) = none :=
              Option.filter_some_neg (Bool.eq_false_of_not_eq_true hboth)
            rw [hfilter]
            rw [Bool.and_eq_true, not_and_or, Bool.not_eq_true, Bool.not_eq_true] at hboth
            rcases hboth with hv | hobj
            · rw [entriesAt_of_not_object hv]
              rfl
            · refine (List.filterMap_eq_nil_iff.mpr fun p hp => ?_).symm
              rw [due, memberAt_of_not_object hobj (entriesAt_path hp)]
              rfl

/-- A file whose root is an object is served as it is owed, if the memory of the merged
    tree is there. -/
theorem deploy_object {alive : Nat → Bool} (callbacks : List (Bytes × C))
    (settings : List (Bytes × Value)) {master : List Entry}
    (h : ∀ e ∈ master, e.readable alive = true) :
    deploy alive callbacks (.object settings) master
      = .ok (owed callbacks (.object settings) (.object (tree master))) := by
  have hloop := @loop_levels _ _ _ (visit alive callbacks) (emit callbacks) children
    (Sound alive) (fun p => objects (.object (tree p.2)))
    (fun a ha => visit_sound callbacks ha) (fun a ha => children_sound ha)
    (fun a ha => children_smaller ha) (objects (.object (tree master)))
    [(.object settings, master)] (objects (.object (tree master))) (by
      intro a ha
      rw [List.mem_singleton.mp ha]
      exact ⟨rfl, h⟩) (Nat.le_refl _) (Nat.le_refl _)
  rw [deploy, hloop, results, owed]
  exact congrArg Except.ok (List.flatMap_congr fun k _ => level_calls callbacks k settings master)

/-- A file whose root is something else fails an assertion, unless no module has asked for
    anything. -/
theorem deploy_not_object (alive : Nat → Bool) (callbacks : List (Bytes × C))
    {settings : Value} (h : settings.isObject = false) (e : Entry) (master : List Entry) :
    deploy alive callbacks settings (e :: master) = .error (.assertion .isObject) := by
  have hvisit : visit alive callbacks (settings, e :: master)
      = .error (.assertion .isObject) := by
    rw [visit]
    dsimp only
    rw [List.foldlM_cons, visitMember]
    cases settings with
    | object members => cases h
    | null | bool | int | double | string | array => rfl
  rw [deploy, tree, List.map_cons, objects, loop, hvisit]
  rfl

/-! ## Modules one after another -/

/-- What a module hands in: a document, none if its root is no object, and callbacks by
    handle. -/
structure Request (C : Type) where
  asked : Option (List Member)
  callbacks : List (Bytes × C)

namespace Request

/-- The document before it is merged. -/
def document (r : Request C) : Document :=
  match r.asked with
  | some members => .object (members.map some)
  | none => .other

/-- The document after it has been merged. -/
def emptied (r : Request C) : Document :=
  match r.asked with
  | some members => .object (members.map fun _ => none)
  | none => .other

/-- The members that the module asks for. -/
def entries (r : Request C) (document : Nat) : List Entry :=
  (r.asked.getD []).map fun member => ⟨member, document⟩

/-- Their names and values. -/
def members (r : Request C) : List (Bytes × Value) :=
  (r.asked.getD []).map fun member => (member.name, member.value)

end Request

/-- A manager that has merged these requests, of which each has a document of its own, and
    the documents after that. -/
def mergeAll (requests : List (Request C)) : Except Failure (Manager C × List Document) :=
  requests.foldlM
    (fun s r => (s.1.merge s.2.length r.document r.callbacks).map
      fun s' => (s'.1, s.2 ++ [s'.2])) (.new, [])

/-- A document that was never merged gives up its members one by one. -/
theorem foldlM_addMember (document : Nat) (members : List Member) :
    ∀ master : List Entry, (members.map some).foldlM (addMember document) master
      = .ok (master ++ members.map fun member => ⟨member, document⟩) := by
  induction members with
  | nil =>
      intro master
      show Except.ok master = Except.ok (master ++ [])
      rw [List.append_nil]
  | cons member rest ih =>
      intro master
      rw [List.map_cons, List.foldlM_cons]
      refine (ih _).trans ?_
      rw [List.append_assoc]
      rfl

/-- **ONE MERGE** of a document that has not been merged. -/
theorem merge_request (m : Manager C) (document : Nat) (r : Request C) :
    m.merge document r.document r.callbacks
      = .ok (⟨m.master ++ r.entries document, insertAll m.masterCallbackMap r.callbacks⟩,
          r.emptied) := by
  obtain ⟨asked, callbacks⟩ := r
  cases asked with
  | none =>
      show Except.ok (Manager.mk m.master _, Document.other)
        = Except.ok (Manager.mk (m.master ++ []) _, Document.other)
      rw [List.append_nil]
  | some members =>
      show ((members.map some).foldlM (addMember document) m.master).map _ = _
      rw [foldlM_addMember, List.map_map]
      rfl

/-- A document that has been merged cannot be merged again, unless it had no members. -/
theorem merge_emptied (m : Manager C) (document : Nat) {r : Request C} {member : Member}
    {members : List Member} (h : r.asked = some (member :: members))
    (callbacks : List (Bytes × C)) :
    m.merge document r.emptied callbacks = .error (.assertion .isString) := by
  rw [Request.emptied, h]
  rfl

/-- A handle that is registered keeps its callback. -/
theorem lookup_insertAll (callbacks entries : List (Bytes × C)) (handle : Bytes) :
    (insertAll callbacks entries).lookup handle
      = (callbacks.lookup handle).or (entries.lookup handle) := by
  induction entries generalizing callbacks with
  | nil => exact (Option.or_none ..).symm
  | cons e rest ih =>
      obtain ⟨h, c⟩ := e
      show (insertAll (if (callbacks.lookup h).isSome then callbacks
        else callbacks ++ [(h, c)]) rest).lookup handle = _
      rw [ih, List.lookup_cons]
      by_cases hh : handle = h
      · subst hh
        rw [beq_self_eq_true]
        cases hc : callbacks.lookup handle with
        | some c' =>
            rw [Option.isSome_some, if_pos rfl, hc]
            rfl
        | none =>
            rw [if_neg (by simp), List.lookup_append, hc, List.lookup_cons, beq_self_eq_true]
            rfl
      · rw [beq_eq_false_iff_ne.mpr hh]
        split
        · rfl
        · rw [List.lookup_append, List.lookup_cons, beq_eq_false_iff_ne.mpr hh]
          cases callbacks.lookup handle <;> rfl

/-- What the manager and the documents are after these requests. -/
structure Merged (requests : List (Request C)) (s : Manager C × List Document) : Prop where
  master : s.1.master = requests.zipIdx.flatMap fun r => r.1.entries r.2
  callbacks : ∀ handle, s.1.masterCallbackMap.lookup handle
    = (requests.flatMap Request.callbacks).lookup handle
  documents : s.2 = requests.map Request.emptied

/-- The run: the requests of several modules are merged into one. -/
theorem mergeAll_merged (requests : List (Request C)) :
    ∃ s, mergeAll requests = .ok s ∧ Merged requests s := by
  induction requests using List.reverseRecOn with
  | nil => exact ⟨_, rfl, rfl, fun _ => rfl, rfl⟩
  | append_singleton requests r ih =>
      obtain ⟨s, hs, hmaster, hcallbacks, hdocuments⟩ := ih
      have hlength : s.2.length = requests.length := by
        rw [hdocuments, List.length_map]
      have hstep : (s.1.merge s.2.length r.document r.callbacks).map
          (fun s' => (s'.1, s.2 ++ [s'.2]))
          = .ok (⟨s.1.master ++ r.entries s.2.length,
            insertAll s.1.masterCallbackMap r.callbacks⟩, s.2 ++ [r.emptied]) := by
        rw [merge_request]
        rfl
      refine ⟨(⟨s.1.master ++ r.entries s.2.length,
        insertAll s.1.masterCallbackMap r.callbacks⟩, s.2 ++ [r.emptied]), ?_, ?_, ?_, ?_⟩
      · rw [mergeAll, List.foldlM_append]
        show (mergeAll requests).bind _ = _
        rw [hs]
        exact congrArg (fun step => step.bind Except.ok) hstep
      · show s.1.master ++ _ = _
        rw [hmaster, hlength, List.zipIdx_append, List.flatMap_append, Nat.zero_add]
        exact congrArg _ (List.append_nil _).symm
      · intro handle
        show (insertAll s.1.masterCallbackMap r.callbacks).lookup handle = _
        rw [lookup_insertAll, hcallbacks, List.flatMap_append, List.lookup_append,
          List.flatMap_singleton]
      · show s.2 ++ [r.emptied] = _
        rw [hdocuments, List.map_append]
        rfl

theorem tree_entries (r : Request C) (document : Nat) :
    tree (r.entries document) = r.members := by
  rw [tree, Request.entries, Request.members, List.map_map]
  rfl

/-- The merged tree is made of what the modules ask for. -/
theorem tree_merged {requests : List (Request C)} {s : Manager C × List Document}
    (h : Merged requests s) : tree s.1.master = requests.flatMap Request.members := by
  have hzip : ∀ (requests : List (Request C)) (k : Nat),
      tree ((requests.zipIdx k).flatMap fun r => r.1.entries r.2)
        = requests.flatMap Request.members := by
    intro requests
    induction requests with
    | nil => exact fun _ => rfl
    | cons r rest ih =>
        intro k
        rw [List.zipIdx_cons, List.flatMap_cons, tree, List.map_append, List.flatMap_cons]
        exact congrArg₂ (· ++ ·) (tree_entries r k) (ih (k + 1))
  rw [h.master]
  exact hzip requests 0

/-- The documents that are gone had nothing in their memory. -/
def Kept (alive : Nat → Bool) (requests : List (Request C)) : Prop :=
  ∀ k r members, requests[k]? = some r → r.asked = some members → alive k = false →
    ∀ member ∈ members, member.inPool = false

/-- With every document kept alive the whole merged tree can be read. -/
theorem readable_merged {alive : Nat → Bool} {requests : List (Request C)}
    {s : Manager C × List Document} (hkept : Kept alive requests) (h : Merged requests s) :
    ∀ e ∈ s.1.master, e.readable alive = true := by
  intro e he
  rw [h.master] at he
  obtain ⟨⟨r, k⟩, hr, he⟩ := List.mem_flatMap.mp he
  have hk : requests[k]? = some r := List.mem_zipIdx_iff_getElem?.mp hr
  obtain ⟨member, hmember, rfl⟩ := List.mem_map.mp he
  cases hasked : r.asked with
  | none =>
      rw [hasked] at hmember
      cases hmember
  | some members =>
      rw [hasked] at hmember
      rw [Entry.readable]
      cases halive : alive k with
      | true => exact Bool.or_true _
      | false =>
          rw [hkept k r members hk hasked halive member hmember]
          rfl

theorem registered_congr {callbacks callbacks' : List (Bytes × C)}
    (h : ∀ handle, callbacks.lookup handle = callbacks'.lookup handle) :
    (fun settings => due callbacks settings) = fun settings => due callbacks' settings := by
  have hregistered : registered callbacks = registered callbacks' :=
    funext fun v => congrArg v.asString.bind (funext h)
  funext settings entry
  rw [due, due, hregistered]

/-- **DEPLOYING**: any sequence of documents can be merged, each once; merging one of them
    a second time fails an assertion unless it has no members.  If the documents that are
    gone when a settings file is deployed had nothing in their memory, then it is deployed
    as follows.  Nothing is called without a file, or if it cannot be parsed; an assertion
    fails if the root is not an object although a module has asked for something; and
    otherwise, level by level and in the order in which the modules asked, each leaf that
    the file has a value for at its path is served once, by the callback that was
    registered first under its handle, with that value. -/
theorem deploy_merged (parseJson : Bytes → Option Value) (alive : Nat → Bool)
    (requests : List (Request C)) (content : Option Bytes) (h : Kept alive requests) :
    ∃ m documents, mergeAll requests = .ok (m, documents)
      ∧ m.deployFile parseJson alive content
        = (match content.bind parseJson with
          | none => .ok none
          | some settings =>
              if settings.isObject || (requests.flatMap Request.members).isEmpty then
                .ok (some (owed (requests.flatMap Request.callbacks) settings
                  (.object (requests.flatMap Request.members))))
              else .error (.assertion .isObject))
      ∧ ∀ (k : Nat) (r : Request C), requests[k]? = some r → r.members ≠ [] →
          ∃ document, documents[k]? = some document
            ∧ ∀ (m' : Manager C) (k' : Nat) (callbacks : List (Bytes × C)),
                m'.merge k' document callbacks = .error (.assertion .isString) := by
  obtain ⟨⟨m, documents⟩, hmerge, hmerged⟩ := mergeAll_merged requests
  have htree := tree_merged hmerged
  have hreadable := readable_merged h hmerged
  obtain ⟨-, hlookup, hdocuments⟩ := hmerged
  refine ⟨m, documents, hmerge, ?_, ?_⟩
  · have howed : ∀ settings, owed m.masterCallbackMap settings (.object (tree m.master))
        = owed (requests.flatMap Request.callbacks) settings
            (.object (requests.flatMap Request.members)) := by
      intro settings
      rw [owed, owed, congrFun (registered_congr hlookup) settings, htree]
    rw [Manager.deployFile]
    cases content.bind parseJson with
    | none => rfl
    | some settings =>
        dsimp only
        rw [← howed, ← htree]
        cases hobj : settings.isObject with
        | true =>
            obtain ⟨members, rfl⟩ := isObject_iff.mp hobj
            rw [deploy_object m.masterCallbackMap members hreadable]
            rfl
        | false =>
            cases hmaster : m.master with
            | nil => rfl
            | cons e master =>
                rw [deploy_not_object alive m.masterCallbackMap hobj]
                rfl
  · intro k r hr hne
    have hk : documents[k]? = some r.emptied := by
      rw [show documents = requests.map Request.emptied from hdocuments, List.getElem?_map, hr]
      rfl
    refine ⟨r.emptied, hk, ?_⟩
    intro m' k' callbacks
    cases hasked : r.asked with
    | none =>
        refine absurd ?_ hne
        rw [Request.members, hasked]
        rfl
    | some members =>
        cases members with
        | nil =>
            refine absurd ?_ hne
            rw [Request.members, hasked]
            rfl
        | cons member members => exact merge_emptied m' k' hasked callbacks

/-- A module with a nested document that is there, and one with literals whose document is
    gone. -/
def twoRequests : List (Request Nat) :=
  [⟨some [⟨lit "http", .object [(lit "port", .string (lit "portCB"))], true,
      fun _ _ _ => rfl⟩], [(lit "portCB", 0)]⟩,
    ⟨some [⟨lit "ssh", .string (lit "sshCB"), false, fun _ _ h => by cases h⟩],
      [(lit "sshCB", 1), (lit "portCB", 2)]⟩]

theorem twoRequests_kept : Kept (fun k => k == 0) twoRequests := by
  rintro (_ | _ | k) r members hk hasked halive member hmember
  · cases halive
  · obtain rfl := Option.some.inj hk
    obtain rfl := Option.some.inj hasked
    rw [List.mem_singleton.mp hmember]
  · cases hk

/-- A file that has a value for both. -/
theorem deploy_merged_nested :
    ∃ m documents, mergeAll twoRequests = .ok (m, documents)
      ∧ m.deployFile
          (fun _ => some (.object [(lit "ssh", .bool true),
            (lit "http", .object [(lit "port", .int 8080)])]))
          (fun k => k == 0) (some [])
        = .ok (some [(1, .bool true), (0, .int 8080)]) := by
  obtain ⟨m, documents, hmerge, hdeploy, -⟩ := deploy_merged
    (fun _ => some (.object [(lit "ssh", .bool true),
      (lit "http", .object [(lit "port", .int 8080)])]))
    (fun k => k == 0) twoRequests (some []) twoRequests_kept
  exact ⟨m, documents, hmerge, hdeploy.trans rfl⟩

end SettingsManager
