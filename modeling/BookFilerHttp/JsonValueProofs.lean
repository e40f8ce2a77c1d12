import BookFilerHttp.ByteStringProofs
import BookFilerHttp.MachineIntProofs

/-! # JSON values and their accessors

    A parsed JSON document with the accessors of the JSON library.  An accessor
    asserts that the value has the type it reads, so a call on another type ends
    the program: here it is an error of type `Assertion`.

    `readMember` is the guarded reading of one member that all readers of
    settings are made of, and `readMember_object` its specification: on an object
    it never asserts, and a member of another type is as good as none
    (`view_absent`).  `TypeSafe` says both for a whole reader. -/

namespace JsonValue

open ByteString MachineInt

/-- A JSON value.  The members of an object are kept in order, and a name may
    occur twice. -/
inductive Value where
  | null
  | bool (b : Bool)
  | int (n : Int)
  | double (mantissa exponent : Int)
  | string (s : Bytes)
  | array (items : List Value)
  | object (members : List (Bytes × Value))

/-- What the accessors assert. -/
inductive Assertion where
  | isObject
  | memberFound
  | isBool
  | isInt
  | isString
deriving DecidableEq

/-! ## Accessors -/

namespace Value

def isObject : Value → Bool
  | .object _ => true
  | _ => false

def isBool : Value → Bool
  | .bool _ => true
  | _ => false

/-- An integer that fits into 32 bits. -/
def isInt : Value → Bool
  | .int n => decide (Fits 32 n)
  | _ => false

def isString : Value → Bool
  | .string _ => true
  | _ => false

/-- The first member of the name. -/
def findMember (v : Value) (name : Bytes) : Except Assertion (Option Value) :=
  match v with
  | .object members => .ok (members.lookup name)
  | _ => .error .isObject

def hasMember (v : Value) (name : Bytes) : Except Assertion Bool :=
  (v.findMember name).map Option.isSome

/-- `operator[]`. -/
def index (v : Value) (name : Bytes) : Except Assertion Value :=
  match v.findMember name with
  | .ok (some m) => .ok m
  | .ok none => .error .memberFound
  | .error a => .error a

def getBool : Value → Except Assertion Bool
  | .bool b => .ok b
  | _ => .error .isBool

def getInt : Value → Except Assertion Int
  | .int n => if Fits 32 n then .ok n else .error .isInt
  | _ => .error .isInt

/-- A C string, so what is made of it ends at the first NUL. -/
def getString : Value → Except Assertion Bytes
  | .string s => .ok (s.takeWhile (· != 0))
  | _ => .error .isString

/-- The value behind an accessor, none where the accessor asserts. -/
def asBool : Value → Option Bool
  | .bool b => some b
  | _ => none

def asInt : Value → Option Int
  | .int n => checked 32 n
  | _ => none

def asString : Value → Option Bytes
  | .string s => some (s.takeWhile (· != 0))
  | _ => none

end Value

/-- `v.HasMember(name) && v[name].IsX() ? v[name].GetX() : nothing`. -/
def readMember {α : Type} (isX : Value → Bool) (getX : Value → Except Assertion α)
    (v : Value) (name : Bytes) : Except Assertion (Option α) := do
  match ← v.hasMember name with
  | true =>
      if isX (← v.index name) then some <$> getX (← v.index name) else pure none
  | false => pure none

def readBool (v : Value) (name : Bytes) : Except Assertion (Option Bool) :=
  readMember Value.isBool Value.getBool v name

def readInt (v : Value) (name : Bytes) : Except Assertion (Option Int) :=
  readMember Value.isInt Value.getInt v name

def readString (v : Value) (name : Bytes) : Except Assertion (Option Bytes) :=
  readMember Value.isString Value.getString v name

/-! ## Guarded reading -/

/-- The types the readers ask for. -/
inductive Kind where
  | object
  | bool
  | int
  | string

def Value.isKind (v : Value) : Kind → Bool
  | .object => v.isObject
  | .bool => v.isBool
  | .int => v.isInt
  | .string => v.isString

/-- The member of a name, none when it has another type. -/
def view (members : List (Bytes × Value)) (name : Bytes) (kind : Kind) : Option Value :=
  (members.lookup name).filter (fun m => m.isKind kind)

theorem hasMember_object (members : List (Bytes × Value)) (name : Bytes) :
    (Value.object members).hasMember name = .ok (members.lookup name).isSome := rfl

/-- A subscript finds the member that is there. -/
theorem index_object {members : List (Bytes × Value)} {name : Bytes} {m : Value}
    (h : members.lookup name = some m) : (Value.object members).index name = .ok m := by
  simp only [Value.index, Value.findMember, h]

/-- **GUARDED READING**: when the test implies the precondition of the accessor,
    reading a member of an object asserts nothing and gives the member, or none
    when it is missing or has another type. -/
theorem readMember_object {α : Type} {isX : Value → Bool}
    {getX : Value → Except Assertion α} {asX : Value → Option α}
    (hguard : ∀ m, isX m = true → ∃ a, getX m = .ok a ∧ asX m = some a)
    (members : List (Bytes × Value)) (name : Bytes) :
    readMember isX getX (.object members) name
      = .ok (((members.lookup name).filter isX).bind asX) := by
  rw [readMember, hasMember_object]
  cases hm : members.lookup name with
  | none => rfl
  | some m =>
      show (do if isX (← (Value.object members).index name) then
          some <$> getX (← (Value.object members).index name) else pure none) = _
      rw [index_object hm]
      show (if isX m = true then some <$> getX m else pure none) = _
      cases hx : isX m with
      | false =>
          rw [Option.filter_some_neg (by rw [hx])]
          rfl
      | true =>
          obtain ⟨a, hget, has⟩ := hguard m hx
          rw [Option.filter_some_pos hx, if_pos rfl, hget, Option.bind_some, has]
          rfl

/-- Read from an object, a boolean is the view of its member. -/
theorem readBool_object (members : List (Bytes × Value)) (name : Bytes) :
    readBool (.object members) name
      = .ok ((view members name .bool).bind Value.asBool) := by
  refine readMember_object ?_ members name
  intro m hm
  cases m <;> first | exact ⟨_, rfl, rfl⟩ | cases hm

/-- Read from an object, a string is the view of its member. -/
theorem readString_object (members : List (Bytes × Value)) (name : Bytes) :
    readString (.object members) name
      = .ok ((view members name .string).bind Value.asString) := by
  refine readMember_object ?_ members name
  intro m hm
  cases m <;> first | exact ⟨_, rfl, rfl⟩ | cases hm

/-- Read from an object, a number is the view of its member. -/
theorem readInt_object (members : List (Bytes × Value)) (name : Bytes) :
    readInt (.object members) name
      = .ok ((view members name .int).bind Value.asInt) := by
  refine readMember_object ?_ members name
  intro m hm
  cases m with
  | int n =>
      have hfits : Fits 32 n := of_decide_eq_true hm
      exact ⟨n, if_pos hfits, if_pos hfits⟩
  | null | bool | double | string | array | object => cases hm

/-- An accessor that gives nothing for other types needs no view. -/
theorem view_bind {α : Type} {kind : Kind} {asX : Value → Option α}
    (h : ∀ m, m.isKind kind = false → asX m = none) (members : List (Bytes × Value))
    (name : Bytes) :
    (view members name kind).bind asX = (members.lookup name).bind asX := by
  rw [view]
  cases members.lookup name with
  | none => rfl
  | some m =>
      cases hm : m.isKind kind with
      | true => rw [Option.filter_some_pos (p := fun v : Value => v.isKind kind) hm]
      | false =>
          rw [Option.filter_some_neg (p := fun v : Value => v.isKind kind) hm]
          exact (h m hm).symm

theorem view_bind_asInt (members : List (Bytes × Value)) (name : Bytes) :
    (view members name .int).bind Value.asInt
      = (members.lookup name).bind Value.asInt := by
  refine view_bind ?_ members name
  intro m hm
  cases m with
  | int n => exact if_neg (of_decide_eq_false hm)
  | null | bool | double | string | array | object => rfl

theorem view_bind_asString (members : List (Bytes × Value)) (name : Bytes) :
    (view members name .string).bind Value.asString
      = (members.lookup name).bind Value.asString := by
  refine view_bind ?_ members name
  intro m hm
  cases m with
  | string s => cases hm
  | null | bool | int | double | array | object => rfl

/-! ## Members of another type -/

/-- The value at a path of member names. -/
def memberAt : List Bytes → Value → Option Value
  | [], v => some v
  | name :: path, .object members => (members.lookup name).bind (memberAt path)
  | _ :: _, _ => none

/-- The document without the members at a path. -/
def absent : List Bytes → Value → Value
  | [name], .object members => .object (members.filter (fun m => m.1 != name))
  | name :: path, .object members =>
      .object (members.map (fun m => if m.1 = name then (m.1, absent path m.2) else m))
  | _, v => v

/-- There is a member at the path, and it is of another type. -/
def Mistyped (path : List Bytes) (kind : Kind) (v : Value) : Prop :=
  ∃ m, memberAt path v = some m ∧ m.isKind kind = false

/-- A reader of the given members asserts nothing on the document, and does as if
    there were no member where there is one of another type. -/
def TypeSafe {ρ : Type} (reader : Value → Except Assertion ρ)
    (fields : List (List Bytes × Kind)) (doc : Value) : Prop :=
  (∃ r, reader doc = .ok r)
    ∧ ∀ field ∈ fields, Mistyped field.1 field.2 doc →
        reader doc = reader (absent field.1 doc)

theorem lookup_cons_ite (key : Bytes) (v : Value) (rest : List (Bytes × Value))
    (other : Bytes) :
    ((key, v) :: rest).lookup other
      = if other = key then some v else rest.lookup other := by
  rw [List.lookup_cons]
  by_cases h : other = key
  · rw [beq_iff_eq.mpr h, if_pos h]
  · rw [beq_eq_false_iff_ne.mpr h, if_neg h]

/-- Taking a name out of an object hides it and nothing else. -/
theorem lookup_filter (members : List (Bytes × Value)) (name other : Bytes) :
    (members.filter (fun m => m.1 != name)).lookup other
      = if other = name then none else members.lookup other := by
  induction members with
  | nil => by_cases h : other = name <;> simp [h]
  | cons m rest ih =>
      obtain ⟨key, v⟩ := m
      rw [lookup_cons_ite]
      by_cases hk : key = name
      · subst hk
        rw [List.filter_cons_of_neg (by simp), ih]
        by_cases ho : other = key
        · rw [if_pos ho, if_pos ho]
        · rw [if_neg ho, if_neg ho, if_neg ho]
      · rw [List.filter_cons_of_pos (by simpa using hk), lookup_cons_ite, ih]
        by_cases ho : other = key
        · have hne : ¬ other = name := fun h => hk (ho.symm.trans h)
          rw [if_pos ho, if_neg hne, if_pos ho]
        · rw [if_neg ho, if_neg ho]

/-- A change of the values of one name changes what is found under that name. -/
theorem lookup_map (f : Value → Value) (members : List (Bytes × Value))
    (name other : Bytes) :
    (members.map (fun m => if m.1 = name then (m.1, f m.2) else m)).lookup other
      = if other = name then (members.lookup other).map f else members.lookup other := by
  induction members with
  | nil => by_cases h : other = name <;> simp [h]
  | cons m rest ih =>
      obtain ⟨key, v⟩ := m
      have hhead : (if key = name then (key, f v) else (key, v))
          = (key, if key = name then f v else v) := by
        by_cases hk : key = name
        · rw [if_pos hk, if_pos hk]
        · rw [if_neg hk, if_neg hk]
      rw [List.map_cons]
      show List.lookup other ((if key = name then (key, f v) else (key, v)) :: _) = _
      rw [hhead, lookup_cons_ite, lookup_cons_ite, ih]
      by_cases ho : other = key
      · rw [if_pos ho, if_pos ho, ho]
        by_cases hk : key = name
        · rw [if_pos hk, if_pos hk]
          rfl
        · rw [if_neg hk, if_neg hk]
      · rw [if_neg ho, if_neg ho]

/-- **ABSENT**: whoever looks at a member through its type does not see whether a
    member of another type is there. -/
theorem view_absent {members : List (Bytes × Value)} {name : Bytes} {kind : Kind}
    (h : Mistyped [name] kind (.object members)) {other : Bytes} {kind' : Kind}
    (hkind : other = name → kind' = kind) :
    view (members.filter (fun m => m.1 != name)) other kind'
      = view members other kind' := by
  rw [view, view, lookup_filter]
  by_cases ho : other = name
  · obtain ⟨m, hm, hneg⟩ := h
    have hlookup : members.lookup other = some m := by
      rw [ho]
      obtain ⟨m', hm', hmm⟩ := Option.bind_eq_some_iff.mp hm
      rw [hm', ← Option.some.inj hmm]
    rw [if_pos ho, hlookup, hkind ho]
    exact (Option.filter_some_neg (p := fun v : Value => v.isKind kind) hneg).symm
  · rw [if_neg ho]

/-- The members `members'` look the same through the fields as `members` do, and no
    field of theirs is of another type unless it is in `members`. -/
def Cleaner (fields : List (Bytes × Kind)) (members' members : List (Bytes × Value)) :
    Prop :=
  ∀ field ∈ fields, view members' field.1 field.2 = view members field.1 field.2
    ∧ (Mistyped [field.1] field.2 (.object members') →
        Mistyped [field.1] field.2 (.object members))

/-- A document is as clean as itself. -/
theorem cleaner_refl (fields : List (Bytes × Kind)) (members : List (Bytes × Value)) :
    Cleaner fields members members := fun _ _ => ⟨rfl, id⟩

theorem mistyped_single {name : Bytes} {kind : Kind} {members : List (Bytes × Value)} :
    Mistyped [name] kind (.object members)
      ↔ ∃ m, members.lookup name = some m ∧ m.isKind kind = false := by
  constructor
  · rintro ⟨m, hm, hkind⟩
    obtain ⟨m', hm', heq⟩ := Option.bind_eq_some_iff.mp hm
    exact ⟨m, by rw [hm', ← Option.some.inj heq], hkind⟩
  · rintro ⟨m, hm, hkind⟩
    exact ⟨m, by rw [memberAt, hm]; rfl, hkind⟩

/-- Leaving out a field of another type is cleaner. -/
theorem cleaner_filter {fields : List (Bytes × Kind)}
    (hnames : (fields.map Prod.fst).Nodup) {members : List (Bytes × Value)}
    {field : Bytes × Kind} (hfield : field ∈ fields)
    (h : Mistyped [field.1] field.2 (.object members)) :
    Cleaner fields (members.filter (fun m => m.1 != field.1)) members := by
  intro other hother
  constructor
  · refine view_absent h ?_
    intro hname
    rw [List.inj_on_of_nodup_map hnames hother hfield hname]
  · intro hmis
    obtain ⟨m, hm, hkind⟩ := mistyped_single.mp hmis
    rw [lookup_filter] at hm
    by_cases hname : other.1 = field.1
    · rw [if_pos hname] at hm
      cases hm
    · rw [if_neg hname] at hm
      exact mistyped_single.mpr ⟨m, hm, hkind⟩

/-- A reader that only looks through its fields is type-safe. -/
theorem typeSafe_of_cleaner {ρ : Type} {reader : Value → Except Assertion ρ}
    {fields : List (Bytes × Kind)} (hnames : (fields.map Prod.fst).Nodup)
    {members : List (Bytes × Value)} {r : ρ}
    (h : ∀ members', Cleaner fields members' members → reader (.object members') = .ok r) :
    TypeSafe reader (fields.map fun field => ([field.1], field.2)) (.object members) := by
  have hself := h members (cleaner_refl fields members)
  refine ⟨⟨r, hself⟩, ?_⟩
  intro field hfield hmis
  obtain ⟨field', hfield', rfl⟩ := List.mem_map.mp hfield
  exact hself.trans (h _ (cleaner_filter hnames hfield' hmis)).symm

/-- Of a document that is no object no member is read. -/
theorem typeSafe_of_not_object {ρ : Type} {reader : Value → Except Assertion ρ}
    {fields : List (Bytes × Kind)} {doc : Value} {r : ρ} (h : reader doc = .ok r)
    (hdoc : doc.isObject = false) :
    TypeSafe reader (fields.map fun field => ([field.1], field.2)) doc := by
  refine ⟨⟨r, h⟩, ?_⟩
  intro field hfield hmis
  obtain ⟨field', -, rfl⟩ := List.mem_map.mp hfield
  obtain ⟨m, hm, -⟩ := hmis
  cases doc with
  | object members => cases hdoc
  | null | bool | int | double | string | array => cases hm

end JsonValue
