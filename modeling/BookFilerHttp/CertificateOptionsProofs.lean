import BookFilerHttp.CertificateManagerProofs
import BookFilerHttp.HttpSettingsProofs

/-! # Certificate options: what `ManagerImpl` reads from its documents

    `newCertificate` and `signRequest` take their options from a document and
    write the validity and the subject of a certificate with them.  The model adds
    this reading to the calls of `CertificateManager`, where `loadCertificate`
    already takes its three paths from the settings.

    `lifetimes_iff` says for which `daysValid` the end of the validity is computed
    without overflow.  `readers_typeSafe_iff` is about all readers of documents:
    no accessor is called on a value of another type exactly when the private key
    path, which is tested with the accessor itself, is not of another type. -/

namespace CertificateOptions

open ByteString MachineInt JsonValue HttpSettings CertificateManager

/-! ## Options -/

/-- The options of a certificate with their defaults. -/
structure Options where
  daysValid : Int := 365
  countryStr : Bytes := lit "C"
  companyStr : Bytes := lit "O"
  commonNameStr : Bytes := lit "CN"
  ouStr : Bytes := lit "OU"
  cityStr : Bytes := lit "L"
  stateStr : Bytes := lit "S"

/-- What is written into a certificate with the options: the offsets in seconds
    that `X509_gmtime_adj` gets, and the entries of the subject. -/
structure CertificateFields where
  version : Int
  serialNumber : Int
  notBeforeAdj : Int
  notAfterAdj : Option Int
  subject : List (Bytes × Bytes)

/-- The block of `newCertificate` and `signRequest` that reads the options. -/
def readOptions (optionsDoc : Value) : Except Assertion Options :=
  if optionsDoc.isObject = false then .ok {}
  else do
    let daysValid ← readInt optionsDoc (lit "daysValid")
    let countryStr ← readString optionsDoc (lit "country")
    let companyStr ← readString optionsDoc (lit "company")
    let commonNameStr ← readString optionsDoc (lit "commonName")
    let ouStr ← readString optionsDoc (lit "OU")
    let cityStr ← readString optionsDoc (lit "city")
    let stateStr ← readString optionsDoc (lit "state")
    let o : Options := {}
    return {
      daysValid := daysValid.getD o.daysValid
      countryStr := countryStr.getD o.countryStr
      companyStr := companyStr.getD o.companyStr
      commonNameStr := commonNameStr.getD o.commonNameStr
      ouStr := ouStr.getD o.ouStr
      cityStr := cityStr.getD o.cityStr
      stateStr := stateStr.getD o.stateStr }

namespace Options

/-- `daysValid * 24 * 3600` on `int`s; none when a product overflows. -/
def lifetime (o : Options) : Option Int :=
  (checked 32 (o.daysValid * 24)).bind fun hours => checked 32 (hours * 3600)

/-- The block that writes the validity and the subject. -/
def fields (o : Options) (version serialNumber : Int) : CertificateFields where
  version := version
  serialNumber := serialNumber
  notBeforeAdj := 0
  notAfterAdj := o.lifetime
  subject := [(lit "C", o.countryStr), (lit "O", o.companyStr), (lit "CN", o.commonNameStr),
    (lit "OU", o.ouStr), (lit "L", o.cityStr), (lit "S", o.stateStr)]

end Options

/-! ## The calls with their documents -/

/-- `newCertificate`: what was written, unless a key generation failed before. -/
def newCertificate (optionsDoc : Value) (s : ManagerImpl) (certPtr : Nat)
    (rsa dh sign : Int) :
    Except Assertion ((Int × ManagerImpl) × Option CertificateFields) := do
  let o ← readOptions optionsDoc
  let r := s.newCertificate certPtr rsa dh sign
  return (r, if r.1 < 0 then none else some (o.fields 2 5))

/-- `signRequest`: what was written, unless there is no certificate. -/
def signRequest (optionsDoc : Value) (s : ManagerImpl) (certPtr certCAPtr : Option Nat)
    (sign : Int) : Except Assertion (Result × Option CertificateFields) := do
  let o ← readOptions optionsDoc
  return (s.signRequest certPtr certCAPtr sign, certPtr.map fun _ => o.fields 3 1024)

/-! ## What the options are -/

/-- The options an object configures. -/
def optionsOf (members : List (Bytes × Value)) : Options where
  daysValid := ((view members (lit "daysValid") .int).bind Value.asInt).getD 365
  countryStr := ((view members (lit "country") .string).bind Value.asString).getD (lit "C")
  companyStr := ((view members (lit "company") .string).bind Value.asString).getD (lit "O")
  commonNameStr :=
    ((view members (lit "commonName") .string).bind Value.asString).getD (lit "CN")
  ouStr := ((view members (lit "OU") .string).bind Value.asString).getD (lit "OU")
  cityStr := ((view members (lit "city") .string).bind Value.asString).getD (lit "L")
  stateStr := ((view members (lit "state") .string).bind Value.asString).getD (lit "S")

/-- The options of an object are read member by member. -/
theorem readOptions_object (members : List (Bytes × Value)) :
    readOptions (.object members) = .ok (optionsOf members) := by
  rw [readOptions, if_neg (fun h => Bool.noConfusion h)]
  simp only [readString_object, readInt_object]
  rfl

/-- A document that is no object leaves the defaults. -/
theorem readOptions_of_not_object {doc : Value} (h : doc.isObject = false) :
    readOptions doc = .ok {} := if_pos h

/-- The lifetime in days that a document asks for. -/
def daysOf : Value → Int
  | .object members => ((members.lookup (lit "daysValid")).bind Value.asInt).getD 365
  | _ => 365

/-- **SPECIFICATION**: the options are always read, and their lifetime is the
    configured one. -/
theorem readOptions_eq (doc : Value) :
    ∃ o, readOptions doc = .ok o ∧ o.daysValid = daysOf doc := by
  cases doc with
  | object members =>
      refine ⟨optionsOf members, readOptions_object members, ?_⟩
      show ((view members (lit "daysValid") .int).bind Value.asInt).getD 365 = _
      rw [view_bind_asInt]
      rfl
  | null | bool | int | double | string | array => exact ⟨{}, rfl, rfl⟩

/-! ## Lifetimes -/

/-- The fields are written by one of the two calls with the options document. -/
inductive Writes (doc : Value) (f : CertificateFields) : Prop
  | newCertificate {s : ManagerImpl} {certPtr : Nat} {rsa dh sign : Int}
      {r : Int × ManagerImpl} :
      newCertificate doc s certPtr rsa dh sign = .ok (r, some f) → Writes doc f
  | signRequest {s : ManagerImpl} {certPtr certCAPtr : Option Nat} {sign : Int}
      {r : Result} :
      signRequest doc s certPtr certCAPtr sign = .ok (r, some f) → Writes doc f

/-- The lengths of a lifetime in days whose seconds fit into an `int`. -/
def ShortLived (days : Int) : Prop := -24855 ≤ days ∧ days ≤ 24855

/-- One product stands for the two of the source. -/
theorem lifetime_eq (o : Options) : o.lifetime = checked 32 (o.daysValid * 86400) := by
  rw [Options.lifetime, checked_bind_mul (by decide), Int.mul_assoc]
  rfl

/-- The seconds of a lifetime fit exactly when it is short. -/
theorem lifetime_eq_some (o : Options) :
    o.lifetime = some (o.daysValid * 86400) ↔ ShortLived o.daysValid := by
  rw [lifetime_eq, checked_eq_some, and_iff_left rfl]
  constructor
  · rintro ⟨hlow, hhigh⟩
    have hlow' : -(2 ^ 31) ≤ o.daysValid * 86400 := hlow
    have hhigh' : o.daysValid * 86400 < 2 ^ 31 := hhigh
    exact ⟨by omega, by omega⟩
  · rintro ⟨hlow, hhigh⟩
    refine ⟨?_, ?_⟩
    · show -(2 ^ 31) ≤ o.daysValid * 86400
      omega
    · show o.daysValid * 86400 < 2 ^ 31
      omega

/-- Whatever is written was made of the options of the document. -/
theorem writes_fields {doc : Value} {f : CertificateFields} (h : Writes doc f) :
    ∃ (o : Options) (version serialNumber : Int), o.daysValid = daysOf doc
      ∧ f = o.fields version serialNumber := by
  obtain ⟨o, ho, hdays⟩ := readOptions_eq doc
  cases h with
  | @newCertificate s certPtr rsa dh sign r hcall =>
      rw [newCertificate, ho] at hcall
      injection hcall with hpair
      obtain ⟨-, hf⟩ := Prod.mk.inj hpair
      by_cases hneg : (s.newCertificate certPtr rsa dh sign).1 < 0
      · rw [if_pos hneg] at hf
        cases hf
      · rw [if_neg hneg] at hf
        exact ⟨o, 2, 5, hdays, (Option.some.inj hf).symm⟩
  | signRequest hcall =>
      rw [signRequest, ho] at hcall
      injection hcall with hpair
      obtain ⟨-, hf⟩ := Prod.mk.inj hpair
      obtain ⟨p, -, rfl⟩ := Option.map_eq_some_iff.mp hf
      exact ⟨o, 3, 1024, hdays, rfl⟩

/-- The end of the validity is the configured number of days after now. -/
def LivesFor (f : CertificateFields) (days : Int) : Prop :=
  f.notAfterAdj = some (days * 86400)

/-- **LIFETIMES**: the offset is exact for the short lifetimes and for no others;
    among them a positive one ends after it begins and a longer one never ends
    earlier. -/
theorem lifetimes_iff {doc doc' : Value} {f f' : CertificateFields}
    (h : Writes doc f) (h' : Writes doc' f') :
    (LivesFor f (daysOf doc) ↔ ShortLived (daysOf doc))
      ∧ (ShortLived (daysOf doc) → 0 < daysOf doc →
          ∃ n, f.notAfterAdj = some n ∧ f.notBeforeAdj < n)
      ∧ (ShortLived (daysOf doc) → ShortLived (daysOf doc') → daysOf doc ≤ daysOf doc' →
          ∃ n n', f.notAfterAdj = some n ∧ f'.notAfterAdj = some n' ∧ n ≤ n') := by
  obtain ⟨o, v, k, hdays, rfl⟩ := writes_fields h
  obtain ⟨o', v', k', hdays', rfl⟩ := writes_fields h'
  have hexact : ∀ o : Options, ShortLived o.daysValid →
      o.lifetime = some (o.daysValid * 86400) :=
    fun o ho => (lifetime_eq_some o).mpr ho
  rw [← hdays, ← hdays']
  refine ⟨lifetime_eq_some o, ?_, ?_⟩
  · intro hshort hpos
    refine ⟨o.daysValid * 86400, hexact o hshort, ?_⟩
    show 0 < o.daysValid * 86400
    omega
  · intro hshort hshort' hle
    exact ⟨_, _, hexact o hshort, hexact o' hshort', by omega⟩

/-- `{"daysValid": days}`. -/
def daysDoc (days : Int) : Value := .object [(lit "daysValid", .int days)]

theorem newCertificate_daysDoc {days : Int} (h : Fits 32 days) :
    Writes (daysDoc days) (Options.fields { daysValid := days } 2 5) := by
  have hopts : readOptions (daysDoc days) = .ok { daysValid := days } := by
    have hday : Value.asInt (.int days) = some days := if_pos h
    rw [daysDoc, readOptions_object, optionsOf, view_bind_asInt]
    show Except.ok (Options.mk (((some (Value.int days)).bind Value.asInt).getD 365)
      _ _ _ _ _ _) = _
    rw [Option.bind_some, hday]
    rfl
  have hcall : newCertificate (daysDoc days) .fresh 0 1 1 1
      = .ok (ManagerImpl.fresh.newCertificate 0 1 1 1,
        some (Options.fields { daysValid := days } 2 5)) := by
    rw [newCertificate, hopts]
    rfl
  exact Writes.newCertificate hcall

theorem lifetimes_of_leap_year :
    (LivesFor (Options.fields { daysValid := 366 } 2 5) (daysOf (daysDoc 366))
        ↔ ShortLived (daysOf (daysDoc 366)))
      ∧ (ShortLived (daysOf (daysDoc 366)) → 0 < daysOf (daysDoc 366) →
          ∃ n, (Options.fields { daysValid := 366 } 2 5).notAfterAdj = some n
            ∧ (Options.fields { daysValid := 366 } 2 5).notBeforeAdj < n)
      ∧ (ShortLived (daysOf (daysDoc 366)) → ShortLived (daysOf (daysDoc 3660)) →
          daysOf (daysDoc 366) ≤ daysOf (daysDoc 3660) →
          ∃ n n', (Options.fields { daysValid := 366 } 2 5).notAfterAdj = some n
            ∧ (Options.fields { daysValid := 3660 } 2 5).notAfterAdj = some n'
            ∧ n ≤ n') :=
  lifetimes_iff (newCertificate_daysDoc (by decide)) (newCertificate_daysDoc (by decide))

/-- A lifetime of a hundred years overflows. -/
theorem daysDoc_overflows :
    ¬ ∀ doc f, Writes doc f → LivesFor f (daysOf doc) := by
  intro h
  have hlives := h (daysDoc 36500) _ (newCertificate_daysDoc (by decide))
  have hnone : (Options.fields { daysValid := 36500 } 2 5).notAfterAdj = none := by rfl
  rw [LivesFor, hnone] at hlives
  cases hlives

/-! ## Type safety -/

def optionFields : List (Bytes × Kind) :=
  [(lit "daysValid", .int), (lit "country", .string), (lit "company", .string),
    (lit "commonName", .string), (lit "OU", .string), (lit "city", .string),
    (lit "state", .string)]

def loadFields : List (Bytes × Kind) :=
  [(lit "certPath", .string), (lit "privateKeyPath", .string), (lit "dhKeyPath", .string)]

/-- Reading options tests each member before it is used. -/
theorem readOptions_typeSafe (doc : Value) :
    TypeSafe readOptions (optionFields.map fun field => ([field.1], field.2)) doc := by
  by_cases hdoc : doc.isObject = false
  · exact typeSafe_of_not_object (readOptions_of_not_object hdoc) hdoc
  · cases doc with
    | object members =>
        refine typeSafe_of_cleaner (r := optionsOf members) (by decide) ?_
        intro members' hclean
        simp only [optionFields, Cleaner, List.forall_mem_cons] at hclean
        rw [readOptions_object]
        simp only [optionsOf, hclean]
    | null | bool | int | double | string | array => exact (hdoc rfl).elim

/-- What a type-safe reader reads may be used in any way. -/
theorem typeSafe_map {ρ τ : Type} {reader : Value → Except Assertion ρ}
    {fields : List (List Bytes × Kind)} {doc : Value} (h : TypeSafe reader fields doc)
    (f : ρ → τ) : TypeSafe (fun doc => (reader doc).map f) fields doc := by
  obtain ⟨⟨r, hr⟩, habsent⟩ := h
  refine ⟨⟨f r, ?_⟩, ?_⟩
  · show (reader doc).map f = _
    rw [hr]
    rfl
  intro field hfield hmis
  show (reader doc).map f = (reader (absent field.1 doc)).map f
  rw [habsent field hfield hmis]

theorem newCertificate_typeSafe (s : ManagerImpl) (certPtr : Nat) (rsa dh sign : Int)
    (doc : Value) :
    TypeSafe (fun doc => newCertificate doc s certPtr rsa dh sign)
      (optionFields.map fun field => ([field.1], field.2)) doc :=
  typeSafe_map (readOptions_typeSafe doc) _

theorem signRequest_typeSafe (s : ManagerImpl) (certPtr certCAPtr : Option Nat)
    (sign : Int) (doc : Value) :
    TypeSafe (fun doc => signRequest doc s certPtr certCAPtr sign)
      (optionFields.map fun field => ([field.1], field.2)) doc :=
  typeSafe_map (readOptions_typeSafe doc) _

/-- So does reading the paths, unless the one that is not tested is mistyped. -/
theorem readPaths_typeSafe {members : List (Bytes × Value)}
    (h : ¬ Mistyped [lit "privateKeyPath"] .string (.object members)) :
    TypeSafe readPaths (loadFields.map fun field => ([field.1], field.2))
      (.object members) := by
  refine typeSafe_of_cleaner (r := pathsOf members) (by decide) ?_
  intro members' hclean
  simp only [loadFields, Cleaner, List.forall_mem_cons] at hclean
  have h' : ¬ Mistyped [lit "privateKeyPath"] .string (.object members') :=
    fun hmis => h (hclean.2.1.2 hmis)
  rw [readPaths_of_not_mistyped h']
  simp only [pathsOf, hclean]

theorem loadCertificate_typeSafe (files : Files) (s : ManagerImpl) (certPtr : Nat)
    {doc : Value} (h : ¬ Mistyped [lit "server", lit "privateKeyPath"] .string doc) :
    TypeSafe (fun doc => s.loadCertificateFrom files doc certPtr) (serverPaths loadFields)
      doc := by
  refine withServer_typeSafe ?_
  intro members hs
  have hkey : ¬ Mistyped [lit "privateKeyPath"] .string (.object members) :=
    fun hmis => h (mistyped_server.mpr ⟨members, hs, hmis⟩)
  exact typeSafe_map (readPaths_typeSafe hkey) _

/-- The member that is tested with its own accessor is of another type. -/
theorem loadCertificate_mistyped (files : Files) (s : ManagerImpl) (certPtr : Nat)
    {doc : Value} (h : Mistyped [lit "server", lit "privateKeyPath"] .string doc) :
    s.loadCertificateFrom files doc certPtr = .error .isString := by
  rcases loadCertificateFrom_eq s files doc certPtr with ⟨-, herr⟩ | ⟨hmis, -⟩
  · exact herr
  · exact absurd h hmis

/-- All five readers of documents are type-safe on the document, whatever state
    they run on. -/
structure ReadersTypeSafe (Address : Type) (doc : Value) : Prop where
  extractSettings : ∀ (makeAddress : Bytes → Option Address) (s : ServerState Address),
    TypeSafe (fun doc => extractSettings makeAddress doc s) (serverPaths extractFields) doc
  loadSettingsDoc : ∀ c : ClientSettings,
    TypeSafe (fun doc => loadSettingsDoc doc c)
      (clientFields.map fun field => ([field.1], field.2)) doc
  newCertificate : ∀ (s : ManagerImpl) (certPtr : Nat) (rsa dh sign : Int),
    TypeSafe (fun doc => newCertificate doc s certPtr rsa dh sign)
      (optionFields.map fun field => ([field.1], field.2)) doc
  signRequest : ∀ (s : ManagerImpl) (certPtr certCAPtr : Option Nat) (sign : Int),
    TypeSafe (fun doc => signRequest doc s certPtr certCAPtr sign)
      (optionFields.map fun field => ([field.1], field.2)) doc
  loadCertificate : ∀ (files : Files) (s : ManagerImpl) (certPtr : Nat),
    TypeSafe (fun doc => s.loadCertificateFrom files doc certPtr) (serverPaths loadFields)
      doc

/-- **READERS**: no reader of a document calls an accessor on a value of another
    type, and each treats such a member as absent, exactly when the private key path
    is not a member of another type. -/
theorem readers_typeSafe_iff (Address : Type) (doc : Value) :
    ReadersTypeSafe Address doc
      ↔ ¬ Mistyped [lit "server", lit "privateKeyPath"] .string doc := by
  constructor
  · intro h hmis
    obtain ⟨⟨r, hr⟩, -⟩ := h.loadCertificate ⟨fun _ => true, fun _ => true, fun _ => true⟩
      .fresh 0
    have hassert := loadCertificate_mistyped ⟨fun _ => true, fun _ => true, fun _ => true⟩
      .fresh 0 hmis
    cases hassert.symm.trans hr
  · intro h
    exact {
      extractSettings := fun makeAddress s => extractSettings_typeSafe makeAddress s doc
      loadSettingsDoc := fun c => loadSettingsDoc_typeSafe c doc
      newCertificate := fun s certPtr rsa dh sign =>
        newCertificate_typeSafe s certPtr rsa dh sign doc
      signRequest := fun s certPtr certCAPtr sign =>
        signRequest_typeSafe s certPtr certCAPtr sign doc
      loadCertificate := fun files s certPtr => loadCertificate_typeSafe files s certPtr h }

/-- `{"server": {"privateKeyPath": 5}}`. -/
def numberedKeyDoc : Value :=
  .object [(lit "server", .object [(lit "privateKeyPath", .int 5)])]

/-- A private key path that is a number ends the program. -/
theorem numberedKeyDoc_asserts :
    (ManagerImpl.fresh.loadCertificateFrom ⟨fun _ => true, fun _ => true, fun _ => true⟩
        numberedKeyDoc 0 = .error .isString)
      ∧ ¬ ∀ doc, ReadersTypeSafe Unit doc := by
  have hassert : ManagerImpl.fresh.loadCertificateFrom
      ⟨fun _ => true, fun _ => true, fun _ => true⟩ numberedKeyDoc 0
        = .error .isString := by rfl
  refine ⟨hassert, ?_⟩
  intro h
  obtain ⟨⟨r, hr⟩, -⟩ := (h numberedKeyDoc).loadCertificate
    ⟨fun _ => true, fun _ => true, fun _ => true⟩ .fresh 0
  cases hassert.symm.trans hr

end CertificateOptions
