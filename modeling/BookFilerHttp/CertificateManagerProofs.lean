import BookFilerHttp.HttpSettingsProofs
import BookFilerHttp.RunsProofs

/-! # Certificates: `ManagerImpl`

    A manager generates keys, signs certificates and keeps two of them in member
    pointers.  Certificate objects live on a heap and are shared, so signing one
    writes it in place for everyone who holds it.  Every library call comes with
    its outcome, a number that is positive on success; the code tests for negative
    numbers.  Documents come as pointers that may be null, and no one asks before
    they are dereferenced.

    `keeps_iff` says along which sequences of calls every call publishes only
    certificates whose keys and signatures were made, and the server certificate
    always carries a signature by the root certificate under which it was set. -/

namespace CertificateManager

open ByteString JsonValue Runs
open HttpSettings (withServer serverMembers withServer_eq mistyped_server)

/-! ## The paths in the settings -/

/-- `v.HasMember(name) && v[name].GetString()`: the accessor is its own guard, and
    the pointer it returns is never null. -/
def readUnguarded (v : Value) (name : Bytes) : Except Assertion (Option Bytes) := do
  match ← v.hasMember name with
  | true => do
      let _ ← (← v.index name).getString
      some <$> (← v.index name).getString
  | false => pure none

/-- Whether the three files can be read, for their paths. -/
structure Files where
  x509 : Bytes → Bool
  privateKey : Bytes → Bool
  dhKey : Bytes → Bool

/-- The paths that `loadCertificate` reads. -/
structure Paths where
  certPath : Bytes
  privateKeyPath : Bytes
  dhKeyPath : Bytes

/-- The block of `loadCertificate` that reads the paths. -/
def readPaths (serverSettingsJson : Value) : Except Assertion Paths := do
  let certPath ← readString serverSettingsJson (lit "certPath")
  let privateKeyPath ← readUnguarded serverSettingsJson (lit "privateKeyPath")
  let dhKeyPath ← readString serverSettingsJson (lit "dhKeyPath")
  return ⟨certPath.getD [], privateKeyPath.getD [], dhKeyPath.getD []⟩

/-- The accessor as its own guard asserts on a member of another type ... -/
theorem readUnguarded_mistyped {members : List (Bytes × Value)} {name : Bytes}
    (h : Mistyped [name] .string (.object members)) :
    readUnguarded (.object members) name = .error .isString := by
  obtain ⟨m, hm, hkind⟩ := mistyped_single.mp h
  rw [readUnguarded, hasMember_object, hm]
  show (do
    let _ ← (← (Value.object members).index name).getString
    some <$> (← (Value.object members).index name).getString) = _
  rw [index_object hm]
  cases m with
  | string s => cases hkind
  | null | bool | int | double | array | object => rfl

/-- ... and reads every other document as the guard of the other paths does. -/
theorem readUnguarded_of_not_mistyped {members : List (Bytes × Value)} {name : Bytes}
    (h : ¬ Mistyped [name] .string (.object members)) :
    readUnguarded (.object members) name
      = .ok ((view members name .string).bind Value.asString) := by
  rw [readUnguarded, hasMember_object, view]
  cases hm : members.lookup name with
  | none => rfl
  | some m =>
      show (do
        let _ ← (← (Value.object members).index name).getString
        some <$> (← (Value.object members).index name).getString) = _
      rw [index_object hm]
      cases m with
      | string s => rfl
      | null | bool | int | double | array | object =>
          exact (h (mistyped_single.mpr ⟨_, hm, rfl⟩)).elim

/-- The paths an object configures. -/
def pathsOf (members : List (Bytes × Value)) : Paths where
  certPath := ((view members (lit "certPath") .string).bind Value.asString).getD []
  privateKeyPath :=
    ((view members (lit "privateKeyPath") .string).bind Value.asString).getD []
  dhKeyPath := ((view members (lit "dhKeyPath") .string).bind Value.asString).getD []

/-- A path that is no string fails an assertion. -/
theorem readPaths_mistyped {members : List (Bytes × Value)}
    (h : Mistyped [lit "privateKeyPath"] .string (.object members)) :
    readPaths (.object members) = .error .isString := by
  rw [readPaths, readString_object, readUnguarded_mistyped h]
  rfl

/-- Otherwise the two paths are read, as far as they are there. -/
theorem readPaths_of_not_mistyped {members : List (Bytes × Value)}
    (h : ¬ Mistyped [lit "privateKeyPath"] .string (.object members)) :
    readPaths (.object members) = .ok (pathsOf members) := by
  rw [readPaths, readString_object, readUnguarded_of_not_mistyped h, readString_object]
  rfl

/-! ## The manager -/

/-- A certificate object.  `certX509` holds the key that signed it, if any; the
    key of an object is named by the number of the object.  `keysGenerated`: its
    private key and its Diffie-Hellman parameters are there. -/
structure CertificateImpl where
  certX509 : Option (Option Nat)
  keysGenerated : Bool

/-- The manager and the variables of its callers that certificates are returned
    through.  `rootWhenSet` is no member of the class: it records the root that was
    held when the server pointer was last set. -/
structure ManagerImpl where
  heap : Nat → CertificateImpl
  next : Nat
  certRootLocalhostPtr : Option Nat
  certServerLocalhostPtr : Option Nat
  settingsDoc : Option Value
  certPtrs : Nat → Option Nat
  rootWhenSet : Option Nat

/-- A new manager; it has no settings, and no caller holds a certificate. -/
def ManagerImpl.fresh : ManagerImpl :=
  ⟨fun _ => ⟨none, false⟩, 0, none, none, none, fun _ => none, none⟩

/-- A call returns; or it crashes, because an absent object is dereferenced or an
    assertion fails. -/
inductive Result where
  | returned (rc : Int) (s : ManagerImpl)
  | crashed

namespace ManagerImpl

/-- `setSettingsDoc`; whoever makes a manager hands on the settings it has, which
    may be none. -/
def setSettingsDoc (s : ManagerImpl) (settingsDoc : Option Value) : Int × ManagerImpl :=
  (0, { s with settingsDoc := settingsDoc })

/-- `make_shared`, assigned to a variable of the caller. -/
def publish (s : ManagerImpl) (certPtr : Nat) (c : CertificateImpl) : ManagerImpl :=
  { s with
    heap := Function.update s.heap s.next c
    next := s.next + 1
    certPtrs := Function.update s.certPtrs certPtr (some s.next) }

/-- The certificate of an object is replaced. -/
def setX509 (s : ManagerImpl) (p : Nat) (signer : Option Nat) : ManagerImpl :=
  { s with heap := Function.update s.heap p { s.heap p with certX509 := some signer } }

/-- `certServerLocalhostPtr = ...`. -/
def setServer (s : ManagerImpl) (p : Option Nat) : ManagerImpl :=
  { s with certServerLocalhostPtr := p, rootWhenSet := s.certRootLocalhostPtr }

/-- The key that `X509_sign` leaves on a certificate. -/
def signature (sign : Int) (key : Nat) : Option Nat := if 0 < sign then some key else none

/-- The two key generations came out as the library promises for success. -/
def keyed (rsa dh : Int) : Bool := 0 < rsa && 0 < dh

/-- `newCertificate`, with the outcomes of `RSA_generate_key_ex`,
    `DH_generate_parameters_ex` and `X509_sign`; the last one is not looked at. -/
def newCertificate (s : ManagerImpl) (certPtr : Nat) (rsa dh sign : Int) :
    Int × ManagerImpl :=
  if rsa < 0 then (-1, s)
  else if dh < 0 then (-1, s)
  else (0, s.publish certPtr ⟨some (signature sign s.next), keyed rsa dh⟩)

/-- `newRequest`: keys, and a request in place of a certificate. -/
def newRequest (s : ManagerImpl) (certPtr : Nat) (rsa dh : Int) : Int × ManagerImpl :=
  if rsa < 0 then (-1, s)
  else if dh < 0 then (-1, s)
  else (0, s.publish certPtr ⟨none, keyed rsa dh⟩)

/-- `signRequest`: the certificate is replaced by a new one before the subject of
    the authority is read, and signed with the key of the authority. -/
def signRequest (s : ManagerImpl) (certPtr certCAPtr : Option Nat) (sign : Int) : Result :=
  match certPtr, certCAPtr with
  | some p, some ca =>
      let s := s.setX509 p none
      match (s.heap ca).certX509 with
      | none => .crashed
      | some _ =>
          if sign < 0 then .returned (-1) s
          else .returned 0 ((s.setX509 p (signature sign ca)).setServer (some p))
  | _, _ => .crashed

def newCertRootLocalhost (s : ManagerImpl) (certPtr : Nat) (rsa dh sign : Int) :
    Int × ManagerImpl :=
  let (rc, s) := s.newCertificate certPtr rsa dh sign
  if rc < 0 then (-1, s)
  else (0, { s with certRootLocalhostPtr := s.certPtrs certPtr })

/-- `newCertServerLocalhost`: the return code of `signRequest` is dropped. -/
def newCertServerLocalhost (s : ManagerImpl) (certPtr : Nat) (rsa dh sign : Int) :
    Result :=
  let (rc, s) := s.newRequest certPtr rsa dh
  if rc < 0 then .returned (-1) s
  else
    match s.signRequest (s.certPtrs certPtr) s.certRootLocalhostPtr sign with
    | .crashed => .crashed
    | .returned _ s => .returned 0 (s.setServer (s.certPtrs certPtr))

/-- The end of `loadCertificate`, with the outcomes of reading the three files. -/
def loadFiles (s : ManagerImpl) (certPtr : Nat) (x509 privateKey dhKey : Bool) :
    Int × ManagerImpl :=
  if x509 && privateKey && dhKey then (0, s.publish certPtr ⟨some none, true⟩)
  else (-1, s)

/-- `loadCertificate` behind the pointer to the settings. -/
def loadCertificateFrom (s : ManagerImpl) (files : Files) (settingsDoc : Value)
    (certPtr : Nat) : Except Assertion (Int × ManagerImpl) :=
  withServer settingsDoc (-1, s) fun serverSettingsJson => do
    let p ← readPaths serverSettingsJson
    return s.loadFiles certPtr (files.x509 p.certPath)
      (files.privateKey p.privateKeyPath) (files.dhKey p.dhKeyPath)

/-- `loadCertificate`: the settings are dereferenced first. -/
def loadCertificate (s : ManagerImpl) (files : Files) (certPtr : Nat) : Result :=
  match s.settingsDoc with
  | none => .crashed
  | some settingsDoc =>
      match s.loadCertificateFrom files settingsDoc certPtr with
      | .error _ => .crashed
      | .ok (rc, s) => .returned rc s

end ManagerImpl

/-! ## Calls -/

/-- The calls; three of them get a pointer to a document of options. -/
inductive Call where
  | newCertificate (certPtr : Nat) (optionsDoc : Option Value) (rsa dh sign : Int)
  | newRequest (certPtr : Nat) (settingsDoc : Option Value) (rsa dh : Int)
  | signRequest (certPtr certCAPtr : Nat) (optionsDoc : Option Value) (sign : Int)
  | newCertRootLocalhost (certPtr : Nat) (rsa dh sign : Int)
  | newCertServerLocalhost (certPtr : Nat) (rsa dh sign : Int)
  | loadCertificate (certPtr : Nat) (files : Files)

/-- A document of options is dereferenced before anything else is done; reading it
    asserts nothing, and none of the options decides what becomes of the call. -/
def withOptions (optionsDoc : Option Value) (r : Result) : Result :=
  match optionsDoc with
  | none => .crashed
  | some _ => r

def exec (s : ManagerImpl) : Call → Result
  | .newCertificate certPtr optionsDoc rsa dh sign =>
      let (rc, s) := s.newCertificate certPtr rsa dh sign
      withOptions optionsDoc (.returned rc s)
  | .newRequest certPtr settingsDoc rsa dh =>
      let (rc, s) := s.newRequest certPtr rsa dh
      withOptions settingsDoc (.returned rc s)
  | .signRequest certPtr certCAPtr optionsDoc sign =>
      withOptions optionsDoc
        (s.signRequest (s.certPtrs certPtr) (s.certPtrs certCAPtr) sign)
  -- these two bring their own options
  | .newCertRootLocalhost certPtr rsa dh sign =>
      let (rc, s) := s.newCertRootLocalhost certPtr rsa dh sign
      .returned rc s
  | .newCertServerLocalhost certPtr rsa dh sign =>
      s.newCertServerLocalhost certPtr rsa dh sign
  | .loadCertificate certPtr files => s.loadCertificate files certPtr

/-- A call of a sequence; a crash ends it. -/
def managerStep (s : ManagerImpl) (call : Call) : Option (ManagerImpl × List Unit) :=
  match exec s call with
  | .returned _ s' => some (s', [])
  | .crashed => none

/-! ## What a call promises -/

/-- The object of a pointer has its keys. -/
def HasKeys (s : ManagerImpl) (p : Option Nat) : Prop :=
  ∃ q, p = some q ∧ (s.heap q).keysGenerated = true

/-- Every key generation, signature and file the call rests on is there. -/
def Succeeds (s : ManagerImpl) : Call → Prop
  | .newCertificate _ _ rsa dh sign => 0 < rsa ∧ 0 < dh ∧ 0 < sign
  | .newRequest _ _ rsa dh => 0 < rsa ∧ 0 < dh
  | .signRequest certPtr certCAPtr _ sign =>
      0 < sign ∧ HasKeys s (s.certPtrs certPtr) ∧ HasKeys s (s.certPtrs certCAPtr)
  | .newCertRootLocalhost _ rsa dh sign => 0 < rsa ∧ 0 < dh ∧ 0 < sign
  | .newCertServerLocalhost _ rsa dh sign =>
      0 < rsa ∧ 0 < dh ∧ 0 < sign ∧ HasKeys s s.certRootLocalhostPtr
  | .loadCertificate _ files =>
      ∃ doc members, s.settingsDoc = some doc ∧ serverMembers doc = some members
        ∧ files.x509 (pathsOf members).certPath = true
        ∧ files.privateKey (pathsOf members).privateKeyPath = true
        ∧ files.dhKey (pathsOf members).dhKeyPath = true

/-- No pointer was moved. -/
def SamePointers (s s' : ManagerImpl) : Prop :=
  s'.certPtrs = s.certPtrs ∧ s'.certRootLocalhostPtr = s.certRootLocalhostPtr
    ∧ s'.certServerLocalhostPtr = s.certServerLocalhostPtr

/-- The server certificate carries a signature by the root that was held when it
    was set. -/
def SignedByRoot (s : ManagerImpl) : Prop :=
  ∀ p, s.certServerLocalhostPtr = some p →
    ∃ r, s.rootWhenSet = some r ∧ (s.heap p).certX509 = some (some r)

/-- The call returns; without success it returns a negative number and moves no
    pointer; and the server certificate is signed by the root. -/
def Keeps (s : ManagerImpl) (call : Call) : Prop :=
  match exec s call with
  | .crashed => False
  | .returned rc s' =>
      (¬ Succeeds s call → rc < 0 ∧ SamePointers s s') ∧ SignedByRoot s'

/-- The calls and outcomes on which the code does as it promises.  A document of
    options is there; a key generation fails with a negative number or all goes
    well; a server certificate is only asked for when there is a root; a caller that
    signs hands over two certificates, of which the second is the root, or a failure
    with a negative number leaves the server certificate alone; and a certificate is
    only loaded when there are settings in which the path of the private key is no
    member of another type. -/
def Sound (s : ManagerImpl) : Call → Prop
  | .newCertificate _ optionsDoc rsa dh sign =>
      optionsDoc ≠ none ∧ (rsa < 0 ∨ dh < 0 ∨ (0 < rsa ∧ 0 < dh ∧ 0 < sign))
  | .newRequest _ settingsDoc rsa dh =>
      settingsDoc ≠ none ∧ (rsa < 0 ∨ dh < 0 ∨ (0 < rsa ∧ 0 < dh))
  | .signRequest certPtr certCAPtr optionsDoc sign =>
      optionsDoc ≠ none
        ∧ ∃ p ca, s.certPtrs certPtr = some p ∧ s.certPtrs certCAPtr = some ca
          ∧ (ca = p ∨ (s.heap ca).certX509 ≠ none)
          ∧ ((sign < 0 ∧ s.certServerLocalhostPtr ≠ some p)
            ∨ (0 < sign ∧ s.certRootLocalhostPtr = some ca))
  | .newCertRootLocalhost _ rsa dh sign =>
      rsa < 0 ∨ dh < 0 ∨ (0 < rsa ∧ 0 < dh ∧ 0 < sign)
  | .newCertServerLocalhost _ rsa dh sign =>
      rsa < 0 ∨ dh < 0
        ∨ (0 < rsa ∧ 0 < dh ∧ 0 < sign ∧ s.certRootLocalhostPtr ≠ none)
  | .loadCertificate _ _ =>
      ∃ doc, s.settingsDoc = some doc
        ∧ ¬ Mistyped [lit "server", lit "privateKeyPath"] .string doc

/-! ## The invariant -/

/-- Every object has its keys, every pointer points to an object, and the root is
    a certificate. -/
structure WellFormed (s : ManagerImpl) : Prop where
  keys : ∀ p < s.next, (s.heap p).keysGenerated = true
  certPtrs : ∀ v p, s.certPtrs v = some p → p < s.next
  root : ∀ p, s.certRootLocalhostPtr = some p → p < s.next ∧ (s.heap p).certX509 ≠ none
  server : ∀ p, s.certServerLocalhostPtr = some p → p < s.next

/-- The invariant of a run. -/
def Inv (s : ManagerImpl) : Prop := WellFormed s ∧ SignedByRoot s

/-- A new manager has nothing to be wrong, whatever its settings. -/
theorem inv_fresh (settingsDoc : Option Value) :
    Inv (ManagerImpl.fresh.setSettingsDoc settingsDoc).2 := by
  refine ⟨⟨?_, ?_, ?_, ?_⟩, ?_⟩
  · exact fun p hp => absurd hp (Nat.not_lt_zero p)
  all_goals
    intro
    intros
    contradiction

section Publish

variable {s : ManagerImpl} {certPtr : Nat} {c : CertificateImpl}

/-- Publishing a certificate leaves the others as they are. -/
theorem publish_heap_of_lt {p : Nat} (h : p < s.next) :
    (s.publish certPtr c).heap p = s.heap p :=
  Function.update_of_ne (Nat.ne_of_lt h) _ _

theorem publish_heap_next : (s.publish certPtr c).heap s.next = c :=
  Function.update_self ..

theorem publish_certPtr : (s.publish certPtr c).certPtrs certPtr = some s.next :=
  Function.update_self ..

/-- A new object is no one's certificate yet. -/
theorem publish_signed (hs : Inv s) : SignedByRoot (s.publish certPtr c) := by
  intro p hp
  obtain ⟨r, hr, hx⟩ := hs.2 p hp
  exact ⟨r, hr, by rw [publish_heap_of_lt (hs.1.server p hp)]; exact hx⟩

/-- Publishing a certificate with keys keeps the heap well formed. -/
theorem publish_wellFormed (hs : WellFormed s) (hc : c.keysGenerated = true) :
    WellFormed (s.publish certPtr c) where
  keys := by
    intro p hp
    rcases Nat.lt_succ_iff_lt_or_eq.mp hp with hlt | rfl
    · rw [publish_heap_of_lt hlt]
      exact hs.keys p hlt
    · rw [publish_heap_next]
      exact hc
  certPtrs := by
    intro v p hp
    by_cases hv : v = certPtr
    · subst hv
      rw [publish_certPtr] at hp
      rw [← Option.some.inj hp]
      exact Nat.lt_succ_self _
    · have hold : s.certPtrs v = some p := by
        rw [← hp]
        exact (Function.update_of_ne hv _ _).symm
      exact Nat.lt_succ_of_lt (hs.certPtrs v p hold)
  root := by
    intro p hp
    obtain ⟨hlt, hx⟩ := hs.root p hp
    exact ⟨Nat.lt_succ_of_lt hlt, by rw [publish_heap_of_lt hlt]; exact hx⟩
  server := fun p hp => Nat.lt_succ_of_lt (hs.server p hp)

end Publish

/-- Replacing a certificate keeps the keys of all objects. -/
theorem setX509_keys (s : ManagerImpl) (p q : Nat) (signer : Option Nat) :
    ((s.setX509 p signer).heap q).keysGenerated = (s.heap q).keysGenerated := by
  by_cases hq : q = p
  · subst hq
    show (Function.update s.heap q _ q).keysGenerated = _
    rw [Function.update_self]
  · show (Function.update s.heap p _ q).keysGenerated = _
    rw [Function.update_of_ne hq]

theorem setX509_self (s : ManagerImpl) (p : Nat) (signer : Option Nat) :
    ((s.setX509 p signer).heap p).certX509 = some signer := by
  show (Function.update s.heap p _ p).certX509 = _
  rw [Function.update_self]

/-- Signing a certificate leaves the others as they are. -/
theorem setX509_of_ne (s : ManagerImpl) {p q : Nat} (h : q ≠ p) (signer : Option Nat) :
    (s.setX509 p signer).heap q = s.heap q :=
  Function.update_of_ne h _ _

/-- The later certificate replaces the earlier one. -/
theorem setX509_setX509 (s : ManagerImpl) (p : Nat) (signer signer' : Option Nat) :
    (s.setX509 p signer).setX509 p signer' = s.setX509 p signer' := by
  simp only [ManagerImpl.setX509, Function.update_idem, Function.update_self]

/-- Signing keeps the heap well formed. -/
theorem setX509_wellFormed {s : ManagerImpl} (hs : WellFormed s) (p : Nat)
    (signer : Option Nat) : WellFormed (s.setX509 p signer) where
  keys := fun q hq => (setX509_keys s p q signer).trans (hs.keys q hq)
  certPtrs := hs.certPtrs
  root := by
    intro q hq
    obtain ⟨hlt, hx⟩ := hs.root q hq
    refine ⟨hlt, ?_⟩
    by_cases hqp : q = p
    · rw [hqp, setX509_self]
      exact Option.some_ne_none _
    · rw [setX509_of_ne s hqp]
      exact hx
  server := hs.server

/-- So does setting the server pointer. -/
theorem setServer_wellFormed {s : ManagerImpl} (hs : WellFormed s) {p : Nat}
    (hp : p < s.next) : WellFormed (s.setServer (some p)) where
  keys := hs.keys
  certPtrs := hs.certPtrs
  root := hs.root
  server := fun _ hq => Option.some.inj hq ▸ hp

/-- A server certificate that is set is signed by the root exactly when it carries
    the signature of the root that is held. -/
theorem setServer_signed_iff (s : ManagerImpl) (p : Nat) :
    SignedByRoot (s.setServer (some p))
      ↔ ∃ r, s.certRootLocalhostPtr = some r ∧ (s.heap p).certX509 = some (some r) := by
  constructor
  · exact fun h => h p rfl
  · intro h q hq
    rw [← Option.some.inj hq]
    exact h

/-- A certificate is signed with a key exactly when signing has succeeded with it. -/
theorem signature_eq_some {sign : Int} {key r : Nat} :
    ManagerImpl.signature sign key = some r ↔ 0 < sign ∧ key = r := by
  rw [ManagerImpl.signature]
  by_cases h : 0 < sign
  · simp [h]
  · simp [h]

/-! ## One call at a time -/

section Calls

variable {s s' : ManagerImpl} {call : Call} {rc : Int}

/-- A call that crashes keeps nothing. -/
theorem keeps_crashed (h : exec s call = .crashed) : ¬ Keeps s call := by
  rw [Keeps, h]
  exact id

/-- A failed call that changes nothing keeps its promise. -/
theorem keeps_failed (hs : Inv s) (h : exec s call = .returned (-1) s) : Keeps s call := by
  rw [Keeps, h]
  exact ⟨fun _ => ⟨by omega, rfl, rfl, rfl⟩, hs.2⟩

/-- A call that returns 0 has to have succeeded. -/
theorem keeps_returned (h : exec s call = .returned 0 s') :
    Keeps s call ↔ Succeeds s call ∧ SignedByRoot s' := by
  rw [Keeps, h]
  refine and_congr_left fun _ => ?_
  constructor
  · intro hpromise
    by_contra hno
    exact absurd (hpromise hno).1 (by omega)
  · exact fun hyes hno => absurd hyes hno

/-- The certificate that `newCertificate` publishes: signed with its own key. -/
def selfSigned (s : ManagerImpl) (certPtr : Nat) (rsa dh sign : Int) : ManagerImpl :=
  s.publish certPtr ⟨some (ManagerImpl.signature sign s.next), ManagerImpl.keyed rsa dh⟩

/-- The request that `newRequest` publishes. -/
def requested (s : ManagerImpl) (certPtr : Nat) (rsa dh : Int) : ManagerImpl :=
  s.publish certPtr ⟨none, ManagerImpl.keyed rsa dh⟩

/-- `newCertificate` stops at a negative number only, and otherwise publishes. -/
theorem newCertificate_eq (s : ManagerImpl) (certPtr : Nat) (rsa dh sign : Int) :
    s.newCertificate certPtr rsa dh sign
      = if rsa < 0 ∨ dh < 0 then (-1, s) else (0, selfSigned s certPtr rsa dh sign) := by
  rw [ManagerImpl.newCertificate, ite_or]
  rfl

/-- So does `newRequest`. -/
theorem newRequest_eq (s : ManagerImpl) (certPtr : Nat) (rsa dh : Int) :
    s.newRequest certPtr rsa dh
      = if rsa < 0 ∨ dh < 0 then (-1, s) else (0, requested s certPtr rsa dh) := by
  rw [ManagerImpl.newRequest, ite_or]
  rfl

theorem exec_newCertificate (s : ManagerImpl) (certPtr : Nat) (optionsDoc : Value)
    (rsa dh sign : Int) :
    exec s (.newCertificate certPtr (some optionsDoc) rsa dh sign)
      = if rsa < 0 ∨ dh < 0 then .returned (-1) s
        else .returned 0 (selfSigned s certPtr rsa dh sign) := by
  simp only [exec, newCertificate_eq, withOptions]
  split <;> rfl

theorem exec_newRequest (s : ManagerImpl) (certPtr : Nat) (settingsDoc : Value)
    (rsa dh : Int) :
    exec s (.newRequest certPtr (some settingsDoc) rsa dh)
      = if rsa < 0 ∨ dh < 0 then .returned (-1) s
        else .returned 0 (requested s certPtr rsa dh) := by
  simp only [exec, newRequest_eq, withOptions]
  split <;> rfl

theorem exec_newCertRootLocalhost (s : ManagerImpl) (certPtr : Nat) (rsa dh sign : Int) :
    exec s (.newCertRootLocalhost certPtr rsa dh sign)
      = if rsa < 0 ∨ dh < 0 then .returned (-1) s
        else .returned 0 { selfSigned s certPtr rsa dh sign with
          certRootLocalhostPtr := some s.next } := by
  simp only [exec, ManagerImpl.newCertRootLocalhost, newCertificate_eq]
  split
  · rfl
  · have hout : (selfSigned s certPtr rsa dh sign).certPtrs certPtr = some s.next :=
      publish_certPtr
    simp only [hout]
    rfl

/-- Behind the pointer to the settings an assertion fails for a private key path of
    another type, and otherwise a certificate is published when there is a `server`
    object and the three files can be read. -/
theorem loadCertificateFrom_eq (s : ManagerImpl) (files : Files) (doc : Value)
    (certPtr : Nat) :
    (Mistyped [lit "server", lit "privateKeyPath"] .string doc
        ∧ s.loadCertificateFrom files doc certPtr = .error .isString)
      ∨ (¬ Mistyped [lit "server", lit "privateKeyPath"] .string doc
        ∧ s.loadCertificateFrom files doc certPtr = .ok (match serverMembers doc with
          | none => (-1, s)
          | some members => s.loadFiles certPtr (files.x509 (pathsOf members).certPath)
              (files.privateKey (pathsOf members).privateKeyPath)
              (files.dhKey (pathsOf members).dhKeyPath))) := by
  by_cases hmis : Mistyped [lit "server", lit "privateKeyPath"] .string doc
  · obtain ⟨members, hs, hmis'⟩ := mistyped_server.mp hmis
    refine Or.inl ⟨hmis, ?_⟩
    rw [ManagerImpl.loadCertificateFrom, withServer_eq, hs]
    show (readPaths (.object members)).bind _ = _
    rw [readPaths_mistyped hmis']
    rfl
  · refine Or.inr ⟨hmis, ?_⟩
    rw [ManagerImpl.loadCertificateFrom, withServer_eq]
    cases hs : serverMembers doc with
    | none => rfl
    | some members =>
        have hmis' : ¬ Mistyped [lit "privateKeyPath"] .string (.object members) :=
          fun h => hmis (mistyped_server.mpr ⟨members, hs, h⟩)
        show (readPaths (.object members)).bind _ = _
        rw [readPaths_of_not_mistyped hmis']
        rfl

/-- What is returned when a certificate is loaded: it changes nothing, or publishes
    a certificate read from the files. -/
theorem exec_loadCertificate {certPtr : Nat} {files : Files}
    (hsound : Sound s (.loadCertificate certPtr files)) :
    (Succeeds s (.loadCertificate certPtr files)
        ∧ exec s (.loadCertificate certPtr files)
          = .returned 0 (s.publish certPtr ⟨some none, true⟩))
      ∨ exec s (.loadCertificate certPtr files) = .returned (-1) s := by
  obtain ⟨doc, hdoc, hmis⟩ := hsound
  rcases loadCertificateFrom_eq s files doc certPtr with ⟨h, -⟩ | ⟨-, hload⟩
  · exact absurd h hmis
  · simp only [exec, ManagerImpl.loadCertificate, hdoc, hload]
    cases hs : serverMembers doc with
    | none => exact Or.inr rfl
    | some members =>
        simp only [ManagerImpl.loadFiles]
        split
        · next hall =>
            simp only [Bool.and_eq_true, and_assoc] at hall
            exact Or.inl ⟨⟨doc, members, hdoc, hs, hall⟩, rfl⟩
        · exact Or.inr rfl

/-- The authority has a certificate when its subject is read. -/
theorem authority_iff (s : ManagerImpl) (p ca : Nat) :
    ((s.setX509 p none).heap ca).certX509 ≠ none
      ↔ ca = p ∨ (s.heap ca).certX509 ≠ none := by
  by_cases hca : ca = p
  · rw [hca, setX509_self]
    exact iff_of_true (Option.some_ne_none _) (Or.inl rfl)
  · rw [setX509_of_ne s hca]
    exact ⟨Or.inr, fun h => h.resolve_left hca⟩

/-- Without the X509 of the authority `signRequest` dereferences null. -/
theorem signRequest_crashed {p ca : Nat} {sign : Int}
    (h : ((s.setX509 p none).heap ca).certX509 = none) :
    s.signRequest (some p) (some ca) sign = .crashed := by
  simp only [ManagerImpl.signRequest, h]

/-- With it the certificate gets a new X509, and the signature if it succeeds. -/
theorem signRequest_returned {p ca : Nat} {sign : Int}
    (h : ((s.setX509 p none).heap ca).certX509 ≠ none) :
    s.signRequest (some p) (some ca) sign
      = if sign < 0 then .returned (-1) (s.setX509 p none)
        else .returned 0 ((s.setX509 p (ManagerImpl.signature sign ca)).setServer
          (some p)) := by
  obtain ⟨x, hx⟩ := Option.ne_none_iff_exists'.mp h
  simp only [ManagerImpl.signRequest, hx, setX509_setX509]

/-- A certificate that is set aside for signing loses its signature. -/
theorem setX509_none_signed_iff (hs : Inv s) (p : Nat) :
    SignedByRoot (s.setX509 p none) ↔ s.certServerLocalhostPtr ≠ some p := by
  constructor
  · intro h hp
    obtain ⟨r, -, hx⟩ := h p hp
    rw [setX509_self] at hx
    cases hx
  · intro hne q hq
    obtain ⟨r, hr, hx⟩ := hs.2 q hq
    have hqp : q ≠ p := by
      rintro rfl
      exact hne hq
    exact ⟨r, hr, by rw [setX509_of_ne s hqp]; exact hx⟩

/-- The server certificate that `signRequest` sets is signed by the root exactly
    when the signature succeeded and the authority is the root. -/
theorem signed_server_iff (p ca : Nat) (sign : Int) :
    SignedByRoot ((s.setX509 p (ManagerImpl.signature sign ca)).setServer (some p))
      ↔ 0 < sign ∧ s.certRootLocalhostPtr = some ca := by
  rw [setServer_signed_iff, setX509_self]
  constructor
  · rintro ⟨r, hr, hx⟩
    obtain ⟨hsign, rfl⟩ := signature_eq_some.mp (Option.some.inj hx)
    exact ⟨hsign, hr⟩
  · rintro ⟨hsign, hr⟩
    exact ⟨ca, hr, congrArg some (signature_eq_some.mpr ⟨hsign, rfl⟩)⟩

/-- In a well formed heap a variable that is set holds keys. -/
theorem hasKeys_of_wellFormed (hs : WellFormed s) {v p : Nat}
    (h : s.certPtrs v = some p) : HasKeys s (s.certPtrs v) :=
  ⟨p, h, hs.keys p (hs.certPtrs v p h)⟩

/-- `newCertificate` keeps the promise exactly when it is sound. -/
theorem keeps_newCertificate_iff (hs : Inv s) (certPtr : Nat) (optionsDoc : Option Value)
    (rsa dh sign : Int) :
    Keeps s (.newCertificate certPtr optionsDoc rsa dh sign)
      ↔ Sound s (.newCertificate certPtr optionsDoc rsa dh sign) := by
  cases optionsDoc with
  | none => exact iff_of_false (keeps_crashed rfl) (fun h => h.1 rfl)
  | some doc =>
      have hexec := exec_newCertificate s certPtr doc rsa dh sign
      rw [Sound, and_iff_right (Option.some_ne_none doc)]
      by_cases hneg : rsa < 0 ∨ dh < 0
      · rw [if_pos hneg] at hexec
        exact iff_of_true (keeps_failed hs hexec) (hneg.imp_right Or.inl)
      · rw [if_neg hneg] at hexec
        have hsigned : SignedByRoot (selfSigned s certPtr rsa dh sign) := publish_signed hs
        rw [keeps_returned hexec, and_iff_left hsigned]
        show 0 < rsa ∧ 0 < dh ∧ 0 < sign ↔ _
        omega

/-- The root certificate is a certificate like any other. -/
theorem keeps_newCertRootLocalhost_iff (hs : Inv s) (certPtr : Nat)
    (rsa dh sign : Int) :
    Keeps s (.newCertRootLocalhost certPtr rsa dh sign)
      ↔ Sound s (.newCertRootLocalhost certPtr rsa dh sign) := by
  have hexec := exec_newCertRootLocalhost s certPtr rsa dh sign
  by_cases hneg : rsa < 0 ∨ dh < 0
  · rw [if_pos hneg] at hexec
    exact iff_of_true (keeps_failed hs hexec) (hneg.imp_right Or.inl)
  · rw [if_neg hneg] at hexec
    have hsigned : SignedByRoot { selfSigned s certPtr rsa dh sign with
        certRootLocalhostPtr := some s.next } := @publish_signed s certPtr _ hs
    rw [keeps_returned hexec, and_iff_left hsigned]
    show 0 < rsa ∧ 0 < dh ∧ 0 < sign ↔ rsa < 0 ∨ dh < 0 ∨ (0 < rsa ∧ 0 < dh ∧ 0 < sign)
    omega

/-- `newRequest` keeps the promise exactly when it is sound. -/
theorem keeps_newRequest_iff (hs : Inv s) (certPtr : Nat) (settingsDoc : Option Value)
    (rsa dh : Int) :
    Keeps s (.newRequest certPtr settingsDoc rsa dh)
      ↔ Sound s (.newRequest certPtr settingsDoc rsa dh) := by
  cases settingsDoc with
  | none => exact iff_of_false (keeps_crashed rfl) (fun h => h.1 rfl)
  | some doc =>
      have hexec := exec_newRequest s certPtr doc rsa dh
      rw [Sound, and_iff_right (Option.some_ne_none doc)]
      by_cases hneg : rsa < 0 ∨ dh < 0
      · rw [if_pos hneg] at hexec
        exact iff_of_true (keeps_failed hs hexec) (hneg.imp_right Or.inl)
      · rw [if_neg hneg] at hexec
        have hsigned : SignedByRoot (requested s certPtr rsa dh) := publish_signed hs
        rw [keeps_returned hexec, and_iff_left hsigned]
        show 0 < rsa ∧ 0 < dh ↔ _
        omega

theorem exec_signRequest {certPtr certCAPtr p ca : Nat} (optionsDoc : Value) (sign : Int)
    (hp : s.certPtrs certPtr = some p) (hca : s.certPtrs certCAPtr = some ca) :
    exec s (.signRequest certPtr certCAPtr (some optionsDoc) sign)
      = s.signRequest (some p) (some ca) sign := by
  simp only [exec, withOptions, hp, hca]

/-- Signing when both variables hold certificates. -/
theorem keeps_signRequest_held (hs : Inv s) {certPtr certCAPtr p ca : Nat}
    (optionsDoc : Value) (sign : Int) (hp : s.certPtrs certPtr = some p) (hca : s.certPtrs certCAPtr = some ca) :
    Keeps s (.signRequest certPtr certCAPtr (some optionsDoc) sign)
      ↔ (ca = p ∨ (s.heap ca).certX509 ≠ none)
        ∧ ((sign < 0 ∧ s.certServerLocalhostPtr ≠ some p)
          ∨ (0 < sign ∧ s.certRootLocalhostPtr = some ca)) := by
  have hexec := exec_signRequest optionsDoc sign hp hca
  rw [← authority_iff]
  by_cases hx : ((s.setX509 p none).heap ca).certX509 = none
  · exact iff_of_false (keeps_crashed (hexec.trans (signRequest_crashed hx)))
      (fun h => h.1 hx)
  · rw [signRequest_returned hx] at hexec
    rw [and_iff_right hx]
    by_cases hsign : sign < 0
    · -- the call fails, but the certificate has been replaced
      rw [if_pos hsign] at hexec
      have hkeeps : Keeps s (.signRequest certPtr certCAPtr (some optionsDoc) sign)
          ↔ SignedByRoot (s.setX509 p none) := by
        rw [Keeps, hexec]
        exact and_iff_right (fun _ => ⟨by omega, rfl, rfl, rfl⟩)
      rw [hkeeps, setX509_none_signed_iff hs]
      constructor
      · exact fun hne => Or.inl ⟨hsign, hne⟩
      · rintro (⟨-, hne⟩ | ⟨hpos, -⟩)
        · exact hne
        · omega
    · rw [if_neg hsign] at hexec
      rw [keeps_returned hexec, signed_server_iff]
      constructor
      · exact fun h => Or.inr h.2
      · rintro (⟨hneg, -⟩ | hroot)
        · exact absurd hneg hsign
        · exact ⟨⟨hroot.1, hasKeys_of_wellFormed hs.1 hp, hasKeys_of_wellFormed hs.1 hca⟩,
            hroot⟩

/-- `signRequest` keeps the promise exactly when it is sound. -/
theorem keeps_signRequest_iff (hs : Inv s) (certPtr certCAPtr : Nat)
    (optionsDoc : Option Value) (sign : Int) :
    Keeps s (.signRequest certPtr certCAPtr optionsDoc sign)
      ↔ Sound s (.signRequest certPtr certCAPtr optionsDoc sign) := by
  cases optionsDoc with
  | none => exact iff_of_false (keeps_crashed rfl) (fun h => h.1 rfl)
  | some doc =>
      rw [Sound, and_iff_right (Option.some_ne_none doc)]
      by_cases hheld : ∃ p ca, s.certPtrs certPtr = some p ∧ s.certPtrs certCAPtr = some ca
      · obtain ⟨p, ca, hp, hca⟩ := hheld
        rw [keeps_signRequest_held hs doc sign hp hca]
        constructor
        · exact fun h => ⟨p, ca, hp, hca, h⟩
        · rintro ⟨p', ca', hp', hca', h⟩
          rw [Option.some.inj (hp.symm.trans hp'), Option.some.inj (hca.symm.trans hca')]
          exact h
      · -- a null pointer is dereferenced
        have hexec : exec s (.signRequest certPtr certCAPtr (some doc) sign) = .crashed := by
          simp only [exec, withOptions]
          cases hp : s.certPtrs certPtr with
          | none => rfl
          | some p =>
              cases hca : s.certPtrs certCAPtr with
              | none => rfl
              | some ca => exact absurd ⟨p, ca, hp, hca⟩ hheld
        refine iff_of_false (keeps_crashed hexec) ?_
        rintro ⟨p, ca, hp, hca, -⟩
        exact hheld ⟨p, ca, hp, hca⟩

/-- `newCertServerLocalhost` with a root: the server certificate is set whatever
    the signature was. -/
theorem exec_newCertServerLocalhost_root (hs : Inv s) {r : Nat}
    (hroot : s.certRootLocalhostPtr = some r) (certPtr : Nat) {rsa dh : Int} (sign : Int)
    (hneg : ¬ (rsa < 0 ∨ dh < 0)) :
    ∃ signer, exec s (.newCertServerLocalhost certPtr rsa dh sign)
        = .returned 0 (((requested s certPtr rsa dh).setX509 s.next signer).setServer
          (some s.next))
      ∧ (signer = some r ↔ 0 < sign) := by
  obtain ⟨hlt, hx⟩ := hs.1.root r hroot
  have hauth : (((requested s certPtr rsa dh).setX509 s.next none).heap r).certX509
      ≠ none := by
    rw [authority_iff]
    refine Or.inr ?_
    rw [requested, publish_heap_of_lt hlt]
    exact hx
  have hout : (requested s certPtr rsa dh).certPtrs certPtr = some s.next :=
    publish_certPtr
  have hheld : (requested s certPtr rsa dh).certRootLocalhostPtr = some r := hroot
  have hexec : exec s (.newCertServerLocalhost certPtr rsa dh sign)
      = match (requested s certPtr rsa dh).signRequest (some s.next) (some r) sign with
        | .crashed => .crashed
        | .returned _ s' => .returned 0 (s'.setServer (s'.certPtrs certPtr)) := by
    simp only [exec, ManagerImpl.newCertServerLocalhost, newRequest_eq, if_neg hneg, hout,
      hheld]
    rfl
  rw [signRequest_returned hauth] at hexec
  by_cases hsign : sign < 0
  · -- the return code of the signature is dropped
    rw [if_pos hsign] at hexec
    refine ⟨none, hexec.trans ?_, iff_of_false (by simp) (by omega)⟩
    exact congrArg (fun p => Result.returned 0 (ManagerImpl.setServer _ p)) hout
  · rw [if_neg hsign] at hexec
    refine ⟨ManagerImpl.signature sign r, hexec.trans ?_, ?_⟩
    · exact congrArg (fun p => Result.returned 0 (ManagerImpl.setServer _ p)) hout
    · rw [signature_eq_some, and_iff_left rfl]

/-- Without a root it dereferences one. -/
theorem exec_newCertServerLocalhost_none (hroot : s.certRootLocalhostPtr = none)
    (certPtr : Nat) {rsa dh : Int} (sign : Int) (hneg : ¬ (rsa < 0 ∨ dh < 0)) :
    exec s (.newCertServerLocalhost certPtr rsa dh sign) = .crashed := by
  have hout : (requested s certPtr rsa dh).certPtrs certPtr = some s.next :=
    publish_certPtr
  have hheld : (requested s certPtr rsa dh).certRootLocalhostPtr = none := hroot
  simp only [exec, ManagerImpl.newCertServerLocalhost, newRequest_eq, if_neg hneg, hout,
    hheld]
  rfl

theorem exec_newCertServerLocalhost_neg (certPtr : Nat) {rsa dh : Int} (sign : Int)
    (hneg : rsa < 0 ∨ dh < 0) :
    exec s (.newCertServerLocalhost certPtr rsa dh sign) = .returned (-1) s := by
  simp only [exec, ManagerImpl.newCertServerLocalhost, newRequest_eq, if_pos hneg]
  rfl

/-- The server certificate keeps the promise only on top of a root that is held. -/
theorem keeps_newCertServerLocalhost_iff (hs : Inv s) (certPtr : Nat)
    (rsa dh sign : Int) :
    Keeps s (.newCertServerLocalhost certPtr rsa dh sign)
      ↔ Sound s (.newCertServerLocalhost certPtr rsa dh sign) := by
  by_cases hneg : rsa < 0 ∨ dh < 0
  · exact iff_of_true (keeps_failed hs (exec_newCertServerLocalhost_neg certPtr sign hneg))
      (hneg.imp_right Or.inl)
  · cases hroot : s.certRootLocalhostPtr with
    | none =>
        have hexec := exec_newCertServerLocalhost_none hroot certPtr sign hneg
        refine iff_of_false (keeps_crashed hexec) ?_
        rintro (h | h | ⟨-, -, -, hne⟩)
        · exact hneg (Or.inl h)
        · exact hneg (Or.inr h)
        · exact hne hroot
    | some r =>
        obtain ⟨signer, hexec, hsigner⟩ :=
          exec_newCertServerLocalhost_root hs hroot certPtr sign hneg
        have hkeys : HasKeys s s.certRootLocalhostPtr :=
          ⟨r, hroot, hs.1.keys r (hs.1.root r hroot).1⟩
        have hne : s.certRootLocalhostPtr ≠ none := by
          rw [hroot]
          exact Option.some_ne_none r
        rw [keeps_returned hexec, setServer_signed_iff, setX509_self]
        constructor
        · rintro ⟨⟨hrsa, hdh, hsign, -⟩, -⟩
          exact Or.inr (Or.inr ⟨hrsa, hdh, hsign, hne⟩)
        · rintro (h | h | ⟨hrsa, hdh, hsign, -⟩)
          · exact absurd (Or.inl h) hneg
          · exact absurd (Or.inr h) hneg
          · exact ⟨⟨hrsa, hdh, hsign, hkeys⟩, r, hroot, congrArg some (hsigner.mpr hsign)⟩

/-- `loadCertificate` publishes what it has read from files, and nothing else: it keeps
    the promise unless it crashes. -/
theorem keeps_loadCertificate_iff (hs : Inv s) (certPtr : Nat) (files : Files) :
    Keeps s (.loadCertificate certPtr files) ↔ Sound s (.loadCertificate certPtr files) := by
  by_cases hsound : Sound s (.loadCertificate certPtr files)
  · refine iff_of_true ?_ hsound
    rcases exec_loadCertificate hsound with ⟨hsucceeds, hexec⟩ | hexec
    · exact (keeps_returned hexec).mpr ⟨hsucceeds, publish_signed hs⟩
    · exact keeps_failed hs hexec
  · refine iff_of_false (keeps_crashed ?_) hsound
    simp only [exec, ManagerImpl.loadCertificate]
    cases hdoc : s.settingsDoc with
    | none => rfl
    | some doc =>
        rcases loadCertificateFrom_eq s files doc certPtr with ⟨-, hload⟩ | ⟨hmis, -⟩
        · simp only [hload]
        · exact absurd ⟨doc, hdoc, hmis⟩ hsound

/-- **ONE CALL**: in every state of the invariant a call keeps its promise exactly
    on the sound outcomes. -/
theorem keeps_call_iff (hs : Inv s) (call : Call) : Keeps s call ↔ Sound s call := by
  cases call with
  | newCertificate certPtr optionsDoc rsa dh sign =>
      exact keeps_newCertificate_iff hs certPtr optionsDoc rsa dh sign
  | newRequest certPtr settingsDoc rsa dh =>
      exact keeps_newRequest_iff hs certPtr settingsDoc rsa dh
  | signRequest certPtr certCAPtr optionsDoc sign =>
      exact keeps_signRequest_iff hs certPtr certCAPtr optionsDoc sign
  | newCertRootLocalhost certPtr rsa dh sign =>
      exact keeps_newCertRootLocalhost_iff hs certPtr rsa dh sign
  | newCertServerLocalhost certPtr rsa dh sign =>
      exact keeps_newCertServerLocalhost_iff hs certPtr rsa dh sign
  | loadCertificate certPtr files => exact keeps_loadCertificate_iff hs certPtr files

/-! ## Runs -/

theorem keyed_of_pos {rsa dh : Int} (hrsa : 0 < rsa) (hdh : 0 < dh) :
    ManagerImpl.keyed rsa dh = true := by
  simp [ManagerImpl.keyed, hrsa, hdh]

/-- A call that fails with a negative number, or publishes with keys. -/
theorem wellFormed_of_ite {neg : Prop} [Decidable neg] {t u : ManagerImpl}
    (hu : WellFormed u) (ht : ¬ neg → WellFormed t)
    (h : (if neg then .returned (-1) u else .returned 0 t) = Result.returned rc s') :
    WellFormed s' := by
  by_cases hneg : neg
  · rw [if_pos hneg] at h
    obtain ⟨-, rfl⟩ := Result.returned.inj h
    exact hu
  · rw [if_neg hneg] at h
    obtain ⟨-, rfl⟩ := Result.returned.inj h
    exact ht hneg

/-- A sound call keeps every object and every pointer well formed. -/
theorem wellFormed_exec (hs : Inv s) (hsound : Sound s call)
    (h : exec s call = .returned rc s') : WellFormed s' := by
  cases call with
  | newCertificate certPtr optionsDoc rsa dh sign =>
      obtain ⟨hdoc, hsound⟩ := hsound
      obtain ⟨doc, rfl⟩ := Option.ne_none_iff_exists'.mp hdoc
      rw [exec_newCertificate] at h
      refine wellFormed_of_ite hs.1 ?_ h
      intro hneg
      obtain ⟨hrsa, hdh, -⟩ := (or_assoc.mpr hsound).resolve_left hneg
      exact publish_wellFormed hs.1 (keyed_of_pos hrsa hdh)
  | newRequest certPtr settingsDoc rsa dh =>
      obtain ⟨hdoc, hsound⟩ := hsound
      obtain ⟨doc, rfl⟩ := Option.ne_none_iff_exists'.mp hdoc
      rw [exec_newRequest] at h
      refine wellFormed_of_ite hs.1 ?_ h
      intro hneg
      obtain ⟨hrsa, hdh⟩ := (or_assoc.mpr hsound).resolve_left hneg
      exact publish_wellFormed hs.1 (keyed_of_pos hrsa hdh)
  | newCertRootLocalhost certPtr rsa dh sign =>
      rw [exec_newCertRootLocalhost] at h
      refine wellFormed_of_ite hs.1 ?_ h
      intro hneg
      obtain ⟨hrsa, hdh, -⟩ := (or_assoc.mpr hsound).resolve_left hneg
      have hw : WellFormed (selfSigned s certPtr rsa dh sign) :=
        publish_wellFormed hs.1 (keyed_of_pos hrsa hdh)
      refine ⟨hw.keys, hw.certPtrs, ?_, hw.server⟩
      intro p hp
      rw [← Option.some.inj hp]
      refine ⟨Nat.lt_succ_self _, ?_⟩
      show ((selfSigned s certPtr rsa dh sign).heap s.next).certX509 ≠ none
      rw [selfSigned, publish_heap_next]
      exact Option.some_ne_none _
  | loadCertificate certPtr files =>
      rcases exec_loadCertificate hsound with ⟨-, hexec⟩ | hexec
      · obtain ⟨-, rfl⟩ := Result.returned.inj (hexec.symm.trans h)
        exact publish_wellFormed hs.1 rfl
      · obtain ⟨-, rfl⟩ := Result.returned.inj (hexec.symm.trans h)
        exact hs.1
  | signRequest certPtr certCAPtr optionsDoc sign =>
      obtain ⟨hdoc, p, ca, hp, hca, hauth, -⟩ := hsound
      obtain ⟨doc, rfl⟩ := Option.ne_none_iff_exists'.mp hdoc
      rw [exec_signRequest doc sign hp hca, signRequest_returned ((authority_iff s p ca).mpr hauth)] at h
      refine wellFormed_of_ite (setX509_wellFormed hs.1 p none) ?_ h
      exact fun _ => setServer_wellFormed (setX509_wellFormed hs.1 p _)
        (hs.1.certPtrs certPtr p hp)
  | newCertServerLocalhost certPtr rsa dh sign =>
      by_cases hneg : rsa < 0 ∨ dh < 0
      · rw [exec_newCertServerLocalhost_neg certPtr sign hneg] at h
        obtain ⟨-, rfl⟩ := Result.returned.inj h
        exact hs.1
      · obtain ⟨hrsa, hdh, -, hne⟩ := (or_assoc.mpr hsound).resolve_left hneg
        obtain ⟨r, hroot⟩ := Option.ne_none_iff_exists'.mp hne
        obtain ⟨signer, hexec, -⟩ :=
          exec_newCertServerLocalhost_root hs hroot certPtr sign hneg
        rw [hexec] at h
        obtain ⟨-, rfl⟩ := Result.returned.inj h
        have hw : WellFormed (requested s certPtr rsa dh) :=
          publish_wellFormed hs.1 (keyed_of_pos hrsa hdh)
        exact setServer_wellFormed (setX509_wellFormed hw _ _) (Nat.lt_succ_self _)

end Calls

/-- **HEADLINE**: along every sequence of calls on a new manager, with settings or
    without, every call keeps its promise exactly when every call meets sound
    outcomes. -/
theorem keeps_iff (settingsDoc : Option Value) (calls : List Call) :
    Along managerStep Keeps (ManagerImpl.fresh.setSettingsDoc settingsDoc).2 calls
      ↔ Along managerStep Sound (ManagerImpl.fresh.setSettingsDoc settingsDoc).2 calls := by
  refine along_congr ?_ (fun s call hs => keeps_call_iff hs call) calls
    (inv_fresh settingsDoc)
  intro s call s' as hs hsound hstep
  have hkeeps := (keeps_call_iff hs call).mpr hsound
  rw [managerStep] at hstep
  rw [Keeps] at hkeeps
  cases hexec : exec s call with
  | crashed =>
      rw [hexec] at hstep
      cases hstep
  | returned rc s'' =>
      rw [hexec] at hstep hkeeps
      rw [← (Prod.mk.inj (Option.some.inj hstep)).1]
      exact ⟨wellFormed_exec hs hsound hexec, hkeeps.2⟩

/-- A server certificate without a root crashes; so does loading a certificate
    without settings; and a root certificate without a key is published when the key
    generation reports failure by 0. -/
theorem keeps_not_always :
    ¬ Along managerStep Keeps .fresh [.newCertServerLocalhost 0 1 1 1]
      ∧ ¬ Along managerStep Keeps .fresh
        [.loadCertificate 0 ⟨fun _ => true, fun _ => true, fun _ => true⟩]
      ∧ ¬ Along managerStep Keeps .fresh [.newCertRootLocalhost 0 0 1 1] := by
  refine ⟨?_, ?_, ?_⟩
  · rintro ⟨hkeeps, -⟩
    exact hkeeps
  · rintro ⟨hkeeps, -⟩
    exact hkeeps
  · rintro ⟨hkeeps, -⟩
    have hfail : ¬ Succeeds .fresh (.newCertRootLocalhost 0 0 1 1) :=
      fun h => absurd h.1 (by omega)
    exact absurd (hkeeps.1 hfail).1 (by omega)

end CertificateManager
