import BookFilerHttp.JsonValueProofs

/-! # Settings documents: `ServerImpl::run`, `ServerImpl::extractSettings` and
    `ClientImpl::loadSettingsDoc`

    The settings come as a JSON document of any shape.  `extractSettings` copies
    four members of its `server` object into the server state and then derives the
    address, the port and the number of threads; `run` calls it and starts the
    server.  The address parser of the network library is a parameter: it gives an
    address or throws.

    `applied_iff` says for which documents the server runs as configured or not at
    all. -/

namespace HttpSettings

open ByteString MachineInt JsonValue

variable {Address : Type}

/-! ## The server -/

/-- The members of `ServerState` that come from the settings. -/
structure ServerState (Address : Type) where
  port : UInt16
  threadsNum : Int
  portInt : Int
  address : Address
  docRootStr : Bytes
  addressStr : Bytes

/-- A member function returns or throws; either way it has changed the state. -/
inductive Outcome (Address : Type) where
  | returned (rc : Int) (s : ServerState Address)
  | threw (s : ServerState Address)

/-- The checks before the members of `server` are read; `refused` is the outcome
    when one of them fails. -/
def withServer {ρ : Type} (settingsDoc : Value) (refused : ρ)
    (body : Value → Except Assertion ρ) : Except Assertion ρ :=
  if settingsDoc.isObject = false then .ok refused
  else do
    match ← settingsDoc.hasMember (lit "server") with
    | false => .ok refused
    | true =>
        let serverJson ← settingsDoc.index (lit "server")
        if serverJson.isObject = false then .ok refused else body serverJson

/-- `extractSettings`; `makeAddress` is `make_address`, none when it throws. -/
def extractSettings (makeAddress : Bytes → Option Address) (settingsDoc : Value)
    (s : ServerState Address) : Except Assertion (Outcome Address) :=
  withServer settingsDoc (.returned (-1) s) fun serverStateJson => do
    let addressStrOpt ← readString serverStateJson (lit "address")
    let docRootStrOpt ← readString serverStateJson (lit "docRoot")
    let portIntOpt ← readInt serverStateJson (lit "port")
    let threadsNumOpt ← readInt serverStateJson (lit "threadNum")
    let s := { s with
      addressStr := addressStrOpt.getD s.addressStr
      docRootStr := docRootStrOpt.getD s.docRootStr
      portInt := portIntOpt.getD s.portInt
      threadsNum := threadsNumOpt.getD s.threadsNum }
    match makeAddress s.addressStr with
    | none => .ok (.threw s)
    | some address =>
        .ok (.returned 0 { s with
          address := address
          port := UInt16.ofInt s.portInt
          threadsNum := max 1 s.threadsNum })

/-- What `run` starts: the listener, and a thread that runs the I/O service. -/
inductive Start (Address : Type) where
  | listener (address : Address) (port : UInt16)
  | ioThread

/-- `run` behind the settings: the number of threads is overwritten, the listener
    is spawned and the threads are started.  A negative size makes `reserve`
    throw. -/
def startServer (hardwareThreadsNum : UInt32) (s : ServerState Address) :
    Outcome Address × List (Start Address) :=
  let threadsNum := narrow 32 hardwareThreadsNum.toNat
  let s := { s with threadsNum := threadsNum }
  let listener := .listener s.address s.port
  if threadsNum < 0 then (.threw s, [listener])
  else (.returned 0 s, listener :: List.replicate threadsNum.toNat .ioThread)

/-- `run`, with the number of hardware threads: the outcome and what was started.
    The return code of `extractSettings` is dropped. -/
def run (makeAddress : Bytes → Option Address) (settingsDoc : Value)
    (hardwareThreadsNum : UInt32) (s : ServerState Address) :
    Except Assertion (Outcome Address × List (Start Address)) := do
  match ← extractSettings makeAddress settingsDoc s with
  | .threw s => .ok (.threw s, [])
  | .returned _ s => .ok (startServer hardwareThreadsNum s)

/-! ## The client -/

/-- The members of `ClientImpl` that come from the settings. -/
structure ClientSettings where
  CaInfoPath : Bytes
  skipPeerVerification : Bool
  skipHostnameVerification : Bool

/-- `loadSettingsDoc`. -/
def loadSettingsDoc (settingsDoc : Value) (c : ClientSettings) :
    Except Assertion (Int × ClientSettings) :=
  if settingsDoc.isObject = false then .ok (-1, c)
  else do
    let CaInfoPath ← readString settingsDoc (lit "CaInfoPath")
    let skipPeer ← readBool settingsDoc (lit "skipPeerVerification")
    let skipHostname ← readBool settingsDoc (lit "skipHostnameVerification")
    return (0,
      { CaInfoPath := CaInfoPath.getD c.CaInfoPath
        skipPeerVerification := skipPeer.getD c.skipPeerVerification
        skipHostnameVerification := skipHostname.getD c.skipHostnameVerification })

/-! ## The `server` object -/

/-- The members of the `server` object. -/
def serverMembers : Value → Option (List (Bytes × Value))
  | .object members =>
      match members.lookup (lit "server") with
      | some (.object serverMembers) => some serverMembers
      | _ => none
  | _ => none

/-- The checks assert nothing: without a `server` object they refuse. -/
theorem withServer_eq {ρ : Type} (doc : Value) (refused : ρ)
    (body : Value → Except Assertion ρ) :
    withServer doc refused body = match serverMembers doc with
      | none => .ok refused
      | some members => body (.object members) := by
  cases doc with
  | object members =>
      rw [withServer, if_neg (fun h => Bool.noConfusion h), hasMember_object,
        serverMembers]
      cases hm : members.lookup (lit "server") with
      | none => rfl
      | some v =>
          show (do
            let serverJson ← (Value.object members).index (lit "server")
            if serverJson.isObject = false then .ok refused else body serverJson) = _
          rw [index_object hm]
          cases v with
          | object serverMembers => rfl
          | null | bool | int | double | string | array => rfl
  | null | bool | int | double | string | array => rfl

/-- The four members as `extractSettings` sees them. -/
def settingsOf (members : List (Bytes × Value)) (s : ServerState Address) :
    ServerState Address :=
  { s with
    addressStr := ((view members (lit "address") .string).bind Value.asString).getD s.addressStr
    docRootStr := ((view members (lit "docRoot") .string).bind Value.asString).getD s.docRootStr
    portInt := ((view members (lit "port") .int).bind Value.asInt).getD s.portInt
    threadsNum := ((view members (lit "threadNum") .int).bind Value.asInt).getD s.threadsNum }

/-- What `extractSettings` derives at its end. -/
def derive (makeAddress : Bytes → Option Address) (s : ServerState Address) :
    Outcome Address :=
  match makeAddress s.addressStr with
  | none => .threw s
  | some address =>
      .returned 0 { s with
        address := address
        port := UInt16.ofInt s.portInt
        threadsNum := max 1 s.threadsNum }

/-- **SPECIFICATION**: `extractSettings` refuses a document without a `server`
    object and derives the state from the four members otherwise. -/
theorem extractSettings_eq (makeAddress : Bytes → Option Address) (doc : Value)
    (s : ServerState Address) :
    extractSettings makeAddress doc s = .ok (match serverMembers doc with
      | none => .returned (-1) s
      | some members => derive makeAddress (settingsOf members s)) := by
  rw [extractSettings, withServer_eq]
  cases serverMembers doc with
  | none => rfl
  | some members =>
      simp only [readString_object, readInt_object]
      show (match makeAddress (settingsOf members s).addressStr with
        | none => _
        | some address => _) = _
      rw [derive]
      cases makeAddress (settingsOf members s).addressStr with
      | none => rfl
      | some address => rfl

/-! ## Type safety -/

/-- The paths of the fields of the `server` object, after the object itself. -/
def serverPaths (fields : List (Bytes × Kind)) : List (List Bytes × Kind) :=
  ([lit "server"], Kind.object)
    :: fields.map fun field => ([lit "server", field.1], field.2)

def extractFields : List (Bytes × Kind) :=
  [(lit "address", .string), (lit "docRoot", .string), (lit "port", .int),
    (lit "threadNum", .int)]

def clientFields : List (Bytes × Kind) :=
  [(lit "CaInfoPath", .string), (lit "skipPeerVerification", .bool),
    (lit "skipHostnameVerification", .bool)]

theorem serverMembers_eq_some {doc : Value} {members : List (Bytes × Value)}
    (h : serverMembers doc = some members) :
    ∃ top, doc = Value.object top ∧ top.lookup (lit "server") = some (.object members) := by
  cases doc with
  | object top =>
      rw [serverMembers] at h
      cases hl : top.lookup (lit "server") with
      | none =>
          rw [hl] at h
          cases h
      | some v =>
          rw [hl] at h
          cases v with
          | object members' =>
              rw [← Option.some.inj h]
              exact ⟨top, rfl, hl⟩
          | null | bool | int | double | string | array => cases h
  | null | bool | int | double | string | array => cases h

/-- Leaving out a field of the `server` object. -/
theorem serverMembers_absent {doc : Value} {members : List (Bytes × Value)}
    (h : serverMembers doc = some members) (name : Bytes) :
    serverMembers (absent [lit "server", name] doc)
      = some (members.filter (fun m => m.1 != name)) := by
  obtain ⟨top, rfl, hl⟩ := serverMembers_eq_some h
  show serverMembers (.object (top.map fun m =>
    if m.1 = lit "server" then (m.1, absent [name] m.2) else m)) = _
  rw [serverMembers, lookup_map (absent [name]), if_pos rfl, hl]
  rfl

/-- A path into the `server` object. -/
theorem mistyped_server {doc : Value} {name : Bytes} {kind : Kind} :
    Mistyped [lit "server", name] kind doc
      ↔ ∃ members, serverMembers doc = some members
        ∧ Mistyped [name] kind (.object members) := by
  constructor
  · rintro ⟨m, hm, hkind⟩
    cases doc with
    | object top =>
        obtain ⟨v, hv, hm'⟩ := Option.bind_eq_some_iff.mp hm
        cases v with
        | object members =>
            refine ⟨members, ?_, m, hm', hkind⟩
            rw [serverMembers, hv]
        | null | bool | int | double | string | array => cases hm'
    | null | bool | int | double | string | array => cases hm
  · rintro ⟨members, hs, m, hm, hkind⟩
    obtain ⟨top, rfl, hl⟩ := serverMembers_eq_some hs
    exact ⟨m, by rw [memberAt, hl]; exact hm, hkind⟩

/-- A `server` member that is no object is as good as none. -/
theorem serverMembers_mistyped {doc : Value} (h : Mistyped [lit "server"] .object doc) :
    serverMembers doc = none ∧ serverMembers (absent [lit "server"] doc) = none := by
  cases doc with
  | object top =>
      obtain ⟨m, hm, hkind⟩ := mistyped_single.mp h
      have habsent : (top.filter (fun m => m.1 != lit "server")).lookup (lit "server")
          = none := by rw [lookup_filter, if_pos rfl]
      refine ⟨?_, ?_⟩
      · rw [serverMembers, hm]
        cases m with
        | object members => cases hkind
        | null | bool | int | double | string | array => rfl
      · rw [absent, serverMembers, habsent]
  | null | bool | int | double | string | array =>
      obtain ⟨m, hm, -⟩ := h
      cases hm

/-- A reader of the `server` object is type-safe on a document when its body is on
    the object. -/
theorem withServer_typeSafe {ρ : Type} {doc : Value} {refused : ρ}
    {body : Value → Except Assertion ρ} {fields : List (Bytes × Kind)}
    (h : ∀ members, serverMembers doc = some members →
      TypeSafe body (fields.map fun field => ([field.1], field.2)) (.object members)) :
    TypeSafe (fun doc => withServer doc refused body) (serverPaths fields) doc := by
  constructor
  · show ∃ r, withServer doc refused body = .ok r
    rw [withServer_eq]
    cases hs : serverMembers doc with
    | none => exact ⟨refused, rfl⟩
    | some members => exact (h members hs).1
  · intro field hfield hmis
    show withServer doc refused body = withServer (absent field.1 doc) refused body
    rw [withServer_eq, withServer_eq]
    rcases List.mem_cons.mp hfield with rfl | hmem
    · obtain ⟨hnone, habsent⟩ := serverMembers_mistyped hmis
      rw [hnone, habsent]
    · obtain ⟨field', hfield', rfl⟩ := List.mem_map.mp hmem
      obtain ⟨members, hs, hmis'⟩ := mistyped_server.mp hmis
      rw [serverMembers_absent hs, hs]
      exact (h members hs).2 _ (List.mem_map_of_mem hfield') hmis'

theorem extractSettings_typeSafe (makeAddress : Bytes → Option Address)
    (s : ServerState Address) (doc : Value) :
    TypeSafe (fun doc => extractSettings makeAddress doc s) (serverPaths extractFields)
      doc := by
  refine withServer_typeSafe ?_
  intro members hs
  refine typeSafe_of_cleaner (r := derive makeAddress (settingsOf members s)) (by decide) ?_
  intro members' hclean
  have hsettings : settingsOf members' s = settingsOf members s := by
    simp only [extractFields, Cleaner, List.forall_mem_cons] at hclean
    simp only [settingsOf, hclean]
  simp only [readString_object, readInt_object]
  rw [← hsettings, derive]
  show (match makeAddress (settingsOf members' s).addressStr with
    | none => _
    | some address => _) = _
  cases makeAddress (settingsOf members' s).addressStr with
  | none => rfl
  | some address => rfl

theorem loadSettingsDoc_typeSafe (c : ClientSettings) (doc : Value) :
    TypeSafe (fun doc => loadSettingsDoc doc c)
      (clientFields.map fun field => ([field.1], field.2)) doc := by
  by_cases hdoc : doc.isObject = false
  · refine typeSafe_of_not_object (r := (-1, c)) ?_ hdoc
    show loadSettingsDoc doc c = _
    rw [loadSettingsDoc, if_pos hdoc]
  · cases doc with
    | object members =>
        refine typeSafe_of_cleaner
          (r := (0,
            { CaInfoPath := ((view members (lit "CaInfoPath") .string).bind
                Value.asString).getD c.CaInfoPath
              skipPeerVerification := ((view members (lit "skipPeerVerification") .bool).bind
                Value.asBool).getD c.skipPeerVerification
              skipHostnameVerification := ((view members (lit "skipHostnameVerification")
                .bool).bind Value.asBool).getD c.skipHostnameVerification }))
          (by decide) ?_
        intro members' hclean
        simp only [clientFields, Cleaner, List.forall_mem_cons] at hclean
        show loadSettingsDoc (.object members') c = _
        rw [loadSettingsDoc, if_neg (fun h => Bool.noConfusion h)]
        simp only [readString_object, readBool_object, hclean]
        rfl
    | null | bool | int | double | string | array => exact (hdoc rfl).elim

/-! ## Applied or refused -/

/-- An integer the settings configure for the server. -/
def configured (doc : Value) (name : Bytes) : Option Int :=
  (serverMembers doc).bind fun members => (members.lookup name).bind Value.asInt

/-- The settings are refused and nothing is started. -/
def Refused (makeAddress : Bytes → Option Address) (doc : Value) (hw : UInt32)
    (s : ServerState Address) : Prop :=
  (∃ rc, extractSettings makeAddress doc s = .ok (.returned rc s) ∧ rc < 0)
    ∧ ∃ o, run makeAddress doc hw s = .ok (o, [])

/-- The port and the number of threads are the configured ones, and the server is
    started with them. -/
def Applied (makeAddress : Bytes → Option Address) (doc : Value) (hw : UInt32)
    (s : ServerState Address) : Prop :=
  ∃ s' port threadNum,
    extractSettings makeAddress doc s = .ok (.returned 0 s')
      ∧ configured doc (lit "port") = some port ∧ (s'.port.toNat : Int) = port
      ∧ configured doc (lit "threadNum") = some threadNum
      ∧ s'.threadsNum = max 1 threadNum
      ∧ ∃ o, run makeAddress doc hw s = .ok (o,
          .listener s'.address s'.port
            :: List.replicate s'.threadsNum.toNat .ioThread)

/-- The condition: there is a `server` object, the address in force is valid, the
    port is a 16-bit number, and as many threads are configured as there are in
    hardware. -/
def Fitting (makeAddress : Bytes → Option Address) (doc : Value) (hw : UInt32)
    (s : ServerState Address) : Prop :=
  ∃ members port threadNum,
    serverMembers doc = some members
      ∧ makeAddress (((members.lookup (lit "address")).bind Value.asString).getD
          s.addressStr) ≠ none
      ∧ configured doc (lit "port") = some port ∧ 0 ≤ port ∧ port < 2 ^ 16
      ∧ configured doc (lit "threadNum") = some threadNum
      ∧ max 1 threadNum = hw.toNat

/-- `run` starts a listener whenever it returns, whatever the settings were. -/
theorem run_of_returned {makeAddress : Bytes → Option Address} {doc : Value}
    {s s' : ServerState Address} {rc : Int}
    (h : extractSettings makeAddress doc s = .ok (.returned rc s')) (hw : UInt32) :
    ∃ o, run makeAddress doc hw s
      = .ok (o, .listener s'.address s'.port
          :: List.replicate (narrow 32 hw.toNat).toNat .ioThread) := by
  have hrun : run makeAddress doc hw s = .ok (startServer hw s') := by
    rw [run, h]
    rfl
  rw [hrun, startServer]
  by_cases hneg : narrow 32 hw.toNat < 0
  · rw [if_pos hneg, Int.toNat_of_nonpos (Int.le_of_lt hneg)]
    exact ⟨_, rfl⟩
  · rw [if_neg hneg]
    exact ⟨_, rfl⟩

/-- The number of hardware threads as an `int` starts that many threads, or none
    at all when it does not fit. -/
theorem narrow_hardware (hw : UInt32) :
    (narrow 32 hw.toNat).toNat = if hw.toNat < 2 ^ 31 then hw.toNat else 0 := by
  have hlt := hw.toNat_lt
  by_cases h : hw.toNat < 2 ^ 31
  · have hself : narrow 32 hw.toNat = hw.toNat := by
      rw [narrow_eq_self_iff (by decide)]
      exact ⟨by omega, by omega⟩
    rw [if_pos h, hself, Int.toNat_natCast]
  · have hneg : narrow 32 hw.toNat = hw.toNat - 2 ^ 32 := by
      rw [narrow_eq_iff (by decide)]
      exact ⟨⟨by omega, by omega⟩, by rw [sub_sub_cancel]⟩
    rw [if_neg h, hneg]
    omega

theorem toNat_ofInt (n : Int) : ((UInt16.ofInt n).toNat : Int) = narrowUnsigned 16 n := by
  rw [UInt16.ofInt, UInt16.toNat_ofNat', narrowUnsigned]
  have hlow : 0 ≤ n % 2 ^ 16 := Int.emod_nonneg _ (by decide)
  have hhigh : n % 2 ^ 16 < 2 ^ 16 := Int.emod_lt_of_pos _ (by decide)
  rw [Nat.mod_eq_of_lt (by omega)]
  omega

/-- A successful `derive` had a valid address. -/
theorem derive_returned {makeAddress : Bytes → Option Address}
    {s s' : ServerState Address} {rc : Int}
    (h : derive makeAddress s = .returned rc s') :
    ∃ address, makeAddress s.addressStr = some address
      ∧ s' = { s with
          address := address
          port := UInt16.ofInt s.portInt
          threadsNum := max 1 s.threadsNum } := by
  rw [derive] at h
  cases ha : makeAddress s.addressStr with
  | none =>
      rw [ha] at h
      cases h
  | some address =>
      rw [ha] at h
      injection h with _ hs
      exact ⟨address, rfl, hs.symm⟩

/-- When the settings are taken, and what state they leave. -/
theorem extractSettings_returned_iff {makeAddress : Bytes → Option Address} {doc : Value}
    {s s' : ServerState Address} :
    extractSettings makeAddress doc s = .ok (.returned 0 s')
      ↔ ∃ members address, serverMembers doc = some members
        ∧ makeAddress (settingsOf members s).addressStr = some address
        ∧ s' = { settingsOf members s with
            address := address
            port := UInt16.ofInt (settingsOf members s).portInt
            threadsNum := max 1 (settingsOf members s).threadsNum } := by
  rw [extractSettings_eq]
  cases hm : serverMembers doc with
  | none =>
      refine iff_of_false (fun h => by cases h) ?_
      rintro ⟨members, address, h, -⟩
      cases h
  | some members =>
      show Except.ok (derive makeAddress (settingsOf members s)) = _ ↔ _
      constructor
      · intro h
        injection h with hd
        obtain ⟨address, haddr, hs'⟩ := derive_returned hd
        exact ⟨members, address, rfl, haddr, hs'⟩
      · rintro ⟨members', address, h, haddr, rfl⟩
        obtain rfl := Option.some.inj h
        rw [derive, haddr]

/-- A member that is configured decides the state. -/
theorem settingsOf_configured {doc : Value} {members : List (Bytes × Value)}
    (hm : serverMembers doc = some members) (s : ServerState Address) :
    (∀ n, configured doc (lit "port") = some n → (settingsOf members s).portInt = n)
      ∧ ∀ n, configured doc (lit "threadNum") = some n →
          (settingsOf members s).threadsNum = n := by
  have hconf : ∀ name, configured doc name = (members.lookup name).bind Value.asInt := by
    intro name
    rw [configured, hm, Option.bind_some]
  constructor
  · intro n hn
    rw [hconf, ← view_bind_asInt] at hn
    show ((view members (lit "port") .int).bind Value.asInt).getD s.portInt = n
    rw [hn, Option.getD_some]
  · intro n hn
    rw [hconf, ← view_bind_asInt] at hn
    show ((view members (lit "threadNum") .int).bind Value.asInt).getD s.threadsNum = n
    rw [hn, Option.getD_some]

/-- A configured integer fits into 32 bits. -/
theorem configured_fits {doc : Value} {name : Bytes} {n : Int}
    (h : configured doc name = some n) : Fits 32 n := by
  obtain ⟨members, -, hmem⟩ := Option.bind_eq_some_iff.mp h
  obtain ⟨v, -, hv⟩ := Option.bind_eq_some_iff.mp hmem
  cases v with
  | int k =>
      obtain ⟨hfits, rfl⟩ := checked_eq_some.mp hv
      exact hfits
  | null | bool | double | string | array | object => cases hv

/-- As many threads are started as `n` says exactly when there are `n` in
    hardware; `n` is positive and fits into 32 bits. -/
theorem threads_iff {n : Int} (hpos : 1 ≤ n) (hfits : Fits 32 n) (hw : UInt32) :
    (narrow 32 hw.toNat).toNat = n.toNat ↔ n = hw.toNat := by
  obtain ⟨-, hlt⟩ := hfits
  have hbound : n < 2 ^ 31 := hlt
  rw [narrow_hardware]
  by_cases h : hw.toNat < 2 ^ 31
  · rw [if_pos h]
    omega
  · rw [if_neg h]
    omega

/-- The maximum with one of a configured number. -/
theorem max_configured {doc : Value} {n : Int}
    (h : configured doc (lit "threadNum") = some n) :
    1 ≤ max 1 n ∧ Fits 32 (max 1 n) := by
  obtain ⟨hlow, hhigh⟩ := configured_fits h
  refine ⟨le_max_left 1 n, ?_, ?_⟩
  · exact hlow.trans (le_max_right 1 n)
  · exact max_lt (by decide) hhigh

/-- **HEADLINE**: the settings are applied faithfully or refused exactly for the
    fitting documents. -/
theorem applied_iff (makeAddress : Bytes → Option Address) (doc : Value)
    (hw : UInt32) (s : ServerState Address) :
    (Refused makeAddress doc hw s ∨ Applied makeAddress doc hw s)
      ↔ Fitting makeAddress doc hw s := by
  constructor
  · rintro (⟨⟨rc, hx, -⟩, o, hrun⟩ | ⟨s', port, threadNum, hx, hport, hs', htn, hthreads, o, hrun⟩)
    · -- a refusal does not keep the listener from starting
      obtain ⟨o', hrun'⟩ := run_of_returned hx hw
      rw [hrun'] at hrun
      injection hrun with hpair
      cases (Prod.mk.inj hpair).2
    · obtain ⟨members, address, hm, haddr, rfl⟩ := extractSettings_returned_iff.mp hx
      obtain ⟨hp, -⟩ := settingsOf_configured hm s
      have hrange : 0 ≤ port ∧ port < 2 ^ 16 := by
        rw [← narrowUnsigned_eq_self_iff, ← toNat_ofInt, ← hp port hport]
        exact hs'.trans (hp port hport).symm
      -- the threads that run starts are as many as are configured
      obtain ⟨o', hrun'⟩ := run_of_returned hx hw
      rw [hrun'] at hrun
      injection hrun with hpair
      have hlen := congrArg List.length (List.cons.inj (Prod.mk.inj hpair).2).2
      rw [List.length_replicate, List.length_replicate, hthreads] at hlen
      obtain ⟨hpos, hfits⟩ := max_configured htn
      refine ⟨members, port, threadNum, hm, ?_, hport, hrange.1, hrange.2, htn,
        (threads_iff hpos hfits hw).mp hlen⟩
      rw [← view_bind_asString]
      exact fun hnone => Option.some_ne_none _ (haddr.symm.trans hnone)
  · rintro ⟨members, port, threadNum, hm, haddr, hport, hlow, hhigh, htn, hthreads⟩
    rw [← view_bind_asString] at haddr
    obtain ⟨address, haddr⟩ := Option.ne_none_iff_exists'.mp haddr
    obtain ⟨hp, ht⟩ := settingsOf_configured hm s
    have hx := extractSettings_returned_iff.mpr ⟨members, address, hm, haddr, rfl⟩
    obtain ⟨o, hrun⟩ := run_of_returned hx hw
    obtain ⟨hpos, hfits⟩ := max_configured htn
    have hport' : ((UInt16.ofInt (settingsOf members s).portInt).toNat : Int) = port := by
      rw [toNat_ofInt, hp port hport]
      exact narrowUnsigned_eq_self_iff.mpr ⟨hlow, hhigh⟩
    have hthreads' : max 1 (settingsOf members s).threadsNum = max 1 threadNum := by
      rw [ht threadNum htn]
    refine Or.inr ⟨_, port, threadNum, hx, hport, hport', htn, hthreads', o, ?_⟩
    rw [hrun, (threads_iff hpos hfits hw).mpr hthreads, ← hthreads']

section Overflowing

/-- `{"server": {"address": "0.0.0.0", "port": port, "threadNum": 4}}`. -/
def portDoc (port : Int) : Value :=
  .object [(lit "server", .object [(lit "address", .string (lit "0.0.0.0")),
    (lit "port", .int port), (lit "threadNum", .int 4)])]

/-- An address parser that knows one address. -/
def anyAddress (s : Bytes) : Option Unit := if s = lit "0.0.0.0" then some () else none

/-- A server state whose members hold whatever was in memory. -/
def unset : ServerState Unit := ⟨0, 0, 0, (), [], []⟩

/-- Port 8081 on four hardware threads is a fitting document. -/
example : Fitting anyAddress (portDoc 8081) 4 unset :=
  ⟨_, 8081, 4, rfl, by decide, rfl, by decide, by decide, rfl, rfl⟩

/-- Port 70000 is neither refused nor used: the listener is opened on port 4464. -/
theorem portDoc_not_applied :
    extractSettings anyAddress (portDoc 70000) unset = .ok (.returned 0
        ⟨4464, 4, 70000, (), [], lit "0.0.0.0"⟩)
      ∧ ¬ (Refused anyAddress (portDoc 70000) 4 unset
        ∨ Applied anyAddress (portDoc 70000) 4 unset) := by
  have hx : extractSettings anyAddress (portDoc 70000) unset = .ok (.returned 0
      ⟨4464, 4, 70000, (), [], lit "0.0.0.0"⟩) := by rfl
  refine ⟨hx, ?_⟩
  rintro (⟨⟨rc, hret, hneg⟩, -⟩ | ⟨s', port, threadNum, hret, hport, hs', -⟩)
  · rw [hx] at hret
    injection hret with hret
    injection hret with hrc
    omega
  · rw [hx] at hret
    injection hret with hret
    injection hret with _ hstate
    have h70000 : configured (portDoc 70000) (lit "port") = some 70000 := by rfl
    rw [h70000] at hport
    injection hport with hport
    subst hstate hport
    exact absurd hs' (by decide)

end Overflowing

end HttpSettings
