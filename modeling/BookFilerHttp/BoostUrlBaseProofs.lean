import BookFilerHttp.BoostUrlParseProofs

/-! # The vendored URL library: `url_base`

    The observers and setters of the mutable URL.  The buffer with its table of
    offsets is kept as the list of its parts: `resize` of a part followed by a
    write of all its bytes replaces that part and shifts the others, which is an
    update of one field here.  A setter that validates raises `invalid_part`
    BEFORE it writes.  (`too_large` needs a buffer of 2^64 bytes and is left out.)

    Each setter comes with what it leaves alone, so later modules never unfold
    it. -/

namespace BoostUrl

open ByteString

/-- The exceptions a setter raises. -/
inductive Exn where
  | invalidPart
  deriving DecidableEq

/-- `parse_plain_hostname`: the kind of a host that is set unencoded. -/
def parsePlainHostname (s : Bytes) : HostType :=
  match parseIpLiteral s with
  | .ok [] => .ipv6
  | .ok _ => .name
  | .error .noMatch => if matchIpV4 s = some [] then .ipv4 else .name
  | .error _ => .name

/-- A parsing function accepts: no error, and the input is used up. -/
def accepts (r : Except Error Bytes) : Bool :=
  match r with
  | .ok [] => true
  | _ => false

/-- A text is accepted when the parser takes it to its end. -/
theorem accepts_iff (r : Except Error Bytes) : accepts r = true ↔ r = .ok [] := by
  rcases r with _ | _ | _ <;> simp [accepts]

/-- A string that `set_encoded_query` takes. -/
def acceptsQuery (s : Bytes) : Bool :=
  match queryPctSet.decodedSize s with
  | .ok _ => true
  | .error _ => false

namespace Parts

/-! ## Observers -/

/-- The buffer as a whole. -/
def encodedUrl (u : Parts) : Bytes :=
  u.scheme ++ u.user ++ u.password ++ u.host ++ u.port ++ u.path ++ u.query
    ++ u.frag

/-- `scheme()`: without the colon. -/
def schemeStr (u : Parts) : Bytes := u.scheme.dropLast

def hasAuthority (u : Parts) : Bool :=
  !(u.user ++ u.password ++ u.host ++ u.port).isEmpty

def encodedHost (u : Parts) : Bytes := u.host

def encodedPath (u : Parts) : Bytes := u.path

/-- `encoded_query()`: without the question mark. -/
def encodedQuery (u : Parts) : Bytes := u.query.drop 1

/-! ## Setters -/

def setScheme (u : Parts) (s : Bytes) : Except Exn Parts :=
  if s = [] then .ok { u with scheme := [] }
  else if matchScheme s = some [] then .ok { u with scheme := s ++ lit ":" }
  else .error .invalidPart

/-- The host bytes and type are written; a URL without authority gets the two
    slashes first. -/
def putHost (u : Parts) (host : Bytes) (t : HostType) : Parts :=
  if u.hasAuthority then { u with host := host, hostType := t }
  else { u with user := lit "//", password := [], host := host, hostType := t }

/-- `set_host`: never raises; a name is percent-encoded, an address is copied. -/
def setHost (u : Parts) (s : Bytes) : Parts :=
  if s = [] then
    -- an authority of two slashes only is dropped
    if u.user.length + u.password.length = 2 ∧ u.port.length = 0 then
      { u with user := [], password := [], host := [], port := [] }
    else { u with host := [] }
  else
    match parsePlainHostname s with
    | .name => u.putHost (regNamePctSet.encode s) .name
    | t => u.putHost s t

def setEncodedHost (u : Parts) (s : Bytes) : Except Exn Parts :=
  if s = [] then .ok (u.setHost s)
  else
    match parseHostname s with
    | .ok (t, []) => .ok (u.putHost s t)
    | _ => .error .invalidPart

/-- The path form `set_encoded_path` requires in the URL's present state. -/
def acceptsPath (u : Parts) (s : Bytes) : Bool :=
  if u.hasAuthority then accepts (parsePathAbempty s)
  else if s.head? = some '/'.toUInt8 then accepts (parsePathAbsolute s)
  else if u.scheme.length = 0 then accepts (parsePathNoscheme s)
  else accepts (parsePathRootless s)

def setEncodedPath (u : Parts) (s : Bytes) : Except Exn Parts :=
  if s = [] then .ok { u with path := [] }
  else if u.acceptsPath s then .ok { u with path := s }
  else .error .invalidPart

/-- `set_query`: encodes, never raises. -/
def setQuery (u : Parts) (s : Bytes) : Parts :=
  if s = [] then { u with query := [] }
  else { u with query := lit "?" ++ queryPctSet.encode s }

def setEncodedQuery (u : Parts) (s : Bytes) : Except Exn Parts :=
  if s = [] then .ok { u with query := [] }
  else
    match queryPctSet.decodedSize s with
    | .ok _ => .ok { u with query := lit "?" ++ s }
    | .error _ => .error .invalidPart

/-- `set_encoded_url`: the whole URL is replaced, or nothing changes. -/
def setEncodedUrl (u : Parts) (s : Bytes) : Except Exn Parts :=
  if s = [] then .ok { hostType := u.hostType }
  else
    match parseUrl s with
    | .ok pt => .ok pt
    | .error _ => .error .invalidPart

/-! ## What a setter changes -/

theorem putHost_path (u : Parts) (h : Bytes) (t : HostType) :
    (u.putHost h t).path = u.path := by
  rw [putHost]
  split <;> rfl

theorem putHost_query (u : Parts) (h : Bytes) (t : HostType) :
    (u.putHost h t).query = u.query := by
  rw [putHost]
  split <;> rfl

/-- Setting the host leaves path and query alone. -/
theorem setHost_frame (u : Parts) (s : Bytes) :
    (u.setHost s).path = u.path ∧ (u.setHost s).query = u.query := by
  rw [setHost]
  by_cases hs : s = []
  · rw [if_pos hs]
    split <;> exact ⟨rfl, rfl⟩
  · rw [if_neg hs]
    split <;> exact ⟨putHost_path u _ _, putHost_query u _ _⟩

theorem setHost_frag (u : Parts) (s : Bytes) : (u.setHost s).frag = u.frag := by
  have hput : ∀ h t, (u.putHost h t).frag = u.frag := by
    intro h t
    rw [putHost]
    split <;> rfl
  rw [setHost]
  by_cases hs : s = []
  · rw [if_pos hs]
    split <;> rfl
  · rw [if_neg hs]
    split <;> exact hput ..

/-- Setting a host leaves the path and the query alone. -/
theorem setEncodedHost_frame {u u' : Parts} {s : Bytes}
    (h : u.setEncodedHost s = .ok u') : u'.path = u.path ∧ u'.query = u.query := by
  rw [setEncodedHost] at h
  by_cases hs : s = []
  · rw [if_pos hs] at h
    rw [← Except.ok.inj h]
    exact setHost_frame u s
  · rw [if_neg hs] at h
    split at h
    · rw [← Except.ok.inj h]
      exact ⟨putHost_path u _ _, putHost_query u _ _⟩
    · cases h

/-- Setting a scheme leaves the path and the query alone. -/
theorem setScheme_frame {u u' : Parts} {s : Bytes}
    (h : u.setScheme s = .ok u') : u'.path = u.path ∧ u'.query = u.query := by
  rw [setScheme] at h
  split at h
  · rw [← Except.ok.inj h]
    exact ⟨rfl, rfl⟩
  · split at h
    · rw [← Except.ok.inj h]
      exact ⟨rfl, rfl⟩
    · cases h

/-- A path that is set is the path, and only the path changes. -/
theorem setEncodedPath_ok {u u' : Parts} {s : Bytes}
    (h : u.setEncodedPath s = .ok u') : u' = { u with path := s } := by
  rw [setEncodedPath] at h
  split at h
  · next hs =>
      rw [hs]
      exact (Except.ok.inj h).symm
  · split at h
    · exact (Except.ok.inj h).symm
    · cases h

/-- On a URL without authority a path that starts with a slash is accepted
    exactly on `pathAbsolute`. -/
theorem setEncodedPath_absolute {u : Parts} {s : Bytes}
    (hu : u.hasAuthority = false) (hs : s.head? = some '/'.toUInt8) :
    u.setEncodedPath s
      = if pathAbsolute s then .ok { u with path := s }
        else .error .invalidPart := by
  have hne : ¬ s = [] := by
    rintro rfl
    cases hs
  have hacc : u.acceptsPath s = pathAbsolute s := by
    rw [acceptsPath, hu, if_neg Bool.false_ne_true, if_pos hs, Bool.eq_iff_iff,
      accepts_iff, parsePathAbsolute_eq_nil]
  rw [setEncodedPath, if_neg hne, hacc]

/-- An encoded query that is set is the query component, and only the query
    changes. -/
theorem setEncodedQuery_ok {u u' : Parts} {s : Bytes}
    (h : u.setEncodedQuery s = .ok u') :
    u'.encodedQuery = s ∧ u'.path = u.path := by
  rw [setEncodedQuery] at h
  split at h
  · next hs =>
      rw [← Except.ok.inj h, hs]
      exact ⟨rfl, rfl⟩
  · split at h
    · rw [← Except.ok.inj h]
      exact ⟨rfl, rfl⟩
    · cases h

/-- `set_encoded_query` raises exactly on the strings it does not take, and then
    the caller keeps the URL it had. -/
theorem setEncodedQuery_error_iff (u : Parts) (s : Bytes) :
    (∃ ex, u.setEncodedQuery s = .error ex) ↔ acceptsQuery s = false := by
  rw [setEncodedQuery, acceptsQuery]
  by_cases hs : s = []
  · rw [if_pos hs, hs]
    exact ⟨fun ⟨ex, h⟩ => (nomatch h), fun h => (nomatch h)⟩
  · rw [if_neg hs]
    cases queryPctSet.decodedSize s with
    | ok n => exact ⟨fun ⟨ex, h⟩ => (nomatch h), fun h => (nomatch h)⟩
    | error e => exact ⟨fun _ => rfl, fun _ => ⟨.invalidPart, rfl⟩⟩

/-- Encoding writes at least one byte for each character. -/
theorem encode_eq_nil {e : PctEncoding} {s : Bytes} :
    e.encode s = [] ↔ s = [] := by
  constructor
  · intro h
    cases s with
    | nil => rfl
    | cons c p =>
        rw [PctEncoding.encode, List.flatMap_cons] at h
        have h0 := (List.append_eq_nil_iff.mp h).1
        split at h0
        · cases h0
        · cases h0
  · rintro rfl
    rfl

/-- `set_query` leaves an empty query component only on the empty string. -/
theorem setQuery_eq_nil (u : Parts) (s : Bytes) :
    (u.setQuery s).encodedQuery = [] ↔ s = [] := by
  rw [setQuery]
  by_cases hs : s = []
  · rw [if_pos hs, hs]
    exact ⟨fun _ => rfl, fun _ => rfl⟩
  · rw [if_neg hs]
    show queryPctSet.encode s = [] ↔ s = []
    exact encode_eq_nil

end Parts

end BoostUrl
