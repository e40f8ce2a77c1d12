import BookFilerHttp.HttpUrlProofs

/-! # Requests: `RequestImpl`

    The request message as the library reads it, and the wrapper that a route
    handler is given.  `parseRequest` cuts the target at its first question mark
    and fills a URL with the path, the query and the host.

    The headline is `parseRequest_fresh`: on a fresh wrapper and a target that
    starts with a slash, the only call that can raise is the one that sets the
    path, and it raises exactly off the language `pathAbsolute`. -/

namespace HttpRequest

open ByteString BoostUrl HttpQuery HttpUrl

/-! ## The message -/

/-- The methods the code names; every other verb is `other`. -/
inductive Verb where
  | get
  | head
  | post
  | other
  deriving DecidableEq

/-- Methods are compared as they are spelled. -/
def stringToVerb (s : Bytes) : Verb :=
  if s = lit "GET" then .get
  else if s = lit "HEAD" then .head
  else if s = lit "POST" then .post
  else .other

/-- A request message.  `version` is 10 or 11; `keepAlive` is what
    `keep_alive()` answers from the version and the Connection field. -/
structure RequestBeast where
  methodString : Bytes
  target : Bytes
  version : Nat
  keepAlive : Bool
  fields : List (Bytes × Bytes)
  body : Bytes
  deriving DecidableEq

namespace RequestBeast

def method (req : RequestBeast) : Verb := stringToVerb req.methodString

/-- An ASCII letter in lower case. -/
def toLower (c : UInt8) : UInt8 :=
  if 'A'.toUInt8 ≤ c && c ≤ 'Z'.toUInt8 then c + 32 else c

/-- `find`: the value of the first field of that name, in any case. -/
def find (req : RequestBeast) (name : Bytes) : Option Bytes :=
  (req.fields.find? (fun f => f.1.map toLower == name.map toLower)).map Prod.snd

/-- `set`: the fields of that name are erased, one is appended. -/
def set (req : RequestBeast) (name value : Bytes) : RequestBeast :=
  { req with fields :=
    req.fields.filter (fun f => f.1.map toLower != name.map toLower)
      ++ [(name, value)] }

end RequestBeast

/-- The path part of a request target, in front of the first question mark. -/
def targetPath (target : Bytes) : Bytes :=
  substrTo target (findFirstOf '?'.toUInt8 target)

/-- The query part of a request target, behind the first question mark. -/
def targetQuery (target : Bytes) : Bytes :=
  substrFrom target (findFirstOf '?'.toUInt8 target)

/-! ## The wrapper -/

structure RequestImpl where
  requestBeast : Option RequestBeast
  urlPtr : UrlImpl
  methodStr : Bytes
  refererStr : Bytes
  userAgentStr : Bytes

namespace RequestImpl

def fresh : RequestImpl := ⟨none, UrlImpl.fresh, [], [], []⟩

def setRequest (r : RequestImpl) (req : RequestBeast) : Int × RequestImpl :=
  (0, { r with requestBeast := some req })

def url (r : RequestImpl) : Bytes := r.urlPtr.url

def method (r : RequestImpl) : Bytes := r.methodStr

def host (r : RequestImpl) : Bytes := r.urlPtr.base.encodedHost

def path (r : RequestImpl) : Bytes := r.urlPtr.base.encodedPath

def getEncodedQuery (r : RequestImpl) : Bytes := r.urlPtr.getEncodedQuery

def getQuery (r : RequestImpl) (key : Bytes) : Option Bytes :=
  r.urlPtr.getQuery key

/-- The part of `parseRequest` after the path: the query if there was a question
    mark, then the three header fields. -/
def parseRest (r : RequestImpl) (req : RequestBeast) (pos : Option Nat)
    (b : Parts) : RequestImpl :=
  let u : UrlImpl := { r.urlPtr with base := b }
  let u := match pos with
    | some _ => (u.setEncodedQuery (substrFrom req.target pos)).2
    | none => u
  -- after the path, which was checked while the URL had no authority
  let u := match req.find (lit "Host") with
    | some host => { u with base := u.base.setHost host }
    | none => u
  { requestBeast := some req
    urlPtr := u
    methodStr := req.methodString
    userAgentStr := (req.find (lit "User-Agent")).getD r.userAgentStr
    refererStr := (req.find (lit "Referer")).getD r.refererStr }

/-- `parseRequest`: -1 without a request; the exception of `set_encoded_path`
    leaves it. -/
def parseRequest (r : RequestImpl) : Except Exn (Int × RequestImpl) :=
  match r.requestBeast with
  | none => .ok (-1, r)
  | some req =>
      let pos := findFirstOf '?'.toUInt8 req.target
      match r.urlPtr.base.setEncodedPath (substrTo req.target pos) with
      | .ok b => .ok (0, r.parseRest req pos b)
      | .error ex => .error ex

/-! ## What parsing leaves -/

/-- Neither the query nor the host touches the path. -/
theorem parseRest_path (r : RequestImpl) (req : RequestBeast)
    (pos : Option Nat) (b : Parts) : (r.parseRest req pos b).path = b.path := by
  cases hhost : req.find (lit "Host") with
  | none =>
      cases pos with
      | none => simp only [parseRest, hhost, path, Parts.encodedPath]
      | some p =>
          simp only [parseRest, hhost, path, Parts.encodedPath]
          rfl
  | some host =>
      have hframe := (Parts.setHost_frame b host).1
      cases pos with
      | none =>
          simp only [parseRest, hhost, path, Parts.encodedPath]
          exact hframe
      | some p =>
          simp only [parseRest, hhost, path, Parts.encodedPath]
          exact hframe

theorem parseRequest_setRequest (r : RequestImpl) (req : RequestBeast) :
    (r.setRequest req).2.parseRequest
      = (r.urlPtr.base.setEncodedPath (targetPath req.target)).map
          (fun b => (0, r.parseRest req (findFirstOf '?'.toUInt8 req.target) b)) := by
  rw [parseRequest.eq_def]
  show (match r.urlPtr.base.setEncodedPath (targetPath req.target) with
    | .ok b => _
    | .error ex => _) = _
  cases r.urlPtr.base.setEncodedPath (targetPath req.target) with
  | ok b => rfl
  | error ex => rfl

/-- Parsing keeps the message. -/
theorem parseRequest_isSome {r r' : RequestImpl} {rc : Int}
    (h : r.parseRequest = .ok (rc, r')) (hr : r.requestBeast.isSome = true) :
    r'.requestBeast.isSome = true := by
  obtain ⟨req, hreq⟩ := Option.isSome_iff_exists.mp hr
  rw [parseRequest.eq_def, hreq] at h
  change (match r.urlPtr.base.setEncodedPath (targetPath req.target) with
    | .ok b => Except.ok ((0 : Int), r.parseRest req _ b)
    | .error ex => .error ex) = _ at h
  split at h
  · rw [← (Prod.mk.inj (Except.ok.inj h)).2]
    rfl
  · cases h

/-- The path of a target that starts with a slash starts with a slash. -/
theorem targetPath_head {target : Bytes}
    (h : target.head? = some '/'.toUInt8) :
    (targetPath target).head? = some '/'.toUInt8 := by
  rw [targetPath]
  cases hpos : findFirstOf '?'.toUInt8 target with
  | none => exact h
  | some pos =>
      cases target with
      | nil => cases h
      | cons c rest =>
          have hc : c = '/'.toUInt8 := Option.some.inj h
          subst hc
          -- the slash is no question mark, so the cut is behind it
          have hne : ¬ ('/'.toUInt8 : UInt8) = '?'.toUInt8 := by decide
          rw [findFirstOf, if_neg hne] at hpos
          obtain ⟨p, -, hp⟩ := Option.map_eq_some_iff.mp hpos
          rw [← hp]
          rfl

/-- **PARSING A FRESH REQUEST**: it succeeds exactly when the path part of the
    target is in `pathAbsolute`, and then the path is that part. -/
theorem parseRequest_fresh {req : RequestBeast}
    (h : req.target.head? = some '/'.toUInt8) :
    if pathAbsolute (targetPath req.target) then
      ∃ r, (fresh.setRequest req).2.parseRequest = .ok (0, r)
        ∧ r.requestBeast = some req ∧ r.path = targetPath req.target
    else (fresh.setRequest req).2.parseRequest = .error .invalidPart := by
  have hset := Parts.setEncodedPath_absolute (u := fresh.urlPtr.base) rfl
    (targetPath_head h)
  split
  · next hacc =>
      rw [if_pos hacc] at hset
      refine ⟨fresh.parseRest req (findFirstOf '?'.toUInt8 req.target)
        { fresh.urlPtr.base with path := targetPath req.target }, ?_, rfl, ?_⟩
      · rw [parseRequest_setRequest, hset]
        rfl
      · exact parseRest_path ..
  · next hacc =>
      rw [if_neg hacc] at hset
      rw [parseRequest_setRequest, hset]
      rfl

end RequestImpl

/-! ## The query round trip -/

/-- **QUERY ROUND TRIP**: the target that a URL builds after `setQuery`, cut at
    its first question mark as `parseRequest` cuts it, gives back the path and,
    read by a fresh query, exactly the parameters of the map. -/
theorem target_query_roundtrip (u : UrlImpl) (m : QueryMap)
    (hm : m.entries ≠ []) (hpath : '?'.toUInt8 ∉ u.base.encodedPath) :
    targetPath (u.setQuery m).2.target = u.base.encodedPath
      ∧ (QueryImpl.fresh.setEncodedQuery
          (targetQuery (u.setQuery m).2.target)).2.queryMap = m
      ∧ ∀ key, (QueryImpl.fresh.setEncodedQuery
          (targetQuery (u.setQuery m).2.target)).2.getQuery key
            = OrdMap.find key m := by
  obtain ⟨hhead, htail⟩ := substr_append (flattenQueryMap m) hpath
  rw [UrlImpl.setQuery_target, targetPath, targetQuery, hhead, htail]
  refine ⟨rfl, generateQueryMap_flatten hm, ?_⟩
  exact fun key => getQuery_setEncodedQuery_flatten hm key

/-- A map whose keys and values hold separators, a percent sign, a question mark
    and bytes outside ASCII, on a URL with a path. -/
theorem target_query_roundtrip_separators :
    let m : QueryMap := OrdMap.insertAll
      [(lit "a&b", lit "=%?"), (lit "", [0x00, 0xFF])] OrdMap.empty
    let u : UrlImpl := ⟨QueryImpl.fresh, { path := lit "/a/b" }⟩
    let target := (u.setQuery m).2.target
    targetPath target = lit "/a/b"
      ∧ (QueryImpl.fresh.setEncodedQuery (targetQuery target)).2.queryMap = m
      ∧ ∀ key, (QueryImpl.fresh.setEncodedQuery (targetQuery target)).2.getQuery key
          = OrdMap.find key m :=
  target_query_roundtrip ⟨QueryImpl.fresh, { path := lit "/a/b" }⟩
    (OrdMap.insertAll [(lit "a&b", lit "=%?"), (lit "", [0x00, 0xFF])] OrdMap.empty)
    (by decide) (by decide)

end HttpRequest
