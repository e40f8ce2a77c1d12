import BookFilerHttp.HttpRequestProofs
import BookFilerHttp.HttpQueryGrammarProofs

/-! # Parsing a second request on one `RequestImpl`

    `parseRequest` writes the query only when the target has a question mark and the
    host only when there is a Host field, and a query that is set inserts its
    parameters into those that are there.  A wrapper that parses a second message, a
    new one or its own after an edit, may therefore still show the first one.

    `Bare` describes the URL after a request by the host that was set, `parse_shows`
    and `parsed_shows` say what a parse shows, and `forgets_iff` says for which two requests nothing of
    the first is left. -/

namespace HttpReparse

open ByteString BoostUrl HttpQuery HttpUrl HttpRequest HttpQueryGrammar

/-! ## Requests and what they show -/

/-- A handler edits the message obtained from `getRequest()`. -/
def editRequest (r : RequestImpl) (edit : RequestBeast → RequestBeast) : RequestImpl :=
  { r with requestBeast := r.requestBeast.map edit }

/-- A fresh wrapper takes the request and ends in the state `s`. -/
def ParsedFresh (req : RequestBeast) (s : RequestImpl) : Prop :=
  (RequestImpl.fresh.setRequest req).2.parseRequest = .ok (0, s)

/-- Two wrappers answer alike. -/
structure SameView (s s' : RequestImpl) : Prop where
  method : s.method = s'.method
  host : s.host = s'.host
  path : s.path = s'.path
  encodedQuery : s.getEncodedQuery = s'.getEncodedQuery
  query : ∀ key, s.getQuery key = s'.getQuery key

/-- The second request is parsed as on a fresh wrapper, given to the wrapper or made
    by an edit. -/
def Forgets (s₁ s₂ : RequestImpl) (r₁ r₂ : RequestBeast) : Prop :=
  (∃ s, (s₁.setRequest r₂).2.parseRequest = .ok (0, s) ∧ SameView s s₂)
    ∧ ∀ edit, edit r₁ = r₂ →
        ∃ s, (editRequest s₁ edit).parseRequest = .ok (0, s) ∧ SameView s s₂

/-- The value of the Host field, empty when there is none. -/
def hostField (req : RequestBeast) : Bytes := (req.find (lit "Host")).getD []

/-- The parameters in the query of a target. -/
def parameters (target : Bytes) : List (Bytes × Bytes) :=
  if '?'.toUInt8 ∈ target then (pieces (targetQuery target)).map decodePart else []

/-- The condition: the path of the second request is a path behind an authority, if
    the first left one; its query gives every parameter of the first the same value,
    or neither has one; and it has a Host field, if the first had. -/
structure Forgettable (r₁ r₂ : RequestBeast) : Prop where
  path : hostField r₁ = [] ∨ targetPath r₂.target = []
    ∨ ∃ p, targetPath r₂.target = '/'.toUInt8 :: p ∧ pathTail p = true
  query : if '?'.toUInt8 ∈ r₂.target then
      ∀ k v, OrdMap.findL k (parameters r₁.target) = some v →
        OrdMap.findL k (parameters r₂.target) = some v
    else '?'.toUInt8 ∉ r₁.target
  host : r₂.find (lit "Host") = none → hostField r₁ = []

/-! ## The URL of a request -/

/-- The host as `set_host` stores it. -/
def hostText (host : Bytes) : Bytes :=
  match parsePlainHostname host with
  | .name => regNamePctSet.encode host
  | _ => host

/-- A URL with a host only: two slashes and the host, or nothing at all. -/
structure Bare (u : Parts) (host : Bytes) : Prop where
  scheme : u.scheme = []
  user : u.user = if host = [] then [] else lit "//"
  password : u.password = []
  host : u.host = hostText host
  port : u.port = []

theorem hostText_eq_nil {host : Bytes} : hostText host = [] ↔ host = [] := by
  rw [hostText]
  split
  · exact Parts.encode_eq_nil
  · exact Iff.rfl

theorem bare_fresh : Bare UrlImpl.fresh.base [] := ⟨rfl, rfl, rfl, rfl, rfl⟩

/-- There is an authority exactly when a host was set. -/
theorem bare_hasAuthority {u : Parts} {host : Bytes} (h : Bare u host) :
    u.hasAuthority = decide (host ≠ []) := by
  rw [Parts.hasAuthority, h.user, h.password, h.port, h.host]
  by_cases hnil : host = []
  · subst hnil
    rfl
  · rw [if_neg hnil]
    simp [hnil, lit]

theorem bare_setHost {u : Parts} {old : Bytes} (h : Bare u old) (host : Bytes) :
    Bare (u.setHost host) host := by
  have huser : u.user = [] ∨ u.user = lit "//" := by
    rw [h.user]
    by_cases hnil : old = []
    · exact Or.inl (if_pos hnil)
    · exact Or.inr (if_neg hnil)
  by_cases hs : host = []
  · subst hs
    rw [Parts.setHost, if_pos rfl]
    rcases huser with hu | hu
    · rw [if_neg (by rw [hu, h.password]; simp)]
      exact ⟨h.scheme, hu, h.password, rfl, h.port⟩
    · rw [if_pos ⟨by rw [hu, h.password]; rfl, by rw [h.port]; rfl⟩]
      exact ⟨h.scheme, rfl, rfl, rfl, rfl⟩
  · have hput : ∀ (text : Bytes) (t : HostType), hostText host = text →
        Bare (u.putHost text t) host := by
      intro text t htext
      rw [Parts.putHost]
      by_cases hauth : u.hasAuthority = true
      · -- the authority is the one of an earlier host
        have hold : old ≠ [] := by
          rw [bare_hasAuthority h] at hauth
          exact of_decide_eq_true hauth
        rw [if_pos hauth]
        refine ⟨h.scheme, ?_, h.password, htext.symm, h.port⟩
        rw [if_neg hs, h.user, if_neg hold]
      · rw [if_neg hauth]
        exact ⟨h.scheme, (if_neg hs).symm, rfl, htext.symm, h.port⟩
    rw [Parts.setHost, if_neg hs]
    rw [hostText] at hput
    cases hk : parsePlainHostname host with
    | name => exact hput _ _ (by rw [hk])
    | ipv4 => exact hput _ _ (by rw [hk])
    | ipv6 => exact hput _ _ (by rw [hk])
    | none => exact hput _ _ (by rw [hk])

/-! ## One parse -/

/-- The query of a wrapper after a parse: untouched without a question mark. -/
def queryAfter (q : QueryImpl) (target : Bytes) : QueryImpl :=
  if '?'.toUInt8 ∈ target then (q.setEncodedQuery (targetQuery target)).2 else q

/-- What a wrapper holds after it has parsed a request. -/
structure Shows (s : RequestImpl) (req : RequestBeast) (q : QueryImpl) (host : Bytes) :
    Prop where
  message : s.requestBeast = some req
  method : s.methodStr = req.methodString
  query : s.urlPtr.query = q
  bare : Bare s.urlPtr.base host
  path : s.path = targetPath req.target

theorem exists_findFirstOf {c : UInt8} {s : Bytes} (h : c ∈ s) :
    ∃ pos, findFirstOf c s = some pos := by
  obtain ⟨a, b, rfl, ha⟩ := List.eq_append_cons_of_mem h
  exact ⟨a.length, findFirstOf_append b ha⟩

/-- Behind the path, only a Host field changes the base of the URL. -/
theorem parseRest_base (r : RequestImpl) (req : RequestBeast) (pos : Option Nat) (b : Parts) :
    (r.parseRest req pos b).urlPtr.base
      = match req.find (lit "Host") with
        | some host => b.setHost host
        | none => b := by
  rw [RequestImpl.parseRest.eq_def]
  cases pos <;> cases req.find (lit "Host") <;> rfl

/-- Behind the path, a parse writes the query and the host. -/
theorem parseRest_shows {r : RequestImpl} {old : Bytes} {b : Parts} (hb : Bare b old)
    (req : RequestBeast) (hpath : b.path = targetPath req.target) :
    Shows (r.parseRest req (findFirstOf '?'.toUInt8 req.target) b) req
      (queryAfter r.urlPtr.query req.target) ((req.find (lit "Host")).getD old) where
  message := rfl
  method := rfl
  query := by
    rw [RequestImpl.parseRest.eq_def, queryAfter]
    by_cases hq : '?'.toUInt8 ∈ req.target
    · obtain ⟨pos, hpos⟩ := exists_findFirstOf hq
      rw [if_pos hq, targetQuery, hpos]
      cases req.find (lit "Host") <;> rfl
    · rw [if_neg hq, findFirstOf_eq_none hq]
      cases req.find (lit "Host") <;> rfl
  bare := by
    rw [parseRest_base]
    cases req.find (lit "Host") with
    | none => exact hb
    | some host => exact bare_setHost hb host
  path := by rw [RequestImpl.parseRest_path, hpath]

theorem setEncodedPath_eq (u : Parts) (s : Bytes) :
    u.setEncodedPath s
      = if s = [] ∨ u.acceptsPath s = true then .ok { u with path := s }
        else .error .invalidPart := by
  rw [Parts.setEncodedPath]
  by_cases hs : s = []
  · rw [if_pos hs, if_pos (Or.inl hs), hs]
  · rw [if_neg hs]
    by_cases hacc : u.acceptsPath s = true
    · rw [if_pos hacc, if_pos (Or.inr hacc)]
    · rw [if_neg hacc, if_neg (not_or.mpr ⟨hs, hacc⟩)]

/-- **ONE PARSE**: it succeeds exactly when the path may stand where the earlier host
    leaves it, and then the wrapper shows the request. -/
theorem parse_shows {r : RequestImpl} {old : Bytes} (hb : Bare r.urlPtr.base old)
    (req : RequestBeast) :
    (∃ s, (r.setRequest req).2.parseRequest = .ok (0, s)
        ∧ (targetPath req.target = []
          ∨ r.urlPtr.base.acceptsPath (targetPath req.target) = true)
        ∧ Shows s req (queryAfter r.urlPtr.query req.target)
          ((req.find (lit "Host")).getD old))
      ∨ ((r.setRequest req).2.parseRequest = .error .invalidPart
        ∧ ¬ (targetPath req.target = []
          ∨ r.urlPtr.base.acceptsPath (targetPath req.target) = true)) := by
  rw [RequestImpl.parseRequest_setRequest, setEncodedPath_eq]
  by_cases hacc : targetPath req.target = []
      ∨ r.urlPtr.base.acceptsPath (targetPath req.target) = true
  · have hbare : Bare { r.urlPtr.base with path := targetPath req.target } old :=
      ⟨hb.scheme, hb.user, hb.password, hb.host, hb.port⟩
    rw [if_pos hacc]
    exact Or.inl ⟨_, rfl, hacc, parseRest_shows hbare req rfl⟩
  · rw [if_neg hacc]
    exact Or.inr ⟨rfl, hacc⟩

/-- A fresh wrapper that takes a request shows it and nothing else. -/
theorem parsed_shows {req : RequestBeast} {s : RequestImpl} (h : ParsedFresh req s) :
    (targetPath req.target = []
        ∨ UrlImpl.fresh.base.acceptsPath (targetPath req.target) = true)
      ∧ Shows s req (queryAfter QueryImpl.fresh req.target) (hostField req) := by
  rcases parse_shows (r := RequestImpl.fresh) bare_fresh req with
    ⟨s', hs', hacc, hshows⟩ | ⟨herror, -⟩
  · have hsame : s' = s := (Prod.mk.inj (Except.ok.inj (hs'.symm.trans h))).2
    rw [← hsame]
    exact ⟨hacc, hshows⟩
  · cases herror.symm.trans h

/-- Where the path of a second request may stand. -/
theorem bare_acceptsPath {u : Parts} {host : Bytes} (h : Bare u host) (p : Bytes) :
    u.acceptsPath p = true
      ↔ if host = [] then UrlImpl.fresh.base.acceptsPath p = true
        else p = [] ∨ ∃ q, p = '/'.toUInt8 :: q ∧ pathTail q = true := by
  rw [Parts.acceptsPath, bare_hasAuthority h]
  by_cases hnil : host = []
  · rw [if_pos hnil, if_neg (by simp [hnil]), h.scheme]
    rfl
  · rw [if_neg hnil, if_pos (decide_eq_true hnil), accepts_iff]
    exact parseSegments_eq_nil p

/-! ## The stored parameters -/

/-- What the wrapper of a first request stores. -/
theorem find_queryAfter_fresh (target k : Bytes) :
    (queryAfter QueryImpl.fresh target).getQuery k = OrdMap.findL k (parameters target) := by
  rw [queryAfter, parameters]
  by_cases hq : '?'.toUInt8 ∈ target
  · rw [if_pos hq, if_pos hq]
    show OrdMap.find k (OrdMap.insertAll ((pieces (targetQuery target)).map decodePart)
      OrdMap.empty) = _
    rw [OrdMap.find_insertAll, OrdMap.find_empty, Option.none_or]
  · rw [if_neg hq, if_neg hq]
    rfl

/-- A query string has a piece, so something is stored for it. -/
theorem parameters_some {target : Bytes} (h : '?'.toUInt8 ∈ target) :
    ∃ k v, OrdMap.findL k (parameters target) = some v := by
  rw [parameters, if_pos h]
  have hne : pieces (targetQuery target) ≠ [] := List.splitOn_ne_nil _ _
  obtain ⟨piece, rest, hp⟩ := List.exists_cons_of_ne_nil hne
  refine ⟨(decodePart piece).1, (decodePart piece).2, ?_⟩
  rw [hp]
  exact if_pos rfl

/-- The queries of the two wrappers answer alike exactly under the condition. -/
theorem query_iff (t₁ t₂ : Bytes) :
    SameAnswers (queryAfter (queryAfter QueryImpl.fresh t₁) t₂) (queryAfter QueryImpl.fresh t₂)
      ↔ if '?'.toUInt8 ∈ t₂ then
          ∀ k v, OrdMap.findL k (parameters t₁) = some v →
            OrdMap.findL k (parameters t₂) = some v
        else '?'.toUInt8 ∉ t₁ := by
  by_cases h₂ : '?'.toUInt8 ∈ t₂
  · have hreplaces := replaces_call_iff (queryAfter QueryImpl.fresh t₁)
      (.setEncodedQuery (targetQuery t₂))
    have hparameters : parameters t₂ = (pieces (targetQuery t₂)).map decodePart := if_pos h₂
    rw [if_pos h₂, hparameters, queryAfter, if_pos h₂, queryAfter.eq_def _ t₂, if_pos h₂]
    refine hreplaces.trans ?_
    simp only [Supplants, find_queryAfter_fresh]
  · rw [if_neg h₂, queryAfter, if_neg h₂, queryAfter.eq_def _ t₂, if_neg h₂]
    constructor
    · rintro ⟨-, hall⟩ h₁
      obtain ⟨k, v, hkv⟩ := parameters_some h₁
      rw [← find_queryAfter_fresh, hall k] at hkv
      cases hkv
    · intro h₁
      rw [queryAfter, if_neg h₁]
      exact ⟨rfl, fun _ => rfl⟩

/-! ## Two parses -/

/-- An edit of the message is another message. -/
theorem editRequest_eq {s : RequestImpl} {r₁ r₂ : RequestBeast}
    (h : s.requestBeast = some r₁) {edit : RequestBeast → RequestBeast}
    (hedit : edit r₁ = r₂) : editRequest s edit = (s.setRequest r₂).2 := by
  rw [editRequest, h, Option.map_some, hedit]
  rfl

/-- Two wrappers that show the same request answer alike exactly when their queries
    and their hosts do. -/
theorem sameView_iff {s s' : RequestImpl} {req : RequestBeast} {q q' : QueryImpl}
    {host host' : Bytes} (h : Shows s req q host) (h' : Shows s' req q' host') :
    SameView s s' ↔ SameAnswers q q' ∧ hostText host = hostText host' := by
  have hhost : s.host = hostText host ∧ s'.host = hostText host' := ⟨h.bare.host, h'.bare.host⟩
  constructor
  · intro hv
    refine ⟨⟨?_, ?_⟩, ?_⟩
    · rw [← h.query, ← h'.query]
      exact hv.encodedQuery
    · rw [← h.query, ← h'.query]
      exact hv.query
    · rw [← hhost.1, ← hhost.2]
      exact hv.host
  · rintro ⟨⟨hencoded, hquery⟩, htext⟩
    rw [← h.query, ← h'.query] at hencoded hquery
    exact {
      method := h.method.trans h'.method.symm
      host := by rw [hhost.1, hhost.2, htext]
      path := h.path.trans h'.path.symm
      encodedQuery := hencoded
      query := hquery }

/-- The hosts agree when the second request has a Host field or the first set none. -/
theorem host_iff (r₁ r₂ : RequestBeast) :
    hostText ((r₂.find (lit "Host")).getD (hostField r₁)) = hostText (hostField r₂)
      ↔ (r₂.find (lit "Host") = none → hostField r₁ = []) := by
  rw [hostField.eq_def r₂]
  cases hfind : r₂.find (lit "Host") with
  | none =>
      rw [Option.getD_none, Option.getD_none, hostText_eq_nil.mpr rfl, hostText_eq_nil]
      exact ⟨fun h _ => h, fun h => h rfl⟩
  | some host =>
      refine iff_of_true rfl ?_
      intro h
      cases h

/-- **HEADLINE**: of two requests that a fresh wrapper takes, the second parse on one
    wrapper forgets the first exactly under the condition. -/
theorem forgets_iff {r₁ r₂ : RequestBeast} {s₁ s₂ : RequestImpl}
    (h₁ : ParsedFresh r₁ s₁) (h₂ : ParsedFresh r₂ s₂) :
    Forgets s₁ s₂ r₁ r₂ ↔ Forgettable r₁ r₂ := by
  obtain ⟨-, hshows₁⟩ := parsed_shows h₁
  obtain ⟨hfresh₂, hshows₂⟩ := parsed_shows h₂
  have hset : Forgets s₁ s₂ r₁ r₂
      ↔ ∃ s, (s₁.setRequest r₂).2.parseRequest = .ok (0, s) ∧ SameView s s₂ := by
    refine and_iff_left_of_imp ?_
    intro h edit hedit
    rw [editRequest_eq hshows₁.message hedit]
    exact h
  have hpath : (targetPath r₂.target = []
        ∨ s₁.urlPtr.base.acceptsPath (targetPath r₂.target) = true)
      ↔ hostField r₁ = [] ∨ targetPath r₂.target = []
        ∨ ∃ p, targetPath r₂.target = '/'.toUInt8 :: p ∧ pathTail p = true := by
    rw [bare_acceptsPath hshows₁.bare]
    by_cases hnil : hostField r₁ = []
    · rw [if_pos hnil]
      exact iff_of_true hfresh₂ (Or.inl hnil)
    · rw [if_neg hnil]
      simp only [hnil, false_or, or_self_left]
  have hquery := query_iff r₁.target r₂.target
  have hhost := host_iff r₁ r₂
  rw [hset]
  rcases parse_shows hshows₁.bare r₂ with ⟨s, hs, hacc, hshows⟩ | ⟨herror, hno⟩
  · rw [hshows₁.query] at hshows
    have hview := sameView_iff hshows hshows₂
    constructor
    · rintro ⟨s', hs', hsame⟩
      have heq : s' = s := (Prod.mk.inj (Except.ok.inj (hs'.symm.trans hs))).2
      rw [heq, hview, hquery, hhost] at hsame
      exact ⟨hpath.mp hacc, hsame.1, hsame.2⟩
    · intro hcond
      exact ⟨s, hs, hview.mpr ⟨hquery.mpr hcond.query, hhost.mpr hcond.host⟩⟩
  · constructor
    · rintro ⟨s', hs', -⟩
      cases herror.symm.trans hs'
    · intro hcond
      exact (hno (hpath.mpr hcond.path)).elim

/-- A GET request with an optional Host field. -/
def pageRequest (target : Bytes) (host : Option Bytes) : RequestBeast :=
  ⟨lit "GET", target, 11, true, (host.map fun h => (lit "Host", h)).toList, []⟩

/-- The wrapper after a fresh parse. -/
def parsedPage (target : Bytes) (host : Option Bytes) : RequestImpl :=
  RequestImpl.fresh.parseRest (pageRequest target host) (findFirstOf '?'.toUInt8 target)
    { UrlImpl.fresh.base with path := targetPath target }

theorem parsedFresh_page {target : Bytes} {host : Option Bytes}
    (h : UrlImpl.fresh.base.acceptsPath (targetPath target) = true) :
    ParsedFresh (pageRequest target host) (parsedPage target host) := by
  have hset : UrlImpl.fresh.base.setEncodedPath (targetPath target)
      = .ok { UrlImpl.fresh.base with path := targetPath target } := by
    rw [setEncodedPath_eq, if_pos (Or.inr h)]
  show RequestImpl.parseRequest (RequestImpl.fresh.setRequest _).2 = _
  rw [RequestImpl.parseRequest_setRequest]
  show (UrlImpl.fresh.base.setEncodedPath (targetPath target)).map _ = _
  rw [hset]
  rfl

theorem forgets_pages :
    Forgets (parsedPage (lit "/a?x=1") (some (lit "one"))) (parsedPage (lit "/b?x=1") (some (lit "two")))
        (pageRequest (lit "/a?x=1") (some (lit "one"))) (pageRequest (lit "/b?x=1") (some (lit "two")))
      ↔ Forgettable (pageRequest (lit "/a?x=1") (some (lit "one")))
        (pageRequest (lit "/b?x=1") (some (lit "two"))) :=
  forgets_iff (parsedFresh_page (by decide)) (parsedFresh_page (by decide))

/-- A request without a query after one with a query still answers with the query of
    the first. -/
theorem pages_not_forgotten :
    ¬ ∀ r₁ r₂ s₁ s₂, ParsedFresh r₁ s₁ → ParsedFresh r₂ s₂ → Forgets s₁ s₂ r₁ r₂ := by
  intro h
  obtain ⟨⟨s, hs, hview⟩, -⟩ := h _ _ _ _
    (@parsedFresh_page (lit "/a?x=1") none (by decide))
    (@parsedFresh_page (lit "/b") none (by decide))
  have hparse : ((parsedPage (lit "/a?x=1") none).setRequest
      (pageRequest (lit "/b") none)).2.parseRequest
      = .ok (0, (parsedPage (lit "/a?x=1") none).parseRest (pageRequest (lit "/b") none) none
        { (parsedPage (lit "/a?x=1") none).urlPtr.base with path := lit "/b" }) := by
    rfl
  have heq := (Prod.mk.inj (Except.ok.inj (hs.symm.trans hparse))).2
  subst heq
  have hquery := hview.encodedQuery
  cases hquery

end HttpReparse
