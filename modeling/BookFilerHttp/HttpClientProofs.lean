import BookFilerHttp.HttpRequestProofs
import BookFilerHttp.RunsProofs

/-! # Clients: `ClientImpl`

    A client owns a URL, sends a request for it with `end`, and keeps three
    pieces of the response: the message, a VIEW of its body, and the body parsed
    as JSON.  Only a response with status 200 writes the last two.

    `copies_agree_iff` says for which histories of a URL the query that `url()`
    shows is the query that is sent; `reports_latest_iff` says after which
    exchanges a client reports its latest response and nothing else. -/

namespace HttpClient

open ByteString BoostUrl HttpRequest HttpQuery HttpUrl Runs

/-! ## The client -/

/-- A `string_view` into the body of a response, with the number of the exchange
    whose response object owns the characters. -/
structure StringView where
  owner : Nat
  text : Bytes
  deriving DecidableEq

/-- A response message as the client reads it. -/
structure ClientResponse where
  status : Nat
  body : Bytes
  deriving DecidableEq

/-- `exchanges` numbers the response objects; each completed `end` makes one. -/
structure ClientImpl (Doc : Type) where
  urlPtr : UrlImpl
  method : Bytes
  requestBeast : RequestBeast
  responseBeast : Option ClientResponse
  responseStr : StringView
  responseJsonDoc : Option Doc
  exchanges : Nat

/-- The JSON parser: a document from a string without NUL.  The empty string is
    no document. -/
structure JsonParser (Doc : Type) where
  parse : Bytes → Option Doc
  parse_nil : parse [] = none

variable {Doc : Type}

/-- A default request message. -/
def emptyRequest : RequestBeast := ⟨[], [], 11, true, [], []⟩

namespace ClientImpl

/-- The default constructor. -/
def fresh : ClientImpl Doc :=
  ⟨UrlImpl.fresh, lit "GET", emptyRequest, none, ⟨0, []⟩, none, 0⟩

/-- One option of the map constructor: the method, or an option of the URL, whose
    query goes to `setEncodedQuery`. -/
def applyOption (c : ClientImpl Doc) (e : Bytes × Variant) :
    Except Exn (ClientImpl Doc) :=
  match e.2 with
  | .string s =>
      if e.1 = lit "method" then .ok { c with method := s }
      else
        (UrlImpl.applyString UrlImpl.setStoredQuery c.urlPtr e.1 s).map
          (fun u => { c with urlPtr := u })
  | _ => .ok c

def applyOptions : List (Bytes × Variant) → ClientImpl Doc →
    Except Exn (ClientImpl Doc)
  | [], c => .ok c
  | e :: rest, c =>
      match applyOption c e with
      | .ok c' => applyOptions rest c'
      | .error ex => .error ex

/-- After the options: `https` for a GET without scheme. -/
def defaultScheme (c : ClientImpl Doc) : Except Exn (ClientImpl Doc) :=
  if c.urlPtr.base.schemeStr = [] ∧ c.method = lit "GET" then
    (c.urlPtr.base.setScheme (lit "https")).map
      (fun b => { c with urlPtr := { c.urlPtr with base := b } })
  else .ok c

/-- The map constructor; the method starts out empty. -/
def ofMap (m : OptionMap) : Except Exn (ClientImpl Doc) :=
  match applyOptions m.entries { fresh with method := [] } with
  | .ok c => c.defaultScheme
  | .error ex => .error ex

def setURL (c : ClientImpl Doc) (url : Bytes) : Except Exn (Int × ClientImpl Doc) :=
  (c.urlPtr.base.setEncodedUrl url).map
    (fun b => (0, { c with urlPtr := { c.urlPtr with base := b } }))

/-- `setQuery`: the return code of the URL is dropped. -/
def setQuery (c : ClientImpl Doc) (m : QueryMap) : Int × ClientImpl Doc :=
  (0, { c with urlPtr := (c.urlPtr.setQuery m).2 })

/-- `setHeader`: every entry of the map replaces the fields of its name. -/
def setHeader (c : ClientImpl Doc) (m : QueryMap) : Int × ClientImpl Doc :=
  (0, { c with requestBeast :=
    m.entries.foldl (fun req e => req.set e.1 e.2) c.requestBeast })

def setMethod (c : ClientImpl Doc) (method : Bytes) : Int × ClientImpl Doc :=
  (0, { c with method := method })

/-- `getResponseStr`: nothing for an empty view. -/
def getResponseStr (c : ClientImpl Doc) : Option StringView :=
  if c.responseStr.text = [] then none else some c.responseStr

def getResponseJson (c : ClientImpl Doc) : Option Doc := c.responseJsonDoc

/-- The request that `end` writes. -/
def prepareRequest (c : ClientImpl Doc) : RequestBeast :=
  ({ c.requestBeast with
    methodString := if c.method = lit "POST" then lit "POST" else lit "GET"
    target := c.urlPtr.target
    keepAlive := false } : RequestBeast).set (lit "Host") c.urlPtr.getEncodedHost

/-- `c_str()` as the parser reads it: up to the first NUL. -/
def cStr (s : Bytes) : Bytes := s.takeWhile (· != 0)

/-- `end` with the response that was read. -/
def end_ (parser : JsonParser Doc) (c : ClientImpl Doc) (response : ClientResponse) :
    Int × ClientImpl Doc :=
  let c := { c with
    requestBeast := c.prepareRequest
    responseBeast := some response
    exchanges := c.exchanges + 1 }
  if response.status = 200 then
    (0, { c with
      responseStr := ⟨c.exchanges, response.body⟩
      responseJsonDoc := parser.parse (cStr response.body) })
  else (0, c)

end ClientImpl

/-! ## The query that is shown and the query that is sent -/

/-- How a URL comes to be: a default URL, which is also what a default client
    has, or one of the two map constructors. -/
inductive UrlStart where
  | default
  | urlMap (m : OptionMap)
  | clientMap (m : OptionMap)

/-- The URL that is constructed, if nothing is raised. -/
def UrlStart.url : UrlStart → Option UrlImpl
  | .default => some UrlImpl.fresh
  | .urlMap m => (UrlImpl.ofMap m).toOption
  | .clientMap m => ((ClientImpl.ofMap m : Except Exn (ClientImpl Unit)).map
      (fun c => c.urlPtr)).toOption

/-- No query is handed to a constructor. -/
def UrlStart.Keeps : UrlStart → Prop
  | .default => True
  | .urlMap m => UrlImpl.queryOption m = []
  | .clientMap m => UrlImpl.queryOption m = []

/-- One successful call on a URL. -/
def urlStep (u : UrlImpl) (c : UrlImpl.UrlCall) : Option (UrlImpl × List Unit) :=
  (c.run u).map (fun u' => (u', []))

/-- The query component of `url()` is the encoded query, and the target that is
    sent carries it. -/
def QueryShown (u : UrlImpl) : Prop :=
  u.base.encodedQuery = u.getEncodedQuery
    ∧ u.target = u.base.encodedPath ++ lit "?" ++ u.base.encodedQuery

theorem queryShown_iff_agree (u : UrlImpl) : QueryShown u ↔ u.Agree :=
  ⟨fun h => h.1, fun h => ⟨h, UrlImpl.target_of_agree h⟩⟩

/-- One option writes the method or the URL, the URL as a URL loop does that
    hands the query to `setEncodedQuery`. -/
theorem applyOption_spec {c c' : ClientImpl Doc} {e : Bytes × Variant}
    (h : c.applyOption e = .ok c') :
    ∃ method u, c' = { c with method := method, urlPtr := u }
      ∧ UrlImpl.applyOption UrlImpl.setStoredQuery c.urlPtr e = .ok u := by
  obtain ⟨key, v⟩ := e
  cases v with
  | int n => exact ⟨c.method, c.urlPtr, (Except.ok.inj h).symm, rfl⟩
  | double bits => exact ⟨c.method, c.urlPtr, (Except.ok.inj h).symm, rfl⟩
  | string s =>
      rw [ClientImpl.applyOption] at h
      by_cases hkey : key = lit "method"
      · simp only [if_pos hkey] at h
        refine ⟨s, c.urlPtr, (Except.ok.inj h).symm, ?_⟩
        -- a URL has no option of that name
        show UrlImpl.applyString UrlImpl.setStoredQuery c.urlPtr key s = _
        rw [UrlImpl.applyString, hkey, if_neg (by decide), if_neg (by decide),
          if_neg (by decide), if_neg (by decide)]
      · simp only [if_neg hkey] at h
        cases hu : UrlImpl.applyString UrlImpl.setStoredQuery c.urlPtr key s with
        | ok u =>
            rw [hu] at h
            exact ⟨c.method, u, (Except.ok.inj h).symm, hu⟩
        | error ex =>
            rw [hu] at h
            cases h

/-- Options set the method and the URL of a client and nothing else. -/
theorem applyOptions_spec (l : List (Bytes × Variant)) :
    ∀ {c c' : ClientImpl Doc}, ClientImpl.applyOptions l c = .ok c' →
      ∃ method u, c' = { c with method := method, urlPtr := u }
        ∧ UrlImpl.applyOptions UrlImpl.setStoredQuery l c.urlPtr = .ok u := by
  induction l with
  | nil =>
      intro c c' h
      exact ⟨c.method, c.urlPtr, (Except.ok.inj h).symm, rfl⟩
  | cons e rest ih =>
      intro c c' h
      rw [ClientImpl.applyOptions] at h
      split at h
      · next c₁ he =>
          obtain ⟨method, u, rfl, hu⟩ := applyOption_spec he
          obtain ⟨method', u', rfl, hu'⟩ := ih h
          refine ⟨method', u', rfl, ?_⟩
          rw [UrlImpl.applyOptions, hu]
          exact hu'
      · cases h

/-- The default scheme leaves the query of the base alone. -/
theorem defaultScheme_spec {c c' : ClientImpl Doc} (h : c.defaultScheme = .ok c') :
    ∃ b, c' = { c with urlPtr := { c.urlPtr with base := b } }
      ∧ b.query = c.urlPtr.base.query := by
  rw [ClientImpl.defaultScheme] at h
  split at h
  · cases hb : c.urlPtr.base.setScheme (lit "https") with
    | ok b =>
        rw [hb] at h
        exact ⟨b, (Except.ok.inj h).symm, (Parts.setScheme_frame hb).2⟩
    | error ex =>
        rw [hb] at h
        cases h
  · exact ⟨c.urlPtr.base, (Except.ok.inj h).symm, rfl⟩

/-- **THE MAP CONSTRUCTOR**: a fresh client with a method and a URL; the URL has
    the copies of the query that the loop over the options leaves. -/
theorem ofMap_spec {m : OptionMap} {c : ClientImpl Doc}
    (h : ClientImpl.ofMap m = .ok c) :
    ∃ method u b, c = { ClientImpl.fresh with
        method := method, urlPtr := { u with base := b } }
      ∧ b.query = u.base.query
      ∧ UrlImpl.applyOptions UrlImpl.setStoredQuery m.entries UrlImpl.fresh
        = .ok u := by
  rw [ClientImpl.ofMap] at h
  split at h
  · next c₁ hopts =>
      obtain ⟨method, u, rfl, hu⟩ := applyOptions_spec _ hopts
      obtain ⟨b, rfl, hb⟩ := defaultScheme_spec h
      exact ⟨method, u, b, rfl, hb, hu⟩
  · cases h

/-- A client built from options has a URL with agreeing copies exactly when its
    query option is absent or empty. -/
theorem ofMap_agree_iff {m : OptionMap} {c : ClientImpl Doc}
    (h : ClientImpl.ofMap m = .ok c) :
    c.urlPtr.Agree ↔ UrlImpl.queryOption m = [] := by
  obtain ⟨method, u, b, rfl, hb, hu⟩ := ofMap_spec h
  have hloop : u.Agree ↔ UrlImpl.queryOption m = [] := by
    refine UrlImpl.applyOptions_agree_iff ?_ hu
    intro v s hvb _
    have hshown : (UrlImpl.setStoredQuery v s).base.encodedQuery = [] :=
      congrArg (List.drop 1) hvb
    have hsent : (UrlImpl.setStoredQuery v s).getEncodedQuery = s := rfl
    rw [UrlImpl.Agree, hshown, hsent]
    exact eq_comm
  rw [← hloop]
  exact UrlImpl.agree_congr hb rfl

/-- A new URL shows its query exactly when its start does. -/
theorem start_agree_iff {start : UrlStart} {u : UrlImpl} (h : start.url = some u) :
    u.Agree ↔ start.Keeps := by
  cases start with
  | default =>
      rw [← Option.some.inj h]
      exact iff_of_true UrlImpl.fresh_agree trivial
  | urlMap m =>
      rw [UrlStart.url] at h
      cases hm : UrlImpl.ofMap m with
      | ok u' =>
          rw [hm] at h
          rw [← Option.some.inj h]
          exact UrlImpl.ofMap_agree_iff hm
      | error ex =>
          rw [hm] at h
          cases h
  | clientMap m =>
      rw [UrlStart.url] at h
      cases hm : (ClientImpl.ofMap m : Except Exn (ClientImpl Unit)) with
      | ok c =>
          rw [hm] at h
          rw [← Option.some.inj h]
          exact ofMap_agree_iff hm
      | error ex =>
          rw [hm] at h
          cases h

/-- **THE TWO COPIES**: in every history of successful calls, the query shown is
    the query sent in all states reached exactly when no query was handed to the
    constructor and every call kept the query. -/
theorem copies_agree_iff {start : UrlStart} {u u' : UrlImpl}
    {calls : List UrlImpl.UrlCall} {t : List Unit} (hstart : start.url = some u)
    (h : run urlStep u calls = some (u', t)) :
    Always urlStep QueryShown u calls
      ↔ start.Keeps ∧ Along urlStep (fun u c => c.Keeps u) u calls := by
  have hstep : ∀ (v : UrlImpl) (c : UrlImpl.UrlCall) (v' : UrlImpl) (as : List Unit),
      urlStep v c = some (v', as) → (QueryShown v' ↔ c.Keeps v) := by
    intro v c v' as hv
    obtain ⟨w, hw, heq⟩ := Option.map_eq_some_iff.mp hv
    rw [queryShown_iff_agree, ← (Prod.mk.inj heq).1]
    exact UrlImpl.run_agree_iff hw
  rw [always_iff_along hstep calls h, queryShown_iff_agree, start_agree_iff hstart]

/-- A map with a parameter, the query it shows, and a URL with that query. -/
def shownCalls : List UrlImpl.UrlCall :=
  [.setQuery (OrdMap.insertAll [(lit "a b", lit "c")] OrdMap.empty),
    .setEncodedQuery (lit "a%20b=c"), .clientSetURL (lit "http://h/p?a%20b=c")]

/-- These calls on a default URL. -/
theorem copies_agree_default :
    Always urlStep QueryShown UrlImpl.fresh shownCalls
      ↔ UrlStart.default.Keeps
        ∧ Along urlStep (fun u c => c.Keeps u) UrlImpl.fresh shownCalls := by
  have hsome : (run urlStep UrlImpl.fresh shownCalls).isSome = true := by decide +kernel
  obtain ⟨⟨u', t⟩, hrun⟩ := Option.isSome_iff_exists.mp hsome
  exact @copies_agree_iff .default UrlImpl.fresh u' shownCalls t rfl hrun

/-- A URL built with a query option shows the query and sends none. -/
theorem copies_differ :
    ¬ ∀ (start : UrlStart) (u u' : UrlImpl) (calls : List UrlImpl.UrlCall)
        (t : List Unit), start.url = some u → run urlStep u calls = some (u', t) →
        Always urlStep QueryShown u calls := by
  intro h
  have hshown := h (.urlMap (OrdMap.insertAll
    [(lit "query", .string (lit "a=b"))] OrdMap.empty)) _ _ [] _ rfl rfl
  exact absurd hshown.1 (by decide +kernel)

/-! ## Exchanges -/

/-- The calls on a client; `end_` with the response that it reads. -/
inductive ClientCall where
  | setURL (url : Bytes)
  | setQuery (m : QueryMap)
  | setHeader (m : QueryMap)
  | setMethod (method : Bytes)
  | end_ (response : ClientResponse)

/-- One call that completes; its actions are the requests written. -/
def clientStep (parser : JsonParser Doc) (c : ClientImpl Doc) :
    ClientCall → Option (ClientImpl Doc × List RequestBeast)
  | .setURL url => (c.setURL url).toOption.map (fun r => (r.2, []))
  | .setQuery m => some ((c.setQuery m).2, [])
  | .setHeader m => some ((c.setHeader m).2, [])
  | .setMethod method => some ((c.setMethod method).2, [])
  | .end_ response => some ((c.end_ parser response).2, [c.prepareRequest])

/-- The responses that a list of calls reads. -/
def responses (calls : List ClientCall) : List ClientResponse :=
  calls.filterMap (fun call => match call with
    | .end_ response => some response
    | _ => none)

/-- The latest response with status 200. -/
def lastOk (rs : List ClientResponse) : Option ClientResponse :=
  (rs.filter (fun r => r.status == 200)).getLast?

theorem lastOk_append (rs : List ClientResponse) (r : ClientResponse) :
    lastOk (rs ++ [r]) = if r.status = 200 then some r else lastOk rs := by
  rw [lastOk, List.filter_append]
  by_cases h : r.status = 200
  · rw [if_pos h, List.filter_cons, if_pos (beq_iff_eq.mpr h)]
    exact List.getLast?_concat ..
  · rw [if_neg h, List.filter_cons, if_neg (fun hb => h (beq_iff_eq.mp hb)),
      List.filter_nil, List.append_nil, lastOk]

/-- The response fields of a client after reading the responses `rs`: view and
    document come from the latest response with status 200. -/
structure HasRead (parser : JsonParser Doc) (rs : List ClientResponse)
    (c : ClientImpl Doc) : Prop where
  text : c.responseStr.text = ((lastOk rs).map ClientResponse.body).getD []
  json : c.responseJsonDoc
    = (lastOk rs).bind (fun r => parser.parse (ClientImpl.cStr r.body))
  owner : ∀ r, rs.getLast? = some r → r.status = 200 →
    c.responseStr.owner = c.exchanges

variable {parser : JsonParser Doc}

/-- A response that ends is the last one read. -/
theorem hasRead_end {rs : List ClientResponse} {c : ClientImpl Doc}
    (hc : HasRead parser rs c) (response : ClientResponse) :
    HasRead parser (rs ++ [response]) (c.end_ parser response).2 := by
  have hlast := lastOk_append rs response
  by_cases h : response.status = 200
  · rw [if_pos h] at hlast
    have hend : (c.end_ parser response).2 = { c with
        requestBeast := c.prepareRequest
        responseBeast := some response
        exchanges := c.exchanges + 1
        responseStr := ⟨c.exchanges + 1, response.body⟩
        responseJsonDoc := parser.parse (ClientImpl.cStr response.body) } := by
      rw [ClientImpl.end_]
      simp only [if_pos h]
    rw [hend]
    constructor
    · rw [hlast]
      rfl
    · rw [hlast]
      rfl
    · exact fun _ _ _ => rfl
  · rw [if_neg h] at hlast
    have hend : (c.end_ parser response).2 = { c with
        requestBeast := c.prepareRequest
        responseBeast := some response
        exchanges := c.exchanges + 1 } := by
      rw [ClientImpl.end_]
      simp only [if_neg h]
    rw [hend]
    constructor
    · rw [hlast]
      exact hc.text
    · rw [hlast]
      exact hc.json
    · intro r hr hstatus
      rw [List.getLast?_concat] at hr
      rw [← Option.some.inj hr] at hstatus
      exact absurd hstatus h

/-- A client whose response fields are another client's has read the same. -/
theorem hasRead_congr {rs : List ClientResponse} {c c' : ClientImpl Doc}
    (hc : HasRead parser rs c) (hstr : c'.responseStr = c.responseStr)
    (hjson : c'.responseJsonDoc = c.responseJsonDoc)
    (hexchanges : c'.exchanges = c.exchanges) : HasRead parser rs c' := by
  constructor
  · rw [hstr]
    exact hc.text
  · rw [hjson]
    exact hc.json
  · rw [hstr, hexchanges]
    exact hc.owner

/-- One call: only `end_` reads a response. -/
theorem hasRead_step {rs : List ClientResponse} {c c' : ClientImpl Doc}
    {call : ClientCall} {t : List RequestBeast} (hc : HasRead parser rs c)
    (h : clientStep parser c call = some (c', t)) :
    HasRead parser (rs ++ responses [call]) c' := by
  cases call with
  | end_ response =>
      rw [← (Prod.mk.inj (Option.some.inj h)).1]
      exact hasRead_end hc response
  | setURL url =>
      rw [show responses [.setURL url] = [] from rfl, List.append_nil]
      obtain ⟨r, hr, heq⟩ := Option.map_eq_some_iff.mp h
      rw [← (Prod.mk.inj heq).1]
      rw [ClientImpl.setURL] at hr
      cases hb : c.urlPtr.base.setEncodedUrl url with
      | ok b =>
          rw [hb] at hr
          rw [← Option.some.inj hr]
          exact hasRead_congr hc rfl rfl rfl
      | error ex =>
          rw [hb] at hr
          cases hr
  | setQuery m | setHeader m | setMethod m =>
      rw [show responses [_] = [] from rfl, List.append_nil,
        ← (Prod.mk.inj (Option.some.inj h)).1]
      exact hasRead_congr hc rfl rfl rfl

theorem hasRead_run (calls : List ClientCall) :
    ∀ {rs : List ClientResponse} {c c' : ClientImpl Doc} {t : List RequestBeast},
      HasRead parser rs c → run (clientStep parser) c calls = some (c', t) →
      HasRead parser (rs ++ responses calls) c' := by
  induction calls with
  | nil =>
      intro rs c c' t hc h
      rw [← (Prod.mk.inj (Option.some.inj h)).1,
        show responses [] = [] from rfl, List.append_nil]
      exact hc
  | cons call rest ih =>
      intro rs c c' t hc h
      obtain ⟨c₁, as, bs, hstep, hrest, -⟩ := run_cons h
      have hread := ih (hasRead_step hc hstep) hrest
      rw [List.append_assoc] at hread
      have hresponses : responses (call :: rest) = responses [call] ++ responses rest :=
        List.filterMap_append (l := [call]) ..
      rw [hresponses]
      exact hread

/-! ## The latest response -/

/-- A client as one of the two constructors leaves it. -/
def Constructed (c : ClientImpl Doc) : Prop :=
  c = .fresh ∨ ∃ m, ClientImpl.ofMap m = .ok c

/-- The response fields are empty. -/
def Unanswered (c : ClientImpl Doc) : Prop :=
  c.responseStr = ⟨0, []⟩ ∧ c.responseJsonDoc = none ∧ c.exchanges = 0

/-- A constructed client has no answer. -/
theorem constructed_unanswered {c : ClientImpl Doc} (h : Constructed c) :
    Unanswered c := by
  rcases h with rfl | ⟨m, hm⟩
  · exact ⟨rfl, rfl, rfl⟩
  · obtain ⟨method, u, b, rfl, -, -⟩ := ofMap_spec hm
    exact ⟨rfl, rfl, rfl⟩

/-- The JSON document a body is, if it is one: no JSON text holds a NUL. -/
def jsonOf (parser : JsonParser Doc) (body : Bytes) : Option Doc :=
  if (0 : UInt8) ∈ body then none else parser.parse body

/-- What a client is to report after the response `last`: its body and its
    document when the status is 200, and nothing otherwise.  The view points into
    the response object of the latest exchange. -/
structure ReportsLatest (parser : JsonParser Doc) (c : ClientImpl Doc)
    (last : ClientResponse) : Prop where
  str : c.getResponseStr
    = if last.status = 200 ∧ last.body ≠ [] then some ⟨c.exchanges, last.body⟩
      else none
  json : c.getResponseJson
    = if last.status = 200 then jsonOf parser last.body else none

/-- When a client does so: after a status of 200 the body is not cut at a NUL
    behind a document; after any other status no earlier response left a body. -/
def LeavesNothing (parser : JsonParser Doc) (earlier : List ClientResponse)
    (last : ClientResponse) : Prop :=
  if last.status = 200 then
    (0 : UInt8) ∈ last.body → parser.parse (ClientImpl.cStr last.body) = none
  else ∀ r, lastOk earlier = some r → r.body = []

theorem cStr_eq {s : Bytes} (h : (0 : UInt8) ∉ s) : ClientImpl.cStr s = s := by
  rw [ClientImpl.cStr, List.takeWhile_eq_self_iff]
  intro c hc
  rw [bne_iff_ne]
  rintro rfl
  exact h hc

theorem parse_cStr_iff (parser : JsonParser Doc) (body : Bytes) :
    parser.parse (ClientImpl.cStr body) = jsonOf parser body
      ↔ ((0 : UInt8) ∈ body → parser.parse (ClientImpl.cStr body) = none) := by
  rw [jsonOf]
  by_cases h : (0 : UInt8) ∈ body
  · rw [if_pos h]
    exact ⟨fun heq _ => heq, fun himp => himp h⟩
  · rw [if_neg h, cStr_eq h]
    exact iff_of_true rfl (fun hmem => absurd hmem h)

/-- **THE LATEST RESPONSE**: after any calls on a constructed client, of which
    the last response read is `last`, the client reports that response and
    nothing else exactly when `LeavesNothing` holds. -/
theorem reports_latest_iff (parser : JsonParser Doc) {c₀ c : ClientImpl Doc}
    {calls : List ClientCall} {t : List RequestBeast}
    {earlier : List ClientResponse} {last : ClientResponse} (h₀ : Constructed c₀)
    (h : run (clientStep parser) c₀ calls = some (c, t))
    (hlast : responses calls = earlier ++ [last]) :
    ReportsLatest parser c last ↔ LeavesNothing parser earlier last := by
  obtain ⟨hstr₀, hjson₀, hexchanges₀⟩ := constructed_unanswered h₀
  have hinit : HasRead parser [] c₀ :=
    ⟨by rw [hstr₀]; rfl, by rw [hjson₀]; rfl, fun r hr => nomatch hr⟩
  obtain ⟨htext, hjson, howner⟩ := hasRead_run calls hinit h
  rw [List.nil_append, hlast] at htext hjson howner
  rw [lastOk_append] at htext hjson
  rw [LeavesNothing]
  by_cases hstatus : last.status = 200
  · -- view and document come from this response
    rw [if_pos hstatus] at htext hjson ⊢
    have hview : c.getResponseStr
        = if last.status = 200 ∧ last.body ≠ [] then some ⟨c.exchanges, last.body⟩
          else none := by
      have hown := howner last (List.getLast?_concat ..) hstatus
      have heq : c.responseStr = ⟨c.exchanges, last.body⟩ := by
        rw [← hown]
        exact congrArg (StringView.mk _) htext
      rw [ClientImpl.getResponseStr, heq]
      by_cases hb : last.body = []
      · rw [if_pos hb, if_neg (fun hc => hc.2 hb)]
      · rw [if_neg hb, if_pos ⟨hstatus, hb⟩]
    rw [← parse_cStr_iff]
    constructor
    · intro hrep
      have hj := hrep.json
      rw [if_pos hstatus] at hj
      exact hjson.symm.trans hj
    · intro hparse
      refine ⟨hview, ?_⟩
      rw [if_pos hstatus, ← hparse]
      exact hjson
  · -- view and document are those of the latest response with status 200
    rw [if_neg hstatus] at htext hjson ⊢
    constructor
    · intro hrep r hr
      -- nothing may be left of an earlier body
      have hs := hrep.str
      rw [if_neg (fun hc => hstatus hc.1), ClientImpl.getResponseStr, htext, hr] at hs
      by_contra hne
      rw [if_neg (show ¬ ((some r).map ClientResponse.body).getD [] = [] from hne)] at hs
      cases hs
    · intro hempty
      have htext' : c.responseStr.text = [] := by
        rw [htext]
        cases hr : lastOk earlier with
        | none => rfl
        | some r => exact hempty r hr
      have hjson' : c.responseJsonDoc = none := by
        rw [hjson]
        cases hr : lastOk earlier with
        | none => rfl
        | some r =>
            show parser.parse (ClientImpl.cStr r.body) = none
            rw [hempty r hr]
            exact parser.parse_nil
      constructor
      · rw [if_neg (fun hc => hstatus hc.1), ClientImpl.getResponseStr, if_pos htext']
      · rw [if_neg hstatus]
        exact hjson'

/-- A parser that knows the number 1. -/
def oneParser : JsonParser Nat where
  parse := fun s => if s = lit "1" then some 1 else none
  parse_nil := rfl

/-- A document, and then a page that is not JSON. -/
theorem reports_latest_twice :
    ReportsLatest oneParser
        ((((ClientImpl.fresh.end_ oneParser ⟨200, lit "1"⟩).2.end_ oneParser
          ⟨200, lit "page"⟩).2)) ⟨200, lit "page"⟩
      ↔ LeavesNothing oneParser [⟨200, lit "1"⟩] ⟨200, lit "page"⟩ :=
  @reports_latest_iff Nat oneParser .fresh _
    [.end_ ⟨200, lit "1"⟩, .end_ ⟨200, lit "page"⟩] _ _ _ (Or.inl rfl) rfl rfl

/-- After an error the document of the exchange before it is still reported. -/
theorem reports_stale :
    ¬ ∀ (parser : JsonParser Nat) (c₀ c : ClientImpl Nat) (calls : List ClientCall)
        (t : List RequestBeast) (earlier : List ClientResponse)
        (last : ClientResponse), Constructed c₀ →
        run (clientStep parser) c₀ calls = some (c, t) →
        responses calls = earlier ++ [last] → ReportsLatest parser c last := by
  intro h
  have hrep := h oneParser .fresh _ [.end_ ⟨200, lit "1"⟩, .end_ ⟨500, []⟩] _
    [⟨200, lit "1"⟩] ⟨500, []⟩ (Or.inl rfl) rfl rfl
  exact absurd hrep.json (by decide +kernel)

end HttpClient
