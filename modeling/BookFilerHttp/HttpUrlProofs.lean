import BookFilerHttp.BoostUrlBaseProofs
import BookFilerHttp.HttpQueryProofs

/-! # URLs: `UrlImpl`

    A `UrlImpl` is a `QueryImpl` and a URL of the vendored library at once, so
    it holds its query TWICE: `url()` shows the component of the base URL, while
    `target()` and `getEncodedQuery()` use the string of the `QueryImpl`.

    The setters are translated one by one.  `UrlCall` collects the calls a user
    can make on a URL, and `run_agree_iff` says for each of them exactly when
    the two copies agree after it.  `acceptsQuery_flattenQueryMap` says which
    maps the base takes: the flattening copies `#`, `[` and `]`, which the
    library refuses in a query. -/

namespace HttpUrl

open ByteString BoostUrl HttpUriCodec HttpQuery

/-! ## Which flattened maps the library takes -/

/-- The characters that the flattening copies although the vendored library
    takes them in no query. -/
def unsafeCharStr : Bytes := lit "#[]"

/-- A byte that is no `%` is accepted unless the library holds it for special. -/
theorem acceptsQuery_cons {c : UInt8} (h : c ≠ '%'.toUInt8) (s : Bytes) :
    acceptsQuery (c :: s) = (!queryPctSet.isSpecial c && acceptsQuery s) := by
  rw [acceptsQuery, acceptsQuery, PctEncoding.decodedSize.eq_def]
  simp only [if_neg h]
  cases hc : queryPctSet.isSpecial c with
  | true => rfl
  | false =>
      simp only [Bool.false_eq_true, if_false]
      cases queryPctSet.decodedSize s <;> rfl

/-- An escape is always accepted. -/
theorem acceptsQuery_escaped (c : UInt8) (s : Bytes) :
    acceptsQuery (escaped c ++ s) = acceptsQuery s := by
  have hdig : ∀ x : UInt8, ¬ (hexDigit (hexUpper (x / 16)) = none
      ∨ hexDigit (hexUpper (x % 16)) = none) := forall_byte (by decide +kernel)
  rw [acceptsQuery, acceptsQuery, PctEncoding.decodedSize.eq_def]
  simp only [escaped, List.cons_append, List.nil_append, if_pos, if_neg (hdig c)]
  cases queryPctSet.decodedSize s <;> rfl

/-- An encoded byte is accepted unless it is left as it is and not allowed. -/
theorem acceptsQuery_encodeChar (c : UInt8) (s : Bytes) :
    acceptsQuery (encodeChar reservedCharStr c ++ s)
      = (!unsafeCharStr.contains c && acceptsQuery s) := by
  have hcopied : ∀ x : UInt8, encodeChar reservedCharStr x = [x] →
      queryPctSet.isSpecial x = unsafeCharStr.contains x :=
    forall_byte (by decide +kernel)
  have hescaped : ∀ x : UInt8, encodeChar reservedCharStr x = escaped x →
      unsafeCharStr.contains x = false :=
    forall_byte (by decide +kernel)
  rcases encodeChar_cases reservedCharStr c with ⟨h, hne⟩ | h
  · rw [h, List.singleton_append, acceptsQuery_cons hne, hcopied c h]
  · rw [h, acceptsQuery_escaped, hescaped c h]
    rfl

theorem acceptsQuery_encoded (t s : Bytes) :
    acceptsQuery (encoded reservedCharStr t ++ s)
      = (!t.any unsafeCharStr.contains && acceptsQuery s) := by
  induction t with
  | nil => rfl
  | cons c rest ih =>
      rw [encoded, List.flatMap_cons, List.append_assoc, acceptsQuery_encodeChar,
        ← encoded, ih, List.any_cons, Bool.not_or, Bool.and_assoc]

/-- A field none of whose characters the library refuses. -/
def safeField (field : Bytes × Bytes) : Bool :=
  !field.1.any unsafeCharStr.contains && !field.2.any unsafeCharStr.contains

/-- An encoded field is accepted exactly when both its texts are safe. -/
theorem acceptsQuery_encodeField (field : Bytes × Bytes) (s : Bytes) :
    acceptsQuery (encodeField field ++ s)
      = (safeField field && acceptsQuery s) := by
  have hne : ('='.toUInt8 : UInt8) ≠ '%'.toUInt8 := by decide
  have hplain : queryPctSet.isSpecial '='.toUInt8 = false := by decide
  rw [encodeField_eq, List.append_assoc, acceptsQuery_encoded, List.cons_append,
    acceptsQuery_cons hne, hplain, acceptsQuery_encoded, safeField, Bool.and_assoc]
  rfl

/-- A flattened map is accepted exactly when every field is safe. -/
theorem acceptsQuery_flattenFields (fields : List (Bytes × Bytes)) :
    acceptsQuery (flattenFields fields) = fields.all safeField := by
  have hne : ('&'.toUInt8 : UInt8) ≠ '%'.toUInt8 := by decide
  have hplain : queryPctSet.isSpecial '&'.toUInt8 = false := by decide
  induction fields with
  | nil => rfl
  | cons field rest ih =>
      cases rest with
      | nil =>
          have h := acceptsQuery_encodeField field []
          rw [List.append_nil] at h
          exact h
      | cons field' rest' =>
          have hcons : flattenFields (field :: field' :: rest')
              = encodeField field
                ++ '&'.toUInt8 :: flattenFields (field' :: rest') := by
            rw [flattenFields, List.append_assoc]
            · rfl
            · intro h
              cases h
          rw [hcons, acceptsQuery_encodeField, acceptsQuery_cons hne, hplain, ih]
          rfl

/-- A map whose flattened form the library takes as a query. -/
def safeMap (m : QueryMap) : Bool := m.entries.all safeField

/-- **SAFE MAPS**: a flattened map is a query of the library exactly when no key
    and no value holds one of the three characters. -/
theorem acceptsQuery_flattenQueryMap (m : QueryMap) :
    acceptsQuery (flattenQueryMap m) = safeMap m :=
  acceptsQuery_flattenFields m.entries

/-! ## The URL object -/

/-- The option values of the constructors, `std::variant<int, double, string>`;
    a double is kept as its bits. -/
inductive Variant where
  | int (n : Int)
  | double (bits : UInt64)
  | string (s : Bytes)
  deriving DecidableEq

/-- Constructor options, in key order. -/
abbrev OptionMap := OrdMap.Map Bytes Variant

structure UrlImpl where
  query : QueryImpl
  base : Parts

namespace UrlImpl

/-- The default constructor. -/
def fresh : UrlImpl := ⟨QueryImpl.fresh, {}⟩

/-! ## Queries -/

/-- `setQuery(map)`: the map is assigned and flattened first, then the base is
    given the flattened string; a rejected string is reported by -1. -/
def setQuery (u : UrlImpl) (m : QueryMap) : Int × UrlImpl :=
  let q := (u.query.setQuery m).2
  -- the `try` block; the map above is not rolled back
  match u.base.setEncodedQuery q.getEncodedQuery with
  | .ok b => (0, ⟨q, b⟩)
  | .error _ => (-1, ⟨q, u.base⟩)

/-- `setQuery(document)`: the document is not read; the base is given the
    string already stored. -/
def setQueryDoc (u : UrlImpl) : Int × UrlImpl :=
  let q := u.query.setQueryDoc.2
  match u.base.setEncodedQuery q.getEncodedQuery with
  | .ok b => (0, ⟨q, b⟩)
  | .error _ => (-1, ⟨q, u.base⟩)

/-- `setEncodedQuery`: the base is not told. -/
def setEncodedQuery (u : UrlImpl) (queryStr : Bytes) : Int × UrlImpl :=
  (0, { u with query := (u.query.setEncodedQuery queryStr).2 })

def getEncodedQuery (u : UrlImpl) : Bytes := u.query.getEncodedQuery

def getQuery (u : UrlImpl) (key : Bytes) : Option Bytes := u.query.getQuery key

/-! ## URL -/

def url (u : UrlImpl) : Bytes := u.base.encodedUrl

def getEncodedHost (u : UrlImpl) : Bytes := u.base.encodedHost

/-- `target()`: the question mark is always there. -/
def target (u : UrlImpl) : Bytes :=
  u.base.encodedPath ++ lit "?" ++ u.getEncodedQuery

/-! ## Construction from options -/

/-- One string option of a constructor loop.  The two loops that build a URL
    differ in what they do with the query, the parameter `setQ`. -/
def applyString (setQ : UrlImpl → Bytes → UrlImpl) (u : UrlImpl)
    (key s : Bytes) : Except Exn UrlImpl :=
  if key = lit "host" then
    (u.base.setEncodedHost s).map (fun b => { u with base := b })
  else if key = lit "path" then
    (u.base.setEncodedPath s).map (fun b => { u with base := b })
  else if key = lit "scheme" then
    (u.base.setScheme s).map (fun b => { u with base := b })
  else if key = lit "query" then .ok (setQ u s)
  else .ok u

/-- One option: numbers are skipped. -/
def applyOption (setQ : UrlImpl → Bytes → UrlImpl) (u : UrlImpl)
    (e : Bytes × Variant) : Except Exn UrlImpl :=
  match e.2 with
  | .string s => applyString setQ u e.1 s
  | _ => .ok u

/-- A constructor loop over the options, in key order. -/
def applyOptions (setQ : UrlImpl → Bytes → UrlImpl) :
    List (Bytes × Variant) → UrlImpl → Except Exn UrlImpl
  | [], u => .ok u
  | e :: rest, u =>
      match applyOption setQ u e with
      | .ok u' => applyOptions setQ rest u'
      | .error ex => .error ex

/-- What `UrlImpl(map)` does with the query: `set_query` of the BASE. -/
def setBaseQuery (u : UrlImpl) (s : Bytes) : UrlImpl :=
  { u with base := u.base.setQuery s }

/-- What `ClientImpl(map)` does with the query: `setEncodedQuery`. -/
def setStoredQuery (u : UrlImpl) (s : Bytes) : UrlImpl := (u.setEncodedQuery s).2

/-- `UrlImpl(map)`. -/
def ofMap (m : OptionMap) : Except Exn UrlImpl :=
  applyOptions setBaseQuery m.entries fresh

/-! ## Agreement of the two copies -/

/-- The query component that `url()` shows is the one that `target()` sends. -/
def Agree (u : UrlImpl) : Prop := u.base.encodedQuery = u.getEncodedQuery

instance (u : UrlImpl) : Decidable u.Agree :=
  inferInstanceAs (Decidable (_ = _))

theorem fresh_agree : fresh.Agree := rfl

/-- An option other than the query touches neither copy. -/
theorem applyOption_frame {setQ : UrlImpl → Bytes → UrlImpl} {u u' : UrlImpl}
    {e : Bytes × Variant} (hkey : e.1 ≠ lit "query")
    (h : applyOption setQ u e = .ok u') :
    u'.base.query = u.base.query ∧ u'.query = u.query := by
  obtain ⟨key, v⟩ := e
  cases v with
  | int n =>
      rw [← Except.ok.inj h]
      exact ⟨rfl, rfl⟩
  | double bits =>
      rw [← Except.ok.inj h]
      exact ⟨rfl, rfl⟩
  | string s =>
      change applyString setQ u key s = .ok u' at h
      have hbase : ∀ {r : Except Exn Parts},
          (∀ b, r = .ok b → b.query = u.base.query) →
          r.map (fun b => ({ u with base := b } : UrlImpl)) = .ok u' →
          u'.base.query = u.base.query ∧ u'.query = u.query := by
        intro r hr hmap
        cases r with
        | error ex => cases hmap
        | ok b =>
            rw [← Except.ok.inj hmap]
            exact ⟨hr b rfl, rfl⟩
      rw [applyString] at h
      split at h
      · exact hbase (fun b hb => (Parts.setEncodedHost_frame hb).2) h
      · split at h
        · refine hbase (fun b hb => ?_) h
          rw [Parts.setEncodedPath_ok hb]
        · split at h
          · exact hbase (fun b hb => (Parts.setScheme_frame hb).2) h
          · rw [← Except.ok.inj h]
            exact ⟨rfl, rfl⟩

theorem applyOption_query {setQ : UrlImpl → Bytes → UrlImpl} {u : UrlImpl}
    {s : Bytes} :
    applyOption setQ u (lit "query", .string s) = .ok (setQ u s) := by
  have h1 : ¬ lit "query" = lit "host" := by decide
  have h2 : ¬ lit "query" = lit "path" := by decide
  have h3 : ¬ lit "query" = lit "scheme" := by decide
  show applyString setQ u (lit "query") s = .ok (setQ u s)
  rw [applyString, if_neg h1, if_neg h2, if_neg h3, if_pos rfl]

/-- Options other than `query` leave the query alone. -/
theorem applyOptions_frame {setQ : UrlImpl → Bytes → UrlImpl} :
    ∀ (l : List (Bytes × Variant)) {u u' : UrlImpl},
      (∀ e ∈ l, e.1 ≠ lit "query") → applyOptions setQ l u = .ok u' →
      u'.base.query = u.base.query ∧ u'.query = u.query := by
  intro l
  induction l with
  | nil =>
      intro u u' _ h
      rw [← Except.ok.inj h]
      exact ⟨rfl, rfl⟩
  | cons e rest ih =>
      intro u u' hkeys h
      rw [applyOptions] at h
      cases he : applyOption setQ u e with
      | error ex =>
          rw [he] at h
          cases h
      | ok u₁ =>
          rw [he] at h
          obtain ⟨hb, hq⟩ := applyOption_frame (hkeys e (List.mem_cons_self ..)) he
          obtain ⟨hb', hq'⟩ := ih (fun e he => hkeys e (List.mem_cons_of_mem _ he)) h
          exact ⟨hb'.trans hb, hq'.trans hq⟩

/-- The query string among the options, empty when there is none. -/
def queryOption (m : OptionMap) : Bytes :=
  match OrdMap.find (lit "query") m with
  | some (.string s) => s
  | _ => []

/-- A constructor loop leaves the copies of the query as its query option does,
    applied to a URL whose copies are those of the start. -/
theorem applyOptions_query {setQ : UrlImpl → Bytes → UrlImpl} :
    ∀ (l : List (Bytes × Variant)) {u u' : UrlImpl}, OrdMap.SortedL l →
      applyOptions setQ l u = .ok u' →
      ∃ v : UrlImpl, v.base.query = u.base.query ∧ v.query = u.query ∧
        ((∃ s, OrdMap.findL (lit "query") l = some (.string s)
            ∧ u'.base.query = (setQ v s).base.query ∧ u'.query = (setQ v s).query)
          ∨ ((∀ s, OrdMap.findL (lit "query") l ≠ some (.string s))
            ∧ u'.base.query = u.base.query ∧ u'.query = u.query)) := by
  intro l
  induction l with
  | nil =>
      intro u u' _ h
      rw [← Except.ok.inj h]
      exact ⟨u, rfl, rfl, Or.inr ⟨fun s h => (nomatch h), rfl, rfl⟩⟩
  | cons e rest ih =>
      intro u u' hs h
      obtain ⟨hlt, hrest⟩ := List.pairwise_cons.mp hs
      obtain ⟨key, v⟩ := e
      rw [applyOptions] at h
      cases he : applyOption setQ u (key, v) with
      | error ex =>
          rw [he] at h
          cases h
      | ok u₁ =>
          rw [he] at h
          rw [OrdMap.findL_cons]
          by_cases hkey : lit "query" = key
          · -- the keys are distinct, so no later option is a query
            subst hkey
            have hne : ∀ e ∈ rest, e.1 ≠ lit "query" :=
              fun e he => ne_of_gt (hlt e he)
            obtain ⟨hb, hq⟩ := applyOptions_frame rest hne h
            rw [if_pos rfl]
            cases v with
            | string s =>
                rw [applyOption_query] at he
                rw [← Except.ok.inj he] at hb hq
                exact ⟨u, rfl, rfl, Or.inl ⟨s, rfl, hb, hq⟩⟩
            | int n =>
                rw [← Except.ok.inj he] at hb hq
                exact ⟨u, rfl, rfl, Or.inr ⟨fun s h => (nomatch h), hb, hq⟩⟩
            | double bits =>
                rw [← Except.ok.inj he] at hb hq
                exact ⟨u, rfl, rfl, Or.inr ⟨fun s h => (nomatch h), hb, hq⟩⟩
          · obtain ⟨hb, hq⟩ := applyOption_frame (fun h => hkey h.symm) he
            obtain ⟨w, hwb, hwq, hcases⟩ := ih hrest h
            rw [if_neg hkey]
            refine ⟨w, hwb.trans hb, hwq.trans hq, ?_⟩
            rcases hcases with hsome | ⟨hnone, hb', hq'⟩
            · exact Or.inl hsome
            · exact Or.inr ⟨hnone, hb'.trans hb, hq'.trans hq⟩

/-- Agreement is about the two copies and nothing else. -/
theorem agree_congr {u v : UrlImpl} (hb : u.base.query = v.base.query)
    (hq : u.query = v.query) : u.Agree ↔ v.Agree := by
  rw [Agree, Agree, getEncodedQuery, getEncodedQuery, Parts.encodedQuery,
    Parts.encodedQuery, hb, hq]

/-- A constructor loop that writes a query option to ONE of two empty copies
    leaves agreeing copies exactly when that option is absent or empty. -/
theorem applyOptions_agree_iff {setQ : UrlImpl → Bytes → UrlImpl} {m : OptionMap}
    {u : UrlImpl}
    (hset : ∀ v s, v.base.query = fresh.base.query → v.query = fresh.query →
      ((setQ v s).Agree ↔ s = []))
    (h : applyOptions setQ m.entries fresh = .ok u) :
    u.Agree ↔ queryOption m = [] := by
  obtain ⟨v, hvb, hvq, hcases⟩ := applyOptions_query m.entries m.sorted h
  rw [queryOption, OrdMap.find]
  rcases hcases with ⟨s, hfind, hb, hq⟩ | ⟨hnone, hb, hq⟩
  · rw [hfind, agree_congr hb hq]
    exact hset v s hvb hvq
  · refine iff_of_true ((agree_congr hb hq).mpr fresh_agree) ?_
    split
    · next s hs => exact absurd hs (hnone s)
    · rfl

/-- A URL built from options has agreeing copies exactly when its query option
    is absent or empty. -/
theorem ofMap_agree_iff {m : OptionMap} {u : UrlImpl} (h : ofMap m = .ok u) :
    u.Agree ↔ queryOption m = [] := by
  refine applyOptions_agree_iff ?_ h
  intro v s _ hvq
  have hsent : (setBaseQuery v s).getEncodedQuery = [] :=
    congrArg QueryImpl.queryEncodedStr hvq
  rw [Agree, hsent]
  exact Parts.setQuery_eq_nil v.base s

/-! ## Calls on a URL -/

/-- The calls that write a query or a URL; the client hands the last two on to
    the URL it owns. -/
inductive UrlCall where
  | setQuery (m : QueryMap)
  | setQueryDoc
  | setEncodedQuery (queryStr : Bytes)
  | clientSetQuery (m : QueryMap)
  | clientSetURL (url : Bytes)

/-- A call that SUCCEEDS: it returns 0 and raises nothing.  The client drops the
    return code of `setQuery` and returns 0 itself. -/
def UrlCall.run (u : UrlImpl) : UrlCall → Option UrlImpl
  | .setQuery m => if (u.setQuery m).1 = 0 then some (u.setQuery m).2 else none
  | .setQueryDoc => if u.setQueryDoc.1 = 0 then some u.setQueryDoc.2 else none
  | .setEncodedQuery s =>
      if (u.setEncodedQuery s).1 = 0 then some (u.setEncodedQuery s).2 else none
  | .clientSetQuery m => some (u.setQuery m).2
  | .clientSetURL s =>
      match u.base.setEncodedUrl s with
      | .ok b => some { u with base := b }
      | .error _ => none

/-- The query component of a URL string. -/
def queryOfUrl (s : Bytes) : Bytes :=
  match parseUrl s with
  | .ok pt => pt.encodedQuery
  | .error _ => []

/-- The call writes both copies, or is handed the query that the copy it does
    not write already holds. -/
def UrlCall.Keeps (u : UrlImpl) : UrlCall → Prop
  | .setQuery _ => True
  | .setQueryDoc => True
  | .setEncodedQuery s => s = u.base.encodedQuery
  | .clientSetQuery m => safeMap m = true ∨ flattenQueryMap m = u.base.encodedQuery
  | .clientSetURL s => queryOfUrl s = u.getEncodedQuery

/-- What both `setQuery` overloads do with the base: it is given the string of
    the other copy. -/
theorem setEncodedQuery_agree {q : QueryImpl} {b b' : Parts}
    (h : b.setEncodedQuery q.getEncodedQuery = .ok b') :
    (⟨q, b'⟩ : UrlImpl).Agree :=
  (Parts.setEncodedQuery_ok h).1

/-- `setQuery(map)` returns 0 exactly on a safe map. -/
theorem setQuery_cases (u : UrlImpl) (m : QueryMap) :
    (safeMap m = true ∧ (u.setQuery m).1 = 0 ∧ (u.setQuery m).2.Agree)
      ∨ (safeMap m = false ∧ (u.setQuery m).1 = -1
        ∧ (u.setQuery m).2 = ⟨⟨m, flattenQueryMap m⟩, u.base⟩) := by
  have hiff := u.base.setEncodedQuery_error_iff (flattenQueryMap m)
  rw [acceptsQuery_flattenQueryMap] at hiff
  rw [UrlImpl.setQuery]
  cases hb : u.base.setEncodedQuery (flattenQueryMap m) with
  | error ex =>
      have hset : u.base.setEncodedQuery (u.query.setQuery m).2.getEncodedQuery
          = .error ex := hb
      refine Or.inr ⟨hiff.mp ⟨ex, hb⟩, ?_⟩
      simp only [hset]
      exact ⟨trivial, rfl⟩
  | ok b =>
      have hset : u.base.setEncodedQuery (u.query.setQuery m).2.getEncodedQuery
          = .ok b := hb
      have hsafe : safeMap m = true := by
        by_contra hne
        obtain ⟨ex, hex⟩ := hiff.mpr (Bool.not_eq_true _ ▸ hne)
        rw [hb] at hex
        cases hex
      refine Or.inl ⟨hsafe, ?_⟩
      simp only [hset]
      exact ⟨trivial, setEncodedQuery_agree hset⟩

/-- After `setQuery(map)` the target is the old path and the flattened map,
    whether the base took the map or not. -/
theorem setQuery_target (u : UrlImpl) (m : QueryMap) :
    (u.setQuery m).2.target
      = u.base.encodedPath ++ '?'.toUInt8 :: flattenQueryMap m := by
  have hpath : (u.setQuery m).2.base.path = u.base.path := by
    rw [UrlImpl.setQuery]
    cases hb : u.base.setEncodedQuery (u.query.setQuery m).2.getEncodedQuery with
    | ok b => exact (Parts.setEncodedQuery_ok hb).2
    | error ex => rfl
  have hquery : (u.setQuery m).2.getEncodedQuery = flattenQueryMap m := by
    rw [UrlImpl.setQuery]
    cases u.base.setEncodedQuery (u.query.setQuery m).2.getEncodedQuery with
    | ok b => rfl
    | error ex => rfl
  rw [target, hquery, Parts.encodedPath, hpath, List.append_assoc]
  rfl

/-- After a successful call the two copies of the query agree. -/
theorem setQueryDoc_agree {u : UrlImpl} (h : u.setQueryDoc.1 = 0) :
    u.setQueryDoc.2.Agree := by
  rw [UrlImpl.setQueryDoc] at h ⊢
  cases hb : u.base.setEncodedQuery u.query.setQueryDoc.2.getEncodedQuery with
  | ok b => exact setEncodedQuery_agree hb
  | error ex =>
      rw [hb] at h
      exact absurd (show (-1 : Int) = 0 from h) (by decide)

/-- Setting a whole URL sets the query that stands in it. -/
theorem setEncodedUrl_query {b b' : Parts} {s : Bytes}
    (h : b.setEncodedUrl s = .ok b') : b'.encodedQuery = queryOfUrl s := by
  rw [Parts.setEncodedUrl] at h
  by_cases hs : s = []
  · rw [if_pos hs] at h
    rw [← Except.ok.inj h, hs]
    rfl
  · rw [if_neg hs] at h
    rw [queryOfUrl]
    cases hpt : parseUrl s with
    | ok pt =>
        rw [hpt] at h
        rw [← Except.ok.inj h]
    | error e =>
        rw [hpt] at h
        cases h

/-- **ONE CALL**: after a successful call the copies agree exactly when the call
    kept the query. -/
theorem run_agree_iff {u u' : UrlImpl} {c : UrlCall} (h : c.run u = some u') :
    u'.Agree ↔ c.Keeps u := by
  cases c with
  | setQuery m =>
      refine iff_of_true ?_ trivial
      change (if (u.setQuery m).1 = 0 then _ else none) = _ at h
      -- a map that is refused is no successful call
      rcases setQuery_cases u m with ⟨-, hrc, hagree⟩ | ⟨-, hrc, -⟩
      · rw [if_pos hrc] at h
        rw [← Option.some.inj h]
        exact hagree
      · rw [if_neg (by rw [hrc]; decide)] at h
        cases h
  | setQueryDoc =>
      refine iff_of_true ?_ trivial
      change (if u.setQueryDoc.1 = 0 then _ else none) = _ at h
      by_cases hrc : u.setQueryDoc.1 = 0
      · rw [if_pos hrc] at h
        rw [← Option.some.inj h]
        exact setQueryDoc_agree hrc
      · rw [if_neg hrc] at h
        cases h
  | setEncodedQuery s =>
      have hu : u' = (u.setEncodedQuery s).2 := (Option.some.inj h).symm
      rw [hu]
      exact eq_comm
  | clientSetQuery m =>
      have hu : u' = (u.setQuery m).2 := (Option.some.inj h).symm
      rw [hu]
      rcases setQuery_cases u m with ⟨hsafe, -, hagree⟩ | ⟨hsafe, -, heq⟩
      · exact iff_of_true hagree (Or.inl hsafe)
      · -- the base kept its query, the other copy took the map
        rw [heq]
        constructor
        · exact fun hagree => Or.inr hagree.symm
        · rintro (hs | hs)
          · exact absurd hs (by rw [hsafe]; exact Bool.false_ne_true)
          · exact hs.symm
  | clientSetURL s =>
      change (match u.base.setEncodedUrl s with
        | .ok b => some { u with base := b }
        | .error _ => none) = some u' at h
      split at h
      · next b hb =>
          rw [← Option.some.inj h]
          show b.encodedQuery = u.getEncodedQuery ↔ _
          rw [setEncodedUrl_query hb]
          exact Iff.rfl
      · cases h

/-- With agreeing copies the target carries the query that `url()` shows. -/
theorem target_of_agree {u : UrlImpl} (h : u.Agree) :
    u.target = u.base.encodedPath ++ lit "?" ++ u.base.encodedQuery := by
  rw [target, h]

end UrlImpl

end HttpUrl
