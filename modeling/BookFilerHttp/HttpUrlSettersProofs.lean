import BookFilerHttp.HttpQueryGrammarProofs
import BookFilerHttp.HttpUrlProofs

/-! # What the setters of a URL report

    The setters of `UrlImpl` report by a return code, those of `ClientImpl` by an
    exception of the vendored library.  Three questions about a call, and for
    each the exact condition under which the answer is yes:

    * `reportsMalformed_iff`: is a malformed escape reported?  Only when there is
      none; the return code of the decoder is dropped on the way up.
    * `setQuery_accepted_iff`: does the base take every flattened map?  Exactly
      the maps without `#`, `[` and `]`.
    * `failsCleanly_iff`: does a failed call leave the URL as it was?
      `setQuery(map)` writes the map before the base validates it. -/

namespace HttpUrlSetters

open ByteString BoostUrl HttpUriCodec HttpQuery HttpQueryGrammar HttpUrl Runs UrlImpl

/-! ## Malformed escapes -/

/-- Some piece has a percent sign that is not followed by two digits. -/
def Malformed (s : Bytes) : Prop := ∃ piece ∈ pieces s, wellEscaped piece = false

/-- A malformed string is reported and changes no answer, any other string is
    taken. -/
structure ReportsMalformed (u : UrlImpl) (s : Bytes) : Prop where
  rejected : Malformed s → (u.setEncodedQuery s).1 < 0
  encodedQuery : Malformed s →
    (u.setEncodedQuery s).2.getEncodedQuery = u.getEncodedQuery
  query : Malformed s → ∀ k, (u.setEncodedQuery s).2.getQuery k = u.getQuery k
  taken : ¬ Malformed s → (u.setEncodedQuery s).1 = 0

theorem malformed_iff (s : Bytes) : Malformed s ↔ wellEscaped s = false := by
  have hsep : hexValue '&'.toUInt8 = none := by decide
  have hne : ('&'.toUInt8 : UInt8) ≠ '%'.toUInt8 := by decide
  rw [wellEscaped_splitOn hsep hne, List.all_eq_false, Malformed, pieces]
  simp only [Bool.not_eq_true]

/-- **MALFORMED ESCAPES**: in every state they are reported exactly when the
    string has none. -/
theorem reportsMalformed_iff (u : UrlImpl) (s : Bytes) :
    ReportsMalformed u s ↔ wellEscaped s = true := by
  constructor
  · intro h
    by_contra hw
    have hmal : Malformed s := (malformed_iff s).mpr (Bool.not_eq_true _ ▸ hw)
    -- the setter knows one return code
    exact absurd (h.rejected hmal) (show ¬ (0 : Int) < 0 by omega)
  · intro hw
    have hno : ¬ Malformed s := by
      rw [malformed_iff, hw]
      exact Bool.false_ne_true.symm
    exact ⟨fun h => absurd h hno, fun h => absurd h hno, fun h => absurd h hno,
      fun _ => rfl⟩

/-- The name of `a%zz=1` is cut at the bad escape, and the parameter is stored
    under what is left of it. -/
theorem malformed_not_reported :
    Malformed (lit "a%zz=1")
      ∧ (UrlImpl.fresh.setEncodedQuery (lit "a%zz=1")).1 = 0
      ∧ UrlImpl.fresh.getQuery (lit "a") = none
      ∧ (UrlImpl.fresh.setEncodedQuery (lit "a%zz=1")).2.getQuery (lit "a")
        = some (lit "1") := by
  refine ⟨(malformed_iff _).mpr ?_, rfl, rfl, ?_⟩ <;> decide +kernel

/-! ## Maps the base takes -/

/-- `setQuery` succeeds, and the base holds the flattened map. -/
def Taken (u : UrlImpl) (m : QueryMap) : Prop :=
  (u.setQuery m).1 = 0 ∧ (u.setQuery m).2.base.encodedQuery = flattenQueryMap m

/-- **SAFE MAPS**: in every state the base takes the flattened map exactly when
    no key and no value holds `#`, `[` or `]`. -/
theorem setQuery_accepted_iff (u : UrlImpl) (m : QueryMap) :
    Taken u m ↔ ∀ field ∈ m.entries, ∀ c ∈ unsafeCharStr, c ∉ field.1 ∧ c ∉ field.2 := by
  have hsafe : safeMap m = true
      ↔ ∀ field ∈ m.entries, ∀ c ∈ unsafeCharStr, c ∉ field.1 ∧ c ∉ field.2 := by
    simp only [safeMap, safeField, List.all_eq_true, Bool.and_eq_true,
      Bool.not_eq_true', List.any_eq_false, List.contains_iff_mem]
    constructor
    · intro h field hf c hc
      exact ⟨fun hk => (h field hf).1 c hk hc, fun hv => (h field hf).2 c hv hc⟩
    · intro h field hf
      exact ⟨fun c hk hc => (h field hf c hc).1 hk, fun c hv hc => (h field hf c hc).2 hv⟩
  rw [← hsafe]
  rcases setQuery_cases u m with ⟨hs, hrc, hagree⟩ | ⟨hs, hrc, -⟩
  · have hquery : (u.setQuery m).2.getEncodedQuery = flattenQueryMap m := by
      rw [UrlImpl.setQuery]
      split <;> rfl
    exact iff_of_true ⟨hrc, hagree.trans hquery⟩ hs
  · rw [hs]
    refine iff_of_false ?_ Bool.false_ne_true
    rintro ⟨h0, -⟩
    rw [hrc] at h0
    cases h0

/-- The value `[` is copied by the encoder and refused by the base. -/
theorem setQuery_refused :
    ¬ Taken UrlImpl.fresh (OrdMap.insertAll [(lit "a", lit "[")] OrdMap.empty) := by
  rintro ⟨h0, -⟩
  exact absurd h0 (by decide +kernel)

/-! ## Failed calls -/

/-- How a call ends. -/
inductive Outcome where
  | returned (rc : Int)
  | threw (ex : Exn)

/-- A negative return code or an exception. -/
def Outcome.Failed : Outcome → Prop
  | .returned rc => rc < 0
  | .threw _ => True

/-- A call on a URL or on the client that owns it, with its outcome and the URL
    after it.  The client returns 0 whatever `setQuery` of its URL returns. -/
def exec (u : UrlImpl) : UrlCall → Outcome × UrlImpl
  | .setQuery m => (.returned (u.setQuery m).1, (u.setQuery m).2)
  | .setQueryDoc => (.returned u.setQueryDoc.1, u.setQueryDoc.2)
  | .setEncodedQuery s => (.returned (u.setEncodedQuery s).1, (u.setEncodedQuery s).2)
  | .clientSetQuery m => (.returned 0, (u.setQuery m).2)
  | .clientSetURL s =>
      match u.base.setEncodedUrl s with
      | .ok b => (.returned 0, { u with base := b })
      | .error ex => (.threw ex, u)

/-- A history of calls, failed ones included. -/
def execStep (u : UrlImpl) (c : UrlCall) : Option (UrlImpl × List Unit) :=
  some ((exec u c).2, [])

/-- Everything a user reads off a URL. -/
structure SameView (u u' : UrlImpl) : Prop where
  url : u.url = u'.url
  target : u.target = u'.target
  encodedQuery : u.getEncodedQuery = u'.getEncodedQuery
  query : ∀ k, u.getQuery k = u'.getQuery k

/-- A call that fails leaves the URL as it was. -/
def FailsCleanly (u : UrlImpl) (c : UrlCall) : Prop :=
  (exec u c).1.Failed → SameView (exec u c).2 u

/-- The map is one the base takes, or the one that is stored already. -/
def NothingLost (u : UrlImpl) : UrlCall → Prop
  | .setQuery m =>
      safeMap m = true
        ∨ (m = u.query.queryMap ∧ flattenQueryMap m = u.getEncodedQuery)
  | _ => True

theorem sameView_refl (u : UrlImpl) : SameView u u :=
  ⟨rfl, rfl, rfl, fun _ => rfl⟩

/-- A URL with a new query map and string looks the same exactly when both are
    the old ones. -/
theorem sameView_query_iff (u : UrlImpl) (q : QueryImpl) :
    SameView ⟨q, u.base⟩ u
      ↔ q.queryMap = u.query.queryMap ∧ q.queryEncodedStr = u.getEncodedQuery := by
  constructor
  · intro h
    exact ⟨OrdMap.ext_find h.query, h.encodedQuery⟩
  · rintro ⟨hmap, hstr⟩
    refine ⟨rfl, ?_, hstr, ?_⟩
    · show u.base.encodedPath ++ lit "?" ++ q.queryEncodedStr = u.target
      rw [hstr]
      rfl
    · intro k
      show OrdMap.find k q.queryMap = OrdMap.find k u.query.queryMap
      rw [hmap]

/-- The JSON overload stores no query, so nothing changes when it fails. -/
theorem setQueryDoc_failed {u : UrlImpl} (h : u.setQueryDoc.1 < 0) :
    u.setQueryDoc.2 = u := by
  rw [UrlImpl.setQueryDoc] at h ⊢
  cases hb : u.base.setEncodedQuery u.query.setQueryDoc.2.getEncodedQuery with
  | ok b =>
      rw [hb] at h
      exact absurd h (show ¬ (0 : Int) < 0 by omega)
  | error ex => rfl

/-- **ONE CALL**: in every state a call fails cleanly exactly when nothing is
    lost. -/
theorem failsCleanly_call_iff (u : UrlImpl) (c : UrlCall) :
    FailsCleanly u c ↔ NothingLost u c := by
  cases c with
  | setQuery m =>
      rcases setQuery_cases u m with ⟨hsafe, hrc, -⟩ | ⟨hsafe, hrc, heq⟩
      · refine iff_of_true ?_ (Or.inl hsafe)
        intro hfail
        have hneg : (u.setQuery m).1 < 0 := hfail
        omega
      · -- the map and its flattening were written, the base refused them
        have hfail : (exec u (.setQuery m)).1.Failed := by
          show (u.setQuery m).1 < 0
          omega
        have hview : SameView (exec u (.setQuery m)).2 u
            ↔ m = u.query.queryMap ∧ flattenQueryMap m = u.getEncodedQuery := by
          show SameView (u.setQuery m).2 u ↔ _
          rw [heq]
          exact sameView_query_iff u ⟨m, flattenQueryMap m⟩
        constructor
        · exact fun h => Or.inr (hview.mp (h hfail))
        · rintro (hs | hstored) -
          · rw [hsafe] at hs
            cases hs
          · exact hview.mpr hstored
  | setQueryDoc =>
      refine iff_of_true ?_ trivial
      intro hfail
      show SameView u.setQueryDoc.2 u
      rw [setQueryDoc_failed hfail]
      exact sameView_refl u
  | setEncodedQuery s =>
      exact iff_of_true (fun hfail => absurd hfail (lt_irrefl (0 : Int))) trivial
  | clientSetQuery m =>
      exact iff_of_true (fun hfail => absurd hfail (lt_irrefl (0 : Int))) trivial
  | clientSetURL s =>
      refine iff_of_true ?_ trivial
      rw [FailsCleanly, exec]
      split
      · exact fun hfail => absurd hfail (lt_irrefl (0 : Int))
      · exact fun _ => sameView_refl u

/-- **FAILED CALLS**: along every history of calls every failed call leaves the
    URL as it was exactly when every call loses nothing. -/
theorem failsCleanly_iff (u : UrlImpl) (calls : List UrlCall) :
    Along execStep FailsCleanly u calls ↔ Along execStep NothingLost u calls := by
  have hinv : ∀ v c v' as, True → NothingLost v c → execStep v c = some (v', as) → True :=
    fun _ _ _ _ _ _ _ => trivial
  exact along_congr hinv (fun v c _ => failsCleanly_call_iff v c) calls trivial

/-- A refused map stays behind: the URL sends a query that `setQuery` has
    rejected. -/
theorem failsCleanly_not_always :
    ¬ Along execStep FailsCleanly UrlImpl.fresh
        [.setQuery (OrdMap.insertAll [(lit "a", lit "[")] OrdMap.empty)] := by
  rintro ⟨hclean, -⟩
  have hview := hclean (show (-1 : Int) < 0 by omega)
  exact absurd hview.encodedQuery (by decide +kernel)

end HttpUrlSetters
