import BookFilerHttp.HttpQueryProofs
import BookFilerHttp.RunsProofs

/-! # The grammar of a query string

    A query string is a list of pieces between ampersands; a piece is a name, or
    a name and a value around its first `=`.  `parameter` reads it off by that
    grammar, with the reference decoder, and names nothing of `QueryImpl`.

    * `getQuery_grammar_iff`: a fresh query answers as the grammar says exactly
      when the first piece of every name is written with `=`.  A piece without
      `=` is stored as its own value, and an empty piece as a parameter.
    * `replaces_iff`: a setter answers as it would on a fresh object exactly when
      it assigns the map, or when the new string gives every parameter that is
      already stored the value it has. -/

namespace HttpQueryGrammar

open ByteString HttpUriCodec HttpQuery Runs

/-! ## The grammar -/

/-- The `&`-separated pieces of a query string. -/
def pieces (s : Bytes) : List Bytes := s.splitOn '&'.toUInt8

/-- The part before the first `=`, the whole piece when there is none. -/
def pieceName (piece : Bytes) : Bytes := beforeFirst '='.toUInt8 piece

/-- The part after the first `=`, empty when there is none. -/
def pieceValue (piece : Bytes) : Bytes := afterFirst '='.toUInt8 piece

/-- The piece has the decoded name `k`. -/
def named (k piece : Bytes) : Bool := decide (percentDecode (pieceName piece) = k)

/-- The first non-empty piece with the decoded name `k`. -/
def firstPiece (s k : Bytes) : Option Bytes :=
  (pieces s).find? (fun piece => !piece.isEmpty && named k piece)

/-- What the grammar says about the key `k`. -/
def parameter (s k : Bytes) : Option Bytes :=
  (firstPiece s k).map (fun piece => percentDecode (pieceValue piece))

/-- The first piece of every name, empty pieces included, is written with `=`;
    or it is empty and the first other piece with the empty name is `=` alone. -/
def Explicit (s : Bytes) : Prop :=
  ∀ k piece, (pieces s).find? (named k) = some piece →
    '='.toUInt8 ∈ piece ∨ (piece = [] ∧ firstPiece s k = some (lit "="))

/-! ## Names and values of one piece -/

/-- A piece with an empty name is empty or starts with its `=`. -/
theorem eq_cons_of_pieceName {piece : Bytes} (hne : piece ≠ [])
    (h : pieceName piece = []) : piece = '='.toUInt8 :: pieceValue piece := by
  cases piece with
  | nil => exact absurd rfl hne
  | cons x rest =>
      have hx : x = '='.toUInt8 := by
        by_contra hx
        rw [pieceName, beforeFirst, List.takeWhile_cons, if_pos (bne_iff_ne.mpr hx)] at h
        cases h
      subst hx
      rfl

/-- What the code stores for a piece of a well escaped string. -/
theorem decodePart_eq {piece : Bytes} (h : wellEscaped piece = true) :
    decodePart piece = (percentDecode (pieceName piece),
      percentDecode (if '='.toUInt8 ∈ piece then pieceValue piece else piece)) := by
  have hsep : hexValue '='.toUInt8 = none := by decide
  have hne : ('='.toUInt8 : UInt8) ≠ '%'.toUInt8 := by decide
  rw [decodePart]
  by_cases heq : '='.toUInt8 ∈ piece
  · obtain ⟨a, b, rfl, ha⟩ := List.eq_append_cons_of_mem heq
    obtain ⟨hto, hfrom⟩ := substr_append b ha
    obtain ⟨hname, hval⟩ := cut_append b ha
    rw [wellEscaped_append hsep hne, Bool.and_eq_true] at h
    simp only [if_pos heq, pieceName, pieceValue, hto, hfrom, hname, hval]
    rw [uriDecode_wellEscaped h.1, uriDecode_wellEscaped h.2]
    rfl
  · -- without `=` both halves are the whole piece
    simp only [if_neg heq, pieceName, (cut_of_not_mem heq).1, findFirstOf_eq_none heq,
      substrTo, substrFrom]
    rw [uriDecode_wellEscaped h]
    rfl

/-! ## The code against the grammar -/

/-- What the code answers on a well escaped string. -/
theorem getQuery_setEncodedQuery {s : Bytes} (h : wellEscaped s = true) (k : Bytes) :
    (QueryImpl.fresh.setEncodedQuery s).2.getQuery k
      = ((pieces s).find? (named k)).map (fun piece =>
          percentDecode (if '='.toUInt8 ∈ piece then pieceValue piece else piece)) := by
  have hsep : hexValue '&'.toUInt8 = none := by decide
  have hne : ('&'.toUInt8 : UInt8) ≠ '%'.toUInt8 := by decide
  have hall : ∀ piece ∈ pieces s, wellEscaped piece = true :=
    List.all_eq_true.mp ((wellEscaped_splitOn hsep hne s).symm.trans h)
  show OrdMap.find k (OrdMap.insertAll ((pieces s).map decodePart) OrdMap.empty) = _
  rw [OrdMap.find_insertAll, OrdMap.find_empty, Option.none_or,
    List.map_congr_left (fun piece hp => decodePart_eq (hall piece hp))]
  refine OrdMap.findL_map _ ?_
  intro piece _
  rw [named, decide_eq_true_iff]
  exact eq_comm

/-- A non-empty first piece of a name is the one the grammar reads. -/
theorem firstPiece_of_find {s k piece : Bytes} (hne : piece ≠ [])
    (h : (pieces s).find? (named k) = some piece) : firstPiece s k = some piece := by
  obtain ⟨hnamed, before, after, hs, hbefore⟩ := List.find?_eq_some_iff_append.mp h
  refine List.find?_eq_some_iff_append.mpr ⟨?_, before, after, hs, ?_⟩
  · simp [hne, hnamed]
  · intro q hq
    have hqk := hbefore q hq
    simp only [Bool.not_eq_eq_eq_not, Bool.not_true] at hqk
    simp [hqk]

/-- The grammar gives the empty name the empty value exactly when the first piece
    with it is `=` alone. -/
theorem parameter_nil_iff (s : Bytes) :
    parameter s [] = some [] ↔ firstPiece s [] = some (lit "=") := by
  rw [parameter]
  cases hfirst : firstPiece s [] with
  | none => simp
  | some q =>
      have hq := List.find?_some hfirst
      simp only [named, percentDecode_eq_nil, Bool.and_eq_true, Bool.not_eq_true',
        List.isEmpty_eq_false_iff, decide_eq_true_iff] at hq
      have hcons := eq_cons_of_pieceName hq.1 hq.2
      rw [Option.map_some, Option.some.injEq, Option.some.injEq, percentDecode_eq_nil]
      constructor
      · intro hv
        rw [hcons, hv]
        rfl
      · rintro rfl
        rfl

/-- **ONE KEY**: the code and the grammar agree on a key exactly when its first
    piece is explicit. -/
theorem getQuery_eq_parameter_iff {s : Bytes} (h : wellEscaped s = true) (k : Bytes) :
    (QueryImpl.fresh.setEncodedQuery s).2.getQuery k = parameter s k
      ↔ ∀ piece, (pieces s).find? (named k) = some piece →
          '='.toUInt8 ∈ piece ∨ (piece = [] ∧ firstPiece s k = some (lit "=")) := by
  rw [getQuery_setEncodedQuery h, parameter]
  cases hfind : (pieces s).find? (named k) with
  | none =>
      -- no piece has the name, so no non-empty one has it
      have hnone : firstPiece s k = none := by
        refine List.find?_eq_none.mpr ?_
        intro piece hp
        have hk := List.find?_eq_none.mp hfind piece hp
        simp [hk]
      rw [hnone]
      exact iff_of_true rfl (fun piece hp => (nomatch hp))
  | some piece =>
      have hname : percentDecode (pieceName piece) = k := by
        have hk := List.find?_some hfind
        rwa [named, decide_eq_true_iff] at hk
      have hiff : (∀ q, some piece = some q → '='.toUInt8 ∈ q
            ∨ (q = [] ∧ firstPiece s k = some (lit "=")))
          ↔ '='.toUInt8 ∈ piece ∨ (piece = [] ∧ firstPiece s k = some (lit "=")) := by
        constructor
        · exact fun hq => hq piece rfl
        · rintro hp q hq
          rw [← Option.some.inj hq]
          exact hp
      rw [hiff, Option.map_some]
      by_cases heq : '='.toUInt8 ∈ piece
      · have hne : piece ≠ [] := List.ne_nil_of_mem heq
        rw [firstPiece_of_find hne hfind, if_pos heq, Option.map_some]
        exact iff_of_true rfl (Or.inl heq)
      · rw [if_neg heq]
        by_cases hnil : piece = []
        · -- the empty piece is stored with the empty value
          subst hnil
          have hk : k = [] := hname.symm
          have hparameter := parameter_nil_iff s
          rw [parameter] at hparameter
          subst hk
          rw [← hparameter]
          simp [percentDecode, eq_comm]
        · -- the piece is stored as its own value
          rw [firstPiece_of_find hnil hfind, Option.map_some, pieceValue, (cut_of_not_mem heq).2]
          have hdec : percentDecode piece ≠ [] := fun hd => hnil (percentDecode_eq_nil.mp hd)
          simp [percentDecode, heq, hnil, hdec]

/-- **HEADLINE**: a fresh query that is given a well escaped string answers every
    key as the grammar says exactly when the string is explicit. -/
theorem getQuery_grammar_iff (s : Bytes) (h : wellEscaped s = true) :
    (∀ k, (QueryImpl.fresh.setEncodedQuery s).2.getQuery k = parameter s k)
      ↔ Explicit s := by
  exact forall_congr' (getQuery_eq_parameter_iff h)

/-- `a=b&c=` is explicit. -/
theorem getQuery_grammar_explicit :
    (∀ k, (QueryImpl.fresh.setEncodedQuery (lit "a=b&c=")).2.getQuery k
        = parameter (lit "a=b&c=") k)
      ↔ Explicit (lit "a=b&c=") :=
  getQuery_grammar_iff (lit "a=b&c=") (by decide +kernel)

/-- The query `a` gives the parameter `a` its own name as the value, where the
    grammar gives it the empty value. -/
theorem getQuery_not_grammar :
    wellEscaped (lit "a") = true
      ∧ (QueryImpl.fresh.setEncodedQuery (lit "a")).2.getQuery (lit "a") = some (lit "a")
      ∧ parameter (lit "a") (lit "a") = some [] := by
  decide +kernel

/-! ## Setting a query again -/

/-- The two setters. -/
inductive QueryCall where
  | setQuery (m : QueryMap)
  | setEncodedQuery (queryStr : Bytes)

/-- The object after a call; both setters return 0. -/
def QueryCall.exec (q : QueryImpl) : QueryCall → QueryImpl
  | .setQuery m => (q.setQuery m).2
  | .setEncodedQuery s => (q.setEncodedQuery s).2

/-- A history of calls as runs of a machine that does no actions. -/
def queryStep (q : QueryImpl) (c : QueryCall) : Option (QueryImpl × List Unit) :=
  some (c.exec q, [])

/-- The two objects answer every lookup alike. -/
def SameAnswers (q q' : QueryImpl) : Prop :=
  q.getEncodedQuery = q'.getEncodedQuery ∧ ∀ k, q.getQuery k = q'.getQuery k

/-- After the call the object answers as a fresh one would. -/
def Replaces (q : QueryImpl) (c : QueryCall) : Prop :=
  SameAnswers (c.exec q) (c.exec QueryImpl.fresh)

/-- The call assigns the map, or its string gives every stored parameter the
    value that is stored. -/
def Supplants (q : QueryImpl) : QueryCall → Prop
  | .setQuery _ => True
  | .setEncodedQuery s =>
      ∀ k v, q.getQuery k = some v →
        OrdMap.findL k ((pieces s).map decodePart) = some v

/-- Inserting keeps what is stored, so nothing is left of it exactly when it
    agrees with what is inserted. -/
theorem find_insertAll_eq_iff {l : List (Bytes × Bytes)} {m : QueryMap} {k : Bytes} :
    OrdMap.find k (OrdMap.insertAll l m) = OrdMap.find k (OrdMap.insertAll l OrdMap.empty)
      ↔ ∀ v, OrdMap.find k m = some v → OrdMap.findL k l = some v := by
  rw [OrdMap.find_insertAll, OrdMap.find_insertAll, OrdMap.find_empty, Option.none_or]
  cases OrdMap.find k m with
  | none => exact iff_of_true rfl (fun v h => (nomatch h))
  | some w =>
      rw [Option.some_or]
      constructor
      · intro h v hv
        rw [← hv, h]
      · exact fun h => (h w rfl).symm

/-- **ONE CALL**: from every state a call replaces the query exactly when it
    supplants what is stored. -/
theorem replaces_call_iff (q : QueryImpl) (c : QueryCall) :
    Replaces q c ↔ Supplants q c := by
  cases c with
  | setQuery m => exact iff_of_true ⟨rfl, fun k => rfl⟩ trivial
  | setEncodedQuery s =>
      constructor
      · rintro ⟨-, hall⟩ k
        exact find_insertAll_eq_iff.mp (hall k)
      · intro h
        exact ⟨rfl, fun k => find_insertAll_eq_iff.mpr (h k)⟩

/-- **HEADLINE**: along every history every call replaces the query exactly when
    every call supplants what is stored before it. -/
theorem replaces_iff (calls : List QueryCall) :
    Along queryStep Replaces QueryImpl.fresh calls
      ↔ Along queryStep Supplants QueryImpl.fresh calls := by
  have hinv : ∀ q c q' as, True → Supplants q c → queryStep q c = some (q', as) → True :=
    fun _ _ _ _ _ _ _ => trivial
  exact along_congr hinv (fun q c _ => replaces_call_iff q c) calls trivial

/-- Setting `a=2` after `a=1`: the first value wins, a fresh query would answer
    with the second. -/
theorem replaces_not_always :
    ¬ Along queryStep Replaces QueryImpl.fresh
        [.setEncodedQuery (lit "a=1"), .setEncodedQuery (lit "a=2")] := by
  intro h
  obtain ⟨-, hreplaces⟩ := (h.2 _ _ rfl).1
  have hkept := hreplaces (lit "a")
  have hne : ((QueryImpl.fresh.setEncodedQuery (lit "a=1")).2.setEncodedQuery
        (lit "a=2")).2.getQuery (lit "a")
      ≠ (QueryImpl.fresh.setEncodedQuery (lit "a=2")).2.getQuery (lit "a") := by
    decide +kernel
  exact hne hkept

end HttpQueryGrammar
