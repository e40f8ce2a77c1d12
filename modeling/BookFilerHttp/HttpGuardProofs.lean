import BookFilerHttp.HttpConnectionProofs

/-! # The path guard of `Connection::run`

    The guard looks at the whole raw target: it must start with a slash and contain
    no `..` anywhere.  The path is cut off and decoded later, by others.

    A percent-decoded text is read unit by unit, a unit being a plain character or an
    escape (`Piece`), and the decoder stops at the first percent sign that starts no
    escape.  `decoded_dotDot_iff` says when two dots come together in what it has
    written by then, and `guardExact_iff` says for which targets the guard judges the
    path and nothing else. -/

namespace HttpGuard

open ByteString HttpUriCodec HttpRequest HttpResponse HttpRoute HttpConnection

variable {W : Type}

/-! ## Units of an encoded text -/

/-- A plain character, or an escape, with the byte it stands for. -/
inductive Piece : Bytes → UInt8 → Prop
  | copied {c : UInt8} : c ≠ '%'.toUInt8 → Piece [c] c
  | escape {hi lo b : UInt8} {h l : Nat} : hexValue hi = some h → hexValue lo = some l →
      b.toNat = 16 * h + l → Piece ['%'.toUInt8, hi, lo] b

/-- What the decoder has written when it returns. -/
def decoded (s : Bytes) : Bytes := (uriDecode s []).2

theorem decoded_append (s a : Bytes) : (uriDecode s a).2 = a ++ decoded s := by
  have hall : ∀ a b : Bytes, (uriDecode s (b ++ a)).2 = b ++ (uriDecode s a).2 := by
    intro a
    fun_induction uriDecode s a with
    | case1 a => exact fun b => rfl
    | case2 a => exact fun b => rfl
    | case3 a x => exact fun b => rfl
    | case4 a hi lo rest l h hl hh ih =>
        intro b
        rw [uriDecode_escape hh hl, List.append_assoc]
        exact ih b
    | case5 a hi lo rest hnone =>
        intro b
        rw [uriDecode.eq_def]
        cases hh : hexNibble hi with
        | none => simp only [if_pos, hh]
        | some vh =>
            cases hl : hexNibble lo with
            | none => simp only [if_pos, hh, hl]
            | some vl => exact (hnone vh vl hh hl).elim
    | case6 c it a hne ih =>
        intro b
        rw [uriDecode_copied hne, List.append_assoc]
        exact ih b
  have h := hall [] a
  rw [List.append_nil] at h
  exact h

/-- The decoder writes the byte of the first unit and goes on behind it. -/
theorem decoded_piece {u : Bytes} {b : UInt8} (h : Piece u b) (s : Bytes) :
    decoded (u ++ s) = b :: decoded s := by
  cases h with
  | copied hne =>
      rw [decoded, List.cons_append, uriDecode_copied hne, decoded_append]
      rfl
  | @escape hi lo b h l hh hl hb =>
      have hhi : hexNibble hi = some (UInt8.ofNat h) := by rw [hexNibble_eq, hh]; rfl
      have hlo : hexNibble lo = some (UInt8.ofNat l) := by rw [hexNibble_eq, hl]; rfl
      have hsum : UInt8.ofNat h * 16 + UInt8.ofNat l = b :=
        UInt8.toNat_inj.mp (by rw [escape_toNat (hexValue_lt hh) (hexValue_lt hl), hb])
      show (uriDecode ('%'.toUInt8 :: hi :: lo :: s) []).2 = _
      rw [uriDecode_escape hhi hlo, decoded_append, hsum]
      rfl

/-- A percent sign that starts no escape ends the decoding. -/
theorem uriDecode_percent {s : Bytes} (h : ¬ startsHexPair s = true) (a : Bytes) :
    uriDecode ('%'.toUInt8 :: s) a = (-1, a) := by
  rw [uriDecode.eq_def]
  dsimp only
  rw [if_pos rfl]
  cases s with
  | nil => rfl
  | cons hi s' =>
      cases s' with
      | nil => rfl
      | cons lo rest =>
          dsimp only
          rw [hexNibble_eq, hexNibble_eq]
          cases hh : hexValue hi with
          | none => rfl
          | some vh =>
              cases hl : hexValue lo with
              | none => rfl
              | some vl =>
                  refine (h ?_).elim
                  show ((hexValue hi).isSome && (hexValue lo).isSome) = true
                  rw [hh, hl]
                  rfl

/-- A text starts with a unit, or the decoder writes nothing. -/
theorem piece_or_stop (s : Bytes) :
    (∃ u b t, s = u ++ t ∧ Piece u b)
      ∨ (decoded s = [] ∧ ∀ u b t, Piece u b → s ≠ u ++ t) := by
  cases s with
  | nil =>
      refine Or.inr ⟨rfl, ?_⟩
      intro u b t hu heq
      cases hu with
      | copied _ => cases heq
      | escape _ _ _ => cases heq
  | cons c rest =>
      by_cases hc : c = '%'.toUInt8
      · subst hc
        by_cases hpair : startsHexPair rest = true
        · match rest, hpair with
          | hi :: lo :: t, hpair =>
              obtain ⟨hhi, hlo⟩ := (Bool.and_eq_true _ _).mp hpair
              obtain ⟨h, hh⟩ := Option.isSome_iff_exists.mp hhi
              obtain ⟨l, hl⟩ := Option.isSome_iff_exists.mp hlo
              exact Or.inl ⟨_, _, t, rfl, Piece.escape hh hl
                (escape_toNat (hexValue_lt hh) (hexValue_lt hl))⟩
        · refine Or.inr ⟨?_, ?_⟩
          · rw [decoded, uriDecode_percent hpair]
          · intro u b t hu heq
            cases hu with
            | copied hne => exact hne (List.cons.inj heq).1.symm
            | escape hh hl _ =>
                refine hpair ?_
                rw [(List.cons.inj heq).2]
                show ((hexValue _).isSome && (hexValue _).isSome) = true
                rw [hh, hl]
                rfl
      · exact Or.inl ⟨[c], c, rest, rfl, Piece.copied hc⟩

/-- The first unit is determined. -/
theorem piece_unique {u u' s s' : Bytes} {b b' : UInt8} (h : Piece u b)
    (h' : Piece u' b') (heq : u ++ s = u' ++ s') : u = u' ∧ b = b' ∧ s = s' := by
  cases h with
  | copied hne =>
      cases h' with
      | copied _ =>
          obtain ⟨rfl, rfl⟩ := List.cons.inj heq
          exact ⟨rfl, rfl, rfl⟩
      | escape _ _ _ => exact (hne (List.cons.inj heq).1).elim
  | escape hh hl hb =>
      cases h' with
      | copied hne => exact (hne (List.cons.inj heq).1.symm).elim
      | escape hh' hl' hb' =>
          simp only [List.cons_append, List.nil_append, List.cons.injEq] at heq
          obtain ⟨-, rfl, rfl, rfl⟩ := heq
          rw [hh] at hh'
          rw [hl] at hl'
          refine ⟨rfl, UInt8.toNat_inj.mp ?_, rfl⟩
          rw [hb, hb', Option.some.inj hh', Option.some.inj hl']

/-- The texts of a dot. -/
def dots : List Bytes := [lit ".", lit "%2E", lit "%2e"]

theorem piece_dot_iff {u : Bytes} : Piece u '.'.toUInt8 ↔ u ∈ dots := by
  have htwo : ∀ d : UInt8, hexValue d = some 2 → d = '2'.toUInt8 :=
    forall_byte (by decide +kernel)
  have hfourteen : ∀ d : UInt8, hexValue d = some 14 → d = 'E'.toUInt8 ∨ d = 'e'.toUInt8 :=
    forall_byte (by decide +kernel)
  constructor
  · intro h
    cases h with
    | copied _ => exact List.mem_cons_self ..
    | @escape hi lo _ h l hh hl hb =>
        have hsum : 46 = 16 * h + l := hb
        have hlt := hexValue_lt hl
        have hh2 : h = 2 := by omega
        have hl14 : l = 14 := by omega
        subst hh2 hl14
        rw [htwo hi hh]
        rcases hfourteen lo hl with rfl | rfl
        · exact List.mem_cons_of_mem _ (List.mem_cons_self ..)
        · exact List.mem_cons_of_mem _ (List.mem_cons_of_mem _ (List.mem_cons_self ..))
  · intro h
    simp only [dots, List.mem_cons, List.not_mem_nil, or_false] at h
    rcases h with rfl | rfl | rfl
    · exact Piece.copied (by decide)
    · exact Piece.escape (h := 2) (l := 14) rfl rfl rfl
    · exact Piece.escape (h := 2) (l := 14) rfl rfl rfl

/-! ## Dots that come together -/

/-- In a scan from the left two units in a row are dots. -/
def DotsMeet (s : Bytes) : Prop :=
  ∃ pre d u v post, s = pre ++ u ++ v ++ post ∧ Decodes pre d ∧ u ∈ dots ∧ v ∈ dots

/-- A decodable text is empty or starts with a unit. -/
theorem decodes_cases {s d : Bytes} (h : Decodes s d) :
    s = [] ∨ ∃ u b t e, s = u ++ t ∧ Piece u b ∧ Decodes t e := by
  cases h with
  | done => exact Or.inl rfl
  | @copied c s d hne ht => exact Or.inr ⟨[c], c, s, d, rfl, Piece.copied hne, ht⟩
  | @escape hi lo b h l s d hh hl hb ht =>
      exact Or.inr ⟨_, b, s, d, rfl, Piece.escape hh hl hb, ht⟩

theorem decodes_piece {u t e : Bytes} {b : UInt8} (hu : Piece u b) (ht : Decodes t e) :
    Decodes (u ++ t) (b :: e) := by
  cases hu with
  | copied hne => exact Decodes.copied hne ht
  | escape hh hl hb => exact Decodes.escape hh hl hb ht

/-- The first decoded byte is a dot when the text starts with one. -/
theorem decoded_head_iff (s : Bytes) :
    (decoded s).head? = some '.'.toUInt8 ↔ ∃ v post, s = v ++ post ∧ v ∈ dots := by
  rcases piece_or_stop s with ⟨u, b, t, rfl, hu⟩ | ⟨hstop, hno⟩
  · rw [decoded_piece hu]
    constructor
    · intro hb
      rw [Option.some.inj hb] at hu
      exact ⟨u, t, rfl, piece_dot_iff.mp hu⟩
    · rintro ⟨v, post, heq, hv⟩
      obtain ⟨-, rfl, -⟩ := piece_unique hu (piece_dot_iff.mpr hv) heq
      rfl
  · rw [hstop]
    constructor
    · intro h
      cases h
    · rintro ⟨v, post, heq, hv⟩
      exact (hno v _ post (piece_dot_iff.mpr hv) heq).elim

/-- A pair of dots is at the first unit or behind it. -/
theorem dotsMeet_piece {u : Bytes} {b : UInt8} (hu : Piece u b) (t : Bytes) :
    DotsMeet (u ++ t)
      ↔ (b = '.'.toUInt8 ∧ ∃ v post, t = v ++ post ∧ v ∈ dots) ∨ DotsMeet t := by
  constructor
  · rintro ⟨pre, d, w, v, post, heq, hpre, hw, hv⟩
    rcases decodes_cases hpre with rfl | ⟨u', b', pre', d', rfl, hu', hpre'⟩
    · have heq' : u ++ t = w ++ (v ++ post) := by simpa using heq
      obtain ⟨-, hb, ht⟩ := piece_unique hu (piece_dot_iff.mpr hw) heq'
      exact Or.inl ⟨hb, v, post, ht, hv⟩
    · have heq' : u ++ t = u' ++ (pre' ++ w ++ v ++ post) := by simpa using heq
      obtain ⟨-, -, ht⟩ := piece_unique hu hu' heq'
      exact Or.inr ⟨pre', d', w, v, post, ht, hpre', hw, hv⟩
  · rintro (⟨rfl, v, post, rfl, hv⟩ | ⟨pre, d, w, v, post, rfl, hpre, hw, hv⟩)
    · exact ⟨[], [], u, v, post, by simp, Decodes.done, piece_dot_iff.mp hu, hv⟩
    · exact ⟨u ++ pre, b :: d, w, v, post, by simp, decodes_piece hu hpre, hw, hv⟩

theorem hasDotDot_cons (b : UInt8) (s : Bytes) :
    hasDotDot (b :: s) = true
      ↔ (b = '.'.toUInt8 ∧ s.head? = some '.'.toUInt8) ∨ hasDotDot s = true := by
  cases s with
  | nil => simp [hasDotDot]
  | cons c rest => simp [hasDotDot]

/-- **DECODED DOTS**: the decoder writes two dots in a row exactly when two dots
    meet in the scan. -/
theorem decoded_dotDot_iff (s : Bytes) : hasDotDot (decoded s) = true ↔ DotsMeet s := by
  induction hn : s.length using Nat.strong_induction_on generalizing s with
  | _ n ih =>
      rcases piece_or_stop s with ⟨u, b, t, rfl, hu⟩ | ⟨hstop, hno⟩
      · have hlt : t.length < n := by
          rw [← hn, List.length_append]
          cases hu with
          | copied _ => simp
          | escape _ _ _ => simp
        rw [decoded_piece hu, hasDotDot_cons, decoded_head_iff, dotsMeet_piece hu,
          ih t.length hlt t rfl]
      · rw [hstop]
        constructor
        · intro h
          cases h
        · rintro ⟨pre, d, w, v, post, heq, hpre, hw, -⟩
          rcases decodes_cases hpre with rfl | ⟨u', b', pre', d', rfl, hu', -⟩
          · exact (hno w _ (v ++ post) (piece_dot_iff.mpr hw) (by simpa using heq)).elim
          · exact (hno u' b' (pre' ++ w ++ v ++ post) hu' (by simpa using heq)).elim

/-! ## The guard against the path -/

/-- The request is turned away as an illegal target. -/
def Rejected (routes : RouteImpl W) (req : RequestBeast) (world : W) : Prop :=
  answer routes req world = .refused (badRequest req .fresh (lit "Illegal request-target"))

/-- A target is only rejected for its path, and the path of an accepted one holds no
    `..` after decoding. -/
structure GuardExact (routes : RouteImpl W) (req : RequestBeast) (world : W) : Prop where
  rejected : Rejected routes req world → targetPath req.target = []
    ∨ (targetPath req.target).head? ≠ some '/'.toUInt8
    ∨ hasDotDot (targetPath req.target) = true
  accepted : ¬ Rejected routes req world →
    hasDotDot (decoded (targetPath req.target)) = false

/-- The condition: the path itself is illegal, or neither has the query a `..` nor do
    two dots of the path meet, written as characters or as escapes. -/
def Judged (target : Bytes) : Prop :=
  targetPath target = []
    ∨ (targetPath target).head? ≠ some '/'.toUInt8
    ∨ hasDotDot (targetPath target) = true
    ∨ (hasDotDot (afterFirst '?'.toUInt8 target) = false
      ∧ ¬ DotsMeet (targetPath target))

theorem legalTarget_iff (target : Bytes) :
    legalTarget target = true
      ↔ target.head? = some '/'.toUInt8 ∧ hasDotDot target = false := by
  cases target with
  | nil => exact iff_of_false (by decide) (by rintro ⟨h, -⟩; cases h)
  | cons c rest => simp [legalTarget]

/-- The guard is the only place that turns a GET or HEAD request away so. -/
theorem rejected_iff (routes : RouteImpl W) {req : RequestBeast} (world : W)
    (h : acceptsMethod req = true) :
    Rejected routes req world ↔ legalTarget req.target = false := by
  rw [Rejected, answer, h, if_neg (by decide)]
  by_cases hlegal : legalTarget req.target = false
  · rw [if_pos hlegal]
    exact iff_of_true rfl hlegal
  · rw [if_neg hlegal]
    refine iff_of_false ?_ hlegal
    intro hrefused
    cases hs : setup req world with
    | error ex =>
        rw [hs] at hrefused
        cases hrefused
    | ok x =>
        rw [hs] at hrefused
        simp only at hrefused
        split at hrefused
        · cases hrefused
        · cases hrefused

/-- A byte that is no dot keeps the dots on its two sides apart. -/
theorem hasDotDot_append {c : UInt8} (h : c ≠ '.'.toUInt8) (a b : Bytes) :
    hasDotDot (a ++ c :: b) = true ↔ hasDotDot a = true ∨ hasDotDot b = true := by
  induction a with
  | nil =>
      rw [List.nil_append, hasDotDot_cons]
      simp [h, hasDotDot]
  | cons x rest ih =>
      have hhead : (rest ++ c :: b).head? = some '.'.toUInt8
          ↔ rest.head? = some '.'.toUInt8 := by
        cases rest with
        | nil => simp [h]
        | cons y rest' => rfl
      rw [List.cons_append, hasDotDot_cons, hasDotDot_cons, hhead, ih, or_assoc]

/-- The path and the query of a target share its dots between them. -/
theorem hasDotDot_target (target : Bytes) :
    hasDotDot target = true
      ↔ hasDotDot (targetPath target) = true
        ∨ hasDotDot (afterFirst '?'.toUInt8 target) = true := by
  by_cases hq : '?'.toUInt8 ∈ target
  · obtain ⟨a, b, rfl, ha⟩ := List.eq_append_cons_of_mem hq
    rw [targetPath, (substr_append b ha).1, (cut_append b ha).2]
    exact hasDotDot_append (by decide) a b
  · rw [targetPath, findFirstOf_eq_none hq, (cut_of_not_mem hq).2]
    simp [substrTo, hasDotDot]

theorem targetPath_head_iff (target : Bytes) :
    target.head? = some '/'.toUInt8 ↔ (targetPath target).head? = some '/'.toUInt8 := by
  refine ⟨RequestImpl.targetPath_head, ?_⟩
  intro h
  by_cases hq : '?'.toUInt8 ∈ target
  · obtain ⟨a, b, rfl, ha⟩ := List.eq_append_cons_of_mem hq
    rw [targetPath, (substr_append b ha).1] at h
    rw [List.head?_append, h]
    rfl
  · rw [targetPath, findFirstOf_eq_none hq] at h
    exact h

/-- A target is legal when its path is and its query has no `..`. -/
theorem legalTarget_path (target : Bytes) :
    legalTarget target = true
      ↔ legalTarget (targetPath target) = true
        ∧ hasDotDot (afterFirst '?'.toUInt8 target) = false := by
  have hdots : hasDotDot target = false
      ↔ hasDotDot (targetPath target) = false
        ∧ hasDotDot (afterFirst '?'.toUInt8 target) = false := by
    rw [← Bool.not_eq_true, hasDotDot_target, not_or, Bool.not_eq_true, Bool.not_eq_true]
  rw [legalTarget_iff, legalTarget_iff, targetPath_head_iff, hdots, and_assoc]

/-- What makes a path illegal. -/
theorem legalTarget_eq_false (p : Bytes) :
    legalTarget p = false
      ↔ p = [] ∨ p.head? ≠ some '/'.toUInt8 ∨ hasDotDot p = true := by
  rw [← Bool.not_eq_true, legalTarget_iff, not_and_or, Bool.not_eq_false]
  constructor
  · exact fun h => Or.inr h
  · rintro (rfl | h)
    · exact Or.inl (fun h => by cases h)
    · exact h

/-- **HEADLINE**: the guard of a GET or HEAD request judges the path exactly under the
    condition. -/
theorem guardExact_iff (routes : RouteImpl W) {req : RequestBeast} (world : W)
    (h : acceptsMethod req = true) :
    GuardExact routes req world ↔ Judged req.target := by
  have hmeet : hasDotDot (decoded (targetPath req.target)) = false
      ↔ ¬ DotsMeet (targetPath req.target) := by
    rw [← decoded_dotDot_iff, Bool.not_eq_true]
  have hjudged : Judged req.target
      ↔ legalTarget (targetPath req.target) = false
        ∨ (hasDotDot (afterFirst '?'.toUInt8 req.target) = false
          ∧ ¬ DotsMeet (targetPath req.target)) := by
    rw [legalTarget_eq_false, or_assoc, or_assoc]
    rfl
  rw [hjudged]
  constructor
  · intro hexact
    by_cases hpath : legalTarget (targetPath req.target) = false
    · exact Or.inl hpath
    · have haccepted : ¬ Rejected routes req world :=
        fun hrej => hpath ((legalTarget_eq_false _).mpr (hexact.rejected hrej))
      have hlegal : legalTarget req.target = true := by
        rw [rejected_iff routes world h, Bool.not_eq_false] at haccepted
        exact haccepted
      exact Or.inr ⟨((legalTarget_path _).mp hlegal).2, hmeet.mp (hexact.accepted haccepted)⟩
  · intro hcond
    refine ⟨?_, ?_⟩
    · intro hrej
      rw [rejected_iff routes world h] at hrej
      refine (legalTarget_eq_false _).mp ?_
      rcases hcond with hpath | ⟨hquery, -⟩
      · exact hpath
      · by_contra hpath
        rw [Bool.not_eq_false] at hpath
        rw [(legalTarget_path _).mpr ⟨hpath, hquery⟩] at hrej
        cases hrej
    · intro haccepted
      rw [rejected_iff routes world h, Bool.not_eq_false] at haccepted
      rcases hcond with hpath | ⟨-, hno⟩
      · rw [((legalTarget_path _).mp haccepted).1] at hpath
        cases hpath
      · exact hmeet.mpr hno

theorem guardExact_plain :
    GuardExact (.fresh : RouteImpl Unit) plainRequest () ↔ Judged plainRequest.target :=
  guardExact_iff .fresh () (by decide)

/-- A GET request for a target. -/
def getRequest (target : Bytes) : RequestBeast := ⟨lit "GET", target, 11, true, [], []⟩

/-- Two dots in a query are rejected, and two escaped dots in a path are accepted. -/
theorem guard_misjudges :
    (Rejected (.fresh : RouteImpl Unit) (getRequest (lit "/a?x=..")) ()
        ∧ ¬ GuardExact (.fresh : RouteImpl Unit) (getRequest (lit "/a?x=..")) ())
      ∧ (¬ Rejected (.fresh : RouteImpl Unit) (getRequest (lit "/%2E%2E/x")) ()
        ∧ decoded (targetPath (lit "/%2E%2E/x")) = lit "/../x"
        ∧ ¬ GuardExact (.fresh : RouteImpl Unit) (getRequest (lit "/%2E%2E/x")) ()) := by
  have hrej : Rejected (.fresh : RouteImpl Unit) (getRequest (lit "/a?x=..")) () :=
    (rejected_iff .fresh () (by decide)).mpr (by decide)
  have hacc : ¬ Rejected (.fresh : RouteImpl Unit) (getRequest (lit "/%2E%2E/x")) () := by
    rw [rejected_iff .fresh () (by decide)]
    decide
  have hdec : decoded (targetPath (lit "/%2E%2E/x")) = lit "/../x" := by decide +kernel
  refine ⟨⟨hrej, ?_⟩, hacc, hdec, ?_⟩
  · intro hexact
    rcases hexact.rejected hrej with hnil | hhead | hdots
    · cases hnil
    · exact hhead rfl
    · cases hdots
  · intro hexact
    have hclean := hexact.accepted hacc
    have hdots : hasDotDot (decoded (targetPath (lit "/%2E%2E/x"))) = true := by
      rw [hdec]
      rfl
    cases hclean.symm.trans hdots

end HttpGuard
