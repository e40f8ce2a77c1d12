import BookFilerHttp.ByteStringProofs

/-! # The percent codec of `Util`

    `uriEncode` and `uriDecode` as the utility class computes them, with their
    return codes and their output parameter (both APPEND to the string they are
    given).  All comparisons are on signed `char`s and the decoder's arithmetic
    is 8-bit and wraps.

    The headlines are `uriDecode_encoded`, decoding undoes encoding for every byte
    string and every reserved set, and `uriDecode_cases`, the decoder computes
    the reference decoding of every string whose percent signs all start an
    escape and reports every other string by -1.  `mem_encoded` says which bytes
    an encoded string can hold, so a reserved separator never survives
    encoding.  `uri_codec_exact` puts both directions together: the loop on its
    iterator never reads behind the end, and it returns 0 exactly on what a scan
    from the left accepts. -/

namespace HttpUriCodec

open ByteString

/-- `illegalCharStr` of the utility class. -/
def illegalCharStr : Bytes := lit "%<>\x7b\x7d|\\\"^`"

/-- The characters `uriEncode` copies first: letters, digits and `-_.~`. -/
def isUnreserved (c : UInt8) : Bool :=
  (charLe 'a'.toUInt8 c && charLe c 'z'.toUInt8)
    || (charLe 'A'.toUInt8 c && charLe c 'Z'.toUInt8)
    || (charLe '0'.toUInt8 c && charLe c '9'.toUInt8)
    || c == '-'.toUInt8 || c == '_'.toUInt8 || c == '.'.toUInt8
    || c == '~'.toUInt8

/-- An uppercase hexadecimal digit, as the stream prints it. -/
def hexUpper (n : UInt8) : UInt8 :=
  if n < 10 then '0'.toUInt8 + n else 'A'.toUInt8 + (n - 10)

/-- `%XX`: the unsigned value of the byte in two uppercase digits. -/
def escaped (c : UInt8) : Bytes :=
  ['%'.toUInt8, hexUpper (c / 16), hexUpper (c % 16)]

/-- What `uriEncode` appends for one character. -/
def encodeChar (reserved : Bytes) (c : UInt8) : Bytes :=
  if isUnreserved c then [c]
  else if charLe c 0x20 || charLe 0x7F c || illegalCharStr.contains c
      || reserved.contains c then escaped c
  else [c]

/-- `Util::uriEncode`: the return code and the extended output string. -/
def uriEncode : Bytes → Bytes → Bytes → Int × Bytes
  | [], _, encodedStr => (0, encodedStr)
  | c :: it, reserved, encodedStr =>
      uriEncode it reserved (encodedStr ++ encodeChar reserved c)

/-- The value of one hexadecimal digit of either case, in 8-bit arithmetic. -/
def hexNibble (d : UInt8) : Option UInt8 :=
  if charLe '0'.toUInt8 d && charLe d '9'.toUInt8 then some (d - '0'.toUInt8)
  else if charLe 'A'.toUInt8 d && charLe d 'F'.toUInt8 then
    some (d - 'A'.toUInt8 + 10)
  else if charLe 'a'.toUInt8 d && charLe d 'f'.toUInt8 then
    some (d - 'a'.toUInt8 + 10)
  else none

/-- `Util::uriDecode`: the return code and the extended output string.  On an
    error the characters decoded so far have already been appended. -/
def uriDecode : Bytes → Bytes → Int × Bytes
  | [], decodedStr => (0, decodedStr)
  | c :: it, decodedStr =>
      if c = '%'.toUInt8 then
        match it with
        | [] => (-1, decodedStr)
        | [_] => (-1, decodedStr)
        | hi :: lo :: rest =>
            match hexNibble hi, hexNibble lo with
            -- 8-bit sum: it wraps, but two nibbles never overflow
            | some h, some l => uriDecode rest (decodedStr ++ [h * 16 + l])
            | _, _ => (-1, decodedStr)
      else uriDecode it (decodedStr ++ [c])

/-! ## One character -/

/-- A character is either copied, and then it is not a percent sign, or
    escaped. -/
theorem encodeChar_cases (r : Bytes) (c : UInt8) :
    (encodeChar r c = [c] ∧ c ≠ '%'.toUInt8) ∨ encodeChar r c = escaped c := by
  have hpct : ∀ x : UInt8, isUnreserved x = true → x ≠ '%'.toUInt8 :=
    forall_byte (by decide +kernel)
  have hill : illegalCharStr.contains '%'.toUInt8 = true := by decide
  rw [encodeChar]
  by_cases hu : isUnreserved c = true
  · rw [if_pos hu]
    exact Or.inl ⟨rfl, hpct c hu⟩
  · rw [if_neg hu]
    by_cases hesc : (charLe c 0x20 || charLe 0x7F c || illegalCharStr.contains c
        || r.contains c) = true
    · rw [if_pos hesc]
      exact Or.inr rfl
    · rw [if_neg hesc]
      refine Or.inl ⟨rfl, ?_⟩
      -- the percent sign is in the illegal set
      rintro rfl
      rw [hill] at hesc
      simp at hesc

/-- The two digits of an escape give the byte back: the wrapping 8-bit
    arithmetic loses nothing. -/
theorem hexNibble_escaped (c : UInt8) :
    hexNibble (hexUpper (c / 16)) = some (c / 16)
      ∧ hexNibble (hexUpper (c % 16)) = some (c % 16)
      ∧ c / 16 * 16 + c % 16 = c := by
  revert c
  exact forall_byte (by decide +kernel)

/-- A byte that is no `%` is copied. -/
theorem uriDecode_copied {c : UInt8} (h : c ≠ '%'.toUInt8) (s a : Bytes) :
    uriDecode (c :: s) a = uriDecode s (a ++ [c]) := by
  rw [uriDecode.eq_def]
  exact if_neg h

/-- An escape is decoded to its byte. -/
theorem uriDecode_escape {hi lo h l : UInt8} (hh : hexNibble hi = some h)
    (hl : hexNibble lo = some l) (s a : Bytes) :
    uriDecode ('%'.toUInt8 :: hi :: lo :: s) a
      = uriDecode s (a ++ [h * 16 + l]) := by
  rw [uriDecode.eq_def]
  simp only [if_pos, hh, hl]

/-- Decoding an encoded character appends that character. -/
theorem uriDecode_encodeChar (r : Bytes) (c : UInt8) (s a : Bytes) :
    uriDecode (encodeChar r c ++ s) a = uriDecode s (a ++ [c]) := by
  rcases encodeChar_cases r c with ⟨hcopy, hne⟩ | hesc
  · rw [hcopy]
    exact uriDecode_copied hne s a
  · obtain ⟨hhi, hlo, hsum⟩ := hexNibble_escaped c
    rw [hesc]
    show uriDecode ('%'.toUInt8 :: hexUpper (c / 16) :: hexUpper (c % 16) :: s) a = _
    rw [uriDecode_escape hhi hlo, hsum]

/-! ## Whole strings -/

/-- The string `uriEncode` appends. -/
def encoded (r s : Bytes) : Bytes := s.flatMap (encodeChar r)

/-- `uriEncode` always succeeds and appends the encoded string. -/
theorem uriEncode_eq (s r b : Bytes) :
    uriEncode s r b = (0, b ++ encoded r s) := by
  induction s generalizing b with
  | nil => rw [uriEncode, encoded, List.flatMap_nil, List.append_nil]
  | cons c it ih =>
      rw [uriEncode, ih, encoded, encoded, List.flatMap_cons, List.append_assoc]

theorem uriDecode_encoded_append (r s t a : Bytes) :
    uriDecode (encoded r s ++ t) a = uriDecode t (a ++ s) := by
  induction s generalizing a with
  | nil => rw [encoded, List.flatMap_nil, List.nil_append, List.append_nil]
  | cons c it ih =>
      have hcons : encoded r (c :: it) = encodeChar r c ++ encoded r it :=
        List.flatMap_cons
      rw [hcons, List.append_assoc, uriDecode_encodeChar, ih, List.append_assoc]
      rfl

/-- **ROUND TRIP**: decoding an encoded string succeeds and appends the
    original. -/
theorem uriDecode_encoded (r s a : Bytes) :
    uriDecode (encoded r s) a = (0, a ++ s) := by
  have h := uriDecode_encoded_append r s [] a
  rw [List.append_nil] at h
  exact h

/-- The bytes of an encoded string: unreserved characters, percent signs, and
    characters that are outside the illegal and the reserved set. -/
theorem mem_encoded {r s : Bytes} {x : UInt8} (h : x ∈ encoded r s) :
    isUnreserved x = true ∨ x = '%'.toUInt8
      ∨ (x ∉ illegalCharStr ∧ x ∉ r ∧ charLe x 0x20 = false
        ∧ charLe 0x7F x = false) := by
  have hhex : ∀ c : UInt8, isUnreserved (hexUpper (c / 16)) = true
      ∧ isUnreserved (hexUpper (c % 16)) = true :=
    forall_byte (by decide +kernel)
  obtain ⟨c, -, hx⟩ := List.mem_flatMap.mp h
  rw [encodeChar] at hx
  by_cases hu : isUnreserved c = true
  · rw [if_pos hu] at hx
    rw [List.mem_singleton.mp hx]
    exact Or.inl hu
  · rw [if_neg hu] at hx
    by_cases hesc : (charLe c 0x20 || charLe 0x7F c || illegalCharStr.contains c
        || r.contains c) = true
    · rw [if_pos hesc] at hx
      -- one of the three bytes of an escape
      simp only [escaped, List.mem_cons, List.not_mem_nil, or_false] at hx
      rcases hx with hx | hx | hx
      · exact Or.inr (Or.inl hx)
      · exact Or.inl (hx ▸ (hhex c).1)
      · exact Or.inl (hx ▸ (hhex c).2)
    · rw [if_neg hesc] at hx
      rw [List.mem_singleton.mp hx]
      simp only [Bool.or_eq_true, List.contains_iff_mem, not_or,
        Bool.not_eq_true] at hesc
      exact Or.inr (Or.inr ⟨hesc.1.2, hesc.2, hesc.1.1.1, hesc.1.1.2⟩)

/-- A reserved separator does not survive encoding. -/
theorem not_mem_encoded {r s : Bytes} {x : UInt8} (hr : x ∈ r)
    (hu : isUnreserved x = false) (hp : x ≠ '%'.toUInt8) : x ∉ encoded r s := by
  intro h
  rcases mem_encoded h with h1 | h2 | h3
  · rw [hu] at h1
    cases h1
  · exact hp h2
  · exact h3.2.1 hr

example : uriEncode (lit "a b%") (lit "&=") (lit "k=") = (0, lit "k=a%20b%25") := by
  decide

/-! ## The decoder against its reference -/

/-- The value of a hexadecimal digit of either case. -/
def hexValue (d : UInt8) : Option Nat :=
  if '0'.toUInt8 ≤ d ∧ d ≤ '9'.toUInt8 then some (d.toNat - 48)
  else if 'A'.toUInt8 ≤ d ∧ d ≤ 'F'.toUInt8 then some (d.toNat - 55)
  else if 'a'.toUInt8 ≤ d ∧ d ≤ 'f'.toUInt8 then some (d.toNat - 87)
  else none

/-- The string starts with two hexadecimal digits. -/
def startsHexPair : Bytes → Bool
  | hi :: lo :: _ => (hexValue hi).isSome && (hexValue lo).isSome
  | _ => false

/-- Every percent sign is followed by two hexadecimal digits. -/
def wellEscaped : Bytes → Bool
  | [] => true
  | c :: s => (c != '%'.toUInt8 || startsHexPair s) && wellEscaped s

/-- The bytes a percent-encoded string stands for; a percent sign that starts no
    escape stands for itself. -/
def percentDecode : Bytes → Bytes
  | [] => []
  | c :: s =>
      if c = '%'.toUInt8 then
        match s with
        | [] => [c]
        | [d] => [c, d]
        | hi :: lo :: rest =>
            match hexValue hi, hexValue lo with
            | some h, some l => UInt8.ofNat (16 * h + l) :: percentDecode rest
            | _, _ => c :: percentDecode (hi :: lo :: rest)
      else c :: percentDecode s

/-- The signed comparisons of the decoder recognise exactly the digits. -/
theorem hexNibble_eq (d : UInt8) : hexNibble d = (hexValue d).map UInt8.ofNat := by
  revert d
  exact forall_byte (by decide +kernel)

theorem hexValue_percent : hexValue '%'.toUInt8 = none := by decide

/-- A digit is no percent sign, so what follows a percent sign and two digits
    decides about the whole string. -/
theorem wellEscaped_escape {hi lo : UInt8} (s : Bytes)
    (h : startsHexPair (hi :: lo :: s) = true) :
    wellEscaped ('%'.toUInt8 :: hi :: lo :: s) = wellEscaped s := by
  obtain ⟨hhi, hlo⟩ := (Bool.and_eq_true _ _).mp h
  have hne : ∀ d : UInt8, (hexValue d).isSome = true → (d != '%'.toUInt8) = true := by
    intro d hd
    rw [bne_iff_ne]
    rintro rfl
    rw [hexValue_percent] at hd
    cases hd
  simp only [wellEscaped, h, hne hi hhi, hne lo hlo, Bool.or_true, Bool.true_or,
    Bool.true_and]

/-- **DECODER**: a string whose percent signs all start an escape is decoded as
    the reference does and reported by 0, every other one is reported by -1. -/
theorem uriDecode_cases (s a : Bytes) :
    (wellEscaped s = true ∧ uriDecode s a = (0, a ++ percentDecode s))
      ∨ (wellEscaped s = false ∧ (uriDecode s a).1 = -1) := by
  fun_induction uriDecode s a with
  | case1 a => exact Or.inl ⟨rfl, by simp [percentDecode]⟩
  | case2 a => exact Or.inr ⟨by decide, rfl⟩
  | case3 a x => exact Or.inr ⟨by simp [wellEscaped, startsHexPair], rfl⟩
  | case4 a hi lo rest l h hl hh ih =>
      rw [hexNibble_eq] at hh hl
      obtain ⟨vh, hvh, rfl⟩ := Option.map_eq_some_iff.mp hh
      obtain ⟨vl, hvl, rfl⟩ := Option.map_eq_some_iff.mp hl
      have hpair : startsHexPair (hi :: lo :: rest) = true := by
        simp [startsHexPair, hvh, hvl]
      have hdec : percentDecode ('%'.toUInt8 :: hi :: lo :: rest)
          = (UInt8.ofNat vh * 16 + UInt8.ofNat vl) :: percentDecode rest := by
        rw [percentDecode.eq_def]
        simp only [if_pos, hvh, hvl]
        rw [UInt8.ofNat_add, UInt8.ofNat_mul, UInt8.mul_comm]
        rfl
      rw [wellEscaped_escape rest hpair, hdec]
      refine ih.imp ?_ id
      rintro ⟨hw, heq⟩
      exact ⟨hw, by rw [heq, List.append_assoc]; rfl⟩
  | case5 a hi lo rest hnone =>
      refine Or.inr ⟨?_, rfl⟩
      have hpair : startsHexPair (hi :: lo :: rest) = false := by
        simp only [hexNibble_eq] at hnone
        rw [startsHexPair]
        cases hvh : hexValue hi with
        | none => rfl
        | some vh =>
            cases hvl : hexValue lo with
            | none => rfl
            | some vl => exact (hnone (UInt8.ofNat vh) (UInt8.ofNat vl) (by rw [hvh]; rfl) (by rw [hvl]; rfl)).elim
      simp [wellEscaped, hpair]
  | case6 c it a hne ih =>
      have hbne : (c != '%'.toUInt8) = true := bne_iff_ne.mpr hne
      have hdec : percentDecode (c :: it) = c :: percentDecode it := by
        rw [percentDecode.eq_def]
        exact if_neg hne
      rw [wellEscaped, hbne, hdec, Bool.true_or, Bool.true_and]
      refine ih.imp ?_ id
      rintro ⟨hw, heq⟩
      exact ⟨hw, by rw [heq, List.append_assoc]; rfl⟩

/-- A well escaped text is decoded as the reference decodes it. -/
theorem uriDecode_wellEscaped {s : Bytes} (h : wellEscaped s = true) (a : Bytes) :
    uriDecode s a = (0, a ++ percentDecode s) := by
  rcases uriDecode_cases s a with ⟨-, heq⟩ | ⟨hw, -⟩
  · exact heq
  · rw [h] at hw
    cases hw

/-- Only the empty string stands for no bytes. -/
theorem percentDecode_eq_nil {s : Bytes} : percentDecode s = [] ↔ s = [] := by
  constructor
  · intro h
    cases s with
    | nil => rfl
    | cons c rest =>
        rw [percentDecode.eq_def] at h
        simp only at h
        repeat' split at h
        all_goals cases h
  · rintro rfl
    rfl

/-! ## The decoder on its iterator -/

/-- The loop of `uriDecode` as the source runs it, on a position `it` in the
    string; none when a character behind the end is read. -/
def decodeFrom (str : Bytes) (it : Nat) (decodedStr : Bytes) :
    Option (Int × Bytes) :=
  if it = str.length then some (0, decodedStr)
  else
    match _hc : str[it]? with
    | none => none
    | some c =>
        if c = '%'.toUInt8 then
          if it + 1 = str.length then some (-1, decodedStr)
          else
            match str[it + 1]? with
            | none => none
            | some hi =>
                if it + 2 = str.length then some (-1, decodedStr)
                else
                  match str[it + 2]? with
                  | none => none
                  | some lo =>
                      match hexNibble hi, hexNibble lo with
                      | some h, some l =>
                          decodeFrom str (it + 3) (decodedStr ++ [h * 16 + l])
                      | _, _ => some (-1, decodedStr)
        else decodeFrom str (it + 1) (decodedStr ++ [c])
termination_by str.length - it
decreasing_by
  all_goals
    have hlt := (List.getElem?_eq_some_iff.mp _hc).1
    omega

theorem drop_cons {str : Bytes} {it : Nat} {c : UInt8} (h : str[it]? = some c) :
    str.drop it = c :: str.drop (it + 1) := by
  obtain ⟨hlt, hc⟩ := List.getElem?_eq_some_iff.mp h
  rw [List.drop_eq_getElem_cons hlt, hc]

/-- The iterator never runs past the end: from every position of the string the
    loop decodes what is left. -/
theorem decodeFrom_eq (str : Bytes) (it : Nat) (decodedStr : Bytes)
    (h : it ≤ str.length) :
    decodeFrom str it decodedStr = some (uriDecode (str.drop it) decodedStr) := by
  fun_induction decodeFrom str it decodedStr with
  | case1 a =>
      rw [List.drop_length, uriDecode]
  | case2 it a hne hnone =>
      have hlen := List.getElem?_eq_none_iff.mp hnone
      omega
  | case3 it a hne hend hpct =>
      rw [drop_cons hpct, hend, List.drop_length, uriDecode.eq_def]
      rfl
  | case4 it a hne hne1 hnone hpct =>
      have hlen := List.getElem?_eq_none_iff.mp hnone
      omega
  | case5 it a hne hne1 hi hhi hend hpct =>
      rw [drop_cons hpct, drop_cons hhi, hend, List.drop_length, uriDecode.eq_def]
      rfl
  | case6 it a hne hne1 hi hhi hne2 hnone hpct =>
      have hlen := List.getElem?_eq_none_iff.mp hnone
      omega
  | case7 it a hne hne1 hi hhi hne2 lo hlo vh vl hl hh hpct ih =>
      have hlt := (List.getElem?_eq_some_iff.mp hlo).1
      rw [ih (by omega), drop_cons hpct, drop_cons hhi, drop_cons hlo,
        uriDecode_escape hh hl]
  | case8 it a hne hne1 hi hhi hne2 lo hlo hbad hpct =>
      rw [drop_cons hpct, drop_cons hhi, drop_cons hlo, uriDecode.eq_def]
      cases hh : hexNibble hi with
      | none => simp only [if_pos, hh]
      | some vh =>
          cases hl : hexNibble lo with
          | none => simp only [if_pos, hh, hl]
          | some vl => exact (hbad vh vl hh hl).elim
  | case9 it a hne c hc hcopy ih =>
      have hlt := (List.getElem?_eq_some_iff.mp hc).1
      rw [ih (by omega), drop_cons hc, uriDecode_copied hcopy]

/-! ## The scan from the left -/

/-- `Decodes s d`: scanning `s` from the left, every percent sign starts an
    escape of two hexadecimal digits, and the bytes it stands for are `d`. -/
inductive Decodes : Bytes → Bytes → Prop
  | done : Decodes [] []
  | copied {c : UInt8} {s d : Bytes} : c ≠ '%'.toUInt8 → Decodes s d →
      Decodes (c :: s) (c :: d)
  | escape {hi lo b : UInt8} {h l : Nat} {s d : Bytes} : hexValue hi = some h →
      hexValue lo = some l → b.toNat = 16 * h + l → Decodes s d →
      Decodes ('%'.toUInt8 :: hi :: lo :: s) (b :: d)

/-- A digit is below sixteen, so the 8-bit sum of an escape does not wrap. -/
theorem hexValue_lt {d : UInt8} {v : Nat} (h : hexValue d = some v) : v < 16 := by
  have hall : ∀ d : UInt8, ∀ v ∈ hexValue d, v < 16 :=
    forall_byte (by decide +kernel)
  exact hall d v h

theorem escape_toNat {h l : Nat} (hh : h < 16) (hl : l < 16) :
    (UInt8.ofNat h * 16 + UInt8.ofNat l).toNat = 16 * h + l := by
  rw [UInt8.toNat_add, UInt8.toNat_mul, UInt8.toNat_ofNat', UInt8.toNat_ofNat']
  show (h % 256 * 16 % 256 + l % 256) % 256 = 16 * h + l
  omega

/-- What the scan accepts is decoded as it says, behind any prior output. -/
theorem uriDecode_decodes {s d : Bytes} (h : Decodes s d) (a : Bytes) :
    uriDecode s a = (0, a ++ d) := by
  induction h generalizing a with
  | done => rw [uriDecode, List.append_nil]
  | copied hne _ ih =>
      rw [uriDecode_copied hne, ih, List.append_assoc]
      rfl
  | @escape hi lo b h l s d hh hl hb _ ih =>
      have hhi : hexNibble hi = some (UInt8.ofNat h) := by rw [hexNibble_eq, hh]; rfl
      have hlo : hexNibble lo = some (UInt8.ofNat l) := by rw [hexNibble_eq, hl]; rfl
      have hsum : UInt8.ofNat h * 16 + UInt8.ofNat l = b :=
        UInt8.toNat_inj.mp (by rw [escape_toNat (hexValue_lt hh) (hexValue_lt hl), hb])
      rw [uriDecode_escape hhi hlo, ih, hsum, List.append_assoc]
      rfl

/-- The decoder returns 0 on what the scan accepts and -1 on everything else. -/
theorem uriDecode_scan (s a : Bytes) :
    (∃ d, Decodes s d ∧ uriDecode s a = (0, a ++ d))
      ∨ ((∀ d, ¬ Decodes s d) ∧ (uriDecode s a).1 = -1) := by
  fun_induction uriDecode s a with
  | case1 a => exact Or.inl ⟨[], Decodes.done, by rw [List.append_nil]⟩
  | case2 a =>
      refine Or.inr ⟨?_, rfl⟩
      intro d hd
      cases hd with
      | copied hne _ => exact hne rfl
  | case3 a x =>
      refine Or.inr ⟨?_, rfl⟩
      intro d hd
      cases hd with
      | copied hne _ => exact hne rfl
  | case4 a hi lo rest l h hl hh ih =>
      rw [hexNibble_eq] at hh hl
      obtain ⟨vh, hvh, rfl⟩ := Option.map_eq_some_iff.mp hh
      obtain ⟨vl, hvl, rfl⟩ := Option.map_eq_some_iff.mp hl
      have hsum := escape_toNat (hexValue_lt hvh) (hexValue_lt hvl)
      refine ih.imp ?_ ?_
      · rintro ⟨d, hd, heq⟩
        exact ⟨_, Decodes.escape hvh hvl hsum hd, by rw [heq, List.append_assoc]; rfl⟩
      · rintro ⟨hno, hrc⟩
        refine ⟨?_, hrc⟩
        intro d hd
        cases hd with
        | copied hne _ => exact hne rfl
        | escape _ _ _ hd' => exact hno _ hd'
  | case5 a hi lo rest hnone =>
      refine Or.inr ⟨?_, rfl⟩
      intro d hd
      cases hd with
      | copied hne _ => exact hne rfl
      | @escape _ _ _ h l _ _ hh hl _ _ =>
          exact hnone (UInt8.ofNat h) (UInt8.ofNat l) (by rw [hexNibble_eq, hh]; rfl)
            (by rw [hexNibble_eq, hl]; rfl)
  | case6 c it a hne ih =>
      refine ih.imp ?_ ?_
      · rintro ⟨d, hd, heq⟩
        exact ⟨_ :: d, Decodes.copied hne hd, by rw [heq, List.append_assoc]; rfl⟩
      · rintro ⟨hno, hrc⟩
        refine ⟨?_, hrc⟩
        intro d hd
        cases hd with
        | copied _ hd' => exact hno _ hd'
        | escape _ _ _ _ => exact hne rfl

/-! ## What the encoder writes -/

/-- Letters, digits and `-_.~`, on unsigned bytes. -/
def Unreserved (c : UInt8) : Prop :=
  ('a'.toUInt8 ≤ c ∧ c ≤ 'z'.toUInt8) ∨ ('A'.toUInt8 ≤ c ∧ c ≤ 'Z'.toUInt8)
    ∨ ('0'.toUInt8 ≤ c ∧ c ≤ '9'.toUInt8) ∨ c ∈ lit "-_.~"

/-- A decimal digit or one of `A` to `F`. -/
def UpperHexDigit (d : UInt8) : Prop :=
  ('0'.toUInt8 ≤ d ∧ d ≤ '9'.toUInt8) ∨ ('A'.toUInt8 ≤ d ∧ d ≤ 'F'.toUInt8)

/-- The texts made of unreserved characters, uppercase escapes and printable
    characters outside the illegal set and `r`. -/
inductive EncodedText (r : Bytes) : Bytes → Prop
  | done : EncodedText r []
  | unreserved {c : UInt8} {s : Bytes} : Unreserved c → EncodedText r s →
      EncodedText r (c :: s)
  | escape {hi lo : UInt8} {s : Bytes} : UpperHexDigit hi → UpperHexDigit lo →
      EncodedText r s → EncodedText r ('%'.toUInt8 :: hi :: lo :: s)
  | printable {c : UInt8} {s : Bytes} : 0x20 < c → c < 0x7F → c ∉ illegalCharStr →
      c ∉ r → EncodedText r s → EncodedText r (c :: s)

instance decUnreserved (c : UInt8) : Decidable (Unreserved c) := by
  unfold Unreserved; infer_instance

instance decUpperHexDigit (d : UInt8) : Decidable (UpperHexDigit d) := by
  unfold UpperHexDigit; infer_instance

/-- The signed comparisons of the encoder agree with the unsigned reading. -/
theorem isUnreserved_iff (c : UInt8) : isUnreserved c = true ↔ Unreserved c := by
  revert c
  exact forall_byte (by decide +kernel)

/-- Bytes from 0x80 on are negative characters, so both range tests together
    escape exactly what is not printable ASCII. -/
theorem not_printable_iff (c : UInt8) :
    (charLe c 0x20 || charLe 0x7F c) = false ↔ 0x20 < c ∧ c < 0x7F := by
  revert c
  exact forall_byte (by decide +kernel)

theorem upperHexDigit_hexUpper (c : UInt8) :
    UpperHexDigit (hexUpper (c / 16)) ∧ UpperHexDigit (hexUpper (c % 16)) := by
  revert c
  exact forall_byte (by decide +kernel)

theorem encodedText_encodeChar (r : Bytes) (c : UInt8) {s : Bytes}
    (h : EncodedText r s) : EncodedText r (encodeChar r c ++ s) := by
  rw [encodeChar]
  by_cases hu : isUnreserved c = true
  · rw [if_pos hu]
    exact EncodedText.unreserved ((isUnreserved_iff c).mp hu) h
  · rw [if_neg hu]
    by_cases hesc : (charLe c 0x20 || charLe 0x7F c || illegalCharStr.contains c
        || r.contains c) = true
    · rw [if_pos hesc]
      obtain ⟨hhi, hlo⟩ := upperHexDigit_hexUpper c
      exact EncodedText.escape hhi hlo h
    · rw [if_neg hesc]
      simp only [Bool.or_eq_true, List.contains_iff_mem, not_or] at hesc
      have hrange : (charLe c 0x20 || charLe 0x7F c) = false := by
        simp only [Bool.or_eq_false_iff, Bool.not_eq_true] at hesc ⊢
        exact hesc.1.1
      obtain ⟨hlow, hhigh⟩ := (not_printable_iff c).mp hrange
      exact EncodedText.printable hlow hhigh hesc.1.2 hesc.2 h

/-- What is encoded is in the alphabet of the encoder. -/
theorem encodedText_encoded (r s : Bytes) : EncodedText r (encoded r s) := by
  induction s with
  | nil => exact EncodedText.done
  | cons c it ih =>
      have hcons : encoded r (c :: it) = encodeChar r c ++ encoded r it :=
        List.flatMap_cons
      rw [hcons]
      exact encodedText_encodeChar r c ih

/-- **EXACT CODEC**: the decoder stays inside its string, returns 0 exactly on
    what the scan accepts and then appends what the scan reads; the encoder
    appends a text of its alphabet that decodes to the original. -/
theorem uri_codec_exact :
    (∀ s a : Bytes, decodeFrom s 0 a = some (uriDecode s a)
      ∧ ((uriDecode s a).1 = 0 ↔ ∃ d, Decodes s d)
      ∧ ((uriDecode s a).1 = 0 ∨ (uriDecode s a).1 = -1)
      ∧ ∀ d, Decodes s d → uriDecode s a = (0, a ++ d))
    ∧ ∀ s r b : Bytes, ∃ e, uriEncode s r b = (0, b ++ e) ∧ EncodedText r e
        ∧ ∀ a, uriDecode e a = (0, a ++ s) := by
  constructor
  · intro s a
    refine ⟨decodeFrom_eq s 0 a (Nat.zero_le _), ?_, ?_, ?_⟩
    · constructor
      · intro hrc
        rcases uriDecode_scan s a with ⟨d, hd, -⟩ | ⟨-, hneg⟩
        · exact ⟨d, hd⟩
        · omega
      · rintro ⟨d, hd⟩
        rw [uriDecode_decodes hd]
    · rcases uriDecode_scan s a with ⟨d, -, heq⟩ | ⟨-, hneg⟩
      · exact Or.inl (by rw [heq])
      · exact Or.inr hneg
    · intro d hd
      exact uriDecode_decodes hd a
  · intro s r b
    exact ⟨encoded r s, uriEncode_eq s r b, encodedText_encoded r s, uriDecode_encoded r s⟩

/-! ## Escapes and separators -/

theorem startsHexPair_append {c : UInt8} (h : hexValue c = none) (a b : Bytes) :
    startsHexPair (a ++ c :: b) = startsHexPair a := by
  match a with
  | [] => cases b <;> simp [startsHexPair, h]
  | [x] => simp [startsHexPair, h]
  | x :: y :: rest => rfl

/-- An escape does not reach across a byte that is no digit. -/
theorem wellEscaped_append {c : UInt8} (h : hexValue c = none)
    (hne : c ≠ '%'.toUInt8) (a b : Bytes) :
    wellEscaped (a ++ c :: b) = (wellEscaped a && wellEscaped b) := by
  induction a with
  | nil => simp [wellEscaped, hne]
  | cons x rest ih =>
      rw [List.cons_append, wellEscaped, wellEscaped, startsHexPair_append h, ih,
        Bool.and_assoc]

/-- A string is well escaped exactly when all its pieces are. -/
theorem wellEscaped_splitOn {c : UInt8} (h : hexValue c = none)
    (hne : c ≠ '%'.toUInt8) (s : Bytes) :
    wellEscaped s = (s.splitOn c).all wellEscaped := by
  have hjoin : ∀ ps : List Bytes, wellEscaped ([c].intercalate ps) = ps.all wellEscaped := by
    intro ps
    induction ps with
    | nil => rfl
    | cons p rest ih =>
        cases rest with
        | nil => simp [List.intercalate]
        | cons q rest' =>
            have hcons : [c].intercalate (p :: q :: rest')
                = p ++ c :: [c].intercalate (q :: rest') := by
              simp [List.intercalate]
            rw [hcons, wellEscaped_append h hne, ih]
            rfl
  rw [← hjoin, List.intercalate_splitOn]

example : percentDecode (lit "a%20b%2") = lit "a b%2" := by decide +kernel

end HttpUriCodec
