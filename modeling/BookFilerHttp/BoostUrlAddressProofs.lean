import BookFilerHttp.BoostUrlParseProofs

/-! # The vendored URL library: address literals

    The grammar of IPv4 and IPv6 addresses as the comments of `set_host` give it, and
    what the hand-written loops of the parser make of it.  An address is a row of
    words between colons; two words at its end may be written as an IPv4 address, and
    one gap of words may be left out.

    `parseIpV6_address` is the comparison: in front of a character that ends an
    address the loop takes an address of the grammar exactly when it is written
    without a LOWERCASE hexadecimal digit. -/

namespace BoostUrl

open ByteString

/-! ## The grammar -/

def isLowerHex (c : UInt8) : Bool := 'a'.toUInt8 ≤ c && c ≤ 'f'.toUInt8

/-- No lowercase hexadecimal digit. -/
abbrev NotLower (c : UInt8) : Prop := isLowerHex c = false

/-- `HEXDIG`, in either case. -/
def isHexDig (c : UInt8) : Bool := (hexDigit c).isSome || isLowerHex c

/-- `h16 = 1*4HEXDIG`. -/
structure H16 (s : Bytes) : Prop where
  ne_nil : s ≠ []
  length : s.length ≤ 4
  digits : ∀ c ∈ s, isHexDig c = true

/-- The value of a decimal digit. -/
def digitValue (c : UInt8) : Nat := (c - '0'.toUInt8).toNat

/-- Decimal digits read behind the number `v`. -/
def decimalFrom (v : Nat) (s : Bytes) : Nat := s.foldl (fun v c => 10 * v + digitValue c) v

/-- `dec-octet`: 0 to 255 without a leading zero. -/
structure DecOctet (s : Bytes) : Prop where
  ne_nil : s ≠ []
  digits : ∀ c ∈ s, isDigit c = true
  noZero : s.head? = some '0'.toUInt8 → s.length = 1
  le : decimalFrom 0 s ≤ 255

/-- `IPv4address`. -/
def IPv4Address (s : Bytes) : Prop :=
  ∃ a b c d, DecOctet a ∧ DecOctet b ∧ DecOctet c ∧ DecOctet d
    ∧ s = a ++ '.'.toUInt8 :: (b ++ '.'.toUInt8 :: (c ++ '.'.toUInt8 :: d))

/-- A row of words between colons; with `quad` the last two may be an IPv4 address,
    which is `ls32`. -/
inductive Words (quad : Bool) : Nat → Bytes → Prop where
  | last {g : Bytes} (hg : H16 g) : Words quad 1 g
  | ipv4 {a : Bytes} (hquad : quad = true) (ha : IPv4Address a) : Words quad 2 a
  | more {g s : Bytes} {n : Nat} (hg : H16 g) (hs : Words quad n s) :
      Words quad (n + 1) (g ++ ':'.toUInt8 :: s)

/-- A row that may be left out. -/
def OptWords (quad : Bool) (n : Nat) (s : Bytes) : Prop :=
  n = 0 ∧ s = [] ∨ Words quad n s

/-- `IPv6address`: eight words, or at most seven and a gap. -/
def IPv6Address (s : Bytes) : Prop :=
  Words true 8 s
    ∨ ∃ m n pre post, OptWords false m pre ∧ OptWords true n post ∧ m + n ≤ 7
      ∧ s = pre ++ ':'.toUInt8 :: ':'.toUInt8 :: post

/-! ## The characters of an address -/

section Characters

variable {P : UInt8 → Prop}

/-- The characters of an IPv4 address. -/
theorem ipv4_chars (hdigit : ∀ c, isDigit c = true → P c) (hdot : P '.'.toUInt8) {s : Bytes}
    (h : IPv4Address s) : ∀ x ∈ s, P x := by
  obtain ⟨a, b, c, d, ha, hb, hc, hd, rfl⟩ := h
  have hoct : ∀ {o : Bytes}, DecOctet o → ∀ x ∈ o, P x :=
    fun ho x hx => hdigit x (ho.digits x hx)
  simp only [List.forall_mem_append, List.forall_mem_cons]
  exact ⟨hoct ha, hdot, hoct hb, hdot, hoct hc, hdot, hoct hd⟩

theorem isHexDig_of_digit {c : UInt8} (h : isDigit c = true) : isHexDig c = true := by
  rw [isHexDig, hexDigit, if_pos h]
  rfl

/-- The characters of a row of words. -/
theorem words_chars (hhex : ∀ c, isHexDig c = true → P c) (hcolon : P ':'.toUInt8)
    (hdot : P '.'.toUInt8) {quad : Bool} {n : Nat} {s : Bytes} (h : Words quad n s) :
    ∀ x ∈ s, P x := by
  induction h with
  | last hg => exact fun x hx => hhex x (hg.digits x hx)
  | ipv4 hquad ha => exact ipv4_chars (fun c hc => hhex c (isHexDig_of_digit hc)) hdot ha
  | more hg hs ih =>
      have hword := fun x hx => hhex x (hg.digits x hx)
      exact List.forall_mem_append.mpr ⟨hword, List.forall_mem_cons.mpr ⟨hcolon, ih⟩⟩

/-- The characters of an IPv6 address. -/
theorem ipv6_chars (hhex : ∀ c, isHexDig c = true → P c) (hcolon : P ':'.toUInt8)
    (hdot : P '.'.toUInt8) {s : Bytes} (h : IPv6Address s) : ∀ x ∈ s, P x := by
  have hopt : ∀ {quad n s}, OptWords quad n s → ∀ x ∈ s, P x := by
    rintro quad n s (⟨-, rfl⟩ | hs)
    · intro x hx
      cases hx
    · exact words_chars hhex hcolon hdot hs
  rcases h with hwords | ⟨m, n, pre, post, hpre, hpost, -, rfl⟩
  · exact words_chars hhex hcolon hdot hwords
  · simp only [List.forall_mem_append, List.forall_mem_cons]
    exact ⟨hopt hpre, hcolon, hcolon, hopt hpost⟩

end Characters

/-! ## Digits -/

/-- A decimal digit has its value as a hexadecimal one. -/
theorem hexDigit_of_digit {c : UInt8} (h : isDigit c = true) :
    hexDigit c = some (digitValue c) := by
  rw [hexDigit, if_pos h]
  rfl

theorem digitValue_le {c : UInt8} (h : isDigit c = true) : digitValue c ≤ 9 := by
  have hall : ∀ c : UInt8, isDigit c = true → digitValue c ≤ 9 := forall_byte (by decide +kernel)
  exact hall c h

/-- Only the digit zero has the value 0. -/
theorem digitValue_pos {c : UInt8} (h : isDigit c = true) (hc : c ≠ '0'.toUInt8) :
    1 ≤ digitValue c := by
  have hall : ∀ c : UInt8, isDigit c = true → c ≠ '0'.toUInt8 → 1 ≤ digitValue c :=
    forall_byte (by decide +kernel)
  exact hall c h hc

/-- No lowercase digit among hexadecimal ones: every one has a value. -/
theorem hexDigit_isSome {c : UInt8} (h : isHexDig c = true) (hc : isLowerHex c = false) :
    (hexDigit c).isSome = true := by
  rw [isHexDig, hc, Bool.or_false] at h
  exact h

/-- No lowercase digit has a value. -/
theorem isLowerHex_of_isSome {c : UInt8} (h : (hexDigit c).isSome = true) :
    isLowerHex c = false := by
  have hall : ∀ c : UInt8, (hexDigit c).isSome = true → isLowerHex c = false :=
    forall_byte (by decide +kernel)
  exact hall c h

/-- A character with a value is no delimiter. -/
theorem ne_of_isSome {c d : UInt8} (h : (hexDigit c).isSome = true) (hd : hexDigit d = none) :
    c ≠ d := by
  rintro rfl
  rw [hd] at h
  cases h

/-! ## One word -/

/-- Hexadecimal digits read behind the number `v`. -/
def hexFrom (v : Nat) (s : Bytes) : Nat :=
  s.foldl (fun v c => 16 * v + (hexDigit c).getD 0) v

/-- What follows is no hexadecimal digit that has a value. -/
def NoHexAhead (r : Bytes) : Prop := ∀ c ∈ r.head?, hexDigit c = none

/-- Every character has a value as a hexadecimal digit. -/
def AllHex (s : Bytes) : Prop := ∀ c ∈ s, (hexDigit c).isSome = true

/-- The digits of a word are read to their end, by induction on them. -/
theorem parseWordLoop_append {s r : Bytes} (hr : NoHexAhead r) :
    ∀ {n v : Nat}, s.length ≤ n → AllHex s → parseWordLoop n v (s ++ r) = (hexFrom v s, r) := by
  induction s with
  | nil =>
      intro n v _ _
      cases n with
      | zero => rfl
      | succ n =>
          cases r with
          | nil => rfl
          | cons c r' =>
              rw [List.nil_append, parseWordLoop, hr c rfl]
              rfl
  | cons c s' ih =>
      intro n v hn hs
      cases n with
      | zero => cases hn
      | succ n =>
          obtain ⟨d, hd⟩ := Option.isSome_iff_exists.mp (hs c (List.mem_cons_self ..))
          rw [List.cons_append, parseWordLoop, hd]
          dsimp only
          rw [ih (Nat.le_of_succ_le_succ hn) (fun x hx => hs x (List.mem_cons_of_mem _ hx))]
          show (hexFrom (16 * v + d) s', r) = (hexFrom (16 * v + (hexDigit c).getD 0) s', r)
          rw [hd]
          rfl

/-- A word is read to its end. -/
theorem parseWord_append {s r : Bytes} (hne : s ≠ []) (hlen : s.length ≤ 4) (hs : AllHex s)
    (hr : NoHexAhead r) : parseWord (s ++ r) = .ok (hexFrom 0 s, r) := by
  obtain ⟨c, s', rfl⟩ := List.exists_cons_of_ne_nil hne
  obtain ⟨d, hd⟩ := Option.isSome_iff_exists.mp (hs c (List.mem_cons_self ..))
  rw [List.cons_append, parseWord, hd]
  dsimp only
  rw [parseWordLoop_append hr (Nat.le_of_succ_le_succ hlen)
    (fun x hx => hs x (List.mem_cons_of_mem _ hx))]
  show Except.ok (hexFrom d s', r) = .ok (hexFrom (16 * 0 + (hexDigit c).getD 0) s', r)
  rw [hd, Nat.mul_zero, Nat.zero_add]
  rfl

/-! ## One octet -/

/-- More digits make no smaller number. -/
theorem le_decimalFrom (v : Nat) (s : Bytes) : v ≤ decimalFrom v s := by
  induction s generalizing v with
  | nil => exact le_rfl
  | cons c s' ih =>
      have h := ih (10 * v + digitValue c)
      exact le_trans (by omega) h

/-- The digits of an octet are read to their end, by induction on them. -/
theorem matchOctetLoop_append {s r : Bytes} (hr : ∀ c ∈ r.head?, isDigit c = false) :
    ∀ {v : Nat}, (∀ c ∈ s, isDigit c = true) → decimalFrom v s ≤ 255 →
      matchOctetLoop v (s ++ r) = some (decimalFrom v s, r) := by
  induction s with
  | nil =>
      intro v _ _
      cases r with
      | nil => rfl
      | cons c r' =>
          rw [List.nil_append, matchOctetLoop, hr c rfl, if_neg Bool.false_ne_true]
          rfl
  | cons c s' ih =>
      intro v hs hv
      have hfit : ¬ 10 * v + digitValue c > 255 := by
        have hle := le_decimalFrom (10 * v + digitValue c) s'
        exact not_lt.mpr (le_trans hle hv)
      rw [List.cons_append, matchOctetLoop, if_pos (hs c (List.mem_cons_self ..))]
      show (if 10 * v + digitValue c > 255 then none else _) = _
      rw [if_neg hfit]
      exact ih (fun x hx => hs x (List.mem_cons_of_mem _ hx)) hv

/-- An octet is read to its end. -/
theorem matchOctet_append {s r : Bytes} (h : DecOctet s)
    (hr : ∀ c ∈ r.head?, isDigit c = false) :
    matchOctet (s ++ r) = some (decimalFrom 0 s, r) := by
  obtain ⟨c, s', rfl⟩ := List.exists_cons_of_ne_nil h.ne_nil
  have hc := h.digits c (List.mem_cons_self ..)
  rw [List.cons_append, matchOctet, if_pos hc]
  by_cases hzero : c = '0'.toUInt8
  · have hlen := h.noZero (congrArg some hzero)
    have hnil : s' = [] := List.length_eq_zero_iff.mp (Nat.succ.inj hlen)
    subst hnil
    subst hzero
    rfl
  · have hvalue : decimalFrom 0 (c :: s') = decimalFrom (digitValue c) s' := by
      show decimalFrom (10 * 0 + digitValue c) s' = _
      rw [Nat.mul_zero, Nat.zero_add]
    rw [if_neg hzero, hvalue]
    exact matchOctetLoop_append hr (fun x hx => h.digits x (List.mem_cons_of_mem _ hx))
      (hvalue ▸ h.le)

/-- The loop reads digits, and their value stays below 256. -/
theorem matchOctetLoop_sound {v w : Nat} {s r : Bytes} (hv : v ≤ 255)
    (h : matchOctetLoop v s = some (w, r)) :
    ∃ ds, s = ds ++ r ∧ (∀ c ∈ ds, isDigit c = true) ∧ decimalFrom v ds ≤ 255 := by
  fun_induction matchOctetLoop v s with
  | case1 v =>
      cases h
      exact ⟨[], rfl, List.forall_mem_nil _, hv⟩
  | case2 v c p hc hbig => cases h
  | case3 v c p hc hfit ih =>
      obtain ⟨ds, rfl, hds, hle⟩ := ih (Nat.le_of_not_lt hfit) h
      exact ⟨c :: ds, rfl, List.forall_mem_cons.mpr ⟨hc, hds⟩, hle⟩
  | case4 v c p hc =>
      cases h
      exact ⟨[], rfl, List.forall_mem_nil _, hv⟩

/-- What is read as an octet is one. -/
theorem matchOctet_sound {v : Nat} {s r : Bytes} (h : matchOctet s = some (v, r)) :
    ∃ o, s = o ++ r ∧ DecOctet o := by
  cases s with
  | nil => cases h
  | cons c p =>
      rw [matchOctet] at h
      split at h
      · next hc =>
          split at h
          · next hzero =>
              cases h
              subst hzero
              exact ⟨['0'.toUInt8], rfl, List.cons_ne_nil _ _,
                List.forall_mem_singleton.mpr (by decide), fun _ => rfl, by decide⟩
          · next hzero =>
              have hsmall : ∀ c, isDigit c = true → digitValue c ≤ 255 :=
                forall_byte (by decide +kernel)
              obtain ⟨ds, rfl, hds, hle⟩ := matchOctetLoop_sound (hsmall c hc) h
              refine ⟨c :: ds, rfl, List.cons_ne_nil _ _, List.forall_mem_cons.mpr ⟨hc, hds⟩,
                fun hhead => absurd (Option.some.inj hhead) hzero, ?_⟩
              show decimalFrom (10 * 0 + digitValue c) ds ≤ 255
              rw [Nat.mul_zero, Nat.zero_add]
              exact hle
      · cases h

/-- An octet has at most three digits. -/
theorem octet_length {s : Bytes} (h : DecOctet s) : s.length ≤ 3 := by
  by_contra hlen
  match s, h, hlen with
  | a :: b :: c :: d :: rest, h, _ =>
      have ha : 1 ≤ digitValue a := by
        refine digitValue_pos (h.digits a (List.mem_cons_self ..)) ?_
        intro hzero
        have := h.noZero (congrArg some hzero)
        simp at this
      have hle : 10 * (10 * (10 * (10 * 0 + digitValue a) + digitValue b) + digitValue c)
          + digitValue d ≤ 255 := le_trans (le_decimalFrom _ rest) h.le
      omega
  | [], _, hlen => exact hlen (by decide)
  | [_], _, hlen => exact hlen (by decide : (1 : Nat) ≤ 3)
  | [_, _], _, hlen => exact hlen (by decide : (2 : Nat) ≤ 3)
  | [_, _, _], _, hlen => exact hlen (by decide : (3 : Nat) ≤ 3)

/-- The digits of an octet, read as a hexadecimal word, pass `maybe_octet`. -/
theorem maybeOctet_hexFrom {s : Bytes} (h : DecOctet s) : maybeOctet (hexFrom 0 s) = true := by
  have hall : ∀ a < 10, ∀ b < 10, ∀ c < 10, 100 * a + 10 * b + c ≤ 255 →
      maybeOctet (256 * a + 16 * b + c) = true := by
    decide +kernel
  have hdigit : ∀ c ∈ s, (hexDigit c).getD 0 = digitValue c ∧ digitValue c < 10 := by
    intro c hc
    have hd := h.digits c hc
    rw [hexDigit_of_digit hd]
    exact ⟨rfl, Nat.lt_succ_of_le (digitValue_le hd)⟩
  have hlen := octet_length h
  have hle := h.le
  match s, h.ne_nil with
  | [a], _ =>
      obtain ⟨ha, ha'⟩ := hdigit a (by simp)
      have := hall 0 (by decide) 0 (by decide) (digitValue a) ha' (by omega)
      rw [show hexFrom 0 [a] = 256 * 0 + 16 * 0 + digitValue a by simp [hexFrom, ha]]
      exact this
  | [a, b], _ =>
      obtain ⟨ha, ha'⟩ := hdigit a (by simp)
      obtain ⟨hb, hb'⟩ := hdigit b (by simp)
      have := hall 0 (by decide) (digitValue a) ha' (digitValue b) hb' (by omega)
      rw [show hexFrom 0 [a, b] = 256 * 0 + 16 * digitValue a + digitValue b by
        simp [hexFrom, ha, hb]]
      exact this
  | [a, b, c], _ =>
      obtain ⟨ha, ha'⟩ := hdigit a (by simp)
      obtain ⟨hb, hb'⟩ := hdigit b (by simp)
      obtain ⟨hc, hc'⟩ := hdigit c (by simp)
      have hvalue : 10 * (10 * (10 * 0 + digitValue a) + digitValue b) + digitValue c ≤ 255 := hle
      have := hall (digitValue a) ha' (digitValue b) hb' (digitValue c) hc' (by omega)
      rw [show hexFrom 0 [a, b, c]
        = 256 * digitValue a + 16 * digitValue b + digitValue c by
          simp [hexFrom, ha, hb, hc]; omega]
      exact this
  | _ :: _ :: _ :: _ :: _, _ =>
      simp only [List.length_cons] at hlen
      omega

/-! ## The dotted tail -/

/-- A character that is no hexadecimal digit. -/
theorem noHexAhead_cons {c : UInt8} (r : Bytes) (h : hexDigit c = none) :
    NoHexAhead (c :: r) := by
  intro x hx
  rw [← Option.some.inj hx]
  exact h

/-- Where no hexadecimal digit follows no decimal one does. -/
theorem not_isDigit_of_hexDigit {r : Bytes} (h : NoHexAhead r) :
    ∀ c ∈ r.head?, isDigit c = false := by
  intro c hc
  cases hd : isDigit c with
  | false => rfl
  | true => cases (hexDigit_of_digit hd).symm.trans (h c hc)

theorem dot_noHex : hexDigit '.'.toUInt8 = none := by decide

theorem colon_noHex : hexDigit ':'.toUInt8 = none := by decide

/-- The octet in front of a dot. -/
theorem matchOctet_dot {o : Bytes} (r : Bytes) (h : DecOctet o) :
    matchOctet (o ++ '.'.toUInt8 :: r) = some (decimalFrom 0 o, '.'.toUInt8 :: r) :=
  matchOctet_append h (not_isDigit_of_hexDigit (noHexAhead_cons r dot_noHex))

/-- Three octets behind the first are read to their end. -/
theorem parseOctetTail_append {b c d r : Bytes} (hb : DecOctet b) (hc : DecOctet c)
    (hd : DecOctet d) (hr : NoHexAhead r) :
    parseOctetTail (b ++ '.'.toUInt8 :: (c ++ '.'.toUInt8 :: (d ++ r))) = .ok r := by
  rw [parseOctetTail, matchOctet_dot _ hb]
  dsimp only
  rw [if_pos rfl, matchOctet_dot _ hc]
  dsimp only
  rw [if_pos rfl, matchOctet_append hd (not_isDigit_of_hexDigit hr)]

/-! ## The loop takes the grammar -/

/-- The loop where a word is due. -/
def wordStep (fuel n : Nat) (b : Bool) (s : Bytes) : Except Error Bytes :=
  match parseWord s with
  | .error ec => .error ec
  | .ok (w, p) => if n - 1 = 0 then .ok p else parseIpV6Loop fuel (n - 1) b true w p

/-- The first word, or one behind a gap. -/
theorem loop_word {y : UInt8} (fuel n : Nat) (b : Bool) (word : Nat) (p : Bytes)
    (hy : (hexDigit y).isSome = true) :
    parseIpV6Loop (fuel + 1) n b false word (y :: p) = wordStep fuel n b (y :: p) := by
  have hsome : (b && (hexDigit y).isNone) = false := by
    rw [Option.isNone_eq_false_iff.mpr hy, Bool.and_false]
  rw [parseIpV6Loop.eq_def]
  dsimp only
  rw [if_neg (ne_of_isSome hy colon_noHex), if_neg (ne_of_isSome hy dot_noHex), hsome,
    if_neg Bool.false_ne_true, if_pos (by decide)]
  rfl

/-- A word behind a colon. -/
theorem loop_colon {y : UInt8} (fuel n : Nat) (b : Bool) (word : Nat) (p : Bytes)
    (hy : (hexDigit y).isSome = true) :
    parseIpV6Loop (fuel + 1) n b true word (':'.toUInt8 :: y :: p)
      = wordStep fuel n b (y :: p) := by
  rw [parseIpV6Loop.eq_def]
  dsimp only
  rw [if_pos rfl, if_neg (ne_of_isSome hy colon_noHex), if_pos rfl]
  rfl

/-- A gap; the words before it leave `n`. -/
theorem loop_gap (fuel n : Nat) (c : Bool) (word : Nat) (p : Bytes) :
    parseIpV6Loop (fuel + 1) n false c word (':'.toUInt8 :: ':'.toUInt8 :: p)
      = if n - 1 = 0 then .ok p else parseIpV6Loop fuel (n - 1) true false word p := by
  rw [parseIpV6Loop.eq_def]
  dsimp only
  rw [if_pos rfl, if_pos rfl, if_neg Bool.false_ne_true]

/-- A dot behind the first octet. -/
theorem loop_dot {word : Nat} (fuel n : Nat) (b : Bool) (p : Bytes)
    (hn : b = false → n ≤ 1) (hword : maybeOctet word = true) :
    parseIpV6Loop (fuel + 1) n b true word ('.'.toUInt8 :: p) = parseOctetTail p := by
  have hgap : (!b && decide (n > 1)) = false := by
    cases b with
    | true => rfl
    | false => exact decide_eq_false (not_lt.mpr (hn rfl))
  rw [parseIpV6Loop.eq_def]
  dsimp only
  rw [if_neg (by decide), if_pos rfl, hgap, if_neg Bool.false_ne_true, hword,
    if_neg (by decide)]

/-- What ends an address: no digit, no colon, no dot. -/
def Ends (t : Bytes) : Prop :=
  ∃ x t', t = x :: t' ∧ hexDigit x = none ∧ x ≠ ':'.toUInt8 ∧ x ≠ '.'.toUInt8

theorem ends_pos {t : Bytes} (h : Ends t) : 0 < t.length := by
  obtain ⟨x, t', rfl, -⟩ := h
  exact Nat.succ_pos _

/-- What ends an address is no digit. -/
theorem ends_noHex {t : Bytes} (h : Ends t) : NoHexAhead t := by
  obtain ⟨x, t', rfl, hx, -⟩ := h
  exact noHexAhead_cons t' hx

/-- Behind a gap the address may end. -/
theorem loop_end {t : Bytes} (fuel n : Nat) (c : Bool) (word : Nat) (h : Ends t) :
    parseIpV6Loop (fuel + 1) n true c word t = .ok t := by
  obtain ⟨x, t', rfl, hx, hcolon, hdot⟩ := h
  rw [parseIpV6Loop.eq_def]
  dsimp only
  rw [if_neg hcolon, if_neg hdot, hx]
  rfl

/-- One word is read, and the loop goes on when more are due. -/
theorem wordStep_append {g r : Bytes} (fuel n : Nat) (b : Bool) (hg : H16 g) (hhex : AllHex g)
    (hr : NoHexAhead r) :
    wordStep fuel n b (g ++ r)
      = if n - 1 = 0 then .ok r
        else parseIpV6Loop fuel (n - 1) b true (hexFrom 0 g) r := by
  rw [wordStep, parseWord_append hg.ne_nil hg.length hhex hr]

/-- Without lowercase digits the digits of a word have values. -/
theorem H16.allHex {g : Bytes} (h : H16 g) (hlow : ∀ c ∈ g, NotLower c) : AllHex g :=
  fun c hc => hexDigit_isSome (h.digits c hc) (hlow c hc)

/-- An octet can be read as a word. -/
theorem DecOctet.h16 {o : Bytes} (h : DecOctet o) : H16 o ∧ AllHex o := by
  have hhex : AllHex o := by
    intro c hc
    rw [hexDigit_of_digit (h.digits c hc)]
    rfl
  refine ⟨⟨h.ne_nil, (octet_length h).trans (by decide), ?_⟩, hhex⟩
  intro c hc
  rw [isHexDig, hhex c hc, Bool.true_or]

/-- A row of words starts with a digit. -/
theorem words_head {quad : Bool} {k : Nat} {s : Bytes} (h : Words quad k s)
    (hlow : ∀ c ∈ s, NotLower c) :
    ∃ y p, s = y :: p ∧ (hexDigit y).isSome = true := by
  have hword : ∀ {g r : Bytes}, H16 g → (∀ c ∈ g ++ r, NotLower c) →
      ∃ y p, g ++ r = y :: p ∧ (hexDigit y).isSome = true := by
    intro g r hg hgr
    obtain ⟨y, p, rfl⟩ := List.exists_cons_of_ne_nil hg.ne_nil
    have hall := hg.allHex (fun c hc => hgr c (List.mem_append_left r hc))
    exact ⟨y, p ++ r, rfl, hall y (List.mem_cons_self ..)⟩
  cases h with
  | last hg =>
      have hgr := hword (r := []) hg (by rw [List.append_nil]; exact hlow)
      rw [List.append_nil] at hgr
      exact hgr
  | ipv4 hquad ha =>
      obtain ⟨a, b, c, d, hoct, -, -, -, rfl⟩ := ha
      exact hword hoct.h16.1 hlow
  | more hg hs => exact hword hg hlow

/-- There is no row of no words. -/
theorem words_pos {quad : Bool} {k : Nat} {s : Bytes} (h : Words quad k s) : 1 ≤ k := by
  cases h with
  | last => exact le_rfl
  | ipv4 => decide
  | more => exact Nat.le_add_left ..

/-- A word and the colon behind it are read, when more words are due. -/
theorem wordStep_more {quad : Bool} {k : Nat} {g s : Bytes} (fuel n : Nat) (b : Bool) (r : Bytes)
    (hg : H16 g) (hs : Words quad k s) (hlow : ∀ c ∈ g ++ ':'.toUInt8 :: s, NotLower c)
    (hmore : ¬ n - 1 = 0) :
    wordStep (fuel + 1) n b (g ++ ':'.toUInt8 :: s ++ r) = wordStep fuel (n - 1) b (s ++ r) := by
  obtain ⟨hglow, -, hslow⟩ : (∀ c ∈ g, NotLower c) ∧ NotLower ':'.toUInt8
      ∧ ∀ c ∈ s, NotLower c := by
    rw [List.forall_mem_append, List.forall_mem_cons] at hlow
    exact hlow
  obtain ⟨y, p, rfl, hy⟩ := words_head hs hslow
  rw [List.append_assoc, List.cons_append, wordStep_append _ n b hg (hg.allHex hglow)
    (noHexAhead_cons _ colon_noHex), if_neg hmore, List.cons_append, loop_colon _ _ _ _ _ hy]

/-- **ROWS**: a row of as many words as are due, or behind a gap at most as many, is
    read to its end. -/
theorem wordStep_words {quad : Bool} {k : Nat} {s t : Bytes} (h : Words quad k s) (ht : Ends t) :
    ∀ {fuel n : Nat} {b : Bool}, (∀ c ∈ s, NotLower c) → s.length ≤ fuel →
      k ≤ n → (b = false → n = k) → wordStep fuel n b (s ++ t) = .ok t := by
  induction h with
  | last hg =>
      intro fuel n b hlow hfuel hk hn
      rw [wordStep_append fuel n b hg (hg.allHex hlow) (ends_noHex ht)]
      by_cases hlast : n - 1 = 0
      · rw [if_pos hlast]
      · -- fewer words than are due: there was a gap
        have hb : b = true := by
          cases b with
          | true => rfl
          | false => exact absurd (by rw [hn rfl]) hlast
        obtain ⟨fuel', rfl⟩ : ∃ f, fuel = f + 1 :=
          Nat.exists_eq_add_of_le' (le_trans (List.length_pos_of_ne_nil hg.ne_nil) hfuel)
        rw [if_neg hlast, hb, loop_end _ _ _ _ ht]
  | ipv4 hquad ha =>
      intro fuel n b hlow hfuel hk hn
      obtain ⟨o₁, o₂, o₃, o₄, h₁, h₂, h₃, h₄, rfl⟩ := ha
      have hmore : ¬ n - 1 = 0 := by omega
      have hgap : b = false → n - 1 ≤ 1 := by
        intro hb
        rw [hn hb]
      obtain ⟨fuel', rfl⟩ : ∃ f, fuel = f + 1 := by
        refine Nat.exists_eq_add_of_le' (le_trans ?_ hfuel)
        rw [List.length_append, List.length_cons]
        omega
      have hassoc : o₁ ++ '.'.toUInt8 :: (o₂ ++ '.'.toUInt8 :: (o₃ ++ '.'.toUInt8 :: o₄)) ++ t
          = o₁ ++ '.'.toUInt8 :: (o₂ ++ '.'.toUInt8 :: (o₃ ++ '.'.toUInt8 :: (o₄ ++ t))) := by
        simp
      rw [hassoc, wordStep_append _ n b h₁.h16.1 h₁.h16.2 (noHexAhead_cons _ dot_noHex),
        if_neg hmore, loop_dot fuel' _ b _ hgap (maybeOctet_hexFrom h₁),
        parseOctetTail_append h₂ h₃ h₄ (ends_noHex ht)]
  | @more g s k hg hs ih =>
      intro fuel n b hlow hfuel hk hn
      have hslow : ∀ c ∈ s, NotLower c :=
        fun c hc => hlow c (List.mem_append_right g (List.mem_cons_of_mem _ hc))
      have hmore : ¬ n - 1 = 0 := by
        have := words_pos hs
        omega
      rw [List.length_append, List.length_cons] at hfuel
      obtain ⟨fuel', rfl⟩ : ∃ f, fuel = f + 1 :=
        Nat.exists_eq_add_of_le' (le_trans (by omega) hfuel)
      rw [wordStep_more fuel' n b t hg hs hlow hmore]
      exact ih hslow (by omega) (by omega) (fun hb => by rw [hn hb]; rfl)

/-- **ROWS BEFORE A GAP**: behind the words read, the loop is behind the gap. -/
theorem wordStep_gap {quad : Bool} {m : Nat} {s : Bytes} (r : Bytes) (h : Words quad m s) :
    quad = false → ∀ {fuel n : Nat}, (∀ c ∈ s, NotLower c) →
      s.length + r.length + 1 ≤ fuel → m < n →
      ∃ fuel' word, r.length ≤ fuel'
        ∧ wordStep fuel n false (s ++ ':'.toUInt8 :: ':'.toUInt8 :: r)
          = if n - m - 1 = 0 then .ok r
            else parseIpV6Loop fuel' (n - m - 1) true false word r := by
  induction h with
  | ipv4 hquad ha =>
      intro hq
      cases hquad.symm.trans hq
  | @last g hg =>
      intro _ fuel n hlow hfuel hmn
      have hmore : ¬ n - 1 = 0 := by omega
      obtain ⟨fuel', rfl⟩ : ∃ f, fuel = f + 1 :=
        Nat.exists_eq_add_of_le' (le_trans (by omega) hfuel)
      refine ⟨fuel', hexFrom 0 g, by omega, ?_⟩
      rw [wordStep_append _ n false hg (hg.allHex hlow) (noHexAhead_cons _ colon_noHex),
        if_neg hmore, loop_gap]
  | @more g s m hg hs ih =>
      intro hq fuel n hlow hfuel hmn
      have hslow : ∀ c ∈ s, NotLower c :=
        fun c hc => hlow c (List.mem_append_right g (List.mem_cons_of_mem _ hc))
      have hmore : ¬ n - 1 = 0 := by omega
      rw [List.length_append, List.length_cons] at hfuel
      obtain ⟨fuel', rfl⟩ : ∃ f, fuel = f + 1 :=
        Nat.exists_eq_add_of_le' (le_trans (by omega) hfuel)
      obtain ⟨fuel₂, word, hfuel₂, hnext⟩ := @ih hq fuel' (n - 1) hslow (by omega) (by omega)
      have hleft : n - 1 - m - 1 = n - (m + 1) - 1 := by omega
      rw [hleft] at hnext
      refine ⟨fuel₂, word, hfuel₂, ?_⟩
      rw [wordStep_more fuel' n false _ hg hs hlow hmore]
      exact hnext

/-- What stands behind a gap. -/
theorem loop_post {k : Nat} {s t : Bytes} (h : OptWords true k s) (ht : Ends t)
    {fuel n : Nat} (word : Nat) (hlow : ∀ c ∈ s, NotLower c)
    (hfuel : (s ++ t).length ≤ fuel) (hk : k ≤ n) :
    parseIpV6Loop fuel n true false word (s ++ t) = .ok t := by
  have hpos := ends_pos ht
  rw [List.length_append] at hfuel
  obtain ⟨fuel', rfl⟩ : ∃ f, fuel = f + 1 :=
    Nat.exists_eq_add_of_le' (le_trans (by omega) hfuel)
  rcases h with ⟨-, rfl⟩ | hs
  · exact loop_end _ _ _ _ ht
  · obtain ⟨y, p, hs', hy⟩ := words_head hs hlow
    have hstep := @wordStep_words _ _ _ _ hs ht fuel' n true hlow (by omega) hk
      (fun hb => by cases hb)
    rw [hs'] at hstep ⊢
    rw [List.cons_append, loop_word _ _ _ _ _ hy]
    exact hstep

/-- A row of no words is empty. -/
theorem optWords_zero {quad : Bool} {s : Bytes} (h : OptWords quad 0 s) : s = [] := by
  rcases h with ⟨-, hs⟩ | hs
  · exact hs
  · cases words_pos hs

/-- **THE GRAMMAR IS TAKEN**, as far as it is written without lowercase digits. -/
theorem parseIpV6_of_address {s t : Bytes} (h : IPv6Address s) (ht : Ends t)
    (hlow : ∀ c ∈ s, NotLower c) : parseIpV6 (s ++ t) = .ok t := by
  obtain ⟨fuel, hfuel, hloop⟩ : ∃ fuel, s.length + t.length ≤ fuel
      ∧ parseIpV6 (s ++ t) = parseIpV6Loop (fuel + 1) 8 false false 0 (s ++ t) := by
    have hne : s ++ t ≠ [] :=
      List.append_ne_nil_of_right_ne_nil s (List.length_pos_iff.mp (ends_pos ht))
    refine ⟨(s ++ t).length, (List.length_append ..).ge, ?_⟩
    obtain ⟨x, rest, hx⟩ := List.exists_cons_of_ne_nil hne
    rw [hx]
    rfl
  rw [hloop]
  rcases h with hwords | ⟨m, n, pre, post, hpre, hpost, hmn, rfl⟩
  · obtain ⟨y, p, hs, hy⟩ := words_head hwords hlow
    have hstep := @wordStep_words _ _ _ _ hwords ht fuel 8 false hlow (by omega) le_rfl
      (fun _ => rfl)
    rw [hs] at hstep ⊢
    rw [List.cons_append, loop_word _ _ _ _ _ hy]
    exact hstep
  · have hpostlow : ∀ c ∈ post, NotLower c := fun c hc =>
      hlow c (List.mem_append_right pre (List.mem_cons_of_mem _ (List.mem_cons_of_mem _ hc)))
    have hprelow : ∀ c ∈ pre, NotLower c := fun c hc =>
      hlow c (List.mem_append_left _ hc)
    have hassoc : pre ++ ':'.toUInt8 :: ':'.toUInt8 :: post ++ t
        = pre ++ ':'.toUInt8 :: ':'.toUInt8 :: (post ++ t) := by
      rw [List.append_assoc]
      rfl
    rw [List.length_append, List.length_cons, List.length_cons] at hfuel
    rw [hassoc]
    rcases hpre with ⟨rfl, rfl⟩ | hwords
    · rw [List.nil_append, loop_gap, if_neg (by decide)]
      exact loop_post hpost ht 0 hpostlow (by rw [List.length_append]; omega) (by omega)
    · obtain ⟨y, p, hs, hy⟩ := words_head hwords hprelow
      obtain ⟨fuel', word, hfuel', hgap⟩ := @wordStep_gap _ _ _ (post ++ t) hwords rfl
        fuel 8 hprelow (by rw [List.length_append]; omega) (by omega)
      rw [hs] at hgap ⊢
      rw [List.cons_append, loop_word _ _ _ _ _ hy]
      refine hgap.trans ?_
      by_cases hfull : 8 - m - 1 = 0
      · -- seven words before the gap leave room for none behind it
        have hzero : n = 0 := by omega
        subst hzero
        rw [if_pos hfull, optWords_zero hpost]
        rfl
      · rw [if_neg hfull]
        exact loop_post hpost ht word hpostlow hfuel' (by omega)

/-! ## What the loop takes -/

/-- Characters of one kind have been read. -/
def Consumes (P : UInt8 → Prop) (s r : Bytes) : Prop := ∃ used, s = used ++ r ∧ ∀ c ∈ used, P c

section Consumes

variable {P : UInt8 → Prop}

theorem Consumes.refl (s : Bytes) : Consumes P s s := ⟨[], rfl, fun _ h => by cases h⟩

/-- A character more at the start. -/
theorem Consumes.cons {c : UInt8} {s r : Bytes} (hc : P c) (h : Consumes P s r) :
    Consumes P (c :: s) r := by
  obtain ⟨used, rfl, hused⟩ := h
  refine ⟨c :: used, rfl, ?_⟩
  intro x hx
  rcases List.mem_cons.mp hx with rfl | hx
  · exact hc
  · exact hused x hx

/-- One reader after another. -/
theorem Consumes.trans {s r q : Bytes} (h : Consumes P s r) (h' : Consumes P r q) :
    Consumes P s q := by
  obtain ⟨used, rfl, hused⟩ := h
  obtain ⟨used', rfl, hused'⟩ := h'
  refine ⟨used ++ used', (List.append_assoc ..).symm, ?_⟩
  intro x hx
  rcases List.mem_append.mp hx with hx | hx
  · exact hused x hx
  · exact hused' x hx

/-- An octet takes digits only. -/
theorem matchOctetLoop_consumes (hP : ∀ c, isDigit c = true → P c) {v v' : Nat} {s r : Bytes}
    (h : matchOctetLoop v s = some (v', r)) : Consumes P s r := by
  fun_induction matchOctetLoop v s with
  | case1 v =>
      rw [← (Prod.mk.inj (Option.some.inj h)).2]
      exact Consumes.refl []
  | case2 v c p hd hbig => cases h
  | case3 v c p hd hbig ih => exact (ih h).cons (hP c hd)
  | case4 v c p hd =>
      rw [← (Prod.mk.inj (Option.some.inj h)).2]
      exact Consumes.refl _

theorem matchOctet_consumes (hP : ∀ c, isDigit c = true → P c) {v : Nat} {s r : Bytes}
    (h : matchOctet s = some (v, r)) : Consumes P s r := by
  cases s with
  | nil => cases h
  | cons c p =>
      rw [matchOctet] at h
      by_cases hd : isDigit c = true
      · rw [if_pos hd] at h
        by_cases hzero : c = '0'.toUInt8
        · rw [if_pos hzero] at h
          rw [← (Prod.mk.inj (Option.some.inj h)).2]
          exact (Consumes.refl p).cons (hP c hd)
        · rw [if_neg hzero] at h
          exact (matchOctetLoop_consumes hP h).cons (hP c hd)
      · rw [if_neg hd] at h
        cases h

/-- A dotted tail takes digits and dots. -/
theorem parseOctetTail_consumes (hP : ∀ c, isDigit c = true → P c) (hdot : P '.'.toUInt8)
    {s r : Bytes} (h : parseOctetTail s = .ok r) : Consumes P s r := by
  rw [parseOctetTail.eq_def] at h
  split at h
  · next d₁ s₁ h₁ =>
      split at h
      · next hd₁ =>
          split at h
          · next d₂ s₂ h₂ =>
              split at h
              · next hd₂ =>
                  split at h
                  · next h₃ =>
                      rw [← Except.ok.inj h]
                      rw [hd₁] at h₁
                      rw [hd₂] at h₂
                      exact (matchOctet_consumes hP h₁).trans (((matchOctet_consumes hP h₂).trans
                        ((matchOctet_consumes hP h₃).cons hdot)).cons hdot)
                  · cases h
              · cases h
          · cases h
      · cases h
  · cases h

/-- An IPv4 address takes digits and dots. -/
theorem matchIpV4_consumes (hP : ∀ c, isDigit c = true → P c) (hdot : P '.'.toUInt8)
    {s r : Bytes} (h : matchIpV4 s = some r) : Consumes P s r := by
  rw [matchIpV4.eq_def] at h
  split at h
  · next d₁ s₁ h₁ =>
      split at h
      · next hd₁ =>
          -- the other three octets are those of a dotted tail
          have htail : parseOctetTail s₁ = .ok r := by
            rw [parseOctetTail.eq_def]
            split at h
            · next d₂ s₂ h₂ =>
                split at h
                · next hd₂ =>
                    rw [if_pos hd₂]
                    split at h
                    · next d₃ s₃ h₃ =>
                        split at h
                        · next hd₃ =>
                            obtain ⟨⟨v, r'⟩, h₄, rfl⟩ := Option.map_eq_some_iff.mp h
                            rw [if_pos hd₃, h₄]
                        · cases h
                    · cases h
                · cases h
            · cases h
          rw [hd₁] at h₁
          exact (matchOctet_consumes hP h₁).trans
            ((parseOctetTail_consumes hP hdot htail).cons hdot)
      · cases h
  · cases h

end Consumes

/-- A word takes no lowercase digit. -/
theorem parseWordLoop_consumes (n v : Nat) (s : Bytes) :
    Consumes NotLower s (parseWordLoop n v s).2 := by
  fun_induction parseWordLoop n v s with
  | case1 v s => exact Consumes.refl s
  | case2 n v => exact Consumes.refl []
  | case3 v n c p d hd ih =>
      exact ih.cons (isLowerHex_of_isSome (by rw [hd]; rfl))
  | case4 v n c p hd => exact Consumes.refl _

theorem parseWord_consumes {s r : Bytes} {w : Nat} (h : parseWord s = .ok (w, r)) :
    Consumes NotLower s r := by
  cases s with
  | nil => cases h
  | cons c p =>
      rw [parseWord] at h
      split at h
      · next d hd =>
          have hr : (parseWordLoop 3 d p).2 = r := congrArg Prod.snd (Except.ok.inj h)
          rw [← hr]
          exact (parseWordLoop_consumes 3 d p).cons (isLowerHex_of_isSome (by rw [hd]; rfl))
      · cases h

/-- A decimal digit is no lowercase one. -/
theorem isLowerHex_of_digit {c : UInt8} (h : isDigit c = true) : isLowerHex c = false :=
  isLowerHex_of_isSome (by rw [hexDigit_of_digit h]; rfl)

theorem dot_notLower : NotLower '.'.toUInt8 := by decide

theorem colon_notLower : NotLower ':'.toUInt8 := by decide

/-- The loop takes no lowercase digit: one case for each way a turn ends. -/
theorem parseIpV6Loop_consumes {fuel n : Nat} {b c : Bool} {word : Nat} {s r : Bytes}
    (h : parseIpV6Loop fuel n b c word s = .ok r) : Consumes NotLower s r := by
  fun_induction parseIpV6Loop fuel n b c word s with
  -- the ends of the loop at an error
  | case1 => cases h
  | case3 => cases h
  | case4 => cases h
  | case5 => cases h
  | case8 => cases h
  | case11 => cases h
  | case12 => cases h
  | case13 => cases h
  | case16 => cases h
  | case19 => cases h
  -- the ends of the input, or of the address
  | case2 =>
      rw [← Except.ok.inj h]
      exact Consumes.refl []
  | case15 =>
      rw [← Except.ok.inj h]
      exact Consumes.refl _
  -- a gap
  | case6 fuel n b c word p' hb hn =>
      rw [← Except.ok.inj h]
      exact ((Consumes.refl p').cons colon_notLower).cons colon_notLower
  | case7 fuel n b c word p' hb hn ih =>
      exact ((ih h).cons colon_notLower).cons colon_notLower
  -- a word, behind a colon or not
  | case9 fuel n b word y p' hy w p'' hword hn =>
      rw [← Except.ok.inj h]
      exact (parseWord_consumes hword).cons colon_notLower
  | case10 fuel n b word y p' hy w p'' hword hn ih =>
      exact ((parseWord_consumes hword).trans (ih h)).cons colon_notLower
  | case17 fuel n b c word x p hcolon hdot hend hc w p'' hword hn =>
      rw [← Except.ok.inj h]
      exact parseWord_consumes hword
  | case18 fuel n b c word x p hcolon hdot hend hc w p'' hword hn ih =>
      exact (parseWord_consumes hword).trans (ih h)
  -- the dotted tail
  | case14 =>
      exact (parseOctetTail_consumes (fun _ => isLowerHex_of_digit) dot_notLower h).cons
        dot_notLower

/-- An address takes no lowercase digit. -/
theorem parseIpV6_consumes {s r : Bytes} (h : parseIpV6 s = .ok r) : Consumes NotLower s r := by
  rw [parseIpV6.eq_def] at h
  split at h
  · cases h
  · exact parseIpV6Loop_consumes h

/-- **ADDRESSES**: in front of what ends an address the parser takes an address of the
    grammar exactly when it has no lowercase hexadecimal digit. -/
theorem parseIpV6_address {s t : Bytes} (h : IPv6Address s) (ht : Ends t) :
    parseIpV6 (s ++ t) = .ok t ↔ ∀ c ∈ s, NotLower c := by
  constructor
  · intro hok
    obtain ⟨used, hused, hlow⟩ := parseIpV6_consumes hok
    rw [List.append_cancel_right hused]
    exact hlow
  · exact parseIpV6_of_address h ht

/-! ## Addresses in brackets -/

/-- An address in brackets is an address in front of the closing one. -/
theorem parseIpLiteral_eq_nil {s : Bytes} :
    parseIpLiteral s = .ok [] ↔ ∃ q, s = '['.toUInt8 :: q ∧ parseIpV6 q = .ok [']'.toUInt8] := by
  cases s with
  | nil =>
      refine iff_of_false (fun h => by cases h) ?_
      rintro ⟨q, h, -⟩
      cases h
  | cons c p =>
      rw [parseIpLiteral]
      by_cases hc : c = '['.toUInt8
      · subst hc
        rw [if_pos rfl]
        constructor
        · intro h
          refine ⟨p, rfl, ?_⟩
          split at h
          · cases h
          · next x p' hp =>
              split at h
              · next hx => rw [hp, hx, Except.ok.inj h]
              · cases h
          · cases h
        · rintro ⟨q, hq, hok⟩
          obtain ⟨-, rfl⟩ := List.cons.inj hq
          rw [hok]
          rfl
      · rw [if_neg hc]
        refine iff_of_false (fun h => by cases h) ?_
        rintro ⟨q, hq, -⟩
        exact hc (List.cons.inj hq).1

/-- An address in brackets is taken when it has no lowercase digit. -/
theorem parseIpLiteral_address {a : Bytes} (h : IPv6Address a) :
    parseIpLiteral ('['.toUInt8 :: (a ++ [']'.toUInt8])) = .ok [] ↔ ∀ c ∈ a, NotLower c := by
  have hends : Ends [']'.toUInt8] := ⟨_, _, rfl, by decide, by decide, by decide⟩
  rw [parseIpLiteral_eq_nil, ← parseIpV6_address h hends]
  constructor
  · rintro ⟨q, hq, hok⟩
    rw [(List.cons.inj hq).2]
    exact hok
  · exact fun hok => ⟨_, rfl, hok⟩

/-- The parser takes more than the grammar: a dot may follow a gap. -/
example : parseIpLiteral (lit "[::.1.2.3]") = .ok [] := by decide +kernel

end BoostUrl
