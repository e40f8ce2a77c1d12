import Mathlib

/-! # Byte strings

    Strings of bytes with the operations a C++ program has on them: comparison
    of `char`s as SIGNED 8-bit values, the lexicographic order of strings by
    unsigned byte, the position of the first occurrence of a byte, and the two
    halves around a position that may be absent (`npos`).

    `forall_byte` is the proof device: a decidable property of one byte is
    settled by running it on all 256 of them. -/

namespace ByteString

/-- A byte string. -/
abbrev Bytes := List UInt8

/-- The bytes of an ASCII literal. -/
def lit (s : String) : Bytes := s.toList.map Char.toUInt8

/-- Bytes in their unsigned order, the order string comparison uses. -/
instance byteLinearOrder : LinearOrder UInt8 where
  le_refl := UInt8.le_refl
  le_trans := fun _ _ _ => UInt8.le_trans
  le_antisymm := fun _ _ => UInt8.le_antisymm
  le_total := UInt8.le_total
  lt_iff_le_not_ge := by
    intro a b
    rw [UInt8.lt_iff_toNat_lt, UInt8.le_iff_toNat_le, UInt8.le_iff_toNat_le]
    omega
  toDecidableLE := inferInstance
  toDecidableLT := inferInstance
  toDecidableEq := inferInstance
  compare_eq_compareOfLessAndEq := fun _ _ => rfl

/-- Membership in a byte string is decided by comparing bytes. -/
instance decMem (c : UInt8) (s : List UInt8) : Decidable (c ∈ s) :=
  List.instDecidableMemOfLawfulBEq c s

/-- `a <= b` on values of type `char`, which is signed: bytes from 0x80 on are
    negative. -/
def charLe (a b : UInt8) : Bool := decide (a.toInt8 ≤ b.toInt8)

/-- A property of every byte is a property of 256 numbers. -/
theorem forall_byte {P : UInt8 → Prop}
    (h : ∀ n < 256, P (UInt8.ofNat n)) (c : UInt8) : P c := by
  have hc := h c.toNat c.toNat_lt
  rwa [UInt8.ofNat_toNat] at hc

/-! ## Cutting at the first occurrence -/

/-- Position of the first occurrence of a byte; `none` is `npos`. -/
def findFirstOf (c : UInt8) : Bytes → Option Nat
  | [] => none
  | x :: rest => if x = c then some 0 else (findFirstOf c rest).map (· + 1)

/-- The part before a position: `substr(0, pos)`, the whole string at `npos`. -/
def substrTo (s : Bytes) : Option Nat → Bytes
  | none => s
  | some pos => s.take pos

/-- The part after a position: `substr(pos + 1)`.  At `npos` the sum wraps to 0,
    so the result is the whole string again. -/
def substrFrom (s : Bytes) : Option Nat → Bytes
  | none => s
  | some pos => s.drop (pos + 1)

/-- The first occurrence is right after a part that lacks the byte. -/
theorem findFirstOf_append {c : UInt8} {a : Bytes} (b : Bytes) (h : c ∉ a) :
    findFirstOf c (a ++ c :: b) = some a.length := by
  induction a with
  | nil =>
      show (if c = c then some 0 else _) = some 0
      rw [if_pos rfl]
  | cons x rest ih =>
      have hx : ¬ x = c := fun hxc => h (hxc ▸ List.mem_cons_self ..)
      have hrest : c ∉ rest := fun hm => h (List.mem_cons_of_mem _ hm)
      show (if x = c then some 0 else (findFirstOf c (rest ++ c :: b)).map (· + 1))
        = some (rest.length + 1)
      rw [if_neg hx, ih hrest]
      rfl

/-- The two halves around the first occurrence. -/
theorem substr_append {c : UInt8} {a : Bytes} (b : Bytes) (h : c ∉ a) :
    substrTo (a ++ c :: b) (findFirstOf c (a ++ c :: b)) = a
      ∧ substrFrom (a ++ c :: b) (findFirstOf c (a ++ c :: b)) = b := by
  rw [findFirstOf_append b h]
  constructor
  · show (a ++ c :: b).take a.length = a
    rw [List.take_left]
  · show (a ++ c :: b).drop (a.length + 1) = b
    rw [List.drop_append, List.drop_of_length_le (Nat.le_succ _)]
    simp

/-! ## Before and after the first occurrence -/

/-- The part before the first occurrence of a byte, the whole string when there
    is none. -/
def beforeFirst (c : UInt8) (s : Bytes) : Bytes := s.takeWhile (· != c)

/-- The part after the first occurrence of a byte, empty when there is none. -/
def afterFirst (c : UInt8) (s : Bytes) : Bytes := (s.dropWhile (· != c)).drop 1

theorem bne_of_not_mem {c : UInt8} {a : Bytes} (h : c ∉ a) :
    ∀ x ∈ a, (x != c) = true := by
  intro x hx
  rw [bne_iff_ne]
  rintro rfl
  exact h hx

/-- A text is cut at the first separator. -/
theorem cut_append {c : UInt8} {a : Bytes} (b : Bytes) (h : c ∉ a) :
    beforeFirst c (a ++ c :: b) = a ∧ afterFirst c (a ++ c :: b) = b := by
  have hpos := bne_of_not_mem h
  rw [beforeFirst, afterFirst, List.takeWhile_append_of_pos hpos,
    List.dropWhile_append_of_pos hpos]
  simp

/-- A text without the separator is not cut. -/
theorem cut_of_not_mem {c : UInt8} {s : Bytes} (h : c ∉ s) :
    beforeFirst c s = s ∧ afterFirst c s = [] := by
  have hpos := bne_of_not_mem h
  have htake : s.takeWhile (· != c) = s := List.takeWhile_eq_self_iff.mpr hpos
  have hdrop : s.dropWhile (· != c) = [] := List.dropWhile_eq_nil_iff.mpr hpos
  rw [beforeFirst, afterFirst, htake, hdrop]
  exact ⟨rfl, rfl⟩

theorem findFirstOf_eq_none {c : UInt8} {s : Bytes} (h : c ∉ s) :
    findFirstOf c s = none := by
  induction s with
  | nil => rfl
  | cons x rest ih =>
      have hx : ¬ x = c := fun hxc => h (hxc ▸ List.mem_cons_self ..)
      rw [findFirstOf, if_neg hx, ih (fun hm => h (List.mem_cons_of_mem _ hm))]
      rfl

end ByteString
