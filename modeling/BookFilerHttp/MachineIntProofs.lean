import Mathlib

/-! # Machine integers

    Signed and unsigned values of a fixed number of bits, as the integers they
    stand for.  An operation on signed values whose exact result is out of range
    has no value (`checked`); a conversion to a narrower type always has one, the
    residue in the range of that type (`narrow`, `narrowUnsigned`).

    `narrow_eq_self_iff` and `narrowUnsigned_eq_self_iff` say when a conversion
    keeps the number, and `checked_bind_mul` makes one product of a chain of
    them. -/

namespace MachineInt

/-- `n` is a value of the signed type of `w` bits. -/
def Fits (w : Nat) (n : Int) : Prop := -2 ^ (w - 1) ≤ n ∧ n < 2 ^ (w - 1)

instance decFits (w : Nat) (n : Int) : Decidable (Fits w n) :=
  inferInstanceAs (Decidable (_ ∧ _))

/-- A signed operation with the exact result `n`, none when it overflows. -/
def checked (w : Nat) (n : Int) : Option Int := if Fits w n then some n else none

/-- Conversion to the signed type of `w` bits. -/
def narrow (w : Nat) (n : Int) : Int := n.bmod (2 ^ w)

/-- Conversion to the unsigned type of `w` bits. -/
def narrowUnsigned (w : Nat) (n : Int) : Int := n % 2 ^ w

/-! ## Operations -/

theorem checked_eq_some {w : Nat} {n m : Int} :
    checked w n = some m ↔ Fits w n ∧ n = m := by
  rw [checked]
  by_cases h : Fits w n
  · rw [if_pos h, Option.some.injEq]
    exact (and_iff_right h).symm
  · rw [if_neg h]
    exact ⟨fun he => (Option.some_ne_none m he.symm).elim, fun ⟨hf, _⟩ => (h hf).elim⟩

/-- A product by a positive number fits only when the other factor does. -/
theorem fits_of_mul {w : Nat} {a b : Int} (hb : 0 < b) (h : Fits w (a * b)) :
    Fits w a := by
  obtain ⟨hlow, hhigh⟩ := h
  constructor
  · by_cases ha : 0 ≤ a
    · have hpow : (0 : Int) ≤ 2 ^ (w - 1) := by positivity
      omega
    · have hle : a * b ≤ a := by nlinarith
      omega
  · by_cases ha : 0 ≤ a
    · have hle : a ≤ a * b := by nlinarith
      omega
    · have hpow : (0 : Int) ≤ 2 ^ (w - 1) := by positivity
      omega

/-- A chain of products by positive numbers overflows exactly when the whole
    product does. -/
theorem checked_bind_mul {w : Nat} {a b : Int} (hb : 0 < b) :
    (checked w a).bind (fun x => checked w (x * b)) = checked w (a * b) := by
  by_cases ha : Fits w a
  · rw [checked, if_pos ha]
    rfl
  · have hab : ¬ Fits w (a * b) := fun h => ha (fits_of_mul hb h)
    rw [checked, if_neg ha, checked, if_neg hab]
    rfl

/-! ## Conversions -/

/-- The number a conversion gives: the one in range with the same residue. -/
theorem narrow_eq_iff {w : Nat} (hw : 0 < w) {n m : Int} :
    narrow w n = m ↔ Fits w m ∧ (2 ^ w : Int) ∣ n - m := by
  obtain ⟨k, rfl⟩ := Nat.exists_eq_succ_of_ne_zero hw.ne'
  have hcast : ((2 ^ (k + 1) : Nat) : Int) = 2 ^ (k + 1) := by norm_cast
  have hsucc : (2 ^ (k + 1) : Int) = 2 * 2 ^ k := by ring
  have hpow : (0 : Int) < 2 ^ k := by positivity
  rw [narrow, Int.bmod_eq_iff (by positivity), hcast, dvd_sub_comm, ← and_assoc]
  show (-(2 ^ (k + 1) / 2 : Int) ≤ m ∧ m < (2 ^ (k + 1) + 1) / 2) ∧ _
    ↔ (-2 ^ k ≤ m ∧ m < 2 ^ k) ∧ _
  have hlow : (2 ^ (k + 1) / 2 : Int) = 2 ^ k := by omega
  have hhigh : ((2 ^ (k + 1) + 1) / 2 : Int) = 2 ^ k := by omega
  rw [hlow, hhigh]

theorem narrow_eq_self_iff {w : Nat} (hw : 0 < w) {n : Int} :
    narrow w n = n ↔ Fits w n := by
  rw [narrow_eq_iff hw, sub_self]
  exact and_iff_left (dvd_zero _)

theorem narrowUnsigned_eq_self_iff {w : Nat} {n : Int} :
    narrowUnsigned w n = n ↔ 0 ≤ n ∧ n < 2 ^ w := by
  constructor
  · intro h
    rw [← h, narrowUnsigned]
    exact ⟨Int.emod_nonneg _ (by positivity), Int.emod_lt_of_pos _ (by positivity)⟩
  · rintro ⟨hlow, hhigh⟩
    exact Int.emod_eq_of_lt hlow hhigh

end MachineInt
