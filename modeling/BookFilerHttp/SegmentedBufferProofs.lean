import Mathlib

/-! # A buffer cut into pieces

    A sequence of pieces can be kept in ONE block of memory, the pieces behind
    each other and a terminator behind the last, with a table of the offsets at
    which they start.  Changing a piece then moves everything behind it and
    shifts the table.

    `Cut` says that a table belongs to a list of pieces, `Holds` that a block
    holds them.  There is one rule for each operation of such a buffer: a piece
    is given a new length (`cut_resize`), a run of pieces becomes one piece and
    empty ones (`cut_resizeRange`), a piece is cut in two (`cut_split`), the
    pieces behind a gap are moved (`Holds.move_tail`), and a part of a piece is
    written (`holds_store`). -/

namespace SegmentedBuffer

variable {α : Type}

/-! ## The operations -/

/-- `memmove` within a block; none when it leaves the block. -/
def move (m : List α) (dst src n : Nat) : Option (List α) :=
  if dst + n ≤ m.length ∧ src + n ≤ m.length then
    some (m.take dst ++ (m.drop src).take n ++ m.drop (dst + n))
  else none

/-- Elements written from a position on; none when they leave the block. -/
def store (m : List α) (pos : Nat) (w : List α) : Option (List α) :=
  if pos + w.length ≤ m.length then
    some (m.take pos ++ w ++ m.drop (pos + w.length))
  else none

/-- The length of a piece, read off the table. -/
def length (t : Nat → Nat) (id : Nat) : Nat := t (id + 1) - t id

/-- One piece gets the length `n`. -/
def resize (t : Nat → Nat) (id n : Nat) : Nat → Nat :=
  if length t id < n then
    fun i => if id < i then t i + (n - length t id) else t i
  else
    fun i => if id < i then t i - (length t id - n) else t i

/-- The pieces from `first` up to `last` become one piece of length `n` and empty
    pieces behind it. -/
def resizeRange (t : Nat → Nat) (first last n : Nat) : Nat → Nat :=
  let len := t last - t first
  if n ≤ len then
    fun i =>
      if last ≤ i then t i - (len - n)
      else if first < i then t last - (len - n)
      else t i
  else
    fun i =>
      if last ≤ i then t i + (n - len)
      else if first < i then t last + (n - len)
      else t i

/-- A piece is cut after `n` elements; the rest goes to the next piece. -/
def split (t : Nat → Nat) (id n : Nat) : Nat → Nat :=
  Function.update t (id + 1) (t id + n)

/-- The elements between two entries of the table. -/
def slice (m : List α) (t : Nat → Nat) (first last : Nat) : List α :=
  (m.drop (t first)).take (t last - t first)

/-! ## What a table and a block stand for -/

/-- The offsets of the table are those of pieces that follow each other. -/
structure Cut (t : Nat → Nat) (ps : List (List α)) : Prop where
  start : t 0 = 0
  next : ∀ i (h : i < ps.length), t (i + 1) = t i + ps[i].length

/-- The block starts with the pieces and the terminator `z`. -/
structure Holds (z : α) (m : List α) (t : Nat → Nat) (ps : List (List α)) : Prop where
  cut : Cut t ps
  pieces : ps.flatten ++ [z] <+: m

/-- The pieces from `first` up to `last` are replaced by `w` and empty pieces. -/
def replace (ps : List (List α)) (first last : Nat) (w : List α) : List (List α) :=
  ps.take first ++ w :: (List.replicate (last - first - 1) [] ++ ps.drop last)

variable {t : Nat → Nat} {ps : List (List α)}

/-! ## Tables -/

/-- **OFFSETS ARE SUMS** of the lengths of the pieces before. -/
theorem Cut.offset (h : Cut t ps) :
    ∀ {i : Nat}, i ≤ ps.length → t i = (ps.take i).flatten.length := by
  intro i
  induction i with
  | zero =>
      intro _
      rw [h.start]
      rfl
  | succ i ih =>
      intro hi
      rw [h.next i hi, ih (Nat.le_of_succ_le hi), List.take_succ_eq_append_getElem hi,
        List.flatten_append, List.length_append]
      simp

/-- The offsets of a cut go up. -/
theorem Cut.mono (h : Cut t ps) {i j : Nat} (hij : i ≤ j) (hj : j ≤ ps.length) :
    t i ≤ t j := by
  induction j, hij using Nat.le_induction with
  | base => exact Nat.le_refl _
  | succ j hle ih =>
      rw [h.next j hj]
      exact Nat.le_trans (ih (Nat.le_of_succ_le hj)) (Nat.le_add_right _ _)

/-- The table knows how long each segment is. -/
theorem Cut.length_eq (h : Cut t ps) {i : Nat} (hi : i < ps.length) :
    length t i = ps[i].length := by
  rw [length, h.next i hi, Nat.add_sub_cancel_left]

/-- A piece of a new length shifts the offsets behind it. -/
theorem cut_resize (h : Cut t ps) {id : Nat} (hid : id < ps.length) (w : List α) :
    Cut (resize t id w.length) (ps.set id w) := by
  have hlen := h.length_eq hid
  have hnext := h.next id hid
  constructor
  · rw [resize]
    split <;> simp [h.start]
  · intro i hi
    rw [List.length_set] at hi
    have hi' := h.next i hi
    have hmono : id < i → t (id + 1) ≤ t i := fun hlt => h.mono hlt (Nat.le_of_lt hi)
    rw [resize, hlen, List.getElem_set]
    rcases Nat.lt_trichotomy id i with hlt | rfl | hlt
    · have := hmono hlt
      rw [if_neg (Nat.ne_of_lt hlt)]
      split <;> simp only [if_pos hlt, if_pos (Nat.lt_succ_of_lt hlt)] <;> omega
    · rw [if_pos rfl]
      split <;> simp only [Nat.lt_irrefl, if_false, Nat.lt_succ_self, if_true] <;> omega
    · rw [if_neg (Nat.ne_of_gt hlt)]
      have hnot : ¬ id < i := Nat.not_lt.mpr (Nat.le_of_lt hlt)
      have hnot' : ¬ id < i + 1 := Nat.not_lt.mpr hlt
      split <;> simp only [if_neg hnot, if_neg hnot'] <;> exact hi'

theorem length_replace (ps : List (List α)) {first last : Nat} (hlt : first < last)
    (hlast : last ≤ ps.length) (w : List α) :
    (replace ps first last w).length = ps.length := by
  simp only [replace, List.length_append, List.length_cons, List.length_replicate,
    List.length_take, List.length_drop]
  omega

theorem getElem_replace (ps : List (List α)) {first last : Nat} (hlt : first < last)
    (hlast : last ≤ ps.length) (w : List α) {i : Nat} (hi : i < ps.length)
    (hi' : i < (replace ps first last w).length) :
    (replace ps first last w)[i]
      = if i = first then w else if first < i ∧ i < last then [] else ps[i] := by
  simp only [replace]
  grind

/-- Replacing segments replaces their text. -/
theorem flatten_replace (ps : List (List α)) (first last : Nat) (w : List α) :
    (replace ps first last w).flatten
      = (ps.take first).flatten ++ w ++ (ps.drop last).flatten := by
  simp [replace]

/-- A run of pieces without elements is a run of empty pieces. -/
theorem replace_nil (h : Cut t ps) {first last : Nat} (hlt : first < last)
    (hlast : last ≤ ps.length) (hrun : t last = t first) : replace ps first last [] = ps := by
  have hinside : ∀ i, first ≤ i → ∀ hi : i < last, ps[i] = [] := by
    intro i hfirst hi
    have hle := h.mono hfirst (by omega)
    have hge := h.mono (show i + 1 ≤ last from hi) hlast
    have hnext := h.next i (by omega)
    exact List.length_eq_zero_iff.mp (by omega)
  refine List.ext_getElem (length_replace ps hlt hlast []) fun i hi hi' => ?_
  rw [getElem_replace ps hlt hlast [] hi' hi]
  split
  · next heq => exact (hinside i (Nat.le_of_eq heq.symm) (heq ▸ hlt)).symm
  · split
    · next hin => exact (hinside i (Nat.le_of_lt hin.1) hin.2).symm
    · rfl

/-- A run of pieces that becomes one piece shifts the offsets behind the run. -/
theorem cut_resizeRange (h : Cut t ps) {first last : Nat} (hlt : first < last)
    (hlast : last ≤ ps.length) (w : List α) :
    Cut (resizeRange t first last w.length) (replace ps first last w) := by
  have hrun := h.mono (Nat.le_of_lt hlt) hlast
  constructor
  · have h0 : ¬ last ≤ 0 := Nat.not_le.mpr (Nat.lt_of_le_of_lt (Nat.zero_le _) hlt)
    rw [resizeRange]
    split <;> simp [h0, h.start]
  · intro i hin
    have hi : i < ps.length := length_replace ps hlt hlast w ▸ hin
    have hi' := h.next i hi
    have hge : last ≤ i → t last ≤ t i := fun hle => h.mono hle (Nat.le_of_lt hi)
    rw [getElem_replace ps hlt hlast w hi hin]
    -- before the run, its first piece, inside it, behind it
    rcases Nat.lt_trichotomy i first with hbefore | rfl | hafter
    · have h₁ : ¬ last ≤ i := by omega
      have h₂ : ¬ first < i := by omega
      have h₃ : ¬ last ≤ i + 1 := by omega
      have h₄ : ¬ first < i + 1 := by omega
      rw [if_neg (Nat.ne_of_lt hbefore), if_neg (fun hc => h₂ hc.1), resizeRange]
      split <;> simp only [if_neg h₁, if_neg h₂, if_neg h₃, if_neg h₄] <;> exact hi'
    · have h₁ : ¬ last ≤ i := by omega
      rw [if_pos rfl, resizeRange]
      by_cases hnext : last ≤ i + 1
      · obtain rfl : last = i + 1 := by omega
        split <;> simp only [if_neg h₁, Nat.le_refl, if_true, Nat.lt_irrefl, if_false]
          <;> omega
      · split <;> simp only [if_neg h₁, if_neg hnext, Nat.lt_succ_self, if_true,
          Nat.lt_irrefl, if_false] <;> omega
    · have h₂ : first < i + 1 := Nat.lt_succ_of_lt hafter
      rw [if_neg (Nat.ne_of_gt hafter)]
      by_cases hin : i < last
      · have h₁ : ¬ last ≤ i := Nat.not_le.mpr hin
        rw [if_pos ⟨hafter, hin⟩, resizeRange]
        by_cases hnext : last ≤ i + 1
        · obtain rfl : last = i + 1 := by omega
          split <;> simp only [if_neg h₁, if_pos hafter, Nat.le_refl, if_true,
            List.length_nil] <;> omega
        · split <;> simp only [if_neg h₁, if_neg hnext, if_pos hafter, if_pos h₂,
            List.length_nil] <;> omega
      · have h₁ : last ≤ i := Nat.not_lt.mp hin
        have := hge h₁
        rw [if_neg (fun hc => hin hc.2), resizeRange]
        split <;> simp only [if_pos h₁, if_pos (Nat.le_succ_of_le h₁)] <;> omega

/-- Cutting a piece moves one offset. -/
theorem cut_split (h : Cut t ps) {id : Nat} (hid : id + 1 < ps.length) (hid' : id < ps.length)
    {v w : List α} (hpiece : ps[id] = v ++ w) :
    Cut (split t id v.length) ((ps.set id v).set (id + 1) (w ++ ps[id + 1])) := by
  have h₁ := h.next id hid'
  rw [hpiece, List.length_append] at h₁
  constructor
  · rw [split, Function.update_of_ne (Nat.succ_ne_zero id).symm]
    exact h.start
  · intro i hi
    rw [List.length_set, List.length_set] at hi
    have hi' := h.next i hi
    rw [split, List.getElem_set, List.getElem_set]
    by_cases hnext : i = id + 1
    · subst hnext
      have h₂ : t (id + 1 + 1) = t (id + 1) + ps[id + 1].length := hi'
      rw [Function.update_self, if_pos rfl,
        Function.update_of_ne (Nat.succ_ne_self (id + 1)), List.length_append, h₂, h₁]
      omega
    · rw [if_neg (fun hc => hnext hc.symm), Function.update_of_ne hnext]
      by_cases heq : i = id
      · subst heq
        rw [if_pos rfl, Function.update_self]
      · rw [if_neg (fun hc => heq hc.symm),
          Function.update_of_ne (fun hc => heq (Nat.succ.inj hc))]
        exact hi'

/-! ## Blocks -/

/-- Storing as much as is there overwrites just that. -/
theorem store_exact (x v w rest : List α) (h : v.length = w.length) :
    store (x ++ v ++ rest) x.length w = some (x ++ w ++ rest) := by
  rw [store, if_pos (by simp only [List.length_append]; omega), List.append_assoc x v,
    List.take_left, ← List.drop_drop, List.drop_left, ← h, List.drop_left]

theorem store_length {m m' w : List α} {pos : Nat} (h : store m pos w = some m') :
    m'.length = m.length := by
  rw [store] at h
  split at h
  · next hroom =>
      rw [← Option.some.inj h, List.length_append, List.length_append, List.length_drop,
        List.length_take]
      omega
  · cases h

/-- What stands before a store stays. -/
theorem prefix_store {m m' w x : List α} {pos : Nat} (h : store m pos w = some m')
    (hx : x <+: m) (hpos : x.length ≤ pos) : x <+: m' := by
  rw [store] at h
  split at h
  · rw [← Option.some.inj h, List.append_assoc]
    exact (List.prefix_take_iff.mpr ⟨hx, hpos⟩).trans (List.prefix_append _ _)
  · cases h

/-- What is stored stands where it was stored. -/
theorem store_getElem {m m' w : List α} {pos : Nat} (h : store m pos w = some m') {i : Nat}
    (hi : i < w.length) : m'[pos + i]? = w[i]? := by
  rw [store] at h
  split at h
  · next hroom =>
      have htake : (m.take pos).length = pos := List.length_take_of_le (by omega)
      rw [← Option.some.inj h, List.append_assoc, List.getElem?_append_right (by omega),
        htake, Nat.add_sub_cancel_left, List.getElem?_append_left hi]
  · cases h

theorem move_exact {x y tail rest : List α} {n : Nat}
    (h : x.length + n + tail.length ≤ (x ++ y ++ tail ++ rest).length) :
    ∃ gap rest', gap.length = n
      ∧ (x ++ gap ++ tail ++ rest').length = (x ++ y ++ tail ++ rest).length
      ∧ move (x ++ y ++ tail ++ rest) (x.length + n) (x.length + y.length) tail.length
          = some (x ++ gap ++ tail ++ rest') := by
  have hsplit : x ++ y ++ tail ++ rest = x ++ (y ++ tail ++ rest) := by
    simp only [List.append_assoc]
  have htake : (x ++ y ++ tail ++ rest).take (x.length + n)
      = x ++ (y ++ tail ++ rest).take n := by
    rw [hsplit, List.take_length_add_append]
  have hsrc : ((x ++ y ++ tail ++ rest).drop (x.length + y.length)).take tail.length
      = tail := by
    rw [List.append_assoc (x ++ y), ← List.length_append, List.drop_left, List.take_left]
  have hgap : ((y ++ tail ++ rest).take n).length = n := by
    rw [List.length_take]
    simp only [List.length_append] at h ⊢
    omega
  refine ⟨(y ++ tail ++ rest).take n,
    (x ++ y ++ tail ++ rest).drop (x.length + n + tail.length), hgap, ?_, ?_⟩
  · rw [List.length_append, List.length_append, List.length_append, hgap,
      List.length_drop]
    omega
  · rw [move, if_pos ⟨h, by simp only [List.length_append]; omega⟩, htake, hsrc]

/-! ## Blocks that hold pieces -/

variable {z : α} {m : List α}

/-- The segments and the byte behind them fit into the memory. -/
theorem Holds.length_le (h : Holds z m t ps) : t ps.length + 1 ≤ m.length := by
  have := h.pieces.length_le
  rw [h.cut.offset (Nat.le_refl _), List.take_length]
  rwa [List.length_append, List.length_singleton] at this

/-- The text before some segments and theirs is the text up to their end. -/
theorem flatten_take_run (ps : List (List α)) {first last : Nat} (hle : first ≤ last) :
    (ps.take first).flatten ++ ((ps.take last).drop first).flatten
      = (ps.take last).flatten := by
  rw [← List.flatten_append]
  congr 1
  conv_rhs => rw [← List.take_append_drop first (ps.take last), List.take_take,
    Nat.min_eq_left hle]

/-- **READING**: what stands between two offsets is the pieces between them. -/
theorem holds_slice (h : Holds z m t ps) {first last : Nat} (hle : first ≤ last)
    (hlast : last ≤ ps.length) :
    slice m t first last = ((ps.take last).drop first).flatten := by
  obtain ⟨rest, hm⟩ := h.pieces
  have hfirst := h.cut.offset (Nat.le_trans hle hlast)
  have hsum := flatten_take_run ps hle
  have hwhole : (ps.take last).flatten ++ (ps.drop last).flatten = ps.flatten := by
    rw [← List.flatten_append, List.take_append_drop]
  have hlength : t last - t first = (((ps.take last).drop first).flatten).length := by
    rw [h.cut.offset hlast, hfirst, ← hsum, List.length_append, Nat.add_sub_cancel_left]
  rw [slice, hlength, hfirst, ← hm, ← hwhole, ← hsum]
  simp only [List.append_assoc]
  rw [List.drop_left, List.take_left]

/-- The block around a run of pieces. -/
theorem Holds.around (h : Holds z m t ps) {first last : Nat} (hle : first ≤ last) :
    ∃ rest, m = (ps.take first).flatten ++ ((ps.take last).drop first).flatten
      ++ ((ps.drop last).flatten ++ [z]) ++ rest := by
  obtain ⟨rest, hm⟩ := h.pieces
  refine ⟨rest, ?_⟩
  rw [← hm, ← List.append_assoc _ _ [z], flatten_take_run ps hle, ← List.flatten_append,
    List.take_append_drop]

theorem flatten_set (ps : List (List α)) {id : Nat} (hid : id < ps.length) (w : List α) :
    (ps.set id w).flatten = (ps.take id).flatten ++ w ++ (ps.drop (id + 1)).flatten := by
  rw [List.set_eq_take_append_cons_drop, if_pos hid]
  simp

/-- A segment that is overwritten with as many bytes leaves the offsets right. -/
theorem Cut.set (h : Cut t ps) {id : Nat} (hid : id < ps.length) {w : List α}
    (hw : w.length = ps[id].length) : Cut t (ps.set id w) := by
  refine ⟨h.start, fun i hi => ?_⟩
  rw [List.length_set] at hi
  rw [List.getElem_set, h.next i hi]
  split
  · next heq =>
      subst heq
      rw [hw]
  · rfl

/-- **MOVING THE TAIL** leaves a gap of the wanted length between what stood before
    a run and what stood behind it. -/
theorem Holds.move_tail (h : Holds z m t ps) {first last n : Nat} (hle : first ≤ last)
    (hlast : last ≤ ps.length)
    (hroom : t first + n + (t ps.length - t last + 1) ≤ m.length) :
    ∃ gap m', gap.length = n ∧ m'.length = m.length
      ∧ move m (t first + n) (t last) (t ps.length - t last + 1) = some m'
      ∧ (ps.take first).flatten ++ gap ++ (ps.drop last).flatten ++ [z] <+: m' := by
  obtain ⟨rest, hm⟩ := h.around hle
  have hfirst := h.cut.offset (Nat.le_trans hle hlast)
  have hlen : t last = (ps.take first).flatten.length
      + ((ps.take last).drop first).flatten.length := by
    rw [h.cut.offset hlast, ← List.length_append, flatten_take_run ps hle]
  have htail : t ps.length - t last + 1 = ((ps.drop last).flatten ++ [z]).length := by
    have hall : (ps.take last).flatten ++ (ps.drop last).flatten = ps.flatten := by
      rw [← List.flatten_append, List.take_append_drop]
    rw [h.cut.offset (Nat.le_refl _), h.cut.offset hlast, List.take_length, ← hall,
      List.length_append, List.length_append, List.length_singleton,
      Nat.add_sub_cancel_left]
  rw [htail, hfirst, hm] at hroom
  obtain ⟨gap, rest', hgap, hlength, hmove⟩ := move_exact hroom
  refine ⟨gap, (ps.take first).flatten ++ gap ++ ((ps.drop last).flatten ++ [z]) ++ rest',
    hgap, ?_, ?_, rest', ?_⟩
  · rw [hm]
    exact hlength
  · rw [htail, hfirst, hlen, hm]
    exact hmove
  · simp only [List.append_assoc]

/-- A piece is given a new length. -/
theorem holds_resize (h : Holds z m t ps) {id n : Nat} (hid : id < ps.length)
    (hroom : t id + n + (t ps.length - t (id + 1) + 1) ≤ m.length) :
    ∃ gap m', gap.length = n ∧ m'.length = m.length
      ∧ move m (t id + n) (t (id + 1)) (t ps.length - t (id + 1) + 1) = some m'
      ∧ Holds z m' (resize t id n) (ps.set id gap) := by
  obtain ⟨gap, m', hgap, hlen, hmove, hpre⟩ := h.move_tail (Nat.le_succ id) hid hroom
  refine ⟨gap, m', hgap, hlen, hmove, hgap ▸ cut_resize h.cut hid gap, ?_⟩
  rw [flatten_set ps hid]
  exact hpre

/-- A run of pieces is given a new length. -/
theorem holds_resizeRange (h : Holds z m t ps) {first last n : Nat} (hlt : first < last)
    (hlast : last ≤ ps.length)
    (hroom : t first + n + (t ps.length - t last + 1) ≤ m.length) :
    ∃ gap m', gap.length = n ∧ m'.length = m.length
      ∧ move m (t first + n) (t last) (t ps.length - t last + 1) = some m'
      ∧ Holds z m' (resizeRange t first last n) (replace ps first last gap) := by
  obtain ⟨gap, m', hgap, hlen, hmove, hpre⟩ := h.move_tail (Nat.le_of_lt hlt) hlast hroom
  refine ⟨gap, m', hgap, hlen, hmove, hgap ▸ cut_resizeRange h.cut hlt hlast gap, ?_⟩
  rw [flatten_replace]
  exact hpre

/-- Cutting a piece moves no element. -/
theorem flatten_split (ps : List (List α)) {id : Nat} (hid : id + 1 < ps.length)
    (hid' : id < ps.length) {v w : List α} (hpiece : ps[id] = v ++ w) :
    ((ps.set id v).set (id + 1) (w ++ ps[id + 1])).flatten = ps.flatten := by
  have hps : ps.flatten = (ps.take id).flatten
      ++ (ps[id] ++ (ps[id + 1] ++ (ps.drop (id + 1 + 1)).flatten)) := by
    rw [← List.flatten_cons, ← List.flatten_cons, ← List.drop_eq_getElem_cons hid,
      ← List.drop_eq_getElem_cons hid', ← List.flatten_append, List.take_append_drop]
  rw [hps, hpiece, flatten_set _ (by rw [List.length_set]; exact hid),
    List.drop_set_of_lt (by omega), List.take_set, List.take_succ_eq_append_getElem hid',
    List.set_append_right _ _ (by rw [List.length_take]; omega)]
  simp only [List.length_take, Nat.min_eq_left (Nat.le_of_lt hid'), Nat.sub_self,
    List.set_cons_zero, List.flatten_append, List.flatten_singleton, List.append_assoc]

/-- **WRITING** over a part of a piece. -/
theorem holds_store (h : Holds z m t ps) {id : Nat} (hid : id < ps.length)
    {a b c w : List α} (hpiece : ps[id] = a ++ b ++ c) (hw : w.length = b.length) :
    ∃ m', store m (t id + a.length) w = some m' ∧ m'.length = m.length
      ∧ Holds z m' t (ps.set id (a ++ w ++ c)) := by
  obtain ⟨rest, hm⟩ := h.around (Nat.le_succ id)
  have hmid : ((ps.take (id + 1)).drop id).flatten = a ++ b ++ c := by
    rw [List.take_succ_eq_append_getElem hid, List.drop_append_of_le_length
      (by rw [List.length_take]; omega), List.drop_of_length_le
      (by rw [List.length_take]; omega), List.nil_append, List.flatten_singleton, hpiece]
  have hpos : t id + a.length = ((ps.take id).flatten ++ a).length := by
    rw [h.cut.offset (Nat.le_of_lt hid), List.length_append]
  have hblock : m = (ps.take id).flatten ++ a ++ b
      ++ (c ++ ((ps.drop (id + 1)).flatten ++ [z]) ++ rest) := by
    rw [hm, hmid]
    simp only [List.append_assoc]
  refine ⟨(ps.take id).flatten ++ a ++ w
      ++ (c ++ ((ps.drop (id + 1)).flatten ++ [z]) ++ rest), ?_, ?_, ?_, rest, ?_⟩
  · rw [hpos, hblock]
    exact store_exact _ b w _ hw.symm
  · rw [hblock]
    simp only [List.length_append, hw]
  · exact h.cut.set hid (by rw [hpiece]; simp only [List.length_append, hw])
  · rw [flatten_set ps hid]
    simp only [List.append_assoc]

end SegmentedBuffer
