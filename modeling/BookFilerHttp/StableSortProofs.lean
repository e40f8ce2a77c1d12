import Mathlib

/-! # Insertion behind equal keys

    A list ordered by a key, in which a new element goes behind every element
    with the same or a smaller key.  The headline is `insertEach_eq_mergeSort`:
    inserting elements one by one in this way sorts them STABLY, so the result
    is the merge sort of the elements in their order of insertion.

    A stable sort is pinned down by two facts: it is ordered, and for every key
    the elements with that key stand in their original order
    (`eq_of_filter_eq`). -/

namespace StableSort

variable {α κ : Type} [LinearOrder κ] (key : α → κ)

/-- Insertion behind the last element whose key is not greater. -/
def insertLast (x : α) : List α → List α
  | [] => [x]
  | y :: rest => if key y ≤ key x then y :: insertLast x rest else x :: y :: rest

/-- Insertion of the elements of a list, first to last. -/
def insertEach (xs l : List α) : List α := xs.foldl (fun l x => insertLast key x l) l

/-- Ordered by key, ties allowed. -/
def OrderedBy (l : List α) : Prop := l.Pairwise (fun a b => key a ≤ key b)

/-- The comparison for the merge sort. -/
def keyLe (a b : α) : Bool := decide (key a ≤ key b)

/-- The elements with the key `k`, in their order. -/
def withKey (k : κ) (l : List α) : List α := l.filter (fun a => decide (key a = k))

theorem withKey_cons (k : κ) (a : α) (l : List α) :
    withKey key k (a :: l)
      = if key a = k then a :: withKey key k l else withKey key k l := by
  rw [withKey, List.filter_cons]
  by_cases h : key a = k
  · rw [if_pos h, if_pos (decide_eq_true h), withKey]
  · rw [if_neg h, if_neg (by rw [decide_eq_false h]; exact Bool.false_ne_true), withKey]

/-- The elements of one key, of two lists. -/
theorem withKey_append (k : κ) (l₁ l₂ : List α) :
    withKey key k (l₁ ++ l₂) = withKey key k l₁ ++ withKey key k l₂ :=
  List.filter_append ..

theorem mem_withKey {k : κ} {a : α} {l : List α} :
    a ∈ withKey key k l ↔ a ∈ l ∧ key a = k := by
  rw [withKey, List.mem_filter, decide_eq_true_eq]

/-! ## Insertion -/

/-- Inserting adds the element and loses none. -/
theorem mem_insertLast {x a : α} {l : List α} :
    a ∈ insertLast key x l ↔ a = x ∨ a ∈ l := by
  induction l with
  | nil => simp [insertLast]
  | cons y rest ih =>
      rw [insertLast]
      by_cases h : key y ≤ key x
      · rw [if_pos h, List.mem_cons, ih, List.mem_cons]
        exact or_left_comm
      · rw [if_neg h, List.mem_cons]

/-- The place of the new element. -/
theorem insertLast_split (x : α) (l : List α) :
    ∃ before after, l = before ++ after ∧ insertLast key x l = before ++ x :: after := by
  induction l with
  | nil => exact ⟨[], [], rfl, rfl⟩
  | cons y rest ih =>
      rw [insertLast]
      by_cases h : key y ≤ key x
      · obtain ⟨before, after, hl, hx⟩ := ih
        rw [if_pos h, hx, hl]
        exact ⟨y :: before, after, rfl, rfl⟩
      · rw [if_neg h]
        exact ⟨[], y :: rest, rfl, rfl⟩

/-- An insertion behind its equals keeps the order. -/
theorem insertLast_ordered {x : α} {l : List α} (h : OrderedBy key l) :
    OrderedBy key (insertLast key x l) := by
  induction l with
  | nil => exact List.pairwise_singleton ..
  | cons y rest ih =>
      obtain ⟨hy, hrest⟩ := List.pairwise_cons.mp h
      rw [insertLast]
      by_cases hle : key y ≤ key x
      · rw [if_pos hle]
        refine List.pairwise_cons.mpr ⟨?_, ih hrest⟩
        intro a ha
        rcases (mem_insertLast key).mp ha with rfl | hmem
        · exact hle
        · exact hy a hmem
      · rw [if_neg hle]
        refine List.pairwise_cons.mpr ⟨?_, h⟩
        intro a ha
        have hxy : key x ≤ key y := le_of_lt (not_le.mp hle)
        rcases List.mem_cons.mp ha with rfl | hmem
        · exact hxy
        · exact le_trans hxy (hy a hmem)

/-- Among the elements of one key the new element is the last. -/
theorem insertLast_filter {x : α} {l : List α} (h : OrderedBy key l) (k : κ) :
    withKey key k (insertLast key x l) = withKey key k (l ++ [x]) := by
  induction l with
  | nil => rfl
  | cons y rest ih =>
      obtain ⟨hy, hrest⟩ := List.pairwise_cons.mp h
      rw [insertLast]
      by_cases hle : key y ≤ key x
      · rw [if_pos hle, withKey_cons, ih hrest, List.cons_append, withKey_cons]
      · have hx : withKey key k [x] = if key x = k then [x] else [] :=
          withKey_cons key k x []
        rw [if_neg hle, withKey_append, withKey_cons key k x, hx]
        by_cases hk : key x = k
        · -- every element of the list has a greater key
          have hnone : withKey key k (y :: rest) = [] := by
            rw [List.eq_nil_iff_forall_not_mem]
            intro a ha
            obtain ⟨hmem, hak⟩ := (mem_withKey key).mp ha
            have hlt : key x < key a := by
              rcases List.mem_cons.mp hmem with rfl | hmem
              · exact not_le.mp hle
              · exact lt_of_lt_of_le (not_le.mp hle) (hy a hmem)
            exact absurd (hak.trans hk.symm) (ne_of_gt hlt)
          rw [if_pos hk, if_pos hk, hnone]
          rfl
        · rw [if_neg hk, if_neg hk, List.append_nil]

/-- Inserting one after another keeps the order. -/
theorem insertEach_ordered (xs : List α) :
    ∀ {l : List α}, OrderedBy key l → OrderedBy key (insertEach key xs l) := by
  induction xs with
  | nil => exact fun h => h
  | cons x rest ih => exact fun h => ih (insertLast_ordered key h)

/-- **STABLE**: for each key the inserted elements stand in the order in which they
    came. -/
theorem insertEach_filter (xs : List α) (k : κ) :
    ∀ {l : List α}, OrderedBy key l →
      withKey key k (insertEach key xs l) = withKey key k (l ++ xs) := by
  induction xs with
  | nil =>
      intro l _
      rw [List.append_nil]
      rfl
  | cons x rest ih =>
      intro l h
      show withKey key k (insertEach key rest (insertLast key x l)) = _
      rw [ih (insertLast_ordered key h), withKey_append, insertLast_filter key h,
        ← withKey_append, List.append_assoc]
      rfl

/-! ## Uniqueness of the stable sort -/

/-- Two ordered lists with the same elements of every key, in the same order,
    are the same list. -/
theorem eq_of_filter_eq :
    ∀ {l₁ l₂ : List α}, OrderedBy key l₁ → OrderedBy key l₂ →
      (∀ k, withKey key k l₁ = withKey key k l₂) → l₁ = l₂ := by
  have hmem : ∀ {l l' : List α}, (∀ k, withKey key k l = withKey key k l') →
      ∀ a ∈ l, a ∈ l' := by
    intro l l' h a ha
    have hf := (mem_withKey key).mpr ⟨ha, rfl⟩
    rw [h] at hf
    exact ((mem_withKey key).mp hf).1
  intro l₁
  induction l₁ with
  | nil =>
      intro l₂ _ _ h
      cases l₂ with
      | nil => rfl
      | cons y r₂ => exact nomatch hmem (fun k => (h k).symm) y (List.mem_cons_self ..)
  | cons x r₁ ih =>
      intro l₂ h₁ h₂ h
      cases l₂ with
      | nil => exact nomatch hmem h x (List.mem_cons_self ..)
      | cons y r₂ =>
          obtain ⟨hx, hr₁⟩ := List.pairwise_cons.mp h₁
          obtain ⟨hy, hr₂⟩ := List.pairwise_cons.mp h₂
          have hyx : key y ≤ key x := by
            rcases List.mem_cons.mp (hmem h x (List.mem_cons_self ..)) with rfl | hm
            · exact le_refl _
            · exact hy x hm
          have hxy : key x ≤ key y := by
            rcases List.mem_cons.mp
              (hmem (fun k => (h k).symm) y (List.mem_cons_self ..)) with rfl | hm
            · exact le_refl _
            · exact hx y hm
          have hkey : key y = key x := le_antisymm hyx hxy
          have hhead := h (key x)
          rw [withKey_cons, withKey_cons, if_pos rfl, if_pos hkey] at hhead
          obtain ⟨rfl, -⟩ := List.cons.inj hhead
          have htail : ∀ k, withKey key k r₁ = withKey key k r₂ := by
            intro k
            have hk := h k
            rw [withKey_cons, withKey_cons] at hk
            split at hk
            · exact (List.cons.inj hk).2
            · exact hk
          rw [ih hr₁ hr₂ htail]

theorem keyLe_trans (a b c : α) (hab : keyLe key a b = true)
    (hbc : keyLe key b c = true) : keyLe key a c = true :=
  decide_eq_true (le_trans (of_decide_eq_true hab) (of_decide_eq_true hbc))

theorem keyLe_total (a b : α) : (keyLe key a b || keyLe key b a) = true := by
  rw [Bool.or_eq_true]
  exact (le_total (key a) (key b)).imp decide_eq_true decide_eq_true

/-- The library's sort puts the elements in order. -/
theorem mergeSort_ordered (xs : List α) :
    OrderedBy key (xs.mergeSort (keyLe key)) :=
  (List.pairwise_mergeSort (keyLe_trans key) (keyLe_total key) xs).imp
    (fun h => of_decide_eq_true h)

/-- The merge sort keeps the elements of one key in their order. -/
theorem mergeSort_filter (xs : List α) (k : κ) :
    withKey key k (xs.mergeSort (keyLe key)) = withKey key k xs := by
  have hpair : (withKey key k xs).Pairwise (fun a b => keyLe key a b = true) := by
    rw [List.pairwise_iff_forall_sublist]
    intro a b hab
    have ha := (mem_withKey key).mp (hab.subset (List.mem_cons_self ..))
    have hb := (mem_withKey key).mp
      (hab.subset (List.mem_cons_of_mem _ (List.mem_cons_self ..)))
    exact decide_eq_true (le_of_eq (ha.2.trans hb.2.symm))
  have hsub := List.sublist_mergeSort (keyLe_trans key) (keyLe_total key) hpair
    List.filter_sublist
  have hfilter : List.Sublist (withKey key k xs)
      (withKey key k (xs.mergeSort (keyLe key))) := by
    have h := hsub.filter (fun a => decide (key a = k))
    rwa [List.filter_eq_self.mpr
      (fun a ha => decide_eq_true ((mem_withKey key).mp ha).2)] at h
  exact (hfilter.eq_of_length
    (((List.mergeSort_perm xs _).filter _).length_eq.symm)).symm

/-- **STABLE SORT**: elements inserted one by one behind equal keys are sorted
    stably. -/
theorem insertEach_eq_mergeSort (xs : List α) :
    insertEach key xs [] = xs.mergeSort (keyLe key) := by
  have hnil : OrderedBy key ([] : List α) := List.Pairwise.nil
  refine eq_of_filter_eq key (insertEach_ordered key xs hnil)
    (mergeSort_ordered key xs) ?_
  intro k
  rw [insertEach_filter key xs k hnil, mergeSort_filter, List.nil_append]

end StableSort
