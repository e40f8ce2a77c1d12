import Mathlib

/-! # Ordered maps with unique keys

    A map that is iterated in ascending key order, kept as its sorted list of
    entries.  The order of the keys is a FIELD of the structure, so no operation
    can build an unsorted map or a map with two entries for one key.

    Every write goes through `alter`, which hands the old value (if any) to a
    function; `insert` keeps an entry that is present, and `insertAll` folds it
    over a list of entries.  The headlines are `find_alter`, `find_insertAll`
    (stored entries win over new ones, and among the new ones the first wins) and
    `ext_find` (equal lookups, equal maps). -/

namespace OrdMap

variable {K V : Type} [LinearOrder K]

/-- Lookup in a list of entries: the first entry for the key. -/
def findL (k : K) : List (K × V) → Option V
  | [] => none
  | (k', v) :: rest => if k = k' then some v else findL k rest

/-- Sorted write of the value `f old` under the key `k`. -/
def alterL (k : K) (f : Option V → V) :
    List (K × V) → List (K × V)
  | [] => [(k, f none)]
  | (k', v') :: rest =>
      if k = k' then (k', f (some v')) :: rest
      else if k < k' then (k, f none) :: (k', v') :: rest
      else (k', v') :: alterL k f rest

/-- Entries in strictly ascending key order. -/
def SortedL (l : List (K × V)) : Prop :=
  l.Pairwise (fun a b => a.1 < b.1)

/-! ## Sorted lists of entries -/

theorem findL_cons (k k' : K) (v : V) (rest : List (K × V)) :
    findL k ((k', v) :: rest) = if k = k' then some v else findL k rest := rfl

/-- A lookup that succeeds returns an entry of the list. -/
theorem mem_of_findL {k : K} {v : V} {l : List (K × V)}
    (h : findL k l = some v) : (k, v) ∈ l := by
  induction l with
  | nil => cases h
  | cons hd rest ih =>
      obtain ⟨k', v'⟩ := hd
      rw [findL_cons] at h
      by_cases hk : k = k'
      · rw [if_pos hk] at h
        rw [hk, Option.some.inj h]
        exact List.mem_cons_self ..
      · rw [if_neg hk] at h
        exact List.mem_cons_of_mem _ (ih h)

/-- A key that no entry has is not found. -/
theorem findL_eq_none {k : K} {l : List (K × V)}
    (h : ∀ e ∈ l, k ≠ e.1) : findL k l = none := by
  induction l with
  | nil => rfl
  | cons hd rest ih =>
      obtain ⟨k', v'⟩ := hd
      rw [findL_cons, if_neg (h (k', v') (List.mem_cons_self ..))]
      exact ih (fun e he => h e (List.mem_cons_of_mem _ he))

/-- In a sorted list every entry is found under its key. -/
theorem findL_of_mem {k : K} {v : V} {l : List (K × V)}
    (hs : SortedL l) (h : (k, v) ∈ l) : findL k l = some v := by
  induction l with
  | nil => cases h
  | cons hd rest ih =>
      obtain ⟨k', v'⟩ := hd
      obtain ⟨hlt, hrest⟩ := List.pairwise_cons.mp hs
      rw [findL_cons]
      rcases List.mem_cons.mp h with heq | hmem
      · obtain ⟨rfl, rfl⟩ := Prod.mk.inj heq
        rw [if_pos rfl]
      · have hne : k ≠ k' := ne_of_gt (hlt (k, v) hmem)
        rw [if_neg hne]
        exact ih hrest hmem

theorem findL_append (k : K) (l l' : List (K × V)) :
    findL k (l ++ l') = (findL k l).or (findL k l') := by
  induction l with
  | nil => exact (Option.none_or ..).symm
  | cons hd rest ih =>
      obtain ⟨k', v'⟩ := hd
      rw [List.cons_append, findL_cons, findL_cons, ih]
      by_cases hk : k = k'
      · rw [if_pos hk, if_pos hk]
        rfl
      · rw [if_neg hk, if_neg hk]

/-- A lookup among mapped elements is a search for the first element whose image
    has the key. -/
theorem findL_map {A : Type} (f : A → K × V) {p : A → Bool} {k : K}
    {l : List A} (hp : ∀ a ∈ l, p a = true ↔ k = (f a).1) :
    findL k (l.map f) = (l.find? p).map (fun a => (f a).2) := by
  induction l with
  | nil => rfl
  | cons a rest ih =>
      have ha := hp a (List.mem_cons_self ..)
      rw [List.map_cons, findL_cons, List.find?_cons]
      cases hpa : p a with
      | true =>
          rw [if_pos (ha.mp hpa)]
          rfl
      | false =>
          rw [if_neg (fun hk => by rw [ha.mpr hk] at hpa; cases hpa)]
          exact ih (fun b hb => hp b (List.mem_cons_of_mem _ hb))

/-- Altering adds at most the altered key. -/
theorem mem_alterL {k : K} {f : Option V → V} {l : List (K × V)}
    {e : K × V} (h : e ∈ alterL k f l) : e.1 = k ∨ e ∈ l := by
  induction l with
  | nil =>
      rw [List.mem_singleton.mp h]
      exact Or.inl rfl
  | cons hd rest ih =>
      obtain ⟨k', v'⟩ := hd
      rw [alterL] at h
      by_cases hk : k = k'
      · rw [if_pos hk] at h
        rcases List.mem_cons.mp h with heq | hmem
        · rw [heq]
          exact Or.inl hk.symm
        · exact Or.inr (List.mem_cons_of_mem _ hmem)
      · rw [if_neg hk] at h
        by_cases hlt : k < k'
        · rw [if_pos hlt] at h
          rcases List.mem_cons.mp h with heq | hmem
          · rw [heq]
            exact Or.inl rfl
          · exact Or.inr hmem
        · rw [if_neg hlt] at h
          rcases List.mem_cons.mp h with heq | hmem
          · exact Or.inr (heq ▸ List.mem_cons_self ..)
          · exact (ih hmem).imp_right (List.mem_cons_of_mem _)

/-- A write keeps the entries sorted. -/
theorem alterL_sorted {k : K} {f : Option V → V} {l : List (K × V)}
    (hs : SortedL l) : SortedL (alterL k f l) := by
  induction l with
  | nil => exact List.pairwise_singleton ..
  | cons hd rest ih =>
      obtain ⟨k', v'⟩ := hd
      obtain ⟨hhd, hrest⟩ := List.pairwise_cons.mp hs
      rw [alterL]
      by_cases hk : k = k'
      · rw [if_pos hk]
        exact List.pairwise_cons.mpr ⟨hhd, hrest⟩
      · rw [if_neg hk]
        by_cases hlt : k < k'
        · rw [if_pos hlt]
          refine List.pairwise_cons.mpr ⟨?_, hs⟩
          intro e he
          rcases List.mem_cons.mp he with heq | hmem
          · rw [heq]
            exact hlt
          · exact lt_trans hlt (hhd e hmem)
        · rw [if_neg hlt]
          refine List.pairwise_cons.mpr ⟨?_, ih hrest⟩
          intro e he
          rcases mem_alterL he with hek | hmem
          · have hgt : k' < k := lt_of_le_of_ne (not_lt.mp hlt) (Ne.symm hk)
            rw [← hek] at hgt
            exact hgt
          · exact hhd e hmem

/-- A write is seen under its own key and under no other. -/
theorem findL_alterL {k k' : K} {f : Option V → V} {l : List (K × V)}
    (hs : SortedL l) :
    findL k (alterL k' f l)
      = if k = k' then some (f (findL k l)) else findL k l := by
  induction l with
  | nil =>
      rw [alterL, findL_cons]
      by_cases hk : k = k'
      · rw [if_pos hk, if_pos hk]
        rfl
      · rw [if_neg hk, if_neg hk]
  | cons hd rest ih =>
      obtain ⟨j, w⟩ := hd
      obtain ⟨hhd, hrest⟩ := List.pairwise_cons.mp hs
      rw [alterL]
      by_cases hj : k' = j
      · rw [if_pos hj, findL_cons, findL_cons, ← hj]
        by_cases hk : k = k'
        · rw [if_pos hk, if_pos hk, if_pos hk]
        · rw [if_neg hk, if_neg hk, if_neg hk]
      · rw [if_neg hj]
        by_cases hlt : k' < j
        · rw [if_pos hlt, findL_cons]
          by_cases hk : k = k'
          · -- the key sits before every stored key, so it was absent
            have habs : findL k ((j, w) :: rest) = none := by
              refine findL_eq_none ?_
              intro e he
              rcases List.mem_cons.mp he with heq | hmem
              · rw [heq, hk]
                exact hj
              · rw [hk]
                exact ne_of_lt (lt_trans hlt (hhd e hmem))
            rw [if_pos hk, if_pos hk, habs]
          · rw [if_neg hk, if_neg hk]
        · rw [if_neg hlt, findL_cons, findL_cons, ih hrest]
          by_cases hk : k = k'
          · rw [if_neg (fun h => hj (hk.symm.trans h)), if_pos hk, if_pos hk,
              if_neg (fun h => hj (hk.symm.trans h))]
          · rw [if_neg hk, if_neg hk]

/-- Sorted lists with the same lookups are the same list. -/
theorem ext_sortedL {l₁ l₂ : List (K × V)} (h₁ : SortedL l₁) (h₂ : SortedL l₂)
    (h : ∀ k, findL k l₁ = findL k l₂) : l₁ = l₂ := by
  have hperm : l₁.Perm l₂ := by
    refine (List.perm_ext_iff_of_nodup ?_ ?_).mpr ?_
    · exact h₁.imp (fun hlt heq => (ne_of_lt hlt) (congrArg Prod.fst heq))
    · exact h₂.imp (fun hlt heq => (ne_of_lt hlt) (congrArg Prod.fst heq))
    · rintro ⟨k, v⟩
      constructor
      · intro hm
        exact mem_of_findL ((h k).symm.trans (findL_of_mem h₁ hm))
      · intro hm
        exact mem_of_findL ((h k).trans (findL_of_mem h₂ hm))
  refine hperm.eq_of_pairwise ?_ h₁ h₂
  intro a b _ _ hab hba
  exact absurd hba (lt_asymm hab)

/-! ## The map -/

/-- An ordered map: its entries, in strictly ascending key order. -/
structure Map (K V : Type) [LinearOrder K] where
  entries : List (K × V)
  sorted : SortedL entries

/-- The map without entries. -/
def empty : Map K V := ⟨[], List.Pairwise.nil⟩

/-- The value stored under a key. -/
def find (k : K) (m : Map K V) : Option V := findL k m.entries

/-- Write `f old` under the key `k`. -/
def alter (k : K) (f : Option V → V) (m : Map K V) : Map K V :=
  ⟨alterL k f m.entries, alterL_sorted m.sorted⟩

/-- Insertion that keeps an entry already present. -/
def insert (k : K) (v : V) (m : Map K V) : Map K V :=
  alter k (fun old => old.getD v) m

/-- Insert a list of entries one by one. -/
def insertAll : List (K × V) → Map K V → Map K V
  | [], m => m
  | (k, v) :: rest, m => insertAll rest (insert k v m)

@[simp] theorem find_empty (k : K) : find k (empty : Map K V) = none := rfl

/-- Altering changes what is found under its key only. -/
theorem find_alter (k k' : K) (f : Option V → V) (m : Map K V) :
    find k (alter k' f m) = if k = k' then some (f (find k m)) else find k m :=
  findL_alterL m.sorted

/-- Inserting keeps the value that is there. -/
theorem find_insert (k k' : K) (v : V) (m : Map K V) :
    find k (insert k' v m)
      = if k = k' then some ((find k m).getD v) else find k m :=
  find_alter k k' _ m

/-- A pass over sorted entries: what only the entry of one key writes is written
    from the value stored under it. -/
theorem foldl_field {A B : Type} {read : A → K × V → A} (f : A → B) (key : K)
    (g : V → B → B) (hset : ∀ a v, f (read a (key, v)) = g v (f a))
    (hframe : ∀ a e, e.1 ≠ key → f (read a e) = f a) :
    ∀ (l : List (K × V)) (a : A), SortedL l →
      f (l.foldl read a) = (findL key l).elim (f a) (fun v => g v (f a)) := by
  intro l
  induction l with
  | nil => exact fun _ _ => rfl
  | cons e rest ih =>
      intro a hs
      obtain ⟨hlt, hrest⟩ := List.pairwise_cons.mp hs
      obtain ⟨key', v⟩ := e
      rw [List.foldl_cons, ih _ hrest, findL_cons]
      by_cases hkey : key = key'
      · -- no later entry has the key
        subst hkey
        have hnone : findL key rest = none :=
          findL_eq_none (fun e he => ne_of_lt (hlt e he))
        rw [hnone, if_pos rfl]
        exact hset a v
      · rw [if_neg hkey, hframe a (key', v) (Ne.symm hkey)]

/-- **EXTENSIONALITY**: equal lookups, equal maps. -/
theorem ext_find {m₁ m₂ : Map K V} (h : ∀ k, find k m₁ = find k m₂) :
    m₁ = m₂ := by
  obtain ⟨l₁, h₁⟩ := m₁
  obtain ⟨l₂, h₂⟩ := m₂
  have heq : l₁ = l₂ := ext_sortedL h₁ h₂ h
  subst heq
  rfl

/-- **FIRST WINS**: a stored entry survives every insertion, and among the
    inserted entries the first one for a key is kept. -/
theorem find_insertAll (k : K) (l : List (K × V)) (m : Map K V) :
    find k (insertAll l m) = (find k m).or (findL k l) := by
  induction l generalizing m with
  | nil =>
      show find k m = (find k m).or none
      rw [Option.or_none]
  | cons hd rest ih =>
      obtain ⟨k', v'⟩ := hd
      rw [insertAll, ih, find_insert, findL_cons]
      by_cases hk : k = k'
      · rw [if_pos hk, if_pos hk]
        cases find k m with
        | none => rfl
        | some v => rfl
      · rw [if_neg hk, if_neg hk]

/-- Inserting the entries of a map into the empty map rebuilds it. -/
theorem insertAll_entries (m : Map K V) : insertAll m.entries empty = m := by
  refine ext_find ?_
  intro k
  rw [find_insertAll, find_empty, Option.none_or]
  rfl

end OrdMap
