import Mathlib

/-! # Level order

    A loop with a queue: it takes a node from the front, does what the node asks for,
    and puts the children of the node at the back.

    `loop_levels` is the specification: such a loop over a forest goes through the
    levels, one after another, each in the order of its nodes, and it comes to an end as
    soon as some measure of the nodes is larger than that of their children together. -/

namespace LevelOrder

variable {α β ε : Type}

/-- The loop, bounded by a number of turns; a visit gives results and children, or it
    fails. -/
def loop (visit : α → Except ε (List β × List α)) : Nat → List α → Except ε (List β)
  | _, [] => .ok []
  | 0, _ :: _ => .ok []
  | n + 1, a :: queue =>
      (visit a).bind fun r => (loop visit n (queue ++ r.2)).map (r.1 ++ ·)

/-- The nodes `k` levels below these. -/
def level (children : α → List α) : Nat → List α → List α
  | 0, nodes => nodes
  | k + 1, nodes => level children k (nodes.flatMap children)

/-- What the nodes of the first `n` levels ask for. -/
def results (emit : α → List β) (children : α → List α) (n : Nat) (nodes : List α) : List β :=
  (List.range n).flatMap fun k => (level children k nodes).flatMap emit

section Levels

variable {emit : α → List β} {children : α → List α}

/-- The levels of two lists of roots stand side by side. -/
theorem level_append (k : Nat) :
    ∀ nodes nodes' : List α,
      level children k (nodes ++ nodes') = level children k nodes ++ level children k nodes' := by
  induction k with
  | zero => exact fun _ _ => rfl
  | succ k ih =>
      intro nodes nodes'
      rw [level, List.flatMap_append, ih]
      rfl

theorem level_nil (k : Nat) : level children k [] = [] := by
  induction k with
  | zero => rfl
  | succ k ih => exact ih

/-- The levels of some nodes are made of those of each. -/
theorem level_flatMap (k : Nat) (nodes : List α) :
    level children k nodes = nodes.flatMap fun a => level children k [a] := by
  induction nodes with
  | nil => exact level_nil k
  | cons a rest ih =>
      rw [← List.singleton_append, level_append, ih, List.flatMap_append, List.flatMap_singleton]

/-- The first level first, then the levels of its children. -/
theorem results_succ (n : Nat) (nodes : List α) :
    results emit children (n + 1) nodes
      = nodes.flatMap emit ++ results emit children n (nodes.flatMap children) := by
  rw [results, List.range_succ_eq_map, List.flatMap_cons, List.flatMap_map]
  rfl

theorem results_nil (n : Nat) : results emit children n [] = [] := by
  rw [results, List.flatMap_eq_nil_iff]
  intro k _
  rw [level_nil]
  rfl

end Levels

section Loop

variable {visit : α → Except ε (List β × List α)} {emit : α → List β}
  {children : α → List α} {P : α → Prop} {size : α → Nat}

/-- The nodes in front go first; their children queue up behind the others. -/
theorem loop_front (hvisit : ∀ a, P a → visit a = .ok (emit a, children a)) (front : List α) :
    ∀ (n : Nat) (back : List α), (∀ a ∈ front, P a) →
      loop visit (front.length + n) (front ++ back)
        = (loop visit n (back ++ front.flatMap children)).map (front.flatMap emit ++ ·) := by
  induction front with
  | nil =>
      intro n back _
      rw [List.length_nil, Nat.zero_add, List.nil_append]
      show _ = (loop visit n (back ++ [])).map ([] ++ ·)
      rw [List.append_nil]
      cases loop visit n back <;> rfl
  | cons a front ih =>
      intro n back hP
      have hlength : (a :: front).length + n = front.length + n + 1 := by
        rw [List.length_cons]
        omega
      rw [hlength, List.cons_append, loop, hvisit a (hP a (List.mem_cons_self ..))]
      show (loop visit (front.length + n) (front ++ back ++ children a)).map (emit a ++ ·) = _
      rw [List.append_assoc, ih n _ (fun b hb => hP b (List.mem_cons_of_mem _ hb)),
        List.flatMap_cons, List.flatMap_cons, List.append_assoc]
      cases loop visit n (back ++ (children a ++ front.flatMap children)) with
      | error e => rfl
      | ok bs => exact congrArg Except.ok (List.append_assoc ..).symm

/-- **LEVEL BY LEVEL**: if every node of a set is visited without failure, its children
    are in the set, and a node measures more than its children together, then the loop goes
    through the levels one after another. -/
theorem loop_levels (hvisit : ∀ a, P a → visit a = .ok (emit a, children a))
    (hP : ∀ a, P a → ∀ b ∈ children a, P b)
    (hsize : ∀ a, P a → ((children a).map size).sum < size a) :
    ∀ (n : Nat) (nodes : List α) (turns : Nat), (∀ a ∈ nodes, P a) →
      (nodes.map size).sum ≤ n → (nodes.map size).sum ≤ turns →
      loop visit turns nodes = .ok (results emit children n nodes) := by
  have hsum : ∀ nodes : List α, (∀ a ∈ nodes, P a) →
      nodes.length + ((nodes.flatMap children).map size).sum ≤ (nodes.map size).sum := by
    intro nodes
    induction nodes with
    | nil => exact fun _ => Nat.le_refl _
    | cons a rest ih =>
        intro h
        have ha := hsize a (h a (List.mem_cons_self ..))
        have hrest := ih fun b hb => h b (List.mem_cons_of_mem _ hb)
        rw [List.flatMap_cons, List.map_append, List.sum_append, List.length_cons,
          List.map_cons, List.sum_cons]
        omega
  intro n
  induction n with
  | zero =>
      intro nodes turns hnodes hn _
      cases nodes with
      | nil => cases turns <;> rfl
      | cons a rest =>
          have h := hsum (a :: rest) hnodes
          rw [List.length_cons] at h
          omega
  | succ n ih =>
      intro nodes turns hnodes hn hturns
      cases nodes with
      | nil =>
          rw [results_nil]
          cases turns <;> rfl
      | cons a rest =>
          have h := hsum (a :: rest) hnodes
          obtain ⟨more, hmore⟩ : ∃ more, turns = (a :: rest).length + more :=
            ⟨turns - (a :: rest).length, by omega⟩
          have hlength : (a :: rest).length = rest.length + 1 := List.length_cons
          have hchildren : ∀ b ∈ (a :: rest).flatMap children, P b := by
            intro b hb
            obtain ⟨c, hc, hbc⟩ := List.mem_flatMap.mp hb
            exact hP c (hnodes c hc) b hbc
          have hloop := loop_front hvisit (a :: rest) more [] hnodes
          rw [List.append_nil, List.nil_append] at hloop
          rw [hmore, hloop, ih _ _ hchildren (by omega) (by omega), results_succ]
          rfl

end Loop

end LevelOrder
