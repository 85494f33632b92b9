import Mathlib.Data.List.Basic

/-! Objects that count the references to them and go with the last one. -/
namespace RefCount
open List
variable {β : Type*}

structure Node (β : Type*) where
  id : Nat
  value : β
  refs : Nat

def ref (id : Nat) (nodes : List (Node β)) : List (Node β) :=
  nodes.map fun n => if n.id = id then { n with refs := n.refs + 1 } else n

def unref (id : Nat) (nodes : List (Node β)) : List (Node β) :=
  nodes.filterMap fun n =>
    if n.id = id then if n.refs ≤ 1 then none else some { n with refs := n.refs - 1 } else some n

/-- The counts are those of the references that are held. -/
structure Counted (nodes : List (Node β)) (holders : List (Nat × β)) : Prop where
  refs : ∀ n ∈ nodes, n.refs = holders.countP (·.1 = n.id)
  listed : ∀ h ∈ holders, ∃ n ∈ nodes, n.id = h.1 ∧ n.value = h.2

namespace Counted
variable {nodes : List (Node β)} {holders holders' : List (Nat × β)} {h : Nat × β}

theorem perm (counted : Counted nodes holders) (same : holders.Perm holders') :
    Counted nodes holders' where
  refs n mem := (counted.refs n mem).trans (same.countP_eq _)
  listed h mem := counted.listed h (same.mem_iff.mpr mem)

theorem push (counted : Counted nodes holders) {id : Nat} (fresh : ∀ n ∈ nodes, n.id ≠ id)
    (value : β) : Counted (nodes ++ [⟨id, value, 1⟩]) ((id, value) :: holders) where
  refs n mem := by
    obtain mem | mem := mem_append.mp mem
    · rw [countP_cons_of_neg (by simpa using (fresh n mem).symm)]
      exact counted.refs n mem
    · rw [mem_singleton.mp mem, countP_cons_of_pos (by simp)]
      have none : holders.countP (·.1 = id) = 0 := by
        rw [countP_eq_zero]
        intro h inside same
        obtain ⟨n, mem, isId, -⟩ := counted.listed h inside
        exact fresh n mem (isId.trans (by simpa using same))
      rw [none]
  listed h mem := by
    obtain rfl | mem := mem_cons.mp mem
    · exact ⟨_, mem_append_right _ (mem_singleton_self _), rfl, rfl⟩
    · obtain ⟨n, inside, same⟩ := counted.listed h mem
      exact ⟨n, mem_append_left _ inside, same⟩

theorem ref (counted : Counted nodes holders) (mem : h ∈ holders) :
    Counted (ref h.1 nodes) (h :: holders) where
  refs n inside := by
    obtain ⟨m, inNodes, rfl⟩ := mem_map.mp inside
    have refs := counted.refs m inNodes
    by_cases here : m.id = h.1
    · rw [if_pos here, countP_cons_of_pos (by simp [here])]
      exact congrArg (· + 1) refs
    · rw [if_neg here, countP_cons_of_neg (by simpa using Ne.symm here)]
      exact refs
  listed g inside := by
    have held : g ∈ holders := (mem_cons.mp inside).elim (· ▸ mem) id
    obtain ⟨n, inNodes, isId, same⟩ := counted.listed g held
    refine ⟨_, mem_map_of_mem inNodes, ?_⟩
    split
    · exact ⟨isId, same⟩
    · exact ⟨isId, same⟩

theorem unref (counted : Counted nodes (h :: holders)) : Counted (unref h.1 nodes) holders where
  refs n inside := by
    obtain ⟨m, inNodes, left⟩ := mem_filterMap.mp inside
    have refs := counted.refs m inNodes
    by_cases here : m.id = h.1
    · rw [if_pos here] at left
      rw [countP_cons_of_pos (by simp [here])] at refs
      split at left
      · cases left
      · cases left
        simp only [refs, Nat.add_sub_cancel]
    · rw [if_neg here] at left
      cases left
      rwa [countP_cons_of_neg (by simpa using Ne.symm here)] at refs
  listed g inside := by
    obtain ⟨n, inNodes, isId, same⟩ := counted.listed g (mem_cons_of_mem h inside)
    by_cases here : n.id = h.1
    · have refs := counted.refs n inNodes
      have some : 0 < holders.countP (·.1 = n.id) :=
        countP_pos_iff.mpr ⟨g, inside, by simp [isId]⟩
      rw [countP_cons_of_pos (by simp [here])] at refs
      refine ⟨{ n with refs := n.refs - 1 }, mem_filterMap.mpr ⟨n, inNodes, ?_⟩, isId, same⟩
      rw [if_pos here, if_neg (by omega)]
    · exact ⟨n, mem_filterMap.mpr ⟨n, inNodes, if_neg here⟩, isId, same⟩

end Counted

variable {id : Nat} {nodes : List (Node β)} {n : Node β}

theorem mem_unref (mem : n ∈ unref id nodes) : ∃ m ∈ nodes, m.id = n.id ∧ m.value = n.value := by
  obtain ⟨m, inNodes, left⟩ := mem_filterMap.mp mem
  split at left
  · split at left <;> cases left
    exact ⟨m, inNodes, rfl, rfl⟩
  · cases left
    exact ⟨n, inNodes, rfl, rfl⟩

theorem mem_ref (mem : n ∈ ref id nodes) : ∃ m ∈ nodes, m.id = n.id ∧ m.value = n.value := by
  obtain ⟨m, inNodes, rfl⟩ := mem_map.mp mem
  refine ⟨m, inNodes, ?_⟩
  split
  · exact ⟨rfl, rfl⟩
  · exact ⟨rfl, rfl⟩

end RefCount
