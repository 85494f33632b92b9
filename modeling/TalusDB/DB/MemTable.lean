import TalusDB.DB.Recency

/-! Write batches and memtables. A memtable holds its entries in the order of their
keys, as the skip list does. -/
namespace TalusDB
open List

/-- A record of a write batch. -/
inductive Op (K V : Type) where
  | put (key : K) (value : V)
  | delete (key : K)
  deriving DecidableEq, Repr

/-- What `MemTableInserter` adds for the operation. A deletion's value is empty. -/
def Op.entry {K V : Type} [Inhabited V] (sequence : Nat) : Op K V → Entry K V
  | put key value => ⟨⟨key, sequence, .value⟩, value⟩
  | delete key => ⟨⟨key, sequence, .deletion⟩, default⟩

theorem Op.entry_sequence {K V : Type} [Inhabited V] (op : Op K V) (sequence : Nat) :
    (op.entry sequence).sequence = sequence := by
  cases op <;> rfl

namespace MemTable
variable {K V : Type}

/-- The entries of operations that are numbered from `sequence` on. -/
def numbered [Inhabited V] (sequence : Nat) : List (Op K V) → List (Entry K V)
  | [] => []
  | op :: ops => op.entry sequence :: numbered (sequence + 1) ops

@[simp]
theorem numbered_length [Inhabited V] (sequence : Nat) (ops : List (Op K V)) :
    (numbered sequence ops).length = ops.length := by
  induction ops generalizing sequence with
  | nil => rfl
  | cons op ops ih => exact congrArg Nat.succ (ih (sequence + 1))

variable {sequence : Nat} {ops : List (Op K V)} {mem new : List (Entry K V)} {e x : Entry K V}

theorem numbered_spec [Inhabited V] :
    ∀ e ∈ numbered sequence ops, sequence ≤ e.sequence ∧ e.sequence < sequence + ops.length := by
  induction ops generalizing sequence with
  | nil => simp [numbered]
  | cons op ops ih =>
    intro e mem
    rw [length_cons]
    obtain rfl | mem := mem_cons.mp mem
    · rw [Op.entry_sequence]
      omega
    · have bounds := ih e mem
      omega

theorem numbered_increasing [Inhabited V] (sequence : Nat) (ops : List (Op K V)) :
    (numbered sequence ops).Pairwise fun a b => a.sequence < b.sequence := by
  induction ops generalizing sequence with
  | nil => exact .nil
  | cons op ops ih =>
    refine .cons (fun e mem => ?_) (ih (sequence + 1))
    rw [Op.entry_sequence]
    exact Nat.lt_of_succ_le (numbered_spec e mem).1

theorem numbered_unique [Inhabited V] {a b : Entry K V}
    (inA : a ∈ numbered sequence ops) (inB : b ∈ numbered sequence ops)
    (same : a.sequence = b.sequence) : a = b := by
  induction ops generalizing sequence with
  | nil => cases inA
  | cons op ops ih =>
    have first := op.entry_sequence sequence
    obtain rfl | laterA := mem_cons.mp inA <;> obtain rfl | laterB := mem_cons.mp inB
    · rfl
    · have above := (numbered_spec b laterB).1
      omega
    · have above := (numbered_spec a laterA).1
      omega
    · exact ih laterA laterB

variable [LinearOrder K]

/-- `MemTable::Add`. -/
def add (mem : List (Entry K V)) (e : Entry K V) : List (Entry K V) :=
  mem.orderedInsert (fun a b => a.key ≤ b.key) e

/-- `WriteBatchInternal::InsertInto`. -/
def insertInto [Inhabited V] (sequence : Nat) (ops : List (Op K V)) (mem : List (Entry K V)) :
    List (Entry K V) :=
  (numbered sequence ops).foldl add mem

theorem mem_add : x ∈ add mem e ↔ x = e ∨ x ∈ mem := by
  rw [add, (perm_orderedInsert _ e mem).mem_iff, mem_cons]

theorem mem_foldl_add : x ∈ new.foldl add mem ↔ x ∈ new ∨ x ∈ mem := by
  induction new generalizing mem with
  | nil => simp
  | cons e rest ih =>
    rw [foldl_cons, ih, mem_add, mem_cons]
    tauto

theorem foldl_add_perm (mem new : List (Entry K V)) : (new.foldl add mem).Perm (mem ++ new) := by
  induction new generalizing mem with
  | nil => simp
  | cons e rest ih =>
    refine (ih (add mem e)).trans ?_
    refine ((perm_orderedInsert _ e mem).append_right rest).trans ?_
    exact perm_middle.symm

theorem add_between {before after : List (Entry K V)}
    (smaller : ∀ x ∈ before, x.key < e.key) (larger : ∀ x ∈ after, e.key < x.key) :
    add (before ++ after) e = before ++ e :: after := by
  induction before with
  | nil =>
    cases after with
    | nil => rfl
    | cons x after =>
      rw [nil_append, add, orderedInsert_cons, if_pos (larger x mem_cons_self).le]
      rfl
  | cons x before ih =>
    rw [cons_append, add, orderedInsert_cons,
      if_neg (not_le.mpr (smaller x mem_cons_self))]
    exact congrArg (x :: ·) (ih fun y mem => smaller y (mem_cons_of_mem x mem))

theorem add_sorted (sorted : mem.Pairwise fun a b => a.key < b.key)
    (fresh : ∀ x ∈ mem, x.sequence < e.sequence) :
    (add mem e).Pairwise fun a b => a.key < b.key := by
  induction mem with
  | nil => exact pairwise_singleton _ _
  | cons x rest ih =>
    obtain ⟨first, sorted'⟩ := pairwise_cons.mp sorted
    have different : e.key ≠ x.key := fun same =>
      absurd (congrArg (·.sequence) same) (fresh x mem_cons_self).ne'
    have fresh' : ∀ y ∈ rest, y.sequence < e.sequence :=
      fun y mem => fresh y (mem_cons_of_mem x mem)
    by_cases le : e.key ≤ x.key
    · rw [add, orderedInsert_cons, if_pos le]
      refine .cons (fun y mem => ?_) sorted
      have less := lt_of_le_of_ne le different
      obtain rfl | mem := mem_cons.mp mem
      · exact less
      · exact less.trans (first y mem)
    · rw [add, orderedInsert_cons, if_neg le]
      refine .cons (fun y mem => ?_) (ih sorted' fresh')
      obtain rfl | mem := mem_add.mp mem
      · exact not_le.mp le
      · exact first y mem

theorem foldl_add_sorted (sorted : mem.Pairwise fun a b => a.key < b.key)
    (increasing : new.Pairwise fun a b => a.sequence < b.sequence)
    (fresh : ∀ e ∈ new, ∀ x ∈ mem, x.sequence < e.sequence) :
    (new.foldl add mem).Pairwise fun a b => a.key < b.key := by
  induction new generalizing mem with
  | nil => exact sorted
  | cons e rest ih =>
    obtain ⟨first, increasing'⟩ := pairwise_cons.mp increasing
    refine ih (add_sorted sorted (fresh e mem_cons_self)) increasing' ?_
    intro y mem x inside
    obtain rfl | inside := mem_add.mp inside
    · exact first y mem
    · exact fresh y (mem_cons_of_mem e mem) x inside

end MemTable
end TalusDB
