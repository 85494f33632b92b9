import Mathlib.Data.List.Nodup
import Mathlib.Logic.Function.Basic

/-! Circular doubly linked lists with a dummy head, by the two links of each node. -/
namespace Circular
open List Function

structure Links (α : Type*) where
  next : α → α
  prev : α → α

namespace Links
variable {α : Type*} [DecidableEq α]

def setNext (links : Links α) (x y : α) : Links α :=
  { links with next := Function.update links.next x y }

def setPrev (links : Links α) (x y : α) : Links α :=
  { links with prev := Function.update links.prev x y }

/-- Takes a node out of its list. -/
def remove (links : Links α) (e : α) : Links α :=
  let links := links.setPrev (links.next e) (links.prev e)
  links.setNext (links.prev e) (links.next e)

/-- Makes a node the last one of a list. -/
def append (links : Links α) (head e : α) : Links α :=
  let links := links.setNext e head
  let links := links.setPrev e (links.prev head)
  let links := links.setNext (links.prev e) e
  links.setPrev (links.next e) e

theorem remove_next (links : Links α) (e n : α) : (links.remove e).next n =
    if n = links.prev e then links.next e else links.next n := by
  simp [remove, setNext, setPrev, update_apply]

theorem remove_prev (links : Links α) (e n : α) : (links.remove e).prev n =
    if n = links.next e then links.prev e else links.prev n := by
  simp [remove, setNext, setPrev, update_apply]

theorem append_next (links : Links α) (head e n : α) : (links.append head e).next n =
    if n = links.prev head then e else if n = e then head else links.next n := by
  simp only [append, setNext, setPrev, update_apply, if_true]

theorem append_prev (links : Links α) {head e : α} (other : links.prev head ≠ e) (n : α) :
    (links.append head e).prev n =
      if n = head then e else if n = e then links.prev head else links.prev n := by
  simp only [append, setNext, setPrev, update_apply, if_true, if_neg other.symm]

/-- The nodes from `x` on, up to the head. -/
def walk (links : Links α) (head : α) : Nat → α → List α
  | 0, _ => []
  | n + 1, x => if x = head then [] else x :: links.walk head n (links.next x)

end Links

section paths
variable {α : Type*} {links links' : Links α}

/-- The links lead from `a` over the nodes of the list to `b`, and back. -/
def Path (links : Links α) : α → List α → α → Prop
  | a, [], b => links.next a = b ∧ links.prev b = a
  | a, x :: xs, b => links.next a = x ∧ links.prev x = a ∧ Path links x xs b

variable {a b e : α} {xs before after : List α}

theorem Path.next_mem (path : Path links a xs b) : links.next a ∈ xs ++ [b] := by
  cases xs with
  | nil =>
    rw [path.1]
    exact mem_singleton_self b
  | cons x xs =>
    rw [path.1]
    exact mem_cons_self

theorem Path.prev_mem (path : Path links a xs b) : links.prev b ∈ a :: xs := by
  induction xs generalizing a with
  | nil =>
    rw [path.2]
    exact mem_singleton_self a
  | cons x xs ih => exact mem_cons_of_mem a (ih path.2.2)

theorem Path.split (path : Path links a (before ++ e :: after) b) :
    Path links a before e ∧ Path links e after b := by
  induction before generalizing a with
  | nil => exact ⟨⟨path.1, path.2.1⟩, path.2.2⟩
  | cons x before ih =>
    obtain ⟨first, second⟩ := ih path.2.2
    exact ⟨⟨path.1, path.2.1, first⟩, second⟩

theorem Path.congr (path : Path links a xs b) (next : ∀ n ∈ a :: xs, links'.next n = links.next n)
    (prev : ∀ n ∈ xs ++ [b], links'.prev n = links.prev n) : Path links' a xs b := by
  induction xs generalizing a with
  | nil =>
    exact ⟨(next a mem_cons_self).trans path.1,
      (prev b (mem_singleton_self b)).trans path.2⟩
  | cons x xs ih =>
    refine ⟨(next a mem_cons_self).trans path.1,
      (prev x mem_cons_self).trans path.2.1, ih path.2.2 ?_ ?_⟩
    · exact fun n isIn => next n (mem_cons_of_mem a isIn)
    · exact fun n isIn => prev n (mem_cons_of_mem x isIn)

theorem Path.unlink
    (path : Path links a (before ++ e :: after) b) (distinct : (a :: (before ++ e :: after)).Nodup)
    (outside : b ∉ before ++ e :: after) (next : links'.next (links.prev e) = links.next e)
    (prev : links'.prev (links.next e) = links.prev e)
    (nextFrame : ∀ n, n ≠ links.prev e → links'.next n = links.next n)
    (prevFrame : ∀ n, n ≠ links.next e → links'.prev n = links.prev n) :
    Path links' a (before ++ after) b := by
  induction before generalizing a with
  | nil =>
    obtain ⟨-, back, following⟩ := path
    rw [back] at next prev nextFrame
    cases after with
    | nil =>
      rw [following.1] at next prev
      exact ⟨next, prev⟩
    | cons x after =>
      obtain ⟨forth, -, rest⟩ := following
      rw [forth] at next prev prevFrame
      obtain ⟨notIn, distinct⟩ := nodup_cons.mp distinct
      have notLater : x ∉ after := (nodup_cons.mp distinct.of_cons).1
      refine ⟨next, prev, rest.congr ?_ ?_⟩
      · intro n isIn
        apply nextFrame
        rintro rfl
        exact notIn (mem_cons_of_mem e isIn)
      · intro n isIn
        apply prevFrame
        rintro rfl
        rcases mem_append.mp isIn with later | last
        · exact notLater later
        · exact outside (mem_singleton.mp last ▸ by simp)
  | cons x before ih =>
    obtain ⟨forth, back, rest⟩ := path
    obtain ⟨notIn, distinct'⟩ := nodup_cons.mp distinct
    obtain ⟨notLater, -⟩ := nodup_cons.mp distinct'
    obtain ⟨upTo, following⟩ := rest.split
    refine ⟨?_, ?_, ih rest distinct' (fun isIn => outside (mem_cons_of_mem x isIn))⟩
    · rw [nextFrame a, forth]
      intro same
      have inside : a ∈ x :: before := same ▸ upTo.prev_mem
      exact notIn (mem_append_left (e :: after) inside)
    · rw [prevFrame x, back]
      intro same
      rcases mem_append.mp (same ▸ following.next_mem : x ∈ after ++ [b]) with later | last
      · exact notLater (mem_append_right before (mem_cons_of_mem e later))
      · exact outside (mem_singleton.mp last ▸ mem_cons_self)

theorem Path.link (path : Path links a xs b)
    (distinct : (a :: xs).Nodup) (outside : b ∉ xs) (fresh : e ∉ a :: xs)
    (forth : links'.next e = b) (back : links'.prev e = links.prev b)
    (next : links'.next (links.prev b) = e) (prev : links'.prev b = e)
    (nextFrame : ∀ n, n ≠ e → n ≠ links.prev b → links'.next n = links.next n)
    (prevFrame : ∀ n, n ≠ e → n ≠ b → links'.prev n = links.prev n) :
    Path links' a (xs ++ [e]) b := by
  induction xs generalizing a with
  | nil =>
    rw [path.2] at back next
    exact ⟨next, back, forth, prev⟩
  | cons x xs ih =>
    obtain ⟨first, second, rest⟩ := path
    obtain ⟨notIn, distinct'⟩ := nodup_cons.mp distinct
    have notA : a ≠ e := by
      rintro rfl
      exact fresh mem_cons_self
    have notX : x ≠ e := by
      rintro rfl
      exact fresh (mem_cons_of_mem a mem_cons_self)
    refine ⟨?_, ?_, ih rest distinct' (fun isIn => outside (mem_cons_of_mem x isIn))
      (fun isIn => fresh (mem_cons_of_mem a isIn))⟩
    · rw [nextFrame a notA, first]
      intro same
      exact notIn (same ▸ rest.prev_mem)
    · rw [prevFrame x notX, second]
      rintro rfl
      exact outside mem_cons_self

end paths

structure Cycle {α : Type*} (links : Links α) (head : α) (xs : List α) : Prop where
  path : Path links head xs head
  distinct : (head :: xs).Nodup

namespace Cycle
variable {α : Type*} {links links' : Links α} {head e : α} {xs : List α}

section
variable (cycle : Cycle links head xs)
include cycle

theorem head_notMem : head ∉ xs :=
  (nodup_cons.mp cycle.distinct).1

theorem congr (next : ∀ n ∈ head :: xs, links'.next n = links.next n)
    (prev : ∀ n ∈ head :: xs, links'.prev n = links.prev n) : Cycle links' head xs := by
  refine ⟨cycle.path.congr next fun n isIn => prev n ?_, cycle.distinct⟩
  rcases mem_append.mp isIn with inside | last
  · exact mem_cons_of_mem head inside
  · rw [mem_singleton.mp last]
    exact mem_cons_self

theorem next_head : links.next head = xs.headD head := by
  cases xs with
  | nil => exact cycle.path.1
  | cons x xs => exact cycle.path.1

theorem next_mem (isIn : e ∈ xs) : links.next e ∈ head :: xs := by
  obtain ⟨before, after, rfl⟩ := append_of_mem isIn
  have following := cycle.path.split.2.next_mem
  simp only [mem_append, mem_cons] at following ⊢
  tauto

theorem prev_mem (isIn : e ∈ xs) : links.prev e ∈ head :: xs := by
  obtain ⟨before, after, rfl⟩ := append_of_mem isIn
  have leading := cycle.path.split.1.prev_mem
  simp only [mem_append, mem_cons] at leading ⊢
  tauto

theorem last_mem : links.prev head ∈ head :: xs :=
  cycle.path.prev_mem

theorem next_ne_prev (isIn : e ∈ xs) (inner : links.prev e ≠ head) :
    links.next e ≠ links.prev e := by
  obtain ⟨before, after, rfl⟩ := append_of_mem isIn
  obtain ⟨leading, following⟩ := cycle.path.split
  have back : links.prev e ∈ before := (mem_cons.mp leading.prev_mem).resolve_left inner
  intro same
  rw [← same] at back inner
  have forth : links.next e ∈ after := by
    rcases mem_append.mp following.next_mem with inside | last
    · exact inside
    · exact absurd (mem_singleton.mp last) inner
  have distinct := (nodup_append.mp cycle.distinct.of_cons).2.2
  exact distinct _ back _ (mem_cons_of_mem e forth) rfl

end

variable [DecidableEq α]

theorem remove (cycle : Cycle links head xs) (isIn : e ∈ xs) :
    Cycle (links.remove e) head (xs.erase e) := by
  obtain ⟨before, after, rfl⟩ := append_of_mem isIn
  have notBefore : e ∉ before := by
    intro inside
    exact (nodup_append.mp cycle.distinct.of_cons).2.2 e inside e mem_cons_self rfl
  rw [erase_append_right _ notBefore, erase_cons_head]
  constructor
  · apply cycle.path.unlink cycle.distinct cycle.head_notMem
    · rw [Links.remove_next, if_pos rfl]
    · rw [Links.remove_prev, if_pos rfl]
    · intro n other
      rw [Links.remove_next, if_neg other]
    · intro n other
      rw [Links.remove_prev, if_neg other]
  · refine cycle.distinct.sublist (List.Sublist.cons_cons head ?_)
    exact (sublist_cons_self e after).append_left before

variable {head' : α} {ys : List α}

variable (cycle : Cycle links head xs)
include cycle

theorem remove_other (isIn : e ∈ xs)
    (other : Cycle links head' ys) (apart : ∀ n ∈ head' :: ys, n ∉ head :: xs) :
    Cycle (links.remove e) head' ys := by
  apply other.congr
  · intro n inside
    rw [Links.remove_next, if_neg]
    rintro rfl
    exact apart _ inside (cycle.prev_mem isIn)
  · intro n inside
    rw [Links.remove_prev, if_neg]
    rintro rfl
    exact apart _ inside (cycle.next_mem isIn)

theorem append (fresh : e ∉ head :: xs) : Cycle (links.append head e) head (xs ++ [e]) := by
  have other : links.prev head ≠ e := by
    rintro rfl
    exact fresh cycle.last_mem
  have notHead : e ≠ head := by
    rintro rfl
    exact fresh mem_cons_self
  constructor
  · apply cycle.path.link cycle.distinct cycle.head_notMem fresh
    · rw [Links.append_next, if_neg other.symm, if_pos rfl]
    · rw [Links.append_prev links other, if_neg notHead, if_pos rfl]
    · rw [Links.append_next, if_pos rfl]
    · rw [Links.append_prev links other, if_pos rfl]
    · intro n notE notLast
      rw [Links.append_next, if_neg notLast, if_neg notE]
    · intro n notE notFirst
      rw [Links.append_prev links other, if_neg notFirst, if_neg notE]
  · rw [← cons_append]
    refine nodup_append.mpr ⟨cycle.distinct, nodup_singleton e, ?_⟩
    rintro x inside y isE rfl
    exact fresh (mem_singleton.mp isE ▸ inside)

theorem append_other (fresh : e ∉ head :: xs) (other : Cycle links head' ys)
    (apart : ∀ n ∈ head' :: ys, n ∉ head :: xs) (without : e ∉ head' :: ys) :
    Cycle (links.append head e) head' ys := by
  have notLast : links.prev head ≠ e := by
    rintro rfl
    exact fresh cycle.last_mem
  apply other.congr
  · intro n inside
    rw [Links.append_next, if_neg, if_neg]
    · rintro rfl
      exact without inside
    · rintro rfl
      exact apart _ inside cycle.last_mem
  · intro n inside
    rw [Links.append_prev links notLast, if_neg, if_neg]
    · rintro rfl
      exact without inside
    · rintro rfl
      exact apart _ inside mem_cons_self

theorem walk_eq {fuel : Nat} (enough : xs.length < fuel) :
    links.walk head fuel (links.next head) = xs := by
  have walks {a : α} {ys : List α} {n : Nat} (path : Path links a ys head) (outside : head ∉ ys)
      (enough : ys.length < n) : links.walk head n (links.next a) = ys := by
    induction ys generalizing a n with
    | nil =>
      obtain ⟨n, rfl⟩ := Nat.exists_eq_succ_of_ne_zero (Nat.ne_zero_of_lt enough)
      rw [path.1, Links.walk, if_pos rfl]
    | cons y ys ih =>
      obtain ⟨n, rfl⟩ := Nat.exists_eq_succ_of_ne_zero (Nat.ne_zero_of_lt enough)
      have other : y ≠ head := by
        rintro rfl
        exact outside mem_cons_self
      rw [path.1, Links.walk, if_neg other, ih path.2.2
        (fun inside => outside (mem_cons_of_mem y inside)) (Nat.lt_of_succ_lt_succ enough)]
  exact walks cycle.path cycle.head_notMem enough

end Cycle
end Circular
