import Mathlib.Data.List.Basic
import Mathlib.Data.Nat.Basic
import Mathlib.Tactic

/-! Searches: the binary search for the end of an initial run of indices, and searches in lists. -/
namespace Search

/-- The loop `while (left < right)`: halves the range, moving `left` above a middle
that lies `below` and `right` down to one that does not. -/
def bisect (below : Nat → Bool) : Nat → Nat → Nat → Nat
  | 0, _, right => right
  | fuel + 1, left, right =>
    if left < right then
      let mid := (left + right) / 2
      if below mid then bisect below fuel (mid + 1) right else bisect below fuel left mid
    else right

/-- `r` cuts the indices under `n` into those that lie `below` and the others. -/
structure Cuts (below : Nat → Bool) (n r : Nat) : Prop where
  bound : r ≤ n
  before : ∀ i < r, below i = true
  after : ∀ i, r ≤ i → i < n → below i = false

theorem bisect_cuts {below : Nat → Bool} {n : Nat}
    (initial : ∀ i j, i ≤ j → j < n → below j = true → below i = true) {fuel left right : Nat}
    (enough : right ≤ left + fuel) (ordered : left ≤ right) (bound : right ≤ n)
    (before : ∀ i < left, below i = true)
    (after : ∀ i, right ≤ i → i < n → below i = false) :
    Cuts below n (bisect below fuel left right) := by
  induction fuel generalizing left right with
  | zero =>
    have same : left = right := by omega
    exact ⟨bound, same ▸ before, after⟩
  | succ fuel ih =>
    rw [bisect]
    by_cases more : left < right
    · rw [if_pos more]
      have middle : left ≤ (left + right) / 2 ∧ (left + right) / 2 < right := by omega
      by_cases low : below ((left + right) / 2) = true
      · rw [if_pos low]
        apply ih (by omega) (by omega) bound _ after
        intro i less
        exact initial i _ (by omega) (by omega) low
      · rw [if_neg low]
        apply ih (by omega) (by omega) (by omega) before
        intro i above less
        by_contra high
        exact low (initial _ i above less (by simpa using high))
    · rw [if_neg more]
      have same : left = right := by omega
      exact ⟨bound, same ▸ before, after⟩

section lists
open List
variable {α β γ : Type*} {l : List α}

theorem findSome_filterMap (f : α → Option β) (g : β → Option γ) (l : List α) :
    (l.filterMap f).findSome? g = l.findSome? fun x => (f x).bind g := by
  induction l with
  | nil => rfl
  | cons x rest ih =>
    rw [filterMap_cons, findSome?_cons]
    cases found : f x <;> simp [findSome?_cons, ih]

theorem findSome_congr {f g : α → Option β} (same : ∀ x ∈ l, f x = g x) :
    l.findSome? f = l.findSome? g := by
  induction l with
  | nil => rfl
  | cons x rest ih =>
    rw [findSome?_cons, findSome?_cons, same x mem_cons_self,
      ih fun y mem => same y (mem_cons_of_mem x mem)]

theorem findSome_filter {f : α → Option β} {p : α → Bool}
    (nothing : ∀ x ∈ l, p x = false → f x = none) : (l.filter p).findSome? f = l.findSome? f := by
  rw [← filterMap_eq_filter, findSome_filterMap]
  refine findSome_congr fun x mem => ?_
  cases keep : p x with
  | true => simp [Option.guard, keep]
  | false => simp [Option.guard, keep, nothing x mem keep]

theorem countP_lt {p q : α → Bool} {x : α} (fewer : ∀ x ∈ l, q x = true → p x = true)
    (mem : x ∈ l) (was : p x = true) (gone : q x = false) : l.countP q < l.countP p := by
  have both : l.filter q = (l.filter p).filter q := by
    rw [filter_filter]
    refine filter_congr fun y mem => ?_
    cases kept : q y <;> simp [fewer y mem, kept]
  rw [countP_eq_length_filter, countP_eq_length_filter, both]
  exact length_filter_lt_length_iff_exists.mpr ⟨x, mem_filter.mpr ⟨mem, was⟩, by simp [gone]⟩

/-- The place to which a scan from `n` on comes. -/
theorem take_add_takeWhile (p : α → Bool) (l : List α) (n : Nat) :
    l.take (n + ((l.drop n).takeWhile p).length) = l.take n ++ (l.drop n).takeWhile p := by
  have front : ((l.drop n).takeWhile p ++ (l.drop n).dropWhile p).take
      ((l.drop n).takeWhile p).length = (l.drop n).takeWhile p := take_left
  rw [takeWhile_append_dropWhile] at front
  rw [take_add, front]

theorem drop_add_takeWhile (p : α → Bool) (l : List α) (n : Nat) :
    l.drop (n + ((l.drop n).takeWhile p).length) = (l.drop n).dropWhile p := by
  have back : ((l.drop n).takeWhile p ++ (l.drop n).dropWhile p).drop
      ((l.drop n).takeWhile p).length = (l.drop n).dropWhile p := drop_left
  rwa [takeWhile_append_dropWhile, drop_drop] at back

end lists
end Search
