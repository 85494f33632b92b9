import TalusDB.Lib.Cursor

/-! `MergingIterator`: one iterator over the union of what its children run through. -/
namespace TalusDB
open Cursor List Option Iterator
variable {K ν σ : Type}

inductive Direction where
  | forward
  | reverse
  deriving DecidableEq, Repr

/-- `current_` is kept as the place of the child that it points to. -/
structure MergingIterator (σ : Type) where
  children : List σ
  current : Option Nat := none
  direction : Direction := .forward

namespace MergingIterator

/-- The loop over the children of one place and up, which may leave one child out. -/
def forEach (skip : Option Nat) (move : σ → Option σ) : Nat → List σ → Option (List σ)
  | _, [] => some []
  | i, child :: rest =>
    (if skip = some i then some child else move child).bind fun child' =>
      (forEach skip move (i + 1) rest).map (child' :: ·)

section
variable [LinearOrder K] (it : Iterator K ν σ)

/-- The loop of `FindSmallest` and `FindLargest`: a child that is valid is taken when it is the
first, or `better` than the one that is held. -/
def pick (better : K → K → Bool) (children : List (σ × Nat)) : Option (K × Nat) :=
  children.foldl (fun held child =>
    match it.entry child.1, held with
    | none, _ => held
    | some e, none => some (e.1, child.2)
    | some e, some best => if better e.1 best.1 then some (e.1, child.2) else held) none

def findSmallest (children : List σ) : Option Nat :=
  (pick it (fun k best => k < best) children.zipIdx).map (·.2)

def findLargest (children : List σ) : Option Nat :=
  (pick it (fun k best => best < k) children.zipIdx.reverse).map (·.2)

/-- What `Next` does with another child when the direction changes. -/
def forwardTo (key : K) (child : σ) : Option σ := do
  let child ← it.step (.seek key) child
  if (it.entry child).any (·.1 = key) then it.step .next child else some child

/-- What `Prev` does with another child when the direction changes. -/
def backwardTo (key : K) (child : σ) : Option σ := do
  let child ← it.step (.seek key) child
  if it.valid child then it.step .prev child else it.step .seekToLast child

def entry (m : MergingIterator σ) : Option (K × ν) := do
  let current ← m.current
  it.entry (← m.children[current]?)

/-- The children when `Next` or `Prev` has seen to the direction: where it changes, all but the
current one are moved. -/
def turn (m : MergingIterator σ) (direction : Direction) (others : σ → Option σ) :
    Option (List σ) :=
  if m.direction = direction then some m.children else forEach m.current others 0 m.children

/-- `Next` and `Prev`. -/
def advance (m : MergingIterator σ) (direction : Direction) (others : K → σ → Option σ) (op : Cursor.Op K)
    (find : List σ → Option Nat) : Option (MergingIterator σ) := do
  let current ← m.current
  let e ← m.entry it
  let children ← m.turn direction (others e.1)
  let child ← it.step op (← children[current]?)
  some
    { children := children.set current child
      current := find (children.set current child)
      direction }

def step (m : MergingIterator σ) : Cursor.Op K → Option (MergingIterator σ)
  | .seekToFirst => do
    let children ← forEach none (it.step .seekToFirst) 0 m.children
    some { children, current := findSmallest it children, direction := .forward }
  | .seekToLast => do
    let children ← forEach none (it.step .seekToLast) 0 m.children
    some { children, current := findLargest it children, direction := .reverse }
  | .seek target => do
    let children ← forEach none (it.step (.seek target)) 0 m.children
    some { children, current := findSmallest it children, direction := .forward }
  | .next => m.advance it .forward (forwardTo it) .next (findSmallest it)
  | .prev => m.advance it .reverse (backwardTo it) .prev (findLargest it)

def iterator : Iterator K ν (MergingIterator σ) where
  entry := entry it
  ok m := m.children.all it.ok
  step op m := m.step it op

/-- All entries of the lists, by their keys. -/
def sortedUnion (lists : List (List (K × ν))) : List (K × ν) :=
  lists.flatten.insertionSort fun a b => a.1 ≤ b.1

end

/-- What the loop brings about at each place. `marks` is what the places are known by. -/
theorem forEach_spec {β : Type} {marks : List β} {children : List σ} (skip : Option Nat)
    (move : σ → Option σ) (Q : Nat → β → σ → Prop) (first : Nat)
    (length : children.length = marks.length)
    (moves : ∀ i mark child, marks[i]? = some mark → children[i]? = some child →
      skip ≠ some (first + i) → ∃ child', move child = some child' ∧ Q (first + i) mark child')
    (stays : ∀ i mark child, marks[i]? = some mark → children[i]? = some child →
      skip = some (first + i) → Q (first + i) mark child) :
    ∃ children', forEach skip move first children = some children' ∧
      children'.length = marks.length ∧ ∀ (i : Nat) mark child', marks[i]? = some mark →
        children'[i]? = some child' → Q (first + i) mark child' := by
  induction children generalizing marks first with
  | nil =>
    refine ⟨[], rfl, length, ?_⟩
    simp
  | cons child rest ih =>
    obtain ⟨mark, marks, rfl⟩ := exists_cons_of_length_eq_add_one length.symm
    have shift (i : Nat) : first + 1 + i = first + (i + 1) := by omega
    obtain ⟨rest', went, length', others⟩ := @ih marks (first + 1) (by simpa using length)
      (fun i mark c isMark isC other => by
        rw [shift] at other ⊢
        exact moves (i + 1) mark c isMark isC other)
      (fun i mark c isMark isC same => by
        rw [shift] at same ⊢
        exact stays (i + 1) mark c isMark isC same)
    have head : ∃ child', (if skip = some first then some child else move child) = some child' ∧
        Q first mark child' := by
      by_cases same : skip = some first
      · exact ⟨child, if_pos same, stays 0 mark child rfl rfl same⟩
      · obtain ⟨child', moved, holds⟩ := moves 0 mark child rfl rfl same
        exact ⟨child', (if_neg same).trans moved, holds⟩
    obtain ⟨child', moved, holds⟩ := head
    refine ⟨child' :: rest', ?_, by simp [length'], fun i mark' c isMark isC => ?_⟩
    · rw [forEach, moved, bind_some, went, map_some]
    · cases i with
      | zero =>
        cases isMark
        cases isC
        exact holds
      | succ i =>
        rw [← shift]
        exact others i mark' c isMark isC

theorem pick_spec {it : Iterator K ν σ} {better le : K → K → Bool}
    (isBetter : ∀ a b, better a b = !le b a) (refl : ∀ k, le k k = true)
    (trans : ∀ a b c, le a b = true → le b c = true → le a c = true)
    (total : ∀ a b, le a b = false → le b a = true) (children : List (σ × Nat)) :
    match pick it better children with
    | none => ∀ child ∈ children, it.entry child.1 = none
    | some best => (∃ child ∈ children, ∃ e, it.entry child.1 = some e ∧ best = (e.1, child.2)) ∧
        ∀ child ∈ children, ∀ e, it.entry child.1 = some e → le best.1 e.1 = true := by
  induction children using List.reverseRecOn with
  | nil => simp [pick]
  | append_singleton children child ih =>
    rw [pick, foldl_append]
    simp only [pick] at ih
    generalize children.foldl _ none = held at ih ⊢
    cases shown : it.entry child.1 with
    | none =>
      cases held with
      | none =>
        simp only [foldl_cons, foldl_nil, shown, mem_append, mem_singleton]
        rintro c (mem | rfl)
        · exact ih c mem
        · exact shown
      | some best =>
        obtain ⟨⟨c, mem, e, isE, rfl⟩, least⟩ := ih
        simp only [foldl_cons, foldl_nil, shown, mem_append, mem_singleton]
        refine ⟨⟨c, .inl mem, e, isE, rfl⟩, ?_⟩
        rintro d (inside | rfl) x isX
        · exact least d inside x isX
        · cases shown.symm.trans isX
    | some e =>
      cases held with
      | none =>
        simp only [foldl_cons, foldl_nil, shown, mem_append, mem_singleton]
        refine ⟨⟨child, .inr rfl, e, shown, rfl⟩, ?_⟩
        rintro d (inside | rfl) x isX
        · cases (ih d inside).symm.trans isX
        · cases shown.symm.trans isX
          exact refl _
      | some best =>
        obtain ⟨⟨c, mem, b, isB, rfl⟩, least⟩ := ih
        simp only [foldl_cons, foldl_nil, shown]
        by_cases wins : better e.1 b.1 = true
        · simp only [if_pos wins, mem_append, mem_singleton]
          rw [isBetter, Bool.not_eq_true'] at wins
          refine ⟨⟨child, .inr rfl, e, shown, rfl⟩, ?_⟩
          rintro d (inside | rfl) x isX
          · exact trans _ _ _ (total _ _ wins) (least d inside x isX)
          · cases shown.symm.trans isX
            exact refl _
        · simp only [if_neg wins, mem_append, mem_singleton]
          rw [isBetter, Bool.not_eq_true', Bool.not_eq_false] at wins
          refine ⟨⟨c, .inl mem, b, isB, rfl⟩, ?_⟩
          rintro d (inside | rfl) x isX
          · exact least d inside x isX
          · cases shown.symm.trans isX
            exact wins

end MergingIterator

namespace Direction

/-- The first entry of the list in this direction that has the property. -/
def first (p : K × ν → Bool) (xs : List (K × ν)) : Direction → Option (K × ν)
  | .forward => xs.find? p
  | .reverse => xs.reverse.find? p

section
variable {d : Direction} {p q : K × ν → Bool} {xs : List (K × ν)}

theorem first_congr (same : ∀ x ∈ xs, p x = q x) : d.first p xs = d.first q xs := by
  cases d
  · exact List.find?_congr same
  · exact List.find?_congr fun x mem => same x (mem_reverse.mp mem)

theorem first_eq_none : d.first p xs = none ↔ ∀ x ∈ xs, p x = false := by
  cases d <;> simp [first]

end

variable [LinearOrder K]

/-- In this direction the one key comes no later than the other. -/
def le : Direction → K → K → Bool
  | .forward, a, b => a ≤ b
  | .reverse, a, b => b ≤ a

def best (it : Iterator K ν σ) (children : List σ) : Direction → Option Nat
  | .forward => MergingIterator.findSmallest it children
  | .reverse => MergingIterator.findLargest it children

variable {d : Direction} {a b c : K} {p q : K × ν → Bool} {xs : List (K × ν)} {e : K × ν}
  {it : Iterator K ν σ} {children : List σ}

theorem le_trans (ab : d.le a b = true) (bc : d.le b c = true) : d.le a c = true := by
  cases d <;> simp only [le, decide_eq_true_eq] at *
  · exact ab.trans bc
  · exact bc.trans ab

theorem le_refl : d.le a a = true := by
  cases d <;> simp [le]

theorem le_of_not_le (back : d.le b a = false) : d.le a b = true := by
  cases d <;> simp only [le, decide_eq_false_iff_not, not_le, decide_eq_true_eq] at *
  · exact back.le
  · exact back.le

theorem le_eq_not (different : a ≠ b) : d.le a b = !d.le b a := by
  cases ba : d.le b a with
  | false => exact le_of_not_le ba
  | true =>
    simp only [Bool.not_true, ← Bool.not_eq_true]
    intro ab
    cases d <;> simp only [le, decide_eq_true_eq] at ab ba
    · exact different (ab.antisymm ba)
    · exact different (ba.antisymm ab)

theorem first_iff (sorted : Sorted xs) :
    d.first p xs = some e ↔ e ∈ xs ∧ p e = true ∧ ∀ x ∈ xs, p x = true → d.le e.1 x.1 = true := by
  cases d
  · simpa only [first, le, decide_eq_true_eq] using sorted.find_eq_some_iff
  · simpa only [first, le, decide_eq_true_eq] using sorted.findLast_eq_some_iff

/-- The place is that of a child whose entry comes first, if there is one. -/
def Leads (d : Direction) (it : Iterator K ν σ) (children : List σ) : Option Nat → Prop
  | none => ∀ (i : Nat) (child : σ), children[i]? = some child → it.entry child = none
  | some i => ∃ child e, children[i]? = some child ∧ it.entry child = some e ∧
      ∀ (j : Nat) (other : σ) (x : K × ν), children[j]? = some other → it.entry other = some x →
        d.le e.1 x.1 = true

theorem best_leads : d.Leads it children (d.best it children) := by
  have picked {better : K → K → Bool} {list : List (σ × Nat)}
      (isBetter : ∀ a b, better a b = !d.le b a)
      (isList : ∀ child, child ∈ list ↔ children[child.2]? = some child.1) :
      d.Leads it children ((MergingIterator.pick it better list).map (·.2)) := by
    have spec := @MergingIterator.pick_spec K ν σ it better d.le isBetter (fun _ => le_refl)
      (fun _ _ _ => le_trans) (fun _ _ => le_of_not_le) list
    cases isPick : MergingIterator.pick it better list with
    | none =>
      simp only [isPick] at spec
      exact fun i child isChild => spec (child, i) ((isList (child, i)).mpr isChild)
    | some best =>
      simp only [isPick] at spec
      obtain ⟨⟨child, mem, e, shown, rfl⟩, least⟩ := spec
      exact ⟨child.1, e, (isList child).mp mem, shown, fun j other x isOther =>
        least (other, j) ((isList (other, j)).mpr isOther) x⟩
  cases d with
  | forward =>
    refine picked (fun a b => ?_) fun child => mem_zipIdx_iff_getElem?
    simp [le, ← not_le]
  | reverse =>
    refine picked (fun a b => ?_) fun child =>
      mem_reverse.trans mem_zipIdx_iff_getElem?
    simp [le, ← not_le]

end Direction

namespace MergingIterator
variable [LinearOrder K] {it : Iterator K ν σ} {Inv : List (K × ν) → σ → Prop}
  {lists : List (List (K × ν))} {children : List σ} {m m' : MergingIterator σ} {d : Direction}
  {p : K × ν → Bool} {e : K × ν}

/-- The children behave as cursors over these lists, which have no key in common. -/
structure Family (it : Iterator K ν σ) (Inv : List (K × ν) → σ → Prop)
    (lists : List (List (K × ν))) : Prop where
  behaves : ∀ xs ∈ lists, Behaves it xs (Inv xs)
  sorted : ∀ xs ∈ lists, Sorted xs
  distinct : (lists.flatten.map Prod.fst).Nodup

theorem Family.apart (family : Family it Inv lists) {i j : Nat} {xs ys : List (K × ν)}
    {x y : K × ν} (isXs : lists[i]? = some xs) (isYs : lists[j]? = some ys) (inXs : x ∈ xs)
    (inYs : y ∈ ys) (same : x.1 = y.1) : i = j := by
  have distinct := family.distinct
  rw [map_flatten, nodup_flatten, pairwise_iff_getElem] at distinct
  obtain ⟨boundI, rfl⟩ := List.getElem?_eq_some_iff.mp isXs
  obtain ⟨boundJ, rfl⟩ := List.getElem?_eq_some_iff.mp isYs
  have apart (i j : Nat) (boundI : i < lists.length) (boundJ : j < lists.length) (less : i < j)
      {x y : K × ν} (inX : x ∈ lists[i]) (inY : y ∈ lists[j]) : x.1 ≠ y.1 := by
    intro same
    have disjoint := distinct.2 i j (by simpa) (by simpa) less
    simp only [getElem_map] at disjoint
    exact disjoint (mem_map_of_mem inX) (same ▸ mem_map_of_mem inY)
  obtain less | rfl | less := Nat.lt_trichotomy i j
  · exact absurd same (apart i j boundI boundJ less inXs inYs)
  · rfl
  · exact absurd same.symm (apart j i boundJ boundI less inYs inXs)

theorem mem_sortedUnion : e ∈ sortedUnion lists ↔ ∃ (i : Nat) (xs : List (K × ν)),
    lists[i]? = some xs ∧ e ∈ xs := by
  rw [sortedUnion, mem_insertionSort, mem_flatten]
  constructor
  · rintro ⟨xs, mem, inside⟩
    obtain ⟨i, isXs⟩ := mem_iff_getElem?.mp mem
    exact ⟨i, xs, isXs, inside⟩
  · rintro ⟨i, xs, isXs, inside⟩
    exact ⟨xs, mem_of_getElem? isXs, inside⟩

theorem Family.union_sorted (family : Family it Inv lists) : Sorted (sortedUnion lists) := by
  have total : Std.Total fun a b : K × ν => a.1 ≤ b.1 := ⟨fun a b => le_total a.1 b.1⟩
  have trans : IsTrans (K × ν) fun a b => a.1 ≤ b.1 := ⟨fun a b c => le_trans⟩
  have ordered : (sortedUnion lists).Pairwise fun a b => a.1 ≤ b.1 :=
    pairwise_insertionSort _ _
  have nodup : (sortedUnion lists).Pairwise fun a b => a.1 ≠ b.1 := by
    have perm := (perm_insertionSort (fun a b : K × ν => a.1 ≤ b.1) lists.flatten).map Prod.fst
    exact pairwise_map.mp (perm.nodup_iff.mpr family.distinct)
  exact (ordered.and nodup).imp fun both => lt_of_le_of_ne both.1 both.2

/-- The children keep what they keep, and stand where it says. -/
structure Placed (it : Iterator K ν σ) (Inv : List (K × ν) → σ → Prop)
    (lists : List (List (K × ν))) (children : List σ)
    (place : List (K × ν) → Option (K × ν)) : Prop where
  length : children.length = lists.length
  child : ∀ (i : Nat) (xs : List (K × ν)) (child : σ), lists[i]? = some xs →
    children[i]? = some child → Inv xs child ∧ it.entry child = place xs

/-- The children keep what they keep. Where the iterator is valid, each stands at its first entry
from the current key on, in the iterator's direction. -/
structure Holds (it : Iterator K ν σ) (Inv : List (K × ν) → σ → Prop)
    (lists : List (List (K × ν))) (m : MergingIterator σ) : Prop where
  length : m.children.length = lists.length
  child : ∀ (i : Nat) (xs : List (K × ν)) (child : σ), lists[i]? = some xs →
    m.children[i]? = some child → Inv xs child
  stands : ∀ e, m.entry it = some e → ∀ (i : Nat) (xs : List (K × ν)) (child : σ),
    lists[i]? = some xs → m.children[i]? = some child →
      it.entry child = m.direction.first (fun x => m.direction.le e.1 x.1) xs

/-- When all children stand at their first entries with a property that later keys have too, the
one that is found stands at the first entry of the union. -/
theorem Placed.found (family : Family it Inv lists)
    (onward : ∀ x y, p x = true → d.le x.1 y.1 = true → p y = true)
    (placed : Placed it Inv lists children (d.first p)) :
    Holds it Inv lists ⟨children, d.best it children, d⟩ ∧
      entry it ⟨children, d.best it children, d⟩ = d.first p (sortedUnion lists) := by
  have exists_list {i : Nat} {child : σ} (isChild : children[i]? = some child) :
      ∃ xs, lists[i]? = some xs := by
    have bound := (List.getElem?_eq_some_iff.mp isChild).1
    rw [placed.length] at bound
    exact ⟨lists[i], List.getElem?_eq_getElem bound⟩
  have exists_child {i : Nat} {xs : List (K × ν)} (isXs : lists[i]? = some xs) :
      ∃ child, children[i]? = some child := by
    have bound := (List.getElem?_eq_some_iff.mp isXs).1
    rw [← placed.length] at bound
    exact ⟨children[i], List.getElem?_eq_getElem bound⟩
  have leads : d.Leads it children (d.best it children) := Direction.best_leads
  have keeps : ∀ (i : Nat) (xs : List (K × ν)) (child : σ), lists[i]? = some xs →
      children[i]? = some child → Inv xs child :=
    fun i xs child isXs isChild => (placed.child i xs child isXs isChild).1
  cases found : d.best it children with
  | none =>
    rw [found] at leads
    refine ⟨⟨placed.length, keeps, fun e isE => by cases isE⟩, ?_⟩
    symm
    rw [entry, bind_eq_bind, bind_none, Direction.first_eq_none]
    intro x mem
    obtain ⟨i, xs, isXs, inside⟩ := mem_sortedUnion.mp mem
    obtain ⟨child, isChild⟩ := exists_child isXs
    have none := leads i child isChild
    rw [(placed.child i xs child isXs isChild).2, Direction.first_eq_none] at none
    exact none x inside
  | some c =>
    rw [found] at leads
    obtain ⟨child, e, isChild, shown, least⟩ := leads
    have isEntry : entry it ⟨children, some c, d⟩ = some e := by
      simp [entry, isChild, shown]
    -- no entry with the property comes before `e`
    have first : ∀ (i : Nat) (xs : List (K × ν)), lists[i]? = some xs → ∀ x ∈ xs, p x = true →
        d.le e.1 x.1 = true := by
      intro i xs isXs x mem holds
      obtain ⟨other, isOther⟩ := exists_child isXs
      have place := (placed.child i xs other isXs isOther).2
      have sorted := family.sorted xs (mem_of_getElem? isXs)
      cases ahead : d.first p xs with
      | none =>
        rw [Direction.first_eq_none.mp ahead x mem] at holds
        cases holds
      | some y =>
        exact Direction.le_trans (least i other y isOther (place.trans ahead))
          (((Direction.first_iff sorted).mp ahead).2.2 x mem holds)
    obtain ⟨xs, isXs⟩ := exists_list isChild
    have sorted := family.sorted xs (mem_of_getElem? isXs)
    have isFirst := ((placed.child c xs child isXs isChild).2.symm.trans shown)
    obtain ⟨inside, holds, -⟩ := (Direction.first_iff sorted).mp isFirst
    refine ⟨⟨placed.length, keeps, fun e' isE' i ys other isYs isOther => ?_⟩, ?_⟩
    · cases isEntry.symm.trans isE'
      rw [(placed.child i ys other isYs isOther).2]
      refine Direction.first_congr fun x mem => ?_
      rw [Bool.eq_iff_iff]
      exact ⟨first i ys isYs x mem, onward e x holds⟩
    · symm
      rw [isEntry, Direction.first_iff family.union_sorted]
      refine ⟨mem_sortedUnion.mpr ⟨c, xs, isXs, inside⟩, holds, fun x mem isP => ?_⟩
      obtain ⟨i, ys, isYs, inYs⟩ := mem_sortedUnion.mp mem
      exact first i ys isYs x inYs isP

theorem Family.list (family : Family it Inv lists) {i : Nat} {xs : List (K × ν)}
    (isXs : lists[i]? = some xs) : Behaves it xs (Inv xs) ∧ Sorted xs :=
  ⟨family.behaves xs (mem_of_getElem? isXs), family.sorted xs (mem_of_getElem? isXs)⟩

theorem Holds.seek (family : Family it Inv lists) (holds : Holds it Inv lists m) (op : Cursor.Op K)
    (always : ∀ valid, op.allowed valid = true)
    (leads : ∀ (xs : List (K × ν)) entry, look xs entry op = d.first p xs) :
    ∃ children, forEach none (it.step op) 0 m.children = some children ∧
      Placed it Inv lists children (d.first p) := by
  obtain ⟨children, went, length, moved⟩ := forEach_spec none (it.step op)
    (fun _ xs child => Inv xs child ∧ it.entry child = d.first p xs) 0 holds.length
    (fun i xs child isXs isChild _ => by
      obtain ⟨child', stepped, inv, entry⟩ := (family.list isXs).1 child op
        (holds.child i xs child isXs isChild) (always _)
      exact ⟨child', stepped, inv, entry.trans (leads xs _)⟩)
    (fun _ _ _ _ _ => nofun)
  exact ⟨children, went, length, moved⟩

/-- Where another child is moved when the direction changes: to its first entry beyond the
current key. -/
def Turns (it : Iterator K ν σ) (Inv : List (K × ν) → σ → Prop) (d : Direction)
    (others : K → σ → Option σ) : Prop :=
  ∀ xs child k, Behaves it xs (Inv xs) → Sorted xs → Inv xs child → (∀ x ∈ xs, x.1 ≠ k) →
    ∃ child', others k child = some child' ∧ Inv xs child' ∧
      it.entry child' = d.first (fun x => !d.le x.1 k) xs

theorem forwardTo_turns : Turns it Inv .forward (forwardTo it) := by
  intro xs child k behaves sorted inv absent
  obtain ⟨child', stepped, inv', entry⟩ := behaves child (.seek k) inv rfl
  have place : it.entry child' = Direction.forward.first (fun x => !Direction.forward.le x.1 k) xs := by
    refine entry.trans (List.find?_congr fun x mem => ?_)
    exact Direction.le_eq_not (d := .forward) (absent x mem).symm
  have other : ¬ (it.entry child').any (·.1 = k) = true := by
    rw [Option.any_eq_true]
    rintro ⟨e, isE, same⟩
    rw [place] at isE
    exact absent e ((Direction.first_iff sorted).mp isE).1 (of_decide_eq_true same)
  refine ⟨child', ?_, inv', place⟩
  simp only [forwardTo, stepped, bind_eq_bind, bind_some, if_neg other]

theorem backwardTo_turns : Turns it Inv .reverse (backwardTo it) := by
  intro xs child k behaves sorted inv absent
  obtain ⟨child', stepped, inv', entry⟩ := behaves child (.seek k) inv rfl
  cases at' : it.entry child' with
  | none =>
    -- all keys are less than `k`
    obtain ⟨last, went, invLast, isLast⟩ := behaves child' .seekToLast inv' rfl
    refine ⟨last, ?_, invLast, ?_⟩
    · simp [backwardTo, stepped, valid, at', went]
    · have less : ∀ x ∈ xs, x.1 < k := by
        rw [at'] at entry
        simpa [look] using entry.symm
      rw [isLast, look, ← List.head?_reverse]
      symm
      cases back : xs.reverse with
      | nil => simp [Direction.first, back]
      | cons x rest =>
        have inside : x ∈ xs := mem_reverse.mp (back ▸ mem_cons_self)
        simp [Direction.first, back, Direction.le, less x inside]
  | some e =>
    obtain ⟨last, went, invLast, isLast⟩ := behaves child' .prev inv' (by simp [Cursor.Op.allowed,
      valid, at'])
    refine ⟨last, ?_, invLast, ?_⟩
    · simp [backwardTo, stepped, valid, at', went]
    · rw [at'] at entry isLast
      obtain ⟨mem, above, least⟩ := sorted.find_eq_some_iff.mp entry.symm
      rw [isLast]
      refine Direction.first_congr (d := .reverse) fun x inside => ?_
      have above := of_decide_eq_true above
      rw [Bool.eq_iff_iff]
      simp only [Direction.le, decide_eq_true_eq, Bool.not_eq_true', decide_eq_false_iff_not,
        not_le]
      constructor
      · intro less
        by_contra notLess
        exact not_lt.mpr (least x inside (decide_eq_true (not_lt.mp notLess))) less
      · exact fun less => less.trans_le above

omit [LinearOrder K] in
theorem entry_eq_some (here : m.entry it = some e) :
    ∃ c child, m.current = some c ∧ m.children[c]? = some child ∧ it.entry child = some e := by
  obtain ⟨c, isC, here⟩ := bind_eq_some_iff.mp here
  obtain ⟨child, isChild, here⟩ := bind_eq_some_iff.mp here
  exact ⟨c, child, isC, isChild, here⟩

/-- Before the current child moves on, the others stand at their first entries beyond its key. -/
theorem Holds.turn (family : Family it Inv lists) (holds : Holds it Inv lists m)
    (here : m.entry it = some e) {others : K → σ → Option σ} (turns : Turns it Inv d others)
    {c : Nat} (isC : m.current = some c)
    (absent : ∀ i xs, lists[i]? = some xs → i ≠ c → ∀ x ∈ xs, x.1 ≠ e.1) :
    ∃ children, m.turn d (others e.1) = some children ∧ children.length = lists.length ∧
      ∀ (i : Nat) xs child', lists[i]? = some xs → children[i]? = some child' →
        if i = c then m.children[i]? = some child' else
          Inv xs child' ∧ it.entry child' = d.first (fun x => !d.le x.1 e.1) xs := by
  by_cases same : m.direction = d
  · refine ⟨m.children, if_pos same, holds.length, fun i xs child' isXs isChild => ?_⟩
    split
    case isTrue => exact isChild
    case isFalse other =>
      refine ⟨holds.child i xs child' isXs isChild, ?_⟩
      rw [holds.stands e here i xs child' isXs isChild, same]
      exact Direction.first_congr fun x mem =>
        Direction.le_eq_not (absent i xs isXs other x mem).symm
  · obtain ⟨children, went, length, moved⟩ := forEach_spec m.current (others e.1)
      (fun i xs child' => if i = c then m.children[i]? = some child' else
        Inv xs child' ∧ it.entry child' = d.first (fun x => !d.le x.1 e.1) xs) 0 holds.length
      (fun i xs child isXs isChild skip => by
        rw [Nat.zero_add] at skip ⊢
        have other : i ≠ c := fun same => skip (same ▸ isC)
        simp only [if_neg other]
        exact turns xs child e.1 (family.list isXs).1 (family.list isXs).2
          (holds.child i xs child isXs isChild) (absent i xs isXs other))
      (fun i xs child isXs isChild skip => by
        rw [Nat.zero_add] at skip ⊢
        rw [isC, Option.some.injEq] at skip
        rw [if_pos skip.symm]
        exact isChild)
    simp only [Nat.zero_add] at moved
    exact ⟨children, (if_neg same).trans went, length, moved⟩

theorem Holds.advance (family : Family it Inv lists) (holds : Holds it Inv lists m)
    (here : m.entry it = some e) {others : K → σ → Option σ} (turns : Turns it Inv d others)
    (op : Cursor.Op K) (allowed : op.allowed true = true)
    (leads : ∀ xs : List (K × ν), look xs (some e) op = d.first (fun x => !d.le x.1 e.1) xs)
    (find : List σ → Option Nat) (isFind : ∀ children, find children = d.best it children) :
    ∃ m', m.advance it d others op find = some m' ∧ Holds it Inv lists m' ∧
      m'.entry it = d.first (fun x => !d.le x.1 e.1) (sortedUnion lists) := by
  obtain ⟨c, child, isC, isChild, shown⟩ := entry_eq_some here
  have bound := (List.getElem?_eq_some_iff.mp isChild).1
  obtain ⟨xs, isXs⟩ : ∃ xs, lists[c]? = some xs :=
    ⟨_, List.getElem?_eq_getElem (holds.length ▸ bound)⟩
  have mem : e ∈ xs := by
    have stands := holds.stands e here c xs child isXs isChild
    exact ((Direction.first_iff (family.list isXs).2).mp (stands.symm.trans shown)).1
  have absent : ∀ i ys, lists[i]? = some ys → i ≠ c → ∀ x ∈ ys, x.1 ≠ e.1 :=
    fun i ys isYs other x inside same => other (family.apart isYs isXs inside mem same)
  obtain ⟨children, turned, length, stand⟩ := holds.turn family here turns isC absent
  have bound' : c < children.length := by rwa [length, ← holds.length]
  have current : children[c]? = some child := by
    obtain ⟨other, isOther⟩ : ∃ other, children[c]? = some other :=
      ⟨_, List.getElem?_eq_getElem bound'⟩
    have stays := stand c xs other isXs isOther
    rw [if_pos rfl, isChild] at stays
    rw [isOther, stays]
  obtain ⟨child', stepped, inv', entry'⟩ := (family.list isXs).1 child op
    (holds.child c xs child isXs isChild) (by rwa [valid, shown])
  have placed : Placed it Inv lists (children.set c child')
      (d.first fun x => !d.le x.1 e.1) := by
    refine ⟨by simpa using length, fun i ys other isYs isOther => ?_⟩
    rw [List.getElem?_set] at isOther
    split at isOther
    case isTrue same =>
      subst same
      cases isOther
      cases isXs.symm.trans isYs
      exact ⟨inv', entry'.trans (by rw [shown, leads])⟩
    case isFalse different =>
      have stands := stand i ys other isYs isOther
      rwa [if_neg (Ne.symm different)] at stands
  have onward : ∀ x y : K × ν, (!d.le x.1 e.1) = true → d.le x.1 y.1 = true →
      (!d.le y.1 e.1) = true := by
    intro x y beyond later
    rw [Bool.not_eq_true'] at beyond ⊢
    by_contra back
    rw [Direction.le_trans later (by simpa using back)] at beyond
    cases beyond
  obtain ⟨holds', isEntry⟩ := placed.found family onward
  refine ⟨⟨children.set c child', d.best it (children.set c child'), d⟩, ?_, holds', isEntry⟩
  simp only [MergingIterator.advance, isC, here, turned, current, stepped, isFind,
    bind_eq_bind, bind_some]

theorem step_behaves (family : Family it Inv lists) :
    Behaves (iterator it) (sortedUnion lists) (Holds it Inv lists) := by
  have onward {d : Direction} (p : K × ν → Bool) (all : ∀ x, p x = true) :
      ∀ x y : K × ν, p x = true → d.le x.1 y.1 = true → p y = true := fun _ y _ _ => all y
  intro m op holds allowed
  cases op with
  | seekToFirst =>
    obtain ⟨children, went, placed⟩ := holds.seek (d := .forward) (p := fun _ => true)
      family .seekToFirst (fun _ => rfl) fun xs entry => by cases xs <;> rfl
    obtain ⟨holds', isEntry⟩ := placed.found family (onward _ fun _ => rfl)
    refine ⟨_, ?_, holds', isEntry.trans ?_⟩
    · simp only [iterator, step, went, bind_eq_bind, bind_some]
      rfl
    · cases sortedUnion lists <;> rfl
  | seekToLast =>
    obtain ⟨children, went, placed⟩ := holds.seek (d := .reverse) (p := fun _ => true)
      family .seekToLast (fun _ => rfl) fun xs entry => by
        simp only [look, Direction.first, ← List.head?_reverse]
        cases xs.reverse <;> rfl
    obtain ⟨holds', isEntry⟩ := placed.found family (onward _ fun _ => rfl)
    refine ⟨_, ?_, holds', isEntry.trans ?_⟩
    · simp only [iterator, step, went, bind_eq_bind, bind_some]
      rfl
    · simp only [look, Direction.first, ← List.head?_reverse]
      cases (sortedUnion lists).reverse <;> rfl
  | seek target =>
    obtain ⟨children, went, placed⟩ := holds.seek (d := .forward)
      (p := fun x => target ≤ x.1) family (.seek target) (fun _ => rfl) fun xs entry => rfl
    obtain ⟨holds', isEntry⟩ := placed.found family fun x y above later => by
      simp only [Direction.le, decide_eq_true_eq] at above later ⊢
      exact above.trans later
    refine ⟨_, ?_, holds', isEntry⟩
    simp only [iterator, step, went, bind_eq_bind, bind_some]
    rfl
  | next =>
    obtain ⟨e, here⟩ := isSome_iff_exists.mp (show (m.entry it).isSome = true from allowed)
    obtain ⟨m', went, holds', isEntry⟩ := holds.advance family here forwardTo_turns
      .next rfl (fun xs => by simp [look, Direction.first, Direction.le, ← not_le])
      (findSmallest it) fun _ => rfl
    refine ⟨m', went, holds', isEntry.trans ?_⟩
    rw [show (iterator it).entry m = some e from here]
    simp [look, Direction.first, Direction.le, ← not_le]
  | prev =>
    obtain ⟨e, here⟩ := isSome_iff_exists.mp (show (m.entry it).isSome = true from allowed)
    obtain ⟨m', went, holds', isEntry⟩ := holds.advance family here backwardTo_turns
      .prev rfl (fun xs => by simp [look, Direction.first, Direction.le, ← not_le])
      (findLargest it) fun _ => rfl
    refine ⟨m', went, holds', isEntry.trans ?_⟩
    rw [show (iterator it).entry m = some e from here]
    simp [look, Direction.first, Direction.le, ← not_le]

/-- A new `MergingIterator` shows in every run what the cursor over the sorted union of its
children's lists shows. -/
theorem run_union (it : Iterator K ν σ) (Inv : List (K × ν) → σ → Prop)
    (lists : List (List (K × ν))) (children : List σ)
    (behaves : ∀ xs ∈ lists, Behaves it xs (Inv xs)) (start : List.Forall₂ Inv lists children)
    (sorted : ∀ xs ∈ lists, Sorted xs) (distinct : (lists.flatten.map Prod.fst).Nodup)
    (ops : List (Cursor.Op K)) (pos : Option Nat)
    (ran : Cursor.run (sortedUnion lists) none ops = some pos) :
    ∃ m, (iterator it).run { children } ops = some m ∧
      (iterator it).entry m = entryAt (sortedUnion lists) pos := by
  have family : Family it Inv lists := ⟨behaves, sorted, distinct⟩
  have holds : Holds it Inv lists { children } := by
    refine ⟨start.length_eq.symm, fun i xs child isXs isChild => ?_, fun e isE => by cases isE⟩
    obtain ⟨boundI, rfl⟩ := List.getElem?_eq_some_iff.mp isXs
    obtain ⟨boundJ, rfl⟩ := List.getElem?_eq_some_iff.mp isChild
    exact start.get boundI boundJ
  obtain ⟨m, went, -, shown⟩ := (step_behaves family).run family.union_sorted holds (by simp) rfl ran
  exact ⟨m, went, shown⟩

/-- Three children, one of them empty, with changes of direction in the middle and behind the
first entry. -/
theorem run_union_three : ∃ m, (iterator listIterator).run
    { children := [([(1, 10), (4, 40)], none), ([], none), ([(2, 20), (3, 30)], none)] }
      [.seek 2, .prev, .next, .next, .prev] = some m ∧
    (iterator listIterator).entry m = some (2, 20) := by
  refine run_union listIterator (fun xs s => s.1 = xs ∧ ∀ i ∈ s.2, i < xs.length)
    [[(1, 10), (4, 40)], [], [(2, 20), (3, 30)]] _ (fun xs mem => ?_) ?_ (by decide) (by decide)
    [.seek 2, .prev, .next, .next, .prev] (some 1) (by decide)
  · exact listIterator_behaves ((by decide : ∀ xs ∈ [[(1, 10), (4, 40)], [], [(2, 20), (3, 30)]],
      Sorted xs) xs mem)
  · simp

end MergingIterator
end TalusDB
