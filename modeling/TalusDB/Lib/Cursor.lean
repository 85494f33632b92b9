import Mathlib.Data.List.Sort
import Mathlib.Tactic
import TalusDB.Lib.Runs

/-! Cursors over lists that are sorted by their keys, and iterators that behave as one. -/
namespace Cursor
open List Option

inductive Op (K : Type*) where
  | seekToFirst
  | seekToLast
  | seek (target : K)
  | next
  | prev
  deriving Repr

variable {K ν σ : Type*}

/-- `next` and `prev` are for a cursor that stands at an entry. -/
def Op.allowed : Op K → Bool → Bool
  | .next, valid => valid
  | .prev, valid => valid
  | _, _ => true

section reference
variable [LinearOrder K] (xs : List (K × ν))

def standAt (i : Nat) : Option Nat := if i < xs.length then some i else none

/-- The cursor over `xs`: it stands at an index or nowhere. -/
def move (pos : Option Nat) : Op K → Option Nat
  | .seekToFirst => standAt xs 0
  | .seekToLast => standAt xs (xs.length - 1)
  | .seek target => standAt xs (xs.findIdx (target ≤ ·.1))
  | .next => pos.bind fun i => standAt xs (i + 1)
  | .prev => pos.bind fun i => if i = 0 then none else some (i - 1)

def entryAt (pos : Option Nat) : Option (K × ν) := pos.bind (xs[·]?)

abbrev run : Option Nat → List (Op K) → Option (Option Nat) :=
  Runs.run (fun pos op => some (move xs pos op)) fun pos op => op.allowed pos.isSome

/-- The entry that an operation leads to, found by the keys. -/
def look (entry : Option (K × ν)) : Op K → Option (K × ν)
  | .seekToFirst => xs.head?
  | .seekToLast => xs.getLast?
  | .seek target => xs.find? (target ≤ ·.1)
  | .next => entry.bind fun e => xs.find? (e.1 < ·.1)
  | .prev => entry.bind fun e => xs.reverse.find? (·.1 < e.1)

end reference

variable {op : Op K} {xs : List (K × ν)} {α : Type*} {p : α → Bool}

theorem look_of_always [LinearOrder K] (always : ∀ valid, op.allowed valid = true)
    (xs : List (K × ν)) (entry : Option (K × ν)) : look xs entry op = look xs none op := by
  cases op with
  | next => cases always false
  | prev => cases always false
  | _ => rfl

theorem mem_of_look [LinearOrder K] {entry : Option (K × ν)}
    {e : K × ν} (found : look xs entry op = some e) : e ∈ xs := by
  cases op with
  | seekToFirst => exact mem_of_head? found
  | seekToLast => exact mem_of_getLast? found
  | seek target => exact mem_of_find?_eq_some found
  | next =>
    obtain ⟨_, -, found⟩ := bind_eq_some_iff.mp found
    exact mem_of_find?_eq_some found
  | prev =>
    obtain ⟨_, -, found⟩ := bind_eq_some_iff.mp found
    exact mem_reverse.mp (mem_of_find?_eq_some found)

theorem entryAt_standAt (xs : List (K × ν)) (i : Nat) : entryAt xs (standAt xs i) = xs[i]? := by
  rw [standAt]
  split
  case isTrue => rfl
  case isFalse beyond => simp [entryAt, Nat.le_of_not_lt beyond]

theorem isSome_entryAt {pos : Option Nat} (bound : ∀ i ∈ pos, i < xs.length) :
    (entryAt xs pos).isSome = pos.isSome := by
  cases pos with
  | none => rfl
  | some i => simp [entryAt, bound i rfl]

theorem getElem_findIdx (xs : List (K × ν)) (p : K × ν → Bool) :
    xs[xs.findIdx p]? = xs.find? p := by
  induction xs with
  | nil => rfl
  | cons x rest ih =>
    by_cases holds : p x = true
    · simp [findIdx_cons, holds]
    · simp [findIdx_cons, holds, ih]

theorem find_of_all {l : List α} (all : ∀ x ∈ l, p x = true) : l.find? p = l.head? := by
  cases l with
  | nil => rfl
  | cons x rest => rw [List.find?_cons_of_pos (all x mem_cons_self), List.head?_cons]

theorem find_split {first rest : List α}
    (before : ∀ x ∈ first, p x = false) (behind : ∀ x ∈ rest, p x = true) :
    (first ++ rest).find? p = rest.head? := by
  rw [List.find?_append, List.find?_eq_none.mpr (by simpa using before), none_or,
    find_of_all behind]

abbrev Sorted [LinearOrder K] (xs : List (K × ν)) : Prop := xs.Pairwise (·.1 < ·.1)

section sorted
variable [LinearOrder K] {xs : List (K × ν)} {p : K × ν → Bool} {e : K × ν}

section
variable (sorted : Sorted xs)
include sorted

theorem Sorted.find_eq_some_iff :
    xs.find? p = some e ↔ e ∈ xs ∧ p e = true ∧ ∀ x ∈ xs, p x = true → e.1 ≤ x.1 := by
  induction xs with
  | nil => simp
  | cons x rest ih =>
    obtain ⟨least, sorted⟩ := pairwise_cons.mp sorted
    by_cases holds : p x = true
    · rw [List.find?_cons_of_pos holds, Option.some.injEq]
      constructor
      · rintro rfl
        refine ⟨mem_cons_self, holds, fun y mem _ => ?_⟩
        obtain rfl | mem := mem_cons.mp mem
        · exact le_rfl
        · exact (least y mem).le
      · rintro ⟨mem, -, least'⟩
        obtain rfl | mem := mem_cons.mp mem
        · rfl
        · exact absurd (least' x mem_cons_self holds) (least e mem).not_ge
    · rw [List.find?_cons_of_neg holds, ih sorted]
      constructor
      · rintro ⟨mem, isP, least'⟩
        refine ⟨mem_cons_of_mem x mem, isP, fun y inside isP' => ?_⟩
        obtain rfl | inside := mem_cons.mp inside
        · exact absurd isP' holds
        · exact least' y inside isP'
      · rintro ⟨mem, isP, least'⟩
        obtain rfl | mem := mem_cons.mp mem
        · exact absurd isP holds
        · exact ⟨mem, isP, fun y inside => least' y (mem_cons_of_mem x inside)⟩

theorem Sorted.findLast_eq_some_iff :
    xs.reverse.find? p = some e ↔ e ∈ xs ∧ p e = true ∧ ∀ x ∈ xs, p x = true → x.1 ≤ e.1 := by
  have dual : @Sorted Kᵒᵈ ν _ xs.reverse := pairwise_reverse.mpr sorted
  refine (@Sorted.find_eq_some_iff Kᵒᵈ ν _ xs.reverse p e dual).trans ?_
  constructor
  · rintro ⟨mem, isP, most⟩
    exact ⟨mem_reverse.mp mem, isP, fun x inside => most x (mem_reverse.mpr inside)⟩
  · rintro ⟨mem, isP, most⟩
    exact ⟨mem_reverse.mpr mem, isP, fun x inside => most x (mem_reverse.mp inside)⟩

theorem Sorted.lt_iff {i j : Nat} {a b : K × ν} (isA : xs[i]? = some a)
    (isB : xs[j]? = some b) : a.1 < b.1 ↔ i < j := by
  obtain ⟨boundI, rfl⟩ := List.getElem?_eq_some_iff.mp isA
  obtain ⟨boundJ, rfl⟩ := List.getElem?_eq_some_iff.mp isB
  have less := pairwise_iff_getElem.mp sorted
  constructor
  · intro smaller
    by_contra notBefore
    obtain rfl | before := Nat.eq_or_lt_of_le (Nat.le_of_not_lt notBefore)
    · exact lt_irrefl _ smaller
    · exact lt_asymm smaller (less j i boundJ boundI before)
  · exact less i j boundI boundJ

theorem Sorted.move_entry (pos : Option Nat) (bound : ∀ i ∈ pos, i < xs.length) (op : Op K) :
    entryAt xs (move xs pos op) = look xs (entryAt xs pos) op ∧
      ∀ i ∈ move xs pos op, i < xs.length := by
  have stands (i : Nat) : ∀ j ∈ standAt xs i, j < xs.length := by
    intro j isJ
    rw [standAt] at isJ
    split at isJ
    case isTrue less => exact Option.some.inj isJ ▸ less
    case isFalse => cases isJ
  cases op with
  | seekToFirst => exact ⟨(entryAt_standAt xs 0).trans List.head?_eq_getElem?.symm, stands 0⟩
  | seekToLast =>
    exact ⟨(entryAt_standAt xs _).trans List.getLast?_eq_getElem?.symm, stands _⟩
  | seek target => exact ⟨(entryAt_standAt xs _).trans (getElem_findIdx xs _), stands _⟩
  | next =>
    cases pos with
    | none => exact ⟨rfl, by simp [move]⟩
    | some i =>
      refine ⟨(entryAt_standAt xs (i + 1)).trans ?_, stands (i + 1)⟩
      have inside := bound i rfl
      have here : xs[i]? = some xs[i] := List.getElem?_eq_getElem inside
      simp only [look, entryAt, bind_some, here]
      cases behind : xs[i + 1]? with
      | none =>
        symm
        simp only [List.find?_eq_none, decide_eq_true_eq, not_lt]
        intro x mem
        obtain ⟨j, isX⟩ := mem_iff_getElem?.mp mem
        have last := List.getElem?_eq_none_iff.mp behind
        have less := (List.getElem?_eq_some_iff.mp isX).1
        exact not_lt.mp ((sorted.lt_iff here isX).not.mpr (by omega))
      | some b =>
        symm
        rw [sorted.find_eq_some_iff]
        refine ⟨mem_of_getElem? behind, ?_, fun x mem after => ?_⟩
        · exact decide_eq_true ((sorted.lt_iff here behind).mpr (Nat.lt_succ_self i))
        · obtain ⟨j, isX⟩ := mem_iff_getElem?.mp mem
          have beyond := (sorted.lt_iff here isX).mp (of_decide_eq_true after)
          exact not_lt.mp ((sorted.lt_iff isX behind).not.mpr (by omega))
  | prev =>
    cases pos with
    | none => exact ⟨rfl, by simp [move]⟩
    | some i =>
      have inside := bound i rfl
      have here : xs[i]? = some xs[i] := List.getElem?_eq_getElem inside
      simp only [look, entryAt, bind_some, here, move]
      cases i with
      | zero =>
        refine ⟨?_, by simp⟩
        symm
        simp only [if_true, bind_none, List.find?_eq_none, mem_reverse,
          decide_eq_true_eq, not_lt]
        intro x mem
        obtain ⟨j, isX⟩ := mem_iff_getElem?.mp mem
        exact not_lt.mp ((sorted.lt_iff isX here).not.mpr (by omega))
      | succ i =>
        refine ⟨?_, by simp; omega⟩
        have before : xs[i]? = some xs[i] := List.getElem?_eq_getElem (by omega)
        symm
        simp only [Nat.succ_ne_zero, if_false, bind_some, Nat.add_sub_cancel, before]
        rw [sorted.findLast_eq_some_iff]
        refine ⟨mem_of_getElem? before, ?_, fun x mem smaller => ?_⟩
        · exact decide_eq_true ((sorted.lt_iff before here).mpr (Nat.lt_succ_self i))
        · obtain ⟨j, isX⟩ := mem_iff_getElem?.mp mem
          have ahead := (sorted.lt_iff isX here).mp (of_decide_eq_true smaller)
          exact not_lt.mp ((sorted.lt_iff before isX).not.mpr (by omega))

theorem Sorted.run_bound {pos pos' : Option Nat} {ops : List (Op K)}
    (ran : run xs pos ops = some pos') (bound : ∀ i ∈ pos, i < xs.length) :
    ∀ i ∈ pos', i < xs.length := by
  refine Runs.run_induct (P := fun pos => ∀ i ∈ pos, i < xs.length) ?_ bound ran
  rintro pos op _ bound - ⟨⟩
  exact (sorted.move_entry pos bound op).2

theorem Sorted.split (target : K) :
    ∃ before behind, xs = before ++ behind ∧ (∀ x ∈ before, x.1 < target) ∧
      ∀ x ∈ behind, target ≤ x.1 := by
  induction xs with
  | nil => exact ⟨[], [], rfl, by simp, by simp⟩
  | cons x rest ih =>
    obtain ⟨least, sorted⟩ := pairwise_cons.mp sorted
    by_cases below : x.1 < target
    · obtain ⟨before, behind, rfl, less, others⟩ := ih sorted
      exact ⟨x :: before, behind, rfl, forall_mem_cons.mpr ⟨below, less⟩, others⟩
    · have above := not_lt.mp below
      exact ⟨[], x :: rest, rfl, by simp,
        forall_mem_cons.mpr ⟨above, fun y mem => above.trans (least y mem).le⟩⟩

end

variable {before after : List (K × ν)}

theorem Sorted.look_next (sorted : Sorted (before ++ e :: after)) :
    look (before ++ e :: after) (some e) .next = after.head? := by
  obtain ⟨moved, -⟩ := sorted.move_entry (some before.length) (by simp) .next
  have here : entryAt (before ++ e :: after) (some before.length) = some e := by simp [entryAt]
  rw [here] at moved
  rw [← moved, move, bind_some, entryAt_standAt, List.getElem?_append_right (by omega)]
  simp [List.head?_eq_getElem?]

theorem Sorted.look_prev (sorted : Sorted (before ++ e :: after)) :
    look (before ++ e :: after) (some e) .prev = before.getLast? := by
  obtain ⟨moved, -⟩ := sorted.move_entry (some before.length) (by simp) .prev
  have here : entryAt (before ++ e :: after) (some before.length) = some e := by simp [entryAt]
  rw [here] at moved
  rw [← moved, move, bind_some, List.getLast?_eq_getElem?]
  cases before with
  | nil => rfl
  | cons x rest =>
    simp only [length_cons, Nat.succ_ne_zero, if_false, Nat.add_sub_cancel, entryAt,
      bind_some]
    exact List.getElem?_append_left (by simp)

end sorted

/-- An iterator: the entry that it stands at, whether its status is ok, and its operations. An
operation has no result when it does not come to an end. -/
structure Iterator (K ν σ : Type*) where
  entry : σ → Option (K × ν)
  ok : σ → Bool
  step : Op K → σ → Option σ

namespace Iterator
variable (it : Iterator K ν σ)

def valid (s : σ) : Bool := (it.entry s).isSome

abbrev run : σ → List (Op K) → Option σ :=
  Runs.run (fun s op => it.step op s) fun s op => op.allowed (it.valid s)

end Iterator

/-- An error of the iterator stays. -/
def Lasting (it : Iterator K ν σ) : Prop :=
  ∀ op s s', it.step op s = some s' → it.ok s = false → it.ok s' = false

/-- From states with the invariant, the iterator goes where the keys of the list say. -/
def Behaves [LinearOrder K] (it : Iterator K ν σ) (xs : List (K × ν)) (Inv : σ → Prop) : Prop :=
  ∀ s op, Inv s → op.allowed (it.valid s) = true →
    ∃ s', it.step op s = some s' ∧ Inv s' ∧ it.entry s' = look xs (it.entry s) op

section
variable [LinearOrder K] {it : Iterator K ν σ} {xs before after : List (K × ν)} {e : K × ν}
  {Inv : σ → Prop} {s : σ}

variable (behaves : Behaves it xs Inv) (sorted : Sorted xs)
include behaves sorted

theorem Behaves.next
    (split : xs = before ++ e :: after) (inv : Inv s) (here : it.entry s = some e) :
    ∃ s', it.step .next s = some s' ∧ Inv s' ∧ it.entry s' = after.head? := by
  subst split
  obtain ⟨s', stepped, inv', entry⟩ := behaves s .next inv (by simp [Op.allowed, Iterator.valid, here])
  exact ⟨s', stepped, inv', by rw [entry, here, sorted.look_next]⟩

theorem Behaves.prev
    (split : xs = before ++ e :: after) (inv : Inv s) (here : it.entry s = some e) :
    ∃ s', it.step .prev s = some s' ∧ Inv s' ∧ it.entry s' = before.getLast? := by
  subst split
  obtain ⟨s', stepped, inv', entry⟩ := behaves s .prev inv (by simp [Op.allowed, Iterator.valid, here])
  exact ⟨s', stepped, inv', by rw [entry, here, sorted.look_prev]⟩

theorem Behaves.seek (target : K) (inv : Inv s) :
    ∃ s' before behind, it.step (.seek target) s = some s' ∧ Inv s' ∧ xs = before ++ behind ∧
      (∀ x ∈ before, x.1 < target) ∧ (∀ x ∈ behind, target ≤ x.1) ∧
      it.entry s' = behind.head? := by
  obtain ⟨s', stepped, inv', entry⟩ := behaves s (.seek target) inv rfl
  obtain ⟨before, behind, rfl, less, others⟩ := sorted.split target
  refine ⟨s', before, behind, stepped, inv', rfl, less, others, entry.trans (find_split ?_ ?_)⟩
  · simpa using less
  · simpa using others

end

variable {xs : List (K × ν)}

theorem Behaves.run [LinearOrder K] {it : Iterator K ν σ} {Inv : σ → Prop}
    (behaves : Behaves it xs Inv) (sorted : Sorted xs) {s : σ} (inv : Inv s) {pos pos' : Option Nat}
    (bound : ∀ i ∈ pos, i < xs.length) (same : it.entry s = entryAt xs pos) {ops : List (Op K)}
    (ran : run xs pos ops = some pos') :
    ∃ s', it.run s ops = some s' ∧ Inv s' ∧ it.entry s' = entryAt xs pos' := by
  induction ops generalizing s pos with
  | nil =>
    cases ran
    exact ⟨s, rfl, inv, same⟩
  | cons op ops ih =>
    have valid : it.valid s = pos.isSome := by rw [Iterator.valid, same, isSome_entryAt bound]
    rw [Cursor.run, Runs.run] at ran
    obtain ⟨allowed, ran⟩ := ite_none_right_eq_some.mp ran
    rw [← valid] at allowed
    obtain ⟨s₁, stepped, inv₁, entry₁⟩ := behaves s op inv allowed
    obtain ⟨moved, bound₁⟩ := sorted.move_entry _ bound op
    rw [same, ← moved] at entry₁
    obtain ⟨s', ran', inv', entry'⟩ := ih inv₁ bound₁ entry₁ ran
    refine ⟨s', ?_, inv', entry'⟩
    rw [Iterator.run, Runs.run, if_pos allowed, stepped]
    exact ran'

/-- The cursors over lists, as an iterator. -/
def listIterator [LinearOrder K] : Iterator K ν (List (K × ν) × Option Nat) where
  entry s := entryAt s.1 s.2
  ok _ := true
  step op s := some (s.1, move s.1 s.2 op)

theorem listIterator_behaves [LinearOrder K] (sorted : Sorted xs) :
    Behaves listIterator xs fun s => s.1 = xs ∧ ∀ i ∈ s.2, i < xs.length := by
  rintro ⟨_, pos⟩ op ⟨rfl, bound⟩ -
  obtain ⟨moved, bound'⟩ := sorted.move_entry _ bound op
  exact ⟨_, rfl, ⟨rfl, bound'⟩, moved⟩

end Cursor
