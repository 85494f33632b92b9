import Mathlib.Data.List.Nodup

/-! Chains of nodes, each of which points to the next one. A pointer is read by `next`, which may
fail; `some none` is the null pointer. -/
namespace Chain
open List
variable {α : Type*} {next next' : α → Option (Option α)} {x n : α} {ys before after : List α}

/-- From `x` the pointers lead over `ys` to the null pointer. -/
def Links (next : α → Option (Option α)) : α → List α → Prop
  | x, [] => next x = some none
  | x, y :: ys => next x = some (some y) ∧ Links next y ys

/-- Follows the pointers, over fewer than `fuel` nodes. -/
def walk (next : α → Option (Option α)) : Nat → α → Option (List α)
  | 0, _ => none
  | fuel + 1, x => (next x).bind fun
    | none => some []
    | some y => (walk next fuel y).map (y :: ·)

theorem Links.walk (links : Links next x ys) {fuel : Nat} (enough : ys.length < fuel) :
    walk next fuel x = some ys := by
  induction ys generalizing x fuel with
  | nil =>
    obtain ⟨fuel, rfl⟩ := Nat.exists_eq_succ_of_ne_zero (Nat.ne_zero_of_lt enough)
    rw [Chain.walk, show next x = some none from links]
    rfl
  | cons y ys ih =>
    obtain ⟨fuel, rfl⟩ := Nat.exists_eq_succ_of_ne_zero (Nat.ne_zero_of_lt enough)
    have rest : Chain.walk next fuel y = some ys := ih links.2 (by simpa using enough)
    simp [Chain.walk, links.1, rest]

theorem Links.next_eq (links : Links next x ys) : next x = some ys.head? := by
  cases ys with
  | nil => exact links
  | cons y ys => exact links.1

theorem Links.drop (links : Links next x (before ++ after)) :
    Links next (before.getLastD x) after := by
  induction before generalizing x with
  | nil => exact links
  | cons y before ih =>
    rw [getLastD_cons]
    exact ih links.2

theorem Links.moved (links : Links next x ys) (same : next' n = next x)
    (frame : ∀ y ∈ ys, next' y = next y) : Links next' n ys := by
  induction ys generalizing x n with
  | nil => exact same.trans links
  | cons y ys ih =>
    refine ⟨same.trans links.1, ih links.2 (frame y mem_cons_self) fun z mem => ?_⟩
    exact frame z (mem_cons_of_mem y mem)

theorem Links.splice {after' : List α} (links : Links next x (before ++ after))
    (distinct : (x :: before).Nodup) (tail : Links next' (before.getLastD x) after')
    (frame : ∀ y ∈ x :: before, y ≠ before.getLastD x → next' y = next y) :
    Links next' x (before ++ after') := by
  induction before generalizing x with
  | nil => exact tail
  | cons y before ih =>
    rw [getLastD_cons] at tail frame
    have other : x ≠ before.getLastD y := by
      rintro rfl
      exact (nodup_cons.mp distinct).1 getLastD_mem_cons
    refine ⟨(frame x mem_cons_self other).trans links.1, ih links.2 distinct.of_cons tail ?_⟩
    exact fun z mem => frame z (mem_cons_of_mem x mem)

theorem Links.insert (links : Links next x (before ++ after))
    (distinct : (x :: (before ++ after)).Nodup) (fresh : n ∉ x :: (before ++ after))
    (linked : next' (before.getLastD x) = some (some n))
    (taken : next' n = next (before.getLastD x))
    (frame : ∀ y, y ≠ before.getLastD x → y ≠ n → next' y = next y) :
    Links next' x (before ++ n :: after) := by
  induction before generalizing x with
  | nil =>
    refine ⟨linked, links.moved taken fun y mem => frame y ?_ ?_⟩
    · rintro rfl
      exact (nodup_cons.mp distinct).1 mem
    · rintro rfl
      exact fresh (mem_cons_of_mem x mem)
  | cons y before ih =>
    rw [getLastD_cons] at linked taken frame
    have other : x ≠ before.getLastD y := by
      rintro rfl
      refine (nodup_cons.mp distinct).1 (mem_append_left after ?_)
      exact getLastD_mem_cons
    refine ⟨(frame x other ?_).trans links.1, ?_⟩
    · rintro rfl
      exact fresh mem_cons_self
    · exact ih links.2 distinct.of_cons (fun mem => fresh (mem_cons_of_mem x mem)) linked taken
        frame

end Chain
