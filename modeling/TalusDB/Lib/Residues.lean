import Mathlib.NumberTheory.LucasPrimality

/-! Sums over the orbit of a generator of the residues modulo a prime. -/
namespace Residues
open Finset

theorem sum_orbit {p g s : ℕ} (prime : p.Prime) (order : orderOf (g : ZMod p) = p - 1)
    (nonzero : ¬p ∣ s) (f : ℕ → ℕ) :
    ∑ j ∈ range (p - 1), f (s * g ^ (j + 1) % p) = ∑ x ∈ Ico 1 p, f x := by
  have : Fact p.Prime := ⟨prime⟩
  have start : (s : ZMod p) ≠ 0 := by rwa [Ne, ZMod.natCast_eq_zero_iff]
  have generator : (g : ZMod p) ≠ 0 := by
    intro zero
    have one := pow_orderOf_eq_one (g : ZMod p)
    rw [order, zero, zero_pow (Nat.sub_ne_zero_of_lt prime.one_lt)] at one
    exact zero_ne_one one
  have injective : Set.InjOn (fun j => s * g ^ (j + 1) % p) (range (p - 1)) := by
    intro i below j below' same
    have residues := (ZMod.natCast_eq_natCast_iff' (s * g ^ (i + 1)) (s * g ^ (j + 1)) p).mpr same
    push_cast at residues
    rw [mul_right_inj' start, pow_succ, pow_succ, mul_left_inj' generator] at residues
    rw [coe_range, ← order] at below below'
    exact pow_injOn_Iio_orderOf below below' residues
  have inside : (range (p - 1)).image (fun j => s * g ^ (j + 1) % p) ⊆ Ico 1 p := by
    intro x isIn
    obtain ⟨j, -, rfl⟩ := mem_image.mp isIn
    refine mem_Ico.mpr ⟨Nat.one_le_iff_ne_zero.mpr fun zero => ?_, Nat.mod_lt _ prime.pos⟩
    have residue := (ZMod.natCast_eq_zero_iff _ p).mpr (Nat.dvd_of_mod_eq_zero zero)
    push_cast at residue
    exact mul_ne_zero start (pow_ne_zero _ generator) residue
  have all := eq_of_subset_of_card_le inside (by simp [card_image_of_injOn injective])
  rw [← all, sum_image injective]

theorem sum_mod (m n : ℕ) : ∑ x ∈ range (m * n), x % n = m * ∑ x ∈ range n, x := by
  induction m with
  | zero => simp
  | succ m ih =>
    have last : ∑ x ∈ range n, (m * n + x) % n = ∑ x ∈ range n, x := by
      refine sum_congr rfl fun x isIn => ?_
      rw [Nat.mul_add_mod_self_right, Nat.mod_eq_of_lt (mem_range.mp isIn)]
    rw [Nat.succ_mul, sum_range_add, ih, last, Nat.succ_mul]

theorem sum_mod_nonzero {m n p : ℕ} (positive : 0 < p) (whole : p + 1 = m * n) :
    ∑ x ∈ Ico 1 p, x % n + p % n = m * ∑ x ∈ range n, x := by
  rw [← sum_mod, ← whole, sum_range_succ, range_eq_Ico, sum_eq_sum_Ico_succ_bot positive,
    Nat.zero_mod, Nat.zero_add, Nat.zero_add]

theorem exists_multiple {k n : ℕ} (coprime : n.Coprime k) (large : 1 < k) (b target : ℕ) :
    ∃ q, (b + q * n) % k = target % k := by
  obtain ⟨i, -, inverse⟩ := Nat.exists_mul_mod_eq_one_of_coprime coprime large
  refine ⟨(target + (k - 1) * b) * i, ?_⟩
  have product : (target + (k - 1) * b) * i * n ≡ (target + (k - 1) * b) * 1 [MOD k] := by
    rw [mul_assoc, mul_comm i n]
    exact Nat.ModEq.mul_left _ (inverse.trans (Nat.mod_eq_of_lt large).symm)
  have whole : b + (target + (k - 1) * b) * 1 = target + k * b := by
    obtain ⟨k, rfl⟩ : ∃ l, k = l + 1 := ⟨k - 1, by omega⟩
    rw [Nat.add_sub_cancel]
    ring
  have sum := Nat.ModEq.add_left b product
  rw [whole] at sum
  exact sum.trans (by simp [Nat.ModEq])

end Residues
