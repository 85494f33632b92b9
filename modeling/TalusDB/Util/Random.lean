import Mathlib.Tactic.NormNum.Prime
import Mathlib.Tactic.ReduceModChar
import Mathlib.Tactic.Simproc.Factors
import TalusDB.Lib.Residues

/-! The generator of `util/random.h`, and the loop of `DBIter::ParseKey` that draws from it until its
budget covers the entry that is read. -/
namespace TalusDB

@[ext] structure Random where
  seed : UInt32
  deriving DecidableEq, Repr

namespace Random

def new (s : UInt32) : Random :=
  let seed := s &&& 0x7fffffff
  if seed = 0 ∨ seed = 2147483647 then ⟨1⟩ else ⟨seed⟩

/-- `Next`, with the generator behind it. -/
def next (r : Random) : UInt32 × Random :=
  let product : UInt64 := r.seed.toUInt64 * 16807
  let seed := ((product >>> 31) + (product &&& 2147483647)).toUInt32
  let seed := if 2147483647 < seed then seed - 2147483647 else seed
  (seed, ⟨seed⟩)

def uniform (r : Random) (n : UInt32) : UInt32 × Random :=
  let (x, r) := r.next
  (x % n, r)

/-- The generator after so many calls of `Next`. -/
def after (r : Random) : Nat → Random
  | 0 => r
  | n + 1 => r.next.2.after n

end Random

def kReadBytesPeriod : UInt32 := 1048576

def Random.randomCompactionPeriod (r : Random) : UInt32 × Random := r.uniform (2 * kReadBytesPeriod)

/-- The loop of `ParseKey` on `bytes_until_read_sampling_`, with the number of calls of
`RecordReadSample`. -/
def sampleLoop (bytesRead : UInt64) : Nat → Random → UInt64 → Option (Nat × Random × UInt64)
  | 0, _, _ => none
  | fuel + 1, r, budget =>
    if budget < bytesRead then do
      let (period, r) := r.randomCompactionPeriod
      let (samples, r, budget) ← sampleLoop bytesRead fuel r (budget + period.toUInt64)
      some (samples + 1, r, budget)
    else some (0, r, budget)

/-- What `ParseKey` does before it parses the key of an entry. -/
def sampleRead (fuel : Nat) (r : Random) (budget keySize valueSize : UInt64) :
    Option (Nat × Random × UInt64) := do
  let bytesRead := keySize + valueSize
  let (samples, r, budget) ← sampleLoop bytesRead fuel r budget
  if bytesRead ≤ budget then some (samples, r, budget - bytesRead) else none

namespace Random

/-- A state that the generator can have. -/
def Valid (r : Random) : Prop := 1 ≤ r.seed.toNat ∧ r.seed.toNat ≤ 2 ^ 31 - 2

theorem multiplier_pow : (16807 : ZMod 2147483647) ^ 2147483646 = 1 := by
  reduce_mod_char

theorem multiplier_pow_ne (q : Nat) (prime : q.Prime) (divides : q ∣ 2147483646) :
    (16807 : ZMod 2147483647) ^ (2147483646 / q) ≠ 1 := by
  have isFactor : q ∈ Nat.primeFactorsList 2147483646 :=
    (Nat.mem_primeFactorsList (by decide)).mpr ⟨prime, divides⟩
  simp only [Nat.primeFactorsList_ofNat, List.mem_cons, List.not_mem_nil, or_false] at isFactor
  rcases isFactor with rfl | rfl | rfl | rfl | rfl | rfl | rfl | rfl
  all_goals
    reduce_mod_char
    decide

theorem prime_modulus : Nat.Prime 2147483647 :=
  lucas_primality 2147483647 16807 multiplier_pow multiplier_pow_ne

theorem multiplier_order : orderOf ((16807 : Nat) : ZMod 2147483647) = 2147483647 - 1 :=
  orderOf_eq_of_pow_and_pow_div_prime (by decide) multiplier_pow multiplier_pow_ne

theorem new_valid (s : UInt32) : (new s).Valid := by
  have masked : (s &&& 0x7fffffff).toNat < 2 ^ 31 := by
    rw [UInt32.toNat_and]
    exact Nat.and_lt_two_pow _ (by decide)
  unfold new
  dsimp only
  split
  · simp [Valid]
  · next other =>
    rw [not_or, ← UInt32.toNat_inj, ← UInt32.toNat_inj] at other
    simp only [UInt32.reduceToNat] at other masked ⊢
    simp only [Valid]
    omega

theorem digits_eq {y : UInt64} (small : y.toNat < 2 ^ 46) :
    ((y >>> 31) + (y &&& 2147483647)).toUInt32.toNat = y.toNat / 2 ^ 31 + y.toNat % 2 ^ 31 := by
  have mask : y.toNat &&& 2147483647 = y.toNat % 2 ^ 31 := Nat.and_two_pow_sub_one_eq_mod _ 31
  simp only [UInt64.toNat_toUInt32, UInt64.toNat_add, UInt64.toNat_shiftRight, UInt64.toNat_and,
    UInt64.reduceToNat, Nat.reduceMod, mask, Nat.shiftRight_eq_div_pow]
  omega

variable {r : Random}

theorem Valid.product_ne_zero (valid : r.Valid) : 16807 * r.seed.toNat % 2147483647 ≠ 0 := by
  obtain ⟨low, high⟩ := valid
  intro zero
  rcases prime_modulus.dvd_mul.mp (Nat.dvd_of_mod_eq_zero zero) with divides | divides
  · exact absurd (Nat.le_of_dvd (by decide) divides) (by decide)
  · exact absurd (Nat.le_of_dvd low divides) (by omega)

/-- The shift and the mask give the digits of the product in base 2^31, which is 1 modulo
2^31 - 1. They add up to the modulus itself only for a multiple of it. -/
theorem next_eq (valid : r.Valid) : r.next.1.toNat = 16807 * r.seed.toNat % (2 ^ 31 - 1) := by
  have nonzero := valid.product_ne_zero
  obtain ⟨low, high⟩ := valid
  have product : (r.seed.toUInt64 * 16807).toNat = 16807 * r.seed.toNat := by
    simp only [UInt64.toNat_mul, UInt32.toNat_toUInt64, UInt64.reduceToNat]
    omega
  have digits := digits_eq (y := r.seed.toUInt64 * 16807) (by omega)
  rw [product] at digits
  simp only [next]
  split
  · next large =>
    rw [UInt32.lt_iff_toNat_lt] at large
    rw [UInt32.toNat_sub_of_le _ _ (UInt32.le_iff_toNat_le.mpr large.le), digits]
    simp only [digits, UInt32.reduceToNat] at large ⊢
    omega
  · next small =>
    rw [UInt32.lt_iff_toNat_lt] at small
    simp only [digits, UInt32.reduceToNat] at small ⊢
    omega

theorem next_valid (valid : r.Valid) : r.next.2.Valid := by
  have nonzero := valid.product_ne_zero
  have seed : r.next.2.seed.toNat = 16807 * r.seed.toNat % (2 ^ 31 - 1) := next_eq valid
  constructor <;> omega

theorem after_valid (valid : r.Valid) (n : Nat) : (r.after n).Valid := by
  induction n generalizing r with
  | zero => exact valid
  | succ n ih => exact ih (next_valid valid)

theorem after_seed (valid : r.Valid) (n : Nat) :
    (r.after n).seed.toNat = r.seed.toNat * 16807 ^ n % 2147483647 := by
  induction n generalizing r with
  | zero =>
    obtain ⟨low, high⟩ := valid
    simp only [after]
    omega
  | succ n ih =>
    have seed : r.next.2.seed.toNat = 16807 * r.seed.toNat % 2147483647 := next_eq valid
    rw [after, ih (next_valid valid), seed, Nat.mod_mul_mod, pow_succ']
    ring_nf

theorem after_add (r : Random) (m n : Nat) : r.after (m + n) = (r.after m).after n := by
  induction m generalizing r with
  | zero => rw [Nat.zero_add, after]
  | succ m ih => rw [Nat.succ_add, after, ih, after]

theorem after_period (valid : r.Valid) : r.after 2147483646 = r := by
  have one : 16807 ^ 2147483646 ≡ 1 [MOD 2147483647] := by
    rw [← ZMod.natCast_eq_natCast_iff, Nat.cast_pow, Nat.cast_ofNat, Nat.cast_one]
    exact multiplier_pow
  have seed := (after_seed valid 2147483646).trans (one.mul_left r.seed.toNat)
  obtain ⟨low, high⟩ := valid
  rw [Nat.mul_one, Nat.mod_eq_of_lt (by omega), UInt32.toNat_inj] at seed
  exact Random.ext seed

/-- What so many calls of `RandomCompactionPeriod` give in all. -/
def periods (r : Random) (n : Nat) : Nat :=
  ∑ j ∈ Finset.range n, (r.after (j + 1)).seed.toNat % 2097152

theorem periods_add (r : Random) (m n : Nat) :
    r.periods (m + n) = r.periods m + (r.after m).periods n := by
  rw [periods, Finset.sum_range_add]
  simp only [periods, Nat.add_assoc, after_add r m]

theorem periods_cycles (valid : r.Valid) (q : Nat) :
    r.periods (q * 2147483646) = q * r.periods 2147483646 := by
  induction q with
  | zero => simp [periods]
  | succ q ih =>
    rw [Nat.succ_mul, Nat.add_comm, periods_add, after_period valid, ih, Nat.succ_mul, Nat.add_comm]

theorem periods_odd (valid : r.Valid) : (r.periods 2147483646).Coprime (2 ^ 64) := by
  have nonzero : ¬2147483647 ∣ r.seed.toNat := by
    obtain ⟨low, high⟩ := valid
    intro divides
    exact absurd (Nat.le_of_dvd low divides) (by omega)
  have orbit : r.periods 2147483646 = ∑ x ∈ Finset.Ico 1 2147483647, x % 2097152 := by
    rw [← Residues.sum_orbit prime_modulus multiplier_order nonzero]
    simp only [periods, after_seed valid, Nat.reduceSub]
  have whole : r.periods 2147483646 + 2147483647 % 2097152 = 1024 * ∑ x ∈ Finset.range 2097152, x := by
    rw [orbit]
    exact Residues.sum_mod_nonzero (by decide) (by decide)
  refine Nat.Coprime.pow_right 64 (Nat.coprime_two_right.mpr ?_)
  rw [Nat.odd_iff]
  omega

end Random

/-- The budget after so many rounds of the loop. -/
def budgetAfter (r : Random) (budget : UInt64) : Nat → UInt64
  | 0 => budget
  | n + 1 => budgetAfter r.next.2 (budget + r.randomCompactionPeriod.1.toUInt64) n

theorem budgetAfter_toNat (r : Random) (budget : UInt64) (n : Nat) :
    (budgetAfter r budget n).toNat = (budget.toNat + r.periods n) % 2 ^ 64 := by
  induction n generalizing r budget with
  | zero =>
    rw [budgetAfter, Random.periods, Finset.sum_range_zero, Nat.add_zero]
    exact (Nat.mod_eq_of_lt budget.toNat_lt).symm
  | succ n ih =>
    have first : r.periods 1 = r.randomCompactionPeriod.1.toUInt64.toNat := by
      rw [Random.periods, Finset.sum_range_one]
      rfl
    rw [budgetAfter, ih, UInt64.toNat_add, Nat.mod_add_mod, Nat.add_comm n 1, Random.periods_add,
      first, Nat.add_assoc]
    rfl

theorem sampleLoop_ends {bytesRead : UInt64} (n : Nat) (r : Random) (budget : UInt64)
    (covered : bytesRead ≤ budgetAfter r budget n) :
    ∃ samples budget', sampleLoop bytesRead (n + 1) r budget =
      some (samples, r.after samples, budget') ∧ bytesRead ≤ budget' := by
  induction n generalizing r budget with
  | zero => exact ⟨0, budget, if_neg (UInt64.not_lt.mpr covered), covered⟩
  | succ n ih =>
    by_cases short : budget < bytesRead
    · obtain ⟨samples, budget', ends, enough⟩ := ih _ _ covered
      refine ⟨samples + 1, budget', ?_, enough⟩
      rw [sampleLoop, if_pos short]
      exact congrArg (Option.bind · _) ends
    · exact ⟨0, budget, if_neg short, UInt64.not_lt.mp short⟩

/-- Some number of full periods brings the budget to its largest value, whatever it was. -/
theorem exists_budgetAfter {r : Random} (valid : r.Valid) (budget bytesRead : UInt64) :
    ∃ n, bytesRead ≤ budgetAfter r budget n := by
  obtain ⟨q, reached⟩ := Residues.exists_multiple (Random.periods_odd valid) (by decide)
    budget.toNat (2 ^ 64 - 1)
  refine ⟨q * 2147483646, UInt64.le_iff_toNat_le.mpr ?_⟩
  rw [budgetAfter_toNat, Random.periods_cycles valid, reached]
  have := bytesRead.toNat_lt
  omega

/-- The states and the values of the generator from any seed, and the end of the loop of `ParseKey`
for any budget and any entry. -/
theorem random_period_sampling (s : UInt32) (n : Nat) :
    ∃ r, (Random.new s).after n = r ∧ (1 ≤ r.seed.toNat ∧ r.seed.toNat ≤ 2 ^ 31 - 2) ∧
      r.next.1.toNat = 16807 * r.seed.toNat % (2 ^ 31 - 1) ∧ r.next.2.seed = r.next.1 ∧
      ∀ budget keySize valueSize : UInt64, ∃ fuel samples budget',
        sampleRead fuel r budget keySize valueSize = some (samples, r.after samples, budget') := by
  set r := (Random.new s).after n
  have valid : r.Valid := Random.after_valid (Random.new_valid s) n
  refine ⟨r, rfl, valid, Random.next_eq valid, rfl, fun budget keySize valueSize => ?_⟩
  obtain ⟨rounds, covered⟩ := exists_budgetAfter valid budget (keySize + valueSize)
  obtain ⟨samples, budget', ends, enough⟩ := sampleLoop_ends rounds r budget covered
  refine ⟨rounds + 1, samples, budget' - (keySize + valueSize), ?_⟩
  rw [sampleRead, ends]
  exact if_pos enough

end TalusDB
