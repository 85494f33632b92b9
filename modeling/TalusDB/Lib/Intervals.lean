import Mathlib.Order.Basic
import Mathlib.Order.Lattice
import Mathlib.Data.Set.Basic

/-! Families of closed intervals of a linear order, each given by its bounds, and
families that leave no gap. -/
namespace Intervals
variable {ι K : Type*} [LinearOrder K] {lo hi : ι → K} {S T : Set ι}

/-- Some point of the family is at or below `b`, and some is at or above `a`: the
interval from `a` to `b` meets the hull of the family. -/
def MeetsHull (lo hi : ι → K) (S : Set ι) (a b : K) : Prop :=
  (∃ i ∈ S, lo i ≤ b) ∧ ∃ i ∈ S, a ≤ hi i

/-- Every point of the hull lies in a member. -/
def Covered (lo hi : ι → K) (S : Set ι) : Prop :=
  ∀ k, MeetsHull lo hi S k k → ∃ i ∈ S, lo i ≤ k ∧ k ≤ hi i

theorem MeetsHull.mono {a b : K} (meets : MeetsHull lo hi S a b) (subset : S ⊆ T) :
    MeetsHull lo hi T a b := by
  obtain ⟨⟨i, inS, low⟩, ⟨j, inS', high⟩⟩ := meets
  exact ⟨⟨i, subset inS, low⟩, ⟨j, subset inS', high⟩⟩

theorem Covered.singleton (i : ι) : Covered lo hi {i} := by
  rintro k ⟨⟨_, rfl, low⟩, ⟨_, rfl, high⟩⟩
  exact ⟨_, rfl, low, high⟩

theorem Covered.extend (covered : Covered lo hi S) (subset : S ⊆ T)
    (meets : ∀ i ∈ T, MeetsHull lo hi S (lo i) (hi i)) : Covered lo hi T := by
  rintro k ⟨⟨i, inT, low⟩, ⟨j, inT', high⟩⟩
  by_cases inside : MeetsHull lo hi S k k
  · obtain ⟨l, inS, within⟩ := covered k inside
    exact ⟨l, subset inS, within⟩
  · obtain ⟨⟨above, aboveS, above_le⟩, -⟩ := meets i inT
    obtain ⟨-, ⟨below, belowS, le_below⟩⟩ := meets j inT'
    -- the point is past one end of the hull, so the member on that side holds it
    by_cases past : lo j ≤ k
    · exact ⟨j, inT', past, high⟩
    · have reaches : k ≤ hi below := (not_le.mp past).le.trans le_below
      have beyond : ¬ lo above ≤ k := fun near =>
        inside ⟨⟨above, aboveS, near⟩, ⟨below, belowS, reaches⟩⟩
      exact ⟨i, inT, low, (not_le.mp beyond).le.trans above_le⟩

theorem Covered.beside (covered : Covered lo hi S) (ordered : ∀ i ∈ S, lo i ≤ hi i) {a b : K}
    (nonempty : a ≤ b) (misses : ∀ i ∈ S, b < lo i ∨ hi i < a) :
    (∀ i ∈ S, b < lo i) ∨ ∀ i ∈ S, hi i < a := by
  by_contra straddles
  simp only [not_or, not_forall, not_lt] at straddles
  obtain ⟨⟨i, inS, low⟩, ⟨j, inS', high⟩⟩ := straddles
  have left : hi i < a := (misses i inS).resolve_left (not_lt.mpr low)
  obtain ⟨l, inL, low', high'⟩ :=
    covered a ⟨⟨i, inS, (ordered i inS).trans left.le⟩, ⟨j, inS', high⟩⟩
  obtain right | left' := misses l inL
  · exact absurd (low'.trans nonempty) (not_le.mpr right)
  · exact absurd high' (not_le.mpr left')

end Intervals
