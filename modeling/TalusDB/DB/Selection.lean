import TalusDB.DB.NoGap
import TalusDB.DB.CompactionReads

/-! The inputs of a compaction are closed: no file that stays behind at their levels
holds a part of what the inputs hold. -/
namespace TalusDB
variable {K V : Type} [LinearOrder K]

/-- The files that `PickCompaction` or `CompactRange` hands to `SetupOtherInputs`. -/
inductive InitialInputs (options : Options K V) (v : Version K V) :
    Nat → List (FileMetaData K V) → Prop where
  | pick {level : Nat} {file : FileMetaData K V}
      (compactPointer : Nat → Option (InternalKey K))
      (fileToCompact : Option (Nat × FileMetaData K V)) (wanted : Wanted v fileToCompact)
      (start : compactionStart v compactPointer fileToCompact = some (level, file)) :
      InitialInputs options v level (startInputs v level file)
  | range (level : Nat) (begin finish : Option (InternalKey K))
      (nonempty : v.getOverlappingInputs level begin finish ≠ []) :
      InitialInputs options v level
        (if 0 < level then limitInputs (maxFileSizeForLevel options level) 0
            (v.getOverlappingInputs level begin finish)
          else v.getOverlappingInputs level begin finish)

/-- The inputs of both levels, with the range of those of `level` and that of all. -/
structure ClosedInputs (v : Version K V) (level : Nat) (initial : List (FileMetaData K V))
    (inputs : List (FileMetaData K V) × List (FileMetaData K V))
    (range all : InternalKey K × InternalKey K) : Prop where
  contains : ∀ f ∈ initial, f ∈ inputs.1
  /-- A key that a file left behind may hold of the last user key is before the
  inputs' own. -/
  last : ∀ g ∈ v.files level, g ∉ inputs.1 → ∀ key : InternalKey K,
    g.smallest ≤ key → key ≤ g.largest → key.userKey = range.2.userKey → key < range.2
  shallow : level = 0 → ∀ g ∈ v.files 0, g ∉ inputs.1 →
    ¬ g.Meets range.1.userKey range.2.userKey
  overlapping : ∀ g ∈ v.files (level + 1), g.Meets range.1.userKey range.2.userKey → g ∈ inputs.2
  disjoint : ∀ g ∈ v.files (level + 1), g ∉ inputs.2 → g.largest < all.1 ∨ all.2 < g.smallest
  sorted : (0 < level → SortedDisjoint inputs.1 ∧ inputs.1.Nodup) ∧
    SortedDisjoint inputs.2 ∧ inputs.2.Nodup

theorem SortedDisjoint.nodup {files : List (FileMetaData K V)} (sorted : SortedDisjoint files) :
    files.Nodup := by
  apply List.Pairwise.imp _ sorted
  rintro f _ less rfl
  exact absurd less (not_lt.mpr f.ordered)

section
variable {v : Version K V} {level : Nat} {initial files : List (FileMetaData K V)}

variable {g : FileMetaData K V} {range : InternalKey K × InternalKey K} {options : Options K V}

theorem Outside.beside (outside : Outside files g) (isRange : IsRange files range) :
    g.largest < range.1 ∨ range.2.userKey < g.smallest.userKey := by
  obtain before | after := outside
  · obtain ⟨f, mem, same⟩ := isRange.first
    exact .inl (same ▸ before f mem)
  · obtain ⟨f, mem, same⟩ := isRange.last
    exact .inr (same ▸ after f mem)

theorem IsRange.ordered (isRange : IsRange files range) : range.1 ≤ range.2 := by
  obtain ⟨f, mem, same⟩ := isRange.first
  rw [← same]
  exact f.ordered.trans (isRange.within f mem).2

theorem UserOutside.not_meets (outside : UserOutside files g) (isRange : IsRange files range) :
    ¬ g.Meets range.1.userKey range.2.userKey := by
  rintro ⟨low, high⟩
  obtain before | after := outside
  · obtain ⟨f, mem, same⟩ := isRange.first
    exact absurd (before f mem) (not_lt.mpr (same ▸ low))
  · obtain ⟨f, mem, same⟩ := isRange.last
    exact absurd (after f mem) (not_lt.mpr (same ▸ high))

theorem Selected.closed {all : InternalKey K × InternalKey K}
    (selected : Selected v level (files, secondInputs v level range))
    (isRange : IsRange files range) (isAll : IsRange (files ++ secondInputs v level range) all)
    (contains : ∀ f ∈ initial, f ∈ files) :
    ClosedInputs v level initial (files, secondInputs v level range) range all where
  contains := contains
  last g mem out key low high user := by
    obtain before | after := (selected.chosen.outside g mem out).beside isRange
    · exact (high.trans_lt before).trans_le isRange.ordered
    · exact absurd user (after.trans_le (InternalKey.userKey_mono low)).ne'
  shallow zero g mem out := by
    subst zero
    exact ((selected.chosen.shallow rfl).2 g mem out).not_meets isRange
  overlapping g mem meets := by
    apply subset_addBoundaryInputs
    exact mem_getOverlappingInputs mem _ _ (overlaps_some.mpr meets)
  disjoint g mem out := by
    obtain before | after := (selected.outside g mem out).beside isAll
    · exact .inl before
    · exact .inr (InternalKey.lt_of_userKey_lt after)
  sorted := by
    constructor
    · intro deep
      exact ⟨selected.chosen.sorted deep, (selected.chosen.sorted deep).nodup⟩
    · exact ⟨selected.sorted, selected.sorted.nodup⟩

theorem Chosen.setup_closed {c : Compaction K V}
    (chosen : Chosen v level (addBoundaryInputs (v.files level) initial))
    (disjoint : v.LevelsDisjoint) (setup : setupOtherInputs options v level initial = some c) :
    ∃ range all, getRange c.inputs.1 = some range ∧ getRange2 c.inputs.1 c.inputs.2 = some all ∧
      ClosedInputs v level initial c.inputs range all := by
  obtain ⟨-, -, selected⟩ := setupOtherInputs_selected disjoint chosen setup
  obtain ⟨-, -, range, all, found, foundAll, result⟩ := setupOtherInputs_spec setup
  obtain plain | expanded := result
  · rw [plain] at selected ⊢
    refine ⟨range, all, found, foundAll, ?_⟩
    exact selected.closed (getRange_spec found) (getRange_spec foundAll) subset_addBoundaryInputs
  · obtain ⟨range', found', first, second⟩ := expandInputs_spec expanded
    obtain ⟨all', foundAll'⟩ := getRange_isSome
      (List.append_ne_nil_of_left_ne_nil selected.chosen.nonempty c.inputs.2)
    have contains : ∀ f ∈ initial, f ∈ c.inputs.1 := by
      intro f mem
      rw [first]
      exact mem_expanded chosen.subset (getRange_spec foundAll) f (subset_addBoundaryInputs f mem)
    have pair : c.inputs = (c.inputs.1, secondInputs v level range') := by rw [← second]
    refine ⟨range', all', found', foundAll', ?_⟩
    rw [pair]
    rw [pair] at selected
    rw [second] at foundAll'
    exact selected.closed (getRange_spec found') (getRange_spec foundAll') contains

theorem InitialInputs.chosen (start : InitialInputs options v level initial)
    (disjoint : v.LevelsDisjoint) :
    Chosen v level (addBoundaryInputs (v.files level) initial) := by
  cases start with
  | pick compactPointer fileToCompact wanted start =>
    exact startInputs_chosen disjoint (compactionStart_mem wanted start)
  | range begin finish nonempty => exact limitInputs_chosen disjoint _ _ _ _ nonempty

/-- For the files that `PickCompaction` or `CompactRange` starts with,
`SetupOtherInputs` finds closed inputs. -/
theorem setupOtherInputs_closed {options : Options K V} (disjoint : v.LevelsDisjoint)
    (start : InitialInputs options v level initial) :
    ∃ c range all, setupOtherInputs options v level initial = some c ∧
      getRange c.inputs.1 = some range ∧ getRange2 c.inputs.1 c.inputs.2 = some all ∧
      ClosedInputs v level initial c.inputs range all := by
  have chosen := start.chosen disjoint
  have nonempty : initial ≠ [] := by
    rintro rfl
    exact chosen.nonempty addBoundaryInputs_nil
  obtain ⟨c, setup, -⟩ := setupOtherInputs_nonempty options nonempty
  obtain ⟨range, all, found, foundAll, closed⟩ := chosen.setup_closed disjoint setup
  exact ⟨c, range, all, setup, found, foundAll, closed⟩

/-- The compaction of two tables of one key takes both. -/
theorem setupOtherInputs_closed_twoTables :
    ∃ c range all, setupOtherInputs exampleOptions twoTables 1 [tableOf 7] = some c ∧
      getRange c.inputs.1 = some range ∧ getRange2 c.inputs.1 c.inputs.2 = some all ∧
      ClosedInputs twoTables 1 [tableOf 7] c.inputs range all := by
  have start : compactionStart twoTables (fun _ => none) (some (1, tableOf 7)) =
      some (1, tableOf 7) := by
    rw [compactionStart, if_neg (by decide +kernel)]
  exact setupOtherInputs_closed twoTables_wellFormed.disjoint
    (.pick (fun _ => none) (some (1, tableOf 7)) (by simp [Wanted, twoTables]) start)

end
end TalusDB
