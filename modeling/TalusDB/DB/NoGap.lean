import TalusDB.DB.Inputs

/-! The inputs of an automatic compaction leave no gap between their user keys: each
one was taken because it meets the hull of those before it. -/
namespace TalusDB
open Intervals List InternalKey
variable {K V : Type} [LinearOrder K]

/-- Every user key between those of the files lies in the range of one of them. -/
abbrev NoGap (files : Set (FileMetaData K V)) : Prop :=
  Covered (fun f => f.smallest.userKey) (fun f => f.largest.userKey) files

abbrev FilesHull (files : Set (FileMetaData K V)) (a b : K) : Prop :=
  MeetsHull (fun f => f.smallest.userKey) (fun f => f.largest.userKey) files a b

section
variable {files others : List (FileMetaData K V)}

variable {f : FileMetaData K V} {range : InternalKey K × InternalKey K}

theorem filesHull_self {files : Set (FileMetaData K V)} (mem : f ∈ files) :
    FilesHull files f.smallest.userKey f.largest.userKey :=
  ⟨⟨f, mem, f.user_ordered⟩, ⟨f, mem, f.user_ordered⟩⟩

theorem IsRange.filesHull (isRange : IsRange files range)
    (meets : f.Meets range.1.userKey range.2.userKey) :
    FilesHull {f | f ∈ files} f.smallest.userKey f.largest.userKey := by
  obtain ⟨first, inside, low⟩ := isRange.first
  obtain ⟨last, inside', high⟩ := isRange.last
  rw [← low, ← high] at meets
  exact ⟨⟨first, inside, meets.1⟩, ⟨last, inside', meets.2⟩⟩

theorem NoGap.addBoundaryInputs (levelFiles others : List (FileMetaData K V))
    (noGap : NoGap {f | f ∈ others ++ files}) :
    NoGap {f | f ∈ others ++ addBoundaryInputs levelFiles files} := by
  refine addBoundaryInputs_induct (P := fun files => NoGap {f | f ∈ others ++ files}) ?_ noGap
  intro files key f noGap ⟨_, last, inside, same⟩ boundary
  have mem : last ∈ {f | f ∈ others ++ files} := mem_append_right _ inside
  have joins : f.smallest.userKey = last.largest.userKey := same ▸ boundary.goesOn.2
  refine noGap.extend (fun g inside => ?_) ?_
  · show g ∈ others ++ (files ++ [f])
    rw [← append_assoc]
    exact mem_append_left _ inside
  · intro g mem'
    change g ∈ others ++ (files ++ [f]) at mem'
    rw [← append_assoc] at mem'
    obtain old | new := mem_append.mp mem'
    · exact filesHull_self old
    · rw [mem_singleton.mp new]
      exact ⟨⟨last, mem, last.user_ordered.trans (joins ▸ f.user_ordered)⟩, ⟨last, mem, joins.le⟩⟩

theorem NoGap.secondInputs (v : Version K V) (level : Nat)
    (noGap : NoGap {f | f ∈ others}) (isRange : IsRange files range)
    (subset : ∀ f ∈ files, f ∈ others) :
    NoGap {f | f ∈ others ++ secondInputs v level range} := by
  rw [TalusDB.secondInputs, getOverlappingInputs_sorted v level.succ_pos]
  refine NoGap.addBoundaryInputs _ _ (noGap.extend (fun g inside => mem_append_left _ inside) ?_)
  intro g mem
  obtain old | new := mem_append.mp mem
  · exact filesHull_self old
  · have meets := overlaps_some.mp (mem_filter.mp new).2
    exact (isRange.filesHull meets).mono fun f inside => subset f inside

theorem NoGap.widens {levelFiles : List (FileMetaData K V)} {start : Set (FileMetaData K V)}
    (noGap : NoGap start) {a b : K} (low : ∃ f ∈ start, f.smallest.userKey = a)
    (high : ∃ f ∈ start, f.largest.userKey = b) {range : Option K × Option K}
    (widens : Relation.ReflTransGen (Widens levelFiles) (some a, some b) range) :
    ∃ reached a' b', start ⊆ reached ∧ NoGap reached ∧ range = (some a', some b') ∧
      (∃ f ∈ reached, f.smallest.userKey = a') ∧ (∃ f ∈ reached, f.largest.userKey = b') ∧
      ∀ f ∈ reached, f ∈ start ∨ f ∈ levelFiles ∧ overlaps range f = true := by
  induction widens with
  | refl => exact ⟨start, a, b, subset_rfl, noGap, rfl, low, high, fun f mem => .inl mem⟩
  | tail _ last ih =>
    obtain ⟨reached, a', b', subset, covered, rfl, low, high, origin⟩ := ih
    have grown {f : FileMetaData K V} (hit : overlaps (some a', some b') f = true) :
        NoGap (insert f reached) := by
      obtain ⟨first, inside, rfl⟩ := low
      obtain ⟨final, inside', rfl⟩ := high
      have meets := overlaps_some.mp hit
      refine covered.extend (Set.subset_insert _ _) ?_
      intro g mem
      obtain rfl | old := mem
      · exact ⟨⟨first, inside, meets.1⟩, ⟨final, inside', meets.2⟩⟩
      · exact filesHull_self old
    have stays {range : Option K × Option K} (widens : Widens levelFiles (some a', some b') range)
        {f : FileMetaData K V} (mem : f ∈ levelFiles)
        (hit : overlaps (some a', some b') f = true) :
        ∀ g ∈ insert f reached, g ∈ start ∨ g ∈ levelFiles ∧ overlaps range g = true := by
      intro g inside
      obtain rfl | old := inside
      · exact .inr ⟨mem, widens.overlaps_mono hit⟩
      · exact (origin g old).imp_right fun ⟨inLevel, hits⟩ => ⟨inLevel, widens.overlaps_mono hits⟩
    cases last with
    | @left _ _ f mem hit less =>
      refine ⟨insert f reached, f.smallest.userKey, b', subset.trans (Set.subset_insert _ _),
        grown hit, rfl, ⟨f, Set.mem_insert _ _, rfl⟩, ?_, stays (.left mem hit less) mem hit⟩
      obtain ⟨final, inside, same⟩ := high
      exact ⟨final, Set.mem_insert_of_mem _ inside, same⟩
    | @right _ _ f mem hit less =>
      refine ⟨insert f reached, a', f.largest.userKey, subset.trans (Set.subset_insert _ _),
        grown hit, rfl, ?_, ⟨f, Set.mem_insert _ _, rfl⟩, stays (.right mem hit less) mem hit⟩
      obtain ⟨first, inside, same⟩ := low
      exact ⟨first, Set.mem_insert_of_mem _ inside, same⟩

theorem NoGap.getOverlappingInputs (v : Version K V) (level : Nat) (noGap : NoGap {f | f ∈ others})
    (isRange : IsRange others range) :
    NoGap {f | f ∈ others ++ v.getOverlappingInputs level (some range.1) (some range.2)} := by
  cases level with
  | zero =>
    obtain ⟨closure⟩ := getOverlappingInputs_closure v (some range.1) (some range.2)
    obtain ⟨first, inside, low⟩ := isRange.first
    obtain ⟨last, inside', high⟩ := isRange.last
    obtain ⟨reached, a, b, subset, covered, same, ⟨x, xIn, rfl⟩, ⟨y, yIn, rfl⟩, origin⟩ :=
      noGap.widens ⟨first, inside, congrArg _ low⟩ ⟨last, inside', congrArg _ high⟩ closure.widens
    have inputs := closure.inputs_eq
    refine covered.extend ?_ ?_
    · intro f mem
      obtain old | ⟨inLevel, hit⟩ := origin f mem
      · exact mem_append_left _ old
      · exact mem_append_right _ (inputs ▸ mem_filter.mpr ⟨inLevel, hit⟩)
    · intro f mem
      obtain old | new := mem_append.mp mem
      · exact filesHull_self (subset old)
      · rw [inputs, same] at new
        have meets := overlaps_some.mp (mem_filter.mp new).2
        exact ⟨⟨x, xIn, meets.1⟩, ⟨y, yIn, meets.2⟩⟩
  | succ level =>
    rw [getOverlappingInputs_sorted v level.succ_pos]
    refine noGap.extend (fun g inside => mem_append_left _ inside) ?_
    intro g mem
    obtain old | new := mem_append.mp mem
    · exact filesHull_self old
    · exact isRange.filesHull (overlaps_some.mp (mem_filter.mp new).2)

theorem NoGap.of_mem {files' : List (FileMetaData K V)} (noGap : NoGap {f | f ∈ files})
    (same : ∀ f, f ∈ files ↔ f ∈ files') : NoGap {f | f ∈ files'} := by
  have sets : {f | f ∈ files} = {f | f ∈ files'} := Set.ext same
  rwa [← sets]

end

section
variable {v : Version K V} {level : Nat}

theorem startInputs_noGap {file : FileMetaData K V} (mem : file ∈ v.files level) :
    NoGap {f | f ∈ startInputs v level file} := by
  have alone : NoGap {f | f ∈ [file]} := by
    simpa using (Covered.singleton file : NoGap {file})
  rw [startInputs]
  split
  case isFalse => exact alone
  case isTrue zero =>
    subst zero
    have isRange : IsRange [file] (file.smallest, file.largest) := getRange_spec rfl
    refine (alone.getOverlappingInputs v 0 isRange).of_mem fun f => ?_
    rw [mem_append, mem_singleton]
    refine or_iff_right_of_imp ?_
    rintro rfl
    exact mem_getOverlappingInputs mem (some f.smallest) (some f.largest)
      (overlaps_some.mpr ⟨f.user_ordered, f.user_ordered⟩)

variable {files inputs0 : List (FileMetaData K V)} {range all : InternalKey K × InternalKey K}
  {options : Options K V} {c : Compaction K V}

theorem secondInputs_mono {range' : InternalKey K × InternalKey K} (selected : Selected v level
      (files, secondInputs v level range')) (low : range'.1.userKey ≤ range.1.userKey)
    (high : range.2.userKey ≤ range'.2.userKey) :
    ∀ f ∈ secondInputs v level range, f ∈ secondInputs v level range' := by
  rw [secondInputs, getOverlappingInputs_sorted v level.succ_pos]
  refine addBoundaryInputs_induct (P := fun inputs => ∀ f ∈ inputs, f ∈ _) ?_ ?_
  · rintro inputs key f inside ⟨-, last, mem, rfl⟩ boundary g mem'
    obtain old | new := mem_append.mp mem'
    · exact inside g old
    rw [mem_singleton.mp new]
    -- a file that goes on behind an input is not outside
    by_contra out
    obtain ⟨less, user⟩ := boundary.goesOn
    have input : last ∈ files ++ secondInputs v level range' :=
      mem_append_right _ (inside last mem)
    obtain before | after := selected.outside f boundary.mem out
    · exact absurd ((f.ordered.trans_lt (before last input)).trans_le last.ordered) less.asymm
    · exact absurd user (after last input).ne'
  · intro f mem
    obtain ⟨inLevel, hit⟩ := mem_filter.mp mem
    have meets := overlaps_some.mp hit
    rw [secondInputs, getOverlappingInputs_sorted v level.succ_pos]
    exact subset_addBoundaryInputs f (mem_filter.mpr
      ⟨inLevel, overlaps_some.mpr ⟨low.trans meets.1, meets.2.trans high⟩⟩)

theorem expandInputs_noGap (disjoint : v.LevelsDisjoint)
    {inputs : List (FileMetaData K V) × List (FileMetaData K V)}
    (chosen : Chosen v level inputs0) (isRange : IsRange inputs0 range)
    (isAll : IsRange (inputs0 ++ secondInputs v level range) all)
    (noGap : NoGap {f | f ∈ inputs0 ++ secondInputs v level range})
    (expanded : expandInputs options v level inputs0 (secondInputs v level range) all =
      some inputs) : NoGap {f | f ∈ inputs.1 ++ inputs.2} := by
  have selected := expandInputs_selected disjoint expanded
  obtain ⟨first, second⟩ := inputs
  obtain ⟨range', found, rfl, rfl⟩ := expandInputs_spec expanded
  have isRange' := getRange_spec found
  have inputs0_mem := mem_expanded chosen.subset isAll
  have low : range'.1.userKey ≤ range.1.userKey := by
    obtain ⟨f, mem, same⟩ := isRange.first
    rw [← same]
    exact userKey_mono (isRange'.within f (inputs0_mem f mem)).1
  have high : range.2.userKey ≤ range'.2.userKey := by
    obtain ⟨f, mem, same⟩ := isRange.last
    rw [← same]
    exact userKey_mono (isRange'.within f (inputs0_mem f mem)).2
  have inputs1_mem := secondInputs_mono selected low high
  have wide := (NoGap.addBoundaryInputs (v.files level) _
    (noGap.getOverlappingInputs v level isAll)).secondInputs v level isRange'
      fun f mem => mem_append_right _ mem
  refine wide.of_mem fun f => ?_
  simp only [mem_append]
  constructor
  · rintro (((first | second) | new) | new)
    · exact .inl (inputs0_mem f first)
    · exact .inr (inputs1_mem f second)
    · exact .inl new
    · exact .inr new
  · rintro (new | new)
    · exact .inl (.inr new)
    · exact .inr new

theorem setupOtherInputs_noGap (disjoint : v.LevelsDisjoint) (noGap : NoGap {f | f ∈ files})
    (chosen : Chosen v level (addBoundaryInputs (v.files level) files))
    (setup : setupOtherInputs options v level files = some c) : NoGap {f | f ∈ c.allInputs} := by
  obtain ⟨-, -, range, all, found, foundAll, result⟩ := setupOtherInputs_spec setup
  have first : NoGap {f | f ∈ addBoundaryInputs (v.files level) files} :=
    NoGap.addBoundaryInputs _ [] noGap
  have second := first.secondInputs v level (getRange_spec found) fun f mem => mem
  rw [Compaction.allInputs]
  obtain plain | expanded := result
  · rw [plain]
    exact second
  · exact expandInputs_noGap disjoint chosen (getRange_spec found) (getRange_spec foundAll)
      second expanded

theorem pickCompaction_noGap (disjoint : v.LevelsDisjoint)
    {compactPointer : Nat → Option (InternalKey K)}
    {fileToCompact : Option (Nat × FileMetaData K V)} (wanted : Wanted v fileToCompact)
    (picked : pickCompaction options v compactPointer fileToCompact = some c) :
    NoGap {f | f ∈ c.allInputs} := by
  obtain ⟨level, file, -, mem, setup⟩ := pickCompaction_start wanted picked
  exact setupOtherInputs_noGap disjoint (startInputs_noGap mem) (startInputs_chosen disjoint mem)
    setup

end
end TalusDB
