import TalusDB.DB.Boundary

/-! What the two ways of picking a compaction guarantee about its inputs. No file that
is left behind lies between two inputs, and none of them goes on with the user key an
input of its level ends with. -/
namespace TalusDB
open List Option InternalKey
variable {K V : Type} [LinearOrder K]

/-- The file ends before all of the files, or begins behind all of them. -/
def Contiguous (levelFiles files : List (FileMetaData K V)) : Prop :=
  ∀ g ∈ levelFiles, g ∉ files →
    (∀ f ∈ files, g.largest < f.smallest) ∨ ∀ f ∈ files, f.largest < g.smallest

/-- The file ends before all of the files, or begins behind all of them with another
user key. -/
def Outside (files : List (FileMetaData K V)) (g : FileMetaData K V) : Prop :=
  (∀ f ∈ files, g.largest < f.smallest) ∨ ∀ f ∈ files, f.largest.userKey < g.smallest.userKey

/-- No user key of the file lies between those of the files. -/
def UserOutside (files : List (FileMetaData K V)) (g : FileMetaData K V) : Prop :=
  (∀ f ∈ files, g.largest.userKey < f.smallest.userKey) ∨
    ∀ f ∈ files, f.largest.userKey < g.smallest.userKey

theorem UserOutside.outside {files : List (FileMetaData K V)} {g : FileMetaData K V}
    (outside : UserOutside files g) : Outside files g :=
  outside.imp_left fun before f mem => lt_of_userKey_lt (before f mem)

/-- The chosen inputs of a level. -/
structure Chosen (v : Version K V) (level : Nat) (files : List (FileMetaData K V)) : Prop where
  nonempty : files ≠ []
  subset : ∀ f ∈ files, f ∈ v.files level
  sorted : 0 < level → SortedDisjoint files
  outside : ∀ g ∈ v.files level, g ∉ files → Outside files g
  /-- At level 0, where files may share user keys, no other file shares one. -/
  shallow : level = 0 → files.Sublist (v.files 0) ∧ ∀ g ∈ v.files 0, g ∉ files → UserOutside files g

section
variable {levelFiles files : List (FileMetaData K V)}

theorem addBoundaryInputs_subset (subset : ∀ f ∈ files, f ∈ levelFiles) :
    ∀ f ∈ addBoundaryInputs levelFiles files, f ∈ levelFiles := by
  refine addBoundaryInputs_induct (P := fun files => ∀ f ∈ files, f ∈ levelFiles) ?_ subset
  intro files key f subset _ boundary g mem
  obtain mem | mem := mem_append.mp mem
  · exact subset g mem
  · rw [mem_singleton.mp mem]
    exact boundary.mem

theorem subset_addBoundaryInputs : ∀ f ∈ files, f ∈ addBoundaryInputs levelFiles files := by
  refine addBoundaryInputs_induct (P := fun result => ∀ f ∈ files, f ∈ result) ?_ fun _ mem => mem
  intro result key f subset _ _ g mem
  exact mem_append_left _ (subset g mem)

theorem addBoundaryInputs_nil : addBoundaryInputs levelFiles ([] : List (FileMetaData K V)) = [] :=
  rfl

theorem addBoundaryInputs_sorted (sorted : SortedDisjoint files) :
    SortedDisjoint (addBoundaryInputs levelFiles files) := by
  refine addBoundaryInputs_induct ?_ sorted
  intro files key f sorted largest boundary
  refine pairwise_append.mpr ⟨sorted, pairwise_singleton _ _, ?_⟩
  intro g mem h last
  rw [mem_singleton.mp last]
  exact (largest.1 g mem).trans_lt boundary.goesOn.1

/-- No file lies between the files and the boundary file: it would be a boundary file
before that one. -/
theorem addBoundaryInputs_contiguous (disjoint : SortedDisjoint levelFiles)
    (contiguous : Contiguous levelFiles files) :
    Contiguous levelFiles (addBoundaryInputs levelFiles files) := by
  refine addBoundaryInputs_induct ?_ contiguous
  intro files key f contiguous ⟨bound, last, inFiles, same⟩ boundary g mem out
  rw [mem_append, mem_singleton, not_or] at out
  have behind : last.largest < f.smallest := same ▸ boundary.goesOn.1
  obtain before | after := contiguous g mem out.1
  · left
    intro h inside
    obtain inside | inside := mem_append.mp inside
    · exact before h inside
    · rw [mem_singleton.mp inside]
      exact ((before last inFiles).trans_le last.ordered).trans behind
  · right
    obtain eq | less | more := disjoint.separated mem boundary.mem
    · exact absurd eq out.2
    · -- `g` begins between two keys of one user key
      have low : key < g.smallest := same ▸ after last inFiles
      have user : g.smallest.userKey = key.userKey := by
        apply le_antisymm
        · rw [← boundary.goesOn.2]
          exact userKey_mono (g.ordered.trans less.le)
        · exact userKey_mono low.le
      exact absurd (g.ordered.trans_lt less) (not_lt.mpr (boundary.first g mem ⟨low, user⟩))
    · intro h inside
      obtain inside | inside := mem_append.mp inside
      · exact after h inside
      · rw [mem_singleton.mp inside]
        exact more

variable {g : FileMetaData K V}

theorem addBoundaryInputs_outside (disjoint : SortedDisjoint levelFiles)
    (contiguous : Contiguous levelFiles files) (nonempty : files ≠ [])
    (mem : g ∈ levelFiles) (out : g ∉ addBoundaryInputs levelFiles files) :
    Outside (addBoundaryInputs levelFiles files) g := by
  obtain ⟨key, ⟨bound, last, inFiles, same⟩, closed⟩ :=
    addBoundaryInputs_closed levelFiles nonempty
  obtain before | after := addBoundaryInputs_contiguous disjoint contiguous g mem out
  · exact .inl before
  · right
    have low : key < g.smallest := same ▸ after last inFiles
    have less : key.userKey < g.smallest.userKey :=
      (userKey_mono low.le).lt_of_ne fun eq => closed g mem ⟨low, eq.symm⟩
    intro f inside
    exact (userKey_mono (bound f inside)).trans_lt less

theorem not_overlaps {range : Option K × Option K} (missed : ¬ overlaps range g = true) :
    (∃ a ∈ range.1, g.largest.userKey < a) ∨ ∃ b ∈ range.2, b < g.smallest.userKey := by
  rw [overlaps_iff, not_and_or] at missed
  push Not at missed
  exact missed

theorem contiguous_filter (disjoint : SortedDisjoint levelFiles) (range : Option K × Option K) :
    Contiguous levelFiles (levelFiles.filter (overlaps range)) := by
  intro g mem out
  have missed : ¬ overlaps range g = true := fun hit => out (mem_filter.mpr ⟨mem, hit⟩)
  obtain ⟨a, isLow, below⟩ | ⟨b, isHigh, above⟩ := not_overlaps missed
  · left
    intro f inside
    obtain ⟨inLevel, hit⟩ := mem_filter.mp inside
    have reaches := below.trans_le ((overlaps_iff.mp hit).1 a isLow)
    obtain rfl | less | more := disjoint.separated mem inLevel
    · exact absurd inside out
    · exact less
    · exact absurd reaches (not_lt.mpr (userKey_mono (more.le.trans g.ordered)))
  · right
    intro f inside
    obtain ⟨inLevel, hit⟩ := mem_filter.mp inside
    have reaches := ((overlaps_iff.mp hit).2 b isHigh).trans_lt above
    obtain rfl | less | more := disjoint.separated mem inLevel
    · exact absurd inside out
    · exact absurd reaches (not_lt.mpr (userKey_mono (g.ordered.trans less.le)))
    · exact more

theorem addBoundaryInputs_eq_self (outside : ∀ g ∈ levelFiles, g ∉ files → UserOutside files g) :
    addBoundaryInputs levelFiles files = files := by
  rw [addBoundaryInputs]
  cases found : findLargestKey files with
  | none => rfl
  | some key =>
    obtain ⟨bound, last, inFiles, same⟩ := findLargestKey_spec found
    have spec := findSmallestBoundaryFile_spec levelFiles key
    have none : findSmallestBoundaryFile levelFiles key = none := by
      cases boundary : findSmallestBoundaryFile levelFiles key with
      | none => rfl
      | some g =>
        rw [boundary] at spec
        obtain ⟨low, user⟩ := spec.goesOn
        by_cases inside : g ∈ files
        · exact absurd (low.trans_le g.ordered) (not_lt.mpr (bound g inside))
        · rw [← same] at user
          obtain before | after := outside g spec.mem inside
          · have less := (before last inFiles).trans_le last.user_ordered
            exact absurd (user ▸ less) (not_lt.mpr g.user_ordered)
          · exact absurd user (after last inFiles).ne'
    show addBoundaryLoop levelFiles levelFiles.length key files = files
    cases levelFiles.length with
    | zero => rfl
    | succ n => rw [addBoundaryLoop, none]

end

section
variable {v : Version K V} {level : Nat} {files : List (FileMetaData K V)}

theorem Chosen.of_contiguous (disjoint : v.LevelsDisjoint) (deep : 0 < level)
    (nonempty : files ≠ []) (subset : ∀ f ∈ files, f ∈ v.files level)
    (sorted : SortedDisjoint files) (contiguous : Contiguous (v.files level) files) :
    Chosen v level (addBoundaryInputs (v.files level) files) where
  nonempty := by
    obtain ⟨f, mem⟩ := exists_mem_of_ne_nil _ nonempty
    exact ne_nil_of_mem (subset_addBoundaryInputs f mem)
  subset := addBoundaryInputs_subset subset
  sorted _ := addBoundaryInputs_sorted sorted
  outside _ mem out := addBoundaryInputs_outside (disjoint level deep) contiguous nonempty mem out
  shallow zero := absurd zero deep.ne'

theorem Chosen.of_filter (disjoint : v.LevelsDisjoint) (deep : 0 < level)
    (range : Option K × Option K) (nonempty : (v.files level).filter (overlaps range) ≠ []) :
    Chosen v level (addBoundaryInputs (v.files level)
      ((v.files level).filter (overlaps range))) :=
  .of_contiguous disjoint deep nonempty (fun _ mem => mem_of_mem_filter mem)
    ((disjoint level deep).sublist filter_sublist)
    (contiguous_filter (disjoint level deep) range)

variable {range : Option K × Option K} {options : Options K V}
  {inputs0 inputs1 : List (FileMetaData K V)} {all : InternalKey K × InternalKey K}
  {inputs : List (FileMetaData K V) × List (FileMetaData K V)} {c : Compaction K V}

theorem Closure.userOutside {levelFiles : List (FileMetaData K V)}
    (closure : Closure levelFiles range files) {g : FileMetaData K V} (mem : g ∈ levelFiles)
    (out : g ∉ files) : UserOutside files g := by
  have missed : ¬ overlaps closure.range' g = true := fun hit =>
    out (closure.inputs_eq ▸ mem_filter.mpr ⟨mem, hit⟩)
  obtain ⟨a, isLow, below⟩ | ⟨b, isHigh, above⟩ := not_overlaps missed
  · left
    intro f inside
    exact below.trans_le ((closure.inside f inside).1 a isLow)
  · right
    intro f inside
    exact ((closure.inside f inside).2 b isHigh).trans_lt above

theorem Chosen.of_closure (closure : Closure (v.files 0) range files)
    (nonempty : files ≠ []) : Chosen v 0 (addBoundaryInputs (v.files 0) files) := by
  have outside : ∀ g ∈ v.files 0, g ∉ files → UserOutside files g :=
    fun g mem out => closure.userOutside mem out
  have sub : files.Sublist (v.files 0) := closure.inputs_eq ▸ filter_sublist
  rw [addBoundaryInputs_eq_self outside]
  exact {
    nonempty, subset := fun f mem => sub.subset mem, sorted := fun deep => absurd deep (by omega)
    outside := fun g mem out => (outside g mem out).outside, shallow := fun _ => ⟨sub, outside⟩ }

theorem Chosen.of_overlapping (disjoint : v.LevelsDisjoint) (level : Nat)
    (begin finish : Option (InternalKey K))
    (nonempty : v.getOverlappingInputs level begin finish ≠ []) :
    Chosen v level (addBoundaryInputs (v.files level)
      (v.getOverlappingInputs level begin finish)) := by
  cases level with
  | zero =>
    obtain ⟨closure⟩ := getOverlappingInputs_closure v begin finish
    exact .of_closure closure nonempty
  | succ level =>
    rw [getOverlappingInputs_sorted v level.succ_pos] at nonempty ⊢
    exact .of_filter disjoint level.succ_pos _ nonempty

structure Selected (v : Version K V) (level : Nat)
    (inputs : List (FileMetaData K V) × List (FileMetaData K V)) : Prop where
  chosen : Chosen v level inputs.1
  subset : ∀ f ∈ inputs.2, f ∈ v.files (level + 1)
  sorted : SortedDisjoint inputs.2
  outside : ∀ g ∈ v.files (level + 1), g ∉ inputs.2 → Outside (inputs.1 ++ inputs.2) g

theorem Chosen.selected (chosen : Chosen v level files) (disjoint : v.LevelsDisjoint)
    {range : InternalKey K × InternalKey K} (isRange : IsRange files range) :
    Selected v level (files, secondInputs v level range) := by
  have deep : SortedDisjoint (v.files (level + 1)) := disjoint _ level.succ_pos
  rw [secondInputs, getOverlappingInputs_sorted v level.succ_pos]
  refine ⟨chosen, ?_, ?_, ?_⟩
  · exact addBoundaryInputs_subset fun _ mem => mem_of_mem_filter mem
  · exact addBoundaryInputs_sorted (deep.sublist filter_sublist)
  intro g mem out
  -- `g` misses the range of the inputs at `level`
  have missed : ¬ g.Meets range.1.userKey range.2.userKey := fun meets =>
    out (subset_addBoundaryInputs g (mem_filter.mpr ⟨mem, overlaps_some.mpr meets⟩))
  have low (f : FileMetaData K V) (inside : f ∈ files) : range.1.userKey ≤ f.smallest.userKey :=
    userKey_mono (isRange.within f inside).1
  have high (f : FileMetaData K V) (inside : f ∈ files) : f.largest.userKey ≤ range.2.userKey :=
    userKey_mono (isRange.within f inside).2
  have beside : g.largest.userKey < range.1.userKey ∨ range.2.userKey < g.smallest.userKey := by
    by_contra none
    rw [not_or, not_lt, not_lt] at none
    exact missed none
  cases hits : (v.files (level + 1)).filter
      (overlaps (some range.1.userKey, some range.2.userKey)) with
  | nil =>
    simp only [map_some, hits, addBoundaryInputs_nil, append_nil]
    apply UserOutside.outside
    obtain before | after := beside
    · exact .inl fun f inside => before.trans_le (low f inside)
    · exact .inr fun f inside => (high f inside).trans_lt after
  | cons hit rest =>
    have first : hit ∈ (v.files (level + 1)).filter
        (overlaps (some range.1.userKey, some range.2.userKey)) := by simp [hits]
    have meets := overlaps_some.mp (mem_filter.mp first).2
    have added : hit ∈ addBoundaryInputs (v.files (level + 1)) ((v.files (level + 1)).filter
        (overlaps (some range.1.userKey, some range.2.userKey))) :=
      subset_addBoundaryInputs hit first
    obtain before | after := addBoundaryInputs_outside deep (contiguous_filter deep _)
      (ne_nil_of_mem first) mem out
    · left
      have ends : g.smallest.userKey ≤ range.2.userKey :=
        (userKey_mono (g.ordered.trans (before hit added).le)).trans meets.2
      have less := beside.resolve_right (not_lt.mpr ends)
      intro f inside
      obtain inside | inside := mem_append.mp inside
      · exact lt_of_userKey_lt (less.trans_le (low f inside))
      · exact before f inside
    · right
      have begins : range.1.userKey ≤ g.largest.userKey :=
        (meets.1.trans (after hit added).le).trans g.user_ordered
      have less := beside.resolve_left (not_lt.mpr begins)
      intro f inside
      obtain inside | inside := mem_append.mp inside
      · exact (high f inside).trans_lt less
      · exact after f inside

theorem mem_expanded (subset : ∀ f ∈ inputs0, f ∈ v.files level)
    (isAll : IsRange (inputs0 ++ inputs1) all) : ∀ f ∈ inputs0,
      f ∈ addBoundaryInputs (v.files level)
        (v.getOverlappingInputs level (some all.1) (some all.2)) := by
  intro f mem
  have within := isAll.within f (mem_append_left _ mem)
  apply subset_addBoundaryInputs f
  apply mem_getOverlappingInputs (subset f mem)
  apply overlaps_some.mpr
  constructor
  · exact userKey_mono (within.1.trans f.ordered)
  · exact userKey_mono (f.ordered.trans within.2)

theorem expandInputs_spec
    (expanded : expandInputs options v level inputs0 inputs1 all = some inputs) :
    ∃ range, getRange inputs.1 = some range ∧
      inputs.1 = addBoundaryInputs (v.files level)
        (v.getOverlappingInputs level (some all.1) (some all.2)) ∧
      inputs.2 = secondInputs v level range := by
  rw [expandInputs] at expanded
  obtain ⟨larger, expanded⟩ := ite_none_right_eq_some.mp expanded
  obtain ⟨range, found, expanded⟩ := bind_eq_some_iff.mp expanded
  obtain ⟨same, expanded⟩ := ite_none_right_eq_some.mp expanded
  cases expanded
  exact ⟨range, found, rfl, rfl⟩

theorem setupOtherInputs_spec (setup : setupOtherInputs options v level files = some c) :
    c.level = level ∧ c.inputVersion = v ∧
    ∃ range all, getRange (addBoundaryInputs (v.files level) files) = some range ∧
      getRange2 (addBoundaryInputs (v.files level) files) (secondInputs v level range) = some all ∧
      (c.inputs = (addBoundaryInputs (v.files level) files, secondInputs v level range) ∨
        expandInputs options v level (addBoundaryInputs (v.files level) files)
          (secondInputs v level range) all = some c.inputs) := by
  rw [setupOtherInputs] at setup
  obtain ⟨range, found, setup⟩ := bind_eq_some_iff.mp setup
  obtain ⟨all, foundAll, setup⟩ := bind_eq_some_iff.mp setup
  obtain ⟨range', -, setup⟩ := bind_eq_some_iff.mp setup
  obtain ⟨all', -, setup⟩ := bind_eq_some_iff.mp setup
  cases setup
  refine ⟨rfl, rfl, range, all, found, foundAll, ?_⟩
  split
  · exact .inl rfl
  · cases expanded : expandInputs options v level (addBoundaryInputs (v.files level) files)
      (secondInputs v level range) all with
    | none => exact .inl rfl
    | some inputs => exact .inr rfl

theorem expandInputs_selected (disjoint : v.LevelsDisjoint)
    (expanded : expandInputs options v level inputs0 inputs1 all = some inputs) :
    Selected v level inputs := by
  obtain ⟨first, second⟩ := inputs
  obtain ⟨range, found, rfl, rfl⟩ := expandInputs_spec expanded
  apply Chosen.selected (.of_overlapping disjoint level _ _ ?_) disjoint (getRange_spec found)
  intro empty
  simp only [empty, addBoundaryInputs_nil] at found
  cases found

theorem setupOtherInputs_selected (disjoint : v.LevelsDisjoint)
    (chosen : Chosen v level (addBoundaryInputs (v.files level) files))
    (setup : setupOtherInputs options v level files = some c) :
    c.level = level ∧ c.inputVersion = v ∧ Selected v level c.inputs := by
  obtain ⟨atLevel, version, range, all, found, -, plain | expanded⟩ := setupOtherInputs_spec setup
  · exact ⟨atLevel, version, plain ▸ chosen.selected disjoint (getRange_spec found)⟩
  · exact ⟨atLevel, version, expandInputs_selected disjoint expanded⟩

theorem setupOtherInputs_nonempty (options : Options K V)
    {inputs : List (FileMetaData K V)} (nonempty : inputs ≠ []) :
    ∃ c, setupOtherInputs options v level inputs = some c ∧ c.level = level ∧ c.inputs.1 ≠ [] := by
  obtain ⟨f, mem⟩ := exists_mem_of_ne_nil _ nonempty
  have nonempty0 : addBoundaryInputs (v.files level) inputs ≠ [] :=
    ne_nil_of_mem (subset_addBoundaryInputs f mem)
  obtain ⟨range, isRange⟩ := getRange_isSome nonempty0
  obtain ⟨all, isAll⟩ := getRange_isSome
    (append_ne_nil_of_left_ne_nil nonempty0 (secondInputs v level range))
  obtain ⟨pair, isPair⟩ : ∃ pair, (if (secondInputs v level range).isEmpty then none
      else expandInputs options v level (addBoundaryInputs (v.files level) inputs)
        (secondInputs v level range) all).getD
      (addBoundaryInputs (v.files level) inputs, secondInputs v level range) = pair := ⟨_, rfl⟩
  have chosen : pair.1 ≠ [] := by
    rw [← isPair]
    split
    · exact nonempty0
    · cases expanded : expandInputs options v level (addBoundaryInputs (v.files level) inputs)
        (secondInputs v level range) all with
      | none => exact nonempty0
      | some inputs =>
        obtain ⟨range', found, -⟩ := expandInputs_spec expanded
        intro empty
        rw [show inputs.1 = [] from empty] at found
        cases found
  obtain ⟨range', isRange'⟩ := getRange_isSome chosen
  obtain ⟨all', isAll'⟩ := getRange_isSome (append_ne_nil_of_left_ne_nil chosen pair.2)
  rw [setupOtherInputs, isRange, bind_eq_bind, bind_some]
  simp only [getRange2, isAll, bind_some, isPair, isRange', isAll']
  exact ⟨_, rfl, rfl, chosen⟩

theorem startInputs_nonempty {file : Nat × FileMetaData K V} (mem : file.2 ∈ v.files file.1) :
    startInputs v file.1 file.2 ≠ [] := by
  rw [startInputs]
  split
  case isTrue zero =>
    rw [zero] at mem
    refine ne_nil_of_mem (mem_getOverlappingInputs mem _ _ ?_)
    exact overlaps_some.mpr ⟨file.2.user_ordered, file.2.user_ordered⟩
  case isFalse => exact cons_ne_nil _ _

end

structure Compaction.Picked (v : Version K V) (c : Compaction K V) : Prop where
  bound : c.level + 1 < kNumLevels
  version : c.inputVersion = v
  selected : Selected v c.level c.inputs

section
variable {v : Version K V} {options : Options K V} {c : Compaction K V}

variable {files : List (FileMetaData K V)} {compactPointer : Nat → Option (InternalKey K)}
  {fileToCompact : Option (Nat × FileMetaData K V)} {level : Nat} {file : FileMetaData K V}

theorem nextFileToCompact_mem {pointer : Option (InternalKey K)}
    {f : FileMetaData K V} (next : nextFileToCompact files pointer = some f) : f ∈ files := by
  rw [nextFileToCompact] at next
  split at next
  case h_1 g found =>
    cases next
    exact mem_of_find?_eq_some found
  case h_2 => exact mem_of_mem_head? next

/-- The file that a compaction is wanted for stands where it says. -/
def Wanted (v : Version K V) (fileToCompact : Option (Nat × FileMetaData K V)) : Prop :=
  ∀ want ∈ fileToCompact, want.2 ∈ v.files want.1

theorem compactionStart_mem (wanted : Wanted v fileToCompact)
    (start : compactionStart v compactPointer fileToCompact = some (level, file)) :
    file ∈ v.files level := by
  rw [compactionStart] at start
  split at start
  · obtain ⟨f, next, same⟩ := map_eq_some_iff.mp start
    cases same
    exact nextFileToCompact_mem next
  · exact wanted _ start

theorem pickCompaction_start (wanted : Wanted v fileToCompact)
    (picked : pickCompaction options v compactPointer fileToCompact = some c) :
    ∃ level file, level + 1 < kNumLevels ∧ file ∈ v.files level ∧
      setupOtherInputs options v level (startInputs v level file) = some c := by
  rw [pickCompaction] at picked
  obtain ⟨⟨level, file⟩, start, picked⟩ := bind_eq_some_iff.mp picked
  by_cases bound : level + 1 < kNumLevels
  · simp only [if_pos bound] at picked
    exact ⟨level, file, bound, compactionStart_mem wanted start, picked⟩
  · simp only [if_neg bound] at picked
    cases picked

theorem startInputs_chosen (disjoint : v.LevelsDisjoint) (mem : file ∈ v.files level) :
    Chosen v level (addBoundaryInputs (v.files level) (startInputs v level file)) := by
  rw [startInputs]
  split
  case isTrue zero =>
    subst zero
    apply Chosen.of_overlapping disjoint
    exact ne_nil_of_mem (mem_getOverlappingInputs mem (some file.smallest)
      (some file.largest) (overlaps_some.mpr ⟨file.user_ordered, file.user_ordered⟩))
  case isFalse deep =>
    have deep := Nat.pos_of_ne_zero deep
    refine .of_contiguous disjoint deep (by simp) (by simpa using mem)
      (pairwise_singleton _ _) ?_
    intro g inLevel out
    simp only [mem_singleton, forall_eq] at out ⊢
    exact ((disjoint level deep).separated inLevel mem).resolve_left out

theorem pickCompaction_picked (disjoint : v.LevelsDisjoint) (wanted : Wanted v fileToCompact)
    (picked : pickCompaction options v compactPointer fileToCompact = some c) : c.Picked v := by
  obtain ⟨level, file, bound, mem, setup⟩ := pickCompaction_start wanted picked
  obtain ⟨rfl, version, selected⟩ :=
    setupOtherInputs_selected disjoint (startInputs_chosen disjoint mem) setup
  exact ⟨bound, version, selected⟩

theorem limitInputs_append (limit total : Nat) (files : List (FileMetaData K V)) :
    ∃ rest, files = limitInputs limit total files ++ rest ∧
      (files ≠ [] → limitInputs limit total files ≠ []) := by
  induction files generalizing total with
  | nil => exact ⟨[], rfl, fun h => absurd rfl h⟩
  | cons f files ih =>
    rw [limitInputs]
    split
    · exact ⟨files, rfl, by simp⟩
    · obtain ⟨rest, split, -⟩ := ih (total + f.fileSize)
      exact ⟨rest, by rw [cons_append, ← split], by simp⟩

theorem Contiguous.of_append {levelFiles rest : List (FileMetaData K V)}
    (contiguous : Contiguous levelFiles (files ++ rest))
    (sorted : SortedDisjoint (files ++ rest)) : Contiguous levelFiles files := by
  intro g mem out
  by_cases later : g ∈ rest
  · right
    intro f inside
    exact (pairwise_append.mp sorted).2.2 f inside g later
  · obtain before | after := contiguous g mem (by simp [out, later])
    · exact .inl fun f inside => before f (mem_append_left _ inside)
    · exact .inr fun f inside => after f (mem_append_left _ inside)

theorem limitInputs_contiguous (sorted : SortedDisjoint (v.files level))
    (deep : 0 < level) (limit : Nat) (begin finish : Option (InternalKey K)) :
    SortedDisjoint (v.getOverlappingInputs level begin finish) ∧ Contiguous (v.files level)
      (limitInputs limit 0 (v.getOverlappingInputs level begin finish)) := by
  obtain ⟨rest, split, -⟩ := limitInputs_append limit 0 (v.getOverlappingInputs level begin finish)
  have sorted' : SortedDisjoint (v.getOverlappingInputs level begin finish) := by
    rw [getOverlappingInputs_sorted v deep]
    exact sorted.sublist filter_sublist
  have contiguous : Contiguous (v.files level) (v.getOverlappingInputs level begin finish) := by
    rw [getOverlappingInputs_sorted v deep]
    exact contiguous_filter sorted _
  refine ⟨sorted', ?_⟩
  rw [split] at sorted' contiguous
  exact contiguous.of_append sorted'

theorem limitInputs_chosen (disjoint : v.LevelsDisjoint) (limit level : Nat)
    (begin finish : Option (InternalKey K))
    (nonempty : v.getOverlappingInputs level begin finish ≠ []) :
    Chosen v level (addBoundaryInputs (v.files level)
      (if 0 < level then limitInputs limit 0 (v.getOverlappingInputs level begin finish)
        else v.getOverlappingInputs level begin finish)) := by
  split
  case isFalse => exact .of_overlapping disjoint level begin finish nonempty
  case isTrue deep =>
    obtain ⟨rest, split, limited⟩ := limitInputs_append limit 0
      (v.getOverlappingInputs level begin finish)
    obtain ⟨sorted, contiguous⟩ :=
      limitInputs_contiguous (disjoint level deep) deep limit begin finish
    have subset : ∀ f ∈ v.getOverlappingInputs level begin finish, f ∈ v.files level := by
      rw [getOverlappingInputs_sorted v deep]
      exact fun f mem => mem_of_mem_filter mem
    rw [split] at sorted subset
    exact .of_contiguous disjoint deep (limited nonempty)
      (fun f mem => subset f (mem_append_left _ mem))
      (sorted.sublist (sublist_append_left _ _)) contiguous

theorem compactRange_picked (disjoint : v.LevelsDisjoint)
    (bound : level + 1 < kNumLevels) {begin finish : Option (InternalKey K)}
    (picked : compactRange options v level begin finish = some c) : c.Picked v := by
  rw [compactRange] at picked
  obtain ⟨nonempty, picked⟩ := ite_none_left_eq_some.mp picked
  rw [List.isEmpty_iff] at nonempty
  have chosen := limitInputs_chosen disjoint (maxFileSizeForLevel options level) level begin
    finish nonempty
  obtain ⟨rfl, version, selected⟩ := setupOtherInputs_selected disjoint chosen picked
  exact ⟨bound, version, selected⟩

/-- The compactions of a version: `PickCompaction` with any compact pointers and any
file that reads ask for, or `CompactRange` with any range. -/
inductive Compaction.Produced (options : Options K V) (v : Version K V) (c : Compaction K V) :
    Prop where
  | automatic (compactPointer : Nat → Option (InternalKey K))
      (fileToCompact : Option (Nat × FileMetaData K V)) (wanted : Wanted v fileToCompact)
      (picked : pickCompaction options v compactPointer fileToCompact = some c)
  | manual (level : Nat) (begin finish : Option (InternalKey K)) (bound : level + 1 < kNumLevels)
      (picked : compactRange options v level begin finish = some c)

theorem Compaction.Produced.picked (disjoint : v.LevelsDisjoint)
    (produced : Compaction.Produced options v c) : c.Picked v := by
  cases produced with
  | automatic compactPointer fileToCompact wanted picked =>
    exact pickCompaction_picked disjoint wanted picked
  | manual level begin finish bound picked => exact compactRange_picked disjoint bound picked

end
end TalusDB
