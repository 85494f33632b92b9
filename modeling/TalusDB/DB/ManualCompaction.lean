import TalusDB.DB.Background
import TalusDB.DB.CompactionReads

/-! `CompactRangeAtLevel` with the manual branch of `BackgroundCompaction`: one compaction after
another from the key where the last one ended, until there is nothing left in the range. -/
namespace TalusDB
open List Function Builder InternalKey Version CompactionState Bool
variable {K V : Type} [LinearOrder K]

structure ManualCompaction (K : Type) where
  level : Nat
  begin : Option (InternalKey K)
  finish : Option (InternalKey K)
  done : Bool := false

/-- The version and the next file number, and how far the manual compaction has come. -/
structure ManualState (K V : Type) [LinearOrder K] where
  version : Version K V
  nextFileNumber : Nat
  manual : ManualCompaction K

namespace ManualState
variable (options : Options K V) (smallestSnapshot : Nat)

/-- `CompactRangeAtLevel` up to its loop. -/
def start (v : Version K V) (nextFileNumber level : Nat) (begin finish : Option K) :
    ManualState K V where
  version := v
  nextFileNumber
  manual :=
    { level
      begin := begin.map (InternalKey.lookup · kMaxSequenceNumber)
      finish := finish.map (⟨·, 0, .deletion⟩) }

/-- `BackgroundCompaction` for a manual compaction. There is no result when the compaction
fails. -/
def backgroundCompaction (s : ManualState K V) : Option (ManualState K V) :=
  let m := s.manual
  match compactRange options s.version m.level m.begin m.finish with
  | none => some { s with manual := { m with done := true } }
  | some c => do
    let last ← c.inputs.1.getLast?
    let (nextFileNumber, work) ←
      doCompactionWork options s.nextFileNumber c smallestSnapshot
    some
      { version := s.version.logAndApply work.installEdit
        nextFileNumber
        manual := { m with begin := some last.largest } }

/-- The loop, with at most `fuel` rounds. -/
def compactRangeAtLevel : Nat → ManualState K V → Option (ManualState K V)
  | 0, _ => none
  | fuel + 1, s =>
    if s.manual.done then some s
    else (s.backgroundCompaction options smallestSnapshot).bind (compactRangeAtLevel fuel)

end ManualState

theorem Version.logAndApply_files {v : Version K V} {edit : VersionEdit K V} {level : Nat}
    (elsewhere : ∀ a ∈ edit.newFiles, a.1 ≠ level) :
    (v.logAndApply edit).files level =
      (v.files level).filter fun f => (level, f.number) ∉ edit.deletedFiles := by
  have kept (b : Builder K V) {additions : List (Nat × FileMetaData K V)}
      (elsewhere : ∀ a ∈ additions, a.1 ≠ level) :
      (additions.foldl newFile b).base = b.base ∧
        (additions.foldl newFile b).added level = b.added level ∧
        (additions.foldl newFile b).deleted level = b.deleted level := by
    induction additions generalizing b with
    | nil => exact ⟨rfl, rfl, rfl⟩
    | cons a rest ih =>
      obtain ⟨here, rest'⟩ := forall_mem_cons.mp elsewhere
      obtain ⟨base, added, deleted⟩ := ih (b.newFile a) rest'
      rw [foldl_cons, base, added, deleted]
      simp [newFile, update_of_ne here.symm]
  obtain ⟨base, added, deleted⟩ :=
    deleteFile_spec ({ base := v } : Builder K V) edit.deletedFiles
  obtain ⟨base', added', deleted'⟩ := kept (edit.deletedFiles.foldl deleteFile
    ({ base := v } : Builder K V)) elsewhere
  by_cases bound : level < kNumLevels
  · simp only [logAndApply, saveTo, if_pos bound, apply, base', added',
      deleted', base, added, mergeFiles]
    refine filter_congr fun f _ => ?_
    simp [deleted]
  · rw [shallow _ level (not_lt.mp bound), v.shallow level (not_lt.mp bound),
      filter_nil]

section
variable {v : Version K V} {level : Nat} {files : List (FileMetaData K V)}
  {options : Options K V} {c : Compaction K V}

theorem setupOtherInputs_mem (subset : ∀ f ∈ files, f ∈ v.files level)
    (setup : setupOtherInputs options v level files = some c) : ∀ f ∈ files, f ∈ c.inputs.1 := by
  intro f mem
  have first : f ∈ addBoundaryInputs (v.files level) files := subset_addBoundaryInputs f mem
  obtain ⟨-, -, range, all, -, foundAll, plain | expanded⟩ := setupOtherInputs_spec setup
  · rw [plain]
    exact first
  · obtain ⟨range', -, isFirst, -⟩ := expandInputs_spec expanded
    rw [isFirst]
    exact mem_expanded (addBoundaryInputs_subset subset) (getRange_spec foundAll) f first

theorem setupOtherInputs_contiguous (sorted : SortedDisjoint (v.files level)) (deep : 0 < level)
    (contiguous : Contiguous (v.files level) files)
    (setup : setupOtherInputs options v level files = some c) :
    Contiguous (v.files level) c.inputs.1 := by
  obtain ⟨-, -, range, all, -, -, plain | expanded⟩ := setupOtherInputs_spec setup
  · rw [plain]
    exact addBoundaryInputs_contiguous sorted contiguous
  · obtain ⟨range', -, isFirst, -⟩ := expandInputs_spec expanded
    rw [isFirst, getOverlappingInputs_sorted v deep]
    exact addBoundaryInputs_contiguous sorted (contiguous_filter sorted _)

theorem compactRange_none {begin finish : Option (InternalKey K)} :
    compactRange options v level begin finish = none ↔
      v.getOverlappingInputs level begin finish = [] := by
  rw [compactRange, ← List.isEmpty_iff]
  split
  case isTrue empty => simp [empty]
  case isFalse nonempty =>
    simp only [nonempty, false_eq_true, iff_false]
    rw [List.isEmpty_iff] at nonempty
    have initial : (if 0 < level then limitInputs (maxFileSizeForLevel options level) 0
        (v.getOverlappingInputs level begin finish) else
        v.getOverlappingInputs level begin finish) ≠ [] := by
      split
      · obtain ⟨rest, -, limited⟩ := limitInputs_append (maxFileSizeForLevel options level) 0
          (v.getOverlappingInputs level begin finish)
        exact limited nonempty
      · exact nonempty
    intro none
    obtain ⟨c, setup, -⟩ := setupOtherInputs_nonempty options initial
    rw [none] at setup
    cases setup

theorem compactRange_last {begin finish : Option (InternalKey K)}
    (sorted : 0 < level → SortedDisjoint (v.files level))
    (picked : compactRange options v level begin finish = some c) :
    c.level = level ∧ ∃ last, c.inputs.1.getLast? = some last ∧ last ∈ v.files level ∧
      ∀ g ∈ v.files level, g ∉ c.inputs.1 →
        overlaps (begin.map (·.userKey), finish.map (·.userKey)) g = true →
          last.largest < g.smallest := by
  rw [compactRange] at picked
  obtain ⟨nonempty, picked⟩ := Option.ite_none_left_eq_some.mp picked
  rw [List.isEmpty_iff] at nonempty
  have isLevel := (setupOtherInputs_spec picked).1
  obtain ⟨rest, split, limited⟩ := limitInputs_append (maxFileSizeForLevel options level) 0
    (v.getOverlappingInputs level begin finish)
  have subset := getOverlappingInputs_subset v level begin finish
  -- the initial inputs are in the level and make up the front of the range
  have initial : ∀ f ∈ (if 0 < level then limitInputs (maxFileSizeForLevel options level) 0
      (v.getOverlappingInputs level begin finish) else
      v.getOverlappingInputs level begin finish), f ∈ v.files level := by
    intro f mem
    split at mem
    · exact subset f (split ▸ mem_append_left _ mem)
    · exact subset f mem
  have all := setupOtherInputs_mem initial picked
  have within : ∀ f ∈ c.inputs.1, f ∈ v.files level :=
    isLevel ▸ (setupOtherInputs_present initial picked).first
  have isLast {f : FileMetaData K V} (mem : f ∈ c.inputs.1) :
      ∃ last, c.inputs.1.getLast? = some last ∧ last ∈ c.inputs.1 := by
    have inputs := ne_nil_of_mem mem
    exact ⟨_, List.getLast?_eq_some_getLast inputs, getLast_mem inputs⟩
  refine ⟨isLevel, ?_⟩
  obtain rfl | deep := Nat.eq_zero_or_pos level
  · rw [if_neg (Nat.lt_irrefl 0)] at all
    obtain ⟨f, mem⟩ := exists_mem_of_ne_nil _ nonempty
    obtain ⟨last, found, inside⟩ := isLast (all f mem)
    refine ⟨last, found, within last inside, fun g mem out hit => ?_⟩
    exact absurd (all g (mem_getOverlappingInputs mem begin finish hit)) out
  · rw [if_pos deep] at all picked
    obtain ⟨sorted', contiguous⟩ := limitInputs_contiguous (sorted deep) deep
      (maxFileSizeForLevel options level) begin finish
    have contiguous := setupOtherInputs_contiguous (sorted deep) deep contiguous picked
    obtain ⟨f, mem⟩ := exists_mem_of_ne_nil _ (limited nonempty)
    obtain ⟨last, found, inside⟩ := isLast (all f mem)
    refine ⟨last, found, within last inside, fun g inLevel out hit => ?_⟩
    have later : g ∈ rest := by
      have inRange := mem_getOverlappingInputs inLevel begin finish hit
      rw [split] at inRange
      exact (mem_append.mp inRange).resolve_left fun front => out (all g front)
    rw [split] at sorted'
    have behind := (pairwise_append.mp sorted').2.2 f mem g later
    obtain before | after := contiguous g inLevel out
    · exact absurd ((g.ordered.trans_lt (before f (all f mem))).trans_le f.ordered) behind.asymm
    · exact after last inside

end

namespace ManualState
variable {options : Options K V} {smallestSnapshot : Nat} {s s' : ManualState K V}
  {range : Option K × Option K}

/-- What is left of the range lies in what the next compaction starts from. -/
structure Narrows (range : Option K × Option K) (s : ManualState K V) : Prop where
  sorted : 0 < s.manual.level → SortedDisjoint (s.version.files s.manual.level)
  finish : s.manual.finish.map (·.userKey) = range.2
  ahead : ∀ f ∈ s.version.files s.manual.level, overlaps range f = true →
    overlaps (s.manual.begin.map (·.userKey), s.manual.finish.map (·.userKey)) f = true
  cleared : s.manual.done = true →
    ∀ f ∈ s.version.files s.manual.level, overlaps range f = false

theorem Narrows.round (narrows : Narrows range s) (going : s.manual.done = false)
    (ran : s.backgroundCompaction options smallestSnapshot = some s') :
    Narrows range s' ∧ s'.manual.level = s.manual.level ∧ (s'.manual.done = true ∨
      (s'.version.files s.manual.level).length < (s.version.files s.manual.level).length) := by
  rw [backgroundCompaction] at ran
  split at ran
  case h_1 none =>
    cases ran
    rw [compactRange_none] at none
    refine ⟨{ narrows with cleared := fun _ f mem => ?_ }, rfl, .inl rfl⟩
    rw [eq_false_iff]
    intro hit
    have found := mem_getOverlappingInputs mem _ _ (narrows.ahead f mem hit)
    rw [none] at found
    cases found
  case h_2 c picked =>
    obtain ⟨last, isLast, ran⟩ := Option.bind_eq_some_iff.mp ran
    obtain ⟨⟨next, work⟩, worked, ran⟩ := Option.bind_eq_some_iff.mp ran
    cases ran
    obtain ⟨isLevel, last', isLast', inLevel, behind⟩ := compactRange_last narrows.sorted picked
    cases isLast.symm.trans isLast'
    have replaces := installEdit_replaces work
    have isCompaction : work.compaction = c := run_compaction worked
    rw [isCompaction] at replaces
    have left : (s.version.logAndApply work.installEdit).files s.manual.level =
        (s.version.files s.manual.level).filter fun f =>
          (s.manual.level, f.number) ∉ work.installEdit.deletedFiles := by
      refine logAndApply_files fun a mem => ?_
      rw [replaces.new, mem_map] at mem
      obtain ⟨f, -, rfl⟩ := mem
      show c.level + 1 ≠ _
      omega
    have removed {f : FileMetaData K V} (mem : f ∈ c.inputs.1) :
        (s.manual.level, f.number) ∈ work.installEdit.deletedFiles := by
      rw [replaces.deleted]
      exact mem_append_left _ (mem_map.mpr ⟨f, mem, by rw [isLevel]⟩)
    refine ⟨⟨fun deep => ?_, narrows.finish, fun f mem hit => ?_, ?_⟩, rfl, .inr ?_⟩
    · show SortedDisjoint ((s.version.logAndApply work.installEdit).files s.manual.level)
      rw [left]
      exact (narrows.sorted deep).sublist filter_sublist
    · replace mem : f ∈ (s.version.logAndApply work.installEdit).files s.manual.level := mem
      rw [left, mem_filter, decide_eq_true_eq] at mem
      have kept : f ∉ c.inputs.1 := fun input => mem.2 (removed input)
      have ahead := behind f mem.1 kept (narrows.ahead f mem.1 hit)
      rw [overlaps_iff, narrows.finish]
      refine ⟨fun a isBegin => ?_, (overlaps_iff.mp hit).2⟩
      cases isBegin
      exact userKey_mono (ahead.le.trans f.ordered)
    · intro done
      exact absurd (going.symm.trans done) false_ne_true
    · show ((s.version.logAndApply work.installEdit).files s.manual.level).length < _
      rw [left]
      refine length_filter_lt_length_iff_exists.mpr ⟨last, inLevel, ?_⟩
      simpa using removed (mem_of_mem_getLast? isLast)

def Round (options : Options K V) (smallestSnapshot : Nat) (s s' : ManualState K V) : Prop :=
  s.manual.done = false ∧ s.backgroundCompaction options smallestSnapshot = some s'

theorem Narrows.loop (narrows : Narrows range s) {n : Nat}
    (enough : s.manual.done = true ∨ (s.version.files s.manual.level).length < n)
    (noErrors : ∀ t, Relation.ReflTransGen (Round options smallestSnapshot) s t →
      t.manual.done = false → (t.backgroundCompaction options smallestSnapshot).isSome = true) :
    ∃ s', Narrows range s' ∧ s'.manual.done = true ∧ s'.manual.level = s.manual.level ∧
      ∀ fuel, n < fuel → s.compactRangeAtLevel options smallestSnapshot fuel = some s' := by
  induction n generalizing s with
  | zero =>
    have done := enough.resolve_right (Nat.not_lt_zero _)
    refine ⟨s, narrows, done, rfl, fun fuel more => ?_⟩
    obtain ⟨fuel, rfl⟩ := Nat.exists_eq_succ_of_ne_zero more.ne'
    rw [compactRangeAtLevel, if_pos done]
  | succ n ih =>
    cases done : s.manual.done with
    | true =>
      obtain ⟨s', narrows', done', isLevel, loop⟩ := ih narrows (.inl done) noErrors
      exact ⟨s', narrows', done', isLevel, fun fuel more => loop fuel (by omega)⟩
    | false =>
      obtain ⟨t, ran⟩ := Option.isSome_iff_exists.mp (noErrors s .refl done)
      obtain ⟨narrows', isLevel, progress⟩ := narrows.round done ran
      have shorter := enough.resolve_left (by simp [done])
      have progress' : t.manual.done = true ∨
          (t.version.files t.manual.level).length < n := by
        rw [isLevel]
        exact progress.imp_right fun less => by omega
      obtain ⟨s', narrows'', done', isLevel', loop⟩ := ih narrows' progress'
        fun u path => noErrors u (.head ⟨done, ran⟩ path)
      refine ⟨s', narrows'', done', isLevel'.trans isLevel, fun fuel more => ?_⟩
      obtain ⟨fuel, rfl⟩ := Nat.exists_eq_succ_of_ne_zero (Nat.ne_zero_of_lt more)
      rw [compactRangeAtLevel, if_neg (by simp [done]), ran, Option.bind_some]
      exact loop fuel (by omega)

theorem backgroundCompaction_wellFormed (wellFormed : s.version.WellFormed s.nextFileNumber)
    (bound : s.manual.level + 1 < kNumLevels) :
    ∃ s', s.backgroundCompaction options smallestSnapshot = some s' ∧
      s'.version.WellFormed s'.nextFileNumber ∧ s'.manual.level = s.manual.level := by
  rw [backgroundCompaction]
  split
  case h_1 => exact ⟨_, rfl, wellFormed, rfl⟩
  case h_2 c isPicked =>
    have picked := compactRange_picked wellFormed.disjoint bound isPicked
    obtain ⟨-, last, isLast, -⟩ := compactRange_last (wellFormed.disjoint _) isPicked
    obtain ⟨next, work, ran, same, -⟩ :=
      doCompactionWork_spec wellFormed picked options smallestSnapshot
    obtain ⟨more, -, finished⟩ := DBState.run_finished
      (start_pending wellFormed picked smallestSnapshot) wellFormed.numbered ran
    rw [isLast, ran]
    exact ⟨_, rfl, finished.wellFormed wellFormed more (same.symm ▸ picked), rfl⟩

/-- From a version of a run, no compaction fails. -/
theorem noErrors_of_wellFormed {v : Version K V} {next level : Nat} (wellFormed : v.WellFormed next)
    (bound : level + 1 < kNumLevels) (begin finish : Option K) :
    ∀ s, Relation.ReflTransGen (Round options smallestSnapshot) (start v next level begin finish) s →
      s.manual.done = false → (s.backgroundCompaction options smallestSnapshot).isSome = true := by
  intro s path going
  clear going
  have kept : s.version.WellFormed s.nextFileNumber ∧ s.manual.level = level := by
    induction path with
    | refl => exact ⟨wellFormed, rfl⟩
    | tail _ round ih =>
      obtain ⟨s', ran, wellFormed, isLevel⟩ := backgroundCompaction_wellFormed ih.1 (ih.2 ▸ bound)
      cases ran.symm.trans round.2
      exact ⟨wellFormed, isLevel.trans ih.2⟩
  obtain ⟨s', ran, -⟩ := backgroundCompaction_wellFormed kept.1 (kept.2 ▸ bound)
  exact Option.isSome_iff_exists.mpr ⟨s', ran⟩

/-- Where no compaction fails, the loop of `CompactRangeAtLevel` ends after at most one
compaction for each file of the level, and leaves no file there with a user key of the range. -/
theorem compactRangeAtLevel_clears (options : Options K V) (smallestSnapshot : Nat)
    (v : Version K V) (disjoint : v.LevelsDisjoint) (nextFileNumber level : Nat)
    (begin finish : Option K)
    (noErrors : ∀ s, Relation.ReflTransGen (Round options smallestSnapshot)
      (start v nextFileNumber level begin finish) s → s.manual.done = false →
        (s.backgroundCompaction options smallestSnapshot).isSome = true) :
    ∃ s', (∀ fuel, (v.files level).length + 1 < fuel →
        (start v nextFileNumber level begin finish).compactRangeAtLevel options smallestSnapshot
          fuel = some s') ∧
      s'.manual.done = true ∧
      ∀ f ∈ s'.version.files level, ¬ (f.userKeys ∩ keysOf (begin, finish)).Nonempty := by
  have sameBegin : (start v nextFileNumber level begin finish).manual.begin.map (·.userKey) =
      begin := by simp [start, comp_def, InternalKey.lookup]
  have sameFinish : (start v nextFileNumber level begin finish).manual.finish.map (·.userKey) =
      finish := by simp [start, comp_def]
  have narrows : Narrows (begin, finish) (start v nextFileNumber level begin finish) := by
    refine ⟨disjoint level, sameFinish, fun f _ hit => ?_, nofun⟩
    rw [sameBegin, sameFinish]
    exact hit
  obtain ⟨s', narrows', done, isLevel, loop⟩ := narrows.loop (.inr (Nat.lt_succ_self _)) noErrors
  refine ⟨s', loop, done, fun f mem => ?_⟩
  have missed := narrows'.cleared done f (isLevel ▸ mem)
  rintro ⟨u, ⟨above, below⟩, low, high⟩
  rw [eq_false_iff] at missed
  exact missed (overlaps_iff.mpr ⟨fun a isLow => (low a isLow).trans below,
    fun b isHigh => above.trans (high b isHigh)⟩)

/-- Two rounds clear the first of two levels that share a user key. -/
theorem compactRangeAtLevel_clears_twoTables :
    ∃ s', (start twoTables 8 1 none (some 3)).compactRangeAtLevel exampleOptions 5 3 = some s' ∧
      s'.manual.done = true ∧
      ∀ f ∈ s'.version.files 1, ¬ (f.userKeys ∩ keysOf (none, some 3)).Nonempty := by
  obtain ⟨s', loop, cleared⟩ := compactRangeAtLevel_clears exampleOptions 5 twoTables
    twoTables_wellFormed.disjoint 8 1 none (some 3)
    (noErrors_of_wellFormed twoTables_wellFormed (by decide) _ _)
  exact ⟨s', loop 3 (by decide), cleared⟩

end ManualState
end TalusDB
