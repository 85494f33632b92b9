import TalusDB.DB.Get
import TalusDB.DB.Inputs

/-! When a version needs a compaction: `Finalize`, the seeks that `Get` and
`RecordReadSample` charge to files, and the level that `PickCompaction` goes by. -/
namespace TalusDB
open List Version
variable {K V : Type} [LinearOrder K]

/-- The variables of `RecordReadSample`. -/
structure SampleState (K V : Type) [LinearOrder K] where
  seekFile : Option (Nat × FileMetaData K V) := none
  matched : Nat := 0

def SampleState.match (state : SampleState K V) (file : Nat × FileMetaData K V) :
    Bool × SampleState K V :=
  let state := { state with matched := state.matched + 1 }
  let state := if state.matched = 1 then { state with seekFile := some file } else state
  (decide (state.matched < 2), state)

/-- What reads change in a version: the seeks left for each file number, and the file that
has used up its seeks. -/
structure Seeks (K V : Type) [LinearOrder K] where
  allowedSeeks : Nat → Int
  fileToCompact : Option (Nat × FileMetaData K V) := none

namespace Seeks

def updateStats (seeks : Seeks K V) : Option (Nat × FileMetaData K V) → Seeks K V
  | none => seeks
  | some file =>
    let left := seeks.allowedSeeks file.2.number - 1
    { allowedSeeks := Function.update seeks.allowedSeeks file.2.number left
      fileToCompact :=
        if left ≤ 0 then seeks.fileToCompact.or (some file) else seeks.fileToCompact }

def recordReadSample (v : Version K V) (seeks : Seeks K V) (key : InternalKey K) : Seeks K V :=
  let state := forEach SampleState.match {} (v.overlapping key.userKey key)
  if 2 ≤ state.matched then seeks.updateStats state.seekFile else seeks

/-- A read of the version that charges its files. -/
inductive Call (K : Type) where
  | get (userKey : K) (sequence : Nat)
  | recordReadSample (key : InternalKey K)

def step (v : Version K V) (seeks : Seeks K V) : Call K → Seeks K V
  | .get userKey sequence => seeks.updateStats (v.get userKey sequence).2
  | .recordReadSample key => seeks.recordReadSample v key

/-- `NeedsCompaction`. -/
def needsCompaction (v : Version K V) (seeks : Seeks K V) : Bool :=
  decide (1 ≤ (finalize v).2) || seeks.fileToCompact.isSome

end Seeks

section
variable {v : Version K V}

/-- Reads go down the levels, and past level 0 they read one file of each. -/
theorem overlapping_descends (v : Version K V) (userKey : K) (key : InternalKey K) :
    (v.overlapping userKey key).Pairwise fun file file' => file.1 = 0 ∨ file.1 < file'.1 := by
  rw [overlapping, pairwise_append]
  refine ⟨pairwise_map.mpr (pairwise_of_forall fun _ _ => .inl rfl), ?_, ?_⟩
  · refine pairwise_filterMap.mpr ((pairwise_lt_range' 1).imp fun less file mem => ?_)
    obtain ⟨f, -, rfl⟩ := Option.map_eq_some_iff.mp mem
    intro file' mem'
    obtain ⟨g, -, rfl⟩ := Option.map_eq_some_iff.mp mem'
    exact .inr less
  · intro file mem _ _
    obtain ⟨f, -, rfl⟩ := mem_map.mp mem
    exact .inl rfl

variable {userKey : K} {key : InternalKey K} {file : Nat × FileMetaData K V} {seeks : Seeks K V}

theorem mem_overlapping (mem : file ∈ v.overlapping userKey key) : file.2 ∈ v.files file.1 := by
  rw [overlapping, mem_append] at mem
  obtain mem | mem := mem
  · obtain ⟨f, sorted, rfl⟩ := mem_map.mp mem
    exact mem_of_mem_filter ((perm_insertionSort _ _).subset sorted)
  · obtain ⟨level, -, found⟩ := mem_filterMap.mp mem
    obtain ⟨f, isFile, rfl⟩ := Option.map_eq_some_iff.mp found
    exact mem_of_getElem? (Option.eq_some_of_filter_eq_some isFile)

theorem forEach_induct {σ : Type} {func : σ → Nat × FileMetaData K V → Bool × σ}
    {P : List (Nat × FileMetaData K V) → σ → Prop}
    (step : ∀ seen state file, P seen state → P (seen ++ [file]) (func state file).2)
    (files seen : List (Nat × FileMetaData K V)) (state : σ) (start : P seen state) :
    ∃ more, more.Sublist files ∧ P (seen ++ more) (forEach func state files) := by
  induction files generalizing seen state with
  | nil => exact ⟨[], .slnil, by simpa [forEach] using start⟩
  | cons file rest ih =>
    rw [forEach]
    split
    · obtain ⟨more, sub, holds⟩ := ih _ _ (step seen state file start)
      exact ⟨file :: more, sub.cons_cons file, by simpa using holds⟩
    · exact ⟨[file], singleton_sublist.mpr mem_cons_self, step seen state file start⟩

/-- A file that a compaction can start with: it has a next level. -/
def Chargeable (v : Version K V) (file : Nat × FileMetaData K V) : Prop :=
  file.2 ∈ v.files file.1 ∧ file.1 + 1 < kNumLevels

theorem chargeable_of_sublist {file' : Nat × FileMetaData K V}
    (sub : [file, file'].Sublist (v.overlapping userKey key)) : Chargeable v file := by
  have mem := mem_overlapping (sub.subset mem_cons_self)
  have mem' := level_lt
    (mem_overlapping (sub.subset (mem_cons_of_mem _ mem_cons_self)))
  refine ⟨mem, ?_⟩
  have descends := rel_of_pairwise_cons
    ((overlapping_descends v userKey key).sublist sub) mem_cons_self
  have levels : 1 < kNumLevels := by decide
  omega

theorem get_chargeable {sequence : Nat} :
    ∀ file ∈ (v.get userKey sequence).2, Chargeable v file := by
  have step (seen : List (Nat × FileMetaData K V)) (state : GetState K V)
      (file : Nat × FileMetaData K V)
      (holds : state.lastFileRead = seen.getLast? ∧
        ∀ file ∈ state.seekFile, ∃ file', [file, file'].Sublist seen) :
      (state.match userKey sequence file).2.lastFileRead = (seen ++ [file]).getLast? ∧
        ∀ charged ∈ (state.match userKey sequence file).2.seekFile,
          ∃ file', [charged, file'].Sublist (seen ++ [file]) := by
    obtain ⟨last, charged⟩ := holds
    refine ⟨by simp [GetState.match], fun file' mem => ?_⟩
    obtain old | ⟨-, isLast⟩ := Option.or_eq_some_iff.mp mem
    · obtain ⟨next, pair⟩ := charged file' old
      exact ⟨next, pair.trans (sublist_append_left _ _)⟩
    · rw [last] at isLast
      obtain ⟨front, rfl⟩ := getLast?_eq_some_iff.mp isLast
      exact ⟨file, by simp⟩
  obtain ⟨seen, sub, -, charged⟩ := forEach_induct step
    (v.overlapping userKey (.lookup userKey sequence)) [] {} ⟨rfl, by simp⟩
  intro file mem
  obtain ⟨file', pair⟩ := charged file mem
  exact chargeable_of_sublist (pair.trans sub)

theorem recordReadSample_charged
    (twice : 2 ≤ (forEach SampleState.match {} (v.overlapping userKey key)).matched) :
    ∀ file ∈ (forEach SampleState.match {} (v.overlapping userKey key)).seekFile,
      Chargeable v file := by
  have step (seen : List (Nat × FileMetaData K V)) (state : SampleState K V)
      (file : Nat × FileMetaData K V)
      (holds : state.matched = seen.length ∧ state.seekFile = seen.head?) :
      (state.match file).2.matched = (seen ++ [file]).length ∧
        (state.match file).2.seekFile = (seen ++ [file]).head? := by
    obtain ⟨count, charged⟩ := holds
    cases seen with
    | nil => simp [SampleState.match, count]
    | cons first rest => simp [SampleState.match, count, charged]
  obtain ⟨seen, sub, count, charged⟩ := forEach_induct step
    (v.overlapping userKey key) [] {} ⟨rfl, rfl⟩
  intro file mem
  rw [nil_append] at count charged
  rw [count] at twice
  rw [charged] at mem
  match seen, twice with
  | _ :: two :: rest, _ =>
    cases mem
    exact chargeable_of_sublist ((sublist_append_left [file, two] rest).trans sub)

theorem Seeks.step_chargeable
    (chargeable : ∀ file ∈ seeks.fileToCompact, Chargeable v file) (call : Call K) :
    ∀ file ∈ (seeks.step v call).fileToCompact, Chargeable v file := by
  have charge {stats : Option (Nat × FileMetaData K V)} (fits : ∀ file ∈ stats, Chargeable v file) :
      ∀ file ∈ (seeks.updateStats stats).fileToCompact, Chargeable v file := by
    cases stats with
    | none => exact chargeable
    | some file =>
      intro file' mem
      simp only [updateStats] at mem
      split at mem
      · obtain old | ⟨-, new⟩ := Option.or_eq_some_iff.mp mem
        · exact chargeable file' old
        · exact fits file' new
      · exact chargeable file' mem
  cases call with
  | get userKey sequence => exact charge get_chargeable
  | recordReadSample key =>
    simp only [step, recordReadSample]
    split
    case isTrue twice => exact charge (recordReadSample_charged twice)
    case isFalse => exact chargeable

theorem Seeks.run_chargeable (calls : List (Call K))
    (chargeable : ∀ file ∈ seeks.fileToCompact, Chargeable v file) :
    ∀ file ∈ (calls.foldl (step v) seeks).fileToCompact, Chargeable v file := by
  induction calls generalizing seeks with
  | nil => exact chargeable
  | cons call rest ih => exact ih (step_chargeable chargeable call)

/-- The first level with the highest score among the first `n`. -/
structure Best (v : Version K V) (n : Nat) (best : Nat × ℚ) : Prop where
  bound : best.1 < n
  score : best.2 = compactionScore v best.1
  highest : ∀ level < n, compactionScore v level ≤ best.2
  first : ∀ level < best.1, compactionScore v level < best.2

theorem compactionScore_zero_nonneg (v : Version K V) : 0 ≤ compactionScore v 0 := by
  rw [compactionScore, if_pos rfl]
  positivity

theorem finalize_best (v : Version K V) : Best v kNumLevels (finalize v) := by
  have rounds (n : Nat) : Best v (n + 1) ((range (n + 1)).foldl (fun best level =>
      if best.2 < compactionScore v level then (level, compactionScore v level) else best)
      (0, -1)) := by
    induction n with
    | zero =>
      have positive : (-1 : ℚ) < compactionScore v 0 :=
        lt_of_lt_of_le (by norm_num) (compactionScore_zero_nonneg v)
      simp only [zero_add, range_one, foldl_cons, foldl_nil, if_pos positive]
      refine ⟨Nat.one_pos, rfl, fun level less => ?_, fun level less => absurd less (by simp)⟩
      rw [Nat.lt_one_iff.mp less]
    | succ n ih =>
      rw [range_succ, foldl_append]
      generalize (range (n + 1)).foldl _ _ = best at ih
      simp only [foldl_cons, foldl_nil]
      split
      case isTrue better =>
        refine ⟨Nat.lt_succ_self _, rfl, fun level less => ?_, fun level less => ?_⟩
        · obtain less | rfl := Nat.lt_succ_iff_lt_or_eq.mp less
          · exact (ih.highest level less).trans better.le
          · exact le_rfl
        · exact (ih.highest level less).trans_lt better
      case isFalse worse =>
        refine ⟨Nat.lt_succ_of_lt ih.bound, ih.score, fun level less => ?_, ih.first⟩
        obtain less | rfl := Nat.lt_succ_iff_lt_or_eq.mp less
        · exact ih.highest level less
        · exact not_lt.mp worse
  exact rounds 6

/-- The last level has grown past its size, and further than any other one. -/
def LastLevelFullest (v : Version K V) : Prop :=
  1 ≤ compactionScore v (kNumLevels - 1) ∧
    ∀ level < kNumLevels - 1, compactionScore v level < compactionScore v (kNumLevels - 1)

theorem lastLevelFullest_iff :
    LastLevelFullest v ↔ 1 ≤ (finalize v).2 ∧ (finalize v).1 + 1 = kNumLevels := by
  have best := finalize_best v
  constructor
  · rintro ⟨full, fullest⟩
    have last : (finalize v).1 = kNumLevels - 1 := by
      by_contra other
      have bound := best.bound
      have less := fullest (finalize v).1 (by omega)
      rw [← best.score] at less
      exact absurd (best.highest (kNumLevels - 1) (by decide)) (not_le.mpr less)
    rw [best.score, last]
    exact ⟨full, by decide⟩
  · rintro ⟨full, last⟩
    have isLast : kNumLevels - 1 = (finalize v).1 := by omega
    rw [LastLevelFullest, isLast, ← best.score]
    exact ⟨full, best.first⟩

theorem exists_nextFile {level : Nat} (full : 1 ≤ compactionScore v level)
    (pointer : Option (InternalKey K)) :
    ∃ f, nextFileToCompact (v.files level) pointer = some f := by
  rw [nextFileToCompact]
  cases found : (v.files level).find? fun f => pointer.all (· < f.largest) with
  | some f => exact ⟨f, rfl⟩
  | none =>
    cases files : v.files level with
    | cons f rest => exact ⟨f, rfl⟩
    | nil =>
      rw [compactionScore, files] at full
      exfalso
      split at full <;> simp [totalFileSize] at full <;> norm_num at full

theorem compactionStart_chargeable
    (chargeable : ∀ file ∈ seeks.fileToCompact, Chargeable v file) (fits : ¬ LastLevelFullest v)
    (needed : seeks.needsCompaction v = true) (compactPointer : Nat → Option (InternalKey K)) :
    ∃ file, compactionStart v compactPointer seeks.fileToCompact = some file ∧
      Chargeable v file := by
  have best := finalize_best v
  rw [lastLevelFullest_iff] at fits
  rw [compactionStart]
  split
  case isTrue full =>
    obtain ⟨f, next⟩ := exists_nextFile (best.score ▸ full) (compactPointer (finalize v).1)
    have bound := best.bound
    have notLast : (finalize v).1 + 1 ≠ kNumLevels := fun last => fits ⟨full, last⟩
    refine ⟨((finalize v).1, f), by rw [next]; rfl, nextFileToCompact_mem next, by omega⟩
  case isFalse slack =>
    rw [Seeks.needsCompaction, decide_eq_false slack, Bool.false_or] at needed
    obtain ⟨file, isFile⟩ := Option.isSome_iff_exists.mp needed
    exact ⟨file, isFile, chargeable file isFile⟩

/-- Whatever reads the version has had, a compaction that is needed is found within the
levels, exactly when the last level is not the one that asks for it. -/
theorem pickCompaction_inRange_iff (options : Options K V) (v : Version K V)
    (compactPointer : Nat → Option (InternalKey K)) (allowedSeeks : Nat → Int)
    (calls : List (Seeks.Call K)) :
    ((calls.foldl (Seeks.step v) { allowedSeeks }).needsCompaction v = true →
      ∃ c, pickCompaction options v compactPointer
          (calls.foldl (Seeks.step v) { allowedSeeks }).fileToCompact = some c ∧
        c.level + 1 < kNumLevels ∧ c.inputs.1 ≠ []) ↔ ¬ LastLevelFullest v := by
  have chargeable : ∀ file ∈ (calls.foldl (Seeks.step v) { allowedSeeks }).fileToCompact,
      Chargeable v file := Seeks.run_chargeable calls (by simp)
  generalize calls.foldl (Seeks.step v) { allowedSeeks } = seeks at chargeable
  constructor
  · intro found full
    obtain ⟨full, last⟩ := lastLevelFullest_iff.mp full
    obtain ⟨c, picked, -⟩ := found (by rw [Seeks.needsCompaction, decide_eq_true full]; rfl)
    obtain ⟨⟨level, file⟩, start, picked⟩ := Option.bind_eq_some_iff.mp picked
    rw [compactionStart, if_pos full] at start
    obtain ⟨f, -, same⟩ := Option.map_eq_some_iff.mp start
    cases same
    simp [last] at picked
  · intro fits needed
    obtain ⟨file, start, mem, bound⟩ :=
      compactionStart_chargeable chargeable fits needed compactPointer
    obtain ⟨c, setup, isLevel, nonempty⟩ :=
      setupOtherInputs_nonempty options (startInputs_nonempty mem)
    refine ⟨c, ?_, isLevel ▸ bound, nonempty⟩
    rw [pickCompaction, start, Option.bind_eq_bind, Option.bind_some]
    simp only [if_pos bound]
    exact setup

end

/-- A table of a terabyte. -/
def largeTable : FileMetaData Nat Nat := { tableOf ⟨1, by decide⟩ with fileSize := 1048576000000 }

def largeLastLevel : Version Nat Nat where
  files level := if level = 6 then [largeTable] else []
  shallow level deep := if_neg fun six => absurd deep (by rw [six]; decide)

/-- A last level over its size asks for a compaction into a level that there is not. -/
theorem last_level_picked :
    Seeks.needsCompaction largeLastLevel { allowedSeeks := fun _ => 100 } = true ∧
      (compactionStart largeLastLevel (fun _ => none) none).map (·.1) = some 6 ∧
      pickCompaction exampleOptions largeLastLevel (fun _ => none) none = none := by
  decide +kernel
end TalusDB
