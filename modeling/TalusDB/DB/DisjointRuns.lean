import TalusDB.DB.Background
import TalusDB.DB.CompactionReads
import TalusDB.DB.NoGap
import TalusDB.Lib.Runs

/-! Disjoint levels over whole runs. A flush looks at the files that are there, while a
running compaction will fill the hull of its inputs: an automatic compaction leaves no
gap between its inputs, a manual one may, and a table that is flushed into such a gap
overlaps what the compaction installs later. -/
namespace TalusDB
open Intervals Option
variable {K V : Type} [LinearOrder K]

namespace DBState
variable {s s' : DBState K V} {options : Options K V}

/-- The first and the last user key of the memtable that waits for its flush. -/
def immRange (s : DBState K V) : Option (K × K) := do
  let imm ← s.imm
  some ((← imm.head?).userKey, (← imm.getLast?).userKey)

/-- A flush would put its table at the output level of a manual compaction, between the
inputs of that. -/
def interferes (options : Options K V) (s : DBState K V) : Bool :=
  s.running.any fun running => running.isManual && s.immRange.any fun (first, last) =>
    s.current.pickLevelForMemTableOutput options first last ==
        running.compact.compaction.level + 1 &&
      running.compact.compaction.allInputs.any (·.smallest.userKey ≤ last) &&
      running.compact.compaction.allInputs.any (first ≤ ·.largest.userKey)

/-- Nothing has come between the inputs of the running compaction at its output level,
and an automatic one leaves no gap where something could. -/
structure Clear (s : DBState K V) : Prop where
  outside : ∀ running ∈ s.running,
    ∀ g ∈ s.current.files (running.compact.compaction.level + 1),
      g ∉ running.compact.compaction.inputs.2 → Outside running.compact.compaction.allInputs g
  noGap : ∀ running ∈ s.running, running.isManual = false →
    NoGap {f | f ∈ running.compact.compaction.allInputs}

theorem Clear.of_idle (idle : s.running = none) : s.Clear :=
  ⟨by simp [idle], by simp [idle]⟩

theorem Clear.of_same (clear : s.Clear) (files : s'.current = s.current)
    (running : ∀ r ∈ s'.running, ∃ r' ∈ s.running,
      r.compact.compaction = r'.compact.compaction ∧ r.isManual = r'.isManual) : s'.Clear := by
  constructor
  · intro r isRunning
    obtain ⟨r', isRunning', same, -⟩ := running r isRunning
    rw [files, same]
    exact clear.outside r' isRunning'
  · intro r isRunning automatic
    obtain ⟨r', isRunning', same, manual⟩ := running r isRunning
    rw [same]
    exact clear.noGap r' isRunning' (manual ▸ automatic)

theorem flush_outside (ordered : s.Ordered) (clear : s.Clear)
    (safe : s.interferes options = false) {running : Running K V} (isRunning : running ∈ s.running)
    {imm : List (Entry K V)} (isImm : s.imm = some imm) {file : FileMetaData K V}
    (first : ∃ e ∈ imm.head?, e.key = file.smallest)
    (last : ∃ e ∈ imm.getLast?, e.key = file.largest) {level : Nat}
    (picked : s.current.pickLevelForMemTableOutput options file.smallest.userKey
      file.largest.userKey = level)
    (fits : Fits s.current s.nextFileNumber level file)
    (output : level = running.compact.compaction.level + 1) :
    UserOutside running.compact.compaction.allInputs file := by
  have present := (ordered.pending running isRunning).present
  cases manual : running.isManual with
  | false =>
    -- the inputs cover their hull, and the table meets none of them
    have misses : ∀ f ∈ {f | f ∈ running.compact.compaction.allInputs},
        file.largest.userKey < f.smallest.userKey ∨ f.largest.userKey < file.smallest.userKey := by
      intro f input
      obtain ⟨i, isInput⟩ := exists_isInput input
      have le : i ≤ level := output ▸ isInput.level_le
      exact (fits.apart (by omega) le (present.mem_files isInput)).symm
    exact (clear.noGap running isRunning manual).beside (fun f _ => f.user_ordered)
      file.user_ordered misses
  | true =>
    obtain ⟨a, isFirst, low⟩ := first
    obtain ⟨b, isLast, high⟩ := last
    have missed : ¬ FilesHull {f | f ∈ running.compact.compaction.allInputs}
        file.smallest.userKey file.largest.userKey := by
      rintro ⟨⟨f, inF, below⟩, ⟨g, inG, above⟩⟩
      have range : s.immRange = some (file.smallest.userKey, file.largest.userKey) := by
        rw [immRange, isImm]
        simp only [bind_eq_bind, bind_some, mem_def.mp isFirst,
          mem_def.mp isLast, Entry.userKey, low, high]
      have hazard : s.interferes options = true := by
        simp only [interferes, mem_def.mp isRunning, any_some, manual, range, picked,
          output, beq_self_eq_true, Bool.true_and, Bool.and_eq_true, List.any_eq_true,
          decide_eq_true_eq]
        exact ⟨⟨f, inF, below⟩, ⟨g, inG, above⟩⟩
      rw [safe] at hazard
      cases hazard
    rw [FilesHull, MeetsHull, not_and_or] at missed
    push Not at missed
    exact missed

theorem compactMemTable_clear (ordered : s.Ordered) (clear : s.Clear)
    (safe : s.interferes options = false) (flushed : s.compactMemTable options = some s') :
    s'.Clear := by
  obtain ⟨imm, isImm, -, ⟨rfl, rfl⟩ | ⟨file, rfl, first, last, fits, rfl⟩⟩ :=
    compactMemTable_cases ordered flushed
  · rw [logAndApply_empty]
    exact clear.of_same rfl fun r isRunning => ⟨r, isRunning, rfl, rfl⟩
  · refine ⟨fun running isRunning g mem out => ?_, clear.noGap⟩
    obtain old | ⟨output, rfl⟩ := fits.mem_files.mp mem
    · exact clear.outside running isRunning g old out
    · exact (flush_outside ordered clear safe isRunning isImm first last rfl fits
        output.symm).outside

theorem begin_clear {c : Compaction K V} (idle : s.running = none) (picked : c.Picked s.current)
    {isManual : Bool} (noGap : isManual = false → NoGap {f | f ∈ c.allInputs}) :
    (s.begin options isManual c).Clear := by
  rw [begin]
  split
  · exact .of_idle idle
  · constructor
    · intro running isRunning
      cases isRunning
      exact picked.selected.outside
    · intro running isRunning automatic
      cases isRunning
      exact noGap automatic

theorem compactionRound_clear (clear : s.Clear)
    (stepped : s.compactionRound options = some s') : s'.Clear := by
  rw [compactionRound] at stepped
  obtain ⟨running, isRunning, stepped⟩ := bind_eq_some_iff.mp stepped
  obtain ⟨⟨next, compact⟩, round, stepped⟩ := bind_eq_some_iff.mp stepped
  cases stepped
  obtain ⟨e, fresh, spec, -, -⟩ := CompactionState.step_round round
  refine clear.of_same rfl fun r isRunning' => ?_
  cases isRunning'
  exact ⟨running, isRunning, spec.compaction, rfl⟩

/-- The step is not a flush between the inputs of a manual compaction. -/
def notBetween (options : Options K V) (s : DBState K V) : Action K V → Bool
  | .compactMemTable => !s.interferes options
  | _ => true

theorem step_disjoint [Inhabited V] (ordered : s.Ordered) (clear : s.Clear) {a : Action K V}
    (safe : s.notBetween options a = true)
    (stepped : s.step options a = some s') : s'.Ordered ∧ s'.Clear := by
  have unchanged : ∀ r ∈ s.running, ∃ r' ∈ s.running,
      r.compact.compaction = r'.compact.compaction ∧ r.isManual = r'.isManual :=
    fun r isRunning => ⟨r, isRunning, rfl, rfl⟩
  cases a with
  | write ops =>
    refine ⟨step_ordered ordered (by simp) stepped, ?_⟩
    simp only [step, write] at stepped
    split at stepped
    · cases stepped
      exact clear.of_same rfl unchanged
    · cases stepped
  | switchMemTable =>
    refine ⟨step_ordered ordered (by simp) stepped, ?_⟩
    simp only [step, switchMemTable] at stepped
    split at stepped
    · cases stepped
      exact clear.of_same rfl unchanged
    · cases stepped
  | compactMemTable =>
    exact ⟨step_ordered ordered (by simp) stepped,
      compactMemTable_clear ordered clear (by simpa [notBetween] using safe) stepped⟩
  | compact =>
    refine ⟨step_ordered ordered (by simp) stepped, ?_⟩
    obtain ⟨c, found, idle, picked, rfl⟩ := compact_cases ordered stepped
    exact begin_clear idle picked fun _ =>
      pickCompaction_noGap ordered.disjoint ordered.sound.wanted found
  | compactRange level begin finish =>
    refine ⟨step_ordered ordered (by simp) stepped, ?_⟩
    obtain ⟨c, -, idle, picked, rfl⟩ := compactRange_cases ordered stepped
    exact begin_clear idle picked (by simp)
  | compactionRound =>
    exact ⟨step_ordered ordered (by simp) stepped, compactionRound_clear clear stepped⟩
  | installCompaction =>
    have idle := (installCompaction_kept ordered stepped).2.2
    exact ⟨installCompaction_ordered ordered clear.outside stepped, .of_idle idle⟩
  | getSnapshot =>
    refine ⟨step_ordered ordered (by simp) stepped, ?_⟩
    cases stepped
    exact clear.of_same rfl unchanged
  | releaseSnapshot i =>
    refine ⟨step_ordered ordered (by simp) stepped, ?_⟩
    cases stepped
    exact clear.of_same rfl unchanged
  | updateStats level i =>
    refine ⟨step_ordered ordered (by simp) stepped, ?_⟩
    simp only [step, updateStats] at stepped
    split at stepped
    · obtain ⟨f, -, rfl⟩ := map_eq_some_iff.mp stepped
      exact clear.of_same rfl unchanged
    · cases stepped

/-- The steps of a run, as long as each meets the condition. -/
abbrev run [Inhabited V] (options : Options K V) (allowed : DBState K V → Action K V → Bool) :
    DBState K V → List (Action K V) → Option (DBState K V) :=
  Runs.run (step options) allowed

theorem run_invariant [Inhabited V] {actions : List (Action K V)} (ordered : s.Ordered)
    (clear : s.Clear) (ran : run options (notBetween options) s actions = some s') :
    s'.Ordered ∧ s'.Clear :=
  Runs.run_induct (P := fun s : DBState K V => s.Ordered ∧ s.Clear)
    (fun _ _ _ ⟨ordered, clear⟩ safe stepped => step_disjoint ordered clear safe stepped)
    ⟨ordered, clear⟩ ran

/-- In every run from an empty database whose flushes stay out of the gaps of a manual
compaction, every version that is installed has disjoint levels. -/
theorem levels_disjoint [Inhabited V] (options : Options K V) (nextFileNumber : Nat)
    (actions : List (Action K V)) {s : DBState K V}
    (ran : run options (notBetween options) (initial nextFileNumber) actions = some s) :
    s.current.LevelsDisjoint :=
  (run_invariant (initial_ordered nextFileNumber) (.of_idle rfl) ran).1.disjoint

end DBState

section
open DBState

/-- A write, the switch of its memtable, and the flush. -/
def flushOf (k : Nat) : List (Action Nat Nat) :=
  [.write [.put k 0], .switchMemTable, .compactMemTable]

/-- Tables of the keys 0 and 2 at levels 1 and 2, and a manual compaction of level 1 during
which the key `k` is flushed. -/
def flushDuring (k : Nat) : List (Action Nat Nat) :=
  flushOf 0 ++ flushOf 0 ++ flushOf 2 ++ flushOf 2 ++ [.compactRange 1 none none] ++ flushOf k ++
    [.compactionRound, .compactionRound, .compactionRound, .compactionRound, .installCompaction]

/-- A flush outside of the inputs' range. -/
theorem levels_disjoint_flush_beside :
    ∃ s, run exampleOptions (notBetween exampleOptions) (initial 2) (flushDuring 3) = some s ∧
      s.current.LevelsDisjoint := by
  obtain ⟨s, ran⟩ := isSome_iff_exists.mp (by decide +kernel :
    (run exampleOptions (notBetween exampleOptions) (initial 2) (flushDuring 3)).isSome = true)
  exact ⟨s, ran, levels_disjoint exampleOptions 2 _ ran⟩

/-- The key 1 lies between the inputs and goes to level 2, where the table of the keys 0 and
2 then overlaps it. -/
theorem flush_between_inputs :
    ∃ s, run exampleOptions (fun _ _ => true) (initial 2) (flushDuring 1) = some s ∧
      ¬ s.current.LevelsDisjoint := by
  have overlap : (run exampleOptions (fun _ _ => true) (initial 2) (flushDuring 1)).any
      (fun s => !decide ((s.current.files 2).Pairwise fun f g => f.largest < g.smallest)) = true := by
    decide +kernel
  obtain ⟨s, ran, overlap⟩ := (any_eq_true _ _).mp overlap
  refine ⟨s, ran, fun disjoint => ?_⟩
  simp only [Bool.not_eq_true', decide_eq_false_iff_not] at overlap
  exact overlap (disjoint 2 (by decide))

end
end TalusDB
