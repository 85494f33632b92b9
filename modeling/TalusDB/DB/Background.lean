import TalusDB.DB.Flush

/-! The background thread's compactions: a trivial move at once, a merging compaction
from its choice, over any steps in between, to its installation. -/
namespace TalusDB
open List Option Compaction Bool
variable {K V : Type} [LinearOrder K]

variable {c : Compaction K V}

theorem isTrivialMove_inputs {options : Options K V}
    (trivial : c.isTrivialMove options = true) : ∃ f, c.inputs = ([f], []) := by
  simp only [isTrivialMove, and_eq_true, beq_iff_eq] at trivial
  obtain ⟨⟨one, none⟩, -⟩ := trivial
  obtain ⟨f, single⟩ := length_eq_one_iff.mp one
  exact ⟨f, Prod.ext single (length_eq_zero_iff.mp none)⟩

theorem moveEdit_replaces {f : FileMetaData K V} (inputs : c.inputs = ([f], [])) :
    Replaces c [f] c.moveEdit := by
  constructor <;>
    simp [moveEdit, removed, inputs, VersionEdit.removeFile,
      VersionEdit.addFile]

theorem start_pending {v : Version K V} {next : Nat} (wellFormed : v.WellFormed next)
    (picked : c.Picked v) (smallest : Nat) : Pending v next (.start c smallest) where
  bound := picked.bound
  present := picked.selected.present
  above _ le _ inLevel other _ input :=
    picked.selected.above_newer wellFormed.recent wellFormed.unique le inLevel other input
  origin e mem := by simpa [CompactionState.start, CompactionState.written, mem_makeInput] using mem
  writable := start_writable wellFormed picked smallest
  tight := by simp [CompactionState.start]
  counted := start_counted c smallest 0 next
  fresh := by simp [CompactionState.start, CompactionState.numbers]

namespace DBState
variable {s s' : DBState K V} {options : Options K V} {c : Compaction K V}

section
variable (ordered : s.Ordered)
include ordered

theorem replace_kept {outputs : List (FileMetaData K V)}
    {edit : VersionEdit K V} (replaces : Replaces c outputs edit) (proper : edit.Proper)
    (present : c.Present s.current) (bound : c.level + 1 < kNumLevels)
    (fromInputs : FromInputs c outputs)
    (above : ∀ level ≤ c.level + 1, ∀ g ∈ s.current.files level, ¬ c.IsInput level g →
      ∀ f ∈ c.allInputs, NewerEntries g.entries f.entries)
    (below : ∀ f ∈ outputs, f.number < s.nextFileNumber)
    (fresh : ∀ f ∈ outputs, ∀ level, ∀ g ∈ s.current.files level, ¬ c.IsInput level g →
      g.number ≠ f.number) :
    (s.setCurrent (s.current.logAndApply edit)).Recent ∧
      (s.setCurrent (s.current.logAndApply edit)).Sound := by
  obtain ⟨-, recent, sound, -⟩ := ordered
  have subset := replaces.mem_entries proper present fromInputs
  have same {e : Entry K V} (mem : e ∈ (s.setCurrent (s.current.logAndApply edit)).entries) :
      e ∈ s.entries := by
    rw [mem_entries] at mem ⊢
    exact mem.imp_right (Or.imp_right (subset e))
  refine ⟨⟨recent.mem_imm, recent.mem_files.mono (List.Subset.refl _) subset,
    recent.imm_files.mono (List.Subset.refl _) subset, ?_⟩, ?_⟩
  · exact replaces.recent proper present sound.numbered bound fromInputs recent.version above
  · exact {
      sound with
      bounded := fun e mem => sound.bounded e (same mem)
      unique := sound.unique.mono fun e mem => same mem
      numbered := replaces.numbered proper present sound.numbered le_rfl below fresh
      wanted := by simp [setCurrent, Wanted] }

theorem move_ordered (idle : s.running = none)
    (picked : c.Picked s.current) (trivial : c.isTrivialMove options = true) :
    (s.setCurrent (s.current.logAndApply c.moveEdit)).Ordered := by
  obtain ⟨f, inputs⟩ := isTrivialMove_inputs trivial
  have all : c.allInputs = [f] := by simp [allInputs, inputs]
  have isInput {level : Nat} {g : FileMetaData K V} : c.IsInput level g ↔ level = c.level ∧ g = f := by
    simp [Compaction.IsInput, inputs]
  have present := picked.selected.present
  have mem : f ∈ s.current.files c.level := present.first f (by simp [inputs])
  have replaces := moveEdit_replaces inputs
  have proper : c.moveEdit.Proper := replaces.proper (by simp) (by simp [inputs])
  have numbered := ordered.sound.numbered
  have kept := replace_kept ordered replaces proper present picked.bound
    (fun g output e inside => ⟨g, by simpa [all] using output, inside⟩)
    (fun level le g inLevel other x input => picked.selected.above_newer ordered.recent.version
      ordered.sound.version_unique le inLevel other input)
    (fun g output => by
      rw [mem_singleton.mp output]
      exact numbered.below c.level f mem)
    (fun g output level x inLevel other same => by
      rw [mem_singleton.mp output] at same
      exact other (isInput.mpr (numbered.distinct level x inLevel c.level f mem same)))
  refine ⟨?_, kept.1, kept.2, ?_⟩
  · refine replaces.disjoint proper present numbered ordered.disjoint
      (pairwise_singleton _ _) ?_ picked.selected.outside
    intro g output
    rw [mem_singleton.mp output]
    exact ⟨⟨f, by simp [all], le_rfl⟩, ⟨f, by simp [all], le_rfl⟩⟩
  · simp [setCurrent, idle]

theorem begin_ordered (idle : s.running = none)
    (picked : c.Picked s.current) (isManual : Bool) : (s.begin options isManual c).Ordered := by
  have moved : ({ s with
      compactPointer := Function.update s.compactPointer c.level (some c.pointer) } :
      DBState K V).Ordered :=
    { ordered with
      recent := { ordered.recent with }
      sound := { ordered.sound with } }
  rw [begin]
  split
  case isTrue trivial =>
    rw [and_eq_true] at trivial
    exact move_ordered moved idle picked trivial.2
  case isFalse =>
    refine { moved with
      recent := { moved.recent with }
      sound := { moved.sound with }
      pending := ?_ }
    intro running isRunning
    cases isRunning
    exact start_pending ordered.wellFormed picked _

theorem compact_cases (compacted : s.compact options = some s') :
    ∃ c, pickCompaction options s.current s.compactPointer s.fileToCompact = some c ∧
      s.running = none ∧ c.Picked s.current ∧ s' = s.begin options false c := by
  rw [compact] at compacted
  obtain ⟨free, compacted⟩ := ite_none_right_eq_some.mp compacted
  rw [and_eq_true, isNone_iff_eq_none, isNone_iff_eq_none] at free
  obtain ⟨c, found, rfl⟩ := map_eq_some_iff.mp compacted
  exact ⟨c, found, free.2,
    pickCompaction_picked ordered.disjoint ordered.sound.wanted found, rfl⟩

theorem compactRange_cases {level : Nat} {begin finish : Option (InternalKey K)}
    (compacted : s.compactRange options level begin finish = some s') :
    ∃ c, TalusDB.compactRange options s.current level begin finish = some c ∧
      s.running = none ∧ c.Picked s.current ∧ s' = s.begin options true c := by
  rw [compactRange] at compacted
  obtain ⟨free, compacted⟩ := ite_none_right_eq_some.mp compacted
  simp only [and_eq_true, isNone_iff_eq_none, decide_eq_true_eq] at free
  obtain ⟨c, found, rfl⟩ := map_eq_some_iff.mp compacted
  exact ⟨c, found, free.1.2, compactRange_picked ordered.disjoint free.2 found, rfl⟩

end

/-- The outputs of a compaction that is at its end. -/
structure Finished (v : Version K V) (next : Nat) (c : CompactionState K V) : Prop where
  numbers : (c.outputs.map (·.number)).Nodup
  below : ∀ f ∈ c.outputs, f.number < next
  fresh : ∀ f ∈ c.outputs, ∀ level, ∀ g ∈ v.files level, g.number ≠ f.number
  fromInputs : FromInputs c.compaction c.outputs
  apart : SortedDisjoint c.outputs
  within : ∀ f ∈ c.outputs, (∃ g ∈ c.compaction.allInputs, g.smallest ≤ f.smallest) ∧
    ∃ g ∈ c.compaction.allInputs, f.largest ≤ g.largest

theorem SortedDisjoint.of_flatMap {files : List (FileMetaData K V)} (tight : ∀ f ∈ files, f.Tight)
    (sorted : (files.flatMap (·.entries)).Pairwise fun a b => a.key < b.key) :
    SortedDisjoint files := by
  rw [pairwise_flatMap] at sorted
  refine sorted.2.imp_of_mem ?_
  intro f g inF inG less
  obtain ⟨a, aIn, last⟩ := (tight f inF).last
  obtain ⟨b, bIn, first⟩ := (tight g inG).first
  exact last ▸ first ▸ less a aIn b bIn

variable {v : Version K V} {next : Nat} {compact : CompactionState K V}

theorem finish_finished {compact' : CompactionState K V} (pending : Pending v next compact)
    (finished : compact.finishOutputFile options = some compact') :
    compact'.compaction = compact.compaction ∧ Finished v next compact' := by
  obtain ⟨wrote, none⟩ := CompactionState.finishOutputFile_wrote finished
  have numbers := wrote.numbers
  have written := wrote.written
  rw [append_nil] at numbers written
  have isNumber {f : FileMetaData K V} (output : f ∈ compact'.outputs) :
      f.number ∈ compact.numbers :=
    numbers ▸ mem_append_left _ (mem_map_of_mem output)
  have entry {f : FileMetaData K V} (output : f ∈ compact'.outputs) {e : Entry K V}
      (inside : e ∈ f.entries) : ∃ g ∈ compact.compaction.allInputs, e ∈ g.entries :=
    pending.origin e (mem_append_left _
      (written ▸ mem_append_left _ (mem_flatMap.mpr ⟨f, output, inside⟩)))
  have tight := wrote.tight pending.tight
  have all : compact'.outputs.flatMap (·.entries) = compact.written := by
    simpa [CompactionState.written, none] using written
  refine ⟨wrote.compaction, ?_, ?_, ?_, ?_, ?_, ?_⟩
  · have nodup := numbers ▸ pending.counted.nodup
    exact nodup.sublist (sublist_append_left _ _)
  · exact fun f output => (pending.counted.within _ (isNumber output)).2
  · exact fun f output => pending.fresh _ (isNumber output)
  · rw [wrote.compaction]
    exact fun f output e inside => entry output inside
  · apply SortedDisjoint.of_flatMap tight
    rw [all]
    exact pending.writable.sorted.sublist (sublist_append_left _ _)
  · rw [wrote.compaction]
    intro f output
    obtain ⟨a, aIn, first⟩ := (tight f output).first
    obtain ⟨b, bIn, last⟩ := (tight f output).last
    obtain ⟨x, inX, aInX⟩ := entry output aIn
    obtain ⟨y, inY, bInY⟩ := entry output bIn
    exact ⟨⟨x, inX, first ▸ (x.bounded a aInX).1⟩, ⟨y, inY, last ▸ (y.bounded b bInY).2⟩⟩

theorem installCompaction_cases (ordered : s.Ordered)
    (installed : s.installCompaction options = some s') :
    ∃ running ∈ s.running, ∃ compact, compact.compaction = running.compact.compaction ∧
      Finished s.current s.nextFileNumber compact ∧ s' = { s.setCurrent
        (s.current.logAndApply compact.installEdit) with running := none } := by
  rw [installCompaction] at installed
  obtain ⟨running, isRunning, installed⟩ := bind_eq_some_iff.mp installed
  obtain ⟨-, installed⟩ := ite_none_right_eq_some.mp installed
  obtain ⟨compact, finished, installed⟩ := bind_eq_some_iff.mp installed
  cases installed
  obtain ⟨same, outputs⟩ := finish_finished (ordered.pending running isRunning) finished
  exact ⟨running, isRunning, compact, same, outputs, rfl⟩

theorem Finished.proper
    (finished : Finished v next compact) (present : compact.compaction.Present v) :
    compact.installEdit.Proper :=
  (installEdit_replaces compact).proper finished.numbers
    fun f output g input => finished.fresh f output _ g (present.second g input)

theorem run_finished {fuel next' : Nat} {compact' : CompactionState K V}
    (pending : Pending v next compact) (numbered : v.Numbered next)
    (ran : CompactionState.run options fuel next compact = some (next', compact')) :
    next ≤ next' ∧ compact'.compaction = compact.compaction ∧ Finished v next' compact' := by
  induction fuel generalizing next compact with
  | zero =>
    obtain ⟨done, finished, same⟩ := map_eq_some_iff.mp ran
    cases same
    exact ⟨le_rfl, finish_finished pending finished⟩
  | succ fuel ih =>
    obtain ⟨⟨next₁, compact₁⟩, stepped, ran⟩ := bind_eq_some_iff.mp ran
    obtain ⟨e, fresh, round, -⟩ := CompactionState.step_round stepped
    obtain ⟨pending, more⟩ := pending.step numbered stepped
    obtain ⟨more', same, finished⟩ := ih pending (numbered.mono more) ran
    exact ⟨more.trans more', same.trans round.compaction, finished⟩

theorem Finished.wellFormed {next' : Nat} (finished : Finished v next' compact)
    (wellFormed : v.WellFormed next) (more : next ≤ next') (picked : compact.compaction.Picked v) :
    (v.logAndApply compact.installEdit).WellFormed next' := by
  have present := picked.selected.present
  have proper := finished.proper present
  have replaces := installEdit_replaces compact
  obtain ⟨disjoint, recent, unique, numbered⟩ := wellFormed
  exact {
    disjoint := replaces.disjoint proper present numbered disjoint finished.apart.apart
      finished.within picked.selected.outside
    recent := replaces.recent proper present numbered picked.bound finished.fromInputs recent
      fun level le g mem other f input => picked.selected.above_newer recent unique le mem other input
    unique := unique.mono (replaces.mem_entries proper present finished.fromInputs)
    numbered := replaces.numbered proper present numbered more finished.below
      fun f output level g mem _ => finished.fresh f output level g mem }

theorem installCompaction_kept (ordered : s.Ordered)
    (installed : s.installCompaction options = some s') :
    s'.Recent ∧ s'.Sound ∧ s'.running = none := by
  obtain ⟨running, isRunning, compact, same, finished, rfl⟩ :=
    installCompaction_cases ordered installed
  obtain ⟨bound, present, above, -⟩ := ordered.pending running isRunning
  rw [← same] at bound present above
  have kept := replace_kept ordered (installEdit_replaces compact) (finished.proper present)
    present bound finished.fromInputs above finished.below
    fun f output level g inLevel _ => finished.fresh f output level g inLevel
  exact ⟨{ kept.1 with }, { kept.2 with }, rfl⟩

theorem installCompaction_ordered (ordered : s.Ordered) (outside : ∀ running ∈ s.running,
      ∀ g ∈ s.current.files (running.compact.compaction.level + 1),
        g ∉ running.compact.compaction.inputs.2 → Outside running.compact.compaction.allInputs g)
    (installed : s.installCompaction options = some s') : s'.Ordered := by
  obtain ⟨recent, sound, idle⟩ := installCompaction_kept ordered installed
  obtain ⟨running, isRunning, compact, same, finished, rfl⟩ :=
    installCompaction_cases ordered installed
  have present := (ordered.pending running isRunning).present
  have outside := outside running isRunning
  rw [← same] at present outside
  exact {
    disjoint := (installEdit_replaces compact).disjoint (finished.proper present) present
      ordered.sound.numbered ordered.disjoint finished.apart.apart finished.within outside
    recent
    sound
    pending := by simp }

theorem step_ordered [Inhabited V] (ordered : s.Ordered) {a : Action K V}
    (other : a ≠ .installCompaction) (stepped : s.step options a = some s') : s'.Ordered := by
  cases a with
  | write ops => exact write_ordered ordered stepped
  | switchMemTable => exact switchMemTable_ordered ordered stepped
  | compactMemTable => exact compactMemTable_ordered ordered stepped
  | compact =>
    obtain ⟨c, -, idle, picked, rfl⟩ := compact_cases ordered stepped
    exact begin_ordered ordered idle picked false
  | compactRange level begin finish =>
    obtain ⟨c, -, idle, picked, rfl⟩ := compactRange_cases ordered stepped
    exact begin_ordered ordered idle picked true
  | compactionRound => exact compactionRound_ordered ordered stepped
  | installCompaction => exact absurd rfl other
  | getSnapshot =>
    cases stepped
    exact getSnapshot_ordered ordered
  | releaseSnapshot i =>
    cases stepped
    exact releaseSnapshot_ordered ordered i
  | updateStats level i => exact updateStats_ordered ordered stepped

end DBState
end TalusDB
