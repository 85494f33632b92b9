import TalusDB.DB.Opening
import TalusDB.DB.Working

/-! `RemoveObsoleteFiles` removes no file that anybody needs, over all runs of a database and
its reopenings. -/
namespace TalusDB
open Option
open Recovery (entriesOf)
variable {K V : Type} [LinearOrder K]

namespace Impl
variable [Inhabited V] {config : Config K V} {comparator : String} {s s' : Impl K V}
  {number : Nat} {rec : Record K V} {added : List (Nat × Nat)}

/-- A database is on disk only, or loaded as well. -/
inductive Sound (comparator : String) (s : Impl K V) : Prop where
  | stored (unloaded : s.loaded = false) (fresh : s.Fresh) (stored : s.Stored comparator)
  | loaded (number : Nat) (rec : Record K V) (added : List (Nat × Nat)) (pinned : s.Pinned)
      (books : s.Books comparator number rec added) (phase : s.Phase comparator number rec added)

theorem Phase.isLoaded (phase : s.Phase comparator number rec added) : s.loaded = true := by
  rw [Phase] at phase
  rw [Impl.loaded]
  split at phase <;> simp_all

theorem Phase.task (phase : s.Phase comparator number rec added) :
    s.task ≠ .closed ∧ s.task ≠ .creating := by
  have isLoaded := phase.isLoaded
  constructor <;> intro isTask <;> simp [Impl.loaded, isTask] at isLoaded

theorem crash_sound (sound : s.Sound comparator) :
    ({ files := s.files } : Impl K V).Sound comparator := by
  refine .stored rfl rfl ?_
  cases sound with
  | stored unloaded fresh stored =>
    cases current : s.files.current with
    | none =>
      simp only [Stored, current] at stored ⊢
      exact ⟨stored.1, by simp⟩
    | some number =>
      simp only [Stored, current] at stored ⊢
      exact ⟨by simp, stored.2⟩
  | loaded number rec added pinned books phase =>
    rw [Stored, books.keeps.current]
    exact ⟨by simp, rec, books.keeps⟩

theorem step_stored (unloaded : s.loaded = false) (fresh : s.Fresh)
    (stored : s.Stored config.comparator) {a : ImplAction K V}
    (stepped : s.step config a = some s') : s'.Sound config.comparator := by
  obtain rfl | rfl | rfl | rfl := step_unloaded fresh unloaded stepped
  · cases stepped
    exact crash_sound (.stored unloaded fresh stored)
  · have isStored := newDB_stored stored stepped
    simp only [step, newDB] at stepped
    split at stepped <;> cases stepped
    refine .stored rfl ?_ isStored
    rw [fresh]
    rfl
  · obtain ⟨number, rec, books, phase⟩ := recover_phase fresh stored stepped
    exact .loaded number rec _ (recover_pinned fresh stepped) books phase
  · have creating : s.task = .creating := by
      simp only [step, setCurrent] at stepped
      split at stepped
      case h_1 isTask => exact isTask
      case h_2 isTask => simp [loaded, isTask] at unloaded
      case h_3 => cases stepped
    have isStored := setCurrent_stored stored creating stepped
    simp only [step, setCurrent, creating] at stepped
    cases stepped
    refine .stored rfl ?_ isStored
    rw [fresh]
    rfl

section
variable (pinned : s.Pinned) (books : s.Books config.comparator number rec added)
  (phase : s.Phase config.comparator number rec added)
include pinned books phase

theorem compact_sound (free : s.free = true) (idle : s.running = none) {c : Compaction K V}
    (produced : c.Produced config.options s.set.current) (isManual : Bool) :
    (s.begin config isManual c).Sound config.comparator := by
  obtain ⟨books', phase'⟩ := begin_phase books phase free idle produced.present isManual
  exact .loaded _ _ _ (begin_pinned pinned (free_iff.mp free).2 idle isManual c) books' phase'

theorem step_loaded {a : ImplAction K V}
    (stepped : s.step config a = some s') : s'.Sound config.comparator := by
  by_cases foreground : a.isForeground = true
  · obtain ⟨books', phase'⟩ := foreground_phase books phase (step_foreground foreground stepped)
      (step_journal foreground stepped)
    exact .loaded _ _ _ (step_foreground_pinned foreground pinned stepped) books' phase'
  cases a <;> simp only [ImplAction.isForeground, not_true_eq_false] at foreground
  case crash =>
    cases stepped
    exact crash_sound (.loaded _ _ _ pinned books phase)
  case newDB =>
    simp only [step, newDB] at stepped
    split at stepped
    case h_1 isTask _ => exact absurd isTask phase.task.1
    case h_2 => cases stepped
  case recover =>
    obtain ⟨_, _, _, _, _, isTask, _⟩ := recover_cases stepped
    exact absurd isTask phase.task.1
  case writeRecovered =>
    obtain ⟨books', phase'⟩ := writeRecovered_phase books phase stepped
    exact .loaded _ _ _ (writeRecovered_pinned pinned stepped) books' phase'
  case openLog =>
    obtain ⟨books', phase'⟩ := openLog_phase books phase stepped
    exact .loaded _ _ _ (openLog_pinned pinned stepped) books' phase'
  case appendRecord =>
    obtain ⟨rec', books', phase'⟩ := appendRecord_phase books phase stepped
    exact .loaded _ _ _ (appendRecord_pinned pinned stepped) books' phase'
  case setCurrent =>
    obtain ⟨number', rec', books', phase'⟩ := setCurrent_phase books phase stepped
    exact .loaded _ _ _ (setCurrent_pinned pinned stepped phase'.isLoaded) books' phase'
  case install =>
    obtain ⟨added', books', phase'⟩ := install_phase books phase stepped
    exact .loaded _ _ _ (install_pinned pinned stepped) books' phase'
  case removeFile =>
    obtain ⟨books', phase'⟩ := removeFile_phase pinned books phase stepped
    exact .loaded _ _ _ (removeFile_pinned pinned stepped) books' phase'
  case beginFlush =>
    obtain ⟨books', phase'⟩ := beginFlush_phase books phase stepped
    exact .loaded _ _ _ (beginFlush_pinned pinned stepped) books' phase'
  case buildTable =>
    obtain ⟨books', phase'⟩ := buildTable_phase books phase stepped
    exact .loaded _ _ _ (buildTable_pinned pinned stepped) books' phase'
  case compact =>
    simp only [step, compact] at stepped
    obtain ⟨free, stepped⟩ := ite_none_right_eq_some.mp stepped
    simp only [Bool.and_eq_true, isNone_iff_eq_none] at free
    obtain ⟨c, picked, rfl⟩ := map_eq_some_iff.mp stepped
    exact compact_sound pinned books phase free.1.1 free.2 (.automatic _ _ books.wanted picked) _
  case compactRange level begin finish =>
    simp only [step, compactRange] at stepped
    obtain ⟨free, stepped⟩ := ite_none_right_eq_some.mp stepped
    simp only [Bool.and_eq_true, isNone_iff_eq_none, decide_eq_true_eq] at free
    obtain ⟨c, picked, rfl⟩ := map_eq_some_iff.mp stepped
    exact compact_sound pinned books phase free.1.1.1 free.1.2
      (.manual level begin finish free.2 picked) _
  case compactionRound =>
    obtain ⟨books', phase'⟩ := compactionRound_phase books phase stepped
    exact .loaded _ _ _ (compactionRound_pinned pinned stepped) books' phase'
  case finishCompaction =>
    obtain ⟨books', phase'⟩ := finishCompaction_phase books phase stepped
    exact .loaded _ _ _ (finishCompaction_pinned pinned stepped) books' phase'

end

theorem step_sound {a : ImplAction K V} (sound : s.Sound config.comparator)
    (stepped : s.step config a = some s') : s'.Sound config.comparator := by
  cases sound with
  | stored unloaded fresh stored => exact step_stored unloaded fresh stored stepped
  | loaded number rec added pinned books phase => exact step_loaded pinned books phase stepped

theorem empty_sound : ({ files := {} } : Impl K V).Sound comparator :=
  .stored rfl rfl ⟨rfl, nofun⟩

theorem run_sound {allowed : Impl K V → ImplAction K V → Bool} {actions : List (ImplAction K V)}
    (ran : run config allowed { files := {} } actions = some s) : s.Sound config.comparator :=
  Runs.run_induct (P := Sound config.comparator)
    (fun _ _ _ sound _ stepped => step_sound sound stepped) empty_sound ran

/-- The tables that a flush, a compaction or `DB::Open` is about to put into the version. -/
def Produces (s : Impl K V) (n : Nat) : Prop :=
  (∃ r ∈ s.running, n ∈ r.compact.numbers) ∨
    match s.task with
    | .building number _ => n = number
    | .recovering r => n ∈ r.edit.newFiles.map (·.2.number)
    | .logging l => n ∈ l.edit.newFiles.map (·.2.number)
    | _ => False

/-- What must not be removed: the tables of the versions that somebody refers to and those that
are produced, a log with an entry that is not in the tables of the recorded version, and the
descriptor that `CURRENT` names. -/
def Needs (comparator : String) (s : Impl K V) : FileName → Prop
  | .table n => (∃ pin ∈ s.holders, n ∈ pin.2.fileNumbers) ∨ s.Produces n
  | .log n => ∃ records, s.files.logs.lookup n = some records ∧ ∃ e ∈ entriesOf records,
      ∀ v ∈ s.files.recorded comparator, ¬ s.files.InTables v e
  | .descriptor n => s.files.current = some n

/-- Whenever `RemoveObsoleteFiles` comes to a file, nobody needs it. -/
theorem removeFile_unneeded {actions : List (ImplAction K V)} {name : FileName}
    {rest : List FileName}
    (ran : run config (fun _ _ => true) { files := {} } actions = some s)
    (removing : s.task = .removing (name :: rest)) : ¬ s.Needs config.comparator name := by
  cases run_sound ran with
  | stored unloaded => simp [Impl.loaded, removing] at unloaded
  | loaded number rec added pinned books phase =>
    simp only [Phase, removing] at phase
    obtain ⟨settled, doomed, -⟩ := phase
    have here := doomed name List.mem_cons_self
    cases name with
    | table n =>
      rintro (⟨pin, held, mem⟩ | ⟨r, isRunning, mem⟩ | produced)
      · obtain ⟨node, listed, -, same⟩ := pinned.counted.listed pin held
        exact here.1 node listed (same ▸ mem)
      · exact here.2 ((books.running r isRunning).2 n mem)
      · simp [removing] at produced
    | log n =>
      rintro ⟨records, found, e, inside, lost⟩
      refine lost rec.version (books.keeps.recorded_eq) (books.keeps.inTables ?_)
      exact books.keeps.logs n records found (settled.agrees.logNumber ▸ here) e inside
    | descriptor n =>
      intro named
      cases books.keeps.current.symm.trans named
      exact absurd (settled.manifest ▸ here : number < number) (Nat.lt_irrefl _)

end Impl

/-- A database of numbers whose logs are not reused. -/
def plainConfig : Config Nat Nat where
  options := exampleOptions
  comparator := "db.BytewiseComparator"
  reuseLogs := false
  full := fun _ => false
  descriptorSize := fun _ => 0

/-- `DB::Open` for a new directory. -/
def openNew : List (ImplAction Nat Nat) :=
  [.newDB, .setCurrent, .recover, .openLog, .appendRecord, .setCurrent, .install, .removeFile,
    .removeFile]

/-- A write and its flush, while a reader holds the version before it. -/
def writeAndFlush : List (ImplAction Nat Nat) :=
  [.beginWrite [.put 1 7], .insert, .finishWrite, .switchMemTable, .capture none, .beginFlush,
    .buildTable, .appendRecord, .install]

/-- The log of the memtable that was flushed goes. -/
theorem removeFile_unneeded_flushed :
    ∃ s, Impl.run plainConfig (fun _ _ => true) { files := {} } (openNew ++ writeAndFlush) =
      some s ∧ s.task = .removing [.log 3] ∧ ¬ s.Needs plainConfig.comparator (.log 3) := by
  have removes : (Impl.run plainConfig (fun _ _ => true) { files := {} }
      (openNew ++ writeAndFlush)).any (fun s => match s.task with
        | .removing names => names == [.log 3]
        | .closed | .creating | .recovering _ | .building .. | .logging _ | .idle => false) = true := by
    decide +kernel
  obtain ⟨s, ran, isTask⟩ := (any_eq_true _ _).mp removes
  cases removing : s.task with
  | removing names =>
    rw [removing] at isTask
    rw [beq_iff_eq.mp isTask] at removing
    exact ⟨s, ran, removing, Impl.removeFile_unneeded ran removing⟩
  | _ =>
    rw [removing] at isTask
    cases isTask

end TalusDB
