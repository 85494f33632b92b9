import TalusDB.DB.Journal
import TalusDB.DB.Producing

/-! What an open database relies on at each point where its mutex is free: the descriptor and
the version set agree, or `LogAndApply` is on the way from one to the other. -/
namespace TalusDB
open Recovery (entriesOf)
variable {K V : Type} [LinearOrder K]

/-- The first log that recovery reads once the edit is logged. -/
def Logging.least (l : Logging K V) : Nat := l.edit.logNumber.getD 0

/-- What the descriptor says once the edit is logged. -/
def Logging.record (l : Logging K V) (added : List (Nat × Nat)) : Record K V where
  version := l.version
  added := added ++ l.edit.adds
  logNumber := l.least
  nextFile := l.edit.nextFileNumber.getD 0
  lastSequence := l.edit.lastSequence.getD 0

namespace Impl
variable {s s' : Impl K V} {number : Nat} {rec : Record K V} {added : List (Nat × Nat)}

/-- What holds from `VersionSet::Recover` on: the descriptor `number` is `CURRENT` and says
`rec`, and the version set knows the files `added`. -/
structure Books [Inhabited V] (comparator : String) (s : Impl K V) (number : Nat)
    (rec : Record K V) (added : List (Nat × Nat)) : Prop where
  keeps : s.files.Keeps comparator number rec
  listed : ∀ node ∈ s.versions, ∀ level, ∀ f ∈ node.value.files level, (level, f.number) ∈ added
  below : ∀ a ∈ added, a.2 < s.set.nextFileNumber
  manifest : s.set.manifestFileNumber < s.set.nextFileNumber
  prev : s.set.prevLogNumber = 0
  wanted : Wanted s.set.current s.fileToCompact
  pending : ∀ n ∈ s.pendingOutputs, n < s.set.nextFileNumber
  running : ∀ r ∈ s.running, Producing s.files s.set.nextFileNumber added r.compact ∧
    ∀ n ∈ r.compact.numbers, n ∈ s.pendingOutputs

/-- The descriptor says what the version set holds. -/
structure Agrees (s : Impl K V) (rec : Record K V) (added : List (Nat × Nat)) : Prop where
  version : rec.version = s.set.current
  logNumber : rec.logNumber = s.set.logNumber
  added : rec.added = added

/-- `DB::Open` behind the replay of the logs. -/
structure Opening [Inhabited V] (s : Impl K V) (number : Nat) (rec : Record K V)
    (added : List (Nat × Nat)) (r : Recovering K V) : Prop where
  agrees : s.Agrees rec added
  reopened : s.set.descriptorOpen = true → number = s.set.manifestFileNumber
  replaced : s.set.descriptorOpen = false → number < s.set.manifestFileNumber
  saved : r.saveManifest = false → s.set.descriptorOpen = true
  forward : s.set.logNumber < s.set.nextFileNumber
  alone : s.opened = false ∧ s.imm = none ∧ s.writing = none ∧ s.running = none
  unset : s.logfileNumber = 0
  deleted : r.edit.deletedFiles = []
  new : ∀ a ∈ r.edit.newFiles, a.1 = 0 ∧ a.2.number < s.set.nextFileNumber ∧
    ∀ b ∈ added, b.2 ≠ a.2.number
  numbers : (r.edit.newFiles.map (·.2.number)).Nodup
  tables : r.tables.Sublist (r.edit.newFiles.map (·.2))
  written : ∀ a ∈ r.edit.newFiles,
    a.2 ∈ r.tables ∨ s.files.tables.lookup a.2.number = some a.2.entries
  keys : ∀ n ∈ s.files.logs, n < s.set.nextFileNumber
  covered : ∀ n records, s.files.logs.lookup n = some records → s.set.logNumber ≤ n →
    (∀ m ∈ r.reused, m.1 ≠ n) →
      (∀ e ∈ entriesOf records, ∃ a ∈ r.edit.newFiles, e ∈ a.2.entries) ∧
        (r.saveManifest = false → records = [])
  reused : ∀ m ∈ r.reused, s.set.logNumber ≤ m.1 ∧ m.1 ∈ s.files.logs ∧
    (∀ n ∈ s.files.logs, n ≤ m.1) ∧
    ∀ records, s.files.logs.lookup m.1 = some records → ∀ e ∈ entriesOf records, e ∈ m.2

/-- The descriptor is open, and the logs hold what they should. -/
structure Settled [Inhabited V] (s : Impl K V) (number : Nat) (rec : Record K V)
    (added : List (Nat × Nat)) : Prop where
  agrees : s.Agrees rec added
  manifest : number = s.set.manifestFileNumber
  isOpen : s.set.descriptorOpen = true
  covers : s.journal.Covers s.set.logNumber

/-- There are no logs that recovery would not read. -/
def Swept (s : Impl K V) (least : Nat) : Prop := ∀ n ∈ s.files.logs, least ≤ n

/-- The edit of `LogAndApply` may be logged and applied. -/
structure Planned [Inhabited V] (s : Impl K V) (added : List (Nat × Nat)) (l : Logging K V) :
    Prop where
  appends : Appends added s.set.current l.edit.toVersionEdit
  deleted : ∀ d ∈ l.edit.deletedFiles, d ∈ added
  named : l.edit.comparator = none
  version : l.version = s.set.current.logAndApply l.edit.toVersionEdit
  forward : s.set.logNumber ≤ l.least
  isLog : l.edit.logNumber = some l.least
  isPrev : l.edit.prevLogNumber = some 0
  isNext : l.edit.nextFileNumber = some (l.record added).nextFile
  isLast : l.edit.lastSequence = some (l.record added).lastSequence
  below : ∀ a ∈ added ++ l.edit.adds, a.2 < (l.record added).nextFile
  logBelow : l.least < (l.record added).nextFile
  manifest : s.set.manifestFileNumber < (l.record added).nextFile
  later : (l.record added).nextFile ≤ s.set.nextFileNumber
  tables : ∀ level, ∀ f ∈ l.version.files level, s.files.tables.lookup f.number = some f.entries
  logs : ∀ n records, s.files.logs.lookup n = some records → n < l.least →
    ∀ e ∈ entriesOf records, e ∈ l.version.entries
  isOpen : s.set.descriptorOpen = true
  covers : s.journal.Covers l.least
  /-- The outputs of a running compaction are not among the files of another edit. -/
  own : (∀ outputs, l.caller ≠ .compaction outputs) →
    ∀ r ∈ s.running, ∀ n ∈ r.compact.numbers, ∀ a ∈ l.edit.adds, a.2 ≠ n
  flushes : l.caller = .compactMemTable → ∃ m, s.imm = some m ∧ m < l.least
  swept : l.caller = .trivialMove → s.Swept l.least

/-- How far `LogAndApply` has come. -/
inductive Stage (comparator : String) (s : Impl K V) (number : Nat) (rec : Record K V)
    (added : List (Nat × Nat)) (l : Logging K V) : Prop where
  | before (appended : l.appended = false) (agrees : s.Agrees rec added)
      (old : l.newManifest = false → number = s.set.manifestFileNumber)
      (draft : l.newManifest = true → number ≠ s.set.manifestFileNumber ∧ ∃ records r,
        s.files.descriptors.lookup s.set.manifestFileNumber = some records ∧
        Builds comparator records added s.set.current r)
  | drafted (appended : l.appended = true) (new : l.newManifest = true)
      (agrees : s.Agrees rec added) (other : number ≠ s.set.manifestFileNumber)
      (draft : ∃ records r,
        s.files.descriptors.lookup s.set.manifestFileNumber = some records ∧
        Says comparator records (l.record added) r)
  | done (appended : l.appended = true) (old : l.newManifest = false)
      (manifest : number = s.set.manifestFileNumber) (isRecord : rec = l.record added)

/-- Nobody needs the file any more. -/
def Doomed (s : Impl K V) : FileName → Prop
  | .table n => (∀ node ∈ s.versions, n ∉ node.value.fileNumbers) ∧ n ∉ s.pendingOutputs
  | .log n => n < s.set.logNumber
  | .descriptor n => n < s.set.manifestFileNumber

/-- What holds besides, by what the thread is at. -/
def Phase [Inhabited V] (comparator : String) (s : Impl K V) (number : Nat) (rec : Record K V)
    (added : List (Nat × Nat)) : Prop :=
  match s.task with
  | .closed | .creating => False
  | .recovering r => s.Opening number rec added r
  | .building n _ => s.Settled number rec added ∧ s.Swept s.set.logNumber ∧
      n < s.set.nextFileNumber ∧ (∀ a ∈ added, a.2 ≠ n) ∧
      ∀ r ∈ s.running, n ∉ r.compact.numbers
  | .logging l => s.Planned added l ∧ s.Stage comparator number rec added l
  | .removing names => s.Settled number rec added ∧ (∀ name ∈ names, s.Doomed name) ∧
      ∀ n ∈ s.files.logs, s.set.logNumber ≤ n ∨ .log n ∈ names
  | .idle => s.Settled number rec added ∧ s.Swept s.set.logNumber

namespace Foreground

variable (foreground : Foreground s s')
include foreground

theorem task : s'.task = s.task := by rw [foreground.same]

theorem running : s'.running = s.running := by rw [foreground.same]

theorem pending : s'.pendingOutputs = s.pendingOutputs := by
  rw [foreground.same]

theorem set : s'.set = { s.set with
    nextFileNumber := s'.set.nextFileNumber, lastSequence := s'.set.lastSequence } := by
  rw [foreground.same]

theorem files : s'.files = { s.files with logs := s'.files.logs } := by
  rw [foreground.same]

end Foreground

section foreground
variable [Inhabited V] {comparator : String} {least : Nat}

theorem keeps_journal (keeps : s.files.Keeps comparator number rec)
    (foreground : Foreground s s') (stepped : s.journal.Step s'.journal)
    (covers : s.journal.Covers least) (young : rec.logNumber ≤ least) :
    s'.files.Keeps comparator number rec := by
  rw [foreground.files]
  have high : rec.logNumber ≤ s.logfileNumber := young.trans covers.reached
  have positive : 0 < s.logfileNumber := covers.positive
  have below : s.logfileNumber < s.set.nextFileNumber := covers.below
  have logs : s'.files.logs = s'.journal.logs := rfl
  rw [logs]
  generalize s'.journal = j at stepped
  cases stepped with
  | quiet | insert | finish => exact keeps
  | log => exact keeps.insertLog high positive _
  | switch => exact keeps.insertLog (high.trans below.le) (positive.trans below) _

theorem Books.foreground (books : s.Books comparator number rec added)
    (foreground : Foreground s s') (keeps : s'.files.Keeps comparator number rec) :
    s'.Books comparator number rec added where
  keeps := keeps
  listed node mem := by
    obtain ⟨m, inside, same⟩ := foreground.versions node mem
    exact same ▸ books.listed m inside
  below a mem := (books.below a mem).trans_le foreground.later
  manifest := by
    rw [foreground.set]
    exact books.manifest.trans_le foreground.later
  prev := by
    rw [foreground.set]
    exact books.prev
  wanted := by
    rw [foreground.set]
    exact foreground.wanted books.wanted
  pending n mem := by
    rw [foreground.pending] at mem
    exact (books.pending n mem).trans_le foreground.later
  running r isRunning := by
    rw [foreground.running] at isRunning
    obtain ⟨producing, pending⟩ := books.running r isRunning
    rw [foreground.pending, foreground.files]
    exact ⟨producing.mono foreground.later fun _ _ => rfl, pending⟩

omit [Inhabited V] in
theorem Agrees.foreground (agrees : s.Agrees rec added) (foreground : Foreground s s') :
    s'.Agrees rec added := by
  rw [Foreground.same foreground]
  exact ⟨agrees.version, agrees.logNumber, agrees.added⟩

theorem Settled.foreground (settled : s.Settled number rec added) (foreground : Foreground s s')
    (stepped : s.journal.Step s'.journal) : s'.Settled number rec added := by
  have covers := settled.covers.step stepped
  refine ⟨settled.agrees.foreground foreground, ?_, ?_, ?_⟩
  · rw [foreground.set]
    exact settled.manifest
  · rw [foreground.set]
    exact settled.isOpen
  · rw [foreground.set]
    exact covers

theorem Swept.journal (swept : s.Swept least) (covers : s.journal.Covers least)
    (stepped : s.journal.Step s'.journal) : s'.Swept least :=
  fun n mem => (stepped.keys covers mem).elim id (swept n)

theorem Opening.foreground {r : Recovering K V} (opening : s.Opening number rec added r)
    (foreground : Foreground s s') (stepped : s.journal.Step s'.journal) :
    s'.Opening number rec added r := by
  obtain ⟨closed, noImm, free, idle⟩ := opening.alone
  have same := stepped.closed closed free
  have logs : s'.files.logs = s.files.logs := congrArg Journal.logs same
  have next : s'.set.nextFileNumber = s.set.nextFileNumber := congrArg Journal.nextFileNumber same
  have files : s'.files = s.files := by rw [foreground.files, logs]
  have set := foreground.set
  rw [next] at set
  refine { opening with
    agrees := opening.agrees.foreground foreground
    unset := (congrArg Journal.logfileNumber same).trans opening.unset
    reopened := ?_, replaced := ?_, saved := ?_, forward := ?_, alone := ?_, new := ?_
    written := ?_, keys := ?_, covered := ?_, reused := ?_ }
  · rw [set]
    exact opening.reopened
  · rw [set]
    exact opening.replaced
  · rw [set]
    exact opening.saved
  · rw [set]
    exact opening.forward
  · refine ⟨(congrArg Journal.opened same).trans closed, (congrArg Journal.imm same).trans noImm,
      (congrArg Journal.writing same).trans free, foreground.running.trans idle⟩
  · rw [set]
    exact opening.new
  · rw [files]
    exact opening.written
  · rw [files, set]
    exact opening.keys
  · rw [files, set]
    exact opening.covered
  · rw [files, set]
    exact opening.reused

theorem Planned.foreground {l : Logging K V} (planned : s.Planned added l)
    (foreground : Foreground s s') (stepped : s.journal.Step s'.journal) :
    s'.Planned added l := by
  have tables : s'.files.tables = s.files.tables := by rw [foreground.files]
  refine { planned with
    appends := ?_, version := ?_, forward := ?_, manifest := ?_, later := ?_, tables := ?_
    logs := ?_, isOpen := ?_, covers := planned.covers.step stepped, own := ?_, flushes := ?_, swept := ?_ }
  · rw [foreground.set]
    exact planned.appends
  · rw [foreground.set]
    exact planned.version
  · rw [foreground.set]
    exact planned.forward
  · rw [foreground.set]
    exact planned.manifest
  · exact planned.later.trans foreground.later
  · rw [tables]
    exact planned.tables
  · intro n records found old
    have same : s'.files.logs.lookup n = s.files.logs.lookup n := stepped.older planned.covers old
    rw [same] at found
    exact planned.logs n records found old
  · rw [foreground.set]
    exact planned.isOpen
  · rw [foreground.running]
    exact planned.own
  · intro isFlush
    obtain ⟨m, isImm, before⟩ := planned.flushes isFlush
    exact ⟨m, stepped.imm isImm, before⟩
  · exact fun isMove => (planned.swept isMove).journal planned.covers stepped

omit [Inhabited V] in
theorem Stage.foreground {l : Logging K V} (stage : s.Stage comparator number rec added l)
    (foreground : Foreground s s') : s'.Stage comparator number rec added l := by
  have manifest : s'.set.manifestFileNumber = s.set.manifestFileNumber := by rw [foreground.set]
  have current : s'.set.current = s.set.current := by rw [foreground.set]
  have descriptors : s'.files.descriptors = s.files.descriptors := by rw [foreground.files]
  cases stage with
  | before appended agrees old draft =>
    refine .before appended (agrees.foreground foreground) ?_ ?_
    · rw [manifest]
      exact old
    · rw [manifest, current, descriptors]
      exact draft
  | drafted appended new agrees other draft =>
    refine .drafted appended new (agrees.foreground foreground) ?_ ?_
    · rw [manifest]
      exact other
    · rw [manifest, descriptors]
      exact draft
  | done appended old isManifest isRecord =>
    refine .done appended old ?_ isRecord
    rw [manifest]
    exact isManifest

omit [Inhabited V] in
theorem Doomed.foreground {name : FileName} (doomed : s.Doomed name)
    (foreground : Foreground s s') : s'.Doomed name := by
  cases name with
  | table n =>
    refine ⟨fun node mem => ?_, foreground.pending ▸ doomed.2⟩
    obtain ⟨m, inside, same⟩ := foreground.versions node mem
    exact same ▸ doomed.1 m inside
  | log n =>
    rw [Doomed, foreground.set]
    exact doomed
  | descriptor n =>
    rw [Doomed, foreground.set]
    exact doomed

theorem Planned.young {l : Logging K V} (planned : s.Planned added l)
    (stage : s.Stage comparator number rec added l) : rec.logNumber ≤ l.least := by
  cases stage with
  | before appended agrees => exact agrees.logNumber.le.trans planned.forward
  | drafted appended new agrees => exact agrees.logNumber.le.trans planned.forward
  | done appended old manifest isRecord => exact isRecord ▸ le_rfl

theorem foreground_phase (books : s.Books comparator number rec added)
    (phase : s.Phase comparator number rec added) (foreground : Foreground s s')
    (stepped : s.journal.Step s'.journal) :
    s'.Books comparator number rec added ∧ s'.Phase comparator number rec added := by
  have logNumber : s'.set.logNumber = s.set.logNumber := by rw [foreground.set]
  have settled_keeps (settled : s.Settled number rec added) :
      s'.files.Keeps comparator number rec :=
    keeps_journal books.keeps foreground stepped settled.covers settled.agrees.logNumber.le
  rw [Phase] at phase ⊢
  rw [foreground.task]
  cases isTask : s.task with
  | closed | creating => simp [isTask] at phase
  | recovering r =>
    simp only [isTask] at phase
    obtain ⟨closed, -, free, -⟩ := phase.alone
    have logs : s'.files.logs = s.files.logs :=
      congrArg Journal.logs (stepped.closed closed free)
    refine ⟨books.foreground foreground ?_, phase.foreground foreground stepped⟩
    rw [foreground.files, logs]
    exact books.keeps
  | building n base =>
    simp only [isTask] at phase
    obtain ⟨settled, swept, below, fresh, other⟩ := phase
    refine ⟨books.foreground foreground (settled_keeps settled),
      settled.foreground foreground stepped, ?_, below.trans_le foreground.later, fresh, ?_⟩
    · rw [logNumber]
      exact swept.journal settled.covers stepped
    · rw [foreground.running]
      exact other
  | logging l =>
    simp only [isTask] at phase
    obtain ⟨planned, stage⟩ := phase
    refine ⟨books.foreground foreground ?_, planned.foreground foreground stepped,
      stage.foreground foreground⟩
    exact keeps_journal books.keeps foreground stepped planned.covers (planned.young stage)
  | removing names =>
    simp only [isTask] at phase
    obtain ⟨settled, doomed, swept⟩ := phase
    refine ⟨books.foreground foreground (settled_keeps settled),
      settled.foreground foreground stepped,
      fun name mem => (doomed name mem).foreground foreground, ?_⟩
    rw [logNumber]
    intro n mem
    exact (stepped.keys settled.covers mem).elim .inl (swept n)
  | idle =>
    simp only [isTask] at phase
    obtain ⟨settled, swept⟩ := phase
    refine ⟨books.foreground foreground (settled_keeps settled),
      settled.foreground foreground stepped, ?_⟩
    rw [logNumber]
    exact swept.journal settled.covers stepped

end foreground

end Impl
end TalusDB
