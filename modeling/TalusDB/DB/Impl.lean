import Mathlib.Data.List.AList
import TalusDB.DB.Get
import TalusDB.DB.Manifest
import TalusDB.Lib.RefCount

/-! `DBImpl` with the files of its directory. A step is what a thread does from one point
where the mutex is free to the next, or one change of the directory; a crash may come
between any two steps. File operations succeed, except that a new log may not be made, and a
step has no result where it cannot be taken or where the source asserts. -/
namespace TalusDB

/-- The files of one kind, by their numbers. -/
abbrev Files (β : Type) := AList fun _ : Nat => β

inductive FileName where
  | log (number : Nat)
  | table (number : Nat)
  | descriptor (number : Nat)
  deriving DecidableEq, Repr

/-- The directory of a database. A log and a descriptor are the lists of their records,
`CURRENT` is the number of the descriptor that it names. -/
structure DBFiles (K V : Type) [LinearOrder K] where
  logs : Files (List (LogRecord K V)) := ∅
  tables : Files (List (Entry K V)) := ∅
  descriptors : Files (List (ManifestEdit K V)) := ∅
  current : Option Nat := none

/-- What an open database is set to: `reuse_logs`, when a recovered memtable is over
`write_buffer_size`, and the size of a descriptor. -/
structure Config (K V : Type) [LinearOrder K] where
  options : Options K V
  comparator : String
  reuseLogs : Bool
  full : List (Entry K V) → Bool
  descriptorSize : List (ManifestEdit K V) → Nat

/-- A counted reference to a version. -/
abbrev Pin (K V : Type) [LinearOrder K] := Nat × Version K V

/-- What a reader has captured. Memtables are known by the numbers of their logs. -/
structure Capture (K V : Type) [LinearOrder K] where
  snapshot : Nat
  mem : Nat
  imm : Option Nat
  version : Pin K V

/-- A leader of the write queue that has logged its batch: the entries that it has still to
insert, and the sequence number of the last one. -/
structure Writing (K V : Type) where
  todo : List (Entry K V)
  lastSequence : Nat

inductive Caller where
  | open
  | compactMemTable
  | trivialMove
  /-- `InstallCompactionResults`, with the numbers of the outputs. -/
  | compaction (outputs : List Nat)
  deriving DecidableEq, Repr

/-- `LogAndApply` while it writes the descriptor, with the edit as it is logged. -/
structure Logging (K V : Type) [LinearOrder K] where
  edit : ManifestEdit K V
  version : Version K V
  caller : Caller
  /-- `CURRENT` has to name a new descriptor. -/
  newManifest : Bool
  appended : Bool := false

/-- What recovery from the logs has left to `DB::Open`: the tables not yet written, the edit,
the log that is reused with its memtable, and `save_manifest`. -/
structure Recovering (K V : Type) [LinearOrder K] where
  tables : List (FileMetaData K V)
  edit : VersionEdit K V
  reused : Option (Nat × List (Entry K V))
  saveManifest : Bool

/-- Where the thread that opens the database, and later the background thread, has released
the mutex. -/
inductive Task (K V : Type) [LinearOrder K] where
  | closed
  /-- `NewDB` has written its descriptor. -/
  | creating
  | recovering (r : Recovering K V)
  /-- `WriteLevel0Table` builds the table with this number. -/
  | building (number : Nat) (base : Pin K V)
  | logging (l : Logging K V)
  /-- `RemoveObsoleteFiles` still has these files to remove. -/
  | removing (filesToDelete : List FileName)
  | idle

structure Impl (K V : Type) [LinearOrder K] where
  files : DBFiles K V
  task : Task K V := .closed
  /-- `DB::Open` has returned. -/
  opened : Bool := false
  set : VersionSet K V := {}
  versions : List (RefCount.Node (Version K V)) := []
  currentId : Nat := 0
  memtables : Nat → List (Entry K V) := fun _ => []
  logfileNumber : Nat := 0
  imm : Option Nat := none
  writing : Option (Writing K V) := none
  pendingOutputs : List Nat := []
  snapshots : SnapshotList := []
  fileToCompact : Option (Nat × FileMetaData K V) := none
  running : Option (Running K V) := none
  inputVersion : Option (Pin K V) := none
  readers : List (Capture K V) := []

inductive ImplAction (K V : Type) where
  /-- The process ends, in order or not. -/
  | crash
  | newDB
  | recover
  | writeRecovered
  | openLog
  | appendRecord
  | setCurrent
  | install
  | removeFile
  | beginWrite (ops : List (Op K V))
  | insert
  | finishWrite
  | switchMemTable
  | failSwitch
  | capture (snapshot : Option Nat)
  | release (i : Nat)
  | getSnapshot
  | releaseSnapshot (i : Nat)
  | updateStats (level i : Nat)
  | beginFlush
  | buildTable
  | compact
  | compactRange (level : Nat) (begin finish : Option (InternalKey K))
  | compactionRound
  | finishCompaction

section
variable {K V : Type} [LinearOrder K]

/-- `ReuseManifest`, for a descriptor with these records. -/
def Config.reuseManifest (config : Config K V) (records : List (ManifestEdit K V)) : Bool :=
  config.reuseLogs && decide (config.descriptorSize records < targetFileSize config.options)

/-- The numbers that `AddLiveFiles` takes from one version. -/
def Version.fileNumbers (v : Version K V) : List Nat :=
  (List.range kNumLevels).flatMap fun level => (v.files level).map (·.number)

namespace DBFiles

def getChildren (files : DBFiles K V) : List FileName :=
  files.logs.keys.map .log ++ files.descriptors.keys.map .descriptor ++ files.tables.keys.map .table

def removeFile (files : DBFiles K V) : FileName → DBFiles K V
  | .log number => { files with logs := files.logs.erase number }
  | .table number => { files with tables := files.tables.erase number }
  | .descriptor number => { files with descriptors := files.descriptors.erase number }

def writeTable (files : DBFiles K V) (table : FileMetaData K V) : DBFiles K V :=
  { files with tables := files.tables.insert table.number table.entries }

def writeTables (files : DBFiles K V) (tables : List (FileMetaData K V)) : DBFiles K V :=
  tables.foldl writeTable files

/-- Some file of the directory has the number. -/
def present (files : DBFiles K V) (number : Nat) : Bool :=
  decide (number ∈ files.logs.keys) || decide (number ∈ files.tables.keys) ||
    decide (number ∈ files.descriptors.keys)

/-- The logs that `DBImpl::Recover` reads, oldest first. -/
def recoverable (files : DBFiles K V) (minLog prevLog : Nat) : List (Nat × List (LogRecord K V)) :=
  ((files.logs.entries.map fun log => (log.1, log.2)).filter fun log =>
      decide (minLog ≤ log.1) || log.1 == prevLog).insertionSort fun log log' => log.1 ≤ log'.1

end DBFiles

namespace Recovery
variable [Inhabited V]

/-- `RecoverLogFile` for the last log under `reuse_logs`: unless a table was made of it on the
way, the log is reused and its memtable kept. -/
def reuseLog (config : Config K V) (r : Recovery K V) (log : Nat × List (LogRecord K V)) :
    Option (Recovery K V × Option (Nat × List (Entry K V))) := do
  let (r', mem) ← r.records config.options config.full none log.2
  if r'.nextFileNumber = r.nextFileNumber then
    some ({ r' with nextFileNumber := markFileNumberUsed r'.nextFileNumber log.1 },
      some (log.1, mem.getD []))
  else
    (r.logFile config.options config.full log).map (·, none)

/-- The loop of `DBImpl::Recover` over the logs. -/
def recoverLogs (config : Config K V) (r : Recovery K V)
    (logs : List (Nat × List (LogRecord K V))) :
    Option (Recovery K V × Option (Nat × List (Entry K V))) :=
  match config.reuseLogs, logs.getLast? with
  | true, some last =>
    (r.logFiles config.options config.full logs.dropLast).bind (reuseLog config · last)
  | _, _ => (r.logFiles config.options config.full logs).map (·, none)

end Recovery

namespace Impl
variable (config : Config K V) (s : Impl K V)

/-- The memtable that `mem_` points to. -/
def mem : List (Entry K V) := s.memtables s.logfileNumber

def newFileNumber : Impl K V :=
  { s with set := { s.set with nextFileNumber := s.set.nextFileNumber + 1 } }

def reuseFileNumber (number : Nat) : Impl K V :=
  if s.set.nextFileNumber = number + 1 then
    { s with set := { s.set with nextFileNumber := number } }
  else s

/-- The list of `RemoveObsoleteFiles`. -/
def obsoleteFiles : List FileName :=
  let live := s.pendingOutputs ++ s.versions.flatMap (·.value.fileNumbers)
  s.files.getChildren.filter fun
    | .log number => !(decide (s.set.logNumber ≤ number) || number == s.set.prevLogNumber)
    | .descriptor number => !decide (s.set.manifestFileNumber ≤ number)
    | .table number => !live.contains number

def removeObsoleteFiles : Impl K V := { s with task := .removing s.obsoleteFiles }

/-- `LogAndApply` up to the point where it releases the mutex. -/
def logAndApply (edit : ManifestEdit K V) (caller : Caller) : Impl K V :=
  let set := { s.set with
    compactPointer := applyPointers s.set.compactPointer edit.compactPointers }
  { s with
    set := { set with descriptorOpen := true }
    files := if s.set.descriptorOpen then s.files else { s.files with
      descriptors := s.files.descriptors.insert s.set.manifestFileNumber
        [set.writeSnapshot config.comparator] }
    task := .logging
      { edit := s.set.complete edit
        version := s.set.current.logAndApply edit.toVersionEdit
        caller
        newManifest := !s.set.descriptorOpen } }

/-- The rest of `LogAndApply`, with `AppendVersion`. -/
def appendVersion (l : Logging K V) : Impl K V :=
  { s with
    set := { s.set with
      current := l.version
      logNumber := l.edit.logNumber.getD s.set.logNumber
      prevLogNumber := l.edit.prevLogNumber.getD s.set.prevLogNumber }
    versions := RefCount.unref s.currentId s.versions ++ [⟨s.currentId + 1, l.version, 1⟩]
    currentId := s.currentId + 1
    fileToCompact := none }

def pinCurrent : Impl K V := { s with versions := RefCount.ref s.currentId s.versions }

def unpin (pin : Pin K V) : Impl K V := { s with versions := RefCount.unref pin.1 s.versions }

/-- The end of `BackgroundCompaction` for the input version. -/
def releaseInputs : Impl K V :=
  { s with
    versions := s.inputVersion.elim s.versions fun pin => RefCount.unref pin.1 s.versions
    inputVersion := none }

section opening

def newDB : Option (Impl K V) :=
  match s.task, s.files.current with
  | .closed, none =>
    some { s with
      files := { s.files with
        descriptors := s.files.descriptors.insert 1 (TalusDB.newDB config.comparator).records }
      task := .creating }
  | _, _ => none

/-- `VersionSet::Recover` and `DBImpl::Recover`, whose tables are written by further steps.
A file of the version that is missing ends `DB::Open`. -/
def recover [Inhabited V] : Option (Impl K V) :=
  match s.task, s.files.current with
  | .closed, some number => do
    let records ← s.files.descriptors.lookup number
    let set ← (VersionSet.recover config.comparator ⟨number, records⟩
      (config.reuseManifest records)).toOption
    if set.current.fileNumbers.all s.files.present then
      let logs := s.files.recoverable set.logNumber set.prevLogNumber
      let (r, reused) ← Recovery.recoverLogs config { nextFileNumber := set.nextFileNumber } logs
      let flushed := logs.filter fun log => reused.all (·.1 ≠ log.1)
      some { s with
        task := .recovering
          { tables := r.edit.newFiles.map (·.2)
            edit := r.edit
            reused
            saveManifest := !config.reuseManifest records || flushed.any (!·.2.isEmpty) }
        set := { set with
          nextFileNumber := r.nextFileNumber
          lastSequence := max set.lastSequence r.maxSequence }
        versions := [⟨s.currentId + 1, set.current, 1⟩]
        currentId := s.currentId + 1 }
    else none
  | _, _ => none

def writeRecovered : Option (Impl K V) :=
  match s.task with
  | .recovering ⟨table :: rest, edit, reused, saveManifest⟩ =>
    some { s with
      files := s.files.writeTable table
      task := .recovering ⟨rest, edit, reused, saveManifest⟩ }
  | _ => none

/-- `logfile_` and `mem_` for the log, which is made where it is not reused. -/
def setLog : Option (Nat × List (Entry K V)) → Impl K V
  | some (number, mem) =>
    { s with
      logfileNumber := number
      memtables := Function.update s.memtables number mem }
  | none =>
    { s.newFileNumber with
      files := { s.files with logs := s.files.logs.insert s.set.nextFileNumber [] }
      logfileNumber := s.set.nextFileNumber
      memtables := Function.update s.memtables s.set.nextFileNumber [] }

/-- `DB::Open` behind `Recover`. -/
def openLog : Option (Impl K V) :=
  match s.task with
  | .recovering ⟨[], edit, reused, saveManifest⟩ =>
    let s := s.setLog reused
    if saveManifest then
      let edit : ManifestEdit K V :=
        { toVersionEdit := edit, prevLogNumber := some 0, logNumber := some s.logfileNumber }
      some (s.logAndApply config edit .open)
    else some s.removeObsoleteFiles
  | _ => none

end opening

section logging

def appendRecord : Option (Impl K V) :=
  match s.task with
  | .logging l =>
    if l.appended then none
    else do
      let records ← s.files.descriptors.lookup s.set.manifestFileNumber
      some { s with
        files := { s.files with
          descriptors := s.files.descriptors.insert s.set.manifestFileNumber (records ++ [l.edit]) }
        task := .logging { l with appended := true } }
  | _ => none

/-- `SetCurrentFile`, in `NewDB` or for a new descriptor. -/
def setCurrent : Option (Impl K V) :=
  match s.task with
  | .creating => some { s with files := { s.files with current := some 1 }, task := .closed }
  | .logging l =>
    if l.appended && l.newManifest then
      some { s with
        files := { s.files with current := some s.set.manifestFileNumber }
        task := .logging { l with newManifest := false } }
    else none
  | _ => none

/-- The end of `LogAndApply`, and its callers up to the next point where they release the
mutex. -/
def install : Option (Impl K V) :=
  match s.task with
  | .logging l =>
    if l.appended && !l.newManifest then
      let s := s.appendVersion l
      match l.caller with
      | .open => some s.removeObsoleteFiles
      | .compactMemTable => some { s with imm := none }.removeObsoleteFiles
      | .trivialMove => some { s.releaseInputs with task := .idle }
      | .compaction outputs =>
        some { s.releaseInputs with
          running := none
          pendingOutputs := s.pendingOutputs.filter (· ∉ outputs) }.removeObsoleteFiles
    else none
  | _ => none

def removeFile : Option (Impl K V) :=
  match s.task with
  | .removing (name :: rest) =>
    some { s with files := s.files.removeFile name, task := .removing rest }
  | .removing [] => some { s with task := .idle, opened := true }
  | _ => none

end logging

section foreground
variable [Inhabited V]

/-- A leader logs its batch. Sequence numbers are assumed not to run out. -/
def beginWrite (ops : List (Op K V)) : Option (Impl K V) := do
  let records ← s.files.logs.lookup s.logfileNumber
  if s.opened && s.writing.isNone && decide (s.set.lastSequence + ops.length < kMaxSequenceNumber)
  then
    some { s with
      files := { s.files with
        logs := s.files.logs.insert s.logfileNumber
          (records ++ [⟨s.set.lastSequence + 1, ops, false⟩]) }
      writing := some
        ⟨MemTable.numbered (s.set.lastSequence + 1) ops, s.set.lastSequence + ops.length⟩ }
  else none

/-- One entry of the batch goes into the memtable. -/
def insert : Option (Impl K V) :=
  match s.writing with
  | some ⟨e :: rest, last⟩ =>
    some { s with
      memtables := Function.update s.memtables s.logfileNumber (MemTable.add s.mem e)
      writing := some ⟨rest, last⟩ }
  | _ => none

/-- The batch is done, and `LastSequence` is raised. -/
def finishWrite : Option (Impl K V) :=
  match s.writing with
  | some ⟨[], last⟩ =>
    some { s with set := { s.set with lastSequence := last }, writing := none }
  | _ => none

def switchMemTable : Option (Impl K V) :=
  if s.opened && s.writing.isNone && s.imm.isNone then
    some { s.setLog none with imm := some s.logfileNumber }
  else none

/-- `MakeRoomForWrite` where the new log cannot be made. -/
def failSwitch : Option (Impl K V) :=
  if s.opened && s.writing.isNone && s.imm.isNone then
    some (s.newFileNumber.reuseFileNumber s.set.nextFileNumber)
  else none

/-- `Get` or `NewInternalIterator`, which may be given a snapshot. -/
def capture (snapshot : Option Nat) : Option (Impl K V) :=
  if s.opened && snapshot.all (· ∈ s.snapshots) then
    some { s.pinCurrent with
      readers := s.readers ++
        [⟨snapshot.getD s.set.lastSequence, s.logfileNumber, s.imm, (s.currentId, s.set.current)⟩] }
  else none

def release (i : Nat) : Option (Impl K V) :=
  s.readers[i]?.map fun reader =>
    { s.unpin reader.version with readers := s.readers.eraseIdx i }

def updateStats (level i : Nat) : Option (Impl K V) :=
  if s.opened && s.fileToCompact.isNone then
    (s.set.current.files level)[i]?.map fun f => { s with fileToCompact := some (level, f) }
  else none

end foreground

section background

/-- The background thread is neither at work on the descriptor nor at a table of a flush. -/
def free : Bool :=
  s.opened && match s.task with
    | .idle => true
    | _ => false

def beginFlush : Option (Impl K V) :=
  if s.free && s.imm.isSome && s.running.all (!·.compact.input.isEmpty) then
    some { s.pinCurrent.newFileNumber with
      pendingOutputs := s.set.nextFileNumber :: s.pendingOutputs
      task := .building s.set.nextFileNumber (s.currentId, s.set.current) }
  else none

/-- The table is built, and `CompactMemTable` comes to `LogAndApply`. -/
def buildTable : Option (Impl K V) :=
  match s.task, s.imm with
  | .building number base, some imm => do
    let edit ← writeLevel0Table config.options number (s.memtables imm) {} (some base.2)
    let built := { s.unpin base with
      files := s.files.writeTables (edit.newFiles.map Prod.snd)
      pendingOutputs := s.pendingOutputs.filter (· ≠ number) }
    some (built.logAndApply config
      { toVersionEdit := edit, prevLogNumber := some 0, logNumber := some s.logfileNumber }
      .compactMemTable)
  | _, _ => none

/-- The rest of `BackgroundCompaction` once the compaction is chosen. -/
def begin (isManual : Bool) (c : Compaction K V) : Impl K V :=
  let s := { s.pinCurrent with
    set := { s.set with
      compactPointer := Function.update s.set.compactPointer c.level (some c.pointer) }
    inputVersion := some (s.currentId, s.set.current) }
  if !isManual && c.isTrivialMove config.options then
    s.logAndApply config
      { toVersionEdit := c.moveEdit, compactPointers := [(c.level, c.pointer)] } .trivialMove
  else
    let smallest := s.snapshots.smallestSnapshot s.set.lastSequence
    { s with running := some ⟨isManual, .start c smallest⟩ }

def compact : Option (Impl K V) :=
  if s.free && s.imm.isNone && s.running.isNone then
    (pickCompaction config.options s.set.current s.set.compactPointer s.fileToCompact).map
      (s.begin config false)
  else none

def compactRange (level : Nat) (begin finish : Option (InternalKey K)) : Option (Impl K V) :=
  if s.free && s.imm.isNone && s.running.isNone && decide (level + 1 < kNumLevels) then
    (TalusDB.compactRange config.options s.set.current level begin finish).map
      (s.begin config true)
  else none

/-- The outputs that have been finished since. -/
def finishedSince (before after : CompactionState K V) : List (FileMetaData K V) :=
  after.outputs.drop before.outputs.length

/-- A round of `DoCompactionWork`. A new output has an empty file until it is finished. -/
def compactionRound : Option (Impl K V) := do
  let running ← s.running
  if s.free then
    let (next, compact) ← running.compact.step config.options s.set.nextFileNumber
    let opened := next != s.set.nextFileNumber
    let files := if opened then { s.files with
      tables := s.files.tables.insert s.set.nextFileNumber [] } else s.files
    some { s with
      files := files.writeTables (finishedSince running.compact compact)
      set := { s.set with nextFileNumber := next }
      pendingOutputs :=
        if opened then s.set.nextFileNumber :: s.pendingOutputs else s.pendingOutputs
      running := some { running with compact } }
  else none

/-- The end of `DoCompactionWork`, up to `LogAndApply`. -/
def finishCompaction : Option (Impl K V) := do
  let running ← s.running
  if s.free && running.compact.input.isEmpty then
    let compact ← running.compact.finishOutputFile config.options
    let c := compact.compaction
    let s := { s with
      files := s.files.writeTables (finishedSince running.compact compact) }
    some (s.logAndApply config
      { toVersionEdit := compact.installEdit, compactPointers := [(c.level, c.pointer)] }
      (.compaction (compact.outputs.map (·.number))))
  else none

end background

def step [Inhabited V] (s : Impl K V) : ImplAction K V → Option (Impl K V)
  | .crash => some { files := s.files }
  | .newDB => s.newDB config
  | .recover => s.recover config
  | .writeRecovered => s.writeRecovered
  | .openLog => s.openLog config
  | .appendRecord => s.appendRecord
  | .setCurrent => s.setCurrent
  | .install => s.install
  | .removeFile => s.removeFile
  | .beginWrite ops => s.beginWrite ops
  | .insert => s.insert
  | .finishWrite => s.finishWrite
  | .switchMemTable => s.switchMemTable
  | .failSwitch => s.failSwitch
  | .capture snapshot => s.capture snapshot
  | .release i => s.release i
  | .getSnapshot =>
    if s.opened then some { s with snapshots := s.snapshots.new s.set.lastSequence } else none
  | .releaseSnapshot i =>
    if s.opened then some { s with snapshots := s.snapshots.delete i } else none
  | .updateStats level i => s.updateStats level i
  | .beginFlush => s.beginFlush
  | .buildTable => s.buildTable config
  | .compact => s.compact config
  | .compactRange level begin finish => s.compactRange config level begin finish
  | .compactionRound => s.compactionRound config
  | .finishCompaction => s.finishCompaction config

abbrev run [Inhabited V] (config : Config K V) (allowed : Impl K V → ImplAction K V → Bool) :=
  Runs.run (S := Impl K V) (step config) allowed

end Impl
end
end TalusDB
