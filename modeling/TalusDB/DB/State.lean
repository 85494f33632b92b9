import TalusDB.DB.CompactionWork
import TalusDB.DB.MemTable

/-! The state of a `DBImpl` and its steps: writes, memtable switches, flushes, and
compactions that run while other steps happen. Only the background thread installs
versions, so a flush and the end of a compaction apply their edits to the current
version. Steps have no result where they cannot be taken. -/
namespace TalusDB

/-- A compaction inside the loop of `DoCompactionWork`. -/
structure Running (K V : Type) [LinearOrder K] where
  isManual : Bool
  compact : CompactionState K V

structure DBState (K V : Type) [LinearOrder K] where
  mem : List (Entry K V)
  imm : Option (List (Entry K V))
  current : Version K V
  lastSequence : Nat
  nextFileNumber : Nat
  snapshots : SnapshotList
  compactPointer : Nat → Option (InternalKey K)
  /-- `file_to_compact_` of the current version, with its level. -/
  fileToCompact : Option (Nat × FileMetaData K V)
  running : Option (Running K V)

inductive Action (K V : Type) where
  | write (ops : List (Op K V))
  | switchMemTable
  | compactMemTable
  | compact
  | compactRange (level : Nat) (begin finish : Option (InternalKey K))
  | compactionRound
  | installCompaction
  | getSnapshot
  | releaseSnapshot (i : Nat)
  | updateStats (level i : Nat)

section
variable {K V : Type} [LinearOrder K]

/-- `WriteLevel0Table`: an empty memtable leaves no table. Without a base version the
table goes to level 0. There is no result where the table builder would assert. -/
def writeLevel0Table (options : Options K V) (number : Nat) (mem : List (Entry K V))
    (edit : VersionEdit K V) (base : Option (Version K V)) : Option (VersionEdit K V) :=
  if mem.isEmpty then some edit
  else (FileMetaData.build number (options.tableSize mem) mem).map fun file =>
    let level := base.elim 0 fun v =>
      v.pickLevelForMemTableOutput options file.smallest.userKey file.largest.userKey
    edit.addFile level file

def Compaction.moveEdit (c : Compaction K V) : VersionEdit K V :=
  c.inputs.1.head?.elim {} fun file =>
    (({} : VersionEdit K V).removeFile c.level file.number).addFile (c.level + 1) file

namespace DBState

/-- A new database, after `DB::Open`. -/
def initial (nextFileNumber : Nat) : DBState K V where
  mem := []
  imm := none
  current := .empty
  lastSequence := 0
  nextFileNumber
  snapshots := []
  compactPointer _ := none
  fileToCompact := none
  running := none

def setCurrent (s : DBState K V) (v : Version K V) : DBState K V :=
  { s with current := v, fileToCompact := none }

/-- A group write. Sequence numbers are assumed not to run out. -/
def write [Inhabited V] (s : DBState K V) (ops : List (Op K V)) : Option (DBState K V) :=
  if s.lastSequence + ops.length < kMaxSequenceNumber then
    some { s with
      mem := MemTable.insertInto (s.lastSequence + 1) ops s.mem
      lastSequence := s.lastSequence + ops.length }
  else none

/-- The switch in `MakeRoomForWrite`, which takes a number for the new log. -/
def switchMemTable (s : DBState K V) : Option (DBState K V) :=
  if s.imm.isNone then
    some { s with mem := [], imm := some s.mem, nextFileNumber := s.nextFileNumber + 1 }
  else none

/-- `CompactMemTable`: from the background thread on its own, or from the loop of a
running compaction while that has input left. -/
def compactMemTable (options : Options K V) (s : DBState K V) : Option (DBState K V) :=
  if s.running.all (!·.compact.input.isEmpty) then do
    let imm ← s.imm
    let edit ← writeLevel0Table options s.nextFileNumber imm {} (some s.current)
    some { s.setCurrent (s.current.logAndApply edit) with
      imm := none
      nextFileNumber := s.nextFileNumber + 1 }
  else none

/-- The rest of `BackgroundCompaction` once the compaction is chosen. -/
def begin (options : Options K V) (s : DBState K V) (isManual : Bool) (c : Compaction K V) :
    DBState K V :=
  let s := { s with compactPointer := Function.update s.compactPointer c.level (some c.pointer) }
  if !isManual && c.isTrivialMove options then s.setCurrent (s.current.logAndApply c.moveEdit)
  else
    let smallest := s.snapshots.smallestSnapshot s.lastSequence
    { s with running := some ⟨isManual, .start c smallest⟩ }

/-- `BackgroundCompaction` with neither a memtable to flush nor a manual compaction. -/
def compact (options : Options K V) (s : DBState K V) : Option (DBState K V) :=
  if s.imm.isNone && s.running.isNone then
    (pickCompaction options s.current s.compactPointer s.fileToCompact).map (s.begin options false)
  else none

/-- `BackgroundCompaction` with a manual compaction. -/
def compactRange (options : Options K V) (s : DBState K V) (level : Nat)
    (begin finish : Option (InternalKey K)) : Option (DBState K V) :=
  if s.imm.isNone && s.running.isNone && decide (level + 1 < kNumLevels) then
    (TalusDB.compactRange options s.current level begin finish).map (s.begin options true)
  else none

def compactionRound (options : Options K V) (s : DBState K V) : Option (DBState K V) := do
  let running ← s.running
  let (nextFileNumber, compact) ← running.compact.step options s.nextFileNumber
  some { s with nextFileNumber, running := some { running with compact } }

/-- The end of `DoCompactionWork`: the last output and `InstallCompactionResults`. -/
def installCompaction (options : Options K V) (s : DBState K V) : Option (DBState K V) := do
  let running ← s.running
  if running.compact.input.isEmpty then
    let compact ← running.compact.finishOutputFile options
    some { s.setCurrent (s.current.logAndApply compact.installEdit) with running := none }
  else none

/-- `UpdateStats` after a read that missed in this file: the first such file whose
seeks are used up is remembered. -/
def updateStats (s : DBState K V) (level i : Nat) : Option (DBState K V) :=
  if s.fileToCompact.isNone then
    (s.current.files level)[i]?.map fun f => { s with fileToCompact := some (level, f) }
  else none

def step [Inhabited V] (options : Options K V) (s : DBState K V) :
    Action K V → Option (DBState K V)
  | .write ops => s.write ops
  | .switchMemTable => s.switchMemTable
  | .compactMemTable => s.compactMemTable options
  | .compact => s.compact options
  | .compactRange level begin finish => s.compactRange options level begin finish
  | .compactionRound => s.compactionRound options
  | .installCompaction => s.installCompaction options
  | .getSnapshot => some { s with snapshots := s.snapshots.new s.lastSequence }
  | .releaseSnapshot i => some { s with snapshots := s.snapshots.delete i }
  | .updateStats level i => s.updateStats level i

end DBState
end
end TalusDB
