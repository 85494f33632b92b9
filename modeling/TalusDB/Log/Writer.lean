import TalusDB.Log.Format

/-! `log::Writer` over a destination whose `Append` may fail after a prefix of its
bytes. The fault script is part of the file, so the writer itself is the one of
`db/log_writer.cc`; an empty script is a device without errors. -/
namespace TalusDB.Log

/-- A destination file. `faults` fixes the outcome of the coming `Append` calls:
`none` succeeds, `some n` writes at most `n` bytes and fails. Calls past the end
of the script succeed. `Flush` always succeeds. -/
structure WritableFile where
  contents : Bytes
  faults : List (Option Nat) := []
  deriving DecidableEq, Repr

def WritableFile.append (file : WritableFile) (data : Bytes) : Bool × WritableFile :=
  match file.faults with
  | [] => (true, { file with contents := file.contents ++ data })
  | none :: rest => (true, ⟨file.contents ++ data, rest⟩)
  | some n :: rest => (false, ⟨file.contents ++ data.take n, rest⟩)

structure Writer where
  dest : WritableFile
  blockOffset : Nat
  deriving DecidableEq, Repr

namespace Writer

/-- `Writer(dest)`. -/
def new (dest : WritableFile) : Writer := ⟨dest, 0⟩

/-- `Writer(dest, dest_length)`. -/
def reopen (dest : WritableFile) (destLength : Nat) : Writer := ⟨dest, destLength % kBlockSize⟩

/-- The payload is appended only after the header succeeded; the block offset
advances whatever the outcome. -/
def emitPhysicalRecord (w : Writer) (type : RecordType) (payload : Bytes) : Bool × Writer :=
  let (ok, dest) := w.dest.append (header type payload)
  let (ok, dest) := if ok then dest.append payload else (false, dest)
  (ok, ⟨dest, w.blockOffset + kHeaderSize + payload.length⟩)

/-- The zero trailer of a block with no room for a header. The status of this
`Append` is ignored by the source. -/
def fillTrailer (w : Writer) : Writer :=
  let leftover := kBlockSize - w.blockOffset
  if leftover < kHeaderSize then
    ⟨if 0 < leftover then (w.dest.append (List.replicate leftover 0)).2 else w.dest, 0⟩
  else w

def fragmentType (begin finish : Bool) : RecordType :=
  if begin && finish then .full
  else if begin then .first
  else if finish then .last
  else .middle

/-- The `do ... while (s.Ok() && left > 0)` loop. Every round but the first
consumes at least one byte, so `addRecord` gives it enough fuel. -/
def addRecordLoop : Nat → Writer → Bytes → Bool → Bool × Writer
  | 0, w, _, _ => (false, w)
  | fuel + 1, w, data, begin =>
    let w := w.fillTrailer
    let avail := kBlockSize - w.blockOffset - kHeaderSize
    let fragmentLength := if data.length < avail then data.length else avail
    let finish := decide (data.length = fragmentLength)
    let (ok, w) := w.emitPhysicalRecord (fragmentType begin finish) (data.take fragmentLength)
    if ok && decide (0 < data.length - fragmentLength) then
      addRecordLoop fuel w (data.drop fragmentLength) false
    else (ok, w)

def addRecord (w : Writer) (data : Bytes) : Bool × Writer :=
  addRecordLoop (data.length + 2) w data true

/-- Successive `AddRecord` calls on one writer, with the status of each. -/
def addRecords (w : Writer) : List Bytes → List Bool × Writer
  | [] => ([], w)
  | data :: rest =>
    let (ok, w) := w.addRecord data
    let (statuses, w) := w.addRecords rest
    (ok :: statuses, w)

end Writer
end TalusDB.Log
