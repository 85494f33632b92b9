import TalusDB.Log.Format

/-! `log::Reader` of `db/log_reader.cc`, with its reporter as a list of reports.
Offsets are exact naturals: a file is shorter than 2^64 bytes. -/
namespace TalusDB.Log
open Coding

/-- A file read from front to back. `failAfter` is the number of `Read` calls
that succeed before one fails; `none` never fails. -/
structure SequentialFile where
  contents : Bytes
  failAfter : Option Nat := none
  deriving DecidableEq, Repr

namespace SequentialFile

def read (file : SequentialFile) (n : Nat) : Option Bytes × SequentialFile :=
  match file.failAfter with
  | some 0 => (none, file)
  | some (k + 1) => (some (file.contents.take n), ⟨file.contents.drop n, some k⟩)
  | none => (some (file.contents.take n), ⟨file.contents.drop n, none⟩)

def skip (file : SequentialFile) (n : Nat) : SequentialFile :=
  { file with contents := file.contents.drop n }

end SequentialFile

structure Report where
  bytes : Nat
  reason : String
  deriving DecidableEq, Repr

structure Reader where
  file : SequentialFile
  checksum : Bool
  buffer : Bytes
  eof : Bool
  lastRecordOffset : Nat
  endOfBufferOffset : Nat
  initialOffset : Nat
  resyncing : Bool
  reports : List Report
  deriving DecidableEq, Repr

namespace Reader

def kEof : Nat := kMaxRecordType + 1
def kBadRecord : Nat := kMaxRecordType + 2

def new (file : SequentialFile) (checksum : Bool) (initialOffset : Nat) : Reader :=
  { file, checksum, buffer := [], eof := false, lastRecordOffset := 0, endOfBufferOffset := 0,
    initialOffset, resyncing := decide (0 < initialOffset), reports := [] }

/-- The guard is unsigned 64-bit arithmetic and wraps. -/
def reportDrop (r : Reader) (bytes : Nat) (reason : String) : Reader :=
  if (r.initialOffset : Int) ≤ ((r.endOfBufferOffset : Int) - r.buffer.length - bytes) % 2 ^ 64 then
    { r with reports := r.reports ++ [⟨bytes, reason⟩] }
  else r

def skipToInitialBlock (r : Reader) : Reader :=
  let offsetInBlock := r.initialOffset % kBlockSize
  let blockStart := r.initialOffset - offsetInBlock +
    (if kBlockSize - 6 < offsetInBlock then kBlockSize else 0)
  let r := { r with endOfBufferOffset := blockStart }
  if 0 < blockStart then { r with file := r.file.skip blockStart } else r

/-- `const unsigned int type = header[6]`: a signed `char` converts by sign
extension. -/
def typeOfChar (b : UInt8) : Nat :=
  if b.toNat < 128 then b.toNat else b.toNat + (2 ^ 32 - 256)

def lengthField (buffer : Bytes) : Nat :=
  (buffer.getD 4 0).toNat ||| ((buffer.getD 5 0).toNat <<< 8)

def checksumMatches (buffer : Bytes) (length : Nat) : Bool :=
  Crc32c.value ((buffer.drop 6).take (1 + length)) == Crc32c.unmask (decodeFixed32 buffer)

/-- `ReadPhysocalRecord` once the buffer holds a header: the type code, the
fragment (`result` is left alone where the source leaves it alone) and the reader. -/
def parseRecord (r : Reader) (result : Bytes) : Nat × Bytes × Reader :=
  let type := typeOfChar (r.buffer.getD 6 0)
  let length := lengthField r.buffer
  if r.buffer.length < kHeaderSize + length then
    let cleared := { r with buffer := [] }
    if r.eof then (kEof, result, cleared)
    else (kBadRecord, result, cleared.reportDrop r.buffer.length "bad record length")
  else if type = RecordType.zero.code ∧ length = 0 then
    (kBadRecord, result, { r with buffer := [] })
  else if r.checksum ∧ checksumMatches r.buffer length = false then
    (kBadRecord, result,
      { r with buffer := [] }.reportDrop r.buffer.length "checksum mismatch")
  else
    let rest := { r with buffer := r.buffer.drop (kHeaderSize + length) }
    if rest.endOfBufferOffset - rest.buffer.length - kHeaderSize - length < r.initialOffset then
      (kBadRecord, [], rest)
    else (type, (r.buffer.drop kHeaderSize).take length, rest)

/-- `ReadPhysocalRecord`. Its loop goes around at most twice: after one file read
either the buffer holds a header or `eof_` is set. -/
def readPhysicalRecord (r : Reader) (result : Bytes) : Nat × Bytes × Reader :=
  if r.buffer.length < kHeaderSize then
    if r.eof then (kEof, result, { r with buffer := [] })
    else
      match r.file.read kBlockSize with
      | (none, file) =>
        let failed := { r with file, buffer := [] }.reportDrop kBlockSize "read error"
        (kEof, result, { failed with eof := true })
      | (some block, file) =>
        let filled := { r with
          file, buffer := block, endOfBufferOffset := r.endOfBufferOffset + block.length,
          eof := decide (block.length < kBlockSize) }
        if block.length < kHeaderSize then (kEof, result, { filled with buffer := [] })
        else filled.parseRecord result
  else r.parseRecord result

/-- The variables of one `ReadRecord` call. -/
structure Assembly where
  scratch : Bytes := []
  inFragmentedRecord : Bool := false
  prospectiveOffset : Nat := 0
  fragment : Bytes := []

/-- The `while (true)` of `ReadRecord`: `none` is lack of fuel, `some (none, _)`
the result false. -/
def readRecordLoop : Nat → Reader → Assembly → Option (Option Bytes × Reader)
  | 0, _, _ => none
  | fuel + 1, r, a =>
    let (type, fragment, r) := r.readPhysicalRecord a.fragment
    let a := { a with fragment }
    let offset := r.endOfBufferOffset - r.buffer.length - kHeaderSize - fragment.length
    if r.resyncing ∧ type = RecordType.middle.code then readRecordLoop fuel r a
    else if r.resyncing ∧ type = RecordType.last.code then
      readRecordLoop fuel { r with resyncing := false } a
    else
      let r := { r with resyncing := false }
      if type = RecordType.full.code then
        let r := if a.inFragmentedRecord ∧ a.scratch ≠ [] then
          r.reportDrop a.scratch.length "partial record without end(1)" else r
        some (some fragment, { r with lastRecordOffset := offset })
      else if type = RecordType.first.code then
        let r := if a.inFragmentedRecord ∧ a.scratch ≠ [] then
          r.reportDrop a.scratch.length "partial record without end(2)" else r
        readRecordLoop fuel r
          { a with scratch := fragment, inFragmentedRecord := true, prospectiveOffset := offset }
      else if type = RecordType.middle.code then
        if a.inFragmentedRecord then
          readRecordLoop fuel r { a with scratch := a.scratch ++ fragment }
        else
          readRecordLoop fuel
            (r.reportDrop fragment.length "missing start of fragmented record(1)") a
      else if type = RecordType.last.code then
        if a.inFragmentedRecord then
          some (some (a.scratch ++ fragment), { r with lastRecordOffset := a.prospectiveOffset })
        else
          readRecordLoop fuel
            (r.reportDrop fragment.length "missing start of fragmented record(2)") a
      else if type = kEof then some (none, r)
      else if type = kBadRecord then
        if a.inFragmentedRecord then
          readRecordLoop fuel (r.reportDrop a.scratch.length "error in middle of record")
            { a with scratch := [], inFragmentedRecord := false }
        else readRecordLoop fuel r a
      else
        readRecordLoop fuel
          (r.reportDrop (fragment.length + if a.inFragmentedRecord then a.scratch.length else 0)
            s!"unknown record type {type}")
          { a with scratch := [], inFragmentedRecord := false }

/-- Bytes the reader has not passed yet. -/
def unread (r : Reader) : Nat := r.file.contents.length + r.buffer.length

def readRecord (r : Reader) : Option (Option Bytes × Reader) :=
  let r := if r.lastRecordOffset < r.initialOffset then r.skipToInitialBlock else r
  readRecordLoop (r.unread + 1) r {}

/-- Calls `ReadRecord` until it returns false. Each record is paired with
`LastRecordOffset` after its call; the reader is the one left at the end. -/
def readAllLoop : Nat → Reader → Option (List (Bytes × Nat) × Reader)
  | 0, _ => none
  | fuel + 1, r => do
    let (record, r) ← r.readRecord
    match record with
    | none => some ([], r)
    | some data =>
      let (records, last) ← readAllLoop fuel r
      some ((data, r.lastRecordOffset) :: records, last)

def readAll (r : Reader) : Option (List (Bytes × Nat) × Reader) := readAllLoop (r.unread + 1) r

end Reader
end TalusDB.Log
