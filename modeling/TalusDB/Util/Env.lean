import TalusDB.Util.Coding

/-! `PosixWritableFile` of `util/env.cc`: appends to a file through a buffer, by `write` calls that may
write less than they are asked to. What the system calls return is part of the input. -/
namespace TalusDB
open List Option

/-- A result of `write`. A call writes at most as much as it is asked to. -/
inductive WriteResult where
  | wrote (n : Nat)
  | interrupted
  | failed (errno : Nat)
  deriving DecidableEq, Repr

/-- A `Status`. `posixError` is what `PosixError` makes of its arguments. -/
inductive IOStatus where
  | ok
  | posixError (context : List Char) (errno : Nat)
  | ioError (context : List Char) (message : String)
  deriving DecidableEq, Repr

def EBADF : Nat := 9

def kWritableFileBufferSize : Nat := 65536

def basename (filename : List Char) : List Char :=
  (filename.reverse.takeWhile (· ≠ '/')).reverse

def dirname (filename : List Char) : List Char :=
  if '/' ∈ filename then ((filename.reverse.dropWhile (· ≠ '/')).drop 1).reverse else ['.']

def isManifest (filename : List Char) : Bool := "MANIFEST".toList.isPrefixOf (basename filename)

def memcpy (dst : Bytes) (offset : Nat) (src : Bytes) : Bytes :=
  dst.take offset ++ src ++ dst.drop (offset + src.length)

/-- `written` is what the descriptor has got so far, and `writes` are the results of the calls of `write`
that are still to come. -/
structure PosixWritableFile where
  buf : Bytes
  pos : Nat
  isOpen : Bool
  filename : List Char
  written : Bytes
  writes : List WriteResult
  deriving DecidableEq, Repr

namespace PosixWritableFile

def new (filename : List Char) (buf : Bytes) (writes : List WriteResult) : PosixWritableFile :=
  { buf, pos := 0, isOpen := true, filename, written := [], writes }

/-- The loop of `WriteUnbuffered`. It has no result as long as its calls have not returned. -/
def writeLoop (filename : List Char) (isOpen : Bool) :
    List WriteResult → Bytes → Bytes → Option (IOStatus × Bytes × List WriteResult)
  | writes, [], written => some (.ok, written, writes)
  | writes, byte :: rest, written =>
    if isOpen then
      match writes with
      | [] => none
      | .interrupted :: writes => writeLoop filename isOpen writes (byte :: rest) written
      | .failed errno :: writes => some (.posixError filename errno, written, writes)
      | .wrote 0 :: writes => some (.ioError filename "write returned 0", written, writes)
      | .wrote (n + 1) :: writes =>
        writeLoop filename isOpen writes (rest.drop n) (written ++ byte :: rest.take n)
    else some (.posixError filename EBADF, written, writes)

def writeUnbuffered (f : PosixWritableFile) (data : Bytes) : Option (IOStatus × PosixWritableFile) := do
  let (status, written, writes) ← writeLoop f.filename f.isOpen f.writes data f.written
  some (status, { f with written, writes })

def flushBuffer (f : PosixWritableFile) : Option (IOStatus × PosixWritableFile) := do
  let (status, f) ← f.writeUnbuffered (f.buf.take f.pos)
  some (status, { f with pos := 0 })

def append (f : PosixWritableFile) (data : Bytes) : Option (IOStatus × PosixWritableFile) :=
  let copySize := min data.length (kWritableFileBufferSize - f.pos)
  let f := { f with buf := memcpy f.buf f.pos (data.take copySize), pos := f.pos + copySize }
  let data := data.drop copySize
  if data.length = 0 then some (.ok, f)
  else do
    let (status, f) ← f.flushBuffer
    if status ≠ .ok then some (status, f)
    else if data.length < kWritableFileBufferSize then
      some (.ok, { f with buf := memcpy f.buf 0 data, pos := data.length })
    else f.writeUnbuffered data

/-- What `close` returns for a descriptor that is open is `error`, and none for a success. -/
def close (f : PosixWritableFile) (error : Option Nat) : Option (IOStatus × PosixWritableFile) := do
  let (status, f) ← f.flushBuffer
  let status :=
    match (if f.isOpen then error else some EBADF), status with
    | some errno, .ok => .posixError f.filename errno
    | _, status => status
  some (status, { f with isOpen := false })

def flush (f : PosixWritableFile) : Option (IOStatus × PosixWritableFile) := f.flushBuffer

def syncFd (isOpen : Bool) (path : List Char) (error : Option Nat) : IOStatus :=
  match (if isOpen then error else some EBADF) with
  | none => .ok
  | some errno => .posixError path errno

def syncDirIfManifest (f : PosixWritableFile) (dirOpen dirSync : Option Nat) : IOStatus :=
  if isManifest f.filename then
    match dirOpen with
    | some errno => .posixError (dirname f.filename) errno
    | none => syncFd true (dirname f.filename) dirSync
  else .ok

def sync (f : PosixWritableFile) (dirOpen dirSync fdSync : Option Nat) :
    Option (IOStatus × PosixWritableFile) :=
  if f.syncDirIfManifest dirOpen dirSync ≠ .ok then some (f.syncDirIfManifest dirOpen dirSync, f)
  else do
    let (status, f) ← f.flushBuffer
    if status ≠ .ok then some (status, f) else some (syncFd f.isOpen f.filename fdSync, f)

end PosixWritableFile

/-- A call, with the errors of the other system calls that it makes. -/
inductive FileCall where
  | append (data : Bytes)
  | flush
  | sync (dirOpen dirSync fdSync : Option Nat)
  | close (error : Option Nat)
  deriving DecidableEq, Repr

namespace PosixWritableFile

def call (f : PosixWritableFile) : FileCall → Option (IOStatus × PosixWritableFile)
  | .append data => f.append data
  | .flush => f.flush
  | .sync dirOpen dirSync fdSync => f.sync dirOpen dirSync fdSync
  | .close error => f.close error

/-- One call after the other, and what each returns. -/
def run : List FileCall → PosixWritableFile → Option (List IOStatus × PosixWritableFile)
  | [], f => some ([], f)
  | c :: calls, f => do
    let (status, f) ← f.call c
    let (statuses, f) ← run calls f
    some (status :: statuses, f)

/-- The bytes that wait in the buffer. -/
def buffered (f : PosixWritableFile) : Bytes := f.buf.take f.pos

end PosixWritableFile

/-- `write` is interrupted, or writes something. -/
def WriteResult.Progresses : WriteResult → Prop
  | .wrote n => 0 < n
  | .interrupted => True
  | .failed _ => False

def WriteResult.writes : WriteResult → Bool
  | .wrote _ => true
  | .interrupted => false
  | .failed _ => false

def FileCall.Succeeds : FileCall → Prop
  | .append _ => True
  | .flush => True
  | .sync dirOpen dirSync fdSync => dirOpen = none ∧ dirSync = none ∧ fdSync = none
  | .close error => error = none

def FileCall.isClose : FileCall → Bool
  | .append _ => false
  | .flush => false
  | .sync _ _ _ => false
  | .close _ => true

def FileCall.isAppend : FileCall → Bool
  | .append _ => true
  | .flush => false
  | .sync _ _ _ => false
  | .close _ => false

def FileCall.data : FileCall → Bytes
  | .append data => data
  | .flush => []
  | .sync _ _ _ => []
  | .close _ => []

/-- The calls of `write` to come make progress, and are enough to write `n` bytes. -/
structure Supplied (writes : List WriteResult) (n : Nat) : Prop where
  progress : ∀ result ∈ writes, result.Progresses
  enough : n ≤ writes.countP WriteResult.writes

theorem Supplied.tail {result : WriteResult} {writes : List WriteResult} {m n : Nat}
    (supplied : Supplied (result :: writes) n)
    (less : (if result.writes then m + 1 else m) ≤ n) : Supplied writes m := by
  have enough := supplied.enough
  rw [countP_cons] at enough
  refine ⟨fun result mem => supplied.progress result (mem_cons_of_mem _ mem), ?_⟩
  split at less <;> simp_all <;> omega

namespace PosixWritableFile
variable {f : PosixWritableFile} {n : Nat}

variable {data dst src given : Bytes} {offset : Nat}

theorem writeLoop_spec (filename : List Char) {writes : List WriteResult}
    (supplied : Supplied writes (data.length + n)) (written : Bytes) :
    ∃ writes', writeLoop filename true writes data written = some (.ok, written ++ data, writes') ∧
      Supplied writes' n := by
  induction writes generalizing data written with
  | nil =>
    have none : data.length + n ≤ 0 := supplied.enough
    cases data with
    | nil => exact ⟨[], by rw [writeLoop, append_nil], supplied.progress, by omega⟩
    | cons byte rest =>
      rw [length_cons] at none
      omega
  | cons result writes ih =>
    cases data with
    | nil =>
      rw [length_nil, Nat.zero_add] at supplied
      exact ⟨_, by rw [writeLoop, append_nil], supplied⟩
    | cons byte rest =>
      have progress := supplied.progress result mem_cons_self
      cases result with
      | interrupted => exact ih (supplied.tail le_rfl) written
      | failed errno => exact absurd progress id
      | wrote count =>
        obtain ⟨k, rfl⟩ := Nat.exists_eq_add_of_lt progress
        have left : Supplied writes ((rest.drop (0 + k)).length + n) := by
          refine supplied.tail ?_
          rw [WriteResult.writes, if_pos rfl, length_drop, length_cons]
          omega
        obtain ⟨writes', wrote, supplied'⟩ := ih left (written ++ byte :: rest.take (0 + k))
        refine ⟨writes', ?_, supplied'⟩
        rw [append_assoc, cons_append, take_append_drop] at wrote
        exact wrote

theorem writeUnbuffered_spec (isOpen : f.isOpen = true)
    (supplied : Supplied f.writes (data.length + n)) :
    ∃ writes, f.writeUnbuffered data = some (.ok, { f with written := f.written ++ data, writes }) ∧
      Supplied writes n := by
  obtain ⟨writes, wrote, supplied'⟩ := writeLoop_spec f.filename supplied f.written
  refine ⟨writes, ?_, supplied'⟩
  rw [writeUnbuffered, isOpen, wrote]
  rfl

theorem flushBuffer_spec (isOpen : f.isOpen = true)
    (supplied : Supplied f.writes (f.buffered.length + n)) :
    ∃ writes, f.flushBuffer =
        some (.ok, { f with written := f.written ++ f.buffered, pos := 0, writes }) ∧
      Supplied writes n := by
  obtain ⟨writes, wrote, supplied'⟩ := writeUnbuffered_spec isOpen supplied
  refine ⟨writes, ?_, supplied'⟩
  rw [flushBuffer, ← buffered, wrote]
  rfl

/-- What the file was given is written or buffered, and there are calls of `write` enough for the buffer
and `n` more bytes. -/
structure Holds (f : PosixWritableFile) (given : Bytes) (n : Nat) : Prop where
  sized : f.buf.length = kWritableFileBufferSize
  pos_le : f.pos ≤ kWritableFileBufferSize
  contents : f.written ++ f.buffered = given
  supplied : Supplied f.writes (f.buffered.length + n)

theorem memcpy_length (fits : offset + src.length ≤ dst.length) :
    (memcpy dst offset src).length = dst.length := by
  simp only [memcpy, length_append, length_take, length_drop]
  omega

theorem take_memcpy (fits : offset + src.length ≤ dst.length) :
    (memcpy dst offset src).take (offset + src.length) = dst.take offset ++ src := by
  rw [memcpy, take_left']
  rw [length_append, length_take]
  omega

theorem Holds.flushBuffer (holds : f.Holds given n) (isOpen : f.isOpen = true) :
    ∃ f', f.flushBuffer = some (.ok, f') ∧ f'.Holds given n ∧ f'.pos = 0 ∧ f'.isOpen = true ∧
      f'.written = given := by
  obtain ⟨writes, flushed, supplied⟩ := flushBuffer_spec isOpen holds.supplied
  refine ⟨_, flushed, ⟨holds.sized, Nat.zero_le _, ?_, ?_⟩, rfl, isOpen, holds.contents⟩
  · simpa [buffered] using holds.contents
  · simpa [buffered] using supplied

theorem Holds.copy {part : Bytes} (holds : f.Holds given (part.length + n))
    (fits : f.pos + part.length ≤ kWritableFileBufferSize) :
    { f with buf := memcpy f.buf f.pos part, pos := f.pos + part.length }.Holds (given ++ part) n
    := by
  have inside : f.pos + part.length ≤ f.buf.length := holds.sized ▸ fits
  have grown : { f with buf := memcpy f.buf f.pos part, pos := f.pos + part.length }.buffered =
      f.buffered ++ part := take_memcpy inside
  refine ⟨(memcpy_length inside).trans holds.sized, fits, ?_, ?_⟩
  · rw [grown, ← append_assoc]
    exact congrArg (· ++ part) holds.contents
  · rw [grown, length_append, Nat.add_assoc]
    exact holds.supplied

theorem Holds.append (holds : f.Holds given (data.length + n)) (isOpen : f.isOpen = true) :
    ∃ f', f.append data = some (.ok, f') ∧ f'.Holds (given ++ data) n ∧ f'.isOpen = true := by
  have room := holds.pos_le
  obtain ⟨copySize, isCopySize⟩ : ∃ copySize,
      copySize = min data.length (kWritableFileBufferSize - f.pos) := ⟨_, rfl⟩
  obtain ⟨part, rest, parts, isPart, isRest⟩ : ∃ part rest, data = part ++ rest ∧
      data.take copySize = part ∧ data.drop copySize = rest :=
    ⟨_, _, (take_append_drop copySize data).symm, rfl, rfl⟩
  have copied : part.length = copySize := by
    rw [← isPart, length_take]
    omega
  have filled : { f with buf := memcpy f.buf f.pos part, pos := f.pos + part.length }.Holds
      (given ++ part) (rest.length + n) := by
    refine Holds.copy ?_ (by omega)
    rwa [← Nat.add_assoc, ← length_append, ← parts]
  rw [PosixWritableFile.append, ← isCopySize]
  dsimp only
  rw [isPart, isRest, ← copied]
  by_cases none : rest.length = 0
  · rw [if_pos none]
    rw [eq_nil_of_length_eq_zero none, append_nil] at parts
    rw [none, Nat.zero_add] at filled
    exact ⟨_, rfl, parts ▸ filled, isOpen⟩
  · rw [if_neg none]
    obtain ⟨f', flushed, holds', start, isOpen', written⟩ := filled.flushBuffer isOpen
    rw [flushed]
    simp only [bind_eq_bind, bind_some]
    rw [if_neg (not_not.mpr rfl)]
    have whole : given ++ part ++ rest = given ++ data := by rw [parts, append_assoc]
    by_cases short : rest.length < kWritableFileBufferSize
    · rw [if_pos short]
      have kept := holds'.copy (by omega)
      rw [start, Nat.zero_add, whole] at kept
      exact ⟨_, rfl, kept, isOpen'⟩
    · rw [if_neg short]
      have empty : f'.buffered = [] := by rw [buffered, start, take_zero]
      have supplied := holds'.supplied
      rw [empty, length_nil, Nat.zero_add] at supplied
      obtain ⟨writes, wrote, supplied'⟩ := writeUnbuffered_spec isOpen' supplied
      refine ⟨_, wrote, ⟨holds'.sized, holds'.pos_le, ?_, ?_⟩, isOpen'⟩
      · show f'.written ++ rest ++ f'.buffered = given ++ data
        rw [empty, append_nil, written, whole]
      · show Supplied writes (f'.buffered.length + n)
        rwa [empty, length_nil, Nat.zero_add]

theorem Holds.call {c : FileCall} (holds : f.Holds given (c.data.length + n))
    (isOpen : f.isOpen = true) (succeeds : c.Succeeds) :
    ∃ f', f.call c = some (.ok, f') ∧ f'.Holds (given ++ c.data) n ∧
      (c.isClose = false → f'.isOpen = true) ∧ (c.isAppend = false → f'.pos = 0) := by
  by_cases isAppend : c.isAppend = true
  · cases c with
    | append data =>
      obtain ⟨f', appended, holds', isOpen'⟩ := holds.append isOpen
      exact ⟨f', appended, holds', fun _ => isOpen', by simp [FileCall.isAppend]⟩
    | flush => cases isAppend
    | sync => cases isAppend
    | close => cases isAppend
  -- the other calls write the buffer out
  · have noData : c.data = [] := by cases c <;> first | rfl | exact absurd rfl isAppend
    rw [noData, length_nil, Nat.zero_add] at holds
    obtain ⟨f', flushed, holds', start, isOpen', -⟩ := holds.flushBuffer isOpen
    rw [noData, append_nil]
    cases c with
    | append => exact absurd rfl isAppend
    | flush => exact ⟨f', flushed, holds', fun _ => isOpen', fun _ => start⟩
    | sync dirOpen dirSync fdSync =>
      obtain ⟨rfl, rfl, rfl⟩ := succeeds
      refine ⟨f', ?_, holds', fun _ => isOpen', fun _ => start⟩
      have dir : f.syncDirIfManifest none none = .ok := by
        rw [syncDirIfManifest]
        split <;> rfl
      rw [PosixWritableFile.call, sync, if_neg (not_not.mpr dir), flushed]
      simp [syncFd, isOpen']
    | close error =>
      cases succeeds
      refine ⟨{ f' with isOpen := false }, ?_, ⟨holds'.sized, holds'.pos_le, holds'.contents,
        holds'.supplied⟩, by simp [FileCall.isClose], fun _ => start⟩
      rw [PosixWritableFile.call, close, flushed]
      simp [isOpen']

def appended (calls : List FileCall) : Bytes := calls.flatMap FileCall.data

theorem Holds.run {calls : List FileCall}
    (holds : f.Holds given (appended calls).length) (isOpen : f.isOpen = true)
    (succeed : ∀ c ∈ calls, c.Succeeds) (closesLast : ∀ c ∈ calls.dropLast, c.isClose = false) :
    ∃ f', run calls f = some (List.replicate calls.length .ok, f') ∧
      f'.Holds (given ++ appended calls) 0 ∧
      ∀ c ∈ calls.getLast?, c.isAppend = false → f'.pos = 0 := by
  induction calls generalizing f given with
  | nil => exact ⟨f, rfl, by simpa [appended] using holds, by simp⟩
  | cons c calls ih =>
    obtain ⟨first, others⟩ := forall_mem_cons.mp succeed
    rw [appended, flatMap_cons, length_append] at holds
    obtain ⟨f₁, called, holds₁, stays, drained⟩ := holds.call isOpen first
    rw [PosixWritableFile.run, called]
    simp only [bind_eq_bind, bind_some]
    cases calls with
    | nil =>
      refine ⟨f₁, rfl, by simpa [appended] using holds₁, ?_⟩
      rintro _ ⟨⟩
      exact drained
    | cons c' calls =>
      obtain ⟨open₁, later⟩ := forall_mem_cons.mp closesLast
      obtain ⟨f', ran, holds', last⟩ := ih holds₁ (stays open₁) others later
      rw [ran]
      refine ⟨f', rfl, ?_, last⟩
      rwa [appended, flatMap_cons, ← append_assoc]

/-- Where `write` makes progress and the other system calls succeed, every call returns OK. The bytes
written and those in the buffer are then the data of all calls in order, and after a call that is no
`Append` none are left in the buffer. -/
theorem run_appends (filename : List Char) (buf : Bytes)
    (sized : buf.length = kWritableFileBufferSize)
    (calls : List FileCall) (succeed : ∀ c ∈ calls, c.Succeeds)
    (closesLast : ∀ c ∈ calls.dropLast, c.isClose = false) (writes : List WriteResult)
    (progress : ∀ result ∈ writes, result.Progresses)
    (enough : (appended calls).length ≤ writes.countP WriteResult.writes) :
    ∃ f, run calls (new filename buf writes) = some (List.replicate calls.length .ok, f) ∧
      f.written ++ f.buffered = appended calls ∧ f.pos ≤ kWritableFileBufferSize ∧
      ∀ c ∈ calls.getLast?, c.isAppend = false → f.buffered = [] := by
  have holds : (new filename buf writes).Holds [] (appended calls).length :=
    ⟨sized, Nat.zero_le _, rfl, progress, by simpa [new, buffered] using enough⟩
  obtain ⟨f, ran, holds', last⟩ := holds.run rfl succeed closesLast
  refine ⟨f, ran, holds'.contents, holds'.pos_le, fun c isLast drains => ?_⟩
  rw [buffered, last c isLast drains, take_zero]

/-- Two short writes and an interrupted one. -/
theorem run_appends_short : ∃ f, run [.append [1, 2, 3], .flush, .append [4], .close none]
        (new "db/000003.log".toList (List.replicate kWritableFileBufferSize 0)
          [.wrote 1, .interrupted, .wrote 2, .wrote 9, .wrote 9]) =
      some ([.ok, .ok, .ok, .ok], f) ∧
    f.written = [1, 2, 3, 4] := by
  obtain ⟨f, ran, contents, -, last⟩ := run_appends "db/000003.log".toList
    (List.replicate kWritableFileBufferSize 0) length_replicate
    [.append [1, 2, 3], .flush, .append [4], .close none] (by simp [FileCall.Succeeds])
    (by decide) [.wrote 1, .interrupted, .wrote 2, .wrote 9, .wrote 9]
    (by simp [WriteResult.Progresses]) (by decide)
  refine ⟨f, ran, ?_⟩
  rw [last _ rfl rfl, append_nil] at contents
  exact contents

/-- A second `Close` fails, without any call of `write`. -/
theorem close_twice : ∃ f, run [.close none, .close none]
        (new "db/000003.log".toList (List.replicate kWritableFileBufferSize 0) []) =
      some ([.ok, .posixError "db/000003.log".toList EBADF], f) := ⟨_, rfl⟩

end PosixWritableFile
end TalusDB
