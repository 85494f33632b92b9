import TalusDB.DB.ByteMemTable

/-! `WriteBatch` as the bytes of `rep_`: a sequence number of eight bytes, a count of four, and the
operations, each with its tag and its length-prefixed strings. -/
namespace TalusDB
open Coding List MemTable UInt8

def kHeader : Nat := 12

/-- The bytes of `rep_`, which always hold the header. -/
structure WriteBatch where
  rep : Bytes
  header : kHeader ≤ rep.length

namespace WriteBatch

/-- `Clear`, and the constructor. -/
def clear : WriteBatch := ⟨List.replicate kHeader 0, by simp⟩

/-- `WriteBatchInternal::SetContents`. -/
def setContents (contents : Bytes) (long : kHeader ≤ contents.length) : WriteBatch := ⟨contents, long⟩

/-- Appends to `rep_`. -/
def extend (b : WriteBatch) (bytes : Bytes) : WriteBatch :=
  ⟨b.rep ++ bytes, b.header.trans (by simp)⟩

def count (b : WriteBatch) : Int := (decodeFixed32 (b.rep.drop 8)).toBitVec.toInt

def setCount (b : WriteBatch) (n : Int) : WriteBatch where
  rep := b.rep.take 8 ++ encodeFixed32 ⟨.ofInt 32 n⟩ ++ b.rep.drop kHeader
  header := by
    have := b.header
    simp [kHeader] at *
    omega

def sequence (b : WriteBatch) : Nat := (decodeFixed64 b.rep).toNat

def setSequence (b : WriteBatch) (sequence : Nat) : WriteBatch where
  rep := encodeFixed64 (UInt64.ofNat sequence) ++ b.rep.drop 8
  header := by
    have := b.header
    simp [kHeader] at *
    omega

def put (b : WriteBatch) (key : Slice) (value : Bytes) : WriteBatch :=
  (b.setCount (b.count + 1)).extend
    (ofNat ValueType.value.code :: putLengthPrefixedSlice key.data ++ putLengthPrefixedSlice value)

def delete (b : WriteBatch) (key : Slice) : WriteBatch :=
  (b.setCount (b.count + 1)).extend
    (ofNat ValueType.deletion.code :: putLengthPrefixedSlice key.data)

def append (dst src : WriteBatch) : WriteBatch :=
  (dst.setCount (dst.count + src.count)).extend (src.rep.drop kHeader)

/-- The cases of `Iterate` for a tag: the operation and the input behind it, or the message of the
corruption. -/
def readOp (tag : UInt8) (input : Bytes) : Except String (Op Slice Bytes × Bytes) :=
  if tag.toNat = ValueType.value.code then
    match getLengthPrefixedSlice input with
    | none => .error "bad WriteBatch Put"
    | some (key, input) =>
      match getLengthPrefixedSlice input with
      | none => .error "bad WriteBatch Put"
      | some (value, input) => .ok (.put ⟨key⟩ value, input)
  else if tag.toNat = ValueType.deletion.code then
    match getLengthPrefixedSlice input with
    | none => .error "bad WriteBatch Delete"
    | some (key, input) => .ok (.delete ⟨key⟩, input)
  else .error "unknown WriteBatch tag"

section iterate
variable {σ : Type} (handle : σ → Op Slice Bytes → Option σ)

/-- The loop of `Iterate`, which hands each operation to the handler before it reads the next. -/
def iterateLoop (count : Int) : Nat → Bytes → Nat → σ → Option (σ × Except String Unit)
  | _, [], found, s =>
    some (s, if (found : Int) ≠ count then .error "WriteBatch has wrong count" else .ok ())
  | 0, _ :: _, _, _ => none
  | fuel + 1, tag :: input, found, s =>
    match readOp tag input with
    | .error message => some (s, .error message)
    | .ok (op, input) => (handle s op).bind (iterateLoop count fuel input (found + 1))

/-- `Iterate`: the handler at the end and the status. Each round takes a byte at least. -/
def iterate (b : WriteBatch) (s : σ) : Option (σ × Except String Unit) :=
  if b.rep.length < kHeader then some (s, .error "malformed WriteBatch (too small)")
  else iterateLoop handle b.count b.rep.length (b.rep.drop kHeader) 0 s

end iterate

end WriteBatch

/-- `MemTableInserter`, over any memtable that entries are added to. -/
structure MemTableInserter (μ : Type) where
  sequence : UInt64
  mem : μ

section inserting
variable {μ : Type} (add : μ → Entry Slice Bytes → Option μ)

def MemTableInserter.handle (h : MemTableInserter μ) (op : Op Slice Bytes) :
    Option (MemTableInserter μ) :=
  (add h.mem (op.entry h.sequence.toNat)).map fun mem => ⟨h.sequence + 1, mem⟩

/-- `WriteBatchInternal::InsertInto`: the memtable at the end and the status. -/
def WriteBatch.insertInto (b : WriteBatch) (mem : μ) : Option (μ × Except String Unit) :=
  (b.iterate (MemTableInserter.handle add) ⟨.ofNat b.sequence, mem⟩).map
    fun (h, status) => (h.mem, status)

/-- Operations with the sequence numbers from `sequence` on, which wrap around. -/
def MemTableInserter.entries (sequence : Nat) (ops : List (Op Slice Bytes)) :
    List (Entry Slice Bytes) :=
  ops.mapIdx fun i op => op.entry ((sequence + i) % 2 ^ 64)

theorem MemTableInserter.entries_cons (sequence : Nat) (op : Op Slice Bytes)
    (ops : List (Op Slice Bytes)) :
    entries sequence (op :: ops) = op.entry (sequence % 2 ^ 64) :: entries (sequence + 1) ops := by
  simp only [entries, mapIdx_cons, Nat.add_zero, Nat.add_right_comm sequence, Nat.add_assoc]

theorem MemTableInserter.entries_mod (sequence : Nat) (ops : List (Op Slice Bytes)) :
    entries (sequence % 2 ^ 64) ops = entries sequence ops := by
  simp only [entries, Nat.mod_add_mod]

theorem MemTableInserter.entries_eq {sequence : Nat} {ops : List (Op Slice Bytes)}
    (small : ∀ e ∈ numbered sequence ops, e.sequence < 2 ^ 64) :
    entries sequence ops = numbered sequence ops := by
  induction ops generalizing sequence with
  | nil => rfl
  | cons op ops ih =>
    rw [numbered, forall_mem_cons, Op.entry_sequence] at small
    rw [entries_cons, numbered, Nat.mod_eq_of_lt small.1, ih small.2]

theorem MemTableInserter.foldlM_handle (ops : List (Op Slice Bytes)) (sequence : UInt64) (mem : μ) :
    (ops.foldlM (handle add) ⟨sequence, mem⟩).map MemTableInserter.mem =
      (entries sequence.toNat ops).foldlM add mem := by
  induction ops generalizing sequence mem with
  | nil => rfl
  | cons op ops ih =>
    rw [foldlM_cons, entries_cons, foldlM_cons, handle,
      Nat.mod_eq_of_lt sequence.toNat_lt]
    cases add mem (op.entry sequence.toNat) with
    | none => rfl
    | some mem =>
      have next := ih (sequence + 1) mem
      rw [UInt64.toNat_add, UInt64.toNat_one, entries_mod] at next
      exact next

end inserting

namespace WriteBatch

/-! ### What `Iterate` reads -/

/-- The operations at the front of the input, and the message at the first place without one. -/
inductive Reads : Bytes → List (Op Slice Bytes) → Option String → Prop
  | done : Reads [] [] none
  | bad {tag : UInt8} {input : Bytes} {message : String}
      (failed : readOp tag input = .error message) : Reads (tag :: input) [] (some message)
  | op {tag : UInt8} {input rest : Bytes} {op : Op Slice Bytes} {ops : List (Op Slice Bytes)}
      {message : Option String} (read : readOp tag input = .ok (op, rest))
      (behind : Reads rest ops message) : Reads (tag :: input) (op :: ops) message

/-- The status with which the loop ends. -/
def statusOf (count : Int) (found : Nat) : Option String → Except String Unit
  | some message => .error message
  | none => if (found : Int) ≠ count then .error "WriteBatch has wrong count" else .ok ()

variable {input rest : Bytes} {op : Op Slice Bytes} {σ : Type}
  {handle : σ → Op Slice Bytes → Option σ} {ops : List (Op Slice Bytes)} {message : Option String}
  {b : WriteBatch}

theorem readOp_shorter {tag : UInt8}
    (read : readOp tag input = .ok (op, rest)) : rest.length < input.length := by
  rw [readOp] at read
  split at read
  case isTrue =>
    cases isKey : getLengthPrefixedSlice input with
    | none => simp [isKey] at read
    | some found =>
      obtain ⟨key, behind⟩ := found
      have first := (getLengthPrefixedSlice_spec isKey).2
      cases isValue : getLengthPrefixedSlice behind with
      | none => simp [isKey, isValue] at read
      | some found =>
        obtain ⟨value, last⟩ := found
        have second := (getLengthPrefixedSlice_spec isValue).2
        simp only [isKey, isValue, Except.ok.injEq, Prod.mk.injEq] at read
        rw [← read.2]
        exact second.trans first
  case isFalse =>
    split at read
    case isFalse => cases read
    case isTrue =>
      cases isKey : getLengthPrefixedSlice input with
      | none => simp [isKey] at read
      | some found =>
        obtain ⟨key, behind⟩ := found
        simp only [isKey, Except.ok.injEq, Prod.mk.injEq] at read
        rw [← read.2]
        exact (getLengthPrefixedSlice_spec isKey).2

theorem exists_reads (input : Bytes) : ∃ ops message, Reads input ops message := by
  induction size : input.length using Nat.strong_induction_on generalizing input with
  | _ n ih =>
    cases input with
    | nil => exact ⟨[], none, .done⟩
    | cons tag input =>
      cases read : readOp tag input with
      | error message => exact ⟨[], some message, .bad read⟩
      | ok found =>
        obtain ⟨op, rest⟩ := found
        have shorter : rest.length < n := by
          rw [← size, length_cons]
          exact Nat.lt_succ_of_lt (readOp_shorter read)
        obtain ⟨ops, message, behind⟩ := ih _ shorter rest rfl
        exact ⟨op :: ops, message, .op read behind⟩

theorem Reads.iterateLoop {count : Int}
    (reads : Reads input ops message) {fuel : Nat} (enough : input.length ≤ fuel) (found : Nat)
    (s : σ) : iterateLoop handle count fuel input found s =
      (ops.foldlM handle s).map (·, statusOf count (found + ops.length) message) := by
  induction reads generalizing fuel found s with
  | done => cases fuel <;> rfl
  | bad failed =>
    cases fuel with
    | zero => cases enough
    | succ fuel =>
      rw [WriteBatch.iterateLoop, failed]
      rfl
  | @op _ _ _ op _ _ read behind ih =>
    cases fuel with
    | zero => cases enough
    | succ fuel =>
      have shorter := readOp_shorter read
      rw [length_cons] at enough
      rw [WriteBatch.iterateLoop, read, foldlM_cons]
      dsimp only
      cases handle s op with
      | none => rfl
      | some s =>
        have next := ih (show _ ≤ fuel by omega) (found + 1) s
        rw [Nat.add_right_comm, Nat.add_assoc] at next
        exact next

theorem Reads.iterate (reads : Reads (b.rep.drop kHeader) ops message) (s : σ) :
    b.iterate handle s = (ops.foldlM handle s).map (·, statusOf b.count ops.length message) := by
  have enough : (b.rep.drop kHeader).length ≤ b.rep.length := by simp
  rw [WriteBatch.iterate, if_neg (Nat.not_lt.mpr b.header), reads.iterateLoop enough, Nat.zero_add]

theorem Reads.insertInto {μ : Type} {add : μ → Entry Slice Bytes → Option μ}
    (reads : Reads (b.rep.drop kHeader) ops message) (mem : μ) :
    b.insertInto add mem = ((MemTableInserter.entries b.sequence ops).foldlM add mem).map
      (·, statusOf b.count ops.length message) := by
  have ran := MemTableInserter.foldlM_handle add ops (.ofNat b.sequence) mem
  rw [UInt64.toNat_ofNat', MemTableInserter.entries_mod] at ran
  rw [WriteBatch.insertInto, reads.iterate, ← ran, Option.map_map, Option.map_map]
  rfl

/-! ### Batches that were built -/

/-- What `Put` and `Delete` append. -/
def encodeOp : Op Slice Bytes → Bytes
  | .put key value => ofNat ValueType.value.code ::
      putLengthPrefixedSlice key.data ++ putLengthPrefixedSlice value
  | .delete key => ofNat ValueType.deletion.code :: putLengthPrefixedSlice key.data

/-- The lengths are ones of 32 bits. -/
def FitsOp : Op Slice Bytes → Prop
  | .put key value => key.data.length < 2 ^ 32 ∧ value.length < 2 ^ 32
  | .delete key => key.data.length < 2 ^ 32

theorem reads_encodeOp (fits : FitsOp op) (reads : Reads rest ops message) :
    Reads (encodeOp op ++ rest) (op :: ops) message := by
  cases op with
  | put key value =>
    refine .op ?_ reads
    have isKey := getLengthPrefixedSlice_put (putLengthPrefixedSlice value ++ rest) fits.1
    have isValue := getLengthPrefixedSlice_put rest fits.2
    change readOp _ (putLengthPrefixedSlice key.data ++ putLengthPrefixedSlice value ++ rest) = _
    rw [append_assoc, readOp, if_pos (by decide), isKey]
    simp [isValue]
  | delete key =>
    refine .op ?_ reads
    have isKey := getLengthPrefixedSlice_put rest fits
    rw [append_eq, readOp, if_neg (by decide), if_pos (by decide), isKey]

theorem reads_encoded (fits : ∀ op ∈ ops, FitsOp op) : Reads (ops.flatMap encodeOp) ops none := by
  induction ops with
  | nil => exact .done
  | cons op ops ih =>
    rw [flatMap_cons]
    exact reads_encodeOp (fits op mem_cons_self) (ih fun x mem =>
      fits x (mem_cons_of_mem op mem))

/-- A batch as its sequence number and its operations. -/
structure Described where
  sequence : Nat := 0
  ops : List (Op Slice Bytes) := []

/-- The bytes of a batch are those of its description, which has room for the numbers. -/
structure Encodes (b : WriteBatch) (a : Described) : Prop where
  rep : b.rep = encodeFixed64 (UInt64.ofNat a.sequence) ++ encodeFixed32 ⟨.ofNat 32 a.ops.length⟩ ++
    a.ops.flatMap encodeOp
  sequence : a.sequence < 2 ^ 64
  few : a.ops.length < 2 ^ 31
  fits : ∀ op ∈ a.ops, FitsOp op

section encodes
variable {b src : WriteBatch} {a a' : Described}

theorem clear_encodes : Encodes clear {} := by
  refine ⟨by decide, by decide, by decide, by simp⟩

variable (encodes : Encodes b a)
include encodes

theorem Encodes.drop : b.rep.drop kHeader = a.ops.flatMap encodeOp := by
  rw [encodes.rep]
  exact drop_left' rfl

theorem Encodes.count : b.count = a.ops.length := by
  have few := encodes.few
  have field : b.rep.drop 8 =
      encodeFixed32 ⟨.ofNat 32 a.ops.length⟩ ++ a.ops.flatMap encodeOp := by
    rw [encodes.rep, append_assoc]
    exact drop_left' rfl
  have small : (BitVec.ofNat 32 a.ops.length).toNat = a.ops.length := by
    rw [BitVec.toNat_ofNat, Nat.mod_eq_of_lt (by omega)]
  rw [WriteBatch.count, field, decodeFixed32_encodeFixed32, BitVec.toInt_eq_toNat_of_lt, small]
  rw [small]
  omega

theorem Encodes.sequence_eq : b.sequence = a.sequence := by
  rw [WriteBatch.sequence, encodes.rep, append_assoc, decodeFixed64_encodeFixed64,
    UInt64.toNat_ofNat', Nat.mod_eq_of_lt encodes.sequence]

theorem Encodes.extend (ops : List (Op Slice Bytes))
    (few : a.ops.length + ops.length < 2 ^ 31) (fits : ∀ op ∈ ops, FitsOp op) :
    Encodes ((b.setCount (b.count + ops.length)).extend (ops.flatMap encodeOp))
      { a with ops := a.ops ++ ops } := by
  have front : b.rep.take 8 = encodeFixed64 (UInt64.ofNat a.sequence) := by
    rw [encodes.rep, append_assoc]
    exact take_left' rfl
  have counted : BitVec.ofInt 32 (b.count + ops.length) = .ofNat 32 (a.ops ++ ops).length := by
    rw [encodes.count, length_append, ← BitVec.ofInt_natCast, Nat.cast_add]
  constructor
  case rep =>
    simp only [WriteBatch.extend, setCount, counted, front, encodes.drop, flatMap_append,
      append_assoc]
  case sequence => exact encodes.sequence
  case few => simpa using few
  case fits =>
    intro op mem
    obtain old | new := mem_append.mp mem
    · exact encodes.fits op old
    · exact fits op new

theorem Encodes.put {key : Slice} {value : Bytes}
    (few : a.ops.length + 1 < 2 ^ 31) (fits : FitsOp (.put key value)) :
    Encodes (b.put key value) { a with ops := a.ops ++ [.put key value] } := by
  have grown := encodes.extend [.put key value] few (by simpa using fits)
  rwa [flatMap_singleton] at grown

theorem Encodes.delete {key : Slice}
    (few : a.ops.length + 1 < 2 ^ 31) (fits : FitsOp (.delete key)) :
    Encodes (b.delete key) { a with ops := a.ops ++ [.delete key] } := by
  have grown := encodes.extend [.delete key] few (by simpa using fits)
  rwa [flatMap_singleton] at grown

theorem Encodes.append (source : Encodes src a') (few : a.ops.length + a'.ops.length < 2 ^ 31) :
    Encodes (b.append src) { a with ops := a.ops ++ a'.ops } := by
  have grown := encodes.extend a'.ops few source.fits
  rwa [← source.count, ← source.drop] at grown

theorem Encodes.setSequence {sequence : Nat} (bound : sequence < 2 ^ 64) :
    Encodes (b.setSequence sequence) { a with sequence } := by
  have behind : b.rep.drop 8 =
      encodeFixed32 ⟨.ofNat 32 a.ops.length⟩ ++ a.ops.flatMap encodeOp := by
    rw [encodes.rep, append_assoc]
    exact drop_left' rfl
  refine ⟨?_, bound, encodes.few, encodes.fits⟩
  rw [append_assoc]
  exact congrArg (encodeFixed64 (UInt64.ofNat sequence) ++ ·) behind

end encodes

end WriteBatch

open WriteBatch

/-- Calls on batches that are told apart by their numbers. -/
inductive BatchCommand where
  | put (i : Nat) (key : Slice) (value : Bytes)
  | delete (i : Nat) (key : Slice)
  | append (dst src : Nat)
  | clear (i : Nat)
  | setSequence (i : Nat) (seq : Nat)

namespace BatchCommand

def apply (batches : Nat → WriteBatch) : BatchCommand → Nat → WriteBatch
  | put i key value => Function.update batches i ((batches i).put key value)
  | delete i key => Function.update batches i ((batches i).delete key)
  | append dst src => Function.update batches dst ((batches dst).append (batches src))
  | clear i => Function.update batches i .clear
  | setSequence i seq => Function.update batches i ((batches i).setSequence seq)

/-- What a call does to the operations: those since the last `Clear`, with those of the source
behind those of the destination. -/
def describe (batches : Nat → Described) : BatchCommand → Nat → Described
  | put i key value => Function.update batches i
      { batches i with ops := (batches i).ops ++ [.put key value] }
  | delete i key => Function.update batches i
      { batches i with ops := (batches i).ops ++ [.delete key] }
  | append dst src => Function.update batches dst
      { batches dst with ops := (batches dst).ops ++ (batches src).ops }
  | clear i => Function.update batches i {}
  | setSequence i seq => Function.update batches i { batches i with sequence := seq }

/-- The bounds on lengths and numbers, and that `Append` is given two batches. -/
def Fits (batches : Nat → Described) : BatchCommand → Prop
  | put i key value => FitsOp (.put key value) ∧ (batches i).ops.length + 1 < 2 ^ 31
  | delete i key => FitsOp (.delete key) ∧ (batches i).ops.length + 1 < 2 ^ 31
  | append dst src =>
    dst ≠ src ∧ (batches dst).ops.length + (batches src).ops.length < 2 ^ 31
  | clear _ => True
  | setSequence _ seq => seq < 2 ^ 64

/-- The calls fit one after another. -/
def AllFit (batches : Nat → Described) : List BatchCommand → Prop
  | [] => True
  | command :: rest => command.Fits batches ∧ AllFit (command.describe batches) rest

variable {batches : Nat → WriteBatch} {described : Nat → Described}

theorem apply_encodes (encodes : ∀ i, Encodes (batches i) (described i)) {command : BatchCommand}
    (fits : command.Fits described) (i : Nat) :
    Encodes (command.apply batches i) (command.describe described i) := by
  have update : ∀ (j : Nat) (b : WriteBatch) (a : Described), Encodes b a →
      Encodes (Function.update batches j b i) (Function.update described j a i) := by
    intro j b a new
    by_cases same : i = j
    · cases same
      simpa using new
    · simpa [same] using encodes i
  cases command with
  | put j key value => exact update j _ _ ((encodes j).put fits.2 fits.1)
  | delete j key => exact update j _ _ ((encodes j).delete fits.2 fits.1)
  | append dst src => exact update dst _ _ ((encodes dst).append (encodes src) fits.2)
  | clear j => exact update j _ _ clear_encodes
  | setSequence j seq => exact update j _ _ ((encodes j).setSequence fits)

theorem run_encodes
    (encodes : ∀ i, Encodes (batches i) (described i)) {commands : List BatchCommand}
    (fits : AllFit described commands) (i : Nat) :
    Encodes (commands.foldl apply batches i) (commands.foldl describe described i) := by
  induction commands generalizing batches described with
  | nil => exact encodes i
  | cons command rest ih => exact ih (apply_encodes encodes fits.1) fits.2

end BatchCommand

/-- After any calls, `Iterate` hands over the operations of a batch in order and returns ok, the
header has their number, and `InsertInto` adds each with the sequence number of its place. -/
theorem writeBatch_faithful (commands : List BatchCommand)
    (fits : BatchCommand.AllFit (fun _ => {}) commands) (i : Nat) :
    let b := commands.foldl BatchCommand.apply (fun _ => .clear) i
    let a := commands.foldl BatchCommand.describe (fun _ => {}) i
    (∀ (σ : Type) (handle : σ → Op Slice Bytes → Option σ) (s : σ),
      b.iterate handle s = (a.ops.foldlM handle s).map (·, .ok ())) ∧
    b.count = a.ops.length ∧ b.sequence = a.sequence ∧
    ∀ (μ : Type) (add : μ → Entry Slice Bytes → Option μ) (mem : μ),
      b.insertInto add mem =
        ((a.ops.mapIdx fun j op => op.entry ((a.sequence + j) % 2 ^ 64)).foldlM add mem).map
          (·, .ok ()) := by
  intro b a
  have encodes : Encodes b a := BatchCommand.run_encodes (fun _ => clear_encodes) fits i
  have reads : Reads (b.rep.drop kHeader) a.ops none := by
    rw [encodes.drop]
    exact reads_encoded encodes.fits
  have status : statusOf b.count a.ops.length none = .ok () := by
    rw [statusOf, encodes.count, if_neg (by simp)]
  refine ⟨fun σ handle s => ?_, encodes.count, encodes.sequence_eq, fun μ add mem => ?_⟩
  · rw [reads.iterate, status]
  · rw [reads.insertInto, status, encodes.sequence_eq]
    rfl

/-- On the memtable of buffers, a batch that is intact is inserted as into the abstract one. -/
theorem insertInto_holds [LinearOrder Slice] {b : WriteBatch} {ops : List (Op Slice Bytes)}
    (reads : Reads (b.rep.drop kHeader) ops none) (counted : b.count = ops.length)
    {mem : ByteMemTable} {es : List FitEntry} (holds : mem.Holds es)
    (fits : ∀ e ∈ numbered b.sequence ops, e.Fits)
    (fresh : ∀ x ∈ es, x.1.sequence < b.sequence) (draws : Nat → Nat → Bool) :
    ∃ mem' es', b.insertInto (fun mem e => mem.add e (draws e.sequence)) mem = some (mem', .ok ()) ∧
      mem'.Holds es' ∧
      es'.map Subtype.val = insertInto b.sequence ops (es.map Subtype.val) := by
  let entries := numbered b.sequence ops
  let adds := entries.map fun e => (e, draws e.sequence)
  have listed : ∀ a ∈ adds, a.1 ∈ entries := by
    intro a mem
    obtain ⟨e, inside, rfl⟩ := mem_map.mp mem
    exact inside
  have distinct : (adds.map fun a => a.1.key).Nodup := by
    rw [map_map]
    refine pairwise_map.mpr ((numbered_increasing _ ops).imp fun less same => ?_)
    exact less.ne (congrArg InternalKey.sequence same)
  have older : ∀ a ∈ adds, ∀ x ∈ es, x.1.key ≠ a.1.key := by
    intro a mem x inside same
    have above := (numbered_spec _ (listed a mem)).1
    exact ((fresh x inside).trans_le above).ne (congrArg InternalKey.sequence same)
  obtain ⟨mem', es', ran, holds', same⟩ :=
    holds.addAll (fun a mem => fits a.1 (listed a mem)) distinct older
  refine ⟨mem', es', ?_, holds', ?_⟩
  · have status : statusOf b.count ops.length none = .ok () := by
      rw [statusOf, counted, if_neg (by simp)]
    have unwrapped := MemTableInserter.entries_eq fun e mem =>
      (fits e mem).sequence.trans_lt (by decide)
    rw [ByteMemTable.addAll_eq] at ran
    rw [reads.insertInto, unwrapped, status, ran]
    rfl
  · rw [same, map_map]
    exact congrArg (List.foldl _ _) (map_id entries)

/-- A batch of one operation, and one that overwrites and deletes behind it. -/
theorem insertInto_holds_put : letI := bytewiseOrder
    ∃ mem₁ mem₂ es, (clear.put ⟨[97]⟩ [1]).insertInto (fun mem e => mem.add e fun _ => false)
        (ByteMemTable.empty zeroKey) = some (mem₁, .ok ()) ∧
      (((clear.put ⟨[97]⟩ [2]).delete ⟨[98]⟩).setSequence 1).insertInto
        (fun mem e => mem.add e fun _ => false) mem₁ = some (mem₂, .ok ()) ∧
      mem₂.Holds es ∧ es.map Subtype.val = [⟨⟨⟨[97]⟩, 1, .value⟩, [2]⟩, ⟨⟨⟨[97]⟩, 0, .value⟩, [1]⟩,
        ⟨⟨⟨[98]⟩, 2, .deletion⟩, []⟩] := by
  let := bytewiseOrder
  obtain ⟨mem₁, es₁, first, holds, same⟩ := insertInto_holds (b := clear.put ⟨[97]⟩ [1])
    (.op rfl .done) rfl (ByteMemTable.empty_holds zeroKey) (by decide) (by simp) fun _ _ => false
  have older : ∀ x ∈ es₁, x.1.sequence < 1 := by
    intro x mem
    have mem := mem_map_of_mem (f := Subtype.val) mem
    rw [same] at mem
    rw [mem_singleton.mp mem]
    decide
  obtain ⟨mem₂, es₂, second, holds, same₂⟩ := insertInto_holds
    (b := ((clear.put ⟨[97]⟩ [2]).delete ⟨[98]⟩).setSequence 1) (.op rfl (.op rfl .done)) rfl holds
    (by decide) older fun _ _ => false
  exact ⟨mem₁, mem₂, es₂, first, second, holds, by rw [same₂, same]; rfl⟩

/-- Two batches, of which one is appended to the other and then cleared. -/
def appendedAndCleared : List BatchCommand :=
  [.put 0 ⟨[97]⟩ [1], .setSequence 1 7, .delete 1 ⟨[98]⟩, .append 1 0, .clear 0]

theorem writeBatch_faithful_appended :
    ((appendedAndCleared.foldl BatchCommand.apply (fun _ => .clear) 1).iterate
      (fun (seen : List (Op Slice Bytes)) op => some (seen ++ [op])) []) =
        some ([.delete ⟨[98]⟩, .put ⟨[97]⟩ [1]], .ok ()) ∧
    (appendedAndCleared.foldl BatchCommand.apply (fun _ => .clear) 1).sequence = 7 ∧
    (appendedAndCleared.foldl BatchCommand.apply (fun _ => .clear) 0).count = 0 := by
  have fits : BatchCommand.AllFit (fun _ => {}) appendedAndCleared := by
    simp [appendedAndCleared, BatchCommand.AllFit, BatchCommand.Fits, BatchCommand.describe, FitsOp]
  obtain ⟨iterates, -, isSequence, -⟩ := writeBatch_faithful appendedAndCleared fits 1
  obtain ⟨-, counts, -, -⟩ := writeBatch_faithful appendedAndCleared fits 0
  exact ⟨iterates _ _ _, isSequence, counts⟩

/-! ### Batches whose bytes are damaged -/

namespace WriteBatch

/-- The operations take all bytes behind the header, and the header has their number. -/
def Intact (b : WriteBatch) : Prop :=
  ∃ ops, Reads (b.rep.drop kHeader) ops none ∧ (ops.length : Int) = b.count

/-- There is no operation right behind the header. -/
def Barren (b : WriteBatch) : Prop :=
  ∀ tag input, b.rep.drop kHeader = tag :: input → ∃ message, readOp tag input = .error message

variable {ops : List (Op Slice Bytes)} {message : Option String} {b : WriteBatch}

theorem Reads.unique {input : Bytes} {ops' : List (Op Slice Bytes)}
    {message' : Option String} (reads : Reads input ops message)
    (reads' : Reads input ops' message') : ops = ops' ∧ message = message' := by
  induction reads generalizing ops' message' with
  | done =>
    cases reads'
    exact ⟨rfl, rfl⟩
  | bad failed =>
    cases reads' with
    | bad failed' =>
      cases failed.symm.trans failed'
      exact ⟨rfl, rfl⟩
    | op read' => cases failed.symm.trans read'
  | op read behind ih =>
    cases reads' with
    | bad failed' => cases read.symm.trans failed'
    | op read' behind' =>
      cases read.symm.trans read'
      obtain ⟨rfl, rfl⟩ := ih behind'
      exact ⟨rfl, rfl⟩

theorem Reads.nil_iff (reads : Reads (b.rep.drop kHeader) ops message) : ops = [] ↔ b.Barren := by
  rw [Barren]
  generalize b.rep.drop kHeader = input at reads
  cases reads with
  | done => simp
  | bad failed =>
    refine iff_of_true rfl fun tag input isInput => ?_
    cases isInput
    exact ⟨_, failed⟩
  | op read behind =>
    refine iff_of_false (cons_ne_nil _ _) fun barren => ?_
    obtain ⟨message, failed⟩ := barren _ _ rfl
    cases read.symm.trans failed

theorem Reads.ok_iff (reads : Reads (b.rep.drop kHeader) ops message) :
    statusOf b.count ops.length message = .ok () ↔ b.Intact := by
  constructor
  · intro ok
    cases message with
    | some message => cases ok
    | none =>
      refine ⟨ops, reads, ?_⟩
      by_contra wrong
      rw [statusOf, if_pos wrong] at ok
      cases ok
  · rintro ⟨ops', reads', counted⟩
    obtain ⟨rfl, rfl⟩ := reads.unique reads'
    rw [statusOf, if_neg (not_not.mpr counted)]

end WriteBatch

/-- `InsertInto` leaves the memtable as it was whenever it fails, just for the batches that are
intact or have no operation right behind the header. -/
theorem insertInto_untouched_iff [LinearOrder Slice] (contents : Bytes)
    (long : kHeader ≤ contents.length) (mem : List (Entry Slice Bytes)) :
    ∃ mem' status, (setContents contents long).insertInto
        (fun mem e => some (MemTable.add mem e)) mem = some (mem', status) ∧
      ((status ≠ .ok () → mem' = mem) ↔
        (setContents contents long).Intact ∨ (setContents contents long).Barren) := by
  generalize setContents contents long = b
  obtain ⟨ops, message, reads⟩ := exists_reads (b.rep.drop kHeader)
  let entries := MemTableInserter.entries b.sequence ops
  refine ⟨entries.foldl MemTable.add mem, statusOf b.count ops.length message, ?_, ?_⟩
  · rw [reads.insertInto]
    exact congrArg (Option.map _) foldlM_pure
  · have length := (foldl_add_perm mem entries).length_eq
    rw [length_append, show entries.length = ops.length from length_mapIdx] at length
    rw [← reads.ok_iff, ← reads.nil_iff]
    constructor
    · intro untouched
      by_cases ok : statusOf b.count ops.length message = .ok ()
      · exact .inl ok
      · rw [untouched ok] at length
        exact .inr (length_eq_zero_iff.mp (by omega))
    · rintro (ok | rfl) failed
      · exact absurd ok failed
      · rfl

/-- A batch of a put and a byte that is no tag: the put is in the memtable. -/
theorem insertInto_leaves_part : letI := bytewiseOrder
    ∃ mem', (setContents ([1, 0, 0, 0, 0, 0, 0, 0, 2, 0, 0, 0] ++ [1, 1, 97, 1, 98] ++ [7])
        (by decide)).insertInto (fun mem e => some (MemTable.add mem e)) [] =
      some (mem', .error "unknown WriteBatch tag") ∧ mem' = [⟨⟨⟨[97]⟩, 1, .value⟩, [98]⟩] :=
  ⟨_, rfl, rfl⟩

/-- The same put with a count of one. -/
theorem insertInto_untouched_iff_put : letI := bytewiseOrder
    ∃ mem' status, (setContents [1, 0, 0, 0, 0, 0, 0, 0, 1, 0, 0, 0, 1, 1, 97, 1, 98]
        (by decide)).insertInto (fun mem e => some (MemTable.add mem e)) [] =
      some (mem', status) ∧ (status ≠ .ok () → mem' = []) := by
  obtain ⟨mem', status, ran, untouched⟩ := @insertInto_untouched_iff bytewiseOrder
    [1, 0, 0, 0, 0, 0, 0, 0, 1, 0, 0, 0, 1, 1, 97, 1, 98] (by decide) []
  exact ⟨mem', status, ran, untouched.mpr (.inl ⟨[.put ⟨[97]⟩ [98]], .op rfl .done, rfl⟩)⟩

end TalusDB
