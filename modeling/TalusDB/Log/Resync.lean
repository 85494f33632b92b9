import TalusDB.Log.Records

/-! The reader over bytes that no writer laid out: a header in the file either
stands for a fragment with a matching checksum, or costs the rest of its block. -/
namespace TalusDB.Log
open RecordType Chunk List
namespace Reader

/-- End of the block that holds offset `pos`, as far as the file goes. -/
def blockEnd (F : Bytes) (pos : Nat) : Nat :=
  min F.length (pos / kBlockSize * kBlockSize + kBlockSize)

/-- The bytes from `pos` to the end of its block. -/
def blockTail (F : Bytes) (pos : Nat) : Bytes := (F.take (blockEnd F pos)).drop pos

theorem blockTail_length (F : Bytes) (pos : Nat) :
    (blockTail F pos).length = blockEnd F pos - pos := by
  rw [blockTail, length_drop, length_take, blockEnd]
  omega

variable {F : Bytes} {pos : Nat} {r : Reader}

theorem At.block_end (here : At F pos r)
    (some : pos < r.endOfBufferOffset) : r.endOfBufferOffset = blockEnd F pos := by
  have upper := here.upper
  have near := here.near
  rw [blockEnd]
  by_cases ended : r.eof = true
  · have last := here.last ended
    omega
  · have boundary := here.block (by simpa using ended)
    rw [kBlockSize_eq] at *
    omega

/-- The bytes start with a physical record that `ReadPhysocalRecord` returns. -/
structure Valid (block : Bytes) : Prop where
  room : kHeaderSize + lengthField block ≤ block.length
  typed : ¬ (typeOfChar (block.getD 6 0) = zero.code ∧ lengthField block = 0)
  matching : checksumMatches block (lengthField block) = true

instance (block : Bytes) : Decidable (Valid block) :=
  decidable_of_iff (kHeaderSize + lengthField block ≤ block.length ∧
      ¬ (typeOfChar (block.getD 6 0) = zero.code ∧ lengthField block = 0) ∧
      checksumMatches block (lengthField block) = true)
    ⟨fun ⟨a, b, c⟩ => ⟨a, b, c⟩, fun v => ⟨v.room, v.typed, v.matching⟩⟩

/-- The outcome of reading a header that starts at `h`. -/
inductive Outcome (F : Bytes) (h : Nat) (result : Bytes) : Nat × Bytes × Reader → Prop where
  | fragment {r : Reader} (valid : Valid (blockTail F h))
      (behind : At F (h + (kHeaderSize + lengthField (blockTail F h))) r) :
      Outcome F h result (typeOfChar ((blockTail F h).getD 6 0),
        ((blockTail F h).drop kHeaderSize).take (lengthField (blockTail F h)), r)
  | cutOff {r : Reader} (invalid : ¬ Valid (blockTail F h))
      (last : F.length < h / kBlockSize * kBlockSize + kBlockSize) (synced : r.resyncing = false) :
      Outcome F h result (kEof, result, r)
  | dropped {r : Reader} (invalid : ¬ Valid (blockTail F h)) (behind : At F (blockEnd F h) r) :
      Outcome F h result (kBadRecord, result, r)

theorem At.clear (here : At F pos r)
    (some : pos < r.endOfBufferOffset) : At F (blockEnd F pos) { r with buffer := [] } := by
  have all := here.advance (Nat.le_of_lt some) (Nat.le_refl _)
  rw [← here.block_end some]
  rwa [drop_of_length_le (by rw [here.buffer_length])] at all

theorem parseRecord_outcome (here : At F pos r)
    (result : Bytes) (room : pos + kHeaderSize ≤ r.endOfBufferOffset) :
    Outcome F pos result (r.parseRecord result) := by
  have positive : 0 < kHeaderSize := by decide
  have some : pos < r.endOfBufferOffset := by omega
  have length := here.buffer_length
  have ends := here.block_end some
  have buffered : blockTail F pos = r.buffer := by
    rw [blockTail, ← ends, here.buffer]
  have cleared := here.clear some
  by_cases short : r.buffer.length < kHeaderSize + lengthField r.buffer
  · have invalid : ¬ Valid (blockTail F pos) := fun valid => by
      have := valid.room
      rw [buffered] at this
      omega
    by_cases ended : r.eof = true
    · rw [parseRecord, if_pos short, if_pos ended]
      exact .cutOff invalid (here.ended ended) here.synced
    · rw [parseRecord, if_pos short, if_neg ended]
      exact .dropped invalid (cleared.report _ _)
  · rw [parseRecord, if_neg short]
    by_cases zero : typeOfChar (r.buffer.getD 6 0) = zero.code ∧ lengthField r.buffer = 0
    · rw [if_pos zero]
      exact .dropped (fun valid => valid.typed (buffered ▸ zero)) cleared
    · rw [if_neg zero]
      by_cases mismatch : r.checksum = true ∧ checksumMatches r.buffer (lengthField r.buffer) = false
      · rw [if_pos mismatch]
        refine .dropped (fun valid => ?_) (cleared.report _ _)
        have matching := valid.matching
        rw [buffered, mismatch.2] at matching
        contradiction
      · rw [if_neg mismatch, if_neg (by rw [here.offset]; exact Nat.not_lt_zero _)]
        have matching : checksumMatches r.buffer (lengthField r.buffer) = true := by
          simpa [here.checked] using mismatch
        rw [← buffered] at short zero matching
        have behind := here.advance (Nat.le_add_right pos (kHeaderSize + lengthField r.buffer))
          (by rw [buffered] at short; omega)
        rw [Nat.add_sub_cancel_left] at behind
        have outcome := @Outcome.fragment F pos result _
          ⟨Nat.le_of_not_lt short, zero, matching⟩ (by rw [buffered]; exact behind)
        rwa [buffered] at outcome

theorem readPhysicalRecord_outcome (here : At F pos r)
    (result : Bytes) (room : headerOffset pos + kHeaderSize ≤ F.length) :
    Outcome F (headerOffset pos) result (r.readPhysicalRecord result) := by
  obtain ⟨r', parses, here', holds, -⟩ := readPhysicalRecord_header here result room
  rw [parses]
  exact parseRecord_outcome here' result holds

section Rounds
variable {F : Bytes} {pos type : Nat} {r r' : Reader} {a : Assembly} {fragment : Bytes}

variable (read : r.readPhysicalRecord a.fragment = (type, fragment, r')) (behind : At F pos r')
include read behind

theorem round_skip (unknown : type = zero.code ∨ type = kBadRecord) (fuel : Nat) :
    ∃ (r'' : Reader) (a' : Assembly),
      readRecordLoop (fuel + 1) r a = readRecordLoop fuel r'' a' ∧ At F pos r'' := by
  have synced := behind.synced
  simp only [readRecordLoop, read, synced, synced_eq synced, Bool.false_eq_true, false_and,
    if_false]
  obtain rfl | rfl := unknown
  · simp only [code, kEof, kBadRecord, kMaxRecordType, Nat.reduceEqDiff, Nat.reduceAdd,
      if_false]
    exact ⟨_, _, rfl, behind.report _ _⟩
  · simp only [code, kEof, kBadRecord, kMaxRecordType, Nat.reduceEqDiff, Nat.reduceAdd,
      if_false, if_true]
    split
    · exact ⟨_, _, rfl, behind.report _ _⟩
    · exact ⟨_, _, rfl, behind⟩

/-- One round of `ReadRecord` on any fragment: it is returned as the end of a
record, the record goes on, or the reading ends. -/
theorem round_any (fuel : Nat) :
    (∃ (data : Bytes) (r'' : Reader), readRecordLoop (fuel + 1) r a = some (some data, r'') ∧
        At F pos r'' ∧ fragment <:+ data) ∨
      (∃ (r'' : Reader) (a' : Assembly),
        readRecordLoop (fuel + 1) r a = readRecordLoop fuel r'' a' ∧ At F pos r'') ∨
      (∃ r'' : Reader, readRecordLoop (fuel + 1) r a = some (none, r'')) := by
  have synced := behind.synced
  simp only [readRecordLoop, read, synced, synced_eq synced, Bool.false_eq_true, false_and,
    if_false]
  by_cases full : type = full.code
  · rw [if_pos full]
    exact .inl ⟨_, _, rfl, (behind.abandon a _).setLast _, suffix_rfl⟩
  by_cases first : type = first.code
  · rw [if_neg full, if_pos first]
    exact .inr (.inl ⟨_, _, rfl, behind.abandon a _⟩)
  by_cases middle : type = middle.code
  · rw [if_neg full, if_neg first, if_pos middle]
    refine .inr (.inl ?_)
    split
    · exact ⟨_, _, rfl, behind⟩
    · exact ⟨_, _, rfl, behind.report _ _⟩
  by_cases last : type = last.code
  · rw [if_neg full, if_neg first, if_neg middle, if_pos last]
    split
    · exact .inl ⟨_, _, rfl, { behind with synced := rfl }, suffix_append _ _⟩
    · exact .inr (.inl ⟨_, _, rfl, behind.report _ _⟩)
  rw [if_neg full, if_neg first, if_neg middle, if_neg last]
  split
  · exact .inr (.inr ⟨_, rfl⟩)
  · split
    · split
      · exact .inr (.inl ⟨_, _, rfl, behind.report _ _⟩)
      · exact .inr (.inl ⟨_, _, rfl, behind⟩)
    · exact .inr (.inl ⟨_, _, rfl, behind.report _ _⟩)

end Rounds

section Readings
variable {F : Bytes} {pos stop outer inner type : Nat} {r r' : Reader} {a : Assembly}
  {fragment : Bytes}

theorem Reading.pred (reading : Reading F pos outer inner r) : ∃ n, inner = n + 1 := by
  have upper := Nat.le_trans reading.here.lower reading.here.upper
  have deep := reading.deep
  exact ⟨inner - 1, by omega⟩

section
variable (reading : Reading F pos outer inner r)
  (read : r.readPhysicalRecord a.fragment = (type, fragment, r')) (behind : At F stop r')
  (forward : pos < stop)
include reading read behind forward

theorem readFrom_skip (unknown : type = zero.code ∨ type = kBadRecord) :
    ∃ (inner' : Nat) (r'' : Reader) (a' : Assembly), Reading F stop outer inner' r'' ∧
      readFrom outer inner r a = readFrom outer inner' r'' a' := by
  obtain ⟨n, rfl⟩ := reading.pred
  have deep := reading.deep
  have wide := reading.wide
  obtain ⟨r'', a', skips, behind'⟩ := round_skip read behind unknown n
  exact ⟨n, r'', a', ⟨behind', by omega, by omega⟩, by rw [readFrom, skips, readFrom]⟩

theorem readFrom_round : (∃ (data : Bytes) (offset outer' inner' : Nat) (r'' : Reader),
        Reading F stop outer' inner' r'' ∧ fragment <:+ data ∧
        readFrom outer inner r a = prepend [(data, offset)] (readFrom outer' inner' r'' {})) ∨
      (∃ (inner' : Nat) (r'' : Reader) (a' : Assembly), Reading F stop outer inner' r'' ∧
        readFrom outer inner r a = readFrom outer inner' r'' a') ∨
      (∃ r'' : Reader, readFrom outer inner r a = some ([], r'')) := by
  obtain ⟨n, rfl⟩ := reading.pred
  have upper := Nat.le_trans behind.lower behind.upper
  have deep := reading.deep
  have wide := reading.wide
  obtain ⟨data, r'', returns, behind', final⟩ | ⟨r'', a', goes, behind'⟩ | ⟨r'', ends⟩ :=
    round_any read behind n
  · obtain ⟨outer, rfl⟩ : ∃ m, outer = m + 1 := ⟨outer - 1, by omega⟩
    refine .inl ⟨data, r''.lastRecordOffset, outer, F.length - stop + 1, r'',
      ⟨behind', by omega, by omega⟩, final, ?_⟩
    rw [readFrom_some returns, readAllLoop_eq behind']
  · exact .inr (.inl ⟨n, r'', a', ⟨behind', by omega, by omega⟩, by rw [readFrom, goes, readFrom]⟩)
  · exact .inr (.inr ⟨r'', readFrom_none ends⟩)

end

theorem headerOffset_lt_blockEnd (room : headerOffset pos + kHeaderSize ≤ F.length) :
    pos < blockEnd F (headerOffset pos) := by
  have lower : pos ≤ headerOffset pos := Nat.le_add_right _ _
  rw [blockEnd]
  rw [kBlockSize_eq, kHeaderSize_eq] at *
  omega

end Readings

end Reader
end TalusDB.Log
