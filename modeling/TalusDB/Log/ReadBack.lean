import TalusDB.Log.Layout
import TalusDB.Log.Reader

/-! What one `ReadPhysocalRecord` call does at a known position of a laid out
file: it returns the chunk there, or the end of the file when the chunk is cut
short. The reader starts at offset 0, so it never skips or resynchronises. -/
namespace TalusDB.Log
namespace Reader
open List Coding
open Chunk (headerOffset stop)

@[simp] theorem typeOfChar_byte (type : RecordType) : typeOfChar type.byte = type.code := by
  cases type <;> rfl

variable {payload : Bytes} {r : Reader} {type : RecordType}

theorem lengthField_header (type : RecordType) (rest : Bytes) (small : payload.length < 65536) :
    lengthField (header type payload ++ rest) = payload.length := by
  simpa [lengthField, header, encodeFixed32] using length_field payload.length small

theorem typeField_header (type : RecordType) (payload rest : Bytes) :
    typeOfChar ((header type payload ++ rest).getD 6 0) = type.code := by
  rw [← typeOfChar_byte]
  rfl

theorem checksumMatches_physicalRecord (type : RecordType) (payload rest : Bytes) :
    checksumMatches (physicalRecord type payload ++ rest) payload.length = true := by
  have body : ((physicalRecord type payload ++ rest).drop 6).take (1 + payload.length) =
      [type.byte] ++ payload := by
    simp [physicalRecord, header, encodeFixed32, Nat.add_comm 1]
  have stored : decodeFixed32 (physicalRecord type payload ++ rest) =
      Crc32c.mask (Crc32c.extend (typeCrc type) payload) := by
    simp only [physicalRecord, header, append_assoc]
    exact decodeFixed32_encodeFixed32 _ _
  rw [checksumMatches, body, stored, Crc32c.unmask_mask, typeCrc, Crc32c.value, Crc32c.value,
    Crc32c.extend_append, beq_self_eq_true]

theorem parseRecord_whole {rest : Bytes}
    (result : Bytes) (buffer : r.buffer = physicalRecord type payload ++ rest)
    (typed : type ≠ .zero) (small : payload.length < 65536) :
    r.parseRecord result =
      if r.endOfBufferOffset - rest.length - kHeaderSize - payload.length < r.initialOffset then
        (kBadRecord, [], { r with buffer := rest })
      else (type.code, payload, { r with buffer := rest }) := by
  have length : lengthField r.buffer = payload.length := by
    rw [buffer, physicalRecord, append_assoc]
    exact lengthField_header type _ small
  have code : typeOfChar (r.buffer.getD 6 0) = type.code := by
    rw [buffer, physicalRecord, append_assoc]
    exact typeField_header type payload _
  have nonzero : type.code ≠ RecordType.zero.code := by
    cases type <;> simp_all [RecordType.code]
  have matching : checksumMatches r.buffer payload.length = true := by
    rw [buffer]
    exact checksumMatches_physicalRecord type payload rest
  have dropped : r.buffer.drop (kHeaderSize + payload.length) = rest := by
    rw [buffer]
    exact drop_left' (physicalRecord_length type payload)
  have fragment : (r.buffer.drop kHeaderSize).take payload.length = payload := by
    rw [buffer, physicalRecord, append_assoc, drop_left' (header_length type payload),
      take_left]
  have room : ¬ r.buffer.length < kHeaderSize + payload.length := by
    rw [buffer]
    simp
  simp only [parseRecord, length, code, room, nonzero, matching, dropped, fragment,
    if_false, false_and, Bool.true_eq_false, and_false]

theorem parseRecord_torn {lost : Bytes}
    (result : Bytes) (torn : r.buffer ++ lost = physicalRecord type payload)
    (header : kHeaderSize ≤ r.buffer.length) (short : lost ≠ [])
    (small : payload.length < 65536) (eof : r.eof = true) :
    r.parseRecord result = (kEof, result, { r with buffer := [] }) := by
  have split : r.buffer = Log.header type payload ++ payload.take (r.buffer.length - kHeaderSize) := by
    have taken := congrArg (List.take r.buffer.length) torn
    rw [take_left, physicalRecord, take_append, header_length,
      take_of_length_le (by rw [header_length]; exact header)] at taken
    exact taken
  have length : lengthField r.buffer = payload.length := by
    rw [split]
    exact lengthField_header type _ small
  have total := congrArg List.length torn
  have some : 0 < lost.length := length_pos_of_ne_nil short
  rw [length_append, physicalRecord_length] at total
  simp only [parseRecord, length, eof, if_true, if_pos (show r.buffer.length <
    kHeaderSize + payload.length by omega)]

/-- The reader stands at offset `pos` of the file `F`: its buffer is the rest of
the block that was read last. -/
structure At (F : Bytes) (pos : Nat) (r : Reader) : Prop where
  lower : pos ≤ r.endOfBufferOffset
  upper : r.endOfBufferOffset ≤ F.length
  near : r.endOfBufferOffset ≤ pos / kBlockSize * kBlockSize + kBlockSize
  buffer : r.buffer = (F.take r.endOfBufferOffset).drop pos
  file : r.file = ⟨F.drop r.endOfBufferOffset, none⟩
  block : r.eof = false → r.endOfBufferOffset % kBlockSize = 0
  last : r.eof = true → r.endOfBufferOffset = F.length
  ended : r.eof = true → F.length < pos / kBlockSize * kBlockSize + kBlockSize
  offset : r.initialOffset = 0
  synced : r.resyncing = false
  checked : r.checksum = true

theorem At.new (F : Bytes) : At F 0 (Reader.new ⟨F, none⟩ true 0) where
  lower := Nat.le_refl _
  upper := Nat.zero_le _
  near := Nat.zero_le _
  buffer := rfl
  file := rfl
  block := fun _ => rfl
  last := fun h => Bool.noConfusion h
  ended := fun h => Bool.noConfusion h
  offset := rfl
  synced := rfl
  checked := rfl

namespace At
variable {F : Bytes} {pos : Nat} {r : Reader}

theorem buffer_length (here : At F pos r) : r.buffer.length = r.endOfBufferOffset - pos := by
  have upper := here.upper
  rw [here.buffer, length_drop, length_take]
  omega

theorem unread (here : At F pos r) : r.unread = F.length - pos := by
  have lower := here.lower
  have upper := here.upper
  have file : r.file.contents.length = F.length - r.endOfBufferOffset := by
    rw [here.file, length_drop]
  rw [Reader.unread, file, here.buffer_length]
  omega

theorem consumed (here : At F pos r) : r.endOfBufferOffset - r.buffer.length = pos := by
  have lower := here.lower
  rw [here.buffer_length]
  omega

theorem report (here : At F pos r) (bytes : Nat) (reason : String) :
    At F pos (r.reportDrop bytes reason) := by
  unfold reportDrop
  split
  · exact { here with }
  · exact here

end At

/-- The reader after filling its buffer with the next block of `F`. -/
def fill (F : Bytes) (r : Reader) : Reader :=
  let block := (F.drop r.endOfBufferOffset).take kBlockSize
  { r with
    file := ⟨(F.drop r.endOfBufferOffset).drop kBlockSize, none⟩
    buffer := block
    endOfBufferOffset := r.endOfBufferOffset + block.length
    eof := decide (block.length < kBlockSize) }

variable {F : Bytes} {pos stop : Nat} {r : Reader} {c : Chunk}

theorem At.fill (here : At F pos r) (more : r.eof = false) :
    At F r.endOfBufferOffset (r.fill F) := by
  have upper := here.upper
  have block := here.block more
  have size : ((F.drop r.endOfBufferOffset).take kBlockSize).length =
      min kBlockSize (F.length - r.endOfBufferOffset) := by
    rw [length_take, length_drop]
  constructor
  · exact Nat.le_add_right _ _
  · simp only [Reader.fill, size]
    omega
  · simp only [Reader.fill, size]
    rw [kBlockSize_eq] at *
    omega
  · simp only [Reader.fill, size]
    rw [drop_take, Nat.add_sub_cancel_left, take_eq_take_iff, length_drop]
    omega
  · simp only [Reader.fill, size, drop_drop]
    by_cases whole : kBlockSize ≤ F.length - r.endOfBufferOffset
    · rw [Nat.min_eq_left whole]
    · rw [Nat.min_eq_right (by omega), drop_of_length_le (by omega),
        drop_of_length_le (by omega)]
  · simp only [Reader.fill, size, decide_eq_false_iff_not]
    intro whole
    rw [Nat.min_eq_left (by omega), Nat.add_mod_right]
    exact block
  · simp only [Reader.fill, size, decide_eq_true_eq]
    omega
  · simp only [Reader.fill, size, decide_eq_true_eq]
    rw [kBlockSize_eq] at *
    omega
  · exact here.offset
  · exact here.synced
  · exact here.checked

theorem headerOffset_cases (pos : Nat) :
    (pos % kBlockSize + kHeaderSize ≤ kBlockSize ∧ headerOffset pos = pos) ∨
      (kBlockSize < pos % kBlockSize + kHeaderSize ∧
        headerOffset pos = pos / kBlockSize * kBlockSize + kBlockSize) := by
  have split := Nat.div_add_mod pos kBlockSize
  have less : pos % kBlockSize < kBlockSize := Nat.mod_lt _ (by decide)
  rw [Nat.mul_comm] at split
  by_cases short : kBlockSize - pos % kBlockSize < kHeaderSize
  · right
    simp only [headerOffset, padding, if_pos short]
    omega
  · left
    simp only [headerOffset, padding, if_neg short]
    omega

theorem headerOffset_boundary {b : Nat} (boundary : b % kBlockSize = 0) :
    headerOffset b = b := by
  rcases headerOffset_cases b with ⟨-, same⟩ | ⟨full, -⟩
  · exact same
  · rw [boundary, kBlockSize_eq, kHeaderSize_eq] at full
    omega

theorem headerOffset_room (pos : Nat) :
    headerOffset pos % kBlockSize + kHeaderSize ≤ kBlockSize := by
  obtain ⟨room, same⟩ | ⟨_, same⟩ := headerOffset_cases pos
  · rw [same]
    exact room
  · rw [same, Nat.add_mod_right, Nat.mul_mod_left]
    decide

theorem At.exhausted (here : At F pos r)
    (short : r.buffer.length < kHeaderSize) (more : r.eof = false) :
    r.endOfBufferOffset = headerOffset pos := by
  have lower := here.lower
  have near := here.near
  have block := here.block more
  rw [here.buffer_length] at short
  obtain ⟨room, same⟩ | ⟨room, same⟩ := headerOffset_cases pos <;>
    rw [kBlockSize_eq, kHeaderSize_eq] at * <;> omega

theorem At.headerOffset (here : At F pos r)
    (holds : ¬ r.buffer.length < kHeaderSize) : headerOffset pos = pos := by
  have lower := here.lower
  have near := here.near
  rw [here.buffer_length] at holds
  obtain ⟨_, same⟩ | ⟨room, _⟩ := headerOffset_cases pos
  · exact same
  · rw [kBlockSize_eq, kHeaderSize_eq] at *
    omega

theorem At.read (here : At F pos r) :
    r.file.read kBlockSize = (some ((F.drop r.endOfBufferOffset).take kBlockSize),
      ⟨(F.drop r.endOfBufferOffset).drop kBlockSize, none⟩) := by
  rw [here.file]
  rfl

/-- The reader as it would be with the initial offset 0 and with checksums. -/
def plain (r : Reader) : Reader := { r with initialOffset := 0, resyncing := false, checksum := true }

theorem At.plain (here : At F pos r) : r.plain = r := by
  have offset := here.offset
  have synced := here.synced
  have checked := here.checked
  cases r
  cases offset
  cases synced
  cases checked
  rfl

/-- The two readers differ in what they have read only. -/
structure Kept (r r' : Reader) : Prop where
  checksum : r'.checksum = r.checksum
  lastRecordOffset : r'.lastRecordOffset = r.lastRecordOffset
  initialOffset : r'.initialOffset = r.initialOffset
  resyncing : r'.resyncing = r.resyncing
  reports : r'.reports = r.reports

theorem Kept.refl (r : Reader) : Kept r r := ⟨rfl, rfl, rfl, rfl, rfl⟩

theorem Kept.plain {r' : Reader} (here : At F pos r) (kept : Kept r r') : r'.plain = r' := by
  rw [Reader.plain, ← here.offset, ← here.synced, ← here.checked, ← kept.initialOffset,
    ← kept.resyncing, ← kept.checksum]

theorem readPhysicalRecord_load (here : At F pos r.plain)
    (result : Bytes) (room : headerOffset pos + kHeaderSize ≤ F.length) :
    ∃ r' : Reader, r.readPhysicalRecord result = r'.parseRecord result ∧
      At F (headerOffset pos) r'.plain ∧
      headerOffset pos + kHeaderSize ≤ r'.endOfBufferOffset ∧ Kept r r' := by
  have lower : pos ≤ headerOffset pos := Nat.le_add_right _ _
  have length : r.buffer.length = r.endOfBufferOffset - pos := here.buffer_length
  by_cases short : r.buffer.length < kHeaderSize
  · have more : r.eof = false := by
      by_contra ended
      have eof : r.eof = true := by simpa using ended
      have last : r.endOfBufferOffset = F.length := here.last eof
      omega
    have boundary : r.endOfBufferOffset = headerOffset pos := here.exhausted short more
    have next := here.fill more
    have read : r.file.read kBlockSize = (some ((F.drop r.endOfBufferOffset).take kBlockSize),
        ⟨(F.drop r.endOfBufferOffset).drop kBlockSize, none⟩) := here.read
    have size : ¬ ((F.drop r.endOfBufferOffset).take kBlockSize).length < kHeaderSize := by
      rw [length_take, length_drop, boundary]
      have : kHeaderSize ≤ kBlockSize := by decide
      omega
    refine ⟨r.fill F, ?_, boundary ▸ next, ?_, ⟨rfl, rfl, rfl, rfl, rfl⟩⟩
    · simp only [readPhysicalRecord, if_pos short, more, read, if_neg size,
        Bool.false_eq_true, if_false, Reader.fill]
    · simp only [Reader.fill]
      omega
  · have same : headerOffset pos = pos := here.headerOffset short
    have below : pos ≤ r.endOfBufferOffset := here.lower
    refine ⟨r, ?_, same.symm ▸ here, ?_, .refl r⟩
    · simp only [readPhysicalRecord, if_neg short]
    · rw [same]
      omega

theorem readPhysicalRecord_header (here : At F pos r)
    (result : Bytes) (room : headerOffset pos + kHeaderSize ≤ F.length) :
    ∃ r' : Reader, r.readPhysicalRecord result = r'.parseRecord result ∧
      At F (headerOffset pos) r' ∧
      headerOffset pos + kHeaderSize ≤ r'.endOfBufferOffset ∧
      r'.reports = r.reports := by
  obtain ⟨r', parses, there, holds, kept⟩ :=
    readPhysicalRecord_load (here.plain.symm ▸ here) result room
  exact ⟨r', parses, kept.plain here ▸ there, holds, kept.reports⟩

theorem readPhysicalRecord_done (here : At F pos r.plain)
    (result : Bytes) (short : F.length < headerOffset pos + kHeaderSize) :
    ∃ r' : Reader, r.readPhysicalRecord result = (kEof, result, r') ∧ Kept r r' := by
  have upper : r.endOfBufferOffset ≤ F.length := here.upper
  have length : r.buffer.length = r.endOfBufferOffset - pos := here.buffer_length
  by_cases small : r.buffer.length < kHeaderSize
  · by_cases ended : r.eof = true
    · refine ⟨{ r with buffer := [] }, ?_, ⟨rfl, rfl, rfl, rfl, rfl⟩⟩
      simp only [readPhysicalRecord, if_pos small, ended, if_true]
    · have more : r.eof = false := by simpa using ended
      have boundary : r.endOfBufferOffset = headerOffset pos := here.exhausted small more
      have read : r.file.read kBlockSize = (some ((F.drop r.endOfBufferOffset).take kBlockSize),
          ⟨(F.drop r.endOfBufferOffset).drop kBlockSize, none⟩) := here.read
      have size : ((F.drop r.endOfBufferOffset).take kBlockSize).length < kHeaderSize := by
        rw [length_take, length_drop]
        omega
      refine ⟨{ r.fill F with buffer := [] }, ?_, ⟨rfl, rfl, rfl, rfl, rfl⟩⟩
      simp only [readPhysicalRecord, if_pos small, more, read, if_pos size,
        Bool.false_eq_true, if_false, Reader.fill]
  · have same : headerOffset pos = pos := here.headerOffset small
    have lower : pos ≤ r.endOfBufferOffset := here.lower
    omega

theorem readPhysicalRecord_short (here : At F pos r)
    (result : Bytes) (short : F.length < headerOffset pos + kHeaderSize) :
    ∃ r' : Reader, r.readPhysicalRecord result = (kEof, result, r') ∧
      r'.reports = r.reports ∧ r'.resyncing = false := by
  obtain ⟨r', read, kept⟩ := readPhysicalRecord_done (here.plain.symm ▸ here) result short
  exact ⟨r', read, kept.reports, kept.resyncing.trans here.synced⟩

theorem At.reaches (here : At F pos r) (some : pos < r.endOfBufferOffset) (inside : stop ≤ F.length)
    (block : stop ≤ pos / kBlockSize * kBlockSize + kBlockSize) : stop ≤ r.endOfBufferOffset := by
  by_cases ended : r.eof = true
  · rw [here.last ended]
    exact inside
  · have boundary := here.block (by simpa using ended)
    rw [kBlockSize_eq] at *
    omega

theorem At.advance (here : At F pos r)
    (forward : pos ≤ stop) (inside : stop ≤ r.endOfBufferOffset) :
    At F stop { r with buffer := r.buffer.drop (stop - pos) } := by
  have grows := Nat.mul_le_mul_right kBlockSize (Nat.div_le_div_right (c := kBlockSize) forward)
  refine { here with lower := inside, near := ?_, buffer := ?_, ended := ?_ }
  · exact Nat.le_trans here.near (by omega)
  · simp only [here.buffer, drop_drop]
    congr 1
    omega
  · exact fun eof => Nat.lt_of_lt_of_le (here.ended eof) (by omega)

theorem Chunk.fits_block (fits : c.Fits pos) :
    c.stop pos ≤ headerOffset pos / kBlockSize * kBlockSize + kBlockSize := by
  have split := Nat.div_add_mod (headerOffset pos) kBlockSize
  rw [Nat.mul_comm] at split
  have bound := fits.1
  simp only [stop]
  omega

theorem Chunk.payload_small (fits : c.Fits pos) : c.payload.length < 65536 := by
  have bound := fits.1
  rw [kBlockSize_eq] at bound
  omega

theorem Chunk.record_at (placed : c.bytes pos <+: F.drop pos) :
    physicalRecord c.type c.payload <+: F.drop (headerOffset pos) := by
  obtain ⟨rest, same⟩ := placed
  refine ⟨rest, ?_⟩
  rw [headerOffset, ← drop_drop, ← same, Chunk.bytes, append_assoc,
    drop_left' length_replicate]

/-- A physical record at the next header of the reader is returned, or rejected where it starts before
the initial offset, and the reader stands behind it. -/
theorem readPhysicalRecord_fragment (here : At F pos r.plain) (result : Bytes) (fits : c.Fits pos)
    (record : physicalRecord c.type c.payload <+: F.drop (headerOffset pos)) :
    ∃ r' : Reader, r.readPhysicalRecord result =
        (if headerOffset pos < r.initialOffset then (kBadRecord, [], r')
          else (c.type.code, c.payload, r')) ∧
      At F (c.stop pos) r'.plain ∧ Kept r r' := by
  have positive : 0 < kHeaderSize := by decide
  have stop : c.stop pos = headerOffset pos + (kHeaderSize + c.payload.length) := by
    simp only [stop]
    omega
  have inside : c.stop pos ≤ F.length := by
    have size := record.length_le
    rw [physicalRecord_length, length_drop] at size
    omega
  obtain ⟨r₁, parses, here₁, holds, kept⟩ := readPhysicalRecord_load here result (by omega)
  have reach : c.stop pos ≤ r₁.endOfBufferOffset :=
    here₁.reaches (show headerOffset pos < r₁.endOfBufferOffset by omega) inside
      (Chunk.fits_block fits)
  have buffered : physicalRecord c.type c.payload <+: r₁.buffer := by
    rw [show r₁.buffer = _ from here₁.buffer, drop_take]
    refine prefix_take_iff.mpr ⟨record, ?_⟩
    rw [physicalRecord_length]
    exact Nat.le_sub_of_add_le (by rw [Nat.add_comm, ← stop]; exact reach)
  obtain ⟨rest, same⟩ := buffered
  have dropped : r₁.buffer.drop (c.stop pos - headerOffset pos) = rest := by
    rw [← same]
    exact drop_left' (by rw [physicalRecord_length]; omega)
  have next := here₁.advance (show headerOffset pos ≤ c.stop pos by omega) reach
  have start : r₁.endOfBufferOffset - rest.length - kHeaderSize - c.payload.length =
      headerOffset pos := by
    have behind : r₁.endOfBufferOffset - (r₁.buffer.drop _).length = c.stop pos := next.consumed
    rw [dropped] at behind
    omega
  refine ⟨{ r₁ with buffer := rest }, ?_, ?_, { kept with }⟩
  · rw [parses, parseRecord_whole result same.symm fits.2 (Chunk.payload_small fits), start,
      kept.initialOffset]
  · rw [← dropped]
    exact next

variable (here : At F pos r) (result : Bytes) (fits : c.Fits pos)
include here result fits

theorem readPhysicalRecord_record
    (record : physicalRecord c.type c.payload <+: F.drop (headerOffset pos)) :
    ∃ r' : Reader, r.readPhysicalRecord result = (c.type.code, c.payload, r') ∧
      At F (c.stop pos) r' ∧ r'.reports = r.reports := by
  obtain ⟨r', read, there, kept⟩ :=
    readPhysicalRecord_fragment (here.plain.symm ▸ here) result fits record
  rw [here.offset, if_neg (Nat.not_lt_zero _)] at read
  exact ⟨r', read, kept.plain here ▸ there, kept.reports⟩

theorem readPhysicalRecord_chunk (placed : c.bytes pos <+: F.drop pos) :
    ∃ r' : Reader, r.readPhysicalRecord result = (c.type.code, c.payload, r') ∧
      At F (c.stop pos) r' ∧ r'.reports = r.reports :=
  readPhysicalRecord_record here result fits (Chunk.record_at placed)

theorem readPhysicalRecord_cut (torn : F.drop pos <+: c.bytes pos) (short : F.length < c.stop pos) :
    ∃ r' : Reader, r.readPhysicalRecord result = (kEof, result, r') ∧
      r'.reports = r.reports ∧ r'.resyncing = false := by
  by_cases room : headerOffset pos + kHeaderSize ≤ F.length
  · obtain ⟨r₁, parses, here₁, holds, reports⟩ := readPhysicalRecord_header here result room
    have lower := here₁.upper
    have positive : 0 < kHeaderSize := by decide
    have end_ : r₁.endOfBufferOffset = F.length := by
      have := here₁.reaches (show headerOffset pos < r₁.endOfBufferOffset by omega)
        (Nat.le_refl F.length) (Nat.le_trans (Nat.le_of_lt short) (Chunk.fits_block fits))
      omega
    have ended : r₁.eof = true := by
      by_contra more
      have boundary := here₁.block (by simpa using more)
      have within := Chunk.fits_block fits
      rw [kBlockSize_eq] at *
      omega
    have record : F.drop (headerOffset pos) <+: physicalRecord c.type c.payload := by
      have rest := torn.drop (padding pos)
      rwa [drop_drop, Chunk.bytes, drop_left' length_replicate] at rest
    obtain ⟨lost, split⟩ := record
    have buffered : r₁.buffer = F.drop (headerOffset pos) := by
      rw [here₁.buffer, end_, take_length]
    rw [← buffered] at split
    have header : kHeaderSize ≤ r₁.buffer.length := by
      rw [here₁.buffer_length]
      omega
    have some : lost ≠ [] := by
      rintro rfl
      have total := congrArg List.length split
      simp only [append_nil, buffered, length_drop, physicalRecord_length] at total
      simp only [stop] at short
      omega
    exact ⟨{ r₁ with buffer := [] }, parses.trans (parseRecord_torn result split header some
      (Chunk.payload_small fits) ended), reports, here₁.synced⟩
  · exact readPhysicalRecord_short here result (by omega)

end Reader
end TalusDB.Log
