import TalusDB.Log.Cut
import TalusDB.Log.Resync

/-! Appending to a log after a crash, as `RecoverLogFile` and `ReuseManifest` do
with `reuse_logs`. The file is a byte prefix of a well formed log; the new writer
starts at its end, whatever the last physical record lacks. -/
namespace TalusDB.Log
open Reader List Function Log.Writer RecordType Coding
open Chunk (headerOffset)

theorem physicalRecord_of_checksum {type : RecordType} {payload body : Bytes}
    (room : payload.length ≤ body.length)
    (matching : checksumMatches (header type payload ++ body) payload.length = true) :
    header type payload ++ body =
      physicalRecord type (body.take payload.length) ++ body.drop payload.length := by
  have length : (body.take payload.length).length = payload.length := by
    rw [length_take, Nat.min_eq_left room]
  have covered : ((header type payload ++ body).drop 6).take (1 + payload.length) =
      [type.byte] ++ body.take payload.length := by
    simp [header, encodeFixed32, Nat.add_comm 1]
  have stored : decodeFixed32 (header type payload ++ body) =
      Crc32c.mask (Crc32c.extend (typeCrc type) payload) := by
    simp only [header, append_assoc]
    exact decodeFixed32_encodeFixed32 _ _
  rw [checksumMatches, covered, stored, Crc32c.unmask_mask, beq_iff_eq, Crc32c.value,
    ← Crc32c.extend_append] at matching
  have same : header type (body.take payload.length) = header type payload := by
    rw [header, header, length, ← matching]
    rfl
  rw [physicalRecord, same, append_assoc, take_append_drop]

namespace Cut
variable {F : Bytes} (cut : Cut F)

/-- Where the header of the next chunk belongs. -/
def head : Nat := headerOffset cut.pos

theorem head_eq : headerOffset cut.pos = cut.head := rfl

/-- The file with its block filled up by the zero trailer of the next writer. -/
def sealed (F : Bytes) : Bytes := F ++ List.replicate (padding F.length) 0

theorem head_record (dirty : cut.head < F.length) :
    F.drop cut.pos = List.replicate (padding cut.pos) 0 ++ F.drop cut.head ∧
      F.drop cut.head <+: physicalRecord cut.next.type cut.next.payload := by
  have torn := cut.torn
  have tail := torn.drop (padding cut.pos)
  rw [Chunk.bytes, drop_left' length_replicate, drop_drop] at tail
  refine ⟨?_, tail⟩
  have zeros : replicate (padding cut.pos) 0 <+: F.drop cut.pos :=
    prefix_of_prefix_length_le (prefix_append _ _) torn (by
      rw [length_drop, length_replicate]
      simp only [head, headerOffset] at dirty
      omega)
  obtain ⟨rest, same⟩ := zeros
  have dropped := congrArg (drop (padding cut.pos)) same
  rw [drop_left' length_replicate, drop_drop] at dropped
  rw [← same, dropped, head, headerOffset]

/-- End of the block that the torn record lies in. -/
def blockStop : Nat := cut.head / kBlockSize * kBlockSize + kBlockSize

theorem stop_le_blockStop : cut.next.stop cut.pos ≤ cut.blockStop := Chunk.fits_block cut.next_fits

theorem head_room : cut.head + kHeaderSize ≤ cut.blockStop := by
  have stop := cut.stop_le_blockStop
  rw [Chunk.stop] at stop
  exact Nat.le_trans (Nat.le_add_right _ _) stop

theorem sealed_length (dirty : cut.head < F.length) (sealing : 0 < padding F.length) :
    F.length + padding F.length = cut.blockStop := by
  have upper := Nat.lt_of_lt_of_le cut.short cut.stop_le_blockStop
  rw [blockStop] at upper ⊢
  obtain ⟨room, same⟩ | ⟨room, same⟩ := headerOffset_cases F.length
  · rw [headerOffset] at same
    omega
  · rw [headerOffset] at same
    have div : F.length / kBlockSize = cut.head / kBlockSize := by
      rw [kBlockSize_eq] at upper ⊢
      omega
    rw [same, div]

theorem blockStop_header : headerOffset cut.blockStop = cut.blockStop := by
  have none : cut.blockStop % kBlockSize = 0 := by
    rw [blockStop, Nat.add_mod_right, Nat.mul_mod_left]
  rw [headerOffset, padding, none, if_neg (by decide), Nat.add_zero]

theorem trailer_header {p : Nat} (near : cut.blockStop < p + kHeaderSize)
    (upper : p ≤ cut.blockStop) : headerOffset cut.blockStop = headerOffset p := by
  have none : cut.blockStop % kBlockSize = 0 := by
    rw [blockStop, Nat.add_mod_right, Nat.mul_mod_left]
  rw [cut.blockStop_header]
  obtain ⟨room, same⟩ | ⟨room, same⟩ := headerOffset_cases p <;>
    rw [kBlockSize_eq, kHeaderSize_eq] at * <;> omega

/-- What the next writer leaves when it starts a new block: the torn record, zeros to
the end of its block, and the new chunks. -/
theorem reuse_sealed (dirty : cut.head < F.length) (sealing : 0 < padding F.length)
    {appended : List Bytes} (some : appended ≠ []) :
    ∃ after : List Segment, (∀ s ∈ after, s.Complete) ∧ after.map (·.data) = appended ∧
      Segment.chunks after ≠ [] ∧ ChunksFit cut.blockStop (Segment.chunks after) ∧
      reuse F appended =
        sealed F ++ chunksBytes cut.blockStop (Segment.chunks after) := by
  have length := cut.sealed_length dirty sealing
  obtain ⟨after, complete, rfl, fit, contents⟩ := reuse_segments F appended
  have chunks := Segment.chunks_ne_nil complete (by simpa using some)
  have same : headerOffset cut.blockStop = headerOffset F.length := by
    rw [cut.blockStop_header, headerOffset, length]
  obtain ⟨shifted, fits⟩ := chunks_shift (by omega) same chunks
  refine ⟨after, complete, rfl, chunks, fits.mp fit, ?_⟩
  rw [contents, shifted, ← length, Nat.add_sub_cancel_left, sealed, append_assoc]

theorem sealed_split : sealed F = chunksBytes 0 cut.chunks ++ (sealed F).drop cut.pos := by
  have reached : cut.pos ≤ F.length := cut.reached
  rw [sealed, drop_append_of_le_length reached, ← append_assoc, ← cut.split]

section Completed
variable (dirty : cut.head < F.length) (sealing : 0 < padding F.length)
  (headed : cut.head + kHeaderSize ≤ F.length)
include dirty headed

theorem header_present : ∃ body : Bytes,
    F.drop cut.head = header cut.next.type cut.next.payload ++ body := by
  obtain ⟨-, record⟩ := cut.head_record dirty
  have initial : header cut.next.type cut.next.payload <+: F.drop cut.head :=
    prefix_of_prefix_length_le (prefix_append _ _) record (by
      rw [header_length, length_drop]
      omega)
  obtain ⟨body, same⟩ := initial
  exact ⟨body, same.symm⟩

include sealing

variable
  (matching : checksumMatches ((sealed F).drop cut.head) (lengthField ((sealed F).drop cut.head)) = true)
include matching

/-- The zero trailer completes the torn record to one with a matching checksum. -/
theorem completed_chunk : ∃ payload : Bytes, payload.length = cut.next.payload.length ∧
      (sealed F).drop cut.pos = Chunk.bytes cut.pos ⟨cut.next.type, payload⟩ ++
        List.replicate (cut.blockStop - cut.next.stop cut.pos) 0 := by
  have length := cut.sealed_length dirty sealing
  have stop := cut.stop_le_blockStop
  have short : F.length < cut.next.stop cut.pos := cut.short
  have place : cut.next.stop cut.pos = cut.head + kHeaderSize + cut.next.payload.length := rfl
  have lower : cut.pos ≤ cut.head := Nat.le_add_right _ _
  have reached : cut.pos ≤ F.length := cut.reached
  obtain ⟨body, same⟩ := cut.header_present dirty headed
  have size := congrArg List.length same
  rw [length_drop, length_append, header_length] at size
  have block : (sealed F).drop cut.head =
      header cut.next.type cut.next.payload ++ (body ++ replicate (padding F.length) 0) := by
    rw [sealed, drop_append_of_le_length (Nat.le_of_lt dirty), same, append_assoc]
  rw [block, lengthField_header _ _ (Chunk.payload_small cut.next_fits)] at matching
  have record := physicalRecord_of_checksum (by
    rw [length_append, length_replicate]
    omega) matching
  set whole := body ++ replicate (padding F.length) (0 : UInt8) with wholeEq
  refine ⟨whole.take cut.next.payload.length, ?_, ?_⟩
  · rw [length_take, wholeEq, length_append, length_replicate]
    omega
  · have zeros : whole.drop cut.next.payload.length =
        replicate (cut.blockStop - cut.next.stop cut.pos) 0 := by
      rw [wholeEq, drop_append, drop_of_length_le (by omega), nil_append,
        drop_replicate]
      congr 1
      omega
    rw [sealed, drop_append_of_le_length reached, (cut.head_record dirty).1,
      append_assoc, ← drop_append_of_le_length (Nat.le_of_lt dirty)]
    rw [sealed] at block
    rw [block, record, zeros, Chunk.bytes, append_assoc]

/-- Such a record is read like any other: it ends a record that was never
acknowledged, or it is one more fragment of an unfinished one. -/
theorem records_completed {appended : List Bytes} (more : appended ≠ []) :
    if cut.next.type = .first ∨ cut.next.type = .middle then
      records (reuse F appended) = some (cut.before.map (·.data) ++ appended)
    else ∃ extra : Bytes,
      records (reuse F appended) = some (cut.before.map (·.data) ++ extra :: appended) := by
  obtain ⟨after, complete, rfl, chunks, fit, contents⟩ := cut.reuse_sealed dirty sealing more
  obtain ⟨payload, size, bytes⟩ := cut.completed_chunk dirty sealing headed matching
  obtain ⟨data, spells⟩ := cut.spells.replace payload
  set c : Chunk := ⟨cut.next.type, payload⟩ with cEq
  let ending : Segment := ⟨data, cut.written ++ c :: cut.rest, cut.written ++ [c], spells,
    ⟨cut.rest, by simp⟩⟩
  have short : F.length < cut.next.stop cut.pos := cut.short
  have stop : c.stop cut.pos = cut.next.stop cut.pos := by rw [Chunk.stop, Chunk.stop, size]
  have upper := cut.stop_le_blockStop
  have length := cut.sealed_length dirty sealing
  have near : cut.blockStop < cut.next.stop cut.pos + kHeaderSize := by
    have := padding_lt F.length
    omega
  obtain ⟨shifted, fits⟩ := chunks_shift upper (cut.trailer_header near upper) chunks
  have listed : Segment.chunks (cut.before ++ ending :: after) =
      cut.chunks ++ (c :: Segment.chunks after) := by
    simp [Segment.chunks, ending, Cut.chunks]
  have whole : reuse F (after.map (·.data)) =
      chunksBytes 0 (Segment.chunks (cut.before ++ ending :: after)) := by
    rw [contents, cut.sealed_split, bytes, listed, chunksBytes_append, append_assoc,
      append_assoc, ← shifted, ← stop]
    rfl
  have fitAll : ChunksFit 0 (Segment.chunks (cut.before ++ ending :: after)) := by
    rw [listed, chunksFit_append]
    refine ⟨cut.chunksFit, ⟨?_, cut.next_fits.2⟩, ?_⟩
    · have := cut.next_fits.1
      rwa [← size] at this
    · change ChunksFit (c.stop cut.pos) _
      rw [stop]
      exact fits.mpr fit
  have read := records_segments fitAll
  rw [← whole, filter_append,
    filter_eq_self.mpr fun s mem => decide_eq_true (cut.complete s mem)] at read
  have kept : after.filter (·.Complete) = after :=
    filter_eq_self.mpr fun s mem => decide_eq_true (complete s mem)
  by_cases goes : cut.next.type = .first ∨ cut.next.type = .middle
  · rw [if_pos goes, read]
    have unfinished : ¬ ending.Complete := by
      have rest := cut.spells.goes_on_iff.mp goes
      simpa [Segment.Complete, ending] using rest
    rw [filter_cons_of_neg (by simpa using unfinished), kept, map_append]
  · rw [if_neg goes, read]
    have finished : ending.Complete := by
      have rest : cut.rest = [] := by
        by_contra rest
        exact goes (cut.spells.goes_on_iff.mpr rest)
      simp [Segment.Complete, ending, rest]
    refine ⟨data, ?_⟩
    rw [filter_cons_of_pos (by simpa using finished), kept, map_append, map_cons]

end Completed

theorem blockTail_sealed (rest : Bytes) (length : F.length + padding F.length = cut.blockStop) :
    blockEnd (sealed F ++ rest) cut.head = cut.blockStop ∧
      blockTail (sealed F ++ rest) cut.head = (sealed F).drop cut.head := by
  have size : (sealed F).length = cut.blockStop := by
    rw [sealed, length_append, length_replicate, length]
  have stop : blockEnd (sealed F ++ rest) cut.head = cut.blockStop := by
    rw [blockEnd, length_append, size]
    exact Nat.min_eq_right (Nat.le_add_right _ _)
  exact ⟨stop, by rw [blockTail, stop, ← size, take_left]⟩

theorem reads_to_pos {G : Bytes} (placed : chunksBytes 0 cut.chunks <+: G) :
    ∃ (outer inner : Nat) (r : Reader) (a : Assembly), Reading G cut.pos outer inner r ∧
      records G = (readFrom outer inner r a).map fun (rest, _) =>
        cut.before.map (·.data) ++ rest.map (·.1) := by
  have listed := cut.chunks_eq []
  rw [show Segment.chunks [] = [] from rfl, append_nil] at listed
  have here := At.new G
  have reading : Reading G 0 G.length (G.length + 1) (Reader.new ⟨G, none⟩ true 0) :=
    ⟨here, by omega, by omega⟩
  obtain ⟨outer, inner, r, a, reading', result, -⟩ := readFrom_pass {} reading
    (listed ▸ cut.chunksFit) (listed ▸ placed)
  rw [listed] at reading'
  refine ⟨outer, inner, r, a, reading', ?_⟩
  have kept : (cut.before ++ [cut.unfinished]).filter (·.Complete) = cut.before := by
    rw [filter_append, filter_cons_of_neg (by simpa using cut.not_complete),
      filter_eq_self.mpr fun s mem => decide_eq_true (cut.complete s mem), filter_nil,
      append_nil]
  have names : (entries (Segment.placed 0 (cut.before ++ [cut.unfinished]))).map (·.1) =
      cut.before.map (·.data) := by
    simp only [entries, map_map, comp_def]
    rw [Segment.placed_data, kept]
  rw [records, readAll, here.unread, readAllLoop_eq here]
  change (readFrom G.length (G.length + 1) _ {}).map _ = _
  rw [result, prepend, Option.map_map]
  congr 1
  funext answer
  simp only [comp_apply, map_append, names]

/-- The zero trailer completes the torn record to one that the reader rejects: the
rest of its block is passed over. -/
theorem records_rejected (dirty : cut.head < F.length) (sealing : 0 < padding F.length)
    (rejected : F.length < cut.head + kHeaderSize ∨
      checksumMatches ((sealed F).drop cut.head) (lengthField ((sealed F).drop cut.head)) = false)
    {appended : List Bytes} (more : appended ≠ []) :
    records (reuse F appended) = some (cut.before.map (·.data) ++ appended) := by
  obtain ⟨after, complete, rfl, chunks, fit, contents⟩ := cut.reuse_sealed dirty sealing more
  have length := cut.sealed_length dirty sealing
  obtain ⟨stop, tail⟩ := cut.blockTail_sealed (chunksBytes cut.blockStop (Segment.chunks after)) length
  rw [contents]
  set G := sealed F ++ chunksBytes cut.blockStop (Segment.chunks after) with GEq
  have size : cut.blockStop ≤ G.length := by
    rw [GEq, length_append, sealed, length_append, length_replicate, length]
    exact Nat.le_add_right _ _
  have placed : chunksBytes 0 cut.chunks <+: G := by
    rw [GEq, cut.sealed_split, append_assoc]
    exact prefix_append _ _
  obtain ⟨outer, inner, r, a, reading, result⟩ := cut.reads_to_pos placed
  have outcome := readPhysicalRecord_outcome reading.here a.fragment
    (Nat.le_trans cut.head_room size)
  generalize read : r.readPhysicalRecord a.fragment = answer at outcome
  have onward : ∀ {p inner' : Nat} {r' : Reader} (a' : Assembly), Reading G p outer inner' r' →
      F.length < p → p ≤ cut.blockStop → readFrom outer inner r a = readFrom outer inner' r' a' →
      records G = some (cut.before.map (·.data) ++ after.map (·.data)) := by
    intro p inner' r' a' reading' beyond upper same
    have near : cut.blockStop < p + kHeaderSize := by
      have := padding_lt F.length
      omega
    obtain ⟨shifted, fits⟩ := chunks_shift upper (cut.trailer_header near upper) chunks
    have zeros : (sealed F).drop p = replicate (cut.blockStop - p) 0 := by
      rw [sealed, drop_append, drop_of_length_le (by omega), nil_append,
        drop_replicate]
      congr 1
      omega
    have whole : G.drop p = chunksBytes p (Segment.chunks after) := by
      rw [GEq, drop_append_of_le_length, zeros, shifted]
      rw [sealed, length_append, length_replicate]
      omega
    obtain ⟨last, read', -⟩ := readFrom_segments a' reading' (fits.mpr fit)
      (whole ▸ prefix_rfl)
    have inside : ∀ q ∈ Segment.placed p after, q.stop ≤ G.length := by
      intro q mem
      have stop := Segment.placed_stop_le mem
      have total := congrArg List.length whole
      rw [length_drop, chunksBytes_length] at total
      have lower := chunksStop_lower p (Segment.chunks after)
      have := Nat.le_trans reading'.here.lower reading'.here.upper
      omega
    rw [result, same, read', within_all inside]
    simp only [Option.map_some, entries, map_map, comp_def]
    rw [Segment.placed_data,
      filter_eq_self.mpr fun s mem => decide_eq_true (complete s mem)]
  cases outcome with
  | fragment valid behind =>
    change Valid (blockTail G cut.head) at valid
    change At G (cut.head + (kHeaderSize + lengthField (blockTail G cut.head))) _ at behind
    obtain unheaded | mismatch := rejected
    · have room := valid.room
      rw [blockTail_length, stop] at room
      have zero : typeOfChar ((blockTail G cut.head).getD 6 0) = zero.code := by
        have size : (F.drop cut.head).length ≤ 6 := by
          rw [length_drop]
          rw [kHeaderSize_eq] at unheaded
          omega
        rw [tail, sealed, drop_append_of_le_length (Nat.le_of_lt dirty),
          getD_append_right _ _ _ _ size, getD_eq_getElem?_getD, getElem?_replicate]
        split <;> rfl
      have lower : cut.pos ≤ cut.head := Nat.le_add_right _ _
      have header := cut.head_room
      obtain ⟨inner', r', a', reading', same⟩ := readFrom_skip reading read behind
        (by rw [kHeaderSize_eq]; omega) (.inl zero)
      exact onward a' reading' (by omega) (by omega) same
    · have matching := valid.matching
      rw [tail, mismatch] at matching
      contradiction
  | cutOff invalid last synced => exact absurd size (Nat.not_le.mpr last)
  | dropped invalid behind =>
    have forward : cut.pos < blockEnd G (headerOffset cut.pos) :=
      headerOffset_lt_blockEnd (Nat.le_trans cut.head_room size)
    obtain ⟨inner', r', a', reading', same⟩ := readFrom_skip reading read behind forward (.inr rfl)
    rw [show blockEnd G (headerOffset cut.pos) = cut.blockStop from stop] at reading'
    exact onward a' reading' (by omega) (Nat.le_refl _) same

end Cut

theorem header_empty : header .full [] = [5, 43, 40, 67, 0, 0, 1] := by decide

theorem Writer.reuse_empty {F : Bytes} (room : padding F.length = 0) :
    reuse F [[]] = F ++ header .full [] := by
  have less : F.length % kBlockSize < kBlockSize := Nat.mod_lt _ (by decide)
  have large : ¬ kBlockSize - F.length % kBlockSize < kHeaderSize := by
    intro short
    rw [padding, if_pos short] at room
    omega
  have filled : (reopen ⟨F, []⟩ F.length).fillTrailer = reopen ⟨F, []⟩ F.length := by
    rw [fillTrailer, reopen, if_neg large]
  have fragment : ∀ avail : Nat, (if 0 < avail then 0 else avail) = 0 := by
    intro avail
    split <;> omega
  simp only [reuse, addRecords, addRecord, addRecordLoop, filled,
    length_nil, fragment]
  simp [fragmentType, emitPhysicalRecord, reopen, WritableFile.append]

theorem lengthField_ge (block : Bytes) : (block.getD 4 0).toNat ≤ lengthField block ∧
      (block.getD 5 0).toNat <<< 8 ≤ lengthField block := by
  rw [lengthField]
  exact ⟨Nat.left_le_or, Nat.right_le_or⟩

theorem lengthField_torn {torn : Bytes} (some : 0 < torn.length) (few : torn.length ≤ 5) :
    torn.length < lengthField (torn ++ header .full []) := by
  rw [header_empty]
  obtain ⟨low, high⟩ := lengthField_ge (torn ++ [5, 43, 40, 67, 0, 0, 1])
  rw [getD_append_right _ _ _ _ few] at high
  by_cases one : torn.length = 1
  · rw [getD_append_right _ _ _ _ (by omega), one] at low
    have low' : 67 ≤ lengthField (torn ++ [5, 43, 40, 67, 0, 0, 1]) := low
    omega
  · refine Nat.lt_of_lt_of_le ?_ high
    generalize torn.length = t at *
    interval_cases t <;> first | contradiction | decide

namespace Cut
variable {F : Bytes} (cut : Cut F)

/-- The torn record swallows the bare header of an empty record. -/
theorem records_torn (dirty : cut.head < F.length) (room : padding F.length = 0) :
    records (reuse F [[]]) ≠ some (cut.before.map (·.data) ++ [[]]) := by
  rw [reuse_empty room]
  set G := F ++ header .full [] with GEq
  have size : G.length = F.length + kHeaderSize := by rw [GEq, length_append, header_length]
  have placed : chunksBytes 0 cut.chunks <+: G := cut.placed.trans (prefix_append _ _)
  have lower : cut.pos ≤ cut.head := Nat.le_add_right _ _
  have short : F.length < cut.head + kHeaderSize + cut.next.payload.length := cut.short
  have inside : G.length ≤ cut.blockStop := by
    have upper := Nat.lt_of_lt_of_le cut.short cut.stop_le_blockStop
    rw [size]
    rw [blockStop] at upper ⊢
    obtain ⟨free, -⟩ | ⟨-, same⟩ := headerOffset_cases F.length
    · rw [kBlockSize_eq, kHeaderSize_eq] at *
      omega
    · rw [headerOffset, room, kBlockSize_eq] at same
      omega
  have ends : blockEnd G cut.head = G.length := Nat.min_eq_left inside
  have tail : blockTail G cut.head = F.drop cut.head ++ header .full [] := by
    rw [blockTail, ends, take_length, GEq, drop_append_of_le_length (Nat.le_of_lt dirty)]
  have length : (blockTail G cut.head).length = F.length - cut.head + kHeaderSize := by
    rw [blockTail_length, ends]
    omega
  obtain ⟨outer, inner, r, a, reading, result⟩ := cut.reads_to_pos placed
  suffices nothing : ∃ (found : List (Bytes × Nat)) (last : Reader),
      readFrom outer inner r a = some (found, last) ∧ found.map (·.1) ≠ [[]] by
    obtain ⟨found, last, read, no⟩ := nothing
    rw [result, read]
    simpa using no
  have outcome := readPhysicalRecord_outcome reading.here a.fragment
    (show cut.head + kHeaderSize ≤ G.length by omega)
  generalize read : r.readPhysicalRecord a.fragment = answer at outcome
  cases outcome with
  | cutOff invalid last synced =>
    obtain ⟨n, rfl⟩ := reading.pred
    exact ⟨[], _, readFrom_none (round_eof read), by simp⟩
  | dropped invalid behind =>
    have forward : cut.pos < blockEnd G (headerOffset cut.pos) :=
      headerOffset_lt_blockEnd (show cut.head + kHeaderSize ≤ G.length by omega)
    obtain ⟨inner', r', a', reading', same⟩ := readFrom_skip reading read behind forward (.inr rfl)
    obtain ⟨last, done, -⟩ := readFrom_end a' reading' (by
      change G.length < headerOffset (blockEnd G cut.head) + kHeaderSize
      rw [ends, headerOffset, kHeaderSize_eq]
      omega)
    exact ⟨[], last, same.trans done, by simp⟩
  | fragment valid behind =>
    change Valid (blockTail G cut.head) at valid
    change At G (cut.head + (kHeaderSize + lengthField (blockTail G cut.head))) _ at behind
    have fits := valid.room
    rw [length] at fits
    by_cases headed : cut.head + kHeaderSize ≤ F.length
    · -- the true header: it claims at least one byte that the new header has to supply
      obtain ⟨body, same⟩ := cut.header_present dirty headed
      have claimed : lengthField (blockTail G cut.head) = cut.next.payload.length := by
        rw [tail, same, append_assoc]
        exact lengthField_header _ _ (Chunk.payload_small cut.next_fits)
      obtain ⟨data, offset, outer', inner', r', reading', final, returns⟩ |
        ⟨inner', r', a', reading', goes⟩ | ⟨r', stops⟩ :=
        readFrom_round reading read behind (by rw [kHeaderSize_eq]; omega)
      · obtain ⟨last, done, -⟩ := readFrom_end {} reading' (by
          rw [headerOffset]
          omega)
        refine ⟨[(data, offset)], last, by rw [returns, done]; rfl, ?_⟩
        have size := final.length_le
        change (((blockTail G cut.head).drop kHeaderSize).take
          (lengthField (blockTail G cut.head))).length ≤ _ at size
        rw [length_take, length_drop, length] at size
        intro empty
        obtain rfl : data = [] := by simpa using empty
        rw [length_nil] at size
        omega
      · obtain ⟨last, done, -⟩ := readFrom_end a' reading' (by
          rw [headerOffset]
          omega)
        exact ⟨[], last, goes.trans done, by simp⟩
      · exact ⟨[], r', stops, by simp⟩
    · by_cases six : F.length - cut.head = 6
      · -- the type byte is the first byte of the new header, the code of the end of the file
        have type : typeOfChar ((blockTail G cut.head).getD 6 0) = kEof := by
          rw [tail, getD_append_right _ _ _ _ (by rw [length_drop]; omega),
            length_drop, six, header_empty]
          rfl
        change r.readPhysicalRecord a.fragment =
          (typeOfChar ((blockTail G cut.head).getD 6 0), _, _) at read
        rw [type] at read
        obtain ⟨n, rfl⟩ := reading.pred
        exact ⟨[], _, readFrom_none (round_eof read), by simp⟩
      · have less := @lengthField_torn (F.drop cut.head)
          (by rw [length_drop]; omega) (by rw [length_drop]; rw [kHeaderSize_eq] at headed; omega)
        rw [← tail, length_drop] at less
        omega

end Cut
/-- Follows the length fields from `pos` on over the complete physical records. -/
def walk : Nat → Bytes → Nat → Nat
  | 0, _, pos => pos
  | fuel + 1, F, pos =>
    let stop := headerOffset pos + (kHeaderSize +
      lengthField (F.drop (headerOffset pos)))
    if stop ≤ F.length then walk fuel F stop else pos

/-- End of the last complete physical record. -/
def lastEnd (F : Bytes) : Nat := walk F.length F 0

theorem walk_chunks {F : Bytes} {pos : Nat} {chunks : List Chunk} (fuel : Nat)
    (fit : ChunksFit pos chunks) (placed : chunksBytes pos chunks <+: F.drop pos) :
    walk (chunks.length + fuel) F pos = walk fuel F (chunksStop pos chunks) := by
  induction chunks generalizing pos with
  | nil => rw [length_nil, Nat.zero_add, chunksStop]
  | cons c rest ih =>
    obtain ⟨inside, after⟩ := placed_cons placed
    obtain ⟨tail, same⟩ := Chunk.record_at inside
    have claimed : lengthField (F.drop (headerOffset pos)) = c.payload.length := by
      rw [← same, physicalRecord, append_assoc]
      exact lengthField_header _ _ (Chunk.payload_small fit.1)
    have stop : headerOffset pos + (kHeaderSize + c.payload.length) = c.stop pos := by
      rw [Chunk.stop, Nat.add_assoc]
    have within : c.stop pos ≤ F.length := by
      have size := congrArg List.length same
      rw [length_append, physicalRecord_length, length_drop] at size
      rw [← stop]
      rw [kHeaderSize_eq] at *
      omega
    rw [length_cons, Nat.add_right_comm, walk, claimed, stop, if_pos within, ih fit.2 after,
      chunksStop]

/-- The walk stops where the next chunk is missing or torn. -/
theorem Cut.lastEnd_eq {F : Bytes} (cut : Cut F) : lastEnd F = cut.pos := by
  have count : cut.chunks.length ≤ F.length := by
    have many := chunks_length_le 0 cut.chunks
    have reached : chunksStop 0 cut.chunks ≤ F.length := cut.reached
    omega
  have short : F.length < cut.head + kHeaderSize + cut.next.payload.length := cut.short
  have passed := @walk_chunks F 0 cut.chunks (F.length - cut.chunks.length) cut.chunksFit cut.placed
  rw [Nat.add_sub_cancel' count] at passed
  rw [lastEnd, passed]
  change walk _ F cut.pos = cut.pos
  cases F.length - cut.chunks.length with
  | zero => rfl
  | succ n =>
    rw [walk, if_neg]
    change ¬ cut.head + (kHeaderSize + lengthField (F.drop cut.head)) ≤ F.length
    intro inside
    have headed : cut.head + kHeaderSize ≤ F.length := by omega
    have dirty : cut.head < F.length := by
      rw [kHeaderSize_eq] at headed
      omega
    obtain ⟨body, same⟩ := cut.header_present dirty headed
    rw [same, lengthField_header _ _ (Chunk.payload_small cut.next_fits)] at inside
    omega

/-- A log can be appended to: it ends where a physical record does (or inside the
zeros behind it), or it ends so close to its block's end that the next writer fills
the block up, and what then stands at the torn header is no end of a record. -/
def Resumable (F : Bytes) : Prop :=
  let head := headerOffset (lastEnd F)
  let block := (Cut.sealed F).drop head
  F.length ≤ head ∨
    0 < padding F.length ∧
      (F.length < head + kHeaderSize ∨
        typeOfChar (block.getD 6 0) = first.code ∨
        typeOfChar (block.getD 6 0) = middle.code ∨
        checksumMatches block (lengthField block) = false)

theorem Cut.resumes_iff {F : Bytes} (cut : Cut F) : (∀ appended : List Bytes,
        records (reuse F appended) = (records F).map (· ++ appended)) ↔ Resumable F := by
  simp only [Resumable, cut.lastEnd_eq, cut.head_eq, cut.records_eq, Option.map_some]
  by_cases dirty : cut.head < F.length
  swap
  · exact ⟨fun _ => .inl (Nat.le_of_not_lt dirty),
      fun _ => cut.resumes_clean (Nat.le_of_not_lt dirty)⟩
  rw [or_iff_right (Nat.not_le.mpr dirty)]
  by_cases sealing : 0 < padding F.length
  swap
  · refine ⟨fun all => absurd (all [[]]) ?_, fun resumable => absurd resumable.1 sealing⟩
    exact cut.records_torn dirty (by omega)
  have rejects : (F.length < cut.head + kHeaderSize ∨
      checksumMatches ((Cut.sealed F).drop cut.head)
        (lengthField ((Cut.sealed F).drop cut.head)) = false) →
      ∀ appended : List Bytes, records (reuse F appended) =
        some (cut.before.map (·.data) ++ appended) := by
    intro rejected appended
    by_cases none : appended = []
    · rw [none, append_nil]
      exact cut.resumes_nil
    · exact cut.records_rejected dirty sealing rejected none
  by_cases headed : cut.head + kHeaderSize ≤ F.length
  swap
  · exact ⟨fun _ => ⟨sealing, .inl (Nat.lt_of_not_le headed)⟩,
      fun _ => rejects (.inl (Nat.lt_of_not_le headed))⟩
  obtain ⟨body, same⟩ := cut.header_present dirty headed
  have type : typeOfChar (((Cut.sealed F).drop cut.head).getD 6 0) = cut.next.type.code := by
    rw [Cut.sealed, drop_append_of_le_length (Nat.le_of_lt dirty), same, append_assoc]
    exact typeField_header _ _ _
  by_cases matching : checksumMatches ((Cut.sealed F).drop cut.head)
      (lengthField ((Cut.sealed F).drop cut.head)) = true
  swap
  · have mismatch := Bool.eq_false_iff.mpr matching
    exact ⟨fun _ => ⟨sealing, .inr (.inr (.inr mismatch))⟩, fun _ => rejects (.inr mismatch)⟩
  have goes : cut.next.type = .first ∨ cut.next.type = .middle ↔
      typeOfChar (((Cut.sealed F).drop cut.head).getD 6 0) = first.code ∨
        typeOfChar (((Cut.sealed F).drop cut.head).getD 6 0) = middle.code := by
    rw [type]
    cases cut.next.type <;> decide
  by_cases unended : cut.next.type = .first ∨ cut.next.type = .middle
  · refine ⟨fun _ => ⟨sealing, .inr ((goes.mp unended).imp id .inl)⟩, fun _ appended => ?_⟩
    by_cases none : appended = []
    · rw [none, append_nil]
      exact cut.resumes_nil
    · have read := cut.records_completed dirty sealing headed matching none
      rwa [if_pos unended] at read
  · constructor
    · intro all
      have read := cut.records_completed dirty sealing headed matching (cons_ne_nil [] [])
      rw [if_neg unended, all [[]]] at read
      obtain ⟨extra, read⟩ := read
      simp at read
    · rintro ⟨-, unheaded | first | middle | mismatch⟩
      · omega
      · exact absurd (goes.mpr (.inl first)) unended
      · exact absurd (goes.mpr (.inr middle)) unended
      · rw [matching] at mismatch
        contradiction

/-- A crashed log can be appended to exactly when it is resumable: then, and only
then, every list of further records is read back behind the records it held. -/
theorem reuse_iff_resumable (first : List Bytes) (later : List (List Bytes)) (n : Nat) :
    let F := (writeLog first later).2.take n
    (∀ appended : List Bytes,
      records (reuse F appended) = (records F).map (· ++ appended)) ↔ Resumable F := by
  obtain ⟨-, dest, segments, contents, grew, -⟩ := writeLog_grew first later
  have whole : (writeLog first later).2 = chunksBytes 0 (Segment.chunks segments) := by
    rw [← contents, grew.contents]
    rfl
  obtain ⟨cut⟩ := Cut.of_segments grew.complete grew.fit
    (whole ▸ take_prefix n _ : (writeLog first later).2.take n <+: _)
  exact cut.resumes_iff

/-- Three bytes of the only record survived the crash. The record appended behind
them is never read. -/
theorem reuse_after_torn_header :
    let F := (writeLog [[97]] []).2.take 3
    records F = some [] ∧ records (reuse F [[98]]) = some [] := by
  decide +kernel

end TalusDB.Log
