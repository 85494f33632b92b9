import TalusDB.Log.Layout
import TalusDB.Log.Writer

/-! The file a log writer leaves behind is a sequence of chunks, as long as no
`Append` left a hole: wrote less than it was given while the block offset
advanced by all of it. -/
namespace TalusDB.Log
namespace Writer
open List Chunk

theorem append_spec (file : WritableFile) (data : Bytes) :
    ∃ kept : Bytes, (file.append data).2.contents = file.contents ++ kept ∧ kept <+: data ∧
      ((file.append data).1 = true → kept = data) := by
  unfold WritableFile.append
  split
  · exact ⟨data, rfl, prefix_rfl, fun _ => rfl⟩
  · exact ⟨data, rfl, prefix_rfl, fun _ => rfl⟩
  · rename_i n rest scripted
    exact ⟨data.take n, rfl, take_prefix n data, nofun⟩

/-- Part of the zero trailer is missing from the file although the block offset
accounts for it. -/
def trailerTears (w : Writer) : Bool :=
  decide (w.fillTrailer.dest.contents.length ≠
    w.dest.contents.length +
      if kBlockSize - w.blockOffset < kHeaderSize then kBlockSize - w.blockOffset else 0)

/-- Part of this physical record is missing although the block offset accounts
for it. -/
def recordTears (w : Writer) (type : RecordType) (payload : Bytes) : Bool :=
  decide ((w.emitPhysicalRecord type payload).2.dest.contents.length ≠
    w.dest.contents.length + (kHeaderSize + payload.length))

/-- Follows `addRecordLoop` and asks whether `test` holds in one of its rounds. -/
def anyRound (test : Writer → RecordType → Bytes → Bool) : Nat → Writer → Bytes → Bool → Bool
  | 0, _, _, _ => false
  | fuel + 1, w, data, begin =>
    let avail := kBlockSize - w.fillTrailer.blockOffset - kHeaderSize
    let fragmentLength := if data.length < avail then data.length else avail
    let type := fragmentType begin (decide (data.length = fragmentLength))
    test w type (data.take fragmentLength) ||
    let (ok, w) := w.fillTrailer.emitPhysicalRecord type (data.take fragmentLength)
    ok && decide (0 < data.length - fragmentLength) &&
      anyRound test fuel w (data.drop fragmentLength) false

/-- Some `Append` of a zero trailer in this `AddRecord` call leaves a hole. -/
def losesTrailer (w : Writer) (data : Bytes) : Bool :=
  anyRound (fun w _ _ => w.trailerTears) (data.length + 2) w data true

/-- Some `Append` of a header or a payload in this `AddRecord` call leaves a hole. -/
def losesRecord (w : Writer) (data : Bytes) : Bool :=
  anyRound (fun w type payload => w.fillTrailer.recordTears type payload) (data.length + 2)
    w data true

/-- The physical record of this round is `c`, at this offset of the file. -/
def emitsAt (offset : Nat) (c : Chunk) (w : Writer) (type : RecordType) (payload : Bytes) : Bool :=
  decide (w.fillTrailer.dest.contents.length = offset ∧ c = ⟨type, payload⟩)

/-- The block offset agrees with the length of the file. -/
structure Aligned (w : Writer) : Prop where
  bound : w.blockOffset ≤ kBlockSize
  agrees : w.blockOffset % kBlockSize = w.dest.contents.length % kBlockSize

theorem Aligned.new (faults : List (Option Nat)) : Aligned (Writer.new ⟨[], faults⟩) :=
  ⟨Nat.zero_le _, rfl⟩

theorem Aligned.reopen (dest : WritableFile) :
    Aligned (Writer.reopen dest dest.contents.length) :=
  ⟨Nat.le_of_lt (Nat.mod_lt _ (by decide)), Nat.mod_mod _ _⟩

theorem Aligned.padding {w : Writer} (aligned : Aligned w) :
    padding w.dest.contents.length =
      if kBlockSize - w.blockOffset < kHeaderSize then kBlockSize - w.blockOffset else 0 := by
  obtain ⟨bound, agrees⟩ := aligned
  rw [Log.padding, ← agrees]
  by_cases full : w.blockOffset = kBlockSize
  · rw [full, Nat.mod_self, Nat.sub_self]
    rfl
  · rw [Nat.mod_eq_of_lt (Nat.lt_of_le_of_ne bound full)]

theorem fillTrailer_whole {w : Writer} (aligned : Aligned w) (whole : w.trailerTears = false) :
    w.fillTrailer.dest.contents =
        w.dest.contents ++ List.replicate (Log.padding w.dest.contents.length) 0 ∧
      w.fillTrailer.blockOffset = headerOffset w.dest.contents.length % kBlockSize ∧
      w.fillTrailer.blockOffset + kHeaderSize ≤ kBlockSize := by
  have pad := aligned.padding
  obtain ⟨bound, agrees⟩ := aligned
  simp only [trailerTears, ← pad, decide_eq_false_iff_not, not_not] at whole
  have offset : headerOffset w.dest.contents.length % kBlockSize =
      if kBlockSize - w.blockOffset < kHeaderSize then 0 else w.blockOffset := by
    rw [headerOffset, pad]
    rw [kBlockSize_eq] at bound agrees ⊢
    rw [kHeaderSize_eq]
    split <;> omega
  rw [offset]
  by_cases short : kBlockSize - w.blockOffset < kHeaderSize
  · rw [if_pos short] at pad
    simp only [fillTrailer, if_pos short] at whole ⊢
    refine ⟨?_, trivial, by decide⟩
    by_cases some : 0 < kBlockSize - w.blockOffset
    · simp only [if_pos some, pad] at whole ⊢
      obtain ⟨kept, contents, initial, -⟩ := append_spec w.dest
        (List.replicate (kBlockSize - w.blockOffset) 0)
      rw [contents, length_append, Nat.add_left_cancel_iff] at whole
      rw [contents, initial.eq_of_length (by simpa using whole)]
    · have none : kBlockSize - w.blockOffset = 0 := by omega
      simp [pad, none]
  · rw [if_neg short] at pad
    simp only [fillTrailer, if_neg short, pad, replicate_zero, append_nil]
    exact ⟨trivial, trivial, by omega⟩

theorem emitPhysicalRecord_offset (w : Writer) (type : RecordType) (payload : Bytes) :
    (w.emitPhysicalRecord type payload).2.blockOffset =
      w.blockOffset + kHeaderSize + payload.length := rfl

theorem emitPhysicalRecord_spec (w : Writer) (type : RecordType) (payload : Bytes) :
    ∃ kept : Bytes,
      (w.emitPhysicalRecord type payload).2.dest.contents = w.dest.contents ++ kept ∧
      kept <+: physicalRecord type payload ∧
      ((w.emitPhysicalRecord type payload).1 = true → w.recordTears type payload = false) ∧
      (w.recordTears type payload = false → kept = physicalRecord type payload) := by
  suffices written : ∃ kept : Bytes,
      (w.emitPhysicalRecord type payload).2.dest.contents = w.dest.contents ++ kept ∧
      kept <+: physicalRecord type payload ∧
      ((w.emitPhysicalRecord type payload).1 = true → kept = physicalRecord type payload) by
    obtain ⟨kept, contents, initial, all⟩ := written
    refine ⟨kept, contents, initial, ?_, ?_⟩
    · intro ok
      simp [recordTears, contents, all ok]
    · intro whole
      simp only [recordTears, contents, decide_eq_false_iff_not, not_not, length_append,
        Nat.add_left_cancel_iff] at whole
      exact initial.eq_of_length (by simpa using whole)
  obtain ⟨head, contents, initial, all⟩ := append_spec w.dest (header type payload)
  simp only [emitPhysicalRecord]
  by_cases ok : (w.dest.append (header type payload)).1 = true
  · obtain ⟨body, contents', initial', all'⟩ :=
      append_spec (w.dest.append (header type payload)).2 payload
    obtain rfl := all ok
    refine ⟨header type payload ++ body, ?_, (prefix_append_right_inj _).mpr initial', ?_⟩
    · simp only [ok, if_true, contents', contents, append_assoc]
    · simp only [ok, if_true]
      intro written
      rw [all' written, physicalRecord]
  · refine ⟨head, ?_, initial.trans (prefix_append _ _), ?_⟩
    · simp only [ok, Bool.false_eq_true, if_false, contents]
    · simp [ok]

theorem fragmentType_ne_zero (begin finish : Bool) : fragmentType begin finish ≠ .zero := by
  cases begin <;> cases finish <;> decide

theorem fragment_spells {begin : Bool} {data : Bytes} {n : Nat} {chunks : List Chunk}
    (tail : Spells false (data.drop n) chunks) :
    Spells begin data (⟨fragmentType begin false, data.take n⟩ :: chunks) := by
  have split := take_append_drop n data
  cases begin with
  | true => simpa [fragmentType, split] using Spells.first (data.take n) tail
  | false => simpa [fragmentType, split] using Spells.middle (data.take n) tail

theorem final_spells (begin : Bool) (data : Bytes) :
    Spells begin data [⟨fragmentType begin true, data⟩] := by
  cases begin with
  | true => exact .full data
  | false => exact .last data

theorem fillTrailer_room {w : Writer} (bound : w.blockOffset ≤ kBlockSize) :
    w.fillTrailer.blockOffset + kHeaderSize ≤ kBlockSize := by
  by_cases short : kBlockSize - w.blockOffset < kHeaderSize
  · simp only [fillTrailer, if_pos short]
    decide
  · simp only [fillTrailer, if_neg short]
    omega

/-- Rounds of `addRecordLoop` still to come: a block with room for a bare header
takes a fragment without payload. -/
def rounds (w : Writer) (data : Bytes) : Nat :=
  data.length + 1 + if w.fillTrailer.blockOffset + kHeaderSize = kBlockSize then 1 else 0

theorem rounds_next {w : Writer} {data : Bytes} {n : Nat} (type : RecordType)
    (bound : w.blockOffset ≤ kBlockSize)
    (filled : n = kBlockSize - w.fillTrailer.blockOffset - kHeaderSize) (more : n < data.length) :
    rounds (w.fillTrailer.emitPhysicalRecord type (data.take n)).2 (data.drop n) <
      rounds w data := by
  have room := fillTrailer_room bound
  have offset := emitPhysicalRecord_offset w.fillTrailer type (data.take n)
  rw [length_take, Nat.min_eq_left (Nat.le_of_lt more)] at offset
  have boundary : (w.fillTrailer.emitPhysicalRecord type (data.take n)).2.fillTrailer.blockOffset =
      0 := by
    rw [fillTrailer, offset, if_pos (by rw [kHeaderSize_eq] at *; omega)]
  rw [rounds, rounds, boundary, if_neg (by decide), length_drop]
  by_cases exhausted : w.fillTrailer.blockOffset + kHeaderSize = kBlockSize
  · rw [if_pos exhausted]
    omega
  · rw [if_neg exhausted]
    omega

/-- One round of `addRecordLoop` whose zero trailer left no hole appends one chunk,
or the first bytes of one. -/
theorem round_spec {w : Writer} (aligned : Aligned w) (type : RecordType) (payload : Bytes)
    (typed : type ≠ .zero)
    (fits : w.fillTrailer.blockOffset + kHeaderSize + payload.length ≤ kBlockSize)
    (trailer : w.trailerTears = false) :
    let emitted := w.fillTrailer.emitPhysicalRecord type payload
    let c : Chunk := ⟨type, payload⟩
    ∃ kept : Bytes, emitted.2.dest.contents = w.dest.contents ++ kept ∧
      kept <+: c.bytes w.dest.contents.length ∧ c.Fits w.dest.contents.length ∧
      (emitted.1 = true → w.fillTrailer.recordTears type payload = false) ∧
      (w.fillTrailer.recordTears type payload = false →
        kept = c.bytes w.dest.contents.length ∧ Aligned emitted.2) := by
  intro emitted c
  obtain ⟨contents, offset, room⟩ := fillTrailer_whole aligned trailer
  obtain ⟨kept, written, initial, succeeds, all⟩ :=
    emitPhysicalRecord_spec w.fillTrailer type payload
  refine ⟨List.replicate (Log.padding w.dest.contents.length) 0 ++ kept, ?_,
    (prefix_append_right_inj _).mpr initial, ⟨by rw [← offset]; exact fits, typed⟩, succeeds,
    fun whole => ⟨by rw [all whole, bytes], fits, ?_⟩⟩
  · rw [written, contents, append_assoc]
  · rw [written, contents, all whole, emitPhysicalRecord_offset, offset, Nat.add_assoc,
      Nat.mod_add_mod, headerOffset]
    simp [Nat.add_assoc]

/-- A call whose zero trailers leave no hole extends the file by the first bytes of
some chunks of its record. They are all there unless a record append leaves a
hole, and they are the whole record when the call returns OK. -/
theorem addRecordLoop_layout {fuel : Nat} {w : Writer} {data : Bytes} {begin : Bool}
    (aligned : Aligned w) (enough : rounds w data ≤ fuel)
    (trailers : anyRound (fun w _ _ => w.trailerTears) fuel w data begin = false) :
    let lost := anyRound (fun w type payload => w.fillTrailer.recordTears type payload)
      fuel w data begin
    let added := addRecordLoop fuel w data begin
    ∃ (spelled written : List Chunk) (kept : Bytes), Spells begin data spelled ∧
      written <+: spelled ∧ ChunksFit w.dest.contents.length written ∧
      (∀ p ∈ positioned w.dest.contents.length written,
        anyRound (emitsAt p.1 p.2) fuel w data begin = true) ∧
      added.2.dest.contents = w.dest.contents ++ kept ∧
      kept <+: chunksBytes w.dest.contents.length written ∧
      (lost = false → kept = chunksBytes w.dest.contents.length written ∧ Aligned added.2) ∧
      (added.1 = true → lost = false ∧ written = spelled) := by
  induction fuel generalizing w data begin with
  | zero => simp [rounds] at enough
  | succ fuel ih =>
    simp only [anyRound, Bool.or_eq_false_iff] at trailers ⊢
    obtain ⟨trailer, rest⟩ := trailers
    have room := fillTrailer_room aligned.bound
    simp only [addRecordLoop]
    set avail := kBlockSize - w.fillTrailer.blockOffset - kHeaderSize with availEq
    set n := if data.length < avail then data.length else avail with nEq
    have bound : n ≤ avail ∧ n ≤ data.length ∧ (n = data.length ∨ n = avail) := by
      rw [nEq]
      split <;> omega
    set finish := decide (data.length = n) with finishEq
    have fits : w.fillTrailer.blockOffset + kHeaderSize + (data.take n).length ≤ kBlockSize := by
      rw [length_take]
      omega
    obtain ⟨kept, contents, initial, chunkFits, succeeds, all⟩ :=
      round_spec aligned (fragmentType begin finish) (data.take n) (fragmentType_ne_zero _ _) fits
        trailer
    set c : Chunk := ⟨fragmentType begin finish, data.take n⟩ with cEq
    have here : emitsAt (headerOffset w.dest.contents.length) c w
        (fragmentType begin finish) (data.take n) = true := by
      rw [emitsAt, (fillTrailer_whole aligned trailer).1, length_append,
        length_replicate]
      exact decide_eq_true ⟨rfl, cEq⟩
    set w' := (w.fillTrailer.emitPhysicalRecord (fragmentType begin finish) (data.take n)).2
    set ok := (w.fillTrailer.emitPhysicalRecord (fragmentType begin finish) (data.take n)).1
    by_cases continues : (ok && decide (0 < data.length - n)) = true
    · rw [if_pos continues]
      simp only [continues, Bool.true_and] at rest ⊢
      simp only [Bool.and_eq_true, decide_eq_true_eq] at continues
      obtain ⟨succeeded, more⟩ := continues
      have kept' := succeeds succeeded
      obtain ⟨rfl, aligned'⟩ := all kept'
      have unfinished : finish = false := by simp only [finishEq, decide_eq_false_iff_not]; omega
      have less : rounds w' (data.drop n) < rounds w data :=
        rounds_next _ aligned.bound (show n = avail by omega) (show n < data.length by omega)
      obtain ⟨spelled, written, tail, spells, initial', laid, emitted, same, shorter, whole,
        returned⟩ := ih aligned' (by omega) rest
      have position : w'.dest.contents.length = c.stop w.dest.contents.length := by
        have lower := c.stop_lower w.dest.contents.length
        rw [contents, length_append, bytes_length]
        omega
      rw [position] at laid emitted shorter whole
      refine ⟨c :: spelled, c :: written, c.bytes w.dest.contents.length ++ tail, ?_,
        (prefix_cons_inj c).mpr initial', ⟨chunkFits, laid⟩, ?_, ?_,
        (prefix_append_right_inj _).mpr shorter, ?_, ?_⟩
      · rw [cEq, unfinished]
        exact fragment_spells spells
      · intro p mem
        obtain rfl | mem := mem_cons.mp mem
        · rw [here, Bool.true_or]
        · rw [emitted p mem, Bool.or_true]
      · rw [same, contents, append_assoc]
      · rintro ⟨-, unbroken⟩
        obtain ⟨same', aligned''⟩ := whole unbroken
        exact ⟨by rw [same', chunksBytes], aligned''⟩
      · intro success
        obtain ⟨unbroken, complete⟩ := returned success
        exact ⟨⟨kept', unbroken⟩, by rw [complete]⟩
    · rw [if_neg continues]
      rw [Bool.not_eq_true] at continues
      simp only [continues, Bool.false_and]
      have emitted : ∀ p ∈ positioned w.dest.contents.length [c],
          (emitsAt p.1 p.2 w (fragmentType begin finish) (data.take n) || false) = true := by
        intro p mem
        rw [mem_singleton.mp mem, here, Bool.true_or]
      have single : chunksBytes w.dest.contents.length [c] = c.bytes w.dest.contents.length := by
        simp [chunksBytes]
      by_cases done : data.length = n
      · have finished : finish = true := by simpa [finishEq] using done
        have whole : data.take n = data := take_of_length_le (by omega)
        refine ⟨[c], [c], kept, ?_, prefix_rfl, ⟨chunkFits, trivial⟩, emitted, contents, ?_,
          ?_, fun success => ⟨⟨succeeds success, trivial⟩, rfl⟩⟩
        · rw [cEq, finished, whole]
          exact final_spells begin data
        · rw [single]
          exact initial
        · rw [single]
          exact fun unbroken => all unbroken.1
      · have unfinished : finish = false := by simpa [finishEq] using done
        refine ⟨c :: [⟨.last, data.drop n⟩], [c], kept, ?_, ⟨_, rfl⟩, ⟨chunkFits, trivial⟩, emitted,
          contents, ?_, ?_, ?_⟩
        · rw [cEq, unfinished]
          exact fragment_spells (.last _)
        · rw [single]
          exact initial
        · rw [single]
          exact fun unbroken => all unbroken.1
        · intro success
          have ok' : ok = true := success
          simp only [ok', Bool.true_and, decide_eq_false_iff_not] at continues
          omega

theorem fillTrailer_noFaults {w : Writer} (clean : w.dest.faults = []) :
    w.fillTrailer.dest.faults = [] ∧ w.trailerTears = false := by
  by_cases short : kBlockSize - w.blockOffset < kHeaderSize
  · by_cases some : 0 < kBlockSize - w.blockOffset
    · simp [trailerTears, fillTrailer, WritableFile.append, clean, short, some]
    · simp [trailerTears, fillTrailer, clean, show kBlockSize - w.blockOffset = 0 by omega,
        kHeaderSize_eq]
  · simp [trailerTears, fillTrailer, clean, short]

theorem emitPhysicalRecord_noFaults {w : Writer} (clean : w.dest.faults = [])
    (type : RecordType) (payload : Bytes) :
    (w.emitPhysicalRecord type payload).1 = true ∧
      (w.emitPhysicalRecord type payload).2.dest.faults = [] := by
  simp [emitPhysicalRecord, WritableFile.append, clean]

theorem addRecordLoop_noFaults {fuel : Nat} {w : Writer} {data : Bytes} {begin : Bool}
    (clean : w.dest.faults = []) (bound : w.blockOffset ≤ kBlockSize)
    (enough : rounds w data ≤ fuel) :
    anyRound (fun w _ _ => w.trailerTears) fuel w data begin = false ∧
      (addRecordLoop fuel w data begin).1 = true ∧
      (addRecordLoop fuel w data begin).2.dest.faults = [] := by
  induction fuel generalizing w data begin with
  | zero => simp [rounds] at enough
  | succ fuel ih =>
    obtain ⟨clean', trailer⟩ := fillTrailer_noFaults clean
    have room := fillTrailer_room bound
    simp only [anyRound, addRecordLoop, trailer, Bool.false_or]
    set avail := kBlockSize - w.fillTrailer.blockOffset - kHeaderSize
    set n := if data.length < avail then data.length else avail with nEq
    have sized : n ≤ data.length ∧ (n = data.length ∨ n = avail) := by
      rw [nEq]
      split <;> omega
    set type := fragmentType begin (decide (data.length = n))
    obtain ⟨ok, clean''⟩ := emitPhysicalRecord_noFaults clean' type (data.take n)
    simp only [ok, Bool.true_and]
    by_cases more : 0 < data.length - n
    · simp only [more, decide_true, if_true, Bool.true_and]
      have less := rounds_next type bound (show n = avail by omega)
        (show n < data.length by omega)
      apply ih clean'' _ (by omega)
      rw [emitPhysicalRecord_offset, length_take]
      omega
    · simp only [more, decide_false, Bool.false_and, Bool.false_eq_true, if_false]
      exact ⟨trivial, trivial, clean''⟩

theorem rounds_le (w : Writer) (data : Bytes) : rounds w data ≤ data.length + 2 := by
  unfold rounds
  split <;> omega

theorem addRecord_segment {w : Writer} (aligned : Aligned w) {data : Bytes}
    (trailers : w.losesTrailer data = false) :
    ∃ (s : Segment) (kept : Bytes), s.data = data ∧
      ChunksFit w.dest.contents.length s.written ∧
      (∀ p ∈ positioned w.dest.contents.length s.written,
        anyRound (emitsAt p.1 p.2) (data.length + 2) w data true = true) ∧
      (w.addRecord data).2.dest.contents = w.dest.contents ++ kept ∧
      kept <+: chunksBytes w.dest.contents.length s.written ∧
      (w.losesRecord data = false →
        kept = chunksBytes w.dest.contents.length s.written ∧ Aligned (w.addRecord data).2) ∧
      ((w.addRecord data).1 = true → w.losesRecord data = false ∧ s.Complete) := by
  obtain ⟨spelled, written, kept, spells, initial, rest⟩ :=
    addRecordLoop_layout aligned (rounds_le w data) trailers
  exact ⟨⟨data, spelled, written, spells, initial⟩, kept, rfl, rest⟩

theorem addRecord_layout {w : Writer} (aligned : Aligned w) (clean : w.dest.faults = [])
    (data : Bytes) :
    ∃ s : Segment, s.data = data ∧ s.Complete ∧ ChunksFit w.dest.contents.length s.written ∧
      (∀ p ∈ positioned w.dest.contents.length s.written,
        anyRound (emitsAt p.1 p.2) (data.length + 2) w data true = true) ∧
      (w.addRecord data).1 = true ∧ (w.addRecord data).2.dest.faults = [] ∧
      Aligned (w.addRecord data).2 ∧
      (w.addRecord data).2.dest.contents =
        w.dest.contents ++ chunksBytes w.dest.contents.length s.written := by
  obtain ⟨whole, ok, clean'⟩ :=
    @addRecordLoop_noFaults _ w data true clean aligned.bound (rounds_le w data)
  obtain ⟨s, kept, named, fit, emitted, same, -, all, returned⟩ := addRecord_segment aligned whole
  obtain ⟨unbroken, complete⟩ := returned ok
  obtain ⟨rfl, aligned'⟩ := all unbroken
  exact ⟨s, named, complete, fit, emitted, ok, clean', aligned', same⟩

end Writer
end TalusDB.Log
