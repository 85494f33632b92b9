import TalusDB.Log.RoundTrip

/-! Failing appends. `EmitPhysicalRecord` advances the block offset by the whole
physical record even when `Append` wrote only part of it, so what is written
afterwards lies where no reader looks for it. -/
namespace TalusDB.Log
namespace Writer
open List Segment

/-- No call is made after one that left a hole in the file, and no zero trailer is
cut short. -/
def unbroken (w : Writer) : List Bytes → Bool
  | [] => true
  | data :: rest =>
    !w.losesTrailer data && (!w.losesRecord data || rest.isEmpty) &&
      (w.addRecord data).2.unbroken rest

/-- The records whose `AddRecord` call returned OK. -/
def acknowledged (w : Writer) (records : List Bytes) : List Bytes :=
  ((records.zip (w.addRecords records).1).filter (·.2)).map (·.1)

theorem acknowledged_cons (w : Writer) (data : Bytes) (rest : List Bytes) :
    w.acknowledged (data :: rest) =
      if (w.addRecord data).1 then data :: (w.addRecord data).2.acknowledged rest
      else (w.addRecord data).2.acknowledged rest := by
  simp only [acknowledged, addRecords, zip_cons_cons, filter_cons]
  split <;> rfl

/-- In an unbroken run the file is a first part of laid out segments, and the
acknowledged records are complete in it. -/
theorem addRecords_unbroken {w : Writer} (aligned : Aligned w) {records : List Bytes}
    (sound : w.unbroken records = true) :
    ∃ (segments : List Segment) (kept : Bytes),
      ChunksFit w.dest.contents.length (chunks segments) ∧
      (w.addRecords records).2.dest.contents = w.dest.contents ++ kept ∧
      kept <+: chunksBytes w.dest.contents.length (chunks segments) ∧
      (w.acknowledged records).Sublist ((Reader.within (w.dest.contents.length + kept.length)
        (placed w.dest.contents.length segments)).map (·.1)) := by
  induction records generalizing w with
  | nil => exact ⟨[], [], trivial, by simp [addRecords], nil_prefix, nil_sublist _⟩
  | cons data rest ih =>
    simp only [unbroken, Bool.and_eq_true, Bool.not_eq_true', Bool.or_eq_true,
      List.isEmpty_iff] at sound
    obtain ⟨⟨trailers, last⟩, sound'⟩ := sound
    obtain ⟨s, kept, named, fit, -, contents, shorter, whole, returned⟩ :=
      addRecord_segment aligned trailers
    rw [acknowledged_cons]
    obtain intact | rfl := last
    · obtain ⟨rfl, aligned'⟩ := whole intact
      have position : (w.addRecord data).2.dest.contents.length =
          chunksStop w.dest.contents.length s.written := by
        have lower := chunksStop_lower w.dest.contents.length s.written
        rw [contents, length_append, chunksBytes_length]
        omega
      obtain ⟨segments, tail, fit', contents', shorter', found⟩ := ih aligned' sound'
      rw [position] at fit' shorter' found
      have total : w.dest.contents.length +
          (chunksBytes w.dest.contents.length s.written ++ tail).length =
          chunksStop w.dest.contents.length s.written + tail.length := by
        rw [← position, contents, length_append, length_append, Nat.add_assoc]
      refine ⟨s :: segments, chunksBytes w.dest.contents.length s.written ++ tail, ?_, ?_, ?_, ?_⟩
      · rw [chunks_cons, chunksFit_append]
        exact ⟨fit, fit'⟩
      · rw [← append_assoc, ← contents]
        exact contents'
      · rw [chunks_cons, chunksBytes_append]
        exact (prefix_append_right_inj _).mpr shorter'
      · rw [total]
        by_cases complete : s.Complete
        · rw [Reader.within_complete complete (Nat.le_add_right _ _), map_cons, named]
          split
          · exact found.cons_cons data
          · exact found.cons data
        · rw [if_neg fun ok => complete (returned ok).2, placed, if_neg complete]
          exact found
    · refine ⟨[s], kept, ?_, contents, ?_, ?_⟩
      · simpa [chunks] using fit
      · simpa [chunks] using shorter
      · by_cases ok : (w.addRecord data).1 = true
        · obtain ⟨intact, complete⟩ := returned ok
          obtain ⟨rfl, -⟩ := whole intact
          have lower := chunksStop_lower w.dest.contents.length s.written
          have inside : chunksStop w.dest.contents.length s.written ≤ w.dest.contents.length +
              (chunksBytes w.dest.contents.length s.written).length := by
            rw [chunksBytes_length]
            omega
          rw [if_pos ok, Reader.within_complete complete inside, map_cons, named]
          exact (nil_sublist _).cons_cons data
        · rw [if_neg ok]
          exact nil_sublist _

end Writer

/-- In a run without a call on a writer that has a hole in its file, the reader
returns every acknowledged record, in order. -/
theorem readAll_acknowledged (faults : List (Option Nat)) (records : List Bytes)
    (sound : (Writer.new ⟨[], faults⟩).unbroken records = true) :
    ∃ (read : List (Bytes × Nat)) (r : Reader),
      (Reader.new ⟨((Writer.new ⟨[], faults⟩).addRecords records).2.dest.contents, none⟩
        true 0).readAll = some (read, r) ∧
      ((Writer.new ⟨[], faults⟩).acknowledged records).Sublist (read.map (·.1)) := by
  obtain ⟨segments, kept, fit, contents, initial, found⟩ :=
    Writer.addRecords_unbroken (Writer.Aligned.new faults) sound
  have same : ((Writer.new ⟨[], faults⟩).addRecords records).2.dest.contents = kept := contents
  obtain ⟨r, result, -⟩ := Reader.readAll_segments fit initial
  refine ⟨_, r, by rw [same]; exact result, ?_⟩
  simpa [Writer.new] using found

theorem readAll_acknowledged_last_fails :
    (Writer.new ⟨[], [none, none, some 3]⟩).unbroken [[97], [98]] = true ∧
    ∃ (read : List (Bytes × Nat)) (r : Reader),
      (Reader.new ⟨((Writer.new ⟨[], [none, none, some 3]⟩).addRecords [[97], [98]]).2.dest.contents,
        none⟩ true 0).readAll = some (read, r) ∧
      ((Writer.new ⟨[], [none, none, some 3]⟩).acknowledged [[97], [98]]).Sublist
        (read.map (·.1)) :=
  ⟨by decide +kernel, readAll_acknowledged _ _ (by decide +kernel)⟩

/-- The header of the first record is cut after three bytes and its call fails. The
second call returns OK, and the reader never returns its record. -/
theorem torn_append_hides_record :
    (Writer.new ⟨[], [some 3]⟩).acknowledged [[97], [98]] = [[98]] ∧
      ((Reader.new ⟨((Writer.new ⟨[], [some 3]⟩).addRecords [[97], [98]]).2.dest.contents, none⟩
        true 0).readAll.map (·.1)) = some [] := by
  decide +kernel

end TalusDB.Log
