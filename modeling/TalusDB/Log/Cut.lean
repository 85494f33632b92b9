import TalusDB.Log.RoundTrip

/-! A byte prefix of a well formed log, as a crash leaves it, and what appending to
it does when no physical record is torn. -/
namespace TalusDB.Log
open Reader List Function Log.Writer
open Chunk (headerOffset)

def Reader.records (F : Bytes) : Option (List Bytes) :=
  (Reader.new ⟨F, none⟩ true 0).readAll.map fun (records, _) => records.map (·.1)

/-- The file after a writer constructed with its length appended these records. -/
def Writer.reuse (F : Bytes) (appended : List Bytes) : Bytes :=
  ((reopen ⟨F, []⟩ F.length).addRecords appended).2.dest.contents

/-- A byte prefix of a log: complete segments, some chunks of one more record, and
the first bytes of its next chunk. -/
structure Cut (F : Bytes) where
  before : List Segment
  data : Bytes
  written : List Chunk
  next : Chunk
  rest : List Chunk
  spells : Spells true data (written ++ next :: rest)
  complete : ∀ s ∈ before, s.Complete
  fit : ChunksFit 0 ((Segment.chunks before ++ written) ++ [next])
  bytes : F <+: chunksBytes 0 ((Segment.chunks before ++ written) ++ [next])
  reached : chunksStop 0 (Segment.chunks before ++ written) ≤ F.length
  short : F.length < next.stop (chunksStop 0 (Segment.chunks before ++ written))

/-- Every byte prefix of complete segments is cut somewhere; behind the last one
the next chunk may be any. -/
theorem Cut.of_segments {F : Bytes} {segments : List Segment}
    (complete : ∀ s ∈ segments, s.Complete) (fit : ChunksFit 0 (Segment.chunks segments))
    (bytes : F <+: chunksBytes 0 (Segment.chunks segments)) : Nonempty (Cut F) := by
  obtain whole | ⟨before, s, after, rfl, reached, cut⟩ :=
    segments_split segments (Nat.zero_le F.length)
  · have size := bytes.length_le
    rw [chunksBytes_length, Nat.sub_zero] at size
    have none : Segment.chunks segments ++ [] = Segment.chunks segments := append_nil _
    refine ⟨⟨segments, [], [], ⟨.full, []⟩, [], .full [], complete, ?_, ?_, ?_, ?_⟩⟩
    · rw [none, chunksFit_append]
      exact ⟨fit, ⟨headerOffset_room _, nofun⟩, trivial⟩
    · rw [none, chunksBytes_append]
      exact bytes.trans (prefix_append _ _)
    · rw [none]
      exact whole
    · rw [none]
      have lower := Chunk.stop_lower (chunksStop 0 (Segment.chunks segments)) ⟨.full, []⟩
      rw [kHeaderSize_eq] at lower
      omega
  · have split : Segment.chunks (before ++ s :: after) =
        Segment.chunks before ++ (s.written ++ Segment.chunks after) := flatMap_append
    rw [split] at fit bytes
    obtain ⟨placed, torn⟩ := @within_chunks F 0 _ _ bytes reached
    have torn' : F.drop (chunksStop 0 (Segment.chunks before)) <+:
        chunksBytes (chunksStop 0 (Segment.chunks before)) s.written := by
      rw [chunksBytes_append] at torn
      refine prefix_of_prefix_length_le torn (prefix_append _ _) ?_
      rw [chunksBytes_length, length_drop]
      omega
    obtain ⟨written, c, rest, same, inside, outside, -⟩ := torn_split reached torn' cut
    have spelled := (complete s (mem_append_right _ mem_cons_self)).spells
    have size := inside.length_le
    have lower := chunksStop_lower (chunksStop 0 (Segment.chunks before)) written
    rw [chunksBytes_length, length_drop] at size
    rw [same] at spelled fit bytes
    have regroup : Segment.chunks before ++ (written ++ c :: rest ++ Segment.chunks after) =
        (Segment.chunks before ++ written) ++ [c] ++ (rest ++ Segment.chunks after) := by simp
    rw [regroup] at fit bytes
    rw [← chunksStop_append] at outside lower size
    refine ⟨⟨before, s.data, written, c, rest, spelled,
      fun t mem => complete t (mem_append_left _ mem), ((chunksFit_append _ _ _).mp fit).1, ?_,
      by omega, outside⟩⟩
    rw [chunksBytes_append] at bytes
    refine prefix_of_prefix_length_le bytes (prefix_append _ _) ?_
    rw [chunksBytes_length, chunksStop_append]
    exact Nat.le_of_lt outside

namespace Cut
variable {F : Bytes} (cut : Cut F)

def chunks : List Chunk := Segment.chunks cut.before ++ cut.written

/-- End of the last complete chunk. -/
def pos : Nat := chunksStop 0 cut.chunks

/-- The record that has only its first chunks. -/
def unfinished : Segment :=
  ⟨cut.data, cut.written ++ cut.next :: cut.rest, cut.written, cut.spells, prefix_append _ _⟩

theorem not_complete : ¬ cut.unfinished.Complete := by
  simp [Segment.Complete, unfinished]

theorem chunksFit : ChunksFit 0 cut.chunks := ((chunksFit_append _ _ _).mp cut.fit).1

theorem next_fits : cut.next.Fits cut.pos := ((chunksFit_append _ _ _).mp cut.fit).2.1

theorem placed : chunksBytes 0 cut.chunks <+: F :=
  (@within_chunks F 0 _ _ cut.bytes cut.reached).1

theorem torn : F.drop cut.pos <+: cut.next.bytes cut.pos := by
  have tail := (@within_chunks F 0 _ _ cut.bytes cut.reached).2
  rwa [chunksBytes, chunksBytes, append_nil] at tail

theorem split : F = chunksBytes 0 cut.chunks ++ F.drop cut.pos := by
  obtain ⟨tail, same⟩ := cut.placed
  have size := chunksBytes_length 0 cut.chunks
  rw [Nat.sub_zero] at size
  have dropped := congrArg (drop cut.pos) same
  rw [pos, ← size, drop_left, size] at dropped
  rw [pos, ← dropped, same]

theorem chunks_eq (after : List Segment) :
    Segment.chunks (cut.before ++ cut.unfinished :: after) = cut.chunks ++ Segment.chunks after := by
  rw [Segment.chunks, flatMap_append, flatMap_cons, ← append_assoc]
  rfl

theorem records_eq : records F = some (cut.before.map (·.data)) := by
  let ending : Segment := ⟨cut.data, cut.written ++ cut.next :: cut.rest, cut.written ++ [cut.next],
    cut.spells, ⟨cut.rest, by simp⟩⟩
  have regroup : Segment.chunks (cut.before ++ [ending]) =
      (Segment.chunks cut.before ++ cut.written) ++ [cut.next] := by
    simp [Segment.chunks, ending]
  obtain ⟨r, result, -⟩ := readAll_segments (regroup ▸ cut.fit) (regroup ▸ cut.bytes)
  have reached := cut.reached
  have short := cut.short
  rw [chunksStop_append] at reached short
  have inside : ∀ p ∈ Segment.placed 0 cut.before, p.stop ≤ F.length := fun p mem =>
    Nat.le_trans (Segment.placed_stop_le mem) (Nat.le_trans (chunksStop_lower _ _) reached)
  have beyond : ∀ p ∈ Segment.placed (chunksStop 0 (Segment.chunks cut.before)) [ending],
      F.length < p.stop := by
    intro p mem
    have stop := Segment.placed_stop_ge mem
    rw [chunksStop_append] at stop
    exact Nat.lt_of_lt_of_le short stop
  rw [records, result, Segment.placed_append, within_append, within_all inside,
    within_beyond beyond, append_nil]
  have complete : cut.before.filter (·.Complete) = cut.before :=
    filter_eq_self.mpr fun s mem => decide_eq_true (cut.complete s mem)
  simp only [Option.map_some, entries, map_map, comp_def]
  rw [Segment.placed_data, complete]

end Cut

theorem records_segments {segments : List Segment} (fit : ChunksFit 0 (Segment.chunks segments)) :
    records (chunksBytes 0 (Segment.chunks segments)) =
      some ((segments.filter (·.Complete)).map (·.data)) := by
  obtain ⟨r, result, -⟩ := readAll_segments fit prefix_rfl
  have inside : ∀ p ∈ Segment.placed 0 segments,
      p.stop ≤ (chunksBytes 0 (Segment.chunks segments)).length := by
    intro p mem
    rw [chunksBytes_length, Nat.sub_zero]
    exact Segment.placed_stop_le mem
  rw [records, result, within_all inside]
  simp only [Option.map_some, entries, map_map, comp_def]
  rw [Segment.placed_data]

theorem Writer.addRecords_eq_placeAll (w : Writer) (records : List Bytes) :
    (w.addRecords records).2 = (w.placeAll records).2 := by
  induction records generalizing w with
  | nil => rfl
  | cons data rest ih => exact ih (w.addRecord data).2

theorem Writer.reuse_segments (F : Bytes) (appended : List Bytes) :
    ∃ segments : List Segment, (∀ s ∈ segments, s.Complete) ∧ segments.map (·.data) = appended ∧
      ChunksFit F.length (Segment.chunks segments) ∧
      reuse F appended = F ++ chunksBytes F.length (Segment.chunks segments) := by
  obtain ⟨listed, segments, grew, -⟩ :=
    placeAll_grew (Writer.Aligned.reopen ⟨F, []⟩) rfl appended
  refine ⟨segments, grew.complete, ?_, grew.fit, ?_⟩
  · have complete : segments.filter (·.Complete) = segments :=
      filter_eq_self.mpr fun s mem => decide_eq_true (grew.complete s mem)
    rw [← listed, grew.places, Segment.placed_data, complete]
  · rw [reuse, addRecords_eq_placeAll]
    exact grew.contents

/-- Chunks that start at `pos` start anywhere in the zero trailer behind it. -/
theorem chunks_shift {pos stop : Nat} (lower : pos ≤ stop)
    (same : headerOffset stop = headerOffset pos) {chunks : List Chunk}
    (some : chunks ≠ []) :
    chunksBytes pos chunks = List.replicate (stop - pos) 0 ++ chunksBytes stop chunks ∧
      (ChunksFit pos chunks ↔ ChunksFit stop chunks) := by
  obtain ⟨c, rest, rfl⟩ := exists_cons_of_ne_nil some
  have next : c.stop pos = c.stop stop := by rw [Chunk.stop, Chunk.stop, same]
  constructor
  · have total : padding pos = (stop - pos) + padding stop := by
      rw [headerOffset, headerOffset] at same
      omega
    rw [chunksBytes, chunksBytes, next, Chunk.bytes, Chunk.bytes, total, replicate_add]
    simp only [append_assoc]
  · rw [ChunksFit, ChunksFit, next, Chunk.Fits, Chunk.Fits, same]

theorem headerOffset_trailer {pos stop : Nat} (lower : pos ≤ stop)
    (upper : stop ≤ headerOffset pos) :
    headerOffset stop = headerOffset pos := by
  obtain ⟨_, here⟩ | ⟨room, there⟩ := headerOffset_cases pos
  · rw [show stop = pos by omega]
  · obtain ⟨room', same⟩ | ⟨room', same⟩ := headerOffset_cases stop <;>
      rw [kBlockSize_eq, kHeaderSize_eq] at * <;> omega

namespace Cut
variable {F : Bytes} (cut : Cut F)

/-- New chunks right behind the last complete chunk: the unfinished record is
passed over. -/
theorem records_join {after : List Segment} (complete : ∀ s ∈ after, s.Complete)
    (fit : ChunksFit cut.pos (Segment.chunks after)) :
    records (chunksBytes 0 cut.chunks ++ chunksBytes cut.pos (Segment.chunks after)) =
      some (cut.before.map (·.data) ++ after.map (·.data)) := by
  have chunks := cut.chunks_eq after
  have fit' : ChunksFit 0 (Segment.chunks (cut.before ++ cut.unfinished :: after)) := by
    rw [chunks, chunksFit_append]
    exact ⟨cut.chunksFit, fit⟩
  have read := records_segments fit'
  rw [chunks, chunksBytes_append] at read
  have kept : (cut.before ++ cut.unfinished :: after).filter (·.Complete) = cut.before ++ after := by
    rw [filter_append, filter_cons_of_neg (by simpa using cut.not_complete),
      filter_eq_self.mpr fun s mem => decide_eq_true (cut.complete s mem),
      filter_eq_self.mpr fun s mem => decide_eq_true (complete s mem)]
  rw [kept, map_append] at read
  exact read

/-- Nothing of the next chunk but zeros of its trailer is in the file. -/
def Clean : Prop := F.length ≤ headerOffset cut.pos

theorem resumes_nil : records (reuse F []) = some (cut.before.map (·.data)) :=
  cut.records_eq

theorem resumes_clean (clean : cut.Clean) (appended : List Bytes) :
    records (reuse F appended) = some (cut.before.map (·.data) ++ appended) := by
  obtain ⟨after, complete, rfl, fit, contents⟩ := reuse_segments F appended
  by_cases none : after = []
  · rw [none, map_nil, append_nil]
    exact cut.resumes_nil
  · have some := Segment.chunks_ne_nil complete none
    have lower : cut.pos ≤ F.length := cut.reached
    obtain ⟨shifted, fits⟩ := chunks_shift lower (headerOffset_trailer lower clean) some
    have zeros : F.drop cut.pos = replicate (F.length - cut.pos) 0 := by
      have torn := cut.torn
      rw [Clean, headerOffset] at clean
      have initial := prefix_of_prefix_length_le torn
        (prefix_append (replicate (padding cut.pos) 0) _)
        (by rw [length_drop, length_replicate]; omega)
      rw [eq_replicate_of_mem fun b mem => eq_of_mem_replicate (initial.subset mem),
        length_drop]
    have joined := cut.records_join complete (fits.mpr fit)
    rw [shifted, ← zeros, ← append_assoc, ← cut.split, ← contents] at joined
    exact joined

end Cut
end TalusDB.Log
