import TalusDB.Log.Append
import TalusDB.Log.Records

/-! A log written without device errors, by one writer or by several in turn, and
read back from any of its byte prefixes. -/
namespace TalusDB.Log
namespace Writer
open List

/-- `AddRecord`, with the place of the record in the file: where its first physical
header goes and where its last fragment ends. -/
def place (w : Writer) (data : Bytes) : Placed × Writer :=
  let w' := (w.addRecord data).2
  (⟨data, w.fillTrailer.dest.contents.length, w'.dest.contents.length⟩, w')

def placeAll (w : Writer) : List Bytes → List Placed × Writer
  | [] => ([], w)
  | data :: rest =>
    let (placed, w) := w.place data
    let (more, w) := w.placeAll rest
    (placed :: more, w)

/-- Further writers in turn, each constructed with the length of the file so far. -/
def placeSessions (dest : WritableFile) : List (List Bytes) → List Placed × WritableFile
  | [] => ([], dest)
  | records :: rest =>
    let (placed, w) := (reopen dest dest.contents.length).placeAll records
    let (more, dest) := placeSessions w.dest rest
    (placed ++ more, dest)

def writeLog (first : List Bytes) (later : List (List Bytes)) : List Placed × Bytes :=
  let (placed, w) := (new ⟨[], []⟩).placeAll first
  let (more, dest) := placeSessions w.dest later
  (placed ++ more, dest.contents)

/-- One of these `AddRecord` calls emits the physical record `c` at this offset. -/
def emits (w : Writer) (records : List Bytes) (offset : Nat) (c : Chunk) : Bool :=
  match records with
  | [] => false
  | data :: rest =>
    anyRound (emitsAt offset c) (data.length + 2) w data true ||
      (w.place data).2.emits rest offset c

def emitsSessions (dest : WritableFile) (sessions : List (List Bytes)) (offset : Nat) (c : Chunk) :
    Bool :=
  match sessions with
  | [] => false
  | records :: rest =>
    (reopen dest dest.contents.length).emits records offset c ||
      emitsSessions ((reopen dest dest.contents.length).placeAll records).2.dest rest offset c

/-- A writer of the log emits the physical record `c` at this offset. -/
def logEmits (first : List Bytes) (later : List (List Bytes)) (offset : Nat) (c : Chunk) : Bool :=
  (new ⟨[], []⟩).emits first offset c ||
    emitsSessions ((new ⟨[], []⟩).placeAll first).2.dest later offset c

/-- The file grew by complete segments, and these are its records. -/
structure Grew (before after : WritableFile) (placed : List Placed) (segments : List Segment) :
    Prop where
  complete : ∀ s ∈ segments, s.Complete
  fit : ChunksFit before.contents.length (Segment.chunks segments)
  contents : after.contents =
    before.contents ++ chunksBytes before.contents.length (Segment.chunks segments)
  places : placed = Segment.placed before.contents.length segments
  faults : after.faults = []

variable {dest : WritableFile} {placed : List Placed} {segments segments' : List Segment}
  {w : Writer}

theorem Grew.refl (clean : dest.faults = []) : Grew dest dest [] [] :=
  ⟨nofun, trivial, by simp [Segment.chunks, chunksBytes], rfl, clean⟩

theorem Grew.length {before after : WritableFile} (grew : Grew before after placed segments) :
    after.contents.length = chunksStop before.contents.length (Segment.chunks segments) := by
  have lower := chunksStop_lower before.contents.length (Segment.chunks segments)
  rw [grew.contents, length_append, chunksBytes_length]
  omega

theorem Grew.trans {first second third : WritableFile} {more : List Placed}
    (left : Grew first second placed segments)
    (right : Grew second third more segments') :
    Grew first third (placed ++ more) (segments ++ segments') := by
  have length := left.length
  have split : Segment.chunks (segments ++ segments') =
      Segment.chunks segments ++ Segment.chunks segments' := flatMap_append
  constructor
  · intro s mem
    exact (mem_append.mp mem).elim (left.complete s) (right.complete s)
  · rw [split, chunksFit_append, ← length]
    exact ⟨left.fit, right.fit⟩
  · rw [right.contents, split, chunksBytes_append, ← length, left.contents, append_assoc]
  · rw [Segment.placed_append, ← length, left.places, right.places]
  · exact right.faults

/-- Every chunk of the segments was emitted where it stands. -/
def Emitted (pos : Nat) (segments : List Segment) (emits : Nat → Chunk → Bool) : Prop :=
  ∀ p ∈ positioned pos (Segment.chunks segments), emits p.1 p.2 = true

theorem Emitted.append {pos : Nat}
    {emits emits' : Nat → Chunk → Bool} (left : Emitted pos segments emits)
    (right : Emitted (chunksStop pos (Segment.chunks segments)) segments' emits') :
    Emitted pos (segments ++ segments') fun offset c => emits offset c || emits' offset c := by
  intro p mem
  rw [show Segment.chunks (segments ++ segments') =
      Segment.chunks segments ++ Segment.chunks segments' from flatMap_append,
    positioned_append, mem_append] at mem
  rw [Bool.or_eq_true]
  exact mem.imp (left p) (right p)

theorem place_grew (aligned : Aligned w) (clean : w.dest.faults = []) (data : Bytes) :
    Aligned (w.place data).2 ∧
      ∃ s : Segment, Grew w.dest (w.place data).2.dest [(w.place data).1] [s] ∧
        Emitted w.dest.contents.length [s] fun offset c =>
          anyRound (emitsAt offset c) (data.length + 2) w data true := by
  obtain ⟨s, named, complete, fit, emitted, -, clean', aligned', contents⟩ :=
    addRecord_layout aligned clean data
  obtain ⟨trailer, -, -⟩ := fillTrailer_whole aligned (fillTrailer_noFaults clean).2
  have only : Segment.chunks [s] = s.written := append_nil _
  have start : w.fillTrailer.dest.contents.length =
      Chunk.headerOffset w.dest.contents.length := by
    rw [trailer, length_append, length_replicate, Chunk.headerOffset]
  have stop : (w.addRecord data).2.dest.contents.length =
      chunksStop w.dest.contents.length s.written := by
    have lower := chunksStop_lower w.dest.contents.length s.written
    rw [contents, length_append, chunksBytes_length]
    omega
  refine ⟨aligned', s, ?_, by rwa [Emitted, only]⟩
  constructor
  · intro t mem
    rw [mem_singleton.mp mem]
    exact complete
  · rw [only]
    exact fit
  · rw [only]
    exact contents
  · simp only [place, Segment.placed, if_pos complete, start, stop, named]
  · exact clean'

theorem placeAll_grew (aligned : Aligned w) (clean : w.dest.faults = []) (records : List Bytes) :
    (w.placeAll records).1.map (·.data) = records ∧
      ∃ segments : List Segment,
        Grew w.dest (w.placeAll records).2.dest (w.placeAll records).1 segments ∧
          Emitted w.dest.contents.length segments (w.emits records) := by
  induction records generalizing w with
  | nil => exact ⟨rfl, [], Grew.refl clean, nofun⟩
  | cons data rest ih =>
    obtain ⟨aligned', s, grew, emitted⟩ := place_grew aligned clean data
    obtain ⟨listed, segments, grew', emitted'⟩ := ih aligned' grew.faults
    rw [grew.length] at emitted'
    exact ⟨congrArg (data :: ·) listed, s :: segments, grew.trans grew', emitted.append emitted'⟩

theorem placeSessions_grew (clean : dest.faults = []) (sessions : List (List Bytes)) :
    (placeSessions dest sessions).1.map (·.data) = sessions.flatten ∧
      ∃ segments : List Segment,
        Grew dest (placeSessions dest sessions).2 (placeSessions dest sessions).1 segments ∧
          Emitted dest.contents.length segments (emitsSessions dest sessions) := by
  induction sessions generalizing dest with
  | nil => exact ⟨rfl, [], Grew.refl clean, nofun⟩
  | cons records rest ih =>
    obtain ⟨listed, segments, grew, emitted⟩ := placeAll_grew (Aligned.reopen dest) clean records
    obtain ⟨listed', segments', grew', emitted'⟩ := ih grew.faults
    rw [grew.length] at emitted'
    refine ⟨map_append.trans ?_, segments ++ segments', grew.trans grew',
      emitted.append emitted'⟩
    rw [listed, listed', flatten_cons]

theorem writeLog_grew (first : List Bytes) (later : List (List Bytes)) :
    (writeLog first later).1.map (·.data) = first ++ later.flatten ∧
      ∃ (dest : WritableFile) (segments : List Segment), dest.contents = (writeLog first later).2 ∧
        Grew ⟨[], []⟩ dest (writeLog first later).1 segments ∧
          Emitted 0 segments (logEmits first later) := by
  obtain ⟨listed, segments, grew, emitted⟩ := placeAll_grew (Aligned.new []) rfl first
  obtain ⟨listed', segments', grew', emitted'⟩ := placeSessions_grew grew.faults later
  rw [grew.length] at emitted'
  refine ⟨map_append.trans ?_, _, segments ++ segments', rfl, grew.trans grew',
    emitted.append emitted'⟩
  rw [listed, listed']

end Writer

namespace Reader

theorem readAll_segments {F : Bytes} {segments : List Segment}
    (fit : ChunksFit 0 (Segment.chunks segments))
    (torn : F <+: chunksBytes 0 (Segment.chunks segments)) :
    ∃ r : Reader, readAll (Reader.new ⟨F, none⟩ true 0) =
        some (within F.length (Segment.placed 0 segments), r) ∧
      ((∀ s ∈ segments, s.Complete) → r.reports = []) := by
  have here := At.new F
  have reading : Reading F 0 F.length (F.length + 1) (Reader.new ⟨F, none⟩ true 0) :=
    ⟨here, by omega, by omega⟩
  obtain ⟨r, result, quiet⟩ := readFrom_segments {} reading fit torn
  refine ⟨r, ?_, quiet rfl⟩
  rw [readAll, here.unread, readAllLoop_eq here]
  exact result

end Reader

/-- Every byte prefix of a log reads back as the records whose fragments lie inside
it, in order and each with the offset of its first header; the reader then returns
false, and it reports nothing. -/
theorem readAll_truncated (first : List Bytes) (later : List (List Bytes)) (n : Nat) :
    let log := Writer.writeLog first later
    log.1.map (·.data) = first ++ later.flatten ∧
      ∃ r : Reader, (Reader.new ⟨log.2.take n, none⟩ true 0).readAll =
          some ((log.1.filter (·.stop ≤ n)).map fun p => (p.data, p.start), r) ∧
        r.reports = [] := by
  obtain ⟨listed, dest, segments, contents, grew, -⟩ := Writer.writeLog_grew first later
  refine ⟨listed, ?_⟩
  have whole : (Writer.writeLog first later).2 = chunksBytes 0 (Segment.chunks segments) := by
    rw [← contents, grew.contents]
    rfl
  obtain ⟨r, result, quiet⟩ := Reader.readAll_segments grew.fit
    (whole ▸ List.take_prefix n _ : (Writer.writeLog first later).2.take n <+: _)
  refine ⟨r, ?_, quiet grew.complete⟩
  rw [result, grew.places, Reader.within, Reader.entries]
  congr 3
  refine List.filter_congr fun p mem => ?_
  have upper := Segment.placed_stop_le mem
  rw [whole, List.length_take, chunksBytes_length]
  exact decide_eq_decide.mpr (by omega)

end TalusDB.Log
