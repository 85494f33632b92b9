import TalusDB.Log.Format

/-! The file a log writer leaves behind, as a sequence of chunks: a zero trailer
where the block has no room for a header, then one physical record. A record is
spelled by the fragment types of its chunks. Nothing here depends on how full the
writer makes a block, only on chunks not crossing a block boundary. -/
namespace TalusDB.Log
open List

/-- Zero bytes in front of a header that is written at file offset `pos`. -/
def padding (pos : Nat) : Nat :=
  if kBlockSize - pos % kBlockSize < kHeaderSize then kBlockSize - pos % kBlockSize else 0

theorem padding_lt (pos : Nat) : padding pos < kHeaderSize := by
  rw [padding]
  split
  · assumption
  · decide

structure Chunk where
  type : RecordType
  payload : Bytes
  deriving DecidableEq, Repr

namespace Chunk

def headerOffset (pos : Nat) : Nat := pos + padding pos

def stop (pos : Nat) (c : Chunk) : Nat := headerOffset pos + kHeaderSize + c.payload.length

def bytes (pos : Nat) (c : Chunk) : Bytes :=
  List.replicate (padding pos) 0 ++ physicalRecord c.type c.payload

def Fits (pos : Nat) (c : Chunk) : Prop :=
  headerOffset pos % kBlockSize + kHeaderSize + c.payload.length ≤ kBlockSize ∧ c.type ≠ .zero

@[simp] theorem bytes_length (pos : Nat) (c : Chunk) : (c.bytes pos).length = c.stop pos - pos := by
  simp only [bytes, stop, headerOffset, length_append, length_replicate,
    physicalRecord_length]
  omega

theorem stop_lower (pos : Nat) (c : Chunk) : pos + kHeaderSize ≤ c.stop pos := by
  simp only [stop, headerOffset]
  omega

end Chunk

/-- Consecutive chunks from file offset `pos` on. -/
def chunksBytes : Nat → List Chunk → Bytes
  | _, [] => []
  | pos, c :: rest => c.bytes pos ++ chunksBytes (c.stop pos) rest

def chunksStop : Nat → List Chunk → Nat
  | pos, [] => pos
  | pos, c :: rest => chunksStop (c.stop pos) rest

def ChunksFit : Nat → List Chunk → Prop
  | _, [] => True
  | pos, c :: rest => c.Fits pos ∧ ChunksFit (c.stop pos) rest

/-- The chunks with the offsets of their headers. -/
def positioned : Nat → List Chunk → List (Nat × Chunk)
  | _, [] => []
  | pos, c :: rest => (Chunk.headerOffset pos, c) :: positioned (c.stop pos) rest

theorem chunksStop_lower (pos : Nat) (chunks : List Chunk) : pos ≤ chunksStop pos chunks := by
  induction chunks generalizing pos with
  | nil => exact Nat.le_refl _
  | cons c rest ih =>
    have lower := c.stop_lower pos
    exact Nat.le_trans (by omega) (ih (c.stop pos))

theorem chunks_length_le (pos : Nat) (chunks : List Chunk) :
    pos + chunks.length ≤ chunksStop pos chunks := by
  induction chunks generalizing pos with
  | nil => exact Nat.le_refl pos
  | cons c rest ih =>
    have step := ih (c.stop pos)
    have lower := c.stop_lower pos
    rw [kHeaderSize_eq] at lower
    rw [length_cons, chunksStop]
    omega

@[simp] theorem chunksBytes_length (pos : Nat) (chunks : List Chunk) :
    (chunksBytes pos chunks).length = chunksStop pos chunks - pos := by
  induction chunks generalizing pos with
  | nil => simp [chunksBytes, chunksStop]
  | cons c rest ih =>
    have lower := c.stop_lower pos
    have upper := chunksStop_lower (c.stop pos) rest
    simp only [chunksBytes, chunksStop, length_append, Chunk.bytes_length, ih]
    omega

theorem chunksStop_append (pos : Nat) (first second : List Chunk) :
    chunksStop pos (first ++ second) = chunksStop (chunksStop pos first) second := by
  induction first generalizing pos with
  | nil => rfl
  | cons c rest ih => exact ih (c.stop pos)

theorem chunksBytes_append (pos : Nat) (first second : List Chunk) :
    chunksBytes pos (first ++ second) =
      chunksBytes pos first ++ chunksBytes (chunksStop pos first) second := by
  induction first generalizing pos with
  | nil => rfl
  | cons c rest ih => simp only [cons_append, chunksBytes, chunksStop, ih, append_assoc]

theorem chunksFit_append (pos : Nat) (first second : List Chunk) : ChunksFit pos (first ++ second) ↔
      ChunksFit pos first ∧ ChunksFit (chunksStop pos first) second := by
  induction first generalizing pos with
  | nil => simp [ChunksFit, chunksStop]
  | cons c rest ih => simp only [cons_append, ChunksFit, chunksStop, ih, and_assoc]

theorem positioned_append (pos : Nat) (first second : List Chunk) :
    positioned pos (first ++ second) =
      positioned pos first ++ positioned (chunksStop pos first) second := by
  induction first generalizing pos with
  | nil => rfl
  | cons c rest ih => simp only [cons_append, positioned, chunksStop, ih]

/-- The fragment types that make up one record: full, or first, middles and last.
The flag says whether the record is still to begin. -/
inductive Spells : Bool → Bytes → List Chunk → Prop where
  | full (data : Bytes) : Spells true data [⟨.full, data⟩]
  | last (data : Bytes) : Spells false data [⟨.last, data⟩]
  | first (part : Bytes) {rest : Bytes} {chunks : List Chunk} : Spells false rest chunks →
      Spells true (part ++ rest) (⟨.first, part⟩ :: chunks)
  | middle (part : Bytes) {rest : Bytes} {chunks : List Chunk} : Spells false rest chunks →
      Spells false (part ++ rest) (⟨.middle, part⟩ :: chunks)

variable {begin : Bool} {data : Bytes} {written rest : List Chunk} {c : Chunk}

theorem Spells.ne_nil {chunks : List Chunk} (spells : Spells begin data chunks) : chunks ≠ [] := by
  cases spells <;> exact cons_ne_nil _ _

theorem Spells.replace (spells : Spells begin data (written ++ c :: rest)) (payload : Bytes) :
    ∃ data' : Bytes, Spells begin data' (written ++ ⟨c.type, payload⟩ :: rest) := by
  induction written generalizing begin data with
  | nil =>
    change Spells begin data (c :: rest) at spells
    cases spells with
    | full => exact ⟨_, .full payload⟩
    | last => exact ⟨_, .last payload⟩
    | first _ tail => exact ⟨_, .first payload tail⟩
    | middle _ tail => exact ⟨_, .middle payload tail⟩
  | cons d written ih =>
    change Spells begin data (d :: (written ++ c :: rest)) at spells
    generalize same : written ++ c :: rest = chunks at spells
    cases spells with
    | full => simp at same
    | last => simp at same
    | first part tail =>
      obtain ⟨data', spells'⟩ := ih (same ▸ tail)
      exact ⟨_, .first part spells'⟩
    | middle part tail =>
      obtain ⟨data', spells'⟩ := ih (same ▸ tail)
      exact ⟨_, .middle part spells'⟩

theorem Spells.goes_on_iff (spells : Spells begin data (written ++ c :: rest)) :
    c.type = .first ∨ c.type = .middle ↔ rest ≠ [] := by
  induction written generalizing begin data with
  | nil =>
    change Spells begin data (c :: rest) at spells
    cases spells with
    | full => simp
    | last => simp
    | first _ tail => simp [tail.ne_nil]
    | middle _ tail => simp [tail.ne_nil]
  | cons d written ih =>
    change Spells begin data (d :: (written ++ c :: rest)) at spells
    generalize same : written ++ c :: rest = chunks at spells
    cases spells with
    | full => simp at same
    | last => simp at same
    | first part tail => exact ih (same ▸ tail)
    | middle part tail => exact ih (same ▸ tail)

/-- What one `AddRecord` call left in the file: some first chunks of its record. -/
structure Segment where
  data : Bytes
  spelled : List Chunk
  written : List Chunk
  spells : Spells true data spelled
  initial : written <+: spelled

/-- A record as the file holds it: the offset of its first physical header and the
end of its last fragment. -/
structure Placed where
  data : Bytes
  start : Nat
  stop : Nat
  deriving DecidableEq, Repr

namespace Segment

def Complete (s : Segment) : Prop := s.written = s.spelled

instance (s : Segment) : Decidable s.Complete := inferInstanceAs (Decidable (_ = _))

def chunks (segments : List Segment) : List Chunk := segments.flatMap (·.written)

theorem chunks_cons (s : Segment) (rest : List Segment) :
    chunks (s :: rest) = s.written ++ chunks rest := rfl

def placed : Nat → List Segment → List Placed
  | _, [] => []
  | pos, s :: rest =>
    if s.Complete then
      ⟨s.data, Chunk.headerOffset pos, chunksStop pos s.written⟩ ::
        placed (chunksStop pos s.written) rest
    else placed (chunksStop pos s.written) rest

variable {s : Segment} {segments : List Segment} {pos : Nat} {p : Placed}

theorem Complete.spells (complete : s.Complete) : Spells true s.data s.written := by
  rw [complete]
  exact s.spells

theorem chunks_ne_nil (complete : ∀ s ∈ segments, s.Complete)
    (some : segments ≠ []) : chunks segments ≠ [] := by
  obtain ⟨s, rest, rfl⟩ := exists_cons_of_ne_nil some
  rw [chunks_cons]
  exact append_ne_nil_of_left_ne_nil (complete s mem_cons_self).spells.ne_nil _

theorem placed_stop (mem : p ∈ placed pos segments) : pos < p.stop := by
  induction segments generalizing pos with
  | nil => cases mem
  | cons s rest ih =>
    have many := chunks_length_le pos s.written
    by_cases complete : s.Complete
    · rw [placed, if_pos complete, mem_cons] at mem
      obtain rfl | later := mem
      · have some := length_pos_of_ne_nil complete.spells.ne_nil
        simp only
        omega
      · exact Nat.lt_of_le_of_lt (by omega) (ih later)
    · rw [placed, if_neg complete] at mem
      exact Nat.lt_of_le_of_lt (by omega) (ih mem)

theorem placed_stop_ge {rest : List Segment}
    (mem : p ∈ placed pos (s :: rest)) : chunksStop pos s.written ≤ p.stop := by
  by_cases complete : s.Complete
  · rw [placed, if_pos complete, mem_cons] at mem
    obtain rfl | later := mem
    · exact Nat.le_refl _
    · exact Nat.le_of_lt (placed_stop later)
  · rw [placed, if_neg complete] at mem
    exact Nat.le_of_lt (placed_stop mem)

theorem placed_stop_le
    (mem : p ∈ placed pos segments) : p.stop ≤ chunksStop pos (chunks segments) := by
  induction segments generalizing pos with
  | nil => cases mem
  | cons s rest ih =>
    rw [chunks_cons, chunksStop_append]
    by_cases complete : s.Complete
    · rw [placed, if_pos complete, mem_cons] at mem
      obtain rfl | later := mem
      · exact chunksStop_lower _ _
      · exact ih later
    · rw [placed, if_neg complete] at mem
      exact ih mem

theorem placed_append (pos : Nat) (first second : List Segment) : placed pos (first ++ second) =
      placed pos first ++ placed (chunksStop pos (chunks first)) second := by
  induction first generalizing pos with
  | nil => rfl
  | cons s rest ih =>
    rw [cons_append, placed, placed, ih, chunks_cons, chunksStop_append]
    split <;> rfl

theorem placed_data (pos : Nat) (segments : List Segment) :
    (placed pos segments).map (·.data) = (segments.filter (·.Complete)).map (·.data) := by
  induction segments generalizing pos with
  | nil => rfl
  | cons s rest ih =>
    by_cases complete : s.Complete
    · rw [placed, if_pos complete, map_cons, ih, filter_cons_of_pos (by simpa using complete),
        map_cons]
    · rw [placed, if_neg complete, ih, filter_cons_of_neg (by simpa using complete)]

end Segment
end TalusDB.Log
