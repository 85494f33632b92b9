import TalusDB.Log.Resync
import TalusDB.Log.RoundTrip

/-! Damage inside one block of a log. The reader gives up the rest of the block at the first
header that it does not accept, and the fragments behind the block whose record has begun
inside it. -/
namespace TalusDB.Log
open Reader List Chunk Log.Writer RecordType
open Segment (chunks_cons placed)

/-- The record has no fragment in block `b`. -/
def Placed.Outside (b : Nat) (p : Placed) : Prop :=
  p.stop ≤ b * kBlockSize ∨ b * kBlockSize + kBlockSize ≤ p.start

namespace Reader

/-- The file holds these chunks, except that those in block `b` need not be whole: there a
header that is accepted is that of the chunk. -/
def Damaged (F : Bytes) (b : Nat) : Nat → List Chunk → Prop
  | pos, [] => F.length = pos
  | pos, c :: rest =>
    c.stop pos ≤ F.length ∧
      (headerOffset pos / kBlockSize ≠ b →
        physicalRecord c.type c.payload <+: F.drop (headerOffset pos)) ∧
      (headerOffset pos / kBlockSize = b → Valid (blockTail F (headerOffset pos)) →
        typeOfChar ((blockTail F (headerOffset pos)).getD 6 0) = c.type.code ∧
          ((blockTail F (headerOffset pos)).drop kHeaderSize).take
            (lengthField (blockTail F (headerOffset pos))) = c.payload) ∧
      Damaged F b (c.stop pos) rest

theorem Damaged.stop_le {F : Bytes} {b pos : Nat} {chunks : List Chunk}
    (damaged : Damaged F b pos chunks) : chunksStop pos chunks = F.length := by
  induction chunks generalizing pos with
  | nil => exact damaged.symm
  | cons c rest ih => exact ih damaged.2.2.2

section Rounds
variable {F : Bytes} {pos stop fuel : Nat} {r r' : Reader} {a : Assembly} {fragment : Bytes}
  {type : RecordType}

theorem round_orphan (fuel : Nat)
    (read : r.readPhysicalRecord a.fragment = (type.code, fragment, r'))
    (behind : At F stop r') (kind : type = .middle ∨ type = .last)
    (outside : a.inFragmentedRecord = false) :
    ∃ r'' : Reader,
      readRecordLoop (fuel + 1) r a = readRecordLoop fuel r'' { a with fragment } ∧
      At F stop r'' := by
  have synced := behind.synced
  obtain rfl | rfl := kind
  · refine ⟨_, ?_, behind.report fragment.length "missing start of fragmented record(1)"⟩
    simp only [readRecordLoop, read, synced, synced_eq synced, Bool.false_eq_true, false_and,
      if_false, if_true, code, Nat.reduceEqDiff, outside]
  · refine ⟨_, ?_, behind.report fragment.length "missing start of fragmented record(2)"⟩
    simp only [readRecordLoop, read, synced, synced_eq synced, Bool.false_eq_true, false_and,
      if_false, if_true, code, Nat.reduceEqDiff, outside]

theorem round_bad (fuel : Nat) (read : r.readPhysicalRecord a.fragment = (kBadRecord, fragment, r'))
    (behind : At F stop r') :
    ∃ (r'' : Reader) (a' : Assembly),
      readRecordLoop (fuel + 1) r a = readRecordLoop fuel r'' a' ∧ At F stop r'' ∧
      a'.inFragmentedRecord = false := by
  have synced := behind.synced
  simp only [readRecordLoop, read, synced, synced_eq synced, Bool.false_eq_true, false_and,
    if_false, if_true, code, kEof, kBadRecord, kMaxRecordType, Nat.reduceEqDiff,
    Nat.reduceAdd]
  by_cases inside : a.inFragmentedRecord = true
  · rw [if_pos inside]
    exact ⟨_, _, rfl, behind.report _ _, rfl⟩
  · rw [if_neg inside]
    exact ⟨_, _, rfl, behind, by simpa using inside⟩

variable {outer inner : Nat} {a' : Assembly} {data : Bytes}

theorem readFrom_goes (reading : Reading F pos outer (fuel + 1) r)
    (goes : readRecordLoop (fuel + 1) r a = readRecordLoop fuel r' a') (behind : At F stop r')
    (forward : pos < stop) :
    Reading F stop outer fuel r' ∧
      readFrom outer (fuel + 1) r a = readFrom outer fuel r' a' := by
  have deep := reading.deep
  have wide := reading.wide
  exact ⟨⟨behind, by omega, by omega⟩, by rw [readFrom, goes, readFrom]⟩

theorem readFrom_returns (reading : Reading F pos outer inner r)
    (returns : readRecordLoop inner r a = some (some data, r')) (behind : At F stop r')
    (forward : pos < stop) :
    ∃ outer' inner', Reading F stop outer' inner' r' ∧
      readFrom outer inner r a =
        prepend [(data, r'.lastRecordOffset)] (readFrom outer' inner' r' {}) := by
  have upper := Nat.le_trans behind.lower behind.upper
  have wide := reading.wide
  obtain ⟨outer, rfl⟩ : ∃ m, outer = m + 1 := ⟨outer - 1, by omega⟩
  refine ⟨outer, F.length - stop + 1, ⟨behind, by omega, by omega⟩, ?_⟩
  rw [readFrom_some returns, readAllLoop_eq behind]

end Rounds

/-- The next header, in a damaged block or not: the chunk there is returned, or the header
is not accepted. -/
theorem readPhysicalRecord_damaged {F : Bytes} {b pos : Nat} {r : Reader} {c : Chunk}
    {rest : List Chunk} (here : At F pos r) (result : Bytes) (fits : c.Fits pos)
    (damaged : Damaged F b pos (c :: rest)) :
    (∃ r' : Reader, r.readPhysicalRecord result = (c.type.code, c.payload, r') ∧
        At F (c.stop pos) r') ∨
      headerOffset pos / kBlockSize = b ∧
        ((∃ r' : Reader, r.readPhysicalRecord result = (kEof, result, r') ∧
            r'.resyncing = false ∧ F.length < b * kBlockSize + kBlockSize) ∨
          ∃ r' : Reader, r.readPhysicalRecord result = (kBadRecord, result, r') ∧
            At F (blockEnd F (headerOffset pos)) r') := by
  obtain ⟨inside, whole, accepted, -⟩ := damaged
  by_cases outside : headerOffset pos / kBlockSize = b
  · have room : headerOffset pos + kHeaderSize ≤ F.length := by
      simp only [stop] at inside
      omega
    have outcome := readPhysicalRecord_outcome here result room
    generalize read : r.readPhysicalRecord result = answer at outcome
    cases outcome with
    | fragment valid behind =>
      left
      obtain ⟨type, payload⟩ := accepted outside valid
      have length : lengthField (blockTail F (headerOffset pos)) = c.payload.length := by
        have size := valid.room
        rw [← payload, length_take, length_drop]
        omega
      rw [type, payload]
      refine ⟨_, rfl, ?_⟩
      rwa [length, ← Nat.add_assoc] at behind
    | cutOff invalid last synced => exact .inr ⟨outside, .inl ⟨_, rfl, synced, outside ▸ last⟩⟩
    | dropped invalid behind => exact .inr ⟨outside, .inr ⟨_, rfl, behind⟩⟩
  · obtain ⟨r', read, behind, -⟩ := readPhysicalRecord_record here result fits (whole outside)
    exact .inl ⟨r', read, behind⟩

/-- A reading that loses no record but those with a fragment in block `b`. -/
def Loses (b : Nat) (result : Option (List (Bytes × Nat) × Reader)) (records : List Placed) :
    Prop :=
  ∃ (kept : List Placed) (last : Reader), result = some (entries kept, last) ∧
    kept.Sublist records ∧ ∀ p ∈ records, p.Outside b → p ∈ kept

namespace Loses
variable {b : Nat} {result : Option (List (Bytes × Nat) × Reader)} {records : List Placed}
  {p : Placed}

theorem keep (loses : Loses b result records) (data : Bytes) (start : Nat)
    (same : (data, start) = (p.data, p.start)) :
    Loses b (prepend [(data, start)] result) (p :: records) := by
  obtain ⟨kept, last, rfl, sublist, all⟩ := loses
  refine ⟨p :: kept, last, by rw [same]; rfl, sublist.cons_cons p, ?_⟩
  intro q mem outside
  obtain rfl | mem := mem_cons.mp mem
  · exact mem_cons_self
  · exact mem_cons_of_mem p (all q mem outside)

theorem drop (loses : Loses b result records) (touched : ¬ p.Outside b) :
    Loses b result (p :: records) := by
  obtain ⟨kept, last, isResult, sublist, all⟩ := loses
  refine ⟨kept, last, isResult, sublist.cons p, ?_⟩
  intro q mem outside
  obtain rfl | mem := mem_cons.mp mem
  · exact absurd outside touched
  · exact all q mem outside

theorem rest (r : Reader) (touched : ∀ p ∈ records, ¬ p.Outside b) :
    Loses b (some ([], r)) records :=
  ⟨[], r, rfl, nil_sublist _, fun p mem outside => absurd outside (touched p mem)⟩

end Loses
theorem spells_tail {begin : Bool} {data : Bytes} {c : Chunk} {rest : List Chunk}
    (spells : Spells begin data (c :: rest)) : rest = [] ∨ ∃ data', Spells false data' rest := by
  cases spells with
  | full => exact .inl rfl
  | last => exact .inl rfl
  | first _ tail => exact .inr ⟨_, tail⟩
  | middle _ tail => exact .inr ⟨_, tail⟩

/-- What is left to read: the rest of a record, and further records. -/
structure Ahead (F : Bytes) (b pos : Nat) (lead : List Chunk) (segments : List Segment) : Prop where
  fit : ChunksFit pos (lead ++ Segment.chunks segments)
  damaged : Damaged F b pos (lead ++ Segment.chunks segments)
  complete : ∀ s ∈ segments, s.Complete
  spells : lead = [] ∨ ∃ data, Spells false data lead

/-- The state of the assembly, with the record that is being put together. -/
inductive Assembling (a : Assembly) (pos : Nat) (lead : List Chunk) : Option Placed → Prop where
  | idle (outside : a.inFragmentedRecord = false) : Assembling a pos lead none
  | record {data : Bytes} (inside : a.inFragmentedRecord = true) (spells : Spells false data lead)
      (begun : a.prospectiveOffset < pos) :
      Assembling a pos lead (some ⟨a.scratch ++ data, a.prospectiveOffset, chunksStop pos lead⟩)

namespace Ahead
variable {F : Bytes} {b pos : Nat} {lead : List Chunk} {segments : List Segment}

theorem cases (ahead : Ahead F b pos lead segments) : (lead = [] ∧ segments = []) ∨
      (∃ c lead', lead = c :: lead' ∧ Ahead F b (c.stop pos) lead' segments) ∨
      ∃ s rest c tail, lead = [] ∧ segments = s :: rest ∧ s.written = c :: tail ∧
        Ahead F b (c.stop pos) tail rest := by
  obtain ⟨fit, damaged, complete, spells⟩ := ahead
  cases lead with
  | cons c lead' =>
    obtain ⟨data, spells⟩ := spells.resolve_left (cons_ne_nil _ _)
    exact .inr (.inl ⟨c, lead', rfl, fit.2, damaged.2.2.2, complete, spells_tail spells⟩)
  | nil =>
    cases segments with
    | nil => exact .inl ⟨rfl, rfl⟩
    | cons s rest =>
      have spelled := (complete s mem_cons_self).spells
      obtain ⟨c, tail, written⟩ := exists_cons_of_ne_nil spelled.ne_nil
      rw [nil_append, chunks_cons, written, cons_append] at fit damaged
      exact .inr (.inr ⟨s, rest, c, tail, rfl, rfl, written, fit.2, damaged.2.2.2,
        fun t mem => complete t (mem_cons_of_mem s mem), spells_tail (written ▸ spelled)⟩)

end Ahead

variable {pos : Nat} {p : Placed}

theorem placed_cons_complete {s : Segment} {rest : List Segment} (complete : s.Complete) :
    placed pos (s :: rest) =
      ⟨s.data, headerOffset pos, chunksStop pos s.written⟩ ::
        placed (chunksStop pos s.written) rest :=
  if_pos complete

theorem placed_start_lt {segments : List Segment}
    (mem : p ∈ placed pos segments) : p.start < p.stop := by
  induction segments generalizing pos with
  | nil => cases mem
  | cons s rest ih =>
    by_cases complete : s.Complete
    · rw [placed_cons_complete complete, mem_cons] at mem
      obtain rfl | later := mem
      · obtain ⟨c, tail, written⟩ := exists_cons_of_ne_nil complete.spells.ne_nil
        have upper := chunksStop_lower (c.stop pos) tail
        simp only [written, chunksStop, stop, kHeaderSize_eq] at upper ⊢
        omega
      · exact ih later
    · rw [placed, if_neg complete] at mem
      exact ih mem

theorem not_outside {b h : Nat} (block : h / kBlockSize = b) (start : p.start ≤ h)
    (stop : h < p.stop) : ¬ p.Outside b := by
  rw [Placed.Outside]
  rw [kBlockSize_eq] at *
  omega

section
variable {F : Bytes} {b pos rpos outer inner : Nat} {lead : List Chunk} {segments : List Segment}
  {r : Reader} {a : Assembly} {current : Option Placed}

/-- The records still to be read, with the one that is being put together. -/
def pending (current : Option Placed) (pos : Nat) (lead : List Chunk) (segments : List Segment) :
    List Placed :=
  current.toList ++ placed (chunksStop pos lead) segments

theorem Assembling.of_nil (assembling : Assembling a pos [] current) :
    current = none ∧ a.inFragmentedRecord = false := by
  cases assembling with
  | idle outside => exact ⟨rfl, outside⟩
  | record inside spells begun => exact absurd rfl spells.ne_nil

variable {c : Chunk} {chunks tail : List Chunk} {p : Placed} {s : Segment} {rest : List Segment}
  {n : Nat} {r' : Reader}

theorem placed_after (isNext : lead ++ Segment.chunks segments = c :: chunks)
    (complete : ∀ s ∈ segments, s.Complete)
    (mem : p ∈ placed (chunksStop pos lead) segments) : c.stop pos ≤ p.stop := by
  cases lead with
  | cons d lead' =>
    obtain rfl := (cons.inj isNext).1
    exact (chunksStop_lower _ _).trans (Segment.placed_stop mem).le
  | nil =>
    cases segments with
    | nil => cases mem
    | cons s rest =>
      obtain ⟨d, tail, written⟩ :=
        exists_cons_of_ne_nil (complete s mem_cons_self).spells.ne_nil
      rw [nil_append, chunks_cons, written] at isNext
      obtain rfl := (cons.inj isNext).1
      have reached := Segment.placed_stop_ge mem
      rw [written] at reached
      exact (chunksStop_lower _ _).trans reached

theorem headerOffset_lt_stop (pos : Nat) (c : Chunk) : headerOffset pos < c.stop pos := by
  simp only [stop, kHeaderSize_eq]
  omega

theorem Assembling.touched (assembling : Assembling a pos lead (some p))
    (block : headerOffset pos / kBlockSize = b) : ¬ p.Outside b := by
  cases assembling with
  | record inside spells begun =>
    obtain ⟨c, rest, rfl⟩ := exists_cons_of_ne_nil spells.ne_nil
    refine not_outside block (begun.le.trans (Nat.le_add_right _ _)) ?_
    exact (headerOffset_lt_stop pos c).trans_le (chunksStop_lower _ _)

theorem pending_touched
    (isNext : lead ++ Segment.chunks segments = c :: chunks) (ahead : Ahead F b pos lead segments)
    (assembling : Assembling a pos lead current)
    (block : headerOffset pos / kBlockSize = b)
    (ends : F.length < b * kBlockSize + kBlockSize) :
    ∀ p ∈ pending current pos lead segments, ¬ p.Outside b := by
  intro p mem
  obtain mem | mem := mem_append.mp mem
  · rw [Option.mem_toList] at mem
    cases mem
    exact assembling.touched block
  · have after := placed_after isNext ahead.complete mem
    have start := placed_start_lt mem
    have stop := Segment.placed_stop_le mem
    rw [← chunksStop_append, ahead.damaged.stop_le] at stop
    have lower := headerOffset_lt_stop pos c
    rw [Placed.Outside]
    rw [kBlockSize_eq] at *
    omega

/-- The reader stands in front of the next chunk, or it has given up block `b`, which it has
reached, and stands at its end. -/
def Stands (F : Bytes) (b pos rpos : Nat) (current : Option Placed) : Prop :=
  headerOffset rpos = headerOffset pos ∨
    rpos = min F.length (b * kBlockSize + kBlockSize) ∧ b * kBlockSize ≤ pos ∧
      pos ≤ b * kBlockSize + kBlockSize ∧ current = none

/-- What is to be shown of `n` chunks. -/
def Handles (F : Bytes) (b n : Nat) : Prop :=
  ∀ {pos rpos outer inner : Nat} {lead : List Chunk} {segments : List Segment} {r : Reader}
    {a : Assembly} {current : Option Placed},
    (lead ++ Segment.chunks segments).length = n → Reading F rpos outer inner r →
    Ahead F b pos lead segments → Assembling a pos lead current → Stands F b pos rpos current →
    Loses b (readFrom outer inner r a) (pending current pos lead segments)

theorem handles_zero (F : Bytes) (b : Nat) : Handles F b 0 := by
  intro pos rpos outer inner lead segments r a current count reading ahead assembling stands
  obtain ⟨rfl, rfl⟩ | ⟨c, lead', rfl, -⟩ | ⟨s, rest, c, tail, rfl, rfl, written, -⟩ := ahead.cases
  · obtain ⟨rfl, -⟩ := assembling.of_nil
    have length : F.length = pos := ahead.damaged
    have short : F.length < headerOffset rpos + kHeaderSize := by
      obtain same | ⟨isEnd, -, upper, -⟩ := stands
      · rw [same, headerOffset, kHeaderSize_eq]
        omega
      · rw [headerOffset, kHeaderSize_eq]
        omega
    obtain ⟨last, ends, -⟩ := readFrom_end a reading short
    rw [ends]
    exact .rest last (by simp [pending, placed])
  · simp at count
  · simp [chunks_cons, written] at count

theorem pending_first (complete : s.Complete) (written : s.written = c :: tail) :
    pending none pos [] (s :: rest) =
      ⟨s.data, headerOffset pos, chunksStop (c.stop pos) tail⟩ ::
        pending none (c.stop pos) tail rest := by
  simp only [pending, Option.toList_none, nil_append, chunksStop,
    placed_cons_complete complete, written]

theorem handles_skip (ih : Handles F b n)
    (count : (lead ++ Segment.chunks segments).length = n + 1) {a₀ : Assembly}
    (reading : Reading F (min F.length (b * kBlockSize + kBlockSize)) outer inner r)
    (ahead : Ahead F b pos lead segments) (assembling : Assembling a₀ pos lead current)
    (idle : a.inFragmentedRecord = false) (block : headerOffset pos / kBlockSize = b) :
    Loses b (readFrom outer inner r a) (pending current pos lead segments) := by
  have stands {c : Chunk} (fits : c.Fits pos) :
      Stands F b (c.stop pos) (min F.length (b * kBlockSize + kBlockSize)) none := by
    have upper := fits_block fits
    have lower := headerOffset_lt_stop pos c
    refine .inr ⟨rfl, ?_, block ▸ upper, rfl⟩
    rw [kBlockSize_eq] at *
    omega
  obtain ⟨rfl, rfl⟩ | ⟨c, lead', rfl, ahead'⟩ | ⟨s, rest, c, tail, rfl, rfl, written, ahead'⟩ :=
    ahead.cases
  · simp [Segment.chunks] at count
  · have loses := ih (by simpa using count) reading ahead' (.idle idle) (stands ahead.fit.1)
    cases current with
    | none => exact loses
    | some p => exact loses.drop (assembling.touched block)
  · obtain ⟨rfl, -⟩ := assembling.of_nil
    have fits : c.Fits pos := by
      have fit := ahead.fit
      rw [nil_append, chunks_cons, written] at fit
      exact fit.1
    have left : (tail ++ Segment.chunks rest).length = n := by
      simpa [chunks_cons, written] using count
    rw [pending_first (ahead.complete s mem_cons_self) written]
    refine (ih left reading ahead' (.idle idle) (stands fits)).drop (not_outside block le_rfl ?_)
    exact (headerOffset_lt_stop pos c).trans_le (chunksStop_lower _ _)

theorem handles_lead (ih : Handles F b n)
    (count : (c :: lead ++ Segment.chunks segments).length = n + 1)
    (reading : Reading F rpos outer inner r) (ahead : Ahead F b pos (c :: lead) segments)
    (ahead' : Ahead F b (c.stop pos) lead segments)
    (assembling : Assembling a pos (c :: lead) current)
    (read : r.readPhysicalRecord a.fragment = (c.type.code, c.payload, r'))
    (behind : At F (c.stop pos) r') (forward : rpos < c.stop pos) :
    Loses b (readFrom outer inner r a) (pending current pos (c :: lead) segments) := by
  obtain ⟨fuel, rfl⟩ := reading.pred
  have left : (lead ++ Segment.chunks segments).length = n := by simpa using count
  cases assembling with
  | idle outside =>
    have kind : c.type = .middle ∨ c.type = .last := by
      obtain ⟨data, spells⟩ := ahead.spells.resolve_left (cons_ne_nil _ _)
      cases spells with
      | last => exact .inr rfl
      | middle => exact .inl rfl
    obtain ⟨r₁, goes, behind₁⟩ := round_orphan fuel read behind kind outside
    obtain ⟨reading₁, result⟩ := readFrom_goes reading goes behind₁ forward
    have loses := ih (a := { a with fragment := c.payload }) left reading₁ ahead' (.idle outside)
      (.inl rfl)
    rw [result]
    exact loses
  | record inside spells begun =>
    cases spells with
    | last data =>
      obtain ⟨outer₁, inner₁, reading₁, result⟩ := readFrom_returns reading
        (round_last read behind.synced inside) (behind.setLast _) forward
      rw [result]
      exact (ih left reading₁ ahead' (.idle rfl) (.inl rfl)).keep _ _ rfl
    | middle part tail =>
      obtain ⟨reading₁, result⟩ := readFrom_goes reading
        (round_middle read behind.synced inside) behind forward
      have begun₁ : a.prospectiveOffset < stop pos ⟨.middle, part⟩ :=
        begun.trans_le ((Nat.le_add_right _ _).trans (headerOffset_lt_stop pos _).le)
      have loses := ih (a := { a with scratch := a.scratch ++ part, fragment := part }) left
        reading₁ ahead' (.record inside tail begun₁) (.inl rfl)
      rw [result]
      simpa only [pending, chunksStop, append_assoc] using loses

theorem handles_first (ih : Handles F b n) (count : (Segment.chunks (s :: rest)).length = n + 1)
    (complete : s.Complete) (written : s.written = c :: tail)
    (reading : Reading F rpos outer inner r) (ahead : Ahead F b (c.stop pos) tail rest)
    (idle : a.inFragmentedRecord = false)
    (read : r.readPhysicalRecord a.fragment = (c.type.code, c.payload, r'))
    (behind : At F (c.stop pos) r') (forward : rpos < c.stop pos) :
    Loses b (readFrom outer inner r a) (pending none pos [] (s :: rest)) := by
  obtain ⟨fuel, rfl⟩ := reading.pred
  have left : (tail ++ Segment.chunks rest).length = n := by
    simpa [chunks_cons, written] using count
  have spells := written ▸ complete.spells
  rw [pending_first complete written]
  generalize s.data = data at spells
  cases spells with
  | full data =>
    have returns := @round_full fuel _ _ _ _ read
    rw [synced_eq behind.synced, abandon_quiet idle, behind.header] at returns
    obtain ⟨outer₁, inner₁, reading₁, result⟩ :=
      readFrom_returns reading returns (behind.setLast _) forward
    rw [result]
    exact (ih left reading₁ ahead (.idle rfl) (.inl rfl)).keep _ _ rfl
  | first part tail =>
    have goes := @round_first fuel _ _ _ _ read
    rw [synced_eq behind.synced, abandon_quiet idle, behind.header] at goes
    obtain ⟨reading₁, result⟩ := readFrom_goes reading goes behind forward
    rw [result]
    exact ih left reading₁ ahead
      (Assembling.record rfl tail (headerOffset_lt_stop pos ⟨.first, part⟩)) (.inl rfl)

theorem Damaged.congr (same : headerOffset rpos = headerOffset pos)
    (damaged : Damaged F b pos (c :: chunks)) : Damaged F b rpos (c :: chunks) := by
  simpa only [Damaged, stop, same] using damaged

theorem handles_next (ih : Handles F b n) (count : (lead ++ Segment.chunks segments).length = n + 1)
    (reading : Reading F rpos outer inner r) (ahead : Ahead F b pos lead segments)
    (assembling : Assembling a pos lead current)
    (same : headerOffset rpos = headerOffset pos) :
    Loses b (readFrom outer inner r a) (pending current pos lead segments) := by
  obtain ⟨c, chunks, isNext⟩ := exists_cons_of_length_eq_add_one count
  obtain ⟨fuel, rfl⟩ := reading.pred
  have stops : c.stop rpos = c.stop pos := by simp only [stop, same]
  have damaged : Damaged F b rpos (c :: chunks) := (isNext ▸ ahead.damaged).congr same
  have fits : c.Fits rpos := by
    have fits : c.Fits pos := (isNext ▸ ahead.fit).1
    rwa [Chunk.Fits, ← same] at fits
  have forward : rpos < c.stop pos :=
    stops ▸ (Nat.le_add_right _ _).trans_lt (headerOffset_lt_stop rpos c)
  obtain ⟨r', read, behind⟩ | ⟨block, ⟨r', read, synced, ends⟩ | ⟨r', read, behind⟩⟩ :=
    readPhysicalRecord_damaged reading.here a.fragment fits damaged
  · rw [stops] at behind
    obtain ⟨rfl, rfl⟩ | ⟨d, lead', rfl, ahead'⟩ | ⟨s, rest, d, tail, rfl, rfl, written, ahead'⟩ :=
      ahead.cases
    · simp [Segment.chunks] at count
    · obtain rfl := (cons.inj isNext).1
      exact handles_lead ih count reading ahead ahead' assembling read behind forward
    · have isHead := isNext
      rw [nil_append, chunks_cons, written] at isHead
      obtain rfl := (cons.inj isHead).1
      obtain ⟨rfl, idle⟩ := assembling.of_nil
      exact handles_first ih count (ahead.complete s mem_cons_self) written reading ahead' idle
        read behind forward
  · rw [readFrom_none (round_eof read)]
    exact .rest _ (pending_touched isNext ahead assembling (same ▸ block) ends)
  · obtain ⟨r₁, a₁, goes, behind₁, idle⟩ := round_bad fuel read behind
    have room : headerOffset rpos + kHeaderSize ≤ F.length :=
      (Nat.le_add_right _ _).trans damaged.1
    obtain ⟨reading₁, result⟩ := readFrom_goes reading goes behind₁ (headerOffset_lt_blockEnd room)
    rw [blockEnd, block] at reading₁
    rw [result]
    exact handles_skip ih count reading₁ ahead assembling idle (same ▸ block)

theorem headerOffset_of_block (lower : b * kBlockSize ≤ pos)
    (upper : pos ≤ b * kBlockSize + kBlockSize) :
    headerOffset pos / kBlockSize = b ∨
      headerOffset pos = b * kBlockSize + kBlockSize := by
  obtain ⟨_, same⟩ | ⟨room, same⟩ := headerOffset_cases pos <;>
    rw [kBlockSize_eq, kHeaderSize_eq] at * <;> omega

theorem headerOffset_next (b : Nat) :
    headerOffset (b * kBlockSize + kBlockSize) = b * kBlockSize + kBlockSize :=
  headerOffset_boundary (by rw [Nat.add_mod_right, Nat.mul_mod_left])

theorem handles_succ (ih : Handles F b n) : Handles F b (n + 1) := by
  intro pos rpos outer inner lead segments r a current count reading ahead assembling stands
  obtain same | ⟨rfl, lower, upper, rfl⟩ := stands
  · exact handles_next ih count reading ahead assembling same
  · obtain block | next := headerOffset_of_block lower upper
    · cases assembling with
      | idle outside => exact handles_skip ih count reading ahead (.idle outside) outside block
    · -- The block that was given up has no further header, so the reader is where the next one is.
      obtain ⟨c, chunks, isNext⟩ := exists_cons_of_length_eq_add_one count
      have inside : c.stop pos ≤ F.length := (isNext ▸ ahead.damaged).1
      have whole : b * kBlockSize + kBlockSize ≤ F.length :=
        next ▸ (headerOffset_lt_stop pos c).le.trans inside
      refine handles_next ih count reading ahead assembling ?_
      rw [Nat.min_eq_right whole, next, headerOffset_next]

theorem handles (F : Bytes) (b n : Nat) : Handles F b n := by
  induction n with
  | zero => exact handles_zero F b
  | succ n ih => exact handles_succ ih

end

/-- Bytes that differ from the log only in block `b`. -/
structure Confined (b : Nat) (log damaged : Bytes) : Prop where
  length : damaged.length = log.length
  same : ∀ i, i / kBlockSize ≠ b → damaged[i]? = log[i]?

/-- The checksum test accepts the header at `h` only where it is that of `c`. -/
def AcceptsOnly (F : Bytes) (h : Nat) (c : Chunk) : Prop :=
  Valid (blockTail F h) →
    typeOfChar ((blockTail F h).getD 6 0) = c.type.code ∧
      ((blockTail F h).drop kHeaderSize).take (lengthField (blockTail F h)) = c.payload

instance (F : Bytes) (h : Nat) (c : Chunk) : Decidable (AcceptsOnly F h c) := by
  unfold AcceptsOnly
  infer_instance

theorem Confined.record {b pos : Nat} {log damaged : Bytes} (confined : Confined b log damaged)
    {c : Chunk} (fits : c.Fits pos) (other : headerOffset pos / kBlockSize ≠ b)
    (holds : physicalRecord c.type c.payload <+: log.drop (headerOffset pos)) :
    physicalRecord c.type c.payload <+: damaged.drop (headerOffset pos) := by
  rw [prefix_iff_getElem?] at holds ⊢
  intro i inside
  rw [← holds i inside, getElem?_drop, getElem?_drop]
  refine confined.same _ ?_
  have room := fits.1
  rw [physicalRecord_length] at inside
  rw [kBlockSize_eq] at *
  omega

theorem Confined.damaged {b pos : Nat} {log F : Bytes} (confined : Confined b log F)
    {chunks : List Chunk} (fit : ChunksFit pos chunks) (inside : pos ≤ log.length)
    (holds : log.drop pos = chunksBytes pos chunks)
    (accepts : ∀ p ∈ positioned pos chunks, p.1 / kBlockSize = b → AcceptsOnly F p.1 p.2) :
    Damaged F b pos chunks := by
  induction chunks generalizing pos with
  | nil =>
    have none := congrArg List.length holds
    rw [length_drop, chunksBytes, length_nil] at none
    rw [Damaged, confined.length]
    omega
  | cons c rest ih =>
    rw [chunksBytes] at holds
    have total := congrArg List.length holds
    rw [length_drop, length_append, bytes_length] at total
    have lower := stop_lower pos c
    have stop : c.stop pos ≤ log.length := by omega
    refine ⟨confined.length ▸ stop, fun other => confined.record fit.1 other ?_,
      accepts _ mem_cons_self, ih fit.2 stop ?_ fun p mem => accepts p (.tail _ mem)⟩
    · rw [headerOffset, ← drop_drop, holds, bytes, append_assoc,
        drop_left' (length_replicate ..)]
      exact prefix_append _ _
    · have split : c.stop pos = pos + (c.bytes pos).length := by rw [bytes_length]; omega
      rw [split, ← drop_drop, holds, drop_left' rfl, ← split]

end Reader

/-- A modification inside block `b` that the checksums detect: the reader comes to its end and
returns the records in order, all but some of those with a fragment in the block. -/
theorem damage_contained (first : List Bytes) (later : List (List Bytes)) (b : Nat)
    (damaged : Bytes) (confined : Confined b (writeLog first later).2 damaged)
    (accepts : ∀ (h : Nat) (c : Chunk), h / kBlockSize = b →
      logEmits first later h c = true → AcceptsOnly damaged h c) :
    let log := writeLog first later
    log.1.map (·.data) = first ++ later.flatten ∧
      ∃ (kept : List Placed) (r : Reader),
        (Reader.new ⟨damaged, none⟩ true 0).readAll =
          some (kept.map fun p => (p.data, p.start), r) ∧
        kept.Sublist log.1 ∧ ∀ p ∈ log.1, p.Outside b → p ∈ kept := by
  obtain ⟨listed, dest, segments, contents, grew, emitted⟩ := writeLog_grew first later
  refine ⟨listed, ?_⟩
  have here := At.new damaged
  have reading : Reading damaged 0 damaged.length (damaged.length + 1)
      (Reader.new ⟨damaged, none⟩ true 0) := ⟨here, by omega, by omega⟩
  have ahead : Ahead damaged b 0 [] segments := by
    refine ⟨grew.fit, confined.damaged grew.fit (Nat.zero_le _) ?_ ?_, grew.complete, .inl rfl⟩
    · rw [← contents, grew.contents]
      rfl
    · exact fun p mem block => accepts p.1 p.2 block (emitted p mem)
  have loses := handles damaged b _ rfl reading ahead (Assembling.idle (a := {}) rfl) (.inl rfl)
  rw [readAll, here.unread, readAllLoop_eq here, grew.places]
  exact loses

theorem Writer.anyRound_short {f : Writer → RecordType → Bytes → Bool} {w : Writer} {data : Bytes}
    {begin : Bool} {fuel : Nat}
    (short : data.length ≤ kBlockSize - w.fillTrailer.blockOffset - kHeaderSize) :
    anyRound f (fuel + 1) w data begin = f w (fragmentType begin true) data := by
  have all : (if data.length < kBlockSize - w.fillTrailer.blockOffset - kHeaderSize then
      data.length else kBlockSize - w.fillTrailer.blockOffset - kHeaderSize) = data.length := by
    split <;> omega
  simp only [anyRound, all, take_length, decide_true, Nat.sub_self, Nat.lt_irrefl,
    decide_false, Bool.and_false, Bool.false_and, Bool.or_false]

theorem emits_pair {h : Nat} {c : Chunk} (emitted : logEmits [[1], [2]] [] h c = true) :
    (h = 0 ∧ c = ⟨.full, [1]⟩) ∨ (h = 8 ∧ c = ⟨.full, [2]⟩) := by
  have second : ((Writer.new ⟨[], []⟩).place [1]).2.fillTrailer.dest.contents.length = 8 := by
    decide +kernel
  have start : (Writer.new ⟨[], []⟩).fillTrailer.dest.contents.length = 0 := by decide +kernel
  simp only [logEmits, emits, emitsSessions, Bool.or_false, Bool.or_eq_true]
    at emitted
  rw [anyRound_short (by decide +kernel), anyRound_short (by decide +kernel)]
    at emitted
  simp only [emitsAt, second, start, decide_eq_true_eq] at emitted
  exact emitted.imp (And.imp_left Eq.symm) (And.imp_left Eq.symm)

theorem damage_contained_flip : let log := writeLog [[1], [2]] []
    Confined 0 log.2 (log.2.set 15 3) ∧ log.2.set 15 3 ≠ log.2 ∧
      ∃ (kept : List Placed) (r : Reader),
        (Reader.new ⟨log.2.set 15 3, none⟩ true 0).readAll =
          some (kept.map fun p => (p.data, p.start), r) ∧
        kept.Sublist log.1 ∧ ∀ p ∈ log.1, p.Outside 0 → p ∈ kept := by
  intro log
  have length : log.2.length = 16 := by decide +kernel
  have confined : Confined 0 log.2 (log.2.set 15 3) := by
    refine ⟨length_set, fun i outside => ?_⟩
    have far : ¬ i < 16 := by rw [kBlockSize_eq] at outside; omega
    rw [getElem?_eq_none (by rw [length_set]; omega),
      getElem?_eq_none (by omega)]
  refine ⟨confined, by decide +kernel, ?_⟩
  refine (damage_contained [[1], [2]] [] 0 (log.2.set 15 3) confined ?_).2
  intro h c _ emitted
  obtain ⟨rfl, rfl⟩ | ⟨rfl, rfl⟩ := emits_pair emitted <;> decide +kernel

end TalusDB.Log
