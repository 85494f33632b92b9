import TalusDB.Log.RoundTrip

/-! `log::Reader` with an initial offset, over a log without damage. Fragments that start before the
offset are rejected one by one, and `resyncing_` passes over the rest of a record only as long as
nothing was rejected. -/
namespace TalusDB.Log
namespace Reader
open List Segment

/-- The reader stands at `pos` of the file, and reads from the initial offset `o`. -/
structure From (F : Bytes) (o pos : Nat) (r : Reader) : Prop where
  here : At F pos r.plain
  offset : r.initialOffset = o

namespace From
variable {F : Bytes} {o pos : Nat} {r : Reader}

variable (at_ : From F o pos r)
include at_

theorem settle : From F o pos { r with resyncing := false } :=
  ⟨at_.here, at_.offset⟩

theorem setLast (last : Nat) : From F o pos { r with lastRecordOffset := last } :=
  ⟨at_.here.setLast last, at_.offset⟩

theorem report (bytes : Nat) (reason : String) : From F o pos (r.reportDrop bytes reason) := by
  rw [reportDrop]
  split
  · exact ⟨{ at_.here with }, at_.offset⟩
  · exact at_

theorem unread : r.unread = F.length - pos := at_.here.unread

theorem reportDrop_eq (size : F.length < 2 ^ 64) {bytes : Nat}
    (behind : o + bytes ≤ pos) (reason : String) :
    r.reportDrop bytes reason = { r with reports := r.reports ++ [⟨bytes, reason⟩] } := by
  have lower : pos ≤ r.endOfBufferOffset := at_.here.lower
  have upper : r.endOfBufferOffset ≤ F.length := at_.here.upper
  have length : r.buffer.length = r.endOfBufferOffset - pos := at_.here.buffer_length
  have small : ((r.endOfBufferOffset : Int) - r.buffer.length - bytes) % 2 ^ 64 =
      (r.endOfBufferOffset : Int) - r.buffer.length - bytes :=
    Int.emod_eq_of_lt (by omega) (by omega)
  rw [reportDrop, small, if_pos (by rw [at_.offset]; omega)]

end From

section rounds
variable {fuel : Nat} {r r' : Reader} {a : Assembly} {fragment : Bytes}

theorem round_rejected (read : r.readPhysicalRecord a.fragment = (kBadRecord, fragment, r'))
    (idle : a.inFragmentedRecord = false) :
    readRecordLoop (fuel + 1) r a =
      readRecordLoop fuel { r' with resyncing := false } { a with fragment } := by
  simp only [readRecordLoop, read, idle]
  cases r'.resyncing <;> rfl

theorem round_passOver {type : RecordType} (inner : type = .middle ∨ type = .last)
    (read : r.readPhysicalRecord a.fragment = (type.code, fragment, r'))
    (resyncing : r'.resyncing = true) :
    readRecordLoop (fuel + 1) r a =
      readRecordLoop fuel { r' with resyncing := type = .middle } { a with fragment } := by
  obtain rfl | rfl := inner
  · simp only [readRecordLoop, read, resyncing]
    simp [← resyncing]
  · simp only [readRecordLoop, read, resyncing]
    rfl

theorem round_missing {type : RecordType} (inner : type = .middle ∨ type = .last)
    (read : r.readPhysicalRecord a.fragment = (type.code, fragment, r'))
    (synced : r'.resyncing = false) (idle : a.inFragmentedRecord = false) :
    ∃ reason, readRecordLoop (fuel + 1) r a =
      readRecordLoop fuel (r'.reportDrop fragment.length reason) { a with fragment } := by
  obtain rfl | rfl := inner
  all_goals
    simp only [readRecordLoop, read, synced, synced_eq synced, idle]
    exact ⟨_, rfl⟩

end rounds

theorem Chunk.headerOffset_stop (pos : Nat) (c : Chunk) :
    Chunk.headerOffset pos ≤ Chunk.headerOffset (c.stop pos) := by
  simp only [Chunk.stop, Chunk.headerOffset]
  omega

section fragments
variable {F : Bytes} {o : Nat}

theorem From.next {pos : Nat} {r : Reader} {c : Chunk} {rest : List Chunk} (at_ : From F o pos r)
    (result : Bytes) (fit : ChunksFit pos (c :: rest))
    (placed : chunksBytes pos (c :: rest) <+: F.drop pos) :
    ∃ r' : Reader, r.readPhysicalRecord result =
        (if Chunk.headerOffset pos < o then (kBadRecord, [], r')
          else (c.type.code, c.payload, r')) ∧
      From F o (c.stop pos) r' ∧ r'.resyncing = r.resyncing ∧ r'.reports = r.reports ∧
      chunksBytes (c.stop pos) rest <+: F.drop (c.stop pos) := by
  obtain ⟨inside, after⟩ := placed_cons placed
  obtain ⟨r', read, there, kept⟩ :=
    readPhysicalRecord_fragment at_.here result fit.1 (Chunk.record_at inside)
  rw [at_.offset] at read
  exact ⟨r', read, ⟨there, kept.initialOffset.trans at_.offset⟩, kept.resyncing, kept.reports, after⟩

theorem From.header {pos : Nat} {r : Reader} {c : Chunk} (behind : From F o (c.stop pos) r) :
    r.endOfBufferOffset - r.buffer.length - kHeaderSize - c.payload.length =
      Chunk.headerOffset pos :=
  behind.here.header

theorem From.pass {pos : Nat} {r : Reader} {a : Assembly} {c : Chunk} {rest : List Chunk}
    (at_ : From F o pos r) (size : F.length < 2 ^ 64) (fit : ChunksFit pos (c :: rest))
    (placed : chunksBytes pos (c :: rest) <+: F.drop pos) (idle : a.inFragmentedRecord = false)
    (fuel : Nat) (inner : ¬ Chunk.headerOffset pos < o → c.type = .middle ∨ c.type = .last) :
    ∃ (r' : Reader) (a' : Assembly) (added : List Report),
      readRecordLoop (fuel + 1) r a = readRecordLoop fuel r' a' ∧ From F o (c.stop pos) r' ∧
      a'.inFragmentedRecord = false ∧ r'.reports = r.reports ++ added ∧
      (added = [] ↔ Chunk.headerOffset pos < o ∨ r.resyncing = true) ∧
      (c.type ≠ .last →
        (r'.resyncing = true ↔ r.resyncing = true ∧ ¬ Chunk.headerOffset pos < o)) ∧
      chunksBytes (c.stop pos) rest <+: F.drop (c.stop pos) := by
  obtain ⟨r₁, read, there, sync, reports, after⟩ := at_.next a.fragment fit placed
  by_cases before : Chunk.headerOffset pos < o
  · rw [if_pos before] at read
    exact ⟨_, _, [], round_rejected read idle, there.settle, idle, by simpa using reports,
      by simp [before], by simp [before], after⟩
  rw [if_neg before] at read
  have inner := inner before
  by_cases resyncing : r.resyncing = true
  · refine ⟨_, _, [], round_passOver inner read (sync.trans resyncing), ⟨there.here, there.offset⟩, idle,
      by simpa using reports, by simp [resyncing], fun notLast => ?_, after⟩
    simp [inner.resolve_right notLast, resyncing, before]
  · have synced : r₁.resyncing = false := by simpa [sync] using resyncing
    obtain ⟨reason, goes⟩ := @round_missing fuel _ _ _ _ _ inner read synced idle
    have behind : o + c.payload.length ≤ c.stop pos := by
      simp only [Chunk.stop]
      omega
    have reported := there.report c.payload.length reason
    rw [there.reportDrop_eq size behind] at goes reported
    exact ⟨_, _, [_], goes, reported, idle, by rw [reports], by simp [before, resyncing],
      by simp [synced, resyncing], after⟩

/-- A record that starts before the offset, or the rest of a record that starts before the block where
reading began. It is passed over without a report where all of it lies before the offset, or where
nothing was rejected and all of it lies behind. -/
theorem readRecordLoop_leftover (size : F.length < 2 ^ 64) {begin : Bool} {data : Bytes}
    {chunks : List Chunk} (spells : Spells begin data chunks) (fuel : Nat)
    {pos : Nat} {r : Reader} {a : Assembly} (at_ : From F o pos r) (fit : ChunksFit pos chunks)
    (placed : chunksBytes pos chunks <+: F.drop pos) (idle : a.inFragmentedRecord = false)
    (early : begin = true → Chunk.headerOffset pos < o) :
    ∃ (r' : Reader) (a' : Assembly) (added : List Report),
      readRecordLoop (chunks.length + fuel) r a = readRecordLoop fuel r' a' ∧
      From F o (chunksStop pos chunks) r' ∧ a'.inFragmentedRecord = false ∧
      r'.reports = r.reports ++ added ∧
      (added = [] ↔ (∀ p ∈ positioned pos chunks, p.1 < o) ∨
        (r.resyncing = true ∧ o ≤ Chunk.headerOffset pos)) := by
  induction chunks generalizing begin data pos r a with
  | nil => exact absurd rfl spells.ne_nil
  | cons c rest ih =>
    rw [length_cons, Nat.add_right_comm]
    have inner : ¬ Chunk.headerOffset pos < o → c.type = .middle ∨ c.type = .last := by
      intro behind
      cases spells with
      | full data => exact absurd (early rfl) behind
      | first part tail => exact absurd (early rfl) behind
      | middle part tail => exact .inl rfl
      | last data => exact .inr rfl
    obtain ⟨r₁, a₁, added₁, goes, there, idle₁, grown₁, quiet₁, sync, after⟩ :=
      at_.pass size fit placed idle (rest.length + fuel) inner
    obtain rfl | ⟨tail, rest', notLast⟩ :
        rest = [] ∨ ∃ tail, Spells false tail rest ∧ c.type ≠ .last := by
      cases spells with
      | full data => exact .inl rfl
      | last data => exact .inl rfl
      | first part tail => exact .inr ⟨_, tail, by simp⟩
      | middle part tail => exact .inr ⟨_, tail, by simp⟩
    · refine ⟨r₁, a₁, added₁, by simpa using goes, there, idle₁, grown₁, quiet₁.trans ?_⟩
      simp only [positioned, mem_singleton, forall_eq]
      have := Nat.lt_or_ge (Chunk.headerOffset pos) o
      grind
    · have later := Chunk.headerOffset_stop pos c
      obtain ⟨r', a', added, result, end_, idle', grown, quiet⟩ :=
        ih rest' there fit.2 after idle₁ fun first => Bool.noConfusion first
      refine ⟨r', a', added₁ ++ added, goes.trans result, end_, idle',
        by rw [grown, grown₁, append_assoc], ?_⟩
      rw [append_eq_nil_iff, quiet₁, quiet, sync notLast, positioned, forall_mem_cons]
      grind

theorem From.accept {fuel pos : Nat} {r : Reader} {c : Chunk} {rest : List Chunk}
    (at_ : From F o pos r) (result : Bytes) (fit : ChunksFit pos (c :: rest))
    (placed : chunksBytes pos (c :: rest) <+: F.drop pos) (enough : (c :: rest).length ≤ fuel)
    (behind : o ≤ Chunk.headerOffset pos) :
    ∃ (n : Nat) (r' : Reader), fuel = n + 1 ∧ rest.length ≤ n ∧
      r.readPhysicalRecord result = (c.type.code, c.payload, r') ∧ From F o (c.stop pos) r' ∧
      r'.resyncing = r.resyncing ∧ r'.reports = r.reports ∧
      chunksBytes (c.stop pos) rest <+: F.drop (c.stop pos) ∧
      o ≤ Chunk.headerOffset (c.stop pos) := by
  obtain ⟨r', read, there, sync, reports, after⟩ := at_.next result fit placed
  rw [if_neg (Nat.not_lt.mpr behind)] at read
  rw [length_cons] at enough
  exact ⟨fuel - 1, r', by omega, by omega, read, there, sync, reports, after,
    behind.trans (Chunk.headerOffset_stop pos c)⟩

theorem readRecordLoop_returns {begin : Bool} {data : Bytes} {chunks : List Chunk}
    (spells : Spells begin data chunks) {fuel pos : Nat} {r : Reader} {a : Assembly}
    (at_ : From F o pos r) (fit : ChunksFit pos chunks)
    (placed : chunksBytes pos chunks <+: F.drop pos) (enough : chunks.length ≤ fuel)
    (ready : a.inFragmentedRecord = !begin) (synced : begin = false → r.resyncing = false)
    (behind : o ≤ Chunk.headerOffset pos) :
    ∃ r' : Reader, readRecordLoop fuel r a =
        some (some (if begin then data else a.scratch ++ data), r') ∧
      From F o (chunksStop pos chunks) r' ∧
      r'.lastRecordOffset = (if begin then Chunk.headerOffset pos else a.prospectiveOffset) ∧
      r'.reports = r.reports := by
  induction spells generalizing fuel pos r a with
  | full data =>
    obtain ⟨n, r₁, rfl, -, read, there, sync, reports, -⟩ :=
      at_.accept a.fragment fit placed enough behind
    have returns := @round_full n _ _ _ _ read
    rw [abandon_quiet ready] at returns
    exact ⟨_, returns, there.settle.setLast _, there.header, reports⟩
  | last data =>
    obtain ⟨n, r₁, rfl, -, read, there, sync, reports, -⟩ :=
      at_.accept a.fragment fit placed enough behind
    exact ⟨_, round_last read (sync.trans (synced rfl)) ready, there.setLast _, rfl, reports⟩
  | first part tail ih =>
    obtain ⟨n, r₁, rfl, below, read, there, sync, reports, after, later⟩ :=
      at_.accept a.fragment fit placed enough behind
    rw [round_first read, abandon_quiet ready, there.header]
    obtain ⟨r', result, end_, last, same⟩ :=
      ih (a := ⟨part, true, Chunk.headerOffset pos, part⟩) there.settle fit.2 after below rfl
        (fun _ => rfl) later
    exact ⟨r', result, end_, last, same.trans reports⟩
  | middle part tail ih =>
    obtain ⟨n, r₁, rfl, below, read, there, sync, reports, after, later⟩ :=
      at_.accept a.fragment fit placed enough behind
    have synced₁ := sync.trans (synced rfl)
    rw [round_middle read synced₁ ready]
    obtain ⟨r', result, end_, last, same⟩ :=
      ih (a := { a with scratch := a.scratch ++ part, fragment := part }) there fit.2 after below
        ready (fun _ => synced₁) later
    refine ⟨r', ?_, end_, last, same.trans reports⟩
    rw [result]
    simp

/-- No record has fragments on both sides of the offset. -/
def Clear (o : Nat) : Nat → List Segment → Prop
  | _, [] => True
  | pos, s :: rest =>
    (Chunk.headerOffset pos < o → ∀ p ∈ positioned pos s.written, p.1 < o) ∧
      Clear o (chunksStop pos s.written) rest

/-- The records that start at the offset or behind it. -/
def startingFrom (o : Nat) (placed : List Placed) : List (Bytes × Nat) :=
  entries (placed.filter (o ≤ ·.start))

theorem From.readAllLoop_eq {pos : Nat} {r : Reader} (at_ : From F o pos r)
    (reached : o ≤ r.lastRecordOffset) (outer : Nat) :
    readAllLoop (outer + 1) r = readFrom outer (F.length - pos + 1) r {} := by
  rw [readAllLoop, readRecord, if_neg (by rw [at_.offset]; exact Nat.not_lt.mpr reached), at_.unread]
  rfl

theorem chunks_laid {pos : Nat} {first second : List Chunk}
    (laid : chunksBytes pos (first ++ second) = F.drop pos) :
    chunksBytes pos first <+: F.drop pos ∧
      chunksBytes (chunksStop pos first) second = F.drop (chunksStop pos first) := by
  have lower := chunksStop_lower pos first
  rw [chunksBytes_append] at laid
  refine ⟨⟨_, laid⟩, ?_⟩
  have tail := congrArg (List.drop (chunksBytes pos first).length) laid
  rwa [drop_left, drop_drop, chunksBytes_length,
    show pos + (chunksStop pos first - pos) = chunksStop pos first by omega] at tail

theorem readFrom_offset (size : F.length < 2 ^ 64) {segments : List Segment}
    {pos outer inner : Nat} {r : Reader} {a : Assembly} (at_ : From F o pos r)
    (complete : ∀ s ∈ segments, s.Complete) (fit : ChunksFit pos (chunks segments))
    (laid : chunksBytes pos (chunks segments) = F.drop pos)
    (deep : F.length < pos + inner) (wide : F.length ≤ pos + outer)
    (idle : a.inFragmentedRecord = false) :
    ∃ (r' : Reader) (added : List Report), readFrom outer inner r a =
        some (startingFrom o (placed pos segments), r') ∧
      r'.reports = r.reports ++ added ∧ (added = [] ↔ Clear o pos segments) := by
  induction segments generalizing pos outer inner r a with
  | nil =>
    have inside := Nat.le_trans at_.here.lower at_.here.upper
    have ended : F.length = pos := by
      have none := congrArg List.length laid
      simp only [chunks, flatMap_nil, chunksBytes, length_nil,
        length_drop] at none
      omega
    obtain ⟨inner, rfl⟩ : ∃ n, inner = n + 1 := ⟨inner - 1, by omega⟩
    have short : F.length < Chunk.headerOffset pos + kHeaderSize := by
      rw [ended, Chunk.headerOffset, kHeaderSize_eq]
      omega
    obtain ⟨r', read, kept⟩ := readPhysicalRecord_done at_.here a.fragment short
    refine ⟨_, [], readFrom_none (round_eof read), ?_, by simp [Clear]⟩
    rw [append_nil]
    exact kept.reports
  | cons s rest ih =>
    have whole := complete s mem_cons_self
    have others : ∀ s ∈ rest, s.Complete := fun t isIn => complete t (mem_cons_of_mem _ isIn)
    rw [chunks_cons] at fit laid
    obtain ⟨fitHead, fitRest⟩ := (chunksFit_append _ _ _).mp fit
    obtain ⟨placedHead, laidRest⟩ := chunks_laid laid
    have many := chunks_length_le pos s.written
    have inside : chunksStop pos s.written ≤ F.length := by
      have bound := placedHead.length_le
      have start := Nat.le_trans at_.here.lower at_.here.upper
      rw [chunksBytes_length, length_drop] at bound
      omega
    rw [placed, if_pos whole]
    by_cases before : Chunk.headerOffset pos < o
    · obtain ⟨r₁, a₁, added, passed, there, idle₁, grown, quiet⟩ :=
        readRecordLoop_leftover size whole.spells (inner - s.written.length) at_ fitHead placedHead
          idle fun _ => before
      obtain ⟨r', more, result, grown', quiet'⟩ := @ih _ outer (inner - s.written.length) r₁ a₁ there
        others fitRest laidRest (by omega) (by omega) idle₁
      refine ⟨r', added ++ more, ?_, by rw [grown', grown, append_assoc], ?_⟩
      · rw [show s.written.length + (inner - s.written.length) = inner by omega] at passed
        rw [startingFrom, filter_cons_of_neg (by simpa using before), readFrom, passed]
        exact result
      · rw [append_eq_nil_iff, quiet, quiet', Clear]
        simp [before, Nat.not_le_of_lt before]
    · have behind := Nat.le_of_not_lt before
      have some := length_pos_of_ne_nil whole.spells.ne_nil
      obtain ⟨r₁, returned, there, last, same⟩ := readRecordLoop_returns whole.spells at_ fitHead
        placedHead (show s.written.length ≤ inner by omega) idle
        (fun inside => Bool.noConfusion inside) behind
      obtain ⟨outer, rfl⟩ : ∃ n, outer = n + 1 := ⟨outer - 1, by omega⟩
      obtain ⟨r', added, result, grown, quiet⟩ := @ih _ outer
        (F.length - chunksStop pos s.written + 1) r₁ {} there others fitRest laidRest (by omega)
        (by omega) rfl
      refine ⟨r', added, ?_, by rw [grown, same], ?_⟩
      · rw [readFrom_some returned, there.readAllLoop_eq (last ▸ behind), result, last]
        simp [prepend, startingFrom, entries, behind]
      · rw [quiet, Clear]
        simp [before]

end fragments

end Reader
end TalusDB.Log
