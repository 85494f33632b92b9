import TalusDB.Log.Skip

/-! Where a reader with an initial offset starts in a log, and for which offsets it reads the log
right. -/
namespace TalusDB.Log
open List Log.Writer
open Segment (chunks_cons placed)
open Chunk (bytes headerOffset stop)
namespace Writer

/-- A physical record ends its block, or its record. -/
def Fills (h : Nat) (c : Chunk) : Prop :=
  c.type = .first ∨ c.type = .middle → (h + kHeaderSize + c.payload.length) % kBlockSize = 0

variable {w : Writer} {h : Nat} {c : Chunk}

theorem anyRound_fills {fuel : Nat} {data : Bytes} {begin : Bool}
    (aligned : Aligned w) (clean : w.dest.faults = [])
    (emitted : anyRound (emitsAt h c) fuel w data begin = true) : Fills h c := by
  induction fuel generalizing w data begin with
  | zero => cases emitted
  | succ fuel ih =>
    rw [anyRound] at emitted
    dsimp only at emitted
    have room := fillTrailer_room aligned.bound
    obtain ⟨clean', trailer⟩ := fillTrailer_noFaults clean
    set avail := kBlockSize - w.fillTrailer.blockOffset - kHeaderSize with availEq
    set n := if data.length < avail then data.length else avail with nEq
    have bound : n ≤ avail ∧ n ≤ data.length ∧ (n = data.length ∨ n = avail) := by
      rw [nEq]
      split <;> omega
    rcases (Bool.or_eq_true _ _).mp emitted with now | later
    · intro goes
      obtain ⟨rfl, rfl⟩ := of_decide_eq_true now
      have unfinished : data.length ≠ n := by
        intro whole
        cases begin <;> simp [fragmentType, whole] at goes
      obtain ⟨contents, offset, -⟩ := fillTrailer_whole aligned trailer
      have start : w.fillTrailer.dest.contents.length % kBlockSize = w.fillTrailer.blockOffset := by
        rw [contents, length_append, length_replicate, offset, headerOffset]
      rw [length_take, Nat.min_eq_left bound.2.1, Nat.add_assoc, Nat.add_mod, start]
      rw [kBlockSize_eq, kHeaderSize_eq] at *
      omega
    · rw [Bool.and_eq_true, Bool.and_eq_true] at later
      obtain ⟨⟨ok, -⟩, rest⟩ := later
      have fits : w.fillTrailer.blockOffset + kHeaderSize + (data.take n).length ≤ kBlockSize := by
        rw [length_take]
        omega
      obtain ⟨kept, -, -, -, succeeds, all⟩ := round_spec aligned
        (fragmentType begin (decide (data.length = n))) (data.take n) (fragmentType_ne_zero _ _) fits
        trailer
      exact ih (all (succeeds ok)).2 (emitPhysicalRecord_noFaults clean' _ _).2 rest

theorem emits_fills {records : List Bytes} (aligned : Aligned w)
    (clean : w.dest.faults = []) (emitted : w.emits records h c = true) : Fills h c := by
  induction records generalizing w with
  | nil => cases emitted
  | cons data rest ih =>
    rcases (Bool.or_eq_true _ _).mp emitted with now | later
    · exact anyRound_fills aligned clean now
    · obtain ⟨aligned', s, grew, -⟩ := place_grew aligned clean data
      exact ih aligned' grew.faults later

theorem emitsSessions_fills {dest : WritableFile} {sessions : List (List Bytes)}
    (clean : dest.faults = []) (emitted : emitsSessions dest sessions h c = true) : Fills h c := by
  induction sessions generalizing dest with
  | nil => cases emitted
  | cons records rest ih =>
    rcases (Bool.or_eq_true _ _).mp emitted with now | later
    · exact emits_fills (Aligned.reopen dest) clean now
    · obtain ⟨-, segments, grew, -⟩ := placeAll_grew (Aligned.reopen dest) clean records
      exact ih grew.faults later

theorem logEmits_fills {first : List Bytes} {later : List (List Bytes)}
    (emitted : logEmits first later h c = true) : Fills h c := by
  rcases (Bool.or_eq_true _ _).mp emitted with now | rest
  · exact emits_fills (Aligned.new []) rfl now
  · obtain ⟨-, segments, grew, -⟩ := placeAll_grew (Aligned.new []) rfl first
    exact emitsSessions_fills grew.faults rest

end Writer

namespace Reader

section fragments
variable {F : Bytes} {o : Nat}

/-- Where `SkipToInitialBlock` starts to read. -/
def blockStart (o : Nat) : Nat :=
  o - o % kBlockSize + if kBlockSize - 6 < o % kBlockSize then kBlockSize else 0

theorem blockStart_mod (o : Nat) : blockStart o % kBlockSize = 0 := by
  have split := Nat.div_add_mod o kBlockSize
  have floor : o - o % kBlockSize = kBlockSize * (o / kBlockSize) := by omega
  rw [blockStart, floor]
  split
  · rw [Nat.add_mod_right, Nat.mul_mod_right]
  · rw [Nat.add_zero, Nat.mul_mod_right]

variable {o b pos : Nat}

theorem lt_of_lt_blockStart {h : Nat} (room : h % kBlockSize + kHeaderSize ≤ kBlockSize)
    (before : h < blockStart o) : h < o := by
  rw [blockStart] at before
  rw [kBlockSize_eq, kHeaderSize_eq] at *
  split at before <;> omega

/-- The reader of the first `ReadRecord` call, past `SkipToInitialBlock`. -/
def startAt (F : Bytes) (checksum : Bool) (o : Nat) : Reader :=
  { new ⟨F.drop (blockStart o), none⟩ checksum o with endOfBufferOffset := blockStart o }

theorem readAll_startAt (F : Bytes) (checksum : Bool) (o : Nat) :
    (new ⟨F, none⟩ checksum o).readAll =
      readFrom F.length (F.length - blockStart o + 1) (startAt F checksum o) {} := by
  have skipped : (if 0 < o then (new ⟨F, none⟩ checksum o).skipToInitialBlock
      else new ⟨F, none⟩ checksum o) = startAt F checksum o := by
    by_cases zero : o = 0
    · subst zero
      rfl
    rw [if_pos (Nat.pos_of_ne_zero zero)]
    by_cases first : 0 < blockStart o
    · exact if_pos first
    · have start : blockStart o = 0 := by omega
      refine (if_neg first).trans ?_
      rw [startAt, start]
      exact congrArg (fun offset => { new ⟨F, none⟩ checksum o with endOfBufferOffset := offset })
        start
  have read : (new ⟨F, none⟩ checksum o).readRecord =
      readRecordLoop (F.length - blockStart o + 1) (startAt F checksum o) {} := by
    have left : (startAt F checksum o).unread = F.length - blockStart o := by
      simp [startAt, unread, new]
    rw [← left, ← skipped]
    rfl
  rw [readAll, unread, readAllLoop, read]
  rfl

theorem startAt_from (inside : blockStart o ≤ F.length) (checksum : Bool) :
    From F o (blockStart o) (startAt F checksum o) := by
  refine ⟨?_, rfl⟩
  constructor
  · exact Nat.le_refl _
  · exact inside
  · have split := Nat.div_add_mod (blockStart o) kBlockSize
    have boundary := blockStart_mod o
    rw [Nat.mul_comm] at split
    change blockStart o ≤ _
    omega
  · simp [startAt, plain, new]
  · rfl
  · exact fun _ => blockStart_mod o
  · exact fun eof => Bool.noConfusion eof
  · exact fun eof => Bool.noConfusion eof
  · rfl
  · rfl
  · rfl

theorem readFrom_beyond (beyond : F.length ≤ blockStart o) (checksum : Bool) (outer inner : Nat) :
    ∃ r' : Reader, readFrom outer (inner + 1) (startAt F checksum o) {} = some ([], r') ∧
      r'.reports = [] := by
  have read : ∃ r', (startAt F checksum o).readPhysicalRecord [] = (kEof, [], r') ∧
      r'.reports = [] := by
    rw [startAt, drop_eq_nil_of_le beyond]
    exact ⟨_, rfl, rfl⟩
  obtain ⟨r', done, reports⟩ := read
  exact ⟨_, readFrom_none (round_eof done), reports⟩

theorem headerOffset_le (boundary : b % kBlockSize = 0) (lower : pos ≤ b) :
    headerOffset pos ≤ b := by
  rcases headerOffset_cases pos with ⟨-, same⟩ | ⟨full, same⟩
  · rw [same]
    exact lower
  · rw [same]
    rw [kBlockSize_eq, kHeaderSize_eq] at *
    omega

theorem chunks_at (boundary : b % kBlockSize = 0) (lower : pos ≤ b)
    {chunks : List Chunk} (fit : ChunksFit pos chunks) :
    ∃ gone tail, chunks = gone ++ tail ∧ (∀ p ∈ positioned pos gone, p.1 < b) ∧
      chunksStop pos gone ≤ b ∧ (tail ≠ [] → headerOffset (chunksStop pos gone) = b) := by
  induction chunks generalizing pos with
  | nil => exact ⟨[], [], rfl, nofun, lower, fun some => absurd rfl some⟩
  | cons c rest ih =>
    by_cases before : headerOffset pos < b
    · have inside : c.stop pos ≤ b := by
        have block := Chunk.fits_block fit.1
        rw [kBlockSize_eq] at *
        omega
      obtain ⟨gone, tail, rfl, early, upper, starts⟩ := ih inside fit.2
      refine ⟨c :: gone, tail, rfl, ?_, upper, starts⟩
      rintro p isIn
      rcases mem_cons.mp isIn with rfl | later
      · exact before
      · exact early p later
    · refine ⟨[], c :: rest, rfl, nofun, lower, fun _ => ?_⟩
      exact Nat.le_antisymm (headerOffset_le boundary lower) (Nat.le_of_not_lt before)

theorem Spells.tail {begin : Bool} {data : Bytes} {gone tail : List Chunk}
    (spells : Spells begin data (gone ++ tail)) (some : gone ≠ []) (more : tail ≠ []) :
    ∃ rest, Spells false rest tail := by
  induction gone generalizing begin data with
  | nil => exact absurd rfl some
  | cons c gone ih =>
    have follows {rest : Bytes} {chunks : List Chunk} (spelled : Spells false rest chunks)
        (same : chunks = gone ++ tail) : ∃ rest, Spells false rest tail := by
      subst same
      by_cases last : gone = []
      · subst last
        exact ⟨rest, spelled⟩
      · exact ih spelled last
    generalize same : c :: gone ++ tail = chunks at spells
    cases spells with
    | full => simp_all
    | last => simp_all
    | first part spelled => exact follows spelled (cons.inj same).2.symm
    | middle part spelled => exact follows spelled (cons.inj same).2.symm

theorem clear_append (o : Nat) (first second : List Segment) : Clear o pos (first ++ second) ↔
      Clear o pos first ∧ Clear o (chunksStop pos (Segment.chunks first)) second := by
  induction first generalizing pos with
  | nil => simp [Clear, Segment.chunks, chunksStop]
  | cons s rest ih =>
    rw [cons_append, Clear, ih, chunks_cons, chunksStop_append, Clear, and_assoc]

/-- The segments that start before a block boundary, and what of them lies behind it: the rest of one
record. -/
theorem segments_at (boundary : b % kBlockSize = 0) (lower : pos ≤ b)
    {segments : List Segment} (complete : ∀ s ∈ segments, s.Complete)
    (fit : ChunksFit pos (Segment.chunks segments)) :
    ∃ before after gone tail, segments = before ++ after ∧
      Segment.chunks before = gone ++ tail ∧ (∀ p ∈ placed pos before, p.start < b) ∧
      chunksStop pos gone ≤ b ∧ (tail ≠ [] → ∃ rest, Spells false rest tail) ∧
      (tail ++ Segment.chunks after ≠ [] → headerOffset (chunksStop pos gone) = b) ∧
      ∀ o, b ≤ o → (Clear o pos before ↔
        ∀ p ∈ positioned (chunksStop pos gone) tail, p.1 < o) := by
  induction segments generalizing pos with
  | nil =>
    refine ⟨[], [], [], [], rfl, rfl, nofun, lower, fun some => absurd rfl some,
      fun some => absurd rfl some, ?_⟩
    simp [Clear, positioned]
  | cons s rest ih =>
    have whole := complete s mem_cons_self
    rw [chunks_cons] at fit
    obtain ⟨fitHead, fitRest⟩ := (chunksFit_append _ _ _).mp fit
    by_cases starts : headerOffset pos < b
    · obtain ⟨gone, tail, split, early, upper, continues⟩ := chunks_at boundary lower fitHead
      have some : gone ≠ [] := by
        rintro rfl
        have more : tail ≠ [] := by
          rw [← nil_append tail, ← split]
          exact whole.spells.ne_nil
        exact absurd (continues more) (Nat.ne_of_lt starts)
      by_cases done : tail = []
      · subst done
        rw [append_nil] at split
        subst split
        obtain ⟨before, after, gone, tail, rfl, parts, earlier, upper', spelled, continues', clear⟩ :=
          ih upper (fun t isIn => complete t (mem_cons_of_mem _ isIn)) fitRest
        refine ⟨s :: before, after, s.written ++ gone, tail, rfl, ?_, ?_, ?_, spelled, ?_, ?_⟩
        · rw [chunks_cons, parts, append_assoc]
        · intro p isIn
          rw [placed, if_pos whole] at isIn
          rcases mem_cons.mp isIn with rfl | later
          · exact starts
          · exact earlier p later
        · rw [chunksStop_append]
          exact upper'
        · rw [chunksStop_append]
          exact continues'
        · intro o large
          rw [Clear, clear o large, chunksStop_append]
          exact and_iff_right fun _ p isIn => Nat.lt_of_lt_of_le (early p isIn) large
      · have spells := whole.spells
        rw [split] at spells
        refine ⟨[s], rest, gone, tail, rfl, ?_, ?_, upper, fun _ => Spells.tail spells some done,
          fun _ => continues done, ?_⟩
        · rw [chunks_cons, split]
          exact append_nil _
        · intro p isIn
          rw [placed, if_pos whole] at isIn
          rw [mem_singleton.mp isIn]
          exact starts
        · intro o large
          rw [Clear, split, positioned_append]
          constructor
          · rintro ⟨all, -⟩ p isIn
            exact all (Nat.lt_of_lt_of_le starts large) p (mem_append_right _ isIn)
          · intro behind
            refine ⟨fun _ p isIn => ?_, trivial⟩
            rcases mem_append.mp isIn with old | new
            · exact Nat.lt_of_lt_of_le (early p old) large
            · exact behind p new
    · refine ⟨[], s :: rest, [], [], rfl, rfl, nofun, lower, fun some => absurd rfl some, fun _ => ?_,
        ?_⟩
      · exact Nat.le_antisymm (headerOffset_le boundary lower) (Nat.le_of_not_lt starts)
      · simp [Clear, positioned]

section rebase
variable {p q : Nat} (same : headerOffset p = headerOffset q)
include same

/-! Chunks do not depend on the zeros before the first of them. -/

theorem stop_congr (c : Chunk) : c.stop p = c.stop q := by
  rw [stop, stop, same]

theorem positioned_congr (chunks : List Chunk) : positioned p chunks = positioned q chunks := by
  cases chunks with
  | nil => rfl
  | cons c rest => rw [positioned, positioned, same, stop_congr same]

theorem chunksFit_congr (chunks : List Chunk) : ChunksFit p chunks ↔ ChunksFit q chunks := by
  cases chunks with
  | nil => rfl
  | cons c rest => rw [ChunksFit, ChunksFit, Chunk.Fits, Chunk.Fits, same, stop_congr same]

theorem chunksStop_congr {chunks : List Chunk} (some : chunks ≠ []) :
    chunksStop p chunks = chunksStop q chunks := by
  cases chunks with
  | nil => exact absurd rfl some
  | cons c rest => rw [chunksStop, chunksStop, stop_congr same]

variable {segments : List Segment}

theorem placed_congr (complete : ∀ s ∈ segments, s.Complete) :
    placed p segments = placed q segments := by
  cases segments with
  | nil => rfl
  | cons s rest =>
    have some := (complete s mem_cons_self).spells.ne_nil
    rw [placed, placed, same, chunksStop_congr same some]

theorem clear_congr (complete : ∀ s ∈ segments, s.Complete) :
    Clear o p segments ↔ Clear o q segments := by
  cases segments with
  | nil => rfl
  | cons s rest =>
    have some := (complete s mem_cons_self).spells.ne_nil
    rw [Clear, Clear, same, positioned_congr same, chunksStop_congr same some]

end rebase

theorem chunksBytes_rebase {q b : Nat} (boundary : b % kBlockSize = 0)
    (same : headerOffset q = b) {chunks : List Chunk} (some : chunks ≠ [])
    (laid : chunksBytes q chunks = F.drop q) : chunksBytes b chunks = F.drop b := by
  have fixed := headerOffset_boundary boundary
  cases chunks with
  | nil => exact absurd rfl some
  | cons c rest =>
    have tail := congrArg (drop (padding q)) laid
    have none : padding b = 0 := by
      rw [headerOffset] at fixed
      omega
    rw [chunksBytes, bytes, append_assoc, drop_left' length_replicate,
      drop_drop, show q + padding q = b from same, stop_congr (same.trans fixed.symm)] at tail
    rw [chunksBytes, bytes, none, ← tail]
    rfl

theorem headerOffset_chunksStop (pos : Nat) (chunks : List Chunk) :
    headerOffset pos ≤ headerOffset (chunksStop pos chunks) := by
  induction chunks generalizing pos with
  | nil => exact Nat.le_refl _
  | cons c rest ih => exact Nat.le_trans (Chunk.headerOffset_stop pos c) (ih _)

variable {pos : Nat} {segments : List Segment}

theorem clear_of_le (behind : o ≤ headerOffset pos) (segments : List Segment) :
    Clear o pos segments := by
  induction segments generalizing pos with
  | nil => trivial
  | cons s rest ih =>
    refine ⟨fun before => absurd before (Nat.not_lt.mpr behind), ?_⟩
    exact ih (Nat.le_trans behind (headerOffset_chunksStop pos s.written))

theorem placed_room {p : Placed} (isIn : p ∈ placed pos segments) :
    p.start % kBlockSize + kHeaderSize ≤ kBlockSize := by
  induction segments generalizing pos with
  | nil => cases isIn
  | cons s rest ih =>
    by_cases whole : s.Complete
    · rw [placed, if_pos whole] at isIn
      rcases mem_cons.mp isIn with rfl | later
      · exact headerOffset_room pos
      · exact ih later
    · rw [placed, if_neg whole] at isIn
      exact ih isIn

theorem readFrom_leftover (size : F.length < 2 ^ 64) {tail : List Chunk}
    (spelled : tail ≠ [] → ∃ rest, Spells false rest tail) {inner : Nat} (outer : Nat)
    {r : Reader} {a : Assembly} (at_ : From F o pos r) (fit : ChunksFit pos tail)
    (placed : chunksBytes pos tail <+: F.drop pos) (deep : F.length < pos + inner)
    (idle : a.inFragmentedRecord = false) :
    ∃ (inner' : Nat) (r' : Reader) (a' : Assembly) (added : List Report),
      readFrom outer inner r a = readFrom outer inner' r' a' ∧
      F.length < chunksStop pos tail + inner' ∧ From F o (chunksStop pos tail) r' ∧
      a'.inFragmentedRecord = false ∧ r'.reports = r.reports ++ added ∧
      (added = [] ↔ (∀ p ∈ positioned pos tail, p.1 < o) ∨
        (r.resyncing = true ∧ o ≤ headerOffset pos)) := by
  by_cases none : tail = []
  · subst none
    exact ⟨inner, r, a, [], rfl, deep, at_, idle, (append_nil _).symm,
      iff_of_true rfl (.inl nofun)⟩
  · obtain ⟨rest, spells⟩ := spelled none
    have many := chunks_length_le pos tail
    have bound := placed.length_le
    have start := Nat.le_trans at_.here.lower at_.here.upper
    rw [chunksBytes_length, length_drop] at bound
    obtain ⟨r', a', added, passed, there, idle', grown, quiet⟩ :=
      readRecordLoop_leftover size spells (inner - tail.length) at_ fit placed idle nofun
    rw [show tail.length + (inner - tail.length) = inner by omega] at passed
    refine ⟨inner - tail.length, r', a', added, ?_, by omega, there, idle', grown, quiet⟩
    rw [readFrom, passed]
    rfl

theorem readAll_offset (size : F.length < 2 ^ 64)
    (complete : ∀ s ∈ segments, s.Complete) (fit : ChunksFit 0 (Segment.chunks segments))
    (laid : chunksBytes 0 (Segment.chunks segments) = F) (checksum : Bool) (o : Nat) :
    ∃ r' : Reader, (new ⟨F, none⟩ checksum o).readAll =
        some (startingFrom o (placed 0 segments), r') ∧
      (r'.reports = [] ↔ o ≤ blockStart o ∨ Clear o 0 segments) := by
  have boundary := blockStart_mod o
  have fixed := headerOffset_boundary boundary
  obtain ⟨before, after, gone, tail, rfl, parts, early, upper, spelled, continues, clear⟩ :=
    segments_at boundary (Nat.zero_le (blockStart o)) complete fit
  have others : ∀ s ∈ after, s.Complete := fun s isIn => complete s (mem_append_right _ isIn)
  have all : Segment.chunks (before ++ after) = gone ++ (tail ++ Segment.chunks after) := by
    rw [← append_assoc, ← parts]
    exact flatMap_append
  rw [all] at fit laid
  obtain ⟨-, fitRest⟩ := (chunksFit_append _ _ _).mp fit
  obtain ⟨-, laidRest⟩ := chunks_laid (show chunksBytes 0 _ = F.drop 0 from laid)
  have skipped : startingFrom o (placed 0 before) = [] := by
    rw [startingFrom, filter_eq_nil_iff.mpr]
    · rfl
    · intro p isIn
      simpa using lt_of_lt_blockStart (placed_room isIn) (early p isIn)
  have records : startingFrom o (placed 0 (before ++ after)) =
      startingFrom o (placed (chunksStop (chunksStop 0 gone) tail) after) := by
    rw [Segment.placed_append, parts, chunksStop_append, startingFrom, filter_append,
      entries_append, ← startingFrom, skipped]
    rfl
  rw [records, readAll_startAt, clear_append, parts, chunksStop_append]
  by_cases nothing : tail ++ Segment.chunks after = []
  · obtain ⟨rfl, noChunks⟩ := append_eq_nil_iff.mp nothing
    have none : after = [] := by
      by_contra some
      exact Segment.chunks_ne_nil others some noChunks
    subst none
    have beyond : F.length ≤ blockStart o := by
      rw [nothing] at laidRest
      exact Nat.le_trans (drop_eq_nil_iff.mp laidRest.symm) upper
    obtain ⟨r', result, reports⟩ := readFrom_beyond beyond checksum F.length (F.length - blockStart o)
    refine ⟨r', result, iff_of_true reports ?_⟩
    by_cases aligned : o ≤ blockStart o
    · exact .inl aligned
    · exact .inr ⟨(clear o (Nat.le_of_not_le aligned)).mpr (by simp [positioned]), trivial⟩
  have same := (continues nothing).trans fixed.symm
  replace laidRest := chunksBytes_rebase boundary (continues nothing) nothing laidRest
  replace fitRest := (chunksFit_congr same _).mp fitRest
  have inside : blockStart o ≤ F.length := by
    have many := chunks_length_le (blockStart o) (tail ++ Segment.chunks after)
    have some := length_pos_of_ne_nil nothing
    have length := congrArg List.length laidRest
    rw [chunksBytes_length, length_drop] at length
    omega
  obtain ⟨placedTail, laidAfter⟩ := chunks_laid laidRest
  obtain ⟨fitTail, fitAfter⟩ := (chunksFit_append _ _ _).mp fitRest
  obtain ⟨inner, r₁, a₁, added, passed, deep, there, idle, grown, quiet⟩ :=
    readFrom_leftover size spelled F.length (startAt_from inside checksum) fitTail placedTail
      (show F.length < blockStart o + (F.length - blockStart o + 1) by omega)
      (a := {}) rfl
  obtain ⟨r', more, result, grown', quiet'⟩ := readFrom_offset size there others fitAfter laidAfter
    deep (Nat.le_add_left _ _) idle
  have stops : headerOffset (chunksStop (blockStart o) tail) =
      headerOffset (chunksStop (chunksStop 0 gone) tail) := by
    by_cases none : tail = []
    · subst none
      exact same.symm
    · rw [chunksStop_congr same none]
  refine ⟨r', ?_, ?_⟩
  · rw [passed, result, placed_congr stops others]
  have reports : r'.reports = added ++ more := by
    rw [grown', grown]
    rfl
  rw [reports, append_eq_nil_iff, quiet, quiet', clear_congr stops others]
  by_cases aligned : o ≤ blockStart o
  · refine iff_of_true ⟨?_, ?_⟩ (.inl aligned)
    · by_cases zero : o = 0
      · -- no segment starts before offset 0, so nothing is left over
        subst zero
        cases before with
        | nil =>
          obtain ⟨-, rfl⟩ := append_eq_nil_iff.mp parts.symm
          exact .inl (by simp [positioned])
        | cons s rest =>
          have whole := complete s (mem_append_left _ mem_cons_self)
          rw [placed, if_pos whole] at early
          exact absurd (early _ mem_cons_self) (Nat.not_lt_zero _)
      · exact .inr ⟨decide_eq_true (Nat.pos_of_ne_zero zero), fixed.symm ▸ aligned⟩
    · apply clear_of_le
      rw [← stops]
      exact Nat.le_trans (fixed.symm ▸ aligned) (headerOffset_chunksStop _ tail)
  · rw [positioned_congr same.symm, ← clear o (Nat.le_of_not_le aligned), fixed]
    simp [aligned]

end fragments

variable {chunks : List Chunk} {pos : Nat}

theorem positioned_boundary {begin : Bool} {data : Bytes} (spells : Spells begin data chunks)
    (fills : ∀ p ∈ positioned pos chunks, Writer.Fills p.1 p.2) :
    ∀ p ∈ positioned pos chunks, p.1 = headerOffset pos ∨ p.1 % kBlockSize = 0 := by
  have follows {chunks : List Chunk} {c : Chunk} {pos : Nat}
      (ih : ∀ {pos : Nat}, (∀ p ∈ positioned pos chunks, Writer.Fills p.1 p.2) →
        ∀ p ∈ positioned pos chunks, p.1 = headerOffset pos ∨ p.1 % kBlockSize = 0)
      (goes : c.type = .first ∨ c.type = .middle)
      (fills : ∀ p ∈ positioned pos (c :: chunks), Writer.Fills p.1 p.2) :
      ∀ p ∈ positioned pos (c :: chunks), p.1 = headerOffset pos ∨ p.1 % kBlockSize = 0 := by
    intro p isIn
    rcases mem_cons.mp isIn with rfl | later
    · exact .inl rfl
    · have boundary : c.stop pos % kBlockSize = 0 := fills _ mem_cons_self goes
      rcases ih (fun p isIn => fills p (mem_cons_of_mem _ isIn)) p later with first | aligned
      · rw [first, headerOffset_boundary boundary]
        exact .inr boundary
      · exact .inr aligned
  induction spells generalizing pos with
  | full => simp [positioned]
  | last => simp [positioned]
  | first part tail ih => exact follows ih (.inl rfl) fills
  | middle part tail ih => exact follows ih (.inr rfl) fills

theorem positioned_upper {p : Nat × Chunk}
    (isIn : p ∈ positioned pos chunks) : p.1 < chunksStop pos chunks := by
  induction chunks generalizing pos with
  | nil => cases isIn
  | cons c rest ih =>
    rcases mem_cons.mp isIn with rfl | later
    · have upper := chunksStop_lower (c.stop pos) rest
      rw [chunksStop]
      simp only [stop, kHeaderSize_eq] at *
      omega
    · exact ih later

section straddling
variable {o : Nat}

variable {pos : Nat} {chunks : List Chunk}

theorem chunksStop_le_of_before (fit : ChunksFit pos chunks)
    (lower : pos ≤ (o / kBlockSize + 1) * kBlockSize)
    (before : ∀ p ∈ positioned pos chunks, p.1 < o) :
    chunksStop pos chunks ≤ (o / kBlockSize + 1) * kBlockSize := by
  induction chunks generalizing pos with
  | nil => exact lower
  | cons c rest ih =>
    refine ih fit.2 ?_ fun p isIn => before p (mem_cons_of_mem _ isIn)
    have block := Chunk.fits_block fit.1
    have start : headerOffset pos < o := before _ mem_cons_self
    rw [kBlockSize_eq] at *
    omega

/-- The fragments of a record that starts before the offset all do, where the record ends in the block
of the offset. -/
theorem all_before_iff {data : Bytes}
    (spells : Spells true data chunks) (fit : ChunksFit pos chunks)
    (fills : ∀ p ∈ positioned pos chunks, Writer.Fills p.1 p.2)
    (unaligned : o % kBlockSize ≠ 0) (before : headerOffset pos < o) :
    (∀ p ∈ positioned pos chunks, p.1 < o) ↔
      chunksStop pos chunks ≤ (o / kBlockSize + 1) * kBlockSize := by
  constructor
  · apply chunksStop_le_of_before fit
    have lower : pos ≤ headerOffset pos := Nat.le_add_right _ _
    rw [kBlockSize_eq] at *
    omega
  · intro ends p isIn
    have upper := positioned_upper isIn
    rcases positioned_boundary spells fills p isIn with first | boundary
    · rw [first]
      exact before
    · rw [kBlockSize_eq] at *
      omega

theorem clear_iff_placed {segments : List Segment}
    (complete : ∀ s ∈ segments, s.Complete) (fit : ChunksFit pos (Segment.chunks segments))
    (fills : ∀ p ∈ positioned pos (Segment.chunks segments), Writer.Fills p.1 p.2)
    (unaligned : o % kBlockSize ≠ 0) :
    Clear o pos segments ↔ ∀ p ∈ placed pos segments, p.start < o →
      p.stop ≤ (o / kBlockSize + 1) * kBlockSize := by
  induction segments generalizing pos with
  | nil => simp [Clear, placed]
  | cons s rest ih =>
    have whole := complete s mem_cons_self
    rw [chunks_cons] at fit fills
    rw [positioned_append] at fills
    obtain ⟨fitHead, fitRest⟩ := (chunksFit_append _ _ _).mp fit
    rw [Clear, placed, if_pos whole, forall_mem_cons,
      ih (fun t isIn => complete t (mem_cons_of_mem _ isIn)) fitRest
        fun p isIn => fills p (mem_append_right _ isIn)]
    refine and_congr_left fun _ => forall_congr' fun before => ?_
    exact all_before_iff whole.spells fitHead
      (fun p isIn => fills p (mem_append_left _ isIn)) unaligned before

end straddling

theorem le_blockStart_iff (o : Nat) :
    o ≤ blockStart o ↔ o % kBlockSize = 0 ∨ kBlockSize - 6 < o % kBlockSize := by
  rw [blockStart]
  rw [kBlockSize_eq]
  split <;> omega

/-- The part of a log that `SkipToInitialBlock` and the rejection of single fragments read right: the
offset is at a block boundary or in the last five bytes of a block, or no record that starts before it
goes on behind its block. -/
def ReadableFrom (log : List Placed) (o : Nat) : Prop :=
  o % kBlockSize = 0 ∨ kBlockSize - 6 < o % kBlockSize ∨
    ∀ p ∈ log, p.start < o → p.stop ≤ (o / kBlockSize + 1) * kBlockSize

instance (log : List Placed) (o : Nat) : Decidable (ReadableFrom log o) :=
  inferInstanceAs (Decidable (_ ∨ _ ∨ _))

theorem readAll_log (first : List Bytes) (later : List (List Bytes)) (checksum : Bool) (o : Nat)
    (size : (writeLog first later).2.length < 2 ^ 64) :
    ∃ last : Reader, (new ⟨(writeLog first later).2, none⟩ checksum o).readAll =
        some (startingFrom o (writeLog first later).1, last) ∧
      (last.reports = [] ↔ ReadableFrom (writeLog first later).1 o) := by
  obtain ⟨-, dest, segments, contents, grew, emitted⟩ := writeLog_grew first later
  have whole : chunksBytes 0 (Segment.chunks segments) = (writeLog first later).2 := by
    rw [← contents, grew.contents]
    rfl
  obtain ⟨last, result, quiet⟩ := readAll_offset size grew.complete grew.fit whole checksum o
  have places : (writeLog first later).1 = placed 0 segments := grew.places
  refine ⟨last, places ▸ result, quiet.trans ?_⟩
  rw [le_blockStart_iff, or_assoc, places]
  by_cases unaligned : o % kBlockSize = 0
  · exact iff_of_true (.inl unaligned) (.inl unaligned)
  · have fills := fun p isIn => logEmits_fills (emitted p isIn)
    have fit : ChunksFit 0 (Segment.chunks segments) := grew.fit
    rw [ReadableFrom, clear_iff_placed grew.complete fit fills unaligned]

end Reader

/-- A reader with the initial offset `o` returns the records of the log whose first header lies at `o`
or behind, and reports nothing. -/
def ReadsFrom (first : List Bytes) (later : List (List Bytes)) (checksum : Bool) (o : Nat) : Prop :=
  let log := writeLog first later
  ∃ last : Reader, (Reader.new ⟨log.2, none⟩ checksum o).readAll =
      some ((log.1.filter (o ≤ ·.start)).map fun p => (p.data, p.start), last) ∧
    last.reports = []

theorem readsFrom_iff (first : List Bytes) (later : List (List Bytes)) (checksum : Bool) (o : Nat)
    (size : (writeLog first later).2.length < 2 ^ 64) :
    (writeLog first later).1.map (·.data) = first ++ later.flatten ∧
      (ReadsFrom first later checksum o ↔
        Reader.ReadableFrom (writeLog first later).1 o) := by
  refine ⟨(writeLog_grew first later).1, ?_⟩
  obtain ⟨last, result, quiet⟩ := Reader.readAll_log first later checksum o size
  rw [← quiet]
  constructor
  · rintro ⟨last', result', none⟩
    rw [result] at result'
    cases result'
    exact none
  · exact fun none => ⟨last, result, none⟩

theorem readsFrom_iff_short : (writeLog [[1, 2]] []).2.length < 2 ^ 64 ∧
      (ReadsFrom [[1, 2]] [] true 3 ↔ Reader.ReadableFrom (writeLog [[1, 2]] []).1 3) := by
  have size : (writeLog [[1, 2]] []).2.length < 2 ^ 64 := by
    decide
  exact ⟨size, (readsFrom_iff [[1, 2]] [] true 3 size).2⟩

variable {data : Bytes}

theorem Writer.addRecordLoop_round {w : Writer} (clean : w.dest.faults = [])
    {begin : Bool} {n : Nat} (fuel : Nat)
    (filled : (if data.length < kBlockSize - w.fillTrailer.blockOffset - kHeaderSize then data.length
      else kBlockSize - w.fillTrailer.blockOffset - kHeaderSize) = n)
    (bare : w.fillTrailer.dest = w.dest) :
    addRecordLoop (fuel + 1) w data begin =
      let type := fragmentType begin (decide (data.length = n))
      let w' : Writer := ⟨⟨w.dest.contents ++ physicalRecord type (data.take n), []⟩,
        w.fillTrailer.blockOffset + kHeaderSize + (data.take n).length⟩
      if 0 < data.length - n then addRecordLoop fuel w' (data.drop n) false else (true, w') := by
  have emitted (type : RecordType) (payload : Bytes) :
      w.fillTrailer.emitPhysicalRecord type payload =
        (true, ⟨⟨w.dest.contents ++ physicalRecord type payload, []⟩,
          w.fillTrailer.blockOffset + kHeaderSize + payload.length⟩) := by
    rw [emitPhysicalRecord, bare]
    simp [WritableFile.append, clean, physicalRecord]
  rw [addRecordLoop]
  dsimp only
  rw [filled, emitted]
  simp

theorem writeLog_twoBlocks (length : data.length = 32762) :
    (writeLog [data] []).1 = [⟨data, 0, 32776⟩] ∧
      (writeLog [data] []).2.length = 32776 := by
  have front : (data.take 32761).length = 32761 := by
    rw [length_take, length]
    omega
  have rest : (data.drop 32761).length = 1 := by
    rw [length_drop, length]
  have trailer (dest : WritableFile) : (⟨dest, 32768⟩ : Writer).fillTrailer = ⟨dest, 0⟩ := by
    simp [fillTrailer, kBlockSize_eq, kHeaderSize_eq]
  have start : (Writer.new ⟨[], []⟩).fillTrailer = ⟨⟨[], []⟩, 0⟩ := rfl
  have added (fuel : Nat) : addRecordLoop (fuel + 2) (Writer.new ⟨[], []⟩) data true =
      (true, ⟨⟨physicalRecord .first (data.take 32761) ++
        physicalRecord .last ((data.drop 32761).take 1), []⟩, 8⟩) := by
    have most : (if data.length < kBlockSize - (Writer.new ⟨[], []⟩).fillTrailer.blockOffset -
        kHeaderSize then data.length
        else kBlockSize - (Writer.new ⟨[], []⟩).fillTrailer.blockOffset - kHeaderSize) = 32761 := by
      rw [length, start]
      decide
    rw [addRecordLoop_round rfl (fuel + 1) most (by rw [start]; rfl), front, length, start]
    dsimp only
    rw [if_pos (by decide), show 0 + kHeaderSize + 32761 = 32768 by decide]
    have one (w : Writer) (offset : w.fillTrailer.blockOffset = 0) :
        (if (data.drop 32761).length < kBlockSize - w.fillTrailer.blockOffset - kHeaderSize then
          (data.drop 32761).length
          else kBlockSize - w.fillTrailer.blockOffset - kHeaderSize) = 1 := by
      rw [rest, offset]
      decide
    rw [addRecordLoop_round rfl fuel (one _ (by rw [trailer])) (by rw [trailer]), rest, trailer]
    dsimp only
    rw [if_neg (by decide), length_take, rest]
    rfl
  have size : ((Writer.new ⟨[], []⟩).addRecord data).2.dest.contents.length = 32776 := by
    rw [addRecord, added]
    simp [front, rest, kHeaderSize_eq]
  refine ⟨?_, size⟩
  change [(⟨data, _, ((Writer.new ⟨[], []⟩).addRecord data).2.dest.contents.length⟩ : Placed)] = _
  rw [size, start]
  rfl

theorem not_readsFrom_of_length (length : data.length = 32762) : ¬ReadsFrom [data] [] true 1 := by
  obtain ⟨places, size⟩ := writeLog_twoBlocks length
  obtain ⟨last, result, quiet⟩ := Reader.readAll_log [data] [] true 1 (by rw [size]; decide)
  rintro ⟨last', result', none⟩
  rw [result] at result'
  cases result'
  have readable := quiet.mp none
  rw [places, Reader.ReadableFrom, kBlockSize_eq] at readable
  simp at readable

/-- From offset 1, the second fragment of a record at offset 0 is reported as one without a start. -/
theorem not_readsFrom_twoBlocks : ¬ReadsFrom [List.replicate 32762 0] [] true 1 :=
  not_readsFrom_of_length length_replicate

end TalusDB.Log
