import TalusDB.Log.ReadBack

/-! `ReadRecord` over a laid out file: a record whose chunks lie inside the file is
returned with the offset of its first header, and the end of the file inside a
record ends the reading. -/
namespace TalusDB.Log
namespace Reader
open List
open RecordType (code)

theorem synced_eq {r : Reader} (synced : r.resyncing = false) :
    { r with resyncing := false } = r := by
  rw [← synced]

theorem At.setLast {F : Bytes} {pos : Nat} {r : Reader} (here : At F pos r) (offset : Nat) :
    At F pos { r with lastRecordOffset := offset } :=
  { here with }

section Rounds
variable {fuel : Nat} {r r' : Reader} {a : Assembly} {fragment : Bytes}

theorem round_full (read : r.readPhysicalRecord a.fragment = (RecordType.full.code, fragment, r')) :
    readRecordLoop (fuel + 1) r a =
      some (some fragment,
        { (if a.inFragmentedRecord ∧ a.scratch ≠ [] then
            { r' with resyncing := false }.reportDrop a.scratch.length
              "partial record without end(1)" else { r' with resyncing := false }) with
          lastRecordOffset := r'.endOfBufferOffset - r'.buffer.length - kHeaderSize -
            fragment.length }) := by
  simp only [readRecordLoop, read, code, Nat.reduceEqDiff, and_false, if_false, if_true]

theorem round_first
    (read : r.readPhysicalRecord a.fragment = (RecordType.first.code, fragment, r')) :
    readRecordLoop (fuel + 1) r a =
      readRecordLoop fuel
        (if a.inFragmentedRecord ∧ a.scratch ≠ [] then
          { r' with resyncing := false }.reportDrop a.scratch.length
            "partial record without end(2)" else { r' with resyncing := false })
        { scratch := fragment, inFragmentedRecord := true, fragment,
          prospectiveOffset := r'.endOfBufferOffset - r'.buffer.length - kHeaderSize -
            fragment.length } := by
  simp only [readRecordLoop, read, code, Nat.reduceEqDiff, and_false, if_false, if_true]

theorem round_middle
    (read : r.readPhysicalRecord a.fragment = (RecordType.middle.code, fragment, r'))
    (synced : r'.resyncing = false) (inside : a.inFragmentedRecord = true) :
    readRecordLoop (fuel + 1) r a =
      readRecordLoop fuel r' { a with scratch := a.scratch ++ fragment, fragment } := by
  simp only [readRecordLoop, read, synced, synced_eq synced, Bool.false_eq_true, false_and,
    if_false, if_true, code, Nat.reduceEqDiff, inside]

theorem round_last (read : r.readPhysicalRecord a.fragment = (RecordType.last.code, fragment, r'))
    (synced : r'.resyncing = false) (inside : a.inFragmentedRecord = true) :
    readRecordLoop (fuel + 1) r a =
      some (some (a.scratch ++ fragment), { r' with lastRecordOffset := a.prospectiveOffset }) := by
  simp only [readRecordLoop, read, synced, synced_eq synced, Bool.false_eq_true, false_and,
    if_false, if_true, code, Nat.reduceEqDiff, inside]

theorem round_eof (read : r.readPhysicalRecord a.fragment = (kEof, fragment, r')) :
    readRecordLoop (fuel + 1) r a = some (none, { r' with resyncing := false }) := by
  simp only [readRecordLoop, read, code, Nat.reduceEqDiff, and_false, if_false, if_true,
    kEof, kMaxRecordType, Nat.reduceAdd]

end Rounds

variable {F data : Bytes} {pos fuel outer inner n : Nat} {r r' : Reader} {c : Chunk} {a : Assembly}
  {rest chunks spelled first second : List Chunk} {begin : Bool} {placed : List Placed}
  {segments : List Segment}

theorem At.header (behind : At F (c.stop pos) r) :
    r.endOfBufferOffset - r.buffer.length - kHeaderSize - c.payload.length =
      Chunk.headerOffset pos := by
  rw [behind.consumed, Chunk.stop]
  omega

theorem At.abandon (here : At F pos r) (a : Assembly) (reason : String) :
    At F pos (if a.inFragmentedRecord ∧ a.scratch ≠ [] then
      r.reportDrop a.scratch.length reason else r) := by
  split
  · exact here.report _ _
  · exact here

theorem abandon_quiet (idle : a.inFragmentedRecord = false) (reason : String) :
    (if a.inFragmentedRecord ∧ a.scratch ≠ [] then
      r.reportDrop a.scratch.length reason else r) = r :=
  if_neg (by simp [idle])

theorem placed_cons (placed : chunksBytes pos (c :: rest) <+: F.drop pos) :
    c.bytes pos <+: F.drop pos ∧ chunksBytes (c.stop pos) rest <+: F.drop (c.stop pos) := by
  have lower := c.stop_lower pos
  refine ⟨(prefix_append _ _).trans placed, ?_⟩
  have tail := placed.drop (c.bytes pos).length
  rwa [chunksBytes, drop_left, drop_drop, Chunk.bytes_length,
    show pos + (c.stop pos - pos) = c.stop pos by omega] at tail

/-- Whether `ReadRecord` is where the spelling of a record, or of the rest of one,
can be read. -/
def Ready (begin : Bool) (a : Assembly) : Prop := begin = false → a.inFragmentedRecord = true

theorem readPhysicalRecord_cons (here : At F pos r) (result : Bytes)
    (fit : ChunksFit pos (c :: rest))
    (placed : chunksBytes pos (c :: rest) <+: F.drop pos) (enough : (c :: rest).length ≤ fuel) :
    ∃ (n : Nat) (r' : Reader), fuel = n + 1 ∧ rest.length ≤ n ∧
      r.readPhysicalRecord result = (c.type.code, c.payload, r') ∧ At F (c.stop pos) r' ∧
      r'.reports = r.reports ∧ chunksBytes (c.stop pos) rest <+: F.drop (c.stop pos) := by
  obtain ⟨inside, after⟩ := placed_cons placed
  obtain ⟨r', read, behind, reports⟩ := readPhysicalRecord_chunk here result fit.1 inside
  rw [length_cons] at enough
  exact ⟨fuel - 1, r', by omega, by omega, read, behind, reports, after⟩

/-- The chunks of a record, or of the rest of one, lie inside the file: `ReadRecord`
returns the record and stands behind them. -/
theorem readRecordLoop_spelled (spells : Spells begin data chunks)
    (here : At F pos r) (fit : ChunksFit pos chunks)
    (placed : chunksBytes pos chunks <+: F.drop pos)
    (enough : chunks.length ≤ fuel) (ready : Ready begin a) :
    ∃ r' : Reader, readRecordLoop fuel r a =
        some (some (if begin then data else a.scratch ++ data), r') ∧
      At F (chunksStop pos chunks) r' ∧
      r'.lastRecordOffset = (if begin then Chunk.headerOffset pos else a.prospectiveOffset) ∧
      ((begin = true → a.inFragmentedRecord = false) → r'.reports = r.reports) := by
  induction spells generalizing fuel pos r a with
  | full data =>
    obtain ⟨n, r₁, rfl, -, read, behind, reports, -⟩ :=
      readPhysicalRecord_cons here a.fragment fit placed enough
    have returns := @round_full n _ _ _ _ read
    rw [synced_eq behind.synced] at returns
    refine ⟨_, returns, (behind.abandon a _).setLast _, behind.header, ?_⟩
    intro idle
    simp only [abandon_quiet (idle rfl)]
    exact reports
  | last data =>
    obtain ⟨n, r₁, rfl, -, read, behind, reports, -⟩ :=
      readPhysicalRecord_cons here a.fragment fit placed enough
    exact ⟨_, round_last read behind.synced (ready rfl), behind.setLast _, rfl, fun _ => reports⟩
  | first part tail ih =>
    obtain ⟨n, r₁, rfl, below, read, behind, reports, after⟩ :=
      readPhysicalRecord_cons here a.fragment fit placed enough
    rw [round_first read, synced_eq behind.synced, behind.header]
    obtain ⟨r₂, result, here₂, offset, quiet⟩ :=
      ih (a := ⟨part, true, Chunk.headerOffset pos, part⟩)
        (behind.abandon a "partial record without end(2)") fit.2 after below (fun _ => rfl)
    refine ⟨r₂, result, here₂, offset, ?_⟩
    intro idle
    rw [quiet nofun, abandon_quiet (idle rfl), reports]
  | middle part tail ih =>
    obtain ⟨n, r₁, rfl, below, read, behind, reports, after⟩ :=
      readPhysicalRecord_cons here a.fragment fit placed enough
    rw [round_middle read behind.synced (ready rfl)]
    obtain ⟨r₂, result, here₂, offset, quiet⟩ :=
      ih (a := { a with scratch := a.scratch ++ part, fragment := part }) behind fit.2 after below
        ready
    refine ⟨r₂, ?_, here₂, offset, fun _ => (quiet nofun).trans reports⟩
    rw [result]
    simp

theorem torn_cons (torn : F.drop pos <+: chunksBytes pos (c :: rest)) :
    (c.stop pos ≤ F.length ∧ c.bytes pos <+: F.drop pos ∧
        F.drop (c.stop pos) <+: chunksBytes (c.stop pos) rest) ∨
      (F.length < c.stop pos ∧ F.drop pos <+: c.bytes pos) := by
  have lower := c.stop_lower pos
  have split : c.bytes pos <+: chunksBytes pos (c :: rest) := prefix_append _ _
  by_cases inside : c.stop pos ≤ F.length
  · left
    have shorter : c.bytes pos <+: F.drop pos :=
      prefix_of_prefix_length_le split torn (by rw [Chunk.bytes_length, length_drop]; omega)
    refine ⟨inside, shorter, ?_⟩
    have tail := torn.drop (c.bytes pos).length
    rwa [chunksBytes, drop_left, drop_drop, Chunk.bytes_length,
      show pos + (c.stop pos - pos) = c.stop pos by omega] at tail
  · exact .inr ⟨by omega, prefix_of_prefix_length_le torn split
      (by rw [Chunk.bytes_length, length_drop]; omega)⟩

theorem torn_split (lower : pos ≤ F.length)
    (torn : F.drop pos <+: chunksBytes pos chunks) (short : F.length < chunksStop pos chunks) :
    ∃ (written : List Chunk) (c : Chunk) (rest : List Chunk), chunks = written ++ c :: rest ∧
      chunksBytes pos written <+: F.drop pos ∧ F.length < c.stop (chunksStop pos written) ∧
      F.drop (chunksStop pos written) <+: c.bytes (chunksStop pos written) := by
  induction chunks generalizing pos with
  | nil => exact absurd short (Nat.not_lt.mpr lower)
  | cons c rest ih =>
    obtain ⟨inside, placed, torn'⟩ | ⟨outside, within⟩ := torn_cons torn
    · obtain ⟨written, c', rest', rfl, placed', outside, within⟩ := ih inside torn' short
      refine ⟨c :: written, c', rest', rfl, ?_, outside, within⟩
      have lower := c.stop_lower pos
      have size := Chunk.bytes_length pos c
      obtain ⟨tail, same⟩ := placed
      have dropped := congrArg (List.drop (c.bytes pos).length) same
      rw [drop_left, drop_drop, size,
        show pos + (c.stop pos - pos) = c.stop pos by omega] at dropped
      rw [← same, chunksBytes, dropped]
      exact (prefix_append_right_inj _).mpr placed'
    · exact ⟨[], c, rest, rfl, nil_prefix, outside, within⟩

theorem readRecordLoop_unfinished {written : List Chunk} (spells : Spells begin data spelled)
    (initial : written <+: spelled) (proper : written ≠ spelled) (fuel : Nat) (here : At F pos r)
    (fit : ChunksFit pos written)
    (placed : chunksBytes pos written <+: F.drop pos) (ready : Ready begin a) :
    ∃ (r' : Reader) (a' : Assembly),
      readRecordLoop (written.length + fuel) r a = readRecordLoop fuel r' a' ∧
      At F (chunksStop pos written) r' ∧
      ((begin = true → a.inFragmentedRecord = false) → r'.reports = r.reports) := by
  induction written generalizing begin data spelled pos r a with
  | nil => exact ⟨r, a, by rw [length_nil, Nat.zero_add], here, fun _ => rfl⟩
  | cons c written ih =>
    rw [show (c :: written).length + fuel = written.length + fuel + 1 by
      rw [length_cons]; omega]
    cases spells with
    | full data => simp_all [cons_prefix_cons]
    | last data => simp_all [cons_prefix_cons]
    | first part tail =>
      obtain ⟨rfl, initial'⟩ := cons_prefix_cons.mp initial
      obtain ⟨n, r₁, same, -, read, behind, reports, after⟩ := readPhysicalRecord_cons here
        a.fragment fit placed (Nat.le_add_right _ fuel)
      rw [round_first read, synced_eq behind.synced]
      obtain ⟨r₂, a₂, result, here₂, quiet⟩ := ih tail initial' (by simpa using proper)
        (a := ⟨part, true, _, part⟩) (behind.abandon a _) fit.2 after (fun _ => rfl)
      refine ⟨r₂, a₂, result, here₂, ?_⟩
      intro idle
      rw [quiet nofun, abandon_quiet (idle rfl), reports]
    | middle part tail =>
      obtain ⟨rfl, initial'⟩ := cons_prefix_cons.mp initial
      obtain ⟨n, r₁, same, -, read, behind, reports, after⟩ := readPhysicalRecord_cons here
        a.fragment fit placed (Nat.le_add_right _ fuel)
      rw [round_middle read behind.synced (ready rfl)]
      obtain ⟨r₂, a₂, result, here₂, quiet⟩ := ih tail initial' (by simpa using proper)
        (a := { a with scratch := a.scratch ++ part, fragment := part }) behind fit.2 after ready
      exact ⟨r₂, a₂, result, here₂, fun _ => (quiet nofun).trans reports⟩

/-- The file ends inside the chunks of a record: `ReadRecord` returns false and
reports nothing new. -/
theorem readRecordLoop_cut (spells : Spells begin data spelled) (initial : chunks <+: spelled)
    (here : At F pos r) (fit : ChunksFit pos chunks)
    (torn : F.drop pos <+: chunksBytes pos chunks) (short : F.length < chunksStop pos chunks)
    (enough : F.length < pos + fuel) (ready : Ready begin a) :
    ∃ r' : Reader, readRecordLoop fuel r a = some (none, r') ∧
      ((begin = true → a.inFragmentedRecord = false) → r'.reports = r.reports) := by
  have inside := Nat.le_trans here.lower here.upper
  obtain ⟨written, c, rest, rfl, placed, outside, within⟩ := torn_split inside torn short
  obtain ⟨fitWritten, fitRest⟩ := (chunksFit_append _ _ _).mp fit
  have proper : written ≠ spelled := by
    rintro rfl
    have shorter := initial.length_le
    simp at shorter
  have count : pos + written.length ≤ F.length := by
    have size := placed.length_le
    have lower := chunksStop_lower pos written
    have many := chunks_length_le pos written
    rw [chunksBytes_length, length_drop] at size
    omega
  obtain ⟨r₁, a₁, passed, here₁, quiet⟩ := readRecordLoop_unfinished spells
    ((prefix_append _ _).trans initial) proper (fuel - written.length) here fitWritten placed
    ready
  obtain ⟨r₂, read, reports, synced⟩ := readPhysicalRecord_cut here₁ a₁.fragment fitRest.1 within
    outside
  refine ⟨r₂, ?_, fun idle => reports.trans (quiet idle)⟩
  rw [show fuel = written.length + (fuel - written.length) by omega, passed]
  obtain ⟨left, more⟩ : ∃ n, fuel - written.length = n + 1 := ⟨fuel - written.length - 1, by omega⟩
  rw [more, round_eof read, synced_eq synced]

theorem readRecordLoop_end (here : At F pos r) (fuel : Nat)
    (a : Assembly) (short : F.length < Chunk.headerOffset pos + kHeaderSize) :
    ∃ r' : Reader, readRecordLoop (fuel + 1) r a = some (none, r') ∧ r'.reports = r.reports := by
  obtain ⟨r', read, reports, synced⟩ := readPhysicalRecord_short here a.fragment short
  exact ⟨_, round_eof read, reports⟩

theorem readRecord_eq (here : At F pos r) :
    r.readRecord = readRecordLoop (F.length - pos + 1) r {} := by
  simp only [readRecord, here.offset, Nat.not_lt_zero, if_false, here.unread]

/-- `readAllLoop` from inside its first `ReadRecord` call. -/
def readFrom (outer inner : Nat) (r : Reader) (a : Assembly) :
    Option (List (Bytes × Nat) × Reader) := do
  let (record, r) ← readRecordLoop inner r a
  match record with
  | none => some ([], r)
  | some data =>
    let (records, last) ← readAllLoop outer r
    some ((data, r.lastRecordOffset) :: records, last)

theorem readAllLoop_eq (here : At F pos r) (outer : Nat) :
    readAllLoop (outer + 1) r = readFrom outer (F.length - pos + 1) r {} := by
  rw [readAllLoop, readRecord_eq here]
  rfl

theorem readFrom_none (read : readRecordLoop inner r a = some (none, r')) :
    readFrom outer inner r a = some ([], r') := by
  simp [readFrom, read]

def prepend (records : List (Bytes × Nat)) (result : Option (List (Bytes × Nat) × Reader)) :
    Option (List (Bytes × Nat) × Reader) :=
  result.map fun (rest, last) => (records ++ rest, last)

theorem prepend_nil (result : Option (List (Bytes × Nat) × Reader)) :
    prepend [] result = result := by
  cases result <;> rfl

theorem prepend_prepend (first second : List (Bytes × Nat))
    (result : Option (List (Bytes × Nat) × Reader)) :
    prepend first (prepend second result) = prepend (first ++ second) result := by
  cases result <;> simp [prepend]

theorem readFrom_some (read : readRecordLoop inner r a = some (some data, r')) :
    readFrom outer inner r a = prepend [(data, r'.lastRecordOffset)] (readAllLoop outer r') := by
  simp only [readFrom, read, Option.bind_eq_bind, Option.bind_some]
  cases readAllLoop outer r' <;> rfl

/-- What `ReadRecord` returns for these records, with `LastRecordOffset`. -/
def entries (placed : List Placed) : List (Bytes × Nat) := placed.map fun p => (p.data, p.start)

/-- The records the reader returns from a file of `n` bytes. -/
def within (n : Nat) (placed : List Placed) : List (Bytes × Nat) :=
  entries (placed.filter (·.stop ≤ n))

theorem within_beyond (beyond : ∀ p ∈ placed, n < p.stop) : within n placed = [] := by
  rw [within, filter_eq_nil_iff.mpr]
  · rfl
  · intro p mem
    have := beyond p mem
    simp only [decide_eq_true_eq]
    omega

theorem within_all (inside : ∀ p ∈ placed, p.stop ≤ n) : within n placed = entries placed := by
  rw [within, filter_eq_self.mpr]
  intro p mem
  exact decide_eq_true (inside p mem)

theorem within_append (n : Nat) (first second : List Placed) :
    within n (first ++ second) = within n first ++ within n second := by
  simp [within, entries]

theorem within_complete {s : Segment} {rest : List Segment} (complete : s.Complete)
    (inside : chunksStop pos s.written ≤ n) :
    within n (Segment.placed pos (s :: rest)) =
      (s.data, Chunk.headerOffset pos) ::
        within n (Segment.placed (chunksStop pos s.written) rest) := by
  simp [within, entries, Segment.placed, complete, inside]

theorem entries_append (first second : List Placed) :
    entries (first ++ second) = entries first ++ entries second := map_append

theorem within_chunks (torn : F.drop pos <+: chunksBytes pos (first ++ second))
    (inside : chunksStop pos first ≤ F.length) :
    chunksBytes pos first <+: F.drop pos ∧
      F.drop (chunksStop pos first) <+: chunksBytes (chunksStop pos first) second := by
  have lower := chunksStop_lower pos first
  rw [chunksBytes_append] at torn
  refine ⟨prefix_of_prefix_length_le (prefix_append _ _) torn
    (by rw [chunksBytes_length, length_drop]; omega), ?_⟩
  have tail := torn.drop (chunksBytes pos first).length
  rwa [drop_left, drop_drop, chunksBytes_length,
    show pos + (chunksStop pos first - pos) = chunksStop pos first by omega] at tail

theorem chunks_within (placed : chunksBytes pos (first ++ second) <+: F.drop pos) :
    chunksBytes pos first <+: F.drop pos ∧
      chunksBytes (chunksStop pos first) second <+: F.drop (chunksStop pos first) := by
  have lower := chunksStop_lower pos first
  rw [chunksBytes_append] at placed
  refine ⟨(prefix_append _ _).trans placed, ?_⟩
  have tail := placed.drop (chunksBytes pos first).length
  rwa [drop_left, drop_drop, chunksBytes_length,
    show pos + (chunksStop pos first - pos) = chunksStop pos first by omega] at tail

/-- The reader stands at `pos` with fuel for the rest of the file. -/
structure Reading (F : Bytes) (pos outer inner : Nat) (r : Reader) : Prop where
  here : At F pos r
  deep : F.length < pos + inner
  wide : F.length ≤ pos + outer

/-- The reader passes over segments inside the file and returns their records. -/
theorem readFrom_pass (a : Assembly) (reading : Reading F pos outer inner r)
    (fit : ChunksFit pos (Segment.chunks segments))
    (placed : chunksBytes pos (Segment.chunks segments) <+: F.drop pos) :
    ∃ (outer' inner' : Nat) (r' : Reader) (a' : Assembly),
      Reading F (chunksStop pos (Segment.chunks segments)) outer' inner' r' ∧
      readFrom outer inner r a =
        prepend (entries (Segment.placed pos segments)) (readFrom outer' inner' r' a') ∧
      (a.inFragmentedRecord = false → (∀ s ∈ segments, s.Complete) →
        a'.inFragmentedRecord = false ∧ r'.reports = r.reports) := by
  induction segments generalizing pos outer inner r a with
  | nil =>
    refine ⟨outer, inner, r, a, reading, ?_, fun idle _ => ⟨idle, rfl⟩⟩
    exact (prepend_nil _).symm
  | cons s rest ih =>
    rw [Segment.chunks_cons] at fit placed
    rw [Segment.chunks_cons, chunksStop_append]
    obtain ⟨fitHead, fitRest⟩ := (chunksFit_append _ _ _).mp fit
    obtain ⟨placedHead, placedRest⟩ := chunks_within placed
    obtain ⟨here, deep, wide⟩ := reading
    have many := chunks_length_le pos s.written
    have inside : chunksStop pos s.written ≤ F.length := by
      have size := placedHead.length_le
      rw [chunksBytes_length, length_drop] at size
      have := Nat.le_trans here.lower here.upper
      omega
    by_cases complete : s.Complete
    · have some := length_pos_of_ne_nil complete.spells.ne_nil
      obtain ⟨r₁, read, here₁, offset, quiet⟩ := readRecordLoop_spelled complete.spells
        here fitHead placedHead (show s.written.length ≤ inner by omega) (a := a) nofun
      obtain ⟨n, rfl⟩ : ∃ n, outer = n + 1 := ⟨outer - 1, by omega⟩
      have next : Reading F (chunksStop pos s.written) n
          (F.length - chunksStop pos s.written + 1) r₁ := ⟨here₁, by omega, by omega⟩
      obtain ⟨outer', inner', r₂, a₂, reading', result, quiet'⟩ := ih {} next fitRest placedRest
      refine ⟨outer', inner', r₂, a₂, reading', ?_, ?_⟩
      · rw [readFrom_some read, readAllLoop_eq here₁, result, prepend_prepend, offset,
          Segment.placed, if_pos complete]
        rfl
      · intro idle all
        obtain ⟨idle', reports⟩ := quiet' rfl fun t mem => all t (mem_cons_of_mem _ mem)
        exact ⟨idle', reports.trans (quiet fun _ => idle)⟩
    · obtain ⟨r₁, a₁, passed, here₁, -⟩ := readRecordLoop_unfinished s.spells s.initial complete
        (inner - s.written.length) here fitHead placedHead (a := a) nofun
      have next : Reading F (chunksStop pos s.written) outer (inner - s.written.length) r₁ :=
        ⟨here₁, by omega, by omega⟩
      obtain ⟨outer', inner', r₂, a₂, reading', result, -⟩ := ih a₁ next fitRest placedRest
      refine ⟨outer', inner', r₂, a₂, reading', ?_, fun _ all =>
        absurd (all s mem_cons_self) complete⟩
      rw [Segment.placed, if_neg complete, ← result, readFrom, readFrom, ← passed]
      congr 2
      omega

theorem readFrom_end (a : Assembly) (reading : Reading F pos outer inner r)
    (short : F.length < Chunk.headerOffset pos + kHeaderSize) :
    ∃ r' : Reader, readFrom outer inner r a = some ([], r') ∧ r'.reports = r.reports := by
  have upper := Nat.le_trans reading.here.lower reading.here.upper
  have deep := reading.deep
  obtain ⟨n, rfl⟩ : ∃ n, inner = n + 1 := ⟨inner - 1, by omega⟩
  obtain ⟨r', read, reports⟩ := readRecordLoop_end reading.here n a short
  exact ⟨r', readFrom_none read, reports⟩

theorem segments_split (segments : List Segment) (lower : pos ≤ n) :
    chunksStop pos (Segment.chunks segments) ≤ n ∨
      ∃ (before : List Segment) (s : Segment) (after : List Segment),
        segments = before ++ s :: after ∧ chunksStop pos (Segment.chunks before) ≤ n ∧
        n < chunksStop (chunksStop pos (Segment.chunks before)) s.written := by
  induction segments generalizing pos with
  | nil => exact .inl lower
  | cons s rest ih =>
    by_cases inside : chunksStop pos s.written ≤ n
    · obtain whole | ⟨before, t, after, rfl, reached, cut⟩ := ih inside
      · left
        rw [Segment.chunks_cons, chunksStop_append]
        exact whole
      · right
        refine ⟨s :: before, t, after, rfl, ?_⟩
        rw [Segment.chunks_cons, chunksStop_append]
        exact ⟨reached, cut⟩
    · exact .inr ⟨[], s, rest, rfl, lower, by rw [Segment.chunks]; exact Nat.lt_of_not_le inside⟩

/-- The reader over a file that is a first part of laid out segments returns the
complete records inside it, and reports nothing when no segment is unfinished. -/
theorem readFrom_segments (a : Assembly) (reading : Reading F pos outer inner r)
    (fit : ChunksFit pos (Segment.chunks segments))
    (torn : F.drop pos <+: chunksBytes pos (Segment.chunks segments)) :
    ∃ r' : Reader,
      readFrom outer inner r a = some (within F.length (Segment.placed pos segments), r') ∧
      (a.inFragmentedRecord = false → (∀ s ∈ segments, s.Complete) → r'.reports = r.reports) := by
  have lower := Nat.le_trans reading.here.lower reading.here.upper
  obtain whole | ⟨before, s, after, rfl, reached, cut⟩ := segments_split segments lower
  · have placed : chunksBytes pos (Segment.chunks segments) <+: F.drop pos :=
      prefix_of_prefix_length_le prefix_rfl torn
        (by rw [chunksBytes_length, length_drop]; omega)
    have size := torn.length_le
    have below := chunksStop_lower pos (Segment.chunks segments)
    rw [chunksBytes_length, length_drop] at size
    obtain ⟨outer', inner', r₁, a₁, reading', result, quiet⟩ :=
      readFrom_pass a reading fit placed
    obtain ⟨r₂, done, reports⟩ := readFrom_end a₁ reading' (by
      simp only [Chunk.headerOffset, kHeaderSize_eq]
      omega)
    refine ⟨r₂, ?_, fun idle all => reports.trans (quiet idle all).2⟩
    rw [result, done, within_all fun p mem => Nat.le_trans (Segment.placed_stop_le mem) whole]
    simp [prepend]
  · have split : Segment.chunks (before ++ s :: after) =
        Segment.chunks before ++ (s.written ++ Segment.chunks after) := flatMap_append
    rw [split] at fit torn
    obtain ⟨fitBefore, fitRest⟩ := (chunksFit_append _ _ _).mp fit
    obtain ⟨fitHead, -⟩ := (chunksFit_append _ _ _).mp fitRest
    obtain ⟨placed, rest⟩ := within_chunks torn reached
    obtain ⟨outer', inner', r₁, a₁, reading', result, quiet⟩ :=
      readFrom_pass a reading fitBefore placed
    have short : F.drop (chunksStop pos (Segment.chunks before)) <+:
        chunksBytes (chunksStop pos (Segment.chunks before)) s.written := by
      rw [chunksBytes_append] at rest
      refine prefix_of_prefix_length_le rest (prefix_append _ _) ?_
      rw [chunksBytes_length, length_drop]
      omega
    obtain ⟨r₂, read, quiet'⟩ := readRecordLoop_cut s.spells s.initial reading'.here fitHead short
      cut reading'.deep (a := a₁) (by simp [Ready])
    refine ⟨r₂, ?_, ?_⟩
    · rw [result, readFrom_none read, Segment.placed_append, within_append,
        within_all fun p mem => Nat.le_trans (Segment.placed_stop_le mem) reached,
        within_beyond fun p mem => Nat.lt_of_lt_of_le cut (Segment.placed_stop_ge mem)]
      simp [prepend]
    · intro idle all
      obtain ⟨idle', reports⟩ := quiet idle fun t mem => all t (mem_append_left _ mem)
      exact (quiet' fun _ => idle').trans reports

end Reader
end TalusDB.Log
