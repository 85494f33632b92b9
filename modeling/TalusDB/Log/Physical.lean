import TalusDB.Log.Reader

/-! The reader over any file, with or without checksums: the file is a list of physical records and of
bytes that are dropped, and `ReadRecord` puts the records of that list together. -/
namespace TalusDB.Log
namespace Reader
open List RecordType

/-- A physical record that `ReadPhysocalRecord` comes to, or bytes that it drops, with its report. -/
inductive Found where
  | record (type : Nat) (payload : Bytes)
  | dropped (reports : List Report)
  deriving DecidableEq, Repr

/-- What is found in a block, from some place on to its end. -/
def inBuffer (checksum eof : Bool) (buffer : Bytes) : List Found :=
  if _short : buffer.length < kHeaderSize then []
  else if buffer.length < kHeaderSize + lengthField buffer then
    if eof then [] else [.dropped [⟨buffer.length, "bad record length"⟩]]
  else if typeOfChar (buffer.getD 6 0) = zero.code ∧ lengthField buffer = 0 then
    [.dropped []]
  else if checksum ∧ checksumMatches buffer (lengthField buffer) = false then
    [.dropped [⟨buffer.length, "checksum mismatch"⟩]]
  else
    .record (typeOfChar (buffer.getD 6 0)) ((buffer.drop kHeaderSize).take (lengthField buffer)) ::
      inBuffer checksum eof (buffer.drop (kHeaderSize + lengthField buffer))
termination_by buffer.length
decreasing_by
  rw [kHeaderSize_eq] at *
  rw [length_drop]
  omega

theorem inBuffer_short {checksum eof : Bool} {buffer : Bytes}
    (short : buffer.length < kHeaderSize) :
    inBuffer checksum eof buffer = [] := by
  rw [inBuffer, dif_pos short]

/-- What is found in the blocks of a file, up to its end or to a read that fails. -/
def inFile (checksum : Bool) (file : SequentialFile) : List Found :=
  if file.failAfter = some 0 then []
  else
    let block := file.contents.take kBlockSize
    if block.length < kBlockSize then inBuffer checksum true block
    else
      inBuffer checksum false block ++
        inFile checksum ⟨file.contents.drop kBlockSize, file.failAfter.map (· - 1)⟩
termination_by file.contents.length
decreasing_by
  rename_i whole
  rw [length_take] at whole
  rw [length_drop]
  rw [kBlockSize_eq] at *
  omega

theorem read_eq (file : SequentialFile) (n : Nat) : file.read n =
    if file.failAfter = some 0 then (none, file)
    else (some (file.contents.take n), ⟨file.contents.drop n, file.failAfter.map (· - 1)⟩) := by
  obtain ⟨contents, failAfter⟩ := file
  cases failAfter with
  | none => rfl
  | some k => cases k <;> rfl

def found (r : Reader) : List Found :=
  inBuffer r.checksum r.eof r.buffer ++ if r.eof then [] else inFile r.checksum r.file

/-- The records that the found ones make up, behind the fragments of an unfinished one. -/
def collect : Option Bytes → List Found → List Bytes
  | _, [] => []
  | pending, .record type payload :: rest =>
    if type = full.code then payload :: collect none rest
    else if type = first.code then collect (some payload) rest
    else if type = middle.code then collect (pending.map (· ++ payload)) rest
    else if type = last.code then
      match pending with
      | some scratch => (scratch ++ payload) :: collect none rest
      | none => collect none rest
    else collect none rest
  | _, .dropped _ :: rest => collect none rest

theorem collect_other {type : Nat} {payload : Bytes} (full : type ≠ full.code)
    (first : type ≠ first.code) (middle : type ≠ middle.code)
    (last : type ≠ last.code) (pending : Option Bytes) (rest : List Found) :
    collect pending (.record type payload :: rest) = collect none rest := by
  cases pending <;> rw [collect, if_neg full, if_neg first, if_neg middle, if_neg last]

def unknownType (type : Nat) : String := s!"unknown record type {type}"

/-- The reader reads from the start of the file, and its last block is the last of the file unless a
read failed. -/
structure Standing (r : Reader) : Prop where
  offset : r.initialOffset = 0
  synced : r.resyncing = false
  ended : r.eof = true → r.file.contents = [] ∨ ⟨kBlockSize, "read error"⟩ ∈ r.reports

/-- The reader has come to the end of the file, or to a read that failed. -/
def Ended (r : Reader) : Prop := r.unread = 0 ∨ ⟨kBlockSize, "read error"⟩ ∈ r.reports

theorem reportDrop_eq {r : Reader} (offset : r.initialOffset = 0) (bytes : Nat) (reason : String) :
    r.reportDrop bytes reason = { r with reports := r.reports ++ [⟨bytes, reason⟩] } := by
  rw [reportDrop, if_pos]
  rw [offset]
  exact Int.emod_nonneg _ (by decide)

/-- The reasons that `ReadPhysocalRecord` gives. -/
def physicalReasons : List String := ["bad record length", "checksum mismatch", "read error"]

/-- What `ReadPhysocalRecord` returns, from what is to be found. -/
inductive Answer (r : Reader) (result : Bytes) : Nat × Bytes × Reader → Prop
  | record {type : Nat} {payload : Bytes} {r' : Reader}
      (isFound : r.found = .record type payload :: r'.found) (standing : Standing r')
      (same : r'.reports = r.reports) : Answer r result (type, payload, r')
  | dropped {reports : List Report} {r' : Reader} (isFound : r.found = .dropped reports :: r'.found)
      (standing : Standing r') (grown : r'.reports = r.reports ++ reports)
      (reasons : ∀ report ∈ reports, report.reason ∈ physicalReasons) :
      Answer r result (kBadRecord, result, r')
  | ended {reports : List Report} {r' : Reader} (isFound : r.found = []) (standing : Standing r')
      (done : r'.found = []) (ended : Ended r') (grown : r'.reports = r.reports ++ reports)
      (reasons : ∀ report ∈ reports, report.reason ∈ physicalReasons) :
      Answer r result (kEof, result, r')

section answers
variable {r : Reader}

theorem found_clear (r : Reader) : ({ r with buffer := [] } : Reader).found =
    if r.eof then [] else inFile r.checksum r.file := by
  have none : inBuffer r.checksum r.eof [] = [] := inBuffer_short (by decide)
  simp [found, none]

theorem found_ended (eof : r.eof = true) : ({ r with buffer := [] } : Reader).found = [] :=
  (found_clear r).trans (if_pos eof)

theorem Standing.clear (standing : Standing r) : Standing { r with buffer := [] } :=
  ⟨standing.offset, standing.synced, standing.ended⟩

theorem Standing.done (standing : Standing r) (eof : r.eof = true) :
    Ended { r with buffer := [] } := by
  rcases standing.ended eof with none | failed
  · left
    simp [unread, none]
  · exact .inr failed

/-- The reader with more reports. -/
def note (r : Reader) (added : List Report) : Reader := { r with reports := r.reports ++ added }

theorem note_nil (r : Reader) : r.note [] = r := by
  rw [note, append_nil]

theorem note_single (offset : r.initialOffset = 0) (bytes : Nat) (reason : String) :
    r.note [⟨bytes, reason⟩] = r.reportDrop bytes reason :=
  (reportDrop_eq offset bytes reason).symm

theorem Standing.note (standing : Standing r) (added : List Report) : Standing (r.note added) := by
  refine ⟨standing.offset, standing.synced, fun eof => ?_⟩
  exact (standing.ended eof).imp_right (mem_append_left _)

def loaded (r : Reader) : Reader :=
  let block := r.file.contents.take kBlockSize
  { r with
    file := ⟨r.file.contents.drop kBlockSize, r.file.failAfter.map (· - 1)⟩
    buffer := block, endOfBufferOffset := r.endOfBufferOffset + block.length
    eof := decide (block.length < kBlockSize) }

theorem Standing.loaded (standing : Standing r) : Standing r.loaded := by
  refine ⟨standing.offset, standing.synced, fun eof => .inl ?_⟩
  have short := of_decide_eq_true eof
  rw [length_take] at short
  exact drop_eq_nil_of_le (by omega)

theorem found_loaded (r : Reader) (reads : r.file.failAfter ≠ some 0) :
    r.loaded.found = inFile r.checksum r.file := by
  rw [inFile, if_neg reads, found]
  by_cases last : (r.file.contents.take kBlockSize).length < kBlockSize
  · have eof : r.loaded.eof = true := decide_eq_true last
    rw [if_pos eof, eof, append_nil]
    exact (if_pos last).symm
  · have eof : r.loaded.eof = false := decide_eq_false last
    rw [if_neg (by simp [eof]), eof]
    exact (if_neg last).symm

theorem Answer.of_found {s : Reader} {result : Bytes} {outcome : Nat × Bytes × Reader}
    (answer : Answer s result outcome) (same : s.found = r.found)
    (reports : s.reports = r.reports) :
    Answer r result outcome := by
  cases answer with
  | record isFound standing unchanged =>
    exact .record (same ▸ isFound) standing (unchanged.trans reports)
  | dropped isFound standing grown reasons =>
    exact .dropped (same ▸ isFound) standing (reports ▸ grown) reasons
  | ended isFound standing done ended grown reasons =>
    exact .ended (same ▸ isFound) standing done ended (reports ▸ grown) reasons

theorem parseRecord_answer (standing : Standing r) (room : kHeaderSize ≤ r.buffer.length)
    (result : Bytes) : Answer r result (r.parseRecord result) := by
  have isFound : r.found = inBuffer r.checksum r.eof r.buffer ++
      ({ r with buffer := [] } : Reader).found := by
    rw [found_clear]
    rfl
  rw [inBuffer, dif_neg (Nat.not_lt.mpr room)] at isFound
  have report (n : Nat) (reason : String) := reportDrop_eq standing.clear.offset n reason
  rw [parseRecord]
  dsimp only
  by_cases long : r.buffer.length < kHeaderSize + lengthField r.buffer
  · rw [if_pos long] at isFound ⊢
    by_cases eof : r.eof = true
    · rw [if_pos eof] at isFound ⊢
      rw [found_clear, if_pos eof] at isFound
      exact .ended isFound standing.clear (found_ended eof) (standing.done eof)
        (append_nil _).symm (by simp)
    · rw [if_neg eof] at isFound ⊢
      rw [report]
      exact .dropped isFound (standing.clear.note _) rfl (by simp [physicalReasons])
  rw [if_neg long] at isFound ⊢
  by_cases zero : typeOfChar (r.buffer.getD 6 0) = zero.code ∧ lengthField r.buffer = 0
  · rw [if_pos zero] at isFound ⊢
    exact .dropped isFound standing.clear (append_nil _).symm (by simp)
  rw [if_neg zero] at isFound ⊢
  by_cases mismatch : r.checksum = true ∧ checksumMatches r.buffer (lengthField r.buffer) = false
  · rw [if_pos mismatch] at isFound ⊢
    rw [report]
    exact .dropped isFound (standing.clear.note _) rfl (by simp [physicalReasons])
  · rw [if_neg mismatch] at isFound ⊢
    rw [if_neg (by rw [standing.offset]; exact Nat.not_lt_zero _)]
    refine .record ?_ ⟨standing.offset, standing.synced, standing.ended⟩ rfl
    rw [isFound, found_clear]
    rfl

theorem readPhysicalRecord_answer (standing : Standing r) (result : Bytes) :
    Answer r result (r.readPhysicalRecord result) := by
  rw [readPhysicalRecord]
  by_cases room : r.buffer.length < kHeaderSize
  · rw [if_pos room]
    have isFound : r.found = if r.eof then [] else inFile r.checksum r.file := by
      rw [found, inBuffer_short room, nil_append]
    by_cases eof : r.eof = true
    · rw [if_pos eof] at isFound ⊢
      exact .ended isFound standing.clear (found_ended eof) (standing.done eof)
        (append_nil _).symm (by simp)
    rw [if_neg eof] at isFound ⊢
    rw [read_eq]
    by_cases fails : r.file.failAfter = some 0
    · rw [inFile, if_pos fails] at isFound
      rw [if_pos fails]
      dsimp only
      rw [reportDrop_eq standing.clear.offset]
      have reported : (⟨kBlockSize, "read error"⟩ : Report) ∈
        r.reports ++ [⟨kBlockSize, "read error"⟩] := by simp
      exact .ended isFound ⟨standing.offset, standing.synced, fun _ => .inr reported⟩
        (found_ended (r := { r with eof := true, reports := _ }) rfl) (.inr reported) rfl
        (by simp [physicalReasons])
    rw [← found_loaded r fails] at isFound
    rw [if_neg fails]
    change Answer r result
      (if r.loaded.buffer.length < kHeaderSize then (kEof, result, { r.loaded with buffer := [] })
        else r.loaded.parseRecord result)
    by_cases tiny : r.loaded.buffer.length < kHeaderSize
    · rw [if_pos tiny]
      have last : r.loaded.eof = true := decide_eq_true (Nat.lt_trans tiny (by decide))
      have none : r.loaded.found = [] := by
        rw [found, inBuffer_short tiny, if_pos last]
        rfl
      exact .ended (isFound.trans none) standing.loaded.clear (found_ended last)
        (standing.loaded.done last) (append_nil _).symm (by simp)
    · rw [if_neg tiny]
      exact (parseRecord_answer standing.loaded (Nat.le_of_not_lt tiny) result).of_found
        isFound.symm rfl
  · rw [if_neg room]
    exact parseRecord_answer standing (Nat.le_of_not_lt room) result

/-- The fragments that `ReadRecord` holds. -/
def Assembly.pending (a : Assembly) : Option Bytes :=
  if a.inFragmentedRecord then some a.scratch else none

def Found.type? : Found → Option Nat
  | .record type _ => some type
  | .dropped _ => none

theorem unknownType_injective {type other : Nat} (same : unknownType type = unknownType other) :
    type = other :=
  Nat.repr_injective ((String.append_right_inj _).mp same)

theorem unknownType_head (type : Nat) : (unknownType type).toList.head? = some 'u' := by
  delta unknownType
  rw [String.toList_append]
  rfl

/-- How often records of a type are reported as of no known type. -/
def unknowns (type : Nat) (reports : List Report) : Nat :=
  reports.countP fun report => report.reason = unknownType type

/-- An item with a type that `ReadRecord` does not know. The values of `kEof` and `kBadRecord` are not
among them: it takes these for its own codes. -/
def Found.unknown (type : Nat) (item : Found) : Bool :=
  decide (item.type? = some type ∧ 4 < type ∧ type ≠ kEof ∧ type ≠ kBadRecord)

/-- The reports that are made while items are passed. -/
def Reported (passed : List Found) (r r' : Reader) : Prop :=
  ∀ type, 4 < type →
    unknowns type r'.reports = unknowns type r.reports + passed.countP (Found.unknown type)

/-- Reports that are not about a record of an unknown type. -/
def Quiet (added : List Report) : Prop :=
  ∀ report ∈ added, report.reason.toList.head? ≠ some 'u'

theorem unknowns_append_quiet {type : Nat} {reports added : List Report} (quiet : Quiet added) :
    unknowns type (reports ++ added) = unknowns type reports := by
  have none : unknowns type added = 0 := by
    rw [unknowns, countP_eq_zero]
    intro report isIn same
    apply quiet report isIn
    rw [of_decide_eq_true same]
    exact unknownType_head type
  rw [unknowns, countP_append, ← unknowns, ← unknowns, none, Nat.add_zero]

theorem physicalReasons_head {reason : String} (isIn : reason ∈ physicalReasons) :
    reason.toList.head? ≠ some 'u' := by
  revert reason
  decide

/-- Items whose types are known, or taken for the codes of the reader, are passed without a report of an
unknown type. -/
theorem Reported.quiet {r' : Reader} {passed : List Found} {added : List Report}
    (grown : r'.reports = r.reports ++ added)
    (quiet : Quiet added)
    (known : ∀ item ∈ passed, ∀ type, item.unknown type = false) : Reported passed r r' := by
  intro type _
  have none : passed.countP (Found.unknown type) = 0 := by
    rw [countP_eq_zero]
    intro item isIn unknown
    rw [known item isIn type] at unknown
    cases unknown
  rw [grown, unknowns_append_quiet quiet, none, Nat.add_zero]

theorem Reported.unknown {r' : Reader} {type n : Nat} {payload : Bytes}
    (grown : r'.reports = r.reports ++ [⟨n, unknownType type⟩])
    (notEof : type ≠ kEof) (notBad : type ≠ kBadRecord) :
    Reported [.record type payload] r r' := by
  intro other high
  rw [grown, unknowns, countP_append, ← unknowns, countP_singleton, countP_singleton]
  congr 1
  by_cases same : type = other
  · subst same
    rw [if_pos (by simp), if_pos (by simp [Found.unknown, Found.type?, high, notEof, notBad])]
  · have differs : unknownType type ≠ unknownType other := mt unknownType_injective same
    rw [if_neg (by simp [differs]), if_neg (by simp [Found.unknown, Found.type?, same])]

theorem Standing.settle (standing : Standing r) : ({ r with resyncing := false } : Reader) = r := by
  have synced := standing.synced
  cases r
  cases synced
  rfl

theorem reportDrop_ite (offset : r.initialOffset = 0) (bytes : Nat) (reason : String)
    (p : Prop) [Decidable p] : (if p then r.reportDrop bytes reason else r) =
      { r with reports := r.reports ++ if p then [⟨bytes, reason⟩] else [] } := by
  rw [reportDrop_eq offset]
  split
  · rfl
  · rw [append_nil]

section loop
variable {r' : Reader} {a : Assembly} {type : Nat} {fragment : Bytes}

/-! One round of the loop of `ReadRecord`, by the code that `ReadPhysocalRecord` returns. -/

variable (fuel : Nat)
include fuel

theorem readRecordLoop_eof
    (answered : r.readPhysicalRecord a.fragment = (kEof, fragment, r')) (standing : Standing r') :
    readRecordLoop (fuel + 1) r a = some (none, r') := by
  simp only [readRecordLoop, answered, standing.synced, standing.settle]
  rfl

theorem readRecordLoop_bad (answered : r.readPhysicalRecord a.fragment = (kBadRecord, fragment, r'))
    (standing : Standing r') :
    ∃ added a', readRecordLoop (fuel + 1) r a = readRecordLoop fuel (r'.note added) a' ∧
      Quiet added ∧ a'.pending = none := by
  obtain ⟨scratch, inFragmentedRecord, prospectiveOffset, before⟩ := a
  simp only [readRecordLoop, answered, standing.synced, standing.settle]
  cases inFragmentedRecord with
  | true =>
    refine ⟨[⟨scratch.length, "error in middle of record"⟩], ⟨[], false, prospectiveOffset, fragment⟩,
      ?_, by simp [Quiet], rfl⟩
    rw [note_single standing.offset]
    rfl
  | false =>
    refine ⟨[], ⟨scratch, false, prospectiveOffset, fragment⟩, ?_, by simp [Quiet], rfl⟩
    rw [note_nil]
    rfl

theorem readRecordLoop_full
    (answered : r.readPhysicalRecord a.fragment = (full.code, fragment, r'))
    (standing : Standing r') :
    ∃ added offset, readRecordLoop (fuel + 1) r a =
      some (some fragment, { r'.note added with lastRecordOffset := offset }) ∧ Quiet added := by
  rw [readRecordLoop, answered]
  dsimp only
  rw [if_neg (by simp [standing.synced]), if_neg (by simp [standing.synced]), standing.settle,
    reportDrop_ite standing.offset, reportDrop_ite standing.offset]
  refine ⟨_, _, rfl, ?_⟩
  split <;> simp [Quiet]

theorem readRecordLoop_first
    (answered : r.readPhysicalRecord a.fragment = (first.code, fragment, r'))
    (standing : Standing r') :
    ∃ added a', readRecordLoop (fuel + 1) r a = readRecordLoop fuel (r'.note added) a' ∧
      Quiet added ∧ a'.pending = some fragment := by
  rw [readRecordLoop, answered]
  dsimp only
  rw [if_neg (by simp [standing.synced]), if_neg (by simp [standing.synced]), standing.settle,
    reportDrop_ite standing.offset, reportDrop_ite standing.offset]
  refine ⟨_, _, rfl, ?_, rfl⟩
  split <;> simp [Quiet]

theorem readRecordLoop_middle
    (answered : r.readPhysicalRecord a.fragment = (middle.code, fragment, r'))
    (standing : Standing r') :
    ∃ added a', readRecordLoop (fuel + 1) r a = readRecordLoop fuel (r'.note added) a' ∧
      Quiet added ∧ a'.pending = a.pending.map (· ++ fragment) := by
  obtain ⟨scratch, inFragmentedRecord, prospectiveOffset, before⟩ := a
  simp only [readRecordLoop, answered, standing.synced, standing.settle]
  cases inFragmentedRecord with
  | true =>
    refine ⟨[], ⟨scratch ++ fragment, true, prospectiveOffset, fragment⟩, ?_, by simp [Quiet], rfl⟩
    rw [note_nil]
    rfl
  | false =>
    refine ⟨[⟨fragment.length, "missing start of fragmented record(1)"⟩],
      ⟨scratch, false, prospectiveOffset, fragment⟩, ?_, by simp [Quiet], rfl⟩
    rw [note_single standing.offset]
    rfl

theorem readRecordLoop_last
    (answered : r.readPhysicalRecord a.fragment = (last.code, fragment, r'))
    (standing : Standing r') :
    (∃ scratch offset, a.pending = some scratch ∧ readRecordLoop (fuel + 1) r a =
      some (some (scratch ++ fragment), { r' with resyncing := false, lastRecordOffset := offset })) ∨
    (a.pending = none ∧ ∃ added a', readRecordLoop (fuel + 1) r a =
      readRecordLoop fuel (r'.note added) a' ∧ Quiet added ∧ a'.pending = none) := by
  obtain ⟨scratch, inFragmentedRecord, prospectiveOffset, before⟩ := a
  simp only [readRecordLoop, answered, standing.synced, standing.settle]
  cases inFragmentedRecord with
  | true => exact .inl ⟨scratch, prospectiveOffset, rfl, rfl⟩
  | false =>
    refine .inr ⟨rfl, [⟨fragment.length, "missing start of fragmented record(2)"⟩],
      ⟨scratch, false, prospectiveOffset, fragment⟩, ?_, by simp [Quiet], rfl⟩
    rw [note_single standing.offset]
    rfl

theorem readRecordLoop_unknown
    (answered : r.readPhysicalRecord a.fragment = (type, fragment, r')) (standing : Standing r')
    (other : type ∉ [full.code, first.code, middle.code,
      last.code, kEof, kBadRecord]) :
    ∃ n a', readRecordLoop (fuel + 1) r a =
      readRecordLoop fuel (r'.note [⟨n, unknownType type⟩]) a' ∧ a'.pending = none := by
  simp only [mem_cons, not_mem_nil, or_false, not_or] at other
  obtain ⟨notFull, notFirst, notMiddle, notLast, notEof, notBad⟩ := other
  simp only [readRecordLoop, answered, standing.synced, standing.settle]
  rw [if_neg (by simp), if_neg (by simp), if_neg notFull, if_neg notFirst, if_neg notMiddle,
    if_neg notLast, if_neg notEof, if_neg notBad, reportDrop_eq standing.offset]
  exact ⟨_, _, rfl, rfl⟩

end loop

/-- What `ReadRecord` does with the next of what is found. -/
inductive Round (fuel : Nat) (r : Reader) (a : Assembly) : Prop
  | ended {r' : Reader} (result : readRecordLoop (fuel + 1) r a = some (none, r'))
      (isFound : r.found = []) (standing : Standing r') (done : r'.found = []) (ended : Ended r')
      (reported : Reported [] r r')
  | stops {item : Found} {r' : Reader}
      (result : readRecordLoop (fuel + 1) r a = some (none, r'))
      (isFound : r.found = item :: r'.found) (standing : Standing r')
      (type : item.type? = some kEof) (reported : Reported [item] r r')
  | returns {item : Found} {data : Bytes} {r' : Reader}
      (result : readRecordLoop (fuel + 1) r a = some (some data, r'))
      (isFound : r.found = item :: r'.found) (standing : Standing r')
      (collects : ∀ rest, collect a.pending (item :: rest) = data :: collect none rest)
      (reported : Reported [item] r r')
  | goes {item : Found} {a' : Assembly} {r' : Reader}
      (result : readRecordLoop (fuel + 1) r a = readRecordLoop fuel r' a')
      (isFound : r.found = item :: r'.found) (standing : Standing r')
      (collects : ∀ rest, collect a.pending (item :: rest) = collect a'.pending rest)
      (reported : Reported [item] r r')

theorem Reported.trans {r₁ r₂ : Reader} {passed more : List Found} (first : Reported passed r r₁)
    (second : Reported more r₁ r₂) : Reported (passed ++ more) r r₂ := by
  intro type high
  rw [second type high, first type high, countP_append, Nat.add_assoc]

theorem Reported.dropped {r' : Reader} {item : Found} {reports added : List Report}
    (grown : r'.reports = r.reports ++ reports)
    (reasons : ∀ report ∈ reports, report.reason ∈ physicalReasons) (quiet : Quiet added)
    (known : ∀ type, item.unknown type = false) : Reported [item] r (r'.note added) := by
  have all : (r'.note added).reports = r.reports ++ (reports ++ added) := by
    rw [note, grown, append_assoc]
  refine .quiet all ?_ (by simpa)
  intro report isIn
  rcases mem_append.mp isIn with old | new
  · exact physicalReasons_head (reasons report old)
  · exact quiet report new

theorem round (standing : Standing r) (fuel : Nat) (a : Assembly) : Round fuel r a := by
  have answer := readPhysicalRecord_answer standing a.fragment
  generalize answered : r.readPhysicalRecord a.fragment = outcome at answer
  cases answer with
  | @ended reports r' isFound standing done ended grown reasons =>
    refine .ended (readRecordLoop_eof fuel answered standing) isFound standing done ended ?_
    exact .quiet grown (fun report isIn => physicalReasons_head (reasons report isIn)) (by simp)
  | @dropped reports r' isFound standing grown reasons =>
    obtain ⟨added, a', result, quiet, pending⟩ := readRecordLoop_bad fuel answered standing
    refine .goes result isFound (standing.note added) (fun rest => ?_)
      (.dropped grown reasons quiet fun _ => rfl)
    rw [pending, collect]
  | @record type payload r' isFound standing same =>
    have known (low : type ≤ 4 ∨ type = kEof ∨ type = kBadRecord) (other : Nat) :
        (Found.record type payload).unknown other = false := by
      simp only [Found.unknown, Found.type?, Option.some.injEq, decide_eq_false_iff_not]
      rintro ⟨rfl, high, notEof, notBad⟩
      rcases low with low | eof | bad
      · exact absurd high (Nat.not_lt.mpr low)
      · exact notEof eof
      · exact notBad bad
    have passed {added : List Report} (quiet : Quiet added)
        (low : type ≤ 4 ∨ type = kEof ∨ type = kBadRecord) :
        Reported [.record type payload] r (r'.note added) :=
      .quiet (by rw [note, same]) quiet (by simpa using known low)
    have nothing : Quiet [] := by simp [Quiet]
    by_cases full : type = full.code
    · subst full
      obtain ⟨added, offset, result, quiet⟩ := readRecordLoop_full fuel answered standing
      have settled := standing.note added
      exact .returns result isFound ⟨settled.offset, settled.synced, settled.ended⟩
        (fun rest => by simp [collect]) (passed quiet (by decide))
    by_cases first : type = first.code
    · subst first
      obtain ⟨added, a', result, quiet, pending⟩ := readRecordLoop_first fuel answered standing
      refine .goes result isFound (standing.note added) (fun rest => ?_) (passed quiet (by decide))
      rw [pending]
      rfl
    by_cases middle : type = middle.code
    · subst middle
      obtain ⟨added, a', result, quiet, pending⟩ := readRecordLoop_middle fuel answered standing
      refine .goes result isFound (standing.note added) (fun rest => ?_) (passed quiet (by decide))
      rw [pending]
      rfl
    by_cases last : type = last.code
    · subst last
      rcases readRecordLoop_last fuel answered standing with
        ⟨scratch, offset, pending, result⟩ | ⟨alone, added, a', result, quiet, pending⟩
      · refine .returns result isFound ⟨standing.offset, rfl, standing.ended⟩ (fun rest => ?_) ?_
        · rw [pending]
          rfl
        · exact note_nil r' ▸ passed nothing (by decide)
      · refine .goes result isFound (standing.note added) (fun rest => ?_) (passed quiet (by decide))
        rw [pending, alone]
        rfl
    by_cases eof : type = kEof
    · subst eof
      refine .stops (readRecordLoop_eof fuel answered standing) isFound standing rfl ?_
      exact note_nil r' ▸ passed nothing (by decide)
    have collects := @collect_other type payload full first middle last a.pending
    by_cases bad : type = kBadRecord
    · subst bad
      obtain ⟨added, a', result, quiet, pending⟩ := readRecordLoop_bad fuel answered standing
      exact .goes result isFound (standing.note added) (fun rest => by rw [collects, pending])
        (passed quiet (by decide))
    · obtain ⟨n, a', result, pending⟩ := readRecordLoop_unknown fuel answered standing
        (by simpa using ⟨full, first, middle, last, eof, bad⟩)
      exact .goes result isFound (standing.note _) (fun rest => by rw [collects, pending])
        (.unknown (by rw [note, same]) eof bad)

/-- A call of `ReadRecord` passes a part of what is found, up to the next record, to the end, or to a
record whose type has the value of `kEof`. -/
theorem readRecordLoop_run (fuel : Nat) {r : Reader} (standing : Standing r) (a : Assembly)
    (enough : r.found.length < fuel) :
    ∃ out r' passed, readRecordLoop fuel r a = some (out, r') ∧ Standing r' ∧
      r.found = passed ++ r'.found ∧ Reported passed r r' ∧
      match out with
      | some data => passed ≠ [] ∧ collect a.pending r.found = data :: collect none r'.found
      | none => (r'.found = [] ∧ Ended r' ∧ collect a.pending r.found = []) ∨
          ∃ item ∈ passed, item.type? = some kEof := by
  induction fuel generalizing r a with
  | zero => exact absurd enough (Nat.not_lt_zero _)
  | succ fuel ih =>
    cases round standing fuel a with
    | @ended r' result isFound standing done ended reported =>
      refine ⟨none, r', [], result, standing, by rw [isFound, done]; rfl, reported, .inl ?_⟩
      exact ⟨done, ended, by rw [isFound, collect]⟩
    | @stops item r' result isFound standing type reported =>
      exact ⟨none, r', [item], result, standing, isFound, reported, .inr ⟨item, by simp, type⟩⟩
    | @returns item data r' result isFound standing collects reported =>
      refine ⟨some data, r', [item], result, standing, isFound, reported, by simp, ?_⟩
      rw [isFound, collects]
    | @goes item a' r₁ result isFound standing collects reported =>
      have fewer : r₁.found.length < fuel := by
        rw [isFound, length_cons] at enough
        omega
      obtain ⟨out, r', passed, rest, standing', split, counted, outcome⟩ := ih standing a' fewer
      refine ⟨out, r', item :: passed, result.trans rest, standing', by rw [isFound, split]; rfl,
        reported.trans counted, ?_⟩
      rw [isFound, collects]
      cases out with
      | some data => exact ⟨by simp, outcome.2⟩
      | none =>
        rcases outcome with ends | ⟨other, isIn, type⟩
        · exact .inl ends
        · exact .inr ⟨other, mem_cons_of_mem _ isIn, type⟩

theorem inBuffer_length_le (checksum eof : Bool) (buffer : Bytes) :
    (inBuffer checksum eof buffer).length ≤ buffer.length := by
  have some_le {buffer : Bytes} (room : ¬buffer.length < kHeaderSize) : 1 ≤ buffer.length := by
    rw [kHeaderSize_eq] at room
    omega
  fun_induction inBuffer checksum eof buffer with
  | case1 => exact Nat.zero_le _
  | case2 => exact Nat.zero_le _
  | case3 buffer room => exact some_le room
  | case4 buffer room => exact some_le room
  | case5 buffer room => exact some_le room
  | case6 buffer room _ _ _ ih =>
    have one := some_le room
    rw [length_drop] at ih
    rw [length_cons]
    have size := kHeaderSize_eq
    omega

theorem inFile_length_le (checksum : Bool) (file : SequentialFile) :
    (inFile checksum file).length ≤ file.contents.length := by
  fun_induction inFile checksum file with
  | case1 => exact Nat.zero_le _
  | case2 file _ block _ =>
    have bound := inBuffer_length_le checksum true block
    exact Nat.le_trans bound (length_take_le' _ _)
  | case3 file _ block _ ih =>
    have bound := inBuffer_length_le checksum false block
    have parts : block.length + (file.contents.drop kBlockSize).length = file.contents.length := by
      rw [← length_append, take_append_drop]
    rw [length_append]
    dsimp only at ih
    omega

theorem found_length_le (r : Reader) : r.found.length ≤ r.unread := by
  have bound := inBuffer_length_le r.checksum r.eof r.buffer
  have behind := inFile_length_le r.checksum r.file
  rw [found, length_append, unread]
  split
  · rw [length_nil]
    omega
  · omega

theorem readRecord_run (standing : Standing r) :
    r.readRecord = readRecordLoop (r.unread + 1) r {} := by
  rw [readRecord, if_neg (by rw [standing.offset]; exact Nat.not_lt_zero _)]

theorem readAllLoop_run (fuel : Nat) {r : Reader} (standing : Standing r)
    (enough : r.found.length < fuel) :
    ∃ records last passed, readAllLoop fuel r = some (records, last) ∧
      r.found = passed ++ last.found ∧ Reported passed r last ∧
      ((last.found = [] ∧ Ended last ∧ records.map Prod.fst = collect none r.found) ∨
        ∃ item ∈ passed, item.type? = some kEof) := by
  induction fuel generalizing r with
  | zero => exact absurd enough (Nat.not_lt_zero _)
  | succ fuel ih =>
    obtain ⟨out, r', passed, result, standing', split, reported, outcome⟩ :=
      readRecordLoop_run (r.unread + 1) standing {} (Nat.lt_succ_of_le (found_length_le r))
    rw [← readRecord_run standing] at result
    cases out with
    | none =>
      refine ⟨[], r', passed, by rw [readAllLoop, result]; rfl, split, reported, ?_⟩
      rcases outcome with ⟨done, ended, nothing⟩ | stopped
      · exact .inl ⟨done, ended, nothing.symm⟩
      · exact .inr stopped
    | some data =>
      obtain ⟨progress, collected⟩ := outcome
      have fewer : r'.found.length < fuel := by
        have some_passed := length_pos_of_ne_nil progress
        rw [split, length_append] at enough
        omega
      obtain ⟨records, last, more, rest, split', reported', outcome'⟩ := ih standing' fewer
      refine ⟨(data, r'.lastRecordOffset) :: records, last, passed ++ more, ?_, ?_,
        reported.trans reported', ?_⟩
      · rw [readAllLoop, result]
        simp [rest]
      · rw [split, split', append_assoc]
      · rcases outcome' with ⟨done, ended, all⟩ | ⟨item, isIn, type⟩
        · refine .inl ⟨done, ended, ?_⟩
          rw [map_cons, all, ← collected]
          rfl
        · exact .inr ⟨item, mem_append_right _ isIn, type⟩

theorem collect_append_unknown {type : Nat} (high : 4 < type) (payload : Bytes) (after : List Found)
    (pending : Option Bytes) (before : List Found) :
    collect pending (before ++ .record type payload :: after) =
      collect pending before ++ collect none after := by
  have other (known : RecordType) : type ≠ known.code := by
    cases known <;> simp only [code] <;> omega
  induction before generalizing pending with
  | nil =>
    rw [nil_append, collect_other (other .full) (other .first) (other .middle) (other .last)]
    cases pending <;> rfl
  | cons item before ih =>
    cases item with
    | dropped reports =>
      cases pending <;> simp only [cons_append, collect, ih]
    | record kind fragment =>
      cases pending <;> simp only [cons_append, collect, ih] <;> split_ifs <;> rfl

/-- What a log should give, whatever is in the file: calls of `ReadRecord` return the records of the
found fragments until the end of the file or a read that fails; a fragment of an unknown type is
reported, and the records behind it are still returned. -/
def ReadsOn (checksum : Bool) (file : SequentialFile) : Prop :=
  ∃ records last, (new file checksum 0).readAll = some (records, last) ∧ Ended last ∧
    records.map Prod.fst = collect none (inFile checksum file) ∧
    (∀ before type payload after,
      inFile checksum file = before ++ .record type payload :: after → 4 < type →
        records.map Prod.fst = collect none before ++ collect none after) ∧
    ∀ type, 4 < type →
      unknowns type last.reports = (inFile checksum file).countP (·.type? = some type)

theorem found_new (file : SequentialFile) (checksum : Bool) :
    (new file checksum 0).found = inFile checksum file :=
  found_clear (new file checksum 0)

theorem standing_new (file : SequentialFile) (checksum : Bool) : Standing (new file checksum 0) :=
  ⟨rfl, rfl, nofun⟩

theorem readsOn_iff (checksum : Bool) (file : SequentialFile) : ReadsOn checksum file ↔
    ∀ type payload, .record type payload ∈ inFile checksum file →
      type ≠ kEof ∧ type ≠ kBadRecord := by
  have standing := standing_new file checksum
  obtain ⟨records, last, passed, result, split, reported, outcome⟩ :=
    readAllLoop_run ((new file checksum 0).unread + 1) standing
      (Nat.lt_succ_of_le (found_length_le _))
  have counted (type : Nat) (high : 4 < type) :
      unknowns type last.reports = passed.countP (Found.unknown type) := by
    rw [reported type high]
    exact Nat.zero_add _
  rw [found_new] at split outcome
  constructor
  · rintro ⟨records', last', result', -, -, -, reports⟩ type payload isIn
    rw [readAll, result] at result'
    cases result'
    apply not_or.mp
    intro code
    -- neither code is ever reported, so no such fragment can be in the file
    have high : 4 < type := by rcases code with rfl | rfl <;> decide
    have none : passed.countP (Found.unknown type) = 0 := by
      rw [countP_eq_zero]
      intro item _ unknown
      obtain ⟨-, -, notEof, notBad⟩ := of_decide_eq_true unknown
      exact code.elim notEof notBad
    have some_found : 0 < (inFile checksum file).countP (·.type? = some type) :=
      countP_pos_iff.mpr ⟨_, isIn, by simp [Found.type?]⟩
    rw [← reports type high, counted type high, none] at some_found
    exact Nat.lt_irrefl _ some_found
  · intro clear
    have notCode {item : Found} {type : Nat} (isIn : item ∈ inFile checksum file)
        (isType : item.type? = some type) : type ≠ kEof ∧ type ≠ kBadRecord := by
      cases item with
      | dropped => cases isType
      | record kind payload =>
        cases isType
        exact clear type payload isIn
    rcases outcome with ⟨done, ended, collected⟩ | ⟨item, isIn, type⟩
    · rw [done, append_nil] at split
      refine ⟨records, last, result, ended, collected, ?_, ?_⟩
      · intro before type payload after parts high
        rw [collected, parts, collect_append_unknown high]
      · intro type high
        rw [counted type high, split]
        apply countP_congr
        intro item isIn
        rw [← split] at isIn
        simp only [Found.unknown, decide_eq_true_eq]
        exact ⟨And.left, fun isType => ⟨isType, high, notCode isIn isType⟩⟩
    · have found : item ∈ inFile checksum file := by
        rw [split]
        exact mem_append_left _ isIn
      exact absurd rfl (notCode found type).1

/-- A fragment of type 5, whose value is `kEof`, ends the log: the record behind it is not returned, and
nothing is reported. -/
theorem not_readsOn_eofType :
    (new ⟨[0, 0, 0, 0, 0, 0, 5, 0, 0, 0, 0, 1, 0, 1, 42], none⟩ false 0).readAll.map
      (fun read => (read.1, read.2.reports, read.2.unread)) = some ([], [], 8) ∧
    ¬ReadsOn false ⟨[0, 0, 0, 0, 0, 0, 5, 0, 0, 0, 0, 1, 0, 1, 42], none⟩ := by
  have read : (new ⟨[0, 0, 0, 0, 0, 0, 5, 0, 0, 0, 0, 1, 0, 1, 42], none⟩ false 0).readAll.map
      (fun read => (read.1, read.2.reports, read.2.unread)) = some ([], [], 8) := by
    decide
  refine ⟨read, ?_⟩
  rintro ⟨records, last, result, ended, -⟩
  rw [result] at read
  simp only [Option.map_some, Option.some.injEq, Prod.mk.injEq] at read
  obtain ⟨-, reports, left⟩ := read
  rw [Ended, reports, left] at ended
  simp at ended

end answers
end Reader
end TalusDB.Log
