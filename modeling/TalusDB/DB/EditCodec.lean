import TalusDB.DB.Version
import TalusDB.Util.Slice

/-! The bytes of a `VersionEdit`: a sequence of records, each with a tag. Internal keys are byte
strings that are not looked into. -/
namespace TalusDB
open Coding List
open Option (bind_eq_some_iff)

/-- The members of `VersionEdit`. A number that is absent has its flag down, and then is what `Clear`
sets it to. The deleted files are a `std::set` of pairs. -/
structure EditFields where
  comparator : Option Bytes := none
  logNumber : Option Nat := none
  prevLogNumber : Option Nat := none
  nextFileNumber : Option Nat := none
  lastSequence : Option Nat := none
  compactPointers : List (Nat × Bytes) := []
  deletedFiles : Finset (Nat ×ₗ Nat) := ∅
  newFiles : List (Nat × Nat × Nat × Bytes × Bytes) := []

/-- A record, with the values behind its tag. A new file has its level, number, size, smallest and
largest key. -/
inductive EditRecord where
  | comparator (name : Bytes)
  | logNumber (number : Nat)
  | nextFileNumber (number : Nat)
  | lastSequence (number : Nat)
  | compactPointer (level : Nat) (key : Bytes)
  | deletedFile (level number : Nat)
  | newFile (level number fileSize : Nat) (smallest largest : Bytes)
  | prevLogNumber (number : Nat)

namespace EditRecord

/-- The values of `Tag`. -/
def tag : EditRecord → Nat
  | comparator _ => 1
  | logNumber _ => 2
  | nextFileNumber _ => 3
  | lastSequence _ => 4
  | compactPointer _ _ => 5
  | deletedFile _ _ => 6
  | newFile _ _ _ _ _ => 7
  | prevLogNumber _ => 9

theorem tag_le (r : EditRecord) : r.tag ≤ 9 := by
  cases r <;> simp [tag]

def body : EditRecord → Bytes
  | comparator name => putLengthPrefixedSlice name
  | logNumber number | nextFileNumber number | lastSequence number | prevLogNumber number =>
    putVarint64 number
  | compactPointer level key => putVarint32 level ++ putLengthPrefixedSlice key
  | deletedFile level number => putVarint32 level ++ putVarint64 number
  | newFile level number fileSize smallest largest =>
    putVarint32 level ++ putVarint64 number ++ putVarint64 fileSize ++
      putLengthPrefixedSlice smallest ++ putLengthPrefixedSlice largest

def encode (r : EditRecord) : Bytes := putVarint32 r.tag ++ r.body

end EditRecord

namespace EditFields

/-- `Clear`. -/
def clear (_ : EditFields) : EditFields := {}

/-- The records in the order in which `EncodeTo` writes them. -/
def records (edit : EditFields) : List EditRecord :=
  (edit.comparator.map .comparator).toList ++ (edit.logNumber.map .logNumber).toList ++
    (edit.prevLogNumber.map .prevLogNumber).toList ++
    (edit.nextFileNumber.map .nextFileNumber).toList ++
    (edit.lastSequence.map .lastSequence).toList ++
    edit.compactPointers.map (fun p => .compactPointer p.1 p.2) ++
    (edit.deletedFiles.sort (· ≤ ·)).map (fun d => .deletedFile (ofLex d).1 (ofLex d).2) ++
    edit.newFiles.map fun f => .newFile f.1 f.2.1 f.2.2.1 f.2.2.2.1 f.2.2.2.2

def encodeTo (edit : EditFields) : Bytes := edit.records.flatMap EditRecord.encode

/-- What `DecodeFrom` does with a record. -/
def apply (edit : EditFields) : EditRecord → EditFields
  | .comparator name => { edit with comparator := some name }
  | .logNumber number => { edit with logNumber := some number }
  | .prevLogNumber number => { edit with prevLogNumber := some number }
  | .nextFileNumber number => { edit with nextFileNumber := some number }
  | .lastSequence number => { edit with lastSequence := some number }
  | .compactPointer level key =>
    { edit with compactPointers := edit.compactPointers ++ [(level, key)] }
  | .deletedFile level number =>
    { edit with deletedFiles := insert (toLex (level, number)) edit.deletedFiles }
  | .newFile level number fileSize smallest largest =>
    { edit with newFiles := edit.newFiles ++ [(level, number, fileSize, smallest, largest)] }

end EditFields

/-- `GetInternalKey`. -/
def getInternalKey (input : Bytes) : Option (Bytes × Bytes) :=
  (getLengthPrefixedSlice input).filter fun (key, _) => !key.isEmpty

/-- `GetLevel`. -/
def getLevel (input : Bytes) : Option (Nat × Bytes) :=
  (getVarint32 input).filter fun (level, _) => level < kNumLevels

/-- The message of the error when something cannot be read. -/
def orMessage {α : Type} (message : String) (x : Option α) : Except String α :=
  x.elim (.error message) .ok

/-- The cases of `DecodeFrom` for a tag: the record and the input behind it. -/
def readRecord (tag : Nat) (input : Bytes) : Except String (EditRecord × Bytes) :=
  match tag with
  | 1 => orMessage "comparator name" do
    let (name, input) ← getLengthPrefixedSlice input
    some (.comparator name, input)
  | 2 => orMessage "log number" do
    let (number, input) ← getVarint64 input
    some (.logNumber number, input)
  | 9 => orMessage "previous log number" do
    let (number, input) ← getVarint64 input
    some (.prevLogNumber number, input)
  | 3 => orMessage "next file number" do
    let (number, input) ← getVarint64 input
    some (.nextFileNumber number, input)
  | 4 => orMessage "last sequence number" do
    let (number, input) ← getVarint64 input
    some (.lastSequence number, input)
  | 5 => orMessage "compaction pointer" do
    let (level, input) ← getLevel input
    let (key, input) ← getInternalKey input
    some (.compactPointer level key, input)
  | 6 => orMessage "deleted file" do
    let (level, input) ← getLevel input
    let (number, input) ← getVarint64 input
    some (.deletedFile level number, input)
  | 7 => orMessage "new-file entry" do
    let (level, input) ← getLevel input
    let (number, input) ← getVarint64 input
    let (fileSize, input) ← getVarint64 input
    let (smallest, input) ← getInternalKey input
    let (largest, input) ← getInternalKey input
    some (.newFile level number fileSize smallest largest, input)
  | _ => .error "unknown tag"

namespace EditFields

/-- The loop of `DecodeFrom`. -/
def decodeLoop : Nat → Bytes → EditFields → Option (Except String EditFields)
  | fuel, input, edit =>
    match getVarint32 input with
    | none => some (if input.isEmpty then .ok edit else .error "invalid tag")
    | some (tag, input) =>
      match readRecord tag input with
      | .error message => some (.error message)
      | .ok (record, input) =>
        match fuel with
        | 0 => none
        | fuel + 1 => decodeLoop fuel input (edit.apply record)

/-- `DecodeFrom`: the edit, or the message of the corruption. Each round takes a byte at least. -/
def decodeFrom (edit : EditFields) (src : Bytes) : Option (Except String EditFields) :=
  decodeLoop src.length src edit.clear

end EditFields

/-! ### Reading what was written -/

/-- Levels, numbers and lengths are in their ranges, and keys are not empty. -/
def EditRecord.Fits : EditRecord → Prop
  | comparator name => name.length < 2 ^ 32
  | logNumber number | nextFileNumber number | lastSequence number | prevLogNumber number =>
    number < 2 ^ 64
  | compactPointer level key => level < kNumLevels ∧ key ≠ [] ∧ key.length < 2 ^ 32
  | deletedFile level number => level < kNumLevels ∧ number < 2 ^ 64
  | newFile level number fileSize smallest largest =>
    level < kNumLevels ∧ number < 2 ^ 64 ∧ fileSize < 2 ^ 64 ∧
      (smallest ≠ [] ∧ smallest.length < 2 ^ 32) ∧ largest ≠ [] ∧ largest.length < 2 ^ 32

section values
variable {input rest key : Bytes} {level : Nat}

theorem getLevel_put (bound : level < kNumLevels) (rest : Bytes) :
    getLevel (putVarint32 level ++ rest) = some (level, rest) := by
  have small : level < 2 ^ 32 := bound.trans (by decide)
  rw [getLevel, getVarint32_putVarint32 rest small]
  simp [bound]

theorem getInternalKey_put (nonempty : key ≠ []) (short : key.length < 2 ^ 32) (rest : Bytes) :
    getInternalKey (putLengthPrefixedSlice key ++ rest) = some (key, rest) := by
  rw [getInternalKey, getLengthPrefixedSlice_put rest short]
  simp [nonempty]

theorem getLevel_spec (read : getLevel input = some (level, rest)) :
    level < kNumLevels ∧ rest.length < input.length := by
  obtain ⟨isLevel, bound⟩ := Option.filter_eq_some_iff.mp read
  exact ⟨of_decide_eq_true bound, (getVarint32_spec isLevel).2⟩

theorem getInternalKey_spec (read : getInternalKey input = some (key, rest)) :
    (key ≠ [] ∧ key.length < 2 ^ 32) ∧ rest.length < input.length := by
  obtain ⟨isKey, nonempty⟩ := Option.filter_eq_some_iff.mp read
  obtain ⟨short, shorter⟩ := getLengthPrefixedSlice_spec isKey
  exact ⟨⟨by simpa using nonempty, short⟩, shorter⟩

theorem orMessage_ok {α : Type} {message : String} {x : Option α} {a : α} :
    orMessage message x = .ok a ↔ x = some a := by
  cases x with
  | none => simp [orMessage]
  | some x => simp [orMessage]

end values

theorem readRecord_encode {r : EditRecord} (fits : r.Fits) (rest : Bytes) :
    readRecord r.tag (r.body ++ rest) = .ok (r, rest) := by
  cases r with
  | comparator name => simp [readRecord, EditRecord.tag, EditRecord.body, orMessage_ok,
      getLengthPrefixedSlice_put rest fits]
  | logNumber number | nextFileNumber number | lastSequence number | prevLogNumber number =>
    simp [readRecord, EditRecord.tag, EditRecord.body, orMessage_ok, getVarint64_putVarint64 rest fits]
  | compactPointer level key =>
    simp [readRecord, EditRecord.tag, EditRecord.body, orMessage_ok, getLevel_put fits.1,
      getInternalKey_put fits.2.1 fits.2.2]
  | deletedFile level number =>
    simp [readRecord, EditRecord.tag, EditRecord.body, orMessage_ok, getLevel_put fits.1,
      getVarint64_putVarint64 rest fits.2]
  | newFile level number fileSize smallest largest =>
    obtain ⟨bound, small, small', ⟨nonempty, short⟩, nonempty', short'⟩ := fits
    simp [readRecord, EditRecord.tag, EditRecord.body, orMessage_ok, getLevel_put bound,
      getVarint64_putVarint64 _ small, getVarint64_putVarint64 _ small',
      getInternalKey_put nonempty short, getInternalKey_put nonempty' short']

theorem readRecord_spec {tag : Nat} {input rest : Bytes} {r : EditRecord}
    (read : readRecord tag input = .ok (r, rest)) : r.Fits ∧ rest.length < input.length := by
  unfold readRecord at read
  split at read
  case h_1 =>
    obtain ⟨⟨name, input₁⟩, isName, read⟩ := bind_eq_some_iff.mp (orMessage_ok.mp read)
    cases read
    exact getLengthPrefixedSlice_spec isName
  case h_2 | h_3 | h_4 | h_5 =>
    obtain ⟨⟨number, input₁⟩, isNumber, read⟩ := bind_eq_some_iff.mp (orMessage_ok.mp read)
    cases read
    exact getVarint64_spec isNumber
  case h_6 =>
    obtain ⟨⟨level, input₁⟩, isLevel, read⟩ := bind_eq_some_iff.mp (orMessage_ok.mp read)
    obtain ⟨⟨key, input₂⟩, isKey, read⟩ := bind_eq_some_iff.mp read
    cases read
    obtain ⟨bound, first⟩ := getLevel_spec isLevel
    obtain ⟨fits, second⟩ := getInternalKey_spec isKey
    exact ⟨⟨bound, fits⟩, second.trans first⟩
  case h_7 =>
    obtain ⟨⟨level, input₁⟩, isLevel, read⟩ := bind_eq_some_iff.mp (orMessage_ok.mp read)
    obtain ⟨⟨number, input₂⟩, isNumber, read⟩ := bind_eq_some_iff.mp read
    cases read
    obtain ⟨bound, first⟩ := getLevel_spec isLevel
    obtain ⟨small, second⟩ := getVarint64_spec isNumber
    exact ⟨⟨bound, small⟩, second.trans first⟩
  case h_8 =>
    obtain ⟨⟨level, input₁⟩, isLevel, read⟩ := bind_eq_some_iff.mp (orMessage_ok.mp read)
    obtain ⟨⟨number, input₂⟩, isNumber, read⟩ := bind_eq_some_iff.mp read
    obtain ⟨⟨fileSize, input₃⟩, isSize, read⟩ := bind_eq_some_iff.mp read
    obtain ⟨⟨smallest, input₄⟩, isSmallest, read⟩ := bind_eq_some_iff.mp read
    obtain ⟨⟨largest, input₅⟩, isLargest, read⟩ := bind_eq_some_iff.mp read
    cases read
    obtain ⟨bound, first⟩ := getLevel_spec isLevel
    obtain ⟨small, second⟩ := getVarint64_spec isNumber
    obtain ⟨small', third⟩ := getVarint64_spec isSize
    obtain ⟨fits, fourth⟩ := getInternalKey_spec isSmallest
    obtain ⟨fits', fifth⟩ := getInternalKey_spec isLargest
    exact ⟨⟨bound, small, small', fits, fits'⟩, by omega⟩
  case h_9 => cases read

namespace EditFields

/-- Levels are in range, keys are not empty, and numbers and lengths are ones of 64 and 32 bits. -/
structure Fits (edit : EditFields) : Prop where
  comparator : ∀ name ∈ edit.comparator, name.length < 2 ^ 32
  logNumber : ∀ n ∈ edit.logNumber, n < 2 ^ 64
  prevLogNumber : ∀ n ∈ edit.prevLogNumber, n < 2 ^ 64
  nextFileNumber : ∀ n ∈ edit.nextFileNumber, n < 2 ^ 64
  lastSequence : ∀ n ∈ edit.lastSequence, n < 2 ^ 64
  compactPointers : ∀ p ∈ edit.compactPointers,
    p.1 < kNumLevels ∧ p.2 ≠ [] ∧ p.2.length < 2 ^ 32
  deletedFiles : ∀ d ∈ edit.deletedFiles, (ofLex d).1 < kNumLevels ∧ (ofLex d).2 < 2 ^ 64
  newFiles : ∀ f ∈ edit.newFiles, f.1 < kNumLevels ∧ f.2.1 < 2 ^ 64 ∧ f.2.2.1 < 2 ^ 64 ∧
    (f.2.2.2.1 ≠ [] ∧ f.2.2.2.1.length < 2 ^ 32) ∧ f.2.2.2.2 ≠ [] ∧ f.2.2.2.2.length < 2 ^ 32

variable {edit : EditFields} {fuel : Nat} {input : Bytes}

theorem Fits.records (fits : edit.Fits) : ∀ r ∈ edit.records, r.Fits := by
  intro r mem
  simp only [EditFields.records, mem_append, mem_map, Option.mem_toList, Option.map_eq_some_iff,
    Finset.mem_sort] at mem
  obtain (((((((⟨x, isX, rfl⟩ | ⟨x, isX, rfl⟩) | ⟨x, isX, rfl⟩) | ⟨x, isX, rfl⟩) | ⟨x, isX, rfl⟩) |
    ⟨x, isX, rfl⟩) | ⟨x, isX, rfl⟩) | ⟨x, isX, rfl⟩) := mem
  · exact fits.comparator x isX
  · exact fits.logNumber x isX
  · exact fits.prevLogNumber x isX
  · exact fits.nextFileNumber x isX
  · exact fits.lastSequence x isX
  · exact fits.compactPointers x isX
  · exact fits.deletedFiles x isX
  · exact fits.newFiles x isX

theorem Fits.apply (fits : edit.Fits) {r : EditRecord} (fitsRecord : r.Fits) :
    (edit.apply r).Fits := by
  cases r with
  | comparator name => exact { fits with comparator := by rintro _ ⟨rfl⟩; exact fitsRecord }
  | logNumber number => exact { fits with logNumber := by rintro _ ⟨rfl⟩; exact fitsRecord }
  | prevLogNumber number => exact { fits with prevLogNumber := by rintro _ ⟨rfl⟩; exact fitsRecord }
  | nextFileNumber number => exact { fits with nextFileNumber := by rintro _ ⟨rfl⟩; exact fitsRecord }
  | lastSequence number => exact { fits with lastSequence := by rintro _ ⟨rfl⟩; exact fitsRecord }
  | compactPointer level key =>
    refine { fits with compactPointers := fun p mem => ?_ }
    obtain old | new := mem_append.mp mem
    · exact fits.compactPointers p old
    · cases mem_singleton.mp new
      exact fitsRecord
  | deletedFile level number =>
    refine { fits with deletedFiles := fun d mem => ?_ }
    obtain rfl | old := Finset.mem_insert.mp mem
    · exact fitsRecord
    · exact fits.deletedFiles d old
  | newFile level number fileSize smallest largest =>
    refine { fits with newFiles := fun f mem => ?_ }
    obtain old | new := mem_append.mp mem
    · exact fits.newFiles f old
    · cases mem_singleton.mp new
      exact fitsRecord

theorem decodeLoop_fits {edit' : EditFields} (fits : edit.Fits)
    (decoded : decodeLoop fuel input edit = some (.ok edit')) : edit'.Fits := by
  induction fuel generalizing input edit with
  | zero =>
    unfold decodeLoop at decoded
    split at decoded
    case h_1 =>
      split at decoded
      case isTrue =>
        cases decoded
        exact fits
      case isFalse => cases decoded
    case h_2 => split at decoded <;> cases decoded
  | succ fuel ih =>
    unfold decodeLoop at decoded
    split at decoded
    case h_1 =>
      split at decoded
      case isTrue =>
        cases decoded
        exact fits
      case isFalse => cases decoded
    case h_2 =>
      split at decoded
      case h_1 => cases decoded
      case h_2 read => exact ih (fits.apply (readRecord_spec read).1) decoded

theorem length_le_encoded (records : List EditRecord) :
    records.length ≤ (records.flatMap EditRecord.encode).length := by
  induction records with
  | nil => exact le_refl 0
  | cons r rest ih =>
    have positive : 0 < r.encode.length := by
      rw [EditRecord.encode, length_append]
      exact Nat.add_pos_left (length_pos_iff.mpr (encodeVarint_ne_nil 4 _)) _
    rw [flatMap_cons, length_append, length_cons]
    omega

theorem decodeLoop_records {records : List EditRecord} (fits : ∀ r ∈ records, r.Fits)
    (enough : records.length ≤ fuel) (edit : EditFields) :
    decodeLoop fuel (records.flatMap EditRecord.encode) edit =
      some (.ok (records.foldl apply edit)) := by
  induction records generalizing fuel edit with
  | nil => cases fuel <;> rfl
  | cons r rest ih =>
    cases fuel with
    | zero => cases enough
    | succ fuel =>
      have small : r.tag < 2 ^ 32 := r.tag_le.trans_lt (by decide)
      have isTag := getVarint32_putVarint32 (r.body ++ rest.flatMap EditRecord.encode) small
      have isRecord := readRecord_encode (fits r mem_cons_self) (rest.flatMap EditRecord.encode)
      rw [flatMap_cons, EditRecord.encode, append_assoc, decodeLoop, isTag]
      simp only [isRecord]
      exact ih (fun x mem => fits x (mem_cons_of_mem r mem)) (Nat.le_of_succ_le_succ enough) _

theorem foldl_compactPointers (pointers : List (Nat × Bytes)) (edit : EditFields) :
    (pointers.map fun p => EditRecord.compactPointer p.1 p.2).foldl apply edit =
      { edit with compactPointers := edit.compactPointers ++ pointers } := by
  induction pointers generalizing edit with
  | nil => simp
  | cons p rest ih =>
    rw [map_cons, foldl_cons, ih]
    simp [apply]

theorem foldl_deletedFiles (files : List (Nat ×ₗ Nat)) (edit : EditFields) :
    (files.map fun d => EditRecord.deletedFile (ofLex d).1 (ofLex d).2).foldl apply edit =
      { edit with deletedFiles := edit.deletedFiles ∪ files.toFinset } := by
  induction files generalizing edit with
  | nil => simp
  | cons d rest ih =>
    rw [map_cons, foldl_cons, ih]
    simp [apply]

theorem foldl_newFiles (files : List (Nat × Nat × Nat × Bytes × Bytes)) (edit : EditFields) :
    (files.map fun f => EditRecord.newFile f.1 f.2.1 f.2.2.1 f.2.2.2.1 f.2.2.2.2).foldl apply edit =
      { edit with newFiles := edit.newFiles ++ files } := by
  induction files generalizing edit with
  | nil => simp
  | cons f rest ih =>
    rw [map_cons, foldl_cons, ih]
    simp [apply]

theorem foldl_records (edit : EditFields) : edit.records.foldl apply {} = edit := by
  obtain ⟨name, log, prevLog, nextFile, last, pointers, deleted, files⟩ := edit
  have first : (name.map EditRecord.comparator).toList.foldl apply {} =
      { comparator := name } := by cases name <;> rfl
  have second : (log.map EditRecord.logNumber).toList.foldl apply { comparator := name } =
      { comparator := name, logNumber := log } := by cases log <;> rfl
  have third : (prevLog.map EditRecord.prevLogNumber).toList.foldl apply
      { comparator := name, logNumber := log } =
      { comparator := name, logNumber := log, prevLogNumber := prevLog } := by
    cases prevLog <;> rfl
  have fourth : (nextFile.map EditRecord.nextFileNumber).toList.foldl apply
      { comparator := name, logNumber := log, prevLogNumber := prevLog } =
      { comparator := name, logNumber := log, prevLogNumber := prevLog,
        nextFileNumber := nextFile } := by
    cases nextFile <;> rfl
  have fifth : (last.map EditRecord.lastSequence).toList.foldl apply
      { comparator := name, logNumber := log, prevLogNumber := prevLog,
        nextFileNumber := nextFile } =
      { comparator := name, logNumber := log, prevLogNumber := prevLog,
        nextFileNumber := nextFile, lastSequence := last } := by
    cases last <;> rfl
  simp only [records, foldl_append, first, second, third, fourth, fifth,
    foldl_compactPointers, foldl_deletedFiles, foldl_newFiles, Finset.sort_toFinset,
    nil_append, Finset.empty_union]

theorem decodeFrom_encodeTo (fits : edit.Fits) (prior : EditFields) :
    decodeFrom prior edit.encodeTo = some (.ok edit) := by
  rw [decodeFrom, encodeTo, decodeLoop_records fits.records (length_le_encoded edit.records), clear,
    foldl_records]

theorem decodeFrom_fits {prior : EditFields} {src : Bytes}
    (decoded : decodeFrom prior src = some (.ok edit)) : edit.Fits := by
  refine decodeLoop_fits ?_ decoded
  constructor
  all_goals simp [clear]

theorem decodeLoop_isSome (enough : input.length ≤ fuel)
    (edit : EditFields) : (decodeLoop fuel input edit).isSome := by
  induction fuel generalizing input edit with
  | zero =>
    cases length_eq_zero_iff.mp (Nat.le_zero.mp enough)
    rfl
  | succ fuel ih =>
    unfold decodeLoop
    split
    case h_1 => rfl
    case h_2 isTag =>
      have first := (getVarint32_spec isTag).2
      split
      case h_1 => rfl
      case h_2 read =>
        have second := (readRecord_spec read).2
        exact ih (by omega) _

end EditFields

/-- Decoding gives back what was encoded, whatever the object held before, and what is decoded can be
encoded and decoded again. -/
theorem versionEdit_codec (prior : EditFields) :
    (∀ edit : EditFields, edit.Fits → prior.decodeFrom edit.encodeTo = some (.ok edit)) ∧
      ∀ src, (prior.decodeFrom src).isSome ∧
        ∀ edit, prior.decodeFrom src = some (.ok edit) →
          ∀ prior', EditFields.decodeFrom prior' edit.encodeTo = some (.ok edit) := by
  refine ⟨fun edit fits => EditFields.decodeFrom_encodeTo fits prior, fun src => ⟨?_, ?_⟩⟩
  · exact EditFields.decodeLoop_isSome le_rfl _
  · intro edit decoded prior'
    exact EditFields.decodeFrom_encodeTo (EditFields.decodeFrom_fits decoded) prior'

/-- An edit with every kind of record. -/
def everyRecord : EditFields where
  comparator := some [99]
  logNumber := some 300
  prevLogNumber := some 0
  nextFileNumber := some (2 ^ 63)
  lastSequence := some 7
  compactPointers := [(6, [1, 2]), (0, [3])]
  deletedFiles := {toLex (1, 9), toLex (0, 8)}
  newFiles := [(2, 11, 4096, [1], [200, 7])]

theorem versionEdit_codec_every : EditFields.decodeFrom { logNumber := some 1 }
    everyRecord.encodeTo =
    some (.ok everyRecord) := by
  refine (versionEdit_codec { logNumber := some 1 }).1 everyRecord ?_
  constructor
  all_goals simp [everyRecord, kNumLevels]

end TalusDB
