import Mathlib

/-! File names of `db/filename.cc`, without the directory: one character for each byte. -/
namespace TalusDB
open List Option

/-- A number as `%06llu` prints it. -/
def padded (number : Nat) : List Char :=
  List.replicate (6 - (Nat.toDigits 10 number).length) '0' ++ Nat.toDigits 10 number

def descriptorFileName (number : Nat) : List Char := "MANIFEST-".toList ++ padded number

theorem ofDigitChars_replicate (n : Nat) (digits : List Char) :
    Nat.ofDigitChars 10 (List.replicate n '0' ++ digits) 0 = Nat.ofDigitChars 10 digits 0 := by
  induction n with
  | zero => rfl
  | succ n ih => simpa [replicate_succ, Nat.ofDigitChars] using ih

theorem padded_injective : Function.Injective padded := by
  intro m n same
  have read := congrArg (Nat.ofDigitChars 10 · 0) same
  simp only [padded, ofDigitChars_replicate] at read
  rwa [Nat.ofDigitChars_toDigits (by decide) (by decide),
    Nat.ofDigitChars_toDigits (by decide) (by decide)] at read

theorem descriptorFileName_injective : Function.Injective descriptorFileName :=
  fun _ _ same => padded_injective (append_cancel_left same)

/-- What `MakeFileName` puts behind the directory. -/
def makeFileName (number : Nat) (suffix : String) : List Char :=
  padded number ++ '.' :: suffix.toList

def logFileName (number : Nat) : List Char := makeFileName number "log"

def tableFileName (number : Nat) : List Char := makeFileName number "sst"

def tempFileName (number : Nat) : List Char := makeFileName number "dbtmp"

inductive FileType where
  | logFile | dbLockFile | tableFile | descriptorFile | currentFile | tempFile | infoLogFile
  deriving DecidableEq, Repr

def kMaxUint64 : Nat := 2 ^ 64 - 1

def kLastDigitOfMaxUint64 : Nat := '0'.toNat + kMaxUint64 % 10

/-- The loop of `ConsumeDecimalNumber`, which is left without a value by a number that is too large. -/
def consumeDigits : Nat → List Char → Option (Nat × List Char)
  | parsed, [] => some (parsed, [])
  | parsed, digit :: rest =>
    if digit.toNat < '0'.toNat ∨ '9'.toNat < digit.toNat then some (parsed, digit :: rest)
    else if kMaxUint64 / 10 < parsed ∨
        parsed = kMaxUint64 / 10 ∧ kLastDigitOfMaxUint64 < digit.toNat then none
    else consumeDigits ((parsed * 10 + (digit.toNat - '0'.toNat)) % 2 ^ 64) rest

/-- The number, and what is behind it. -/
def consumeDecimalNumber (input : List Char) : Option (Nat × List Char) := do
  let (value, rest) ← consumeDigits 0 input
  if input.length - rest.length ≠ 0 then some (value, rest) else none

def parseFileName (filename : List Char) : Option (Nat × FileType) :=
  if filename = "CURRENT".toList then some (0, .currentFile)
  else if filename = "LOCK".toList then some (0, .dbLockFile)
  else if filename = "LOG".toList ∨ filename = "LOG.old".toList then some (0, .infoLogFile)
  else if "MANIFEST-".toList.isPrefixOf filename then do
    let (number, rest) ← consumeDecimalNumber (filename.drop "MANIFEST-".length)
    if rest = [] then some (number, .descriptorFile) else none
  else do
    let (number, suffix) ← consumeDecimalNumber filename
    if suffix = ".log".toList then some (number, .logFile)
    else if suffix = ".sst".toList ∨ suffix = ".ldb".toList then some (number, .tableFile)
    else if suffix = ".dbtmp".toList then some (number, .tempFile)
    else none

/-- A non-empty string of digits, and its value, which is below `2 ^ 64`. -/
structure IsNumeral (digits : List Char) (value : Nat) : Prop where
  nonempty : digits ≠ []
  decimal : ∀ c ∈ digits, c.isDigit = true
  eval : Nat.ofDigitChars 10 digits 0 = value
  small : value < 2 ^ 64

/-- The names of the files of a database, with their numbers and types. -/
inductive OwnedName : List Char → Nat → FileType → Prop
  | current : OwnedName "CURRENT".toList 0 .currentFile
  | lock : OwnedName "LOCK".toList 0 .dbLockFile
  | infoLog : OwnedName "LOG".toList 0 .infoLogFile
  | oldInfoLog : OwnedName "LOG.old".toList 0 .infoLogFile
  | descriptor {digits : List Char} {number : Nat} (numeral : IsNumeral digits number) :
      OwnedName ("MANIFEST-".toList ++ digits) number .descriptorFile
  | log {digits : List Char} {number : Nat} (numeral : IsNumeral digits number) :
      OwnedName (digits ++ ".log".toList) number .logFile
  | table {digits : List Char} {number : Nat} (numeral : IsNumeral digits number) :
      OwnedName (digits ++ ".sst".toList) number .tableFile
  | oldTable {digits : List Char} {number : Nat} (numeral : IsNumeral digits number) :
      OwnedName (digits ++ ".ldb".toList) number .tableFile
  | temp {digits : List Char} {number : Nat} (numeral : IsNumeral digits number) :
      OwnedName (digits ++ ".dbtmp".toList) number .tempFile

section numbers
variable {digits input rest : List Char} {parsed number : Nat}

theorem isDigit_iff (c : Char) :
    c.isDigit = true ↔ ¬(c.toNat < '0'.toNat ∨ '9'.toNat < c.toNat) := by
  rw [Char.isDigit, Bool.and_eq_true, decide_eq_true_iff, decide_eq_true_iff, not_or, not_lt, not_lt]
  rfl

theorem le_ofDigitChars (digits : List Char) (parsed : Nat) :
    parsed ≤ Nat.ofDigitChars 10 digits parsed := by
  induction digits generalizing parsed with
  | nil => exact le_rfl
  | cons c digits ih =>
    rw [Nat.ofDigitChars_cons]
    exact le_trans (by omega) (ih _)

theorem consumeDigits_digits (decimal : ∀ c ∈ digits, c.isDigit = true)
    (ends : ∀ c ∈ rest.head?, ¬c.isDigit = true) (small : parsed < 2 ^ 64) :
    consumeDigits parsed (digits ++ rest) =
      if Nat.ofDigitChars 10 digits parsed < 2 ^ 64 then
        some (Nat.ofDigitChars 10 digits parsed, rest) else none := by
  induction digits generalizing parsed with
  | nil =>
    rw [nil_append, Nat.ofDigitChars_nil, if_pos small]
    cases rest with
    | nil => rfl
    | cons c rest =>
      have other := ends c rfl
      rw [isDigit_iff, not_not] at other
      rw [consumeDigits, if_pos other]
  | cons c digits ih =>
    obtain ⟨isDigit, decimal⟩ := forall_mem_cons.mp decimal
    have inRange := (isDigit_iff c).mp isDigit
    rw [cons_append, consumeDigits, if_neg inRange, Nat.ofDigitChars_cons]
    have bounds : 48 ≤ c.toNat ∧ c.toNat ≤ 57 := by
      simpa [not_or] using inRange
    have zero : '0'.toNat = 48 := rfl
    by_cases large : kMaxUint64 / 10 < parsed ∨
        parsed = kMaxUint64 / 10 ∧ kLastDigitOfMaxUint64 < c.toNat
    · have grows := le_ofDigitChars digits (10 * parsed + (c.toNat - '0'.toNat))
      rw [if_pos large, if_neg]
      rw [kLastDigitOfMaxUint64, kMaxUint64] at large
      omega
    · have fits : 10 * parsed + (c.toNat - '0'.toNat) < 2 ^ 64 := by
        rw [kLastDigitOfMaxUint64, kMaxUint64] at large
        omega
      rw [if_neg large, Nat.mul_comm, Nat.mod_eq_of_lt fits, ih decimal fits]

theorem consumeDecimalNumber_eq_some_iff : consumeDecimalNumber input = some (number, rest) ↔
    ∃ digits, input = digits ++ rest ∧ IsNumeral digits number ∧
      ∀ c ∈ rest.head?, ¬c.isDigit = true := by
  constructor
  · intro consumed
    obtain ⟨⟨value, behind⟩, isValue, some⟩ := bind_eq_some_iff.mp consumed
    have decimal : ∀ c ∈ input.takeWhile Char.isDigit, c.isDigit = true :=
      fun c mem => mem_takeWhile_imp mem
    have ends : ∀ c ∈ (input.dropWhile Char.isDigit).head?, ¬c.isDigit = true := by
      intro c isHead
      have stops := List.head?_dropWhile_not Char.isDigit input
      rw [mem_def.mp isHead] at stops
      exact Bool.eq_false_iff.mp stops
    rw [← @List.takeWhile_append_dropWhile _ Char.isDigit input,
      consumeDigits_digits decimal ends (by decide)] at isValue
    obtain ⟨small, isValue⟩ := ite_none_right_eq_some.mp isValue
    cases isValue
    dsimp only at some
    by_cases longer : input.length - (input.dropWhile Char.isDigit).length ≠ 0
    · rw [if_pos longer] at some
      cases some
      refine ⟨_, (takeWhile_append_dropWhile).symm, ⟨?_, decimal, rfl, small⟩, ends⟩
      intro none
      have parts := @List.takeWhile_append_dropWhile _ Char.isDigit input
      rw [none, nil_append] at parts
      rw [parts, Nat.sub_self] at longer
      exact longer rfl
    · rw [if_neg longer] at some
      cases some
  · rintro ⟨digits, rfl, numeral, ends⟩
    have consumed := consumeDigits_digits numeral.decimal ends (show 0 < 2 ^ 64 by decide)
    rw [numeral.eval, if_pos numeral.small] at consumed
    have positive := length_pos_iff.mpr numeral.nonempty
    rw [consumeDecimalNumber, consumed]
    simp only [bind_eq_bind, bind_some, length_append]
    exact if_pos (by omega)

theorem IsNumeral.consume (numeral : IsNumeral digits number)
    (ends : ∀ c ∈ rest.head?, ¬c.isDigit = true) :
    consumeDecimalNumber (digits ++ rest) = some (number, rest) :=
  consumeDecimalNumber_eq_some_iff.mpr ⟨digits, rfl, numeral, ends⟩

theorem padded_numeral (small : number < 2 ^ 64) : IsNumeral (padded number) number where
  nonempty := append_ne_nil_of_right_ne_nil _ Nat.toDigits_ne_nil
  decimal := by
    intro c mem
    rcases mem_append.mp mem with zero | digit
    · rw [eq_of_mem_replicate zero]
      rfl
    · exact Nat.isDigit_of_mem_toDigits (by decide) (by decide) digit
  eval := by
    rw [padded, ofDigitChars_replicate, Nat.ofDigitChars_toDigits (by decide) (by decide)]
  small := small

end numbers

section names
variable {digits name : List Char} {number : Nat} {type : FileType}

theorem parseFileName_numeral (numeral : IsNumeral digits number) (suffix : List Char)
    (ends : ∀ c ∈ suffix.head?, ¬c.isDigit = true) :
    parseFileName (digits ++ suffix) =
      if suffix = ".log".toList then some (number, .logFile)
      else if suffix = ".sst".toList ∨ suffix = ".ldb".toList then some (number, .tableFile)
      else if suffix = ".dbtmp".toList then some (number, .tempFile)
      else none := by
  have consumed := numeral.consume ends
  obtain ⟨c, rest, rfl⟩ := exists_cons_of_ne_nil numeral.nonempty
  have digit : c.isDigit = true := numeral.decimal c mem_cons_self
  have other (text : List Char) (letter : ∀ d ∈ text.head?, ¬d.isDigit = true) :
      ¬c :: rest ++ suffix = text := by
    rintro rfl
    exact letter c rfl digit
  have noManifest : ¬"MANIFEST-".toList.isPrefixOf (c :: rest ++ suffix) = true := by
    intro starts
    obtain ⟨tail, parts⟩ := isPrefixOf_iff_prefix.mp starts
    exact other _ (by simp) parts.symm
  rw [parseFileName, if_neg (other "CURRENT".toList (by simp)),
    if_neg (other "LOCK".toList (by simp)),
    if_neg (not_or.mpr ⟨other "LOG".toList (by simp), other "LOG.old".toList (by simp)⟩),
    if_neg noManifest, consumed]
  rfl

theorem parseFileName_manifest (rest : List Char) :
    parseFileName ("MANIFEST-".toList ++ rest) =
      (consumeDecimalNumber rest).bind fun (number, rest) =>
        if rest = [] then some (number, .descriptorFile) else none := by
  have starts : "MANIFEST-".toList.isPrefixOf ("MANIFEST-".toList ++ rest) = true :=
    isPrefixOf_iff_prefix.mpr (prefix_append _ _)
  have other (text : List Char) (letter : text.head? ≠ some 'M') :
      ¬"MANIFEST-".toList ++ rest = text := by
    rintro rfl
    exact letter rfl
  rw [parseFileName, if_neg (other "CURRENT".toList (by simp)),
    if_neg (other "LOCK".toList (by simp)),
    if_neg (not_or.mpr ⟨other "LOG".toList (by simp), other "LOG.old".toList (by simp)⟩),
    if_pos starts]
  rfl

theorem OwnedName.parse (owned : OwnedName name number type) :
    parseFileName name = some (number, type) := by
  cases owned with
  | current => rfl
  | lock => rfl
  | infoLog => rfl
  | oldInfoLog => rfl
  | descriptor numeral =>
    have consumed := numeral.consume (show ∀ c ∈ ([] : List Char).head?, _ by simp)
    rw [append_nil] at consumed
    rw [parseFileName_manifest, consumed]
    rfl
  | log numeral =>
    rw [parseFileName_numeral numeral _ (by simp)]
    rfl
  | table numeral =>
    rw [parseFileName_numeral numeral _ (by simp)]
    rfl
  | oldTable numeral =>
    rw [parseFileName_numeral numeral _ (by simp)]
    rfl
  | temp numeral =>
    rw [parseFileName_numeral numeral _ (by simp)]
    rfl

theorem parseFileName_owned (parsed : parseFileName name = some (number, type)) :
    OwnedName name number type := by
  by_cases manifest : "MANIFEST-".toList.isPrefixOf name = true
  · obtain ⟨rest, rfl⟩ := isPrefixOf_iff_prefix.mp manifest
    rw [parseFileName_manifest] at parsed
    obtain ⟨⟨value, behind⟩, consumed, isDescriptor⟩ := bind_eq_some_iff.mp parsed
    obtain ⟨digits, rfl, numeral, -⟩ := consumeDecimalNumber_eq_some_iff.mp consumed
    by_cases none : behind = []
    · subst none
      simp only [if_true] at isDescriptor
      cases isDescriptor
      rw [append_nil]
      exact .descriptor numeral
    · simp only [if_neg none] at isDescriptor
      cases isDescriptor
  · rw [parseFileName] at parsed
    split at parsed
    case isTrue isCurrent => cases parsed; subst isCurrent; exact .current
    case isFalse =>
    split at parsed
    case isTrue isLock => cases parsed; subst isLock; exact .lock
    case isFalse =>
    split at parsed
    case isTrue isLog =>
      cases parsed
      rcases isLog with rfl | rfl
      · exact .infoLog
      · exact .oldInfoLog
    case isFalse =>
    obtain ⟨⟨value, suffix⟩, consumed, isNumbered⟩ := bind_eq_some_iff.mp parsed
    obtain ⟨digits, rfl, numeral, -⟩ := consumeDecimalNumber_eq_some_iff.mp consumed
    dsimp only at isNumbered
    split at isNumbered
    case isTrue isLog => cases isNumbered; subst isLog; exact .log numeral
    case isFalse =>
    split at isNumbered
    case isTrue isTable =>
      cases isNumbered
      rcases isTable with rfl | rfl
      · exact .table numeral
      · exact .oldTable numeral
    case isFalse =>
    split at isNumbered
    case isTrue isTemp => cases isNumbered; subst isTemp; exact .temp numeral
    case isFalse => cases isNumbered

theorem parseFileName_iff : parseFileName name = some (number, type) ↔ OwnedName name number type :=
  ⟨parseFileName_owned, OwnedName.parse⟩

end names

def pathIn (dbname name : List Char) : List Char := dbname ++ '/' :: name

/-- The part of a path behind `dbname/`. -/
def nameIn (dbname path : List Char) : List Char := path.drop (dbname.length + 1)

@[simp] theorem nameIn_pathIn (dbname name : List Char) : nameIn dbname (pathIn dbname name) = name := by
  rw [nameIn, pathIn, ← drop_drop, drop_left]
  rfl

/-- `LogFileName`, `TableFileName`, `DescriptorFileName` and `TempFileName`. -/
def numberedFileName : FileType → Nat → Option (List Char)
  | .logFile, number => some (logFileName number)
  | .tableFile, number => some (tableFileName number)
  | .descriptorFile, number => some (descriptorFileName number)
  | .tempFile, number => some (tempFileName number)
  | .dbLockFile, _ => none
  | .currentFile, _ => none
  | .infoLogFile, _ => none

theorem numberedFileName_owned {type : FileType} {number : Nat} {name : List Char}
    (named : numberedFileName type number = some name) (small : number < 2 ^ 64) :
    OwnedName name number type := by
  have numeral := padded_numeral small
  cases type with
  | logFile =>
    cases named
    exact .log numeral
  | tableFile =>
    cases named
    exact .table numeral
  | descriptorFile =>
    cases named
    exact .descriptor numeral
  | tempFile =>
    cases named
    exact .temp numeral
  | dbLockFile => cases named
  | currentFile => cases named
  | infoLogFile => cases named

/-- `ParseFileName` gives back the number and the type of the name of a file, and accepts the names of
the files of a database only. So no two names of numbered files are taken for each other. -/
theorem parseFileName_names :
    (∀ dbname type number name, numberedFileName type number = some name → 0 < number →
      number < 2 ^ 64 → parseFileName (nameIn dbname (pathIn dbname name)) = some (number, type)) ∧
    (∀ name number type, parseFileName name = some (number, type) ↔ OwnedName name number type) ∧
    ∀ dbname type number name type' number' name',
      numberedFileName type number = some name → 0 < number → number < 2 ^ 64 →
      numberedFileName type' number' = some name' → 0 < number' → number' < 2 ^ 64 →
      pathIn dbname name ≠ pathIn dbname name' →
      parseFileName (nameIn dbname (pathIn dbname name)) ≠
        parseFileName (nameIn dbname (pathIn dbname name')) := by
  refine ⟨?_, fun name number type => parseFileName_iff, ?_⟩
  · intro dbname type number name named _ small
    rw [nameIn_pathIn]
    exact (numberedFileName_owned named small).parse
  · intro dbname type number name type' number' name' named _ small named' _ small' distinct same
    rw [nameIn_pathIn, nameIn_pathIn, (numberedFileName_owned named small).parse,
      (numberedFileName_owned named' small').parse] at same
    cases same
    rw [named] at named'
    cases named'
    exact distinct rfl

/-- Names with six digits and more. -/
theorem parseFileName_names_seven :
    parseFileName "000007.log".toList = some (7, .logFile) ∧
    parseFileName "MANIFEST-18446744073709551615".toList = some (2 ^ 64 - 1, .descriptorFile) := by
  have names := parseFileName_names.1 "db".toList
  have log := names .logFile 7 "000007.log".toList (by decide +kernel) (by decide) (by decide)
  have manifest := names .descriptorFile (2 ^ 64 - 1) "MANIFEST-18446744073709551615".toList
    (by decide +kernel) (by decide) (by decide)
  rw [nameIn_pathIn] at log manifest
  exact ⟨log, manifest⟩

end TalusDB
