import TalusDB.DB.Format
import TalusDB.Lib.Search

/-! Table files and versions of `db/version_set.cc`, with the searches over the files
of a level. A file's record carries the contents of its table, and a version maps
each level to its files. -/
namespace TalusDB
open List

def kNumLevels : Nat := 7
def kL0CompactionTrigger : Nat := 4
def kMaxMemCompactLevel : Nat := 2

/-- The options and the encoder's sizes that a run depends on: `builderSize` is the
table builder's `FileSize` while entries are added, `tableSize` the size of the
finished table. -/
structure Options (K V : Type) where
  maxFileSize : Nat
  builderSize : List (Entry K V) → Nat
  tableSize : List (Entry K V) → Nat

section
variable {K V : Type}

def targetFileSize (options : Options K V) : Nat := options.maxFileSize
def maxGrandParentOverlapBytes (options : Options K V) : Nat := 10 * targetFileSize options
def expandedCompactionByteSizeLimit (options : Options K V) : Nat := 25 * targetFileSize options
def maxFileSizeForLevel (options : Options K V) (_level : Nat) : Nat := targetFileSize options

end

/-- A table file and its contents. The bounds are those of the contents, and a table
holds its entries in increasing order: `TableBuilder::Add` asserts it, as
`PackSequenceAndType` asserts that sequence numbers are in range. -/
structure FileMetaData (K V : Type) [LinearOrder K] where
  number : Nat
  fileSize : Nat
  smallest : InternalKey K
  largest : InternalKey K
  entries : List (Entry K V)
  ordered : smallest ≤ largest
  sorted : entries.Pairwise fun a b => a.key < b.key
  bounded : ∀ e ∈ entries, smallest ≤ e.key ∧ e.key ≤ largest
  inRange : largest.sequence ≤ kMaxSequenceNumber ∧ ∀ e ∈ entries, e.sequence ≤ kMaxSequenceNumber

section
variable {K V : Type} [LinearOrder K]

theorem bounded_of_sorted {e : Entry K V} {rest : List (Entry K V)}
    (sorted : (e :: rest).Pairwise fun a b => a.key < b.key) :
    ∀ x ∈ e :: rest, e.key ≤ x.key ∧ x.key ≤ (rest.getLastD e).key := by
  induction rest generalizing e with
  | nil =>
    intro x mem
    rw [mem_singleton.mp mem]
    exact ⟨le_refl _, le_refl _⟩
  | cons f rest ih =>
    obtain ⟨first, sorted'⟩ := pairwise_cons.mp sorted
    have bounds := ih sorted'
    have less : e.key < f.key := first f mem_cons_self
    rw [getLastD_cons]
    intro x mem
    obtain rfl | later := mem_cons.mp mem
    · exact ⟨le_refl _, less.le.trans (bounds f mem_cons_self).2⟩
    · exact ⟨less.le.trans (bounds x later).1, (bounds x later).2⟩

/-- The file that a table builder leaves after these entries were added in turn:
none where `Add` would fail its assertion, or where no entry was added. -/
def FileMetaData.build (number fileSize : Nat) (entries : List (Entry K V)) :
    Option (FileMetaData K V) :=
  match entries with
  | [] => none
  | e :: rest =>
    if valid : (e :: rest).Pairwise (fun a b => a.key < b.key) ∧
        ∀ x ∈ e :: rest, x.sequence ≤ kMaxSequenceNumber then
      some { number, fileSize, smallest := e.key, largest := (rest.getLastD e).key
             entries := e :: rest, ordered := (bounded_of_sorted valid.1 e List.mem_cons_self).2
             sorted := valid.1, bounded := bounded_of_sorted valid.1
             inRange := ⟨valid.2 _ List.getLastD_mem_cons, valid.2⟩ }
    else none

def totalFileSize (files : List (FileMetaData K V)) : Nat := (files.map (·.fileSize)).sum

/-- `FindFile`: the first file whose largest key is at or after `key`. -/
def findFile (files : List (FileMetaData K V)) (key : InternalKey K) : Nat :=
  Search.bisect (fun i => files[i]?.any (·.largest < key)) files.length 0 files.length

/-- A missing bound is before all files, or after all of them. -/
def afterFile (userKey : Option K) (f : FileMetaData K V) : Bool :=
  userKey.any (f.largest.userKey < ·)

@[inherit_doc afterFile]
def beforeFile (userKey : Option K) (f : FileMetaData K V) : Bool :=
  userKey.any (· < f.smallest.userKey)

def someFileOverlapsRange (disjointSortedFiles : Bool) (files : List (FileMetaData K V))
    (smallestUserKey largestUserKey : Option K) : Bool :=
  if disjointSortedFiles then
    let index := match smallestUserKey with
      | none => 0
      | some user => findFile files (InternalKey.lookup user kMaxSequenceNumber)
    match files[index]? with
    | none => false
    | some f => !beforeFile largestUserKey f
  else files.any fun f => !(afterFile smallestUserKey f || beforeFile largestUserKey f)

/-- One pass of `GetOverlappingInputs` over a level: the overlapping files, or the
wider range to start again with. -/
inductive Scan (K V : Type) [LinearOrder K] where
  | done (inputs : List (FileMetaData K V))
  | widen (userBegin userEnd : Option K)

def scanInputs (level : Nat) (userBegin userEnd : Option K) :
    List (FileMetaData K V) → List (FileMetaData K V) → Scan K V
  | [], inputs => .done inputs
  | f :: rest, inputs =>
    if afterFile userBegin f || beforeFile userEnd f then
      scanInputs level userBegin userEnd rest inputs
    else if level = 0 ∧ userBegin.any (f.smallest.userKey < ·) then
      .widen (some f.smallest.userKey) userEnd
    else if level = 0 ∧ userEnd.any (· < f.largest.userKey) then
      .widen userBegin (some f.largest.userKey)
    else scanInputs level userBegin userEnd rest (inputs ++ [f])

/-- Every widening reaches the bound of one more file, so it happens at most twice a
file. -/
def overlappingInputsLoop (level : Nat) (files : List (FileMetaData K V)) :
    Nat → Option K → Option K → List (FileMetaData K V)
  | 0, _, _ => []
  | fuel + 1, userBegin, userEnd =>
    match scanInputs level userBegin userEnd files [] with
    | .done inputs => inputs
    | .widen userBegin userEnd => overlappingInputsLoop level files fuel userBegin userEnd

end

@[ext]
structure Version (K V : Type) [LinearOrder K] where
  files : Nat → List (FileMetaData K V)
  shallow : ∀ level, kNumLevels ≤ level → files level = []

namespace Version
variable {K V : Type} [LinearOrder K]

def empty : Version K V := ⟨fun _ => [], fun _ _ => rfl⟩

theorem level_lt {v : Version K V} {level : Nat} {f : FileMetaData K V} (mem : f ∈ v.files level) :
    level < kNumLevels := by
  by_contra deep
  rw [v.shallow level (Nat.le_of_not_lt deep)] at mem
  cases mem

def overlapInLevel (v : Version K V) (level : Nat) (smallestUserKey largestUserKey : Option K) :
    Bool :=
  someFileOverlapsRange (decide (0 < level)) (v.files level) smallestUserKey largestUserKey

/-- `GetOverlappingInputs`. At level 0 files may overlap each other, so the range
grows until no file sticks out of it. -/
def getOverlappingInputs (v : Version K V) (level : Nat) (begin finish : Option (InternalKey K)) :
    List (FileMetaData K V) :=
  overlappingInputsLoop level (v.files level) (2 * (v.files level).length + 1)
    (begin.map (·.userKey)) (finish.map (·.userKey))

def pickLevelLoop (options : Options K V) (v : Version K V) (smallestUserKey largestUserKey : K) :
    Nat → Nat → Nat
  | 0, level => level
  | fuel + 1, level =>
    if v.overlapInLevel (level + 1) (some smallestUserKey) (some largestUserKey) then level
    else if level + 2 < kNumLevels ∧ maxGrandParentOverlapBytes options <
        totalFileSize (v.getOverlappingInputs (level + 2)
          (some (InternalKey.lookup smallestUserKey kMaxSequenceNumber))
          (some ⟨largestUserKey, 0, .deletion⟩)) then level
    else pickLevelLoop options v smallestUserKey largestUserKey fuel (level + 1)

/-- `PickLevelForMemTableOutput`: a new table goes below the levels that it overlaps,
at most to level 2. -/
def pickLevelForMemTableOutput (options : Options K V) (v : Version K V)
    (smallestUserKey largestUserKey : K) : Nat :=
  if v.overlapInLevel 0 (some smallestUserKey) (some largestUserKey) then 0
  else pickLevelLoop options v smallestUserKey largestUserKey kMaxMemCompactLevel 0

end Version
end TalusDB
