import TalusDB.DB.VersionEdit

/-! Choosing the inputs of a compaction: `PickCompaction`, `CompactRange` and
`SetupOtherInputs` of `db/version_set.cc`. -/
namespace TalusDB

structure Compaction (K V : Type) [LinearOrder K] where
  level : Nat
  inputVersion : Version K V
  /-- The inputs at `level` and at `level + 1`. -/
  inputs : List (FileMetaData K V) × List (FileMetaData K V)
  grandparents : List (FileMetaData K V)
  /-- The new compact pointer of `level`. -/
  pointer : InternalKey K

section
variable {K V : Type} [LinearOrder K]

/-- `GetRange`; none where the source asserts that there is an input. -/
def getRange : List (FileMetaData K V) → Option (InternalKey K × InternalKey K)
  | [] => none
  | f :: rest => some (rest.foldl (fun range g =>
      (if g.smallest < range.1 then g.smallest else range.1,
       if range.2 < g.largest then g.largest else range.2)) (f.smallest, f.largest))

def getRange2 (inputs1 inputs2 : List (FileMetaData K V)) :
    Option (InternalKey K × InternalKey K) :=
  getRange (inputs1 ++ inputs2)

def findLargestKey : List (FileMetaData K V) → Option (InternalKey K)
  | [] => none
  | f :: rest => some (rest.foldl (fun largest g =>
      if largest < g.largest then g.largest else largest) f.largest)

/-- One round of `FindSmallestBoundaryFile`: the candidate after the file `f`. -/
def boundaryCandidate (largestKey : InternalKey K) (found : Option (FileMetaData K V))
    (f : FileMetaData K V) : Option (FileMetaData K V) :=
  if largestKey < f.smallest ∧ f.smallest.userKey = largestKey.userKey then
    match found with
    | none => some f
    | some g => if f.smallest < g.smallest then some f else some g
  else found

/-- The first file of the level that goes on with the user key of `largestKey`. -/
def findSmallestBoundaryFile (levelFiles : List (FileMetaData K V)) (largestKey : InternalKey K) :
    Option (FileMetaData K V) :=
  levelFiles.foldl (boundaryCandidate largestKey) none

/-- Every round starts behind the file that the last one added, so there are at most
as many as files in the level. -/
def addBoundaryLoop (levelFiles : List (FileMetaData K V)) :
    Nat → InternalKey K → List (FileMetaData K V) → List (FileMetaData K V)
  | 0, _, files => files
  | fuel + 1, largestKey, files =>
    match findSmallestBoundaryFile levelFiles largestKey with
    | none => files
    | some f => addBoundaryLoop levelFiles fuel f.largest (files ++ [f])

/-- `AddBoundaryInputs`: older entries of the last user key, in the files behind the
chosen ones, are compacted along with them. -/
def addBoundaryInputs (levelFiles compactionFiles : List (FileMetaData K V)) :
    List (FileMetaData K V) :=
  match findLargestKey compactionFiles with
  | none => compactionFiles
  | some largestKey => addBoundaryLoop levelFiles levelFiles.length largestKey compactionFiles

/-- The inputs of both levels, once those of `level` are fixed. -/
def secondInputs (v : Version K V) (level : Nat) (range : InternalKey K × InternalKey K) :
    List (FileMetaData K V) :=
  addBoundaryInputs (v.files (level + 1))
    (v.getOverlappingInputs (level + 1) (some range.1) (some range.2))

/-- The attempt to take more files of `level` without changing the inputs at
`level + 1`. -/
def expandInputs (options : Options K V) (v : Version K V) (level : Nat)
    (inputs0 inputs1 : List (FileMetaData K V)) (all : InternalKey K × InternalKey K) :
    Option (List (FileMetaData K V) × List (FileMetaData K V)) := do
  let expanded0 := addBoundaryInputs (v.files level)
    (v.getOverlappingInputs level (some all.1) (some all.2))
  if inputs0.length < expanded0.length ∧
      totalFileSize inputs1 + totalFileSize expanded0 < expandedCompactionByteSizeLimit options then
    let range ← getRange expanded0
    if (secondInputs v level range).length = inputs1.length then
      some (expanded0, secondInputs v level range)
    else none
  else none

/-- `SetupOtherInputs`; none where the source asserts that there is an input. -/
def setupOtherInputs (options : Options K V) (v : Version K V) (level : Nat)
    (inputs : List (FileMetaData K V)) : Option (Compaction K V) := do
  let inputs0 := addBoundaryInputs (v.files level) inputs
  let range ← getRange inputs0
  let inputs1 := secondInputs v level range
  let all ← getRange2 inputs0 inputs1
  let expanded := if inputs1.isEmpty then none else expandInputs options v level inputs0 inputs1 all
  let chosen := expanded.getD (inputs0, inputs1)
  let range ← getRange chosen.1
  let all ← getRange2 chosen.1 chosen.2
  let grandparents := if level + 2 < kNumLevels then
    v.getOverlappingInputs (level + 2) (some all.1) (some all.2) else []
  some { level, inputVersion := v, inputs := chosen, grandparents, pointer := range.2 }

def maxBytesForLevel (level : Nat) : ℚ := 10 * 1048576 * 10 ^ (level - 1)

/-- `Finalize`: the level with the highest score, over all levels, and its score.
The source computes the scores in floating point. -/
def compactionScore (v : Version K V) (level : Nat) : ℚ :=
  if level = 0 then (v.files level).length / kL0CompactionTrigger
  else totalFileSize (v.files level) / maxBytesForLevel level

@[inherit_doc compactionScore]
def finalize (v : Version K V) : Nat × ℚ :=
  (List.range kNumLevels).foldl (fun best level =>
    if best.2 < compactionScore v level then (level, compactionScore v level) else best) (0, -1)

/-- The file of a size compaction: the first one behind the compact pointer. -/
def nextFileToCompact (files : List (FileMetaData K V)) (pointer : Option (InternalKey K)) :
    Option (FileMetaData K V) :=
  match files.find? (fun f => pointer.all (· < f.largest)) with
  | some f => some f
  | none => files.head?

/-- The file that `PickCompaction` starts with: compactions wanted for a level's size
come before those wanted for a file that was read in vain too often. -/
def compactionStart (v : Version K V) (compactPointer : Nat → Option (InternalKey K))
    (fileToCompact : Option (Nat × FileMetaData K V)) : Option (Nat × FileMetaData K V) :=
  if 1 ≤ (finalize v).2 then
    (nextFileToCompact (v.files (finalize v).1) (compactPointer (finalize v).1)).map
      ((finalize v).1, ·)
  else fileToCompact

/-- At level 0, all files that the range of the first one leads to. -/
def startInputs (v : Version K V) (level : Nat) (file : FileMetaData K V) :
    List (FileMetaData K V) :=
  if level = 0 then v.getOverlappingInputs 0 (some file.smallest) (some file.largest) else [file]

/-- `PickCompaction`. There is no result when nothing is to be compacted, and none
where the source asserts that there is a next level. -/
def pickCompaction (options : Options K V) (v : Version K V)
    (compactPointer : Nat → Option (InternalKey K))
    (fileToCompact : Option (Nat × FileMetaData K V)) : Option (Compaction K V) := do
  let (level, file) ← compactionStart v compactPointer fileToCompact
  if level + 1 < kNumLevels then setupOtherInputs options v level (startInputs v level file)
  else none

/-- The inputs of a manual compaction are cut off when they reach the size of a
file. -/
def limitInputs (limit total : Nat) : List (FileMetaData K V) → List (FileMetaData K V)
  | [] => []
  | f :: rest => if limit ≤ total + f.fileSize then [f] else f :: limitInputs limit (total + f.fileSize) rest

/-- `VersionSet::CompactRange`; none when no file overlaps the range. -/
def compactRange (options : Options K V) (v : Version K V) (level : Nat)
    (begin finish : Option (InternalKey K)) : Option (Compaction K V) :=
  let inputs := v.getOverlappingInputs level begin finish
  if inputs.isEmpty then none
  else setupOtherInputs options v level
    (if 0 < level then limitInputs (maxFileSizeForLevel options level) 0 inputs else inputs)

namespace Compaction

def allInputs (c : Compaction K V) : List (FileMetaData K V) := c.inputs.1 ++ c.inputs.2

def maxOutputFileSize (options : Options K V) (c : Compaction K V) : Nat :=
  maxFileSizeForLevel options c.level

def isTrivialMove (options : Options K V) (c : Compaction K V) : Bool :=
  c.inputs.1.length == 1 && c.inputs.2.length == 0 &&
    decide (totalFileSize c.grandparents ≤ maxGrandParentOverlapBytes options)

def addInputDeletions (c : Compaction K V) (edit : VersionEdit K V) : VersionEdit K V :=
  c.inputs.2.foldl (fun edit f => edit.removeFile (c.level + 1) f.number)
    (c.inputs.1.foldl (fun edit f => edit.removeFile c.level f.number) edit)

end Compaction
end
end TalusDB
