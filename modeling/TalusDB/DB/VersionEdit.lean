import TalusDB.DB.Version

/-! Version edits and `VersionSet::Builder`: a version is the base version with some
files removed and others added, each level in the order of `BySmallestKey`. -/
namespace TalusDB

/-- The parts of a `VersionEdit` that change the files of a version. -/
structure VersionEdit (K V : Type) [LinearOrder K] where
  deletedFiles : List (Nat × Nat) := []
  newFiles : List (Nat × FileMetaData K V) := []

namespace VersionEdit
variable {K V : Type} [LinearOrder K]

def removeFile (edit : VersionEdit K V) (level number : Nat) : VersionEdit K V :=
  { edit with deletedFiles := edit.deletedFiles ++ [(level, number)] }

def addFile (edit : VersionEdit K V) (level : Nat) (file : FileMetaData K V) : VersionEdit K V :=
  { edit with newFiles := edit.newFiles ++ [(level, file)] }

end VersionEdit

/-- `BySmallestKey`: by smallest key, then by file number. -/
def bySmallestKey {K V : Type} [LinearOrder K] (f g : FileMetaData K V) : Bool :=
  decide (f.smallest < g.smallest ∨ f.smallest = g.smallest ∧ f.number < g.number)

/-- The changes collected for each level. `added` is in the order of `BySmallestKey`,
as the source's `std::set` keeps it. -/
structure Builder (K V : Type) [LinearOrder K] where
  base : Version K V
  deleted : Nat → List Nat := fun _ => []
  added : Nat → List (FileMetaData K V) := fun _ => []

namespace Builder
variable {K V : Type} [LinearOrder K]

/-- Insertion into the set: a file that is neither before nor after another one is
that file. -/
def insertFile (file : FileMetaData K V) : List (FileMetaData K V) → List (FileMetaData K V)
  | [] => [file]
  | g :: rest =>
    if bySmallestKey file g then file :: g :: rest
    else if bySmallestKey g file then g :: insertFile file rest
    else g :: rest

def deleteFile (b : Builder K V) (deletion : Nat × Nat) : Builder K V :=
  { b with
    deleted := Function.update b.deleted deletion.1 (deletion.2 :: b.deleted deletion.1) }

def newFile (b : Builder K V) (addition : Nat × FileMetaData K V) : Builder K V :=
  { b with
    deleted := Function.update b.deleted addition.1
      ((b.deleted addition.1).filter (· ≠ addition.2.number))
    added := Function.update b.added addition.1 (insertFile addition.2 (b.added addition.1)) }

def apply (b : Builder K V) (edit : VersionEdit K V) : Builder K V :=
  edit.newFiles.foldl newFile (edit.deletedFiles.foldl deleteFile b)

/-- The merging loop of `SaveTo`: in front of each added file go the base files up to
its `std::upper_bound`. -/
def mergeFiles : List (FileMetaData K V) → List (FileMetaData K V) → List (FileMetaData K V)
  | base, [] => base
  | base, file :: rest =>
    base.takeWhile (fun g => !bySmallestKey file g) ++
      file :: mergeFiles (base.dropWhile fun g => !bySmallestKey file g) rest

/-- `SaveTo`, with `MaybeAddFile` leaving out the deleted files. Its checks that
levels stay disjoint are off when the code is built with `NDEBUG`. -/
def saveTo (b : Builder K V) : Version K V where
  files level :=
    if level < kNumLevels then
      (mergeFiles (b.base.files level) (b.added level)).filter (·.number ∉ b.deleted level)
    else []
  shallow _ deep := if_neg (Nat.not_lt.mpr deep)

end Builder

/-- The version that `LogAndApply` installs for this edit. -/
def Version.logAndApply {K V : Type} [LinearOrder K] (v : Version K V) (edit : VersionEdit K V) :
    Version K V :=
  (({ base := v } : Builder K V).apply edit).saveTo

end TalusDB
