import TalusDB.DB.Compaction

/-! The merging loop of `DBImpl::DoCompactionWork`: the inputs in key order, one
entry at a time, with the entries no reader can see left out. -/
namespace TalusDB
open List

/-- The live snapshots' sequence numbers, in the order of `SnapshotList`. -/
abbrev SnapshotList := List Nat

namespace SnapshotList

def new (snapshots : SnapshotList) (sequence : Nat) : SnapshotList := snapshots ++ [sequence]

/-- Unlinks the snapshot at this place of the list. -/
def delete (snapshots : SnapshotList) (i : Nat) : SnapshotList := snapshots.eraseIdx i

/-- `smallest_snapshot` of `DoCompactionWork`. -/
def smallestSnapshot (snapshots : SnapshotList) (lastSequence : Nat) : Nat :=
  match snapshots with
  | [] => lastSequence
  | oldest :: _ => oldest

/-- A list that `GetSnapshot` and `ReleaseSnapshot` leave when `LastSequence` has come
to this number. -/
inductive Taken : SnapshotList → Nat → Prop where
  | empty (lastSequence : Nat) : Taken [] lastSequence
  | advance {snapshots lastSequence lastSequence'} : Taken snapshots lastSequence →
      lastSequence ≤ lastSequence' → Taken snapshots lastSequence'
  | new {snapshots lastSequence} : Taken snapshots lastSequence →
      Taken (new snapshots lastSequence) lastSequence
  | delete {snapshots lastSequence} (i : Nat) : Taken snapshots lastSequence →
      Taken (delete snapshots i) lastSequence

variable {snapshots : SnapshotList} {lastSequence : Nat}

theorem Taken.sorted (taken : Taken snapshots lastSequence) :
    snapshots.Pairwise (· ≤ ·) ∧ ∀ s ∈ snapshots, s ≤ lastSequence := by
  induction taken with
  | empty => simp
  | advance _ later ih => exact ⟨ih.1, fun s mem => (ih.2 s mem).trans later⟩
  | new _ ih => simpa [SnapshotList.new, pairwise_append, or_imp, forall_and] using ih
  | delete i _ ih =>
    exact ⟨ih.1.sublist (eraseIdx_sublist _ i),
      fun s mem => ih.2 s ((eraseIdx_sublist _ i).subset mem)⟩

theorem Taken.smallest_le (taken : Taken snapshots lastSequence) :
    snapshots.smallestSnapshot lastSequence ≤ lastSequence ∧
      ∀ s ∈ snapshots, snapshots.smallestSnapshot lastSequence ≤ s := by
  obtain ⟨sorted, bound⟩ := taken.sorted
  cases snapshots with
  | nil => simp [smallestSnapshot]
  | cons oldest rest =>
    refine ⟨bound oldest mem_cons_self, fun s mem => ?_⟩
    obtain rfl | mem := mem_cons.mp mem
    · exact le_rfl
    · exact rel_of_pairwise_cons sorted mem

end SnapshotList

/-- The variables of `DoCompactionWork`, with those of its `Compaction` that the loop
changes. `input` is what the merging iterator has not passed yet. -/
structure CompactionState (K V : Type) [LinearOrder K] where
  compaction : Compaction K V
  smallestSnapshot : Nat
  input : List (Entry K V)
  outputs : List (FileMetaData K V) := []
  builder : Option (Nat × List (Entry K V)) := none
  currentUserKey : Option K := none
  lastSequenceForKey : Nat := kMaxSequenceNumber
  levelPtrs : Nat → Nat := fun _ => 0
  grandparentIndex : Nat := 0
  seenKey : Bool := false
  overlappedBytes : Nat := 0

section
variable {K V : Type} [LinearOrder K]

/-- `FindSmallest` of the merging iterator and the step past what it finds: the smallest
key, the first child's among equal ones. -/
def findSmallest : List (List (Entry K V)) → Option (Entry K V × List (List (Entry K V)))
  | [] => none
  | [] :: rest => (findSmallest rest).map fun (e, rest) => (e, [] :: rest)
  | (e :: child) :: rest =>
    match findSmallest rest with
    | none => some (e, child :: rest)
    | some (f, rest') =>
      if f.key < e.key then some (f, (e :: child) :: rest') else some (e, child :: rest)

def mergeLoop : Nat → List (List (Entry K V)) → List (Entry K V)
  | 0, _ => []
  | fuel + 1, children =>
    match findSmallest children with
    | none => []
    | some (e, rest) => e :: mergeLoop fuel rest

/-- What a merging iterator over these children runs through, from the first entry on. -/
def mergeEntries (children : List (List (Entry K V))) : List (Entry K V) :=
  mergeLoop children.flatten.length children

/-- `MakeInputIterator`: level 0 files may overlap and are merged one by one, the
files of any other level are read one behind the other. -/
def makeInput (c : Compaction K V) : List (Entry K V) :=
  let first := if c.level = 0 then c.inputs.1.map (·.entries) else [c.inputs.1.flatMap (·.entries)]
  mergeEntries (first ++ [c.inputs.2.flatMap (·.entries)])

/-- The inner loop of `IsBaseLevelForKey` over the files from a level's pointer on:
the new pointer, and the file that it stops at. -/
def skipFiles (userKey : K) : List (FileMetaData K V) → Nat → Nat × Option (FileMetaData K V)
  | [], ptr => (ptr, none)
  | f :: rest, ptr =>
    if userKey ≤ f.largest.userKey then (ptr, some f) else skipFiles userKey rest (ptr + 1)

def isBaseLevelLoop (v : Version K V) (userKey : K) : List Nat → (Nat → Nat) → Bool × (Nat → Nat)
  | [], ptrs => (true, ptrs)
  | level :: rest, ptrs =>
    let (ptr, file) := skipFiles userKey ((v.files level).drop (ptrs level)) (ptrs level)
    let ptrs := Function.update ptrs level ptr
    if file.any (·.smallest.userKey ≤ userKey) then (false, ptrs)
    else isBaseLevelLoop v userKey rest ptrs

/-- The levels below the output level. -/
def Compaction.deeperLevels (c : Compaction K V) : List Nat :=
  List.range' (c.level + 2) (kNumLevels - (c.level + 2))

/-- The loop of `ShouldStopBefore` over the grandparents from the index on. -/
def passGrandparents (key : InternalKey K) (seenKey : Bool) :
    List (FileMetaData K V) → Nat → Nat → Nat × Nat
  | [], index, bytes => (index, bytes)
  | f :: rest, index, bytes =>
    if f.largest < key then
      passGrandparents key seenKey rest (index + 1) (if seenKey then bytes + f.fileSize else bytes)
    else (index, bytes)

namespace CompactionState

/-- `DoCompactionWork` up to its loop. -/
def start (c : Compaction K V) (smallestSnapshot : Nat) : CompactionState K V :=
  { compaction := c, smallestSnapshot, input := makeInput c }

/-- `IsBaseLevelForKey`, with the level pointers it leaves. -/
def isBaseLevelForKey (c : CompactionState K V) (userKey : K) : Bool × (Nat → Nat) :=
  isBaseLevelLoop c.compaction.inputVersion userKey c.compaction.deeperLevels c.levelPtrs

def shouldStopBefore (options : Options K V) (c : CompactionState K V) (key : InternalKey K) :
    Bool × CompactionState K V :=
  let passed := passGrandparents key c.seenKey
    (c.compaction.grandparents.drop c.grandparentIndex) c.grandparentIndex c.overlappedBytes
  let stop := decide (maxGrandParentOverlapBytes options < passed.2)
  (stop, { c with
    grandparentIndex := passed.1
    seenKey := true
    overlappedBytes := if stop then 0 else passed.2 })

/-- `FinishCompactionOutputFile`, when there is a builder. -/
def finishOutputFile (options : Options K V) (c : CompactionState K V) :
    Option (CompactionState K V) :=
  match c.builder with
  | none => some c
  | some (number, entries) => do
    let file ← FileMetaData.build number (options.tableSize entries) entries
    some { c with outputs := c.outputs ++ [file], builder := none }

/-- Whether the entry is left out: it is hidden from every reader by a newer one, or
it is a deletion that every reader may see and nothing lies below it. -/
def dropDecision (c : CompactionState K V) (e : Entry K V) : Bool × (Nat → Nat) :=
  let last := if c.currentUserKey = some e.userKey then c.lastSequenceForKey else kMaxSequenceNumber
  if last ≤ c.smallestSnapshot then (true, c.levelPtrs)
  else if e.key.type = .deletion ∧ e.sequence ≤ c.smallestSnapshot then
    c.isBaseLevelForKey e.userKey
  else (false, c.levelPtrs)

def dropEntry (c : CompactionState K V) (e : Entry K V) : Bool × CompactionState K V :=
  ((c.dropDecision e).1, { c with
    currentUserKey := some e.userKey
    lastSequenceForKey := e.sequence
    levelPtrs := (c.dropDecision e).2 })

/-- The current output is finished when it has reached its size. -/
def finishIfFull (options : Options K V) (nextFileNumber : Nat) (c : CompactionState K V) :
    Option (Nat × CompactionState K V) :=
  if c.builder.any fun output =>
      c.compaction.maxOutputFileSize options ≤ options.builderSize output.2 then
    (c.finishOutputFile options).map (nextFileNumber, ·)
  else some (nextFileNumber, c)

/-- Adds the entry to the current output, which is opened with the next file number
where there is none. -/
def addEntry (options : Options K V) (nextFileNumber : Nat) (c : CompactionState K V)
    (e : Entry K V) : Option (Nat × CompactionState K V) :=
  match c.builder with
  | none =>
    finishIfFull options (nextFileNumber + 1) { c with builder := some (nextFileNumber, [e]) }
  | some (number, entries) =>
    finishIfFull options nextFileNumber { c with builder := some (number, entries ++ [e]) }

/-- A new output is begun before a key that reaches too far into the grandparents. -/
def closeBefore (options : Options K V) (c : CompactionState K V) (key : InternalKey K) :
    Option (CompactionState K V) :=
  if (c.shouldStopBefore options key).1 then
    (c.shouldStopBefore options key).2.finishOutputFile options
  else some (c.shouldStopBefore options key).2

def handleEntry (options : Options K V) (nextFileNumber : Nat) (c : CompactionState K V)
    (e : Entry K V) : Option (Nat × CompactionState K V) :=
  if (c.dropEntry e).1 then some (nextFileNumber, (c.dropEntry e).2)
  else (c.dropEntry e).2.addEntry options nextFileNumber e

/-- One round of the loop, for the entry the input stands at. There is no result
where the source asserts that a table's keys increase. -/
def step (options : Options K V) (nextFileNumber : Nat) (c : CompactionState K V) :
    Option (Nat × CompactionState K V) :=
  match c.input with
  | [] => none
  | e :: rest => do
    let c ← c.closeBefore options e.key
    let (nextFileNumber, c) ← c.handleEntry options nextFileNumber e
    some (nextFileNumber, { c with input := rest })

def run (options : Options K V) : Nat → Nat → CompactionState K V →
    Option (Nat × CompactionState K V)
  | 0, nextFileNumber, c => (c.finishOutputFile options).map (nextFileNumber, ·)
  | fuel + 1, nextFileNumber, c => do
    let (nextFileNumber, c) ← c.step options nextFileNumber
    run options fuel nextFileNumber c

/-- `DoCompactionWork` on its own: one round for each input entry. -/
def doCompactionWork (options : Options K V) (nextFileNumber : Nat) (c : Compaction K V)
    (smallestSnapshot : Nat) : Option (Nat × CompactionState K V) :=
  run options (makeInput c).length nextFileNumber (start c smallestSnapshot)

/-- The edit of `InstallCompactionResults`. -/
def installEdit (c : CompactionState K V) : VersionEdit K V :=
  c.outputs.foldl (fun edit f => edit.addFile (c.compaction.level + 1) f)
    (c.compaction.addInputDeletions {})

end CompactionState
end
end TalusDB
