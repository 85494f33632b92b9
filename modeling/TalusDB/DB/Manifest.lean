import TalusDB.DB.Accumulate
import TalusDB.DB.CompactionReads
import TalusDB.DB.Recovery
import TalusDB.Lib.Runs

/-! The manifest: `LogAndApply` writes each edit to it, a version set opened again reads it
back with `Recover`. A manifest is the list of its records here; their encoding and the log
that holds them are left to the modules of the log. -/
namespace TalusDB
open List

section pointers
variable {K : Type} {pointer pointer' : Nat → Option (InternalKey K)}

/-- The part of `Builder::Apply` that sets `compact_pointer_`. -/
def applyPointers (pointer : Nat → Option (InternalKey K)) (pointers : List (Nat × InternalKey K)) :
    Nat → Option (InternalKey K) :=
  pointers.foldl (fun pointer p => Function.update pointer p.1 (some p.2)) pointer

variable {pointers : List (Nat × InternalKey K)} {level : Nat}

end pointers

variable {K V : Type} [LinearOrder K]

/-- A `VersionEdit` with all of its fields. -/
structure ManifestEdit (K V : Type) [LinearOrder K] extends VersionEdit K V where
  comparator : Option String := none
  logNumber : Option Nat := none
  prevLogNumber : Option Nat := none
  nextFileNumber : Option Nat := none
  lastSequence : Option Nat := none
  compactPointers : List (Nat × InternalKey K) := []

/-- A descriptor file, named by `CURRENT`. -/
structure Manifest (K V : Type) [LinearOrder K] where
  number : Nat
  records : List (ManifestEdit K V)

/-- The members of `VersionSet`, with the values its constructor gives them. The descriptor
is open when there is a `descriptor_log_`. -/
structure VersionSet (K V : Type) [LinearOrder K] where
  nextFileNumber : Nat := 2
  manifestFileNumber : Nat := 0
  lastSequence : Nat := 0
  logNumber : Nat := 0
  prevLogNumber : Nat := 0
  descriptorOpen : Bool := false
  current : Version K V := .empty
  compactPointer : Nat → Option (InternalKey K) := fun _ => none

/-- The local variables of `VersionSet::Recover`. -/
structure Replay (K V : Type) [LinearOrder K] where
  builder : Builder K V := { base := .empty }
  compactPointer : Nat → Option (InternalKey K) := fun _ => none
  logNumber : Option Nat := none
  prevLogNumber : Option Nat := none
  nextFile : Option Nat := none
  lastSequence : Option Nat := none

section
variable (comparator : String)

/-- The loop of `Recover` for one record. -/
def Replay.record (r : Replay K V) (edit : ManifestEdit K V) : Except String (Replay K V) :=
  if edit.comparator.any (· ≠ comparator) then
    .error (edit.comparator.getD "" ++ " does not match existing comparator : " ++ comparator)
  else .ok
    { builder := r.builder.apply edit.toVersionEdit
      compactPointer := applyPointers r.compactPointer edit.compactPointers
      logNumber := edit.logNumber <|> r.logNumber
      prevLogNumber := edit.prevLogNumber <|> r.prevLogNumber
      nextFile := edit.nextFileNumber <|> r.nextFile
      lastSequence := edit.lastSequence <|> r.lastSequence }

def Manifest.replay (manifest : Manifest K V) : Except String (Replay K V) :=
  manifest.records.foldlM (Replay.record comparator) {}

namespace VersionSet

/-- `VersionSet::Recover`; `reuse` is the answer of `ReuseManifest`. The numbers that
`MarkFileNumberUsed` notes there are overwritten by the next file number. -/
def recover (manifest : Manifest K V) (reuse : Bool) : Except String (VersionSet K V) := do
  let r ← manifest.replay comparator
  let some nextFile := r.nextFile | .error "no meta-nextfile entry in descriptor"
  let some logNumber := r.logNumber | .error "no meta-lognumber entry in descriptor"
  let some lastSequence := r.lastSequence | .error "no last-sequence-number entry in descriptor"
  .ok
    { nextFileNumber := nextFile + 1
      manifestFileNumber := if reuse then manifest.number else nextFile
      lastSequence
      logNumber
      prevLogNumber := r.prevLogNumber.getD 0
      descriptorOpen := reuse
      current := r.builder.saveTo
      compactPointer := r.compactPointer }

/-- `WriteSnapshot`, which leaves out the counters. -/
def writeSnapshot (vs : VersionSet K V) : ManifestEdit K V where
  comparator := some comparator
  compactPointers := (List.range kNumLevels).filterMap fun level =>
    (vs.compactPointer level).map (level, ·)
  newFiles := (List.range kNumLevels).flatMap fun level => (vs.current.files level).map (level, ·)

/-- The edit as `LogAndApply` completes it. -/
def complete (vs : VersionSet K V) (edit : ManifestEdit K V) : ManifestEdit K V :=
  { edit with
    logNumber := some (edit.logNumber.getD vs.logNumber)
    prevLogNumber := some (edit.prevLogNumber.getD vs.prevLogNumber)
    nextFileNumber := some vs.nextFileNumber
    lastSequence := some vs.lastSequence }

/-- `LogAndApply`. The first call after `Recover` starts a new manifest, unless the old one
is reused. -/
def logAndApply (vs : VersionSet K V) (manifest : Manifest K V) (edit : ManifestEdit K V) :
    VersionSet K V × Manifest K V :=
  let pointed := { vs with compactPointer := applyPointers vs.compactPointer edit.compactPointers }
  ({ pointed with
      current := vs.current.logAndApply edit.toVersionEdit
      logNumber := edit.logNumber.getD vs.logNumber
      prevLogNumber := edit.prevLogNumber.getD vs.prevLogNumber
      descriptorOpen := true },
    if vs.descriptorOpen then { manifest with records := manifest.records ++ [vs.complete edit] }
    else ⟨vs.manifestFileNumber, [pointed.writeSnapshot comparator, vs.complete edit]⟩)

end VersionSet

/-- The manifest that `NewDB` writes. -/
def newDB : Manifest K V where
  number := 1
  records := [{ comparator := some comparator, logNumber := some 0, nextFileNumber := some 2,
                lastSequence := some 0 }]

/-- A version set and its manifest. Of the past it keeps the levels and numbers that edits have
added, and what the last `LogAndApply` recorded. -/
structure ManifestState (K V : Type) [LinearOrder K] where
  set : VersionSet K V := {}
  manifest : Manifest K V
  added : List (Nat × Nat) := []
  loggedNumber : Nat := 0
  loggedPrevNumber : Nat := 0
  loggedSequence : Nat := 0

inductive ManifestAction (K V : Type) [LinearOrder K] where
  | newFileNumber
  | reuseFileNumber (number : Nat)
  | markFileNumberUsed (number : Nat)
  | setLastSequence (sequence : Nat)
  | logAndApply (edit : ManifestEdit K V)
  | reopen (reuse : Bool)

namespace ManifestState

def step (s : ManifestState K V) : ManifestAction K V → Option (ManifestState K V)
  | .newFileNumber =>
    some { s with set := { s.set with nextFileNumber := s.set.nextFileNumber + 1 } }
  | .reuseFileNumber number =>
    some { s with set := { s.set with
      nextFileNumber :=
        if s.set.nextFileNumber = number + 1 then number else s.set.nextFileNumber } }
  | .markFileNumberUsed number =>
    some { s with set := { s.set with
      nextFileNumber := TalusDB.markFileNumberUsed s.set.nextFileNumber number } }
  | .setLastSequence sequence => some { s with set := { s.set with lastSequence := sequence } }
  | .logAndApply edit =>
    let (set, manifest) := s.set.logAndApply comparator s.manifest edit
    some
      { set, manifest
        added := s.added ++ edit.adds
        loggedNumber := set.logNumber
        loggedPrevNumber := set.prevLogNumber
        loggedSequence := set.lastSequence }
  | .reopen reuse =>
    (VersionSet.recover comparator s.manifest reuse).toOption.map fun set => { s with set }

/-- File numbers come from `NewFileNumber`, none is given back once a file has it, and edits
do not name another comparator. -/
def allocated (s : ManifestState K V) : ManifestAction K V → Bool
  | .logAndApply edit =>
    edit.adds.all (·.2 < s.set.nextFileNumber) && edit.comparator.all (· = comparator)
  | .reuseFileNumber number =>
    (List.range kNumLevels).all fun level => (s.set.current.files level).all (·.number ≠ number)
  | _ => true

abbrev run (allowed : ManifestState K V → ManifestAction K V → Bool) :=
  Runs.run (S := ManifestState K V) (step comparator) allowed

end ManifestState
end

theorem Replay.record_ok {comparator : String} {edit : ManifestEdit K V}
    (named : edit.comparator.all (· = comparator) = true) (r : Replay K V) :
    r.record comparator edit = .ok
      { builder := r.builder.apply edit.toVersionEdit
        compactPointer := applyPointers r.compactPointer edit.compactPointers
        logNumber := edit.logNumber <|> r.logNumber
        prevLogNumber := edit.prevLogNumber <|> r.prevLogNumber
        nextFile := edit.nextFileNumber <|> r.nextFile
        lastSequence := edit.lastSequence <|> r.lastSequence } := by
  rw [record, if_neg]
  cases name : edit.comparator with
  | none => simp
  | some _ => simpa [name] using named

namespace VersionSet
variable {comparator : String} {vs : VersionSet K V}

theorem mem_writeSnapshot {level : Nat} {f : FileMetaData K V} :
    (level, f) ∈ (vs.writeSnapshot comparator).newFiles ↔ f ∈ vs.current.files level := by
  simp only [writeSnapshot, mem_flatMap, mem_range, mem_map, Prod.mk.injEq]
  constructor
  · rintro ⟨_, -, _, mem, rfl, rfl⟩
    exact mem
  · exact fun mem => ⟨level, Version.level_lt mem, f, mem, rfl, rfl⟩

variable {added : List (Nat × Nat)} {b : Builder K V}

theorem writeSnapshot_nodup (acc : b.Accumulates added vs.current) :
    (vs.writeSnapshot comparator).adds.Nodup := by
  simp only [VersionEdit.adds, writeSnapshot, map_flatMap, map_map]
  refine nodup_flatMap.mpr ⟨fun level _ => ?_, ?_⟩
  · refine (acc.ordered level).nodup.map_on fun f inF g inG same => ?_
    exact acc.listed.distinct level f (acc.mem_added inF) g (acc.mem_added inG)
      (Prod.mk.inj same).2
  · refine nodup_range.imp fun different => ?_
    simp only [Function.onFun, List.Disjoint, mem_map, Function.comp, forall_exists_index,
      and_imp]
    rintro _ f - rfl g - same
    exact different (Prod.mk.inj same).1.symm

theorem writeSnapshot_accumulates (acc : b.Accumulates added vs.current) :
    (({ base := .empty } : Builder K V).apply
      (vs.writeSnapshot comparator).toVersionEdit).Accumulates added vs.current := by
  have nodup : (vs.writeSnapshot comparator).adds.Nodup := writeSnapshot_nodup acc
  have taken := Builder.Accumulates.start.step nodup (by simp)
  obtain ⟨-, -, mem, deleted⟩ := Builder.apply_adds (b := { base := .empty })
    Builder.Accumulates.start.listed nodup (by simp)
  simp only [not_mem_nil, false_or, mem_writeSnapshot] at mem
  refine ⟨taken.base, taken.listed, fun level f inside => ?_, fun level => ?_⟩
  · exact acc.known level f (acc.mem_added ((mem level f).mp inside))
  · rw [← taken.saved]
    refine (acc.ordered level).ext (taken.ordered level) fun f => ?_
    by_cases bound : level < kNumLevels
    · rw [taken.mem_files bound, mem, deleted]
      simp [writeSnapshot]
    · rw [Version.shallow _ level (Nat.le_of_not_lt bound),
        Version.shallow _ level (Nat.le_of_not_lt bound)]

end VersionSet

namespace ManifestState
variable {comparator : String} {s s' : ManifestState K V}

/-- The manifest of the state replays to `r`, which agrees with the version set. -/
structure Recorded (comparator : String) (s : ManifestState K V) (r : Replay K V) : Prop where
  replayed : s.manifest.replay comparator = .ok r
  files : r.builder.Accumulates s.added s.set.current
  logNumber : r.logNumber = some s.loggedNumber
  prevLogNumber : r.prevLogNumber.getD 0 = s.loggedPrevNumber
  lastSequence : r.lastSequence = some s.loggedSequence
  nextFile : ∃ n, r.nextFile = some n ∧
    ∀ level, ∀ f ∈ s.set.current.files level, f.number ≤ n
  pointers : ∀ level < kNumLevels, r.compactPointer level = s.set.compactPointer level
  numbers : ∀ level, ∀ f ∈ s.set.current.files level, f.number < s.set.nextFileNumber
  disjoint : s.set.current.LevelsDisjoint

variable {r : Replay K V} {edit : ManifestEdit K V}

theorem Recorded.recover (recorded : Recorded comparator s r) (reuse : Bool) :
    ∃ n, r.nextFile = some n ∧ VersionSet.recover comparator s.manifest reuse = .ok
      { nextFileNumber := n + 1
        manifestFileNumber := if reuse then s.manifest.number else n
        lastSequence := s.loggedSequence
        logNumber := s.loggedNumber
        prevLogNumber := s.loggedPrevNumber
        descriptorOpen := reuse
        current := s.set.current
        compactPointer := r.compactPointer } := by
  obtain ⟨n, nextFile, -⟩ := recorded.nextFile
  have current : r.builder.saveTo = s.set.current :=
    Version.ext (funext fun level => (recorded.files.saved level).symm)
  refine ⟨n, nextFile, ?_⟩
  simp only [VersionSet.recover, recorded.replayed, nextFile, recorded.logNumber,
    recorded.lastSequence, recorded.prevLogNumber, current, bind, Except.bind]

theorem Recorded.counters (recorded : Recorded comparator s r) {nextFileNumber lastSequence : Nat}
    (numbers : ∀ level, ∀ f ∈ s.set.current.files level, f.number < nextFileNumber) :
    Recorded comparator { s with set := { s.set with nextFileNumber, lastSequence } } r :=
  { recorded with numbers }

end ManifestState
end TalusDB
