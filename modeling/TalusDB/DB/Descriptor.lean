import TalusDB.DB.Impl

/-! What the records of a descriptor say, and how an edit that is appended changes it. -/
namespace TalusDB
open List Function VersionEdit
variable {K V : Type} [LinearOrder K] {comparator : String}

/-- What a descriptor says: its version and counters, and the levels and numbers of the files
that its records add. -/
structure Record (K V : Type) [LinearOrder K] where
  version : Version K V
  added : List (Nat × Nat)
  logNumber : Nat
  nextFile : Nat
  lastSequence : Nat

/-- The records build the version. -/
structure Builds (comparator : String) (records : List (ManifestEdit K V))
    (added : List (Nat × Nat)) (v : Version K V) (r : Replay K V) : Prop where
  replayed : records.foldlM (Replay.record comparator) {} = .ok r
  files : r.builder.Accumulates added v

/-- A file is only moved to deeper levels. -/
def Deeper (added : List (Nat × Nat)) (v : Version K V) : Prop :=
  ∀ a ∈ added, ∀ level, ∀ f ∈ v.files level, f.number = a.2 → a.1 ≤ level

structure Says (comparator : String) (records : List (ManifestEdit K V)) (rec : Record K V)
    (r : Replay K V) : Prop extends Builds comparator records rec.added rec.version r where
  logNumber : r.logNumber = some rec.logNumber
  prevLogNumber : r.prevLogNumber.getD 0 = 0
  nextFile : r.nextFile = some rec.nextFile
  lastSequence : r.lastSequence = some rec.lastSequence
  deeper : Deeper rec.added rec.version
  below : ∀ a ∈ rec.added, a.2 < rec.nextFile
  logBelow : rec.logNumber < rec.nextFile

/-- An edit as `LogAndApply` may append it: its files have new numbers, or it moves a file to
the next level. -/
inductive Appends (added : List (Nat × Nat)) (v : Version K V) (edit : VersionEdit K V) : Prop where
  | fresh (level : Nat) (sole : ∀ a ∈ edit.newFiles, a.1 = level)
      (nodup : (edit.newFiles.map (·.2.number)).Nodup)
      (new : ∀ a ∈ edit.newFiles, ∀ b ∈ added, b.2 ≠ a.2.number)
  | move (level : Nat) (f : FileMetaData K V) (mem : f ∈ v.files level)
      (deleted : edit.deletedFiles = [(level, f.number)]) (new : edit.newFiles = [(level + 1, f)])

namespace Appends
variable {added : List (Nat × Nat)} {v : Version K V} {edit : VersionEdit K V}

variable (appends : Appends added v edit)
include appends

theorem nodup : edit.adds.Nodup := by
  cases appends with
  | fresh level sole nodup new =>
    exact List.Nodup.of_map Prod.snd (by simpa [adds, comp_def] using nodup)
  | move level f mem deleted new => simp [adds, new]

theorem notAdded (deeper : Deeper added v) : ∀ a ∈ edit.adds, a ∉ added := by
  intro a mem old
  obtain ⟨b, inNew, rfl⟩ := mem_map.mp mem
  cases appends with
  | fresh level sole nodup new => exact new b inNew _ old rfl
  | move level f inside deleted new =>
    rw [new, mem_singleton] at inNew
    subst inNew
    exact absurd (deeper _ old level f inside rfl) (Nat.not_succ_le_self level)

theorem proper (deleted : ∀ d ∈ edit.deletedFiles, d ∈ added) : edit.Proper := by
  cases appends with
  | fresh level sole nodup new =>
    exact ⟨nodup, fun a mem removed => new a mem _ (deleted _ removed) rfl⟩
  | move level f inside removed new =>
    refine ⟨by simp [new], ?_⟩
    simp [new, removed]

theorem deeper (old : Deeper added v)
    (known : ∀ level, ∀ f ∈ v.files level, (level, f.number) ∈ added)
    (deleted : ∀ d ∈ edit.deletedFiles, d ∈ added) :
    Deeper (added ++ edit.adds) (v.logAndApply edit) := by
  have proper := appends.proper deleted
  intro a mem level f inside same
  have left := (proper.mem_files v (Version.level_lt inside)).mp inside
  cases appends with
  | fresh newLevel sole nodup new =>
    obtain before | after := mem_append.mp mem <;> obtain ⟨stays, -⟩ | isNew := left
    · exact old a before level f stays same
    · exact absurd same.symm (new _ isNew a before)
    · obtain ⟨b, inNew, rfl⟩ := mem_map.mp after
      exact absurd same (new b inNew _ (known level f stays))
    · obtain ⟨b, inNew, rfl⟩ := mem_map.mp after
      exact (sole b inNew).trans (sole _ isNew).symm |>.le
  | move source g inV removed new =>
    simp only [removed, new, mem_singleton, Prod.mk.injEq] at left
    have atNew : a.2 = g.number → a.1 ≤ source + 1 := fun isG => by
      obtain before | after := mem_append.mp mem
      · exact (old a before source g inV isG.symm).trans (Nat.le_succ _)
      · simp only [adds, new, map_cons, map_nil, mem_singleton] at after
        rw [after]
    obtain ⟨stays, elsewhere⟩ | ⟨rfl, rfl⟩ := left
    · obtain before | after := mem_append.mp mem
      · exact old a before level f stays same
      · -- the file would stand at two levels
        simp only [adds, new, map_cons, map_nil, mem_singleton] at after
        rw [after] at same
        have down := old _ (known source g inV) level f stays same
        have up := old _ (known level f stays) source g inV same.symm
        exact absurd ⟨Nat.le_antisymm up down, same⟩ elsewhere
    · exact atNew same.symm

end Appends

section
variable {records : List (ManifestEdit K V)} {added : List (Nat × Nat)} {v : Version K V}
  {r : Replay K V} {rec : Record K V}

section
variable (builds : Builds comparator records added v r)
include builds

theorem Builds.known : ∀ level, ∀ f ∈ v.files level, (level, f.number) ∈ added :=
  fun level f mem => builds.files.known level f (builds.files.mem_added mem)

theorem Builds.append {edit : ManifestEdit K V}
    (appends : Appends added v edit.toVersionEdit) (deeper : Deeper added v)
    (deleted : ∀ d ∈ edit.deletedFiles, d ∈ added)
    (named : edit.comparator.all (· = comparator) = true) {logNumber nextFile lastSequence : Nat}
    (isLog : edit.logNumber = some logNumber) (isPrev : edit.prevLogNumber = some 0)
    (isNext : edit.nextFileNumber = some nextFile) (isLast : edit.lastSequence = some lastSequence)
    (below : ∀ a ∈ added ++ edit.adds, a.2 < nextFile) (logBelow : logNumber < nextFile) :
    ∃ r', Says comparator (records ++ [edit])
      ⟨v.logAndApply edit.toVersionEdit, added ++ edit.adds, logNumber, nextFile, lastSequence⟩ r' := by
  have replayed : (records ++ [edit]).foldlM (Replay.record comparator) {} =
      r.record comparator edit := by
    rw [foldlM_append, builds.replayed]
    exact bind_pure (r.record comparator edit)
  rw [Replay.record_ok named] at replayed
  refine ⟨_, ⟨replayed, builds.files.step appends.nodup (appends.notAdded deeper)⟩, ?_, ?_, ?_, ?_,
    appends.deeper deeper builds.known deleted, below, logBelow⟩
  · simp [isLog]
  · simp [isPrev]
  · simp [isNext]
  · simp [isLast]

theorem Builds.snapshot {set : VersionSet K V} (current : set.current = v) :
    ∃ r', Builds comparator [set.writeSnapshot comparator] added v r' := by
  subst current
  have replayed : [set.writeSnapshot comparator].foldlM (Replay.record comparator) {} =
      Replay.record comparator {} (set.writeSnapshot comparator) :=
    bind_pure (Replay.record comparator {} (set.writeSnapshot comparator))
  rw [Replay.record_ok (by simp [VersionSet.writeSnapshot])] at replayed
  exact ⟨_, replayed, VersionSet.writeSnapshot_accumulates builds.files⟩

end

theorem Says.recover (said : Says comparator records rec r) (number : Nat) (reuse : Bool) :
    VersionSet.recover comparator ⟨number, records⟩ reuse = .ok
      { nextFileNumber := rec.nextFile + 1
        manifestFileNumber := if reuse then number else rec.nextFile
        lastSequence := rec.lastSequence
        logNumber := rec.logNumber
        prevLogNumber := 0
        descriptorOpen := reuse
        current := rec.version
        compactPointer := r.compactPointer } := by
  have current : r.builder.saveTo = rec.version :=
    Version.ext (funext fun level => (said.files.saved level).symm)
  have replayed : (⟨number, records⟩ : Manifest K V).replay comparator = .ok r := said.replayed
  simp only [VersionSet.recover, replayed, said.nextFile, said.logNumber, said.lastSequence,
    said.prevLogNumber, current, bind, Except.bind]

theorem newDB_says : ∃ r, Says comparator (newDB comparator).records
    (⟨.empty, [], 0, 2, 0⟩ : Record K V) r := by
  refine ⟨{ logNumber := some 0, nextFile := some 2, lastSequence := some 0 },
    ⟨?_, .start⟩, rfl, rfl, rfl, rfl, by simp [Deeper], by simp, by simp⟩
  simp [newDB, Replay.record, Builder.apply, applyPointers]

end
end TalusDB
