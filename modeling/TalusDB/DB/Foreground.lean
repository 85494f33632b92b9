import TalusDB.DB.Pins

/-! The steps of the threads that read and write, and the parts of the database that they
leave to the background thread. -/
namespace TalusDB
open Option
variable {K V : Type} [LinearOrder K]

def ImplAction.isForeground : ImplAction K V → Bool
  | .beginWrite _ | .insert | .finishWrite | .switchMemTable | .failSwitch | .capture _ | .release _
  | .getSnapshot | .releaseSnapshot _ | .updateStats _ _ => true
  | _ => false

namespace Impl
variable {s s' : Impl K V}

/-- Readers and writers take file numbers, raise `LastSequence` and work on the logs, the
memtables and their own references. -/
structure Foreground (s s' : Impl K V) : Prop where
  same : s' = { s with
    set := { s.set with
      nextFileNumber := s'.set.nextFileNumber, lastSequence := s'.set.lastSequence }
    files := { s.files with logs := s'.files.logs }
    versions := s'.versions
    memtables := s'.memtables
    logfileNumber := s'.logfileNumber
    imm := s'.imm
    writing := s'.writing
    snapshots := s'.snapshots
    fileToCompact := s'.fileToCompact
    readers := s'.readers }
  later : s.set.nextFileNumber ≤ s'.set.nextFileNumber
  wanted : Wanted s.set.current s.fileToCompact → Wanted s.set.current s'.fileToCompact
  versions : ∀ node ∈ s'.versions, ∃ m ∈ s.versions, m.value = node.value

theorem Foreground.of_counters {set : VersionSet K V} {files : DBFiles K V}
    {memtables : Nat → List (Entry K V)} {logfileNumber : Nat} {imm : Option Nat}
    {writing : Option (Writing K V)} {snapshots : SnapshotList}
    (isSet : set = { s.set with
      nextFileNumber := set.nextFileNumber, lastSequence := set.lastSequence })
    (isFiles : files = { s.files with logs := files.logs })
    (later : s.set.nextFileNumber ≤ set.nextFileNumber) :
    Foreground s { s with set, files, memtables, logfileNumber, imm, writing, snapshots } where
  same := by
    simp only
    rw [← isSet, ← isFiles]
  later := later
  wanted := id
  versions node mem := ⟨node, mem, rfl⟩

theorem failSwitch_eq (failed : s.failSwitch = some s') : s' = s := by
  rw [failSwitch] at failed
  split at failed <;> cases failed
  simp [reuseFileNumber, newFileNumber]

theorem step_foreground [Inhabited V] {config : Config K V} {a : ImplAction K V}
    (foreground : a.isForeground = true) (stepped : s.step config a = some s') :
    Foreground s s' := by
  cases a <;> simp only [ImplAction.isForeground, Bool.false_eq_true] at foreground
  case beginWrite ops =>
    obtain ⟨records, -, stepped⟩ := bind_eq_some_iff.mp stepped
    split at stepped <;> cases stepped
    exact .of_counters rfl rfl le_rfl
  case insert =>
    simp only [step, Impl.insert] at stepped
    split at stepped <;> cases stepped
    exact .of_counters rfl rfl le_rfl
  case finishWrite =>
    simp only [step, finishWrite] at stepped
    split at stepped <;> cases stepped
    exact .of_counters rfl rfl le_rfl
  case switchMemTable =>
    simp only [step, switchMemTable] at stepped
    split at stepped <;> cases stepped
    exact .of_counters rfl rfl (Nat.le_succ _)
  case failSwitch =>
    cases failSwitch_eq stepped
    exact .of_counters rfl rfl le_rfl
  case capture snapshot =>
    simp only [step, capture] at stepped
    split at stepped <;> cases stepped
    refine ⟨rfl, le_rfl, id, fun node mem => ?_⟩
    obtain ⟨m, inside, -, same⟩ := RefCount.mem_ref mem
    exact ⟨m, inside, same⟩
  case release i =>
    obtain ⟨reader, -, rfl⟩ := map_eq_some_iff.mp stepped
    refine ⟨rfl, le_rfl, id, fun node mem => ?_⟩
    obtain ⟨m, inside, -, same⟩ := RefCount.mem_unref mem
    exact ⟨m, inside, same⟩
  case getSnapshot =>
    simp only [step] at stepped
    split at stepped <;> cases stepped
    exact .of_counters rfl rfl le_rfl
  case releaseSnapshot i =>
    simp only [step] at stepped
    split at stepped <;> cases stepped
    exact .of_counters rfl rfl le_rfl
  case updateStats level i =>
    simp only [step, updateStats] at stepped
    obtain ⟨-, stepped⟩ := ite_none_right_eq_some.mp stepped
    obtain ⟨f, found, rfl⟩ := map_eq_some_iff.mp stepped
    refine ⟨rfl, le_rfl, fun _ want isWanted => ?_, fun node mem => ⟨node, mem, rfl⟩⟩
    cases isWanted
    exact List.mem_of_getElem? found

theorem step_foreground_pinned [Inhabited V] {config : Config K V} {a : ImplAction K V}
    (foreground : a.isForeground = true) (pinned : s.Pinned)
    (stepped : s.step config a = some s') : s'.Pinned := by
  have same := (step_foreground foreground stepped).same
  have kept (versions : s'.versions = s.versions) (readers : s'.readers = s.readers) : s'.Pinned := by
    rw [same]
    refine pinned.of_same versions rfl rfl readers rfl rfl fun some moves => ?_
    exact moves
  cases a <;> simp only [ImplAction.isForeground, Bool.false_eq_true] at foreground
  case capture snapshot => exact capture_pinned pinned stepped
  case release i => exact release_pinned pinned stepped
  case failSwitch =>
    cases failSwitch_eq stepped
    exact pinned
  case beginWrite ops =>
    obtain ⟨records, -, stepped⟩ := bind_eq_some_iff.mp stepped
    split at stepped <;> cases stepped
    exact kept rfl rfl
  case updateStats level i =>
    simp only [step, updateStats] at stepped
    obtain ⟨-, stepped⟩ := ite_none_right_eq_some.mp stepped
    obtain ⟨f, found, rfl⟩ := map_eq_some_iff.mp stepped
    exact kept rfl rfl
  all_goals
    simp only [step, Impl.insert, finishWrite, switchMemTable] at stepped
    split at stepped <;> cases stepped
    exact kept rfl rfl

end Impl
end TalusDB
