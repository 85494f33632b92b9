import TalusDB.DB.CompactionWork
import TalusDB.Lib.Circular
import TalusDB.Lib.Runs

/-! The nodes and the links of `SnapshotList`, against the list of sequence numbers that the
database's steps are stated with. -/
namespace TalusDB
open Circular List

/-- The nodes of the list: 0 is `head_`, and a snapshot is the number of its allocation. -/
structure SnapshotNodes where
  links : Links Nat := ⟨fun _ => 0, fun _ => 0⟩
  sequenceNumber : Nat → Nat := fun _ => 0
  allocated : Nat := 0

namespace SnapshotNodes

def empty (s : SnapshotNodes) : Bool := s.links.next 0 == 0

def oldest (s : SnapshotNodes) : Nat := s.links.next 0

def new (s : SnapshotNodes) (sequence : Nat) : Nat × SnapshotNodes :=
  let snapshot := s.allocated + 1
  (snapshot,
    { links := s.links.append 0 snapshot
      sequenceNumber := Function.update s.sequenceNumber snapshot sequence
      allocated := snapshot })

def delete (s : SnapshotNodes) (snapshot : Nat) : SnapshotNodes :=
  let links := s.links.setNext (s.links.prev snapshot) (s.links.next snapshot)
  { s with links := links.setPrev (links.next snapshot) (links.prev snapshot) }

/-- `smallest_snapshot` of `DoCompactionWork`. -/
def smallestSnapshot (s : SnapshotNodes) (lastSequence : Nat) : Nat :=
  if s.empty then lastSequence else s.sequenceNumber s.oldest

/-- Calls of `GetSnapshot`, after writes have raised `LastSequence`, and of `ReleaseSnapshot`. -/
inductive Call where
  | getSnapshot (written : Nat)
  | releaseSnapshot (snapshot : Nat)

/-- The list, `LastSequence` and the snapshots that have been handed out and not released. -/
structure Clients where
  list : SnapshotNodes := {}
  lastSequence : Nat := 0
  held : List Nat := []

/-- A snapshot is released once. -/
def Clients.step (s : Clients) : Call → Option Clients
  | .getSnapshot written =>
    let (snapshot, list) := s.list.new (s.lastSequence + written)
    some ⟨list, s.lastSequence + written, s.held ++ [snapshot]⟩
  | .releaseSnapshot snapshot =>
    if snapshot ∈ s.held then
      some { s with list := s.list.delete snapshot, held := s.held.erase snapshot }
    else none

/-- The links go through the snapshots that are held, from the oldest to the newest. -/
structure Holds (s : Clients) : Prop where
  cycle : Cycle s.list.links 0 s.held
  range : ∀ x ∈ s.held, x ≤ s.list.allocated
  taken : SnapshotList.Taken (s.held.map s.list.sequenceNumber) s.lastSequence

theorem delete_links (s : SnapshotNodes) (snapshot : Nat) :
    (s.delete snapshot).links = s.links.remove snapshot := by
  simp [delete, Links.remove, Links.setNext, Links.setPrev, Function.update_apply]

theorem Holds.step {s s' : Clients} {call : Call} (holds : Holds s)
    (stepped : s.step call = some s') : Holds s' := by
  obtain ⟨cycle, range, taken⟩ := holds
  cases call with
  | getSnapshot written =>
    cases stepped
    have fresh : s.list.allocated + 1 ∉ s.held := fun inside =>
      Nat.not_succ_le_self _ (range _ inside)
    refine ⟨cycle.append (by simpa using fresh), fun x mem => ?_, ?_⟩
    · obtain old | new := mem_append.mp mem
      · exact (range x old).trans (Nat.le_succ _)
      · exact (mem_singleton.mp new).le
    · have same : s.held.map (Function.update s.list.sequenceNumber (s.list.allocated + 1)
          (s.lastSequence + written)) = s.held.map s.list.sequenceNumber :=
        map_congr_left fun x mem => Function.update_of_ne (ne_of_mem_of_not_mem mem fresh) _ _
      have grown := (taken.advance (Nat.le_add_right _ written)).new
      simpa [SnapshotNodes.new, SnapshotList.new, same] using grown
  | releaseSnapshot snapshot =>
    rw [Clients.step] at stepped
    obtain ⟨isHeld, stepped⟩ := Option.ite_none_right_eq_some.mp stepped
    cases stepped
    refine ⟨?_, fun x mem => range x (mem_of_mem_erase mem), ?_⟩
    · rw [delete_links]
      exact cycle.remove isHeld
    · have less := taken.delete (s.held.idxOf snapshot)
      rw [SnapshotList.delete, eraseIdx_map, eraseIdx_idxOf_eq_erase] at less
      exact less

/-- In every run of `GetSnapshot` and `ReleaseSnapshot` the links go through the snapshots that are
held, in the order in which they were taken, and `DoCompactionWork` takes the least sequence number
of them. -/
theorem smallestSnapshot_le (calls : List Call) {s : Clients}
    (ran : Runs.run Clients.step (fun _ _ => true) {} calls = some s) :
    s.list.links.walk 0 (s.held.length + 1) s.list.oldest = s.held ∧
      s.list.smallestSnapshot s.lastSequence =
        SnapshotList.smallestSnapshot (s.held.map s.list.sequenceNumber) s.lastSequence ∧
      ∀ x ∈ s.held, s.list.smallestSnapshot s.lastSequence ≤ s.list.sequenceNumber x ∧
        s.list.sequenceNumber x ≤ s.lastSequence := by
  have start : Holds {} := ⟨⟨⟨rfl, rfl⟩, by simp⟩, by simp, .empty 0⟩
  obtain ⟨cycle, -, taken⟩ : Holds s :=
    Runs.run_induct (fun _ _ _ holds _ stepped => holds.step stepped) start ran
  have smallest : s.list.smallestSnapshot s.lastSequence =
      SnapshotList.smallestSnapshot (s.held.map s.list.sequenceNumber) s.lastSequence := by
    have first := cycle.next_head
    have apart := cycle.head_notMem
    rw [smallestSnapshot, empty, oldest, first]
    cases held : s.held with
    | nil => rfl
    | cons x rest =>
      rw [held, mem_cons, not_or] at apart
      have other : x ≠ 0 := Ne.symm apart.1
      simp [SnapshotList.smallestSnapshot, other]
  refine ⟨cycle.walk_eq (Nat.lt_succ_self _), smallest, fun x mem => ?_⟩
  rw [smallest]
  exact ⟨taken.smallest_le.2 _ (mem_map_of_mem mem), taken.sorted.2 _ (mem_map_of_mem mem)⟩

/-- The first of three snapshots is released. -/
theorem smallestSnapshot_le_three : ∃ s, Runs.run Clients.step (fun _ _ => true) {}
    [.getSnapshot 5, .getSnapshot 0, .getSnapshot 2, .releaseSnapshot 1] = some s ∧
      s.list.smallestSnapshot 7 = 5 ∧ ∀ x ∈ s.held, 5 ≤ s.list.sequenceNumber x := by
  refine ⟨_, rfl, rfl, fun x mem => ?_⟩
  exact ((smallestSnapshot_le [.getSnapshot 5, .getSnapshot 0, .getSnapshot 2, .releaseSnapshot 1]
    rfl).2.2 x mem).1

end SnapshotNodes
end TalusDB
