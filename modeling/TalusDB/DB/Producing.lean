import TalusDB.DB.Keeps

/-! The tables that a running compaction has written, and the numbers it has taken. -/
namespace TalusDB
open List Option Impl
variable {K V : Type} [LinearOrder K]

namespace CompactionState
variable {options : Options K V} {c c' : CompactionState K V} {next next' : Nat} {e : Entry K V}

theorem finishOutputFile_extends (finished : c.finishOutputFile options = some c') :
    c.outputs <+: c'.outputs := by
  rw [finishOutputFile] at finished
  split at finished
  · cases finished
    exact prefix_rfl
  · obtain ⟨file, -, finished⟩ := bind_eq_some_iff.mp finished
    cases finished
    exact prefix_append _ _

theorem finishIfFull_extends (full : c.finishIfFull options next = some (next', c')) :
    c.outputs <+: c'.outputs := by
  rw [finishIfFull] at full
  split at full
  · obtain ⟨c'', finished, same⟩ := map_eq_some_iff.mp full
    cases same
    exact finishOutputFile_extends finished
  · cases full
    exact prefix_rfl

theorem step_extends (stepped : c.step options next = some (next', c')) :
    c.outputs <+: c'.outputs := by
  rw [step] at stepped
  split at stepped
  case h_1 => cases stepped
  case h_2 e rest =>
    obtain ⟨closed, isClosed, stepped⟩ := bind_eq_some_iff.mp stepped
    obtain ⟨⟨n, handled⟩, isHandled, stepped⟩ := bind_eq_some_iff.mp stepped
    cases stepped
    have first : c.outputs <+: closed.outputs := by
      rw [closeBefore] at isClosed
      split at isClosed
      · exact (finishOutputFile_extends isClosed :)
      · cases isClosed
        exact prefix_rfl
    have second : closed.outputs <+: handled.outputs := by
      rw [handleEntry] at isHandled
      split at isHandled
      · cases isHandled
        exact prefix_rfl
      · rw [addEntry] at isHandled
        split at isHandled
        · exact (finishIfFull_extends isHandled :)
        · exact (finishIfFull_extends isHandled :)
    exact first.trans second

end CompactionState

/-- The numbers of the outputs are new to the descriptor, those that are finished are in the
directory, and the inputs are among the files that the descriptor has added. -/
structure Producing (files : DBFiles K V) (next : Nat) (added : List (Nat × Nat))
    (c : CompactionState K V) : Prop where
  counted : c.Counted 0 next
  fresh : ∀ n ∈ c.numbers, ∀ a ∈ added, a.2 ≠ n
  written : ∀ f ∈ c.outputs, files.tables.lookup f.number = some f.entries
  removed : ∀ d ∈ c.compaction.removed, d ∈ added

namespace Producing
variable {files files' : DBFiles K V} {next next' : Nat} {added : List (Nat × Nat)}
  {c c' : CompactionState K V} {options : Options K V}

theorem start {compaction : Compaction K V} (smallest : Nat)
    (removed : ∀ d ∈ compaction.removed, d ∈ added) :
    Producing files next added (.start compaction smallest) where
  counted := start_counted compaction smallest 0 next
  fresh := by simp [CompactionState.start, CompactionState.numbers]
  written := by simp [CompactionState.start]
  removed := removed

variable (producing : Producing files next added c)
include producing

theorem mono (later : next ≤ next')
    (tables : ∀ n ∈ c.numbers, files'.tables.lookup n = files.tables.lookup n) :
    Producing files' next' added c where
  counted := producing.counted.mono later
  fresh := producing.fresh
  written f output :=
    (tables _ (mem_append_left _ (mem_map_of_mem output))).trans
      (producing.written f output)
  removed := producing.removed

theorem add {adds : List (Nat × Nat)}
    (own : ∀ n ∈ c.numbers, ∀ a ∈ adds, a.2 ≠ n) : Producing files next (added ++ adds) c :=
  { producing with
    fresh := fun n mem a inside => (mem_append.mp inside).elim (producing.fresh n mem a)
      (own n mem a)
    removed := fun d mem => mem_append_left _ (producing.removed d mem) }

theorem extend (counted : c'.Counted 0 next')
    (compaction : c'.compaction = c.compaction) (extends' : c.outputs <+: c'.outputs)
    (fresh : ∀ n ∈ c'.numbers, ∀ a ∈ added, a.2 ≠ n)
    (kept : ∀ f ∈ c.outputs, files'.tables.lookup f.number = files.tables.lookup f.number) :
    Producing (files'.writeTables (finishedSince c c')) next' added c' := by
  obtain ⟨new, isNew⟩ := extends'
  have since : finishedSince c c' = new := by simp [finishedSince, ← isNew]
  have nodup : (c'.outputs.map (·.number)).Nodup :=
    counted.nodup.sublist (sublist_append_left _ _)
  rw [← isNew, map_append, nodup_append] at nodup
  obtain ⟨there, others⟩ := DBFiles.lookup_writeTables files' nodup.2.1
  refine ⟨counted, fresh, fun f mem => ?_, compaction ▸ producing.removed⟩
  rw [since]
  rw [← isNew] at mem
  obtain old | mem := mem_append.mp mem
  · rw [others f.number fun g inNew same => nodup.2.2 _ (mem_map_of_mem old) _
      (mem_map_of_mem inNew) same.symm, kept f old]
    exact producing.written f old
  · exact there f mem

theorem finish (finished : c.finishOutputFile options = some c') :
    Producing (files.writeTables (finishedSince c c')) next added c' ∧
      c'.numbers = c.numbers ∧ c'.outputs.map (·.number) = c.numbers := by
  obtain ⟨wrote, none⟩ := CompactionState.finishOutputFile_wrote finished
  have numbers : c'.numbers = c.numbers := wrote.numbers.trans (append_nil _)
  refine ⟨producing.extend ?_ wrote.compaction (CompactionState.finishOutputFile_extends finished)
    (numbers ▸ producing.fresh) fun _ _ => rfl, numbers, ?_⟩
  · exact ⟨numbers ▸ producing.counted.nodup, numbers ▸ producing.counted.within⟩
  · rw [← numbers, CompactionState.numbers, none]
    simp

theorem step (below : ∀ a ∈ added, a.2 < next) (stepped : c.step options next = some (next', c')) :
    Producing ((if next' != next then { files with tables := files.tables.insert next [] }
        else files).writeTables (finishedSince c c')) next' added c' ∧
      next ≤ next' ∧ ∀ n ∈ c'.numbers, n ∈ c.numbers ∨ n = next ∧ next' ≠ next := by
  obtain ⟨counted, later⟩ := producing.counted.step (Nat.zero_le _) stepped
  obtain ⟨e, fresh, round, supplied, -⟩ := CompactionState.step_round stepped
  have numbers : ∀ n ∈ c'.numbers, n ∈ c.numbers ∨ n = next ∧ next' ≠ next := by
    rw [round.numbers]
    intro n mem
    refine (mem_append.mp mem).imp_right fun new => ?_
    obtain ⟨rfl, -⟩ | ⟨rfl, rfl⟩ := supplied
    · simp at new
    · exact ⟨mem_singleton.mp new, Nat.succ_ne_self next⟩
  refine ⟨producing.extend counted round.compaction (CompactionState.step_extends stepped) ?_ ?_,
    later, numbers⟩
  · intro n mem a inside
    obtain old | ⟨rfl, -⟩ := numbers n mem
    · exact producing.fresh n old a inside
    · exact (below a inside).ne
  · intro f output
    have small := (producing.counted.within _
      (mem_append_left _ (mem_map_of_mem output))).2
    split
    · exact AList.lookup_insert_ne (Nat.ne_of_lt small)
    · rfl

end Producing
end TalusDB
