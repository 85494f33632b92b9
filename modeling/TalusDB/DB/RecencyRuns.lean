import TalusDB.DB.DisjointRuns
import TalusDB.DB.Recovery

/-! The order of age over runs: writes, switches, flushes, trivial moves and compactions
keep it, and so does a recovery that makes tables of the logs. -/
namespace TalusDB
open Recovery List
variable {K V : Type} [LinearOrder K]

variable {first : Nat} {done : List (Entry K V)} {r : Recovery K V}
  {files : List (FileMetaData K V)} {v : Version K V}

theorem Recovery.Tables.proper (tables : Tables first done r files) : r.edit.Proper := by
  rw [tables.edit]
  refine ⟨?_, by simp⟩
  rw [map_map]
  exact pairwise_map.mpr (tables.numbers.imp ne_of_lt)

theorem Recovery.Tables.mem_files (tables : Tables first done r files)
    {level : Nat} {f : FileMetaData K V} :
    f ∈ (v.logAndApply r.edit).files level ↔ f ∈ v.files level ∨ level = 0 ∧ f ∈ files := by
  by_cases bound : level < kNumLevels
  · rw [tables.proper.mem_files v bound, tables.edit]
    simp [eq_comm, and_comm]
  · have deep := Nat.le_of_not_lt bound
    have other : level ≠ 0 := fun zero => bound (zero ▸ by decide)
    rw [Version.shallow _ level deep, v.shallow level deep]
    simp [other]

theorem Recovery.Tables.recent (tables : Tables first done r files)
    (numbered : v.Numbered first) (recent : v.Recent) (newer : NewerEntries done v.entries) :
    (v.logAndApply r.edit).Recent := by
  have newer_files {f g : FileMetaData K V} {level : Nat} (inF : f ∈ files)
      (inG : g ∈ v.files level) : NewerEntries f.entries g.entries := by
    intro a inA b inB
    exact newer a ((tables.entries a).mp ⟨f, inF, inA⟩) b (Version.mem_entries.mpr ⟨level, g, inG, inB⟩)
  constructor
  · intro f inF g inG less
    rw [tables.mem_files] at inF inG
    obtain oldF | ⟨-, newF⟩ := inF <;> obtain oldG | ⟨-, newG⟩ := inG
    · exact recent.zero f oldF g oldG less
    · have below := numbered.below 0 f oldF
      have above := (tables.range.2 g newG).1
      omega
    · exact newer_files newF oldG
    · -- among the new tables, those of higher numbers hold later entries
      have ordered := tables.numbers.and tables.ages
      obtain ⟨i, hi, rfl⟩ := getElem_of_mem newF
      obtain ⟨j, hj, rfl⟩ := getElem_of_mem newG
      obtain before | rfl | after := Nat.lt_trichotomy i j
      · have numbers := (pairwise_iff_getElem.mp ordered i j hi hj before).1
        omega
      · exact absurd less (Nat.lt_irrefl _)
      · intro a inA b inB _
        exact (pairwise_iff_getElem.mp ordered j i hj hi after).2 b inB a inA
  · intro i j less f inF g inG
    rw [tables.mem_files] at inF inG
    have oldG : g ∈ v.files j := inG.resolve_right fun zero => by omega
    obtain oldF | ⟨-, newF⟩ := inF
    · exact recent.levels i j less f oldF g oldG
    · exact newer_files newF oldG

namespace DBState
variable [Inhabited V] {s : DBState K V}

/-- Logs of the state: their records stand in the order of their sequence numbers, the older
log first, and what they hold is in a memtable. Records may be missing. -/
structure HasLogs (s : DBState K V) (logs : List (Nat × List (LogRecord K V))) : Prop where
  increasing : ((logs.insertionSort fun log log' => log.1 ≤ log'.1).flatMap fun log =>
    entriesOf log.2).Pairwise fun a b => a.sequence < b.sequence
  entries : ∀ log ∈ logs, ∀ e ∈ entriesOf log.2, e ∈ s.mem ∨ e ∈ s.imm.getD []

theorem recover_recent (options : Options K V) (full : List (Entry K V) → Bool)
    (ordered : s.Ordered) {nextFileNumber : Nat} (numbered : s.current.Numbered nextFileNumber)
    (lastSequence : Nat) {logs : List (Nat × List (LogRecord K V))} (hasLogs : s.HasLogs logs) :
    ∃ t, recover options full s.current nextFileNumber lastSequence logs = some t ∧ t.Recent := by
  have inMemory {e : Entry K V} (inside : e ∈ (logs.insertionSort fun log log' =>
      log.1 ≤ log'.1).flatMap fun log => entriesOf log.2) : e ∈ s.mem ∨ e ∈ s.imm.getD [] := by
    obtain ⟨log, mem, inLog⟩ := mem_flatMap.mp inside
    exact hasLogs.entries log ((perm_insertionSort _ _).subset mem) e inLog
  have inRange {e : Entry K V} (inside : e ∈ (logs.insertionSort fun log log' =>
      log.1 ≤ log'.1).flatMap fun log => entriesOf log.2) : e.sequence ≤ kMaxSequenceNumber :=
    (ordered.sound.bounded e (mem_entries.mpr ((inMemory inside).imp_right .inl))).trans
      ordered.sound.inRange.le
  have start : Tables nextFileNumber [] ({ nextFileNumber } : Recovery K V) [] :=
    ⟨rfl, .nil, ⟨le_rfl, by simp⟩, .nil, by simp⟩
  obtain ⟨r, files, ran, tables, -⟩ := logFiles_tables options full start
    (by simpa using hasLogs.increasing) (fun e inside => inRange (by simpa using inside)) (by simp)
  rw [nil_append] at tables
  refine ⟨_, by rw [recover, ran, Option.map_some], ?_, ?_, ?_, ?_⟩
  · simp [initial, Multiversion.Newer]
  · simp [initial, Multiversion.Newer]
  · simp [initial, Multiversion.Newer]
  · refine tables.recent numbered ordered.recent.version fun a inside b old => ?_
    obtain inMem | inImm := inMemory inside
    · exact ordered.recent.mem_files a inMem b old
    · exact ordered.recent.imm_files a inImm b old

/-- Not the end of a compaction. -/
def goesOn (_ : DBState K V) : Action K V → Bool
  | .installCompaction => false
  | _ => true

/-- From a state in order, every step leads to one in order of age; a compaction is
installed in order after whatever steps have been taken since it was chosen; and a recovery
from the logs is in order. -/
theorem recency_kept (options : Options K V) (ordered : s.Ordered) :
    (∀ actions t, run options goesOn s actions = some t → ∀ a t',
      t.step options a = some t' → t'.Recent) ∧
    ∀ full nextFileNumber lastSequence logs, s.current.Numbered nextFileNumber → s.HasLogs logs →
      ∃ t, recover options full s.current nextFileNumber lastSequence logs = some t ∧ t.Recent := by
  refine ⟨fun actions t ran a t' stepped => ?_, fun full next last logs numbered hasLogs =>
    recover_recent options full ordered numbered last hasLogs⟩
  have before : t.Ordered := Runs.run_induct (P := DBState.Ordered)
    (fun _ a _ ordered allowed stepped => step_ordered ordered
      (by rintro rfl; cases allowed) stepped) ordered ran
  by_cases install : a = .installCompaction
  · subst install
    exact (installCompaction_kept before stepped).1
  · exact (step_ordered before install stepped).recent

end DBState

section
open DBState

/-- Tables of the keys 0 and 2 at levels 1 and 2, and a write of the key 1. -/
def tablesAndWrite : List (Action Nat Nat) :=
  flushOf 0 ++ flushOf 0 ++ flushOf 2 ++ flushOf 2 ++ [.write [.put 1 0]]

/-- A manual compaction with a flush between its inputs, and a recovery from the log of the
memtable. -/
theorem recency_kept_flush_between : ∃ s t t' u : DBState Nat Nat, s.Ordered ∧
      run exampleOptions goesOn s ([.compactRange 1 none none, .switchMemTable, .compactMemTable] ++
        List.replicate 4 .compactionRound) = some t ∧
      t.step exampleOptions .installCompaction = some t' ∧ t'.Recent ∧
      recover exampleOptions (fun _ => true) s.current s.nextFileNumber 0
        [(9, [{ sequence := 5, ops := [.put 1 0] }])] = some u ∧ u.Recent := by
  have possible : (run exampleOptions (notBetween exampleOptions) (initial 2) tablesAndWrite).any
      (fun s => decide (⟨⟨1, 5, .value⟩, 0⟩ ∈ s.mem) && (run exampleOptions goesOn s
        ([.compactRange 1 none none, .switchMemTable, .compactMemTable] ++
          replicate 4 .compactionRound)).any fun t =>
            (t.step exampleOptions .installCompaction).isSome) = true := by
    decide +kernel
  obtain ⟨s, ran, possible⟩ := (Option.any_eq_true _ _).mp possible
  obtain ⟨written, possible⟩ := (Bool.and_eq_true _ _).mp possible
  obtain ⟨t, went, installs⟩ := (Option.any_eq_true _ _).mp possible
  obtain ⟨t', stepped⟩ := Option.isSome_iff_exists.mp installs
  have ordered := (run_invariant (initial_ordered 2) (.of_idle rfl) ran).1
  have kept := recency_kept exampleOptions ordered
  have hasLogs : s.HasLogs [(9, [{ sequence := 5, ops := [.put 1 0] }])] := by
    refine ⟨pairwise_singleton _ _, ?_⟩
    simpa [Recovery.entriesOf, MemTable.numbered, Op.entry] using .inl (of_decide_eq_true written)
  obtain ⟨u, recovered, recent⟩ := kept.2 (fun _ => true) _ 0 _ ordered.sound.numbered hasLogs
  exact ⟨s, t, t', u, ordered, went, stepped, kept.1 _ t went _ t' stepped, recovered, recent⟩

end
end TalusDB
