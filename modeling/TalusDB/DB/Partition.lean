import TalusDB.DB.DisjointRuns

/-! The outputs of a compaction partition what it keeps: over whole runs, with flushes
between the rounds of its loop and whatever cuts the sizes and the grandparents ask
for. -/
namespace TalusDB
open Option List
variable {K V : Type} [LinearOrder K]

/-- The outputs hold the merged input without the dropped entries, in order. -/
structure CompactionState.Partitions (done : CompactionState K V) : Prop where
  nonempty : ∀ f ∈ done.outputs, f.entries ≠ []
  kept : done.outputs.flatMap (·.entries) = done.compaction.kept done.smallestSnapshot
  first : ∀ f ∈ done.outputs, f.entries.head?.map (·.key) = some f.smallest
  last : ∀ f ∈ done.outputs, f.entries.getLast?.map (·.key) = some f.largest
  apart : SortedDisjoint done.outputs

section
variable {f : FileMetaData K V}

theorem FileMetaData.Tight.head (tight : f.Tight) :
    f.entries.head?.map (·.key) = some f.smallest := by
  obtain ⟨e, mem, same⟩ := tight.first
  have sorted := f.sorted
  have bounded := f.bounded
  cases split : f.entries with
  | nil => simp [split] at mem
  | cons a rest =>
    rw [split] at mem sorted bounded
    have least : a.key ≤ f.smallest := by
      rw [← same]
      obtain rfl | later := mem_cons.mp mem
      · exact le_rfl
      · exact (rel_of_pairwise_cons sorted later).le
    simpa using le_antisymm least (bounded a mem_cons_self).1

theorem FileMetaData.Tight.getLast (tight : f.Tight) :
    f.entries.getLast?.map (·.key) = some f.largest := by
  obtain ⟨e, mem, same⟩ := tight.last
  have sorted := f.sorted
  have bounded := f.bounded
  obtain empty | ⟨front, a, split⟩ := eq_nil_or_concat' f.entries
  · simp [empty] at mem
  · rw [split] at mem sorted bounded
    have greatest : f.largest ≤ a.key := by
      rw [← same]
      obtain earlier | last := mem_append.mp mem
      · exact ((pairwise_append.mp sorted).2.2 e earlier a (by simp)).le
      · rw [mem_singleton.mp last]
    rw [split]
    simpa using le_antisymm (bounded a (by simp)).2 greatest

theorem FileMetaData.Tight.nonempty (tight : f.Tight) : f.entries ≠ [] := by
  obtain ⟨e, mem, -⟩ := tight.first
  exact ne_nil_of_mem mem

end

namespace CompactionState
variable {options : Options K V} {c c' : CompactionState K V} {next next' : Nat}

theorem run_wrote (fuel : Nat) (ran : run options fuel next c = some (next', c')) :
    c'.compaction = c.compaction ∧ c'.smallestSnapshot = c.smallestSnapshot ∧
      ((∀ f ∈ c.outputs, f.Tight) → ∀ f ∈ c'.outputs, f.Tight) := by
  induction fuel generalizing c next with
  | zero =>
    obtain ⟨c'', finished, same⟩ := map_eq_some_iff.mp ran
    cases same
    have wrote := (finishOutputFile_wrote finished).1
    exact ⟨wrote.compaction, wrote.snapshot, wrote.tight⟩
  | succ fuel ih =>
    rw [run] at ran
    obtain ⟨⟨next'', c''⟩, stepped, ran⟩ := bind_eq_some_iff.mp ran
    obtain ⟨e, fresh, round, -, -⟩ := step_round stepped
    obtain ⟨compaction, snapshot, tight⟩ := ih ran
    exact ⟨compaction.trans round.compaction, snapshot.trans round.snapshot,
      fun old => tight (round.tight old)⟩

theorem run_partitions (keeping : Keeping c) (writable : Writable c)
    (tight : ∀ f ∈ c.outputs, f.Tight) (counted : Counted c 0 next)
    (disjoint : c.compaction.inputVersion.LevelsDisjoint)
    (sorted : (makeInput c.compaction).Pairwise fun a b => a.key < b.key)
    (options : Options K V) :
    ∃ next' done, run options c.input.length next c = some (next', done) ∧
      done.compaction = c.compaction ∧ done.smallestSnapshot = c.smallestSnapshot ∧
      done.Partitions := by
  obtain ⟨next', done, ran, compaction, kept, -⟩ := run_spec c.input.length rfl keeping writable
    counted (Nat.zero_le _) disjoint options
  obtain ⟨-, snapshot, stays⟩ := run_wrote _ ran
  have tight := stays tight
  refine ⟨next', done, ran, compaction, snapshot, ?_⟩
  exact {
    nonempty := fun f output => (tight f output).nonempty
    kept := by rw [kept, compaction, snapshot]
    first := fun f output => (tight f output).head
    last := fun f output => (tight f output).getLast
    apart := by
      apply DBState.SortedDisjoint.of_flatMap tight
      rw [kept]
      exact sorted.sublist keepFrom_sublist }

end CompactionState

namespace DBState
variable {s s' : DBState K V} {options : Options K V}

/-- What a step does to the running compaction: nothing, its end, its start, or a
round of its loop. -/
theorem step_running [Inhabited V] (ordered : s.Ordered) {a : Action K V}
    (stepped : s.step options a = some s') :
    s'.running = s.running ∨ s'.running = none ∨
    (∃ isManual c smallest, c.Picked s.current ∧
      s'.running = some ⟨isManual, .start c smallest⟩) ∨
    ∃ running ∈ s.running, ∃ next compact,
      running.compact.step options s.nextFileNumber = some (next, compact) ∧
      s'.running = some { running with compact } := by
  have begun (isManual : Bool) {c : Compaction K V} (idle : s.running = none)
      (picked : c.Picked s.current) : (s.begin options isManual c).running = none ∨
        ∃ isManual' c' smallest, c'.Picked s.current ∧
          (s.begin options isManual c).running = some ⟨isManual', .start c' smallest⟩ := by
    rw [begin]
    split
    · exact .inl idle
    · exact .inr ⟨isManual, c, _, picked, rfl⟩
  cases a with
  | write ops =>
    simp only [step, write] at stepped
    split at stepped <;> cases stepped
    exact .inl rfl
  | switchMemTable =>
    simp only [step, switchMemTable] at stepped
    split at stepped <;> cases stepped
    exact .inl rfl
  | compactMemTable =>
    obtain ⟨imm, -, -, ⟨rfl, rfl⟩ | ⟨file, rfl, -, -, -, rfl⟩⟩ :=
      compactMemTable_cases ordered stepped
    · exact .inl rfl
    · exact .inl rfl
  | compact =>
    obtain ⟨c, -, idle, picked, rfl⟩ := compact_cases ordered stepped
    exact .inr ((begun false idle picked).imp_right .inl)
  | compactRange level begin finish =>
    obtain ⟨c, -, idle, picked, rfl⟩ := compactRange_cases ordered stepped
    exact .inr ((begun true idle picked).imp_right .inl)
  | compactionRound =>
    obtain ⟨running, isRunning, stepped⟩ := bind_eq_some_iff.mp stepped
    obtain ⟨⟨next, compact⟩, round, stepped⟩ := bind_eq_some_iff.mp stepped
    cases stepped
    exact .inr (.inr (.inr ⟨running, isRunning, next, compact, round, rfl⟩))
  | installCompaction => exact .inr (.inl (installCompaction_kept ordered stepped).2.2)
  | getSnapshot =>
    cases stepped
    exact .inl rfl
  | releaseSnapshot i =>
    cases stepped
    exact .inl rfl
  | updateStats level i =>
    simp only [step, updateStats] at stepped
    split at stepped
    case isFalse => cases stepped
    obtain ⟨f, -, rfl⟩ := map_eq_some_iff.mp stepped
    exact .inl rfl

/-- The running compaction has kept what it should, of a version with disjoint
levels. -/
def Exact (s : DBState K V) : Prop :=
  ∀ running ∈ s.running, running.compact.Keeping ∧
    running.compact.compaction.inputVersion.LevelsDisjoint ∧
    (makeInput running.compact.compaction).Pairwise fun a b => a.key < b.key

theorem step_exact [Inhabited V] (ordered : s.Ordered) (kept : s.Exact) {a : Action K V}
    (stepped : s.step options a = some s') : s'.Exact := by
  obtain same | idle | ⟨isManual, c, smallest, picked, begun⟩ |
    ⟨running, isRunning, next, compact, round, same⟩ := step_running ordered stepped
  · intro running isRunning
    exact kept running (same ▸ isRunning)
  · intro running isRunning
    rw [idle] at isRunning
    cases isRunning
  · intro running isRunning
    rw [begun] at isRunning
    cases isRunning
    refine ⟨.start c smallest, ?_, ?_⟩
    · exact picked.version ▸ ordered.disjoint
    · exact makeInput_strict ordered.recent.version ordered.sound.numbered picked.selected
  · intro running' isRunning'
    rw [same] at isRunning'
    cases isRunning'
    obtain ⟨keeping, disjoint, strict⟩ := kept running isRunning
    have sorted := (ordered.pending running isRunning).writable.sorted.sublist
      (sublist_append_right running.compact.written running.compact.input)
    obtain ⟨e, fresh, spec, -, -⟩ := CompactionState.step_round round
    refine ⟨keeping.step disjoint sorted round, ?_, ?_⟩
    · exact spec.compaction ▸ disjoint
    · exact spec.compaction ▸ strict

/-- In every run from an empty database whose flushes stay out of the gaps of a manual
compaction, the rest of the running compaction's loop ends with a partition. -/
theorem outputs_partition [Inhabited V] (options : Options K V) (nextFileNumber : Nat)
    (actions : List (Action K V)) {s : DBState K V}
    (ran : run options (notBetween options) (initial nextFileNumber) actions = some s)
    {running : Running K V} (isRunning : s.running = some running) :
    ∃ next done, running.compact.run options running.compact.input.length s.nextFileNumber =
        some (next, done) ∧
      done.compaction = running.compact.compaction ∧
      done.smallestSnapshot = running.compact.smallestSnapshot ∧ done.Partitions := by
  have invariant : s.Ordered ∧ s.Clear ∧ s.Exact := by
    refine Runs.run_induct (P := fun s : DBState K V => s.Ordered ∧ s.Clear ∧ s.Exact) ?_
      ⟨initial_ordered nextFileNumber, .of_idle rfl, by simp [Exact, initial]⟩ ran
    rintro s a s' ⟨ordered, clear, kept⟩ safe stepped
    obtain ⟨ordered', clear'⟩ := step_disjoint ordered clear safe stepped
    exact ⟨ordered', clear', step_exact ordered kept stepped⟩
  obtain ⟨ordered, -, kept⟩ := invariant
  obtain ⟨keeping, disjoint, strict⟩ := kept running isRunning
  have pending := ordered.pending running isRunning
  exact running.compact.run_partitions keeping pending.writable pending.tight pending.counted
    disjoint strict options

end DBState

section
open DBState

def smallOptions : Options Nat Nat where
  maxFileSize := 100
  builderSize entries := 50 * entries.length
  tableSize entries := 50 * entries.length

/-- After a manual compaction during which the key `k` is flushed, new entries of the keys
0 and 2 go to level 1, and the two levels are merged. -/
def mergeAfter (k : Nat) : List (Action Nat Nat) :=
  flushDuring k ++ [.write [.put 0 1, .put 2 1], .switchMemTable, .compactMemTable,
    .compactRange 1 none none, .compactionRound, .compactionRound, .compactionRound,
    .compactionRound]

/-- A flush outside of the inputs' range, and two rounds of a later merge. -/
theorem outputs_partition_flush_beside :
    ∃ s running next done,
      run smallOptions (notBetween smallOptions) (initial 2) (mergeAfter 3) = some s ∧
      s.running = some running ∧
      running.compact.run smallOptions running.compact.input.length s.nextFileNumber =
        some (next, done) ∧ done.Partitions := by
  have reached : (run smallOptions (notBetween smallOptions) (initial 2) (mergeAfter 3)).any
      (fun s => s.running.isSome) = true := by decide +kernel
  obtain ⟨s, ran, isSome⟩ := (any_eq_true _ _).mp reached
  obtain ⟨running, isRunning⟩ := isSome_iff_exists.mp isSome
  obtain ⟨next, done, finished, -, -, partitions⟩ :=
    outputs_partition smallOptions 2 (mergeAfter 3) ran isRunning
  exact ⟨s, running, next, done, ran, isRunning, finished, partitions⟩

/-- Where the key 1 was flushed into the gap, level 2 is read out of order: the merge ends
the output of the keys 0 and 2 before it comes to the key 1. -/
theorem outputs_overlap :
    ∃ s running next done,
      run smallOptions (fun _ _ => true) (initial 2) (mergeAfter 1) = some s ∧
      s.running = some running ∧
      running.compact.run smallOptions running.compact.input.length s.nextFileNumber =
        some (next, done) ∧ ¬ SortedDisjoint done.outputs := by
  have reached : (run smallOptions (fun _ _ => true) (initial 2) (mergeAfter 1)).any
      (fun s => s.running.any fun running =>
        (running.compact.run smallOptions running.compact.input.length s.nextFileNumber).any
          fun result => !decide (result.2.outputs.Pairwise fun f g => f.largest < g.smallest))
        = true := by
    decide +kernel
  obtain ⟨s, ran, reached⟩ := (any_eq_true _ _).mp reached
  obtain ⟨running, isRunning, reached⟩ := (any_eq_true _ _).mp reached
  obtain ⟨⟨next, done⟩, finished, overlap⟩ := (any_eq_true _ _).mp reached
  refine ⟨s, running, next, done, ran, isRunning, finished, fun sorted => ?_⟩
  simp only [Bool.not_eq_true', decide_eq_false_iff_not] at overlap
  exact overlap sorted

end
end TalusDB
