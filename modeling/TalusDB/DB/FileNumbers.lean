import TalusDB.DB.Obsolete

/-! The numbers that `NewFileNumber` returns are not those of files that are still needed. -/
namespace TalusDB
open List Version
open Option (bind_eq_some_iff map_eq_some_iff)
variable {K V : Type} [LinearOrder K]

namespace Recovery
/-- From `r` to `r'` tables were made with the numbers that the flushes took. -/
structure Traced (r r' : Recovery K V) (flushes : List (Recovery K V)) : Prop where
  later : r.nextFileNumber ≤ r'.nextFileNumber
  within : ∀ t ∈ flushes, r.nextFileNumber ≤ t.nextFileNumber ∧
    t.nextFileNumber < r'.nextFileNumber
  increasing : flushes.Pairwise fun t t' => t.nextFileNumber < t'.nextFileNumber
  named : ∀ a ∈ r'.edit.newFiles, a ∈ r.edit.newFiles ∨
    ∃ t ∈ flushes, a.2.number = t.nextFileNumber

variable {options : Options K V} {r r' r'' : Recovery K V} {flushes flushes' : List (Recovery K V)}

theorem Traced.none (later : r.nextFileNumber ≤ r'.nextFileNumber) (edit : r'.edit = r.edit) :
    Traced r r' [] :=
  ⟨later, by simp, .nil, fun _ mem => .inl (edit ▸ mem)⟩

theorem Traced.trans (first : Traced r r' flushes) (second : Traced r' r'' flushes') :
    Traced r r'' (flushes ++ flushes') where
  later := first.later.trans second.later
  within t mem := by
    obtain mem | mem := mem_append.mp mem
    · exact ⟨(first.within t mem).1, (first.within t mem).2.trans_le second.later⟩
    · exact ⟨first.later.trans (second.within t mem).1, (second.within t mem).2⟩
  increasing := pairwise_append.mpr ⟨first.increasing, second.increasing,
    fun t inFirst t' inSecond => (first.within t inFirst).2.trans_le (second.within t' inSecond).1⟩
  named a mem := by
    obtain old | ⟨t, inSecond, same⟩ := second.named a mem
    · obtain older | ⟨t, inFirst, same⟩ := first.named a old
      · exact .inl older
      · exact .inr ⟨t, mem_append_left _ inFirst, same⟩
    · exact .inr ⟨t, mem_append_right _ inSecond, same⟩

theorem Traced.quiet (traced : Traced r r' flushes)
    (same : r'.nextFileNumber = r.nextFileNumber) : Traced r r' [] where
  later := traced.later
  within := by simp
  increasing := .nil
  named a mem := .inl <| (traced.named a mem).resolve_right fun ⟨t, inside, _⟩ => by
    have within := traced.within t inside
    omega

theorem flush_traced {mem : List (Entry K V)} (flushed : r.flush options mem = some r') :
    Traced r r' [r] := by
  obtain ⟨edit, written, rfl⟩ := map_eq_some_iff.mp flushed
  refine ⟨Nat.le_succ _, by simp, pairwise_singleton _ _, fun a mem => ?_⟩
  rw [writeLevel0Table] at written
  split at written
  case isTrue =>
    cases written
    exact .inl mem
  case isFalse =>
    obtain ⟨f, built, rfl⟩ := map_eq_some_iff.mp written
    obtain old | new := mem_append.mp mem
    · exact .inl old
    · refine .inr ⟨r, mem_singleton_self _, ?_⟩
      rw [mem_singleton.mp new]
      exact (build_spec built).1

section
variable [Inhabited V] (options : Options K V) (full : List (Entry K V) → Bool)

/-- Where the loop of `RecoverLogFile` calls `WriteLevel0Table`. -/
def recordsFlushes : Recovery K V → Option (List (Entry K V)) → List (LogRecord K V) →
    List (Recovery K V)
  | _, _, [] => []
  | r, mem, record :: rest =>
    let mem := MemTable.insertInto record.sequence record.ops (mem.getD [])
    let r := { r with maxSequence := max r.maxSequence (record.sequence + record.ops.length - 1) }
    if full mem then r :: (r.flush options mem).elim [] (recordsFlushes · none rest)
    else recordsFlushes r (some mem) rest

/-- Where `RecoverLogFile` calls `WriteLevel0Table`. -/
def logFileFlushes (r : Recovery K V) (log : Nat × List (LogRecord K V)) : List (Recovery K V) :=
  recordsFlushes options full r none log.2 ++
    (r.records options full none log.2).elim [] fun (r, mem) => mem.elim [] fun _ => [r]

def logFilesFlushes : Recovery K V → List (Nat × List (LogRecord K V)) → List (Recovery K V)
  | _, [] => []
  | r, log :: rest =>
    logFileFlushes options full r log ++
      (r.logFile options full log).elim [] (logFilesFlushes · rest)

/-- Where the loop of `DBImpl::Recover` calls `WriteLevel0Table`; not for a log that is
reused. -/
def recoverFlushes (config : Config K V) (r : Recovery K V)
    (logs : List (Nat × List (LogRecord K V))) : List (Recovery K V) :=
  match recoverLogs config r logs with
  | some (_, some _) => logFilesFlushes config.options config.full r logs.dropLast
  | _ => logFilesFlushes config.options config.full r logs

variable {options full}

theorem records_traced {mem mem' : Option (List (Entry K V))} {log : List (LogRecord K V)}
    (ran : r.records options full mem log = some (r', mem')) :
    Traced r r' (recordsFlushes options full r mem log) := by
  induction log generalizing r mem with
  | nil =>
    cases ran
    exact .none le_rfl rfl
  | cons record rest ih =>
    rw [records] at ran
    rw [recordsFlushes]
    split at ran
    case isFalse small =>
      rw [if_neg small]
      exact { ih ran with }
    case isTrue isFull =>
      obtain ⟨r₁, flushed, ran⟩ := bind_eq_some_iff.mp ran
      rw [if_pos isFull, flushed]
      exact { (flush_traced flushed).trans (ih ran) with }

theorem logFile_traced {log : Nat × List (LogRecord K V)}
    (ran : r.logFile options full log = some r') :
    Traced r r' (logFileFlushes options full r log) := by
  rw [logFile] at ran
  obtain ⟨⟨r₁, mem⟩, read, finish⟩ := bind_eq_some_iff.mp ran
  obtain ⟨r₂, flushed, same⟩ := bind_eq_some_iff.mp finish
  have marked : Traced r₂ r' [] := by
    cases same
    exact .none (markFileNumberUsed_le _ _).1 rfl
  rw [logFileFlushes, read]
  refine (records_traced read).trans ?_
  cases mem with
  | none =>
    cases flushed
    exact marked
  | some mem => exact (flush_traced flushed).trans marked

variable {logs : List (Nat × List (LogRecord K V))}

theorem logFiles_traced (ran : r.logFiles options full logs = some r') :
    Traced r r' (logFilesFlushes options full r logs) := by
  induction logs generalizing r with
  | nil =>
    cases ran
    exact .none le_rfl rfl
  | cons log rest ih =>
    obtain ⟨r₁, first, ran⟩ := bind_eq_some_iff.mp ran
    rw [logFilesFlushes, first]
    exact (logFile_traced first).trans (ih ran)

theorem recoverLogs_traced {config : Config K V} {reused : Option (Nat × List (Entry K V))}
    (ran : recoverLogs config r logs = some (r', reused)) :
    Traced r r' (recoverFlushes config r logs) := by
  rw [recoverFlushes, ran]
  rw [recoverLogs] at ran
  split at ran
  case h_2 =>
    obtain ⟨r₁, all, same⟩ := map_eq_some_iff.mp ran
    cases same
    exact logFiles_traced all
  case h_1 last reuses isLast =>
    obtain ⟨r₁, before, finish⟩ := bind_eq_some_iff.mp ran
    rw [reuseLog] at finish
    obtain ⟨⟨r₂, mem⟩, read, finish⟩ := bind_eq_some_iff.mp finish
    obtain ⟨front, rfl⟩ := List.getLast?_eq_some_iff.mp isLast
    simp only [dropLast_concat] at before ⊢
    by_cases kept : r₂.nextFileNumber = r₁.nextFileNumber
    · simp only [if_pos kept] at finish
      cases finish
      have marked : Traced r₂ { r₂ with
          nextFileNumber := markFileNumberUsed r₂.nextFileNumber last.1 } [] :=
        .none (markFileNumberUsed_le _ _).1 rfl
      have read := ((records_traced read).quiet kept).trans marked
      simpa using (logFiles_traced before).trans read
    · simp only [if_neg kept] at finish
      obtain ⟨r₃, ran', same⟩ := map_eq_some_iff.mp finish
      cases same
      refine logFiles_traced ?_
      rw [logFiles_append, before, Option.bind_some, logFiles, ran']
      rfl

end

end Recovery

namespace Impl
variable [Inhabited V] {config : Config K V} {comparator : String} {s s' : Impl K V}
  {number : Nat} {rec : Record K V} {added : List (Nat × Nat)}

/-- The tables that `DBImpl::Recover` makes, by the calls of `WriteLevel0Table`. -/
def recoverFlushes (config : Config K V) (s : Impl K V) : List (Recovery K V) :=
  ((do
    let number ← s.files.current
    let records ← s.files.descriptors.lookup number
    let set ← (VersionSet.recover config.comparator ⟨number, records⟩
      (config.reuseManifest records)).toOption
    some (Recovery.recoverFlushes config { nextFileNumber := set.nextFileNumber }
      (s.files.recoverable set.logNumber set.prevLogNumber))).getD [])

/-- The files that a step makes, or tries to make, under numbers that it has from
`NewFileNumber`. -/
def newFiles (config : Config K V) (s : Impl K V) : ImplAction K V → List FileName
  | .recover => (s.recoverFlushes config).map (.table ·.nextFileNumber)
  | .openLog =>
    match s.task with
    | .recovering ⟨_, _, none, _⟩ => [.log s.set.nextFileNumber]
    | _ => []
  | .switchMemTable | .failSwitch => [.log s.set.nextFileNumber]
  | .beginFlush => [.table s.set.nextFileNumber]
  | .compactionRound =>
    match s.running.bind (·.compact.step config.options s.set.nextFileNumber) with
    | some (next, _) =>
      if next = s.set.nextFileNumber then [] else [.table s.set.nextFileNumber]
    | none => []
  | _ => []

end Impl

def FileName.number : FileName → Nat
  | .log number | .table number | .descriptor number => number

namespace Impl
variable [Inhabited V] {config : Config K V} {comparator : String} {s s' : Impl K V}
  {number : Nat} {rec : Record K V} {added : List (Nat × Nat)}

/-- The number is not one of a table that somebody refers to or produces, nor, for a log, that
of a log. -/
structure Unused (s s' : Impl K V) (name : FileName) : Prop where
  referenced : ∀ pin ∈ s'.holders, name.number ∉ pin.2.fileNumbers
  pending : name.number ∉ s.pendingOutputs
  log : ∀ n, name = .log n → n ≠ s.logfileNumber ∧ n ∉ s.files.logs

theorem Books.referenced (books : s.Books comparator number rec added) (pinned : s.Pinned) {n : Nat}
    (fresh : ∀ a ∈ added, a.2 ≠ n) : ∀ pin ∈ s.holders, n ∉ pin.2.fileNumbers := by
  intro pin held mem
  obtain ⟨node, listed, -, same⟩ := pinned.counted.listed pin held
  simp only [fileNumbers, mem_flatMap, mem_map] at mem
  obtain ⟨level, -, f, inLevel, rfl⟩ := mem
  exact fresh _ (books.listed node listed level f (same ▸ inLevel)) rfl

theorem Books.unused (books : s.Books comparator number rec added) (pinned : s'.Pinned)
    (books' : s'.Books comparator number rec added) {name : FileName}
    (next : name.number = s.set.nextFileNumber)
    (log : ∀ n, name = .log n → n ≠ s.logfileNumber ∧ n ∉ s.files.logs) : s.Unused s' name where
  referenced := by
    rw [next]
    exact books'.referenced pinned fun a mem => (books.below a mem).ne
  pending mem := by
    have below := books.pending _ mem
    omega
  log := log

theorem recover_traced (fresh : s.Fresh) (stored : s.Stored config.comparator)
    (recovered : s.recover config = some s') : ∃ first r,
      (∀ pin ∈ s'.holders, ∀ n ∈ pin.2.fileNumbers, n < first) ∧
      Recovery.Traced { nextFileNumber := first } r (s.recoverFlushes config) ∧
      ∃ reused saveManifest,
        s'.task = .recovering ⟨r.edit.newFiles.map (·.2), r.edit, reused, saveManifest⟩ := by
  rw [fresh] at recovered
  obtain ⟨number, records, set, r, reused, -, current, found, isSet, ran, rfl⟩ :=
    recover_cases recovered
  simp only at current found ran
  rw [Stored, current] at stored
  obtain ⟨-, rec, keeps⟩ := stored
  obtain ⟨records', replay, found', said⟩ := keeps.descriptor
  rw [found] at found'
  cases found'
  have flushes : s.recoverFlushes config = Recovery.recoverFlushes config
      { nextFileNumber := set.nextFileNumber }
      (s.files.recoverable set.logNumber set.prevLogNumber) := by
    simp [recoverFlushes, current, found, isSet]
  rw [flushes]
  refine ⟨set.nextFileNumber, r, ?_, Recovery.recoverLogs_traced ran, _, _, rfl⟩
  rw [said.recover, Except.toOption, Option.some.injEq] at isSet
  subst isSet
  intro pin held n mem
  obtain rfl := mem_singleton.mp held
  simp only [fileNumbers, mem_flatMap, mem_map] at mem
  obtain ⟨level, -, f, inLevel, rfl⟩ := mem
  exact (said.below _ (keeps.known level f inLevel)).trans (Nat.lt_succ_self _)

theorem recover_unused (fresh : s.Fresh) (stored : s.Stored config.comparator)
    (recovered : s.recover config = some s') :
    (s.newFiles config .recover).Nodup ∧ ∀ name ∈ s.newFiles config .recover,
      s.Unused s' name ∧ ¬ s.Needs config.comparator name := by
  obtain ⟨first, r, below, traced, -⟩ := recover_traced fresh stored recovered
  have increasing := traced.increasing
  obtain ⟨_, _, _, _, _, isTask, -⟩ := recover_cases recovered
  constructor
  · refine pairwise_map.mpr (increasing.imp fun before same => ?_)
    rw [FileName.table.injEq] at same
    omega
  · intro name mem
    obtain ⟨t, flushed, rfl⟩ := mem_map.mp mem
    have high := (traced.within t flushed).1
    refine ⟨⟨fun pin held inside => ?_, ?_, nofun⟩, ?_⟩
    · exact absurd (below pin held _ inside) (not_lt.mpr high)
    · rw [fresh]
      exact not_mem_nil
    · rw [fresh, isTask]
      simp [Needs, Produces, holders, base, fileNumbers, empty]

theorem Books.new_table (books : s.Books comparator number rec added) (pinned : s.Pinned)
    (free : s.free = true) (pinned' : s'.Pinned)
    (books' : s'.Books comparator number rec added) :
    s.Unused s' (.table s.set.nextFileNumber) ∧
      ¬ s.Needs comparator (.table s.set.nextFileNumber) := by
  refine ⟨books.unused pinned' books' rfl nofun, ?_⟩
  rintro (⟨pin, held, mem⟩ | ⟨r, isRunning, mem⟩ | produced)
  · exact books.referenced pinned (fun a known => (books.below a known).ne) pin held mem
  · obtain ⟨-, pending⟩ := books.running r isRunning
    exact absurd (books.pending _ (pending _ mem)) (lt_irrefl _)
  · simp [(free_iff.mp free).2] at produced

theorem Books.new_log (books : s.Books comparator number rec added)
    (other : s.set.nextFileNumber ≠ s.logfileNumber)
    (keys : ∀ n ∈ s.files.logs, n < s.set.nextFileNumber) (pinned' : s'.Pinned)
    (books' : s'.Books comparator number rec added) :
    s.Unused s' (.log s.set.nextFileNumber) ∧
      ¬ s.Needs comparator (.log s.set.nextFileNumber) := by
  have none : s.set.nextFileNumber ∉ s.files.logs := fun mem => absurd (keys _ mem) (lt_irrefl _)
  refine ⟨books.unused pinned' books' rfl ?_, ?_⟩
  · rintro n ⟨⟩
    exact ⟨other, none⟩
  · rintro ⟨records, found, -⟩
    exact none (AList.lookup_isSome.mp (by simp [found]))

theorem Phase.covers (phase : s.Phase comparator number rec added) (isOpen : s.opened = true) :
    ∃ least, s.journal.Covers least := by
  rw [Phase] at phase
  split at phase
  case h_1 | h_2 => cases phase
  case h_3 => exact absurd (phase.alone.1.symm.trans isOpen) (by simp)
  case h_4 => exact ⟨_, phase.1.covers⟩
  case h_5 => exact ⟨_, phase.1.covers⟩
  case h_6 => exact ⟨_, phase.1.covers⟩
  case h_7 => exact ⟨_, phase.1.covers⟩

theorem loaded_unused (pinned : s.Pinned) (books : s.Books config.comparator number rec added)
    (phase : s.Phase config.comparator number rec added) {a : ImplAction K V}
    (stepped : s.step config a = some s') :
    (s.newFiles config a).Nodup ∧ ∀ name ∈ s.newFiles config a,
      s.Unused s' name ∧ ¬ s.Needs config.comparator name := by
  have switch (isSwitch : a.isForeground = true) (isOpen : s.opened = true) :
      s.Unused s' (.log s.set.nextFileNumber) ∧
        ¬ s.Needs config.comparator (.log s.set.nextFileNumber) := by
    obtain ⟨books', -⟩ := foreground_phase books phase (step_foreground isSwitch stepped)
      (step_journal isSwitch stepped)
    obtain ⟨least, covers⟩ := phase.covers isOpen
    exact books.new_log (Nat.ne_of_gt covers.below) covers.keys
      (step_foreground_pinned isSwitch pinned stepped) books'
  cases a <;> simp only [newFiles, nodup_nil, not_mem_nil, false_implies, implies_true,
    and_self, nodup_singleton, mem_singleton, forall_eq, true_and]
  case recover =>
    obtain ⟨_, _, _, _, _, isTask, _⟩ := recover_cases stepped
    exact absurd isTask phase.task.1
  case openLog =>
    split
    case h_2 => simp
    case h_1 tables edit saveManifest isTask =>
      obtain ⟨books', -⟩ := openLog_phase books phase stepped
      simp only [Phase, isTask] at phase
      refine ⟨nodup_singleton _, ?_⟩
      simp only [mem_singleton, forall_eq]
      refine books.new_log ?_ phase.keys (openLog_pinned pinned stepped) books'
      rw [phase.unset]
      exact (Nat.ne_of_gt ((Nat.zero_le _).trans_lt books.manifest))
  case switchMemTable =>
    refine switch rfl ?_
    simp only [step, switchMemTable] at stepped
    obtain ⟨free, stepped⟩ := Option.ite_none_right_eq_some.mp stepped
    simp only [Bool.and_eq_true] at free
    exact free.1.1
  case failSwitch =>
    refine switch rfl ?_
    simp only [step, failSwitch] at stepped
    obtain ⟨free, stepped⟩ := Option.ite_none_right_eq_some.mp stepped
    simp only [Bool.and_eq_true] at free
    exact free.1.1
  case beginFlush =>
    have free : s.free = true := by
      simp only [step, beginFlush] at stepped
      obtain ⟨free, stepped⟩ := Option.ite_none_right_eq_some.mp stepped
      simp only [Bool.and_eq_true] at free
      exact free.1.1
    exact books.new_table pinned free (beginFlush_pinned pinned stepped)
      (beginFlush_phase books phase stepped).1
  case compactionRound =>
    have free : s.free = true := by
      obtain ⟨running, -, stepped⟩ := bind_eq_some_iff.mp stepped
      obtain ⟨free, stepped⟩ := Option.ite_none_right_eq_some.mp stepped
      exact free
    have new := books.new_table pinned free (compactionRound_pinned pinned stepped)
      (compactionRound_phase books phase stepped).1
    split
    case h_2 => simp
    case h_1 next compact round =>
      split
      · simp
      · refine ⟨nodup_singleton _, ?_⟩
        simpa only [mem_singleton, forall_eq] using new

/-- The files that a step makes under new numbers are neither needed nor in the way of one that
is. -/
theorem newFiles_unused {actions : List (ImplAction K V)} {a : ImplAction K V}
    (ran : run config (fun _ _ => true) { files := {} } actions = some s)
    (stepped : s.step config a = some s') :
    (s.newFiles config a).Nodup ∧ ∀ name ∈ s.newFiles config a,
      s.Unused s' name ∧ ¬ s.Needs config.comparator name := by
  cases run_sound ran with
  | stored unloaded fresh stored =>
    obtain rfl | rfl | rfl | rfl := step_unloaded fresh unloaded stepped
    · simp [newFiles]
    · simp [newFiles]
    · exact recover_unused fresh stored stepped
    · simp [newFiles]
  | loaded number rec added pinned books phase => exact loaded_unused pinned books phase stepped

end Impl

/-- After a crash, the table that recovery makes of the log. -/
theorem newFiles_unused_recover : ∃ s s', Impl.run plainConfig (fun _ _ => true) { files := {} }
        (openNew ++ [.beginWrite [.put 1 7], .crash]) = some s ∧
      s.step plainConfig .recover = some s' ∧
      s.newFiles plainConfig .recover = [.table 5] ∧ ∀ name ∈ s.newFiles plainConfig .recover,
        s.Unused s' name ∧ ¬ s.Needs plainConfig.comparator name := by
  have recovers : (Impl.run plainConfig (fun _ _ => true) { files := {} }
      (openNew ++ [.beginWrite [.put 1 7], .crash])).any (fun s =>
        (s.step plainConfig .recover).isSome &&
          s.newFiles plainConfig .recover == [.table 5]) = true := by
    decide +kernel
  obtain ⟨s, ran, both⟩ := (Option.any_eq_true _ _).mp recovers
  rw [Bool.and_eq_true, beq_iff_eq] at both
  obtain ⟨s', stepped⟩ := Option.isSome_iff_exists.mp both.1
  exact ⟨s, s', ran, stepped, both.2, (Impl.newFiles_unused ran stepped).2⟩

end TalusDB
