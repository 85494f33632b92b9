import TalusDB.DB.Applying

/-! The background thread at its flushes and compactions, up to the point where it calls
`LogAndApply`. -/
namespace TalusDB
open List Function DBFiles CompactionState
open Recovery (entriesOf)
variable {K V : Type} [LinearOrder K]

theorem writeLevel0Table_cases {options : Options K V} {number : Nat} {mem : List (Entry K V)}
    {edit : VersionEdit K V} {base : Version K V}
    (wrote : writeLevel0Table options number mem {} (some base) = some edit) :
    mem = [] ∧ edit = {} ∨ ∃ level f, level < kNumLevels ∧ f.number = number ∧ f.entries = mem ∧
      edit = { newFiles := [(level, f)] } := by
  rw [writeLevel0Table] at wrote
  split at wrote
  case isTrue empty =>
    cases wrote
    exact .inl ⟨isEmpty_iff.mp empty, rfl⟩
  case isFalse =>
    obtain ⟨f, built, rfl⟩ := Option.map_eq_some_iff.mp wrote
    obtain ⟨isNumber, isMem, -⟩ := build_spec built
    refine .inr ⟨_, f, ?_, isNumber, isMem, rfl⟩
    exact (pickLevelForMemTableOutput_le ..).trans_lt (by decide)

namespace Impl
variable {s s' : Impl K V} {number : Nat} {rec : Record K V} {added : List (Nat × Nat)}
variable [Inhabited V] {config : Config K V} {comparator : String}

theorem Phase.settled (phase : s.Phase comparator number rec added) (free : s.free = true) :
    s.Settled number rec added ∧ s.Swept s.set.logNumber := by
  simpa only [Phase, (free_iff.mp free).2] using phase

section
variable (books : s.Books comparator number rec added)
include books

theorem unref_listed (id : Nat) :
    ∀ node ∈ RefCount.unref id s.versions, ∀ level, ∀ f ∈ node.value.files level,
      (level, f.number) ∈ added := by
  intro node mem
  obtain ⟨m, inside, -, same⟩ := RefCount.mem_unref mem
  exact same ▸ books.listed m inside

theorem pinCurrent_listed :
    ∀ node ∈ RefCount.ref s.currentId s.versions, ∀ level, ∀ f ∈ node.value.files level,
      (level, f.number) ∈ added := by
  intro node mem
  obtain ⟨m, inside, -, same⟩ := RefCount.mem_ref mem
  exact same ▸ books.listed m inside

theorem beginFlush_phase
    (phase : s.Phase comparator number rec added) (began : s.beginFlush = some s') :
    s'.Books comparator number rec added ∧ s'.Phase comparator number rec added := by
  rw [beginFlush] at began
  obtain ⟨free, began⟩ := Option.ite_none_right_eq_some.mp began
  simp only [Bool.and_eq_true] at free
  obtain ⟨settled, swept⟩ := phase.settled free.1.1
  cases began
  have later := Nat.le_succ s.set.nextFileNumber
  constructor
  · refine { books with
      listed := pinCurrent_listed books
      below := fun a mem => (books.below a mem).trans_le later
      manifest := books.manifest.trans_le later
      pending := fun n mem => ?_
      running := fun r isRunning => ?_ }
    · obtain rfl | mem := mem_cons.mp mem
      · exact Nat.lt_succ_self _
      · exact (books.pending n mem).trans_le later
    · obtain ⟨producing, pending⟩ := books.running r isRunning
      exact ⟨producing.mono later fun _ _ => rfl, fun n mem =>
        mem_cons_of_mem _ (pending n mem)⟩
  · refine ⟨⟨⟨settled.agrees.version, settled.agrees.logNumber, settled.agrees.added⟩,
      settled.manifest, settled.isOpen, settled.covers.later later⟩, swept,
      Nat.lt_succ_self _, fun a mem => (books.below a mem).ne, ?_⟩
    intro r isRunning mem
    exact absurd ((books.running r isRunning).1.counted.within _ mem).2 (lt_irrefl _)

end

theorem buildTable_phase (books : s.Books config.comparator number rec added)
    (phase : s.Phase config.comparator number rec added) (built : s.buildTable config = some s') :
    s'.Books config.comparator number rec added ∧ s'.Phase config.comparator number rec added := by
  rw [buildTable] at built
  split at built
  case h_2 => cases built
  case h_1 n base m isTask isImm =>
    simp only [Phase, isTask] at phase
    obtain ⟨settled, swept, below, fresh, other⟩ := phase
    obtain ⟨edit, wrote, built⟩ := Option.bind_eq_some_iff.mp built
    cases built
    obtain ⟨level, new, rfl, bound, sole, numbers, isNumber, holds⟩ :
        ∃ (level : Nat) (new : List (Nat × FileMetaData K V)), edit = { newFiles := new } ∧
          level < kNumLevels ∧ (∀ a ∈ new, a.1 = level) ∧ (new.map (·.2.number)).Nodup ∧
          (∀ a ∈ new, a.2.number = n) ∧ ∀ e ∈ s.memtables m, ∃ a ∈ new, e ∈ a.2.entries := by
      obtain ⟨empty, rfl⟩ | ⟨level, f, bound, isNumber, entries, rfl⟩ :=
        writeLevel0Table_cases wrote
      · exact ⟨0, [], rfl, by decide, by simp, .nil, by simp, by simp [empty]⟩
      · exact ⟨level, [(level, f)], rfl, bound, by simp, by simp, by simp [isNumber],
          by simp [entries]⟩
    have appends : Appends added s.set.current { newFiles := new } :=
      .fresh level sole numbers fun a mem b inside => isNumber a mem ▸ fresh b inside
    have proper := appends.proper (by simp)
    have numbers' : ((new.map Prod.snd).map (·.number)).Nodup := by
      rw [map_map]
      exact numbers
    obtain ⟨written, others⟩ := lookup_writeTables s.files numbers'
    obtain ⟨tables, isWritten⟩ := writeTables_eq s.files (new.map Prod.snd)
    have logs : (s.files.writeTables (new.map Prod.snd)).logs = s.files.logs := by rw [isWritten]
    have keeps : (s.files.writeTables (new.map Prod.snd)).Keeps config.comparator number rec := by
      apply books.keeps.writeTables
      intro f mem b inside
      obtain ⟨a, inNew, rfl⟩ := mem_map.mp mem
      rw [isNumber a inNew]
      exact fresh b (settled.agrees.added ▸ inside)
    have books' : { s.unpin base with
        files := s.files.writeTables (new.map Prod.snd)
        pendingOutputs := s.pendingOutputs.filter (· ≠ n) }.Books config.comparator number rec
          added := by
      refine { books with
        keeps
        listed := unref_listed books _
        pending := fun n' mem => books.pending n' (mem_of_mem_filter mem)
        running := fun r isRunning => ?_ }
      obtain ⟨producing, pending⟩ := books.running r isRunning
      have different : ∀ n' ∈ r.compact.numbers, n' ≠ n := by
        rintro n' mem rfl
        exact other r isRunning mem
      constructor
      · refine producing.mono le_rfl fun n' mem => others n' fun f inNew => ?_
        obtain ⟨a, inside, rfl⟩ := mem_map.mp inNew
        exact isNumber a inside ▸ (different n' mem).symm
      · exact fun n' mem => mem_filter.mpr ⟨pending n' mem, by simpa using different n' mem⟩
    have proposed : { s.unpin base with
        files := s.files.writeTables (new.map Prod.snd)
        pendingOutputs := s.pendingOutputs.filter (· ≠ n) }.Proposed added
          { newFiles := new, prevLogNumber := some 0, logNumber := some s.logfileNumber }
          .compactMemTable s.logfileNumber := by
      have reached : s.set.logNumber ≤ s.logfileNumber := settled.covers.reached
      refine ⟨rfl, appends, by simp, rfl, rfl, ?_, reached, ?_, ?_, ?_, ?_, ?_, by simp⟩
      · intro a mem
        obtain ⟨b, inside, rfl⟩ := mem_map.mp mem
        exact isNumber b inside ▸ below
      · exact fun a mem => written a.2 (mem_map_of_mem mem)
      · intro k records found old e inside
        -- the log of the memtable that is flushed; older logs hold nothing
        rw [logs] at found
        have high : s.set.logNumber ≤ k := swept k (AList.lookup_isSome.mp (by simp [found]))
        by_cases isLog : k = m
        · subst isLog
          obtain ⟨a, inNew, inTable⟩ := holds e ((settled.covers.imm k isImm).2 records found e inside)
          refine Version.mem_entries.mpr ⟨level, a.2, ?_, inTable⟩
          exact (proper.mem_files _ bound).mpr (.inr (sole a inNew ▸ inNew))
        · have empty := settled.covers.others k records found high (Nat.ne_of_lt old)
            (by simpa [journal, isImm] using Ne.symm isLog)
          rw [empty] at inside
          cases inside
      · have same : ({ s.unpin base with
            files := s.files.writeTables (new.map Prod.snd)
            pendingOutputs := s.pendingOutputs.filter (· ≠ n) } : Impl K V).journal = s.journal := by
          simp only [journal, logs]
          rfl
        rw [same]
        exact settled.covers.raise reached le_rfl
      · intro _ r isRunning k mem a inside
        obtain ⟨b, inNew, rfl⟩ := mem_map.mp inside
        rintro rfl
        exact other r isRunning (isNumber b inNew ▸ mem)
      · exact fun _ => ⟨m, isImm, (settled.covers.imm m isImm).1⟩
    exact proposed.logged books'
      ⟨settled.agrees.version, settled.agrees.logNumber, settled.agrees.added⟩
      (fun _ => settled.manifest) fun closed => absurd (settled.isOpen.symm.trans closed) (by simp)

omit [Inhabited V] in
theorem removed_known {v : Version K V} {c : Compaction K V} (present : c.Present v)
    (known : ∀ level, ∀ f ∈ v.files level, (level, f.number) ∈ added) :
    ∀ d ∈ c.removed, d ∈ added := by
  intro d mem
  obtain first | second := mem_append.mp mem
  · obtain ⟨f, input, rfl⟩ := mem_map.mp first
    exact known _ f (present.first f input)
  · obtain ⟨f, input, rfl⟩ := mem_map.mp second
    exact known _ f (present.second f input)

theorem Settled.known (settled : s.Settled number rec added)
    (books : s.Books comparator number rec added) :
    ∀ level, ∀ f ∈ s.set.current.files level, (level, f.number) ∈ added := by
  have known := books.keeps.known
  rwa [settled.agrees.version, settled.agrees.added] at known

omit [Inhabited V] in
theorem swept_logs {least : Nat} (swept : s.Swept least) {n : Nat}
    {records : List (LogRecord K V)} (found : s.files.logs.lookup n = some records)
    (old : n < least) : False := by
  have high := swept n (AList.lookup_isSome.mp (by simp [found]))
  omega

theorem begin_phase (books : s.Books config.comparator number rec added)
    (phase : s.Phase config.comparator number rec added) (free : s.free = true)
    (idle : s.running = none) {c : Compaction K V} (present : c.Present s.set.current)
    (isManual : Bool) : (s.begin config isManual c).Books config.comparator number rec added ∧
      (s.begin config isManual c).Phase config.comparator number rec added := by
  obtain ⟨settled, swept⟩ := phase.settled free
  have agrees := settled.agrees
  have known := settled.known books
  rw [begin]
  split
  case isTrue move =>
    simp only [Bool.and_eq_true] at move
    obtain ⟨f, inputs⟩ := isTrivialMove_inputs move.2
    have replaces := moveEdit_replaces inputs
    have inLevel : f ∈ s.set.current.files c.level := present.first f (by simp [inputs])
    have removed : c.removed = [(c.level, f.number)] := by simp [Compaction.removed, inputs]
    have new : c.moveEdit.newFiles = [(c.level + 1, f)] := by simp [replaces.new]
    have proposed : { s.pinCurrent with
        set := { s.set with
          compactPointer := Function.update s.set.compactPointer c.level (some c.pointer) }
        inputVersion := some (s.currentId, s.set.current) }.Proposed added
          { toVersionEdit := c.moveEdit, compactPointers := [(c.level, c.pointer)] } .trivialMove
          s.set.logNumber := by
      refine ⟨rfl, .move c.level f inLevel (replaces.deleted.trans removed) new, ?_, rfl, rfl, ?_,
        le_rfl, ?_, ?_, settled.covers, ?_, by simp, fun _ => swept⟩
      · exact replaces.deleted ▸ removed_known present known
      · simp only [VersionEdit.adds, new, map_cons, map_nil, mem_singleton]
        rintro a rfl
        exact (books.below (c.level, f.number) (known c.level f inLevel) :)
      · rw [new]
        simp only [mem_singleton, forall_eq]
        exact books.keeps.tables c.level f (agrees.version ▸ inLevel)
      · exact fun n records found old => (swept_logs swept found old).elim
      · intro _ r isRunning
        exact absurd (idle.symm.trans isRunning) (by simp)
    exact proposed.logged { books with listed := pinCurrent_listed books }
      ⟨agrees.version, agrees.logNumber, agrees.added⟩ (fun _ => settled.manifest)
      fun closed => absurd (settled.isOpen.symm.trans closed) (by simp)
  case isFalse =>
    refine ⟨{ books with listed := pinCurrent_listed books, running := ?_ }, ?_⟩
    · intro r isRunning
      cases isRunning
      exact ⟨.start _ (removed_known present known), by
        simp [CompactionState.start, numbers]⟩
    · simp only [Phase, (free_iff.mp free).2, pinCurrent]
      exact ⟨⟨⟨agrees.version, agrees.logNumber, agrees.added⟩, settled.manifest, settled.isOpen,
        settled.covers⟩, swept⟩

theorem compactionRound_phase (books : s.Books comparator number rec added)
    (phase : s.Phase comparator number rec added) (stepped : s.compactionRound config = some s') :
    s'.Books comparator number rec added ∧ s'.Phase comparator number rec added := by
  rw [compactionRound] at stepped
  obtain ⟨running, isRunning, stepped⟩ := Option.bind_eq_some_iff.mp stepped
  obtain ⟨free, stepped⟩ := Option.ite_none_right_eq_some.mp stepped
  obtain ⟨⟨next, compact⟩, round, stepped⟩ := Option.bind_eq_some_iff.mp stepped
  cases stepped
  obtain ⟨settled, swept⟩ := phase.settled free
  obtain ⟨producing, pending⟩ := books.running running isRunning
  obtain ⟨producing', later, numbers⟩ := producing.step books.below round
  have opens : next ≠ s.set.nextFileNumber → s.set.nextFileNumber < next :=
    fun different => lt_of_le_of_ne later different.symm
  have since : ∀ f ∈ finishedSince running.compact compact, ∀ a ∈ rec.added, a.2 ≠ f.number := by
    intro f mem a inside
    refine producing'.fresh f.number ?_ a (settled.agrees.added ▸ inside)
    exact mem_append_left _ (mem_map_of_mem (mem_of_mem_drop mem))
  have keeps : (if next != s.set.nextFileNumber then { s.files with
      tables := s.files.tables.insert s.set.nextFileNumber [] } else s.files).Keeps comparator
        number rec := by
    split
    · apply books.keeps.insertTable
      exact fun a mem => (books.below a (settled.agrees.added ▸ mem)).ne
    · exact books.keeps
  obtain ⟨tables, isWritten⟩ := writeTables_eq (if next != s.set.nextFileNumber then
    { s.files with tables := s.files.tables.insert s.set.nextFileNumber [] } else s.files)
    (finishedSince running.compact compact)
  have logs : ((if next != s.set.nextFileNumber then { s.files with
      tables := s.files.tables.insert s.set.nextFileNumber [] } else s.files).writeTables
        (finishedSince running.compact compact)).logs = s.files.logs := by
    rw [isWritten]
    split <;> rfl
  constructor
  · refine ⟨keeps.writeTables since, books.listed, fun a mem => (books.below a mem).trans_le later,
      books.manifest.trans_le later, books.prev, books.wanted, ?_, ?_⟩
    · intro n mem
      split at mem
      case isTrue opened =>
        obtain rfl | old := mem_cons.mp mem
        · exact opens (by simpa using opened)
        · exact (books.pending n old).trans_le later
      case isFalse => exact (books.pending n mem).trans_le later
    · intro r isRunning'
      cases isRunning'
      refine ⟨producing', fun n mem => ?_⟩
      show n ∈ if next != s.set.nextFileNumber then s.set.nextFileNumber :: s.pendingOutputs
        else s.pendingOutputs
      obtain old | ⟨rfl, different⟩ := numbers n mem
      · split
        · exact mem_cons_of_mem _ (pending n old)
        · exact pending n old
      · rw [if_pos (by simpa using different)]
        exact mem_cons_self
  · simp only [Phase, (free_iff.mp free).2]
    refine ⟨⟨⟨settled.agrees.version, settled.agrees.logNumber, settled.agrees.added⟩,
      settled.manifest, settled.isOpen, ?_⟩, ?_⟩
    · simp only [journal, logs]
      exact settled.covers.later later
    · rw [Swept, logs]
      exact swept

theorem finishCompaction_phase (books : s.Books config.comparator number rec added)
    (phase : s.Phase config.comparator number rec added)
    (finished : s.finishCompaction config = some s') :
    s'.Books config.comparator number rec added ∧ s'.Phase config.comparator number rec added := by
  rw [finishCompaction] at finished
  obtain ⟨running, isRunning, finished⟩ := Option.bind_eq_some_iff.mp finished
  obtain ⟨free, finished⟩ := Option.ite_none_right_eq_some.mp finished
  rw [Bool.and_eq_true] at free
  obtain ⟨compact, closed, finished⟩ := Option.bind_eq_some_iff.mp finished
  cases finished
  obtain ⟨settled, swept⟩ := phase.settled free.1
  obtain ⟨producing, pending⟩ := books.running running isRunning
  obtain ⟨producing', numbers, outputs⟩ := producing.finish closed
  have replaces := installEdit_replaces compact
  have isOutput {f : FileMetaData K V} (output : f ∈ compact.outputs) :
      f.number ∈ compact.numbers := mem_append_left _ (mem_map_of_mem output)
  obtain ⟨tables, isWritten⟩ := writeTables_eq s.files
    (finishedSince running.compact compact)
  have logs : (s.files.writeTables (finishedSince running.compact compact)).logs =
      s.files.logs := by rw [isWritten]
  have books' : { s with files := s.files.writeTables (finishedSince running.compact compact)
      }.Books config.comparator number rec added := by
    refine { books with keeps := books.keeps.writeTables ?_, running := ?_ }
    · intro f mem a inside
      exact producing'.fresh f.number (isOutput (mem_of_mem_drop mem)) a
        (settled.agrees.added ▸ inside)
    · intro r isRunning'
      cases isRunning.symm.trans isRunning'
      refine ⟨{ producing with written := fun f output => ?_ }, pending⟩
      exact producing'.written f
        ((finishOutputFile_extends closed).subset output)
  have proposed : { s with files := s.files.writeTables (finishedSince running.compact compact)
      }.Proposed added
        { toVersionEdit := compact.installEdit
          compactPointers := [(compact.compaction.level, compact.compaction.pointer)] }
        (.compaction (compact.outputs.map FileMetaData.number)) s.set.logNumber := by
    refine ⟨rfl, .fresh (compact.compaction.level + 1) ?_ ?_ ?_, ?_, rfl, rfl, ?_, le_rfl, ?_, ?_,
      ?_, fun other => absurd rfl (other _), by simp, by simp⟩
    · simp [replaces.new]
    · have nodup : (compact.outputs.map (·.number)).Nodup := outputs ▸ producing.counted.nodup
      simpa [replaces.new, comp_def] using nodup
    · rw [replaces.new]
      intro a mem b inside
      obtain ⟨f, output, rfl⟩ := mem_map.mp mem
      exact producing'.fresh f.number (isOutput output) b inside
    · exact replaces.deleted ▸ producing'.removed
    · simp only [VersionEdit.adds, replaces.new, map_map, mem_map]
      rintro a ⟨f, output, rfl⟩
      exact (producing'.counted.within _ (isOutput output)).2
    · simp only [replaces.new, mem_map]
      rintro a ⟨f, output, rfl⟩
      exact producing'.written f output
    · rw [logs]
      exact fun n records found old => (swept_logs swept found old).elim
    · simp only [journal, logs]
      exact settled.covers
  exact proposed.logged books'
    ⟨settled.agrees.version, settled.agrees.logNumber, settled.agrees.added⟩
    (fun _ => settled.manifest) fun closed => absurd (settled.isOpen.symm.trans closed) (by simp)

end Impl
end TalusDB
