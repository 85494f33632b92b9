import TalusDB.DB.Applying

/-! `DB::Open`: a directory that keeps what its descriptor says is recovered to a database
whose logs and version set agree with it. -/
namespace TalusDB
open List Function AList DBFiles Version Bool
open Recovery (entriesOf)
variable {K V : Type} [LinearOrder K]

namespace DBFiles
variable {files : DBFiles K V} {minLog n : Nat} {records : List (LogRecord K V)}

theorem mem_recoverable : (n, records) ∈ files.recoverable minLog 0 ↔
      files.logs.lookup n = some records ∧ (minLog ≤ n ∨ n = 0) := by
  rw [recoverable, mem_insertionSort, mem_filter, mem_map]
  simp only [or_eq_true, decide_eq_true_eq, beq_iff_eq]
  refine and_congr_left fun _ => ?_
  rw [← Option.mem_def, mem_lookup_iff]
  constructor
  · rintro ⟨⟨m, found⟩, mem, same⟩
    cases same
    exact mem
  · exact fun mem => ⟨⟨n, records⟩, mem, rfl⟩

theorem recoverable_nodup (files : DBFiles K V) (minLog prevLog : Nat) :
    ((files.recoverable minLog prevLog).map (·.1)).Nodup := by
  have perm := (perm_insertionSort (fun log log' => log.1 ≤ log'.1)
    ((files.logs.entries.map fun log => (log.1, log.2)).filter fun log =>
      decide (minLog ≤ log.1) || log.1 == prevLog)).map (·.1)
  refine perm.nodup_iff.mpr (List.Nodup.sublist (filter_sublist.map _) ?_)
  rw [map_map]
  exact files.logs.nodupKeys

theorem recoverable_sorted (files : DBFiles K V) (minLog prevLog : Nat) :
    (files.recoverable minLog prevLog).Pairwise fun log log' => log.1 ≤ log'.1 := by
  have total : Std.Total fun log log' : Nat × List (LogRecord K V) => log.1 ≤ log'.1 :=
    ⟨fun _ _ => Nat.le_total _ _⟩
  have trans : IsTrans (Nat × List (LogRecord K V)) fun log log' => log.1 ≤ log'.1 :=
    ⟨fun _ _ _ => Nat.le_trans⟩
  exact pairwise_insertionSort _ _

end DBFiles

namespace Impl
variable [Inhabited V] {config : Config K V} {comparator : String} {s s' : Impl K V}
  {number : Nat} {rec : Record K V} {added : List (Nat × Nat)}

/-- The directory while no database is open. -/
def Stored (comparator : String) (s : Impl K V) : Prop :=
  match s.files.current with
  | none => s.files.logs = ∅ ∧ (s.task = .creating →
      s.files.descriptors.lookup 1 = some (TalusDB.newDB comparator).records)
  | some number => s.task ≠ .creating ∧ ∃ rec, s.files.Keeps comparator number rec

theorem newDB_stored (stored : s.Stored config.comparator) (made : s.newDB config = some s') :
    s'.Stored config.comparator := by
  rw [newDB] at made
  split at made
  case h_2 => cases made
  case h_1 isTask none =>
    simp only [Stored, none] at stored
    cases made
    simp only [Stored, none]
    exact ⟨stored.1, fun _ => lookup_insert _⟩

theorem setCurrent_stored (stored : s.Stored config.comparator) (creating : s.task = .creating)
    (named : s.setCurrent = some s') : s'.Stored config.comparator := by
  simp only [setCurrent, creating] at named
  cases named
  rw [Stored] at stored
  split at stored
  case h_2 => exact absurd creating stored.1
  case h_1 =>
    obtain ⟨r, said⟩ : ∃ r, Says config.comparator (TalusDB.newDB config.comparator).records
      (⟨.empty, [], 0, 2, 0⟩ : Record K V) r := newDB_says
    refine ⟨by simp, ⟨.empty, [], 0, 2, 0⟩, rfl, ⟨_, r, stored.2 creating, said⟩,
      Nat.lt_succ_self 1, ?_, ?_, ?_⟩
    · intro level f mem
      cases mem
    · simp [stored.1]
    · simp [stored.1]

theorem recover_phase (fresh : s.Fresh) (stored : s.Stored config.comparator)
    (recovered : s.recover config = some s') : ∃ number rec,
      s'.Books config.comparator number rec rec.added ∧
      s'.Phase config.comparator number rec rec.added := by
  rw [fresh] at recovered
  obtain ⟨number, records, set, r, reused, isTask, current, found, isSet, ran, rfl⟩ :=
    recover_cases recovered
  simp only at isTask current found ran
  rw [Stored, current] at stored
  obtain ⟨-, rec, keeps⟩ := stored
  obtain ⟨records', replay, found', said⟩ := keeps.descriptor
  rw [found] at found'
  cases found'
  rw [said.recover, Except.toOption, Option.some.injEq] at isSet
  subst isSet
  obtain ⟨tables, all⟩ := Recovery.recoverLogs_makes (recoverable_nodup _ _ _) ran
  have edit : r.edit = { newFiles := tables.map (0, ·) } := by simpa using all.makes.edit
  have later : rec.nextFile + 1 ≤ r.nextFileNumber := all.makes.later
  have young : ∀ f ∈ tables, rec.nextFile < f.number ∧ f.number < r.nextFileNumber :=
    all.makes.range
  have logs {n : Nat} {log : List (LogRecord K V)} (isLog : s.files.logs.lookup n = some log)
      (high : rec.logNumber ≤ n) : (n, log) ∈ s.files.recoverable rec.logNumber 0 :=
    mem_recoverable.mpr ⟨isLog, .inl high⟩
  have logBelow : rec.logNumber < rec.nextFile := said.logBelow
  refine ⟨number, rec, ⟨keeps, ?_, ?_, ?_, rfl, ?_, ?_, ?_⟩, ?_⟩
  · simp only [mem_singleton, forall_eq]
    exact keeps.known
  · exact fun a mem => (said.below a mem).trans (Nat.lt_of_succ_le later)
  · have below := keeps.numberBelow
    show (if config.reuseManifest records then number else rec.nextFile) < r.nextFileNumber
    split <;> omega
  · simp [Wanted]
  · simp
  · simp
  · constructor
    · exact ⟨rfl, rfl, rfl⟩
    · intro reopened
      exact (if_pos reopened).symm
    · intro replaced
      refine keeps.numberBelow.trans_eq (if_neg ?_).symm
      simpa using replaced
    · intro unsaved
      simp only [or_eq_false_iff, not_eq_false'] at unsaved
      exact unsaved.1
    · exact logBelow.trans (Nat.lt_of_succ_le later)
    · exact ⟨rfl, rfl, rfl, rfl⟩
    · rfl
    · rw [edit]
    · rw [edit]
      intro a mem
      obtain ⟨f, inside, rfl⟩ := mem_map.mp mem
      refine ⟨rfl, (young f inside).2, fun b known => ?_⟩
      exact ((said.below b known).trans (young f inside).1).ne
    · rw [edit]
      rw [map_map]
      exact pairwise_map.mpr (all.makes.numbers.imp Nat.ne_of_lt)
    · exact List.Sublist.refl _
    · exact fun a mem => .inl (mem_map_of_mem mem)
    · intro n mem
      obtain ⟨log, isLog⟩ := Option.isSome_iff_exists.mp (lookup_isSome.mpr mem)
      obtain high | low := le_or_gt rec.logNumber n
      · exact all.used _ (logs isLog high)
      · exact (low.trans logBelow).trans (Nat.lt_of_succ_le later)
    · intro n log isLog high others
      have mem := logs isLog high
      constructor
      · intro e inside
        obtain ⟨f, inTables, inF⟩ := all.covered _ mem others e inside
        exact ⟨(0, f), by simpa [edit] using inTables, inF⟩
      · intro unsaved
        simp only [or_eq_false_iff, any_eq_false, mem_filter] at unsaved
        have empty := unsaved.2 (n, log) ⟨mem, by simpa [Option.all_eq_true] using others⟩
        simpa using empty
    · intro m isReused
      obtain ⟨-, log, isLast, same, held⟩ := all.reuse m isReused
      obtain ⟨front, split⟩ := List.getLast?_eq_some_iff.mp isLast
      have sorted := recoverable_sorted s.files rec.logNumber 0
      rw [split, pairwise_append] at sorted
      have mem : log ∈ s.files.recoverable rec.logNumber 0 := by simp [split]
      obtain ⟨isLog, high⟩ := mem_recoverable.mp mem
      have high : rec.logNumber ≤ log.1 :=
        high.resolve_right (keeps.positive _ _ isLog).ne'
      rw [← same]
      refine ⟨high, lookup_isSome.mp (by simp [isLog]), fun n inLogs => ?_, ?_⟩
      · obtain ⟨log', isLog'⟩ := Option.isSome_iff_exists.mp (lookup_isSome.mpr inLogs)
        obtain young' | old := le_or_gt rec.logNumber n
        · have inside := logs isLog' young'
          rw [split] at inside
          obtain before | last := mem_append.mp inside
          · exact sorted.2.2 _ before log (by simp)
          · exact (congrArg Prod.fst (mem_singleton.mp last)).le
        · exact old.le.trans high
      · intro records' found'
        rw [isLog] at found'
        cases found'
        exact held

theorem writeRecovered_phase (books : s.Books comparator number rec added)
    (phase : s.Phase comparator number rec added) (wrote : s.writeRecovered = some s') :
    s'.Books comparator number rec added ∧ s'.Phase comparator number rec added := by
  rw [writeRecovered] at wrote
  split at wrote
  case h_2 => cases wrote
  case h_1 table rest edit reused saveManifest isTask =>
    cases wrote
    simp only [Phase, isTask] at phase
    have sub : table ∈ edit.newFiles.map (·.2) := phase.tables.subset mem_cons_self
    obtain ⟨a, isNew, rfl⟩ := mem_map.mp sub
    have keeps := books.keeps.insertTable
      (fun b mem => (phase.new a isNew).2.2 b (phase.agrees.added ▸ mem)) a.2.entries
    refine ⟨{ books with keeps, running := ?_ }, { phase with
      agrees := ⟨phase.agrees.version, phase.agrees.logNumber, phase.agrees.added⟩
      tables := (sublist_cons_self _ _).trans phase.tables, written := ?_ }⟩
    · intro r isRunning
      exact absurd (phase.alone.2.2.2.symm.trans isRunning) (by simp)
    · intro b isNew'
      show _ ∨ (s.files.tables.insert a.2.number a.2.entries).lookup b.2.number = _
      by_cases same : b.2.number = a.2.number
      · obtain rfl := inj_on_of_nodup_map phase.numbers isNew' isNew same
        exact .inr (lookup_insert _)
      · rw [lookup_insert_ne same]
        obtain unwritten | written := phase.written b isNew'
        · refine .inl ((mem_cons.mp unwritten).resolve_left fun isTable => ?_)
          exact same (congrArg _ isTable)
        · exact .inr written

variable {r : Recovering K V}

/-- The log that `DB::Open` goes on with is the last one, and the others are in tables or
empty. -/
theorem setLog_covers (books : s.Books comparator number rec added)
    (opening : s.Opening number rec added r) {least : Nat} (forward : s.set.logNumber ≤ least)
    (reached : least ≤ (s.setLog r.reused).logfileNumber)
    (last : least = (s.setLog r.reused).logfileNumber ∨ r.saveManifest = false) :
    (s.setLog r.reused).journal.Covers least := by
  obtain ⟨-, noImm, free, -⟩ := opening.alone
  have isKey {n : Nat} {records : List (LogRecord K V)}
      (found : s.files.logs.lookup n = some records) : n ∈ s.files.logs :=
    lookup_isSome.mp (by simp [found])
  cases isReused : r.reused with
  | some m =>
    rw [isReused] at reached last
    obtain ⟨-, inLogs, most, held⟩ := opening.reused m isReused
    obtain ⟨log, isLog⟩ := Option.isSome_iff_exists.mp (lookup_isSome.mpr inLogs)
    refine ⟨reached, books.keeps.positive _ _ isLog, opening.keys _ inLogs, opening.keys, ?_, ?_, ?_⟩
    · intro records found e inside
      left
      show e ∈ Function.update s.memtables m.1 m.2 m.1
      rw [update_self]
      exact held records found e inside
    · simp [journal, setLog, noImm]
    · intro n records found high other _
      obtain rfl | unsaved := last
      · exact absurd (le_antisymm (most n (isKey found)) high) other
      · have others : ∀ m' ∈ r.reused, m'.1 ≠ n := by
          intro m' isReused'
          cases isReused.symm.trans isReused'
          exact Ne.symm other
        rw [(opening.covered n records found (forward.trans high) others).2 unsaved]
        rfl
  | none =>
    rw [isReused] at reached last
    refine ⟨reached, (Nat.zero_le _).trans_lt books.manifest, Nat.lt_succ_self _, ?_, ?_, ?_, ?_⟩
    · intro n mem
      obtain rfl | old := (mem_insert _).mp mem
      · exact Nat.lt_succ_self _
      · exact (opening.keys n old).trans (Nat.lt_succ_self _)
    · intro records found e inside
      have empty := (lookup_insert s.files.logs).symm.trans found
      cases empty
      cases inside
    · simp [journal, setLog, newFileNumber, noImm]
    · intro n records found high other _
      have old := (lookup_insert_ne other).symm.trans found
      obtain rfl | unsaved := last
      · exact absurd (opening.keys n (isKey old)) (not_lt.mpr high)
      · have others : ∀ m ∈ r.reused, m.1 ≠ n := by simp [isReused]
        rw [(opening.covered n records old (forward.trans high) others).2 unsaved]
        rfl

theorem setLog_books (books : s.Books comparator number rec added)
    (opening : s.Opening number rec added r) :
    (s.setLog r.reused).Books comparator number rec added := by
  cases r.reused with
  | some m => exact { books with keeps := books.keeps }
  | none =>
    have later := Nat.le_succ s.set.nextFileNumber
    refine { books with
      keeps := books.keeps.insertLog (opening.agrees.logNumber ▸ opening.forward.le)
        ((Nat.zero_le _).trans_lt books.manifest) _
      below := fun a mem => (books.below a mem).trans_le later
      manifest := books.manifest.trans_le later
      pending := fun n mem => (books.pending n mem).trans_le later
      running := fun r isRunning => ?_ }
    exact absurd (opening.alone.2.2.2.symm.trans isRunning) (by simp)

theorem setLog_frame (opening : s.Opening number rec added r) :
    (s.setLog r.reused).files.tables = s.files.tables ∧
      (s.setLog r.reused).set = { s.set with
        nextFileNumber := (s.setLog r.reused).set.nextFileNumber } ∧
      s.set.nextFileNumber ≤ (s.setLog r.reused).set.nextFileNumber ∧
      s.set.logNumber ≤ (s.setLog r.reused).logfileNumber ∧
      ∀ n records, n < (s.setLog r.reused).logfileNumber →
        (s.setLog r.reused).files.logs.lookup n = some records →
        s.files.logs.lookup n = some records ∧ ∀ m ∈ r.reused, m.1 ≠ n := by
  cases isReused : r.reused with
  | some m =>
    refine ⟨rfl, rfl, le_rfl, (opening.reused m isReused).1, fun n records old found => ⟨found, ?_⟩⟩
    intro m' isReused'
    cases isReused'
    exact (Nat.ne_of_lt old).symm
  | none =>
    refine ⟨rfl, rfl, Nat.le_succ _, opening.forward.le, fun n records old found => ⟨?_, by simp⟩⟩
    exact (lookup_insert_ne (Nat.ne_of_lt old)).symm.trans found

theorem setLog_agrees (opening : s.Opening number rec added r) :
    (s.setLog r.reused).Agrees rec added := by
  obtain ⟨-, set, -⟩ := setLog_frame opening
  refine ⟨?_, ?_, opening.agrees.added⟩
  · rw [set]
    exact opening.agrees.version
  · rw [set]
    exact opening.agrees.logNumber

theorem Opening.proposed (opening : s.Opening number rec added r)
    (books : s.Books comparator number rec added) (written : r.tables = []) :
    (s.setLog r.reused).Proposed added
      { toVersionEdit := r.edit, prevLogNumber := some 0
        logNumber := some (s.setLog r.reused).logfileNumber }
      .open (s.setLog r.reused).logfileNumber := by
  obtain ⟨tables, set, later, forward, logs⟩ := setLog_frame opening
  have deleted : ∀ d ∈ r.edit.deletedFiles, d ∈ added := by simp [opening.deleted]
  have appends : Appends added (s.setLog r.reused).set.current r.edit :=
    .fresh 0 (fun a mem => (opening.new a mem).1) opening.numbers
      fun a mem b inside => (opening.new a mem).2.2 b inside
  have proper := appends.proper deleted
  refine ⟨rfl, appends, deleted, rfl, rfl, ?_, ?_, ?_, ?_, ?_, ?_, nofun, nofun⟩
  · intro a mem
    obtain ⟨b, isNew, rfl⟩ := mem_map.mp mem
    exact (opening.new b isNew).2.1.trans_le later
  · rw [set]
    exact forward
  · rw [tables]
    exact fun a isNew => (opening.written a isNew).resolve_left (by simp [written])
  · intro n records found old e inside
    obtain ⟨found, others⟩ := logs n records old found
    rw [mem_entries]
    obtain high | low := le_or_gt s.set.logNumber n
    · obtain ⟨a, isNew, inTable⟩ := (opening.covered n records found high others).1 e inside
      refine ⟨0, a.2, (proper.mem_files _ (by decide)).mpr (.inr ?_), inTable⟩
      exact (opening.new a isNew).1 ▸ isNew
    · rw [← opening.agrees.logNumber] at low
      obtain ⟨level, f, inLevel, inTable⟩ :=
        mem_entries.mp (books.keeps.logs n records found low e inside)
      rw [(setLog_agrees opening).version] at inLevel
      refine ⟨level, f, (proper.mem_files _ (level_lt inLevel)).mpr (.inl ⟨inLevel, ?_⟩),
        inTable⟩
      simp [opening.deleted]
  · exact setLog_covers books opening forward le_rfl (.inl rfl)
  · intro _ r' isRunning
    have idle : (s.setLog r.reused).running = none := by
      cases r.reused <;> exact opening.alone.2.2.2
    exact absurd (idle.symm.trans isRunning) (by simp)

theorem openLog_phase (books : s.Books config.comparator number rec added)
    (phase : s.Phase config.comparator number rec added) (opens : s.openLog config = some s') :
    s'.Books config.comparator number rec added ∧ s'.Phase config.comparator number rec added := by
  rw [openLog] at opens
  split at opens
  case h_2 => cases opens
  case h_1 edit reused saveManifest isTask =>
    simp only [Phase, isTask] at phase
    have books' := setLog_books books phase
    have agrees := setLog_agrees phase
    obtain ⟨-, set, -, forward, -⟩ := setLog_frame phase
    split at opens <;> cases opens
    case isTrue =>
      refine (phase.proposed books rfl).logged books' agrees ?_ ?_
      · rw [set]
        exact phase.reopened
      · rw [set]
        exact fun closed => (phase.replaced closed).ne
    case isFalse notSaved =>
      have unsaved : saveManifest = false := by simpa using notSaved
      have isOpen := phase.saved unsaved
      have settled : (s.setLog reused).Settled number rec added := by
        refine ⟨agrees, ?_, ?_, ?_⟩
        · rw [set]
          exact phase.reopened isOpen
        · rw [set]
          exact isOpen
        · rw [set]
          exact setLog_covers books phase le_rfl forward (.inr unsaved)
      exact ⟨books'.describe rfl books'.keeps, settled.sweep books'⟩

end Impl
end TalusDB
