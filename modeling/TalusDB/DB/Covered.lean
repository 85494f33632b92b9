import TalusDB.DB.Impl

/-! Recovery makes tables of everything in the logs that it does not reuse. -/
namespace TalusDB.Recovery
open List Option MemTable
variable {K V : Type} [LinearOrder K] {options : Options K V}
  {r r' : Recovery K V} {entries : List (Entry K V)}

/-- From `r` to `r'` these tables were made, with new numbers. -/
structure Makes (r r' : Recovery K V) (tables : List (FileMetaData K V)) : Prop where
  edit : r'.edit = { r.edit with newFiles := r.edit.newFiles ++ tables.map (0, ·) }
  numbers : tables.Pairwise fun f g => f.number < g.number
  later : r.nextFileNumber ≤ r'.nextFileNumber
  range : ∀ f ∈ tables, r.nextFileNumber ≤ f.number ∧ f.number < r'.nextFileNumber

theorem Makes.none (later : r.nextFileNumber ≤ r'.nextFileNumber) (edit : r'.edit = r.edit) :
    Makes r r' [] :=
  ⟨by simp [edit], .nil, later, by simp⟩

theorem Makes.trans {r'' : Recovery K V} {tables tables' : List (FileMetaData K V)}
    (first : Makes r r' tables) (second : Makes r' r'' tables') :
    Makes r r'' (tables ++ tables') where
  edit := by simp [second.edit, first.edit]
  numbers := pairwise_append.mpr ⟨first.numbers, second.numbers, fun f inF g inG =>
    (first.range f inF).2.trans_le (second.range g inG).1⟩
  later := first.later.trans second.later
  range f mem := by
    obtain mem | mem := mem_append.mp mem
    · exact ⟨(first.range f mem).1, (first.range f mem).2.trans_le second.later⟩
    · exact ⟨first.later.trans (second.range f mem).1, (second.range f mem).2⟩

theorem Makes.counter {tables : List (FileMetaData K V)} (makes : Makes r r' tables) {next : Nat}
    (later : r'.nextFileNumber ≤ next) :
    Makes r { r' with nextFileNumber := next } tables :=
  { makes with
    later := makes.later.trans later
    range := fun f mem => ⟨(makes.range f mem).1, (makes.range f mem).2.trans_le later⟩ }

theorem flush_makes {mem : List (Entry K V)} (flushed : r.flush options mem = some r') :
    ∃ tables, Makes r r' tables ∧ ∀ e ∈ mem, ∃ f ∈ tables, e ∈ f.entries := by
  obtain ⟨edit, written, rfl⟩ := map_eq_some_iff.mp flushed
  rw [writeLevel0Table] at written
  split at written
  case isTrue empty =>
    cases written
    exact ⟨[], .none (Nat.le_succ _) rfl, by simp [isEmpty_iff.mp empty]⟩
  case isFalse =>
    obtain ⟨f, built, rfl⟩ := map_eq_some_iff.mp written
    obtain ⟨number, isMem, -⟩ := build_spec built
    refine ⟨[f], ⟨rfl, pairwise_singleton _ _, Nat.le_succ _, ?_⟩, ?_⟩
    · simp [number]
    · simp [isMem]

theorem markFileNumberUsed_le (next number : Nat) :
    next ≤ markFileNumberUsed next number ∧ number < markFileNumberUsed next number := by
  rw [markFileNumberUsed]
  split <;> omega

section
variable [Inhabited V] {full : List (Entry K V) → Bool}

/-- The loop over the records: what was in the memtable and in the records is in a table or
in the memtable that is left. -/
theorem records_makes {mem mem' : Option (List (Entry K V))} {log : List (LogRecord K V)}
    (ran : r.records options full mem log = some (r', mem')) :
    ∃ tables, Makes r r' tables ∧
      (∀ e ∈ mem.getD [] ++ entriesOf log, (∃ f ∈ tables, e ∈ f.entries) ∨ e ∈ mem'.getD []) ∧
      (log = [] → mem' = mem ∧ r' = r) := by
  induction log generalizing r mem with
  | nil =>
    cases ran
    exact ⟨[], .none le_rfl rfl, by simp [entriesOf], by simp⟩
  | cons record rest ih =>
    rw [records] at ran
    set inserted := insertInto record.sequence record.ops (mem.getD []) with isInserted
    have holds : ∀ e ∈ mem.getD [] ++ entriesOf (record :: rest),
        e ∈ inserted ∨ e ∈ entriesOf rest := by
      intro e inside
      rw [isInserted, insertInto, mem_foldl_add]
      simp only [entriesOf, flatMap_cons, mem_append] at inside ⊢
      tauto
    split at ran
    case isFalse =>
      obtain ⟨tables, makes, covered, -⟩ := ih ran
      exact ⟨tables, ⟨makes.edit, makes.numbers, makes.later, makes.range⟩,
        fun e inside => covered e (mem_append.mpr (holds e inside)), by simp⟩
    case isTrue =>
      obtain ⟨r₁, flushed, ran⟩ := bind_eq_some_iff.mp ran
      obtain ⟨first, makes₁, covered₁⟩ := flush_makes flushed
      obtain ⟨tables, makes, covered, -⟩ := ih ran
      refine ⟨first ++ tables, Makes.trans ⟨makes₁.edit, makes₁.numbers, makes₁.later, makes₁.range⟩
        makes, fun e inside => ?_, by simp⟩
      obtain inside | inside := holds e inside
      · obtain ⟨f, mem, inF⟩ := covered₁ e inside
        exact .inl ⟨f, mem_append_left _ mem, inF⟩
      · obtain ⟨f, mem, inF⟩ | left := covered e (mem_append_right _ inside)
        · exact .inl ⟨f, mem_append_right _ mem, inF⟩
        · exact .inr left

theorem logFile_makes {log : Nat × List (LogRecord K V)}
    (ran : r.logFile options full log = some r') :
    ∃ tables, Makes r r' tables ∧ (∀ e ∈ entriesOf log.2, ∃ f ∈ tables, e ∈ f.entries) ∧
      log.1 < r'.nextFileNumber ∧ (log.2 = [] → tables = []) := by
  rw [logFile] at ran
  obtain ⟨⟨r₁, mem⟩, ran, finish⟩ := bind_eq_some_iff.mp ran
  obtain ⟨r₂, flushed, same⟩ := bind_eq_some_iff.mp finish
  obtain ⟨tables, makes, covered, none⟩ := records_makes ran
  have used := markFileNumberUsed_le r₂.nextFileNumber log.1
  cases same
  cases mem with
  | none =>
    cases flushed
    refine ⟨tables, makes.counter used.1, fun e inside => ?_, used.2, fun empty => ?_⟩
    · exact (covered e (mem_append_right _ inside)).resolve_right (by simp)
    · obtain ⟨-, rfl⟩ := none empty
      have edit := makes.edit
      simpa using congrArg VersionEdit.newFiles edit
  | some mem =>
    obtain ⟨more, makes', covered'⟩ := flush_makes flushed
    refine ⟨tables ++ more, (makes.trans makes').counter used.1, fun e inside => ?_, used.2,
      fun empty => absurd (none empty).1 (by simp)⟩
    obtain ⟨f, mem, inF⟩ | left := covered e (mem_append_right _ inside)
    · exact ⟨f, mem_append_left _ mem, inF⟩
    · obtain ⟨f, mem, inF⟩ := covered' e left
      exact ⟨f, mem_append_right _ mem, inF⟩

theorem logFiles_append (r : Recovery K V) (logs logs' : List (Nat × List (LogRecord K V))) :
    r.logFiles options full (logs ++ logs') =
      (r.logFiles options full logs).bind (logFiles options full · logs') := by
  induction logs generalizing r with
  | nil => rfl
  | cons log rest ih =>
    simp only [cons_append, logFiles, bind_assoc]
    exact congrArg _ (funext ih)

variable {logs : List (Nat × List (LogRecord K V))} {config : Config K V}

theorem logFiles_makes (ran : r.logFiles options full logs = some r') :
    ∃ tables, Makes r r' tables ∧
      (∀ log ∈ logs, ∀ e ∈ entriesOf log.2, ∃ f ∈ tables, e ∈ f.entries) ∧
      (∀ log ∈ logs, log.1 < r'.nextFileNumber) ∧ ((∀ log ∈ logs, log.2 = []) → tables = []) := by
  induction logs generalizing r with
  | nil =>
    cases ran
    exact ⟨[], .none le_rfl rfl, by simp, by simp, by simp⟩
  | cons log rest ih =>
    obtain ⟨r₁, ran, went⟩ := bind_eq_some_iff.mp ran
    obtain ⟨first, makes, covered, used, none⟩ := logFile_makes ran
    obtain ⟨more, makes', covered', used', none'⟩ := ih went
    refine ⟨first ++ more, makes.trans makes', ?_, ?_, ?_⟩
    · intro l mem e inside
      obtain rfl | mem := mem_cons.mp mem
      · obtain ⟨f, mem, inF⟩ := covered e inside
        exact ⟨f, mem_append_left _ mem, inF⟩
      · obtain ⟨f, mem, inF⟩ := covered' l mem e inside
        exact ⟨f, mem_append_right _ mem, inF⟩
    · intro l mem
      obtain rfl | mem := mem_cons.mp mem
      · exact used.trans_le makes'.later
      · exact used' l mem
    · intro empty
      rw [none (empty log mem_cons_self),
        none' fun l mem => empty l (mem_cons_of_mem log mem)]
      rfl

/-- Tables of all logs but the one that is reused, and of that one its memtable. -/
structure Recovered (config : Config K V) (logs : List (Nat × List (LogRecord K V)))
    (r r' : Recovery K V) (reused : Option (Nat × List (Entry K V)))
    (tables : List (FileMetaData K V)) : Prop where
  makes : Makes r r' tables
  used : ∀ log ∈ logs, log.1 < r'.nextFileNumber
  covered : ∀ log ∈ logs, (∀ mem ∈ reused, mem.1 ≠ log.1) →
    ∀ e ∈ entriesOf log.2, ∃ f ∈ tables, e ∈ f.entries
  empty : (∀ log ∈ logs, (∀ mem ∈ reused, mem.1 ≠ log.1) → log.2 = []) → tables = []
  reuse : ∀ mem ∈ reused, config.reuseLogs = true ∧ ∃ log, logs.getLast? = some log ∧
    log.1 = mem.1 ∧ ∀ e ∈ entriesOf log.2, e ∈ mem.2

theorem Recovered.of_all (ran : r.logFiles config.options config.full logs = some r') :
    ∃ tables, Recovered config logs r r' none tables := by
  obtain ⟨tables, makes, covered, used, empty⟩ := logFiles_makes ran
  exact ⟨tables, makes, used, fun log mem _ => covered log mem,
    fun none => empty fun log mem => none log mem (by simp), by simp⟩

theorem recoverLogs_makes
    (nodup : (logs.map (·.1)).Nodup) {reused : Option (Nat × List (Entry K V))}
    (ran : recoverLogs config r logs = some (r', reused)) :
    ∃ tables, Recovered config logs r r' reused tables := by
  rw [recoverLogs] at ran
  split at ran
  case h_2 =>
    obtain ⟨r₁, all, same⟩ := map_eq_some_iff.mp ran
    cases same
    exact Recovered.of_all all
  case h_1 last reuses isLast =>
    obtain ⟨r₁, before, finish⟩ := bind_eq_some_iff.mp ran
    rw [reuseLog] at finish
    obtain ⟨⟨r₂, mem⟩, read, finish⟩ := bind_eq_some_iff.mp finish
    have split : logs = logs.dropLast ++ [last] := by
      obtain ⟨front, rfl⟩ := List.getLast?_eq_some_iff.mp isLast
      simp
    by_cases kept : r₂.nextFileNumber = r₁.nextFileNumber
    · simp only [if_pos kept] at finish
      cases finish
      obtain ⟨tables, makes, covered, used, empty⟩ := logFiles_makes before
      obtain ⟨more, makes', covered', -⟩ := records_makes read
      have none : more = [] := by
        rw [eq_nil_iff_forall_not_mem]
        intro f mem
        have range := makes'.range f mem
        omega
      subst none
      have mark := markFileNumberUsed_le r₂.nextFileNumber last.1
      have other : ∀ log ∈ logs, last.1 ≠ log.1 → log ∈ logs.dropLast := by
        intro log mem different
        rw [split] at mem
        refine (mem_append.mp mem).resolve_right fun isLast => different ?_
        rw [mem_singleton.mp isLast]
      refine ⟨tables, ?_, fun log mem => ?_, fun log mem others => ?_, fun none => ?_, ?_⟩
      · simpa using (makes.trans makes').counter mark.1
      · rw [split] at mem
        obtain mem | mem := mem_append.mp mem
        · exact (used log mem).trans_le (makes'.later.trans mark.1)
        · exact mem_singleton.mp mem ▸ mark.2
      · exact covered log (other log mem (others _ rfl))
      · refine empty fun log mem => ?_
        have inside : log ∈ logs := split ▸ mem_append_left _ mem
        refine none log inside fun mem' isReused same => ?_
        cases isReused
        rw [split, map_append, nodup_append] at nodup
        exact nodup.2.2 _ (mem_map_of_mem mem) _ (by simp) same.symm
      · intro mem' isReused
        cases isReused
        refine ⟨reuses, last, isLast, rfl, fun e inside => ?_⟩
        exact (covered' e (mem_append_right _ inside)).resolve_left (by simp)
    · simp only [if_neg kept] at finish
      obtain ⟨r₃, ran', same⟩ := map_eq_some_iff.mp finish
      cases same
      refine Recovered.of_all ?_
      rw [split, logFiles_append, before, bind_some, logFiles, ran']
      rfl

end
end TalusDB.Recovery
