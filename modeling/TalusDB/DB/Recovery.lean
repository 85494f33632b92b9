import TalusDB.DB.Background
import TalusDB.DB.WriteQueue

/-! Recovery from the logs: `DBImpl::Recover` and `RecoverLogFile` replay the records of
the logs, oldest log first, and write what they hold to tables at level 0. Logs are not
reused. -/
namespace TalusDB
open List MemTable Option

/-- The variables of `Recover` that grow with the logs. -/
structure Recovery (K V : Type) [LinearOrder K] where
  nextFileNumber : Nat
  maxSequence : Nat := 0
  edit : VersionEdit K V := {}

section
variable {K V : Type} [LinearOrder K]

def markFileNumberUsed (nextFileNumber number : Nat) : Nat :=
  if nextFileNumber ≤ number then number + 1 else nextFileNumber

namespace Recovery

/-- `WriteLevel0Table` without a base version. -/
def flush (options : Options K V) (r : Recovery K V) (mem : List (Entry K V)) :
    Option (Recovery K V) :=
  (writeLevel0Table options r.nextFileNumber mem r.edit none).map fun edit =>
    { r with nextFileNumber := r.nextFileNumber + 1, edit }

/-- The loop of `RecoverLogFile` over the records; `full` tells when a memtable has grown
over `write_buffer_size`. -/
def records [Inhabited V] (options : Options K V) (full : List (Entry K V) → Bool) :
    Recovery K V → Option (List (Entry K V)) → List (LogRecord K V) →
      Option (Recovery K V × Option (List (Entry K V)))
  | r, mem, [] => some (r, mem)
  | r, mem, record :: rest =>
    let mem := insertInto record.sequence record.ops (mem.getD [])
    let r := { r with maxSequence := max r.maxSequence (record.sequence + record.ops.length - 1) }
    if full mem then (r.flush options mem).bind (records options full · none rest)
    else records options full r (some mem) rest

/-- `RecoverLogFile`, and `MarkFileNumberUsed` for the log. -/
def logFile [Inhabited V] (options : Options K V) (full : List (Entry K V) → Bool)
    (r : Recovery K V) (log : Nat × List (LogRecord K V)) : Option (Recovery K V) := do
  let (r, mem) ← r.records options full none log.2
  let r ← mem.elim (some r) (r.flush options)
  some { r with nextFileNumber := markFileNumberUsed r.nextFileNumber log.1 }

def logFiles [Inhabited V] (options : Options K V) (full : List (Entry K V) → Bool) :
    Recovery K V → List (Nat × List (LogRecord K V)) → Option (Recovery K V)
  | r, [] => some r
  | r, log :: rest => (r.logFile options full log).bind (logFiles options full · rest)

end Recovery

/-- `DBImpl::Recover` and the rest of `DB::Open`, from the version, the next file number and
the last sequence number of the manifest and from the logs that are not older than the
manifest's log number. -/
def DBState.recover [Inhabited V] (options : Options K V) (full : List (Entry K V) → Bool)
    (current : Version K V) (nextFileNumber lastSequence : Nat)
    (logs : List (Nat × List (LogRecord K V))) : Option (DBState K V) :=
  (Recovery.logFiles options full { nextFileNumber }
    (logs.insertionSort fun log log' => log.1 ≤ log'.1)).map fun r =>
    { DBState.initial (r.nextFileNumber + 1) with
      current := current.logAndApply r.edit
      lastSequence := max lastSequence r.maxSequence }

end

namespace Recovery
variable {K V : Type} [LinearOrder K] (options : Options K V) (full : List (Entry K V) → Bool)
  {r r' : Recovery K V} {first : Nat} {done held todo : List (Entry K V)}

/-- The tables made so far of the entries `done`, which stand in the order of their sequence
numbers. -/
structure Tables (first : Nat) (done : List (Entry K V)) (r : Recovery K V)
    (files : List (FileMetaData K V)) : Prop where
  edit : r.edit = { newFiles := files.map (0, ·) }
  numbers : files.Pairwise fun f g => f.number < g.number
  range : first ≤ r.nextFileNumber ∧ ∀ f ∈ files, first ≤ f.number ∧ f.number < r.nextFileNumber
  ages : files.Pairwise fun f g => ∀ a ∈ f.entries, ∀ b ∈ g.entries, a.sequence < b.sequence
  entries : ∀ e, (∃ f ∈ files, e ∈ f.entries) ↔ e ∈ done

/-- The memtable holds these entries. -/
structure Holds (mem held : List (Entry K V)) : Prop where
  sorted : mem.Pairwise fun a b => a.key < b.key
  entries : ∀ e, e ∈ mem ↔ e ∈ held

variable {files : List (FileMetaData K V)} {mem : List (Entry K V)}

theorem flush_tables (tables : Tables first done r files) (holds : Holds mem held)
    (later : ∀ a ∈ done, ∀ b ∈ held, a.sequence < b.sequence)
    (inRange : ∀ e ∈ held, e.sequence ≤ kMaxSequenceNumber) :
    ∃ r' files', r.flush options mem = some r' ∧ Tables first (done ++ held) r' files' := by
  by_cases empty : mem = []
  · have none : held = [] := by
      rw [eq_nil_iff_forall_not_mem]
      intro e inside
      rw [← holds.entries, empty] at inside
      cases inside
    refine ⟨{ r with nextFileNumber := r.nextFileNumber + 1 }, files, by
      simp [flush, writeLevel0Table, empty], ?_⟩
    rw [none, append_nil]
    exact { tables with
      range := ⟨tables.range.1.trans (Nat.le_succ _), fun f mem =>
        ⟨(tables.range.2 f mem).1, (tables.range.2 f mem).2.trans (Nat.lt_succ_self _)⟩⟩ }
  · obtain ⟨f, built⟩ := build_isSome empty holds.sorted
      (fun e inside => inRange e ((holds.entries e).mp inside)) r.nextFileNumber
      (options.tableSize mem)
    obtain ⟨number, isMem, -⟩ := build_spec built
    refine ⟨{ r with nextFileNumber := r.nextFileNumber + 1, edit := r.edit.addFile 0 f },
      files ++ [f], by simp [flush, writeLevel0Table, empty, built], ?_, ?_, ?_, ?_, ?_⟩
    · simp [VersionEdit.addFile, tables.edit]
    · refine pairwise_append.mpr ⟨tables.numbers, pairwise_singleton _ _, ?_⟩
      intro g inG h inH
      rw [mem_singleton.mp inH, number]
      exact (tables.range.2 g inG).2
    · refine ⟨tables.range.1.trans (Nat.le_succ _), fun g mem => ?_⟩
      obtain mem | mem := mem_append.mp mem
      · exact ⟨(tables.range.2 g mem).1, (tables.range.2 g mem).2.trans (Nat.lt_succ_self _)⟩
      · rw [mem_singleton.mp mem, number]
        exact ⟨tables.range.1, Nat.lt_succ_self _⟩
    · refine pairwise_append.mpr ⟨tables.ages, pairwise_singleton _ _, ?_⟩
      intro g inG h inH a inA b inB
      rw [mem_singleton.mp inH, isMem] at inB
      exact later a ((tables.entries a).mp ⟨g, inG, inA⟩) b ((holds.entries b).mp inB)
    · intro e
      rw [mem_append, ← tables.entries, ← holds.entries, ← isMem]
      simp only [mem_append, mem_singleton]
      grind

variable [Inhabited V]

/-- The entries of the records, in the order of their sequence numbers. -/
def entriesOf (records : List (LogRecord K V)) : List (Entry K V) :=
  records.flatMap fun record => numbered record.sequence record.ops

theorem insert_holds (holds : Holds mem held) (record : LogRecord K V)
    (later : ∀ a ∈ held, ∀ b ∈ numbered record.sequence record.ops,
      a.sequence < b.sequence) :
    Holds (insertInto record.sequence record.ops mem)
      (held ++ numbered record.sequence record.ops) where
  sorted := foldl_add_sorted holds.sorted (numbered_increasing _ _)
    fun e new x old => later x ((holds.entries x).mp old) e new
  entries e := by
    rw [insertInto, mem_foldl_add, mem_append, holds.entries, or_comm]

variable (tables : Tables first done r files)
include tables

theorem records_tables {mem : Option (List (Entry K V))} {log : List (LogRecord K V)}
    (holds : Holds (mem.getD []) held)
    (increasing : (done ++ held ++ entriesOf log).Pairwise fun a b => a.sequence < b.sequence)
    (inRange : ∀ e ∈ done ++ held ++ entriesOf log, e.sequence ≤ kMaxSequenceNumber)
    (covered : ∀ e ∈ done ++ held, e.sequence ≤ r.maxSequence) :
    ∃ r' mem' files' done' held', r.records options full mem log = some (r', mem') ∧
      Tables first done' r' files' ∧ Holds (mem'.getD []) held' ∧
      done' ++ held' = done ++ held ++ entriesOf log ∧
      ∀ e ∈ done' ++ held', e.sequence ≤ r'.maxSequence := by
  induction log generalizing r mem files done held with
  | nil => exact ⟨r, mem, files, done, held, rfl, tables, holds, by simp [entriesOf], covered⟩
  | cons record rest ih =>
    set new := numbered record.sequence record.ops with isNew
    have split : done ++ held ++ entriesOf (record :: rest) =
        done ++ (held ++ new) ++ entriesOf rest := by
      simp [entriesOf, isNew]
    rw [split] at increasing inRange ⊢
    obtain ⟨sofar, -, -⟩ := pairwise_append.mp increasing
    obtain ⟨-, inMem, later⟩ := pairwise_append.mp sofar
    have holds' := insert_holds holds record (pairwise_append.mp inMem).2.2
    obtain ⟨r₁, isR₁⟩ : ∃ r₁ : Recovery K V, r₁ = { r with
      maxSequence := max r.maxSequence (record.sequence + record.ops.length - 1) } := ⟨_, rfl⟩
    have tables' : Tables first done r₁ files := isR₁ ▸ { tables with }
    have covered' : ∀ e ∈ done ++ (held ++ new), e.sequence ≤ r₁.maxSequence := by
      intro e inside
      rw [← append_assoc, mem_append] at inside
      rw [isR₁]
      obtain old | new := inside
      · exact (covered e old).trans (le_max_left _ _)
      · have bound := (numbered_spec e new).2
        exact le_max_of_le_right (by omega)
    rw [records, ← isR₁]
    split
    case isFalse => exact ih tables' holds' increasing inRange covered'
    case isTrue =>
      obtain ⟨r₂, files₂, flushed, tables₂⟩ := flush_tables options tables' holds' later
        fun e inside => inRange e (mem_append_left _ (mem_append_right _ inside))
      have same : r₂.maxSequence = r₁.maxSequence := by
        obtain ⟨edit, -, rfl⟩ := map_eq_some_iff.mp flushed
        rfl
      simp only [flushed, bind_some]
      have none : Holds ((none : Option (List (Entry K V))).getD []) [] := ⟨.nil, by simp⟩
      have more := ih tables₂ none (by simpa using increasing) (by simpa using inRange)
        (by simpa [same] using covered')
      simpa using more

theorem logFile_tables {log : Nat × List (LogRecord K V)}
    (increasing : (done ++ entriesOf log.2).Pairwise fun a b => a.sequence < b.sequence)
    (inRange : ∀ e ∈ done ++ entriesOf log.2, e.sequence ≤ kMaxSequenceNumber)
    (covered : ∀ e ∈ done, e.sequence ≤ r.maxSequence) :
    ∃ r' files', r.logFile options full log = some r' ∧
      Tables first (done ++ entriesOf log.2) r' files' ∧
      ∀ e ∈ done ++ entriesOf log.2, e.sequence ≤ r'.maxSequence := by
  have none : Holds ((none : Option (List (Entry K V))).getD []) [] := ⟨.nil, by simp⟩
  obtain ⟨r₁, mem, files₁, done₁, held₁, ran, tables₁, holds₁, all, covered₁⟩ :=
    records_tables options full tables none (by simpa using increasing)
      (by simpa using inRange) (by simpa using covered)
  rw [append_nil] at all
  have finish : ∃ r₂ files₂, mem.elim (some r₁) (r₁.flush options) = some r₂ ∧
      Tables first (done ++ entriesOf log.2) r₂ files₂ ∧ r₂.maxSequence = r₁.maxSequence := by
    cases mem with
    | none =>
      have empty : held₁ = [] := eq_nil_iff_forall_not_mem.mpr fun e inside =>
        absurd ((holds₁.entries e).mpr inside) (by simp)
      rw [empty, append_nil] at all
      exact ⟨r₁, files₁, rfl, all ▸ tables₁, rfl⟩
    | some mem =>
      rw [← all] at increasing inRange ⊢
      obtain ⟨-, -, later⟩ := pairwise_append.mp increasing
      obtain ⟨r₂, files₂, flushed, tables₂⟩ := flush_tables options tables₁ holds₁ later
        fun e inside => inRange e (mem_append_right _ inside)
      refine ⟨r₂, files₂, flushed, tables₂, ?_⟩
      obtain ⟨edit, -, rfl⟩ := map_eq_some_iff.mp flushed
      rfl
  obtain ⟨r₂, files₂, finished, tables₂, same⟩ := finish
  have more : r₂.nextFileNumber ≤ markFileNumberUsed r₂.nextFileNumber log.1 := by
    rw [markFileNumberUsed]
    split <;> omega
  refine ⟨{ r₂ with nextFileNumber := markFileNumberUsed r₂.nextFileNumber log.1 }, files₂, ?_,
    { tables₂ with
      range := ⟨tables₂.range.1.trans more, fun f mem =>
        ⟨(tables₂.range.2 f mem).1, (tables₂.range.2 f mem).2.trans_le more⟩⟩ }, ?_⟩
  · simp only [logFile, ran, bind_eq_bind, bind_some, finished]
  · rw [all] at covered₁
    simpa only [same] using covered₁

theorem logFiles_tables {logs : List (Nat × List (LogRecord K V))}
    (increasing : (done ++ logs.flatMap fun log => entriesOf log.2).Pairwise
      fun a b => a.sequence < b.sequence)
    (inRange : ∀ e ∈ done ++ logs.flatMap fun log => entriesOf log.2,
      e.sequence ≤ kMaxSequenceNumber)
    (covered : ∀ e ∈ done, e.sequence ≤ r.maxSequence) :
    ∃ r' files', logFiles options full r logs = some r' ∧
      Tables first (done ++ logs.flatMap fun log => entriesOf log.2) r' files' ∧
      ∀ e ∈ done ++ logs.flatMap fun log => entriesOf log.2, e.sequence ≤ r'.maxSequence := by
  induction logs generalizing r files done with
  | nil => exact ⟨r, files, rfl, by simpa using tables, by simpa using covered⟩
  | cons log rest ih =>
    rw [flatMap_cons, ← append_assoc] at increasing inRange ⊢
    obtain ⟨r₁, files₁, ran, tables₁, covered₁⟩ := logFile_tables options full
      tables (pairwise_append.mp increasing).1
      (fun e inside => inRange e (mem_append_left _ inside)) covered
    obtain ⟨r₂, files₂, went, rest⟩ := ih tables₁ increasing inRange covered₁
    exact ⟨r₂, files₂, by rw [logFiles, ran, bind_some, went], rest⟩

end Recovery
end TalusDB
