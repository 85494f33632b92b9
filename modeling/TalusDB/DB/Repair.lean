import TalusDB.DB.DisjointRuns
import TalusDB.DB.Get
import TalusDB.DB.Manifest

/-! `RepairDB`: the logs become tables, and a new manifest puts every table at level 0,
where a read takes the file number for the age. -/
namespace TalusDB
open List Function Multiversion Builder VersionSet MemTable
open Recovery (Holds entriesOf insert_holds)
variable {K V : Type}

/-- A table as it stands in the directory. -/
structure TableFile (K V : Type) where
  number : Nat
  fileSize : Nat
  entries : List (Entry K V)

/-- The files that `GetChildren` lists, in its order: tables, logs with what can be read of
them, and the numbers of other files. Old descriptors are put away. -/
structure Directory (K V : Type) where
  tables : List (TableFile K V)
  logs : List (Nat × List (LogRecord K V)) := []
  others : List Nat := []

/-- The next file number after `FindFiles`. -/
def Directory.nextFileNumber (dir : Directory K V) : Nat :=
  (dir.tables.map (·.number) ++ dir.logs.map (·.1) ++ dir.others).foldl
    (fun next number => if next < number + 1 then number + 1 else next) 1

namespace Repairer
variable [LinearOrder K]

def readLog [Inhabited V] (log : List (LogRecord K V)) : List (Entry K V) :=
  log.foldl (fun mem record => insertInto record.sequence record.ops mem) []

/-- `ConvertLogToTable`, which leaves no table of an empty log. -/
def convertLogToTable [Inhabited V] (options : Options K V) (number : Nat)
    (log : List (LogRecord K V)) : Option (TableFile K V) :=
  if (readLog log).isEmpty then none
  else some ⟨number, options.tableSize (readLog log), readLog log⟩

/-- `ConvertLogFilesToTables`: the tables, and the next file number. -/
def convertLogFilesToTables [Inhabited V] (options : Options K V) :
    Nat → List (Nat × List (LogRecord K V)) → List (TableFile K V) × Nat
  | next, [] => ([], next)
  | next, log :: rest =>
    let later := convertLogFilesToTables options (next + 1) rest
    ((convertLogToTable options next log.2).toList ++ later.1, later.2)

/-- `ScanTable` on a table without damage. None for a table that no builder has made. -/
def scanTable (table : TableFile K V) : Option (FileMetaData K V) :=
  FileMetaData.build table.number table.fileSize table.entries

def maxSequence (tables : List (FileMetaData K V)) : Nat :=
  (tables.flatMap fun table => table.entries.map Entry.sequence).foldl max 0

def writeDescriptor (comparator : String) (nextFileNumber : Nat)
    (tables : List (FileMetaData K V)) : Manifest K V where
  number := 1
  records := [{ comparator := some comparator, logNumber := some 0
                nextFileNumber := some nextFileNumber
                lastSequence := some (maxSequence tables)
                newFiles := tables.map (0, ·) }]

end Repairer

section
open Repairer
variable [LinearOrder K] [Inhabited V]

/-- `RepairDB`: the manifest that it leaves. -/
def repairDB (comparator : String) (options : Options K V) (dir : Directory K V) :
    Option (Manifest K V) :=
  let converted := convertLogFilesToTables options dir.nextFileNumber dir.logs
  ((dir.tables ++ converted.1).mapM scanTable).map (writeDescriptor comparator converted.2)

/-- `DB::Open` after the repair, which has put the logs away. -/
def openRepaired (comparator : String) (options : Options K V) (dir : Directory K V) :
    Option (DBState K V) := do
  let manifest ← repairDB comparator options dir
  let set ← (recover comparator manifest false).toOption
  DBState.recover options (fun _ => false) set.current set.nextFileNumber set.lastSequence []

end

section
variable [LinearOrder K]

/-- The newest entry of the key. -/
def newestOf (entries : List (Entry K V)) (userKey : K) : Option (Entry K V) :=
  newest Entry.userKey Entry.sequence entries userKey kMaxSequenceNumber

variable [Inhabited V]

namespace Directory

/-- The entries of the files: those of the logs from the last one listed on, then those of
the tables from the highest number down. -/
def sources (dir : Directory K V) : List (List (Entry K V)) :=
  dir.logs.reverse.map (fun log => entriesOf log.2) ++
    (dir.tables.insertionSort fun t u => u.number ≤ t.number).map (·.entries)

/-- The first of the sources that has the key answers like all of them together. -/
def InAgeOrder (dir : Directory K V) (userKey : K) : Prop :=
  (dir.sources.findSome? (newestOf · userKey)).bind Entry.read =
    (newestOf dir.sources.flatten userKey).bind Entry.read

/-- The files are whole, as the database has left them. -/
structure Undamaged (dir : Directory K V) : Prop where
  tables : ∀ t ∈ dir.tables, t.entries ≠ [] ∧ t.entries.Pairwise fun a b => a.key < b.key
  numbers : (dir.tables.map (·.number)).Nodup
  logs : ∀ log ∈ dir.logs, (entriesOf log.2).Pairwise fun a b => a.sequence < b.sequence
  inRange : ∀ e ∈ dir.sources.flatten, e.sequence ≤ kMaxSequenceNumber
  unique : Multiversion.Unique Entry.userKey Entry.sequence dir.sources.flatten

end Directory
end

namespace Repairer
variable [LinearOrder K]

variable {t : TableFile K V} {log : List (LogRecord K V)}

theorem scanTable_isSome (filled : t.entries ≠ [])
    (sorted : t.entries.Pairwise fun a b => a.key < b.key)
    (inRange : ∀ e ∈ t.entries, e.sequence ≤ kMaxSequenceNumber) : (scanTable t).isSome :=
  Option.isSome_iff_exists.mpr (build_isSome filled sorted inRange t.number t.fileSize)

theorem scanTable_spec {f : FileMetaData K V} (scanned : scanTable t = some f) :
    f.number = t.number ∧ f.entries = t.entries := by
  obtain ⟨number, entries, -⟩ := build_spec scanned
  exact ⟨number, entries⟩

theorem mapM_scanTable {tables : List (TableFile K V)} (all : ∀ t ∈ tables, (scanTable t).isSome) :
    tables.mapM scanTable = some (tables.filterMap scanTable) := by
  induction tables with
  | nil => rfl
  | cons t rest ih =>
    obtain ⟨f, scanned⟩ := Option.isSome_iff_exists.mp (all t mem_cons_self)
    simp [mapM_cons, scanned, ih fun u mem => all u (mem_cons_of_mem t mem)]

variable [Inhabited V]

theorem foldl_holds {mem held : List (Entry K V)} (holds : Holds mem held)
    (increasing : (held ++ entriesOf log).Pairwise fun a b => a.sequence < b.sequence) :
    Holds (log.foldl (fun mem record => insertInto record.sequence record.ops mem) mem)
      (held ++ entriesOf log) := by
  induction log generalizing mem held with
  | nil => simpa [entriesOf] using holds
  | cons record rest ih =>
    have split : held ++ entriesOf (record :: rest) =
        held ++ numbered record.sequence record.ops ++ entriesOf rest := by
      simp [entriesOf]
    rw [split] at increasing ⊢
    have later := (pairwise_append.mp (pairwise_append.mp increasing).1).2.2
    exact ih (insert_holds holds record later) increasing

theorem readLog_holds (increasing : (entriesOf log).Pairwise fun a b => a.sequence < b.sequence) :
    Holds (readLog log) (entriesOf log) := by
  have start : Holds ([] : List (Entry K V)) [] := ⟨.nil, by simp⟩
  exact foldl_holds start increasing

variable (options : Options K V)

theorem convertLogFilesToTables_numbers (next : Nat) (logs : List (Nat × List (LogRecord K V))) :
    (convertLogFilesToTables options next logs).1.Pairwise (fun t u => t.number < u.number) ∧
      ∀ t ∈ (convertLogFilesToTables options next logs).1, next ≤ t.number := by
  induction logs generalizing next with
  | nil => exact ⟨.nil, by simp [convertLogFilesToTables]⟩
  | cons log rest ih =>
    obtain ⟨increasing, above⟩ := ih (next + 1)
    rw [convertLogFilesToTables, convertLogToTable]
    split
    · exact ⟨increasing, fun t mem => (Nat.le_succ next).trans (above t mem)⟩
    · refine ⟨.cons (fun t mem => above t mem) increasing, fun t mem => ?_⟩
      obtain rfl | mem := mem_cons.mp mem
      · exact le_rfl
      · exact (Nat.le_succ next).trans (above t mem)

theorem mem_convertLogFilesToTables {next : Nat} {logs : List (Nat × List (LogRecord K V))}
    (mem : t ∈ (convertLogFilesToTables options next logs).1) :
    t.entries ≠ [] ∧ ∃ log ∈ logs, t.entries = readLog log.2 := by
  induction logs generalizing next with
  | nil => cases mem
  | cons log rest ih =>
    obtain here | later := mem_append.mp mem
    · rw [Option.mem_toList, convertLogToTable] at here
      split at here
      · cases here
      case isFalse filled =>
        cases here
        exact ⟨by simpa using filled, log, mem_cons_self, rfl⟩
    · obtain ⟨filled, log', mem, same⟩ := ih later
      exact ⟨filled, log', mem_cons_of_mem log mem, same⟩

theorem findSome_converted (answer : List (Entry K V) → Option (Entry K V))
    (nothing : answer [] = none) (next : Nat) (logs : List (Nat × List (LogRecord K V))) :
    (convertLogFilesToTables options next logs).1.reverse.findSome? (fun t => answer t.entries) =
      logs.reverse.findSome? fun log => answer (readLog log.2) := by
  induction logs generalizing next with
  | nil => rfl
  | cons log rest ih =>
    rw [convertLogFilesToTables, reverse_append, findSome?_append, ih (next + 1),
      reverse_cons, findSome?_append, convertLogToTable]
    congr 1
    split
    case isTrue empty => simp [isEmpty_iff.mp empty, nothing]
    case isFalse => simp

end Repairer

theorem foldl_above (numbers : List Nat) (start : Nat) :
    let next := numbers.foldl (fun next number => if next < number + 1 then number + 1 else next) start
    start ≤ next ∧ ∀ n ∈ numbers, n < next := by
  induction numbers generalizing start with
  | nil => simp
  | cons number rest ih =>
    obtain ⟨first, others⟩ := ih (if start < number + 1 then number + 1 else start)
    have above : start ≤ (if start < number + 1 then number + 1 else start) ∧
        number < (if start < number + 1 then number + 1 else start) := by
      split <;> omega
    refine ⟨above.1.trans first, fun n mem => ?_⟩
    obtain rfl | mem := mem_cons.mp mem
    · exact above.2.trans_le first
    · exact others n mem

section
open Repairer
variable [LinearOrder K]

/-- The version with all of these tables at level 0. -/
def allAtZero (tables : List (FileMetaData K V)) : Version K V :=
  Version.empty.logAndApply { newFiles := tables.map (0, ·) }

variable {tables : List (FileMetaData K V)} {A B : Type*} {f : A → Option B} {l : List A}

theorem mem_allAtZero (numbers : (tables.map (·.number)).Nodup) :
    ((allAtZero tables).files 0).Nodup ∧
      ∀ level f, f ∈ (allAtZero tables).files level ↔ level = 0 ∧ f ∈ tables := by
  have nodup : ({ newFiles := tables.map (0, ·) } : VersionEdit K V).adds.Nodup := by
    have pairs := numbers.map (Prod.mk_right_injective 0)
    rw [map_map] at pairs
    simpa [VersionEdit.adds, comp_def] using pairs
  have taken := Builder.Accumulates.start.step nodup (by simp)
  obtain ⟨-, -, mem, deleted⟩ := apply_adds (b := { base := .empty })
    Builder.Accumulates.start.listed nodup (by simp)
  refine ⟨(taken.ordered 0).nodup, fun level f => ?_⟩
  by_cases bound : level < kNumLevels
  · rw [allAtZero, taken.mem_files bound, mem, deleted]
    simp [eq_comm, and_comm]
  · have other : level ≠ 0 := fun zero => bound (zero ▸ by decide)
    rw [Version.shallow _ level (Nat.le_of_not_lt bound)]
    simp [other]

theorem get_allAtZero
    (descending : tables.Pairwise fun f g => g.number < f.number) {v : Version K V}
    (nodup : (v.files 0).Nodup) (isZero : ∀ level f, f ∈ v.files level ↔ level = 0 ∧ f ∈ tables)
    (userKey : K) (sequence : Nat) :
    (v.get userKey sequence).1 =
      (tables.findSome? fun f => pointRead f.entries userKey sequence).bind Entry.read := by
  have others : (range' 1 (kNumLevels - 1)).filterMap (fun level =>
      (v.levelFile userKey (.lookup userKey sequence) level).map (level, ·)) = [] := by
    refine filterMap_eq_nil_iff.mpr fun level mem => ?_
    have deep : level ≠ 0 := Nat.ne_of_gt (mem_range'_1.mp mem).1
    have empty : v.files level = [] :=
      eq_nil_iff_forall_not_mem.mpr fun f mem => deep ((isZero level f).mp mem).1
    simp [Version.levelFile, empty]
  have sorted : ((v.files 0).filter fun f =>
      f.smallest.userKey ≤ userKey && userKey ≤ f.largest.userKey).insertionSort
        (fun f g => g.number ≤ f.number) =
      tables.filter fun f => f.smallest.userKey ≤ userKey && userKey ≤ f.largest.userKey := by
    have : Std.Total fun f g : FileMetaData K V => g.number ≤ f.number :=
      ⟨fun f g => Nat.le_total g.number f.number⟩
    have : IsTrans (FileMetaData K V) fun f g => g.number ≤ f.number :=
      ⟨fun f g h le le' => le'.trans le⟩
    have distinct : tables.Nodup := descending.imp fun less same => by
      rw [same] at less
      exact Nat.lt_irrefl _ less
    have perm := (perm_insertionSort (fun f g : FileMetaData K V => g.number ≤ f.number)
      ((v.files 0).filter fun f => f.smallest.userKey ≤ userKey && userKey ≤ f.largest.userKey)).trans
      ((perm_ext_iff_of_nodup nodup distinct |>.mpr fun f => by simp [isZero]).filter _)
    refine perm.eq_of_pairwise (fun f g inF inG le le' => ?_) (pairwise_insertionSort _ _)
      ((descending.filter _).imp Nat.le_of_lt)
    by_contra different
    have apart := descending.imp (S := fun f g => f.number ≠ g.number) fun less => less.ne'
    have : Std.Symm fun f g : FileMetaData K V => f.number ≠ g.number := ⟨fun _ _ => Ne.symm⟩
    exact apart.forall (mem_of_mem_filter (perm.subset inF))
      (mem_of_mem_filter inG) different (le_antisymm le' le)
  refine (forEach_match rfl).trans ?_
  rw [Version.overlapping, others, append_nil, findSome?_map, sorted]
  congr 1
  refine Search.findSome_filter fun f mem outside => ?_
  cases found : pointRead f.entries userKey sequence with
  | none => exact found
  | some e =>
    have newest := (pointRead_answers f.sorted).newest e found
    obtain ⟨high, low⟩ := f.meets_entry newest.mem
    rw [newest.isKey] at high low
    simp [high, low] at outside

variable [Inhabited V] {dir : Directory K V}

namespace Directory.Undamaged

omit [LinearOrder K] in
theorem mem_sources {entries : List (Entry K V)} :
    entries ∈ dir.sources ↔ (∃ log ∈ dir.logs, entriesOf log.2 = entries) ∨
      ∃ t ∈ dir.tables, t.entries = entries := by
  simp [sources, (perm_insertionSort _ _).mem_iff]

/-- The tables, in the order in which a read asks them. -/
def ranked (options : Options K V) (dir : Directory K V) : List (TableFile K V) :=
  (convertLogFilesToTables options dir.nextFileNumber dir.logs).1.reverse ++
    dir.tables.insertionSort fun t u => u.number ≤ t.number

theorem ranked_perm (options : Options K V) : (ranked options dir).Perm
    (dir.tables ++ (convertLogFilesToTables options dir.nextFileNumber dir.logs).1) :=
  ((reverse_perm _).append (perm_insertionSort _ _)).trans perm_append_comm

variable (undamaged : dir.Undamaged) (options : Options K V)
include undamaged

theorem ranked_descending : (ranked options dir).Pairwise fun t u => u.number < t.number := by
  have : Std.Total fun t u : TableFile K V => u.number ≤ t.number :=
    ⟨fun t u => Nat.le_total u.number t.number⟩
  have : IsTrans (TableFile K V) fun t u => u.number ≤ t.number :=
    ⟨fun t u w le le' => le'.trans le⟩
  have perm := perm_insertionSort (fun t u : TableFile K V => u.number ≤ t.number) dir.tables
  obtain ⟨increasing, above⟩ :=
    convertLogFilesToTables_numbers options dir.nextFileNumber dir.logs
  have distinct := ((perm.map _).nodup_iff.mpr undamaged.numbers)
  rw [List.Nodup, pairwise_map] at distinct
  refine pairwise_append.mpr ⟨pairwise_reverse.mpr increasing, ?_, ?_⟩
  · refine ((pairwise_insertionSort _ _).and distinct).imp fun order => ?_
    exact lt_of_le_of_ne order.1 order.2.symm
  · intro t inT u inU
    have low := (foldl_above (dir.tables.map (·.number) ++ dir.logs.map (·.1) ++ dir.others) 1).2
      u.number (by simpa using .inl ⟨u, perm.subset inU, rfl⟩)
    exact low.trans_le (above t (mem_reverse.mp inT))

variable {t : TableFile K V}

theorem ranked_entries (mem : t ∈ ranked options dir) :
    t.entries ≠ [] ∧ (t.entries.Pairwise fun a b => a.key < b.key) ∧
      ∃ entries ∈ dir.sources, ∀ e, e ∈ t.entries ↔ e ∈ entries := by
  rw [(ranked_perm options).mem_iff, mem_append] at mem
  obtain inTables | converted := mem
  · obtain ⟨filled, sorted⟩ := undamaged.tables t inTables
    exact ⟨filled, sorted, t.entries, mem_sources.mpr (.inr ⟨t, inTables, rfl⟩), fun _ => Iff.rfl⟩
  · obtain ⟨filled, log, inLogs, same⟩ := mem_convertLogFilesToTables options converted
    have holds := readLog_holds (undamaged.logs log inLogs)
    rw [same] at filled ⊢
    exact ⟨filled, holds.sorted, _, mem_sources.mpr (.inl ⟨log, inLogs, rfl⟩), holds.entries⟩

theorem ranked_scanned (mem : t ∈ ranked options dir) : (scanTable t).isSome := by
  obtain ⟨filled, sorted, entries, inSources, same⟩ := undamaged.ranked_entries options mem
  refine scanTable_isSome filled sorted fun e inside => undamaged.inRange e ?_
  exact mem_flatten.mpr ⟨entries, inSources, (same e).mp inside⟩

theorem openRepaired_eq (comparator : String) :
    ∃ t tables, openRepaired comparator options dir = some t ∧
      tables.Perm ((ranked options dir).filterMap scanTable) ∧
      t.capture none = ⟨maxSequence tables, [], none, allAtZero tables⟩ := by
  have scanned : ∀ u ∈ dir.tables ++
      (convertLogFilesToTables options dir.nextFileNumber dir.logs).1, (scanTable u).isSome :=
    fun u mem => undamaged.ranked_scanned options ((ranked_perm options).mem_iff.mpr mem)
  obtain ⟨tables, isTables⟩ : ∃ tables, tables = (dir.tables ++
    (convertLogFilesToTables options dir.nextFileNumber dir.logs).1).filterMap scanTable := ⟨_, rfl⟩
  obtain ⟨next, isNext⟩ : ∃ next,
    next = (convertLogFilesToTables options dir.nextFileNumber dir.logs).2 := ⟨_, rfl⟩
  have repaired : repairDB comparator options dir =
      some (writeDescriptor comparator next tables) := by
    rw [repairDB, mapM_scanTable scanned, isTables, isNext, Option.map_some]
  have recovered : (recover comparator (writeDescriptor comparator next tables)
      false).toOption = some
        { nextFileNumber := next + 1
          manifestFileNumber := next
          lastSequence := maxSequence tables
          current := allAtZero tables } := by
    simp [recover, Manifest.replay, writeDescriptor, Replay.record, bind, Except.bind,
      pure, Except.pure, Except.toOption, applyPointers, allAtZero, Version.logAndApply]
  have opened : openRepaired comparator options dir = DBState.recover options (fun _ => false)
      (allAtZero tables) (next + 1) (maxSequence tables) [] := by
    simp only [openRepaired, repaired, recovered, Option.bind_eq_bind, Option.bind_some]
  refine ⟨_, tables, opened.trans rfl, isTables ▸ ((ranked_perm options).filterMap _).symm, ?_⟩
  simp [DBState.capture, logAndApply_empty, DBState.initial]

theorem pointRead_ranked {tables : List (FileMetaData K V)}
    (perm : tables.Perm ((ranked options dir).filterMap scanTable))
    (mem : t ∈ ranked options dir) (userKey : K) :
    ((scanTable t).bind fun f => pointRead f.entries userKey (maxSequence tables)) =
      newestOf t.entries userKey := by
  obtain ⟨f, scanned⟩ := Option.isSome_iff_exists.mp (undamaged.ranked_scanned options mem)
  obtain ⟨-, sorted, entries, inSources, same⟩ := undamaged.ranked_entries options mem
  have inside {e : Entry K V} (inT : e ∈ t.entries) : e ∈ dir.sources.flatten :=
    mem_flatten.mpr ⟨entries, inSources, (same e).mp inT⟩
  have inTables : f ∈ tables := perm.mem_iff.mpr (mem_filterMap.mpr ⟨t, mem, scanned⟩)
  have isEntries := (scanTable_spec scanned).2
  have below : ∀ e ∈ t.entries, e.sequence ≤ maxSequence tables := by
    intro e inT
    rw [maxSequence, foldl_eq_foldr]
    refine le_max_of_le (mem_flatMap.mpr ⟨f, inTables, ?_⟩) le_rfl
    exact mem_map_of_mem (isEntries ▸ inT)
  rw [scanned, Option.bind_some, isEntries, newestOf,
    ← newest_of_le below fun e inT => undamaged.inRange e (inside inT)]
  exact ((pointRead_answers sorted).newest_eq
    (undamaged.unique.mono fun e inT => inside inT)).symm

/-- After the repair, a read takes the answer of the first of the sources that has the key. -/
theorem get_repaired (comparator : String) : ∃ t, openRepaired comparator options dir = some t ∧
    ∀ userKey, (t.capture none).get userKey =
      (dir.sources.findSome? (newestOf · userKey)).bind Entry.read := by
  obtain ⟨t, tables, opened, perm, captured⟩ := undamaged.openRepaired_eq options comparator
  refine ⟨t, opened, fun userKey => ?_⟩
  have descending : ((ranked options dir).filterMap scanTable).Pairwise fun f g =>
      g.number < f.number := by
    refine pairwise_filterMap.mpr ((undamaged.ranked_descending options).imp ?_)
    intro t u less f isF g isG
    rwa [(scanTable_spec isF).1, (scanTable_spec isG).1]
  have numbers : (tables.map (·.number)).Nodup :=
    (perm.map _).nodup_iff.mpr (pairwise_map.mpr (descending.imp fun less => less.ne'))
  obtain ⟨nodup, isZero⟩ := mem_allAtZero numbers
  have read := get_allAtZero descending nodup
    (fun level f => (isZero level f).trans (and_congr_right fun _ => perm.mem_iff)) userKey
    (maxSequence tables)
  have logs : (dir.logs.reverse.findSome? fun log => newestOf (readLog log.2) userKey) =
      dir.logs.reverse.findSome? fun log => newestOf (entriesOf log.2) userKey := by
    refine Search.findSome_congr fun log mem => ?_
    have inLogs := mem_reverse.mp mem
    refine newest_congr (undamaged.unique.mono fun e inLog => ?_) fun e _ _ =>
      ((readLog_holds (undamaged.logs log inLogs)).entries e).symm
    exact mem_flatten.mpr ⟨_, mem_sources.mpr (.inl ⟨log, inLogs, rfl⟩), inLog⟩
  have nothing : newestOf ([] : List (Entry K V)) userKey = none := rfl
  rw [captured, View.get]
  simp only [MemTable.get, seek, find?_nil, Option.bind_none]
  rw [read, Search.findSome_filterMap, Search.findSome_congr fun t mem =>
    undamaged.pointRead_ranked options perm mem userKey, ranked, sources, findSome?_append,
    findSome_converted options (newestOf · userKey) nothing, logs,
    findSome?_append, findSome?_map, findSome?_map]
  rfl

end Directory.Undamaged

/-- After the repair, a read finds the newest entry of its key exactly if the files have the
ages that they are taken to have. -/
theorem repair_newest_iff (undamaged : dir.Undamaged) (comparator : String)
    (options : Options K V) : ∃ t, openRepaired comparator options dir = some t ∧
      ∀ userKey, ((t.capture none).get userKey =
        (newestOf dir.sources.flatten userKey).bind Entry.read ↔ dir.InAgeOrder userKey) := by
  obtain ⟨t, opened, gets⟩ := undamaged.get_repaired options comparator
  refine ⟨t, opened, fun userKey => ?_⟩
  rw [gets, Directory.InAgeOrder]

end

/-- A table with one entry of the key 0, and a log with a later one. -/
def tableAndLog : Directory Nat Nat where
  tables := [⟨5, 50, [⟨⟨0, 1, .value⟩, 10⟩]⟩]
  logs := [(4, [{ sequence := 2, ops := [.put 0 20] }])]

theorem repair_newest_tableAndLog : ∃ t, openRepaired "" exampleOptions tableAndLog = some t ∧
      ((t.capture none).get 0 =
        (newestOf tableAndLog.sources.flatten 0).bind Entry.read ↔ tableAndLog.InAgeOrder 0) := by
  have undamaged : tableAndLog.Undamaged := ⟨by decide +kernel, by decide +kernel, by decide +kernel,
    by decide +kernel, by unfold Multiversion.Unique; decide +kernel⟩
  obtain ⟨t, opened, reads⟩ := repair_newest_iff undamaged "" exampleOptions
  exact ⟨t, opened, reads 0⟩

/-- Three versions of the key 0 are flushed to levels 2, 1 and 0, and the two older ones are
compacted. -/
def overwrites : List (Action Nat Nat) :=
  [.write [.put 0 1], .switchMemTable, .compactMemTable,
    .write [.put 0 2], .switchMemTable, .compactMemTable,
    .write [.put 0 3], .switchMemTable, .compactMemTable,
    .compactRange 1 none none, .compactionRound, .compactionRound, .installCompaction]

/-- The tables of the state, in a directory without logs. -/
def DBState.directory (s : DBState Nat Nat) : Directory Nat Nat where
  tables := (List.range kNumLevels).flatMap fun level =>
    (s.current.files level).map fun f => ⟨f.number, f.fileSize, f.entries⟩

/-- The compaction's output has the highest number but an older value. -/
theorem repair_older_value :
    ∃ s t, DBState.run exampleOptions (fun _ _ => true) (.initial 2) overwrites = some s ∧
      openRepaired "" exampleOptions s.directory = some t ∧
      (s.capture none).get 0 = some 3 ∧ (t.capture none).get 0 = some 2 ∧
      (newestOf s.directory.sources.flatten 0).bind Entry.read = some 3 := by
  have older : (DBState.run exampleOptions (fun _ _ => true) (.initial 2) overwrites).any (fun s =>
      (openRepaired "" exampleOptions s.directory).any fun t =>
        (s.capture none).get 0 = some 3 ∧ (t.capture none).get 0 = some 2 ∧
          (newestOf s.directory.sources.flatten 0).bind Entry.read = some 3) = true := by
    decide +kernel
  obtain ⟨s, ran, older⟩ := (Option.any_eq_true _ _).mp older
  obtain ⟨t, opened, older⟩ := (Option.any_eq_true _ _).mp older
  exact ⟨s, t, ran, opened, of_decide_eq_true older⟩

end TalusDB
