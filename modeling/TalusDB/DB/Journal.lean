import TalusDB.DB.Foreground
import TalusDB.DB.Keeps

/-! What is in the logs of an open database: the entries of the log that is written are in
`mem_` or will be, those of the log before it are in `imm_`, and other logs that recovery would
read hold nothing. -/
namespace TalusDB
open AList Option
open Recovery (entriesOf)
variable {K V : Type} [LinearOrder K]

/-- The logs and what the writers know of them. -/
structure Journal (K V : Type) where
  logs : Files (List (LogRecord K V))
  memtables : Nat → List (Entry K V)
  logfileNumber : Nat
  imm : Option Nat
  writing : Option (Writing K V)
  nextFileNumber : Nat
  opened : Bool

def Impl.journal (s : Impl K V) : Journal K V where
  logs := s.files.logs
  memtables := s.memtables
  logfileNumber := s.logfileNumber
  imm := s.imm
  writing := s.writing
  nextFileNumber := s.set.nextFileNumber
  opened := s.opened

namespace Journal

/-- `least` is the number of the first log that recovery would read. -/
structure Covers [Inhabited V] (j : Journal K V) (least : Nat) : Prop where
  reached : least ≤ j.logfileNumber
  positive : 0 < j.logfileNumber
  below : j.logfileNumber < j.nextFileNumber
  keys : ∀ n ∈ j.logs, n < j.nextFileNumber
  mem : ∀ records, j.logs.lookup j.logfileNumber = some records → ∀ e ∈ entriesOf records,
    e ∈ j.memtables j.logfileNumber ∨ ∃ w ∈ j.writing, e ∈ w.todo
  imm : ∀ m ∈ j.imm, m < j.logfileNumber ∧ ∀ records, j.logs.lookup m = some records →
    ∀ e ∈ entriesOf records, e ∈ j.memtables m
  others : ∀ n records, j.logs.lookup n = some records → least ≤ n → n ≠ j.logfileNumber →
    j.imm ≠ some n → entriesOf records = []

inductive Step [Inhabited V] (j : Journal K V) : Journal K V → Prop where
  | quiet : Step j j
  | log (records : List (LogRecord K V)) (record : LogRecord K V) (last : Nat)
      (found : j.logs.lookup j.logfileNumber = some records) (isOpen : j.opened = true)
      (free : j.writing = none) :
      Step j { j with
        logs := j.logs.insert j.logfileNumber (records ++ [record])
        writing := some ⟨entriesOf [record], last⟩ }
  | insert (e : Entry K V) (rest : List (Entry K V)) (last : Nat)
      (busy : j.writing = some ⟨e :: rest, last⟩) :
      Step j { j with
        memtables := Function.update j.memtables j.logfileNumber
          (MemTable.add (j.memtables j.logfileNumber) e)
        writing := some ⟨rest, last⟩ }
  | finish (last : Nat) (done : j.writing = some ⟨[], last⟩) : Step j { j with writing := none }
  | switch (isOpen : j.opened = true) (free : j.writing = none) (flushed : j.imm = none) :
      Step j { j with
        logs := j.logs.insert j.nextFileNumber []
        memtables := Function.update j.memtables j.nextFileNumber []
        logfileNumber := j.nextFileNumber
        imm := some j.logfileNumber
        nextFileNumber := j.nextFileNumber + 1 }

variable [Inhabited V] {j j' : Journal K V} {least : Nat}

omit [LinearOrder K] in
theorem Covers.later (covers : j.Covers least) {next : Nat} (later : j.nextFileNumber ≤ next) :
    { j with nextFileNumber := next }.Covers least :=
  { covers with
    below := covers.below.trans_le later
    keys := fun n mem => (covers.keys n mem).trans_le later }

omit [LinearOrder K] in
theorem entriesOf_append (records records' : List (LogRecord K V)) :
    entriesOf (records ++ records') = entriesOf records ++ entriesOf records' :=
  List.flatMap_append

omit [LinearOrder K] in
theorem Covers.raise (covers : j.Covers least) {least' : Nat} (higher : least ≤ least')
    (reached : least' ≤ j.logfileNumber) : j.Covers least' :=
  { covers with
    reached
    others := fun n records found high => covers.others n records found (higher.trans high) }

omit [LinearOrder K] in
theorem Covers.remove (covers : j.Covers least) {logs : Files (List (LogRecord K V))}
    (fewer : ∀ n records, logs.lookup n = some records → j.logs.lookup n = some records) :
    { j with logs }.Covers least where
  reached := covers.reached
  positive := covers.positive
  below := covers.below
  keys n mem := by
    obtain ⟨records, found⟩ := isSome_iff_exists.mp (lookup_isSome.mpr mem)
    exact covers.keys n (lookup_isSome.mp (by simp [fewer n records found]))
  mem records found := covers.mem records (fewer _ _ found)
  imm m isImm := ⟨(covers.imm m isImm).1, fun records found =>
    (covers.imm m isImm).2 records (fewer _ _ found)⟩
  others n records found := covers.others n records (fewer _ _ found)

theorem Covers.step (covers : j.Covers least) (stepped : Step j j') : j'.Covers least := by
  cases stepped with
  | quiet => exact covers
  | log records record last found isOpen free =>
    have other {n : Nat} (different : n ≠ j.logfileNumber) :
        (j.logs.insert j.logfileNumber (records ++ [record])).lookup n = j.logs.lookup n :=
      lookup_insert_ne different
    refine { covers with keys := ?_, mem := ?_, imm := ?_, others := ?_ }
    · intro n mem
      obtain rfl | old := mem_insert _ |>.mp mem
      · exact covers.below
      · exact covers.keys n old
    · intro records' found' e inside
      rw [lookup_insert] at found'
      cases found'
      rw [entriesOf_append] at inside
      obtain old | new := List.mem_append.mp inside
      · obtain stored | ⟨w, writing, -⟩ := covers.mem records found e old
        · exact .inl stored
        · simp [free] at writing
      · exact .inr ⟨_, rfl, new⟩
    · intro m isImm
      obtain ⟨before, stored⟩ := covers.imm m isImm
      refine ⟨before, fun records' found' => ?_⟩
      rw [other before.ne] at found'
      exact stored records' found'
    · intro n records' found' high different
      rw [other different] at found'
      exact covers.others n records' found' high different
  | insert e rest last busy =>
    refine { covers with mem := ?_, imm := ?_ }
    · intro records found x inside
      simp only [Function.update_self]
      obtain stored | ⟨w, writing, todo⟩ := covers.mem records found x inside
      · exact .inl (MemTable.mem_add.mpr (.inr stored))
      · rw [busy] at writing
        cases writing
        obtain rfl | todo := List.mem_cons.mp todo
        · exact .inl (MemTable.mem_add.mpr (.inl rfl))
        · exact .inr ⟨_, rfl, todo⟩
    · intro m isImm
      obtain ⟨before, stored⟩ := covers.imm m isImm
      refine ⟨before, fun records found x inside => ?_⟩
      simp only [Function.update_of_ne before.ne]
      exact stored records found x inside
  | finish last done =>
    refine { covers with mem := fun records found e inside => ?_ }
    obtain stored | ⟨w, writing, todo⟩ := covers.mem records found e inside
    · exact .inl stored
    · rw [done] at writing
      cases writing
      cases todo
  | switch isOpen free flushed =>
    have other {n : Nat} (different : n ≠ j.nextFileNumber) :
        (j.logs.insert j.nextFileNumber []).lookup n = j.logs.lookup n :=
      lookup_insert_ne different
    constructor
    · exact covers.reached.trans covers.below.le
    · exact covers.positive.trans covers.below
    · exact Nat.lt_succ_self _
    · intro n mem
      obtain rfl | old := mem_insert _ |>.mp mem
      · exact Nat.lt_succ_self _
      · exact (covers.keys n old).trans (Nat.lt_succ_self _)
    · intro records found e inside
      rw [lookup_insert] at found
      cases found
      cases inside
    · intro m isImm
      cases isImm
      refine ⟨covers.below, fun records found e inside => ?_⟩
      rw [other covers.below.ne] at found
      simp only [Function.update_of_ne covers.below.ne]
      obtain stored | ⟨w, writing, -⟩ := covers.mem records found e inside
      · exact stored
      · simp [free] at writing
    · intro n records found high different notImm
      rw [other different] at found
      refine covers.others n records found high ?_ ?_
      · exact fun same => notImm (same ▸ rfl)
      · simp [flushed]

namespace Step

theorem older (stepped : Step j j') (covers : j.Covers least) {n : Nat} (old : n < least) :
    j'.logs.lookup n = j.logs.lookup n := by
  have before : n < j.logfileNumber := old.trans_le covers.reached
  cases stepped with
  | quiet | insert | finish => rfl
  | log => exact lookup_insert_ne before.ne
  | switch => exact lookup_insert_ne (before.trans covers.below).ne

theorem keys (stepped : Step j j') (covers : j.Covers least) {n : Nat} (mem : n ∈ j'.logs) :
    least ≤ n ∨ n ∈ j.logs := by
  cases stepped with
  | quiet | insert | finish => exact .inr mem
  | log =>
    refine ((mem_insert _).mp mem).imp_left fun same => ?_
    exact same ▸ covers.reached
  | switch =>
    refine ((mem_insert _).mp mem).imp_left fun same => ?_
    exact same ▸ covers.reached.trans covers.below.le

theorem imm (stepped : Step j j') {m : Nat} (isImm : j.imm = some m) : j'.imm = some m := by
  cases stepped with
  | quiet | insert | finish | log => exact isImm
  | switch isOpen free flushed => simp [flushed] at isImm

theorem closed (stepped : Step j j') (closed : j.opened = false) (free : j.writing = none) :
    j' = j := by
  cases stepped with
  | quiet => rfl
  | log records record last found isOpen => simp [closed] at isOpen
  | insert e rest last busy => simp [free] at busy
  | finish last done => simp [free] at done
  | switch isOpen => simp [closed] at isOpen

end Step

end Journal

namespace Impl
variable {s s' : Impl K V}

theorem step_journal [Inhabited V] {config : Config K V} {a : ImplAction K V}
    (foreground : a.isForeground = true) (stepped : s.step config a = some s') :
    s.journal.Step s'.journal := by
  cases a <;> simp only [ImplAction.isForeground, Bool.false_eq_true] at foreground
  case beginWrite ops =>
    obtain ⟨records, found, stepped⟩ := bind_eq_some_iff.mp stepped
    split at stepped <;> cases stepped
    rename_i free
    simp only [Bool.and_eq_true, isNone_iff_eq_none] at free
    have logged : (entriesOf [⟨s.set.lastSequence + 1, ops, false⟩] : List (Entry K V)) =
        MemTable.numbered (s.set.lastSequence + 1) ops := by simp [entriesOf]
    simp only [← logged]
    exact .log records _ _ found free.1.1 free.1.2
  case insert =>
    simp only [step, Impl.insert] at stepped
    split at stepped <;> cases stepped
    exact .insert _ _ _ ‹_›
  case finishWrite =>
    simp only [step, finishWrite] at stepped
    split at stepped <;> cases stepped
    exact .finish _ ‹_›
  case switchMemTable =>
    simp only [step, switchMemTable] at stepped
    split at stepped <;> cases stepped
    rename_i free
    simp only [Bool.and_eq_true, isNone_iff_eq_none] at free
    exact .switch free.1.1 free.1.2 free.2
  case failSwitch =>
    cases failSwitch_eq stepped
    exact .quiet
  case release i =>
    obtain ⟨reader, -, rfl⟩ := map_eq_some_iff.mp stepped
    exact .quiet
  case updateStats level i =>
    simp only [step, updateStats] at stepped
    split at stepped
    case isFalse => cases stepped
    obtain ⟨f, -, rfl⟩ := map_eq_some_iff.mp stepped
    exact .quiet
  all_goals
    simp only [step, capture] at stepped
    split at stepped <;> cases stepped
    exact .quiet

end Impl
end TalusDB
