import TalusDB.DB.Get
import TalusDB.DB.Partition

/-! `Get` over whole runs of the database: at each sequence number that a snapshot or the present can
read at, it finds what the operations up to that number left, one after another. -/
namespace TalusDB
open List MemTable CompactionState
open Multiversion (newest newest_append)
variable {K V : Type} [LinearOrder K]

/-- What an operation leaves of a key. -/
def Op.applyTo (k : K) (found : Option V) : Op K V → Option V
  | .put key value => if key = k then some value else found
  | .delete key => if key = k then none else found

/-- The value of a key after the operations, the first of which has the sequence number 1. -/
def contents (ops : List (Op K V)) (k : K) : Option V := ops.foldl (Op.applyTo k) none

def Action.written : Action K V → List (Op K V)
  | .write ops => ops
  | _ => []

section reads
variable {A B B' : List (Entry K V)} {k : K} {q : Nat}

theorem readEntries_append (unique : UniqueEntries (A ++ B)) (unique' : UniqueEntries (A ++ B'))
    (newer : NewerEntries A B) (newer' : NewerEntries A B')
    (same : readEntries B' k q = readEntries B k q) :
    readEntries (A ++ B') k q = readEntries (A ++ B) k q := by
  rw [readEntries, readEntries, Multiversion.read, Multiversion.read,
    newest_append unique newer, newest_append unique' newer']
  cases newest Entry.userKey Entry.sequence A k q with
  | some e => rfl
  | none => exact same

variable [Inhabited V]

omit [LinearOrder K] in
theorem numbered_append (n : Nat) (ops new : List (Op K V)) :
    numbered n (ops ++ new) =
      numbered n ops ++ numbered (n + ops.length) new := by
  induction ops generalizing n with
  | nil => rfl
  | cons op ops ih =>
    rw [cons_append, numbered, ih, numbered, length_cons, Nat.add_right_comm]
    rfl

omit [LinearOrder K] in
theorem numbered_newer (ops new : List (Op K V)) :
    UniqueEntries (numbered (ops.length + 1) new ++ numbered 1 ops) ∧
      NewerEntries (numbered (ops.length + 1) new) (numbered 1 ops) := by
  refine ⟨fun a inA b inB _ => ?_, fun a inA b inB _ => ?_⟩
  · have joined {x : Entry K V}
        (mem : x ∈ numbered (ops.length + 1) new ++ numbered 1 ops) :
        x ∈ numbered 1 (ops ++ new) := by
      rw [numbered_append, Nat.add_comm 1]
      exact perm_append_comm.subset mem
    exact numbered_unique (joined inA) (joined inB)
  · have above := (numbered_spec a inA).1
    have below := (numbered_spec b inB).2
    omega

theorem readEntries_swap (ops new : List (Op K V)) :
    readEntries (numbered 1 (ops ++ new)) k q =
      readEntries (numbered (ops.length + 1) new ++ numbered 1 ops) k q := by
  rw [numbered_append, Nat.add_comm 1]
  exact readEntries_congr (numbered_newer ops new).1 (fun e _ => perm_append_comm.mem_iff) k

/-- To read the entries of the operations is to apply those that are visible. -/
theorem readEntries_numbered (ops : List (Op K V)) (k : K) (q : Nat) :
    readEntries (numbered 1 ops) k q = contents (ops.take q) k := by
  induction ops using reverseRecOn with
  | nil => rw [take_nil]; rfl
  | append_singleton ops op ih =>
    obtain ⟨unique, newer⟩ := numbered_newer ops [op]
    rw [readEntries_swap, readEntries, Multiversion.read,
      newest_append unique newer]
    by_cases seen : ops.length + 1 ≤ q
    · rw [take_of_length_le (by omega)] at ih
      rw [take_of_length_le (by rwa [length_append]), contents, foldl_concat, ← contents, ← ih,
        readEntries, Multiversion.read]
      cases op with
      | put key _ | delete key =>
        by_cases same : key = k <;> simp [newest, numbered, Op.entry,
          Op.applyTo, Entry.read, seen, same]
    · rw [take_append_of_le_length (by omega), ← ih, Multiversion.newest_eq_none_iff.mpr]
      · rfl
      · intro e mem _
        have above := (numbered_spec e mem).1
        omega

end reads

namespace DBState
variable {s s' : DBState K V} {options : Options K V} {ops : List (Op K V)} {c : Compaction K V}

/-- A snapshot, or a reader that comes later, reads at this sequence number. -/
def Visible (s : DBState K V) (q : Nat) : Prop := q ∈ s.snapshots ∨ s.lastSequence ≤ q

/-- What a running compaction relies on for reads: nothing older than its snapshot is read, and
what has come below its output level since it was chosen is newer than its inputs. -/
structure Guards (s : DBState K V) (r : Running K V) : Prop where
  smallest : ∀ q, s.Visible q → r.compact.smallestSnapshot ≤ q
  below : ∀ x ∈ r.compact.compaction.below s.current,
    x ∈ r.compact.compaction.below r.compact.compaction.inputVersion ∨
      ∀ e ∈ makeInput r.compact.compaction, e.userKey = x.userKey → e.sequence < x.sequence

/-- The database reads as the entries of the operations do. -/
structure Holds [Inhabited V] (s : DBState K V) (ops : List (Op K V)) : Prop where
  last : s.lastSequence = ops.length
  reads : ∀ q, s.Visible q → ∀ k,
    readEntries s.entries k q = readEntries (numbered 1 ops) k q
  largest : ∀ level, ∀ f ∈ s.current.files level, ∃ e ∈ f.entries, e.key = f.largest
  guards : ∀ r ∈ s.running, s.Guards r

theorem Guards.congr {r r' : Running K V} (guards : s.Guards r)
    (visible : ∀ q, s'.Visible q → s.Visible q) (current : s'.current = s.current)
    (compaction : r'.compact.compaction = r.compact.compaction)
    (smallest : r'.compact.smallestSnapshot = r.compact.smallestSnapshot) : s'.Guards r' := by
  obtain ⟨oldest, below⟩ := guards
  refine ⟨fun q sees => smallest ▸ oldest q (visible q sees), ?_⟩
  rw [current, compaction]
  exact below

variable [Inhabited V]

theorem initial_holds (nextFileNumber : Nat) : (initial nextFileNumber : DBState K V).Holds [] where
  last := rfl
  reads q _ k := by
    have none : (initial nextFileNumber : DBState K V).entries = [] := by
      simp [initial, entries, Version.entries, Version.empty, flatMap_eq_nil_iff]
    rw [none]
    rfl
  largest := by simp [initial, Version.empty]
  guards := by simp [initial]

section steps
variable (holds : s.Holds ops) (ordered : s.Ordered)
include holds ordered

/-- The steps that leave the entries alone. -/
theorem Holds.of_same (last : s'.lastSequence = s.lastSequence)
    (snapshots : ∀ q ∈ s'.snapshots, q ∈ s.snapshots ∨ q = s.lastSequence)
    (entries : ∀ e, e ∈ s.entries ↔ e ∈ s'.entries)
    (largest : ∀ level, ∀ f ∈ s'.current.files level, ∃ e ∈ f.entries, e.key = f.largest)
    (guards : (∀ q, s'.Visible q → s.Visible q) → ∀ r ∈ s'.running, s'.Guards r) :
    s'.Holds ops := by
  have visible (q : Nat) (sees : s'.Visible q) : s.Visible q := by
    obtain held | later := sees
    · exact (snapshots q held).imp_right ge_of_eq
    · exact .inr (last ▸ later)
  refine ⟨last.trans holds.last, fun q sees k => ?_, largest, guards visible⟩
  rw [readEntries_congr ordered.sound.unique fun e _ => entries e]
  exact holds.reads q (visible q sees) k

theorem write_holds {new : List (Op K V)} (wrote : s.write new = some s') :
    s'.Holds (ops ++ new) := by
  have unique' := (write_ordered ordered wrote).sound.unique
  rw [write] at wrote
  obtain ⟨-, wrote⟩ := Option.ite_none_right_eq_some.mp wrote
  cases wrote
  obtain ⟨last, reads, largest, guards⟩ := holds
  obtain ⟨unique, newer⟩ := numbered_newer ops new
  rw [← last] at unique newer
  refine ⟨by rw [length_append, ← last], fun q sees k => ?_, largest, fun r isRunning => ?_⟩
  · have mem_new (e : Entry K V) : e ∈ numbered (s.lastSequence + 1) new ++ s.entries ↔
        e ∈ DBState.entries { s with
          mem := insertInto (s.lastSequence + 1) new s.mem
          lastSequence := s.lastSequence + new.length } := by
      simp only [mem_entries, mem_append, insertInto, mem_foldl_add, or_assoc]
    rw [← readEntries_congr unique' fun e _ => (mem_new e).symm, readEntries_swap, ← last]
    refine readEntries_append unique (unique'.mono fun e => (mem_new e).mp) newer ?_
      (reads q (sees.imp_right (Nat.le_of_add_right_le ·)) k)
    intro a inA b inB _
    exact (Nat.lt_succ_of_le (ordered.sound.bounded b inB)).trans_le
      (numbered_spec a inA).1
  · exact (guards r isRunning).congr (fun q sees => sees.imp_right (Nat.le_of_add_right_le ·)) rfl
      rfl rfl

theorem compactMemTable_holds (flushed : s.compactMemTable options = some s') : s'.Holds ops := by
  obtain ⟨imm, isImm, -, ⟨rfl, rfl⟩ | ⟨file, rfl, -, last, fits, rfl⟩⟩ :=
    compactMemTable_cases ordered flushed
  · rw [logAndApply_empty]
    refine holds.of_same ordered rfl (fun q => .inl) (fun e => ?_) holds.largest
      fun visible r isRunning => (holds.guards r isRunning).congr visible rfl rfl rfl
    simp [mem_entries, setCurrent, isImm]
  · refine holds.of_same ordered rfl (fun q => .inl) (fun e => ?_) (fun level f mem => ?_)
      fun visible r isRunning =>
        ⟨fun q sees => (holds.guards r isRunning).smallest q (visible q sees), fun x mem => ?_⟩
    · simp only [mem_entries, setCurrent, isImm, fits.mem_entries, Option.getD_some,
        Option.getD_none]
      tauto
    · obtain old | ⟨-, rfl⟩ := fits.mem_files.mp mem
      · exact holds.largest level f old
      · obtain ⟨e, isLast, ends⟩ := last
        exact ⟨e, mem_of_getLast? isLast, ends⟩
    -- A flush during the compaction can go below its output level, but its entries are newer.
    · obtain ⟨level, below, f, inLevel, -, inside⟩ := mem_entriesAt.mp mem
      obtain old | ⟨-, rfl⟩ := fits.mem_files.mp inLevel
      · exact (holds.guards r isRunning).below x
          (mem_entriesAt.mpr ⟨level, below, f, old, by simp, inside⟩)
      · refine .inr fun e input user => ?_
        obtain ⟨g, mem, eIn⟩ := mem_makeInput.mp input
        obtain ⟨i, isInput⟩ := exists_isInput mem
        exact fits.newer_files ((ordered.pending r isRunning).present.mem_files isInput) x inside
          e eIn user.symm

/-- A trivial move gives the file to the next level. -/
theorem move_holds (idle : s.running = none) (picked : c.Picked s.current)
    (trivial : c.isTrivialMove options = true) :
    (s.setCurrent (s.current.logAndApply c.moveEdit)).Holds ops := by
  obtain ⟨f, inputs⟩ := isTrivialMove_inputs trivial
  have present := picked.selected.present
  have isF : f ∈ s.current.files c.level := present.first f (by simp [inputs])
  have isInput {level : Nat} {g : FileMetaData K V} :
      c.IsInput level g ↔ level = c.level ∧ g = f := by simp [Compaction.IsInput, inputs]
  have replaces := moveEdit_replaces inputs
  have files {level : Nat} {g : FileMetaData K V} :=
    @Replaces.mem_files _ _ _ _ _ _ _ _ replaces (replaces.proper (by simp) (by simp [inputs]))
      present ordered.sound.numbered picked.bound level g
  refine holds.of_same ordered rfl (fun q => .inl) (fun e => ?_) (fun level g mem => ?_)
    (by simp [setCurrent, idle])
  · rw [mem_entries, mem_entries]
    refine or_congr_right (or_congr_right ?_)
    rw [Version.mem_entries, Version.mem_entries]
    constructor
    · rintro ⟨level, g, mem, inside⟩
      by_cases moved : c.IsInput level g
      · obtain ⟨-, rfl⟩ := isInput.mp moved
        exact ⟨_, g, files.mpr (.inr ⟨rfl, mem_singleton_self g⟩), inside⟩
      · exact ⟨level, g, files.mpr (.inl ⟨mem, moved⟩), inside⟩
    · rintro ⟨level, g, mem, inside⟩
      obtain ⟨mem, -⟩ | ⟨-, moved⟩ := files.mp mem
      · exact ⟨level, g, mem, inside⟩
      · exact ⟨c.level, f, isF, mem_singleton.mp moved ▸ inside⟩
  · obtain ⟨mem, -⟩ | ⟨-, moved⟩ := files.mp mem
    · exact holds.largest level g mem
    · rw [mem_singleton.mp moved]
      exact holds.largest c.level f isF

theorem begin_holds (idle : s.running = none) (picked : c.Picked s.current) (isManual : Bool) :
    (s.begin options isManual c).Holds ops := by
  rw [begin]
  split
  case isFalse =>
    refine holds.of_same ordered rfl (fun q => .inl) (fun e => Iff.rfl) holds.largest ?_
    rintro - r ⟨⟩
    obtain ⟨newest, oldest⟩ := ordered.sound.taken.smallest_le
    refine ⟨fun q sees => sees.elim (oldest q) newest.trans, fun x mem => .inl ?_⟩
    rw [CompactionState.start, picked.version]
    exact mem
  case isTrue trivial =>
    have moved := move_holds holds ordered idle picked ((Bool.and_eq_true _ _).mp trivial).2
    exact ⟨moved.last, moved.reads, moved.largest, by simp [setCurrent, idle]⟩

theorem replaceable {r : Running K V} (kept : s.Exact) (isRunning : r ∈ s.running) :
    r.compact.compaction.Replaceable s.current s.nextFileNumber := by
  have pending := ordered.pending r isRunning
  have recent := ordered.recent.version
  refine ⟨pending.bound, pending.present, ordered.sound.numbered, recent,
    ordered.sound.version_unique, pending.above, (kept r isRunning).2.2,
    fun e input base x mem user => ?_⟩
  obtain old | newer := (holds.guards r isRunning).below x mem
  · exact isBase_below base x old user
  -- What is newer than an input cannot lie below it: levels are in order of age.
  · obtain ⟨f, isF, eIn⟩ := mem_makeInput.mp input
    obtain ⟨level, isInput⟩ := exists_isInput isF
    obtain ⟨deeper, under, g, inLevel, -, xIn⟩ := mem_entriesAt.mp mem
    have less := isInput.level_le
    have more := ((mem_deeperLevels pending.bound).mp under).1
    exact lt_asymm (newer e input user.symm) (recent.levels level deeper (by omega) f
      (pending.present.mem_files isInput) g inLevel e eIn x xIn user.symm)

theorem installCompaction_holds (kept : s.Exact)
    (installed : s.installCompaction options = some s') : s'.Holds ops := by
  obtain ⟨recent', sound', -⟩ := installCompaction_kept ordered installed
  have unique := ordered.sound.unique
  have unique' := sound'.unique
  rw [installCompaction] at installed
  obtain ⟨r, isRunning, installed⟩ := Option.bind_eq_some_iff.mp installed
  obtain ⟨ended, installed⟩ := Option.ite_none_right_eq_some.mp installed
  obtain ⟨compact, finished, installed⟩ := Option.bind_eq_some_iff.mp installed
  cases installed
  have pending := ordered.pending r isRunning
  have guards := holds.guards r isRunning
  obtain ⟨wrote, none⟩ := finishOutputFile_wrote finished
  obtain ⟨same, outputs⟩ := finish_finished pending finished
  have held : compact.outputs.flatMap (·.entries) =
      r.compact.compaction.kept r.compact.smallestSnapshot := by
    have all := wrote.written
    rw [append_nil] at all
    rw [← (kept r isRunning).1.kept, isEmpty_iff.mp ended, keepFrom, append_nil, ← all]
    simp [written, none]
  have proper := outputs.proper (same ▸ pending.present)
  have newer {v : Version K V} (first : NewerEntries s.mem v.entries)
      (second : NewerEntries (s.imm.getD []) v.entries) :
      NewerEntries (s.mem ++ s.imm.getD []) v.entries := fun a inA =>
    (mem_append.mp inA).elim (first a) (second a)
  refine ⟨holds.last, fun q sees k => ?_, fun level f mem => ?_, by simp⟩
  · rw [← holds.reads q sees k]
    simp only [DBState.entries, setCurrent, ← append_assoc] at unique unique' ⊢
    refine readEntries_append unique unique'
      (newer ordered.recent.mem_files ordered.recent.imm_files)
      (newer recent'.mem_files recent'.imm_files) ?_
    exact (replaceable holds ordered kept isRunning).installed_reads same proper held
      ((guards.smallest _ (.inr le_rfl)).trans_lt ordered.sound.inRange)
      (guards.smallest q sees) k
  · have files := ((installEdit_replaces compact).mem_files proper (same ▸ pending.present)
      ordered.sound.numbered (same ▸ pending.bound)).mp mem
    obtain ⟨old, -⟩ | ⟨-, output⟩ := files
    · exact holds.largest level f old
    · exact (wrote.tight pending.tight f output).last

theorem step_holds (kept : s.Exact) {a : Action K V}
    (stepped : s.step options a = some s') : s'.Holds (ops ++ a.written) := by
  have other (held : s'.Holds ops) : s'.Holds (ops ++ []) := by rwa [append_nil]
  have same {t : DBState K V} (visible : ∀ q, t.Visible q → s.Visible q)
      (current : t.current = s.current) : ∀ r ∈ s.running, t.Guards r :=
    fun r isRunning => (holds.guards r isRunning).congr visible current rfl rfl
  cases a with
  | write new => exact write_holds holds ordered stepped
  | installCompaction => exact other (installCompaction_holds holds ordered kept stepped)
  | compactMemTable => exact other (compactMemTable_holds holds ordered stepped)
  | compact =>
    obtain ⟨c, -, idle, picked, rfl⟩ := compact_cases ordered stepped
    exact other (begin_holds holds ordered idle picked false)
  | compactRange level begin finish =>
    obtain ⟨c, -, idle, picked, rfl⟩ := compactRange_cases ordered stepped
    exact other (begin_holds holds ordered idle picked true)
  | switchMemTable =>
    simp only [step, switchMemTable] at stepped
    obtain ⟨noImm, stepped⟩ := Option.ite_none_right_eq_some.mp stepped
    cases stepped
    refine other (holds.of_same ordered rfl (fun q => .inl) (fun e => ?_) holds.largest
      (same · rfl))
    simp [mem_entries, Option.isNone_iff_eq_none.mp noImm]
  | compactionRound =>
    simp only [step, compactionRound] at stepped
    obtain ⟨r, isRunning, stepped⟩ := Option.bind_eq_some_iff.mp stepped
    obtain ⟨⟨next, compact⟩, round, stepped⟩ := Option.bind_eq_some_iff.mp stepped
    cases stepped
    obtain ⟨e, fresh, spec, -, -⟩ := step_round round
    refine other (holds.of_same ordered rfl (fun q => .inl) (fun e => Iff.rfl) holds.largest ?_)
    intro visible r' isRunning'
    cases isRunning'
    exact (holds.guards r isRunning).congr visible rfl spec.compaction spec.snapshot
  | getSnapshot =>
    cases stepped
    refine other (holds.of_same ordered rfl (fun q held => ?_) (fun e => Iff.rfl) holds.largest
      (same · rfl))
    exact (mem_append.mp held).imp_right mem_singleton.mp
  | releaseSnapshot i =>
    cases stepped
    exact other (holds.of_same ordered rfl (fun q held => .inl (mem_of_mem_eraseIdx held))
      (fun e => Iff.rfl) holds.largest (same · rfl))
  | updateStats level i =>
    simp only [step, updateStats] at stepped
    obtain ⟨-, stepped⟩ := Option.ite_none_right_eq_some.mp stepped
    obtain ⟨f, -, rfl⟩ := Option.map_eq_some_iff.mp stepped
    exact other (holds.of_same ordered rfl (fun q => .inl) (fun e => Iff.rfl) holds.largest
      (same · rfl))

end steps

section runs
variable {actions : List (Action K V)}

theorem run_holds (ordered : s.Ordered) (clear : s.Clear) (kept : s.Exact) (holds : s.Holds ops)
    (ran : run options (notBetween options) s actions = some s') :
    s'.Ordered ∧ s'.Holds (ops ++ actions.flatMap Action.written) := by
  induction actions generalizing s ops with
  | nil =>
    cases ran
    exact ⟨ordered, by rwa [flatMap_nil, append_nil]⟩
  | cons a rest ih =>
    rw [run, Runs.run] at ran
    obtain ⟨safe, ran⟩ := Option.ite_none_right_eq_some.mp ran
    obtain ⟨t, stepped, ran⟩ := Option.bind_eq_some_iff.mp ran
    obtain ⟨ordered', clear'⟩ := step_disjoint ordered clear safe stepped
    rw [flatMap_cons, ← append_assoc]
    exact ih ordered' clear' (step_exact ordered kept stepped)
      (step_holds holds ordered kept stepped) ran

omit [Inhabited V] in
theorem Ordered.inOrder (ordered : s.Ordered) (snapshot : Option Nat) :
    (s.capture snapshot).InOrder where
  memSorted := ordered.sound.memSorted
  immSorted := ordered.sound.immSorted
  disjoint := ordered.disjoint
  numbers := (ordered.sound.numbered.nodup 0).imp_of_mem fun inF inG other same =>
    other (ordered.sound.numbered.distinct 0 _ inF 0 _ inG same).2
  mem_imm := ordered.recent.mem_imm
  mem_files := ordered.recent.mem_files
  imm_files := ordered.recent.imm_files
  recent := ordered.recent.version

/-- After every run from an empty database whose flushes stay out of the gaps of a manual
compaction, `Get` at a snapshot that is held finds what the operations before the snapshot left,
and without one what all of them left. -/
theorem get_history (options : Options K V) (nextFileNumber : Nat)
    (ran : run options (notBetween options) (initial nextFileNumber) actions = some s)
    (snapshot : Option Nat) (held : ∀ q ∈ snapshot, q ∈ s.snapshots) (userKey : K) :
    (s.capture snapshot).get userKey =
      contents ((actions.flatMap Action.written).take (snapshot.getD s.lastSequence)) userKey := by
  obtain ⟨ordered, holds⟩ := run_holds (initial_ordered nextFileNumber) (.of_idle rfl)
    (by simp [Exact, initial]) (initial_holds nextFileNumber) ran
  rw [nil_append] at holds
  obtain ⟨found, answers, isGet⟩ := (ordered.inOrder snapshot).readsNewest
    (fun level _ => holds.largest level) userKey
  have visible : s.Visible (snapshot.getD s.lastSequence) := by
    cases snapshot with
    | none => exact .inr le_rfl
    | some q => exact .inl (held q rfl)
  rw [← readEntries_numbered, ← holds.reads _ visible, isGet, readEntries, Multiversion.read]
  exact congrArg (Option.bind · _) (answers.newest_eq ordered.sound.unique).symm

end runs

/-- A table of the key 0, a snapshot, a table with its deletion, and the compaction of both. -/
def deleteAndCompact : List (Action Nat Nat) :=
  flushOf 0 ++ [.getSnapshot, .write [.delete 0], .switchMemTable, .compactMemTable,
    .compactRange 1 none none, .compactionRound, .compactionRound, .installCompaction]

theorem get_history_deleted : ∃ s : DBState Nat Nat,
    run exampleOptions (notBetween exampleOptions) (initial 2) deleteAndCompact = some s ∧
    (s.capture (some 1)).get 0 = some 0 ∧ (s.capture none).get 0 = none := by
  have reached : (run exampleOptions (notBetween exampleOptions) (initial 2) deleteAndCompact).any
      (fun s => decide (s.snapshots = [1] ∧ s.lastSequence = 2)) = true := by decide +kernel
  obtain ⟨s, ran, held⟩ := (Option.any_eq_true _ _).mp reached
  obtain ⟨snapshots, last⟩ := of_decide_eq_true held
  refine ⟨s, ran, ?_, ?_⟩
  · rw [get_history exampleOptions 2 ran (some 1) (by simp [snapshots])]
    rfl
  · rw [get_history exampleOptions 2 ran none (by simp), Option.getD_none, last]
    rfl

end DBState
end TalusDB
