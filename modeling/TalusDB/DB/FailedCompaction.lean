import TalusDB.DB.Faults
import TalusDB.DB.Obsolete

/-! A compaction that fails changes nothing: its results are not installed, none of its inputs is
removed, and the background error stops everything behind it. -/
namespace TalusDB
open List CompactionState Version Runs Function AList MergingIterator DBFiles
open Bool (and_eq_true false_eq_true)
open Option (bind_eq_some_iff isNone_iff_eq_none map_eq_some_iff)
variable {K V : Type} [LinearOrder K]

namespace Work
variable {options : Options K V} {w w' : Work K V} {next next' : Nat} {status : Option Fault}

/-- A failure that has not been met yet will be: the input keeps its status, and so does the
builder until the output is finished. -/
def Unseen (w : Work K V) : Prop :=
  w.failed = true → w.inputOk = false ∨ w.builderOk = false ∧ w.compact.builder.isSome

/-- Where the status is ok, a failure is still to be met. The outputs keep their numbers, and one
that is new has the next number. -/
structure Goes (w : Work K V) (next : Nat) (r : Result K V) : Prop where
  later : next ≤ r.1
  compaction : r.2.1.compact.compaction = w.compact.compaction
  numbers : w.compact.numbers ⊆ r.2.1.compact.numbers
  opened : r.1 ≠ next → next ∈ r.2.1.compact.numbers
  input : r.2.1.inputOk = w.inputOk
  unseen : r.2.2 = none → w.Unseen → r.2.1.Unseen

/-- A part that opens no output. -/
theorem Goes.on (compaction : w'.compact.compaction = w.compact.compaction)
    (numbers : w.compact.numbers ⊆ w'.compact.numbers) (input : w'.inputOk = w.inputOk)
    (unseen : status = none → w.Unseen → w'.Unseen) : w.Goes next (next, w', status) :=
  ⟨le_rfl, compaction, numbers, fun moved => absurd rfl moved, input, unseen⟩

theorem Goes.refl (w : Work K V) (next : Nat) : w.Goes next (next, w, none) :=
  .on rfl (fun _ => id) rfl fun _ => id

theorem Goes.trans {r : Result K V} (first : w.Goes next (next', w', none))
    (second : w'.Goes next' r) : w.Goes next r where
  later := first.later.trans second.later
  compaction := second.compaction.trans first.compaction
  numbers := List.Subset.trans first.numbers second.numbers
  opened moved := by
    by_cases same : next' = next
    · exact same ▸ second.opened (same.symm ▸ moved)
    · exact second.numbers (first.opened same)
  input := second.input.trans first.input
  unseen ok unseen := second.unseen ok (first.unseen rfl unseen)

theorem Goes.andThen {r : Option (Result K V)} {f : Nat → Work K V → Option (Result K V)}
    {last : Result K V} (first : ∀ mid, r = some mid → w.Goes next mid)
    (second : ∀ next w mid, f next w = some mid → w.Goes next mid)
    (ran : Work.andThen r f = some last) : w.Goes next last := by
  obtain ⟨⟨next', w', status⟩, isMid, rest⟩ := bind_eq_some_iff.mp ran
  have goes := first _ isMid
  dsimp only at rest
  split at rest
  · cases rest
    exact goes
  case isFalse ok =>
    obtain rfl : status = none := by simpa using ok
    exact goes.trans (second _ _ _ rest)

theorem goes_fail (fault : Fault) : w.Goes next (w.fail next fault) :=
  .on rfl (fun _ => id) rfl nofun

variable {o : Finishing} {r : Result K V} {compact : CompactionState K V}

theorem finishCompactionOutputFile_goes
    (ran : w.finishCompactionOutputFile options o next = some r) :
    w.Goes next r ∧ (r.2.2 = none → r.2.1.failed = w.failed ∧ r.2.1.compact.builder = none ∧
      (w.compact.builder.isSome → w.inputOk = true ∧ w.builderOk = true)) := by
  rw [finishCompactionOutputFile] at ran
  split at ran
  case h_1 none =>
    cases ran
    exact ⟨.refl _ _, fun _ => ⟨rfl, none, by simp [none]⟩⟩
  case h_2 number entries isBuilder =>
    split at ran
    case h_1 fault _ =>
      cases ran
      exact ⟨goes_fail fault, by simp [fail]⟩
    case h_2 fine =>
      obtain ⟨compact, finished, rfl⟩ := map_eq_some_iff.mp ran
      have both : w.inputOk = true ∧ w.builderOk = true := by
        rw [finishStatus] at fine
        split at fine
        case isTrue => cases fine
        case isFalse input =>
          split at fine
          case isTrue => cases fine
          case isFalse builder =>
            simp only [Bool.not_eq_true, Bool.not_eq_false'] at input builder
            exact ⟨input, (Bool.and_eq_true_iff.mp builder).1⟩
      simp only [finishOutputFile, isBuilder] at finished
      obtain ⟨file, built, same⟩ := bind_eq_some_iff.mp finished
      cases same
      refine ⟨.on rfl ?_ rfl fun _ unseen failed => ?_, fun _ => ⟨rfl, rfl, fun _ => both⟩⟩
      · simp [numbers, isBuilder, (build_spec built).1]
      · obtain broken | ⟨broken, -⟩ := unseen failed
        · simp [both.1] at broken
        · simp [both.2] at broken

/-- A step that leaves the outputs as they are. -/
theorem goes_same (compaction : compact.compaction = w.compact.compaction)
    (outputs : compact.outputs = w.compact.outputs) (builder : compact.builder = w.compact.builder) :
    w.Goes next (next, { w with compact }, none) :=
  .on compaction (by simp [numbers, outputs, builder]) rfl
    fun _ unseen failed => by simpa only [builder] using unseen failed

theorem Goes.of_compact (goes : { w with compact }.Goes next r)
    (compaction : compact.compaction = w.compact.compaction)
    (outputs : compact.outputs = w.compact.outputs) (builder : compact.builder = w.compact.builder) :
    w.Goes next r :=
  (goes_same compaction outputs builder).trans goes

theorem closeBefore_goes {key : InternalKey K}
    (ran : w.closeBefore options o next key = some r) : w.Goes next r := by
  rw [closeBefore] at ran
  dsimp only at ran
  split at ran
  · exact (finishCompactionOutputFile_goes ran).1.of_compact rfl rfl rfl
  · cases ran
    exact goes_same rfl rfl rfl

theorem openCompactionOutputFile_goes {newFile : Bool}
    (ran : w.openCompactionOutputFile newFile next = some r) : w.Goes next r := by
  rw [openCompactionOutputFile] at ran
  split at ran
  case h_1 =>
    cases ran
    exact .refl _ _
  case h_2 none =>
    have opened : w.Goes next (next + 1, { w with
        compact := { w.compact with builder := some (next, []) }, builderOk := true }, .none) :=
      { later := Nat.le_succ _
        compaction := rfl
        numbers := by simp [numbers, none]
        opened := fun _ => by simp [numbers]
        input := rfl
        unseen := fun _ unseen failed => .inl ((unseen failed).resolve_right (by simp [none])) }
    dsimp only at ran
    split at ran <;> cases ran
    · exact opened
    · exact opened.trans (goes_fail _)

theorem add_goes (result : Adding) (e : Entry K V) (w : Work K V) (next : Nat) :
    w.Goes next (next, w.add result e, none) := by
  rw [add]
  split
  case h_1 => exact .refl _ _
  case h_2 number entries isBuilder =>
    have numbers : w.compact.numbers ⊆
        { w.compact with builder := some (number, entries ++ [e]) }.numbers := by
      simp [numbers, isBuilder]
    dsimp only
    split
    · exact .refl _ _
    · split
      · exact .on rfl numbers rfl fun _ unseen failed =>
          (unseen failed).imp_right fun both => ⟨both.1, rfl⟩
      · exact .on rfl (fun _ => id) rfl fun _ _ _ => .inr ⟨rfl, by simp [isBuilder]⟩
      · exact .on rfl numbers rfl fun _ _ _ => .inr ⟨rfl, rfl⟩

theorem finishIfFull_goes (ran : w.finishIfFull options o next = some r) : w.Goes next r := by
  rw [finishIfFull] at ran
  split at ran
  · exact (finishCompactionOutputFile_goes ran).1
  · cases ran
    exact .refl _ _

theorem handleEntry_goes {o : Round} {e : Entry K V}
    (ran : w.handleEntry options o next e = some r) : w.Goes next r := by
  rw [handleEntry] at ran
  dsimp only at ran
  split at ran
  · cases ran
    exact goes_same rfl rfl rfl
  · refine (Goes.andThen (fun _ => openCompactionOutputFile_goes) ?_ ran).of_compact rfl rfl rfl
    intro next w mid finished
    exact (add_goes o.add e w next).trans (finishIfFull_goes finished)

theorem round_goes {o : Round} (ran : w.round options o next = some r) : w.Goes next r := by
  rw [round] at ran
  split at ran
  case h_1 => cases ran
  case h_2 e rest _ =>
    refine Goes.andThen (fun _ => closeBefore_goes) (fun next w mid entered => ?_) ran
    refine Goes.andThen (fun _ => handleEntry_goes) (fun next w mid moved => ?_) entered
    cases moved
    exact goes_same rfl rfl rfl

theorem finish_goes {shuttingDown : Bool} (ran : w.finish options shuttingDown o next = some r) :
    w.Goes next r ∧ (r.2.2 = none → w.Unseen → w.failed = false) := by
  rw [finish] at ran
  split at ran
  case isTrue =>
    cases ran
    exact ⟨goes_fail _, fun ok => by cases ok⟩
  case isFalse =>
    obtain ⟨⟨next', w', status⟩, finished, rest⟩ := bind_eq_some_iff.mp ran
    obtain ⟨goes, whole⟩ := finishCompactionOutputFile_goes finished
    dsimp only at rest
    split at rest
    case isTrue fault =>
      cases rest
      refine ⟨goes, fun ok => ?_⟩
      simp [show status = none from ok] at fault
    case isFalse fine =>
      obtain rfl : status = none := by simpa using fine
      split at rest <;> cases rest
      case isFalse => exact ⟨goes.trans (goes_fail _), fun ok => by cases ok⟩
      case isTrue input =>
        refine ⟨goes, fun _ unseen => ?_⟩
        rw [← Bool.not_eq_true]
        intro failed
        obtain broken | ⟨broken, open'⟩ := unseen failed
        · rw [← goes.input, input] at broken
          cases broken
        · obtain ⟨-, builderOk⟩ := (whole rfl).2.2 open'
          rw [builderOk] at broken
          cases broken

end Work

def IsFlush (options : Options K V) (edit : VersionEdit K V) : Prop :=
  ∃ number mem base, writeLevel0Table options number mem {} (some base) = some edit

theorem IsFlush.mem_files {options : Options K V} {edit : VersionEdit K V}
    (flush : IsFlush options edit) (v : Version K V) {level : Nat} {f : FileMetaData K V} :
    f ∈ (v.logAndApply edit).files level ↔ f ∈ v.files level ∨ (level, f) ∈ edit.newFiles := by
  obtain ⟨number, mem, base, wrote⟩ := flush
  have proper : edit.Proper ∧ edit.deletedFiles = [] ∧ ∀ a ∈ edit.newFiles, a.1 < kNumLevels := by
    obtain ⟨-, rfl⟩ | ⟨level, f, bound, -, -, rfl⟩ := writeLevel0Table_cases wrote
    · exact ⟨⟨.nil, by simp⟩, rfl, by simp⟩
    · exact ⟨⟨by simp, by simp⟩, rfl, by simpa using bound⟩
  obtain ⟨proper, deleted, levels⟩ := proper
  by_cases bound : level < kNumLevels
  · simp [proper.mem_files v bound, deleted]
  · rw [shallow _ level (not_lt.mp bound), shallow _ level (not_lt.mp bound)]
    simp only [not_mem_nil, false_or, false_iff]
    exact fun new => bound (levels _ new)

/-- Between these versions only the flushes with these edits were installed. -/
structure Flushed (options : Options K V) (v : Version K V) (edits : List (VersionEdit K V))
    (v' : Version K V) : Prop where
  flushes : ∀ edit ∈ edits, IsFlush options edit
  applied : v' = edits.foldl logAndApply v

namespace Flushed
variable {options : Options K V} {v v' : Version K V} {edits : List (VersionEdit K V)}

theorem none (options : Options K V) (v : Version K V) : Flushed options v [] v :=
  ⟨by simp, rfl⟩

theorem add (flushed : Flushed options v edits v') {edit : VersionEdit K V}
    (flush : IsFlush options edit) :
    Flushed options v (edits ++ [edit]) (v'.logAndApply edit) where
  flushes e mem := by
    obtain old | new := mem_append.mp mem
    · exact flushed.flushes e old
    · exact mem_singleton.mp new ▸ flush
  applied := by rw [foldl_append, ← flushed.applied, foldl_cons, foldl_nil]

theorem mem_files (flushed : Flushed options v edits v') {level : Nat} {f : FileMetaData K V} :
    f ∈ v'.files level ↔ f ∈ v.files level ∨ ∃ edit ∈ edits, (level, f) ∈ edit.newFiles := by
  obtain ⟨flushes, rfl⟩ := flushed
  induction edits generalizing v with
  | nil => simp
  | cons edit rest ih =>
    obtain ⟨flush, flushes⟩ := forall_mem_cons.mp flushes
    rw [foldl_cons, ih flushes, flush.mem_files, exists_mem_cons_iff, or_assoc]

end Flushed

/-- A step that picks a compaction. -/
def ImplAction.isCompaction : ImplAction K V → Bool
  | .compact | .compactRange _ _ _ => true
  | _ => false

namespace Faulty
variable [Inhabited V] {config : Config K V} {t t' t₀ : Faulty K V}

/-- What a step leaves behind of a flush that is installed, or of an output that gets a number. -/
def leaves (t : Faulty K V) (a : FaultyAction K V) (t' : Faulty K V) : List (VersionEdit K V ⊕ Nat) :=
  match a, t.impl.task with
  | .impl .install, .logging l =>
    if l.caller = .compactMemTable then [.inl l.edit.toVersionEdit] else []
  | .round _, _ =>
    if t'.impl.set.nextFileNumber = t.impl.set.nextFileNumber then []
    else [.inr t.impl.set.nextFileNumber]
  | _, _ => []

/-- The edits of the flushes that the run installs. -/
def flushes (config : Config K V) (t : Faulty K V) (actions : List (FaultyAction K V)) :
    List (VersionEdit K V) :=
  (collect (step config) leaves t actions).filterMap Sum.getLeft?

/-- The numbers that the run gives to outputs of the compaction. -/
def outputs (config : Config K V) (t : Faulty K V) (actions : List (FaultyAction K V)) : List Nat :=
  (collect (step config) leaves t actions).filterMap Sum.getRight?

/-- How far the background thread is, from the start of the compaction in `t₀` on. -/
def Stands (config : Config K V) (t₀ : Faulty K V) (seen : List (VersionEdit K V ⊕ Nat))
    (t : Faulty K V) : Prop :=
  match t.impl.task with
  | .idle => True
  | .building n _ => t₀.impl.set.nextFileNumber ≤ n
  | .removing names => ∀ n ∈ t₀.impl.set.current.fileNumbers, .table n ∉ names
  | .logging l =>
    match l.caller with
    | .compactMemTable => IsFlush config.options l.edit.toVersionEdit ∧
        l.version = t.impl.set.current.logAndApply l.edit.toVersionEdit
    | .compaction outputs => t.failed = false ∧ seen.filterMap Sum.getRight? ⊆ outputs
    | _ => False
  | _ => False

/-- The files that the version had at the start of the compaction are still there. -/
def Keeps (t₀ t : Faulty K V) : Prop :=
  ∀ n ∈ t₀.impl.set.current.fileNumbers, n ∈ t₀.impl.files.tables → n ∈ t.impl.files.tables

/-- While the compaction that started in `t₀` runs, when this has been left behind. -/
structure During (config : Config K V) (t₀ : Faulty K V) (seen : List (VersionEdit K V ⊕ Nat))
    (t : Faulty K V) : Prop where
  pinned : t.impl.Pinned
  running : t.impl.running.isSome
  input : ∃ id, t.impl.inputVersion = some (id, t₀.impl.set.current)
  flushed : Flushed config.options t₀.impl.set.current (seen.filterMap Sum.getLeft?)
    t.impl.set.current
  outputs : ∀ r ∈ t.impl.running, seen.filterMap Sum.getRight? ⊆ r.compact.numbers
  keeps : Keeps t₀ t
  below : ∀ n ∈ t₀.impl.set.current.fileNumbers, n < t₀.impl.set.nextFileNumber
  later : t₀.impl.set.nextFileNumber ≤ t.impl.set.nextFileNumber
  stands : Stands config t₀ seen t
  unseen : ∀ r ∈ t.impl.running, (t.work r).Unseen

/-- When the compaction has failed. -/
structure Stopped (config : Config K V) (t₀ : Faulty K V) (seen : List (VersionEdit K V ⊕ Nat))
    (t : Faulty K V) : Prop where
  running : t.impl.running = none
  idle : t.impl.task = .idle
  error : t.bgError.isSome
  flushed : Flushed config.options t₀.impl.set.current (seen.filterMap Sum.getLeft?)
    t.impl.set.current
  keeps : Keeps t₀ t
  cleaned : ∀ n ∈ seen.filterMap Sum.getRight?, n ∉ t.impl.pendingOutputs

/-- What a step of the compaction may lead to. -/
inductive Comes (config : Config K V) (t₀ : Faulty K V) (seen : List (VersionEdit K V ⊕ Nat))
    (t : Faulty K V) : Prop where
  | during (during : During config t₀ seen t)
  | installed (ended : t.impl.running = none) (fine : t.failed = false)
  | stopped (stopped : Stopped config t₀ seen t)

variable {seen : List (VersionEdit K V ⊕ Nat)}

omit [Inhabited V] in
theorem During.of_same (during : During config t₀ seen t) {s : Impl K V} (pinned : s.Pinned)
    (running : s.running = t.impl.running) (input : s.inputVersion = t.impl.inputVersion)
    (current : s.set.current = t.impl.set.current)
    (tables : ∀ n ∈ t₀.impl.set.current.fileNumbers, n ∈ t.impl.files.tables → n ∈ s.files.tables)
    (later : t.impl.set.nextFileNumber ≤ s.set.nextFileNumber)
    (stands : Stands config t₀ seen { t with impl := s }) : During config t₀ seen { t with impl := s } where
  pinned := pinned
  running := running ▸ during.running
  input := input ▸ during.input
  flushed := current ▸ during.flushed
  outputs := by
    rw [running]
    exact during.outputs
  keeps n mem known := tables n mem (during.keeps n mem known)
  below := during.below
  later := during.later.trans later
  stands := stands
  unseen := by
    rw [running]
    exact during.unseen

omit [Inhabited V] in
theorem During.foreground (during : During config t₀ seen t) {s : Impl K V}
    (foreground : Impl.Foreground t.impl s) (pinned : s.Pinned) :
    During config t₀ seen { t with impl := s } := by
  have current : s.set.current = t.impl.set.current := by rw [foreground.set]
  refine during.of_same pinned foreground.running ?_ current ?_ foreground.later ?_
  · rw [foreground.same]
  · rw [foreground.files]
    exact fun _ _ => id
  · simp only [Stands, foreground.task, current]
    exact during.stands

omit [Inhabited V] in
theorem beginFlush_during (during : During config t₀ seen t) {s : Impl K V}
    (began : t.impl.beginFlush = some s) : During config t₀ seen { t with impl := s } := by
  have pinned := Impl.beginFlush_pinned during.pinned began
  rw [Impl.beginFlush] at began
  split at began <;> cases began
  exact during.of_same pinned rfl rfl rfl (fun _ _ => id) (Nat.le_succ _) during.later

omit [Inhabited V] in
theorem buildTable_during (during : During config t₀ seen t) {s : Impl K V}
    (built : t.impl.buildTable config = some s) : During config t₀ seen { t with impl := s } := by
  have pinned := Impl.buildTable_pinned during.pinned built
  rw [Impl.buildTable] at built
  split at built
  case h_2 => cases built
  case h_1 number base imm isTask isImm =>
    obtain ⟨edit, wrote, built⟩ := bind_eq_some_iff.mp built
    cases built
    refine during.of_same pinned rfl rfl rfl ?_ le_rfl ⟨⟨number, _, base.2, wrote⟩, rfl⟩
    intro n _ mem
    rw [(Impl.logAndApply_files _ _ _ _).1]
    exact mem_writeTables _ _ mem

omit [Inhabited V] in
theorem appendRecord_during (during : During config t₀ seen t) {s : Impl K V}
    (appended : t.impl.appendRecord = some s) : During config t₀ seen { t with impl := s } := by
  have pinned := Impl.appendRecord_pinned during.pinned appended
  have stands := during.stands
  rw [Impl.appendRecord] at appended
  split at appended
  case h_2 => cases appended
  case h_1 l isTask =>
    obtain ⟨-, appended⟩ := Option.ite_none_left_eq_some.mp appended
    obtain ⟨records, -, appended⟩ := bind_eq_some_iff.mp appended
    cases appended
    refine during.of_same pinned rfl rfl rfl (fun _ _ => id) le_rfl ?_
    simpa only [Stands, isTask] using stands

omit [Inhabited V] in
theorem setCurrent_during (during : During config t₀ seen t) {s : Impl K V}
    (named : t.impl.setCurrent = some s) : During config t₀ seen { t with impl := s } := by
  have stands := during.stands
  have loaded : s.loaded = true := by
    rw [Impl.setCurrent] at named
    split at named
    case h_1 isTask => simp [Stands, isTask] at stands
    case h_3 => cases named
    case h_2 =>
      split at named <;> cases named
      rfl
  have pinned := Impl.setCurrent_pinned during.pinned named loaded
  rw [Impl.setCurrent] at named
  split at named
  case h_1 isTask => simp [Stands, isTask] at stands
  case h_3 => cases named
  case h_2 l isTask =>
    split at named <;> cases named
    refine during.of_same pinned rfl rfl rfl (fun _ _ => id) le_rfl ?_
    simpa only [Stands, isTask] using stands

omit [Inhabited V] in
theorem removeFile_during (during : During config t₀ seen t) {s : Impl K V}
    (removed : t.impl.removeFile = some s) : During config t₀ seen { t with impl := s } := by
  have pinned := Impl.removeFile_pinned during.pinned removed
  have stands := during.stands
  rw [Impl.removeFile] at removed
  split at removed
  case h_3 => cases removed
  case h_2 =>
    cases removed
    exact during.of_same pinned rfl rfl rfl (fun _ _ => id) le_rfl trivial
  case h_1 name rest isTask =>
    cases removed
    simp only [Stands, isTask] at stands
    refine during.of_same pinned rfl rfl rfl ?_ le_rfl
      fun n mem inside => stands n mem (mem_cons_of_mem _ inside)
    intro n mem known
    cases name with
    | log | descriptor => exact known
    | table m =>
      refine mem_erase.mpr ⟨?_, known⟩
      rintro rfl
      exact stands n mem mem_cons_self

omit [Inhabited V] in
theorem held_not_obsolete {s : Impl K V} (pinned : s.removeObsoleteFiles.Pinned) (pin : Pin K V)
    (held : pin ∈ s.removeObsoleteFiles.holders) :
    ∀ n ∈ pin.2.fileNumbers, .table n ∉ s.obsoleteFiles := by
  intro n mem listed
  obtain ⟨node, inside, -, same⟩ := pinned.counted.listed pin held
  have out := (mem_filter.mp listed).2
  simp only [Bool.not_eq_true', contains_eq_mem, decide_eq_false_iff_not, mem_append,
    mem_flatMap, not_or, not_exists, not_and] at out
  exact out.2 node inside (same ▸ mem)

omit [Inhabited V] in
theorem install_comes (during : During config t₀ seen t) {s : Impl K V}
    (installed : t.impl.install = some s)
    (isNext : t' = if t.bgError.isSome then { t with impl := { s with task := .idle } }
      else { t with impl := s }) : Comes config t₀ (seen ++ leaves t (.impl .install) t') t' := by
  have pinned := Impl.install_pinned during.pinned installed
  have stands := during.stands
  rw [Impl.install] at installed
  split at installed
  case h_2 => cases installed
  case h_1 l isTask =>
    simp only [Stands, isTask] at stands
    obtain ⟨-, installed⟩ := Option.ite_none_right_eq_some.mp installed
    split at installed <;> cases installed
    case h_1 isOpen => simp [isOpen] at stands
    case h_3 isMove => simp [isMove] at stands
    case h_4 outputs isCompaction =>
      rw [isCompaction] at stands
      rw [isNext]
      split <;> exact .installed rfl stands.1
    case h_2 isFlush =>
      rw [isFlush] at stands
      have left : leaves t (.impl .install) t' = [.inl l.edit.toVersionEdit] := by
        simp only [leaves, isTask, isFlush, if_true]
      have flushed : Flushed config.options t₀.impl.set.current
          ((seen ++ [Sum.inl l.edit.toVersionEdit]).filterMap Sum.getLeft?) l.version := by
        rw [filterMap_append, stands.2]
        exact during.flushed.add stands.1
      have outputs : ∀ r ∈ t.impl.running,
          (seen ++ [Sum.inl l.edit.toVersionEdit]).filterMap Sum.getRight? ⊆ r.compact.numbers := by
        simpa [filterMap_cons] using during.outputs
      obtain ⟨id, isInput⟩ := during.input
      rw [left, isNext]
      split
      · have quiet : ({ t.impl.appendVersion l with imm := none, task := .idle } : Impl K V).Pinned :=
          pinned.of_same rfl rfl rfl rfl rfl rfl fun _ moves => .inl
            (moves.resolve_right (by simp [Impl.moving, Impl.removeObsoleteFiles]))
        exact .during ⟨quiet, during.running, ⟨id, isInput⟩, flushed, outputs, during.keeps,
          during.below, during.later, trivial, during.unseen⟩
      · refine .during ⟨pinned, during.running, ⟨id, isInput⟩, flushed, outputs, during.keeps,
          during.below, during.later, ?_, during.unseen⟩
        refine held_not_obsolete pinned (id, t₀.impl.set.current) ?_
        have isInput' : ({ t.impl.appendVersion l with
            imm := none } : Impl K V).removeObsoleteFiles.inputVersion =
              some (id, t₀.impl.set.current) := isInput
        rw [Impl.holders, isInput']
        simp

omit [Inhabited V] in
theorem failCompaction_stopped (flushed : Flushed config.options t₀.impl.set.current
      (seen.filterMap Sum.getLeft?) t.impl.set.current)
    (keeps : Keeps t₀ t) (fault : Fault) {numbers : List Nat}
    (known : seen.filterMap Sum.getRight? ⊆ numbers) :
    Stopped config t₀ seen (t.failCompaction fault numbers) := by
  have error : (t.bgError.or (some fault)).isSome = true := by simp
  rw [failCompaction, removeObsoleteFiles]
  simp only [recordBackgroundError, error, if_true]
  refine ⟨rfl, rfl, error, flushed, keeps, fun n mem => ?_⟩
  simp [known mem]

omit [Inhabited V] in
theorem inputOk_eq_false {c : Compaction K V} : t.inputOk c = false ↔
    ∃ child < c.inputChildren, InputChild.iterator.ok (t.children child) = false := by
  simp [inputOk, iterator]

omit [Inhabited V] in
/-- Whatever happens to the input, an error of one of its children is in its status. -/
theorem onInput_during (during : During config t₀ seen t) {child : Nat} {event : ChildEvent}
    {shown : List (Entry K V)} (met : t.onInput child event shown = some t') :
    During config t₀ seen t' := by
  obtain ⟨running, isRunning, met⟩ := bind_eq_some_iff.mp met
  split at met <;> cases met
  rename_i inside
  rw [and_eq_true, Impl.free_iff, decide_eq_true_eq] at inside
  obtain ⟨free, bound⟩ := inside
  refine { during with
    pinned := during.pinned.of_same rfl rfl rfl rfl rfl rfl fun _ _ => .inl rfl
    running := rfl
    outputs := ?_
    stands := by simp [Stands, free.2]
    unseen := ?_ }
  · rintro _ ⟨⟩
    exact during.outputs running isRunning
  · rintro _ ⟨⟩ failed
    have before := during.unseen running isRunning
    have broken (lost : (t.children child).fails event = true ∨
        t.inputOk running.compact.compaction = false) : ∃ i < running.compact.compaction.inputChildren,
        InputChild.iterator.ok (Function.update t.children child ((t.children child).after event) i) =
          false := by
      obtain fails | lost := lost
      · refine ⟨child, bound, ?_⟩
        rw [update_self]
        exact InputChild.after_ok (.inl fails)
      · obtain ⟨i, isChild, lost⟩ := inputOk_eq_false.mp lost
        refine ⟨i, isChild, ?_⟩
        by_cases same : i = child
        · subst same
          rw [update_self]
          exact InputChild.after_ok (.inr lost)
        · rwa [update_of_ne same]
    obtain already | fails := Bool.or_eq_true_iff.mp failed
    · exact (before already).imp_left fun lost => inputOk_eq_false.mpr (broken (.inr lost))
    · exact .inl (inputOk_eq_false.mpr (broken (.inl fails)))

omit [Inhabited V] in
theorem round_comes (during : During config t₀ seen t) {o : Round}
    (ran : t.round config o = some t') :
    Comes config t₀ (seen ++ leaves t (.round o) t') t' := by
  obtain ⟨running, isRunning, ran⟩ := bind_eq_some_iff.mp ran
  obtain ⟨free, ran⟩ := Option.ite_none_right_eq_some.mp ran
  rw [and_eq_true, Impl.free_iff] at free
  obtain ⟨⟨next, w, status⟩, went, ran⟩ := bind_eq_some_iff.mp ran
  have goes := Work.round_goes went
  have keeps : ∀ n ∈ t₀.impl.set.current.fileNumbers, n ∈ t₀.impl.files.tables →
      n ∈ ((if next != t.impl.set.nextFileNumber && o.newFile then { t.impl.files with
        tables := t.impl.files.tables.insert t.impl.set.nextFileNumber [] } else t.impl.files
        ).writeTables (Impl.finishedSince running.compact w.compact)).tables := by
    intro n mem known
    apply mem_writeTables
    split
    · exact (mem_insert _).mpr (.inr (during.keeps n mem known))
    · exact during.keeps n mem known
  have isNext : t'.impl.set.nextFileNumber = next := by
    dsimp only at ran
    split at ran <;> cases ran
    · simp [failCompaction, removeObsoleteFiles, recordBackgroundError, Impl.releaseInputs]
    · rfl
  obtain ⟨flushed, outputs⟩ : Flushed config.options t₀.impl.set.current
      ((seen ++ leaves t (.round o) t').filterMap Sum.getLeft?) t.impl.set.current ∧
      (seen ++ leaves t (.round o) t').filterMap Sum.getRight? ⊆ w.compact.numbers := by
    have old := List.Subset.trans (during.outputs running isRunning) goes.numbers
    rw [leaves, isNext]
    split
    · simpa using ⟨during.flushed, old⟩
    case isFalse moved => simpa [filterMap_cons] using ⟨during.flushed, old, goes.opened moved⟩
  dsimp only at ran
  split at ran <;> cases ran
  case h_1 fault _ =>
    apply Comes.stopped
    apply failCompaction_stopped
    · exact flushed
    · exact keeps
    · exact outputs
  case h_2 ok =>
    have unseen := goes.unseen rfl (during.unseen running isRunning)
    refine .during { during with
      pinned := ?_, running := rfl, flushed, outputs := ?_, keeps
      later := during.later.trans goes.later, stands := ?_, unseen := ?_ }
    · exact during.pinned.of_same rfl rfl rfl rfl rfl rfl fun _ _ => .inl rfl
    · rintro _ ⟨⟩
      exact outputs
    · simp [Stands, free.1.2]
    · rintro _ ⟨⟩ failed
      have input : w.inputOk = t.inputOk w.compact.compaction := by
        rw [goes.input, goes.compaction]
        rfl
      exact (unseen failed).imp_left input.symm.trans

omit [Inhabited V] in
theorem finish_comes (during : During config t₀ seen t) {o : Finishing}
    (ran : t.finish config o = some t') : Comes config t₀ seen t' := by
  obtain ⟨running, isRunning, ran⟩ := bind_eq_some_iff.mp ran
  obtain ⟨free, ran⟩ := Option.ite_none_right_eq_some.mp ran
  rw [and_eq_true, Impl.free_iff] at free
  obtain ⟨⟨next, w, status⟩, went, ran⟩ := bind_eq_some_iff.mp ran
  obtain ⟨goes, whole⟩ := Work.finish_goes went
  have keeps : ∀ n ∈ t₀.impl.set.current.fileNumbers, n ∈ t₀.impl.files.tables →
      n ∈ (t.impl.files.writeTables (Impl.finishedSince running.compact w.compact)).tables :=
    fun n mem known => mem_writeTables _ _ (during.keeps n mem known)
  have outputs := List.Subset.trans (during.outputs running isRunning) goes.numbers
  dsimp only at ran
  split at ran <;> cases ran
  case h_1 fault _ =>
    apply Comes.stopped
    apply failCompaction_stopped
    · exact during.flushed
    · exact keeps
    · exact outputs
  case h_2 =>
    have fine : t.failed = false := whole rfl (during.unseen running isRunning)
    have still : t.impl.base = none := by simp [Impl.base, free.1.2]
    refine .during { during with pinned := ?_, keeps := ?_, stands := ⟨fine, outputs⟩ }
    · exact Impl.logAndApply_pinned { during.pinned with } still fun _ => .inl during.running
    · intro n mem known
      rw [(Impl.logAndApply_files _ _ _ _).1]
      exact keeps n mem known

omit [Inhabited V] in
theorem failFlush_during (during : During config t₀ seen t) (failed : t.failFlush = some t') :
    During config t₀ seen t' := by
  have stands := during.stands
  rw [failFlush] at failed
  split at failed
  case h_2 => cases failed
  case h_1 number base isTask =>
    cases failed
    simp only [Stands, isTask] at stands
    have pinned : ({ t.impl.unpin base with
        files := t.impl.files.removeFile (.table number)
        pendingOutputs := t.impl.pendingOutputs.filter (· ≠ number)
        task := .idle } : Impl K V).Pinned :=
      (Impl.unpinBase_pinned during.pinned isTask).of_same rfl rfl rfl rfl rfl rfl fun _ => id
    refine { during with pinned, keeps := fun n mem known => ?_, stands := trivial }
    refine mem_erase.mpr ⟨?_, during.keeps n mem known⟩
    exact ((during.below n mem).trans_le stands).ne

omit [Inhabited V] in
theorem failLog_comes (during : During config t₀ seen t) {written : Bool}
    (failed : t.failLog written = some t') : Comes config t₀ seen t' := by
  have stands := during.stands
  rw [failLog] at failed
  split at failed
  case h_2 => cases failed
  case h_1 l isTask =>
    simp only [Stands, isTask] at stands
    obtain ⟨-, failed⟩ := Option.ite_none_left_eq_some.mp failed
    dsimp only at failed
    split at failed <;> cases failed
    case h_2 isFlush =>
      refine .during { during with pinned := ?_, stands := trivial }
      refine during.pinned.of_same rfl rfl rfl rfl ?_ rfl fun _ _ => .inl during.running
      show none = t.impl.base
      rw [Impl.base, isTask]
    case h_3 isMove => simp [isMove] at stands
    case h_4 outputs isCompaction =>
      rw [isCompaction] at stands
      apply Comes.stopped
      apply failCompaction_stopped
      · exact during.flushed
      · exact during.keeps
      · exact stands.2

omit [Inhabited V] in
theorem During.comes (during : During config t₀ seen t') {a : FaultyAction K V}
    (nothing : leaves t a t' = []) : Comes config t₀ (seen ++ leaves t a t') t' := by
  rw [nothing, append_nil]
  exact .during during

theorem implStep_comes (during : During config t₀ seen t) {a : ImplAction K V}
    (stepped : t.implStep config a = some t') :
    Comes config t₀ (seen ++ leaves t (.impl a) t') t' := by
  rw [implStep] at stepped
  obtain ⟨permitted, stepped⟩ := Option.ite_none_right_eq_some.mp stepped
  obtain ⟨s, moved, rfl⟩ := map_eq_some_iff.mp stepped
  clear stepped
  have foreground (isForeground : a.isForeground = true) :
      During config t₀ seen { t with impl := s } :=
    during.foreground (Impl.step_foreground isForeground moved)
      (Impl.step_foreground_pinned isForeground during.pinned moved)
  have free (running : t.impl.running = none) : False := by
    have isRunning := during.running
    simp [running] at isRunning
  cases a <;> simp only [permits, false_eq_true] at permitted
  case appendRecord => exact (appendRecord_during during moved).comes rfl
  case setCurrent => exact (setCurrent_during during moved).comes rfl
  case install => exact install_comes during moved rfl
  case removeFile => exact (removeFile_during during moved).comes rfl
  case beginFlush => exact (beginFlush_during during moved).comes rfl
  case buildTable => exact (buildTable_during during moved).comes rfl
  case compact =>
    simp only [Impl.step, Impl.compact] at moved
    obtain ⟨idle, moved⟩ := Option.ite_none_right_eq_some.mp moved
    simp only [and_eq_true, isNone_iff_eq_none] at idle
    exact (free idle.2).elim
  case compactRange =>
    simp only [Impl.step, Impl.compactRange] at moved
    obtain ⟨idle, moved⟩ := Option.ite_none_right_eq_some.mp moved
    simp only [and_eq_true, isNone_iff_eq_none] at idle
    exact (free idle.1.2).elim
  all_goals exact (foreground rfl).comes rfl

theorem step_comes (during : During config t₀ seen t) {a : FaultyAction K V}
    (stepped : t.step config a = some t') : Comes config t₀ (seen ++ leaves t a t') t' := by
  cases a with
  | impl a => exact implStep_comes during stepped
  | shutDown =>
    cases stepped
    refine During.comes ?_ rfl
    exact { during with }
  | failSync =>
    obtain ⟨w, -, rfl⟩ := map_eq_some_iff.mp stepped
    have pinned : ({ t.impl with
        writing := none, set := { t.impl.set with lastSequence := w.lastSequence } } :
          Impl K V).Pinned :=
      during.pinned.of_same rfl rfl rfl rfl rfl rfl fun _ => id
    refine During.comes ?_ rfl
    exact { during with pinned }
  | failClose =>
    cases stepped
    refine During.comes ?_ rfl
    exact { during with }
  | input child event shown => exact (onInput_during during stepped).comes rfl
  | round o => exact round_comes during stepped
  | finish o => exact (append_nil seen).symm ▸ finish_comes during stepped
  | failFlush => exact (failFlush_during during stepped).comes rfl
  | failLog written => exact (append_nil seen).symm ▸ failLog_comes during stepped

theorem run_comes (during : During config t₀ [] t₀) {actions : List (FaultyAction K V)}
    (ran : run config (fun t _ => t.impl.running.isSome) t₀ actions = some t) :
    Comes config t₀ (collect (step config) leaves t₀ actions) t := by
  have start : Comes config t₀ [] t₀ := .during during
  refine run_collect ?_ start ran
  intro seen t a t' comes busy stepped
  cases comes with
  | during during => exact step_comes during stepped
  | installed ended => simp [ended] at busy
  | stopped stopped => simp [stopped.running] at busy

theorem permits_quiet {a : ImplAction K V} {s : Impl K V} (isForeground : a.isForeground = true)
    (error : t.bgError.isSome) (permitted : t.permits a = true)
    (stepped : t.impl.step config a = some s) : s.files = t.impl.files := by
  cases a <;> simp only [ImplAction.isForeground, false_eq_true] at isForeground
  case beginWrite | switchMemTable | failSwitch =>
    rw [permits, isNone_iff_eq_none] at permitted
    simp [permitted] at error
  case insert =>
    simp only [Impl.step, Impl.insert] at stepped
    split at stepped <;> cases stepped
    rfl
  case finishWrite =>
    simp only [Impl.step, Impl.finishWrite] at stepped
    split at stepped <;> cases stepped
    rfl
  case capture =>
    simp only [Impl.step, Impl.capture] at stepped
    split at stepped <;> cases stepped
    rfl
  case release =>
    obtain ⟨reader, -, rfl⟩ := map_eq_some_iff.mp stepped
    rfl
  case getSnapshot | releaseSnapshot =>
    simp only [Impl.step] at stepped
    split at stepped <;> cases stepped
    rfl
  case updateStats =>
    simp only [Impl.step, Impl.updateStats] at stepped
    obtain ⟨-, stepped⟩ := Option.ite_none_right_eq_some.mp stepped
    obtain ⟨f, -, rfl⟩ := map_eq_some_iff.mp stepped
    rfl

omit [Inhabited V] in
theorem Stopped.of_same (stopped : Stopped config t₀ seen t) (running : t'.impl.running = none)
    (idle : t'.impl.task = .idle) (error : t'.bgError.isSome)
    (current : t'.impl.set.current = t.impl.set.current) (files : t'.impl.files = t.impl.files)
    (pending : t'.impl.pendingOutputs = t.impl.pendingOutputs) : Stopped config t₀ seen t' where
  running := running
  idle := idle
  error := error
  flushed := current ▸ stopped.flushed
  keeps n mem known := by
    rw [files]
    exact stopped.keeps n mem known
  cleaned n mem := by
    rw [pending]
    exact stopped.cleaned n mem

/-- Behind a background error. -/
structure Unchanged (t t' : Faulty K V) : Prop where
  current : t'.impl.set.current = t.impl.set.current
  files : t'.impl.files = t.impl.files
  pending : t'.impl.pendingOutputs = t.impl.pendingOutputs

theorem implStep_stopped (stopped : Stopped config t₀ seen t) {a : ImplAction K V}
    (stepped : t.implStep config a = some t') : Stopped config t₀ seen t' ∧ Unchanged t t' := by
  rw [implStep] at stepped
  obtain ⟨permitted, stepped⟩ := Option.ite_none_right_eq_some.mp stepped
  obtain ⟨s, moved, rfl⟩ := map_eq_some_iff.mp stepped
  clear stepped
  have error := stopped.error
  have idle := stopped.idle
  have notRunning := stopped.running
  cases isForeground : a.isForeground with
  | true =>
    have files := permits_quiet isForeground error permitted moved
    have same := (Impl.step_foreground isForeground moved).same
    have unchanged : Unchanged t { t with impl := s } :=
      ⟨by rw [same], files, by rw [same]⟩
    have stopped : Stopped config t₀ seen { t with impl := s } :=
      stopped.of_same (by rw [same]; exact notRunning) (by rw [same]; exact idle) error
        unchanged.current files unchanged.pending
    cases a <;> simp only [ImplAction.isForeground, false_eq_true] at isForeground
    all_goals exact ⟨stopped, unchanged⟩
  | false =>
    cases a <;> simp only [ImplAction.isForeground, Bool.true_eq_false] at isForeground
    all_goals simp only [permits, false_eq_true, and_eq_true, Bool.or_eq_true,
      isNone_iff_eq_none, notRunning, Option.isSome_none, false_or] at permitted
    case beginFlush | compact | compactRange => simp [permitted.1] at error
    all_goals
      simp only [Impl.step, Impl.appendRecord, Impl.setCurrent, Impl.install, Impl.removeFile,
        Impl.buildTable, idle] at moved
      cases moved

theorem step_stopped (stopped : Stopped config t₀ seen t) {a : FaultyAction K V}
    (stepped : t.step config a = some t') : Stopped config t₀ seen t' ∧ Unchanged t t' := by
  have same : Unchanged t t := ⟨rfl, rfl, rfl⟩
  cases a with
  | impl a => exact implStep_stopped stopped stepped
  | shutDown =>
    cases stepped
    exact ⟨{ stopped with }, { same with }⟩
  | failSync =>
    obtain ⟨w, -, rfl⟩ := map_eq_some_iff.mp stepped
    exact ⟨{ stopped with error := by simp [recordBackgroundError] }, { same with }⟩
  | failClose =>
    cases stepped
    exact ⟨{ stopped with error := by simp [recordBackgroundError] }, { same with }⟩
  | input child event shown | round o | finish o =>
    simp [step, onInput, round, finish, stopped.running] at stepped
  | failFlush | failLog written =>
    simp [step, failFlush, failLog, stopped.idle] at stepped

theorem run_stopped (stopped : Stopped config t₀ seen t) {more : List (FaultyAction K V)}
    (ran : run config (fun _ _ => true) t more = some t') :
    Stopped config t₀ seen t' ∧ Unchanged t t' := by
  refine run_induct (P := fun t' => Stopped config t₀ seen t' ∧ Unchanged t t') ?_
    ⟨stopped, rfl, rfl, rfl⟩ ran
  intro t₁ a t₂ ⟨stopped, unchanged⟩ _ stepped
  obtain ⟨stopped, step⟩ := step_stopped stopped stepped
  exact ⟨stopped, step.current.trans unchanged.current, step.files.trans unchanged.files,
    step.pending.trans unchanged.pending⟩

theorem begin_during {s : Impl K V} {c : Compaction K V} {isManual : Bool}
    (sound : (s.begin config isManual c).Sound config.comparator) (free : s.free = true)
    (busy : (s.begin config isManual c).running.isSome) (idle : s.running = none) :
    During config { impl := s.begin config isManual c } [] { impl := s.begin config isManual c } ∧
      (∀ n ∈ (s.begin config isManual c).set.current.fileNumbers,
        n ∈ (s.begin config isManual c).files.tables) ∧
      (s.begin config isManual c).set.current = s.set.current := by
  have isTask := (Impl.free_iff.mp free).2
  rw [Impl.begin] at sound busy ⊢
  split at sound
  case isTrue move =>
    rw [if_pos move] at busy
    have none : s.running.isSome := busy
    simp [idle] at none
  case isFalse noMove =>
    rw [if_neg noMove]
    cases sound with
    | stored unloaded =>
      simp only [Impl.loaded, Impl.pinCurrent, isTask] at unloaded
      cases unloaded
    | loaded number rec added pinned books phase =>
      simp only [Impl.Phase, Impl.pinCurrent, isTask] at phase
      obtain ⟨node, listed, isCurrent⟩ := pinned.current_listed
      replace isCurrent : node.value = s.set.current := isCurrent
      have isVersion : rec.version = s.set.current := phase.1.agrees.version
      have file {n : Nat} (mem : n ∈ s.set.current.fileNumbers) :
          ∃ level, ∃ f ∈ s.set.current.files level, f.number = n := by
        simp only [fileNumbers, mem_flatMap, mem_map] at mem
        obtain ⟨level, -, f, mem, isNumber⟩ := mem
        exact ⟨level, f, mem, isNumber⟩
      have below : ∀ n ∈ s.set.current.fileNumbers, n < s.set.nextFileNumber := by
        intro n mem
        obtain ⟨level, f, present, rfl⟩ := file mem
        rw [← isCurrent] at present
        exact books.below _ (books.listed node listed level f present)
      refine ⟨⟨pinned, rfl, ⟨_, rfl⟩, .none _ _, by simp, fun _ _ => id, below, Nat.le_refl _, ?_,
        fun _ _ unseen => ?_⟩, fun n mem => ?_, rfl⟩
      · simp [Stands, Impl.pinCurrent, isTask]
      · simp [work] at unseen
      · obtain ⟨level, f, present, rfl⟩ := file mem
        rw [← isVersion] at present
        have found : s.files.tables.lookup f.number = some f.entries :=
          books.keeps.tables level f present
        have known : (s.files.tables.lookup f.number).isSome = true := by rw [found]; rfl
        exact lookup_isSome.mp known

theorem began_during {s s' : Impl K V} {a : ImplAction K V} (sound : s.Sound config.comparator)
    (isCompaction : a.isCompaction = true) (began : s.step config a = some s')
    (busy : s'.running.isSome) :
    During config { impl := s' } [] { impl := s' } ∧
      (∀ n ∈ s'.set.current.fileNumbers, n ∈ s'.files.tables) ∧
      s'.set.current = s.set.current := by
  have sound' := Impl.step_sound sound began
  cases a <;> simp only [ImplAction.isCompaction, false_eq_true] at isCompaction
  case compact =>
    simp only [Impl.step, Impl.compact] at began
    obtain ⟨free, began⟩ := Option.ite_none_right_eq_some.mp began
    simp only [and_eq_true, isNone_iff_eq_none] at free
    obtain ⟨c, -, rfl⟩ := map_eq_some_iff.mp began
    exact begin_during sound' free.1.1 busy free.2
  case compactRange level begin finish =>
    simp only [Impl.step, Impl.compactRange] at began
    obtain ⟨free, began⟩ := Option.ite_none_right_eq_some.mp began
    simp only [and_eq_true, isNone_iff_eq_none, decide_eq_true_eq] at free
    obtain ⟨c, -, rfl⟩ := map_eq_some_iff.mp began
    exact begin_during sound' free.1.1.1 busy free.1.2

/-- A compaction that has failed, wherever that was. The version has lost no file and has got
none but those of the flushes that ran meanwhile. Its inputs are still there, and so are all
the files there were when it ended. Its outputs are no longer pending, and the error stops the
background thread for good. -/
theorem failed_compaction {s s' : Impl K V} {history : List (ImplAction K V)}
    {a : ImplAction K V} {actions more : List (FaultyAction K V)} {t₁ t₂ : Faulty K V}
    (reached : Impl.run config (fun _ _ => true) { files := {} } history = some s)
    (isCompaction : a.isCompaction = true) (began : s.step config a = some s')
    (busy : s'.running.isSome)
    (worked : run config (fun t _ => t.impl.running.isSome) { impl := s' } actions = some t₁)
    (ended : t₁.impl.running = none) (failed : t₁.failed = true)
    (later : run config (fun _ _ => true) t₁ more = some t₂) :
    (∀ level f, f ∈ t₂.impl.set.current.files level ↔ f ∈ s.set.current.files level ∨
      ∃ edit ∈ flushes config { impl := s' } actions, (level, f) ∈ edit.newFiles) ∧
    (∀ n ∈ s.set.current.fileNumbers, n ∈ t₂.impl.files.tables) ∧
    (∀ n ∈ outputs config { impl := s' } actions, n ∉ t₂.impl.pendingOutputs) ∧ t₂.bgError.isSome ∧
    t₂.impl.set.current = t₁.impl.set.current ∧ t₂.impl.files = t₁.impl.files := by
  obtain ⟨during, tables, sameCurrent⟩ :=
    began_during (Impl.run_sound reached) isCompaction began busy
  cases run_comes during worked with
  | during during =>
    have running := during.running
    simp [ended] at running
  | installed _ fine => simp [fine] at failed
  | stopped stopped =>
    obtain ⟨stopped, unchanged⟩ := run_stopped stopped later
    refine ⟨fun level f => ?_, fun n mem => ?_, stopped.cleaned, stopped.error, unchanged.current,
      unchanged.files⟩
    · rw [stopped.flushed.mem_files, sameCurrent]
      rfl
    · rw [← sameCurrent] at mem
      exact stopped.keeps n mem (tables n mem)

end Faulty

/-- A manual compaction of the table of a flush, which cannot make its output. -/
theorem failed_compaction_newFile : ∃ s s' t, Impl.run plainConfig (fun _ _ => true) { files := {} }
      (openNew ++ writeAndFlush ++ [.removeFile, .removeFile]) = some s ∧
    s.step plainConfig (.compactRange 2 none none) = some s' ∧
    Faulty.run plainConfig (fun t _ => t.impl.running.isSome) { impl := s' }
      [.round { newFile := false }] = some t ∧
    Faulty.outputs plainConfig { impl := s' } [.round { newFile := false }] = [6] ∧
    (∀ n ∈ s.set.current.fileNumbers, n ∈ t.impl.files.tables) ∧ 6 ∉ t.impl.pendingOutputs := by
  have fails : ((Impl.run plainConfig (fun _ _ => true) { files := {} }
      (openNew ++ writeAndFlush ++ [.removeFile, .removeFile])).bind fun s =>
      (s.step plainConfig (.compactRange 2 none none)).bind fun s' =>
      (Faulty.run plainConfig (fun t _ => t.impl.running.isSome) { impl := s' }
        [.round { newFile := false }]).map fun t =>
      s'.running.isSome && t.impl.running.isNone && t.failed &&
        Faulty.outputs plainConfig { impl := s' } [.round { newFile := false }] == [6]) =
        some true := by
    decide +kernel
  obtain ⟨s, reached, fails⟩ := bind_eq_some_iff.mp fails
  obtain ⟨s', began, fails⟩ := bind_eq_some_iff.mp fails
  obtain ⟨t, worked, fails⟩ := map_eq_some_iff.mp fails
  simp only [and_eq_true, isNone_iff_eq_none, beq_iff_eq] at fails
  obtain ⟨⟨⟨busy, ended⟩, failed⟩, outputs⟩ := fails
  obtain ⟨-, tables, cleaned, -⟩ :=
    Faulty.failed_compaction reached rfl began busy worked ended failed
      (show Faulty.run plainConfig (fun _ _ => true) t [] = some t from rfl)
  exact ⟨s, s', t, reached, began, worked, outputs, tables, cleaned 6 (by simp [outputs])⟩

namespace Faulty
variable (config : Config K V)

/-- The step of an open database in which nothing fails. -/
def fine : ImplAction K V → Option (FaultyAction K V)
  | .crash | .newDB | .recover | .writeRecovered | .openLog => none
  | .compactionRound => some (.round {})
  | .finishCompaction => some (.finish {})
  | a => some (.impl a)

theorem inputOk_fine {s : Impl K V} (c : Compaction K V) :
    inputOk { impl := s } c = true := by
  simp [inputOk, iterator, InputChild.iterator, TwoLevelIterator.iterator,
    statusIterator]

theorem step_fine [Inhabited V] {a : ImplAction K V} {b : FaultyAction K V} (isFine : fine a = some b)
    (s : Impl K V) :
    step config { impl := s } b = (s.step config a).map fun s => { impl := s } := by
  cases a with
  | crash | newDB | recover | writeRecovered | openLog => cases isFine
  | compactionRound =>
    cases isFine
    exact round_fine rfl inputOk_fine rfl
  | finishCompaction =>
    cases isFine
    exact finish_fine rfl inputOk_fine rfl
  | beginFlush =>
    cases isFine
    exact if_pos (by simp [permits])
  | _ =>
    cases isFine
    rfl

/-- Where every file operation succeeds, the checks of statuses change nothing: the runs are those of
the database without errors, and none of them records a background error. -/
theorem run_fine [Inhabited V] {actions : List (ImplAction K V)} {steps : List (FaultyAction K V)}
    (areFine : actions.mapM fine = some steps) (s : Impl K V) :
    run config (fun _ _ => true) { impl := s } steps =
      (Impl.run config (fun _ _ => true) s actions).map fun s => { impl := s } := by
  induction actions generalizing s steps with
  | nil =>
    cases areFine
    rfl
  | cons a rest ih =>
    rw [mapM_cons] at areFine
    obtain ⟨b, isFine, areFine⟩ := bind_eq_some_iff.mp areFine
    obtain ⟨others, restFine, same⟩ := bind_eq_some_iff.mp areFine
    cases same
    rw [run, Runs.run, if_pos rfl, step_fine config isFine, Impl.run, Runs.run, if_pos rfl]
    cases s.step config a with
    | none => rfl
    | some t => exact ih restFine t

/-- A manual compaction of the table of a flush. -/
theorem run_fine_compaction : ∃ s s', Impl.run plainConfig (fun _ _ => true) s
      [.compactRange 2 none none, .compactionRound, .finishCompaction] = some s' ∧
    run plainConfig (fun _ _ => true) { impl := s }
      [.impl (.compactRange 2 none none), .round {}, .finish {}] = some { impl := s' } := by
  have possible : ((Impl.run plainConfig (fun _ _ => true) { files := {} }
      (openNew ++ writeAndFlush ++ [.removeFile, .removeFile])).bind fun s =>
      Impl.run plainConfig (fun _ _ => true) s
        [.compactRange 2 none none, .compactionRound, .finishCompaction]).isSome = true := by
    decide +kernel
  obtain ⟨s', possible⟩ := Option.isSome_iff_exists.mp possible
  obtain ⟨s, -, ran⟩ := bind_eq_some_iff.mp possible
  exact ⟨s, s', ran, (run_fine plainConfig rfl s).trans (congrArg (Option.map _) ran)⟩

end Faulty

end TalusDB
