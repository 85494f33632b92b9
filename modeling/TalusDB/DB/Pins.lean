import TalusDB.DB.Impl

/-! Versions stay in the version set's list as long as someone refers to them. -/
namespace TalusDB
open List Option
open RefCount (Counted)
variable {K V : Type} [LinearOrder K]

namespace Impl

/-- `DB::Open` has come past `VersionSet::Recover`. -/
def loaded (s : Impl K V) : Bool :=
  match s.task with
  | .closed | .creating => false
  | _ => true

def Fresh (s : Impl K V) : Prop := s = { files := s.files, task := s.task }

def base (s : Impl K V) : Option (Pin K V) :=
  match s.task with
  | .building _ base => some base
  | _ => none

def holders (s : Impl K V) : List (Pin K V) :=
  (s.currentId, s.set.current) ::
    (s.readers.map (·.version) ++ s.base.toList ++ s.inputVersion.toList)

def moving (s : Impl K V) : Prop := ∃ l, s.task = .logging l ∧ l.caller = .trivialMove

structure Pinned (s : Impl K V) : Prop where
  counted : Counted s.versions s.holders
  ids : ∀ node ∈ s.versions, node.id ≤ s.currentId
  input : s.inputVersion.isSome → s.running.isSome ∨ s.moving

variable {s s' : Impl K V}

theorem Pinned.of_same (pinned : s.Pinned) (versions : s'.versions = s.versions)
    (id : s'.currentId = s.currentId) (current : s'.set.current = s.set.current)
    (readers : s'.readers = s.readers) (base : s'.base = s.base)
    (inputVersion : s'.inputVersion = s.inputVersion)
    (input : s.inputVersion.isSome → s.running.isSome ∨ s.moving → s'.running.isSome ∨ s'.moving) :
    s'.Pinned where
  counted := by
    simp only [holders, versions, id, current, readers, base, inputVersion]
    exact pinned.counted
  ids := by simpa only [versions, id] using pinned.ids
  input some := by
    rw [inputVersion] at some
    exact input some (pinned.input some)

theorem Pinned.current_mem : (s.currentId, s.set.current) ∈ s.holders := mem_cons_self

theorem pin_ids (pinned : s.Pinned) :
    ∀ node ∈ RefCount.ref s.currentId s.versions, node.id ≤ s.currentId := by
  intro node mem
  obtain ⟨m, inside, same, -⟩ := RefCount.mem_ref mem
  exact same ▸ pinned.ids m inside

theorem unpin_ids (pinned : s.Pinned) (id : Nat) :
    ∀ node ∈ RefCount.unref id s.versions, node.id ≤ s.currentId := by
  intro node mem
  obtain ⟨m, inside, same, -⟩ := RefCount.mem_unref mem
  exact same ▸ pinned.ids m inside

theorem capture_pinned (pinned : s.Pinned) {snapshot : Option Nat}
    (captured : s.capture snapshot = some s') : s'.Pinned := by
  rw [capture] at captured
  obtain ⟨-, captured⟩ := ite_none_right_eq_some.mp captured
  cases captured
  refine ⟨(pinned.counted.ref Pinned.current_mem).perm ?_, pin_ids pinned, pinned.input⟩
  simp only [holders, pinCurrent, map_append, map_cons, map_nil]
  refine (List.Perm.swap ..).trans (.cons _ ?_)
  simp only [append_assoc, singleton_append]
  exact perm_middle.symm

theorem release_pinned (pinned : s.Pinned) {i : Nat} (released : s.release i = some s') :
    s'.Pinned := by
  obtain ⟨reader, found, rfl⟩ := map_eq_some_iff.mp released
  refine ⟨Counted.unref (pinned.counted.perm ?_), unpin_ids pinned _, pinned.input⟩
  obtain ⟨bound, isReader⟩ := List.getElem?_eq_some_iff.mp found
  have erased := (getElem_cons_eraseIdx_perm bound).map (·.version)
  rw [isReader, map_cons] at erased
  refine (List.Perm.cons _ ((erased.symm.append_right _).append_right _)).trans ?_
  exact List.Perm.swap ..

theorem free_iff : s.free = true ↔ s.opened = true ∧ s.task = .idle := by
  rw [free, Bool.and_eq_true]
  refine and_congr_right fun _ => ?_
  split
  · simp [*]
  case h_2 other => simpa using other

theorem beginFlush_pinned (pinned : s.Pinned) (began : s.beginFlush = some s') : s'.Pinned := by
  rw [beginFlush] at began
  obtain ⟨free, began⟩ := ite_none_right_eq_some.mp began
  simp only [Bool.and_eq_true, free_iff] at free
  have idle := free.1.1.2
  cases began
  refine ⟨(pinned.counted.ref Pinned.current_mem).perm ?_, pin_ids pinned, fun some =>
    .inl ((pinned.input some).resolve_right fun ⟨l, isLog, _⟩ => by simp [idle] at isLog)⟩
  simp only [holders, base, idle, pinCurrent, newFileNumber, toList_none,
    toList_some, append_nil]
  refine (List.Perm.swap ..).trans (.cons _ ?_)
  simp only [append_assoc, singleton_append]
  exact perm_middle.symm

section
variable {config : Config K V} {edit : ManifestEdit K V} {caller : Caller}

theorem logAndApply_pinned (pinned : s.Pinned) (still : s.base = none)
    (input : s.inputVersion.isSome → s.running.isSome ∨ caller = .trivialMove) :
    (s.logAndApply config edit caller).Pinned where
  counted := by
    have counted := pinned.counted
    simp only [holders, still] at counted
    simpa only [holders, base, logAndApply] using counted
  ids := pinned.ids
  input some := (input some).imp id fun isMove => ⟨_, rfl, isMove⟩

theorem unpinBase_pinned (pinned : s.Pinned) {number : Nat} {base : Pin K V}
    (isTask : s.task = .building number base) : { s.unpin base with task := .idle }.Pinned := by
  have running : s.inputVersion.isSome → s.running.isSome := fun some =>
    (pinned.input some).resolve_right fun ⟨l, isLog, _⟩ => by simp [isTask] at isLog
  have counted := pinned.counted
  simp only [holders, Impl.base, isTask, toList_some] at counted
  refine ⟨Counted.unref (h := base) (counted.perm ?_), unpin_ids pinned _,
    fun some => .inl (running some)⟩
  simp only [holders, Impl.base, unpin, toList_none, append_nil]
  refine (List.Perm.cons _ ?_).trans (List.Perm.swap ..)
  simp only [append_assoc, singleton_append]
  exact perm_middle

theorem buildTable_pinned (pinned : s.Pinned) (built : s.buildTable config = some s') :
    s'.Pinned := by
  rw [buildTable] at built
  split at built
  case h_2 => cases built
  case h_1 number base imm isTask isImm =>
    obtain ⟨edit, -, built⟩ := bind_eq_some_iff.mp built
    cases built
    refine (unpinBase_pinned pinned isTask).of_same rfl rfl rfl rfl rfl rfl fun _ moves => ?_
    exact .inl (moves.resolve_right fun ⟨_, isLog, _⟩ => by cases isLog)

theorem begin_pinned (pinned : s.Pinned) (idle : s.task = .idle) (none : s.running = none)
    (isManual : Bool) (c : Compaction K V) : (s.begin config isManual c).Pinned := by
  have noInput : s.inputVersion = Option.none := by
    rw [← not_isSome_iff_eq_none]
    intro some
    obtain running | ⟨l, isLog, -⟩ := pinned.input some
    · simp [none] at running
    · simp [idle] at isLog
  have counted := pinned.counted.ref Pinned.current_mem
  simp only [holders, base, idle, noInput, toList_none, append_nil] at counted
  have counted' := counted.perm (.cons _ (perm_append_singleton _ _).symm)
  rw [begin]
  split
  · refine ⟨?_, pin_ids pinned, fun _ => .inr ⟨_, rfl, rfl⟩⟩
    simpa only [holders, base, logAndApply, pinCurrent, toList_none, toList_some,
      append_nil] using counted'
  · refine ⟨?_, pin_ids pinned, fun _ => .inl rfl⟩
    simpa only [holders, base, idle, pinCurrent, toList_none, toList_some,
      append_nil] using counted'

end

theorem appendVersion_counted (pinned : s.Pinned) (l : Logging K V) :
    Counted (s.appendVersion l).versions (s.appendVersion l).holders ∧
      ∀ node ∈ (s.appendVersion l).versions, node.id ≤ (s.appendVersion l).currentId := by
  have left : Counted (RefCount.unref s.currentId s.versions)
      (s.readers.map (·.version) ++ s.base.toList ++ s.inputVersion.toList) :=
    Counted.unref (h := (s.currentId, s.set.current)) pinned.counted
  refine ⟨left.push (fun node mem => ?_) l.version, fun node mem => ?_⟩
  · have below := unpin_ids pinned _ node mem
    omega
  · obtain mem | mem := mem_append.mp mem
    · exact (unpin_ids pinned _ node mem).trans (Nat.le_succ _)
    · rw [mem_singleton.mp mem]
      exact le_rfl

theorem releaseInputs_counted (counted : Counted s.versions s.holders)
    (ids : ∀ node ∈ s.versions, node.id ≤ s.currentId) :
    Counted s.releaseInputs.versions s.releaseInputs.holders ∧
      ∀ node ∈ s.releaseInputs.versions, node.id ≤ s.currentId := by
  cases isPin : s.inputVersion with
  | none =>
    simp only [holders, isPin] at counted
    simpa only [releaseInputs, holders, base, isPin, elim_none] using ⟨counted, ids⟩
  | some pin =>
    simp only [holders, isPin, toList_some] at counted
    simp only [releaseInputs, isPin, elim_some]
    refine ⟨Counted.unref (counted.perm ?_), ?_⟩
    · simp only [holders, base, toList_none, append_nil]
      exact (List.Perm.cons _ perm_append_comm).trans (List.Perm.swap ..)
    · intro node mem
      obtain ⟨m, inside, same, -⟩ := RefCount.mem_unref mem
      exact same ▸ ids m inside

theorem install_pinned (pinned : s.Pinned) (installed : s.install = some s') : s'.Pinned := by
  rw [install] at installed
  split at installed
  case h_2 => cases installed
  case h_1 l isTask =>
    have input : s.inputVersion.isSome → s.running.isSome ∨ l.caller = .trivialMove := fun some =>
      (pinned.input some).imp_right fun ⟨l', isLog, isMove⟩ => by
        rw [isTask] at isLog
        cases isLog
        exact isMove
    obtain ⟨counted, ids⟩ := appendVersion_counted pinned l
    obtain ⟨released, ids'⟩ := releaseInputs_counted counted ids
    simp only [holders, base, appendVersion, releaseInputs, isTask] at counted released
    obtain ⟨-, installed⟩ := ite_none_right_eq_some.mp installed
    split at installed <;> cases installed
    case h_1 isOpen =>
      exact ⟨counted, ids, fun some => .inl ((input some).resolve_right (by simp [isOpen]))⟩
    case h_2 isFlush =>
      exact ⟨counted, ids, fun some => .inl ((input some).resolve_right (by simp [isFlush]))⟩
    case h_3 => exact ⟨released, ids', nofun⟩
    case h_4 => exact ⟨released, ids', nofun⟩

variable {config : Config K V}

section
variable (pinned : s.Pinned)
include pinned

theorem openLog_pinned (logged : s.openLog config = some s') : s'.Pinned := by
  rw [openLog] at logged
  split at logged
  case h_2 => cases logged
  case h_1 edit reused saveManifest isTask =>
    have running : s.inputVersion.isSome → s.running.isSome := fun some =>
      (pinned.input some).resolve_right fun ⟨l, isLog, _⟩ => by simp [isTask] at isLog
    have still : (s.setLog reused).base = none := by
      cases reused <;> simp [setLog, base, newFileNumber, isTask]
    have kept : (s.setLog reused).Pinned := by
      cases reused <;>
        exact pinned.of_same rfl rfl rfl rfl (by rw [still, base, isTask]) rfl
          fun some _ => .inl (running some)
    have running' : (s.setLog reused).inputVersion.isSome → (s.setLog reused).running.isSome := by
      cases reused <;> exact running
    split at logged <;> cases logged
    · exact logAndApply_pinned kept still fun some => .inl (running' some)
    · exact kept.of_same rfl rfl rfl rfl (by rw [still]; rfl) rfl fun some _ =>
        .inl (running' some)

theorem appendRecord_pinned (appended : s.appendRecord = some s') : s'.Pinned := by
  rw [appendRecord] at appended
  split at appended
  case h_2 => cases appended
  case h_1 l isTask =>
    obtain ⟨-, appended⟩ := ite_none_left_eq_some.mp appended
    obtain ⟨records, -, appended⟩ := bind_eq_some_iff.mp appended
    cases appended
    refine pinned.of_same rfl rfl rfl rfl (by simp [base, isTask]) rfl fun _ => Or.imp_right ?_
    rintro ⟨l', isLog, isMove⟩
    cases isTask.symm.trans isLog
    exact ⟨_, rfl, isMove⟩

theorem setCurrent_pinned (named : s.setCurrent = some s')
    (loaded' : s'.loaded = true) : s'.Pinned := by
  rw [setCurrent] at named
  split at named
  case h_1 =>
    cases named
    cases loaded'
  case h_3 => cases named
  case h_2 l isTask =>
    split at named <;> cases named
    refine pinned.of_same rfl rfl rfl rfl (by simp [base, isTask]) rfl fun _ => Or.imp_right ?_
    rintro ⟨l', isLog, isMove⟩
    cases isTask.symm.trans isLog
    exact ⟨_, rfl, isMove⟩

theorem removeFile_pinned (removed : s.removeFile = some s') : s'.Pinned := by
  have still {names : List FileName} (isTask : s.task = .removing names) : ¬ s.moving :=
    fun ⟨l, isLog, _⟩ => by simp [isTask] at isLog
  rw [removeFile] at removed
  split at removed
  case h_3 => cases removed
  all_goals
    rename_i isTask
    cases removed
    exact pinned.of_same rfl rfl rfl rfl (by simp [base, isTask]) rfl fun _ =>
      Or.imp_right fun moves => absurd moves (still isTask)

theorem writeRecovered_pinned (wrote : s.writeRecovered = some s') : s'.Pinned := by
  rw [writeRecovered] at wrote
  split at wrote <;> cases wrote
  rename_i isTask
  refine pinned.of_same rfl rfl rfl rfl (by simp [base, isTask]) rfl fun _ => Or.imp_right ?_
  rintro ⟨l, isLog, -⟩
  cases isTask.symm.trans isLog

theorem compactionRound_pinned (stepped : s.compactionRound config = some s') : s'.Pinned := by
  obtain ⟨running, -, stepped⟩ := bind_eq_some_iff.mp stepped
  obtain ⟨-, stepped⟩ := ite_none_right_eq_some.mp stepped
  obtain ⟨⟨next, compact⟩, -, stepped⟩ := bind_eq_some_iff.mp stepped
  cases stepped
  exact pinned.of_same rfl rfl rfl rfl rfl rfl fun _ _ => .inl rfl

theorem finishCompaction_pinned (finished : s.finishCompaction config = some s') : s'.Pinned := by
  obtain ⟨running, isRunning, finished⟩ := bind_eq_some_iff.mp finished
  obtain ⟨free, finished⟩ := ite_none_right_eq_some.mp finished
  rw [Bool.and_eq_true, free_iff] at free
  obtain ⟨compact, -, finished⟩ := bind_eq_some_iff.mp finished
  cases finished
  have still : s.base = none := by simp [base, free.1.2]
  exact logAndApply_pinned { pinned with } still fun _ => .inl (by simp [isRunning])

end

section
variable [Inhabited V] {config : Config K V}

theorem recover_cases (recovered : s.recover config = some s') :
    ∃ number records set r reused, s.task = .closed ∧ s.files.current = some number ∧
      s.files.descriptors.lookup number = some records ∧
      (VersionSet.recover config.comparator ⟨number, records⟩
        (config.reuseManifest records)).toOption = some set ∧
      Recovery.recoverLogs config { nextFileNumber := set.nextFileNumber }
        (s.files.recoverable set.logNumber set.prevLogNumber) = some (r, reused) ∧
      s' = { s with
        task := .recovering
          { tables := r.edit.newFiles.map (·.2)
            edit := r.edit
            reused
            saveManifest := !config.reuseManifest records ||
              ((s.files.recoverable set.logNumber set.prevLogNumber).filter fun log =>
                reused.all (·.1 ≠ log.1)).any (!·.2.isEmpty) }
        set := { set with
          nextFileNumber := r.nextFileNumber
          lastSequence := max set.lastSequence r.maxSequence }
        versions := [⟨s.currentId + 1, set.current, 1⟩]
        currentId := s.currentId + 1 } := by
  rw [recover] at recovered
  split at recovered
  case h_2 => cases recovered
  case h_1 number closed current =>
    obtain ⟨records, found, recovered⟩ := bind_eq_some_iff.mp recovered
    obtain ⟨set, isSet, recovered⟩ := bind_eq_some_iff.mp recovered
    obtain ⟨-, recovered⟩ := ite_none_right_eq_some.mp recovered
    obtain ⟨⟨r, reused⟩, logs, recovered⟩ := bind_eq_some_iff.mp recovered
    cases recovered
    exact ⟨number, records, set, r, reused, closed, current, found, isSet, logs, rfl⟩

theorem recover_pinned (fresh : s.Fresh) (recovered : s.recover config = some s') : s'.Pinned := by
  rw [fresh] at recovered
  obtain ⟨number, records, set, r, reused, -, -, -, -, -, rfl⟩ := recover_cases recovered
  have nobody : Counted ([] : List (RefCount.Node (Version K V))) [] := ⟨by simp, by simp⟩
  exact ⟨nobody.push (by simp) _, by simp, nofun⟩

theorem step_unloaded (fresh : s.Fresh)
    (unloaded : s.loaded = false) {a : ImplAction K V} (stepped : s.step config a = some s') :
    a = .crash ∨ a = .newDB ∨ a = .recover ∨ a = .setCurrent := by
  rw [fresh] at stepped
  rw [loaded] at unloaded
  cases a <;> simp only [reduceCtorEq, or_true, or_false] <;>
    cases isTask : s.task <;> simp only [isTask, reduceCtorEq] at unloaded <;>
    simp [step, isTask, writeRecovered, openLog, appendRecord, install, removeFile, beginWrite,
      Impl.insert, finishWrite, switchMemTable, failSwitch, capture, release, updateStats, beginFlush,
      buildTable, compact, compactRange, compactionRound, finishCompaction, free] at stepped

end

end Impl
end TalusDB
