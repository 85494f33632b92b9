import TalusDB.DB.Journal
import TalusDB.DB.Outputs
import TalusDB.Table.Merger
import TalusDB.Table.TwoLevel

/-! The open database where operations on its files fail: the statuses in `DoCompactionWork`,
and what `bg_error_` keeps the threads from. -/
namespace TalusDB
open Option Impl

inductive Fault where
  | newOutput
  | finishOutput
  | syncOutput
  | closeOutput
  | verifyOutput
  | input
  | shutdown
  | logAndApply
  | buildTable
  | syncLog
  | closeLog
  deriving DecidableEq, Repr

/-- The results of the operations in `FinishCompactionOutputFile`. -/
structure Finishing where
  finish : Bool := true
  sync : Bool := true
  close : Bool := true
  verify : Bool := true

/-- The result of `TableBuilder::Add`, which may have to write a block. -/
inductive Adding where
  | ok
  | notWritten
  | notFlushed
  deriving DecidableEq, Repr

/-- The results of the operations in a round of `DoCompactionWork`. -/
structure Round where
  before : Finishing := {}
  newFile : Bool := true
  add : Adding := .ok
  full : Finishing := {}

/-- The variables of `DoCompactionWork`, with the statuses of the builder and of the input. -/
structure Work (K V : Type) [LinearOrder K] where
  compact : CompactionState K V
  builderOk : Bool := true
  inputOk : Bool := true
  /-- Some operation has failed. The source does not keep this. -/
  failed : Bool := false

namespace Work
variable {K V : Type} [LinearOrder K] (options : Options K V)

/-- Where a part of `DoCompactionWork` leaves the next file number, the variables and the
status. -/
abbrev Result (K V : Type) [LinearOrder K] := Nat × Work K V × Option Fault

/-- Goes on unless the status is an error. -/
def andThen (r : Option (Result K V)) (f : Nat → Work K V → Option (Result K V)) :
    Option (Result K V) :=
  r.bind fun (next, w, status) => if status.isSome then some (next, w, status) else f next w

def fail (next : Nat) (w : Work K V) (fault : Fault) : Result K V :=
  (next, { w with failed := true }, some fault)

/-- The status of `FinishCompactionOutputFile`. -/
def finishStatus (o : Finishing) (w : Work K V) (entries : List (Entry K V)) : Option Fault :=
  if !w.inputOk then some .input
  else if !(w.builderOk && o.finish) then some .finishOutput
  else if !o.sync then some .syncOutput
  else if !o.close then some .closeOutput
  else if !entries.isEmpty && !o.verify then some .verifyOutput
  else none

/-- The number of an output that cannot be finished stays in `outputs`; here it stays with the
builder. -/
def finishCompactionOutputFile (o : Finishing) (next : Nat) (w : Work K V) : Option (Result K V) :=
  match w.compact.builder with
  | none => some (next, w, none)
  | some (_, entries) =>
    match finishStatus o w entries with
    | some fault => some (w.fail next fault)
    | none => (w.compact.finishOutputFile options).map fun compact => (next, { w with compact }, none)

/-- A new output is begun before a key that reaches too far into the grandparents. -/
def closeBefore (o : Finishing) (next : Nat) (w : Work K V) (key : InternalKey K) :
    Option (Result K V) :=
  let (stop, compact) := w.compact.shouldStopBefore options key
  if stop then { w with compact }.finishCompactionOutputFile options o next
  else some (next, { w with compact }, none)

/-- `OpenCompactionOutputFile` where there is no builder. -/
def openCompactionOutputFile (newFile : Bool) (next : Nat) (w : Work K V) : Option (Result K V) :=
  match w.compact.builder with
  | some _ => some (next, w, none)
  | none =>
    let w := { w with compact := { w.compact with builder := some (next, []) }, builderOk := true }
    if newFile then some (next + 1, w, none) else some (w.fail (next + 1) .newOutput)

/-- `TableBuilder::Add`. `FileSize` counts what has been written, and so an entry whose block is
not is left out here. -/
def add (result : Adding) (e : Entry K V) (w : Work K V) : Work K V :=
  match w.compact.builder with
  | none => w
  | some (number, entries) =>
    let added := { w with
      compact := { w.compact with builder := some (number, entries ++ [e]) } }
    if !w.builderOk then w
    else match result with
      | .ok => added
      | .notWritten => { w with builderOk := false, failed := true }
      | .notFlushed => { added with builderOk := false, failed := true }

def finishIfFull (o : Finishing) (next : Nat) (w : Work K V) : Option (Result K V) :=
  if w.compact.builder.any fun output =>
      w.compact.compaction.maxOutputFileSize options ≤ options.builderSize output.2 then
    w.finishCompactionOutputFile options o next
  else some (next, w, none)

def handleEntry (o : Round) (next : Nat) (w : Work K V) (e : Entry K V) : Option (Result K V) :=
  let (drop, compact) := w.compact.dropEntry e
  if drop then some (next, { w with compact }, none)
  else
    andThen ({ w with compact }.openCompactionOutputFile o.newFile next) fun next w =>
      (w.add o.add e).finishIfFull options o.full next

def round (o : Round) (next : Nat) (w : Work K V) : Option (Result K V) :=
  match w.compact.input with
  | [] => none
  | e :: rest =>
    andThen (w.closeBefore options o.before next e.key) fun next w =>
      andThen (w.handleEntry options o next e) fun next w =>
        some (next, { w with compact := { w.compact with input := rest } }, none)

/-- `DoCompactionWork` behind its loop, up to `InstallCompactionResults`. -/
def finish (shuttingDown : Bool) (o : Finishing) (next : Nat) (w : Work K V) :
    Option (Result K V) :=
  if shuttingDown then some (w.fail next .shutdown)
  else
    andThen (w.finishCompactionOutputFile options o next) fun next w =>
      if w.inputOk then some (next, w, none) else some (w.fail next .input)

section fine
variable {options} {w : Work K V} (next : Nat)

theorem andThen_map {β : Type} (r : Option β) (f : β → Nat) (g : β → Work K V)
    (rest : Nat → Work K V → Option (Result K V)) :
    andThen (r.map fun x => (f x, g x, none)) rest = r.bind fun x => rest (f x) (g x) := by
  cases r <;> rfl

variable (builder : w.builderOk = true) (input : w.inputOk = true)
include builder input

theorem finishCompactionOutputFile_fine : w.finishCompactionOutputFile options {} next =
      (w.compact.finishOutputFile options).map fun compact => (next, { w with compact }, none) := by
  rw [finishCompactionOutputFile]
  split
  case h_1 none => simp [CompactionState.finishOutputFile, none]
  case h_2 number entries isBuilder => simp [finishStatus, builder, input]

theorem closeBefore_fine (key : InternalKey K) : w.closeBefore options {} next key =
      (w.compact.closeBefore options key).map fun compact => (next, { w with compact }, none) := by
  rw [closeBefore, CompactionState.closeBefore]
  dsimp only
  split
  · exact finishCompactionOutputFile_fine next builder input
  · rfl

theorem finishIfFull_fine :
    w.finishIfFull options {} next = (w.compact.finishIfFull options next).map
      fun r => (r.1, { w with compact := r.2 }, none) := by
  rw [finishIfFull, CompactionState.finishIfFull]
  split
  · rw [finishCompactionOutputFile_fine next builder input, map_map]
    rfl
  · rfl

theorem handleEntry_fine (e : Entry K V) : w.handleEntry options {} next e =
      (w.compact.handleEntry options next e).map fun r => (r.1, { w with compact := r.2 }, none) := by
  obtain ⟨c, b, i, failed⟩ := w
  cases builder
  cases input
  rw [handleEntry, CompactionState.handleEntry]
  dsimp only
  split
  · rfl
  · rw [openCompactionOutputFile, CompactionState.addEntry]
    dsimp only
    split <;> rename_i isBuilder <;> rw [isBuilder]
    · simp only [andThen, bind_some, isSome_none, Bool.false_eq_true, if_false, add,
        isBuilder, Bool.not_true]
      exact finishIfFull_fine next rfl rfl
    · simp only [andThen, if_true, bind_some, isSome_none, Bool.false_eq_true,
        if_false, add, Bool.not_true, List.nil_append]
      exact finishIfFull_fine (next + 1) rfl rfl

theorem round_fine : w.round options {} next = (w.compact.step options next).map
      fun r => (r.1, { w with compact := r.2 }, none) := by
  rw [round, CompactionState.step]
  cases w.compact.input with
  | nil => rfl
  | cons e rest =>
    simp only [closeBefore_fine next builder input, andThen_map]
    cases w.compact.closeBefore options e.key with
    | none => rfl
    | some compact =>
      simp only [bind_some, bind_eq_bind]
      rw [handleEntry_fine (w := { w with compact }) next builder input, andThen_map]
      cases CompactionState.handleEntry options next compact e <;> rfl

theorem finish_fine : w.finish options false {} next = (w.compact.finishOutputFile options).map
      fun compact => (next, { w with compact }, none) := by
  rw [finish, if_neg Bool.false_ne_true, finishCompactionOutputFile_fine next builder input,
    andThen_map]
  cases w.compact.finishOutputFile options <;> simp [input]

end fine

end Work

/-- An iterator of which only the status is kept. -/
def statusIterator : Cursor.Iterator Nat Unit Bool where
  entry _ := none
  ok := id
  step _ ok := some ok

/-- A child of the input, over the files of a level or over the blocks of a table, of which only
the statuses are kept. -/
abbrev InputChild := TwoLevelIterator Bool Bool Unit

inductive ChildEvent where
  | failIndex
  | failData
  /-- The next block or table, which it may not be possible to read. -/
  | setData (ok : Option Bool)

namespace InputChild

def iterator : Cursor.Iterator Nat Unit InputChild :=
  TwoLevelIterator.iterator statusIterator statusIterator (fun _ => true) 0

def after (c : InputChild) : ChildEvent → InputChild
  | .failIndex => { c with index := false }
  | .failData => { c with data := c.data.map fun _ => false }
  | .setData ok => c.setDataIterator statusIterator ok

/-- The event is an error. -/
def fails (c : InputChild) : ChildEvent → Bool
  | .failIndex => true
  | .failData => c.data.isSome
  | .setData ok => ok = some false

theorem after_ok {c : InputChild} {event : ChildEvent}
    (failed : c.fails event = true ∨ iterator.ok c = false) : iterator.ok (c.after event) = false := by
  rw [iterator, TwoLevelIterator.ok_eq_false] at failed ⊢
  cases event with
  | failIndex => exact .inl rfl
  | failData =>
    obtain failed | index | saved | ⟨ok, isData, -⟩ := failed
    · obtain ⟨ok, isData⟩ := isSome_iff_exists.mp failed
      exact .inr (.inr ⟨false, by simp [after, isData], rfl⟩)
    · exact .inl index
    · exact .inr (.inl saved)
    · exact .inr (.inr ⟨false, by simp [after, mem_def.mp isData], rfl⟩)
  | setData ok =>
    obtain failed | index | lost := failed
    · exact .inr (.inr ⟨false, of_decide_eq_true failed, rfl⟩)
    · exact .inl index
    · exact .inr (.inl ((TwoLevelIterator.setDataIterator_ok ok).mpr lost))

section
variable {K ν σ τ η : Type} {index : Cursor.Iterator K η σ} {data : Cursor.Iterator K ν τ}
  {t t' : TwoLevelIterator σ τ η} {c : InputChild}

/-- The statuses of an iterator are these. -/
structure Shows (index : Cursor.Iterator K η σ) (data : Cursor.Iterator K ν τ)
    (c : InputChild) (t : TwoLevelIterator σ τ η) : Prop where
  index : c.index = index.ok t.index
  data : c.data = t.data.map data.ok
  saved : c.ok = t.ok

theorem Shows.ok_eq [DecidableEq η] (shows : Shows index data c t) (block : η → τ) (fuel : Nat) :
    (TwoLevelIterator.iterator index data block fuel).ok t = iterator.ok c := by
  rw [Bool.eq_iff_iff, ← not_iff_not, Bool.not_eq_true, Bool.not_eq_true, iterator,
    TwoLevelIterator.ok_eq_false, TwoLevelIterator.ok_eq_false, shows.saved, shows.data]
  simp [shows.index, statusIterator]

/-- These are the events of iterators with two levels. -/
theorem Shows.moves (indexed : Cursor.Lasting index) (lasting : Cursor.Lasting data)
    (moves : TwoLevelIterator.Moves index data t' t) (shows : Shows index data c t) :
    ∃ events : List ChildEvent, Shows index data (events.foldl after c) t' := by
  induction moves generalizing c with
  | done => exact ⟨[], shows⟩
  | @index t op i stepped _ ih =>
    cases now : index.ok i with
    | false =>
      obtain ⟨events, shows⟩ := ih (c := c.after .failIndex) ⟨now.symm, shows.data, shows.saved⟩
      exact ⟨.failIndex :: events, shows⟩
    | true =>
      have before : index.ok t.index = true := by
        by_contra failed
        simp [indexed op _ _ stepped (by simpa using failed)] at now
      exact ih ⟨by rw [shows.index, before, now], shows.data, shows.saved⟩
  | @set t handle iter _ ih =>
    obtain ⟨events, shows⟩ := ih (c := c.after (.setData (iter.map data.ok)))
      ⟨shows.index, rfl, by
        simp [after, TwoLevelIterator.setDataIterator, shows.saved, shows.data, statusIterator,
          all_map]⟩
    exact ⟨.setData _ :: events, shows⟩
  | @data t op d d' isData stepped _ ih =>
    cases now : data.ok d' with
    | false =>
      obtain ⟨events, shows⟩ := ih (c := c.after .failData)
        ⟨shows.index, by simp [after, shows.data, isData, now], shows.saved⟩
      exact ⟨.failData :: events, shows⟩
    | true =>
      have before : data.ok d = true := by
        by_contra failed
        simp [lasting op _ _ stepped (by simpa using failed)] at now
      exact ih ⟨shows.index, by simp [shows.data, isData, before, now], shows.saved⟩

end
end InputChild

/-- The number of children that `MakeInputIterator` makes. -/
def Compaction.inputChildren {K V : Type} [LinearOrder K] (c : Compaction K V) : Nat :=
  (if c.level = 0 then c.inputs.1.length else min 1 c.inputs.1.length) + min 1 c.inputs.2.length

/-- An open database, with `bg_error_`, `shutting_down_` and the statuses of the compaction that
is running. -/
structure Faulty (K V : Type) [LinearOrder K] where
  impl : Impl K V
  bgError : Option Fault := none
  shuttingDown : Bool := false
  builderOk : Bool := true
  /-- The children of the input, by their places. -/
  children : Nat → InputChild := fun _ => { index := true }
  /-- Some operation of the last compaction has failed. The source does not keep this. -/
  failed : Bool := false

inductive FaultyAction (K V : Type) where
  /-- A step in which nothing fails. -/
  | impl (a : ImplAction K V)
  | shutDown
  /-- A leader cannot sync the log. -/
  | failSync
  /-- The log that was full cannot be closed. -/
  | failClose
  /-- An event of a child of the input. Where it is an error, the input will show these entries from
  now on. -/
  | input (child : Nat) (event : ChildEvent) (shown : List (Entry K V))
  | round (o : Round)
  | finish (o : Finishing)
  | failFlush
  /-- `LogAndApply` fails, with the record in the descriptor or not. -/
  | failLog (written : Bool)

namespace Faulty
variable {K V : Type} [LinearOrder K] (config : Config K V) (t : Faulty K V)

def recordBackgroundError (fault : Fault) : Faulty K V :=
  { t with bgError := t.bgError.or (some fault) }

def removeObsoleteFiles : Faulty K V :=
  if t.bgError.isSome then { t with impl := { t.impl with task := .idle } }
  else { t with impl := t.impl.removeObsoleteFiles }

/-- What the threads may do: writers stop at `bg_error_`, and so does the background thread
unless it is inside a compaction. The rounds and the end of a compaction are steps of their
own. -/
def permits : ImplAction K V → Bool
  | .crash | .newDB | .recover | .writeRecovered | .openLog => false
  | .compactionRound | .finishCompaction => false
  | .beginWrite _ | .switchMemTable | .failSwitch => t.bgError.isNone
  | .beginFlush => t.impl.running.isSome || t.bgError.isNone && !t.shuttingDown
  | .compact | .compactRange _ _ _ => t.bgError.isNone && !t.shuttingDown
  | _ => true

/-- `RemoveObsoleteFiles` returns at once when there is a background error. -/
def implStep [Inhabited V] (a : ImplAction K V) : Option (Faulty K V) :=
  if t.permits a then
    (t.impl.step config a).map fun s =>
      match a with
      | .install =>
        if t.bgError.isSome then { t with impl := { s with task := .idle } } else { t with impl := s }
      | .compact | .compactRange _ _ _ =>
        { t with impl := s, builderOk := true, children := fun _ => { index := true }, failed := false }
      | _ => { t with impl := s }
  else none

/-- `Sync` of the log fails before the batch goes into the memtable. -/
def failSync : Option (Faulty K V) :=
  t.impl.writing.map fun w =>
    { t with impl := { t.impl with
        writing := none, set := { t.impl.set with lastSequence := w.lastSequence } }
      }.recordBackgroundError .syncLog

def onInput (child : Nat) (event : ChildEvent) (shown : List (Entry K V)) : Option (Faulty K V) := do
  let running ← t.impl.running
  if t.impl.free && child < running.compact.compaction.inputChildren then
    let fails := (t.children child).fails event
    let input := if fails then shown else running.compact.input
    some { t with
      impl := { t.impl with
        running := some { running with compact := { running.compact with input } } }
      children := Function.update t.children child ((t.children child).after event)
      failed := t.failed || fails }
  else none

/-- `GetStatus` of the input. -/
def inputOk (c : Compaction K V) : Bool :=
  (MergingIterator.iterator InputChild.iterator).ok
    { children := (List.range c.inputChildren).map t.children }

def work (running : Running K V) : Work K V :=
  { compact := running.compact
    builderOk := t.builderOk
    inputOk := t.inputOk running.compact.compaction
    failed := t.failed }

/-- The end of `BackgroundCompaction` for a compaction that has failed, with
`CleanupCompaction`. -/
def failCompaction (fault : Fault) (numbers : List Nat) : Faulty K V :=
  let t := t.recordBackgroundError fault
  { t with
    impl := { t.impl.releaseInputs with
      running := none
      pendingOutputs := t.impl.pendingOutputs.filter (· ∉ numbers) }
    failed := true }.removeObsoleteFiles

def round (o : Round) : Option (Faulty K V) := do
  let running ← t.impl.running
  if t.impl.free && !t.shuttingDown then
    let s := t.impl
    let (next, w, status) ← (t.work running).round config.options o s.set.nextFileNumber
    let opened := next != s.set.nextFileNumber
    let files := if opened && o.newFile then { s.files with
      tables := s.files.tables.insert s.set.nextFileNumber [] } else s.files
    let t := { t with
      impl := { s with
        files := files.writeTables (finishedSince running.compact w.compact)
        set := { s.set with nextFileNumber := next }
        pendingOutputs := if opened then s.set.nextFileNumber :: s.pendingOutputs
          else s.pendingOutputs
        running := some { running with compact := w.compact } }
      builderOk := w.builderOk
      failed := w.failed }
    match status with
    | some fault => some (t.failCompaction fault w.compact.numbers)
    | none => some t
  else none

def finish (o : Finishing) : Option (Faulty K V) := do
  let running ← t.impl.running
  if t.impl.free && (running.compact.input.isEmpty || t.shuttingDown) then
    let (_, w, status) ← (t.work running).finish config.options t.shuttingDown o
      t.impl.set.nextFileNumber
    let c := w.compact.compaction
    let t := { t with
      impl := { t.impl with
        files := t.impl.files.writeTables (finishedSince running.compact w.compact) } }
    match status with
    | some fault => some (t.failCompaction fault w.compact.numbers)
    | none =>
      some { t with
        impl := t.impl.logAndApply config
          { toVersionEdit := w.compact.installEdit, compactPointers := [(c.level, c.pointer)] }
          (.compaction w.compact.numbers) }
  else none

/-- `WriteLevel0Table` fails in `BuildTable`, which removes the file. -/
def failFlush : Option (Faulty K V) :=
  match t.impl.task with
  | .building number base =>
    some ({ t with
      impl := { t.impl.unpin base with
        files := t.impl.files.removeFile (.table number)
        pendingOutputs := t.impl.pendingOutputs.filter (· ≠ number)
        task := .idle } }.recordBackgroundError .buildTable)
  | _ => none

/-- `LogAndApply` fails, at the record or at `CURRENT`, in one of its callers. -/
def failLog (written : Bool) : Option (Faulty K V) :=
  match t.impl.task with
  | .logging l =>
    if l.appended && !l.newManifest then none
    else
      let s := t.impl
      let number := s.set.manifestFileNumber
      let record := if written && !l.appended then [l.edit] else []
      let descriptors := if l.newManifest then s.files.descriptors.erase number
        else s.files.descriptors.insert number ((s.files.descriptors.lookup number).getD [] ++ record)
      let t := { t with
        impl := { s with
          files := { s.files with descriptors }
          set := { s.set with descriptorOpen := !l.newManifest } } }
      match l.caller with
      | .open => none
      | .compactMemTable =>
        some ({ t with impl := { t.impl with task := .idle } }.recordBackgroundError .logAndApply)
      | .trivialMove =>
        some ({ t with impl := { t.impl.releaseInputs with task := .idle }
          }.recordBackgroundError .logAndApply)
      | .compaction outputs => some (t.failCompaction .logAndApply outputs)
  | _ => none

def step [Inhabited V] (t : Faulty K V) : FaultyAction K V → Option (Faulty K V)
  | .impl a => t.implStep config a
  | .shutDown => some { t with shuttingDown := true }
  | .failSync => t.failSync
  | .failClose => some (t.recordBackgroundError .closeLog)
  | .input child event shown => t.onInput child event shown
  | .round o => t.round config o
  | .finish o => t.finish config o
  | .failFlush => t.failFlush
  | .failLog written => t.failLog written

variable {config t}

/-- Where nothing has failed and nothing fails, these are the steps of the database without
errors. -/
theorem round_fine (builder : t.builderOk = true) (input : ∀ c, t.inputOk c = true)
    (up : t.shuttingDown = false) :
    t.round config {} = (t.impl.compactionRound config).map fun s => { t with impl := s } := by
  rw [round, compactionRound]
  cases t.impl.running with
  | none => rfl
  | some running =>
    simp only [bind_eq_bind, bind_some, up, Bool.not_false, Bool.and_true]
    split
    case isFalse => rfl
    case isTrue =>
      rw [Work.round_fine (w := t.work running) _ builder (input _)]
      cases stepped : running.compact.step config.options t.impl.set.nextFileNumber with
      | none => simp [work, stepped]
      | some r => simp only [work, stepped, map_some, bind_some]

theorem finish_fine (builder : t.builderOk = true) (input : ∀ c, t.inputOk c = true)
    (up : t.shuttingDown = false) :
    t.finish config {} = (t.impl.finishCompaction config).map fun s => { t with impl := s } := by
  rw [finish, finishCompaction]
  cases isRunning : t.impl.running with
  | none => rfl
  | some running =>
    simp only [bind_eq_bind, bind_some, up, Bool.or_false]
    split
    case isFalse => rfl
    case isTrue =>
      rw [Work.finish_fine (w := t.work running) _ builder (input _)]
      cases finished : running.compact.finishOutputFile config.options with
      | none => simp [work, finished]
      | some compact =>
        have numbers : compact.numbers = compact.outputs.map (·.number) := by
          rw [CompactionState.finishOutputFile] at finished
          split at finished
          case h_1 none =>
            cases finished
            simp [CompactionState.numbers, none]
          case h_2 =>
            obtain ⟨file, -, same⟩ := bind_eq_some_iff.mp finished
            cases same
            simp [CompactionState.numbers]
        simp only [work, finished, map_some, bind_some, numbers, isRunning]

abbrev run [Inhabited V] (config : Config K V) (allowed : Faulty K V → FaultyAction K V → Bool) :=
  Runs.run (S := Faulty K V) (step config) allowed

end Faulty
end TalusDB
