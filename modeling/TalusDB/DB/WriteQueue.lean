import TalusDB.DB.MemTable
import TalusDB.Lib.Runs

/-! The queue of `DBImpl::Write`: calls wait in `writers_`, and the one at the front
leads. It makes room, takes a group of batches from the queue, logs and inserts them while
the mutex is free, and takes the calls of its group from the queue. Each step is what a
thread does between two points where others can get the mutex, or a part of the work that
the leader does without it. -/
namespace TalusDB
open List Function

/-- A call of `Write` in the queue. A call without a batch asks for a flush. -/
structure Writer (K V : Type) where
  id : Nat
  batch : Option (List (Op K V))
  sync : Bool
  deriving DecidableEq, Repr

/-- A record of the log: the group's batch with its sequence number, and whether the file
was synced after it was appended. -/
structure LogRecord (K V : Type) where
  sequence : Nat
  ops : List (Op K V)
  synced : Bool := false
  deriving DecidableEq, Repr

/-- The variables of `BuildBatchGroup`: `tmpBatch` is set once the result is no longer the
first batch itself, and `lastWriter` stands at the end of `writers`. -/
structure BatchGroup (K V : Type) where
  size : Nat
  tmpBatch : Option (List (Op K V))
  writers : List (Writer K V)

section
variable {K V : Type}

def maxGroupSize (size : Nat) : Nat := if size ≤ 128 <<< 10 then size + (128 <<< 10) else 1 <<< 20

/-- The loop of `BuildBatchGroup` over the calls behind the first one. -/
def extendGroup (byteSize : List (Op K V) → Nat) (first : Writer K V) (batch : List (Op K V))
    (maxSize : Nat) : BatchGroup K V → List (Writer K V) → BatchGroup K V
  | group, [] => group
  | group, writer :: rest =>
    if writer.sync && !first.sync then group
    else match writer.batch with
      | none =>
        extendGroup byteSize first batch maxSize
          { group with writers := group.writers ++ [writer] } rest
      | some ops =>
        if maxSize < group.size + byteSize ops then group
        else extendGroup byteSize first batch maxSize
          { size := group.size + byteSize ops
            tmpBatch := some (group.tmpBatch.getD batch ++ ops)
            writers := group.writers ++ [writer] } rest

def buildBatchGroup (byteSize : List (Op K V) → Nat) (first : Writer K V)
    (batch : List (Op K V)) (rest : List (Writer K V)) : BatchGroup K V :=
  extendGroup byteSize first batch (maxGroupSize (byteSize batch))
    { size := byteSize batch, tmpBatch := none, writers := [first] } rest

inductive Stage (K V : Type) where
  /-- In the loop of `MakeRoomForWrite`, before the memtable is switched. -/
  | makeRoom (force : Bool)
  | hasRoom
  | addRecord (group : BatchGroup K V) (record : LogRecord K V)
  | sync (group : BatchGroup K V) (record : LogRecord K V)
  | insert (group : BatchGroup K V) (record : LogRecord K V) (rest : List (Entry K V))
  /-- About to take the mutex again. -/
  | relock (group : BatchGroup K V) (record : LogRecord K V) (ok : Bool)
  /-- A flush request that waits for `imm_` to go. -/
  | waitFlush

/-- `arrivals` and `returned` record the calls and their results; `closedLogs` are the logs
of earlier memtables. -/
structure QueueState (K V : Type) where
  arrivals : List (Writer K V) := []
  writers : List (Writer K V) := []
  returned : List (Writer K V × Bool) := []
  stage : Option (Stage K V) := none
  lastSequence : Nat
  tmpBatch : List (Op K V) := []
  closedLogs : List (List (LogRecord K V)) := []
  log : List (LogRecord K V) := []
  mem : List (Entry K V) := []
  imm : Option (List (Entry K V)) := none
  tables : List (List (Entry K V)) := []

inductive QueueAction (K V : Type) where
  | enqueue (batch : Option (List (Op K V))) (sync : Bool)
  | lead
  | switchMemTable
  | keepMemTable
  | makeRoomFails
  | buildBatchGroup
  | addRecord (ok : Bool)
  | sync (ok : Bool)
  | insert
  | insertFails
  | finish
  | flushed
  | flushFails
  | compactMemTable
  deriving DecidableEq, Repr

namespace QueueState

/-- The call that `Write` with these arguments makes. -/
def call (s : QueueState K V) (batch : Option (List (Op K V))) (sync : Bool) : Writer K V :=
  { id := s.arrivals.length, batch, sync }

def enqueue (s : QueueState K V) (batch : Option (List (Op K V))) (sync : Bool) :
    QueueState K V :=
  { s with
    arrivals := s.arrivals ++ [s.call batch sync]
    writers := s.writers ++ [s.call batch sync] }

/-- The call at the front goes on to `MakeRoomForWrite`. -/
def lead (s : QueueState K V) : Option (QueueState K V) :=
  match s.stage, s.writers with
  | none, first :: _ => some { s with stage := some (.makeRoom first.batch.isNone) }
  | _, _ => none

/-- The switch in `MakeRoomForWrite`, which also starts a new log. -/
def switchMemTable (s : QueueState K V) : Option (QueueState K V) :=
  match s.stage, s.imm with
  | some (.makeRoom _), none =>
    some { s with
      closedLogs := s.closedLogs ++ [s.log], log := []
      imm := some s.mem, mem := [], stage := some .hasRoom }
  | _, _ => none

def keepMemTable (s : QueueState K V) : Option (QueueState K V) :=
  match s.stage with
  | some (.makeRoom false) => some { s with stage := some .hasRoom }
  | _ => none

/-- The loop that takes the calls up to `last` from the queue. -/
def popReady (last : Nat) : List (Writer K V) → List (Writer K V) × List (Writer K V)
  | [] => ([], [])
  | writer :: rest =>
    if writer.id = last then ([writer], rest)
    else (writer :: (popReady last rest).1, (popReady last rest).2)

/-- The end of `Write`: the calls up to `last` have this result. -/
def release (s : QueueState K V) (last : Nat) (ok : Bool) : QueueState K V :=
  { s with
    writers := (popReady last s.writers).2
    returned := s.returned ++ (popReady last s.writers).1.map (·, ok)
    stage := none }

def makeRoomFails (s : QueueState K V) : Option (QueueState K V) :=
  match s.stage, s.writers with
  | some (.makeRoom _), first :: _ => some (s.release first.id false)
  | some .hasRoom, first :: _ => some (s.release first.id false)
  | _, _ => none

/-- The rest of the section that holds the mutex: the group and its sequence number. -/
def takeGroup (byteSize : List (Op K V) → Nat) (s : QueueState K V) : Option (QueueState K V) :=
  match s.stage, s.writers with
  | some .hasRoom, first :: rest =>
    match first.batch with
    | none => some { s with stage := some .waitFlush }
    | some batch =>
      let group := buildBatchGroup byteSize first batch rest
      let record := { sequence := s.lastSequence + 1, ops := group.tmpBatch.getD batch }
      some { s with
        tmpBatch := group.tmpBatch.getD s.tmpBatch
        stage := some (.addRecord group record) }
  | _, _ => none

def addRecord (s : QueueState K V) (ok : Bool) : Option (QueueState K V) :=
  match s.stage with
  | some (.addRecord group record) =>
    if ok then some { s with log := s.log ++ [record], stage := some (.sync group record) }
    else some { s with stage := some (.relock group record false) }
  | _ => none

/-- `logfile_->Sync()`, when the leader asks for it. -/
def sync [Inhabited V] (s : QueueState K V) (ok : Bool) : Option (QueueState K V) :=
  match s.stage, s.writers with
  | some (.sync group record), first :: _ =>
    if ok then
      some { s with
        log := if first.sync then s.log.map ({ · with synced := true }) else s.log
        stage := some (.insert group record (MemTable.numbered record.sequence record.ops)) }
    else if first.sync then some { s with stage := some (.relock group record false) }
    else none
  | _, _ => none

/-- The next entry of `InsertInto`, or its end. -/
def insert [LinearOrder K] (s : QueueState K V) : Option (QueueState K V) :=
  match s.stage with
  | some (.insert group record []) => some { s with stage := some (.relock group record true) }
  | some (.insert group record (e :: rest)) =>
    some { s with mem := MemTable.add s.mem e, stage := some (.insert group record rest) }
  | _ => none

def insertFails (s : QueueState K V) : Option (QueueState K V) :=
  match s.stage with
  | some (.insert group record _) => some { s with stage := some (.relock group record false) }
  | _ => none

/-- `LastSequence` goes up also when the write has failed. -/
def finish (s : QueueState K V) : Option (QueueState K V) :=
  match s.stage with
  | some (.relock group record ok) =>
    group.writers.getLast?.map fun last =>
      release { s with
        tmpBatch := if group.tmpBatch.isSome then [] else s.tmpBatch
        lastSequence := s.lastSequence + record.ops.length } last.id ok
  | _ => none

def flushed (s : QueueState K V) : Option (QueueState K V) :=
  match s.stage, s.writers, s.imm with
  | some .waitFlush, first :: _, none => some (s.release first.id true)
  | _, _, _ => none

/-- The wait ends with `bg_error_`. -/
def flushFails (s : QueueState K V) : Option (QueueState K V) :=
  match s.stage, s.writers, s.imm with
  | some .waitFlush, first :: _, some _ => some (s.release first.id false)
  | _, _, _ => none

/-- The background thread's flush. Its compactions do not touch the queue. -/
def compactMemTable (s : QueueState K V) : Option (QueueState K V) :=
  s.imm.map fun imm => { s with tables := s.tables ++ [imm], imm := none }

variable [LinearOrder K] [Inhabited V]

def step (byteSize : List (Op K V) → Nat) (s : QueueState K V) :
    QueueAction K V → Option (QueueState K V)
  | .enqueue batch sync => some (s.enqueue batch sync)
  | .lead => s.lead
  | .switchMemTable => s.switchMemTable
  | .keepMemTable => s.keepMemTable
  | .makeRoomFails => s.makeRoomFails
  | .buildBatchGroup => s.takeGroup byteSize
  | .addRecord ok => s.addRecord ok
  | .sync ok => s.sync ok
  | .insert => s.insert
  | .insertFails => s.insertFails
  | .finish => s.finish
  | .flushed => s.flushed
  | .flushFails => s.flushFails
  | .compactMemTable => s.compactMemTable

/-- A run of the queue, as long as each step meets the condition. -/
abbrev run (byteSize : List (Op K V) → Nat) (allowed : QueueState K V → QueueAction K V → Bool) :
    QueueState K V → List (QueueAction K V) → Option (QueueState K V) :=
  Runs.run (step byteSize) allowed

end QueueState

def Stage.group : Stage K V → Option (BatchGroup K V × LogRecord K V)
  | addRecord group record | sync group record | insert group record _ | relock group record _ =>
    some (group, record)
  | makeRoom _ | hasRoom | waitFlush => none

/-- The actions in which something goes wrong. -/
def QueueAction.fails : QueueAction K V → Bool
  | makeRoomFails | addRecord false | sync false | insertFails | flushFails => true
  | _ => false

inductive QueueState.Steps [LinearOrder K] [Inhabited V] (byteSize : List (Op K V) → Nat)
    (s : QueueState K V) : QueueAction K V → QueueState K V → Prop where
  | enqueue (batch : Option (List (Op K V))) (sync : Bool) :
      Steps byteSize s (.enqueue batch sync) (s.enqueue batch sync)
  | lead {first : Writer K V} {rest : List (Writer K V)} (idle : s.stage = none)
      (queue : s.writers = first :: rest) :
      Steps byteSize s .lead { s with stage := some (.makeRoom first.batch.isNone) }
  | switchMemTable {force : Bool} (here : s.stage = some (.makeRoom force)) (free : s.imm = none) :
      Steps byteSize s .switchMemTable
        { s with
          closedLogs := s.closedLogs ++ [s.log], log := []
          imm := some s.mem, mem := [], stage := some .hasRoom }
  | keepMemTable (here : s.stage = some (.makeRoom false)) :
      Steps byteSize s .keepMemTable { s with stage := some .hasRoom }
  | makeRoomFails {stage : Stage K V} {first : Writer K V} {rest : List (Writer K V)}
      (here : s.stage = some stage) (queue : s.writers = first :: rest) :
      Steps byteSize s .makeRoomFails (s.release first.id false)
  | waitFlush {first : Writer K V} {rest : List (Writer K V)} (here : s.stage = some .hasRoom)
      (queue : s.writers = first :: rest) (request : first.batch = none) :
      Steps byteSize s .buildBatchGroup { s with stage := some .waitFlush }
  | takeGroup {first : Writer K V} {rest : List (Writer K V)} {batch : List (Op K V)}
      (here : s.stage = some .hasRoom) (queue : s.writers = first :: rest)
      (isBatch : first.batch = some batch) :
      Steps byteSize s .buildBatchGroup
        { s with
          tmpBatch := (buildBatchGroup byteSize first batch rest).tmpBatch.getD s.tmpBatch
          stage := some (.addRecord (buildBatchGroup byteSize first batch rest)
            { sequence := s.lastSequence + 1
              ops := (buildBatchGroup byteSize first batch rest).tmpBatch.getD batch }) }
  | addRecord {group : BatchGroup K V} {record : LogRecord K V}
      (here : s.stage = some (.addRecord group record)) :
      Steps byteSize s (.addRecord true)
        { s with log := s.log ++ [record], stage := some (.sync group record) }
  | sync {group : BatchGroup K V} {record : LogRecord K V} {first : Writer K V}
      {rest : List (Writer K V)} (here : s.stage = some (.sync group record))
      (queue : s.writers = first :: rest) :
      Steps byteSize s (.sync true)
        { s with
          log := if first.sync then s.log.map ({ · with synced := true }) else s.log
          stage := some (.insert group record (MemTable.numbered record.sequence record.ops)) }
  | insert {group : BatchGroup K V} {record : LogRecord K V} {e : Entry K V}
      {rest : List (Entry K V)} (here : s.stage = some (.insert group record (e :: rest))) :
      Steps byteSize s .insert
        { s with mem := MemTable.add s.mem e, stage := some (.insert group record rest) }
  | inserted {group : BatchGroup K V} {record : LogRecord K V}
      (here : s.stage = some (.insert group record [])) :
      Steps byteSize s .insert { s with stage := some (.relock group record true) }
  | writeFails {a : QueueAction K V} {stage : Stage K V} {group : BatchGroup K V}
      {record : LogRecord K V} (here : s.stage = some stage)
      (isGroup : stage.group = some (group, record)) (fails : a.fails = true)
      (early : ∀ ok, stage ≠ .relock group record ok) :
      Steps byteSize s a { s with stage := some (.relock group record false) }
  | finish {group : BatchGroup K V} {record : LogRecord K V} {ok : Bool} {last : Writer K V}
      (here : s.stage = some (.relock group record ok))
      (isLast : group.writers.getLast? = some last) :
      Steps byteSize s .finish (QueueState.release { s with
        tmpBatch := if group.tmpBatch.isSome then [] else s.tmpBatch
        lastSequence := s.lastSequence + record.ops.length } last.id ok)
  | flushed {first : Writer K V} {rest : List (Writer K V)} (here : s.stage = some .waitFlush)
      (queue : s.writers = first :: rest) (free : s.imm = none) :
      Steps byteSize s .flushed (s.release first.id true)
  | flushFails {first : Writer K V} {rest : List (Writer K V)} (here : s.stage = some .waitFlush)
      (queue : s.writers = first :: rest) :
      Steps byteSize s .flushFails (s.release first.id false)
  | compactMemTable {imm : List (Entry K V)} (full : s.imm = some imm) :
      Steps byteSize s .compactMemTable { s with tables := s.tables ++ [imm], imm := none }

variable {byteSize : List (Op K V) → Nat} {first : Writer K V} {batch : List (Op K V)}

theorem QueueState.step_steps [LinearOrder K] [Inhabited V]
    {s s' : QueueState K V} {a : QueueAction K V} (stepped : s.step byteSize a = some s') :
    Steps byteSize s a s' := by
  cases a with
  | enqueue batch sync =>
    cases stepped
    exact .enqueue batch sync
  | lead =>
    simp only [step, QueueState.lead] at stepped
    split at stepped
    · cases stepped
      exact .lead ‹_› ‹_›
    · cases stepped
  | switchMemTable =>
    simp only [step, QueueState.switchMemTable] at stepped
    split at stepped
    · cases stepped
      exact .switchMemTable ‹_› ‹_›
    · cases stepped
  | keepMemTable =>
    simp only [step, QueueState.keepMemTable] at stepped
    split at stepped
    · cases stepped
      exact .keepMemTable ‹_›
    · cases stepped
  | makeRoomFails =>
    simp only [step, QueueState.makeRoomFails] at stepped
    split at stepped
    · cases stepped
      exact .makeRoomFails ‹_› ‹_›
    · cases stepped
      exact .makeRoomFails ‹_› ‹_›
    · cases stepped
  | buildBatchGroup =>
    simp only [step, QueueState.takeGroup] at stepped
    split at stepped
    · split at stepped
      · cases stepped
        exact .waitFlush ‹_› ‹_› ‹_›
      · cases stepped
        exact .takeGroup ‹_› ‹_› ‹_›
    · cases stepped
  | addRecord ok =>
    simp only [step, QueueState.addRecord] at stepped
    split at stepped
    case h_1 here =>
      cases ok <;> cases stepped
      · exact .writeFails here rfl rfl (by simp)
      · exact .addRecord here
    case h_2 => cases stepped
  | sync ok =>
    simp only [step, QueueState.sync] at stepped
    split at stepped
    case h_1 here queue =>
      cases ok
      · split at stepped
        · contradiction
        · split at stepped <;> cases stepped
          exact .writeFails here rfl rfl (by simp)
      · cases stepped
        exact .sync here queue
    case h_2 => cases stepped
  | insert =>
    simp only [step, QueueState.insert] at stepped
    split at stepped
    · cases stepped
      exact .inserted ‹_›
    · cases stepped
      exact .insert ‹_›
    · cases stepped
  | insertFails =>
    simp only [step, QueueState.insertFails] at stepped
    split at stepped
    case h_1 here =>
      cases stepped
      exact .writeFails here rfl rfl (by simp)
    case h_2 => cases stepped
  | finish =>
    simp only [step, QueueState.finish] at stepped
    split at stepped
    · obtain ⟨last, isLast, rfl⟩ := Option.map_eq_some_iff.mp stepped
      exact .finish ‹_› isLast
    · cases stepped
  | flushed =>
    simp only [step, QueueState.flushed] at stepped
    split at stepped
    · cases stepped
      exact .flushed ‹_› ‹_› ‹_›
    · cases stepped
  | flushFails =>
    simp only [step, QueueState.flushFails] at stepped
    split at stepped
    · cases stepped
      exact .flushFails ‹_› ‹_›
    · cases stepped
  | compactMemTable =>
    obtain ⟨imm, full, rfl⟩ := Option.map_eq_some_iff.mp stepped
    exact .compactMemTable full

/-- The operations of calls, in order. -/
def opsOf (writers : List (Writer K V)) : List (Op K V) := writers.flatMap (·.batch.getD [])

/-- What `BuildBatchGroup` has taken so far. -/
structure BatchGroup.Taken (first : Writer K V) (batch : List (Op K V)) (group : BatchGroup K V)
    (front : List (Writer K V)) : Prop where
  writers : group.writers = first :: front
  ops : group.tmpBatch.getD batch = opsOf (first :: front)
  sync : first.sync = false → ∀ w ∈ front, w.sync = false

theorem extendGroup_taken {maxSize : Nat} (rest : List (Writer K V)) {group : BatchGroup K V}
    {front : List (Writer K V)} (taken : group.Taken first batch front) :
    ∃ more, more <+: rest ∧
      (extendGroup byteSize first batch maxSize group rest).Taken first batch (front ++ more) := by
  induction rest generalizing group front with
  | nil => exact ⟨[], prefix_rfl, by simpa [extendGroup] using taken⟩
  | cons writer rest ih =>
    have stop : ∃ more, more <+: writer :: rest ∧ group.Taken first batch (front ++ more) :=
      ⟨[], nil_prefix, by simpa using taken⟩
    have goOn {group' : BatchGroup K V} (taken' : group'.Taken first batch (front ++ [writer])) :
        ∃ more, more <+: writer :: rest ∧
          (extendGroup byteSize first batch maxSize group' rest).Taken first batch
            (front ++ more) := by
      obtain ⟨more, isPrefix, taken'⟩ := ih taken'
      exact ⟨writer :: more, by simpa using isPrefix, by simpa using taken'⟩
    rw [extendGroup]
    split
    case isTrue => exact stop
    case isFalse unsynced =>
      have sync (quiet : first.sync = false) : ∀ w ∈ front ++ [writer], w.sync = false := by
        intro w mem
        obtain mem | mem := mem_append.mp mem
        · exact taken.sync quiet w mem
        · rw [mem_singleton.mp mem]
          simpa [quiet] using unsynced
      split
      case h_1 request =>
        refine goOn ⟨by simp [taken.writers], ?_, sync⟩
        simpa [opsOf, request] using taken.ops
      case h_2 ops isBatch =>
        split
        case isTrue => exact stop
        case isFalse =>
          refine goOn ⟨by simp [taken.writers], ?_, sync⟩
          simp [taken.ops, opsOf, isBatch]

/-- A group is an initial part of the queue, and its batch holds the operations of the
batches in it. -/
theorem buildBatchGroup_taken (byteSize : List (Op K V) → Nat) (isBatch : first.batch = some batch)
    (rest : List (Writer K V)) :
    ∃ front, front <+: rest ∧
      (buildBatchGroup byteSize first batch rest).Taken first batch front := by
  have alone : BatchGroup.Taken first batch
      { size := byteSize batch, tmpBatch := none, writers := [first] } [] :=
    ⟨rfl, by simp [opsOf, isBatch], by simp⟩
  exact extendGroup_taken rest alone

namespace QueueState

variable {front back : List (Writer K V)} {last : Writer K V} {s s' : QueueState K V}

theorem popReady_front (distinct : (front ++ back).Pairwise fun w w' => w.id < w'.id)
    (isLast : front.getLast? = some last) :
    popReady last.id (front ++ back) = (front, back) := by
  induction front with
  | nil => cases isLast
  | cons writer front ih =>
    rw [cons_append, popReady]
    cases front with
    | nil =>
      obtain rfl : writer = last := Option.some.inj isLast
      rw [if_pos rfl, nil_append]
    | cons next front =>
      rw [List.getLast?_cons_cons] at isLast
      have less : writer.id < last.id := rel_of_pairwise_cons distinct
        (mem_append_left back (mem_of_getLast? isLast))
      rw [if_neg less.ne, ih (List.Pairwise.of_cons distinct) isLast]

/-- The queue keeps the order of the calls, and the leader's group stands at its front. -/
structure Lined (s : QueueState K V) : Prop where
  order : s.arrivals = s.returned.map Prod.fst ++ s.writers
  distinct : s.arrivals.Pairwise fun w w' => w.id < w'.id
  numbered : ∀ w ∈ s.arrivals, w.id < s.arrivals.length
  leads : s.stage ≠ none → s.writers ≠ []
  group : ∀ stage ∈ s.stage, ∀ taken ∈ stage.group, ∃ first front back,
    s.writers = first :: front ++ back ∧ taken.1.writers = first :: front ∧
      taken.2.ops = opsOf (first :: front) ∧ (first.sync = false → ∀ w ∈ front, w.sync = false)

section
variable (lined : s.Lined)
include lined

theorem Lined.writers_distinct : s.writers.Pairwise fun w w' => w.id < w'.id := by
  have distinct := lined.distinct
  rw [lined.order] at distinct
  exact (pairwise_append.mp distinct).2.1

theorem Lined.release (queue : s.writers = front ++ back) (isLast : front.getLast? = some last)
    (ok : Bool) :
    s.release last.id ok =
      { s with writers := back, returned := s.returned ++ front.map (·, ok), stage := none } := by
  have distinct := lined.writers_distinct
  rw [queue] at distinct
  rw [QueueState.release, queue, popReady_front distinct isLast]

theorem Lined.released (queue : s.writers = front ++ back) (isLast : front.getLast? = some last)
    (ok : Bool) : (s.release last.id ok).Lined := by
  rw [lined.release queue isLast]
  refine ⟨?_, lined.distinct, lined.numbered, by simp, by simp⟩
  rw [lined.order, queue]
  simp [comp_def]

theorem Lined.released_first {first : Writer K V}
    {rest : List (Writer K V)} (queue : s.writers = first :: rest) (ok : Bool) :
    (s.release first.id ok).Lined :=
  lined.released (singleton_append ▸ queue) List.getLast?_singleton ok

theorem Lined.stay (arrivals : s'.arrivals = s.arrivals)
    (writers : s'.writers = s.writers) (returned : s'.returned = s.returned)
    (leads : s'.stage ≠ none → s.writers ≠ [])
    (group : ∀ stage ∈ s'.stage, ∀ taken ∈ stage.group,
      ∃ stage' ∈ s.stage, stage'.group = some taken) : s'.Lined where
  order := by rw [arrivals, writers, returned, lined.order]
  distinct := arrivals ▸ lined.distinct
  numbered := arrivals ▸ lined.numbered
  leads busy := writers ▸ leads busy
  group stage isStage taken isTaken := by
    obtain ⟨stage', here, same⟩ := group stage isStage taken isTaken
    rw [writers]
    exact lined.group stage' here taken same

theorem Lined.enqueue (batch : Option (List (Op K V)))
    (sync : Bool) : (s.enqueue batch sync).Lined where
  order := by simp [QueueState.enqueue, lined.order]
  distinct := by
    refine pairwise_append.mpr ⟨lined.distinct, pairwise_singleton _ _, ?_⟩
    intro w mem w' mem'
    rw [mem_singleton.mp mem']
    exact lined.numbered w mem
  numbered w mem := by
    simp only [QueueState.enqueue, length_append, length_singleton]
    obtain mem | mem := mem_append.mp mem
    · exact Nat.lt_succ_of_lt (lined.numbered w mem)
    · rw [mem_singleton.mp mem]
      exact Nat.lt_succ_self _
  leads _ := by simp [QueueState.enqueue]
  group stage isStage taken isTaken := by
    obtain ⟨first, front, back, queue, rest⟩ := lined.group stage isStage taken isTaken
    exact ⟨first, front, back ++ [s.call batch sync], by simp [QueueState.enqueue, queue], rest⟩

end

variable [LinearOrder K] [Inhabited V]

theorem step_lined {byteSize : List (Op K V) → Nat} {a : QueueAction K V}
    (lined : s.Lined) (steps : Steps byteSize s a s') : s'.Lined := by
  have busy {stage : Stage K V} (here : s.stage = some stage) : s.writers ≠ [] :=
    lined.leads (by simp [here])
  cases steps with
  | enqueue batch sync => exact lined.enqueue batch sync
  | lead idle queue =>
    exact lined.stay rfl rfl rfl (fun _ => by simp [queue]) (by simp [Stage.group])
  | switchMemTable here free =>
    exact lined.stay rfl rfl rfl (fun _ => busy here) (by simp [Stage.group])
  | keepMemTable here => exact lined.stay rfl rfl rfl (fun _ => busy here) (by simp [Stage.group])
  | makeRoomFails here queue => exact lined.released_first queue _
  | waitFlush here queue request =>
    exact lined.stay rfl rfl rfl (fun _ => busy here) (by simp [Stage.group])
  | @takeGroup first rest batch here queue isBatch =>
    obtain ⟨front, ⟨back, isRest⟩, taken⟩ := buildBatchGroup_taken byteSize isBatch rest
    refine { lined with leads := fun _ => busy here, group := ?_ }
    rintro _ ⟨rfl⟩ _ ⟨rfl⟩
    exact ⟨first, front, back, by simp [queue, isRest], taken.writers, taken.ops, taken.sync⟩
  | addRecord here =>
    exact lined.stay rfl rfl rfl (fun _ => busy here) (by simp [Stage.group, here])
  | sync here queue =>
    exact lined.stay rfl rfl rfl (fun _ => busy here) (by simp [Stage.group, here])
  | insert here =>
    exact lined.stay rfl rfl rfl (fun _ => busy here) (by simp [Stage.group, here])
  | inserted here =>
    exact lined.stay rfl rfl rfl (fun _ => busy here) (by simp [Stage.group, here])
  | @writeFails _ stage group record here isGroup fails early =>
    refine lined.stay rfl rfl rfl (fun _ => busy here) ?_
    rintro _ ⟨rfl⟩ _ ⟨rfl⟩
    exact ⟨stage, here, isGroup⟩
  | @finish group record ok last here isLast =>
    obtain ⟨first, front, back, queue, isGroup, -⟩ := lined.group _ here _ rfl
    have same : Lined { s with
        tmpBatch := if group.tmpBatch.isSome then [] else s.tmpBatch
        lastSequence := s.lastSequence + record.ops.length } := { lined with }
    rw [isGroup] at isLast
    exact same.released queue isLast ok
  | flushed here queue free => exact lined.released_first queue _
  | flushFails here queue => exact lined.released_first queue _
  | compactMemTable full => exact { lined with }

end QueueState
end

/-- The bytes of a batch whose keys and values are small. -/
def smallBatch (ops : List (Op Nat Nat)) : Nat := 12 + 5 * ops.length

/-- What the leader of a group does once there is room. -/
def groupSteps (inserts : Nat) : List (QueueAction Nat Nat) :=
  [.keepMemTable, .buildBatchGroup, .addRecord true, .sync true] ++
    List.replicate (inserts + 1) .insert ++ [.finish]

end TalusDB
