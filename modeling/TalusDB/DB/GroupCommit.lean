import TalusDB.DB.WriteQueue

/-! Group commit, when nothing fails and every call has a batch: the log has the batches of
the calls once each and in the order of the queue, the memtable has what the log has, and
every call returns. -/
namespace TalusDB
open List Function MemTable Option
variable {K V : Type}

/-- A succeeding action, with a batch if it is a call. -/
def QueueAction.succeeds : QueueAction K V → Bool
  | enqueue batch _ => batch.isSome
  | a => !a.fails

def QueueAction.arrives : QueueAction K V → Bool
  | enqueue _ _ => true
  | _ => false

/-- The records of the log with the groups of calls they were written for: each record has
the operations of its group, and goes on with the sequence numbers. -/
def Logged : Nat → List (List (Writer K V) × LogRecord K V) → Prop
  | _, [] => True
  | lastSequence, (group, record) :: rest =>
    record.sequence = lastSequence + 1 ∧ record.ops = opsOf group ∧
      Logged (lastSequence + (opsOf group).length) rest

theorem opsOf_append (front back : List (Writer K V)) :
    opsOf (front ++ back) = opsOf front ++ opsOf back := flatMap_append

variable {groups : List (List (Writer K V) × LogRecord K V)} {lastSequence : Nat}

theorem Logged.snoc
    (logged : Logged lastSequence groups) {group : List (Writer K V)} {record : LogRecord K V}
    (sequence : record.sequence =
      lastSequence + (opsOf (groups.flatMap (·.1))).length + 1)
    (ops : record.ops = opsOf group) : Logged lastSequence (groups ++ [(group, record)]) := by
  induction groups generalizing lastSequence with
  | nil => exact ⟨by simpa [opsOf] using sequence, ops, trivial⟩
  | cons first rest ih =>
    obtain ⟨start, isGroup, logged⟩ := logged
    refine ⟨start, isGroup, ih logged ?_⟩
    rw [sequence, flatMap_cons, opsOf_append, length_append]
    omega

theorem Logged.congr {groups' : List (List (Writer K V) × LogRecord K V)}
    (logged : Logged lastSequence groups)
    (same : groups.map (fun pair => (pair.1, pair.2.sequence, pair.2.ops)) =
      groups'.map fun pair => (pair.1, pair.2.sequence, pair.2.ops)) :
    Logged lastSequence groups' := by
  induction groups generalizing lastSequence groups' with
  | nil =>
    rw [map_eq_nil_iff.mp same.symm]
    trivial
  | cons first rest ih =>
    obtain ⟨first', rest', rfl, head, tail⟩ := map_eq_cons_iff.mp same.symm
    obtain ⟨sequence, ops, logged⟩ := logged
    simp only [Prod.mk.injEq] at head
    obtain ⟨writers, sequence', ops'⟩ := head
    refine ⟨sequence'.trans sequence, ?_, ?_⟩
    · rw [ops', ops, writers]
    · rw [writers]
      exact ih logged tail.symm

section
variable [LinearOrder K] [Inhabited V]

/-- The memtable that the records of a log make. -/
def replay (log : List (LogRecord K V)) : List (Entry K V) :=
  log.foldl (fun mem record => insertInto record.sequence record.ops mem) []

theorem replay_snoc (log : List (LogRecord K V)) (record : LogRecord K V) :
    replay (log ++ [record]) = insertInto record.sequence record.ops (replay log) := by
  simp [replay]

theorem replay_synced (log : List (LogRecord K V)) :
    replay (log.map ({ · with synced := true })) = replay log := by
  rw [replay, foldl_map]
  rfl

end

namespace QueueState

/-- All records, those of earlier logs first. -/
def records (s : QueueState K V) : List (LogRecord K V) := s.closedLogs.flatten ++ s.log

/-- The calls whose record is in the log before they have returned. -/
def logging (s : QueueState K V) : List (Writer K V) :=
  match s.stage with
  | some (.sync group _) | some (.insert group _ _) | some (.relock group _ _) => group.writers
  | _ => []

/-- The logged entries that are yet to be inserted. -/
def toInsert [Inhabited V] (s : QueueState K V) : List (Entry K V) :=
  match s.stage with
  | some (.sync _ record) => numbered record.sequence record.ops
  | some (.insert _ _ rest) => rest
  | _ => []

/-- What the queue guarantees when it has started with this last sequence number. -/
structure Commits [LinearOrder K] [Inhabited V] (start : Nat) (s : QueueState K V) : Prop where
  /-- Calls return once, with OK, in the order of the queue. -/
  order : s.arrivals = s.returned.map Prod.fst ++ s.writers
  distinct : s.arrivals.Pairwise fun w w' => w.id < w'.id
  ok : ∀ result ∈ s.returned, result.2 = true
  /-- Each batch is in one record, and a call that syncs returns after its record is
  synced. -/
  logged : ∃ groups : List (List (Writer K V) × LogRecord K V), groups.map Prod.snd = s.records ∧
    groups.flatMap Prod.fst = s.returned.map Prod.fst ++ s.logging ∧ Logged start groups ∧
    ∀ pair ∈ groups, ∀ w ∈ pair.1, w.sync = true → (w, true) ∈ s.returned → pair.2.synced = true
  lastSequence : s.lastSequence = start + (opsOf (s.returned.map Prod.fst)).length
  mem : s.toInsert.foldl MemTable.add s.mem = replay s.log
  imm : ∀ imm ∈ s.imm, ∃ log ∈ s.closedLogs.getLast?, imm = replay log
  tmpBatch : s.tmpBatch = ((s.stage.bind Stage.group).bind (·.1.tmpBatch)).getD []

/-- The record in the log that its group has not returned for. -/
def InFlight (s : QueueState K V) (flight : List (List (Writer K V) × LogRecord K V)) : Prop :=
  match s.stage with
  | some (.sync group record) =>
    flight = [(group.writers, record)] ∧ ∃ log, s.log = log ++ [record]
  | some (.insert group _ _) | some (.relock group _ _) =>
    ∃ record, flight = [(group.writers, record)] ∧
      ∀ w ∈ group.writers, w.sync = true → record.synced = true
  | _ => flight = []

/-- The invariant: the records of the calls that have returned, and the one in flight. -/
structure Committing [LinearOrder K] [Inhabited V] (start : Nat) (s : QueueState K V) : Prop where
  lined : s.Lined
  batches : ∀ w ∈ s.arrivals, w.batch ≠ none
  ok : ∀ result ∈ s.returned, result.2 = true
  stage : s.stage ≠ some .waitFlush ∧ ∀ group record, s.stage ≠ some (.relock group record false)
  sequence : ∀ stage ∈ s.stage, ∀ taken ∈ stage.group, taken.2.sequence = s.lastSequence + 1
  logged : ∃ done flight : List (List (Writer K V) × LogRecord K V),
    (done ++ flight).map Prod.snd = s.records ∧
    done.flatMap Prod.fst = s.returned.map Prod.fst ∧ Logged start (done ++ flight) ∧
    (∀ pair ∈ done, ∀ w ∈ pair.1, w.sync = true → pair.2.synced = true) ∧ s.InFlight flight
  lastSequence : s.lastSequence = start + (opsOf (s.returned.map Prod.fst)).length
  mem : s.toInsert.foldl MemTable.add s.mem = replay s.log
  imm : ∀ imm ∈ s.imm, ∃ log ∈ s.closedLogs.getLast?, imm = replay log
  tmpBatch : s.tmpBatch = ((s.stage.bind Stage.group).bind (·.1.tmpBatch)).getD []

variable [LinearOrder K] [Inhabited V]

theorem Committing.initial (start : Nat) :
    Committing start ({ lastSequence := start } : QueueState K V) where
  lined := ⟨rfl, .nil, by simp, by simp, by simp⟩
  batches := by simp
  ok := by simp
  stage := by simp
  sequence := by simp
  logged := ⟨[], [], rfl, rfl, trivial, by simp, rfl⟩
  lastSequence := rfl
  mem := rfl
  imm := by simp
  tmpBatch := rfl

section
variable {start : Nat} {s s' : QueueState K V} {byteSize : List (Op K V) → Nat}
  {group : BatchGroup K V} {record : LogRecord K V}

theorem Committing.logged_idle (committing : Committing start s)
    (quiet : ∀ flight, s.InFlight flight → flight = []) :
    ∃ done : List (List (Writer K V) × LogRecord K V), done.map Prod.snd = s.records ∧
      done.flatMap Prod.fst = s.returned.map Prod.fst ∧ Logged start done ∧
      ∀ pair ∈ done, ∀ w ∈ pair.1, w.sync = true → pair.2.synced = true := by
  obtain ⟨done, flight, records, returned, logged, synced, inFlight⟩ := committing.logged
  rw [quiet flight inFlight, append_nil] at records logged
  exact ⟨done, records, returned, logged, synced⟩

variable {stage : Stage K V} {a : QueueAction K V}

theorem Committing.quiet (committing : Committing start s)
    {tmpBatch : List (Op K V)} (quiet : ∀ flight, s.InFlight flight → flight = [])
    (inserted : s.toInsert = []) (lined : Lined { s with tmpBatch, stage := some stage })
    (active : stage ≠ .waitFlush ∧ ∀ group record, stage ≠ .relock group record false)
    (sequence : ∀ taken ∈ stage.group, taken.2.sequence = s.lastSequence + 1)
    (quiet' : InFlight { s with tmpBatch, stage := some stage } [])
    (inserted' : toInsert { s with tmpBatch, stage := some stage } = [])
    (tmp : tmpBatch = (stage.group.bind (·.1.tmpBatch)).getD []) :
    Committing start { s with tmpBatch, stage := some stage } := by
  obtain ⟨done, records, returned, logged, synced⟩ := committing.logged_idle quiet
  have mem : s.mem = replay s.log := by simpa [inserted] using committing.mem
  refine { committing with
    lined := lined, stage := by simpa using active
    sequence := by rintro _ ⟨rfl⟩; exact sequence
    logged := ⟨done, [], ?_, returned, by rwa [append_nil], synced, quiet'⟩
    mem := by rw [inserted']; exact mem
    tmpBatch := tmp }
  rw [append_nil]
  exact records

theorem addRecord_committing (committing : Committing start s)
    (here : s.stage = some (.addRecord group record)) (lined : Lined { s with
      log := s.log ++ [record], stage := some (.sync group record) }) :
    Committing start { s with log := s.log ++ [record], stage := some (.sync group record) } := by
  obtain ⟨done, records, returned, logged, synced⟩ :=
    committing.logged_idle (by simp [InFlight, here])
  obtain ⟨first, front, back, -, isGroup, ops, -⟩ := committing.lined.group _ here _ rfl
  have sequence := committing.sequence _ here _ rfl
  refine { committing with
    lined := lined, stage := by simp
    sequence := by simpa [Stage.group] using sequence
    logged := ⟨done, [(group.writers, record)], ?_, returned, logged.snoc ?_ (isGroup ▸ ops),
      synced, rfl, s.log, rfl⟩
    mem := ?_
    tmpBatch := by simpa [here, Stage.group] using committing.tmpBatch }
  · simp [QueueState.records, records]
  · rw [sequence, returned, committing.lastSequence]
  · have mem : s.mem = replay s.log := by simpa [toInsert, here] using committing.mem
    rw [replay_snoc, ← mem]
    rfl

/-- The sync reaches all records of the current log. -/
def markSynced (pair : List (Writer K V) × LogRecord K V) : List (Writer K V) × LogRecord K V :=
  (pair.1, { pair.2 with synced := true })

theorem sync_committing (committing : Committing start s) {first : Writer K V}
    {rest : List (Writer K V)} (here : s.stage = some (.sync group record))
    (queue : s.writers = first :: rest) (lined : Lined { s with
      log := if first.sync then s.log.map ({ · with synced := true }) else s.log
      stage := some (.insert group record (numbered record.sequence record.ops)) }) :
    Committing start { s with
      log := if first.sync then s.log.map ({ · with synced := true }) else s.log
      stage := some (.insert group record (numbered record.sequence record.ops)) } := by
  obtain ⟨done, flight, records, returned, logged, synced, inFlight⟩ := committing.logged
  simp only [InFlight, here] at inFlight
  obtain ⟨rfl, log, isLog⟩ := inFlight
  obtain ⟨leader, front, back, queue', isGroup, -, follows⟩ := committing.lined.group _ here _ rfl
  obtain rfl : first = leader := by
    rw [queue] at queue'
    exact (List.cons.inj queue').1
  have mem : (numbered record.sequence record.ops).foldl MemTable.add s.mem =
      replay s.log := by
    simpa [toInsert, here] using committing.mem
  refine { committing with
    lined := lined, stage := by simp
    sequence := by simpa [Stage.group, here] using committing.sequence _ here
    logged := ?_, mem := ?_
    tmpBatch := by simpa [here, Stage.group] using committing.tmpBatch }
  · cases syncs : first.sync with
    | false =>
      refine ⟨done, [(group.writers, record)], ?_, returned, logged, synced, record, rfl, ?_⟩
      · simpa [QueueState.records] using records
      · intro w inGroup sync
        rw [isGroup] at inGroup
        obtain rfl | inFront := mem_cons.mp inGroup
        · rw [syncs] at sync
          cases sync
        · rw [follows syncs w inFront] at sync
          cases sync
    | true =>
      rw [QueueState.records, isLog, map_append, ← append_assoc] at records
      obtain ⟨records, -⟩ := append_inj' records rfl
      obtain ⟨older, current, rfl, isOlder, isCurrent⟩ := map_eq_append_iff.mp records
      refine ⟨older ++ current.map markSynced, [markSynced (group.writers, record)], ?_, ?_, ?_, ?_,
        _, rfl, fun _ _ _ => rfl⟩
      · simp [QueueState.records, isLog, isOlder, ← isCurrent, markSynced, comp_def]
      · simpa [markSynced, flatMap_map] using returned
      · refine logged.congr ?_
        simp [markSynced, comp_def]
      · intro pair mem w inGroup sync
        obtain mem | mem := mem_append.mp mem
        · exact synced pair (mem_append_left _ mem) w inGroup sync
        · obtain ⟨pair', -, rfl⟩ := mem_map.mp mem
          rfl
  · cases first.sync with
    | false => exact mem
    | true => exact mem.trans (replay_synced s.log).symm

theorem finish_committing (committing : Committing start s) {ok : Bool} {last : Writer K V}
    (here : s.stage = some (.relock group record ok))
    (isLast : group.writers.getLast? = some last) :
    Committing start (QueueState.release { s with
        tmpBatch := if group.tmpBatch.isSome then [] else s.tmpBatch
        lastSequence := s.lastSequence + record.ops.length } last.id ok) := by
  have isOk : ok = true := by
    cases ok with
    | true => rfl
    | false => exact absurd here (committing.stage.2 group record)
  obtain ⟨first, front, back, queue, isGroup, ops, -⟩ := committing.lined.group _ here _ rfl
  rw [isGroup] at isLast
  have lined : Lined { s with
      tmpBatch := if group.tmpBatch.isSome then [] else s.tmpBatch
      lastSequence := s.lastSequence + record.ops.length } := { committing.lined with }
  have released := lined.released queue isLast ok
  rw [lined.release queue isLast] at released ⊢
  obtain ⟨done, flight, records, returned, logged, synced, inFlight⟩ := committing.logged
  simp only [InFlight, here] at inFlight
  obtain ⟨record', rfl, flightSynced⟩ := inFlight
  have writers : (List.map (·, ok) (first :: front)).map Prod.fst = first :: front := by
    simp [comp_def]
  refine { committing with
    lined := released, ok := ?_, stage := by simp, sequence := by simp
    logged := ⟨done ++ [(group.writers, record')], [], ?_, ?_, ?_, ?_, rfl⟩
    lastSequence := ?_
    mem := by simpa [toInsert, here] using committing.mem
    tmpBatch := ?_ }
  · intro result mem
    obtain mem | mem := mem_append.mp mem
    · exact committing.ok result mem
    · obtain ⟨w, -, rfl⟩ := mem_map.mp mem
      exact isOk
  · rw [append_nil]
    exact records
  · rw [flatMap_append, map_append, returned, writers]
    simpa using isGroup
  · rwa [append_nil]
  · intro pair mem
    obtain mem | mem := mem_append.mp mem
    · exact synced pair mem
    · rw [mem_singleton.mp mem]
      exact flightSynced
  · rw [map_append, writers, opsOf_append, length_append, ← ops,
      committing.lastSequence, Nat.add_assoc]
  · have tmp := committing.tmpBatch
    cases isTmp : group.tmpBatch with
    | none => simpa [here, Stage.group, isTmp] using tmp
    | some batch => simp

theorem step_committing (committing : Committing start s)
    (succeeds : a.succeeds = true) (steps : Steps byteSize s a s') : Committing start s' := by
  have lined := step_lined committing.lined steps
  cases steps with
  | enqueue batch sync =>
    refine { committing with lined := lined, batches := fun w mem => ?_ }
    obtain mem | mem := mem_append.mp mem
    · exact committing.batches w mem
    · rw [mem_singleton.mp mem]
      exact isSome_iff_ne_none.mp succeeds
  | lead idle queue =>
    exact committing.quiet (by simp [InFlight, idle]) (by simp [toInsert, idle]) lined (by simp)
      (by simp [Stage.group]) rfl rfl (by simpa [idle, Stage.group] using committing.tmpBatch)
  | switchMemTable here free =>
    obtain ⟨done, records, returned, logged, synced⟩ :=
      committing.logged_idle (by simp [InFlight, here])
    have mem : s.mem = replay s.log := by simpa [toInsert, here] using committing.mem
    refine { committing with
      lined := lined, stage := by simp, sequence := by simp [Stage.group]
      logged := ⟨done, [], ?_, returned, by rw [append_nil]; exact logged, synced, rfl⟩
      mem := rfl
      imm := by simp [mem]
      tmpBatch := by simpa [here, Stage.group] using committing.tmpBatch }
    simp [QueueState.records, records]
  | keepMemTable here =>
    exact committing.quiet (by simp [InFlight, here]) (by simp [toInsert, here]) lined (by simp)
      (by simp [Stage.group]) rfl rfl (by simpa [here, Stage.group] using committing.tmpBatch)
  | makeRoomFails here queue => simp [QueueAction.succeeds, QueueAction.fails] at succeeds
  | waitFlush here queue request =>
    have waits := committing.batches _ (committing.lined.order ▸ mem_append_right _
      (queue ▸ mem_cons_self))
    exact absurd request waits
  | takeGroup here queue isBatch =>
    have tmp : s.tmpBatch = [] := by simpa [here, Stage.group] using committing.tmpBatch
    exact committing.quiet (by simp [InFlight, here]) (by simp [toInsert, here]) lined (by simp)
      (by simp [Stage.group]) rfl rfl (by simp [Stage.group, tmp])
  | addRecord here => exact addRecord_committing committing here lined
  | sync here queue => exact sync_committing committing here queue lined
  | insert here =>
    exact { committing with
      lined := lined, stage := by simp
      sequence := by simpa [Stage.group, here] using committing.sequence _ here
      logged := by simpa [InFlight, here, QueueState.records] using committing.logged
      mem := by simpa [toInsert, here] using committing.mem
      tmpBatch := by simpa [here, Stage.group] using committing.tmpBatch }
  | inserted here =>
    exact { committing with
      lined := lined, stage := by simp
      sequence := by simpa [Stage.group, here] using committing.sequence _ here
      logged := by simpa [InFlight, here, QueueState.records] using committing.logged
      mem := by simpa [toInsert, here] using committing.mem
      tmpBatch := by simpa [here, Stage.group] using committing.tmpBatch }
  | writeFails here isGroup fails early => cases a <;> simp_all [QueueAction.succeeds, QueueAction.fails]
  | finish here isLast => exact finish_committing committing here isLast
  | flushed here queue free => exact absurd here committing.stage.1
  | flushFails here queue => exact absurd here committing.stage.1
  | compactMemTable full => exact { committing with lined := lined, imm := by simp }

omit [LinearOrder K] [Inhabited V] in
theorem Lined.logging_unreturned (lined : s.Lined) {w : Writer K V} (flying : w ∈ s.logging) :
    w ∉ s.returned.map Prod.fst := by
  have waits : w ∈ s.writers := by
    have inGroup {stage : Stage K V} (here : s.stage = some stage)
        {taken : BatchGroup K V × LogRecord K V} (isGroup : stage.group = some taken)
        (mem : w ∈ taken.1.writers) : w ∈ s.writers := by
      obtain ⟨first, front, back, queue, writers, -⟩ := lined.group _ here _ isGroup
      rw [writers] at mem
      exact queue ▸ mem_append_left back mem
    rw [logging] at flying
    split at flying
    case h_1 here => exact inGroup here rfl flying
    case h_2 here => exact inGroup here rfl flying
    case h_3 here => exact inGroup here rfl flying
    case h_4 => cases flying
  intro back
  have distinct := lined.distinct
  rw [lined.order] at distinct
  exact Nat.lt_irrefl _ ((pairwise_append.mp distinct).2.2 w back w waits)

theorem Committing.commits (committing : Committing start s) : s.Commits start := by
  obtain ⟨done, flight, records, returned, logged, synced, inFlight⟩ := committing.logged
  have isLogging : flight.flatMap Prod.fst = s.logging := by
    cases here : s.stage with
    | none =>
      simp only [InFlight, logging, here] at inFlight ⊢
      rw [inFlight, flatMap_nil]
    | some stage =>
      cases stage with
      | makeRoom | hasRoom | addRecord | waitFlush =>
        simp only [InFlight, logging, here] at inFlight ⊢
        rw [inFlight, flatMap_nil]
      | sync =>
        simp only [InFlight, logging, here] at inFlight ⊢
        obtain ⟨rfl, -⟩ := inFlight
        exact flatMap_singleton _ _
      | insert | relock =>
        simp only [InFlight, logging, here] at inFlight ⊢
        obtain ⟨record, rfl, -⟩ := inFlight
        exact flatMap_singleton _ _
  refine { committing with
    order := committing.lined.order, distinct := committing.lined.distinct
    logged := ⟨done ++ flight, records, ?_, logged, ?_⟩ }
  · rw [flatMap_append, returned, isLogging]
  · intro pair mem w inGroup sync back
    obtain mem | mem := mem_append.mp mem
    · exact synced pair mem w inGroup sync
    · have flying : w ∈ s.logging := isLogging ▸ mem_flatMap.mpr ⟨pair, mem, inGroup⟩
      exact absurd (mem_map_of_mem back) (committing.lined.logging_unreturned flying)

/-- A call in the queue is never stuck. -/
theorem Lined.progress (byteSize : List (Op K V) → Nat) (lined : s.Lined) (waits : s.writers ≠ []) :
    ∃ a s', a.arrives = false ∧ a.fails = false ∧ s.step byteSize a = some s' := by
  obtain ⟨first, rest, queue⟩ := exists_cons_of_ne_nil waits
  cases here : s.stage with
  | none => exact ⟨.lead, _, rfl, rfl, by simp [step, lead, here, queue]; rfl⟩
  | some stage =>
    cases stage with
    | makeRoom force =>
      cases full : s.imm with
      | none => exact ⟨.switchMemTable, _, rfl, rfl, by simp [step, switchMemTable, here, full]; rfl⟩
      | some imm => exact ⟨.compactMemTable, _, rfl, rfl, by simp [step, compactMemTable, full]; rfl⟩
    | hasRoom =>
      cases isBatch : first.batch with
      | none =>
        exact ⟨.buildBatchGroup, _, rfl, rfl, by simp [step, takeGroup, here, queue, isBatch]; rfl⟩
      | some batch =>
        exact ⟨.buildBatchGroup, _, rfl, rfl, by simp [step, takeGroup, here, queue, isBatch]; rfl⟩
    | addRecord group record =>
      exact ⟨.addRecord true, _, rfl, rfl, by simp [step, addRecord, here]; rfl⟩
    | sync group record => exact ⟨.sync true, _, rfl, rfl, by simp [step, sync, here, queue]; rfl⟩
    | insert group record todo =>
      cases todo with
      | nil => exact ⟨.insert, _, rfl, rfl, by simp [step, insert, here]; rfl⟩
      | cons e todo => exact ⟨.insert, _, rfl, rfl, by simp [step, insert, here]; rfl⟩
    | relock group record ok =>
      obtain ⟨first, front, back, -, isGroup, -⟩ := lined.group _ here _ rfl
      have last : group.writers.getLast? = some (front.getLast?.getD first) := by
        rw [isGroup, List.getLast?_cons]
      exact ⟨.finish, _, rfl, rfl, by simp only [step, finish, here, last, map_some]; rfl⟩
    | waitFlush =>
      cases full : s.imm with
      | none => exact ⟨.flushed, _, rfl, rfl, by simp [step, flushed, here, queue, full]; rfl⟩
      | some imm => exact ⟨.compactMemTable, _, rfl, rfl, by simp [step, compactMemTable, full]; rfl⟩

/-- Steps other than the arrival of a call. -/
def Follows (byteSize : List (Op K V) → Nat) (s' s : QueueState K V) : Prop :=
  ∃ a, a.arrives = false ∧ s.step byteSize a = some s'

/-- How far the leader is from its end. -/
def toGo (s : QueueState K V) : Nat :=
  match s.stage, s.writers with
  | none, [] => 0
  | none, _ :: _ => 7
  | some (.makeRoom _), _ => 6
  | some .hasRoom, _ => 5
  | some (.addRecord _ _), _ => 4
  | some (.sync _ _), _ => 3
  | some (.insert _ _ _), _ => 2
  | some (.relock _ _ _), _ | some .waitFlush, _ => 1

/-- What goes down with every step but an arrival: the calls, the stages of the leader, the
entries to insert, the memtable to flush. -/
def remaining (s : QueueState K V) : ℕ ×ₗ ℕ ×ₗ ℕ ×ₗ ℕ :=
  toLex (s.writers.length, toLex (s.toGo, toLex (s.toInsert.length, s.imm.toList.length)))

omit [LinearOrder K] in
theorem remaining_lt : s'.remaining < s.remaining ↔
    s'.writers.length < s.writers.length ∨ s'.writers.length = s.writers.length ∧
      (s'.toGo < s.toGo ∨ s'.toGo = s.toGo ∧
        (s'.toInsert.length < s.toInsert.length ∨ s'.toInsert.length = s.toInsert.length ∧
          s'.imm.toList.length < s.imm.toList.length)) := by
  simp only [remaining, Prod.Lex.toLex_lt_toLex]

omit [LinearOrder K] [Inhabited V] in
theorem popReady_length {writers : List (Writer K V)} (last : Nat) (waits : writers ≠ []) :
    (popReady last writers).2.length < writers.length := by
  induction writers with
  | nil => exact absurd rfl waits
  | cons writer rest ih =>
    rw [popReady]
    split
    · simp
    · cases rest with
      | nil => simp [popReady]
      | cons next rest => exact (ih (by simp)).trans (by simp)

omit [LinearOrder K] in
theorem remaining_release (s : QueueState K V) (last : Nat) (ok : Bool)
    (here : s.stage = some stage) : (s.release last ok).remaining < s.remaining := by
  rw [remaining_lt]
  cases queue : s.writers with
  | nil =>
    refine .inr ⟨by simp [release, queue, popReady], .inl ?_⟩
    have ended : (s.release last ok).toGo = 0 := by simp [release, queue, popReady, toGo]
    rw [ended]
    cases stage <;> simp [toGo, here]
  | cons first rest =>
    refine .inl ?_
    simpa [release, queue] using popReady_length last (cons_ne_nil first rest)

theorem step_remaining (steps : Steps byteSize s a s')
    (stays : a.arrives = false) : s'.remaining < s.remaining := by
  cases steps with
  | enqueue => cases stays
  | lead idle queue => simp [remaining_lt, toGo, idle, queue]
  | switchMemTable here free => simp [remaining_lt, toGo, here]
  | keepMemTable here => simp [remaining_lt, toGo, here]
  | makeRoomFails here queue => exact remaining_release s _ _ here
  | waitFlush here queue request => simp [remaining_lt, toGo, here]
  | takeGroup here queue isBatch => simp [remaining_lt, toGo, here]
  | addRecord here => simp [remaining_lt, toGo, here]
  | sync here queue => simp [remaining_lt, toGo, here]
  | insert here => simp [remaining_lt, toGo, toInsert, here]
  | inserted here => simp [remaining_lt, toGo, here]
  | @writeFails _ stage group record here isGroup fails early =>
    cases stage with
    | addRecord | sync | insert => simp [remaining_lt, toGo, here]
    | relock group record ok =>
      cases isGroup
      exact absurd rfl (early ok)
    | makeRoom | hasRoom | waitFlush => cases isGroup
  | finish here isLast => exact remaining_release _ _ _ here
  | flushed here queue free => exact remaining_release s _ _ here
  | flushFails here queue => exact remaining_release s _ _ here
  | compactMemTable full => simp [remaining_lt, toGo, toInsert, full]

theorem follows_wellFounded (byteSize : List (Op K V) → Nat) :
    WellFounded (Follows byteSize : QueueState K V → QueueState K V → Prop) :=
  Subrelation.wf (fun ⟨_, stays, stepped⟩ => step_remaining (step_steps stepped) stays)
    (InvImage.wf remaining wellFounded_lt)

/-- Group commit: nothing is lost, duplicated or reordered, a call that waits is never
stuck, and without further calls the queue comes to its end. -/
theorem group_commit (byteSize : List (Op K V) → Nat) (start : Nat)
    (actions : List (QueueAction K V)) {s : QueueState K V}
    (ran : run byteSize (fun _ a => a.succeeds) { lastSequence := start } actions = some s) :
    s.Commits start ∧
      (s.writers ≠ [] →
        ∃ a s', a.arrives = false ∧ a.fails = false ∧ s.step byteSize a = some s') ∧
      Acc (Follows byteSize) s := by
  have committing : Committing start s := Runs.run_induct
    (fun _ _ _ committing succeeds stepped =>
      step_committing committing succeeds (step_steps stepped)) (.initial start) ran
  exact ⟨committing.commits, committing.lined.progress byteSize,
    (follows_wellFounded byteSize).apply s⟩

/-- Two calls in one group, of which the leader syncs. -/
theorem group_commit_two : ∃ s, run smallBatch (fun _ a => a.succeeds) { lastSequence := 4 }
        ([.enqueue (some [.put 0 7]) true, .lead, .enqueue (some [.delete 0]) false] ++
          groupSteps 2) = some s ∧
      s.returned.length = 2 ∧ s.Commits 4 := by
  have returns : (run smallBatch (fun _ a => a.succeeds) { lastSequence := 4 }
      ([.enqueue (some [.put 0 7]) true, .lead, .enqueue (some [.delete 0]) false] ++
        groupSteps 2)).any (fun s => s.returned.length == 2) = true := by
    decide +kernel
  obtain ⟨s, ran, two⟩ := (any_eq_true _ _).mp returns
  exact ⟨s, ran, eq_of_beq two, (group_commit smallBatch 4 _ ran).1⟩

end
end QueueState
end TalusDB
