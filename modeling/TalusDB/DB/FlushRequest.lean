import TalusDB.DB.WriteQueue

/-! A `Write` without a batch asks for a flush. It forces a switch of the memtable when it
leads, and then waits for the flush. In a group of another leader it is released along
with the batches, and nothing is flushed. -/
namespace TalusDB
open List Option Bool
variable {K V : Type}

/-- A flush request stands where the group of the leader reaches to: the calls before it
sync only if the leader does, and have no more bytes than the group may have. -/
def flushInReach (byteSize : List (Op K V) → Nat) (leaderSync : Bool) (maxSize : Nat) :
    Nat → List (Writer K V) → Bool
  | _, [] => false
  | size, writer :: rest =>
    if writer.sync && !leaderSync then false
    else match writer.batch with
      | none => true
      | some ops =>
        if maxSize < size + byteSize ops then false
        else flushInReach byteSize leaderSync maxSize (size + byteSize ops) rest

theorem extendGroup_batches {byteSize : List (Op K V) → Nat} {first : Writer K V}
    {batch : List (Op K V)} {maxSize : Nat} {rest : List (Writer K V)} {group : BatchGroup K V}
    (batches : ∀ w ∈ group.writers, w.batch ≠ none)
    (clear : flushInReach byteSize first.sync maxSize group.size rest = false) :
    ∀ w ∈ (extendGroup byteSize first batch maxSize group rest).writers, w.batch ≠ none := by
  induction rest generalizing group with
  | nil => exact batches
  | cons writer rest ih =>
    rw [extendGroup]
    rw [flushInReach] at clear
    split
    case isTrue => exact batches
    case isFalse unsynced =>
      rw [if_neg unsynced] at clear
      split
      case h_1 request => simp [request] at clear
      case h_2 ops isBatch =>
        simp only [isBatch] at clear
        split
        case isTrue => exact batches
        case isFalse fits =>
          rw [if_neg fits] at clear
          refine ih (fun w mem => ?_) clear
          obtain mem | mem := mem_append.mp mem
          · exact batches w mem
          · rw [mem_singleton.mp mem, isBatch]
            exact some_ne_none ops

namespace QueueState

/-- The step does not build a group that a flush request gets into. -/
def outOfReach (byteSize : List (Op K V) → Nat) (s : QueueState K V) (a : QueueAction K V) : Bool :=
  match a, s.writers with
  | .buildBatchGroup, first :: rest => first.batch.all fun batch =>
    !flushInReach byteSize first.sync (maxGroupSize (byteSize batch)) (byteSize batch) rest
  | _, _ => true

/-- A step of the queue, or a compaction. A compaction can leave entries out, here those with some
sequence numbers; in which tables it puts the others makes no difference. -/
inductive FlushAction (K V : Type) where
  | queue (a : QueueAction K V)
  | compact (dropped : List Nat)

def compact (s : QueueState K V) (dropped : List Nat) : QueueState K V :=
  { s with tables := s.tables.map (filter (·.sequence ∉ dropped)) }

def flushStep [LinearOrder K] [Inhabited V] (byteSize : List (Op K V) → Nat) (s : QueueState K V) :
    FlushAction K V → Option (QueueState K V)
  | .queue a => s.step byteSize a
  | .compact dropped => some (s.compact dropped)

abbrev flushRun [LinearOrder K] [Inhabited V] (byteSize : List (Op K V) → Nat)
    (allowed : QueueState K V → FlushAction K V → Bool) :
    QueueState K V → List (FlushAction K V) → Option (QueueState K V) :=
  Runs.run (flushStep byteSize) allowed

/-- The step builds no group that a flush request gets into, and leaves out none of the entries that
the request found in the memtable. -/
def honours (byteSize : List (Op K V) → Nat) (seen : List (Entry K V)) (s : QueueState K V) :
    FlushAction K V → Bool
  | .queue a => s.outOfReach byteSize a
  | .compact dropped => seen.all (·.sequence ∉ dropped)

/-- An entry is in a table of the current version. -/
def InTable (s : QueueState K V) (e : Entry K V) : Prop := ∃ table ∈ s.tables, e ∈ table

/-- What the request `w` is owed, when `seen` was in the memtable at its arrival. -/
structure Owed (w : Writer K V) (seen : List (Entry K V)) (s : QueueState K V) : Prop where
  lined : s.Lined
  arrived : w ∈ s.arrivals
  kept : ∀ e ∈ seen, e ∈ s.mem ∨ e ∈ s.imm.getD [] ∨ s.InTable e
  forced : s.writers.head? = some w → s.stage ≠ some (.makeRoom false)
  switched : s.writers.head? = some w → s.stage = some .hasRoom ∨ s.stage = some .waitFlush →
    ∀ e ∈ seen, e ∈ s.imm.getD [] ∨ s.InTable e
  grouped : ∀ stage ∈ s.stage, ∀ taken ∈ stage.group, w ∉ taken.1.writers
  done : (w, true) ∈ s.returned → ∀ e ∈ seen, s.InTable e

section
variable {w : Writer K V} {seen : List (Entry K V)} {s s' : QueueState K V}

theorem Lined.call_fresh (lined : s.Lined) (batch : Option (List (Op K V))) (sync : Bool) :
    s.call batch sync ∉ s.arrivals := fun mem => Nat.lt_irrefl _ (lined.numbered _ mem)

theorem Owed.start (lined : s.Lined) (sync : Bool) :
    Owed (s.call none sync) s.mem (s.enqueue none sync) := by
  have fresh := lined.call_fresh none sync
  have waits : s.call none sync ∉ s.writers := fun mem =>
    fresh (lined.order ▸ mem_append_right _ mem)
  -- at the front only of an empty queue, which nobody leads
  have front : (s.enqueue none sync).writers.head? = some (s.call none sync) → s.stage = none := by
    intro first
    by_contra busy
    cases queue : s.writers with
    | nil => exact lined.leads busy queue
    | cons other rest =>
      simp only [enqueue, queue, cons_append, List.head?_cons, Option.some.injEq] at first
      exact waits (queue ▸ first ▸ mem_cons_self)
  refine ⟨lined.enqueue none sync, by simp [enqueue], fun e mem => .inl mem, fun first => ?_,
    fun first => ?_, fun stage here taken isTaken mem => ?_, fun back => ?_⟩
  · simp [enqueue, front first]
  · simp [enqueue, front first]
  · obtain ⟨other, group, rest, queue, isGroup, -⟩ := lined.group stage here taken isTaken
    rw [isGroup] at mem
    exact waits (queue ▸ mem_append_left rest mem)
  · refine absurd ?_ fresh
    rw [lined.order]
    exact mem_append_left _ (mem_map_of_mem (f := Prod.fst) back)

theorem Owed.release (owed : Owed w seen s) (lined : s.Lined) {front back : List (Writer K V)}
    (queue : s.writers = front ++ back) {last : Writer K V} (isLast : front.getLast? = some last)
    {ok : Bool} (honoured : ok = true → w ∈ front → ∀ e ∈ seen, s.InTable e) :
    Owed w seen (s.release last.id ok) := by
  have released := lined.released queue isLast ok
  rw [lined.release queue isLast] at released ⊢
  refine ⟨released, owed.arrived, owed.kept, by simp, by simp, by simp, fun back => ?_⟩
  obtain back | now := mem_append.mp back
  · exact owed.done back
  · obtain ⟨w', mem, same⟩ := mem_map.mp now
    cases same
    exact honoured rfl mem

theorem Owed.stay (owed : Owed w seen s) (lined : s'.Lined) (arrivals : s'.arrivals = s.arrivals)
    (returned : s'.returned = s.returned) (mem : ∀ e ∈ s.mem, e ∈ s'.mem) (imm : s'.imm = s.imm)
    (tables : s'.tables = s.tables)
    (forced : s'.writers.head? = some w → s'.stage ≠ some (.makeRoom false))
    (switched : s'.writers.head? = some w → s'.stage = some .hasRoom ∨ s'.stage = some .waitFlush →
      ∀ e ∈ seen, e ∈ s.imm.getD [] ∨ s.InTable e)
    (grouped : ∀ stage ∈ s'.stage, ∀ taken ∈ stage.group, w ∉ taken.1.writers) :
    Owed w seen s' where
  lined := lined
  arrived := arrivals ▸ owed.arrived
  kept e inSeen := by
    rw [imm, InTable, tables]
    exact (owed.kept e inSeen).imp_left (mem e)
  forced := forced
  switched first here := by
    rw [imm]
    simpa only [InTable, tables] using switched first here
  grouped := grouped
  done back := by
    simpa only [InTable, tables] using owed.done (returned ▸ back)

end

section
variable [LinearOrder K] [Inhabited V] {w : Writer K V} {seen : List (Entry K V)}
  {s s' : QueueState K V} {a : QueueAction K V} {byteSize : List (Op K V) → Nat}

theorem step_owed (request : w.batch = none) (owed : Owed w seen s)
    (clear : s.outOfReach byteSize a = true) (steps : Steps byteSize s a s') : Owed w seen s' := by
  have lined := step_lined owed.lined steps
  cases steps with
  | enqueue batch sync =>
    have other : s.call batch sync ≠ w := fun same =>
      owed.lined.call_fresh batch sync (same ▸ owed.arrived)
    -- the new call is at the front only of an empty queue, and it is not `w`
    have front : (s.enqueue batch sync).writers.head? = some w → s.writers.head? = some w := by
      simp only [QueueState.enqueue]
      cases s.writers with
      | nil => exact fun first => absurd (Option.some.inj first) other
      | cons first rest => exact id
    exact { owed with
      lined := lined
      arrived := mem_append_left _ owed.arrived
      forced := fun first => owed.forced (front first)
      switched := fun first => owed.switched (front first) }
  | lead idle queue =>
    refine owed.stay lined rfl rfl (fun _ mem => mem) rfl rfl (fun first => ?_) (by simp)
      (by simp [Stage.group])
    rw [queue, List.head?_cons, Option.some.injEq] at first
    simp [first, request]
  | switchMemTable here free =>
    have moved : ∀ e ∈ seen, e ∈ s.mem ∨ s.InTable e := by
      intro e inSeen
      simpa [free] using owed.kept e inSeen
    exact { owed with
      lined := lined
      kept := fun e inSeen => .inr (moved e inSeen)
      forced := by simp
      switched := fun _ _ => moved
      grouped := by simp [Stage.group] }
  | keepMemTable here =>
    exact owed.stay lined rfl rfl (fun _ mem => mem) rfl rfl (by simp)
      (fun first => absurd here (owed.forced first)) (by simp [Stage.group])
  | makeRoomFails here queue =>
    exact owed.release owed.lined (singleton_append ▸ queue) getLast?_singleton (by simp)
  | waitFlush here queue isRequest =>
    exact owed.stay lined rfl rfl (fun _ mem => mem) rfl rfl (by simp)
      (fun first _ => owed.switched first (.inl here)) (by simp [Stage.group])
  | @takeGroup first rest batch here queue isBatch =>
    refine owed.stay lined rfl rfl (fun _ mem => mem) rfl rfl (by simp) (by simp) ?_
    rintro _ ⟨rfl⟩ _ ⟨rfl⟩ mem
    simp only [outOfReach, queue, isBatch, all_some, not_eq_true'] at clear
    exact extendGroup_batches (by simp [isBatch]) clear w mem request
  | addRecord here =>
    exact owed.stay lined rfl rfl (fun _ mem => mem) rfl rfl (by simp) (by simp)
      (by simpa [Stage.group, here] using owed.grouped _ here)
  | sync here queue =>
    exact owed.stay lined rfl rfl (fun _ mem => mem) rfl rfl (by simp) (by simp)
      (by simpa [Stage.group, here] using owed.grouped _ here)
  | insert here =>
    exact owed.stay lined rfl rfl (fun _ mem => MemTable.mem_add.mpr (.inr mem)) rfl rfl (by simp)
      (by simp) (by simpa [Stage.group, here] using owed.grouped _ here)
  | inserted here =>
    exact owed.stay lined rfl rfl (fun _ mem => mem) rfl rfl (by simp) (by simp)
      (by simpa [Stage.group, here] using owed.grouped _ here)
  | writeFails here isGroup fails early =>
    refine owed.stay lined rfl rfl (fun _ mem => mem) rfl rfl (by simp) (by simp) ?_
    rintro _ ⟨rfl⟩ _ ⟨rfl⟩
    exact owed.grouped _ here _ isGroup
  | @finish group record ok last here isLast =>
    obtain ⟨first, front, back, queue, isGroup, -⟩ := owed.lined.group _ here _ rfl
    have outside := owed.grouped _ here _ rfl
    rw [isGroup] at isLast outside
    have same : Owed w seen { s with
        tmpBatch := if group.tmpBatch.isSome then [] else s.tmpBatch
        lastSequence := s.lastSequence + record.ops.length } := { owed with lined := { owed.lined with } }
    exact same.release same.lined queue isLast fun _ mem => absurd mem outside
  | @flushed first rest here queue free =>
    refine owed.release owed.lined (singleton_append ▸ queue) getLast?_singleton ?_
    intro _ mem e inSeen
    have isFirst : s.writers.head? = some w := by rw [queue, mem_singleton.mp mem]; rfl
    simpa [free] using owed.switched isFirst (.inr here) e inSeen
  | flushFails here queue =>
    exact owed.release owed.lined (singleton_append ▸ queue) getLast?_singleton (by simp)
  | @compactMemTable imm full =>
    have flushed : ∀ e, e ∈ s.imm.getD [] ∨ s.InTable e → ∃ table ∈ s.tables ++ [imm], e ∈ table := by
      rintro e (inImm | ⟨table, mem, inside⟩)
      · exact ⟨imm, by simp, by simpa [full] using inImm⟩
      · exact ⟨table, mem_append_left _ mem, inside⟩
    exact { owed with
      lined := lined
      kept := fun e inSeen => (owed.kept e inSeen).imp_right fun moved => .inr (flushed e moved)
      switched := fun first here e inSeen =>
        .inr (flushed e (owed.switched first here e inSeen))
      done := fun back e inSeen => flushed e (.inr (owed.done back e inSeen)) }

theorem flushStep_lined {a : FlushAction K V} (lined : s.Lined)
    (stepped : s.flushStep byteSize a = some s') : s'.Lined := by
  cases a with
  | queue a => exact step_lined lined (step_steps stepped)
  | compact dropped =>
    cases stepped
    exact { lined with }

theorem flushStep_owed {a : FlushAction K V} (request : w.batch = none) (owed : Owed w seen s)
    (clear : s.honours byteSize seen a = true) (stepped : s.flushStep byteSize a = some s') :
    Owed w seen s' := by
  cases a with
  | queue a => exact step_owed request owed clear (step_steps stepped)
  | compact dropped =>
    cases stepped
    have spared : ∀ e ∈ seen, s.InTable e → (s.compact dropped).InTable e := by
      rintro e inSeen ⟨table, inTables, inside⟩
      exact ⟨_, mem_map_of_mem inTables, mem_filter.mpr ⟨inside, all_eq_true.mp clear e inSeen⟩⟩
    exact { owed with
      lined := { owed.lined with }
      kept := fun e inSeen => (owed.kept e inSeen).imp_right (Or.imp_right (spared e inSeen))
      switched := fun first here e inSeen =>
        (owed.switched first here e inSeen).imp_right (spared e inSeen)
      done := fun back e inSeen => spared e inSeen (owed.done back e inSeen) }

/-- In runs whose groups take in no flush request, a request that returns OK has everything that was
in the memtable at its arrival in tables, unless a compaction left it out since then. -/
theorem flush_request_honoured (byteSize : List (Op K V) → Nat) (lastSequence : Nat)
    {before after : List (FlushAction K V)} {sync : Bool} {s t : QueueState K V}
    (ran : flushRun byteSize (fun _ _ => true) { lastSequence } before = some s)
    (went : flushRun byteSize (honours byteSize s.mem) (s.enqueue none sync) after = some t)
    (returned : (s.call none sync, true) ∈ t.returned) : ∀ e ∈ s.mem, t.InTable e := by
  have initial : Lined ({ lastSequence } : QueueState K V) :=
    ⟨rfl, .nil, by simp, by simp, by simp⟩
  have lined : s.Lined := Runs.run_induct
    (fun _ _ _ lined _ stepped => flushStep_lined lined stepped) initial ran
  have owed : Owed (s.call none sync) s.mem t := Runs.run_induct
    (fun _ _ _ owed clear stepped => flushStep_owed rfl owed clear stepped)
    (Owed.start lined sync) went
  exact owed.done returned

end

/-- A write of the key 0, and one of the key 1 whose leader makes room. -/
def writeAndLead : List (QueueAction Nat Nat) :=
  .enqueue (some [.put 0 7]) false :: .lead :: groupSteps 1 ++
    [.enqueue (some [.put 1 7]) false, .lead]

/-- A request behind a group that is complete, with a compaction that leaves out other entries. -/
theorem flush_request_honoured_alone :
    ∃ s t, flushRun smallBatch (fun _ _ => true) { lastSequence := 0 }
        ((writeAndLead ++ groupSteps 1).map .queue) = some s ∧
      flushRun smallBatch (honours smallBatch s.mem) (s.enqueue none false)
        [.queue .lead, .queue .switchMemTable, .queue .buildBatchGroup, .queue .compactMemTable,
          .compact [5], .queue .flushed] = some t ∧
      s.mem.length = 2 ∧ ∀ e ∈ s.mem, t.InTable e := by
  have returns : (flushRun smallBatch (fun _ _ => true) { lastSequence := 0 }
      ((writeAndLead ++ groupSteps 1).map .queue)).any (fun s =>
        s.mem.length == 2 && (flushRun smallBatch (honours smallBatch s.mem) (s.enqueue none false)
          [.queue .lead, .queue .switchMemTable, .queue .buildBatchGroup, .queue .compactMemTable,
            .compact [5], .queue .flushed]).any
            fun t => decide ((s.call none false, true) ∈ t.returned)) = true := by
    decide +kernel
  obtain ⟨s, ran, both⟩ := (any_eq_true _ _).mp returns
  obtain ⟨two, returns⟩ := (and_eq_true _ _).mp both
  obtain ⟨t, went, returned⟩ := (any_eq_true _ _).mp returns
  exact ⟨s, t, ran, went, eq_of_beq two,
    flush_request_honoured smallBatch 0 ran went (of_decide_eq_true returned)⟩

/-- A request that arrives while the leader of a batch makes room is taken into its group,
and returns OK with nothing flushed. -/
theorem flush_request_absorbed :
    ∃ s t, flushRun smallBatch (fun _ _ => true) { lastSequence := 0 } (writeAndLead.map .queue) =
        some s ∧
      flushRun smallBatch (fun _ _ => true) (s.enqueue none false) ((groupSteps 1).map .queue) =
        some t ∧
      (s.call none false, true) ∈ t.returned ∧ ¬ ∀ e ∈ s.mem, t.InTable e := by
  have returns : (flushRun smallBatch (fun _ _ => true) { lastSequence := 0 }
      (writeAndLead.map .queue)).any (fun s =>
        !s.mem.isEmpty && (flushRun smallBatch (fun _ _ => true) (s.enqueue none false)
          ((groupSteps 1).map .queue)).any fun t =>
            decide ((s.call none false, true) ∈ t.returned) && t.tables.isEmpty) = true := by
    decide +kernel
  obtain ⟨s, ran, both⟩ := (any_eq_true _ _).mp returns
  obtain ⟨full, returns⟩ := (and_eq_true _ _).mp both
  obtain ⟨t, went, both⟩ := (any_eq_true _ _).mp returns
  obtain ⟨returned, empty⟩ := (and_eq_true _ _).mp both
  refine ⟨s, t, ran, went, of_decide_eq_true returned, fun honoured => ?_⟩
  obtain ⟨e, mem⟩ := exists_mem_of_ne_nil s.mem (by simpa using full)
  obtain ⟨table, inTables, -⟩ := honoured e mem
  rw [isEmpty_iff.mp empty] at inTables
  cases inTables

end QueueState
end TalusDB
