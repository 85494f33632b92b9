import TalusDB.DB.Recovery
import TalusDB.DB.WriteBatch
import TalusDB.Log.RoundTrip

/-! `RecoverLogFile` on the bytes of a log, which may end anywhere, against the recovery from
records. The file can be read. -/
namespace TalusDB
open List Log WriteBatch Writer Segment Reader MemTable

/-- The records that end in front of a place are the first ones. -/
theorem Log.Segment.filter_placed (pos n : Nat) (segments : List Segment) :
    ∃ m, (placed pos segments).filter (·.stop ≤ n) = (placed pos segments).take m ∧
      ∀ (i : Nat) p, (placed pos segments)[i]? = some p → (p.stop ≤ n ↔ i < m) := by
  induction segments generalizing pos with
  | nil => exact ⟨0, rfl, by simp [placed]⟩
  | cons s rest ih =>
    obtain ⟨m, front, ends⟩ := ih (chunksStop pos s.written)
    rw [placed]
    split_ifs
    case neg => exact ⟨m, front, ends⟩
    by_cases inside : chunksStop pos s.written ≤ n
    · refine ⟨m + 1, by simp [inside, front], fun i p isP => ?_⟩
      cases i with
      | zero =>
        cases isP
        simpa using inside
      | succ i => rw [ends i p isP, Nat.add_lt_add_iff_right]
    · have beyond : ∀ p ∈ (⟨s.data, Chunk.headerOffset pos, chunksStop pos s.written⟩ : Placed) ::
          placed (chunksStop pos s.written) rest, ¬p.stop ≤ n := by
        refine forall_mem_cons.mpr ⟨inside, fun p mem => ?_⟩
        have later := placed_stop mem
        omega
      refine ⟨0, filter_eq_nil_iff.mpr (by simpa using beyond), fun i p isP => ?_⟩
      simpa using beyond p (mem_of_getElem? isP)

variable [LinearOrder Slice]

/-- The variables of the loop of `RecoverLogFile`: `ok` tells whether `status` is ok. -/
structure LogReplay where
  recovery : Recovery Slice Bytes
  mem : Option (List (Entry Slice Bytes)) := none
  ok : Bool := true

namespace LogReplay
variable (options : Options Slice Bytes) (full : List (Entry Slice Bytes) → Bool) (paranoid : Bool)

/-- A round of the loop, which ends once `status` is not ok. `MaybeIgnoreError` and the reporter keep
an error only under `paranoid_checks`. -/
def round (s : LogReplay) (record : Bytes) : Option LogReplay :=
  if s.ok = false then some s
  else if long : kHeader ≤ record.length then do
    let batch := setContents record long
    let (mem, status) ← batch.insertInto (fun mem e => some (MemTable.add mem e)) (s.mem.getD [])
    if paranoid && !status.isOk then some { s with mem := some mem, ok := false }
    else
      let lastSequence := (((batch.sequence : Int) + batch.count - 1) % 2 ^ 64).toNat
      let recovery := { s.recovery with maxSequence := max s.recovery.maxSequence lastSequence }
      if full mem then
        (recovery.flush options mem).map fun recovery => { s with recovery, mem := none }
      else some { s with recovery, mem := some mem }
  else some { s with ok := !paranoid }

/-- `RecoverLogFile` without `reuse_logs`, and `MarkFileNumberUsed` for the log: none inside where the
status is not ok. A drop that the reader reports ends the loop under `paranoid_checks`, whichever
record it comes before. -/
def recoverLogFile (r : Recovery Slice Bytes) (log : Nat × Bytes) :
    Option (Option (Recovery Slice Bytes)) := do
  let (records, reader) ← (Reader.new ⟨log.2, none⟩ true 0).readAll
  let s ← (records.map Prod.fst).foldlM (round options full paranoid) { recovery := r }
  if s.ok && (!paranoid || reader.reports.isEmpty) then
    let r ← s.mem.elim (some s.recovery) (s.recovery.flush options)
    some (some { r with nextFileNumber := markFileNumberUsed r.nextFileNumber log.1 })
  else some none

/-- The bytes are those of a batch with the operations of the record. -/
structure Logged (data : Bytes) (record : LogRecord Slice Bytes) : Prop where
  encoded : ∃ b : WriteBatch, b.rep = data ∧ b.Encodes ⟨record.sequence, record.ops⟩
  positive : 0 < record.sequence
  bounded : record.sequence + record.ops.length ≤ 2 ^ 64

variable {options full paranoid} {r : Recovery Slice Bytes} {mem : Option (List (Entry Slice Bytes))}

theorem Logged.round {data : Bytes} {record : LogRecord Slice Bytes} (logged : Logged data record) :
    LogReplay.round options full paranoid ⟨r, mem, true⟩ data =
      let mem := insertInto record.sequence record.ops (mem.getD [])
      let r := { r with
        maxSequence := max r.maxSequence (record.sequence + record.ops.length - 1) }
      if full mem then (r.flush options mem).map (⟨·, none, true⟩) else some ⟨r, some mem, true⟩ := by
  obtain ⟨⟨b, rfl, encodes⟩, positive, bounded⟩ := logged
  have reads : Reads (b.rep.drop kHeader) record.ops none := by
    rw [encodes.drop]
    exact reads_encoded encodes.fits
  have status : statusOf b.count record.ops.length none = .ok () := by
    rw [statusOf, encodes.count, if_neg (by simp)]
  have last : (((b.sequence : Int) + b.count - 1) % 2 ^ 64).toNat =
      record.sequence + record.ops.length - 1 := by
    rw [encodes.count, encodes.sequence_eq]
    simp only at positive ⊢
    omega
  have added : b.insertInto (fun mem e => some (MemTable.add mem e)) (mem.getD []) =
      some (insertInto record.sequence record.ops (mem.getD []), .ok ()) := by
    rw [reads.insertInto, status, encodes.sequence_eq, MemTableInserter.entries_eq fun e mem =>
      (numbered_spec e mem).2.trans_le bounded]
    exact congrArg (Option.map _) (foldlM_pure (m := Option))
  rw [LogReplay.round, if_neg (by simp), dif_pos b.header]
  simp only [setContents, added, last, Option.bind_eq_bind, Option.bind_some]
  cases paranoid <;> rfl

theorem foldlM_round {data : List Bytes} {records : List (LogRecord Slice Bytes)}
    (logged : Forall₂ Logged data records) :
    data.foldlM (round options full paranoid) ⟨r, mem, true⟩ =
      (r.records options full mem records).map fun (r, mem) => ⟨r, mem, true⟩ := by
  induction logged generalizing r mem with
  | nil => rfl
  | cons first others ih =>
    rw [foldlM_cons, first.round]
    simp only [Recovery.records, Option.bind_eq_bind]
    split_ifs
    · rw [Option.bind_map, Option.map_bind]
      exact congrArg _ (funext fun r => ih)
    · exact ih

/-- A log of batches that is cut off after any byte recovers as a log of the records in front of the
cut, those whose bytes it still has, whatever `paranoid_checks` is. -/
theorem recoverLogFile_cut (options : Options Slice Bytes)
    (full : List (Entry Slice Bytes) → Bool) (paranoid : Bool) (r : Recovery Slice Bytes)
    (number : Nat) (first : List Bytes) (later : List (List Bytes))
    (records : List (LogRecord Slice Bytes))
    (logged : Forall₂ Logged (first ++ later.flatten) records) (n : Nat) :
    ∃ m, (∀ (i : Nat) p, (writeLog first later).1[i]? = some p → (p.stop ≤ n ↔ i < m)) ∧
      recoverLogFile options full paranoid r (number, (writeLog first later).2.take n) =
        (r.logFile options full (number, records.take m)).map some := by
  obtain ⟨listed, dest, segments, contents, grew, -⟩ := writeLog_grew first later
  have whole : (writeLog first later).2 = chunksBytes 0 (chunks segments) := by
    rw [← contents, grew.contents]
    rfl
  obtain ⟨last, read, quiet⟩ := readAll_segments grew.fit
    (whole ▸ take_prefix n _ : (writeLog first later).2.take n <+: _)
  obtain ⟨m, front, ends⟩ := filter_placed 0 n segments
  -- A cut behind the end of the file leaves it as it is.
  have inside : ∀ p ∈ placed 0 segments,
      (p.stop ≤ ((writeLog first later).2.take n).length ↔ p.stop ≤ n) := by
    intro p mem
    have upper := placed_stop_le mem
    rw [whole, length_take, chunksBytes_length]
    omega
  rw [within, filter_congr fun p mem => decide_eq_decide.mpr (inside p mem), front] at read
  refine ⟨m, grew.places ▸ ends, ?_⟩
  have kept : Forall₂ Logged ((entries ((placed 0 segments).take m)).map Prod.fst)
      (records.take m) := by
    rw [← listed, grew.places] at logged
    rw [entries, map_map, map_take]
    exact forall₂_take m logged
  rw [recoverLogFile, Recovery.logFile, read]
  simp only [Option.bind_eq_bind, Option.bind_some, foldlM_round kept, Option.bind_map,
    Option.map_bind, quiet grew.complete]
  refine congrArg _ (funext fun found => ?_)
  simp only [Function.comp_apply, isEmpty_nil, Bool.or_true, Bool.and_self, if_true, Option.map_bind]
  rfl

def onePut : WriteBatch := (clear.put ⟨[97]⟩ [1]).setSequence 1

def putAndDelete : WriteBatch := ((clear.put ⟨[98]⟩ [2]).delete ⟨[97]⟩).setSequence 2

omit [LinearOrder Slice] in
/-- A log with two batches, which is cut off in the second one. -/
theorem recoverLogFile_cut_onePut : letI := bytewiseOrder
    recoverLogFile ⟨9, length, length⟩ (fun _ => false) true ⟨5, 0, {}⟩
        (4, (writeLog [onePut.rep, putAndDelete.rep] []).2.take 40) =
      (Recovery.logFile ⟨9, length, length⟩ (fun _ => false) ⟨5, 0, {}⟩
        (4, [⟨1, [.put ⟨[97]⟩ [1]], false⟩])).map some := by
  let := bytewiseOrder
  have first : onePut.Encodes ⟨1, [.put ⟨[97]⟩ [1]]⟩ :=
    (clear_encodes.put (by decide) ⟨by decide, by decide⟩).setSequence (by decide)
  have second : putAndDelete.Encodes ⟨2, [.put ⟨[98]⟩ [2], .delete ⟨[97]⟩]⟩ :=
    ((clear_encodes.put (by decide) ⟨by decide, by decide⟩).delete (by decide)
      (by simp [FitsOp])).setSequence (by decide)
  obtain ⟨m, taken, recovered⟩ := recoverLogFile_cut ⟨9, length, length⟩ (fun _ => false) true
    ⟨5, 0, {}⟩ 4 [onePut.rep, putAndDelete.rep] []
    [⟨1, [.put ⟨[97]⟩ [1]], false⟩, ⟨2, [.put ⟨[98]⟩ [2], .delete ⟨[97]⟩], false⟩]
    (.cons ⟨⟨onePut, rfl, first⟩, by decide, by decide⟩
      (.cons ⟨⟨putAndDelete, rfl, second⟩, by decide, by decide⟩ .nil)) 40
  -- the first record ends at byte 24, the second one behind the cut
  have one : m = 1 := by
    have inside := (taken 0 _ rfl).mp (by decide +kernel)
    have cut := mt (taken 1 _ rfl).mpr (by decide +kernel)
    omega
  subst one
  exact recovered

end LogReplay
end TalusDB
