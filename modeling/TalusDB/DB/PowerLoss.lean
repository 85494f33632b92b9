import TalusDB.DB.FileName
import TalusDB.DB.Manifest
import TalusDB.Lib.Durable

/-! `CURRENT` and the manifests under power failures. Creations, renames and removals are
durable in the order in which they are issued, a file's contents up to its last sync. The
calls are cut into their operations on files, so that a failure can come after each. -/
namespace TalusDB
open List Function Option VersionSet
variable {K V : Type} [LinearOrder K]

/-- The files that `DB::Open` finds its way by. -/
structure Disk (K V : Type) [LinearOrder K] where
  current : Option (DurableFile Char) := none
  temp : Nat → Option (DurableFile Char) := fun _ => none
  manifest : Nat → Option (DurableFile (ManifestEdit K V)) := fun _ => none

/-- Operations on files. Manifests grow by records. -/
inductive FileOp (K V : Type) [LinearOrder K] where
  | newManifest (number : Nat)
  | addRecord (number : Nat) (record : ManifestEdit K V)
  | syncManifest (number : Nat)
  | newTemp (number : Nat)
  | appendTemp (number : Nat) (data : List Char)
  | renameTemp (number : Nat)

namespace Disk

def exec (d : Disk K V) : FileOp K V → Disk K V
  | .newManifest number => { d with manifest := Function.update d.manifest number (some .new) }
  | .addRecord number record =>
    { d with
      manifest := Function.update d.manifest number ((d.manifest number).map (·.append [record])) }
  | .syncManifest number =>
    { d with manifest := Function.update d.manifest number ((d.manifest number).map (·.sync)) }
  | .newTemp number => { d with temp := Function.update d.temp number (some .new) }
  | .appendTemp number data =>
    { d with temp := Function.update d.temp number ((d.temp number).map (·.append data)) }
  | .renameTemp number =>
    { d with current := d.temp number, temp := Function.update d.temp number none }

def fail (d : Disk K V) : Disk K V where
  current := d.current.map (·.fail)
  temp number := (d.temp number).map (·.fail)
  manifest number := (d.manifest number).map (·.fail)

end Disk

/-- The contents of `CURRENT`. -/
def currentLine (number : Nat) : List Char := descriptorFileName number ++ ['\n']

/-- `SetCurrentFile`. `WriteStringToFile` does not sync what it has written. -/
def setCurrentFile (number : Nat) : List (FileOp K V) :=
  [.newTemp number, .appendTemp number (currentLine number), .renameTemp number]

/-- Records are written and synced, before the rest of the call. -/
def writeRecords (number : Nat) (records : List (ManifestEdit K V)) (rest : List (FileOp K V)) :
    List (FileOp K V) :=
  records.map (.addRecord number) ++ .syncManifest number :: rest

/-- A database with its files. While a call is under way, `todo` are its operations to come,
and `returns` is what it leaves of the version set and of `acknowledged`: the records that calls
which have returned made of the manifest. -/
structure PowerState (K V : Type) [LinearOrder K] where
  disk : Disk K V := {}
  created : Bool := false
  set : Option (VersionSet K V) := none
  acknowledged : List (ManifestEdit K V) := []
  todo : List (FileOp K V) := []
  returns : Option (VersionSet K V) × List (ManifestEdit K V) := (none, [])

inductive PowerAction (K V : Type) [LinearOrder K] where
  | newDB
  | recover (number : Nat) (reuse : Bool)
  | counters (nextFileNumber lastSequence : Nat)
  | logAndApply (edit : ManifestEdit K V)
  | removeManifest (number : Nat)
  | removeTemp (number : Nat)
  | exec
  | writeBack (number : Nat)
  | restart
  | powerFailure

/-- The operations of `LogAndApply`, which leaves these records in the manifest. -/
def VersionSet.logAndApplyOps (vs : VersionSet K V) (edit : ManifestEdit K V)
    (records : List (ManifestEdit K V)) : List (FileOp K V) :=
  if vs.descriptorOpen then writeRecords vs.manifestFileNumber [vs.complete edit] []
  else .newManifest vs.manifestFileNumber ::
    writeRecords vs.manifestFileNumber records (setCurrentFile vs.manifestFileNumber)

section
variable (comparator : String)

namespace PowerState

/-- The process ends, and with it the call that was under way. -/
def stop (s : PowerState K V) : PowerState K V :=
  { s with set := none, todo := [], returns := (none, []) }

/-- Calls follow each other: the manifest is written by `DB::Open` and then by the background
thread. `RemoveObsoleteFiles` comes after `LogAndApply` or the reuse of the manifest. The
kernel may write a file back by itself. -/
def step (s : PowerState K V) : PowerAction K V → Option (PowerState K V)
  | .newDB =>
    if s.todo = [] ∧ s.set.isNone ∧ s.disk.current.isNone then
      some { s with
        todo := .newManifest 1 ::
          writeRecords 1 (TalusDB.newDB comparator).records (setCurrentFile 1)
        returns := (none, (TalusDB.newDB comparator).records) }
    else none
  | .recover number reuse =>
    if s.todo = [] ∧ s.set.isNone ∧ s.disk.current.any (·.content = currentLine number) then do
      let manifest ← s.disk.manifest number
      let set ← (recover comparator ⟨number, manifest.content⟩ reuse).toOption
      some { s with set := some set }
    else none
  | .counters nextFileNumber lastSequence =>
    s.set.bind fun set =>
      if set.nextFileNumber ≤ nextFileNumber ∧ s.todo = [] then
        some { s with set := some { set with nextFileNumber, lastSequence } }
      else none
  | .logAndApply edit =>
    s.set.bind fun set =>
      if s.todo = [] then
        let (next, manifest) := set.logAndApply comparator ⟨0, s.acknowledged⟩ edit
        some { s with
          todo := set.logAndApplyOps edit manifest.records
          returns := (some next, manifest.records) }
      else none
  | .removeManifest number =>
    s.set.bind fun set =>
      if set.descriptorOpen ∧ number < set.manifestFileNumber ∧ s.todo = [] then
        some { s with disk := { s.disk with
          manifest := Function.update s.disk.manifest number none } }
      else none
  | .removeTemp number =>
    if s.todo = [] then
      some { s with disk := { s.disk with temp := Function.update s.disk.temp number none } }
    else none
  | .exec =>
    match s.todo with
    | [] => none
    | [last] =>
      some { disk := s.disk.exec last, created := true, set := s.returns.1,
             acknowledged := s.returns.2 }
    | op :: rest => some { s with disk := s.disk.exec op, todo := rest }
  | .writeBack number =>
    some { s with disk := { s.disk with
      temp := Function.update s.disk.temp number ((s.disk.temp number).map (·.sync)) } }
  | .restart => some s.stop
  | .powerFailure => some { s.stop with disk := s.disk.fail }

/-- `CURRENT` does not exist because `NewDB` has not returned, or what survives of it names a
manifest of which every acknowledged record survives. -/
def Survives (s : PowerState K V) : Prop :=
  s.disk.current = none ∧ s.created = false ∨
    ∃ current number manifest, s.disk.current = some current ∧
      current.survives = currentLine number ∧ s.disk.manifest number = some manifest ∧
      s.acknowledged.Sublist manifest.survives

/-- A file that is renamed to `CURRENT` has been written back by then. -/
def writtenBack (s : PowerState K V) : PowerAction K V → Bool
  | .exec =>
    match s.todo with
    | .renameTemp number :: _ => (s.disk.temp number).all fun f => f.synced = f.content.length
    | _ => true
  | _ => true

abbrev run (allowed : PowerState K V → PowerAction K V → Bool) :=
  Runs.run (S := PowerState K V) (step comparator) allowed

end PowerState
end

theorem currentLine_injective : Function.Injective currentLine :=
  fun _ _ same => descriptorFileName_injective (append_cancel_right same)

section recover
variable {comparator : String}

variable {r r' : Replay K V} {x : Nat}

theorem Replay.record_nextFile {edit : ManifestEdit K V}
    (recorded : r.record comparator edit = .ok r') (next : r'.nextFile = some x) :
    edit.nextFileNumber = some x ∨ r.nextFile = some x := by
  rw [Replay.record] at recorded
  split at recorded
  · cases recorded
  · cases recorded
    change (edit.nextFileNumber <|> r.nextFile) = some x at next
    cases isNext : edit.nextFileNumber with
    | some y => exact .inl (by simpa [isNext] using next)
    | none => exact .inr (by simpa [isNext] using next)

theorem foldlM_nextFile {records : List (ManifestEdit K V)}
    (replayed : records.foldlM (Replay.record comparator) r = .ok r')
    (next : r'.nextFile = some x) :
    (∃ record ∈ records, record.nextFileNumber = some x) ∨ r.nextFile = some x := by
  induction records generalizing r with
  | nil =>
    cases replayed
    exact .inr next
  | cons edit rest ih =>
    rw [foldlM_cons] at replayed
    cases recorded : r.record comparator edit with
    | error e => simp [recorded, bind, Except.bind] at replayed
    | ok r₁ =>
      rw [recorded] at replayed
      obtain ⟨record, mem, same⟩ | here := ih replayed
      · exact .inl ⟨record, mem_cons_of_mem edit mem, same⟩
      · exact (Replay.record_nextFile recorded here).imp_left
          fun same => ⟨edit, mem_cons_self, same⟩

theorem VersionSet.recover_numbers {manifest : Manifest K V} {reuse : Bool} {vs : VersionSet K V}
    (recovered : recover comparator manifest reuse = .ok vs) :
    ∃ x, (∃ record ∈ manifest.records, record.nextFileNumber = some x) ∧
      vs.nextFileNumber = x + 1 ∧ vs.descriptorOpen = reuse ∧
      vs.manifestFileNumber = if reuse then manifest.number else x := by
  rw [recover] at recovered
  cases replayed : manifest.replay comparator with
  | error e => simp [replayed, bind, Except.bind] at recovered
  | ok r =>
    simp only [replayed, bind, Except.bind] at recovered
    split at recovered
    case h_2 => cases recovered
    case h_1 x next =>
      split at recovered
      case h_2 => cases recovered
      split at recovered
      case h_2 => cases recovered
      cases recovered
      have source := (foldlM_nextFile replayed next).resolve_right (by simp)
      exact ⟨x, source, rfl, rfl, rfl⟩

end recover

/-- The version set writes to manifest `number`, or will write to a later one. -/
def VersionSet.WritesTo (vs : VersionSet K V) (number : Nat) : Prop :=
  vs.manifestFileNumber < vs.nextFileNumber ∧
    if vs.descriptorOpen then vs.manifestFileNumber = number else number < vs.manifestFileNumber

/-- The records have next file numbers above `number`. -/
def Above (number : Nat) (records : List (ManifestEdit K V)) : Prop :=
  ∀ record ∈ records, ∀ x, record.nextFileNumber = some x → number < x

namespace Disk
variable {d d' : Disk K V}

/-- The records of each manifest have next file numbers above its own. -/
def Numbered (d : Disk K V) : Prop :=
  ∀ number manifest, d.manifest number = some manifest → Above number manifest.content

/-- All of `CURRENT` survives and names this manifest. -/
structure Names (d : Disk K V) (number : Nat) (acknowledged : List (ManifestEdit K V)) : Prop where
  current : ∃ f, d.current = some f ∧ f.content = currentLine number ∧ f.survives = f.content
  manifest : ∃ m, d.manifest number = some m ∧ acknowledged.Sublist m.survives

variable {manifest : DurableFile (ManifestEdit K V)}

theorem Numbered.update (numbered : d.Numbered) (number : Nat)
    (above : Above number manifest.content) :
    Numbered { d with manifest := Function.update d.manifest number (some manifest) } := by
  intro n m isM
  by_cases here : n = number
  · subst here
    simp only [update_self, Option.some.injEq] at isM
    exact isM ▸ above
  · exact numbered n m (by simpa [update_of_ne here] using isM)

theorem Names.update {number n : Nat} {acknowledged : List (ManifestEdit K V)}
    (names : d.Names n acknowledged)
    (more : n = number → ∀ m, d.manifest n = some m → m.survives.Sublist manifest.survives) :
    Names { d with manifest := Function.update d.manifest number (some manifest) } n
      acknowledged := by
  refine ⟨names.current, ?_⟩
  obtain ⟨m, isM, inside⟩ := names.manifest
  by_cases here : n = number
  · subst here
    exact ⟨manifest, by simp, inside.trans (more rfl m isM)⟩
  · exact ⟨m, by simpa [update_of_ne here] using isM, inside⟩

end Disk

namespace PowerState
variable {comparator : String} {s s' : PowerState K V} {cur : Option Nat}

/-- What holds of the manifest that `CURRENT` names, if there is one. -/
def Based (s : PowerState K V) : Option Nat → Prop
  | none => s.disk.current = none ∧ s.created = false ∧ s.set = none
  | some number => s.disk.Names number s.acknowledged ∧ ∀ vs ∈ s.set, vs.WritesTo number

/-- What the call under way has written of manifest `k`. -/
structure Written (s : PowerState K V) (k : Nat) (rest : List (ManifestEdit K V))
    (m : DurableFile (ManifestEdit K V)) : Prop where
  manifest : s.disk.manifest k = some m
  records : s.returns.2.Sublist (m.content ++ rest)
  set : ∀ vs ∈ s.returns.1, vs.WritesTo k

inductive Stage (s : PowerState K V) (cur : Option Nat) : Prop where
  | idle (done : s.todo = [])
  | create (k : Nat) (records : List (ManifestEdit K V))
      (todo : s.todo = .newManifest k :: writeRecords k records (setCurrentFile k))
      (other : cur ≠ some k) (above : Above k records) (returned : s.returns.2 = records)
      (set : ∀ vs ∈ s.returns.1, vs.WritesTo k)
  | fill (k : Nat) (rest : List (ManifestEdit K V)) (tail : List (FileOp K V))
      (m : DurableFile (ManifestEdit K V)) (todo : s.todo = writeRecords k rest tail)
      (above : Above k rest) (written : s.Written k rest m)
      (ends : tail = [] ∧ cur = some k ∨ tail = setCurrentFile k ∧ cur ≠ some k)
  | newTemp (k : Nat) (m : DurableFile (ManifestEdit K V)) (todo : s.todo = setCurrentFile k)
      (written : s.Written k [] m) (synced : m.survives = m.content)
  | appendTemp (k : Nat) (m : DurableFile (ManifestEdit K V)) (f : DurableFile Char)
      (todo : s.todo = [.appendTemp k (currentLine k), .renameTemp k])
      (written : s.Written k [] m) (synced : m.survives = m.content)
      (temp : s.disk.temp k = some f) (empty : f.content = [])
  | renameTemp (k : Nat) (m : DurableFile (ManifestEdit K V)) (f : DurableFile Char)
      (todo : s.todo = [.renameTemp k]) (written : s.Written k [] m)
      (synced : m.survives = m.content) (temp : s.disk.temp k = some f)
      (line : f.content = currentLine k)

structure Invariant (s : PowerState K V) (cur : Option Nat) : Prop where
  numbered : s.disk.Numbered
  based : s.Based cur
  stage : s.Stage cur

theorem Invariant.survives (inv : s.Invariant cur) : s.Survives := by
  have based := inv.based
  cases cur with
  | none => exact .inl ⟨based.1, based.2.1⟩
  | some number =>
    obtain ⟨f, isCurrent, line, all⟩ := based.1.current
    obtain ⟨m, isManifest, inside⟩ := based.1.manifest
    exact .inr ⟨f, number, m, isCurrent, all.trans line, isManifest, inside⟩

theorem initial_invariant : ({} : PowerState K V).Invariant none :=
  ⟨fun _ _ isM => by simp at isM, ⟨rfl, rfl, rfl⟩, .idle rfl⟩

variable {op : FileOp K V} {k : Nat} {m : DurableFile (ManifestEdit K V)}
  {todo : List (FileOp K V)}

theorem exec_more {op' : FileOp K V} {rest : List (FileOp K V)} (todo : s.todo = op :: op' :: rest)
    (stepped : s.step comparator .exec = some s') :
    s' = { s with disk := s.disk.exec op, todo := op' :: rest } := by
  simp only [step, todo, Option.some.injEq] at stepped
  exact stepped.symm

theorem exec_last (todo : s.todo = [op]) (stepped : s.step comparator .exec = some s') :
    s' = { disk := s.disk.exec op, created := true, set := s.returns.1,
           acknowledged := s.returns.2 } := by
  simp only [step, todo, Option.some.injEq] at stepped
  exact stepped.symm

theorem Based.update (based : s.Based cur)
    (more : cur = some k → ∀ old, s.disk.manifest k = some old → old.survives.Sublist m.survives) :
    Based { s with
      disk := { s.disk with manifest := Function.update s.disk.manifest k (some m) }, todo } cur := by
  cases cur with
  | none => exact based
  | some n =>
    refine ⟨based.1.update fun here old isOld => ?_, based.2⟩
    subst here
    exact more rfl old isOld

theorem exec_create {records : List (ManifestEdit K V)} (inv : s.Invariant cur)
    (todo : s.todo = .newManifest k :: writeRecords k records (setCurrentFile k))
    (other : cur ≠ some k) (above : Above k records) (returned : s.returns.2 = records)
    (set : ∀ vs ∈ s.returns.1, vs.WritesTo k) (stepped : s.step comparator .exec = some s') :
    s'.Invariant cur := by
  have more : ∃ op rest, writeRecords k records (setCurrentFile k) = op :: rest := by
    cases records with
    | nil => exact ⟨_, _, rfl⟩
    | cons record rest => exact ⟨_, _, rfl⟩
  obtain ⟨op, rest, isRest⟩ := more
  rw [isRest] at todo
  obtain rfl := exec_more todo stepped
  refine ⟨inv.numbered.update k (by simp [DurableFile.new, Above]),
    inv.based.update fun here => absurd here other, ?_⟩
  refine .fill k records (setCurrentFile k) .new isRest.symm above
    ⟨by simp [Disk.exec], ?_, set⟩ (.inr ⟨rfl, other⟩)
  simp [DurableFile.new, returned]

theorem exec_fill {rest : List (ManifestEdit K V)} {tail : List (FileOp K V)}
    (inv : s.Invariant cur)
    (todo : s.todo = writeRecords k rest tail) (above : Above k rest) (written : s.Written k rest m)
    (ends : tail = [] ∧ cur = some k ∨ tail = setCurrentFile k ∧ cur ≠ some k)
    (stepped : s.step comparator .exec = some s') : ∃ cur', s'.Invariant cur' := by
  have same {old : DurableFile (ManifestEdit K V)} (isOld : s.disk.manifest k = some old) :
      old = m := Option.some.inj (isOld.symm.trans written.manifest)
  have content := inv.numbered k m written.manifest
  cases rest with
  | cons record rest =>
    have more : ∃ op later, writeRecords k rest tail = op :: later := by
      cases rest with
      | nil => exact ⟨_, _, rfl⟩
      | cons record rest => exact ⟨_, _, rfl⟩
    obtain ⟨op, later, isLater⟩ := more
    have todo' : s.todo = .addRecord k record :: op :: later := isLater ▸ todo
    obtain rfl := exec_more todo' stepped
    obtain ⟨first, above'⟩ := forall_mem_cons.mp above
    simp only [Disk.exec, written.manifest, map_some]
    refine ⟨cur, inv.numbered.update k ?_, inv.based.update fun _ old isOld => ?_, ?_⟩
    · intro r mem
      obtain mem | mem := mem_append.mp mem
      · exact content r mem
      · rw [mem_singleton.mp mem]
        exact first
    · rw [same isOld, DurableFile.survives_append]
    · refine .fill k rest tail (m.append [record]) isLater.symm above'
        ⟨by simp, ?_, written.set⟩ ends
      simpa using written.records
  | nil =>
    have records : s.returns.2.Sublist m.content := by simpa using written.records
    have synced (cur : Option Nat) (todo : List (FileOp K V)) (based : s.Based cur) :
        Based { s with
          disk := { s.disk with manifest := Function.update s.disk.manifest k (some m.sync) },
          todo } cur :=
      based.update fun _ old isOld => by
        rw [same isOld, DurableFile.survives_sync]
        exact m.survives_sublist
    obtain ⟨rfl, rfl⟩ | ⟨rfl, other⟩ := ends
    · have last : s.todo = [.syncManifest k] := todo
      obtain rfl := exec_last last stepped
      simp only [Disk.exec, written.manifest, map_some]
      refine ⟨some k, inv.numbered.update k content, ⟨⟨inv.based.1.current, m.sync, by simp, ?_⟩,
        written.set⟩, .idle rfl⟩
      rwa [DurableFile.survives_sync]
    · have todo' : s.todo = .syncManifest k :: .newTemp k ::
        [.appendTemp k (currentLine k), .renameTemp k] := todo
      obtain rfl := exec_more todo' stepped
      simp only [Disk.exec, written.manifest, map_some]
      refine ⟨cur, inv.numbered.update k content, synced cur _ inv.based, ?_⟩
      refine .newTemp k m.sync rfl ⟨by simp, ?_, written.set⟩ (by simp)
      simpa using records

theorem Based.temp (based : s.Based cur) {temp : Nat → Option (DurableFile Char)} : Based
    { s with disk := { s.disk with temp }, todo } cur := by
  cases cur with
  | none => exact based
  | some n => exact ⟨⟨based.1.current, based.1.manifest⟩, based.2⟩

section
variable (inv : s.Invariant cur)
include inv

theorem exec_invariant (allowed : s.writtenBack .exec = true)
    (stepped : s.step comparator .exec = some s') : ∃ cur', s'.Invariant cur' := by
  cases inv.stage with
  | idle done => simp [step, done] at stepped
  | create k records todo other above returned set =>
    exact ⟨cur, exec_create inv todo other above returned set stepped⟩
  | fill k rest tail m todo above written ends =>
    exact exec_fill inv todo above written ends stepped
  | newTemp k m todo written synced =>
    obtain rfl := exec_more todo stepped
    refine ⟨cur, inv.numbered, inv.based.temp, ?_⟩
    exact .appendTemp k m .new rfl ⟨written.manifest, written.records, written.set⟩ synced
      (by simp [Disk.exec]) rfl
  | appendTemp k m f todo written synced temp empty =>
    obtain rfl := exec_more todo stepped
    refine ⟨cur, inv.numbered, inv.based.temp, ?_⟩
    exact .renameTemp k m (f.append (currentLine k)) rfl
      ⟨written.manifest, written.records, written.set⟩ synced (by simp [Disk.exec, temp])
      (by simp [empty])
  | renameTemp k m f todo written synced temp line =>
    have all : f.synced = f.content.length := by
      simpa [writtenBack, todo, temp] using allowed
    obtain rfl := exec_last todo stepped
    refine ⟨some k, inv.numbered, ⟨⟨⟨f, temp, line, DurableFile.survives_eq all⟩, m,
      written.manifest, ?_⟩, written.set⟩, .idle rfl⟩
    rw [synced]
    simpa using written.records

theorem logAndApply_invariant {edit : ManifestEdit K V}
    (stepped : s.step comparator (.logAndApply edit) = some s') : s'.Invariant cur := by
  obtain ⟨vs, isSet, stepped⟩ := bind_eq_some_iff.mp stepped
  split at stepped
  case isFalse => cases stepped
  cases stepped
  have based := inv.based
  cases cur with
  | none => exact absurd (based.2.2.symm.trans isSet) (by simp)
  | some n =>
    have writes := based.2 vs isSet
    have record : Above vs.manifestFileNumber [vs.complete edit] := by
      simpa [Above, complete] using writes.1
    refine ⟨inv.numbered, based, ?_⟩
    by_cases isOpen : vs.descriptorOpen = true
    · have here : vs.manifestFileNumber = n := by simpa [isOpen] using writes.2
      obtain ⟨m, isM, inside⟩ := based.1.manifest
      refine .fill vs.manifestFileNumber [vs.complete edit] [] m
        (by simp [logAndApplyOps, isOpen]) record ⟨here ▸ isM, ?_, ?_⟩
        (.inl ⟨rfl, by rw [here]⟩)
      · simp only [isOpen, if_true]
        exact (inside.trans m.survives_sublist).append_right _
      · rintro _ ⟨rfl⟩
        exact ⟨writes.1, by simp⟩
    · have later : n < vs.manifestFileNumber := by simpa [isOpen] using writes.2
      refine .create vs.manifestFileNumber _ (by simp [logAndApplyOps, isOpen])
        (fun same => later.ne (Option.some.inj same)) ?_ rfl ?_
      · simp only [isOpen]
        rintro r mem
        obtain rfl | mem := mem_cons.mp mem
        · simp [writeSnapshot]
        · exact record r mem
      · rintro _ ⟨rfl⟩
        exact ⟨writes.1, by simp⟩

theorem recover_invariant {number : Nat} {reuse : Bool}
    (stepped : s.step comparator (.recover number reuse) = some s') : s'.Invariant cur := by
  rw [step] at stepped
  obtain ⟨ready, stepped⟩ := ite_none_right_eq_some.mp stepped
  obtain ⟨manifest, isManifest, stepped⟩ := bind_eq_some_iff.mp stepped
  obtain ⟨vs, recovered, stepped⟩ := bind_eq_some_iff.mp stepped
  cases stepped
  have based := inv.based
  cases cur with
  | none => simp [based.1] at ready
  | some n =>
    obtain ⟨f, isCurrent, line, -⟩ := based.1.current
    have same : number = n := currentLine_injective (by simpa [isCurrent, line, eq_comm] using ready.2.2)
    subst same
    have isOk : recover comparator ⟨number, manifest.content⟩ reuse = .ok vs := by
      cases result : recover comparator ⟨number, manifest.content⟩ reuse with
      | error e => simp [result, Except.toOption] at recovered
      | ok vs' => simpa [result, Except.toOption] using recovered
    obtain ⟨x, ⟨record, mem, isNext⟩, next, isOpen, writes⟩ := recover_numbers isOk
    have above := inv.numbered number manifest isManifest record mem x isNext
    refine ⟨inv.numbered, ⟨based.1, ?_⟩, .idle ready.1⟩
    rintro _ ⟨rfl⟩
    cases reuse with
    | true => simp [VersionSet.WritesTo, next, isOpen, writes]; omega
    | false => simp [VersionSet.WritesTo, next, isOpen, writes, above]

theorem fail_invariant : Invariant { s.stop with disk := s.disk.fail } cur := by
  refine ⟨fun n m isM => ?_, ?_, .idle rfl⟩
  · obtain ⟨old, isOld, rfl⟩ := map_eq_some_iff.mp isM
    exact fun r mem => inv.numbered n old isOld r (old.survives_sublist.subset mem)
  · have based := inv.based
    cases cur with
    | none => exact ⟨by simp [Disk.fail, based.1], based.2.1, rfl⟩
    | some n =>
      obtain ⟨f, isCurrent, line, all⟩ := based.1.current
      obtain ⟨m, isM, inside⟩ := based.1.manifest
      refine ⟨⟨⟨f.fail, by simp [Disk.fail, isCurrent], all.trans line, by simp⟩,
        m.fail, by simp [Disk.fail, isM], by simpa [stop] using inside⟩, by simp [stop]⟩

theorem writeBack_invariant (number : Nat) : Invariant { s with disk := { s.disk with
      temp := Function.update s.disk.temp number ((s.disk.temp number).map (·.sync)) } } cur := by
  have temps {k : Nat} {f : DurableFile Char} (isTemp : s.disk.temp k = some f) :
      ∃ f', Function.update s.disk.temp number ((s.disk.temp number).map (·.sync)) k = some f' ∧
        f'.content = f.content := by
    by_cases here : k = number
    · subst here
      exact ⟨f.sync, by simp [isTemp], rfl⟩
    · exact ⟨f, by simpa [update_of_ne here] using isTemp, rfl⟩
  refine ⟨inv.numbered, inv.based.temp, ?_⟩
  cases inv.stage with
  | idle done => exact .idle done
  | create k records todo other above returned set =>
    exact .create k records todo other above returned set
  | fill k rest tail m todo above written ends =>
    exact .fill k rest tail m todo above { written with } ends
  | newTemp k m todo written synced => exact .newTemp k m todo { written with } synced
  | appendTemp k m f todo written synced temp empty =>
    obtain ⟨f', isTemp, same⟩ := temps temp
    exact .appendTemp k m f' todo { written with } synced isTemp (same.trans empty)
  | renameTemp k m f todo written synced temp line =>
    obtain ⟨f', isTemp, same⟩ := temps temp
    exact .renameTemp k m f' todo { written with } synced isTemp (same.trans line)

theorem step_invariant {a : PowerAction K V}
    (allowed : s.writtenBack a = true) (stepped : s.step comparator a = some s') :
    ∃ cur', s'.Invariant cur' := by
  cases a with
  | exec => exact exec_invariant inv allowed stepped
  | logAndApply edit => exact ⟨cur, logAndApply_invariant inv stepped⟩
  | recover number reuse => exact ⟨cur, recover_invariant inv stepped⟩
  | powerFailure =>
    cases stepped
    exact ⟨cur, fail_invariant inv⟩
  | restart =>
    cases stepped
    refine ⟨cur, inv.numbered, ?_, .idle rfl⟩
    have based := inv.based
    cases cur with
    | none => exact ⟨based.1, based.2.1, rfl⟩
    | some n => exact ⟨based.1, by simp [stop]⟩
  | newDB =>
    rw [step] at stepped
    obtain ⟨ready, stepped⟩ := ite_none_right_eq_some.mp stepped
    cases stepped
    have based := inv.based
    cases cur with
    | some n =>
      obtain ⟨f, isCurrent, -⟩ := based.1.current
      simp [isCurrent] at ready
    | none =>
      exact ⟨none, inv.numbered, based, .create 1 _ rfl (by simp)
        (by simp [Above, TalusDB.newDB]) rfl (by simp)⟩
  | counters nextFileNumber lastSequence =>
    obtain ⟨vs, isSet, stepped⟩ := bind_eq_some_iff.mp stepped
    obtain ⟨ready, stepped⟩ := ite_none_right_eq_some.mp stepped
    cases stepped
    have based := inv.based
    cases cur with
    | none => exact absurd (based.2.2.symm.trans isSet) (by simp)
    | some n =>
      have writes := based.2 vs isSet
      refine ⟨some n, inv.numbered, ⟨based.1, ?_⟩, .idle ready.2⟩
      rintro _ ⟨rfl⟩
      exact ⟨writes.1.trans_le ready.1, writes.2⟩
  | removeManifest number =>
    obtain ⟨vs, isSet, stepped⟩ := bind_eq_some_iff.mp stepped
    obtain ⟨ready, stepped⟩ := ite_none_right_eq_some.mp stepped
    cases stepped
    have based := inv.based
    cases cur with
    | none => exact absurd (based.2.2.symm.trans isSet) (by simp)
    | some n =>
      have here : vs.manifestFileNumber = n := by simpa [ready.1] using (based.2 vs isSet).2
      have other : n ≠ number := by omega
      refine ⟨some n, fun k m isM => ?_, ⟨⟨based.1.current, ?_⟩, based.2⟩, .idle ready.2.2⟩
      · by_cases gone : k = number
        · simp [gone] at isM
        · exact inv.numbered k m (by simpa [update_of_ne gone] using isM)
      · simpa [update_of_ne other] using based.1.manifest
  | removeTemp number =>
    rw [step] at stepped
    obtain ⟨ready, stepped⟩ := ite_none_right_eq_some.mp stepped
    cases stepped
    exact ⟨cur, inv.numbered, inv.based.temp, .idle ready⟩
  | writeBack number =>
    cases stepped
    exact ⟨cur, writeBack_invariant inv number⟩

end

/-- As long as `CURRENT` is written back before it is renamed, it survives a power failure
after any step, with all that was acknowledged. -/
theorem current_survives (actions : List (PowerAction K V))
    (ran : run comparator writtenBack {} actions = some s) : s.Survives := by
  obtain ⟨cur, inv⟩ := Runs.run_induct (P := fun s => ∃ cur, Invariant s cur)
    (fun _ _ _ ⟨_, inv⟩ allowed stepped => step_invariant inv allowed stepped)
    ⟨none, initial_invariant⟩ ran
  exact inv.survives

/-- A new database is opened and its manifest replaced, each time with a write-back before the
rename. -/
def openWrittenBack : List (PowerAction Nat Nat) :=
  [.newDB, .exec, .exec, .exec, .exec, .exec, .writeBack 1, .exec, .recover 1 false,
    .logAndApply {}, .exec, .exec, .exec, .exec, .exec, .exec, .writeBack 2, .exec,
    .removeManifest 1, .powerFailure]

theorem current_survives_written_back :
    ∃ s, run "" writtenBack {} openWrittenBack = some s ∧ s.Survives := by
  obtain ⟨s, ran⟩ := isSome_iff_exists.mp (by decide +kernel :
    (run "" writtenBack {} openWrittenBack).isSome = true)
  exact ⟨s, ran, current_survives openWrittenBack ran⟩

/-- Nothing of `CURRENT` survives when `NewDB` has returned. -/
theorem current_lost : ∃ s : PowerState Nat Nat,
    run "" (fun _ _ => true) {} (.newDB :: List.replicate 6 .exec) = some s ∧ ¬ s.Survives := by
  have lost : (run "" (fun _ _ => true) ({} : PowerState Nat Nat)
      (.newDB :: List.replicate 6 .exec)).any (fun s =>
        s.disk.current.any fun f => f.survives = []) = true := by
    decide +kernel
  obtain ⟨s, ran, lost⟩ := (any_eq_true _ _).mp lost
  obtain ⟨f, isCurrent, lost⟩ := (any_eq_true _ _).mp lost
  refine ⟨s, ran, ?_⟩
  rintro (⟨none, -⟩ | ⟨f', number, m, isF, line, -⟩)
  · exact absurd (none.symm.trans isCurrent) (by simp)
  · cases isCurrent.symm.trans isF
    have empty := (of_decide_eq_true lost).symm.trans line
    simp [currentLine] at empty

end PowerState
end TalusDB
