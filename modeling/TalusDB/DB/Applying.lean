import TalusDB.DB.Phases

/-! `LogAndApply` from its call to the installation of the new version, and the removal of
obsolete files behind it. -/
namespace TalusDB
open List AList
open Recovery (entriesOf)
variable {K V : Type} [LinearOrder K]

namespace Impl
variable {s s' : Impl K V} {number : Nat} {rec : Record K V} {added : List (Nat × Nat)}
variable [Inhabited V] {config : Config K V} {edit : ManifestEdit K V} {caller : Caller}

/-- What `LogAndApply` is called with. -/
structure Proposed (s : Impl K V) (added : List (Nat × Nat)) (edit : ManifestEdit K V)
    (caller : Caller) (least : Nat) : Prop where
  isLeast : edit.logNumber.getD s.set.logNumber = least
  appends : Appends added s.set.current edit.toVersionEdit
  deleted : ∀ d ∈ edit.deletedFiles, d ∈ added
  named : edit.comparator = none
  prev : edit.prevLogNumber.getD 0 = 0
  below : ∀ a ∈ edit.adds, a.2 < s.set.nextFileNumber
  forward : s.set.logNumber ≤ least
  written : ∀ a ∈ edit.newFiles, s.files.tables.lookup a.2.number = some a.2.entries
  logs : ∀ n records, s.files.logs.lookup n = some records → n < least →
    ∀ e ∈ entriesOf records, e ∈ (s.set.current.logAndApply edit.toVersionEdit).entries
  covers : s.journal.Covers least
  own : (∀ outputs, caller ≠ .compaction outputs) →
    ∀ r ∈ s.running, ∀ n ∈ r.compact.numbers, ∀ a ∈ edit.adds, a.2 ≠ n
  flushes : caller = .compactMemTable → ∃ m, s.imm = some m ∧ m < least
  swept : caller = .trivialMove → s.Swept least

variable {least : Nat} {l : Logging K V} {files : DBFiles K V} {task : Task K V}

theorem Proposed.tables (proposed : s.Proposed added edit caller least)
    (tables : ∀ level, ∀ f ∈ s.set.current.files level,
      s.files.tables.lookup f.number = some f.entries) :
    ∀ level, ∀ f ∈ (s.set.current.logAndApply edit.toVersionEdit).files level,
      s.files.tables.lookup f.number = some f.entries := by
  intro level f mem
  have proper := proposed.appends.proper proposed.deleted
  obtain ⟨old, -⟩ | new := (proper.mem_files s.set.current (Version.level_lt mem)).mp mem
  · exact tables level f old
  · exact proposed.written _ new

omit [Inhabited V] in
theorem logAndApply_files (s : Impl K V) (config : Config K V) (edit : ManifestEdit K V)
    (caller : Caller) : (s.logAndApply config edit caller).files.tables = s.files.tables ∧
      (s.logAndApply config edit caller).files.logs = s.files.logs ∧
      (s.logAndApply config edit caller).journal = s.journal := by
  have logs : (s.logAndApply config edit caller).files.logs = s.files.logs := by
    rw [logAndApply]
    split <;> rfl
  refine ⟨?_, logs, ?_⟩
  · rw [logAndApply]
    split <;> rfl
  · simp only [journal, logs]
    rfl

section
variable (proposed : s.Proposed added edit caller least)
  (books : s.Books config.comparator number rec added) (agrees : s.Agrees rec added)
include proposed books agrees

theorem Proposed.planned : (s.logAndApply config edit caller).Planned added
      { edit := s.set.complete edit
        version := s.set.current.logAndApply edit.toVersionEdit
        caller
        newManifest := !s.set.descriptorOpen } := by
  obtain ⟨tables, logs, journal⟩ := logAndApply_files s config edit caller
  have isPrev : edit.prevLogNumber.getD s.set.prevLogNumber = 0 := books.prev ▸ proposed.prev
  obtain rfl := proposed.isLeast
  exact {
    appends := proposed.appends
    deleted := proposed.deleted
    named := proposed.named
    version := rfl
    forward := proposed.forward
    isLog := rfl
    isPrev := congrArg some isPrev
    isNext := rfl
    isLast := rfl
    below := fun a mem => (mem_append.mp mem).elim (books.below a) (proposed.below a)
    logBelow := proposed.covers.reached.trans_lt proposed.covers.below
    manifest := books.manifest
    later := le_rfl
    tables := by
      rw [tables]
      exact proposed.tables (agrees.version ▸ books.keeps.tables)
    logs := by
      rw [logs]
      exact proposed.logs
    isOpen := rfl
    covers := by
      rw [journal]
      exact proposed.covers
    own := proposed.own
    flushes := proposed.flushes
    swept := by
      rw [Swept, logs]
      exact proposed.swept }

theorem Proposed.logged (reopened : s.set.descriptorOpen = true → number = s.set.manifestFileNumber)
    (replaced : s.set.descriptorOpen = false → number ≠ s.set.manifestFileNumber) :
    (s.logAndApply config edit caller).Books config.comparator number rec added ∧
      (s.logAndApply config edit caller).Phase config.comparator number rec added := by
  obtain ⟨tables, -, -⟩ := logAndApply_files s config edit caller
  refine ⟨⟨?_, books.listed, books.below, books.manifest, books.prev, books.wanted, books.pending,
    ?_⟩, proposed.planned books agrees, ?_⟩
  · rw [logAndApply]
    split
    · exact books.keeps
    case isFalse closed => exact books.keeps.insertDescriptor (replaced (by simpa using closed)) _
  · intro r isRunning
    obtain ⟨producing, pending⟩ := books.running r isRunning
    exact ⟨producing.mono le_rfl fun _ _ => by rw [tables], pending⟩
  · refine .before rfl ⟨agrees.version, agrees.logNumber, agrees.added⟩ ?_ ?_
    · intro old
      exact reopened (by simpa using old)
    · intro new
      have closed : s.set.descriptorOpen = false := by simpa using new
      refine ⟨replaced closed, ?_⟩
      obtain ⟨records, r, -, said⟩ := books.keeps.descriptor
      have builds := said.toBuilds
      rw [agrees.added, agrees.version] at builds
      have pointed : ({ s.set with
          compactPointer := applyPointers s.set.compactPointer edit.compactPointers } :
            VersionSet K V).current = s.set.current := rfl
      obtain ⟨r', snapshot⟩ := builds.snapshot pointed
      refine ⟨_, r', ?_, snapshot⟩
      simp only [logAndApply, closed, Bool.false_eq_true, if_false]
      exact lookup_insert _

end

theorem Planned.builds (planned : s.Planned added l)
    (deeper : Deeper added s.set.current) {comparator : String}
    {records : List (ManifestEdit K V)} {r : Replay K V}
    (builds : Builds comparator records added s.set.current r) :
    ∃ r', Says comparator (records ++ [l.edit]) (l.record added) r' := by
  obtain ⟨r', said'⟩ := builds.append planned.appends deeper planned.deleted
    (by simp [planned.named]) planned.isLog planned.isPrev planned.isNext planned.isLast
    planned.below planned.logBelow
  rw [← planned.version] at said'
  exact ⟨r', said'⟩

variable {comparator : String}

theorem Planned.keeps (planned : s.Planned added l) (books : s.Books comparator number rec added)
    (current : files.current = some s.set.manifestFileNumber)
    (tables : files.tables = s.files.tables) (logs : files.logs = s.files.logs)
    (descriptor : ∃ records r, files.descriptors.lookup s.set.manifestFileNumber = some records ∧
      Says comparator records (l.record added) r) :
    files.Keeps comparator s.set.manifestFileNumber (l.record added) where
  current := current
  descriptor := descriptor
  numberBelow := planned.manifest
  tables := tables ▸ planned.tables
  logs := logs ▸ planned.logs
  positive := logs ▸ books.keeps.positive

theorem Books.describe (books : s.Books comparator number rec added) {number' : Nat}
    {rec' : Record K V} (tables : files.tables = s.files.tables)
    (keeps : files.Keeps comparator number' rec') :
    { s with files, task }.Books comparator number' rec' added :=
  { books with
    keeps
    running := fun r isRunning =>
      ⟨(books.running r isRunning).1.mono le_rfl fun _ _ => by rw [tables],
        (books.running r isRunning).2⟩ }

theorem Planned.describe {l' : Logging K V} (planned : s.Planned added l)
    (tables : files.tables = s.files.tables) (logs : files.logs = s.files.logs)
    (edit : l'.edit = l.edit) (version : l'.version = l.version) (caller : l'.caller = l.caller) :
    { s with files, task }.Planned added l' := by
  have least : l'.least = l.least := by rw [Logging.least, edit, Logging.least]
  have record : l'.record added = l.record added := by
    rw [Logging.record, Logging.record, least, version, edit]
  have journal : ({ s with files, task } : Impl K V).journal = s.journal := by
    simp only [Impl.journal, logs]
  constructor <;> simp only [edit, version, caller, least, record, tables, logs, journal, Swept]
  · exact planned.appends
  · exact planned.deleted
  · exact planned.named
  · exact planned.version
  · exact planned.forward
  · exact planned.isLog
  · exact planned.isPrev
  · exact planned.isNext
  · exact planned.isLast
  · exact planned.below
  · exact planned.logBelow
  · exact planned.manifest
  · exact planned.later
  · exact planned.tables
  · exact planned.logs
  · exact planned.isOpen
  · exact planned.covers
  · exact planned.own
  · exact planned.flushes
  · exact planned.swept

section
variable (books : s.Books comparator number rec added) (phase : s.Phase comparator number rec added)
include books phase

theorem appendRecord_phase (appended : s.appendRecord = some s') :
    ∃ rec', s'.Books comparator number rec' added ∧ s'.Phase comparator number rec' added := by
  rw [appendRecord] at appended
  split at appended
  case h_2 => cases appended
  case h_1 l isTask =>
    simp only [Phase, isTask] at phase
    obtain ⟨planned, stage⟩ := phase
    obtain ⟨notYet, appended⟩ := Option.ite_none_left_eq_some.mp appended
    obtain ⟨records, found, appended⟩ := Option.bind_eq_some_iff.mp appended
    cases appended
    cases stage with
    | drafted isAppended | done isAppended => exact absurd isAppended notYet
    | before isAppended agrees old draft =>
      obtain ⟨records', r, found', said⟩ := books.keeps.descriptor
      have deeper : Deeper added s.set.current := by
        have deeper := said.deeper
        rwa [agrees.added, agrees.version] at deeper
      cases new : l.newManifest with
      | true =>
        obtain ⟨other, drafts, r', isDraft, builds⟩ := draft new
        rw [found] at isDraft
        cases isDraft
        obtain ⟨r'', said'⟩ := planned.builds deeper builds
        refine ⟨rec, books.describe rfl (books.keeps.insertDescriptor other _),
          planned.describe rfl rfl rfl rfl rfl, ?_⟩
        refine .drafted rfl rfl ⟨agrees.version, agrees.logNumber, agrees.added⟩ other
          ⟨_, r'', lookup_insert _, said'⟩
      | false =>
        obtain rfl := old new
        rw [found] at found'
        cases found'
        have builds := said.toBuilds
        rw [agrees.added, agrees.version] at builds
        obtain ⟨r'', said'⟩ := planned.builds deeper builds
        refine ⟨l.record added, books.describe rfl (planned.keeps books books.keeps.current rfl
          rfl ⟨_, r'', lookup_insert _, said'⟩), planned.describe rfl rfl rfl rfl rfl, ?_⟩
        exact .done rfl rfl rfl rfl

theorem setCurrent_phase (named : s.setCurrent = some s') :
    ∃ number' rec', s'.Books comparator number' rec' added ∧
      s'.Phase comparator number' rec' added := by
  rw [setCurrent] at named
  split at named
  case h_1 isTask => simp [Phase, isTask] at phase
  case h_3 => cases named
  case h_2 l isTask =>
    simp only [Phase, isTask] at phase
    obtain ⟨planned, stage⟩ := phase
    obtain ⟨ready, named⟩ := Option.ite_none_right_eq_some.mp named
    rw [Bool.and_eq_true] at ready
    cases named
    cases stage with
    | before isAppended => simp [isAppended] at ready
    | done isAppended old => simp [old] at ready
    | drafted isAppended new agrees other draft =>
      refine ⟨s.set.manifestFileNumber, l.record added, books.describe rfl
        (planned.keeps books rfl rfl rfl draft), planned.describe rfl rfl rfl rfl rfl, ?_⟩
      exact .done isAppended rfl rfl rfl

end

theorem Planned.installed (planned : s.Planned added l)
    (books : s.Books comparator s.set.manifestFileNumber (l.record added) added)
    {versions : List (RefCount.Node (Version K V))} {running : Option (Running K V)}
    {pendingOutputs : List Nat} {imm : Option Nat} (inputVersion : Option (Pin K V))
    (task : Task K V)
    (fewer : ∀ node ∈ versions, ∃ m ∈ (s.appendVersion l).versions, m.value = node.value)
    (producing : ∀ r ∈ running,
      Producing s.files s.set.nextFileNumber (added ++ l.edit.adds) r.compact ∧
        ∀ n ∈ r.compact.numbers, n ∈ pendingOutputs)
    (pending : ∀ n ∈ pendingOutputs, n ∈ s.pendingOutputs)
    (covers : { s.journal with imm }.Covers l.least) :
    { s.appendVersion l with
        versions, running, pendingOutputs, inputVersion, imm, task }.Books comparator
      s.set.manifestFileNumber (l.record added) (added ++ l.edit.adds) ∧
    { s.appendVersion l with
        versions, running, pendingOutputs, inputVersion, imm, task }.Settled
      s.set.manifestFileNumber (l.record added) (added ++ l.edit.adds) := by
  have logNumber : l.edit.logNumber.getD s.set.logNumber = l.least := by simp [planned.isLog]
  have listed : ∀ m ∈ (s.appendVersion l).versions, ∀ level, ∀ f ∈ m.value.files level,
      (level, f.number) ∈ added ++ l.edit.adds := by
    intro m mem level f inLevel
    obtain old | new := mem_append.mp mem
    · obtain ⟨m', inside, -, same⟩ := RefCount.mem_unref old
      rw [← same] at inLevel
      exact mem_append_left _ (books.listed m' inside level f inLevel)
    · rw [mem_singleton.mp new] at inLevel
      exact books.keeps.known level f inLevel
  constructor
  · constructor
    · exact books.keeps
    · intro node mem
      obtain ⟨m, inside, same⟩ := fewer node mem
      exact same ▸ listed m inside
    · exact fun a mem => (planned.below a mem).trans_le planned.later
    · exact books.manifest
    · exact (by simp [planned.isPrev] : l.edit.prevLogNumber.getD s.set.prevLogNumber = 0)
    · simp [Wanted, appendVersion]
    · exact fun n mem => books.pending n (pending n mem)
    · exact producing
  · have covers : { s.journal with imm }.Covers (l.edit.logNumber.getD s.set.logNumber) := by
      rwa [logNumber]
    exact ⟨⟨rfl, logNumber.symm, rfl⟩, rfl, planned.isOpen, covers⟩

theorem Settled.sweep (settled : s.Settled number rec added)
    (books : s.Books comparator number rec added) :
    s.removeObsoleteFiles.Phase comparator number rec added := by
  refine ⟨⟨⟨settled.agrees.version, settled.agrees.logNumber, settled.agrees.added⟩,
    settled.manifest, settled.isOpen, settled.covers⟩, ?_, ?_⟩
  · intro name mem
    have out := (mem_filter.mp mem).2
    cases name with
    | table n =>
      simp only [Bool.not_eq_true', contains_eq_mem, decide_eq_false_iff_not, mem_append,
        mem_flatMap, not_or, not_exists, not_and] at out
      exact ⟨out.2, out.1⟩
    | log n =>
      simp only [Bool.not_eq_true', Bool.or_eq_false_iff, decide_eq_false_iff_not] at out
      exact not_le.mp out.1
    | descriptor n =>
      simp only [Bool.not_eq_true', decide_eq_false_iff_not] at out
      exact not_le.mp out
  · intro n mem
    by_cases high : s.set.logNumber ≤ n
    · exact .inl high
    · right
      obtain ⟨records, found⟩ := Option.isSome_iff_exists.mp (lookup_isSome.mpr mem)
      have positive := books.keeps.positive n records found
      refine mem_filter.mpr ⟨?_, ?_⟩
      · simp only [DBFiles.getChildren, mem_append, mem_map]
        exact .inl (.inl ⟨n, mem, rfl⟩)
      · simp only [books.prev, Bool.not_eq_true', Bool.or_eq_false_iff, decide_eq_false_iff_not,
          beq_eq_false_iff_ne]
        exact ⟨high, positive.ne'⟩

theorem install_phase (books : s.Books comparator number rec added)
    (phase : s.Phase comparator number rec added) (installed : s.install = some s') :
    ∃ added', s'.Books comparator number rec added' ∧ s'.Phase comparator number rec added' := by
  rw [install] at installed
  split at installed
  case h_2 => cases installed
  case h_1 l isTask =>
    simp only [Phase, isTask] at phase
    obtain ⟨planned, stage⟩ := phase
    obtain ⟨ready, installed⟩ := Option.ite_none_right_eq_some.mp installed
    simp only [Bool.and_eq_true, Bool.not_eq_true'] at ready
    cases stage with
    | before isAppended => simp [isAppended] at ready
    | drafted isAppended new => simp [new] at ready
    | done isAppended old manifest isRecord =>
      subst manifest isRecord
      refine ⟨added ++ l.edit.adds, ?_⟩
      have same : ∀ node ∈ (s.appendVersion l).versions,
          ∃ m ∈ (s.appendVersion l).versions, m.value = node.value :=
        fun node mem => ⟨node, mem, rfl⟩
      have released : ∀ node ∈ (s.appendVersion l).releaseInputs.versions,
          ∃ m ∈ (s.appendVersion l).versions, m.value = node.value := by
        intro node mem
        rw [releaseInputs] at mem
        cases isPin : (s.appendVersion l).inputVersion with
        | none =>
          simp only [isPin, Option.elim_none] at mem
          exact ⟨node, mem, rfl⟩
        | some pin =>
          simp only [isPin, Option.elim_some] at mem
          obtain ⟨m, inside, -, same⟩ := RefCount.mem_unref mem
          exact ⟨m, inside, same⟩
      have producing (other : ∀ outputs, l.caller ≠ .compaction outputs) : ∀ r ∈ s.running,
          Producing s.files s.set.nextFileNumber (added ++ l.edit.adds) r.compact ∧
            ∀ n ∈ r.compact.numbers, n ∈ s.pendingOutputs := by
        intro r isRunning
        obtain ⟨producing, pending⟩ := books.running r isRunning
        exact ⟨producing.add (planned.own other r isRunning), pending⟩
      split at installed <;> cases installed
      case h_1 isOpen =>
        obtain ⟨books', settled⟩ := planned.installed books s.inputVersion s.task same
          (producing (by simp [isOpen])) (fun _ mem => mem) planned.covers
        exact ⟨books'.describe rfl books'.keeps, settled.sweep books'⟩
      case h_2 isFlush =>
        obtain ⟨m, isImm, before⟩ := planned.flushes isFlush
        have covers : { s.journal with imm := none }.Covers l.least :=
          { planned.covers with
            imm := by simp
            others := fun n records found high different _ =>
              planned.covers.others n records found high different
                (fun same => by
                  rw [show s.journal.imm = some m from isImm] at same
                  cases same
                  omega) }
        obtain ⟨books', settled⟩ := planned.installed books s.inputVersion s.task same
          (producing (by simp [isFlush])) (fun _ mem => mem) covers
        exact ⟨books'.describe rfl books'.keeps, settled.sweep books'⟩
      case h_3 isMove =>
        obtain ⟨books', settled⟩ := planned.installed books none .idle released
          (producing (by simp [isMove])) (fun _ mem => mem) planned.covers
        refine ⟨books', settled, ?_⟩
        have swept := planned.swept isMove
        have logNumber : l.edit.logNumber.getD s.set.logNumber = l.least := by
          simp [planned.isLog]
        show s.Swept (l.edit.logNumber.getD s.set.logNumber)
        rwa [logNumber]
      case h_4 outputs isCompaction =>
        have nothing : ∀ r ∈ (none : Option (Running K V)),
            Producing s.files s.set.nextFileNumber (added ++ l.edit.adds) r.compact ∧
              ∀ n ∈ r.compact.numbers, n ∈ s.pendingOutputs.filter (· ∉ outputs) := by simp
        obtain ⟨books', settled⟩ := planned.installed books none s.task released nothing
          (fun n mem => mem_of_mem_filter mem) planned.covers
        exact ⟨books'.describe rfl books'.keeps, settled.sweep books'⟩

omit [Inhabited V] in
theorem Pinned.current_listed (pinned : s.Pinned) :
    ∃ node ∈ s.versions, node.value = s.set.current := by
  obtain ⟨node, mem, -, same⟩ := pinned.counted.listed _ Pinned.current_mem
  exact ⟨node, mem, same⟩

theorem removeFile_phase (pinned : s.Pinned) (books : s.Books comparator number rec added)
    (phase : s.Phase comparator number rec added) (removed : s.removeFile = some s') :
    s'.Books comparator number rec added ∧ s'.Phase comparator number rec added := by
  rw [removeFile] at removed
  split at removed
  case h_3 => cases removed
  case h_1 name rest isTask =>
    simp only [Phase, isTask] at phase
    obtain ⟨settled, doomed, swept⟩ := phase
    cases removed
    have here := doomed name mem_cons_self
    obtain ⟨node, listed, isCurrent⟩ := pinned.current_listed
    have keeps : (s.files.removeFile name).Keeps comparator number rec := by
      apply books.keeps.removeFile
      · rintro n rfl a mem rfl
        rw [settled.agrees.version, ← isCurrent] at mem
        exact here.1 node listed mem
      · rintro rfl
        exact absurd (settled.manifest ▸ here : number < number) (Nat.lt_irrefl _)
    have tables : ∀ n, n ∈ s.pendingOutputs →
        (s.files.removeFile name).tables.lookup n = s.files.tables.lookup n := by
      intro n mem
      cases name with
      | log | descriptor => rfl
      | table m =>
        refine lookup_erase_ne ?_
        rintro rfl
        exact here.2 mem
    have fewer : ∀ n records, (s.files.removeFile name).logs.lookup n = some records →
        s.files.logs.lookup n = some records ∧ name ≠ .log n := by
      intro n records found
      cases name with
      | table | descriptor => exact ⟨found, by simp⟩
      | log m =>
        by_cases same : n = m
        · subst same
          simp [DBFiles.removeFile] at found
        · refine ⟨(lookup_erase_ne same).symm.trans found, ?_⟩
          simpa using Ne.symm same
    refine ⟨{ books with keeps, running := ?_ }, ⟨⟨settled.agrees.version,
      settled.agrees.logNumber, settled.agrees.added⟩, settled.manifest, settled.isOpen,
      settled.covers.remove fun n records found => (fewer n records found).1⟩,
      fun name' mem => doomed name' (mem_cons_of_mem _ mem), ?_⟩
    · intro r isRunning
      obtain ⟨producing, pending⟩ := books.running r isRunning
      exact ⟨producing.mono le_rfl fun n mem => tables n (pending n mem), pending⟩
    · intro n mem
      obtain ⟨records, found⟩ := Option.isSome_iff_exists.mp (lookup_isSome.mpr mem)
      obtain ⟨old, other⟩ := fewer n records found
      refine (swept n (lookup_isSome.mp (by simp [old]))).imp_right fun listed => ?_
      exact (mem_cons.mp listed).resolve_left other.symm
  case h_2 isTask =>
    simp only [Phase, isTask] at phase
    obtain ⟨settled, -, swept⟩ := phase
    cases removed
    refine ⟨{ books with }, ⟨⟨settled.agrees.version, settled.agrees.logNumber,
      settled.agrees.added⟩, settled.manifest, settled.isOpen, { settled.covers with }⟩, ?_⟩
    exact fun n mem => (swept n mem).resolve_right (by simp)

end Impl
end TalusDB
