import TalusDB.DB.Install

/-! A compaction changes no read that a live snapshot, or a later one, can make. -/
namespace TalusDB
open CompactionState List Option
variable {K V : Type} [LinearOrder K]

/-- The entries of these levels, without those of files at these places. -/
def entriesAt (v : Version K V) (removed : List (Nat × Nat)) (levels : List Nat) :
    List (Entry K V) :=
  levels.flatMap fun level =>
    ((v.files level).filter fun f => (level, f.number) ∉ removed).flatMap (·.entries)

theorem mem_entriesAt {v : Version K V} {removed : List (Nat × Nat)} {levels : List Nat}
    {e : Entry K V} :
    e ∈ entriesAt v removed levels ↔
      ∃ level ∈ levels, ∃ f ∈ v.files level, (level, f.number) ∉ removed ∧ e ∈ f.entries := by
  simp only [entriesAt, mem_flatMap, mem_filter, decide_eq_true_eq, and_assoc]

/-- The entries above and beside the inputs. -/
def Compaction.above (c : Compaction K V) (v : Version K V) : List (Entry K V) :=
  entriesAt v c.removed (List.range (c.level + 2))

/-- The entries below the output level. -/
def Compaction.below (c : Compaction K V) (v : Version K V) : List (Entry K V) :=
  entriesAt v [] c.deeperLevels

section
variable {v : Version K V} {c : Compaction K V} {next : Nat}

theorem mem_deeperLevels (bound : c.level + 1 < kNumLevels) {level : Nat} :
    level ∈ c.deeperLevels ↔ c.level + 1 < level ∧ level < kNumLevels := by
  rw [Compaction.deeperLevels, mem_range'_1]
  omega

variable {e : Entry K V} {done : CompactionState K V}

/-- A compaction whose outputs may take the place of its inputs: the files above and beside these
are newer, and a deletion that `IsBaseLevelForKey` lets go has nothing below it. -/
structure Compaction.Replaceable (v : Version K V) (next : Nat) (c : Compaction K V) : Prop where
  bound : c.level + 1 < kNumLevels
  present : c.Present v
  numbered : v.Numbered next
  recent : v.Recent
  unique : UniqueEntries v.entries
  above : ∀ level ≤ c.level + 1, ∀ g ∈ v.files level, ¬ c.IsInput level g → ∀ f ∈ c.allInputs,
    NewerEntries g.entries f.entries
  sorted : (makeInput c).Pairwise fun a b => a.key < b.key
  base : ∀ e ∈ makeInput c, c.isBase e.userKey = true → ∀ x ∈ c.below v, x.userKey ≠ e.userKey

theorem Compaction.Replaceable.mem_entries (replaceable : c.Replaceable v next) :
    e ∈ v.entries ↔ e ∈ c.above v ++ (makeInput c ++ c.below v) := by
  have present := replaceable.present
  rw [Version.mem_entries, mem_append, mem_append, mem_makeInput, Compaction.above,
    Compaction.below, mem_entriesAt, mem_entriesAt]
  constructor
  · rintro ⟨level, f, mem, inside⟩
    have deep := Version.level_lt mem
    by_cases below : c.level + 1 < level
    · exact .inr (.inr ⟨level, (mem_deeperLevels replaceable.bound).mpr ⟨below, deep⟩, f, mem,
        by simp, inside⟩)
    · by_cases input : c.IsInput level f
      · exact .inr (.inl ⟨f, input.mem_allInputs, inside⟩)
      · exact .inl ⟨level, mem_range.mpr (by omega), f, mem,
          (present.removed_iff replaceable.numbered mem).not.mpr input, inside⟩
  · rintro (⟨level, -, f, mem, -, inside⟩ | ⟨f, mem, inside⟩ | ⟨level, -, f, mem, -, inside⟩)
    · exact ⟨level, f, mem, inside⟩
    · obtain ⟨level, input⟩ := exists_isInput mem
      exact ⟨level, f, present.mem_files input, inside⟩
    · exact ⟨level, f, mem, inside⟩

theorem Compaction.Replaceable.mem_installed (replaceable : c.Replaceable v next)
    (same : done.compaction = c) (proper : done.installEdit.Proper) :
    e ∈ (v.logAndApply done.installEdit).entries ↔
      e ∈ c.above v ++ (done.outputs.flatMap (·.entries) ++ c.below v) := by
  subst same
  have present := replaceable.present
  have installed {level : Nat} {f : FileMetaData K V} :
      f ∈ (v.logAndApply done.installEdit).files level ↔
        f ∈ v.files level ∧ ¬ done.compaction.IsInput level f ∨
          level = done.compaction.level + 1 ∧ f ∈ done.outputs :=
    (installEdit_replaces done).mem_files proper present replaceable.numbered replaceable.bound
  rw [Version.mem_entries, mem_append, mem_append, mem_flatMap, Compaction.above,
    Compaction.below, mem_entriesAt, mem_entriesAt]
  constructor
  · rintro ⟨level, f, mem, inside⟩
    obtain ⟨mem, other⟩ | ⟨-, output⟩ := installed.mp mem
    · have deep := Version.level_lt mem
      by_cases below : done.compaction.level + 1 < level
      · exact .inr (.inr ⟨level, (mem_deeperLevels replaceable.bound).mpr ⟨below, deep⟩, f, mem,
          by simp, inside⟩)
      · exact .inl ⟨level, mem_range.mpr (by omega), f, mem,
          (present.removed_iff replaceable.numbered mem).not.mpr other, inside⟩
    · exact .inr (.inl ⟨f, output, inside⟩)
  · rintro (⟨level, -, f, mem, other, inside⟩ | ⟨f, output, inside⟩ |
      ⟨level, below, f, mem, -, inside⟩)
    · exact ⟨level, f, installed.mpr (.inl ⟨mem,
        (present.removed_iff replaceable.numbered mem).not.mp other⟩), inside⟩
    · exact ⟨_, f, installed.mpr (.inr ⟨rfl, output⟩), inside⟩
    · refine ⟨level, f, installed.mpr (.inl ⟨mem, fun input => ?_⟩), inside⟩
      have le := input.level_le
      have more := ((mem_deeperLevels replaceable.bound).mp below).1
      omega

theorem isBase_below {k : K} (base : c.isBase k = true) :
    ∀ e ∈ c.below c.inputVersion, e.userKey ≠ k := by
  intro e mem user
  obtain ⟨level, below, f, inLevel, -, inside⟩ := mem_entriesAt.mp mem
  have clear := all_eq_true.mp base level below
  rw [clearOf_iff] at clear
  exact clear f inLevel (user ▸ f.meets_entry inside)

theorem Compaction.Picked.replaceable (picked : c.Picked v) (wellFormed : v.WellFormed next) :
    c.Replaceable v next where
  bound := picked.bound
  present := picked.selected.present
  numbered := wellFormed.numbered
  recent := wellFormed.recent
  unique := wellFormed.unique
  above _ le _ inLevel other _ input := picked.selected.above_newer wellFormed.recent
    wellFormed.unique le inLevel other input
  sorted := makeInput_strict wellFormed.recent wellFormed.numbered picked.selected
  base _ _ base := by
    rw [← picked.version]
    exact isBase_below base

theorem Compaction.Replaceable.kept_reads (replaceable : c.Replaceable v next)
    {smallestSnapshot : Nat} (small : smallestSnapshot < kMaxSequenceNumber) {s : Nat}
    (visible : smallestSnapshot ≤ s) (k : K) :
    readEntries (c.above v ++ (c.kept smallestSnapshot ++ c.below v)) k s =
      readEntries (c.above v ++ (makeInput c ++ c.below v)) k s := by
  have present := replaceable.present
  have unique : UniqueEntries (c.above v ++ (makeInput c ++ c.below v)) :=
    replaceable.unique.mono fun e mem => replaceable.mem_entries.mpr mem
  have inputs_unique : UniqueEntries (makeInput c) := unique.mono fun e mem =>
    mem_append_right _ (mem_append_left _ mem)
  have inputs_below : NewerEntries (makeInput c) (c.below v) := by
    intro a inA b inB
    obtain ⟨f, mem, aIn⟩ := mem_makeInput.mp inA
    obtain ⟨level, input⟩ := exists_isInput mem
    obtain ⟨deeper, under, g, inLevel, -, bIn⟩ := mem_entriesAt.mp inB
    have less := input.level_le
    have more := ((mem_deeperLevels replaceable.bound).mp under).1
    exact replaceable.recent.levels level deeper (by omega) f (present.mem_files input) g inLevel
      a aIn b bIn
  have above_newer : NewerEntries (c.above v) (makeInput c ++ c.below v) := by
    intro a inA b inB
    obtain ⟨level, shallow, g, inLevel, other, aIn⟩ := mem_entriesAt.mp inA
    rw [mem_range] at shallow
    obtain inB | inB := mem_append.mp inB
    · obtain ⟨f, mem, bIn⟩ := mem_makeInput.mp inB
      exact replaceable.above level (by omega) g inLevel
        ((present.removed_iff replaceable.numbered inLevel).not.mp other) f mem a aIn b bIn
    · obtain ⟨deeper, under, f, mem, -, bIn⟩ := mem_entriesAt.mp inB
      have more := ((mem_deeperLevels replaceable.bound).mp under).1
      exact replaceable.recent.levels level deeper (by omega) g inLevel f mem a aIn b bIn
  refine Multiversion.read_replace unique above_newer inputs_below keepFrom_sublist.subset ?_
  intro e newest
  have unseen : (none : Option K) = some k → s < kMaxSequenceNumber := by simp
  have choice : e ∈ c.kept smallestSnapshot ∨ e.read = none ∧ c.isBase k = true ∧
      ∀ x ∈ c.kept smallestSnapshot, x.userKey = k → ¬ x.sequence ≤ s :=
    keepFrom_newest visible small replaceable.sorted inputs_unique unseen newest
  obtain kept | ⟨absent, base, hidden⟩ := choice
  · exact .inl kept
  · obtain rfl := newest.isKey
    exact .inr ⟨absent, hidden, replaceable.base e newest.mem base⟩

theorem Compaction.Replaceable.installed_reads (replaceable : c.Replaceable v next)
    (same : done.compaction = c) (proper : done.installEdit.Proper) {smallestSnapshot : Nat}
    (outputs : done.outputs.flatMap (·.entries) = c.kept smallestSnapshot)
    (small : smallestSnapshot < kMaxSequenceNumber) {s : Nat} (visible : smallestSnapshot ≤ s)
    (k : K) :
    readEntries (v.logAndApply done.installEdit).entries k s = readEntries v.entries k s := by
  have split' (e : Entry K V) : e ∈ (v.logAndApply done.installEdit).entries ↔ _ :=
    replaceable.mem_installed same proper
  rw [outputs] at split'
  have fewer : UniqueEntries (c.above v ++ (c.kept smallestSnapshot ++ c.below v)) := by
    refine replaceable.unique.mono fun e mem => replaceable.mem_entries.mpr ?_
    simp only [mem_append] at mem ⊢
    exact mem.imp_right (Or.imp_left fun kept => keepFrom_sublist.subset kept)
  calc
    _ = _ := readEntries_congr fewer (fun e _ => (split' e).symm) k
    _ = _ := replaceable.kept_reads small visible k
    _ = _ := readEntries_congr replaceable.unique (fun e _ => replaceable.mem_entries) k

theorem doCompactionWork_spec (wellFormed : v.WellFormed next) (picked : c.Picked v)
    (options : Options K V) (smallestSnapshot : Nat) :
    ∃ next' done, doCompactionWork options next c smallestSnapshot = some (next', done) ∧
      done.compaction = c ∧ done.outputs.flatMap (·.entries) = c.kept smallestSnapshot ∧
      Counted done next next' :=
  run_spec (makeInput c).length rfl (.start c smallestSnapshot)
    (start_writable wellFormed picked smallestSnapshot)
    (start_counted c smallestSnapshot next next) le_rfl (picked.version ▸ wellFormed.disjoint)
    options

theorem doCompactionWork_proper (wellFormed : v.WellFormed next) (picked : c.Picked v)
    {next' : Nat} (same : done.compaction = c)
    (counted : Counted done next next') : done.installEdit.Proper := by
  subst same
  have outputs : done.outputs.map (·.number) |>.Sublist done.numbers :=
    sublist_append_left _ _
  refine (installEdit_replaces done).proper (counted.nodup.sublist outputs) ?_
  intro f output g input
  have fresh := (counted.within f.number (outputs.subset (mem_map_of_mem output))).1
  exact ((wellFormed.numbered.below _ g (picked.selected.subset g input)).trans_le fresh).ne

/-- Whatever snapshots are live, the outputs of a compaction in the place of its inputs
give every reader at a live snapshot, or at the present, the same answers. -/
theorem compaction_preserves_reads (wellFormed : v.WellFormed next) {options : Options K V}
    (produced : c.Produced options v) {snapshots : SnapshotList} {lastSequence : Nat}
    (taken : snapshots.Taken lastSequence) (inRange : lastSequence < kMaxSequenceNumber) :
    ∃ next' done, doCompactionWork options next c (snapshots.smallestSnapshot lastSequence) =
        some (next', done) ∧
      ∀ s, s ∈ snapshots ∨ snapshots.smallestSnapshot lastSequence ≤ s → ∀ k,
        readEntries (v.logAndApply done.installEdit).entries k s = readEntries v.entries k s := by
  have picked := produced.picked wellFormed.disjoint
  obtain ⟨smallest, oldest⟩ := taken.smallest_le
  obtain ⟨next', done, ran, same, outputs, counted⟩ := doCompactionWork_spec wellFormed picked
    options (snapshots.smallestSnapshot lastSequence)
  have proper := doCompactionWork_proper wellFormed picked same counted
  refine ⟨next', done, ran, fun s reader k => ?_⟩
  exact (picked.replaceable wellFormed).installed_reads same proper outputs
    (smallest.trans_lt inRange) (reader.elim (oldest s) id) k

end

def exampleOptions : Options Nat Nat where
  maxFileSize := 2097152
  builderSize entries := 50 * entries.length
  tableSize entries := 50 * entries.length

def tableOf (number : Fin 8) : FileMetaData Nat Nat where
  number
  fileSize := 50
  smallest := ⟨0, number, .value⟩
  largest := ⟨0, number, .value⟩
  entries := [⟨⟨0, number, .value⟩, 10 * number⟩]
  ordered := le_rfl
  sorted := pairwise_singleton _ _
  bounded := by simp
  inRange := by
    have small : (number : Nat) ≤ kMaxSequenceNumber := number.isLt.le.trans (by decide)
    simpa [Entry.sequence] using small

/-- A newer entry of the key at level 1 and an older one at level 2. -/
def twoTables : Version Nat Nat where
  files level := if level = 1 then [tableOf 7] else if level = 2 then [tableOf 4] else []
  shallow level deep := by
    have := deep.trans_lt' (by decide : 2 < kNumLevels)
    rw [if_neg (by omega), if_neg (by omega)]

theorem mem_twoTables {level : Nat} {f : FileMetaData Nat Nat} (mem : f ∈ twoTables.files level) :
    level = 1 ∧ f = tableOf 7 ∨ level = 2 ∧ f = tableOf 4 := by
  simp only [twoTables] at mem
  split at mem
  · exact .inl ⟨‹_›, mem_singleton.mp mem⟩
  split at mem
  · exact .inr ⟨‹_›, mem_singleton.mp mem⟩
  · cases mem

theorem twoTables_wellFormed : twoTables.WellFormed 8 where
  disjoint level _ := by
    simp only [twoTables]
    split
    · exact pairwise_singleton _ _
    split
    · exact pairwise_singleton _ _
    · exact .nil
  recent := by
    refine ⟨fun f mem => ?_, fun i j less f inI g inJ => ?_⟩
    · cases mem
    · obtain ⟨rfl, rfl⟩ | ⟨rfl, rfl⟩ := mem_twoTables inI <;>
        obtain ⟨rfl, rfl⟩ | ⟨rfl, rfl⟩ := mem_twoTables inJ
      · exact absurd less (by decide)
      · intro a inA b inB _
        rw [mem_singleton.mp inA, mem_singleton.mp inB]
        decide
      · exact absurd less (by decide)
      · exact absurd less (by decide)
  unique := by
    unfold UniqueEntries Multiversion.Unique
    decide
  numbered := by
    refine ⟨fun level f mem => ?_, fun level => ?_, fun i f inI j g inJ same => ?_⟩
    · obtain ⟨-, rfl⟩ | ⟨-, rfl⟩ := mem_twoTables mem <;> decide
    · simp only [twoTables]
      split
      · exact nodup_singleton _
      split
      · exact nodup_singleton _
      · exact .nil
    · obtain ⟨rfl, rfl⟩ | ⟨rfl, rfl⟩ := mem_twoTables inI <;>
        obtain ⟨rfl, rfl⟩ | ⟨rfl, rfl⟩ := mem_twoTables inJ
      · exact ⟨rfl, rfl⟩
      · cases same
      · cases same
      · exact ⟨rfl, rfl⟩

/-- A manual compaction of the two tables, with a snapshot between their entries and
another one that has been released. -/
theorem compaction_preserves_reads_twoTables :
    ∃ c next' done, compactRange exampleOptions twoTables 1 none none = some c ∧
      doCompactionWork exampleOptions 8 c 5 = some (next', done) ∧
      ∀ s, s ∈ [5] ∨ 5 ≤ s → ∀ k,
        readEntries (twoTables.logAndApply done.installEdit).entries k s =
          readEntries twoTables.entries k s := by
  obtain ⟨c, picked⟩ := isSome_iff_exists.mp (by decide +kernel :
    (compactRange exampleOptions twoTables 1 none none).isSome = true)
  have taken : SnapshotList.Taken [5] 8 := by
    have live := ((SnapshotList.Taken.empty 3).new.advance (by decide : 3 ≤ 5)).new.advance
      (by decide : 5 ≤ 8)
    exact live.delete 0
  obtain ⟨next', done, ran, reads⟩ := compaction_preserves_reads twoTables_wellFormed
    (.manual 1 none none (by decide) picked) taken (by decide)
  exact ⟨c, next', done, picked, ran, reads⟩

/-- Where `LastSequence` is the largest sequence number and there are no snapshots, the first entry
of each user key is dropped as well, and with it all others. -/
theorem compaction_loses_reads : twoTables.WellFormed 8 ∧ ∃ c next' done,
    c.Produced exampleOptions twoTables ∧ SnapshotList.Taken [] kMaxSequenceNumber ∧
    doCompactionWork exampleOptions 8 c
      (SnapshotList.smallestSnapshot [] kMaxSequenceNumber) = some (next', done) ∧
    readEntries (twoTables.logAndApply done.installEdit).entries 0 kMaxSequenceNumber = none ∧
    readEntries twoTables.entries 0 kMaxSequenceNumber = some 70 := by
  have lost : ((compactRange exampleOptions twoTables 1 none none).bind fun c =>
      (doCompactionWork exampleOptions 8 c
        (SnapshotList.smallestSnapshot [] kMaxSequenceNumber)).map fun r =>
      readEntries (twoTables.logAndApply r.2.installEdit).entries 0 kMaxSequenceNumber) =
        some none := by
    decide +kernel
  obtain ⟨c, picked, lost⟩ := bind_eq_some_iff.mp lost
  obtain ⟨⟨next', done⟩, ran, lost⟩ := map_eq_some_iff.mp lost
  exact ⟨twoTables_wellFormed, c, next', done, .manual 1 none none (by decide) picked, .empty _, ran,
    lost, by decide +kernel⟩

end TalusDB
