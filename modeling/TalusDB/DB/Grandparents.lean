import TalusDB.DB.Outputs

/-! How far an output of a compaction reaches into the grandparents. `ShouldStopBefore` counts
the bytes of the grandparents that the keys have passed since the last cut, while the index
moves on with dropped keys as well. -/
namespace TalusDB
open List
open Option (bind_eq_some_iff map_eq_some_iff)
variable {K V : Type} [LinearOrder K]

/-- The grandparents that share internal keys with the range. -/
def meeting (grandparents : List (FileMetaData K V)) (smallest largest : InternalKey K) :
    List (FileMetaData K V) :=
  grandparents.filter fun g => smallest ≤ g.largest ∧ g.smallest ≤ largest

/-- The grandparent that holds the key or follows it. -/
def following (grandparents : List (FileMetaData K V)) (key : InternalKey K) :
    Option (FileMetaData K V) :=
  grandparents.find? (key ≤ ·.largest)

/-- The overlap is within the limit, but for the grandparent at the end. -/
def OverlapBounded (limit : Nat) (grandparents : List (FileMetaData K V))
    (smallest largest : InternalKey K) : Prop :=
  totalFileSize (meeting grandparents smallest largest) ≤
    limit + ((following grandparents largest).map (·.fileSize)).getD 0

@[simp]
theorem totalFileSize_append (files files' : List (FileMetaData K V)) :
    totalFileSize (files ++ files') = totalFileSize files + totalFileSize files' := by
  simp [totalFileSize]

theorem totalFileSize_sublist {files files' : List (FileMetaData K V)}
    (sub : files.Sublist files') : totalFileSize files ≤ totalFileSize files' :=
  (sub.map _).sum_le_sum fun _ _ => Nat.zero_le _

section
variable {grandparents : List (FileMetaData K V)}

theorem passGrandparents_eq (key : InternalKey K) (seenKey : Bool)
    (files : List (FileMetaData K V)) (index bytes : Nat) :
    passGrandparents key seenKey files index bytes =
      (index + (files.takeWhile fun g => g.largest < key).length,
        bytes + if seenKey then totalFileSize (files.takeWhile fun g => g.largest < key) else 0) := by
  induction files generalizing index bytes with
  | nil => simp [passGrandparents, totalFileSize]
  | cons g rest ih =>
    rw [passGrandparents]
    by_cases passed : g.largest < key
    · rw [if_pos passed, ih, takeWhile_cons_of_pos (by simpa using passed)]
      cases seenKey <;> simp [totalFileSize, Nat.add_assoc, Nat.add_comm 1]
    · rw [if_neg passed, takeWhile_cons_of_neg (by simpa using passed)]
      simp [totalFileSize]

/-- The index stands between the grandparents that end before the key and the others. -/
structure StandsAt (grandparents : List (FileMetaData K V)) (key : InternalKey K) (index : Nat) :
    Prop where
  before : ∀ g ∈ grandparents.take index, g.largest < key
  after : ∀ g ∈ grandparents.drop index, key ≤ g.largest

/-- The bytes of the grandparents in front of the index. -/
def bytesBefore (grandparents : List (FileMetaData K V)) (index : Nat) : Nat :=
  totalFileSize (grandparents.take index)

variable {low high : Nat} {smallest largest : InternalKey K}

theorem bytesBefore_mono (grandparents : List (FileMetaData K V)) (le : low ≤ high) :
    bytesBefore grandparents low ≤ bytesBefore grandparents high :=
  totalFileSize_sublist (take_sublist_take_left le)

theorem meeting_append (files files' : List (FileMetaData K V)) (smallest largest : InternalKey K) :
    meeting (files ++ files') smallest largest =
      meeting files smallest largest ++ meeting files' smallest largest :=
  filter_append ..

theorem meeting_take (largest : InternalKey K) (le : low ≤ high)
    (first : ∀ g ∈ grandparents.take low, g.largest < smallest) :
    totalFileSize (meeting (grandparents.take high) smallest largest) +
      bytesBefore grandparents low ≤ bytesBefore grandparents high := by
  have split : grandparents.take high =
      grandparents.take low ++ (grandparents.take high).drop low := by
    conv_lhs => rw [← take_append_drop low (grandparents.take high), take_take,
      min_eq_left le]
  have none : meeting (grandparents.take low) smallest largest = [] := by
    refine filter_eq_nil_iff.mpr fun g mem => ?_
    simp [first g mem]
  have some : totalFileSize (meeting ((grandparents.take high).drop low) smallest largest) ≤
      totalFileSize ((grandparents.take high).drop low) :=
    totalFileSize_sublist filter_sublist
  have met : meeting (grandparents.take high) smallest largest =
      meeting ((grandparents.take high).drop low) smallest largest := by
    conv_lhs => rw [split, meeting_append, none, nil_append]
  have bytes : bytesBefore grandparents high =
      bytesBefore grandparents low + totalFileSize ((grandparents.take high).drop low) := by
    rw [bytesBefore, bytesBefore, ← totalFileSize_append, ← split]
  rw [met, bytes]
  omega

theorem StandsAt.meeting_drop
    (stands : StandsAt grandparents largest high) (sorted : SortedDisjoint grandparents)
    (smallest : InternalKey K) :
    totalFileSize (meeting (grandparents.drop high) smallest largest) ≤
      ((following grandparents largest).map (·.fileSize)).getD 0 := by
  have found : following grandparents largest = (grandparents.drop high).head? := by
    rw [following]
    conv_lhs => rw [← take_append_drop high grandparents]
    rw [find?_append, find?_eq_none.mpr (by simpa using stands.before), Option.none_or]
    cases rest : grandparents.drop high with
    | nil => rfl
    | cons g tail =>
      have reaches := stands.after g (by simp [rest])
      rw [find?_cons_of_pos (by simpa using reaches), List.head?_cons]
  rw [found]
  have sorted' := sorted.sublist (drop_sublist high grandparents)
  have after := stands.after
  cases rest : grandparents.drop high with
  | nil => simp [meeting, totalFileSize]
  | cons g tail =>
    rw [rest] at sorted' after
    have none : meeting tail smallest largest = [] := by
      refine filter_eq_nil_iff.mpr fun g' mem => ?_
      have later := (after g mem_cons_self).trans_lt (rel_of_pairwise_cons sorted' mem)
      simp [later]
    have one : meeting (g :: tail) smallest largest =
        meeting [g] smallest largest ++ meeting tail smallest largest := meeting_append [g] tail _ _
    rw [one, none, append_nil]
    have le := totalFileSize_sublist (filter_sublist (l := [g])
      (p := fun g => decide (smallest ≤ g.largest ∧ g.smallest ≤ largest)))
    simpa [totalFileSize, meeting] using le

theorem StandsAt.overlapBounded {limit : Nat}
    (stands : StandsAt grandparents largest high) (sorted : SortedDisjoint grandparents)
    (le : low ≤ high) (first : ∀ g ∈ grandparents.take low, g.largest < smallest)
    (within : bytesBefore grandparents high ≤ bytesBefore grandparents low + limit) :
    OverlapBounded limit grandparents smallest largest := by
  have front := meeting_take largest le first
  have back := stands.meeting_drop sorted smallest
  rw [OverlapBounded]
  conv_lhs => rw [← take_append_drop high grandparents, meeting_append, totalFileSize_append]
  omega

theorem passGrandparents_spec (sorted : SortedDisjoint grandparents) {key : InternalKey K}
    {index : Nat} (before : ∀ g ∈ grandparents.take index, g.largest < key) (seenKey : Bool)
    (bytes : Nat) : ∃ index' bytes', index ≤ index' ∧ StandsAt grandparents key index' ∧
      passGrandparents key seenKey (grandparents.drop index) index bytes = (index', bytes') ∧
      (seenKey = true →
        bytes' + bytesBefore grandparents index = bytes + bytesBefore grandparents index') := by
  refine ⟨index + ((grandparents.drop index).takeWhile fun g => g.largest < key).length, _,
    Nat.le_add_right _ _, ⟨?_, ?_⟩, passGrandparents_eq .., fun seen => ?_⟩
  · intro g mem
    rw [Search.take_add_takeWhile] at mem
    obtain mem | mem := mem_append.mp mem
    · exact before g mem
    · simpa using mem_takeWhile_imp mem
  · intro g mem
    rw [Search.drop_add_takeWhile] at mem
    have order := sorted.sublist ((dropWhile_sublist fun g => decide (g.largest < key)).trans
      (drop_sublist index grandparents))
    cases rest : (grandparents.drop index).dropWhile fun g => g.largest < key with
    | nil => simp [rest] at mem
    | cons d tail =>
      have stops := head_dropWhile_not (fun g => decide (g.largest < key))
        (l := grandparents.drop index) (by simp [rest])
      have reaches : key ≤ d.largest := by simpa [rest] using stops
      rw [rest] at mem order
      obtain rfl | mem := mem_cons.mp mem
      · exact reaches
      · exact reaches.trans ((rel_of_pairwise_cons order mem).le.trans g.ordered)
  · rw [bytesBefore, bytesBefore, Search.take_add_takeWhile, totalFileSize_append, if_pos seen]
    omega

end

namespace CompactionState
variable {options : Options K V} {c c' : CompactionState K V} {next next' : Nat} {e : Entry K V}

/-- The open output began at the index `low`, got its last key at `high`, and the bytes count
what was passed since it began. -/
structure Spans (grandparents : List (FileMetaData K V)) (index bytes : Nat)
    (entries : List (Entry K V)) (low high : Nat) : Prop where
  first : ∃ e ∈ entries.head?, ∀ g ∈ grandparents.take low, g.largest < e.key
  last : ∃ e ∈ entries.getLast?, StandsAt grandparents e.key high
  lowHigh : low ≤ high
  highIndex : high ≤ index
  bytes : bytesBefore grandparents index ≤ bytesBefore grandparents low + bytes

structure Tracked (options : Options K V) (c : CompactionState K V) : Prop where
  sorted : SortedDisjoint c.compaction.grandparents
  passed : ∀ g ∈ c.compaction.grandparents.take c.grandparentIndex,
    ∀ e ∈ c.input, g.largest < e.key
  bytes : c.overlappedBytes ≤ maxGrandParentOverlapBytes options
  building : ∀ output ∈ c.builder, c.seenKey = true ∧ ∃ low high,
    Spans c.compaction.grandparents c.grandparentIndex c.overlappedBytes output.2 low high
  outputs : ∀ f ∈ c.outputs, OverlapBounded (maxGrandParentOverlapBytes options)
    c.compaction.grandparents f.smallest f.largest

theorem Tracked.built (tracked : Tracked options c) {number fileSize : Nat}
    {entries : List (Entry K V)} (isOpen : c.builder = some (number, entries))
    {f : FileMetaData K V} (built : FileMetaData.build number fileSize entries = some f) :
    OverlapBounded (maxGrandParentOverlapBytes options) c.compaction.grandparents f.smallest
      f.largest := by
  obtain ⟨-, low, high, spans⟩ := tracked.building _ isOpen
  obtain ⟨a, isFirst, before⟩ := spans.first
  obtain ⟨b, isLast, stands⟩ := spans.last
  obtain ⟨-, -, ⟨a', isFirst', smallest⟩, ⟨b', isLast', largest⟩⟩ := build_spec built
  cases isFirst.symm.trans isFirst'
  cases isLast.symm.trans isLast'
  rw [← smallest, ← largest]
  refine stands.overlapBounded tracked.sorted spans.lowHigh before ?_
  have upTo := bytesBefore_mono c.compaction.grandparents spans.highIndex
  have counted := spans.bytes
  have bound := tracked.bytes
  omega

theorem Tracked.finish (tracked : Tracked options c) {bytes index : Nat}
    (passed : ∀ g ∈ c.compaction.grandparents.take index, ∀ e ∈ c.input, g.largest < e.key)
    (bound : bytes ≤ maxGrandParentOverlapBytes options) (seenKey : Bool)
    (finished : { c with grandparentIndex := index, seenKey, overlappedBytes := bytes
      }.finishOutputFile options = some c') :
    Tracked options c' ∧ c'.builder = none ∧ c'.grandparentIndex = index ∧ c'.input = c.input ∧
      c'.compaction = c.compaction ∧ c'.seenKey = seenKey := by
  rw [finishOutputFile] at finished
  cases output : c.builder with
  | none =>
    simp only [output] at finished
    cases finished
    exact ⟨⟨tracked.sorted, passed, bound, by simp, tracked.outputs⟩, rfl, rfl, rfl, rfl, rfl⟩
  | some output' =>
    obtain ⟨number, entries⟩ := output'
    simp only [output] at finished
    obtain ⟨file, built, finished⟩ := bind_eq_some_iff.mp finished
    cases finished
    refine ⟨⟨tracked.sorted, passed, bound, by simp, fun f mem => ?_⟩, rfl, rfl, rfl, rfl, rfl⟩
    obtain mem | mem := mem_append.mp mem
    · exact tracked.outputs f mem
    · rw [mem_singleton.mp mem]
      exact tracked.built output built

/-- What holds between `ShouldStopBefore` and the end of the round. -/
structure AtKey (options : Options K V) (c c' : CompactionState K V) (key : InternalKey K) :
    Prop where
  tracked : Tracked options c'
  input : c'.input = c.input
  compaction : c'.compaction = c.compaction
  seen : c'.seenKey = true
  stands : StandsAt c.compaction.grandparents key c'.grandparentIndex

theorem Tracked.close (tracked : Tracked options c) {rest : List (Entry K V)}
    (input : c.input = e :: rest) (sorted : c.input.Pairwise fun a b => a.key ≤ b.key)
    (closed : c.closeBefore options e.key = some c') : AtKey options c c' e.key := by
  have before : ∀ g ∈ c.compaction.grandparents.take c.grandparentIndex, g.largest < e.key :=
    fun g mem => tracked.passed g mem e (by simp [input])
  obtain ⟨index, bytes, le, stands, isPassed, counted⟩ :=
    passGrandparents_spec tracked.sorted before c.seenKey c.overlappedBytes
  have passed : ∀ g ∈ c.compaction.grandparents.take index, ∀ x ∈ c.input, g.largest < x.key := by
    intro g mem x inInput
    rw [input] at inInput sorted
    obtain rfl | later := mem_cons.mp inInput
    · exact stands.before g mem
    · exact (stands.before g mem).trans_le (rel_of_pairwise_cons sorted later)
  by_cases stop : maxGrandParentOverlapBytes options < bytes
  · simp only [closeBefore, shouldStopBefore, isPassed, stop, decide_true, if_true] at closed
    obtain ⟨tracked', -, isIndex, isInput, isCompaction, seen⟩ :=
      tracked.finish passed (Nat.zero_le _) true closed
    exact ⟨tracked', isInput, isCompaction, seen, isIndex ▸ stands⟩
  · simp only [closeBefore, shouldStopBefore, isPassed, stop, decide_false, Bool.false_eq_true,
      if_false] at closed
    cases closed
    refine ⟨⟨tracked.sorted, passed, not_lt.mp stop, fun output isOpen => ⟨rfl, ?_⟩,
      tracked.outputs⟩, rfl, rfl, rfl, stands⟩
    obtain ⟨seen, low, high, spans⟩ := tracked.building output isOpen
    refine ⟨low, high, spans.first, spans.last, spans.lowHigh, spans.highIndex.trans le, ?_⟩
    have old := spans.bytes
    have new := counted seen
    show bytesBefore c.compaction.grandparents index ≤
      bytesBefore c.compaction.grandparents low + bytes
    omega

theorem AtKey.add {c₀ : CompactionState K V} (at' : AtKey options c₀ c e.key)
    (added : c.addEntry options next e = some (next', c')) :
    Tracked options c' ∧ c'.input = c.input := by
  obtain ⟨tracked, -, same, seen, stands⟩ := at'
  rw [← same] at stands
  have finishFull {d : CompactionState K V} {n : Nat} (tracked : Tracked options d)
      (full : d.finishIfFull options n = some (next', c')) :
      Tracked options c' ∧ c'.input = d.input := by
    rw [finishIfFull] at full
    split at full
    · obtain ⟨d', finished, same⟩ := map_eq_some_iff.mp full
      cases same
      obtain ⟨tracked', -, -, isInput, -⟩ :=
        tracked.finish tracked.passed tracked.bytes d.seenKey finished
      exact ⟨tracked', isInput⟩
    · cases full
      exact ⟨tracked, rfl⟩
  rw [addEntry] at added
  cases output : c.builder with
  | none =>
    simp only [output] at added
    have opened : Tracked options { c with builder := some (next, [e]) } := by
      refine { tracked with building := fun output isOpen => ⟨seen, ?_⟩ }
      cases isOpen
      exact ⟨c.grandparentIndex, c.grandparentIndex, ⟨e, rfl, stands.before⟩, ⟨e, rfl, stands⟩,
        le_rfl, le_rfl, Nat.le_add_right _ _⟩
    have finished := finishFull opened added
    exact finished
  | some output' =>
    obtain ⟨number, entries⟩ := output'
    simp only [output] at added
    obtain ⟨-, low, high, spans⟩ := tracked.building _ output
    have grown : Tracked options { c with builder := some (number, entries ++ [e]) } := by
      refine { tracked with building := fun output isOpen => ⟨seen, ?_⟩ }
      cases isOpen
      obtain ⟨a, isFirst, before⟩ := spans.first
      refine ⟨low, c.grandparentIndex, ⟨a, ?_, before⟩, ⟨e, by simp, stands⟩,
        spans.lowHigh.trans spans.highIndex, le_rfl, spans.bytes⟩
      rw [List.head?_append, isFirst]
      rfl
    have finished := finishFull grown added
    exact finished

theorem Tracked.step (tracked : Tracked options c)
    (sorted : c.input.Pairwise fun a b => a.key ≤ b.key)
    (stepped : c.step options next = some (next', c')) : Tracked options c' := by
  rw [CompactionState.step] at stepped
  cases input : c.input with
  | nil =>
    simp only [input] at stepped
    cases stepped
  | cons e rest =>
    simp only [input] at stepped
    obtain ⟨closed, isClosed, stepped⟩ := bind_eq_some_iff.mp stepped
    obtain ⟨⟨n, handled⟩, isHandled, stepped⟩ := bind_eq_some_iff.mp stepped
    cases stepped
    have atKey := tracked.close input sorted isClosed
    have handles : Tracked options handled ∧ handled.input = closed.input := by
      rw [handleEntry] at isHandled
      have atKey' : AtKey options c (closed.dropEntry e).2 e.key :=
        { atKey with tracked := { atKey.tracked with } }
      split at isHandled
      · cases isHandled
        exact ⟨atKey'.tracked, rfl⟩
      · exact atKey'.add isHandled
    obtain ⟨tracked', isInput⟩ := handles
    refine { tracked' with passed := fun g mem x later => ?_ }
    refine tracked'.passed g mem x ?_
    rw [isInput, atKey.input, input]
    exact mem_cons_of_mem e later

theorem Tracked.run {fuel : Nat} (tracked : Tracked options c)
    (sorted : c.input.Pairwise fun a b => a.key ≤ b.key)
    (ran : c.run options fuel next = some (next', c')) :
    Tracked options c' := by
  induction fuel generalizing c next with
  | zero =>
    obtain ⟨done, finished, same⟩ := map_eq_some_iff.mp ran
    cases same
    exact (tracked.finish tracked.passed tracked.bytes c.seenKey finished).1
  | succ fuel ih =>
    obtain ⟨⟨n, d⟩, stepped, ran⟩ := bind_eq_some_iff.mp ran
    have tracked' := tracked.step sorted stepped
    obtain ⟨e, fresh, round, -⟩ := step_round stepped
    rw [round.input] at sorted
    exact ih tracked' (pairwise_cons.mp sorted).2 ran

theorem run_written {fuel : Nat} (tight : ∀ f ∈ c.outputs, f.Tight)
    (ran : c.run options fuel next = some (next', c')) :
    (∀ f ∈ c'.outputs, f.Tight) ∧ ∀ e ∈ c'.written, e ∈ c.written ∨ e ∈ c.input := by
  induction fuel generalizing c next with
  | zero =>
    obtain ⟨done, finished, same⟩ := map_eq_some_iff.mp ran
    cases same
    obtain ⟨wrote, -⟩ := finishOutputFile_wrote finished
    refine ⟨wrote.tight tight, fun e mem => .inl ?_⟩
    rwa [wrote.written, append_nil] at mem
  | succ fuel ih =>
    obtain ⟨⟨n, d⟩, stepped, ran⟩ := bind_eq_some_iff.mp ran
    obtain ⟨x, fresh, round, -⟩ := step_round stepped
    obtain ⟨tight', written⟩ := ih (round.tight tight) ran
    refine ⟨tight', fun e mem => ?_⟩
    rw [round.input]
    obtain old | later := written e mem
    · rw [round.written, mem_append] at old
      obtain old | new := old
      · exact .inl old
      · split at new
        · cases new
        · exact .inr (mem_cons.mpr (.inl (mem_singleton.mp new)))
    · exact .inr (mem_cons_of_mem x later)

end CompactionState

variable {options : Options K V} {v : Version K V} {c : Compaction K V}

theorem setupOtherInputs_grandparents {level : Nat} {files : List (FileMetaData K V)}
    (setup : setupOtherInputs options v level files = some c) :
    ∃ all, IsRange c.allInputs all ∧ c.grandparents = (v.files (c.level + 2)).filter
      (overlaps (some all.1.userKey, some all.2.userKey)) := by
  rw [setupOtherInputs] at setup
  obtain ⟨range, -, setup⟩ := bind_eq_some_iff.mp setup
  obtain ⟨all, -, setup⟩ := bind_eq_some_iff.mp setup
  obtain ⟨range', -, setup⟩ := bind_eq_some_iff.mp setup
  obtain ⟨all', found, setup⟩ := bind_eq_some_iff.mp setup
  cases setup
  refine ⟨all', getRange_spec found, ?_⟩
  show (if level + 2 < kNumLevels then _ else []) = (v.files (level + 2)).filter _
  split
  · exact getOverlappingInputs_sorted v (by omega) _ _
  case isFalse deep => rw [v.shallow _ (not_lt.mp deep), filter_nil]

theorem Compaction.Produced.grandparents (produced : c.Produced options v) :
    ∃ all, IsRange c.allInputs all ∧ c.grandparents = (v.files (c.level + 2)).filter
      (overlaps (some all.1.userKey, some all.2.userKey)) := by
  cases produced with
  | automatic compactPointer fileToCompact wanted picked =>
    obtain ⟨level, file, -, -, setup⟩ := pickCompaction_start wanted picked
    exact setupOtherInputs_grandparents setup
  | manual level begin finish bound picked =>
    rw [compactRange] at picked
    split at picked
    · cases picked
    · exact setupOtherInputs_grandparents picked

/-- Files that reach beyond the inputs cannot meet an output, so its overlap with the level is
that with the grandparents. -/
theorem Compaction.Produced.meeting_level (produced : c.Produced options v)
    {smallest largest : InternalKey K}
    (low : ∃ g ∈ c.allInputs, g.smallest ≤ smallest)
    (high : ∃ g ∈ c.allInputs, largest ≤ g.largest) :
    meeting (v.files (c.level + 2)) smallest largest = meeting c.grandparents smallest largest := by
  obtain ⟨all, isRange, same⟩ := produced.grandparents
  obtain ⟨g, inG, low⟩ := low
  obtain ⟨h, inH, high⟩ := high
  have from' : all.1 ≤ smallest := (isRange.within g inG).1.trans low
  have upTo : largest ≤ all.2 := high.trans (isRange.within h inH).2
  rw [same, meeting, meeting, filter_filter]
  refine (filter_congr fun x _ => ?_).symm
  refine (Bool.and_eq_left_iff_imp).mpr fun meets => ?_
  rw [decide_eq_true_eq] at meets
  exact overlaps_some.mpr ⟨InternalKey.userKey_mono (from'.trans meets.1),
    InternalKey.userKey_mono (meets.2.trans upTo)⟩

/-- Whatever is dropped and wherever outputs are cut for their size, the files two levels down
that an output meets have at most `MaxGrandParentOverlapBytes`, but for the one that holds the
output's largest key or follows it. -/
theorem outputs_overlapBounded (options : Options K V) (c : Compaction K V)
    (sorted : SortedDisjoint c.grandparents) (smallestSnapshot : Nat) (input : List (Entry K V))
    (ordered : input.Pairwise fun a b => a.key ≤ b.key) (fuel next : Nat) {next' : Nat}
    {done : CompactionState K V}
    (ran : { CompactionState.start c smallestSnapshot with input }.run options fuel next =
      some (next', done)) :
    ∀ f ∈ done.outputs,
      OverlapBounded (maxGrandParentOverlapBytes options) c.grandparents f.smallest f.largest ∧
      ∀ v, c.Produced options v → input = makeInput c →
        meeting (v.files (c.level + 2)) f.smallest f.largest =
          meeting c.grandparents f.smallest f.largest := by
  have start : CompactionState.Tracked options
      { CompactionState.start c smallestSnapshot with input } := by
    refine ⟨sorted, ?_, Nat.zero_le _, ?_, ?_⟩ <;> simp [CompactionState.start]
  have tracked := start.run ordered ran
  have isCompaction : done.compaction = c := CompactionState.run_compaction ran
  obtain ⟨tight, written⟩ := CompactionState.run_written (by simp [CompactionState.start]) ran
  intro f mem
  have bounded := tracked.outputs f mem
  rw [isCompaction] at bounded
  refine ⟨bounded, fun v produced isInput => ?_⟩
  have source {e : Entry K V} (inside : e ∈ f.entries) : ∃ g ∈ c.allInputs, e ∈ g.entries := by
    have inWritten : e ∈ done.written :=
      mem_append_left _ (mem_flatMap.mpr ⟨f, mem, inside⟩)
    obtain nothing | fromInput := written e inWritten
    · simp [CompactionState.written, CompactionState.start] at nothing
    · exact mem_makeInput.mp (isInput ▸ fromInput)
  obtain ⟨a, inside, isFirst⟩ := (tight f mem).first
  obtain ⟨b, inside', isLast⟩ := (tight f mem).last
  obtain ⟨g, inG, inside⟩ := source inside
  obtain ⟨h, inH, inside'⟩ := source inside'
  exact produced.meeting_level ⟨g, inG, isFirst ▸ (g.bounded a inside).1⟩
    ⟨h, inH, isLast ▸ (h.bounded b inside').2⟩

/-- Two grandparents of 10 bytes, with a limit of 10: the third key is the first behind both. -/
theorem outputs_overlapBounded_shared :
    let options : Options Nat Nat := ⟨1, fun _ => 0, fun entries => entries.length⟩
    let c : Compaction Nat Nat := { sharedKeyBelow with grandparents := sharedKeyFiles }
    let input : List (Entry Nat Nat) :=
      [⟨⟨0, 5, .value⟩, 1⟩, ⟨⟨6, 4, .value⟩, 2⟩, ⟨⟨9, 3, .value⟩, 3⟩]
    ∃ next' done, { CompactionState.start c 9 with input }.run options 3 8 = some (next', done) ∧
      done.outputs.length = 2 ∧
      ∀ f ∈ done.outputs, OverlapBounded 10 sharedKeyFiles f.smallest f.largest := by
  intro options c input
  have cut : (CompactionState.run options 3 8 { CompactionState.start c 9 with input }).any
      (fun done => done.2.outputs.length == 2) = true := by
    decide +kernel
  obtain ⟨⟨next', done⟩, ran, two⟩ := (Option.any_eq_true _ _).mp cut
  refine ⟨next', done, ran, beq_iff_eq.mp two, fun f mem => ?_⟩
  exact (outputs_overlapBounded options c sharedKeyFiles_sorted 9 input (by decide) 3 8 ran f mem).1

end TalusDB
