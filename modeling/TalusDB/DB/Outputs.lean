import TalusDB.DB.MergedInput
import TalusDB.DB.Kept

/-! What the loop of `DoCompactionWork` writes: after each round the outputs hold
what is kept of the entries passed, in order, under new file numbers. -/
namespace TalusDB
open List Option FileMetaData
variable {K V : Type} [LinearOrder K]

/-- The bounds of the file are keys of its entries. -/
structure FileMetaData.Tight (f : FileMetaData K V) : Prop where
  first : ∃ e ∈ f.entries, e.key = f.smallest
  last : ∃ e ∈ f.entries, e.key = f.largest

variable {number fileSize : Nat} {entries : List (Entry K V)} {f : FileMetaData K V}

theorem build_spec (built : build number fileSize entries = some f) :
    f.number = number ∧ f.entries = entries ∧ (∃ e ∈ entries.head?, e.key = f.smallest) ∧
      ∃ e ∈ entries.getLast?, e.key = f.largest := by
  cases entries with
  | nil => cases built
  | cons e rest =>
    rw [build] at built
    split at built
    case isFalse => cases built
    case isTrue valid =>
      cases built
      have last : (e :: rest).getLast? = some (rest.getLastD e) := by
        rw [List.getLast?_cons, getLastD_eq_getLast?]
      exact ⟨rfl, rfl, ⟨e, rfl, rfl⟩, ⟨rest.getLastD e, last, rfl⟩⟩

theorem build_tight (built : build number fileSize entries = some f) : f.Tight := by
  obtain ⟨-, rfl, ⟨a, first, low⟩, ⟨b, last, high⟩⟩ := build_spec built
  exact ⟨⟨a, mem_of_mem_head? first, low⟩, ⟨b, mem_of_mem_getLast? last, high⟩⟩

theorem build_isSome (nonempty : entries ≠ []) (sorted : entries.Pairwise fun a b => a.key < b.key)
    (inRange : ∀ e ∈ entries, e.sequence ≤ kMaxSequenceNumber) (number fileSize : Nat) :
    ∃ f, build number fileSize entries = some f := by
  cases entries with
  | nil => exact absurd rfl nonempty
  | cons e rest =>
    rw [build, dif_pos ⟨sorted, inRange⟩]
    exact ⟨_, rfl⟩

namespace CompactionState
variable {options : Options K V} {c c' : CompactionState K V} {next next' : Nat} {e : Entry K V}

def written (c : CompactionState K V) : List (Entry K V) :=
  c.outputs.flatMap (·.entries) ++ c.builder.elim [] (·.2)

def numbers (c : CompactionState K V) : List Nat :=
  c.outputs.map (·.number) ++ c.builder.elim [] fun output => [output.1]

/-- `c'` has written these entries more than `c`, under these new numbers, and nothing
else of what matters to later rounds has changed. -/
structure Wrote (c c' : CompactionState K V) (entries : List (Entry K V)) (fresh : List Nat) :
    Prop where
  compaction : c'.compaction = c.compaction
  snapshot : c'.smallestSnapshot = c.smallestSnapshot
  input : c'.input = c.input
  current : c'.currentUserKey = c.currentUserKey
  lastSequence : c'.lastSequenceForKey = c.lastSequenceForKey
  ptrs : c'.levelPtrs = c.levelPtrs
  written : c'.written = c.written ++ entries
  numbers : c'.numbers = c.numbers ++ fresh
  tight : (∀ f ∈ c.outputs, f.Tight) → ∀ f ∈ c'.outputs, f.Tight
  begun : (∀ output ∈ c.builder, output.2 ≠ []) → ∀ output ∈ c'.builder, output.2 ≠ []

theorem Wrote.refl (c : CompactionState K V) : Wrote c c [] [] := by
  constructor <;> simp

theorem Wrote.trans {c'' : CompactionState K V} {entries entries' : List (Entry K V)}
    {fresh fresh' : List Nat} (first : Wrote c c' entries fresh)
    (second : Wrote c' c'' entries' fresh') :
    Wrote c c'' (entries ++ entries') (fresh ++ fresh') where
  compaction := second.compaction.trans first.compaction
  snapshot := second.snapshot.trans first.snapshot
  input := second.input.trans first.input
  current := second.current.trans first.current
  lastSequence := second.lastSequence.trans first.lastSequence
  ptrs := second.ptrs.trans first.ptrs
  written := by rw [second.written, first.written, append_assoc]
  numbers := by rw [second.numbers, first.numbers, append_assoc]
  tight tight := second.tight (first.tight tight)
  begun begun := second.begun (first.begun begun)

theorem finishOutputFile_wrote (finished : c.finishOutputFile options = some c') :
    Wrote c c' [] [] ∧ c'.builder = none := by
  rw [finishOutputFile] at finished
  cases output : c.builder with
  | none =>
    simp only [output] at finished
    cases finished
    exact ⟨.refl c, output⟩
  | some output' =>
    simp only [output] at finished
    obtain ⟨file, built, finished⟩ := bind_eq_some_iff.mp finished
    cases finished
    obtain ⟨number, entries, -⟩ := build_spec built
    refine ⟨⟨rfl, rfl, rfl, rfl, rfl, rfl, ?_, ?_, ?_, by simp⟩, rfl⟩
    · simp [written, output, entries]
    · simp [numbers, output, number]
    · intro old f mem
      obtain mem | mem := mem_append.mp mem
      · exact old f mem
      · rw [mem_singleton.mp mem]
        exact build_tight built

theorem shouldStopBefore_wrote (options : Options K V) (c : CompactionState K V)
    (key : InternalKey K) : Wrote c (c.shouldStopBefore options key).2 [] [] := by
  constructor <;> simp [shouldStopBefore, written, numbers]

theorem closeBefore_wrote {key : InternalKey K} (closed : c.closeBefore options key = some c') :
    Wrote c c' [] [] := by
  have moved := shouldStopBefore_wrote options c key
  rw [closeBefore] at closed
  split at closed
  · exact moved.trans (finishOutputFile_wrote closed).1
  · cases closed
    exact moved

/-- File numbers taken from the counter. -/
def Supplied (next next' : Nat) (fresh : List Nat) : Prop :=
  fresh = [] ∧ next' = next ∨ fresh = [next] ∧ next' = next + 1

theorem finishIfFull_wrote (full : c.finishIfFull options next = some (next', c')) :
    next' = next ∧ Wrote c c' [] [] := by
  rw [finishIfFull] at full
  split at full
  · obtain ⟨c'', finished, same⟩ := map_eq_some_iff.mp full
    cases same
    exact ⟨rfl, (finishOutputFile_wrote finished).1⟩
  · cases full
    exact ⟨rfl, .refl c⟩

theorem addEntry_wrote (added : c.addEntry options next e = some (next', c')) :
    ∃ fresh, Wrote c c' [e] fresh ∧ Supplied next next' fresh := by
  rw [addEntry] at added
  cases output : c.builder with
  | none =>
    simp only [output] at added
    obtain ⟨rfl, wrote⟩ := finishIfFull_wrote added
    have opened : Wrote c { c with builder := some (next, [e]) } [e] [next] := by
      constructor <;> simp [written, numbers, output]
    exact ⟨[next], opened.trans wrote, .inr ⟨rfl, rfl⟩⟩
  | some output' =>
    simp only [output] at added
    obtain ⟨rfl, wrote⟩ := finishIfFull_wrote added
    have grown : Wrote c { c with builder := some (output'.1, output'.2 ++ [e]) } [e] [] := by
      constructor <;> simp [written, numbers, output]
    exact ⟨[], grown.trans wrote, .inl ⟨rfl, rfl⟩⟩

/-- One round: the entry is passed and, unless it is dropped, written. -/
structure Round (c c' : CompactionState K V) (e : Entry K V) (drop : Bool) (fresh : List Nat) :
    Prop where
  compaction : c'.compaction = c.compaction
  snapshot : c'.smallestSnapshot = c.smallestSnapshot
  input : c.input = e :: c'.input
  current : c'.currentUserKey = some e.userKey
  lastSequence : c'.lastSequenceForKey = e.sequence
  written : c'.written = c.written ++ if drop then [] else [e]
  numbers : c'.numbers = c.numbers ++ fresh
  tight : (∀ f ∈ c.outputs, f.Tight) → ∀ f ∈ c'.outputs, f.Tight
  begun : (∀ output ∈ c.builder, output.2 ≠ []) → ∀ output ∈ c'.builder, output.2 ≠ []

theorem Wrote.dropDecision_eq {entries : List (Entry K V)} {fresh : List Nat}
    (wrote : Wrote c c' entries fresh) (e : Entry K V) :
    c'.dropDecision e = c.dropDecision e := by
  simp only [dropDecision, isBaseLevelForKey, wrote.compaction, wrote.snapshot, wrote.current,
    wrote.lastSequence, wrote.ptrs]

theorem handleEntry_spec (handled : c.handleEntry options next e = some (next', c')) :
    ∃ fresh, Supplied next next' fresh ∧
      Wrote (c.dropEntry e).2 c' (if (c.dropDecision e).1 then [] else [e]) fresh := by
  rw [handleEntry] at handled
  cases drop : (c.dropDecision e).1 with
  | true =>
    rw [if_pos (show (c.dropEntry e).1 = true from drop)] at handled
    cases handled
    exact ⟨[], .inl ⟨rfl, rfl⟩, .refl _⟩
  | false =>
    rw [if_neg (show ¬ (c.dropEntry e).1 = true by simp [dropEntry, drop])] at handled
    obtain ⟨fresh, wrote, supplied⟩ := addEntry_wrote handled
    exact ⟨fresh, supplied, wrote⟩

theorem step_round (stepped : c.step options next = some (next', c')) :
    ∃ e fresh, Round c c' e (c.dropDecision e).1 fresh ∧ Supplied next next' fresh ∧
      c'.levelPtrs = (c.dropDecision e).2 := by
  rw [step] at stepped
  cases input : c.input with
  | nil =>
    simp only [input] at stepped
    cases stepped
  | cons e rest =>
    simp only [input] at stepped
    obtain ⟨closed, isClosed, stepped⟩ := bind_eq_some_iff.mp stepped
    obtain ⟨⟨n, handled⟩, isHandled, stepped⟩ := bind_eq_some_iff.mp stepped
    cases stepped
    have first := closeBefore_wrote isClosed
    obtain ⟨fresh, supplied, second⟩ := handleEntry_spec isHandled
    rw [first.dropDecision_eq e] at second
    refine ⟨e, fresh, ?_, supplied, second.ptrs.trans (by simp [dropEntry, first.dropDecision_eq])⟩
    exact {
      compaction := second.compaction.trans first.compaction
      snapshot := second.snapshot.trans first.snapshot
      input
      current := second.current
      lastSequence := second.lastSequence
      written := by
        have same : (closed.dropEntry e).2.written = closed.written := rfl
        have both := second.written
        rw [same, first.written, append_nil] at both
        exact both
      numbers := by
        have same : (closed.dropEntry e).2.numbers = closed.numbers := rfl
        have both := second.numbers
        rw [same, first.numbers, append_nil] at both
        exact both
      tight := fun tight => second.tight (first.tight tight)
      begun := fun begun => second.begun (first.begun begun) }

theorem run_compaction {fuel : Nat} (ran : c.run options fuel next = some (next', c')) :
    c'.compaction = c.compaction := by
  induction fuel generalizing c next with
  | zero =>
    obtain ⟨done, finished, same⟩ := map_eq_some_iff.mp ran
    cases same
    exact (finishOutputFile_wrote finished).1.compaction
  | succ fuel ih =>
    obtain ⟨⟨n, d⟩, stepped, ran⟩ := bind_eq_some_iff.mp ran
    obtain ⟨e, fresh, round, -⟩ := step_round stepped
    exact (ih ran).trans round.compaction

end CompactionState

/-- No file of a level below the output level has the user key in its range. -/
def Compaction.isBase (c : Compaction K V) (k : K) : Bool :=
  c.deeperLevels.all (clearOf c.inputVersion k)

/-- What a compaction keeps of its inputs. -/
def Compaction.kept (c : Compaction K V) (smallestSnapshot : Nat) : List (Entry K V) :=
  keepFrom smallestSnapshot c.isBase none kMaxSequenceNumber (makeInput c)

namespace CompactionState
variable {options : Options K V} {c c' : CompactionState K V} {next next' : Nat} {e : Entry K V}

theorem dropDecision_spec (disjoint : c.compaction.inputVersion.LevelsDisjoint)
    (before : PtrsBefore c.compaction.inputVersion c.levelPtrs e.userKey) :
    (c.dropDecision e).1 = isDropped c.smallestSnapshot c.compaction.isBase c.currentUserKey
        c.lastSequenceForKey e ∧
      PtrsBefore c.compaction.inputVersion (c.dropDecision e).2 e.userKey := by
  have deep : ∀ level ∈ c.compaction.deeperLevels, 0 < level := by
    intro level mem
    have bounds := mem_range'_1.mp mem
    omega
  have search := isBaseLevelLoop_spec disjoint c.compaction.deeperLevels deep before
  rw [dropDecision, isDropped]
  by_cases hidden : (if c.currentUserKey = some e.userKey then c.lastSequenceForKey
      else kMaxSequenceNumber) ≤ c.smallestSnapshot
  · simp only [if_pos hidden, decide_eq_true hidden, Bool.true_or]
    exact ⟨trivial, before⟩
  · simp only [if_neg hidden, decide_eq_false hidden, Bool.false_or]
    by_cases marker : e.key.type = .deletion ∧ e.sequence ≤ c.smallestSnapshot
    · simp only [if_pos marker, decide_eq_true marker, Bool.true_and]
      exact search
    · simp only [if_neg marker, decide_eq_false marker, Bool.false_and]
      exact ⟨trivial, before⟩

/-- What is written, with what will be kept of the rest, is what the compaction
keeps. -/
structure Keeping (c : CompactionState K V) : Prop where
  ptrs : ∀ e ∈ c.input, PtrsBefore c.compaction.inputVersion c.levelPtrs e.userKey
  kept : c.written ++ keepFrom c.smallestSnapshot c.compaction.isBase c.currentUserKey
    c.lastSequenceForKey c.input = c.compaction.kept c.smallestSnapshot

theorem Keeping.start (c : Compaction K V) (smallestSnapshot : Nat) :
    Keeping (start c smallestSnapshot) where
  ptrs := by simp [CompactionState.start, PtrsBefore]
  kept := by simp [CompactionState.start, written, Compaction.kept]

theorem Keeping.step (keeping : Keeping c) (disjoint : c.compaction.inputVersion.LevelsDisjoint)
    (sorted : c.input.Pairwise fun a b => a.key < b.key)
    (stepped : c.step options next = some (next', c')) : Keeping c' := by
  obtain ⟨e, fresh, round, -, ptrs⟩ := step_round stepped
  have here := keeping.ptrs e (round.input ▸ mem_cons_self)
  obtain ⟨decision, moved⟩ := dropDecision_spec disjoint here
  constructor
  · intro x mem
    rw [round.compaction, ptrs]
    rw [round.input] at sorted
    exact moved.mono (InternalKey.userKey_mono (rel_of_pairwise_cons sorted mem).le)
  · have kept := keeping.kept
    rw [round.input, keepFrom, ← append_assoc, ← decision, ← round.written] at kept
    rw [round.compaction, round.snapshot, round.current, round.lastSequence]
    exact kept

/-- The outputs can be built: their keys increase and are in range. -/
structure Writable (c : CompactionState K V) : Prop where
  sorted : (c.written ++ c.input).Pairwise fun a b => a.key < b.key
  inRange : ∀ e ∈ c.written ++ c.input, e.sequence ≤ kMaxSequenceNumber
  begun : ∀ output ∈ c.builder, output.2 ≠ []

theorem finish_isSome (sorted : c.written.Pairwise fun a b => a.key < b.key)
    (inRange : ∀ e ∈ c.written, e.sequence ≤ kMaxSequenceNumber)
    (begun : ∀ output ∈ c.builder, output.2 ≠ []) (options : Options K V) :
    ∃ c', c.finishOutputFile options = some c' := by
  rw [finishOutputFile]
  cases output : c.builder with
  | none => exact ⟨c, rfl⟩
  | some output' =>
    have part : output'.2.Sublist c.written := by
      rw [written, output]
      exact sublist_append_right _ _
    obtain ⟨f, built⟩ := build_isSome (begun output' output) (sorted.sublist part)
      (fun e mem => inRange e (part.subset mem)) output'.1 (options.tableSize output'.2)
    simp [built]

theorem Writable.finish (writable : Writable c) (options : Options K V) :
    ∃ c', c.finishOutputFile options = some c' :=
  finish_isSome (writable.sorted.sublist (sublist_append_left _ _))
    (fun e mem => writable.inRange e (mem_append_left _ mem)) writable.begun options

theorem Wrote.writable (wrote : Wrote c c' [] []) (writable : Writable c) : Writable c' where
  sorted := by
    rw [wrote.written, wrote.input, append_nil]
    exact writable.sorted
  inRange := by
    rw [wrote.written, wrote.input, append_nil]
    exact writable.inRange
  begun := wrote.begun writable.begun

theorem Writable.close (writable : Writable c) (options : Options K V) (key : InternalKey K) :
    ∃ c', c.closeBefore options key = some c' := by
  rw [closeBefore]
  split
  · exact ((shouldStopBefore_wrote options c key).writable writable).finish options
  · exact ⟨_, rfl⟩

theorem Writable.add (sorted : (c.written ++ [e]).Pairwise fun a b => a.key < b.key)
    (inRange : ∀ x ∈ c.written ++ [e], x.sequence ≤ kMaxSequenceNumber)
    (options : Options K V) (next : Nat) : ∃ r, c.addEntry options next e = some r := by
  have full {c' : CompactionState K V} (next : Nat) (same : c'.written = c.written ++ [e])
      (begun : ∀ output ∈ c'.builder, output.2 ≠ []) :
      ∃ r, c'.finishIfFull options next = some r := by
    rw [finishIfFull]
    split
    · obtain ⟨c'', finished⟩ := finish_isSome (same ▸ sorted) (same ▸ inRange) begun options
      exact ⟨_, congrArg _ finished⟩
    · exact ⟨_, rfl⟩
  rw [addEntry]
  cases output : c.builder with
  | none => exact full _ (by simp [written, output]) (by simp)
  | some output' => exact full _ (by simp [written, output]) (by simp)

theorem Writable.step_isSome (writable : Writable c) (more : c.input ≠ []) (options : Options K V)
    (next : Nat) : ∃ next' c', c.step options next = some (next', c') := by
  cases input : c.input with
  | nil => exact absurd input more
  | cons e rest =>
    obtain ⟨closed, isClosed⟩ := writable.close options e.key
    have wrote := closeBefore_wrote isClosed
    have writable' := wrote.writable writable
    have front : (closed.written ++ [e]).Sublist (closed.written ++ closed.input) := by
      rw [wrote.input, input]
      exact (List.Sublist.refl _).append (singleton_sublist.mpr mem_cons_self)
    have handled : ∃ r, closed.handleEntry options next e = some r := by
      rw [handleEntry]
      split
      · exact ⟨_, rfl⟩
      · exact Writable.add (c := (closed.dropEntry e).2) (writable'.sorted.sublist front)
          (fun x mem => writable'.inRange x (front.subset mem)) options next
    obtain ⟨⟨next', c'⟩, isHandled⟩ := handled
    refine ⟨next', { c' with input := rest }, ?_⟩
    simp only [step, input, isClosed, isHandled, bind_eq_bind, bind_some]

variable {fresh : List Nat} {first : Nat}

theorem Round.sublist {drop : Bool} (round : Round c c' e drop fresh) :
    (c'.written ++ c'.input).Sublist (c.written ++ c.input) := by
  rw [round.written, round.input, append_assoc]
  refine (List.Sublist.refl _).append ?_
  split
  · exact sublist_cons_self e c'.input
  · exact List.Sublist.refl _

theorem Writable.step (writable : Writable c)
    (stepped : c.step options next = some (next', c')) : Writable c' := by
  obtain ⟨e, fresh, round, -, -⟩ := step_round stepped
  exact {
    sorted := writable.sorted.sublist round.sublist
    inRange := fun x mem => writable.inRange x (round.sublist.subset mem)
    begun := round.begun writable.begun }

/-- The numbers of the outputs are their own, taken while the counter moved from
`first` to `next`. -/
structure Counted (c : CompactionState K V) (first next : Nat) : Prop where
  nodup : c.numbers.Nodup
  within : ∀ n ∈ c.numbers, first ≤ n ∧ n < next

theorem Counted.mono (counted : Counted c first next) (later : next ≤ next') :
    Counted c first next' :=
  ⟨counted.nodup, fun n mem => ⟨(counted.within n mem).1, (counted.within n mem).2.trans_le later⟩⟩

theorem Supplied.le (supplied : Supplied next next' fresh) : next ≤ next' := by
  obtain ⟨-, rfl⟩ | ⟨-, rfl⟩ := supplied
  · exact le_rfl
  · exact Nat.le_succ next

theorem Counted.step (counted : Counted c first next) (ordered : first ≤ next)
    (stepped : c.step options next = some (next', c')) : Counted c' first next' ∧ next ≤ next' := by
  obtain ⟨e, fresh, round, supplied, -⟩ := step_round stepped
  have numbers := round.numbers
  refine ⟨?_, supplied.le⟩
  obtain ⟨rfl, rfl⟩ | ⟨rfl, rfl⟩ := supplied
  · rw [append_nil] at numbers
    exact ⟨numbers ▸ counted.nodup, numbers ▸ counted.within⟩
  · constructor
    · rw [numbers]
      refine nodup_append.mpr ⟨counted.nodup, nodup_singleton _, ?_⟩
      intro n mem m last
      rw [mem_singleton.mp last]
      exact (counted.within n mem).2.ne
    · rw [numbers]
      intro n mem
      obtain mem | last := mem_append.mp mem
      · exact ⟨(counted.within n mem).1, (counted.within n mem).2.trans (Nat.lt_succ_self next)⟩
      · rw [mem_singleton.mp last]
        exact ⟨ordered, Nat.lt_succ_self next⟩

theorem run_spec (fuel : Nat) (length : c.input.length = fuel) (keeping : Keeping c)
    (writable : Writable c) (counted : Counted c first next) (ordered : first ≤ next)
    (disjoint : c.compaction.inputVersion.LevelsDisjoint) (options : Options K V) :
    ∃ next' c', run options fuel next c = some (next', c') ∧ c'.compaction = c.compaction ∧
      c'.outputs.flatMap (·.entries) = c.compaction.kept c.smallestSnapshot ∧
      Counted c' first next' := by
  induction fuel generalizing c next with
  | zero =>
    obtain ⟨c', finished⟩ := writable.finish options
    obtain ⟨wrote, none⟩ := finishOutputFile_wrote finished
    have kept := keeping.kept
    rw [length_eq_zero_iff.mp length, keepFrom, append_nil] at kept
    have all := wrote.written
    rw [kept, written, none, append_nil] at all
    have same := wrote.numbers
    rw [append_nil] at same
    exact ⟨next, c', by simp [run, finished], wrote.compaction, by simpa using all,
      ⟨same ▸ counted.nodup, same ▸ counted.within⟩⟩
  | succ fuel ih =>
    obtain ⟨next', c', stepped⟩ := writable.step_isSome
      (ne_nil_of_length_eq_add_one length) options next
    obtain ⟨e, fresh, round, -, -⟩ := step_round stepped
    obtain ⟨counted', more⟩ := counted.step ordered stepped
    have sorted := writable.sorted.sublist (sublist_append_right c.written c.input)
    obtain ⟨next'', c'', ran, compaction, kept, counted''⟩ := ih
      (by simpa [round.input] using length) (keeping.step disjoint sorted stepped)
      (writable.step stepped) counted' (ordered.trans more) (round.compaction ▸ disjoint)
    rw [round.compaction, round.snapshot] at kept
    exact ⟨next'', c'', by simp [run, stepped, ran], compaction.trans round.compaction, kept,
      counted''⟩

end CompactionState
end TalusDB
