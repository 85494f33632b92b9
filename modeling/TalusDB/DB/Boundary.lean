import TalusDB.DB.Compaction
import TalusDB.DB.Overlap

/-! What `GetRange` and `AddBoundaryInputs` compute: the hull of some files, and the
files with those behind them that go on with their last user key. -/
namespace TalusDB
open List
variable {K V : Type} [LinearOrder K]

/-- The range from the smallest key of the files to their largest key. -/
structure IsRange (files : List (FileMetaData K V)) (range : InternalKey K × InternalKey K) :
    Prop where
  within : ∀ f ∈ files, range.1 ≤ f.smallest ∧ f.largest ≤ range.2
  first : ∃ f ∈ files, f.smallest = range.1
  last : ∃ f ∈ files, f.largest = range.2

variable {files : List (FileMetaData K V)} {range : InternalKey K × InternalKey K}
  {key : InternalKey K}

theorem getRange_isSome (nonempty : files ≠ []) : ∃ range, getRange files = some range := by
  cases files with
  | nil => exact absurd rfl nonempty
  | cons f rest => exact ⟨_, rfl⟩

theorem IsRange.push (spec : IsRange files range) (g : FileMetaData K V) :
    IsRange (files ++ [g]) (if g.smallest < range.1 then g.smallest else range.1,
      if range.2 < g.largest then g.largest else range.2) := by
  rw [← min_def_lt, ← max_def_lt]
  refine ⟨?_, ?_, ?_⟩
  · intro h mem
    obtain mem | mem := mem_append.mp mem
    · obtain ⟨low, high⟩ := spec.within h mem
      exact ⟨(min_le_right _ _).trans low, high.trans (le_max_left _ _)⟩
    · rw [mem_singleton.mp mem]
      exact ⟨min_le_left _ _, le_max_right _ _⟩
  · obtain ⟨h, mem, same⟩ := spec.first
    obtain least | least := min_choice g.smallest range.1
    · exact ⟨g, by simp, least.symm⟩
    · exact ⟨h, by simp [mem], same.trans least.symm⟩
  · obtain ⟨h, mem, same⟩ := spec.last
    obtain greatest | greatest := max_choice range.2 g.largest
    · exact ⟨h, by simp [mem], same.trans greatest.symm⟩
    · exact ⟨g, by simp, greatest.symm⟩

theorem getRange_spec (found : getRange files = some range) : IsRange files range := by
  cases files with
  | nil => cases found
  | cons f rest =>
    cases found
    -- the fold holds the range of the files that it has passed
    suffices grow : ∀ (rest passed : List (FileMetaData K V)) range, IsRange passed range →
        IsRange (passed ++ rest) (rest.foldl (fun range g =>
          (if g.smallest < range.1 then g.smallest else range.1,
           if range.2 < g.largest then g.largest else range.2)) range) by
      exact grow rest [f] (f.smallest, f.largest) ⟨by simp, ⟨f, by simp⟩, ⟨f, by simp⟩⟩
    intro rest
    induction rest with
    | nil =>
      intro passed range spec
      simpa using spec
    | cons g rest ih =>
      intro passed range spec
      rw [append_cons]
      exact ih (passed ++ [g]) _ (spec.push g)

def IsLargest (files : List (FileMetaData K V)) (key : InternalKey K) : Prop :=
  (∀ f ∈ files, f.largest ≤ key) ∧ ∃ f ∈ files, f.largest = key

theorem IsLargest.push (spec : IsLargest files key) (g : FileMetaData K V) :
    IsLargest (files ++ [g]) (if key < g.largest then g.largest else key) := by
  obtain ⟨bound, h, mem, same⟩ := spec
  rw [← max_def_lt]
  constructor
  · intro x mem
    obtain mem | mem := mem_append.mp mem
    · exact (bound x mem).trans (le_max_left _ _)
    · rw [mem_singleton.mp mem]
      exact le_max_right _ _
  · obtain greatest | greatest := max_choice key g.largest
    · exact ⟨h, by simp [mem], same.trans greatest.symm⟩
    · exact ⟨g, by simp, greatest.symm⟩

theorem findLargestKey_spec (found : findLargestKey files = some key) : IsLargest files key := by
  cases files with
  | nil => cases found
  | cons f rest =>
    cases found
    suffices grow : ∀ (rest passed : List (FileMetaData K V)) key, IsLargest passed key →
        IsLargest (passed ++ rest) (rest.foldl (fun largest g =>
          if largest < g.largest then g.largest else largest) key) by
      exact grow rest [f] f.largest ⟨by simp, f, by simp⟩
    intro rest
    induction rest with
    | nil =>
      intro passed key spec
      simpa using spec
    | cons g rest ih =>
      intro passed key spec
      rw [append_cons]
      exact ih (passed ++ [g]) _ (spec.push g)

/-- The file begins behind the key, with its user key. -/
def GoesOn (key : InternalKey K) (f : FileMetaData K V) : Prop :=
  key < f.smallest ∧ f.smallest.userKey = key.userKey

/-- The first of the files that go on behind the key. -/
structure IsBoundary (levelFiles : List (FileMetaData K V)) (key : InternalKey K)
    (f : FileMetaData K V) : Prop where
  mem : f ∈ levelFiles
  goesOn : GoesOn key f
  first : ∀ g ∈ levelFiles, GoesOn key g → f.smallest ≤ g.smallest

/-- The candidate after a scan of the files: their boundary file, if they have one. -/
def Candidate (files : List (FileMetaData K V)) (key : InternalKey K) :
    Option (FileMetaData K V) → Prop
  | none => ∀ g ∈ files, ¬ GoesOn key g
  | some f => IsBoundary files key f

theorem Candidate.push {found : Option (FileMetaData K V)} (spec : Candidate files key found)
    (f : FileMetaData K V) :
    Candidate (files ++ [f]) key (boundaryCandidate key found f) := by
  by_cases goes : key < f.smallest ∧ f.smallest.userKey = key.userKey
  · cases found with
    | none =>
      simp only [boundaryCandidate, if_pos goes]
      refine ⟨by simp, goes, ?_⟩
      intro g mem goesOn
      obtain mem | mem := mem_append.mp mem
      · exact absurd goesOn (spec g mem)
      · rw [mem_singleton.mp mem]
    | some g =>
      by_cases less : f.smallest < g.smallest
      · simp only [boundaryCandidate, if_pos goes, if_pos less]
        refine ⟨by simp, goes, ?_⟩
        intro h mem goesOn
        obtain mem | mem := mem_append.mp mem
        · exact less.le.trans (spec.first h mem goesOn)
        · rw [mem_singleton.mp mem]
      · simp only [boundaryCandidate, if_pos goes, if_neg less]
        refine ⟨by simp [spec.mem], spec.goesOn, ?_⟩
        intro h mem goesOn
        obtain mem | mem := mem_append.mp mem
        · exact spec.first h mem goesOn
        · rw [mem_singleton.mp mem]
          exact not_lt.mp less
  · simp only [boundaryCandidate, if_neg goes]
    cases found with
    | none =>
      intro g mem
      obtain mem | mem := mem_append.mp mem
      · exact spec g mem
      · rw [mem_singleton.mp mem]
        exact goes
    | some g =>
      refine ⟨by simp [spec.mem], spec.goesOn, ?_⟩
      intro h mem goesOn
      obtain mem | mem := mem_append.mp mem
      · exact spec.first h mem goesOn
      · rw [mem_singleton.mp mem] at goesOn
        exact absurd goesOn goes

theorem findSmallestBoundaryFile_spec (levelFiles : List (FileMetaData K V)) (key : InternalKey K) :
    Candidate levelFiles key (findSmallestBoundaryFile levelFiles key) := by
  suffices scan : ∀ (rest passed : List (FileMetaData K V)) found, Candidate passed key found →
      Candidate (passed ++ rest) key (rest.foldl (boundaryCandidate key) found) by
    exact scan levelFiles [] none fun g mem => absurd mem not_mem_nil
  intro rest
  induction rest with
  | nil =>
    intro passed found spec
    simpa using spec
  | cons f rest ih =>
    intro passed found spec
    rw [append_cons]
    exact ih (passed ++ [f]) _ (spec.push f)

section
variable {levelFiles : List (FileMetaData K V)}

variable {key : InternalKey K} {f : FileMetaData K V} {P : List (FileMetaData K V) → Prop}
  {fuel : Nat} {files : List (FileMetaData K V)}

theorem IsBoundary.lt_largest (boundary : IsBoundary levelFiles key f) : key < f.largest :=
  boundary.goesOn.1.trans_le f.ordered

theorem IsBoundary.countP_lt (boundary : IsBoundary levelFiles key f) :
    levelFiles.countP (fun g => f.largest < g.smallest) <
      levelFiles.countP (fun g => key < g.smallest) := by
  refine Search.countP_lt ?_ boundary.mem (decide_eq_true boundary.goesOn.1)
    (decide_eq_false (not_lt.mpr f.ordered))
  intro g _ later
  exact decide_eq_true (boundary.lt_largest.trans (of_decide_eq_true later))

section
variable
  (step : ∀ files key f, P files → IsLargest files key → IsBoundary levelFiles key f → P (files ++ [f]))
  (start : P files)
include step start

/-- What holds of some files, and keeps holding when the boundary file behind them is
added, holds when `AddBoundaryInputs` is done. -/
theorem addBoundaryLoop_induct (largest : IsLargest files key)
    (enough : levelFiles.countP (fun f => key < f.smallest) ≤ fuel) :
    P (addBoundaryLoop levelFiles fuel key files) ∧
      ∃ key', IsLargest (addBoundaryLoop levelFiles fuel key files) key' ∧
        ∀ g ∈ levelFiles, ¬ GoesOn key' g := by
  induction fuel generalizing key files with
  | zero =>
    refine ⟨start, key, largest, ?_⟩
    intro g mem goes
    exact countP_eq_zero.mp (Nat.le_zero.mp enough) g mem (decide_eq_true goes.1)
  | succ fuel ih =>
    have spec := findSmallestBoundaryFile_spec levelFiles key
    rw [addBoundaryLoop]
    cases found : findSmallestBoundaryFile levelFiles key with
    | none =>
      rw [found] at spec
      exact ⟨start, key, largest, spec⟩
    | some f =>
      rw [found] at spec
      have fewer := spec.countP_lt
      apply ih (step files key f start largest spec)
      · have pushed := largest.push f
        rwa [if_pos spec.lt_largest] at pushed
      · omega

theorem addBoundaryInputs_induct : P (addBoundaryInputs levelFiles files) := by
  rw [addBoundaryInputs]
  cases found : findLargestKey files with
  | none => exact start
  | some key =>
    exact (addBoundaryLoop_induct step start (findLargestKey_spec found) countP_le_length).1

end

theorem addBoundaryInputs_closed (levelFiles : List (FileMetaData K V)) (nonempty : files ≠ []) :
    ∃ key, IsLargest (addBoundaryInputs levelFiles files) key ∧
      ∀ g ∈ levelFiles, ¬ GoesOn key g := by
  rw [addBoundaryInputs]
  cases files with
  | nil => exact absurd rfl nonempty
  | cons f rest =>
    cases found : findLargestKey (f :: rest) with
    | none => cases found
    | some key =>
      exact (addBoundaryLoop_induct (P := fun _ => True) (fun _ _ _ _ _ _ => trivial) trivial
        (findLargestKey_spec found) countP_le_length).2

/-- The loop of `AddBoundaryInputs` stops, from a largest key and the files chosen so far. -/
inductive BoundaryRun (levelFiles : List (FileMetaData K V)) :
    InternalKey K → List (FileMetaData K V) → List (FileMetaData K V) → Prop
  | done {key : InternalKey K} {files : List (FileMetaData K V)}
      (none : findSmallestBoundaryFile levelFiles key = none) : BoundaryRun levelFiles key files files
  | push {key : InternalKey K} {files result : List (FileMetaData K V)} {f : FileMetaData K V}
      (found : findSmallestBoundaryFile levelFiles key = some f)
      (rest : BoundaryRun levelFiles f.largest (files ++ [f]) result) :
      BoundaryRun levelFiles key files result

theorem addBoundaryLoop_run (enough : levelFiles.countP (fun f => key < f.smallest) ≤ fuel) :
    BoundaryRun levelFiles key files (addBoundaryLoop levelFiles fuel key files) := by
  induction fuel generalizing key files with
  | zero =>
    have spec := findSmallestBoundaryFile_spec levelFiles key
    cases found : findSmallestBoundaryFile levelFiles key with
    | none => exact .done found
    | some f =>
      rw [found] at spec
      have behind := countP_eq_zero.mp (Nat.le_zero.mp enough) f spec.mem
      exact absurd (decide_eq_true spec.goesOn.1) behind
  | succ fuel ih =>
    have spec := findSmallestBoundaryFile_spec levelFiles key
    rw [addBoundaryLoop]
    cases found : findSmallestBoundaryFile levelFiles key with
    | none => exact .done found
    | some f =>
      rw [found] at spec
      have fewer := spec.countP_lt
      exact .push found (ih (by omega))

theorem BoundaryRun.added {result : List (FileMetaData K V)}
    (run : BoundaryRun levelFiles key files result) (largest : IsLargest files key) :
    ∃ added, result = files ++ added ∧ (∀ f ∈ added, f ∈ levelFiles ∧ key < f.smallest) ∧
      added.Pairwise (fun f g => f.largest < g.smallest) ∧
      ∃ last, IsLargest result last ∧ ∀ g ∈ levelFiles, ¬GoesOn last g := by
  induction run with
  | @done key files none =>
    have spec := findSmallestBoundaryFile_spec levelFiles key
    rw [none] at spec
    exact ⟨[], (append_nil files).symm, by simp, .nil, key, largest, spec⟩
  | @push key files result f found run ih =>
    have boundary := findSmallestBoundaryFile_spec levelFiles key
    rw [found] at boundary
    have pushed := largest.push f
    rw [if_pos boundary.lt_largest] at pushed
    obtain ⟨added, rfl, behind, ascending, closed⟩ := ih pushed
    refine ⟨f :: added, (append_cons files f added).symm, ?_, ?_, closed⟩
    · refine forall_mem_cons.mpr ⟨⟨boundary.mem, boundary.goesOn.1⟩, fun g mem => ?_⟩
      exact ⟨(behind g mem).1, boundary.lt_largest.trans (behind g mem).2⟩
    · exact pairwise_cons.mpr ⟨fun g mem => (behind g mem).2, ascending⟩

/-- `AddBoundaryInputs` comes to an end. It adds files that were not chosen, each once and in
increasing order, and behind the largest key of all of them no file of the level goes on with its user
key. -/
theorem addBoundaryInputs_closes (levelFiles files : List (FileMetaData K V))
    (nonempty : files ≠ []) :
    (∃ key, findLargestKey files = some key ∧
      BoundaryRun levelFiles key files (addBoundaryInputs levelFiles files)) ∧
    ∃ added, addBoundaryInputs levelFiles files = files ++ added ∧
      (∀ f ∈ added, f ∈ levelFiles ∧ f ∉ files) ∧ added.Nodup ∧
      added.Pairwise (fun f g => f.smallest < g.smallest ∧ f.largest < g.largest) ∧
      ∃ last, IsLargest (files ++ added) last ∧
        ∀ g ∈ levelFiles, ¬(last < g.smallest ∧ g.smallest.userKey = last.userKey) := by
  obtain ⟨key, found⟩ : ∃ key, findLargestKey files = some key := by
    cases files with
    | nil => exact absurd rfl nonempty
    | cons f rest => exact ⟨_, rfl⟩
  have run : BoundaryRun levelFiles key files (addBoundaryInputs levelFiles files) := by
    rw [addBoundaryInputs, found]
    exact addBoundaryLoop_run countP_le_length
  have largest := findLargestKey_spec found
  obtain ⟨added, isResult, behind, ascending, closed⟩ := run.added largest
  refine ⟨⟨key, found, run⟩, added, isResult, fun f mem => ⟨(behind f mem).1, fun chosen => ?_⟩,
    ascending.imp ?_, ascending.imp ?_, by rwa [← isResult]⟩
  · have above := (behind f mem).2.trans_le f.ordered
    exact absurd (largest.1 f chosen) (not_le.mpr above)
  · rintro f g apart rfl
    exact absurd f.ordered (not_le.mpr apart)
  · intro f g apart
    exact ⟨f.ordered.trans_lt apart, apart.trans_le g.ordered⟩

end

/-- The file behind goes on with the user key 5. -/
theorem addBoundaryInputs_closes_shared :
    ∃ added, addBoundaryInputs sharedKeyFiles (sharedKeyFiles.take 1) = sharedKeyFiles.take 1 ++ added ∧
      added.map (·.number) = [2] ∧ added.Nodup := by
  obtain ⟨-, added, isResult, -, nodup, -⟩ :=
    addBoundaryInputs_closes sharedKeyFiles (sharedKeyFiles.take 1) (by simp [sharedKeyFiles])
  refine ⟨added, isResult, ?_, nodup⟩
  have numbers := congrArg (List.map (·.number)) isResult
  rw [map_append] at numbers
  exact (List.cons.inj numbers).2.symm

end TalusDB
