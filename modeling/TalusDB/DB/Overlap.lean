import TalusDB.DB.Version
import TalusDB.Lib.Intervals

/-! What the searches in a level find: the file that `FindFile` stops at, the files
that `GetOverlappingInputs` collects, and the level a memtable is flushed to. -/
namespace TalusDB
open List InternalKey Version
open Option (any_some)
variable {K V : Type} [LinearOrder K]

/-- Sorted files without overlap, in internal key order. -/
def SortedDisjoint (files : List (FileMetaData K V)) : Prop :=
  files.Pairwise fun f g => f.largest < g.smallest

def Version.LevelsDisjoint (v : Version K V) : Prop :=
  ∀ level, 0 < level → SortedDisjoint (v.files level)

namespace FileMetaData

/-- The file's user keys reach into the range. -/
def Meets (f : FileMetaData K V) (a b : K) : Prop :=
  a ≤ f.largest.userKey ∧ f.smallest.userKey ≤ b

theorem user_ordered (f : FileMetaData K V) : f.smallest.userKey ≤ f.largest.userKey :=
  userKey_mono f.ordered

theorem meets_entry {f : FileMetaData K V} {e : Entry K V} (mem : e ∈ f.entries) :
    f.Meets e.userKey e.userKey :=
  ⟨userKey_mono (f.bounded e mem).2, userKey_mono (f.bounded e mem).1⟩

end FileMetaData

namespace SortedDisjoint
variable {files : List (FileMetaData K V)}

variable {f : FileMetaData K V} {key : InternalKey K}

variable (sorted : SortedDisjoint files)
include sorted

theorem separated {g : FileMetaData K V} (left : f ∈ files)
    (right : g ∈ files) : f = g ∨ f.largest < g.smallest ∨ g.largest < f.smallest := by
  obtain ⟨i, hi, rfl⟩ := getElem_of_mem left
  obtain ⟨j, hj, rfl⟩ := getElem_of_mem right
  have ordered := pairwise_iff_getElem.mp sorted
  obtain less | rfl | more := Nat.lt_trichotomy i j
  · exact .inr (.inl (ordered i j hi hj less))
  · exact .inl rfl
  · exact .inr (.inr (ordered j i hj hi more))

theorem sublist {files' : List (FileMetaData K V)}
    (sub : files'.Sublist files) : SortedDisjoint files' :=
  List.Pairwise.sublist sub sorted

theorem findFile_cuts (key : InternalKey K) :
    Search.Cuts (fun i => files[i]?.any (·.largest < key)) files.length (findFile files key) := by
  refine Search.bisect_cuts ?_ (Nat.le_add_left _ _) (Nat.zero_le _) le_rfl
    (fun i less => absurd less (Nat.not_lt_zero i)) (fun i above less => absurd above (by omega))
  intro i j le bound below
  have least : i < files.length := by omega
  rw [getElem?_eq_getElem bound, any_some, decide_eq_true_eq] at below
  rw [getElem?_eq_getElem least, any_some, decide_eq_true_eq]
  obtain less | rfl := Nat.lt_or_eq_of_le le
  · have before := pairwise_iff_getElem.mp sorted i j least bound less
    exact before.trans_le ((FileMetaData.ordered _).trans below.le)
  · exact below

theorem findFile_before (mem : f ∈ files.take (findFile files key)) : f.largest < key := by
  obtain ⟨i, bound, rfl⟩ := getElem_of_mem mem
  rw [length_take] at bound
  have below := (sorted.findFile_cuts key).before i (by omega)
  rw [getElem?_eq_getElem (by omega), any_some, decide_eq_true_eq] at below
  rw [getElem_take]
  exact below

theorem findFile_after (mem : f ∈ files.drop (findFile files key)) : key ≤ f.largest := by
  obtain ⟨i, bound, rfl⟩ := getElem_of_mem mem
  rw [length_drop] at bound
  have above := (sorted.findFile_cuts key).after (findFile files key + i) (by omega) (by omega)
  rw [getElem?_eq_getElem (by omega), any_some, decide_eq_false_iff_not] at above
  rw [getElem_drop]
  exact not_lt.mp above

end SortedDisjoint

variable {a : K} {f : FileMetaData K V}

theorem lookup_le_largest :
    InternalKey.lookup a kMaxSequenceNumber ≤ f.largest ↔ a ≤ f.largest.userKey := by
  rw [lookup_le_iff, and_iff_left f.inRange.1, ← le_iff_lt_or_eq]

/-- The test of `GetOverlappingInputs`. -/
def overlaps (range : Option K × Option K) (f : FileMetaData K V) : Bool :=
  !(afterFile range.1 f || beforeFile range.2 f)

theorem overlaps_iff {range : Option K × Option K} : overlaps range f = true ↔
      (∀ a ∈ range.1, a ≤ f.largest.userKey) ∧ ∀ b ∈ range.2, f.smallest.userKey ≤ b := by
  obtain ⟨a, b⟩ := range
  cases a <;> cases b <;> simp [overlaps, afterFile, beforeFile]

theorem overlaps_some {b : K} : overlaps (some a, some b) f = true ↔ f.Meets a b := by
  simp [overlaps, afterFile, beforeFile, FileMetaData.Meets]

/-- Where the comparison of the fast path is made: the files in front of it end before the
range. -/
def firstCandidate (files : List (FileMetaData K V)) (smallestUserKey : Option K) : Nat :=
  match smallestUserKey with
  | none => 0
  | some user => findFile files (InternalKey.lookup user kMaxSequenceNumber)

namespace SortedDisjoint
variable {files : List (FileMetaData K V)}

variable {a : Option K} {f : FileMetaData K V}

theorem firstCandidate_before (sorted : SortedDisjoint files)
    (mem : f ∈ files.take (firstCandidate files a)) :
    afterFile a f = true := by
  cases a with
  | none => simp [firstCandidate] at mem
  | some user =>
    have before := sorted.findFile_before mem
    rw [← not_le, lookup_le_largest, not_le] at before
    simpa [afterFile] using before

theorem firstCandidate_after (sorted : SortedDisjoint files)
    (mem : f ∈ files.drop (firstCandidate files a)) :
    afterFile a f = false := by
  cases a with
  | none => rfl
  | some user =>
    have reaches := lookup_le_largest.mp (sorted.findFile_after mem)
    simpa [afterFile] using reaches

end SortedDisjoint

theorem beforeFile_mono {f g : FileMetaData K V} (le : f.smallest ≤ g.smallest) {b : Option K}
    (before : beforeFile b f = true) : beforeFile b g = true := by
  obtain ⟨user, isBound, less⟩ := (Option.any_eq_true _ _).mp before
  have less' := (of_decide_eq_true less).trans_le (userKey_mono le)
  exact (Option.any_eq_true _ _).mpr ⟨user, isBound, decide_eq_true less'⟩

variable {files : List (FileMetaData K V)} {level : Nat}

/-- The search by internal key and one comparison find what the scan of all files finds. -/
theorem someFileOverlapsRange_sorted (sorted : SortedDisjoint files) (a b : Option K) :
    someFileOverlapsRange true files a b = files.any (overlaps (a, b)) := by
  have passed : (files.take (firstCandidate files a)).any (overlaps (a, b)) = false := by
    rw [any_eq_false]
    intro f mem
    simp [overlaps, sorted.firstCandidate_before mem]
  have fast : someFileOverlapsRange true files a b =
      ((files.drop (firstCandidate files a)).head?.any fun f => !beforeFile b f) := by
    rw [List.head?_drop]
    cases a <;> simp only [someFileOverlapsRange, if_true, firstCandidate] <;> split <;> simp_all
  have scan : files.any (overlaps (a, b)) =
      (files.drop (firstCandidate files a)).any (overlaps (a, b)) := by
    conv_lhs => rw [← take_append_drop (firstCandidate files a) files]
    rw [any_append, passed, Bool.false_or]
  rw [fast, scan]
  cases rest : files.drop (firstCandidate files a) with
  | nil => rfl
  | cons f tail =>
    have order := sorted.sublist (drop_sublist (firstCandidate files a) files)
    rw [rest] at order
    have reaches : afterFile a f = false := sorted.firstCandidate_after (by simp [rest])
    have hit : overlaps (a, b) f = !beforeFile b f := by simp [overlaps, reaches]
    rw [List.head?_cons, any_some, any_cons, hit]
    cases before : beforeFile b f with
    | false => rfl
    | true =>
      -- the files behind begin even later
      have none : tail.any (overlaps (a, b)) = false := by
        rw [any_eq_false]
        intro g mem
        have later := f.ordered.trans (rel_of_pairwise_cons order mem).le
        simp [overlaps, beforeFile_mono later before]
      rw [none]
      rfl

/-- Both ways of `SomeFileOverlapsRange` agree on a level of disjoint files. -/
theorem someFileOverlapsRange_fast (files : List (FileMetaData K V))
    (sorted : SortedDisjoint files) (smallestUserKey largestUserKey : Option K) :
    someFileOverlapsRange true files smallestUserKey largestUserKey =
      someFileOverlapsRange false files smallestUserKey largestUserKey :=
  someFileOverlapsRange_sorted sorted smallestUserKey largestUserKey

/-- Two files of a level that share the user key 5. -/
def sharedKeyFiles : List (FileMetaData Nat Nat) :=
  [{ number := 1, fileSize := 10, smallest := ⟨1, 9, .value⟩, largest := ⟨5, 7, .value⟩
     entries := [], ordered := by decide, sorted := .nil, bounded := nofun
     inRange := ⟨by decide, nofun⟩ },
   { number := 2, fileSize := 10, smallest := ⟨5, 3, .value⟩, largest := ⟨8, 4, .value⟩
     entries := [], ordered := by decide, sorted := .nil, bounded := nofun
     inRange := ⟨by decide, nofun⟩ }]

theorem sharedKeyFiles_sorted : SortedDisjoint sharedKeyFiles := by
  rw [SortedDisjoint, sharedKeyFiles, pairwise_pair]
  decide

theorem someFileOverlapsRange_fast_shared :
    someFileOverlapsRange true sharedKeyFiles (some 5) (some 5) =
      someFileOverlapsRange false sharedKeyFiles (some 5) (some 5) :=
  someFileOverlapsRange_fast sharedKeyFiles sharedKeyFiles_sorted (some 5) (some 5)

theorem someFileOverlapsRange_iff {disjoint : Bool}
    (sorted : disjoint = true → SortedDisjoint files) (a b : K) :
    someFileOverlapsRange disjoint files (some a) (some b) = true ↔ ∃ f ∈ files, f.Meets a b := by
  have scanned : someFileOverlapsRange disjoint files (some a) (some b) =
      files.any (overlaps (some a, some b)) := by
    cases disjoint with
    | false => rfl
    | true => exact someFileOverlapsRange_sorted (sorted rfl) _ _
  simp [scanned, any_eq_true, overlaps_some]

theorem Version.LevelsDisjoint.overlapInLevel_iff {v : Version K V} (disjoint : v.LevelsDisjoint)
    (level : Nat) (a b : K) :
    v.overlapInLevel level (some a) (some b) = true ↔ ∃ f ∈ v.files level, f.Meets a b :=
  someFileOverlapsRange_iff (fun deep => disjoint level (of_decide_eq_true deep)) a b

/-- No part of the file sticks out of the range. -/
def Inside (range : Option K × Option K) (f : FileMetaData K V) : Prop :=
  (∀ a ∈ range.1, a ≤ f.smallest.userKey) ∧ ∀ b ∈ range.2, f.largest.userKey ≤ b

/-- One widening of the range, to a bound of an overlapping file. -/
inductive Widens (files : List (FileMetaData K V)) :
    Option K × Option K → Option K × Option K → Prop where
  | left {a b f} : f ∈ files → overlaps (some a, b) f = true → f.smallest.userKey < a →
      Widens files (some a, b) (some f.smallest.userKey, b)
  | right {a b f} : f ∈ files → overlaps (a, some b) f = true → b < f.largest.userKey →
      Widens files (a, some b) (a, some f.largest.userKey)

theorem scanInputs_sorted (deep : 0 < level) (a b : Option K)
    (files inputs : List (FileMetaData K V)) :
    scanInputs level a b files inputs = .done (inputs ++ files.filter (overlaps (a, b))) := by
  induction files generalizing inputs with
  | nil => simp [scanInputs]
  | cons f rest ih =>
    have notZero : level ≠ 0 := by omega
    rw [scanInputs]
    by_cases out : (afterFile a f || beforeFile b f) = true
    · rw [if_pos out, ih]
      simp [overlaps, out]
    · rw [if_neg out, if_neg (fun h => notZero h.1), if_neg (fun h => notZero h.1), ih]
      simp [overlaps, out]

/-- The inputs at a level of disjoint files are those that overlap the range. -/
theorem getOverlappingInputs_sorted (v : Version K V) (deep : 0 < level)
    (begin finish : Option (InternalKey K)) :
    v.getOverlappingInputs level begin finish = (v.files level).filter
      (overlaps (begin.map (·.userKey), finish.map (·.userKey))) := by
  rw [getOverlappingInputs, overlappingInputsLoop, scanInputs_sorted deep]
  rfl

theorem scanInputs_zero (a b : Option K) (files inputs : List (FileMetaData K V)) :
    match scanInputs 0 a b files inputs with
    | .done found => found = inputs ++ files.filter (overlaps (a, b)) ∧
        ∀ f ∈ files, overlaps (a, b) f = true → Inside (a, b) f
    | .widen a' b' => Widens files (a, b) (a', b') := by
  induction files generalizing inputs with
  | nil => simp [scanInputs]
  | cons f rest ih =>
    have more {range range'} (widens : Widens rest range range') :
        Widens (f :: rest) range range' := by
      cases widens with
      | left mem hit less => exact .left (mem_cons_of_mem _ mem) hit less
      | right mem hit less => exact .right (mem_cons_of_mem _ mem) hit less
    rw [scanInputs]
    by_cases out : (afterFile a f || beforeFile b f) = true
    · rw [if_pos out]
      have ih := ih inputs
      split at ih
      · obtain ⟨found, inside⟩ := ih
        have miss : overlaps (a, b) f = false := by simp [overlaps, out]
        refine ⟨by rw [found, filter_cons_of_neg (by simp [miss])], ?_⟩
        intro g mem hit
        obtain rfl | mem := mem_cons.mp mem
        · rw [miss] at hit
          cases hit
        · exact inside g mem hit
      · exact more ih
    · have hit : overlaps (a, b) f = true := by simpa [overlaps] using out
      rw [if_neg out]
      by_cases left : a.any (f.smallest.userKey < ·) = true
      · rw [if_pos ⟨rfl, left⟩]
        cases a with
        | none => cases left
        | some a => exact .left mem_cons_self hit (of_decide_eq_true left)
      · rw [if_neg fun h => left h.2]
        by_cases right : b.any (· < f.largest.userKey) = true
        · rw [if_pos ⟨rfl, right⟩]
          cases b with
          | none => cases right
          | some b => exact .right mem_cons_self hit (of_decide_eq_true right)
        · rw [if_neg fun h => right h.2]
          have ih := ih (inputs ++ [f])
          split at ih
          · obtain ⟨found, inside⟩ := ih
            refine ⟨by rw [found, filter_cons_of_pos hit, append_assoc]; rfl, ?_⟩
            intro g mem
            obtain rfl | mem := mem_cons.mp mem
            · intro _
              refine ⟨fun x at_a => ?_, fun x at_b => ?_⟩
              · cases at_a
                simpa using left
              · cases at_b
                simpa using right
            · exact inside g mem
          · exact more ih

namespace Widens
variable {files : List (FileMetaData K V)} {range range' : Option K × Option K}

/-- How far the bounds can still move. -/
def slack (files : List (FileMetaData K V)) (range : Option K × Option K) : Nat :=
  files.countP (fun f => range.1.any (f.smallest.userKey < ·)) +
    files.countP fun f => range.2.any (· < f.largest.userKey)

theorem slack_le (files : List (FileMetaData K V)) (range : Option K × Option K) :
    slack files range ≤ 2 * files.length := by
  have left := countP_le_length (p := fun f => range.1.any (f.smallest.userKey < ·)) (l := files)
  have right := countP_le_length (p := fun f => range.2.any (· < f.largest.userKey)) (l := files)
  rw [slack]
  omega

variable {f : FileMetaData K V}

theorem slack_lt (widens : Widens files range range') : slack files range' < slack files range := by
  cases widens with
  | left mem hit less =>
    refine Nat.add_lt_add_right (Search.countP_lt ?_ mem ?_ ?_) _
    · intro g _ out
      simp only [any_some, decide_eq_true_eq] at out ⊢
      exact out.trans less
    · simpa using less
    · simp
  | right mem hit less =>
    refine Nat.add_lt_add_left (Search.countP_lt ?_ mem ?_ ?_) _
    · intro g _ out
      simp only [any_some, decide_eq_true_eq] at out ⊢
      exact less.trans out
    · simpa using less
    · simp

theorem overlaps_mono (widens : Widens files range range')
    (hit : overlaps range f = true) : overlaps range' f = true := by
  rw [overlaps_iff] at hit ⊢
  obtain ⟨reaches, begins⟩ := hit
  cases widens with
  | left _ _ less =>
    refine ⟨?_, begins⟩
    intro a isLow
    cases isLow
    exact less.le.trans (reaches _ rfl)
  | right _ _ less =>
    refine ⟨reaches, ?_⟩
    intro b isHigh
    cases isHigh
    exact (begins _ rfl).trans less.le

theorem overlaps_trans (widens : Relation.ReflTransGen (Widens files) range range')
    (hit : overlaps range f = true) : overlaps range' f = true := by
  induction widens with
  | refl => exact hit
  | tail _ last ih => exact last.overlaps_mono ih

end Widens

/-- The user keys of a range, which may be open on either side. -/
def keysOf (range : Option K × Option K) : Set K :=
  {u | (∀ a ∈ range.1, a ≤ u) ∧ ∀ b ∈ range.2, u ≤ b}

def FileMetaData.userKeys (f : FileMetaData K V) : Set K :=
  Set.Icc f.smallest.userKey f.largest.userKey

/-- A set of user keys that has all of a file's range when it has some of it. -/
def ClosedUnder (files : List (FileMetaData K V)) (keys : Set K) : Prop :=
  ∀ f ∈ files, (f.userKeys ∩ keys).Nonempty → f.userKeys ⊆ keys

/-- The bounds of a range are in order. -/
def Forward (range : Option K × Option K) : Prop := ∀ a ∈ range.1, ∀ b ∈ range.2, a ≤ b

variable {range : Option K × Option K} {f : FileMetaData K V}

theorem Forward.overlaps_iff (forward : Forward range) : overlaps range f = true ↔
    (f.userKeys ∩ keysOf range).Nonempty := by
  rw [TalusDB.overlaps_iff]
  constructor
  · rintro ⟨reaches, begins⟩
    obtain ⟨low, high⟩ := range
    cases low with
    | none => exact ⟨f.smallest.userKey, ⟨le_rfl, f.user_ordered⟩, nofun, begins⟩
    | some a =>
      refine ⟨max a f.smallest.userKey, ⟨le_max_right _ _, max_le (reaches a rfl) f.user_ordered⟩,
        fun b isLow => ?_, fun b isHigh => max_le (forward a rfl b isHigh) (begins b isHigh)⟩
      cases isLow
      exact le_max_left _ _
  · rintro ⟨u, ⟨above, below⟩, low, high⟩
    exact ⟨fun a isLow => (low a isLow).trans below, fun b isHigh => above.trans (high b isHigh)⟩

theorem Inside.subset (inside : Inside range f) : f.userKeys ⊆ keysOf range := by
  intro u ⟨above, below⟩
  exact ⟨fun a isLow => (inside.1 a isLow).trans above,
    fun b isHigh => below.trans (inside.2 b isHigh)⟩

namespace Widens
variable {files : List (FileMetaData K V)} {range range' : Option K × Option K}

theorem forward (widens : Widens files range range') (ordered : Forward range) :
    Forward range' := by
  cases widens with
  | left mem hit less =>
    intro x isLow b isHigh
    cases isLow
    exact less.le.trans (ordered _ rfl b isHigh)
  | right mem hit less =>
    intro a isLow x isHigh
    cases isHigh
    exact (ordered a isLow _ rfl).trans less.le

theorem grows (widens : Widens files range range') (ordered : Forward range) :
    keysOf range ⊆ keysOf range' ∧ ∃ f ∈ files, (f.userKeys ∩ keysOf range).Nonempty ∧
      keysOf range' ⊆ keysOf range ∪ f.userKeys := by
  cases widens with
  | left mem hit less =>
    rename_i a b f
    have reaches : a ≤ f.largest.userKey := (TalusDB.overlaps_iff.mp hit).1 a rfl
    refine ⟨fun u ⟨low, high⟩ => ⟨fun x isLow => ?_, high⟩, f, mem, ordered.overlaps_iff.mp hit,
      fun u ⟨low, high⟩ => ?_⟩
    · cases isLow
      exact less.le.trans (low a rfl)
    · obtain below | above := lt_or_ge u a
      · exact .inr ⟨low _ rfl, below.le.trans reaches⟩
      · refine .inl ⟨fun x isLow => ?_, high⟩
        cases isLow
        exact above
  | right mem hit less =>
    rename_i a b f
    have begins : f.smallest.userKey ≤ b := (TalusDB.overlaps_iff.mp hit).2 b rfl
    refine ⟨fun u ⟨low, high⟩ => ⟨low, fun x isHigh => ?_⟩, f, mem, ordered.overlaps_iff.mp hit,
      fun u ⟨low, high⟩ => ?_⟩
    · cases isHigh
      exact (high b rfl).trans less.le
    · obtain above | below := lt_or_ge b u
      · exact .inr ⟨begins.trans above.le, high _ rfl⟩
      · refine .inl ⟨low, fun x isHigh => ?_⟩
        cases isHigh
        exact below

theorem least (widens : Relation.ReflTransGen (Widens files) range range')
    (ordered : Forward range) : Forward range' ∧ keysOf range ⊆ keysOf range' ∧
      ∀ keys, ClosedUnder files keys → keysOf range ⊆ keys → keysOf range' ⊆ keys := by
  induction widens with
  | refl => exact ⟨ordered, le_rfl, fun _ _ => id⟩
  | tail _ last ih =>
    obtain ⟨ordered, wider, least⟩ := ih
    obtain ⟨wider', f, mem, ⟨u, inFile, inRange⟩, part⟩ := last.grows ordered
    refine ⟨last.forward ordered, wider.trans wider', fun keys closed holds => ?_⟩
    have holds := least keys closed holds
    have whole := closed f mem ⟨u, inFile, holds inRange⟩
    exact part.trans (Set.union_subset holds whole)

end Widens

/-- A pass over the files that ends with a wider range, with which the next one starts. -/
def Restarts (level : Nat) (files : List (FileMetaData K V))
    (range range' : Option K × Option K) : Prop :=
  scanInputs level range.1 range.2 files [] = .widen range'.1 range'.2

theorem Restarts.widens {files : List (FileMetaData K V)} {range range' : Option K × Option K}
    (restarts : Restarts 0 files range range') : Widens files range range' := by
  have scanned := scanInputs_zero range.1 range.2 files []
  rw [Restarts] at restarts
  rw [restarts] at scanned
  exact scanned

/-- The inputs at level 0: the range has grown until the files that overlap it lie
inside it. -/
structure Closure (files : List (FileMetaData K V)) (range : Option K × Option K)
    (inputs : List (FileMetaData K V)) where
  range' : Option K × Option K
  widens : Relation.ReflTransGen (Widens files) range range'
  inputs_eq : inputs = files.filter (overlaps range')
  inside : ∀ f ∈ inputs, Inside range' f

theorem overlappingInputsLoop_passes (level : Nat) (files : List (FileMetaData K V)) (fuel : Nat)
    (a b : Option K) (enough : Widens.slack files (a, b) < fuel) :
    ∃ range', Relation.ReflTransGen (Restarts level files) (a, b) range' ∧
      scanInputs level range'.1 range'.2 files [] =
        .done (overlappingInputsLoop level files fuel a b) := by
  induction fuel generalizing a b with
  | zero => omega
  | succ fuel ih =>
    rw [overlappingInputsLoop]
    cases scan : scanInputs level a b files [] with
    | done found => exact ⟨(a, b), .refl, scan⟩
    | widen a' b' =>
      cases level with
      | succ level =>
        rw [scanInputs_sorted level.succ_pos] at scan
        cases scan
      | zero =>
        have restarts : Restarts 0 files (a, b) (a', b') := scan
        have less := restarts.widens.slack_lt
        obtain ⟨range', passes, done⟩ := ih a' b' (by omega)
        exact ⟨range', .head restarts passes, done⟩

theorem getOverlappingInputs_passes (v : Version K V) (level : Nat)
    (begin finish : Option (InternalKey K)) :
    ∃ range', Relation.ReflTransGen (Restarts level (v.files level))
        (begin.map (·.userKey), finish.map (·.userKey)) range' ∧
      scanInputs level range'.1 range'.2 (v.files level) [] =
        .done (v.getOverlappingInputs level begin finish) := by
  apply overlappingInputsLoop_passes
  exact Nat.lt_succ_of_le (Widens.slack_le _ _)

theorem getOverlappingInputs_closure (v : Version K V) (begin finish : Option (InternalKey K)) :
    Nonempty (Closure (v.files 0) (begin.map (·.userKey), finish.map (·.userKey))
      (v.getOverlappingInputs 0 begin finish)) := by
  obtain ⟨range', passes, done⟩ := getOverlappingInputs_passes v 0 begin finish
  have scanned := scanInputs_zero range'.1 range'.2 (v.files 0) []
  rw [done] at scanned
  obtain ⟨found, inside⟩ := scanned
  rw [nil_append] at found
  have widens := Relation.ReflTransGen.mono (fun _ _ => Restarts.widens) _ _ passes
  refine ⟨⟨range', widens, found, fun f mem => ?_⟩⟩
  rw [found, mem_filter] at mem
  exact inside f mem.1 mem.2

/-- `GetOverlappingInputs` ends: the passes lead to a range for which there is none to start
over with, and the inputs are the files that overlap it, in their order. From level 1 on it is
the given range. At level 0 it is the least one with the given range and the whole range of
every file that meets it. -/
theorem getOverlappingInputs_least (v : Version K V) (level : Nat)
    (begin finish : Option (InternalKey K))
    (ordered : ∀ a ∈ begin, ∀ b ∈ finish, a.userKey ≤ b.userKey) :
    ∃ range', Relation.ReflTransGen (Restarts level (v.files level))
        (begin.map (·.userKey), finish.map (·.userKey)) range' ∧
      scanInputs level range'.1 range'.2 (v.files level) [] =
        .done (v.getOverlappingInputs level begin finish) ∧
      v.getOverlappingInputs level begin finish = (v.files level).filter (overlaps range') ∧
      (∀ f : FileMetaData K V,
        overlaps range' f = true ↔ (f.userKeys ∩ keysOf range').Nonempty) ∧
      (0 < level → range' = (begin.map (·.userKey), finish.map (·.userKey))) ∧
      (level = 0 → IsLeast {keys | keys.OrdConnected ∧ ClosedUnder (v.files 0) keys ∧
        keysOf (begin.map (·.userKey), finish.map (·.userKey)) ⊆ keys} (keysOf range')) := by
  have forward : Forward (begin.map (·.userKey), finish.map (·.userKey)) := by
    intro a isLow b isHigh
    obtain ⟨low, isBegin, rfl⟩ := Option.map_eq_some_iff.mp isLow
    obtain ⟨high, isFinish, rfl⟩ := Option.map_eq_some_iff.mp isHigh
    exact ordered low isBegin high isFinish
  obtain ⟨range', passes, done⟩ := getOverlappingInputs_passes v level begin finish
  refine ⟨range', passes, done, ?_⟩
  cases level with
  | succ level =>
    have first : range' = (begin.map (·.userKey), finish.map (·.userKey)) := by
      obtain same | ⟨next, restarts, -⟩ := passes.cases_head
      · exact same.symm
      · rw [Restarts, scanInputs_sorted level.succ_pos] at restarts
        cases restarts
    subst first
    refine ⟨getOverlappingInputs_sorted v level.succ_pos begin finish,
      fun f => forward.overlaps_iff, fun _ => rfl, nofun⟩
  | zero =>
    have widens := Relation.ReflTransGen.mono (fun _ _ => Restarts.widens) _ _ passes
    obtain ⟨forward', wider, least⟩ := Widens.least widens forward
    have scanned := scanInputs_zero range'.1 range'.2 (v.files 0) []
    rw [done] at scanned
    obtain ⟨found, inside⟩ := scanned
    refine ⟨found, fun f => forward'.overlaps_iff, nofun, fun _ => ⟨⟨?_, ?_, wider⟩, ?_⟩⟩
    · exact ⟨fun x ⟨low, _⟩ y ⟨_, high⟩ u ⟨above, below⟩ =>
        ⟨fun a isLow => (low a isLow).trans above, fun b isHigh => below.trans (high b isHigh)⟩⟩
    · intro f mem meets
      exact (inside f mem (forward'.overlaps_iff.mpr meets)).subset
    · rintro keys ⟨-, closed, holds⟩
      exact least keys closed holds

/-- The two files at level 0: a key of the second one leads to the first. -/
def sharedKeyVersion : Version Nat Nat where
  files level := if level = 0 then sharedKeyFiles else []
  shallow level deep := if_neg (by rintro rfl; cases deep)

theorem getOverlappingInputs_least_shared :
    ∃ range', sharedKeyVersion.getOverlappingInputs 0 (some ⟨7, 3, .value⟩)
        (some ⟨9, 3, .value⟩) = sharedKeyFiles.filter (overlaps range') ∧
      IsLeast {keys | keys.OrdConnected ∧ ClosedUnder sharedKeyFiles keys ∧
        keysOf (some 7, some 9) ⊆ keys} (keysOf range') := by
  obtain ⟨range', -, -, inputs, -, -, least⟩ := getOverlappingInputs_least sharedKeyVersion 0
    (some ⟨7, 3, .value⟩) (some ⟨9, 3, .value⟩) (by simp)
  exact ⟨range', inputs, least rfl⟩

theorem mem_getOverlappingInputs {v : Version K V} {level : Nat} {f : FileMetaData K V}
    (mem : f ∈ v.files level) (begin finish : Option (InternalKey K))
    (hit : overlaps (begin.map (·.userKey), finish.map (·.userKey)) f = true) :
    f ∈ v.getOverlappingInputs level begin finish := by
  cases level with
  | zero =>
    obtain ⟨closure⟩ := getOverlappingInputs_closure v begin finish
    rw [closure.inputs_eq]
    exact mem_filter.mpr ⟨mem, Widens.overlaps_trans closure.widens hit⟩
  | succ level =>
    rw [getOverlappingInputs_sorted v level.succ_pos]
    exact mem_filter.mpr ⟨mem, hit⟩

section
variable (v : Version K V) (options : Options K V) (a b : K)

theorem pickLevelLoop_le (fuel level : Nat) :
    v.pickLevelLoop options a b fuel level ≤ level + fuel := by
  induction fuel generalizing level with
  | zero => exact le_rfl
  | succ fuel ih =>
    rw [pickLevelLoop]
    split
    · exact Nat.le_add_right _ _
    split
    · exact Nat.le_add_right _ _
    · exact (ih (level + 1)).trans (by omega)

theorem pickLevelForMemTableOutput_le : v.pickLevelForMemTableOutput options a b ≤ 2 := by
  rw [pickLevelForMemTableOutput]
  split
  · exact Nat.zero_le _
  · exact pickLevelLoop_le v options a b kMaxMemCompactLevel 0

end

section
variable {v : Version K V} (disjoint : v.LevelsDisjoint) (options : Options K V) (a b : K)
include disjoint

theorem pickLevelLoop_clear (fuel level : Nat)
    (clear : ∀ i ≤ level, ∀ f ∈ v.files i, ¬ f.Meets a b) :
    ∀ i ≤ v.pickLevelLoop options a b fuel level, ∀ f ∈ v.files i, ¬ f.Meets a b := by
  induction fuel generalizing level with
  | zero => exact clear
  | succ fuel ih =>
    rw [pickLevelLoop]
    by_cases next : v.overlapInLevel (level + 1) (some a) (some b) = true
    · rw [if_pos next]
      exact clear
    · rw [if_neg next]
      split
      · exact clear
      · apply ih
        intro i le f mem meets
        obtain below | rfl := Nat.le_succ_iff.mp le
        · exact clear i below f mem meets
        · exact next ((disjoint.overlapInLevel_iff _ a b).mpr ⟨f, mem, meets⟩)

theorem pickLevelForMemTableOutput_clear
    (deep : 0 < v.pickLevelForMemTableOutput options a b) {i : Nat}
    (le : i ≤ v.pickLevelForMemTableOutput options a b) {f : FileMetaData K V}
    (mem : f ∈ v.files i) : ¬ f.Meets a b := by
  rw [pickLevelForMemTableOutput] at deep le
  split at deep
  case isTrue => omega
  case isFalse free =>
    rw [if_neg free] at le
    refine pickLevelLoop_clear disjoint options a b kMaxMemCompactLevel 0 ?_ i le f mem
    intro i zero f mem meets
    rw [Nat.le_zero.mp zero] at mem
    exact free ((disjoint.overlapInLevel_iff _ a b).mpr ⟨f, mem, meets⟩)

end
end TalusDB
