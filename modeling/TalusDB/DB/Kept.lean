import TalusDB.DB.CompactionWork
import TalusDB.DB.Recency

/-! Which entries a compaction keeps. `IsBaseLevelForKey` moves its pointers only
forward, so for keys in increasing order it tells whether a deeper level has a file
around the key; and of the entries of a user key, what is left out is hidden from
every reader that the oldest snapshot allows for. -/
namespace TalusDB
open List Function InternalKey
open CompactionState (start)
variable {K V : Type} [LinearOrder K]

/-- Every file that a pointer has passed ends before the user key. -/
def PtrsBefore (v : Version K V) (ptrs : Nat → Nat) (k : K) : Prop :=
  ∀ level, ∀ f ∈ (v.files level).take (ptrs level), f.largest.userKey < k

variable {v : Version K V} {ptrs : Nat → Nat} {k : K} {level : Nat}

theorem PtrsBefore.mono {k' : K}
    (before : PtrsBefore v ptrs k) (le : k ≤ k') : PtrsBefore v ptrs k' :=
  fun level f mem => (before level f mem).trans_le le

theorem skipFiles_eq (k : K) (files : List (FileMetaData K V)) (ptr : Nat) : skipFiles k files ptr =
      (ptr + (files.takeWhile fun f => f.largest.userKey < k).length,
        (files.dropWhile fun f => f.largest.userKey < k).head?) := by
  induction files generalizing ptr with
  | nil => rfl
  | cons f rest ih =>
    rw [skipFiles]
    by_cases reaches : k ≤ f.largest.userKey
    · simp [reaches, not_lt.mpr reaches]
    · have passed := not_le.mp reaches
      rw [if_neg reaches, ih, takeWhile_cons_of_pos (by simpa using passed),
        dropWhile_cons_of_pos (by simpa using passed), length_cons]
      congr 1
      omega

theorem PtrsBefore.update (before : PtrsBefore v ptrs k) (level : Nat) :
    PtrsBefore v (Function.update ptrs level
      (skipFiles k ((v.files level).drop (ptrs level)) (ptrs level)).1) k := by
  intro l f mem
  by_cases here : l = level
  · subst here
    rw [update_self, skipFiles_eq, Search.take_add_takeWhile, mem_append] at mem
    obtain passed | skipped := mem
    · exact before l f passed
    · simpa using mem_takeWhile_imp skipped
  · rw [update_of_ne here] at mem
    exact before l f mem

/-- No file of the level has the user key in its range. -/
def clearOf (v : Version K V) (k : K) (level : Nat) : Bool :=
  (v.files level).all fun f => !overlaps (some k, some k) f

theorem clearOf_iff : clearOf v k level = true ↔ ∀ f ∈ v.files level, ¬ f.Meets k k := by
  simp [clearOf, ← overlaps_some]

theorem skipFiles_clear (before : PtrsBefore v ptrs k) (sorted : SortedDisjoint (v.files level)) :
    (skipFiles k ((v.files level).drop (ptrs level)) (ptrs level)).2.any
      (·.smallest.userKey ≤ k) = !clearOf v k level := by
  rw [skipFiles_eq]
  have split : v.files level = ((v.files level).take (ptrs level) ++
      ((v.files level).drop (ptrs level)).takeWhile fun f => f.largest.userKey < k) ++
      ((v.files level).drop (ptrs level)).dropWhile fun f => f.largest.userKey < k := by
    rw [append_assoc, takeWhile_append_dropWhile, take_append_drop]
  have passed : ∀ f ∈ (v.files level).take (ptrs level) ++
      ((v.files level).drop (ptrs level)).takeWhile (fun f => f.largest.userKey < k),
      ¬ f.Meets k k := by
    intro f mem meets
    obtain mem | mem := mem_append.mp mem
    · exact absurd meets.1 (not_le.mpr (before level f mem))
    · exact absurd meets.1 (not_le.mpr (by simpa using mem_takeWhile_imp mem))
  cases left : ((v.files level).drop (ptrs level)).dropWhile fun f => f.largest.userKey < k with
  | nil =>
    have clear : clearOf v k level = true := by
      rw [clearOf_iff, split, left, append_nil]
      exact passed
    simp [clear]
  | cons f rest =>
    have reaches : k ≤ f.largest.userKey := by
      have stops := head_dropWhile_not (fun f => decide (f.largest.userKey < k))
        (l := (v.files level).drop (ptrs level)) (by simp [left])
      simpa [left] using stops
    rw [left] at split
    rw [split] at sorted
    by_cases around : f.smallest.userKey ≤ k
    · have unclear : clearOf v k level ≠ true := by
        rw [Ne, clearOf_iff, split]
        intro clear
        exact clear f (by simp) ⟨reaches, around⟩
      simp [around, unclear]
    · have clear : clearOf v k level = true := by
        rw [clearOf_iff, split]
        intro g mem
        obtain mem | mem := mem_append.mp mem
        · exact passed g mem
        -- the files behind begin even later
        have later : f.smallest ≤ g.smallest := by
          obtain rfl | mem := mem_cons.mp mem
          · exact le_rfl
          · exact f.ordered.trans
              (rel_of_pairwise_cons (pairwise_append.mp sorted).2.1 mem).le
        intro meets
        exact around ((userKey_mono later).trans meets.2)
      simp [around, clear]

theorem isBaseLevelLoop_spec (disjoint : v.LevelsDisjoint)
    (levels : List Nat) (deep : ∀ level ∈ levels, 0 < level)
    (before : PtrsBefore v ptrs k) :
    (isBaseLevelLoop v k levels ptrs).1 = levels.all (clearOf v k) ∧
      PtrsBefore v (isBaseLevelLoop v k levels ptrs).2 k := by
  induction levels generalizing ptrs with
  | nil => exact ⟨rfl, before⟩
  | cons level rest ih =>
    have sorted := disjoint level (deep level mem_cons_self)
    have found := skipFiles_clear before sorted
    have moved := before.update level
    have later := ih (fun l mem => deep l (mem_cons_of_mem level mem)) moved
    rw [isBaseLevelLoop]
    simp only [found, all_cons]
    cases clearOf v k level with
    | true => simpa using later
    | false => exact ⟨rfl, moved⟩

/-- The answers to calls of `IsBaseLevelForKey` one behind the other. -/
def CompactionState.isBaseLevelCalls (c : CompactionState K V) : List K → List Bool
  | [] => []
  | k :: rest =>
    (c.isBaseLevelForKey k).1 ::
      isBaseLevelCalls { c with levelPtrs := (c.isBaseLevelForKey k).2 } rest

theorem Compaction.deeperLevels_clear {c : Compaction K V} :
    c.deeperLevels.all (clearOf v k) = true ↔
      ∀ level, c.level + 2 ≤ level → ∀ f ∈ v.files level, k ∉ f.userKeys := by
  have apart (f : FileMetaData K V) : ¬ f.Meets k k ↔ k ∉ f.userKeys := by
    rw [FileMetaData.Meets, FileMetaData.userKeys, Set.mem_Icc, and_comm]
  simp only [all_eq_true, Compaction.deeperLevels, mem_range'_1, clearOf_iff, apart]
  constructor
  · intro clear level deep f mem
    by_cases bound : level < kNumLevels
    · exact clear level ⟨deep, by omega⟩ f mem
    · rw [v.shallow level (not_lt.mp bound)] at mem
      cases mem
  · exact fun clear level inside => clear level inside.1

theorem CompactionState.isBaseLevelCalls_before {c : CompactionState K V} {keys : List K}
    (disjoint : c.compaction.inputVersion.LevelsDisjoint) (sorted : keys.Pairwise (· ≤ ·))
    (before : ∀ k ∈ keys, PtrsBefore c.compaction.inputVersion c.levelPtrs k) :
    List.Forall₂ (fun k answer => answer = true ↔ ∀ level, c.compaction.level + 2 ≤ level →
      ∀ f ∈ c.compaction.inputVersion.files level, k ∉ f.userKeys)
      keys (c.isBaseLevelCalls keys) := by
  induction keys generalizing c with
  | nil => exact .nil
  | cons k rest ih =>
    obtain ⟨first, sorted'⟩ := pairwise_cons.mp sorted
    have deep : ∀ level ∈ c.compaction.deeperLevels, 0 < level := by
      intro level mem
      have := (mem_range'_1.mp mem).1
      omega
    obtain ⟨answer, moved⟩ := isBaseLevelLoop_spec disjoint c.compaction.deeperLevels deep
      (before k mem_cons_self)
    have answers : ((c.isBaseLevelForKey k).1 = true ↔ _) :=
      (Bool.eq_iff_iff.mp answer).trans Compaction.deeperLevels_clear
    have later := @ih { c with levelPtrs := (c.isBaseLevelForKey k).2 } disjoint sorted'
      fun k' mem => moved.mono (first k' mem)
    exact .cons answers later

/-- Calls of `IsBaseLevelForKey` for user keys that never fall say what a scan of the deeper
levels says. -/
theorem isBaseLevelCalls_scan (c : Compaction K V) (smallestSnapshot : Nat)
    (disjoint : c.inputVersion.LevelsDisjoint) (keys : List K) (sorted : keys.Pairwise (· ≤ ·)) :
    List.Forall₂ (fun k answer => answer = true ↔ ∀ level, c.level + 2 ≤ level →
      ∀ f ∈ c.inputVersion.files level, k ∉ f.userKeys)
      keys ((start c smallestSnapshot).isBaseLevelCalls keys) :=
  CompactionState.isBaseLevelCalls_before (c := start c smallestSnapshot)
    disjoint sorted fun _ _ _ _ mem => by simp [start] at mem

/-- Two files of level 2 that share a user key, below a compaction of level 0. -/
def sharedKeyBelow : Compaction Nat Nat where
  level := 0
  inputVersion :=
    { files := fun level => if level = 2 then sharedKeyFiles else []
      shallow := fun level deep => if_neg (by rintro rfl; cases deep; contradiction) }
  inputs := ([], [])
  grandparents := []
  pointer := ⟨0, 0, .value⟩

theorem isBaseLevelCalls_scan_shared :
    List.Forall₂ (fun k answer => answer = true ↔ ∀ level, 2 ≤ level →
      ∀ f ∈ sharedKeyBelow.inputVersion.files level, k ∉ f.userKeys)
      [0, 5, 5, 9] ((start sharedKeyBelow 4).isBaseLevelCalls [0, 5, 5, 9]) := by
  refine isBaseLevelCalls_scan sharedKeyBelow 4 (fun level deep => ?_) [0, 5, 5, 9] (by decide)
  show SortedDisjoint (if level = 2 then sharedKeyFiles else [])
  split
  · exact sharedKeyFiles_sorted
  · exact .nil

/-- Whether the loop leaves an entry out, when it last saw this user key with this
sequence number. -/
def isDropped (smallestSnapshot : Nat) (isBase : K → Bool) (current : Option K)
    (lastSequence : Nat) (e : Entry K V) : Bool :=
  decide ((if current = some e.userKey then lastSequence else kMaxSequenceNumber) ≤
    smallestSnapshot) ||
  (decide (e.key.type = .deletion ∧ e.sequence ≤ smallestSnapshot) && isBase e.userKey)

def keepFrom (smallestSnapshot : Nat) (isBase : K → Bool) :
    Option K → Nat → List (Entry K V) → List (Entry K V)
  | _, _, [] => []
  | current, lastSequence, e :: rest =>
    (if isDropped smallestSnapshot isBase current lastSequence e then [] else [e]) ++
      keepFrom smallestSnapshot isBase (some e.userKey) e.sequence rest

section
variable {smallestSnapshot : Nat} {isBase : K → Bool} {current : Option K} {lastSequence : Nat}
  {entries : List (Entry K V)}

theorem keepFrom_sublist :
    (keepFrom smallestSnapshot isBase current lastSequence entries).Sublist entries := by
  induction entries generalizing current lastSequence with
  | nil => exact .slnil
  | cons e rest ih =>
    rw [keepFrom]
    cases isDropped smallestSnapshot isBase current lastSequence e with
    | true => exact ih.cons e
    | false => exact ih.cons_cons e

variable {k : K} {s : Nat} {e : Entry K V}

/-- Behind an entry that every reader may see, all entries of its user key are left
out. -/
theorem keepFrom_hidden (seen : lastSequence ≤ smallestSnapshot)
    (sorted : entries.Pairwise fun a b => a.key < b.key)
    (behind : ∀ e ∈ entries, k ≤ e.userKey ∧ (e.userKey = k → e.sequence ≤ lastSequence)) :
    ∀ e ∈ keepFrom smallestSnapshot isBase (some k) lastSequence entries, e.userKey ≠ k := by
  induction entries generalizing lastSequence with
  | nil => simp [keepFrom]
  | cons x rest ih =>
    obtain ⟨first, sorted'⟩ := pairwise_cons.mp sorted
    obtain ⟨le, older⟩ := behind x mem_cons_self
    by_cases same : x.userKey = k
    · have dropped : isDropped smallestSnapshot isBase (some k) lastSequence x = true := by
        simp [isDropped, same, seen]
      rw [keepFrom, if_pos dropped, nil_append, same]
      refine ih ((older same).trans seen) sorted' ?_
      intro e mem
      refine ⟨(behind e (mem_cons_of_mem x mem)).1, fun user => ?_⟩
      exact sequence_le_of_le (first e mem).le (same.trans user.symm)
    · have above : k < x.userKey := lt_of_le_of_ne le (Ne.symm same)
      intro e mem user
      obtain rfl | mem := mem_cons.mp (keepFrom_sublist.subset mem)
      · exact same user
      · have after := userKey_mono (first e mem).le
        exact absurd (above.trans_le after) (not_lt.mpr user.le)

variable (snapshot : smallestSnapshot ≤ s) (bound : smallestSnapshot < kMaxSequenceNumber)
include snapshot bound

theorem isDropped_visible (unseen : current = some k → s < lastSequence) (isKey : e.userKey = k)
    (dropped : isDropped smallestSnapshot isBase current lastSequence e = true) :
    e.key.type = .deletion ∧ e.sequence ≤ smallestSnapshot ∧ isBase k = true := by
  have last : ¬ (if current = some e.userKey then lastSequence else kMaxSequenceNumber) ≤
      smallestSnapshot := by
    split
    case isTrue here =>
      have newer := unseen (here.trans (congrArg some isKey))
      omega
    case isFalse => omega
  rw [isDropped, decide_eq_false last, Bool.false_or, Bool.and_eq_true, decide_eq_true_eq,
    isKey] at dropped
  exact ⟨dropped.1.1, dropped.1.2, dropped.2⟩

/-- The entry that a reader at `s` sees is kept, unless it is a deletion with nothing
below it; then no older entry of the user key is kept either. -/
theorem keepFrom_newest
    (sorted : entries.Pairwise fun a b => a.key < b.key) (unique : UniqueEntries entries)
    (unseen : current = some k → s < lastSequence)
    (newest : Multiversion.IsNewest Entry.userKey Entry.sequence entries k s e) :
    e ∈ keepFrom smallestSnapshot isBase current lastSequence entries ∨
      e.read = none ∧ isBase k = true ∧
        ∀ x ∈ keepFrom smallestSnapshot isBase current lastSequence entries,
          x.userKey = k → ¬ x.sequence ≤ s := by
  induction entries generalizing current lastSequence with
  | nil => cases newest.mem
  | cons x rest ih =>
    obtain ⟨first, sorted'⟩ := pairwise_cons.mp sorted
    rw [keepFrom]
    by_cases visible : x.userKey = k ∧ x.sequence ≤ s
    · -- the first visible entry of the user key is the newest one
      have same : e = x := by
        obtain rfl | later := mem_cons.mp newest.mem
        · rfl
        · have user : x.userKey = e.userKey := visible.1.trans newest.isKey.symm
          have older : e.sequence ≤ x.sequence :=
            sequence_le_of_le (first e later).le user
          exact unique e newest.mem x mem_cons_self user.symm
            (le_antisymm older (newest.last x mem_cons_self visible.1 visible.2))
      subst same
      cases dropped : isDropped smallestSnapshot isBase current lastSequence e with
      | false => exact .inl (mem_append_left _ mem_cons_self)
      | true =>
        obtain ⟨type, seen, base⟩ := isDropped_visible snapshot bound unseen visible.1 dropped
        refine .inr ⟨by simp [Entry.read, type], base, ?_⟩
        intro x mem user
        rw [if_pos rfl, nil_append, visible.1] at mem
        refine absurd user (keepFrom_hidden seen sorted' ?_ x mem)
        intro y inRest
        refine ⟨visible.1 ▸ userKey_mono (first y inRest).le, fun same => ?_⟩
        exact sequence_le_of_le (first y inRest).le (visible.1.trans same.symm)
    · have later : e ∈ rest := (mem_cons.mp newest.mem).resolve_left fun same =>
        visible (same ▸ ⟨newest.isKey, newest.visible⟩)
      have unseen' : some x.userKey = some k → s < x.sequence := fun same =>
        Nat.lt_of_not_le fun older => visible ⟨Option.some.inj same, older⟩
      obtain kept | ⟨absent, base, hidden⟩ := ih sorted'
        (unique.mono (subset_cons_self x rest)) unseen'
        ⟨later, newest.isKey, newest.visible,
          fun y mem => newest.last y (mem_cons_of_mem x mem)⟩
      · exact .inl (mem_append_right _ kept)
      · refine .inr ⟨absent, base, ?_⟩
        intro y mem user
        obtain mem | mem := mem_append.mp mem
        · have head : y = x := by
            split at mem
            · cases mem
            · exact mem_singleton.mp mem
          exact fun older => visible (head ▸ ⟨user, older⟩)
        · exact hidden y mem user

end
end TalusDB
