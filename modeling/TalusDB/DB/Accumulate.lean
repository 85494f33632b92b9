import TalusDB.DB.SaveTo

/-! One `Builder` for many edits. `VersionSet::Recover` collects every edit of the manifest
over the empty version and saves once; `LogAndApply` has saved a version after each of them.
The two agree as long as no edit adds a file to a level where an earlier one has added its
number. -/
namespace TalusDB
open List Function Version
variable {K V : Type} [LinearOrder K]

/-- The order of `BySmallestKey`, as a list of files keeps it. -/
def BySmallest (files : List (FileMetaData K V)) : Prop :=
  files.Pairwise fun f g => bySmallestKey f g = true

theorem bySmallestKey_trans {f g h : FileMetaData K V} (first : bySmallestKey f g = true)
    (second : bySmallestKey g h = true) : bySmallestKey f h = true := by
  simp only [bySmallestKey, decide_eq_true_eq] at first second ⊢
  obtain less | ⟨same, number⟩ := first
  · obtain less' | ⟨same', -⟩ := second
    · exact .inl (less.trans less')
    · exact .inl (same' ▸ less)
  · obtain less' | ⟨same', number'⟩ := second
    · exact .inl (same ▸ less')
    · exact .inr ⟨same.trans same', number.trans number'⟩

theorem bySmallestKey_irrefl (f : FileMetaData K V) : ¬ bySmallestKey f f = true := by
  simp [bySmallestKey]

theorem bySmallestKey_of_not {f g : FileMetaData K V} (different : f.number ≠ g.number)
    (not : ¬ bySmallestKey f g = true) : bySmallestKey g f = true := by
  simp only [bySmallestKey, decide_eq_true_eq, not_or, not_and, not_lt] at not ⊢
  obtain less | same := not.1.lt_or_eq
  · exact .inl less
  · have := not.2 same.symm
    exact .inr ⟨same, by omega⟩

namespace BySmallest
variable {files files' : List (FileMetaData K V)}

theorem nodup (ordered : BySmallest files) : files.Nodup := by
  refine ordered.imp fun {f g} less same => ?_
  exact bySmallestKey_irrefl g (same ▸ less)

/-- The order leaves one way to list a set of files. -/
theorem ext (ordered : BySmallest files) (ordered' : BySmallest files')
    (same : ∀ f, f ∈ files ↔ f ∈ files') : files = files' := by
  have perm := (perm_ext_iff_of_nodup ordered.nodup ordered'.nodup).mpr same
  refine perm.eq_of_pairwise (fun f g _ _ less more => ?_) ordered ordered'
  exact absurd (bySmallestKey_trans less more) (bySmallestKey_irrefl f)

theorem insertFile (ordered : BySmallest files) {file : FileMetaData K V}
    (fresh : ∀ g ∈ files, g.number ≠ file.number) :
    BySmallest (Builder.insertFile file files) := by
  induction files with
  | nil => exact pairwise_singleton _ _
  | cons g rest ih =>
    obtain ⟨first, ordered'⟩ := pairwise_cons.mp ordered
    rw [Builder.insertFile]
    split
    case isTrue before =>
      refine List.Pairwise.cons (fun h mem => ?_) ordered
      obtain rfl | mem := mem_cons.mp mem
      · exact before
      · exact bySmallestKey_trans before (first h mem)
    case isFalse before =>
      have after := bySmallestKey_of_not (fresh g mem_cons_self).symm before
      rw [if_pos after]
      refine List.Pairwise.cons (fun h mem => ?_)
        (ih ordered' fun x mem => fresh x (mem_cons_of_mem g mem))
      obtain rfl | mem := Builder.mem_insertFile mem
      · exact after
      · exact first h mem

theorem mergeFiles {base added : List (FileMetaData K V)} (ordered : BySmallest base)
    (addedOrdered : BySmallest added)
    (different : ∀ f ∈ base, ∀ g ∈ added, f.number ≠ g.number) :
    BySmallest (Builder.mergeFiles base added) :=
  Builder.mergeFiles_pairwise (R := fun f g => bySmallestKey f g = true) bySmallestKey_trans ordered addedOrdered
    (fun g inBase file inAdded => bySmallestKey_of_not (different g inBase file inAdded).symm)
    fun _ _ _ _ => id

end BySmallest

/-- The levels and numbers of the files that the edit adds. -/
def VersionEdit.adds (edit : VersionEdit K V) : List (Nat × Nat) :=
  edit.newFiles.map fun addition => (addition.1, addition.2.number)

namespace Builder

theorem saveTo_files (b : Builder K V) {level : Nat} (bound : level < kNumLevels) :
    b.saveTo.files level =
      (mergeFiles (b.base.files level) (b.added level)).filter (·.number ∉ b.deleted level) :=
  if_pos bound

/-- What a builder knows of each level: its files are in order, and no two of them share a
number. -/
structure Listed (b : Builder K V) : Prop where
  ordered : ∀ level, BySmallest (b.added level)
  distinct : ∀ level, ∀ f ∈ b.added level, ∀ g ∈ b.added level, f.number = g.number → f = g

/-- The state after some files were added at levels where their numbers are new. -/
structure Adds (b : Builder K V) (additions : List (Nat × FileMetaData K V))
    (b' : Builder K V) : Prop where
  base : b'.base = b.base
  added : ∀ level f, f ∈ b'.added level ↔ f ∈ b.added level ∨ (level, f) ∈ additions
  deleted : ∀ level n, n ∈ b'.deleted level ↔
    n ∈ b.deleted level ∧ ∀ f, (level, f) ∈ additions → f.number ≠ n
  listed : b'.Listed

variable {b : Builder K V}

theorem newFile_adds (listed : b.Listed) {a : Nat × FileMetaData K V}
    (fresh : ∀ f ∈ b.added a.1, f.number ≠ a.2.number) : b.Adds [a] (b.newFile a) := by
  have added (level : Nat) (f : FileMetaData K V) :
      f ∈ (b.newFile a).added level ↔ f ∈ b.added level ∨ (level, f) ∈ [a] := by
    rw [mem_singleton, Prod.ext_iff]
    by_cases here : level = a.1
    · subst here
      simp only [newFile, update_self, (insertFile_perm fresh).mem_iff, mem_cons,
        true_and]
      exact or_comm
    · simp only [newFile, update_of_ne here, here, false_and, or_false]
  refine ⟨rfl, added, fun level n => ?_, fun level => ?_, ?_⟩
  · simp only [mem_singleton, Prod.ext_iff]
    by_cases here : level = a.1
    · subst here
      simp only [newFile, update_self, mem_filter, decide_eq_true_eq, true_and,
        forall_eq, ne_comm]
    · simp [newFile, here]
  · by_cases here : level = a.1
    · subst here
      simpa only [newFile, update_self] using (listed.ordered a.1).insertFile fresh
    · simpa only [newFile, update_of_ne here] using listed.ordered level
  · intro level f inF g inG same
    rw [added, mem_singleton] at inF inG
    obtain inF | rfl := inF
    · obtain inG | rfl := inG
      · exact listed.distinct level f inF g inG same
      · exact absurd same (fresh f inF)
    · obtain inG | isG := inG
      · exact absurd same.symm (fresh g inG)
      · exact (Prod.mk.inj isG).2.symm

theorem foldl_newFile_adds (listed : b.Listed) {additions : List (Nat × FileMetaData K V)}
    (nodup : (additions.map fun a => (a.1, a.2.number)).Nodup)
    (fresh : ∀ a ∈ additions, ∀ f ∈ b.added a.1, f.number ≠ a.2.number) :
    b.Adds additions (additions.foldl newFile b) := by
  induction additions generalizing b with
  | nil => exact ⟨rfl, by simp, by simp, listed⟩
  | cons a rest ih =>
    rw [map_cons, nodup_cons] at nodup
    have one := newFile_adds listed (fresh a mem_cons_self)
    have fresh' : ∀ x ∈ rest, ∀ f ∈ (b.newFile a).added x.1, f.number ≠ x.2.number := by
      intro x later f mem same
      rw [one.added, mem_singleton] at mem
      obtain old | rfl := mem
      · exact fresh x (mem_cons_of_mem a later) f old same
      · exact nodup.1 (mem_map.mpr ⟨x, later, by simp [same]⟩)
    have more := ih one.listed nodup.2 fresh'
    refine ⟨more.base.trans one.base, fun level f => ?_, fun level n => ?_, more.listed⟩
    · rw [foldl_cons, more.added, one.added, mem_singleton, mem_cons, or_assoc]
    · rw [foldl_cons, more.deleted, one.deleted, and_assoc]
      simp [or_imp, forall_and]

theorem apply_adds (listed : b.Listed) {edit : VersionEdit K V} (nodup : edit.adds.Nodup)
    (fresh : ∀ level, ∀ f ∈ b.added level, (level, f.number) ∉ edit.adds) :
    (b.apply edit).base = b.base ∧ (b.apply edit).Listed ∧
      (∀ level f, f ∈ (b.apply edit).added level ↔
        f ∈ b.added level ∨ (level, f) ∈ edit.newFiles) ∧
      ∀ level n, n ∈ (b.apply edit).deleted level ↔
        (n ∈ b.deleted level ∨ (level, n) ∈ edit.deletedFiles) ∧ (level, n) ∉ edit.adds := by
  obtain ⟨base, added, deleted⟩ := deleteFile_spec b edit.deletedFiles
  have listed' : (edit.deletedFiles.foldl deleteFile b).Listed :=
    ⟨by simpa only [added] using listed.ordered, by simpa only [added] using listed.distinct⟩
  have adds := foldl_newFile_adds listed' nodup (by
    intro a mem f old same
    rw [added] at old
    exact fresh a.1 f old (mem_map.mpr ⟨a, mem, by simp [same]⟩))
  refine ⟨adds.base.trans base, adds.listed, fun level f => ?_, fun level n => ?_⟩
  · rw [apply, adds.added, added]
  · rw [apply, adds.deleted, deleted, or_comm]
    simp [VersionEdit.adds]

end Builder

variable {edit : VersionEdit K V} {level : Nat} {f : FileMetaData K V}
  {files : List (FileMetaData K V)}

/-- What files are sorted by: the smallest key, then the number. -/
def FileMetaData.rank (f : FileMetaData K V) : InternalKey K ×ₗ Nat := toLex (f.smallest, f.number)

theorem bySmallestKey_iff {g : FileMetaData K V} : bySmallestKey f g = true ↔ f.rank < g.rank := by
  rw [bySmallestKey, decide_eq_true_eq, FileMetaData.rank, FileMetaData.rank, Prod.Lex.toLex_lt_toLex]

def Ranked (files : List (FileMetaData K V)) : Prop := files.Pairwise fun f g => f.rank ≤ g.rank

theorem BySmallest.ranked (ordered : BySmallest files) : Ranked files :=
  ordered.imp fun less => (bySmallestKey_iff.mp less).le

theorem Ranked.mergeFiles {base added : List (FileMetaData K V)} (baseRanked : Ranked base)
    (addedRanked : Ranked added) : Ranked (Builder.mergeFiles base added) := by
  refine Builder.mergeFiles_pairwise (R := fun f g => f.rank ≤ g.rank) le_trans baseRanked
    addedRanked (fun g _ file _ not => ?_) fun g _ file _ less => ?_
  · rw [bySmallestKey_iff, not_lt] at not
    exact not
  · exact (bySmallestKey_iff.mp less).le

theorem Ranked.smallestFirst (ranked : Ranked files) : SmallestFirst files := by
  refine ranked.imp fun {f g} le => ?_
  obtain less | ⟨same, -⟩ := Prod.Lex.le_iff.mp le
  · exact less.le
  · exact same.le

/-- An edit has deleted the file, and neither it nor a later one adds the number again. -/
def DeletedAtEnd (edits : List (VersionEdit K V)) (level n : Nat) : Prop :=
  ∃ before edit after, edits = before ++ edit :: after ∧ (level, n) ∈ edit.deletedFiles ∧
    ∀ e ∈ edit :: after, (level, n) ∉ e.adds

theorem deletedAtEnd_concat {edits : List (VersionEdit K V)}
    {n : Nat} : DeletedAtEnd (edits ++ [edit]) level n ↔
      (DeletedAtEnd edits level n ∨ (level, n) ∈ edit.deletedFiles) ∧ (level, n) ∉ edit.adds := by
  constructor
  · rintro ⟨before, e, after, same, deleted, kept⟩
    obtain rfl | ⟨after, last, rfl⟩ := eq_nil_or_concat' after
    · obtain ⟨-, isEdit⟩ := append_inj' same rfl
      cases isEdit
      exact ⟨.inr deleted, kept edit mem_cons_self⟩
    · have split : edits ++ [edit] = (before ++ e :: after) ++ [last] := by simpa using same
      obtain ⟨rfl, isEdit⟩ := append_inj' split rfl
      cases isEdit
      refine ⟨.inl ⟨before, e, after, rfl, deleted, fun x mem => kept x ?_⟩, kept edit (by simp)⟩
      rw [← cons_append]
      exact mem_append_left _ mem
  · rintro ⟨⟨before, e, after, rfl, deleted, kept⟩ | deleted, new⟩
    · refine ⟨before, e, after ++ [edit], by simp, deleted, fun x mem => ?_⟩
      rw [← cons_append, mem_append, mem_singleton] at mem
      obtain mem | rfl := mem
      · exact kept x mem
      · exact new
    · exact ⟨edits, edit, [], rfl, deleted, by simpa using new⟩

namespace Builder

variable {edits : List (VersionEdit K V)}

theorem foldl_apply {v : Version K V} (once : (edits.flatMap VersionEdit.adds).Nodup) :
    (edits.foldl apply { base := v }).base = v ∧ (edits.foldl apply { base := v }).Listed ∧
      (∀ level f, f ∈ (edits.foldl apply { base := v }).added level ↔
        ∃ edit ∈ edits, (level, f) ∈ edit.newFiles) ∧
      ∀ level n, n ∈ (edits.foldl apply { base := v }).deleted level ↔
        DeletedAtEnd edits level n := by
  induction edits using List.reverseRecOn with
  | nil =>
    refine ⟨rfl, ⟨fun _ => .nil, by simp⟩, by simp, fun level n => ?_⟩
    simp [DeletedAtEnd]
  | append_singleton edits edit ih =>
    rw [flatMap_append, nodup_append, flatMap_singleton] at once
    obtain ⟨once, nodup, apart⟩ := once
    obtain ⟨base, listed, added, deleted⟩ := ih once
    rw [foldl_concat]
    have fresh : ∀ level, ∀ f ∈ (edits.foldl apply { base := v }).added level,
        (level, f.number) ∉ edit.adds := by
      intro level f mem new
      obtain ⟨e, inEdits, isNew⟩ := (added level f).mp mem
      have old : (level, f.number) ∈ edits.flatMap VersionEdit.adds :=
        mem_flatMap.mpr ⟨e, inEdits, mem_map.mpr ⟨_, isNew, rfl⟩⟩
      exact apart _ old _ new rfl
    obtain ⟨base', listed', added', deleted'⟩ := apply_adds listed nodup fresh
    refine ⟨base'.trans base, listed', fun level f => ?_, fun level n => ?_⟩
    · rw [added', added]
      simp [or_and_right, exists_or]
    · rw [deleted', deleted, deletedAtEnd_concat]

theorem added_nodup (once : (edits.flatMap VersionEdit.adds).Nodup) (level : Nat) :
    (edits.flatMap (·.added level)).Nodup := by
  have numbers : ((edits.flatMap (·.added level)).map fun f => (level, f.number)).Sublist
      (edits.flatMap VersionEdit.adds) := by
    clear once
    induction edits with
    | nil => exact .slnil
    | cons edit rest ih =>
      have here : ((edit.added level).map fun f => (level, f.number)).Sublist edit.adds := by
        have same : (edit.added level).map (fun f => (level, f.number)) =
            (edit.newFiles.filter (·.1 = level)).map fun a => (a.1, a.2.number) := by
          rw [VersionEdit.added, map_map]
          refine map_congr_left fun a mem => ?_
          have isLevel : a.1 = level := by simpa using (mem_filter.mp mem).2
          simp [isLevel]
        rw [same]
        exact filter_sublist.map _
      rw [flatMap_cons, flatMap_cons, map_append]
      exact here.append ih
  exact .of_map _ (once.sublist numbers)

/-- `SaveTo` after a sequence of edits: at each level the files of the base and those that were
added, without the deleted ones, each once and by smallest key and number. Where these do not
reach into each other the level is disjoint and in key order. -/
theorem saveTo_merges (v : Version K V) (edits : List (VersionEdit K V))
    (sorted : ∀ level, Ranked (v.files level)) (once : (edits.flatMap VersionEdit.adds).Nodup)
    (level : Nat) (bound : level < kNumLevels) :
    ∃ deleted : List Nat, (∀ n, n ∈ deleted ↔ DeletedAtEnd edits level n) ∧
      ((edits.foldl apply { base := v }).saveTo.files level).Perm
        ((v.files level ++ edits.flatMap (·.added level)).filter (·.number ∉ deleted)) ∧
      Ranked ((edits.foldl apply { base := v }).saveTo.files level) ∧
      (((v.files level ++ edits.flatMap (·.added level)).filter (·.number ∉ deleted)).Pairwise
        FileMetaData.Apart →
        SortedDisjoint ((edits.foldl apply { base := v }).saveTo.files level)) := by
  obtain ⟨base, listed, added, deleted⟩ := foldl_apply (v := v) once
  have addedOnce := added_nodup once level
  have isAdded : ((edits.foldl apply { base := v }).added level).Perm
      (edits.flatMap (·.added level)) := by
    refine (perm_ext_iff_of_nodup (listed.ordered level).nodup addedOnce).mpr fun f => ?_
    simp [added, VersionEdit.added]
  have merged := ((mergeFiles_perm (v.files level) _).trans (isAdded.append_left _)).filter
    (·.number ∉ (edits.foldl apply { base := v }).deleted level)
  have ranked := (((sorted level).mergeFiles (listed.ordered level).ranked).sublist
    (filter_sublist (p := (·.number ∉ (edits.foldl apply { base := v }).deleted level))))
  refine ⟨(edits.foldl apply { base := v }).deleted level, deleted level, ?_, ?_, fun apart => ?_⟩
  · rw [saveTo_files _ bound, base]
    exact merged
  · rw [saveTo_files _ bound, base]
    exact ranked
  · rw [saveTo_files _ bound, base]
    refine Ranked.smallestFirst ranked |>.sortedDisjoint ?_
    exact (merged.pairwise_iff fun apart => apart.symm).mpr apart

/-- A file of the base is deleted, and added again by a later edit along with another one. -/
theorem saveTo_merges_again : let edits : List (VersionEdit Nat Nat) :=
      [{ deletedFiles := [(0, 1)] }, { newFiles := sharedKeyFiles.map (0, ·) }]
    Ranked ((edits.foldl apply { base := sharedKeyVersion }).saveTo.files 0) ∧
      ¬ DeletedAtEnd edits 0 1 := by
  have sorted : ∀ level, Ranked (sharedKeyVersion.files level) := by
    intro level
    show Ranked (if level = 0 then sharedKeyFiles else [])
    split
    · rw [Ranked, sharedKeyFiles, pairwise_pair]
      exact (bySmallestKey_iff.mp (by decide)).le
    · exact .nil
  obtain ⟨deleted, isDeleted, -, ranked, -⟩ := saveTo_merges sharedKeyVersion
    [{ deletedFiles := [(0, 1)] }, { newFiles := sharedKeyFiles.map (0, ·) }] sorted (by decide) 0
    (by decide)
  refine ⟨ranked, ?_⟩
  rw [← nil_append [_, _], append_cons, deletedAtEnd_concat]
  rintro ⟨-, kept⟩
  exact kept (by decide)

end Builder

/-- The builder has collected the edits whose versions ended in `v`; `added` are the levels
and numbers that edits have ever added. -/
structure Builder.Accumulates (added : List (Nat × Nat)) (b : Builder K V) (v : Version K V) :
    Prop where
  base : b.base = .empty
  listed : b.Listed
  known : ∀ level, ∀ f ∈ b.added level, (level, f.number) ∈ added
  saved : ∀ level, v.files level = b.saveTo.files level

namespace Builder.Accumulates
variable {added : List (Nat × Nat)} {b : Builder K V} {v : Version K V}

theorem start : Accumulates [] ({ base := .empty } : Builder K V) .empty where
  base := rfl
  listed := ⟨fun _ => .nil, by simp⟩
  known := by simp
  saved level := by simp [saveTo, mergeFiles, empty]

theorem mergeFiles_nil (files : List (FileMetaData K V)) : mergeFiles [] files = files := by
  induction files with
  | nil => rfl
  | cons file rest ih => simp [mergeFiles, ih]

variable {level : Nat} {f : FileMetaData K V}

variable (acc : Accumulates added b v)
include acc

theorem files_eq (bound : level < kNumLevels) :
    v.files level = (b.added level).filter (·.number ∉ b.deleted level) := by
  rw [acc.saved, saveTo_files b bound, acc.base, empty, mergeFiles_nil]

theorem mem_files (bound : level < kNumLevels) :
    f ∈ v.files level ↔ f ∈ b.added level ∧ f.number ∉ b.deleted level := by
  rw [acc.files_eq bound, mem_filter, decide_eq_true_eq]

theorem ordered (level : Nat) : BySmallest (v.files level) := by
  by_cases bound : level < kNumLevels
  · rw [acc.files_eq bound]
    exact (acc.listed.ordered level).sublist filter_sublist
  · rw [v.shallow level (Nat.le_of_not_lt bound)]
    exact .nil

theorem mem_added (mem : f ∈ v.files level) : f ∈ b.added level :=
  ((acc.mem_files (Version.level_lt mem)).mp mem).1

theorem step {edit : VersionEdit K V} (nodup : edit.adds.Nodup)
    (fresh : ∀ a ∈ edit.adds, a ∉ added) :
    Accumulates (added ++ edit.adds) (b.apply edit) (v.logAndApply edit) := by
  obtain ⟨base, listed, mem, deleted⟩ := apply_adds acc.listed nodup fun level f old new =>
    fresh _ new (acc.known level f old)
  -- the builder of `LogAndApply`, which knows this edit only
  obtain ⟨base₁, listed₁, mem₁, deleted₁⟩ :=
    apply_adds (b := { base := v }) ⟨fun _ => .nil, by simp⟩ nodup (by simp)
  simp only [not_mem_nil, false_or] at mem₁ deleted₁
  refine ⟨base.trans acc.base, listed, fun level f inside => ?_, fun level => ?_⟩
  · rw [mem] at inside
    obtain old | new := inside
    · exact mem_append_left _ (acc.known level f old)
    · exact mem_append_right _ (mem_map.mpr ⟨_, new, rfl⟩)
  by_cases bound : level < kNumLevels
  case neg =>
    rw [shallow _ level (Nat.le_of_not_lt bound),
      shallow _ level (Nat.le_of_not_lt bound)]
  have old {f : FileMetaData K V} (mem : f ∈ b.added level) : (level, f.number) ∉ edit.adds :=
    fun new => fresh _ new (acc.known level f mem)
  rw [logAndApply, saveTo_files _ bound, saveTo_files _ bound, base₁, base, acc.base,
    empty, mergeFiles_nil]
  refine BySmallest.ext ?_ ((listed.ordered level).sublist filter_sublist) fun f => ?_
  · refine ((acc.ordered level).mergeFiles (listed₁.ordered level) ?_).sublist
      filter_sublist
    intro f inV g new same
    rw [mem₁] at new
    exact old (acc.mem_added inV) (mem_map.mpr ⟨_, new, by simp [same]⟩)
  · have here : (level, f) ∈ edit.newFiles → (level, f.number) ∈ edit.adds :=
      fun new => mem_map.mpr ⟨_, new, rfl⟩
    simp only [mem_filter, (mergeFiles_perm _ _).mem_iff, mem_append, mem₁, mem,
      deleted₁, deleted, acc.mem_files bound, decide_eq_true_eq]
    grind

end Builder.Accumulates
end TalusDB
