import TalusDB.DB.VersionEdit
import TalusDB.DB.Overlap

/-! What `LogAndApply` leaves at each level: the files that were not removed and those
that were added, in the order of their smallest keys. -/
namespace TalusDB
open List Function Builder
variable {K V : Type} [LinearOrder K]

variable {f g : FileMetaData K V} {files : List (FileMetaData K V)}

theorem le_of_not_bySmallestKey (not : ¬ bySmallestKey f g = true) : g.smallest ≤ f.smallest := by
  by_contra less
  exact not (decide_eq_true (.inl (not_le.mp less)))

theorem le_of_bySmallestKey (less : bySmallestKey f g = true) : f.smallest ≤ g.smallest := by
  obtain less | ⟨same, -⟩ := of_decide_eq_true less
  · exact less.le
  · exact same.le

/-- The files stand in the order of their smallest keys. -/
def SmallestFirst (files : List (FileMetaData K V)) : Prop :=
  files.Pairwise fun f g => f.smallest ≤ g.smallest

theorem SortedDisjoint.smallestFirst (sorted : SortedDisjoint files) : SmallestFirst files :=
  sorted.imp fun less => (FileMetaData.ordered _).trans less.le

/-- Neither file reaches into the other. -/
def FileMetaData.Apart (f g : FileMetaData K V) : Prop :=
  f.largest < g.smallest ∨ g.largest < f.smallest

theorem FileMetaData.Apart.symm (apart : f.Apart g) : g.Apart f :=
  Or.symm apart

theorem SortedDisjoint.apart (sorted : SortedDisjoint files) : files.Pairwise FileMetaData.Apart :=
  sorted.imp .inl

theorem SmallestFirst.sortedDisjoint
    (sorted : SmallestFirst files) (apart : files.Pairwise FileMetaData.Apart) :
    SortedDisjoint files := by
  refine (sorted.and apart).imp ?_
  rintro f g ⟨le, before | after⟩
  · exact before
  · exact absurd ((g.ordered.trans_lt after).trans_le le) (lt_irrefl _)

namespace Builder

variable {file : FileMetaData K V} {files base added : List (FileMetaData K V)}

theorem insertFile_perm (fresh : ∀ g ∈ files, g.number ≠ file.number) :
    (insertFile file files).Perm (file :: files) := by
  induction files with
  | nil => exact .refl _
  | cons g rest ih =>
    have different := fresh g mem_cons_self
    rw [insertFile]
    by_cases before : bySmallestKey file g = true
    · rw [if_pos before]
    · have after : bySmallestKey g file = true := by
        simp only [bySmallestKey, decide_eq_true_eq] at before ⊢
        obtain less | same := (not_lt.mp fun h => before (.inl h)).lt_or_eq
        · exact .inl less
        · have numbers : ¬ file.number < g.number := fun h => before (.inr ⟨same.symm, h⟩)
          exact .inr ⟨same, by omega⟩
      rw [if_neg before, if_pos after]
      exact (List.Perm.cons g (ih fun h m => fresh h (mem_cons_of_mem g m))).trans (.swap ..)

theorem mem_insertFile {g : FileMetaData K V}
    (mem : g ∈ insertFile file files) : g = file ∨ g ∈ files := by
  induction files with
  | nil => exact .inl (mem_singleton.mp mem)
  | cons x rest ih =>
    rw [insertFile] at mem
    split at mem
    · exact mem_cons.mp mem
    · split at mem
      · obtain rfl | mem := mem_cons.mp mem
        · exact .inr mem_cons_self
        · exact (ih mem).imp_right (mem_cons_of_mem x)
      · exact .inr mem

theorem insertFile_sorted (file : FileMetaData K V)
    (sorted : SmallestFirst files) : SmallestFirst (insertFile file files) := by
  induction files with
  | nil => exact pairwise_singleton _ _
  | cons g rest ih =>
    obtain ⟨first, sorted'⟩ := pairwise_cons.mp sorted
    rw [insertFile]
    split
    case isTrue before =>
      refine List.Pairwise.cons ?_ sorted
      intro h mem
      have low := le_of_bySmallestKey before
      obtain rfl | mem := mem_cons.mp mem
      · exact low
      · exact low.trans (first h mem)
    case isFalse before =>
      split
      · refine List.Pairwise.cons ?_ (ih sorted')
        intro h mem
        obtain rfl | mem := mem_insertFile mem
        · exact le_of_not_bySmallestKey before
        · exact first h mem
      · exact sorted

theorem mergeFiles_perm (base added : List (FileMetaData K V)) :
    (mergeFiles base added).Perm (base ++ added) := by
  induction added generalizing base with
  | nil => simp [mergeFiles]
  | cons file rest ih =>
    rw [mergeFiles]
    have tail := ih (base.dropWhile fun g => !bySmallestKey file g)
    have moved := ((tail.cons file).trans perm_middle.symm).append_left
      (base.takeWhile fun g => !bySmallestKey file g)
    rwa [← append_assoc, takeWhile_append_dropWhile] at moved

theorem mergeFiles_pairwise {R : FileMetaData K V → FileMetaData K V → Prop}
    (trans : ∀ {f g h}, R f g → R g h → R f h)
    (baseSorted : base.Pairwise R) (addedSorted : added.Pairwise R)
    (front : ∀ g ∈ base, ∀ file ∈ added, ¬ bySmallestKey file g = true → R g file)
    (back : ∀ g ∈ base, ∀ file ∈ added, bySmallestKey file g = true → R file g) :
    (mergeFiles base added).Pairwise R := by
  induction added generalizing base with
  | nil => simpa [mergeFiles] using baseSorted
  | cons file rest ih =>
    obtain ⟨first, restSorted⟩ := pairwise_cons.mp addedSorted
    have split := takeWhile_append_dropWhile (p := fun g => !bySmallestKey file g) (l := base)
    have parts := baseSorted
    rw [← split, pairwise_append] at parts
    obtain ⟨before, after, -⟩ := parts
    have dropped {g : FileMetaData K V}
        (mem : g ∈ base.dropWhile fun g => !bySmallestKey file g) : g ∈ base :=
      (dropWhile_sublist _).mem mem
    -- the base files in front of the added one, and those behind it
    have low : ∀ g ∈ base.takeWhile (fun g => !bySmallestKey file g), R g file := by
      intro g mem
      exact front g ((takeWhile_sublist _).mem mem) file mem_cons_self
        (by simpa using mem_takeWhile_imp mem)
    have high : ∀ g ∈ base.dropWhile (fun g => !bySmallestKey file g), R file g := by
      intro g mem
      cases drop : base.dropWhile (fun g => !bySmallestKey file g) with
      | nil => simp [drop] at mem
      | cons d tail =>
        have stops := head_dropWhile_not (fun g => !bySmallestKey file g)
          (l := base) (by simp [drop])
        have least : R file d :=
          back d (dropped (by simp [drop])) file mem_cons_self (by simpa [drop] using stops)
        rw [drop] at mem after
        obtain rfl | mem := mem_cons.mp mem
        · exact least
        · exact trans least (rel_of_pairwise_cons after mem)
    have behind : ∀ g ∈ mergeFiles (base.dropWhile fun g => !bySmallestKey file g) rest,
        R file g := by
      intro g mem
      obtain mem | mem := mem_append.mp ((mergeFiles_perm _ _).mem_iff.mp mem)
      · exact high g mem
      · exact first g mem
    have rest' := ih after restSorted
      (fun g mem f later => front g (dropped mem) f (mem_cons_of_mem file later))
      (fun g mem f later => back g (dropped mem) f (mem_cons_of_mem file later))
    rw [mergeFiles, pairwise_append]
    refine ⟨before, .cons behind rest', ?_⟩
    intro f inFront g mem
    obtain rfl | mem := mem_cons.mp mem
    · exact low f inFront
    · exact trans (low f inFront) (behind g mem)

theorem mergeFiles_sorted (baseSorted : SmallestFirst base)
    (addedSorted : SmallestFirst added) : SmallestFirst (mergeFiles base added) :=
  mergeFiles_pairwise (R := fun f g => f.smallest ≤ g.smallest) le_trans baseSorted addedSorted
    (fun _ _ _ _ => le_of_not_bySmallestKey) fun _ _ _ _ => le_of_bySmallestKey

theorem deleteFile_spec (b : Builder K V) (deletions : List (Nat × Nat)) :
    (deletions.foldl deleteFile b).base = b.base ∧ (deletions.foldl deleteFile b).added = b.added ∧
      ∀ level n, n ∈ (deletions.foldl deleteFile b).deleted level ↔
        (level, n) ∈ deletions ∨ n ∈ b.deleted level := by
  induction deletions generalizing b with
  | nil => exact ⟨rfl, rfl, fun level n => by simp⟩
  | cons d rest ih =>
    obtain ⟨base, added, deleted⟩ := ih (b.deleteFile d)
    refine ⟨base, added, fun level n => ?_⟩
    rw [foldl_cons, deleted, mem_cons, Prod.ext_iff]
    by_cases here : level = d.1
    · subst here
      simp only [deleteFile, update_self, mem_cons, true_and]
      tauto
    · simp only [deleteFile, update_of_ne here, here, false_and, false_or]

end Builder

def VersionEdit.added (edit : VersionEdit K V) (level : Nat) : List (FileMetaData K V) :=
  (edit.newFiles.filter (·.1 = level)).map (·.2)

/-- The added files have their own numbers, and none of them is removed where it is
added. -/
structure VersionEdit.Proper (edit : VersionEdit K V) : Prop where
  nodup : (edit.newFiles.map (·.2.number)).Nodup
  kept : ∀ addition ∈ edit.newFiles, (addition.1, addition.2.number) ∉ edit.deletedFiles

namespace Builder

theorem newFile_spec (b : Builder K V) (additions : List (Nat × FileMetaData K V))
    (nodup : (additions.map (·.2.number)).Nodup)
    (fresh : ∀ level, ∀ g ∈ b.added level, ∀ a ∈ additions, g.number ≠ a.2.number)
    (kept : ∀ a ∈ additions, a.2.number ∉ b.deleted a.1) :
    (additions.foldl newFile b).base = b.base ∧
      (∀ level n, n ∈ (additions.foldl newFile b).deleted level ↔ n ∈ b.deleted level) ∧
      ∀ level, ((additions.foldl newFile b).added level).Perm
        (b.added level ++ (additions.filter (·.1 = level)).map (·.2)) := by
  induction additions generalizing b with
  | nil => simp
  | cons a rest ih =>
    rw [map_cons, nodup_cons] at nodup
    have new := kept a mem_cons_self
    have deletes (level n : Nat) : n ∈ (b.newFile a).deleted level ↔ n ∈ b.deleted level := by
      by_cases here : level = a.1
      · subst here
        simp only [newFile, update_self, mem_filter, decide_eq_true_eq]
        exact and_iff_left_of_imp fun mem same => new (same ▸ mem)
      · simp only [newFile, update_of_ne here]
    have adds (level : Nat) : ((b.newFile a).added level).Perm
        (b.added level ++ ([a].filter (·.1 = level)).map (·.2)) := by
      by_cases here : level = a.1
      · subst here
        simp only [newFile, update_self, filter_cons, decide_true, if_true]
        exact (insertFile_perm fun g mem => fresh a.1 g mem a mem_cons_self).trans
          (perm_append_singleton ..).symm
      · simp [newFile, update_of_ne here, Ne.symm here]
    have fresh' (level : Nat) : ∀ g ∈ (b.newFile a).added level, ∀ x ∈ rest,
        g.number ≠ x.2.number := by
      intro g mem x later
      obtain old | here := mem_append.mp ((adds level).mem_iff.mp mem)
      · exact fresh level g old x (mem_cons_of_mem a later)
      · obtain ⟨y, atLevel, rfl⟩ := mem_map.mp here
        rw [mem_singleton.mp (mem_filter.mp atLevel).1]
        intro same
        exact nodup.1 (mem_map.mpr ⟨x, later, same.symm⟩)
    obtain ⟨base, deleted, added⟩ := ih (b.newFile a) nodup.2 fresh' fun x later removed =>
      kept x (mem_cons_of_mem a later) ((deletes x.1 x.2.number).mp removed)
    refine ⟨base, fun level n => (deleted level n).trans (deletes level n), fun level => ?_⟩
    have all := (added level).trans ((adds level).append_right _)
    rwa [append_assoc, ← map_append, ← filter_append] at all

theorem newFile_sorted (b : Builder K V) (additions : List (Nat × FileMetaData K V))
    (sorted : ∀ level, SmallestFirst (b.added level)) (level : Nat) :
    SmallestFirst ((additions.foldl newFile b).added level) := by
  induction additions generalizing b with
  | nil => exact sorted level
  | cons a rest ih =>
    apply ih
    intro level
    by_cases here : level = a.1
    · subst here
      simp only [newFile, update_self]
      exact insertFile_sorted a.2 (sorted a.1)
    · simpa only [newFile, update_of_ne here] using sorted level

end Builder

namespace VersionEdit.Proper
variable {edit : VersionEdit K V}

theorem applied (proper : edit.Proper) (v : Version K V) :
    let b := ({ base := v } : Builder K V).apply edit
    b.base = v ∧ (∀ level n, n ∈ b.deleted level ↔ (level, n) ∈ edit.deletedFiles) ∧
      ∀ level, (b.added level).Perm (edit.added level) := by
  obtain ⟨base, added, deleted⟩ :=
    deleteFile_spec ({ base := v } : Builder K V) edit.deletedFiles
  simp only [not_mem_nil, or_false] at deleted
  obtain ⟨base', deleted', added'⟩ := newFile_spec
    (edit.deletedFiles.foldl deleteFile { base := v }) edit.newFiles proper.nodup
    (by simp [added]) fun a mem => (deleted a.1 a.2.number).not.mpr (proper.kept a mem)
  refine ⟨base'.trans base, fun level n => (deleted' level n).trans (deleted level n), ?_⟩
  intro level
  simpa only [added, nil_append, apply, VersionEdit.added] using added' level

variable {level : Nat}

theorem files_perm (proper : edit.Proper) (v : Version K V) (bound : level < kNumLevels) :
    ((v.logAndApply edit).files level).Perm
      ((v.files level).filter (fun f => (level, f.number) ∉ edit.deletedFiles) ++
        edit.added level) := by
  obtain ⟨base, deleted, added⟩ := proper.applied v
  have merged := ((mergeFiles_perm (v.files level) _).trans
    ((added level).append_left _)).filter
    fun f => decide (f.number ∉ (({ base := v } : Builder K V).apply edit).deleted level)
  have keep : (edit.added level).filter (fun f => decide ((level, f.number) ∉ edit.deletedFiles)) =
      edit.added level := by
    rw [filter_eq_self]
    intro f mem
    obtain ⟨a, atLevel, rfl⟩ := mem_map.mp mem
    obtain ⟨mem, here⟩ := mem_filter.mp atLevel
    rw [← of_decide_eq_true here]
    exact decide_eq_true (proper.kept a mem)
  rw [Version.logAndApply, saveTo]
  simp only [if_pos bound, deleted, base, filter_append, keep] at merged ⊢
  exact merged

theorem mem_files (proper : edit.Proper) (v : Version K V)
    (bound : level < kNumLevels) {f : FileMetaData K V} :
    f ∈ (v.logAndApply edit).files level ↔
      f ∈ v.files level ∧ (level, f.number) ∉ edit.deletedFiles ∨ (level, f) ∈ edit.newFiles := by
  rw [(proper.files_perm v bound).mem_iff, mem_append, mem_filter, decide_eq_true_eq,
    added]
  simp

theorem sortedDisjoint (proper : edit.Proper) {v : Version K V}
    (disjoint : SortedDisjoint (v.files level))
    (addedApart : (edit.added level).Pairwise FileMetaData.Apart)
    (apart : ∀ f ∈ v.files level, (level, f.number) ∉ edit.deletedFiles →
      ∀ g ∈ edit.added level, f.Apart g) :
    SortedDisjoint ((v.logAndApply edit).files level) := by
  by_cases bound : level < kNumLevels
  · apply SmallestFirst.sortedDisjoint
    · obtain ⟨base, -, -⟩ := proper.applied v
      rw [Version.logAndApply, saveTo]
      simp only [if_pos bound, base]
      refine (mergeFiles_sorted disjoint.smallestFirst ?_).sublist filter_sublist
      apply newFile_sorted
      intro level
      rw [(deleteFile_spec _ _).2.1]
      exact .nil
    · rw [(proper.files_perm v bound).pairwise_iff FileMetaData.Apart.symm, pairwise_append]
      refine ⟨disjoint.apart.sublist filter_sublist, addedApart, ?_⟩
      intro f kept g new
      obtain ⟨mem, stays⟩ := mem_filter.mp kept
      exact apart f mem (of_decide_eq_true stays) g new
  · rw [(v.logAndApply edit).shallow level (Nat.le_of_not_lt bound)]
    exact .nil

end VersionEdit.Proper
end TalusDB
