import TalusDB.DB.CompactionWork
import TalusDB.DB.Inputs
import TalusDB.DB.Recency

/-! The input of a compaction's loop: the entries of all input files, in strictly
increasing order of their keys. -/
namespace TalusDB
open List Option
variable {K V : Type} [LinearOrder K]

variable {children rest : List (List (Entry K V))} {e : Entry K V}

theorem findSmallest_none (none : findSmallest children = none) : children.flatten = [] := by
  fun_induction findSmallest children with
  | case1 => rfl
  | case2 rest ih => exact ih (map_eq_none_iff.mp none)
  | case3 => cases none
  | case4 => cases none
  | case5 => cases none

theorem findSmallest_perm (found : findSmallest children = some (e, rest)) :
    children.flatten.Perm (e :: rest.flatten) := by
  fun_induction findSmallest children generalizing e rest with
  | case1 => cases found
  | case2 others ih =>
    obtain ⟨⟨f, others'⟩, inOthers, same⟩ := map_eq_some_iff.mp found
    cases same
    have perm := ih inOthers
    exact perm
  | case3 => cases found; exact .refl _
  | case4 first child others f others' inOthers less ih =>
    cases found
    exact ((ih inOthers).append_left (first :: child)).trans perm_middle
  | case5 => cases found; exact .refl _

theorem findSmallest_least (sorted : ∀ child ∈ children, child.Pairwise fun a b => a.key ≤ b.key)
    (found : findSmallest children = some (e, rest)) :
    (∀ child ∈ rest, child.Pairwise fun a b => a.key ≤ b.key) ∧
      ∀ x ∈ rest.flatten, e.key ≤ x.key := by
  fun_induction findSmallest children generalizing e rest with
  | case1 => cases found
  | case2 others ih =>
    obtain ⟨⟨f, others'⟩, inOthers, same⟩ := map_eq_some_iff.mp found
    cases same
    obtain ⟨kept, least⟩ := ih (forall_mem_cons.mp sorted).2 inOthers
    exact ⟨forall_mem_cons.mpr ⟨.nil, kept⟩, least⟩
  | case3 first child others nothing =>
    cases found
    obtain ⟨firstSorted, sorted⟩ := forall_mem_cons.mp sorted
    refine ⟨forall_mem_cons.mpr ⟨firstSorted.of_cons, sorted⟩, fun x mem => ?_⟩
    rw [flatten_cons, findSmallest_none nothing, append_nil] at mem
    exact rel_of_pairwise_cons firstSorted mem
  | case4 first child others f others' inOthers less ih =>
    cases found
    obtain ⟨firstSorted, sorted⟩ := forall_mem_cons.mp sorted
    obtain ⟨kept, least⟩ := ih sorted inOthers
    refine ⟨forall_mem_cons.mpr ⟨firstSorted, kept⟩, fun x mem => ?_⟩
    rw [flatten_cons, mem_append, mem_cons] at mem
    obtain (rfl | mem) | mem := mem
    · exact less.le
    · exact less.le.trans (rel_of_pairwise_cons firstSorted mem)
    · exact least x mem
  | case5 first child others f others' inOthers less ih =>
    cases found
    obtain ⟨firstSorted, sorted⟩ := forall_mem_cons.mp sorted
    refine ⟨forall_mem_cons.mpr ⟨firstSorted.of_cons, sorted⟩, fun x mem => ?_⟩
    rw [flatten_cons, mem_append] at mem
    obtain mem | mem := mem
    · exact rel_of_pairwise_cons firstSorted mem
    · obtain rfl | mem := mem_cons.mp ((findSmallest_perm inOthers).subset mem)
      · exact not_lt.mp less
      · exact (not_lt.mp less).trans ((ih sorted inOthers).2 x mem)

theorem mergeLoop_perm {fuel : Nat} (enough : children.flatten.length ≤ fuel) :
    (mergeLoop fuel children).Perm children.flatten := by
  induction fuel generalizing children with
  | zero => exact .of_eq (length_eq_zero_iff.mp (Nat.le_zero.mp enough)).symm
  | succ fuel ih =>
    rw [mergeLoop]
    split
    case h_1 nothing => exact .of_eq (findSmallest_none nothing).symm
    case h_2 e rest found =>
      have perm := findSmallest_perm found
      rw [perm.length_eq, length_cons] at enough
      exact ((ih (Nat.le_of_succ_le_succ enough)).cons e).trans perm.symm

theorem mergeEntries_perm (children : List (List (Entry K V))) :
    (mergeEntries children).Perm children.flatten :=
  mergeLoop_perm le_rfl

theorem mergeEntries_sorted (sorted : ∀ child ∈ children, child.Pairwise fun a b => a.key ≤ b.key) :
    (mergeEntries children).Pairwise fun a b => a.key ≤ b.key := by
  rw [mergeEntries]
  generalize enough : children.flatten.length = fuel
  replace enough := enough.le
  induction fuel generalizing children with
  | zero => exact .nil
  | succ fuel ih =>
    rw [mergeLoop]
    split
    case h_1 => exact .nil
    case h_2 e rest found =>
      obtain ⟨kept, least⟩ := findSmallest_least sorted found
      rw [(findSmallest_perm found).length_eq, length_cons] at enough
      have bound := Nat.le_of_succ_le_succ enough
      exact pairwise_cons.mpr
        ⟨fun x mem => least x ((mergeLoop_perm bound).subset mem), ih kept bound⟩

theorem SortedDisjoint.flatMap_sorted {files : List (FileMetaData K V)}
    (sorted : SortedDisjoint files) :
    (files.flatMap (·.entries)).Pairwise fun a b => a.key < b.key := by
  refine pairwise_flatMap.mpr ⟨fun f _ => f.sorted, sorted.imp ?_⟩
  intro f g less a inF b inG
  exact ((f.bounded a inF).2.trans_lt less).trans_le (g.bounded b inG).1

theorem makeInput_perm (c : Compaction K V) :
    (makeInput c).Perm (c.allInputs.flatMap (·.entries)) := by
  refine (mergeEntries_perm _).trans (List.Perm.of_eq ?_)
  rw [Compaction.allInputs, flatMap_append, flatten_append]
  split <;> simp [List.flatMap]

theorem mem_makeInput {c : Compaction K V} :
    e ∈ makeInput c ↔ ∃ f ∈ c.allInputs, e ∈ f.entries := by
  rw [(makeInput_perm c).mem_iff, mem_flatMap]

section
variable {v : Version K V} {c : Compaction K V} {next : Nat}

theorem makeInput_sorted (selected : Selected v c.level c.inputs) :
    (makeInput c).Pairwise fun a b => a.key ≤ b.key := by
  apply mergeEntries_sorted
  have second : (c.inputs.2.flatMap (·.entries)).Pairwise fun a b => a.key ≤ b.key :=
    selected.sorted.flatMap_sorted.imp le_of_lt
  intro child mem
  rw [mem_append, mem_singleton] at mem
  split at mem
  case isTrue zero =>
    obtain mem | rfl := mem
    · obtain ⟨f, -, rfl⟩ := mem_map.mp mem
      exact f.sorted.imp le_of_lt
    · exact second
  case isFalse deep =>
    rw [mem_singleton] at mem
    obtain rfl | rfl := mem
    · exact (selected.chosen.sorted (Nat.pos_of_ne_zero deep)).flatMap_sorted.imp le_of_lt
    · exact second

variable (recent : v.Recent) (numbered : v.Numbered next) (selected : Selected v c.level c.inputs)
include recent numbered selected

theorem allInputs_distinct :
    (c.allInputs.flatMap (·.entries)).Pairwise fun a b => a.key ≠ b.key := by
  have second : (c.inputs.2.flatMap (·.entries)).Pairwise fun a b => a.key ≠ b.key :=
    selected.sorted.flatMap_sorted.imp ne_of_lt
  rw [Compaction.allInputs, flatMap_append, pairwise_append]
  refine ⟨?_, second, ?_⟩
  · obtain zero | deep := Nat.eq_zero_or_pos c.level
    · -- level 0: files are told apart by their numbers
      obtain ⟨sub, -⟩ := selected.chosen.shallow zero
      have nodup : c.inputs.1.Nodup := sub.nodup (numbered.nodup 0)
      refine pairwise_flatMap.mpr ⟨fun f _ => f.sorted.imp ne_of_lt, nodup.imp_of_mem ?_⟩
      intro f g inF inG different a aIn b bIn
      have numbers : f.number ≠ g.number := fun same => different
        (numbered.distinct 0 f (sub.subset inF) 0 g (sub.subset inG) same).2
      obtain less | more := Nat.lt_or_gt_of_ne numbers
      · exact (key_ne_of_newer
          (recent.zero g (sub.subset inG) f (sub.subset inF) less) b bIn a aIn).symm
      · exact key_ne_of_newer (recent.zero f (sub.subset inF) g (sub.subset inG) more) a aIn b bIn
    · exact (selected.chosen.sorted deep).flatMap_sorted.imp ne_of_lt
  · intro a inA b inB
    obtain ⟨f, inF, aIn⟩ := mem_flatMap.mp inA
    obtain ⟨g, inG, bIn⟩ := mem_flatMap.mp inB
    exact key_ne_of_newer (recent.levels _ _ (Nat.lt_succ_self _) f
      (selected.chosen.subset f inF) g (selected.subset g inG)) a aIn b bIn

theorem makeInput_strict : (makeInput c).Pairwise fun a b => a.key < b.key := by
  have distinct := (makeInput_perm c).pairwise_iff (R := fun a b => a.key ≠ b.key) (fun h => h.symm)
    |>.mpr (allInputs_distinct recent numbered selected)
  exact ((makeInput_sorted selected).and distinct).imp fun ⟨le, ne⟩ => lt_of_le_of_ne le ne

end
end TalusDB
