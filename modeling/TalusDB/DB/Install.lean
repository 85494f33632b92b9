import TalusDB.DB.Outputs

/-! The version that the results of a compaction are installed in, and where its
inputs stand among the other files in age. -/
namespace TalusDB
open List Function Compaction CompactionState
variable {K V : Type} [LinearOrder K]

def Compaction.removed (c : Compaction K V) : List (Nat × Nat) :=
  c.inputs.1.map (c.level, ·.number) ++ c.inputs.2.map (c.level + 1, ·.number)

theorem addInputDeletions_deleted (c : Compaction K V) (edit : VersionEdit K V) :
    (c.addInputDeletions edit).deletedFiles = edit.deletedFiles ++ c.removed ∧
      (c.addInputDeletions edit).newFiles = edit.newFiles := by
  have removes (level : Nat) (files : List (FileMetaData K V)) (edit : VersionEdit K V) :
      (files.foldl (fun edit f => edit.removeFile level f.number) edit).deletedFiles =
          edit.deletedFiles ++ files.map (level, ·.number) ∧
        (files.foldl (fun edit f => edit.removeFile level f.number) edit).newFiles =
          edit.newFiles := by
    induction files generalizing edit with
    | nil => simp
    | cons f rest ih =>
      rw [foldl_cons, (ih _).1, (ih _).2]
      simp [VersionEdit.removeFile]
  simp [addInputDeletions, removed, removes]

/-- The edit puts the outputs in the place of the compaction's inputs. -/
structure Replaces (c : Compaction K V) (outputs : List (FileMetaData K V))
    (edit : VersionEdit K V) : Prop where
  deleted : edit.deletedFiles = c.removed
  new : edit.newFiles = outputs.map (c.level + 1, ·)

theorem installEdit_replaces (c : CompactionState K V) :
    Replaces c.compaction c.outputs c.installEdit := by
  have adds (level : Nat) (files : List (FileMetaData K V)) (edit : VersionEdit K V) :
      (files.foldl (fun edit f => edit.addFile level f) edit).deletedFiles = edit.deletedFiles ∧
        (files.foldl (fun edit f => edit.addFile level f) edit).newFiles =
          edit.newFiles ++ files.map (level, ·) := by
    induction files generalizing edit with
    | nil => simp
    | cons f rest ih =>
      rw [foldl_cons, (ih _).1, (ih _).2]
      simp [VersionEdit.addFile]
  constructor <;> simp [installEdit, adds, addInputDeletions_deleted]

/-- The file is an input at this level. -/
def Compaction.IsInput (c : Compaction K V) (level : Nat) (f : FileMetaData K V) : Prop :=
  level = c.level ∧ f ∈ c.inputs.1 ∨ level = c.level + 1 ∧ f ∈ c.inputs.2

namespace Compaction.IsInput
variable {c : Compaction K V} {level : Nat} {f : FileMetaData K V}

theorem mem_allInputs (input : c.IsInput level f) : f ∈ c.allInputs :=
  mem_append.mpr (input.imp And.right And.right)

theorem level_le (input : c.IsInput level f) : level ≤ c.level + 1 := by
  obtain ⟨rfl, -⟩ | ⟨rfl, -⟩ := input <;> omega

end Compaction.IsInput

variable {c : Compaction K V} {v : Version K V} {options : Options K V}

theorem exists_isInput {f : FileMetaData K V} (mem : f ∈ c.allInputs) :
    ∃ level, c.IsInput level f := by
  obtain mem | mem := mem_append.mp mem
  · exact ⟨c.level, .inl ⟨rfl, mem⟩⟩
  · exact ⟨c.level + 1, .inr ⟨rfl, mem⟩⟩

/-- The inputs stand in the version. -/
structure Compaction.Present (c : Compaction K V) (v : Version K V) : Prop where
  first : ∀ f ∈ c.inputs.1, f ∈ v.files c.level
  second : ∀ f ∈ c.inputs.2, f ∈ v.files (c.level + 1)

theorem Selected.present (selected : Selected v c.level c.inputs) : c.Present v :=
  ⟨selected.chosen.subset, selected.subset⟩

theorem getOverlappingInputs_subset (v : Version K V) (level : Nat)
    (begin finish : Option (InternalKey K)) :
    ∀ f ∈ v.getOverlappingInputs level begin finish, f ∈ v.files level := by
  cases level with
  | zero =>
    obtain ⟨closure⟩ := getOverlappingInputs_closure v begin finish
    rw [closure.inputs_eq]
    exact fun f mem => mem_of_mem_filter mem
  | succ level =>
    rw [getOverlappingInputs_sorted v level.succ_pos]
    exact fun f mem => mem_of_mem_filter mem

theorem setupOtherInputs_present {level : Nat} {files : List (FileMetaData K V)}
    (subset : ∀ f ∈ files, f ∈ v.files level)
    (setup : setupOtherInputs options v level files = some c) : c.Present v := by
  have second (range : InternalKey K × InternalKey K) :
      ∀ f ∈ secondInputs v level range, f ∈ v.files (level + 1) :=
    addBoundaryInputs_subset (getOverlappingInputs_subset v _ _ _)
  have first := addBoundaryInputs_subset subset
  obtain ⟨rfl, -, range, all, -, -, plain | expanded⟩ := setupOtherInputs_spec setup
  · constructor
    · rw [plain]
      exact first
    · rw [plain]
      exact second range
  · obtain ⟨range', -, first', second'⟩ := expandInputs_spec expanded
    constructor
    · rw [first']
      exact addBoundaryInputs_subset (getOverlappingInputs_subset v _ _ _)
    · rw [second']
      exact second range'

theorem Compaction.Produced.present (produced : c.Produced options v) : c.Present v := by
  cases produced with
  | automatic compactPointer fileToCompact wanted picked =>
    obtain ⟨level, file, -, mem, setup⟩ := pickCompaction_start wanted picked
    refine setupOtherInputs_present (fun f inside => ?_) setup
    rw [startInputs] at inside
    split at inside
    case isTrue zero => exact zero ▸ getOverlappingInputs_subset v 0 _ _ f inside
    case isFalse => exact mem_singleton.mp inside ▸ mem
  | manual level begin finish bound picked =>
    rw [compactRange] at picked
    obtain ⟨-, picked⟩ := Option.ite_none_left_eq_some.mp picked
    refine setupOtherInputs_present (fun f inside => ?_) picked
    have all := getOverlappingInputs_subset v level begin finish
    split at inside
    · obtain ⟨rest, split, -⟩ := limitInputs_append (maxFileSizeForLevel options level) 0
        (v.getOverlappingInputs level begin finish)
      exact all f (split ▸ mem_append_left _ inside)
    · exact all f inside

namespace Compaction.Present
variable {c : Compaction K V} {v : Version K V} {next level : Nat} {f : FileMetaData K V}

theorem mem_files (present : c.Present v) (input : c.IsInput level f) : f ∈ v.files level := by
  obtain ⟨rfl, mem⟩ | ⟨rfl, mem⟩ := input
  · exact present.first f mem
  · exact present.second f mem

theorem removed_iff (present : c.Present v) (numbered : v.Numbered next) (mem : f ∈ v.files level) :
    (level, f.number) ∈ c.removed ↔ c.IsInput level f := by
  simp only [removed, mem_append, mem_map, Prod.mk.injEq, Compaction.IsInput]
  constructor
  · rintro (⟨g, inputs, rfl, same⟩ | ⟨g, inputs, rfl, same⟩)
    · obtain ⟨-, rfl⟩ := numbered.distinct _ g (present.first g inputs) _ f mem same
      exact .inl ⟨rfl, inputs⟩
    · obtain ⟨-, rfl⟩ := numbered.distinct _ g (present.second g inputs) _ f mem same
      exact .inr ⟨rfl, inputs⟩
  · rintro (⟨rfl, inputs⟩ | ⟨rfl, inputs⟩)
    · exact .inl ⟨f, inputs, rfl, rfl⟩
    · exact .inr ⟨f, inputs, rfl, rfl⟩

end Compaction.Present

namespace Replaces
variable {v : Version K V} {c : Compaction K V} {outputs : List (FileMetaData K V)}
  {edit : VersionEdit K V} {next : Nat}

theorem proper (replaces : Replaces c outputs edit) (numbers : (outputs.map (·.number)).Nodup)
    (fresh : ∀ f ∈ outputs, ∀ g ∈ c.inputs.2, g.number ≠ f.number) : edit.Proper := by
  obtain ⟨deleted, new⟩ := replaces
  constructor
  · rw [new, map_map]
    exact numbers
  · rw [deleted, new]
    intro addition mem
    obtain ⟨f, output, rfl⟩ := mem_map.mp mem
    simp only [removed, mem_append, mem_map, Prod.mk.injEq]
    rintro (⟨g, -, same, -⟩ | ⟨g, input, -, same⟩)
    · omega
    · exact fresh f output g input same

theorem mem_files (replaces : Replaces c outputs edit) (proper : edit.Proper)
    (present : c.Present v) (numbered : v.Numbered next) (bound : c.level + 1 < kNumLevels)
    {level : Nat} {f : FileMetaData K V} :
    f ∈ (v.logAndApply edit).files level ↔
      f ∈ v.files level ∧ ¬ c.IsInput level f ∨ level = c.level + 1 ∧ f ∈ outputs := by
  obtain ⟨deleted, new⟩ := replaces
  by_cases deep : level < kNumLevels
  · rw [proper.mem_files v deep, deleted, new]
    refine or_congr (and_congr_right fun mem => not_congr (present.removed_iff numbered mem)) ?_
    simp [and_comm, eq_comm]
  · rw [(v.logAndApply _).shallow level (Nat.le_of_not_lt deep),
      v.shallow level (Nat.le_of_not_lt deep)]
    simp
    omega

end Replaces

variable {f g : FileMetaData K V} {files : List (FileMetaData K V)}

theorem userKey_lt_of_files {a b : Entry K V} (inF : a ∈ f.entries)
    (inG : b ∈ g.entries) (less : f.largest.userKey < g.smallest.userKey) :
    a.userKey < b.userKey :=
  (f.meets_entry inF).1.trans_lt (less.trans_le (g.meets_entry inG).2)

theorem Outside.newer (outside : Outside files g) (mem : f ∈ files)
    (unique : UniqueEntries (g.entries ++ f.entries)) : NewerEntries g.entries f.entries := by
  obtain before | after := outside
  · apply newer_of_lt unique
    intro a inG b inF
    exact ((g.bounded a inG).2.trans_lt (before f mem)).trans_le (f.bounded b inF).1
  · apply newer_of_users
    intro a inG b inF
    exact (userKey_lt_of_files inF inG (after f mem)).ne'

theorem UserOutside.newer
    (outside : UserOutside files g) (mem : f ∈ files) : NewerEntries g.entries f.entries := by
  apply newer_of_users
  intro a inG b inF
  obtain before | after := outside
  · exact (userKey_lt_of_files inG inF (before f mem)).ne
  · exact (userKey_lt_of_files inF inG (after f mem)).ne'

theorem Selected.above_newer {v : Version K V} {c : Compaction K V}
    (selected : Selected v c.level c.inputs) (recent : v.Recent)
    (unique : UniqueEntries v.entries) {level : Nat} (shallow : level ≤ c.level + 1)
    (mem : g ∈ v.files level) (other : ¬ c.IsInput level g) (input : f ∈ c.allInputs) :
    NewerEntries g.entries f.entries := by
  obtain ⟨level', isInput⟩ := exists_isInput input
  have inLevel := selected.present.mem_files isInput
  have together := Version.unique_files unique mem inLevel
  by_cases above : level < level'
  · exact recent.levels level level' above g mem f inLevel
  obtain ⟨rfl, first⟩ | ⟨rfl, second⟩ := isInput
  · -- `f` is an input of the upper level, and `g` lies on that level or below it
    obtain rfl | below := Nat.eq_or_lt_of_le (Nat.le_of_not_lt above)
    · have out : g ∉ c.inputs.1 := fun mem => other (.inl ⟨rfl, mem⟩)
      obtain zero | deep := Nat.eq_zero_or_pos c.level
      · exact ((selected.chosen.shallow zero).2 g (zero ▸ mem) out).newer first
      · exact (selected.chosen.outside g mem out).newer first together
    · have level_eq : level = c.level + 1 := by omega
      subst level_eq
      exact (selected.outside g mem fun mem => other (.inr ⟨rfl, mem⟩)).newer input together
  · have level_eq : level = c.level + 1 := by omega
    subst level_eq
    exact (selected.outside g mem fun mem => other (.inr ⟨rfl, mem⟩)).newer input together

/-- Each entry of the outputs is one of an input. -/
def FromInputs (c : Compaction K V) (outputs : List (FileMetaData K V)) : Prop :=
  ∀ f ∈ outputs, ∀ e ∈ f.entries, ∃ g ∈ c.allInputs, e ∈ g.entries

namespace Replaces
variable {v : Version K V} {c : Compaction K V} {outputs : List (FileMetaData K V)}
  {edit : VersionEdit K V} {next : Nat}

variable (replaces : Replaces c outputs edit) (proper : edit.Proper) (present : c.Present v)
include replaces proper present

theorem recent (numbered : v.Numbered next) (bound : c.level + 1 < kNumLevels)
    (fromInputs : FromInputs c outputs) (old : v.Recent)
    (above : ∀ level ≤ c.level + 1, ∀ g ∈ v.files level, ¬ c.IsInput level g →
      ∀ f ∈ c.allInputs, NewerEntries g.entries f.entries) :
    (v.logAndApply edit).Recent := by
  have mem {level : Nat} {f : FileMetaData K V}
      (inLevel : f ∈ (v.logAndApply edit).files level) :
      f ∈ v.files level ∧ ¬ c.IsInput level f ∨ level = c.level + 1 ∧ f ∈ outputs :=
    (replaces.mem_files proper present numbered bound).mp inLevel
  constructor
  · intro f inF g inG less
    obtain ⟨oldF, -⟩ | ⟨level, -⟩ := mem inF
    · obtain ⟨oldG, -⟩ | ⟨level, -⟩ := mem inG
      · exact old.zero f oldF g oldG less
      · omega
    · omega
  · intro i j less f inF g inG a aIn b bIn
    obtain ⟨oldF, otherF⟩ | ⟨rfl, outF⟩ := mem inF
    · obtain ⟨oldG, -⟩ | ⟨rfl, outG⟩ := mem inG
      · exact old.levels i j less f oldF g oldG a aIn b bIn
      · obtain ⟨x, input, inX⟩ := fromInputs g outG b bIn
        exact above i (Nat.le_of_lt less) f oldF otherF x input a aIn b inX
    · obtain ⟨x, input, inX⟩ := fromInputs f outF a aIn
      obtain ⟨level, isInput⟩ := exists_isInput input
      have le := isInput.level_le
      obtain ⟨oldG, -⟩ | ⟨rfl, -⟩ := mem inG
      · exact old.levels level j (by omega) x (present.mem_files isInput) g oldG a inX b bIn
      · omega

theorem numbered (old : v.Numbered next) {next' : Nat} (more : next ≤ next')
    (below : ∀ f ∈ outputs, f.number < next')
    (fresh : ∀ f ∈ outputs, ∀ level, ∀ g ∈ v.files level, ¬ c.IsInput level g →
      g.number ≠ f.number) : (v.logAndApply edit).Numbered next' := by
  refine proper.numbered old more ?_ ?_
  · rw [replaces.new]
    intro a new
    obtain ⟨f, output, rfl⟩ := mem_map.mp new
    exact below f output
  · rw [replaces.new, replaces.deleted]
    intro a new level g mem stays
    obtain ⟨f, output, rfl⟩ := mem_map.mp new
    exact fresh f output level g mem ((present.removed_iff old mem).not.mp stays)

theorem disjoint (numbered : v.Numbered next) (old : v.LevelsDisjoint)
    (apart : outputs.Pairwise FileMetaData.Apart)
    (within : ∀ f ∈ outputs, (∃ g ∈ c.allInputs, g.smallest ≤ f.smallest) ∧
      ∃ g ∈ c.allInputs, f.largest ≤ g.largest)
    (outside : ∀ g ∈ v.files (c.level + 1), g ∉ c.inputs.2 → Outside c.allInputs g) :
    (v.logAndApply edit).LevelsDisjoint := by
  intro level deep
  have added {g : FileMetaData K V} (mem : g ∈ edit.added level) :
      level = c.level + 1 ∧ g ∈ outputs := by
    obtain ⟨a, atLevel, rfl⟩ := mem_map.mp mem
    obtain ⟨inNew, here⟩ := mem_filter.mp atLevel
    rw [replaces.new] at inNew
    obtain ⟨f, output, rfl⟩ := mem_map.mp inNew
    exact ⟨(of_decide_eq_true here).symm, output⟩
  apply proper.sortedDisjoint (old level deep)
  · rw [VersionEdit.added, replaces.new, filter_map, map_map]
    refine List.Pairwise.sublist ?_ apart
    simp [comp_def]
  · intro f mem stays g new
    obtain ⟨rfl, output⟩ := added new
    rw [replaces.deleted] at stays
    have other := (present.removed_iff numbered mem).not.mp stays
    obtain ⟨⟨x, inX, low⟩, ⟨y, inY, high⟩⟩ := within g output
    obtain before | after := outside f mem fun input => other (.inr ⟨rfl, input⟩)
    · exact .inl ((before x inX).trans_le low)
    · exact .inr (high.trans_lt (InternalKey.lt_of_userKey_lt (after y inY)))

theorem mem_entries (fromInputs : FromInputs c outputs) :
    ∀ e ∈ (v.logAndApply edit).entries, e ∈ v.entries := by
  intro e mem
  obtain old | ⟨a, new, inside⟩ := proper.mem_entries mem
  · exact old
  · rw [replaces.new] at new
    obtain ⟨f, output, rfl⟩ := mem_map.mp new
    obtain ⟨x, input, inX⟩ := fromInputs f output e inside
    obtain ⟨level, isInput⟩ := exists_isInput input
    exact Version.mem_entries.mpr ⟨level, x, present.mem_files isInput, inX⟩

end Replaces

section
variable {v : Version K V} {c : Compaction K V} {next : Nat}

theorem start_writable (wellFormed : v.WellFormed next) (picked : c.Picked v)
    (smallestSnapshot : Nat) : (CompactionState.start c smallestSnapshot).Writable where
  sorted := makeInput_strict wellFormed.recent wellFormed.numbered picked.selected
  inRange := by
    intro e mem
    obtain ⟨f, -, inside⟩ := mem_makeInput.mp mem
    exact f.inRange.2 e inside
  begun := by simp [CompactionState.start]

theorem start_counted (c : Compaction K V) (smallestSnapshot first next : Nat) :
    (CompactionState.start c smallestSnapshot).Counted first next :=
  ⟨by simp [CompactionState.start, numbers],
    by simp [CompactionState.start, numbers]⟩

end
end TalusDB
