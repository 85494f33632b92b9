import TalusDB.DB.SaveTo
import TalusDB.Lib.Multiversion

/-! The order of age in a version: the entries of a level are newer than those below
it, and at level 0 those of a later file are newer than those of an earlier one. -/
namespace TalusDB
open List
variable {K V : Type}

abbrev NewerEntries (A B : List (Entry K V)) : Prop :=
  Multiversion.Newer Entry.userKey Entry.sequence A B

/-- No two entries of a user key have one sequence number. -/
abbrev UniqueEntries (entries : List (Entry K V)) : Prop :=
  Multiversion.Unique Entry.userKey Entry.sequence entries

variable {A B : List (Entry K V)}

theorem newer_of_users (apart : ∀ a ∈ A, ∀ b ∈ B, a.userKey ≠ b.userKey) : NewerEntries A B :=
  fun a inA b inB user => absurd user (apart a inA b inB)

theorem key_ne_of_newer (newer : NewerEntries A B) : ∀ a ∈ A, ∀ b ∈ B, a.key ≠ b.key := by
  intro a inA b inB same
  have less := newer a inA b inB (congrArg (·.userKey) same)
  exact absurd (congrArg (·.sequence) same) less.ne'

variable [LinearOrder K]

/-- What a reader of this user key at this sequence number sees in the entries. -/
def readEntries (entries : List (Entry K V)) (k : K) (s : Nat) : Option V :=
  Multiversion.read Entry.userKey Entry.sequence Entry.read entries k s

theorem readEntries_congr {entries entries' : List (Entry K V)} (unique : UniqueEntries entries)
    {s : Nat} (same : ∀ e, e.sequence ≤ s → (e ∈ entries ↔ e ∈ entries')) (k : K) :
    readEntries entries' k s = readEntries entries k s := by
  rw [readEntries, readEntries, Multiversion.read, Multiversion.read,
    Multiversion.newest_congr unique fun e _ => same e]

theorem newer_of_lt (unique : UniqueEntries (A ++ B))
    (before : ∀ a ∈ A, ∀ b ∈ B, a.key < b.key) : NewerEntries A B := by
  intro a inA b inB user
  have le : b.sequence ≤ a.sequence := InternalKey.sequence_le_of_le (before a inA b inB).le user
  refine le.lt_of_ne fun same => ?_
  have eq := unique a (mem_append_left _ inA) b (mem_append_right _ inB) user same.symm
  exact absurd (eq ▸ before a inA b inB) (lt_irrefl _)

namespace Version

def entries (v : Version K V) : List (Entry K V) :=
  (List.range kNumLevels).flatMap fun level => (v.files level).flatMap (·.entries)

variable {v : Version K V} {f : FileMetaData K V}

theorem mem_entries {e : Entry K V} :
    e ∈ v.entries ↔ ∃ level, ∃ f ∈ v.files level, e ∈ f.entries := by
  simp only [entries, mem_flatMap, mem_range]
  constructor
  · rintro ⟨level, -, f, mem, inside⟩
    exact ⟨level, f, mem, inside⟩
  · rintro ⟨level, f, mem, inside⟩
    exact ⟨level, level_lt mem, f, mem, inside⟩

structure Recent (v : Version K V) : Prop where
  zero : ∀ f ∈ v.files 0, ∀ g ∈ v.files 0, g.number < f.number → NewerEntries f.entries g.entries
  levels : ∀ i j, i < j → ∀ f ∈ v.files i, ∀ g ∈ v.files j, NewerEntries f.entries g.entries

/-- The files of a version have their own numbers, all under the next one. -/
structure Numbered (v : Version K V) (nextFileNumber : Nat) : Prop where
  below : ∀ level, ∀ f ∈ v.files level, f.number < nextFileNumber
  nodup : ∀ level, (v.files level).Nodup
  distinct : ∀ i, ∀ f ∈ v.files i, ∀ j, ∀ g ∈ v.files j, f.number = g.number → i = j ∧ f = g

theorem Numbered.mono {next next' : Nat} (numbered : v.Numbered next)
    (more : next ≤ next') : v.Numbered next' :=
  { numbered with below := fun level f mem => (numbered.below level f mem).trans_le more }

/-- What every version of a run satisfies. -/
structure WellFormed (v : Version K V) (nextFileNumber : Nat) : Prop where
  disjoint : v.LevelsDisjoint
  recent : v.Recent
  unique : UniqueEntries v.entries
  numbered : v.Numbered nextFileNumber

theorem unique_files (unique : UniqueEntries v.entries) {i j : Nat}
    {g : FileMetaData K V} (inI : f ∈ v.files i) (inJ : g ∈ v.files j) :
    UniqueEntries (f.entries ++ g.entries) := by
  apply unique.mono
  intro e mem
  obtain mem | mem := mem_append.mp mem
  · exact mem_entries.mpr ⟨i, f, inI, mem⟩
  · exact mem_entries.mpr ⟨j, g, inJ, mem⟩

end Version

namespace VersionEdit.Proper
variable {v : Version K V} {edit : VersionEdit K V} {next next' : Nat}

theorem mem_cases (proper : edit.Proper) {level : Nat} {f : FileMetaData K V}
    (mem : f ∈ (v.logAndApply edit).files level) :
    f ∈ v.files level ∧ (level, f.number) ∉ edit.deletedFiles ∨ (level, f) ∈ edit.newFiles :=
  (proper.mem_files v (Version.level_lt mem)).mp mem

theorem eq_of_number (proper : edit.Proper) {a b : Nat × FileMetaData K V}
    (inA : a ∈ edit.newFiles) (inB : b ∈ edit.newFiles) (same : a.2.number = b.2.number) :
    a = b :=
  inj_on_of_nodup_map proper.nodup inA inB same

theorem numbered (proper : edit.Proper) (old : v.Numbered next) (more : next ≤ next')
    (below : ∀ a ∈ edit.newFiles, a.2.number < next')
    (fresh : ∀ a ∈ edit.newFiles, ∀ level, ∀ g ∈ v.files level,
      (level, g.number) ∉ edit.deletedFiles → g.number ≠ a.2.number) :
    (v.logAndApply edit).Numbered next' where
  below level f mem := by
    obtain ⟨mem, -⟩ | new := proper.mem_cases mem
    · exact (old.below level f mem).trans_le more
    · exact below _ new
  nodup level := by
    by_cases bound : level < kNumLevels
    · refine (proper.files_perm v bound).nodup_iff.mpr (nodup_append.mpr ⟨?_, ?_, ?_⟩)
      · exact (old.nodup level).filter _
      · apply List.Nodup.of_map (fun f => f.number)
        rw [added, map_map]
        exact proper.nodup.sublist (filter_sublist.map _)
      · intro f kept g new same
        subst same
        obtain ⟨a, atLevel, rfl⟩ := mem_map.mp new
        obtain ⟨mem, stays⟩ := mem_filter.mp kept
        exact fresh a (mem_filter.mp atLevel).1 level a.2 mem (of_decide_eq_true stays) rfl
    · rw [Version.shallow _ level (Nat.le_of_not_lt bound)]
      exact .nil
  distinct i f inI j g inJ same := by
    obtain ⟨inI, stays⟩ | newF := proper.mem_cases inI <;>
      obtain ⟨inJ, stays'⟩ | newG := proper.mem_cases inJ
    · exact old.distinct i f inI j g inJ same
    · exact absurd same (fresh _ newG i f inI stays)
    · exact absurd same.symm (fresh _ newF j g inJ stays')
    · exact Prod.mk.inj (proper.eq_of_number newF newG same)

theorem mem_entries (proper : edit.Proper) {e : Entry K V}
    (mem : e ∈ (v.logAndApply edit).entries) :
    e ∈ v.entries ∨ ∃ a ∈ edit.newFiles, e ∈ a.2.entries := by
  obtain ⟨level, f, inLevel, inside⟩ := Version.mem_entries.mp mem
  obtain ⟨old, -⟩ | new := proper.mem_cases inLevel
  · exact .inl (Version.mem_entries.mpr ⟨level, f, old, inside⟩)
  · exact .inr ⟨_, new, inside⟩

end VersionEdit.Proper
end TalusDB
