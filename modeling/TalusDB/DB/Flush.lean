import TalusDB.DB.Ordered

/-! A memtable flush keeps the order of age, the disjoint levels and what a running
compaction relies on. -/
namespace TalusDB
open VersionEdit List Option
variable {K V : Type} [LinearOrder K]

theorem addFile_proper (level : Nat) (file : FileMetaData K V) :
    (({} : VersionEdit K V).addFile level file).Proper where
  nodup := by simp [addFile]
  kept := by simp [addFile]

/-- A table that is newer than the version, at a level that the version allows for. -/
structure Fits (v : Version K V) (next level : Nat) (file : FileMetaData K V) : Prop where
  number : file.number = next
  bound : level < kNumLevels
  newer : NewerEntries file.entries v.entries
  clear : 0 < level → ∀ i ≤ level, ∀ f ∈ v.files i,
    ¬ f.Meets file.smallest.userKey file.largest.userKey

namespace Fits
variable {v : Version K V} {next level : Nat} {file : FileMetaData K V}

variable {i : Nat} {f : FileMetaData K V}

variable (fits : Fits v next level file)
include fits

theorem mem_files : f ∈ (v.logAndApply (({} : VersionEdit K V).addFile level file)).files i ↔
      f ∈ v.files i ∨ i = level ∧ f = file := by
  by_cases bound : i < kNumLevels
  · rw [(addFile_proper level file).mem_files v bound]
    simp [addFile]
  · have other : i ≠ level := fun same => bound (same ▸ fits.bound)
    rw [Version.shallow _ i (Nat.le_of_not_lt bound), v.shallow i (Nat.le_of_not_lt bound)]
    simp [other]

theorem apart (deep : 0 < level) (le : i ≤ level) (mem : f ∈ v.files i) :
    f.largest.userKey < file.smallest.userKey ∨ file.largest.userKey < f.smallest.userKey := by
  have clear := fits.clear deep i le f mem
  rw [FileMetaData.Meets, not_and_or, not_le, not_le] at clear
  exact clear

theorem disjoint (old : v.LevelsDisjoint) :
    (v.logAndApply (({} : VersionEdit K V).addFile level file)).LevelsDisjoint := by
  intro i deep
  apply (addFile_proper level file).sortedDisjoint (old i deep)
  · by_cases here : level = i
    · simp [added, addFile, here]
    · simp [added, addFile, here]
  · intro f mem _ g new
    obtain ⟨rfl, rfl⟩ : level = i ∧ g = file := by
      by_cases here : level = i
      · simpa [added, addFile, here] using new
      · simp [added, addFile, here] at new
    exact (fits.apart deep le_rfl mem).imp InternalKey.lt_of_userKey_lt
      InternalKey.lt_of_userKey_lt

theorem newer_files (mem : f ∈ v.files i) : NewerEntries file.entries f.entries :=
  fits.newer.mono (List.Subset.refl _) fun _ inside => Version.mem_entries.mpr ⟨i, f, mem, inside⟩

theorem above_newer (less : i < level) (mem : f ∈ v.files i) :
    NewerEntries f.entries file.entries := by
  apply newer_of_users
  intro a inF b inFile
  obtain before | after := fits.apart (Nat.zero_lt_of_lt less) less.le mem
  · exact (userKey_lt_of_files inF inFile before).ne
  · exact (userKey_lt_of_files inFile inF after).ne'

theorem recent (numbered : v.Numbered next) (old : v.Recent) :
    (v.logAndApply (({} : VersionEdit K V).addFile level file)).Recent where
  zero f inF g inG less := by
    obtain oldF | ⟨-, rfl⟩ := fits.mem_files.mp inF <;>
      obtain oldG | ⟨-, rfl⟩ := fits.mem_files.mp inG
    · exact old.zero f oldF g oldG less
    · have below := numbered.below 0 f oldF
      have number := fits.number
      omega
    · exact fits.newer_files oldG
    · exact absurd less (lt_irrefl _)
  levels i j less f inF g inG := by
    obtain oldF | ⟨rfl, rfl⟩ := fits.mem_files.mp inF <;>
      obtain oldG | ⟨rfl, rfl⟩ := fits.mem_files.mp inG
    · exact old.levels i j less f oldF g oldG
    · exact fits.above_newer less oldF
    · exact fits.newer_files oldG
    · exact absurd less (lt_irrefl _)

theorem numbered (old : v.Numbered next) :
    (v.logAndApply (({} : VersionEdit K V).addFile level file)).Numbered (next + 1) := by
  refine (addFile_proper level file).numbered old (Nat.le_succ next) ?_ ?_
  · simp [addFile, fits.number]
  · intro a new i g mem _
    simp only [addFile, nil_append, mem_singleton] at new
    subst new
    exact fits.number ▸ (old.below i g mem).ne

theorem mem_entries {e : Entry K V} :
    e ∈ (v.logAndApply (({} : VersionEdit K V).addFile level file)).entries ↔
      e ∈ v.entries ∨ e ∈ file.entries := by
  rw [Version.mem_entries, Version.mem_entries]
  constructor
  · rintro ⟨i, f, mem, inside⟩
    obtain mem | ⟨rfl, rfl⟩ := fits.mem_files.mp mem
    · exact .inl ⟨i, f, mem, inside⟩
    · exact .inr inside
  · rintro (⟨i, f, mem, inside⟩ | inside)
    · exact ⟨i, f, fits.mem_files.mpr (.inl mem), inside⟩
    · exact ⟨level, file, fits.mem_files.mpr (.inr ⟨rfl, rfl⟩), inside⟩

theorem pending {c : CompactionState K V} (old : Pending v next c) :
    Pending (v.logAndApply (({} : VersionEdit K V).addFile level file)) (next + 1) c where
  bound := old.bound
  present := ⟨fun f mem => fits.mem_files.mpr (.inl (old.present.first f mem)),
    fun f mem => fits.mem_files.mpr (.inl (old.present.second f mem))⟩
  above i le g mem other f input := by
    obtain mem | ⟨rfl, rfl⟩ := fits.mem_files.mp mem
    · exact old.above i le g mem other f input
    · obtain ⟨j, isInput⟩ := exists_isInput input
      exact fits.newer_files (old.present.mem_files isInput)
  origin := old.origin
  writable := old.writable
  tight := old.tight
  counted := old.counted.mono (Nat.le_succ next)
  fresh n mem i g inLevel := by
    obtain inLevel | ⟨rfl, rfl⟩ := fits.mem_files.mp inLevel
    · exact old.fresh n mem i g inLevel
    · exact fits.number ▸ (old.counted.within n mem).2.ne'

end Fits

theorem logAndApply_empty (v : Version K V) : v.logAndApply {} = v := by
  apply Version.ext
  funext level
  simp only [Version.logAndApply, Builder.apply, Builder.saveTo, foldl_nil,
    Builder.mergeFiles, not_mem_nil, not_false_eq_true, decide_true, filter_true]
  split
  · rfl
  case isFalse deep => exact (v.shallow level (Nat.le_of_not_lt deep)).symm

namespace DBState
variable {s s' : DBState K V} {options : Options K V}

theorem compactMemTable_cases (ordered : s.Ordered)
    (flushed : s.compactMemTable options = some s') :
    ∃ imm, s.imm = some imm ∧ s.running.all (!·.compact.input.isEmpty) = true ∧
      ((imm = [] ∧ s' = { s.setCurrent (s.current.logAndApply {}) with
          imm := none, nextFileNumber := s.nextFileNumber + 1 }) ∨
        ∃ file, file.entries = imm ∧ (∃ e ∈ imm.head?, e.key = file.smallest) ∧
          (∃ e ∈ imm.getLast?, e.key = file.largest) ∧
          Fits s.current s.nextFileNumber (s.current.pickLevelForMemTableOutput options
            file.smallest.userKey file.largest.userKey) file ∧
          s' = { s.setCurrent (s.current.logAndApply (({} : VersionEdit K V).addFile
              (s.current.pickLevelForMemTableOutput options file.smallest.userKey
                file.largest.userKey) file)) with
            imm := none, nextFileNumber := s.nextFileNumber + 1 }) := by
  rw [compactMemTable] at flushed
  obtain ⟨free, flushed⟩ := ite_none_right_eq_some.mp flushed
  obtain ⟨imm, isImm, flushed⟩ := bind_eq_some_iff.mp flushed
  obtain ⟨edit, isEdit, flushed⟩ := bind_eq_some_iff.mp flushed
  cases flushed
  refine ⟨imm, isImm, free, ?_⟩
  rw [writeLevel0Table] at isEdit
  split at isEdit
  case isTrue empty =>
    cases isEdit
    exact .inl ⟨isEmpty_iff.mp empty, rfl⟩
  case isFalse =>
    obtain ⟨file, built, rfl⟩ := map_eq_some_iff.mp isEdit
    obtain ⟨number, entries, first, last⟩ := build_spec built
    refine .inr ⟨file, entries, first, last, ⟨number, ?_, ?_, ?_⟩, rfl⟩
    · have small := pickLevelForMemTableOutput_le s.current options
        file.smallest.userKey file.largest.userKey
      exact lt_of_le_of_lt small (by decide)
    · have newer := ordered.recent.imm_files
      rw [isImm] at newer
      exact entries ▸ newer
    · intro deep i le f mem
      exact pickLevelForMemTableOutput_clear ordered.disjoint options _ _ deep le mem

theorem compactMemTable_ordered (ordered : s.Ordered)
    (flushed : s.compactMemTable options = some s') : s'.Ordered := by
  obtain ⟨imm, isImm, -, ⟨rfl, rfl⟩ | ⟨file, rfl, -, -, fits, rfl⟩⟩ :=
    compactMemTable_cases ordered flushed
  · obtain ⟨disjoint, recent, sound, pending⟩ := ordered
    have same {e : Entry K V} (mem : e ∈ s.mem ++ ([] ++ s.current.entries)) : e ∈ s.entries := by
      simpa [entries, isImm] using mem
    rw [logAndApply_empty]
    exact {
      disjoint
      recent := {
        mem_imm := by simp [setCurrent, Multiversion.Newer]
        mem_files := recent.mem_files
        imm_files := by simp [setCurrent, Multiversion.Newer]
        version := recent.version }
      sound := {
        sound with
        immSorted := .nil
        bounded := fun e mem => sound.bounded e (same mem)
        unique := sound.unique.mono fun e mem => same mem
        numbered := sound.numbered.mono (Nat.le_succ _)
        wanted := by simp [setCurrent, Wanted] }
      pending := fun running isRunning => (pending running isRunning).mono (Nat.le_succ _) }
  · obtain ⟨disjoint, recent, sound, pending⟩ := ordered
    have same {e : Entry K V} (mem : e ∈ s.mem ++ ([] ++ (s.current.logAndApply
        (({} : VersionEdit K V).addFile (s.current.pickLevelForMemTableOutput options
          file.smallest.userKey file.largest.userKey) file)).entries)) : e ∈ s.entries := by
      rw [nil_append, mem_append, fits.mem_entries] at mem
      rw [mem_entries, isImm, getD_some]
      tauto
    have newer := recent.mem_imm
    rw [isImm, getD_some] at newer
    exact {
      disjoint := fits.disjoint disjoint
      recent := {
        mem_imm := by simp [setCurrent, Multiversion.Newer]
        mem_files := by
          intro a inA b inB user
          obtain old | new := fits.mem_entries.mp inB
          · exact recent.mem_files a inA b old user
          · exact newer a inA b new user
        imm_files := by simp [setCurrent, Multiversion.Newer]
        version := fits.recent sound.numbered recent.version }
      sound := {
        sound with
        immSorted := .nil
        bounded := fun e mem => sound.bounded e (same mem)
        unique := sound.unique.mono fun e mem => same mem
        numbered := fits.numbered sound.numbered
        wanted := by simp [setCurrent, Wanted] }
      pending := fun running isRunning => fits.pending (pending running isRunning) }

end DBState
end TalusDB
