import TalusDB.DB.Install
import TalusDB.DB.State

/-! The invariant of a database's runs: the order of age over memtables and levels,
disjoint levels, and what a running compaction relies on until it is installed. -/
namespace TalusDB
open MemTable Option
open Version (empty)
variable {K V : Type} [LinearOrder K]

/-- What a running compaction relies on while the current version changes under it:
its inputs are still there, and down to its output level everything else is newer. -/
structure Pending (v : Version K V) (next : Nat) (c : CompactionState K V) : Prop where
  bound : c.compaction.level + 1 < kNumLevels
  present : c.compaction.Present v
  above : ∀ level ≤ c.compaction.level + 1, ∀ g ∈ v.files level, ¬ c.compaction.IsInput level g →
    ∀ f ∈ c.compaction.allInputs, NewerEntries g.entries f.entries
  origin : ∀ e ∈ c.written ++ c.input, ∃ f ∈ c.compaction.allInputs, e ∈ f.entries
  writable : c.Writable
  tight : ∀ f ∈ c.outputs, f.Tight
  counted : c.Counted 0 next
  fresh : ∀ n ∈ c.numbers, ∀ level, ∀ g ∈ v.files level, g.number ≠ n

theorem Pending.mono {v : Version K V} {next next' : Nat} {c : CompactionState K V}
    (pending : Pending v next c) (more : next ≤ next') : Pending v next' c :=
  { pending with counted := pending.counted.mono more }

theorem Pending.step {v : Version K V} {options : Options K V} {next next' : Nat}
    {c c' : CompactionState K V} (pending : Pending v next c) (numbered : v.Numbered next)
    (stepped : c.step options next = some (next', c')) : Pending v next' c' ∧ next ≤ next' := by
  obtain ⟨e, fresh, round, supplied, -⟩ := CompactionState.step_round stepped
  obtain ⟨counted, more⟩ := pending.counted.step (Nat.zero_le _) stepped
  refine ⟨⟨?_, ?_, ?_, ?_, pending.writable.step stepped, round.tight pending.tight, counted, ?_⟩,
    more⟩
  · exact round.compaction ▸ pending.bound
  · exact round.compaction ▸ pending.present
  · exact round.compaction ▸ pending.above
  · rw [round.compaction]
    exact fun x mem => pending.origin x (round.sublist.subset mem)
  · intro n mem level g inLevel
    rw [round.numbers] at mem
    obtain old | new := List.mem_append.mp mem
    · exact pending.fresh n old level g inLevel
    · obtain ⟨rfl, -⟩ | ⟨rfl, -⟩ := supplied
      · cases new
      · rw [List.mem_singleton.mp new]
        exact (numbered.below level g inLevel).ne

namespace DBState

def entries (s : DBState K V) : List (Entry K V) :=
  s.mem ++ (s.imm.getD [] ++ s.current.entries)

/-- The order of age. -/
structure Recent (s : DBState K V) : Prop where
  mem_imm : NewerEntries s.mem (s.imm.getD [])
  mem_files : NewerEntries s.mem s.current.entries
  imm_files : NewerEntries (s.imm.getD []) s.current.entries
  version : s.current.Recent

/-- What holds of the parts of every state. -/
structure Sound (s : DBState K V) : Prop where
  memSorted : s.mem.Pairwise fun a b => a.key < b.key
  immSorted : (s.imm.getD []).Pairwise fun a b => a.key < b.key
  bounded : ∀ e ∈ s.entries, e.sequence ≤ s.lastSequence
  inRange : s.lastSequence < kMaxSequenceNumber
  unique : UniqueEntries s.entries
  numbered : s.current.Numbered s.nextFileNumber
  wanted : Wanted s.current s.fileToCompact
  taken : s.snapshots.Taken s.lastSequence

structure Ordered (s : DBState K V) : Prop where
  disjoint : s.current.LevelsDisjoint
  recent : s.Recent
  sound : s.Sound
  pending : ∀ running ∈ s.running, Pending s.current s.nextFileNumber running.compact

theorem initial_ordered (nextFileNumber : Nat) : (initial nextFileNumber : DBState K V).Ordered
    where
  disjoint level _ := .nil
  recent := {
    mem_imm := by simp [initial, Multiversion.Newer]
    mem_files := by simp [initial, Multiversion.Newer]
    imm_files := by simp [initial, Multiversion.Newer]
    version := ⟨by simp [initial, empty], by simp [initial, empty]⟩ }
  sound := {
    memSorted := .nil
    immSorted := .nil
    bounded := by simp [initial, entries, Version.entries, empty]
    inRange := (by decide : 0 < kMaxSequenceNumber)
    unique := by simp [initial, entries, Version.entries, empty, Multiversion.Unique]
    numbered := ⟨by simp [initial, empty], by simp [initial, empty],
      by simp [initial, empty]⟩
    wanted := by simp [initial, Wanted]
    taken := .empty 0 }
  pending := by simp [initial]

section
variable {s s' : DBState K V}

theorem mem_entries {e : Entry K V} :
    e ∈ s.entries ↔ e ∈ s.mem ∨ e ∈ s.imm.getD [] ∨ e ∈ s.current.entries := by
  simp [entries]

theorem Sound.version_unique (sound : s.Sound) : UniqueEntries s.current.entries :=
  sound.unique.mono fun _ mem => mem_entries.mpr (.inr (.inr mem))

variable (ordered : s.Ordered)
include ordered

theorem Ordered.wellFormed : s.current.WellFormed s.nextFileNumber :=
  ⟨ordered.disjoint, ordered.recent.version, ordered.sound.version_unique, ordered.sound.numbered⟩

theorem write_ordered [Inhabited V] {ops : List (Op K V)}
    (wrote : s.write ops = some s') : s'.Ordered := by
  rw [write] at wrote
  obtain ⟨room, wrote⟩ := ite_none_right_eq_some.mp wrote
  cases wrote
  obtain ⟨disjoint, recent, sound, pending⟩ := ordered
  have later : ∀ e ∈ numbered (s.lastSequence + 1) ops, ∀ x ∈ s.entries,
      x.sequence < e.sequence := by
    intro e new x old
    have above := (numbered_spec e new).1
    have below := sound.bounded x old
    omega
  have mem_new {e : Entry K V} :
      e ∈ insertInto (s.lastSequence + 1) ops s.mem ↔
        e ∈ numbered (s.lastSequence + 1) ops ∨ e ∈ s.mem := mem_foldl_add
  refine ⟨disjoint, ⟨?_, ?_, recent.imm_files, recent.version⟩, ?_, pending⟩
  · intro a inA b inB user
    obtain new | old := mem_new.mp inA
    · exact later a new b (mem_entries.mpr (.inr (.inl inB)))
    · exact recent.mem_imm a old b inB user
  · intro a inA b inB user
    obtain new | old := mem_new.mp inA
    · exact later a new b (mem_entries.mpr (.inr (.inr inB)))
    · exact recent.mem_files a old b inB user
  · have cases_new {e : Entry K V} (mem : e ∈ ({ s with
        mem := insertInto (s.lastSequence + 1) ops s.mem
        lastSequence := s.lastSequence + ops.length } : DBState K V).entries) :
        e ∈ numbered (s.lastSequence + 1) ops ∨ e ∈ s.entries := by
      rw [mem_entries, mem_new] at mem
      rw [mem_entries]
      tauto
    exact {
      sound with
      memSorted := foldl_add_sorted sound.memSorted
        (numbered_increasing _ _) fun e new x old =>
          later e new x (mem_entries.mpr (.inl old))
      bounded := by
        intro e mem
        obtain new | old := cases_new mem
        · have bounds := (numbered_spec e new).2
          show e.sequence ≤ s.lastSequence + ops.length
          omega
        · exact (sound.bounded e old).trans (Nat.le_add_right _ _)
      inRange := room
      unique := by
        intro a inA b inB user same
        obtain newA | oldA := cases_new inA <;> obtain newB | oldB := cases_new inB
        · exact numbered_unique newA newB same
        · exact absurd same (later a newA b oldB).ne'
        · exact absurd same (later b newB a oldA).ne
        · exact sound.unique a oldA b oldB user same
      taken := sound.taken.advance (Nat.le_add_right _ _) }

theorem switchMemTable_ordered (switched : s.switchMemTable = some s') : s'.Ordered := by
  rw [switchMemTable] at switched
  obtain ⟨free, switched⟩ := ite_none_right_eq_some.mp switched
  cases switched
  obtain ⟨disjoint, recent, sound, pending⟩ := ordered
  have none : s.imm = none := isNone_iff_eq_none.mp free
  have same {e : Entry K V} (mem : e ∈ ({ s with
      mem := [], imm := some s.mem, nextFileNumber := s.nextFileNumber + 1 } :
      DBState K V).entries) : e ∈ s.entries := by
    simpa [entries, none] using mem
  have more : s.nextFileNumber ≤ s.nextFileNumber + 1 := Nat.le_succ _
  refine ⟨disjoint, ⟨?_, ?_, recent.mem_files, recent.version⟩, ?_,
    fun running isRunning => (pending running isRunning).mono more⟩
  · simp [Multiversion.Newer]
  · simp [Multiversion.Newer]
  · exact {
      sound with
      memSorted := .nil
      immSorted := sound.memSorted
      bounded := fun e mem => sound.bounded e (same mem)
      unique := sound.unique.mono fun e mem => same mem
      numbered := sound.numbered.mono more }

theorem compactionRound_ordered {options : Options K V}
    (stepped : s.compactionRound options = some s') : s'.Ordered := by
  rw [compactionRound] at stepped
  obtain ⟨running, isRunning, stepped⟩ := bind_eq_some_iff.mp stepped
  obtain ⟨⟨next, compact⟩, round, stepped⟩ := bind_eq_some_iff.mp stepped
  cases stepped
  obtain ⟨disjoint, recent, sound, pending⟩ := ordered
  obtain ⟨pending', more⟩ := (pending running isRunning).step sound.numbered round
  refine ⟨disjoint, ⟨recent.mem_imm, recent.mem_files, recent.imm_files, recent.version⟩, ?_, ?_⟩
  · exact { sound with numbered := sound.numbered.mono more }
  · intro running' isRunning'
    cases isRunning'
    exact pending'

theorem getSnapshot_ordered :
    ({ s with snapshots := s.snapshots.new s.lastSequence } : DBState K V).Ordered :=
  { ordered with
    recent := { ordered.recent with }
    sound := { ordered.sound with taken := ordered.sound.taken.new } }

theorem releaseSnapshot_ordered (i : Nat) :
    ({ s with snapshots := s.snapshots.delete i } : DBState K V).Ordered :=
  { ordered with
    recent := { ordered.recent with }
    sound := { ordered.sound with taken := ordered.sound.taken.delete i } }

theorem updateStats_ordered {level i : Nat}
    (updated : s.updateStats level i = some s') : s'.Ordered := by
  rw [updateStats] at updated
  obtain ⟨-, updated⟩ := ite_none_right_eq_some.mp updated
  obtain ⟨f, found, rfl⟩ := map_eq_some_iff.mp updated
  have wanted : Wanted s.current (some (level, f)) := by
    intro want isWanted
    cases isWanted
    exact List.mem_of_getElem? found
  exact { ordered with
    recent := { ordered.recent with }
    sound := { ordered.sound with wanted } }

end
end DBState
end TalusDB
