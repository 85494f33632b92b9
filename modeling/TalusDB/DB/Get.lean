import TalusDB.DB.CompactionReads
import TalusDB.DB.State

/-! Point reads: `DBImpl::Get` looks into the memtable, the one that is being flushed and
the tables of the version, and stops at the first source that knows the user key. Table
reads succeed. -/
namespace TalusDB
open List Option InternalKey Version
variable {K V : Type} [LinearOrder K]

/-- Where an iterator over these entries stops in `Seek`. -/
def seek (entries : List (Entry K V)) (key : InternalKey K) : Option (Entry K V) :=
  entries.find? (key ≤ ·.key)

/-- `MemTable::Get`: none when it has no answer, else the value or NotFound. -/
def MemTable.get (mem : List (Entry K V)) (userKey : K) (sequence : Nat) : Option (Option V) :=
  match seek mem (.lookup userKey sequence) with
  | none => none
  | some e => if e.userKey = userKey then some e.read else none

inductive SaverState (V : Type) where
  | notFound
  | found (value : V)
  | deleted

def SaverState.value {V : Type} : SaverState V → Option V
  | found value => some value
  | notFound | deleted => none

def saveValue (userKey : K) (saver : SaverState V) (e : Entry K V) : SaverState V :=
  if e.userKey = userKey then
    match e.key.type with
    | .value => .found e.value
    | .deletion => .deleted
  else saver

/-- The variables of `Version::Get`. Files stand with their levels. -/
structure GetState (K V : Type) [LinearOrder K] where
  seekFile : Option (Nat × FileMetaData K V) := none
  lastFileRead : Option (Nat × FileMetaData K V) := none
  saver : SaverState V := .notFound

/-- `Match` of `Version::Get`. The file read before this one is charged for the seek,
unless another one is already. -/
def GetState.match (userKey : K) (sequence : Nat) (state : GetState K V)
    (file : Nat × FileMetaData K V) : Bool × GetState K V :=
  let saver := (seek file.2.entries (.lookup userKey sequence)).elim state.saver
    (saveValue userKey state.saver)
  (match saver with
    | .notFound => true
    | .found _ | .deleted => false,
   { seekFile := state.seekFile.or state.lastFileRead, lastFileRead := some file, saver })

namespace Version

/-- The file of a level that can hold the key. -/
def levelFile (v : Version K V) (userKey : K) (key : InternalKey K) (level : Nat) :
    Option (FileMetaData K V) :=
  (v.files level)[findFile (v.files level) key]?.filter (·.smallest.userKey ≤ userKey)

/-- The files that `ForEachOverlapping` hands out: those of level 0 from the newest on,
then at most one for each other level. -/
def overlapping (v : Version K V) (userKey : K) (key : InternalKey K) :
    List (Nat × FileMetaData K V) :=
  let tmp := (v.files 0).filter fun f =>
    f.smallest.userKey ≤ userKey && userKey ≤ f.largest.userKey
  (tmp.insertionSort fun f g => g.number ≤ f.number).map (0, ·) ++
    (List.range' 1 (kNumLevels - 1)).filterMap fun level =>
      (v.levelFile userKey key level).map (level, ·)

end Version

/-- The loops of `ForEachOverlapping`, which end early when the callback returns false. -/
def forEach {σ : Type} (func : σ → Nat × FileMetaData K V → Bool × σ) :
    σ → List (Nat × FileMetaData K V) → σ
  | state, [] => state
  | state, file :: rest =>
    if (func state file).1 then forEach func (func state file).2 rest else (func state file).2

/-- `Version::Get`: the value, or none for NotFound, and the file that is charged. -/
def Version.get (v : Version K V) (userKey : K) (sequence : Nat) :
    Option V × Option (Nat × FileMetaData K V) :=
  let state := forEach (GetState.match userKey sequence) {}
    (v.overlapping userKey (.lookup userKey sequence))
  (state.saver.value, state.seekFile)

/-- What a reader captures while it holds the mutex. -/
structure View (K V : Type) [LinearOrder K] where
  snapshot : Nat
  mem : List (Entry K V)
  imm : Option (List (Entry K V))
  current : Version K V

/-- The capture at the beginning of `DBImpl::Get`, with the sequence number of the
snapshot that it is given. -/
def DBState.capture (s : DBState K V) (snapshot : Option Nat) : View K V where
  snapshot := snapshot.getD s.lastSequence
  mem := s.mem
  imm := s.imm
  current := s.current

/-- `DBImpl::Get` on what it has captured. -/
def View.get (view : View K V) (userKey : K) : Option V :=
  match MemTable.get view.mem userKey view.snapshot with
  | some answer => answer
  | none =>
    match view.imm.bind (MemTable.get · userKey view.snapshot) with
    | some answer => answer
    | none => (view.current.get userKey view.snapshot).1

def View.entries (view : View K V) : List (Entry K V) :=
  view.mem ++ (view.imm.getD [] ++ view.current.entries)

/-- A read of entries, as it has to be. -/
abbrev AnswersEntries (entries : List (Entry K V)) (userKey : K) (sequence : Nat)
    (found : Option (Entry K V)) : Prop :=
  Multiversion.Answers Entry.userKey Entry.sequence entries userKey sequence found

def pointRead (entries : List (Entry K V)) (userKey : K) (sequence : Nat) : Option (Entry K V) :=
  (seek entries (.lookup userKey sequence)).filter (·.userKey = userKey)

section
variable {entries : List (Entry K V)} {userKey : K} {sequence : Nat}

theorem MemTable.get_eq : MemTable.get entries userKey sequence =
    (pointRead entries userKey sequence).map Entry.read := by
  rw [get, pointRead]
  cases seek entries (.lookup userKey sequence) with
  | none => rfl
  | some e => by_cases same : e.userKey = userKey <;> simp [same, Option.filter]

theorem seek_le (sorted : entries.Pairwise fun a b => a.key < b.key) {key : InternalKey K}
    {e : Entry K V} (found : seek entries key = some e) :
    ∀ x ∈ entries, key ≤ x.key → e.key ≤ x.key := by
  obtain ⟨-, before, after, rfl, passed⟩ := find?_eq_some_iff_append.mp found
  intro x mem reached
  rw [mem_append, mem_cons] at mem
  obtain mem | rfl | mem := mem
  · have less := passed x mem
    simp only [Bool.not_eq_true', decide_eq_false_iff_not] at less
    exact absurd reached less
  · exact le_rfl
  · exact (rel_of_pairwise_cons (pairwise_append.mp sorted).2.1 mem).le

theorem pointRead_answers (sorted : entries.Pairwise fun a b => a.key < b.key) :
    AnswersEntries entries userKey sequence (pointRead entries userKey sequence) := by
  have visible {x : Entry K V} (isKey : x.userKey = userKey) (old : x.sequence ≤ sequence) :
      InternalKey.lookup userKey sequence ≤ x.key :=
    lookup_le_iff.mpr (.inr ⟨isKey.symm, old⟩)
  rw [pointRead]
  cases found : seek entries (.lookup userKey sequence) with
  | none =>
    refine ⟨by simp, fun _ x mem isKey old => ?_⟩
    have passed := find?_eq_none.mp found x mem
    simp only [decide_eq_true_eq] at passed
    exact passed (visible isKey old)
  | some e =>
    have reached : InternalKey.lookup userKey sequence ≤ e.key := by
      simpa using find?_some found
    have least := seek_le sorted found
    by_cases same : e.userKey = userKey
    · rw [filter_some, if_pos (decide_eq_true same)]
      refine ⟨?_, by simp⟩
      rintro _ ⟨rfl⟩
      refine ⟨mem_of_find?_eq_some found, same, ?_, fun x mem isKey old => ?_⟩
      · obtain less | ⟨-, old⟩ := lookup_le_iff.mp reached
        · exact absurd same less.ne'
        · exact old
      · exact sequence_le_of_le (least x mem (visible isKey old))
          (same.trans isKey.symm)
    · rw [filter_some, if_neg (by simpa using same)]
      refine ⟨by simp, fun _ x mem isKey old => same (le_antisymm ?_ ?_)⟩
      · exact isKey ▸ userKey_mono (least x mem (visible isKey old))
      · exact userKey_mono reached

theorem forEach_match {files : List (Nat × FileMetaData K V)} {state : GetState K V}
    (fresh : state.saver = .notFound) :
    (forEach (GetState.match userKey sequence) state files).saver.value =
      (files.findSome? fun file => pointRead file.2.entries userKey sequence).bind Entry.read := by
  induction files generalizing state with
  | nil => simp [forEach, fresh, SaverState.value]
  | cons file rest ih =>
    rw [forEach, findSome?_cons, pointRead]
    cases found : seek file.2.entries (.lookup userKey sequence) with
    | none => simp [GetState.match, found, fresh, ih]
    | some e =>
      by_cases same : e.userKey = userKey
      · cases isType : e.key.type <;>
          simp [GetState.match, found, saveValue, same, isType, SaverState.value, Entry.read,
            filter_some]
      · simp [GetState.match, found, saveValue, same, fresh, ih, filter_some]

end

section
variable {v : Version K V} {userKey : K} {sequence : Nat}

/-- What a read can see at a sorted level is in the file that `FindFile` stops at or in
one behind it. -/
theorem visible_after {files : List (FileMetaData K V)} (sorted : SortedDisjoint files)
    {f : FileMetaData K V} (mem : f ∈ files) {e : Entry K V} (inside : e ∈ f.entries)
    (visible : InternalKey.lookup userKey sequence ≤ e.key) :
    f ∈ files.drop (findFile files (.lookup userKey sequence)) := by
  rw [← take_append_drop (findFile files (.lookup userKey sequence)) files,
    mem_append] at mem
  obtain before | after := mem
  · have ends := sorted.findFile_before before
    exact absurd (visible.trans (f.bounded e inside).2) (not_le.mpr ends)
  · exact after

/-- At a level without overlap the one file that is consulted answers for all: a file
behind it can only have older entries of the user key that the file ends with. -/
theorem levelFile_answers {level : Nat} (sorted : SortedDisjoint (v.files level))
    (tight : ∀ f ∈ v.files level, ∃ e ∈ f.entries, e.key = f.largest) :
    AnswersEntries ((v.files level).flatMap (·.entries)) userKey sequence
      ((v.levelFile userKey (.lookup userKey sequence) level).bind fun f =>
        pointRead f.entries userKey sequence) := by
  have visible {e : Entry K V} (mem : e ∈ (v.files level).flatMap (·.entries))
      (isKey : e.userKey = userKey) (old : e.sequence ≤ sequence) :
      ∃ f ∈ (v.files level).drop (findFile (v.files level) (.lookup userKey sequence)),
        e ∈ f.entries := by
    obtain ⟨f, inLevel, inside⟩ := mem_flatMap.mp mem
    exact ⟨f, visible_after sorted inLevel inside
      (lookup_le_iff.mpr (.inr ⟨isKey.symm, old⟩)), inside⟩
  have reached (f : FileMetaData K V)
      (mem : f ∈ (v.files level).drop (findFile (v.files level) (.lookup userKey sequence))) :
      InternalKey.lookup userKey sequence ≤ f.largest := sorted.findFile_after mem
  have ordered := sorted.sublist
    (drop_sublist (findFile (v.files level) (.lookup userKey sequence)) (v.files level))
  rw [levelFile, ← List.head?_drop]
  cases rest : (v.files level).drop (findFile (v.files level) (.lookup userKey sequence)) with
  | nil =>
    refine ⟨by simp, fun _ e mem isKey old => ?_⟩
    obtain ⟨f, mem, -⟩ := visible mem isKey old
    rw [rest] at mem
    cases mem
  | cons g later =>
    rw [rest] at visible reached ordered
    have inLevel : g ∈ v.files level :=
      mem_of_mem_drop (rest ▸ mem_cons_self)
    have behind {f : FileMetaData K V} (mem : f ∈ later) {e : Entry K V}
        (inside : e ∈ f.entries) : g.largest < e.key :=
      (rel_of_pairwise_cons ordered mem).trans_le (f.bounded e inside).1
    rw [List.head?_cons]
    by_cases low : g.smallest.userKey ≤ userKey
    · rw [filter_some, if_pos (decide_eq_true low), bind_some]
      have answers : AnswersEntries g.entries userKey sequence _ := pointRead_answers g.sorted
      refine ⟨fun x found => ?_, fun none e mem isKey old => ?_⟩
      · have newest := answers.newest x found
        refine ⟨mem_flatMap.mpr ⟨g, inLevel, newest.mem⟩, newest.isKey, newest.visible, ?_⟩
        intro e mem isKey old
        obtain ⟨f, mem, inside⟩ := visible mem isKey old
        obtain rfl | mem := mem_cons.mp mem
        · exact newest.last e inside isKey old
        · exact sequence_le_of_le
            ((g.bounded x newest.mem).2.trans (behind mem inside).le)
            (newest.isKey.trans isKey.symm)
      · obtain ⟨f, mem, inside⟩ := visible mem isKey old
        obtain rfl | mem := mem_cons.mp mem
        · exact answers.nothing none e inside isKey old
        · obtain ⟨last, lastIn, ends⟩ := tight g inLevel
          have less := behind mem inside
          have target := reached g mem_cons_self
          rw [← ends] at less target
          have same : last.userKey = userKey := le_antisymm
            (isKey ▸ userKey_mono less.le) (userKey_mono target)
          obtain more | ⟨-, old'⟩ := lookup_le_iff.mp target
          · exact more.ne' same
          · exact answers.nothing none last lastIn same old'
    · rw [filter_some, if_neg (by simpa using low), bind_none]
      refine ⟨by simp, fun _ e mem isKey old => low ?_⟩
      obtain ⟨f, mem, inside⟩ := visible mem isKey old
      rw [← isKey]
      obtain rfl | mem := mem_cons.mp mem
      · exact userKey_mono (f.bounded e inside).1
      · exact g.user_ordered.trans (userKey_mono (behind mem inside).le)

theorem zeroFiles_answers
    (newer : ∀ f ∈ v.files 0, ∀ g ∈ v.files 0, g.number < f.number →
      NewerEntries f.entries g.entries)
    (numbers : (v.files 0).Pairwise fun f g => f.number ≠ g.number) :
    AnswersEntries ((v.files 0).flatMap (·.entries)) userKey sequence
      ((((v.files 0).filter fun f => f.smallest.userKey ≤ userKey && userKey ≤ f.largest.userKey)
        |>.insertionSort fun f g => g.number ≤ f.number).findSome? fun f =>
          pointRead f.entries userKey sequence) := by
  set tmp := (v.files 0).filter fun f =>
    f.smallest.userKey ≤ userKey && userKey ≤ f.largest.userKey with isTmp
  have perm := perm_insertionSort (fun f g : FileMetaData K V => g.number ≤ f.number) tmp
  have inZero {f : FileMetaData K V} (mem : f ∈ tmp) : f ∈ v.files 0 := mem_of_mem_filter mem
  have descending : (tmp.insertionSort fun f g => g.number ≤ f.number).Pairwise
      fun f g => NewerEntries f.entries g.entries := by
    have : Std.Total fun f g : FileMetaData K V => g.number ≤ f.number :=
      ⟨fun f g => Nat.le_total g.number f.number⟩
    have : IsTrans (FileMetaData K V) fun f g => g.number ≤ f.number :=
      ⟨fun f g h le le' => le'.trans le⟩
    have sorted := pairwise_insertionSort (fun f g : FileMetaData K V => g.number ≤ f.number) tmp
    have distinct := (perm.pairwise_iff fun h => Ne.symm h).mpr (numbers.filter _)
    refine (sorted.and distinct).imp_of_mem fun inF inG order => ?_
    exact newer _ (inZero (perm.subset inF)) _ (inZero (perm.subset inG))
      (lt_of_le_of_ne order.1 order.2.symm)
  refine (Multiversion.Answers.flatMap descending fun f mem =>
    pointRead_answers f.sorted).congr fun e isKey _ => ?_
  rw [mem_flatMap, mem_flatMap]
  constructor
  · rintro ⟨f, mem, inside⟩
    exact ⟨f, inZero (perm.subset mem), inside⟩
  · rintro ⟨f, mem, inside⟩
    obtain ⟨high, low⟩ := f.meets_entry inside
    have around : f ∈ tmp := mem_filter.mpr
      ⟨mem, by simp [isKey ▸ low, isKey ▸ high]⟩
    exact ⟨f, perm.mem_iff.mpr around, inside⟩

/-- The last key of each file below level 0 is that of an entry. -/
def Version.LargestKept (v : Version K V) : Prop :=
  ∀ level, 0 < level → ∀ f ∈ v.files level, ∃ e ∈ f.entries, e.key = f.largest

theorem Version.get_answers (disjoint : v.LevelsDisjoint) (recent : v.Recent)
    (numbers : (v.files 0).Pairwise fun f g => f.number ≠ g.number) (tight : v.LargestKept)
    (userKey : K) (sequence : Nat) :
    ∃ found, AnswersEntries v.entries userKey sequence found ∧
      (v.get userKey sequence).1 = found.bind Entry.read := by
  refine ⟨_, ?_, forEach_match rfl⟩
  have deep {level : Nat} (mem : level ∈ range' 1 (kNumLevels - 1)) : 0 < level :=
    (mem_range'_1.mp mem).1
  have newer {i j : Nat} (less : i < j) : NewerEntries ((v.files i).flatMap (·.entries))
      ((v.files j).flatMap (·.entries)) := by
    intro a inA b inB
    obtain ⟨f, inF, inside⟩ := mem_flatMap.mp inA
    obtain ⟨g, inG, inside'⟩ := mem_flatMap.mp inB
    exact recent.levels i j less f inF g inG a inside b inside'
  have levels : AnswersEntries ((range' 1 (kNumLevels - 1)).flatMap fun level =>
      (v.files level).flatMap (·.entries)) userKey sequence _ :=
    Multiversion.Answers.flatMap ((pairwise_lt_range' 1).imp newer) fun level mem =>
      levelFile_answers (disjoint level (deep mem)) (tight level (deep mem))
  have older : NewerEntries ((v.files 0).flatMap (·.entries))
      ((range' 1 (kNumLevels - 1)).flatMap fun level =>
        (v.files level).flatMap (·.entries)) := by
    intro a inA b inB
    obtain ⟨level, mem, inB⟩ := mem_flatMap.mp inB
    exact newer (deep mem) a inA b inB
  have both := (zeroFiles_answers recent.zero numbers).append older levels
  rw [overlapping, findSome?_append, findSome?_map, Search.findSome_filterMap]
  simp only [bind_map]
  exact both

/-- A state in order: levels without overlap, and each source newer than the ones that are
read after it. -/
structure View.InOrder (view : View K V) : Prop where
  memSorted : view.mem.Pairwise fun a b => a.key < b.key
  immSorted : (view.imm.getD []).Pairwise fun a b => a.key < b.key
  disjoint : view.current.LevelsDisjoint
  numbers : (view.current.files 0).Pairwise fun f g => f.number ≠ g.number
  mem_imm : NewerEntries view.mem (view.imm.getD [])
  mem_files : NewerEntries view.mem view.current.entries
  imm_files : NewerEntries (view.imm.getD []) view.current.entries
  recent : view.current.Recent

/-- The read returns the value of the newest entry that the snapshot may see, and NotFound
when there is none or when it is a deletion. -/
def View.ReadsNewest (view : View K V) (userKey : K) : Prop :=
  ∃ found, AnswersEntries view.entries userKey view.snapshot found ∧
    view.get userKey = found.bind Entry.read

theorem View.InOrder.readsNewest {view : View K V} (inOrder : view.InOrder)
    (tight : view.current.LargestKept) (userKey : K) : view.ReadsNewest userKey := by
  obtain ⟨found, answers, isGet⟩ := get_answers inOrder.disjoint inOrder.recent
    inOrder.numbers tight userKey view.snapshot
  have older := (pointRead_answers inOrder.immSorted).append inOrder.imm_files answers
  have newer : NewerEntries view.mem (view.imm.getD [] ++ view.current.entries) := by
    intro a inA b inB
    obtain inB | inB := mem_append.mp inB
    · exact inOrder.mem_imm a inA b inB
    · exact inOrder.mem_files a inA b inB
  refine ⟨_, (pointRead_answers inOrder.memSorted).append newer older, ?_⟩
  have isImm : view.imm.bind (MemTable.get · userKey view.snapshot) =
      (pointRead (view.imm.getD []) userKey view.snapshot).map Entry.read := by
    cases view.imm with
    | none => rfl
    | some imm => exact MemTable.get_eq
  rw [View.get, MemTable.get_eq, isImm, isGet]
  cases pointRead view.mem userKey view.snapshot with
  | some e => rfl
  | none =>
    cases pointRead (view.imm.getD []) userKey view.snapshot with
    | some e => rfl
    | none => rfl

theorem View.get_newest {view : View K V} (inOrder : view.InOrder)
    (tight : view.current.LargestKept) (userKey : K) : view.ReadsNewest userKey :=
  inOrder.readsNewest tight userKey

end

/-- The older of two entries is read with the snapshot before the newer one. -/
theorem get_newest_twoTables :
    View.ReadsNewest ⟨5, [], none, twoTables⟩ 0 ∧
      View.get ⟨5, [], none, twoTables⟩ 0 = some 40 := by
  refine ⟨View.get_newest ⟨.nil, .nil, twoTables_wellFormed.disjoint, .nil, ?_, ?_, ?_,
    twoTables_wellFormed.recent⟩ ?_ 0, by decide +kernel⟩
  · simp [Multiversion.Newer]
  · simp [Multiversion.Newer]
  · simp [Multiversion.Newer]
  · intro level deep f mem
    obtain ⟨-, rfl⟩ | ⟨-, rfl⟩ := mem_twoTables mem
    · exact ⟨_, mem_singleton_self _, rfl⟩
    · exact ⟨_, mem_singleton_self _, rfl⟩

/-- A file that is said to end with an entry of the key 1, and has none. -/
def looseFile : FileMetaData Nat Nat where
  number := 5
  fileSize := 50
  smallest := ⟨0, 9, .value⟩
  largest := ⟨1, 5, .value⟩
  entries := [⟨⟨0, 9, .value⟩, 90⟩]
  ordered := by decide
  sorted := pairwise_singleton _ _
  bounded := by decide
  inRange := by decide

def lastFile : FileMetaData Nat Nat where
  number := 6
  fileSize := 50
  smallest := ⟨1, 3, .value⟩
  largest := ⟨1, 3, .value⟩
  entries := [⟨⟨1, 3, .value⟩, 30⟩]
  ordered := by decide
  sorted := pairwise_singleton _ _
  bounded := by decide
  inRange := by decide

def looseView : View Nat Nat where
  snapshot := 7
  mem := []
  imm := none
  current := {
    files := fun level => if level = 1 then [looseFile, lastFile] else []
    shallow := fun level deep => if_neg fun one => absurd deep (by rw [one]; decide) }

/-- Bounds that only enclose the entries are not enough: the read stops at the loose file
and does not see the entry of the next one. -/
theorem get_misses_behind_loose_bound : looseView.InOrder ∧ ¬ looseView.ReadsNewest 1 := by
  constructor
  · refine ⟨.nil, .nil, fun level deep => ?_, .nil, ?_, ?_, ?_, fun f mem => ?_, ?_⟩
    · simp only [looseView]
      split
      · exact pairwise_pair.mpr (by decide)
      · exact .nil
    · simp [looseView, Multiversion.Newer]
    · simp [looseView, Multiversion.Newer]
    · simp [looseView, Multiversion.Newer]
    · cases mem
    · intro i j less f inF g inG
      simp only [looseView] at inF inG
      split at inF
      · rw [if_neg (by omega)] at inG
        cases inG
      · cases inF
  · rintro ⟨found, answers, isGet⟩
    have missed : looseView.get 1 = none := by decide +kernel
    cases found with
    | none => exact answers.nothing rfl ⟨⟨1, 3, .value⟩, 30⟩ (by decide +kernel) rfl (by decide)
    | some e =>
      have newest := answers.newest e rfl
      have only : ∀ x ∈ looseView.entries, x.userKey = 1 → x.read ≠ none := by decide +kernel
      exact only e newest.mem newest.isKey (isGet.symm.trans missed)

end TalusDB
