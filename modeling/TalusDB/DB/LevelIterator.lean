import TalusDB.DB.Overlap
import TalusDB.Table.TwoLevel
import TalusDB.Util.Coding

/-! `NewConcatenatingIterator`: the files of a level as the index of a `TwoLevelIterator` over their
tables. -/
namespace TalusDB
open Coding Cursor List TwoLevelIterator FileMetaData
variable {K V τ : Type} [LinearOrder K] {files : List (FileMetaData K V)} {f : FileMetaData K V}

/-- `value_buf_`: the number and the size of the file. -/
def FileMetaData.valueBuf (f : FileMetaData K V) : Bytes :=
  encodeFixed64 (.ofNat f.number) ++ encodeFixed64 (.ofNat f.fileSize)

/-- `LevelFileNumIterator`, whose state is `index_`. -/
def levelFileNumIterator (flist : List (FileMetaData K V)) : Iterator (InternalKey K) Bytes Nat where
  entry index := flist[index]?.map fun f => (f.largest, f.valueBuf)
  ok _ := true
  step
    | .seek target, _ => some (findFile flist target)
    | .seekToFirst, _ => some 0
    | .seekToLast, _ => some (if flist.isEmpty then 0 else flist.length - 1)
    | .next, index => some (index + 1)
    | .prev, index => some (if index = 0 then flist.length else index - 1)

/-- `GetFileIterator`, over `TableCache::NewIterator` and the iterator for a wrong size. -/
def getFileIterator (newIterator : Nat → Nat → τ) (error : τ) (fileValue : Bytes) : τ :=
  if fileValue.length ≠ 16 then error
  else newIterator (decodeFixed64 fileValue).toNat (decodeFixed64 (fileValue.drop 8)).toNat

/-- The keys of the index. -/
def fileKeys (files : List (FileMetaData K V)) : List (InternalKey K × Bytes) :=
  files.map fun f => (f.largest, f.valueBuf)

def FileMetaData.content (f : FileMetaData K V) : List (InternalKey K × V) :=
  f.entries.map fun e => (e.key, e.value)

theorem SortedDisjoint.fileKeys_sorted (disjoint : SortedDisjoint files) : Sorted (fileKeys files) :=
  pairwise_map.mpr (disjoint.imp fun {_ g} less => less.trans_le g.ordered)

theorem SortedDisjoint.getElem_findFile (disjoint : SortedDisjoint files) (key : InternalKey K) :
    (fileKeys files)[findFile files key]? = (fileKeys files).find? (key ≤ ·.1) := by
  have before : ∀ e ∈ (fileKeys files).take (findFile files key), decide (key ≤ e.1) = false := by
    rw [fileKeys, ← map_take]
    exact forall_mem_map.mpr fun f mem => decide_eq_false (disjoint.findFile_before mem).not_ge
  have behind : ∀ e ∈ (fileKeys files).drop (findFile files key), decide (key ≤ e.1) = true := by
    rw [fileKeys, ← map_drop]
    exact forall_mem_map.mpr fun f mem => decide_eq_true (disjoint.findFile_after mem)
  rw [← List.head?_drop, ← find_split before behind, take_append_drop]

theorem levelFileNumIterator_behaves (disjoint : SortedDisjoint files) :
    Behaves (levelFileNumIterator files) (fileKeys files) fun _ => True := by
  have shown (i : Nat) :
      (levelFileNumIterator files).entry i = entryAt (fileKeys files) (standAt (fileKeys files) i) := by
    simp [levelFileNumIterator, entryAt_standAt, fileKeys]
  intro i op _ allowed
  have inside (valid : (levelFileNumIterator files).valid i = true) : i < (fileKeys files).length := by
    simpa [Iterator.valid, levelFileNumIterator, fileKeys] using valid
  have moves := (disjoint.fileKeys_sorted.move_entry (standAt (fileKeys files) i)
    (by simp [standAt]) op).1
  rw [← shown] at moves
  cases op with
  | seek target =>
    refine ⟨_, rfl, trivial, (shown _).trans ?_⟩
    rw [entryAt_standAt, disjoint.getElem_findFile]
    rfl
  | seekToFirst => exact ⟨_, rfl, trivial, (shown 0).trans moves⟩
  | seekToLast =>
    refine ⟨_, rfl, trivial, (shown _).trans ?_⟩
    rw [← moves, move, fileKeys, length_map]
    cases files <;> rfl
  | next =>
    rw [standAt, if_pos (inside allowed)] at moves
    exact ⟨_, rfl, trivial, (shown _).trans moves⟩
  | prev =>
    rw [standAt, if_pos (inside allowed)] at moves
    refine ⟨_, rfl, trivial, (shown _).trans (Eq.trans ?_ moves)⟩
    rw [entryAt_standAt]
    by_cases first : i = 0 <;> simp [move, first, fileKeys, entryAt]

/-- The content of the file whose number is in the value. -/
def fileContent (files : List (FileMetaData K V)) (value : Bytes) : List (InternalKey K × V) :=
  (files.find? (·.number = (decodeFixed64 value).toNat)).elim [] (·.content)

/-- The numbers and sizes of the files have 64 bits, and no two have one number. -/
structure Numbered (files : List (FileMetaData K V)) : Prop where
  distinct : (files.map (·.number)).Nodup
  number : ∀ f ∈ files, f.number < 2 ^ 64
  fileSize : ∀ f ∈ files, f.fileSize < 2 ^ 64

theorem Numbered.decode (numbered : Numbered files) (mem : f ∈ files) :
    (decodeFixed64 f.valueBuf).toNat = f.number := by
  rw [valueBuf, decodeFixed64_encodeFixed64, UInt64.toNat_ofNat',
    Nat.mod_eq_of_lt (numbered.number f mem)]

theorem Numbered.getFileIterator (numbered : Numbered files) (mem : f ∈ files)
    (newIterator : Nat → Nat → τ) (error : τ) :
    getFileIterator newIterator error f.valueBuf = newIterator f.number f.fileSize := by
  have size : f.valueBuf.drop 8 = encodeFixed64 (.ofNat f.fileSize) ++ [] := by
    rw [append_nil]
    exact drop_left' (encodeFixed64_length _)
  rw [TalusDB.getFileIterator, if_neg (by simp [valueBuf]), numbered.decode mem, size,
    decodeFixed64_encodeFixed64, UInt64.toNat_ofNat', Nat.mod_eq_of_lt (numbered.fileSize f mem)]

theorem Numbered.fileContent (numbered : Numbered files) (mem : f ∈ files) :
    fileContent files f.valueBuf = f.content := by
  have isF : files.find? (·.number = f.number) = some f := by
    cases found : files.find? (·.number = f.number) with
    | none => exact absurd (decide_eq_true rfl) (List.find?_eq_none.mp found f mem)
    | some g =>
      have same : g.number = f.number := by simpa using List.find?_some found
      rw [inj_on_of_nodup_map numbered.distinct (mem_of_find?_eq_some found) mem same]
  rw [TalusDB.fileContent, numbered.decode mem, isF]
  rfl

/-- The index of a level leads to its tables, and their concatenation is sorted. -/
theorem Numbered.levels (numbered : Numbered files) (disjoint : SortedDisjoint files)
    {data : Iterator (InternalKey K) V τ} {newIterator : Nat → Nat → τ} (error : τ)
    {D : Nat → τ → Prop} (tables : ∀ f ∈ files, Behaves data f.content (D f.number) ∧
      D f.number (newIterator f.number f.fileSize)) :
    Levels (levelFileNumIterator files) data (TalusDB.getFileIterator newIterator error)
      (fileKeys files) (TalusDB.fileContent files) (fun _ => True)
      fun value => D (decodeFixed64 value).toNat := by
  have content : concatenation (fileKeys files) (TalusDB.fileContent files) =
      files.flatMap (·.content) := by
    rw [concatenation, fileKeys, flatMap_map]
    exact flatMap_congr fun f mem => numbered.fileContent mem
  refine ⟨levelFileNumIterator_behaves disjoint, disjoint.fileKeys_sorted, ?_, ?_, ?_, ?_, ?_⟩
  case refine_1 =>
    refine forall_mem_map.mpr fun f mem => ?_
    rw [numbered.fileContent mem, numbered.decode mem]
    exact (tables f mem).1
  case refine_2 =>
    refine forall_mem_map.mpr fun f mem => ?_
    rw [numbered.getFileIterator mem, numbered.decode mem]
    exact (tables f mem).2
  case refine_3 =>
    refine forall_mem_map.mpr fun f mem => ?_
    rw [numbered.fileContent mem]
    exact forall_mem_map.mpr fun e inside => (f.bounded e inside).2
  case refine_4 =>
    intro i e e' isE isE'
    rw [fileKeys, List.getElem?_map, Option.map_eq_some_iff] at isE isE'
    obtain ⟨f, isF, rfl⟩ := isE
    obtain ⟨g, isG, rfl⟩ := isE'
    rw [numbered.fileContent (mem_of_getElem? isG)]
    obtain ⟨boundF, rfl⟩ := List.getElem?_eq_some_iff.mp isF
    obtain ⟨boundG, rfl⟩ := List.getElem?_eq_some_iff.mp isG
    have apart := pairwise_iff_getElem.mp disjoint i (i + 1) boundF boundG (Nat.lt_succ_self i)
    exact forall_mem_map.mpr fun x inside => apart.trans_le (bounded _ x inside).1
  case refine_5 =>
    rw [content]
    refine pairwise_flatMap.mpr ⟨fun f _ => pairwise_map.mpr f.sorted, ?_⟩
    refine disjoint.imp fun {f g} less => ?_
    refine forall_mem_map.mpr fun a inA => forall_mem_map.mpr fun b inB => ?_
    exact ((f.bounded a inA).2.trans_lt less).trans_le (g.bounded b inB).1

end TalusDB
