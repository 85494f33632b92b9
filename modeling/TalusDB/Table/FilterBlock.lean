import TalusDB.Table.BlockBuilder

/-! Filter blocks: one filter for the data blocks that begin in each window of 2 KB, and behind the
filters the array of their offsets. -/
namespace TalusDB
open Coding List UInt32 BlockBuilder Option

/-- `createFilter` gives what `CreateFilter` appends for an array and a number of keys. -/
structure FilterPolicy where
  name : Bytes
  createFilter : List Slice → Int → Bytes
  keyMayMatch : Slice → Bytes → Bool

/-- `static_cast<int>`. -/
def toInt (n : Nat) : Int := Int.bmod n (2 ^ 32)

/-- The policy never rejects a key that a filter was built from. -/
def FilterPolicy.Accepts (policy : FilterPolicy) (keys : List Slice) : Prop :=
  ∀ key ∈ keys, policy.keyMayMatch key (policy.createFilter keys (toInt keys.length)) = true

def kFilterBaseLg : Nat := 11

def kFilterBase : Nat := 1 <<< kFilterBaseLg

structure FilterBlockBuilder where
  keys : Bytes := []
  start : List Nat := []
  result : Bytes := []
  filterOffsets : List Nat := []

namespace FilterBlockBuilder

def addKey (t : FilterBlockBuilder) (key : Slice) : FilterBlockBuilder :=
  { t with start := t.start ++ [t.keys.length], keys := t.keys ++ key.data }

/-- `tmp_keys_`, which `GenerateFilter` cuts out of `keys_`. -/
def tmpKeys (t : FilterBlockBuilder) : List Slice :=
  let start := t.start ++ [t.keys.length]
  (List.range t.start.length).map fun i =>
    ⟨(t.keys.drop (start.getD i 0)).take (start.getD (i + 1) 0 - start.getD i 0)⟩

def generateFilter (policy : FilterPolicy) (t : FilterBlockBuilder) : FilterBlockBuilder :=
  if t.start.length = 0 then { t with filterOffsets := t.filterOffsets ++ [t.result.length] }
  else
    { keys := []
      start := []
      result := t.result ++ policy.createFilter t.tmpKeys (toInt t.start.length)
      filterOffsets := t.filterOffsets ++ [t.result.length] }

/-- Each round of the loop adds one offset. -/
def startBlock (policy : FilterPolicy) (t : FilterBlockBuilder) (blockOffset : Nat) :
    FilterBlockBuilder :=
  (generateFilter policy)^[blockOffset / kFilterBase - t.filterOffsets.length] t

def finish (policy : FilterPolicy) (t : FilterBlockBuilder) : Bytes :=
  let t := if t.start = [] then t else t.generateFilter policy
  t.result ++ (t.filterOffsets.flatMap (fun offset => encodeFixed32 (ofNat offset)) ++
    (encodeFixed32 (ofNat t.result.length) ++ [UInt8.ofNat kFilterBaseLg]))

end FilterBlockBuilder

/-- `offset` is where `offset_` points to in the contents. -/
structure FilterBlockReader where
  data : Bytes := []
  offset : Nat := 0
  num : Nat := 0
  baseLg : Nat := 0

namespace FilterBlockReader

def new (contents : Bytes) : FilterBlockReader :=
  let n := contents.length
  if n < 5 then {}
  else
    let baseLg := (contents.getD (n - 1) 0).toNat
    let lastWord := (decodeFixed32 (contents.drop (n - 5))).toNat
    if n - 5 < lastWord then { baseLg }
    else { data := contents, offset := lastWord, num := (n - 5 - lastWord) / 4, baseLg }

/-- There is no result if the array ends before the filter's limit. -/
def keyMayMatch (policy : FilterPolicy) (r : FilterBlockReader) (blockOffset : Nat) (key : Slice) :
    Option Bool :=
  let index := blockOffset >>> r.baseLg
  if index < r.num then do
    let start ← readFixed32 r.data (r.offset + index * 4)
    let limit ← readFixed32 r.data (r.offset + index * 4 + 4)
    if start ≤ limit ∧ limit ≤ r.offset then do
      let filter ← readBytes r.data start (limit - start)
      some (policy.keyMayMatch key filter)
    else some (start ≠ limit)
  else some true

end FilterBlockReader

/-! ### The filters of the windows -/

/-- Where the `i`-th of some parts begins when they are written one after another. -/
def partOffset (parts : List Bytes) (i : Nat) : Nat := (parts.take i).flatten.length

theorem partOffset_length (parts : List Bytes) :
    partOffset parts parts.length = parts.flatten.length := by
  rw [partOffset, take_length]

theorem range_partOffset_concat (parts : List Bytes) (part : Bytes) :
    (List.range (parts ++ [part]).length).map (partOffset (parts ++ [part])) =
      (List.range parts.length).map (partOffset parts) ++ [parts.flatten.length] := by
  rw [length_append, length_singleton, range_succ, map_append]
  congr 1
  · refine map_congr_left fun i mem => ?_
    rw [partOffset, take_append_of_le_length (mem_range.mp mem).le, partOffset]
  · simp [partOffset]

variable {parts : List Bytes} {i : Nat} {part : Bytes}

theorem partOffset_succ (isPart : parts[i]? = some part) :
    partOffset parts (i + 1) = partOffset parts i + part.length := by
  simp [partOffset, take_add_one, isPart]

theorem partOffset_le (parts : List Bytes) (i : Nat) :
    partOffset parts i ≤ parts.flatten.length := by
  have split := congrArg (fun l => l.flatten.length) (take_append_drop i parts)
  simp only [flatten_append, length_append] at split
  rw [partOffset]
  omega

theorem drop_partOffset (isPart : parts[i]? = some part) :
    ∃ rest, parts.flatten.drop (partOffset parts i) = part ++ rest := by
  refine ⟨(parts.drop (i + 1)).flatten, ?_⟩
  obtain ⟨bound, rfl⟩ := List.getElem?_eq_some_iff.mp isPart
  conv_lhs => rw [← take_append_drop i parts, flatten_append]
  rw [partOffset, take_append_drop, drop_left, drop_eq_getElem_cons bound,
    flatten_cons]

section windows
variable {policy : FilterPolicy} {windows : List (List Slice)} {ks : List Slice}
  {t : FilterBlockBuilder}

/-- The bytes of the filter of a window. A window without keys has none. -/
def filterBytes (policy : FilterPolicy) (keys : List Slice) : Bytes :=
  if keys = [] then [] else policy.createFilter keys (toInt keys.length)

/-- The builder has written the filters of some windows, and has gathered keys for the next. -/
structure Filters (policy : FilterPolicy) (windows : List (List Slice)) (ks : List Slice)
    (t : FilterBlockBuilder) : Prop where
  keys : t.keys = (ks.map Slice.data).flatten
  start : t.start = (List.range (ks.map Slice.data).length).map (partOffset (ks.map Slice.data))
  result : t.result = (windows.map (filterBytes policy)).flatten
  offsets : t.filterOffsets = (List.range (windows.map (filterBytes policy)).length).map
    (partOffset (windows.map (filterBytes policy)))

namespace Filters

theorem empty : Filters policy [] [] {} := ⟨rfl, rfl, rfl, rfl⟩

variable (filters : Filters policy windows ks t)
include filters

theorem addKey (key : Slice) : Filters policy windows (ks ++ [key]) (t.addKey key) := by
  refine ⟨?_, ?_, filters.result, filters.offsets⟩
  · simp [FilterBlockBuilder.addKey, filters.keys]
  · rw [map_append, map_singleton, range_partOffset_concat, ← filters.start, ← filters.keys]
    rfl

theorem tmpKeys : t.tmpKeys = ks := by
  have ends : t.start ++ [t.keys.length] =
      (List.range (ks.length + 1)).map (partOffset (ks.map Slice.data)) := by
    rw [filters.start, filters.keys, ← partOffset_length, range_succ, map_append,
      length_map]
    rfl
  have count : t.start.length = ks.length := by simp [filters.start]
  rw [FilterBlockBuilder.tmpKeys, ends, count]
  refine ext_getElem (by simp) fun i bound bound' => ?_
  have isPart : (ks.map Slice.data)[i]? = some ks[i].data := by simp [bound']
  obtain ⟨rest, isRest⟩ := drop_partOffset isPart
  have next := partOffset_succ isPart
  have here : ∀ j ≤ ks.length, ((List.range (ks.length + 1)).map
      (partOffset (ks.map Slice.data))).getD j 0 = partOffset (ks.map Slice.data) j := by
    intro j atMost
    rw [getD_eq_getElem?_getD]
    simp [Nat.lt_succ_of_le atMost]
  rw [getElem_map, getElem_range, here i bound'.le, here (i + 1) bound', next,
    Nat.add_sub_cancel_left, filters.keys, isRest, take_left]

theorem generateFilter : Filters policy (windows ++ [ks]) [] (t.generateFilter policy) := by
  have count : t.start.length = ks.length := by simp [filters.start]
  have offsets : t.filterOffsets ++ [t.result.length] =
      (List.range ((windows ++ [ks]).map (filterBytes policy)).length).map
        (partOffset ((windows ++ [ks]).map (filterBytes policy))) := by
    rw [map_append, map_singleton, range_partOffset_concat, filters.offsets,
      filters.result]
  rw [FilterBlockBuilder.generateFilter]
  split
  case isTrue none =>
    obtain rfl : ks = [] := length_eq_zero_iff.mp (count ▸ none)
    exact ⟨filters.keys, filters.start, by simp [filters.result, filterBytes], offsets⟩
  case isFalse some =>
    have nonempty : ks ≠ [] := by
      rintro rfl
      exact some count
    refine ⟨rfl, rfl, ?_, offsets⟩
    simp [filters.result, filters.tmpKeys, filterBytes, nonempty, count]

end Filters

/-- The keys of the blocks that begin in a window. -/
def windowKeys (placed : List (Nat × Slice)) (i : Nat) : List Slice :=
  (placed.filter fun p => p.1 / kFilterBase = i).map Prod.snd

/-- Each window has its keys, counting the one that keys are gathered for. -/
def Grouped (windows : List (List Slice)) (ks : List Slice) (placed : List (Nat × Slice)) : Prop :=
  ∀ i, (windows ++ [ks]).getD i [] = windowKeys placed i

theorem getD_concat (windows : List (List Slice)) (ks : List Slice) (i : Nat) :
    (windows ++ [ks]).getD i [] = if i = windows.length then ks else windows.getD i [] := by
  simp only [getD_eq_getElem?_getD]
  obtain before | rfl | behind := lt_trichotomy i windows.length
  · rw [List.getElem?_append_left before, if_neg before.ne]
  · simp
  · rw [if_neg behind.ne', List.getElem?_eq_none (by simpa using behind),
      List.getElem?_eq_none behind.le]

section grouped
variable {placed : List (Nat × Slice)}

theorem Grouped.addKey (grouped : Grouped windows ks placed) {offset : Nat}
    (current : windows.length = offset / kFilterBase) (key : Slice) :
    Grouped windows (ks ++ [key]) (placed ++ [(offset, key)]) := by
  intro i
  have before := grouped i
  rw [getD_concat] at before ⊢
  rw [windowKeys, filter_append, map_append, ← windowKeys, ← before, current]
  by_cases here : i = offset / kFilterBase
  · simp [here]
  · simp [here, Ne.symm here]

theorem Grouped.generateFilter (grouped : Grouped windows ks placed) :
    Grouped (windows ++ [ks]) [] placed := by
  intro i
  rw [getD_concat, ← grouped i]
  split
  case isTrue last => rw [last, getD_eq_default _ _ le_rfl]
  case isFalse => rfl

theorem Filters.iterate (filters : Filters policy windows ks t)
    (grouped : Grouped windows ks placed) (n : Nat) :
    ∃ windows' ks', Filters policy windows' ks' ((FilterBlockBuilder.generateFilter policy)^[n] t) ∧
      Grouped windows' ks' placed ∧ windows'.length = windows.length + n := by
  induction n generalizing windows ks t with
  | zero => exact ⟨windows, ks, filters, grouped, rfl⟩
  | succ n ih =>
    obtain ⟨windows', ks', filters', grouped', count⟩ :=
      ih filters.generateFilter grouped.generateFilter
    refine ⟨windows', ks', filters', grouped', ?_⟩
    rw [count, length_append, length_singleton]
    omega

theorem Filters.startBlock (filters : Filters policy windows ks t)
    (grouped : Grouped windows ks placed) {offset : Nat}
    (reached : windows.length ≤ offset / kFilterBase) :
    ∃ windows' ks', Filters policy windows' ks' (t.startBlock policy offset) ∧
      Grouped windows' ks' placed ∧ windows'.length = offset / kFilterBase := by
  have count : t.filterOffsets.length = windows.length := by simp [filters.offsets]
  obtain ⟨windows', ks', filters', grouped', count'⟩ :=
    filters.iterate grouped (offset / kFilterBase - t.filterOffsets.length)
  exact ⟨windows', ks', filters', grouped', by omega⟩

end grouped

/-- The bytes of a filter block: the filters, their offsets with the end of the last one, and the
base. -/
def filterBlock (policy : FilterPolicy) (windows : List (List Slice)) : Bytes :=
  (windows.map (filterBytes policy)).flatten ++
    (((List.range (windows.length + 1)).map (partOffset (windows.map (filterBytes policy)))).flatMap
      (fun offset => encodeFixed32 (ofNat offset)) ++ [UInt8.ofNat kFilterBaseLg])

theorem Filters.finish_eq (filters : Filters policy windows ks t) :
    t.finish policy = filterBlock policy (if ks = [] then windows else windows ++ [ks]) := by
  have written : ∀ {windows : List (List Slice)} {ks : List Slice} {t : FilterBlockBuilder},
      Filters policy windows ks t →
      t.result ++ (t.filterOffsets.flatMap (fun offset => encodeFixed32 (ofNat offset)) ++
        (encodeFixed32 (ofNat t.result.length) ++ [UInt8.ofNat kFilterBaseLg])) =
          filterBlock policy windows := by
    intro windows ks t filters
    rw [filterBlock, filters.result, filters.offsets, ← partOffset_length, range_succ,
      map_append, flatMap_append, length_map]
    simp
  have count : t.start.length = ks.length := by simp [filters.start]
  have none : t.start = [] ↔ ks = [] := by
    rw [← length_eq_zero_iff, count, length_eq_zero_iff]
  rw [FilterBlockBuilder.finish]
  by_cases isNone : ks = []
  · rw [if_pos (none.mpr isNone), if_pos isNone]
    exact written filters
  · rw [if_neg (none.not.mpr isNone), if_neg isNone]
    exact written filters.generateFilter

theorem Filters.finish (filters : Filters policy windows ks t) {placed : List (Nat × Slice)}
    (grouped : Grouped windows ks placed) :
    ∃ all, t.finish policy = filterBlock policy all ∧ ∀ i, all.getD i [] = windowKeys placed i := by
  refine ⟨_, filters.finish_eq, fun i => ?_⟩
  rw [← grouped i]
  split
  case isFalse => rfl
  case isTrue none =>
    rw [none, getD_concat]
    split
    case isTrue last => rw [last, getD_eq_default _ _ le_rfl]
    case isFalse => rfl

theorem drop_filterBlock (policy : FilterPolicy) {i : Nat} (atMost : i ≤ windows.length) :
    ∃ rest, (filterBlock policy windows).drop
        ((windows.map (filterBytes policy)).flatten.length + i * 4) =
      encodeFixed32 (ofNat (partOffset (windows.map (filterBytes policy)) i)) ++ rest := by
  have isWord : ((List.range (windows.length + 1)).map
      (partOffset (windows.map (filterBytes policy))))[i]? =
        some (partOffset (windows.map (filterBytes policy)) i) := by
    simp [Nat.lt_succ_of_le atMost]
  obtain ⟨rest, isRest⟩ := drop_array isWord
  refine ⟨rest ++ [UInt8.ofNat kFilterBaseLg], ?_⟩
  rw [filterBlock, ← drop_drop, drop_left, drop_append_of_le_length, isRest,
    append_assoc]
  rw [array_length, length_map, length_range]
  omega

theorem filterBlock_length (policy : FilterPolicy) (windows : List (List Slice)) :
    (filterBlock policy windows).length =
      (windows.map (filterBytes policy)).flatten.length + windows.length * 4 + 5 := by
  rw [filterBlock, length_append, length_append, array_length,
    length_map, length_range, length_singleton]
  omega

theorem new_filterBlock (small : (filterBlock policy windows).length < 2 ^ 32) :
    FilterBlockReader.new (filterBlock policy windows) =
      { data := filterBlock policy windows
        offset := (windows.map (filterBytes policy)).flatten.length
        num := windows.length
        baseLg := kFilterBaseLg } := by
  have length := filterBlock_length policy windows
  have base : (filterBlock policy windows).getD ((filterBlock policy windows).length - 1) 0 =
      UInt8.ofNat kFilterBaseLg := by
    rw [getD_eq_getElem?_getD, ← List.getLast?_eq_getElem?, filterBlock, ← append_assoc,
      List.getLast?_concat]
    rfl
  have last : (decodeFixed32 ((filterBlock policy windows).drop
      ((filterBlock policy windows).length - 5))).toNat =
        (windows.map (filterBytes policy)).flatten.length := by
    obtain ⟨rest, isRest⟩ := drop_filterBlock policy (le_refl windows.length)
    have start : (filterBlock policy windows).length - 5 =
        (windows.map (filterBytes policy)).flatten.length + windows.length * 4 := by omega
    have whole := partOffset_length (windows.map (filterBytes policy))
    rw [length_map] at whole
    rw [start, isRest, decodeFixed32_encodeFixed32, whole, toNat_ofNat_of_lt']
    change _ < 2 ^ 32
    omega
  simp only [FilterBlockReader.new]
  rw [if_neg (by omega), last, if_neg (by omega), base]
  congr 1
  omega

theorem keyMayMatch_filterBlock (small : (filterBlock policy windows).length < 2 ^ 32)
    (blockOffset : Nat) (key : Slice) :
    (FilterBlockReader.new (filterBlock policy windows)).keyMayMatch policy blockOffset key =
      some ((windows[blockOffset / kFilterBase]?).elim true fun keys =>
        policy.keyMayMatch key (filterBytes policy keys)) := by
  set parts := windows.map (filterBytes policy) with isParts
  have length := filterBlock_length policy windows
  rw [← isParts] at length
  have word : ∀ i ≤ windows.length,
      readFixed32 (filterBlock policy windows) (parts.flatten.length + i * 4) =
        some (partOffset parts i) := by
    intro i atMost
    obtain ⟨rest, written⟩ := drop_filterBlock policy atMost
    rw [← isParts] at written
    have bound := partOffset_le parts i
    rw [readFixed32_written written, toNat_ofNat_of_lt']
    change _ < 2 ^ 32
    omega
  have shift : blockOffset >>> kFilterBaseLg = blockOffset / kFilterBase :=
    Nat.shiftRight_eq_div_pow blockOffset 11
  rw [new_filterBlock small, FilterBlockReader.keyMayMatch, ← isParts]
  simp only [shift]
  cases isKeys : windows[blockOffset / kFilterBase]? with
  | none =>
    rw [if_neg (Nat.not_lt.mpr (List.getElem?_eq_none_iff.mp isKeys))]
    rfl
  | some keys =>
    have bound := (List.getElem?_eq_some_iff.mp isKeys).1
    have isPart : parts[blockOffset / kFilterBase]? = some (filterBytes policy keys) := by
      simp [isParts, isKeys]
    have next := partOffset_succ isPart
    have inside := partOffset_le parts (blockOffset / kFilterBase + 1)
    obtain ⟨rest, isRest⟩ := drop_partOffset isPart
    have written : (filterBlock policy windows).drop (partOffset parts (blockOffset / kFilterBase)) =
        filterBytes policy keys ++ (rest ++ (filterBlock policy windows).drop parts.flatten.length) := by
      rw [filterBlock, drop_left, ← isParts,
        drop_append_of_le_length (partOffset_le parts _), isRest, append_assoc]
    have second := word (blockOffset / kFilterBase + 1) bound
    rw [Nat.add_mul, Nat.one_mul, ← Nat.add_assoc] at second
    rw [if_pos bound, word _ bound.le, second]
    simp only [bind_eq_bind, bind_some]
    rw [if_pos (by omega), next, Nat.add_sub_cancel_left, readBytes_written written (by omega)]
    rfl

end windows

/-! ### Blocks -/

section blocks
variable {policy : FilterPolicy} {windows : List (List Slice)} {ks : List Slice}
  {t : FilterBlockBuilder} {placed : List (Nat × Slice)}

/-- The calls that `TableBuilder` makes for data blocks at some offsets, with their keys. -/
def buildFilters (policy : FilterPolicy) (blocks : List (Nat × List Slice)) (t : FilterBlockBuilder) :
    FilterBlockBuilder :=
  blocks.foldl (fun t block => block.2.foldl .addKey (t.startBlock policy block.1)) t

/-- The contents of the filter block for some data blocks. -/
def filterContents (policy : FilterPolicy) (blocks : List (Nat × List Slice)) : Bytes :=
  (buildFilters policy blocks {}).finish policy

/-- The keys, each with the offset of its block. -/
def placedKeys (blocks : List (Nat × List Slice)) : List (Nat × Slice) :=
  blocks.flatMap fun block => block.2.map (block.1, ·)

theorem Filters.addKeys (filters : Filters policy windows ks t) (keys : List Slice) :
    Filters policy windows (ks ++ keys) (keys.foldl .addKey t) := by
  induction keys generalizing ks t with
  | nil => simpa using filters
  | cons key keys ih =>
    rw [append_cons]
    exact ih (filters.addKey key)

variable {offset : Nat} {blocks : List (Nat × List Slice)} {key : Slice} {keys : List Slice}

theorem Grouped.addKeys (grouped : Grouped windows ks placed)
    (current : windows.length = offset / kFilterBase) (keys : List Slice) :
    Grouped windows (ks ++ keys) (placed ++ keys.map (offset, ·)) := by
  induction keys generalizing ks placed with
  | nil => simpa using grouped
  | cons key keys ih =>
    rw [append_cons ks key keys, map_cons, append_cons placed]
    exact ih (grouped.addKey current key)

theorem Filters.build (filters : Filters policy windows ks t) (grouped : Grouped windows ks placed)
    (increasing : blocks.Pairwise fun b c => b.1 < c.1)
    (reached : ∀ block ∈ blocks, windows.length ≤ block.1 / kFilterBase) :
    ∃ windows' ks', Filters policy windows' ks' (buildFilters policy blocks t) ∧
      Grouped windows' ks' (placed ++ placedKeys blocks) := by
  induction blocks generalizing windows ks t placed with
  | nil => exact ⟨windows, ks, filters, by simpa [placedKeys] using grouped⟩
  | cons block blocks ih =>
    obtain ⟨after, increasing⟩ := pairwise_cons.mp increasing
    obtain ⟨windows', ks', filters', grouped', current⟩ :=
      filters.startBlock grouped (reached block mem_cons_self)
    have more := grouped'.addKeys current block.2
    obtain ⟨windows₂, ks₂, filters₂, grouped₂⟩ := ih (filters'.addKeys block.2) more increasing
      (fun other mem => current ▸ Nat.div_le_div_right (after other mem).le)
    refine ⟨windows₂, ks₂, filters₂, ?_⟩
    rwa [placedKeys, flatMap_cons, ← append_assoc]

theorem keyMayMatch_congr {key' : Slice}
    (same : ∀ filter, policy.keyMayMatch key filter = policy.keyMayMatch key' filter)
    (r : FilterBlockReader) (offset : Nat) :
    r.keyMayMatch policy offset key = r.keyMayMatch policy offset key' := by
  simp only [FilterBlockReader.keyMayMatch, same]

theorem keyMayMatch_blocks (increasing : blocks.Pairwise fun b c => b.1 < c.1)
    (small : (filterContents policy blocks).length < 2 ^ 32)
    (accepts : ∀ i, policy.Accepts (windowKeys (placedKeys blocks) i))
    (isBlock : (offset, keys) ∈ blocks) (mem : key ∈ keys) :
    (FilterBlockReader.new (filterContents policy blocks)).keyMayMatch policy offset key =
      some true := by
  have start : Grouped [] [] [] := by
    intro i
    cases i <;> rfl
  obtain ⟨windows, ks, filters, grouped⟩ :=
    Filters.empty.build start increasing fun block _ => Nat.zero_le _
  obtain ⟨all, isBlockBytes, windowsAre⟩ := filters.finish grouped
  have inWindow : key ∈ windowKeys (placedKeys blocks) (offset / kFilterBase) := by
    refine mem_map.mpr ⟨(offset, key), mem_filter.mpr ⟨?_, by simp⟩, rfl⟩
    exact mem_flatMap.mpr ⟨_, isBlock, mem_map.mpr ⟨key, mem, rfl⟩⟩
  rw [filterContents, isBlockBytes] at small ⊢
  rw [keyMayMatch_filterBlock small]
  cases isWindow : all[offset / kFilterBase]? with
  | none => rfl
  | some window =>
    have same := windowsAre (offset / kFilterBase)
    rw [getD_eq_getElem?_getD, isWindow, getD_some, nil_append] at same
    subst same
    have nonempty := ne_nil_of_mem inWindow
    rw [elim_some, filterBytes, if_neg nonempty]
    exact congrArg some (accepts _ key inWindow)

theorem filterContents_single (policy : FilterPolicy) (nonempty : keys ≠ []) :
    filterContents policy [(0, keys)] = filterBlock policy [keys] := by
  have filters : Filters policy [] ([] ++ keys) (keys.foldl .addKey {}) := Filters.empty.addKeys keys
  have idle : ({} : FilterBlockBuilder).startBlock policy 0 = {} := by
    rw [FilterBlockBuilder.startBlock, Nat.zero_div, Nat.zero_sub]
    rfl
  rw [nil_append] at filters
  rw [filterContents, buildFilters, foldl_cons, foldl_nil, idle, filters.finish_eq,
    if_neg nonempty, nil_append]

end blocks
end TalusDB
