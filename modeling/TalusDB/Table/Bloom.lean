import TalusDB.Table.FilterBlock
import TalusDB.DB.KeyBytes

/-! The built-in Bloom filter policy of `util/bloom.cc` with the hash of `util/hash.h`, and
`InternalFilterPolicy`, which applies a policy to the user keys of internal keys. -/
namespace TalusDB
open Coding List UInt32

/-! ### `util/hash.h` -/

def kMul : UInt32 := 0xc6a4a793

/-- The loop over the words, and the `switch` over the bytes that are left. -/
def hashBytes : Bytes → UInt32 → UInt32
  | b0 :: b1 :: b2 :: b3 :: rest, hash =>
    let word := b0.toUInt32 ||| (b1.toUInt32 <<< 8) ||| (b2.toUInt32 <<< 16) ||| (b3.toUInt32 <<< 24)
    let hash := (hash + word) * kMul
    hashBytes rest (hash ^^^ (hash >>> 16))
  | [b0, b1, b2], hash =>
    let hash := (hash + (b2.toUInt32 <<< 16) + (b1.toUInt32 <<< 8) + b0.toUInt32) * kMul
    hash ^^^ (hash >>> 24)
  | [b0, b1], hash =>
    let hash := (hash + (b1.toUInt32 <<< 8) + b0.toUInt32) * kMul
    hash ^^^ (hash >>> 24)
  | [b0], hash =>
    let hash := (hash + b0.toUInt32) * kMul
    hash ^^^ (hash >>> 24)
  | [], hash => hash

def hash (data : Bytes) (seed : UInt32) : UInt32 :=
  hashBytes data (seed ^^^ (ofNat data.length * kMul))

/-! ### `util/bloom.cc` -/

namespace Bloom

def bloomHash (key : Slice) : UInt32 := hash key.data 0xbc9f1d34

def delta (h : UInt32) : UInt32 := (h >>> 17) ||| (h <<< 15)

/-- `k_`, the number of probes. -/
def probes (bitsPerKey : Nat) : Nat :=
  let k := (Float.ofNat bitsPerKey * 0.69).toUInt64.toNat
  let k := if k < 1 then 1 else k
  if 30 < k then 30 else k

def bit (bitpos : Nat) : UInt8 := 1 <<< UInt8.ofNat (bitpos % 8)

def setBit (array : Bytes) (bitpos : Nat) : Bytes :=
  array.modify (bitpos / 8) (· ||| bit bitpos)

def testBit (array : Bytes) (bitpos : Nat) : Bool := array.getD (bitpos / 8) 0 &&& bit bitpos ≠ 0

/-- The inner loop of `CreateFilter`. -/
def setProbes (bits : Nat) (delta : UInt32) : Nat → UInt32 → Bytes → Bytes
  | 0, _, array => array
  | k + 1, h, array => setProbes bits delta k (h + delta) (setBit array (h.toNat % bits))

/-- The loop of `KeyMayMatch`. -/
def testProbes (bits : Nat) (delta : UInt32) : Nat → UInt32 → Bytes → Bool
  | 0, _, _ => true
  | k + 1, h, array =>
    if testBit array (h.toNat % bits) then testProbes bits delta k (h + delta) array else false

def addKey (bits k : Nat) (array : Bytes) (key : Slice) : Bytes :=
  setProbes bits (delta (bloomHash key)) k (bloomHash key) array

/-- The size of the bitmap. `n` is converted to `size_t`. -/
def filterSize (bitsPerKey : Nat) (n : Int) : Nat :=
  let bits := (n * bitsPerKey % 2 ^ 64).toNat
  let bits := if bits < 64 then 64 else bits
  (bits + 7) % 2 ^ 64 / 8

def createFilter (bitsPerKey : Nat) (keys : List Slice) (n : Int) : Bytes :=
  let bytes := filterSize bitsPerKey n
  (keys.take n.toNat).foldl (addKey (bytes * 8) (probes bitsPerKey)) (List.replicate bytes 0) ++
    [UInt8.ofNat (probes bitsPerKey)]

def keyMayMatch (key : Slice) (filter : Bytes) : Bool :=
  let len := filter.length
  if len < 2 then false
  else
    let bits := (len - 1) * 8
    let k := (filter.getD (len - 1) 0).toNat
    if 30 < k then true
    else testProbes bits (delta (bloomHash key)) k (bloomHash key) filter

end Bloom

def bloomFilterPolicy (bitsPerKey : Nat) : FilterPolicy where
  name := "db.BuiltinBloomFilter2".toUTF8.toList
  createFilter := Bloom.createFilter bitsPerKey
  keyMayMatch := Bloom.keyMayMatch

/-- The user keys are put in the place of the keys. -/
def internalFilterPolicy (user : FilterPolicy) : FilterPolicy where
  name := user.name
  createFilter keys n := user.createFilter
    ((keys.take n.toNat).map (fun key => extractUserKey key.data) ++ keys.drop n.toNat) n
  keyMayMatch key filter := user.keyMayMatch (extractUserKey key.data) filter

namespace Bloom

/-- All bits that are set in `a` are set in `b`. -/
def Covers (a b : Bytes) : Prop := ∀ bitpos, testBit a bitpos = true → testBit b bitpos = true

section bits
variable {array a b : Bytes} {bits : Nat}

theorem bit_ne_zero (bitpos : Nat) : bit bitpos ≠ 0 := by
  have small : bitpos % 8 < 8 := Nat.mod_lt _ (by decide)
  rw [bit]
  interval_cases bitpos % 8 <;> decide

theorem or_and_ne_zero {x y m : UInt8} (set : x &&& m ≠ 0) : (x ||| y) &&& m ≠ 0 := by
  have absorb : x &&& m = x &&& ((x ||| y) &&& m) := by
    apply UInt8.toBitVec_inj.mp
    ext i bound
    simp only [UInt8.toBitVec_and, UInt8.toBitVec_or, BitVec.getElem_and, BitVec.getElem_or]
    cases x.toBitVec[i] <;> simp
  intro zero
  rw [zero, UInt8.and_zero] at absorb
  exact set absorb

theorem or_and_self (x m : UInt8) : (x ||| m) &&& m = m := by
  apply UInt8.toBitVec_inj.mp
  ext i bound
  simp only [UInt8.toBitVec_and, UInt8.toBitVec_or, BitVec.getElem_and, BitVec.getElem_or]
  cases m.toBitVec[i] <;> simp

theorem getD_setBit (array : Bytes) (p j : Nat) : (setBit array p).getD j 0 =
    if p / 8 = j ∧ j < array.length then array.getD j 0 ||| bit p else array.getD j 0 := by
  simp only [getD_eq_getElem?_getD, setBit, getElem?_modify]
  by_cases inside : j < array.length
  · by_cases here : p / 8 = j <;> simp [inside, here]
  · simp [inside]

theorem setBit_covers (array : Bytes) (p : Nat) : Covers array (setBit array p) := by
  intro q set
  rw [testBit, decide_eq_true_eq] at set ⊢
  rw [getD_setBit]
  split
  · exact or_and_ne_zero set
  · exact set

theorem testBit_setBit {p : Nat} (inside : p / 8 < array.length) :
    testBit (setBit array p) p = true := by
  rw [testBit, decide_eq_true_eq, getD_setBit, if_pos ⟨rfl, inside⟩, or_and_self]
  exact bit_ne_zero p

theorem append_covers (array rest : Bytes) : Covers array (array ++ rest) := by
  intro p set
  by_cases inside : p / 8 < array.length
  · rwa [testBit, getD_append _ _ _ _ inside]
  · rw [testBit, getD_eq_default _ _ (Nat.le_of_not_lt inside)] at set
    simp at set

theorem Covers.testProbes {delta h : UInt32} {k : Nat} (covers : Covers a b)
    (all : testProbes bits delta k h a = true) : testProbes bits delta k h b = true := by
  induction k generalizing h with
  | zero => rfl
  | succ k ih =>
    rw [Bloom.testProbes] at all ⊢
    split at all
    case isTrue set =>
      rw [if_pos (covers _ set)]
      exact ih all
    case isFalse => cases all

theorem setProbes_length (bits k : Nat) (delta h : UInt32) (array : Bytes) :
    (setProbes bits delta k h array).length = array.length := by
  induction k generalizing h array with
  | zero => rfl
  | succ k ih =>
    rw [setProbes, ih]
    exact length_modify _ _ _

theorem setProbes_covers (bits k : Nat) (delta h : UInt32) (array : Bytes) :
    Covers array (setProbes bits delta k h array) := by
  induction k generalizing h array with
  | zero => exact fun _ set => set
  | succ k ih => exact fun p set => ih _ _ p (setBit_covers array _ p set)

theorem testProbes_setProbes (inside : bits ≤ array.length * 8) (positive : 0 < bits) (k : Nat)
    (delta h : UInt32) : testProbes bits delta k h (setProbes bits delta k h array) = true := by
  induction k generalizing h array with
  | zero => rfl
  | succ k ih =>
    have below : h.toNat % bits < bits := Nat.mod_lt _ positive
    have set : testBit (setBit array (h.toNat % bits)) (h.toNat % bits) = true :=
      testBit_setBit (by omega)
    have kept := setProbes_covers bits k delta (h + delta) (setBit array (h.toNat % bits)) _ set
    rw [setProbes, testProbes, if_pos kept]
    apply ih
    rwa [setBit, length_modify]

end bits

section keys
variable {array : Bytes} {bits k : Nat}

theorem addKeys_length (bits k : Nat) (keys : List Slice) (array : Bytes) :
    (keys.foldl (addKey bits k) array).length = array.length := by
  induction keys generalizing array with
  | nil => rfl
  | cons key keys ih =>
    rw [foldl_cons, ih]
    exact setProbes_length _ _ _ _ _

theorem addKeys_covers (bits k : Nat) (keys : List Slice) (array : Bytes) :
    Covers array (keys.foldl (addKey bits k) array) := by
  induction keys generalizing array with
  | nil => exact fun _ set => set
  | cons key keys ih => exact fun p set => ih _ p (setProbes_covers _ _ _ _ _ p set)

theorem testProbes_addKeys (inside : bits ≤ array.length * 8) (positive : 0 < bits)
    {keys : List Slice} {key : Slice} (mem : key ∈ keys) :
    testProbes bits (delta (bloomHash key)) k (bloomHash key) (keys.foldl (addKey bits k) array) =
      true := by
  induction keys generalizing array with
  | nil => cases mem
  | cons first keys ih =>
    rw [foldl_cons]
    rcases mem_cons.mp mem with rfl | mem
    · exact (addKeys_covers _ _ _ _).testProbes (testProbes_setProbes inside positive k _ _)
    · refine ih ?_ mem
      rwa [addKey, setProbes_length]

theorem probes_bounds (bitsPerKey : Nat) : 1 ≤ probes bitsPerKey ∧ probes bitsPerKey ≤ 30 := by
  unfold probes
  dsimp only
  split <;> split <;> omega

end keys

theorem toInt_small {n : Nat} (small : n < 2 ^ 31) : toInt n = n := by
  have low : -((2 ^ 32 : Int) / 2) ≤ n := by omega
  have high : (n : Int) < ((2 ^ 32 : Int) + 1) / 2 := by omega
  exact Int.bmod_eq_of_le low high

theorem filterSize_pos {bitsPerKey n : Nat} (few : n < 2 ^ 31) (isInt : bitsPerKey < 2 ^ 31) :
    0 < filterSize bitsPerKey n := by
  have product : n * bitsPerKey ≤ 2147483648 * 2147483648 :=
    Nat.mul_le_mul (by omega) (by omega)
  have bits : ((n : Int) * bitsPerKey % 2 ^ 64).toNat = n * bitsPerKey := by
    rw [← Int.natCast_mul]
    omega
  rw [filterSize, bits]
  split <;> omega

theorem accepts {bitsPerKey : Nat} (isInt : bitsPerKey < 2 ^ 31) {keys : List Slice}
    (few : keys.length < 2 ^ 31) : (bloomFilterPolicy bitsPerKey).Accepts keys := by
  intro key mem
  obtain ⟨low, high⟩ := probes_bounds bitsPerKey
  have size := filterSize_pos few isInt
  have stored : (UInt8.ofNat (probes bitsPerKey)).toNat = probes bitsPerKey := by
    rw [UInt8.toNat_ofNat']
    omega
  set bytes := filterSize bitsPerKey keys.length with isBytes
  set array := keys.foldl (addKey (bytes * 8) (probes bitsPerKey)) (replicate bytes 0)
    with isArray
  have length : array.length = bytes := by rw [isArray, addKeys_length, length_replicate]
  have filter : (bloomFilterPolicy bitsPerKey).createFilter keys (toInt keys.length) =
      array ++ [UInt8.ofNat (probes bitsPerKey)] := by
    rw [toInt_small few]
    show createFilter bitsPerKey keys keys.length = _
    rw [createFilter, ← isBytes, Int.toNat_natCast, take_length]
  have count : (array ++ [UInt8.ofNat (probes bitsPerKey)]).length = bytes + 1 := by
    rw [length_append, length_singleton, length]
  rw [filter]
  show keyMayMatch key _ = true
  have last : (array ++ [UInt8.ofNat (probes bitsPerKey)]).getD bytes 0 =
      UInt8.ofNat (probes bitsPerKey) := by
    rw [← length, getD_append_right _ _ _ _ le_rfl, Nat.sub_self]
    rfl
  rw [keyMayMatch, count]
  dsimp only
  rw [if_neg (by omega), Nat.add_sub_cancel, last, stored, if_neg (by omega)]
  apply (append_covers array _).testProbes
  exact testProbes_addKeys (by rw [length_replicate]) (by omega) mem

theorem keyMayMatch_empty (key : Slice) {bytes k : Nat} (size : 0 < bytes) (some : 1 ≤ k)
    (few : k ≤ 30) : keyMayMatch key (List.replicate bytes 0 ++ [UInt8.ofNat k]) = false := by
  have stored : (UInt8.ofNat k).toNat = k := by
    rw [UInt8.toNat_ofNat']
    omega
  have last : (replicate bytes 0 ++ [UInt8.ofNat k]).getD bytes 0 = UInt8.ofNat k := by
    rw [getD_append_right _ _ _ _ (by rw [length_replicate]), length_replicate,
      Nat.sub_self]
    rfl
  have clear : testBit (replicate bytes 0 ++ [UInt8.ofNat k])
      ((bloomHash key).toNat % (bytes * 8)) = false := by
    have below : (bloomHash key).toNat % (bytes * 8) < bytes * 8 := Nat.mod_lt _ (by omega)
    have zero : (replicate bytes (0 : UInt8) ++ [UInt8.ofNat k]).getD
        ((bloomHash key).toNat % (bytes * 8) / 8) 0 = 0 := by
      rw [getD_append _ _ _ _ (by rw [length_replicate]; omega), getD_replicate _ _ ]
      omega
    rw [testBit, zero, UInt8.zero_and]
    rfl
  obtain ⟨j, rfl⟩ := Nat.exists_eq_add_of_le' some
  rw [keyMayMatch, length_append, length_replicate, length_singleton]
  dsimp only
  rw [if_neg (by omega), Nat.add_sub_cancel, last, stored, if_neg (by omega), testProbes, clear]
  rfl

end Bloom

section internal
variable {user : FilterPolicy} {keys : List Slice}

theorem internalFilterPolicy_accepts (few : keys.length < 2 ^ 31)
    (accepts : user.Accepts (keys.map fun key => extractUserKey key.data)) :
    (internalFilterPolicy user).Accepts keys := by
  intro key mem
  have accepted := accepts (extractUserKey key.data) (mem_map_of_mem mem)
  rw [length_map, Bloom.toInt_small few] at accepted
  rw [Bloom.toInt_small few]
  show user.keyMayMatch (extractUserKey key.data) (user.createFilter _ _) = true
  rwa [Int.toNat_natCast, take_length, drop_length, append_nil]

end internal

/-- No window gets as many keys as an `int` cannot count. -/
def FewKeys (blocks : List (Nat × List Slice)) : Prop :=
  ∀ i, (windowKeys (placedKeys blocks) i).length < 2 ^ 31

/-- The built-in policy never hides a key of a block, nor, wrapped for internal keys, any internal key
with the user key of one. -/
theorem bloomFilters_accept (bitsPerKey : Nat) (isInt : bitsPerKey < 2 ^ 31)
    (blocks : List (Nat × List Slice)) (increasing : blocks.Pairwise fun b c => b.1 < c.1)
    (few : FewKeys blocks) :
    let bloom := bloomFilterPolicy bitsPerKey
    let internal := internalFilterPolicy bloom
    ((filterContents bloom blocks).length < 2 ^ 32 →
      ∀ offset keys key, (offset, keys) ∈ blocks → key ∈ keys →
        (FilterBlockReader.new (filterContents bloom blocks)).keyMayMatch bloom offset key =
          some true) ∧
    ((filterContents internal blocks).length < 2 ^ 32 →
      ∀ offset keys key key', (offset, keys) ∈ blocks → key ∈ keys →
        extractUserKey key'.data = extractUserKey key.data →
        (FilterBlockReader.new (filterContents internal blocks)).keyMayMatch internal offset key' =
          some true) := by
  intro bloom internal
  constructor
  · intro small offset keys key isBlock mem
    exact keyMayMatch_blocks increasing small (fun i => Bloom.accepts isInt (few i)) isBlock mem
  · intro small offset keys key key' isBlock mem sameUser
    have accepts (i : Nat) : internal.Accepts (windowKeys (placedKeys blocks) i) := by
      apply internalFilterPolicy_accepts (few i)
      apply Bloom.accepts isInt
      rw [length_map]
      exact few i
    have same (filter : Bytes) : internal.keyMayMatch key' filter = internal.keyMayMatch key filter :=
      congrArg (bloom.keyMayMatch · filter) sameUser
    rw [keyMayMatch_congr same]
    exact keyMayMatch_blocks increasing small accepts isBlock mem

/-- Two blocks with filters of their own. -/
theorem bloomFilters_accept_two : let blocks := [(0, [⟨[1]⟩, ⟨[1, 2]⟩]), (5000, [⟨[3]⟩])]
    (FilterBlockReader.new (filterContents (bloomFilterPolicy 10) blocks)).keyMayMatch
      (bloomFilterPolicy 10) 0 ⟨[1, 2]⟩ = some true ∧
    (FilterBlockReader.new (filterContents (bloomFilterPolicy 10) blocks)).keyMayMatch
      (bloomFilterPolicy 10) 5000 ⟨[3]⟩ = some true := by
  intro blocks
  have few : FewKeys blocks := by
    intro i
    rw [windowKeys, length_map]
    exact (length_filter_le _ _).trans_lt (by decide)
  have accept := (bloomFilters_accept 10 (by decide) blocks (by simp [blocks]) few).1
    (by decide +kernel)
  exact ⟨accept 0 _ _ mem_cons_self (by simp), accept 5000 _ _ (.tail _ mem_cons_self) (by simp)⟩

theorem bloomFilter_hides {keys : List Slice} (count : keys.length = 2 ^ 31) (key : Slice) :
    (filterContents (bloomFilterPolicy 0) [(0, keys)]).length < 2 ^ 32 ∧
      (FilterBlockReader.new (filterContents (bloomFilterPolicy 0) [(0, keys)])).keyMayMatch
        (bloomFilterPolicy 0) 0 key = some false := by
  have nonempty : keys ≠ [] := by
    rintro rfl
    simp at count
  have size : Bloom.filterSize 0 (-2 ^ 31) = 8 := by decide +kernel
  have none : (-2 ^ 31 : Int).toNat = 0 := by decide +kernel
  have negative : toInt (2 ^ 31) = -2 ^ 31 := by decide +kernel
  have filter : filterBytes (bloomFilterPolicy 0) keys =
      replicate 8 0 ++ [UInt8.ofNat (Bloom.probes 0)] := by
    rw [filterBytes, if_neg nonempty, count, negative]
    show Bloom.createFilter 0 keys (-2 ^ 31) = _
    rw [Bloom.createFilter, size, none, take_zero, foldl_nil]
  have small : (filterBlock (bloomFilterPolicy 0) [keys]).length < 2 ^ 32 := by
    rw [filterBlock_length, map_singleton, filter]
    simp
  obtain ⟨low, high⟩ := Bloom.probes_bounds 0
  rw [filterContents_single _ nonempty, keyMayMatch_filterBlock small]
  refine ⟨small, ?_⟩
  show some (Bloom.keyMayMatch _ (filterBytes (bloomFilterPolicy 0) keys)) = _
  rw [filter, Bloom.keyMayMatch_empty _ (by decide) low high]

/-- `2 ^ 31` different keys of four bytes. -/
def manyKeys : List Slice :=
  (List.range (2 ^ 31)).map fun i => ⟨encodeFixed32 (ofNat i)⟩

theorem manyKeys_nodup : manyKeys.Nodup := by
  refine List.Nodup.map_on ?_ nodup_range
  intro i low j low' same
  have decoded (n : Nat) := decodeFixed32_encodeFixed32 (ofNat n) []
  have words : ofNat i = ofNat j := by
    rw [← decoded i, ← decoded j, Slice.mk.inj same]
  have small {n : Nat} (below : n ∈ range (2 ^ 31)) : (ofNat n).toNat = n := by
    have bound := mem_range.mp below
    rw [toNat_ofNat']
    omega
  rw [← small low, ← small low', words]

/-- With that many keys in the first block, the filter hides the first of them. -/
theorem bloomFilters_hide : ∃ keys : List Slice, keys.Nodup ∧ ∃ key ∈ keys,
    (filterContents (bloomFilterPolicy 0) [(0, keys)]).length < 2 ^ 32 ∧
    (FilterBlockReader.new (filterContents (bloomFilterPolicy 0) [(0, keys)])).keyMayMatch
      (bloomFilterPolicy 0) 0 key = some false := by
  have count : manyKeys.length = 2 ^ 31 := by rw [manyKeys, length_map, length_range]
  refine ⟨manyKeys, manyKeys_nodup, ⟨encodeFixed32 (ofNat 0)⟩, ?_, bloomFilter_hides count _⟩
  exact mem_map.mpr ⟨0, mem_range.mpr (by decide), rfl⟩

end TalusDB
