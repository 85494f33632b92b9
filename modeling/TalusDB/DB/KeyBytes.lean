import TalusDB.DB.Format
import TalusDB.Util.Slice

/-! Internal keys as the bytes that memtables and tables hold: a user key and behind it the tag of
eight bytes. User keys are byte strings in the order of the user comparator. -/
namespace TalusDB
open Coding List
open UInt64 (ofNat)

/-- `AppendInternalKey`. -/
def InternalKey.encode (k : InternalKey Slice) : Bytes :=
  k.userKey.data ++ encodeFixed64 (ofNat k.tag)

/-- `ExtractUserKey`. -/
def extractUserKey (key : Bytes) : Slice := ⟨key.take (key.length - 8)⟩

/-- The tag, as the comparator and `MemTable::Get` read it. -/
def extractTag (key : Bytes) : UInt64 := decodeFixed64 (key.drop (key.length - 8))

/-- `InternalKeyComparator::Compare`. -/
def compareKeys [LinearOrder Slice] (a b : Bytes) : Ordering :=
  match compare (extractUserKey a) (extractUserKey b) with
  | .eq =>
    if extractTag b < extractTag a then .lt
    else if extractTag a < extractTag b then .gt else .eq
  | r => r

/-- The type that a tag names, unless its lowest byte is none. -/
def ValueType.ofTag (tag : UInt64) : Option ValueType :=
  if tag &&& 0xff = 0 then some .deletion
  else if tag &&& 0xff = 1 then some .value else none

/-- `ParseInternalKey`. -/
def parseInternalKey (key : Bytes) : Option (InternalKey Slice) :=
  if key.length < 8 then none
  else (ValueType.ofTag (extractTag key)).map fun type =>
    ⟨extractUserKey key, (extractTag key >>> 8).toNat, type⟩

theorem eq_of_extract {x y : Bytes} (longX : 8 ≤ x.length) (longY : 8 ≤ y.length)
    (users : extractUserKey x = extractUserKey y)
    (tags : (extractTag x).toNat = (extractTag y).toNat) : x = y := by
  have fronts : x.take (x.length - 8) = y.take (y.length - 8) := congrArg Slice.data users
  have backs : x.drop (x.length - 8) = y.drop (y.length - 8) := by
    refine eq_of_decodeFixed64 ?_ ?_ (UInt64.toNat_inj.mp tags)
    all_goals
      rw [length_drop]
      omega
  rw [← take_append_drop (x.length - 8) x, fronts, backs, take_append_drop]

theorem compareKeys_lt_iff [LinearOrder Slice] {a b : Bytes} :
    compareKeys a b = .lt ↔ extractUserKey a < extractUserKey b ∨
      extractUserKey a = extractUserKey b ∧ (extractTag b).toNat < (extractTag a).toNat := by
  rw [compareKeys]
  cases order : compare (extractUserKey a) (extractUserKey b) with
  | lt => simp [compare_lt_iff_lt.mp order]
  | eq =>
    have same := compare_eq_iff_eq.mp order
    rw [← UInt64.lt_iff_toNat_lt]
    by_cases newer : extractTag b < extractTag a
    · simp [same, newer]
    · by_cases older : extractTag a < extractTag b
      · simp [same, newer, older]
      · simp [same, newer, older]
  | gt =>
    have greater := compare_gt_iff_gt.mp order
    simp [greater.not_gt, greater.ne']

/-- The bytes of an internal key: they hold a tag. -/
structure TaggedKey where
  rep : Bytes
  tagged : 8 ≤ rep.length

namespace TaggedKey

def userKey (k : TaggedKey) : Slice := extractUserKey k.rep

def tag (k : TaggedKey) : Nat := (extractTag k.rep).toNat

def sequence (k : TaggedKey) : Nat := (extractTag k.rep >>> 8).toNat

def type (k : TaggedKey) : Option ValueType := ValueType.ofTag (extractTag k.rep)

theorem parse_eq (k : TaggedKey) :
    parseInternalKey k.rep = k.type.map fun type => ⟨k.userKey, k.sequence, type⟩ :=
  if_neg (Nat.not_lt.mpr k.tagged)

theorem sequence_eq (k : TaggedKey) : k.sequence = k.tag / 256 := by
  rw [sequence, UInt64.toNat_shiftRight, Nat.shiftRight_eq_div_pow]
  rfl

theorem tag_le (k : TaggedKey) (parses : k.type.isSome) : k.tag ≤ k.sequence * 256 + 1 := by
  have low : (extractTag k.rep &&& 0xff).toNat = k.tag % 2 ^ 8 := by
    rw [UInt64.toNat_and, ← Nat.and_two_pow_sub_one_eq_mod _ 8]
    rfl
  have small : k.tag % 2 ^ 8 ≤ 1 := by
    rw [← low]
    rw [type, ValueType.ofTag] at parses
    split at parses
    case isTrue isZero => simp [isZero]
    case isFalse =>
      split at parses
      case isTrue isOne => simp [isOne]
      case isFalse => cases parses
  rw [sequence_eq]
  omega

variable {a b : TaggedKey}

theorem eq_of_parts (users : a.userKey = b.userKey) (tags : a.tag = b.tag) : a = b := by
  have same := eq_of_extract a.tagged b.tagged users tags
  cases a
  cases same
  rfl

variable [LinearOrder Slice]

/-- The order that `Compare` decides. -/
instance : LinearOrder TaggedKey :=
  LinearOrder.lift' (fun k => toLex (k.userKey, OrderDual.toDual k.tag)) fun _ _ same =>
    eq_of_parts (congrArg (fun x => (ofLex x).1) same)
      (congrArg (fun x => OrderDual.ofDual (ofLex x).2) same)

theorem lt_def : a < b ↔ a.userKey < b.userKey ∨ a.userKey = b.userKey ∧ b.tag < a.tag :=
  Prod.Lex.toLex_lt_toLex

theorem lt_iff_compareKeys : a < b ↔ compareKeys a.rep b.rep = .lt :=
  lt_def.trans compareKeys_lt_iff.symm

theorem userKey_le (less : a < b) : a.userKey ≤ b.userKey :=
  (lt_def.mp less).elim le_of_lt fun both => both.1.le

theorem userKey_mono : Monotone userKey :=
  fun _ _ atMost => atMost.eq_or_lt.elim (fun same => same ▸ le_rfl) userKey_le

theorem sequence_ge (less : a < b) (same : a.userKey = b.userKey) : b.sequence ≤ a.sequence := by
  obtain before | ⟨-, tags⟩ := lt_def.mp less
  · exact absurd same before.ne
  · rw [sequence_eq, sequence_eq]
    omega

end TaggedKey

/-- The bytes of an internal key whose length is one of 32 bits. -/
structure KeyBytes extends TaggedKey where
  short : rep.length < 2 ^ 32

/-- The order that `Compare` decides. -/
instance [LinearOrder Slice] : LinearOrder KeyBytes :=
  LinearOrder.lift' KeyBytes.toTaggedKey fun a b same => by
    cases a
    cases b
    cases same
    rfl

namespace InternalKey
variable {k a b : InternalKey Slice}

theorem extractUserKey_encode (k : InternalKey Slice) : extractUserKey k.encode = k.userKey := by
  simp [extractUserKey, encode]

theorem extractTag_encode (k : InternalKey Slice) : extractTag k.encode = ofNat k.tag := by
  have read := decodeFixed64_encodeFixed64 (ofNat k.tag) []
  rw [append_nil] at read
  simpa [extractTag, encode] using read

@[simp]
theorem encode_length (k : InternalKey Slice) : k.encode.length = k.userKey.data.length + 8 := by
  simp [encode]

theorem tag_lt (bound : k.sequence ≤ kMaxSequenceNumber) : k.tag < 2 ^ 64 := by
  have small := k.type.code_le
  have isMax : kMaxSequenceNumber = 2 ^ 56 - 1 := rfl
  rw [tag_eq]
  omega

theorem ofTag_tag (k : InternalKey Slice) : ValueType.ofTag (ofNat k.tag) = some k.type := by
  have low : ofNat k.tag &&& 0xff = ofNat k.type.code := by
    apply UInt64.toNat_inj.mp
    have mask : (ofNat k.tag &&& 0xff).toNat = k.tag % 2 ^ 64 % 2 ^ 8 := by
      rw [UInt64.toNat_and, ← Nat.and_two_pow_sub_one_eq_mod _ 8]
      simp
    have code := k.type.code_le
    rw [mask, tag_eq, UInt64.toNat_ofNat']
    omega
  rw [ValueType.ofTag, low]
  cases k.type <;> rfl

def taggedKey (k : InternalKey Slice) : TaggedKey where
  rep := k.encode
  tagged := by simp

theorem taggedKey_userKey (k : InternalKey Slice) : k.taggedKey.userKey = k.userKey :=
  extractUserKey_encode k

theorem taggedKey_tag (bound : k.sequence ≤ kMaxSequenceNumber) : k.taggedKey.tag = k.tag := by
  have read : k.taggedKey.tag = (ofNat k.tag).toNat :=
    congrArg UInt64.toNat (extractTag_encode k)
  rw [read, UInt64.toNat_ofNat', Nat.mod_eq_of_lt (tag_lt bound)]

/-- The bytes of a key whose length is one of 32 bits. -/
def keyBytes (k : InternalKey Slice) (short : k.userKey.data.length + 8 < 2 ^ 32) : KeyBytes where
  toTaggedKey := k.taggedKey
  short := by simpa [taggedKey] using short

variable [LinearOrder Slice]

theorem taggedKey_lt_iff (boundA : a.sequence ≤ kMaxSequenceNumber)
    (boundB : b.sequence ≤ kMaxSequenceNumber) : a.taggedKey < b.taggedKey ↔ a < b := by
  rw [TaggedKey.lt_def, InternalKey.lt_def, taggedKey_tag boundA, taggedKey_tag boundB,
    taggedKey_userKey, taggedKey_userKey]

end InternalKey
end TalusDB
