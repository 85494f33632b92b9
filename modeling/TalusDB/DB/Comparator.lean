import TalusDB.DB.KeyBytes

/-! How comparators shorten keys for the index of a table: `util/comparator.cc`, and
`InternalKeyComparator` of `db/dbformat.cc` over a user comparator. -/
namespace TalusDB
open List

/-- The number of bytes in front that are the same. -/
def diffIndex : Bytes → Bytes → Nat
  | a :: start, b :: limit => if a = b then diffIndex start limit + 1 else 0
  | [], _ => 0
  | _ :: _, [] => 0

/-- What a table asks of a comparator. -/
structure Comparator where
  order : LinearOrder Slice
  findShortestSeparator : Bytes → Bytes → Bytes
  findShortSuccessor : Bytes → Bytes

namespace Bytewise

def findShortestSeparator (start limit : Bytes) : Bytes :=
  let minLength := min start.length limit.length
  let i := diffIndex start limit
  if minLength ≤ i then start
  else
    let diffType := start.getD i 0
    if diffType.toNat < 0xff ∧ diffType.toNat + 1 < (limit.getD i 0).toNat then
      start.take i ++ [diffType + 1]
    else start

/-- The first byte that can be counted up is, and the rest is cut off. -/
def findShortSuccessor : Bytes → Bytes
  | [] => []
  | byte :: rest => if byte ≠ 0xff then [byte + 1] else byte :: findShortSuccessor rest

end Bytewise

def bytewiseComparator : Comparator where
  order := bytewiseOrder
  findShortestSeparator := Bytewise.findShortestSeparator
  findShortSuccessor := Bytewise.findShortSuccessor

namespace InternalKeyComparator

/-- A shortened user key gets the largest sequence number, so that it stands before all its entries. -/
def shortened (user : Comparator) (key tmp : Bytes) : Bytes :=
  letI := user.order
  let userKey := extractUserKey key
  if tmp.length < userKey.data.length ∧ userKey < ⟨tmp⟩ then
    InternalKey.encode ⟨⟨tmp⟩, kMaxSequenceNumber, kValueTypeForSeek⟩
  else key

def findShortestSeparator (user : Comparator) (start limit : Bytes) : Bytes :=
  shortened user start
    (user.findShortestSeparator (extractUserKey start).data (extractUserKey limit).data)

def findShortSuccessor (user : Comparator) (key : Bytes) : Bytes :=
  shortened user key (user.findShortSuccessor (extractUserKey key).data)

end InternalKeyComparator

namespace Bytewise
variable {a b : UInt8} {start limit key : Bytes}

theorem lt_iff {x y : Bytes} : bytewiseOrder.lt ⟨x⟩ ⟨y⟩ ↔ x.map UInt8.toNat < y.map UInt8.toNat :=
  Iff.rfl

theorem cons_lt_cons : bytewiseOrder.lt ⟨a :: start⟩ ⟨b :: limit⟩ ↔
    a.toNat < b.toNat ∨ a = b ∧ bytewiseOrder.lt ⟨start⟩ ⟨limit⟩ := by
  rw [lt_iff, lt_iff, map_cons, map_cons, cons_lt_cons_iff, UInt8.toNat_inj]

theorem findShortestSeparator_same : findShortestSeparator (a :: start) (a :: limit) =
    a :: findShortestSeparator start limit := by
  have less : min (start.length + 1) (limit.length + 1) ≤ diffIndex start limit + 1 ↔
      min start.length limit.length ≤ diffIndex start limit := by omega
  simp only [findShortestSeparator, diffIndex, if_true, length_cons, less, getD_cons_succ,
    take_succ_cons]
  split
  case isTrue => rfl
  case isFalse =>
    split <;> rfl

theorem findShortestSeparator_self (key : Bytes) : findShortestSeparator key key = key := by
  induction key with
  | nil => rfl
  | cons byte rest ih => rw [findShortestSeparator_same, ih]

theorem findShortestSeparator_diff (diff : a ≠ b) : findShortestSeparator (a :: start) (b :: limit)
    =
    if a.toNat < 0xff ∧ a.toNat + 1 < b.toNat then [a + 1] else a :: start := by
  simp [findShortestSeparator, diffIndex, diff]

theorem toNat_succ (below : a.toNat < 0xff) : (a + 1).toNat = a.toNat + 1 := by
  rw [UInt8.toNat_add]
  exact Nat.mod_eq_of_lt (by rw [UInt8.toNat_one]; omega)

theorem findShortestSeparator_spec (less : bytewiseOrder.lt ⟨start⟩ ⟨limit⟩) :
    findShortestSeparator start limit = start ∨
      bytewiseOrder.lt ⟨start⟩ ⟨findShortestSeparator start limit⟩ ∧
        bytewiseOrder.lt ⟨findShortestSeparator start limit⟩ ⟨limit⟩ := by
  induction start generalizing limit with
  | nil => exact .inl rfl
  | cons a start ih =>
    cases limit with
    | nil => cases less
    | cons b limit =>
      by_cases same : a = b
      · subst same
        rw [findShortestSeparator_same]
        obtain before | ⟨-, less⟩ := cons_lt_cons.mp less
        · omega
        · refine (ih less).imp (congrArg (a :: ·)) (And.imp ?_ ?_)
          · exact fun between => cons_lt_cons.mpr (.inr ⟨rfl, between⟩)
          · exact fun between => cons_lt_cons.mpr (.inr ⟨rfl, between⟩)
      · rw [findShortestSeparator_diff same]
        split
        case isFalse => exact .inl rfl
        case isTrue room =>
          refine .inr ⟨cons_lt_cons.mpr (.inl ?_), cons_lt_cons.mpr (.inl ?_)⟩
          · rw [toNat_succ room.1]
            exact Nat.lt_succ_self _
          · rw [toNat_succ room.1]
            exact room.2

theorem findShortSuccessor_spec (key : Bytes) :
    findShortSuccessor key = key ∨ bytewiseOrder.lt ⟨key⟩ ⟨findShortSuccessor key⟩ := by
  induction key with
  | nil => exact .inl rfl
  | cons byte rest ih =>
    rw [findShortSuccessor]
    split
    case isTrue below =>
      have small : byte.toNat < 0xff := by
        have bound := byte.toNat_lt
        have other : byte.toNat ≠ 0xff := fun same => below (UInt8.toNat_inj.mp same)
        omega
      refine .inr (cons_lt_cons.mpr (.inl ?_))
      rw [toNat_succ small]
      exact Nat.lt_succ_self _
    case isFalse =>
      exact ih.imp (congrArg (byte :: ·)) fun after => cons_lt_cons.mpr (.inr ⟨rfl, after⟩)

end Bytewise

/-- Separators lie between the keys, and a successor is not before its key. -/
structure Comparator.Lawful (c : Comparator) : Prop where
  separator : ∀ {start limit}, c.order.lt ⟨start⟩ ⟨limit⟩ →
    c.order.le ⟨start⟩ ⟨c.findShortestSeparator start limit⟩ ∧
      c.order.lt ⟨c.findShortestSeparator start limit⟩ ⟨limit⟩
  successor : ∀ key, c.order.le ⟨key⟩ ⟨c.findShortSuccessor key⟩

theorem bytewiseComparator_lawful : bytewiseComparator.Lawful where
  separator := by
    let := bytewiseOrder
    intro start limit less
    obtain same | ⟨after, before⟩ := Bytewise.findShortestSeparator_spec less
    · exact ⟨(congrArg Slice.mk same).ge, (congrArg Slice.mk same).trans_lt less⟩
    · exact ⟨le_of_lt after, before⟩
  successor key := by
    let := bytewiseOrder
    obtain same | after := Bytewise.findShortSuccessor_spec key
    · exact (congrArg Slice.mk same).ge
    · exact le_of_lt after

theorem TaggedKey.rep_injective : Function.Injective TaggedKey.rep := by
  intro a b same
  cases a
  cases same
  rfl

namespace InternalKeyComparator
variable {user : Comparator} {key tmp : Bytes} {a b : TaggedKey}

theorem shortened_spec (user : Comparator) (key tmp : Bytes) : shortened user key tmp = key ∨
    8 ≤ (shortened user key tmp).length ∧ extractUserKey (shortened user key tmp) = ⟨tmp⟩ ∧
      user.order.lt (extractUserKey key) ⟨tmp⟩ := by
  rw [shortened]
  split
  case isTrue shorter => exact .inr ⟨by simp, InternalKey.extractUserKey_encode _, shorter.2⟩
  case isFalse => exact .inl rfl

theorem shortened_tagged (tagged : 8 ≤ key.length) : 8 ≤ (shortened user key tmp).length := by
  obtain same | ⟨long, -⟩ := shortened_spec user key tmp
  · rwa [same]
  · exact long

/-- `FindShortestSeparator` on keys that hold a tag. -/
def separator (user : Comparator) (a b : TaggedKey) : TaggedKey where
  rep := findShortestSeparator user a.rep b.rep
  tagged := shortened_tagged a.tagged

/-- `FindShortSuccessor` on a key that holds a tag. -/
def successor (user : Comparator) (a : TaggedKey) : TaggedKey where
  rep := findShortSuccessor user a.rep
  tagged := shortened_tagged a.tagged

section lawful
variable (lawful : user.Lawful) (idle : ∀ key, user.findShortestSeparator key key = key)
include lawful idle

theorem separator_spec (less : letI := user.order; a < b) :
    separator user a b = a ∨ user.order.lt a.userKey (separator user a b).userKey ∧
      user.order.lt (separator user a b).userKey b.userKey := by
  let := user.order
  obtain same | ⟨-, isTmp, after⟩ := shortened_spec user a.rep
    (user.findShortestSeparator a.userKey.data b.userKey.data)
  · exact .inl (TaggedKey.rep_injective same)
  · right
    have userKey : (separator user a b).userKey =
      ⟨user.findShortestSeparator a.userKey.data b.userKey.data⟩ := isTmp
    rw [userKey]
    refine ⟨after, ?_⟩
    obtain before | ⟨same, -⟩ := TaggedKey.lt_def.mp less
    · exact (lawful.separator before).2
    · rw [← same, idle] at after
      exact absurd after (lt_irrefl a.userKey)

theorem le_separator (less : letI := user.order; a < b) :
    letI := user.order
    a ≤ separator user a b := by
  let := user.order
  obtain same | ⟨after, -⟩ := separator_spec lawful idle less
  · exact same.ge
  · exact le_of_lt (TaggedKey.lt_def.mpr (.inl after))

theorem separator_lt (less : letI := user.order; a < b) :
    letI := user.order
    separator user a b < b := by
  let := user.order
  obtain same | ⟨-, before⟩ := separator_spec lawful idle less
  · exact same.trans_lt less
  · exact TaggedKey.lt_def.mpr (.inl before)

theorem userKey_ne_of_le_separator (less : letI := user.order; a < b) {x : TaggedKey}
    (behind : letI := user.order; a < x) (upTo : letI := user.order; x ≤ separator user a b) :
    x.userKey ≠ b.userKey := by
  let := user.order
  obtain same | ⟨-, before⟩ := separator_spec lawful idle less
  · rw [same] at upTo
    exact absurd behind (not_lt.mpr upTo)
  · exact ((TaggedKey.userKey_mono upTo).trans_lt before).ne

end lawful

theorem le_successor (user : Comparator) (a : TaggedKey) :
    letI := user.order
    a ≤ successor user a := by
  let := user.order
  obtain same | ⟨-, isTmp, after⟩ := shortened_spec user a.rep
    (user.findShortSuccessor a.userKey.data)
  · exact (TaggedKey.rep_injective same).ge
  · refine le_of_lt (TaggedKey.lt_def.mpr (.inl ?_))
    have userKey : (successor user a).userKey = ⟨user.findShortSuccessor a.userKey.data⟩ := isTmp
    rw [userKey]
    exact after

/-- Over the bytewise order, separators of internal keys lie between them, have another user key than
the limit unless they are the key itself, and leave no entry of the limit's user key behind; and
successors are not before their keys. -/
theorem bytewise_shortened (a b : TaggedKey) (less : letI := bytewiseOrder; a < b) :
    letI := bytewiseOrder
    a ≤ separator bytewiseComparator a b ∧ separator bytewiseComparator a b < b ∧
    (separator bytewiseComparator a b ≠ a →
      (separator bytewiseComparator a b).userKey ≠ b.userKey) ∧
    a ≤ successor bytewiseComparator a ∧
    ∀ x : TaggedKey, a < x → x ≤ separator bytewiseComparator a b → x.userKey ≠ b.userKey := by
  let := bytewiseOrder
  have lawful := bytewiseComparator_lawful
  have idle := Bytewise.findShortestSeparator_self
  have le := le_separator lawful idle less
  refine ⟨le, separator_lt lawful idle less, fun other => ?_, le_successor bytewiseComparator a,
    fun x => userKey_ne_of_le_separator lawful idle less⟩
  exact userKey_ne_of_le_separator lawful idle less (lt_of_le_of_ne le other.symm) le_rfl

/-- Between `[1, 2, 3]` and `[1, 9]` the user key becomes `[1, 3]`. -/
theorem bytewise_shortened_three :
    letI := bytewiseOrder
    ∃ a b : TaggedKey, a < b ∧ (separator bytewiseComparator a b).userKey.data = [1, 3] ∧
      a ≤ separator bytewiseComparator a b ∧ separator bytewiseComparator a b < b := by
  let := bytewiseOrder
  let a : InternalKey Slice := ⟨⟨[1, 2, 3]⟩, 7, .value⟩
  let b : InternalKey Slice := ⟨⟨[1, 9]⟩, 5, .value⟩
  have less : a.taggedKey < b.taggedKey := TaggedKey.lt_iff_compareKeys.mpr (by decide +kernel)
  obtain ⟨le, lt, -⟩ := bytewise_shortened a.taggedKey b.taggedKey less
  exact ⟨a.taggedKey, b.taggedKey, less, by decide +kernel, le, lt⟩

end InternalKeyComparator
end TalusDB
