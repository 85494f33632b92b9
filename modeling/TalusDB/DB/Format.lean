import Mathlib

/-! Internal keys of `db/dbformat.h`: a user key with the sequence number and kind
of the operation that wrote it. The comparator orders user keys upwards and, for
one user key, newer operations first. User keys are any linear order: the user
comparator's. Keys are held parsed, so every key parses. -/
namespace TalusDB

inductive ValueType where
  | deletion | value
  deriving DecidableEq, Repr

def ValueType.code : ValueType → Nat
  | deletion => 0
  | value => 1

def kValueTypeForSeek : ValueType := .value

def kMaxSequenceNumber : Nat := (0x1 <<< 56) - 1

theorem ValueType.code_le (type : ValueType) : type.code ≤ 1 := by
  cases type <;> decide

theorem ValueType.code_injective : Function.Injective ValueType.code := by
  intro a b same
  cases a <;> cases b <;> first | rfl | cases same

structure InternalKey (K : Type) where
  userKey : K
  sequence : Nat
  type : ValueType
  deriving DecidableEq, Repr

namespace InternalKey
variable {K : Type}

/-- `PackSequenceAndType`. -/
def tag (k : InternalKey K) : Nat := k.sequence <<< 8 ||| k.type.code

theorem tag_eq (k : InternalKey K) : k.tag = k.sequence * 256 + k.type.code := by
  have small := k.type.code_le
  rw [tag, ← Nat.shiftLeft_add_eq_or_of_lt (by omega), Nat.shiftLeft_eq]

variable {a b : InternalKey K}

theorem eq_of_tag (user : a.userKey = b.userKey) (tags : a.tag = b.tag) : a = b := by
  have left := a.type.code_le
  have right := b.type.code_le
  rw [tag_eq, tag_eq] at tags
  have sequences : a.sequence = b.sequence := by omega
  have types : a.type = b.type := ValueType.code_injective (by omega)
  obtain ⟨u, s, t⟩ := a
  simp_all

variable [LinearOrder K]

/-- `InternalKeyComparator::Compare`. -/
instance : LT (InternalKey K) :=
  ⟨fun a b => a.userKey < b.userKey ∨ a.userKey = b.userKey ∧ b.tag < a.tag⟩

instance : LE (InternalKey K) :=
  ⟨fun a b => a.userKey < b.userKey ∨ a.userKey = b.userKey ∧ b.tag ≤ a.tag⟩

theorem lt_def : a < b ↔ a.userKey < b.userKey ∨ a.userKey = b.userKey ∧ b.tag < a.tag := Iff.rfl

theorem le_def : a ≤ b ↔ a.userKey < b.userKey ∨ a.userKey = b.userKey ∧ b.tag ≤ a.tag := Iff.rfl

instance (a b : InternalKey K) : Decidable (a < b) := inferInstanceAs (Decidable (_ ∨ _))

instance (a b : InternalKey K) : Decidable (a ≤ b) := inferInstanceAs (Decidable (_ ∨ _))

instance : LinearOrder (InternalKey K) where
  le_refl a := .inr ⟨rfl, Nat.le_refl _⟩
  le_trans a b c ab bc := by
    rw [le_def] at *
    obtain less | ⟨same, tags⟩ := ab <;> obtain less' | ⟨same', tags'⟩ := bc
    · exact .inl (less.trans less')
    · exact .inl (same' ▸ less)
    · exact .inl (same ▸ less')
    · exact .inr ⟨same.trans same', tags'.trans tags⟩
  lt_iff_le_not_ge a b := by
    rw [lt_def, le_def, le_def]
    constructor
    · rintro (less | ⟨same, tags⟩)
      · exact ⟨.inl less, fun h => h.elim less.asymm fun h => less.ne' h.1⟩
      · exact ⟨.inr ⟨same, tags.le⟩, fun h => h.elim same.not_gt fun h => by omega⟩
    · rintro ⟨less | ⟨same, tags⟩, not⟩
      · exact .inl less
      · refine .inr ⟨same, ?_⟩
        by_contra no
        exact not (.inr ⟨same.symm, by omega⟩)
  le_antisymm a b ab ba := by
    rw [le_def] at *
    obtain less | ⟨same, tags⟩ := ab <;> obtain less' | ⟨same', tags'⟩ := ba
    · exact absurd less' less.asymm
    · exact absurd same' less.ne'
    · exact absurd same less'.ne'
    · exact eq_of_tag same (Nat.le_antisymm tags' tags)
  le_total a b := by
    rw [le_def, le_def]
    obtain less | same | more := lt_trichotomy a.userKey b.userKey
    · exact .inl (.inl less)
    · obtain tags | tags := Nat.le_total b.tag a.tag
      · exact .inl (.inr ⟨same, tags⟩)
      · exact .inr (.inr ⟨same.symm, tags⟩)
    · exact .inr (.inl more)
  toDecidableLE := inferInstance
  toDecidableLT := inferInstance

theorem userKey_mono (le : a ≤ b) : a.userKey ≤ b.userKey :=
  le.elim le_of_lt fun same => same.1.le

theorem lt_of_userKey_lt (less : a.userKey < b.userKey) : a < b := .inl less

theorem lt_of_newer (user : a.userKey = b.userKey) (newer : b.sequence < a.sequence) : a < b := by
  have small := b.type.code_le
  refine .inr ⟨user, ?_⟩
  rw [tag_eq, tag_eq]
  omega

theorem sequence_le_of_le (le : a ≤ b) (user : a.userKey = b.userKey) :
    b.sequence ≤ a.sequence := by
  by_contra older
  exact absurd (lt_of_newer user.symm (Nat.lt_of_not_le older)) (not_lt.mpr le)

/-- The key that a read of `user` at `sequence` seeks: `LookupKey`. -/
def lookup (user : K) (sequence : Nat) : InternalKey K := ⟨user, sequence, kValueTypeForSeek⟩

theorem lookup_le_iff {user : K} {sequence : Nat} {k : InternalKey K} :
    lookup user sequence ≤ k ↔ user < k.userKey ∨ user = k.userKey ∧ k.sequence ≤ sequence := by
  have small := k.type.code_le
  have seek : (lookup user sequence).tag = sequence * 256 + 1 := tag_eq _
  rw [le_def, seek, tag_eq]
  constructor
  · rintro (less | ⟨same, tags⟩)
    · exact .inl less
    · exact .inr ⟨same, by omega⟩
  · rintro (less | ⟨same, older⟩)
    · exact .inl less
    · exact .inr ⟨same, by omega⟩

end InternalKey

/-- What a memtable or a table holds: an internal key with its value. A deletion's
value is not read. -/
structure Entry (K V : Type) where
  key : InternalKey K
  value : V
  deriving DecidableEq, Repr

namespace Entry
variable {K V : Type}

abbrev userKey (e : Entry K V) : K := e.key.userKey
abbrev sequence (e : Entry K V) : Nat := e.key.sequence

/-- The value of an entry, unless it is a deletion. -/
def read (e : Entry K V) : Option V :=
  match e.key.type with
  | .value => some e.value
  | .deletion => none

end Entry
end TalusDB
