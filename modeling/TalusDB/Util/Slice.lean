import TalusDB.Util.Varint

/-! Slices, and the functions that read a value from the front of one. -/
namespace TalusDB
open Coding List

/-- A key or a target as a comparator sees it. -/
structure Slice where
  data : Bytes

/-- The order of `BytewiseComparator`. -/
abbrev bytewiseOrder : LinearOrder Slice :=
  LinearOrder.lift' (fun s => s.data.map UInt8.toNat) fun x y same => by
    cases x
    cases y
    exact congrArg Slice.mk (map_injective_iff.mpr (fun _ _ => UInt8.toNat_inj.mp) same)

/-- `GetVarint32` on a slice: the value, and the rest of the slice. -/
def getVarint32 (input : Bytes) : Option (Nat × Bytes) :=
  (getVarint32Ptr input input.length 0).join.map fun (value, p) => (value, input.drop p)

/-- `GetVarint64` on a slice: the value, and the rest of the slice. -/
def getVarint64 (input : Bytes) : Option (Nat × Bytes) :=
  (getVarint64Ptr input input.length 0).join.map fun (value, p) => (value, input.drop p)

/-- What `PutLengthPrefixedSlice` appends. -/
def putLengthPrefixedSlice (value : Bytes) : Bytes := putVarint32 value.length ++ value

/-- `GetLengthPrefixedSlice`: the slice, and the rest of the input. -/
def getLengthPrefixedSlice (input : Bytes) : Option (Bytes × Bytes) := do
  let (length, input) ← getVarint32 input
  if input.length < length then none else some (input.take length, input.drop length)

section roundTrip
variable {value : Nat} (rest : Bytes)

theorem getVarint32_putVarint32 (small : value < 2 ^ 32) :
    getVarint32 (putVarint32 value ++ rest) = some (value, rest) := by
  have within : 0 + (putVarint32 value).length ≤ (putVarint32 value ++ rest).length := by simp
  rw [getVarint32, getVarint32Ptr_putVarint32 small rfl within]
  simp

theorem getVarint64_putVarint64 (small : value < 2 ^ 64) :
    getVarint64 (putVarint64 value ++ rest) = some (value, rest) := by
  have within : 0 + (putVarint64 value).length ≤ (putVarint64 value ++ rest).length := by simp
  rw [getVarint64, getVarint64Ptr_putVarint64 small rfl within]
  simp

theorem getLengthPrefixedSlice_put {slice : Bytes} (short : slice.length < 2 ^ 32) :
    getLengthPrefixedSlice (putLengthPrefixedSlice slice ++ rest) = some (slice, rest) := by
  have read := getVarint32_putVarint32 (slice ++ rest) short
  simp [getLengthPrefixedSlice, putLengthPrefixedSlice, read]

end roundTrip

section bounds
variable {input rest : Bytes} {value : Nat}

theorem getVarint32_spec (read : getVarint32 input = some (value, rest)) :
    value < 2 ^ 32 ∧ rest.length < input.length := by
  obtain ⟨found, isFound, bound⟩ := getVarint32Ptr_bound (le_refl input.length) 0
  rw [getVarint32, isFound, Option.join_some] at read
  obtain ⟨⟨value', p⟩, isSome, same⟩ := Option.map_eq_some_iff.mp read
  obtain ⟨rfl, rfl⟩ := Prod.mk.inj same
  obtain ⟨after, inside, small⟩ := bound value' p isSome
  rw [length_drop]
  exact ⟨small, by omega⟩

theorem getVarint64_spec (read : getVarint64 input = some (value, rest)) :
    value < 2 ^ 64 ∧ rest.length < input.length := by
  obtain ⟨found, isFound, bound⟩ := getVarint64Ptr_bound (le_refl input.length) 0
  rw [getVarint64, isFound, Option.join_some] at read
  obtain ⟨⟨value', p⟩, isSome, same⟩ := Option.map_eq_some_iff.mp read
  obtain ⟨rfl, rfl⟩ := Prod.mk.inj same
  obtain ⟨after, inside, small⟩ := bound value' p isSome
  rw [length_drop]
  exact ⟨small, by omega⟩

theorem getLengthPrefixedSlice_spec {slice : Bytes}
    (read : getLengthPrefixedSlice input = some (slice, rest)) :
    slice.length < 2 ^ 32 ∧ rest.length < input.length := by
  obtain ⟨⟨length, behind⟩, isLength, read⟩ := Option.bind_eq_some_iff.mp read
  obtain ⟨small, shorter⟩ := getVarint32_spec isLength
  by_cases missing : behind.length < length
  · simp [missing] at read
  · simp only [if_neg missing] at read
    cases read
    rw [length_take, length_drop]
    omega

end bounds

/-! ### Exactly the varints in range -/

/-- A call that gets the input and the place for the value by pointers: whether it succeeds, and what
it leaves there. -/
def getInto {α : Type} (get : Bytes → Option (α × Bytes)) (input : Bytes) (value : α) :
    Bool × Bytes × α :=
  match get input with
  | some (decoded, rest) => (true, rest, decoded)
  | none => (false, input, value)

/-- The input starts with a varint of at most `⌈width / 7⌉` bytes, of a number of `width` bits. -/
def StartsInRange (width : Nat) (input rest : Bytes) (value : Nat) : Prop :=
  ∃ bytes, input = bytes ++ rest ∧ IsVarint bytes value ∧ bytes.length ≤ (width + 6) / 7 ∧
    value < 2 ^ width

/-- A decoder accepts an input exactly if it starts with a varint in range. Then it gives the number
and removes its bytes, and else it touches nothing. -/
def DecodesExactly (width : Nat) (get : Bytes → Option (Nat × Bytes)) (input : Bytes) : Prop :=
  ∀ old,
    (∀ rest value, StartsInRange width input rest value → getInto get input old = (true, rest, value)) ∧
    ((¬∃ rest value, StartsInRange width input rest value) → getInto get input old = (false, input, old))

/-- Four bytes with the continuation bit, and a fifth that ends the varint with bits above the 32nd. -/
def overflows32 (input : Bytes) : Bool :=
  (input.take 4).all (fun byte => decide (128 ≤ byte.toNat)) &&
    input[4]?.any fun byte => decide (16 ≤ byte.toNat ∧ byte.toNat < 128)

section exact
variable {bytes input rest : Bytes} {value raw width : Nat} {get : Bytes → Option (Nat × Bytes)}

theorem decodesExactly_iff : DecodesExactly width get input ↔
    ∀ rest value, get input = some (value, rest) ↔ StartsInRange width input rest value := by
  constructor
  · intro exactly rest value
    obtain ⟨accepts, rejects⟩ := exactly 0
    constructor
    · intro decoded
      by_cases starts : ∃ rest value, StartsInRange width input rest value
      · obtain ⟨rest', value', starts⟩ := starts
        have same := accepts rest' value' starts
        rw [getInto, decoded] at same
        cases same
        exact starts
      · have same := rejects starts
        rw [getInto, decoded] at same
        cases same
    · intro starts
      have called := accepts rest value starts
      rw [getInto] at called
      split at called
      case h_1 decoded =>
        cases called
        exact decoded
      case h_2 => cases called
  · intro decodes old
    constructor
    · intro rest value starts
      rw [getInto, (decodes rest value).mpr starts]
    · intro none
      cases decoded : get input with
      | none => rw [getInto, decoded]
      | some found => exact absurd ⟨found.2, found.1, (decodes found.2 found.1).mp decoded⟩ none

theorem overflows32_eq_false_iff (isVarint : IsVarint bytes raw) (short : bytes.length ≤ 5)
    (rest : Bytes) : overflows32 (bytes ++ rest) = false ↔ raw < 2 ^ 32 := by
  have range : raw < 128 ^ 4 * 16 ↔ _ := isVarint.lt_iff short (by decide)
  obtain ⟨front, last, low, rfl, continues, final, -, -⟩ := isVarint.split_last
  rw [show 2 ^ 32 = 128 ^ 4 * 16 by decide, range, overflows32]
  rw [length_append, length_singleton] at short
  rcases Nat.lt_or_eq_of_le (Nat.le_of_succ_le_succ short) with shorter | four
  · have ended : last ∈ (front ++ [last] ++ rest).take 4 := by
      rw [append_assoc, take_append, mem_append]
      right
      rw [singleton_append, take_cons (by omega)]
      exact mem_cons_self
    have absent : (front ++ [last])[4]? = none := List.getElem?_eq_none (by simpa using shorter)
    have stops : ((front ++ [last] ++ rest).take 4).all (fun byte => decide (128 ≤ byte.toNat)) =
        false := by
      rw [all_eq_false]
      exact ⟨last, ended, by simpa using final⟩
    rw [stops, absent]
    simp
  · have all : ((front ++ [last] ++ rest).take 4).all (fun byte => decide (128 ≤ byte.toNat)) =
        true := by
      rw [append_assoc, take_left' four]
      simpa using continues
    have fifth (tail : Bytes) : (front ++ last :: tail)[4]? = some last := by
      rw [← four, List.getElem?_append_right le_rfl, Nat.sub_self, List.getElem?_cons_zero]
    rw [all, fifth, append_assoc, singleton_append, fifth]
    simp [final]

theorem exists_of_overflows32 (overflows : overflows32 input = true) :
    ∃ bytes raw rest, input = bytes ++ rest ∧ IsVarint bytes raw ∧ bytes.length ≤ 5 := by
  obtain ⟨continues, fifth⟩ := Bool.and_eq_true_iff.mp overflows
  obtain ⟨last, isLast, final⟩ := (Option.any_eq_true _ _).mp fifth
  obtain ⟨long, isLast⟩ := List.getElem?_eq_some_iff.mp isLast
  have first : ∀ byte ∈ input.take 4, 128 ≤ byte.toNat := by simpa using continues
  obtain ⟨raw, isVarint⟩ := IsVarint.exists_of_front first (of_decide_eq_true final).2
  refine ⟨_, raw, input.drop 5, ?_, isVarint, by simp⟩
  rw [← isLast, take_concat_get', take_append_drop]

theorem getVarint_join_iff {bits rounds : Nat} {fits : Nat → Nat → Bool}
    (inWord : 7 * rounds ≤ bits + 7) :
    (getVarint input input.length bits fits rounds 0 0 0).join.map
        (fun (value, p) => (value, input.drop p)) = some (value, rest) ↔
      ∃ bytes raw, input = bytes ++ rest ∧ IsVarint bytes raw ∧ bytes.length ≤ rounds ∧
        (∀ i byte, bytes[i]? = some byte → fits (7 * i) byte.toNat = true) ∧
        value = raw % 2 ^ bits := by
  have complete {bytes raw rest'} (isVarint : IsVarint bytes raw) (parts : input = bytes ++ rest')
      (short : bytes.length ≤ rounds)
      (fit : ∀ i byte, bytes[i]? = some byte → fits (0 + 7 * i) byte.toNat = true) :
      (getVarint input input.length bits fits rounds 0 0 0).join.map
        (fun (value, p) => (value, input.drop p)) = some (raw % 2 ^ bits, rest') := by
    have decoded : getVarint input input.length bits fits rounds 0 0 0 =
        some (some ((0 + raw * 2 ^ 0) % 2 ^ bits, 0 + bytes.length)) :=
      getVarint_isVarint isVarint rounds (by decide) (by omega) parts short fit
    rw [decoded]
    simp [parts]
  constructor
  · intro read
    obtain ⟨⟨value', p⟩, isFound, -⟩ := Option.map_eq_some_iff.mp read
    obtain ⟨bytes, raw, parts, isVarint, short, fit⟩ :=
      getVarint_spec rounds (by decide) (by omega) (Option.join_eq_some_iff.mp isFound)
    rw [complete isVarint parts short fit] at read
    cases read
    simp only [Nat.zero_add] at fit
    exact ⟨bytes, raw, parts, isVarint, short, fit, rfl⟩
  · rintro ⟨bytes, raw, parts, isVarint, short, fit, rfl⟩
    exact complete isVarint parts short (by simpa only [Nat.zero_add] using fit)

theorem getVarint32_eq_some_iff : getVarint32 input = some (value, rest) ↔
    ∃ bytes raw, input = bytes ++ rest ∧ IsVarint bytes raw ∧ bytes.length ≤ 5 ∧
      value = raw % 2 ^ 32 := by
  rw [getVarint32, getVarint32Ptr_eq, getVarint_join_iff (by decide)]
  simp

theorem getVarint64_eq_some_iff :
    getVarint64 input = some (value, rest) ↔ StartsInRange 64 input rest value := by
  rw [getVarint64, getVarint64Ptr, getVarint_join_iff (by decide)]
  have range {bytes raw} (isVarint : IsVarint bytes raw) (short : bytes.length ≤ 10) :
      (∀ i byte, bytes[i]? = some byte → (!(7 * i == 63 && decide (1 < byte.toNat))) = true) ↔
        raw < 2 ^ 64 := by
    rw [show 2 ^ 64 = 128 ^ 9 * 2 by decide, isVarint.lt_iff short (by decide)]
    constructor
    · intro fit byte isByte
      have := fit 9 byte isByte
      simpa using this
    · intro small i byte isByte
      by_cases tenth : i = 9
      · subst tenth
        simpa using small byte isByte
      · simp [show ¬7 * i = 63 by omega]
  constructor
  · rintro ⟨bytes, raw, parts, isVarint, short, fit, rfl⟩
    have small := (range isVarint short).mp fit
    rw [Nat.mod_eq_of_lt small]
    exact ⟨bytes, parts, isVarint, short, small⟩
  · rintro ⟨bytes, parts, isVarint, short, small⟩
    exact ⟨bytes, value, parts, isVarint, short, (range isVarint short).mpr small,
      (Nat.mod_eq_of_lt small).symm⟩

theorem decodesExactly32_iff :
    DecodesExactly 32 getVarint32 input ↔ overflows32 input = false := by
  rw [decodesExactly_iff]
  constructor
  · intro exactly
    by_contra overflows
    obtain ⟨bytes, raw, rest, rfl, isVarint, short⟩ := exists_of_overflows32 (by simpa using overflows)
    have decoded : getVarint32 (bytes ++ rest) = some (raw % 2 ^ 32, rest) :=
      getVarint32_eq_some_iff.mpr ⟨bytes, raw, rfl, isVarint, short, rfl⟩
    obtain ⟨bytes', parts, isVarint', -, small⟩ := (exactly rest _).mp decoded
    obtain ⟨rfl, same⟩ := isVarint.unique isVarint' parts
    rw [← same] at small
    exact overflows ((overflows32_eq_false_iff isVarint short rest).mpr small)
  · intro inRange rest value
    rw [getVarint32_eq_some_iff]
    constructor
    · rintro ⟨bytes, raw, rfl, isVarint, short, rfl⟩
      have small := (overflows32_eq_false_iff isVarint short rest).mp inRange
      rw [Nat.mod_eq_of_lt small]
      exact ⟨bytes, rfl, isVarint, short, small⟩
    · rintro ⟨bytes, rfl, isVarint, short, small⟩
      exact ⟨bytes, value, rfl, isVarint, short, (Nat.mod_eq_of_lt small).symm⟩

end exact

/-- Decoding the varints of 64 bits is exact. So is decoding those of 32 bits, but for a fifth byte that
overflows. What was encoded is decoded. -/
theorem varints_exact (input : Bytes) :
    (DecodesExactly 32 getVarint32 input ↔ overflows32 input = false) ∧
    DecodesExactly 64 getVarint64 input ∧
    (∀ value < 2 ^ 32, (∀ rest, getVarint32 (putVarint32 value ++ rest) = some (value, rest)) ∧
      (putVarint32 value).length = varintLength value) ∧
    (∀ value < 2 ^ 64, (∀ rest, getVarint64 (putVarint64 value ++ rest) = some (value, rest)) ∧
      (putVarint64 value).length = varintLength value) ∧
    ∀ slice : Bytes, slice.length < 2 ^ 32 → ∀ rest,
      getLengthPrefixedSlice (putLengthPrefixedSlice slice ++ rest) = some (slice, rest) := by
  refine ⟨decodesExactly32_iff, ?_, fun value small => ?_, fun value small => ?_, fun slice short rest => getLengthPrefixedSlice_put rest short⟩
  · exact decodesExactly_iff.mpr fun rest value => getVarint64_eq_some_iff
  · refine ⟨fun rest => getVarint32_putVarint32 rest small, ?_⟩
    rw [putVarint32, Nat.mod_eq_of_lt small, encodeVarint_length 4 (by omega)]
  · refine ⟨fun rest => getVarint64_putVarint64 rest small, ?_⟩
    rw [putVarint64, Nat.mod_eq_of_lt small, encodeVarint_length 9 (by omega)]

/-- Five bytes for `2 ^ 32` decode to 0. -/
theorem getVarint32_overflows :
    IsVarint [0x80, 0x80, 0x80, 0x80, 0x10] (2 ^ 32) ∧
    getInto getVarint32 [0x80, 0x80, 0x80, 0x80, 0x10] 7 = (true, [], 0) ∧
    ¬DecodesExactly 32 getVarint32 [0x80, 0x80, 0x80, 0x80, 0x10] := by
  refine ⟨?_, by decide, ?_⟩
  · exact .more (by decide) (.more (by decide) (.more (by decide) (.more (by decide) (.last (by decide)))))
  · rw [decodesExactly32_iff]
    decide

end TalusDB
