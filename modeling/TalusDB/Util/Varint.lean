import TalusDB.Util.Coding

/-! Varints: seven bits a byte, the lowest first, with the high bit set on all bytes but the last. -/
namespace TalusDB
namespace Coding
open List Option
open UInt8 (ofNat)

/-- The loop of `EncodeVarint32` and `EncodeVarint64`, for values of at most `rounds + 1` bytes. -/
def encodeVarint : Nat → Nat → Bytes
  | 0, value => [ofNat value]
  | rounds + 1, value =>
    if value < 128 then [ofNat value]
    else ofNat (value % 128 + 128) :: encodeVarint rounds (value / 128)

/-- What `PutVarint32` appends. -/
def putVarint32 (value : Nat) : Bytes := encodeVarint 4 (value % 2 ^ 32)

/-- What `PutVarint64` appends. -/
def putVarint64 (value : Nat) : Bytes := encodeVarint 9 (value % 2 ^ 64)

/-- The loop of `GetVarint32PtrFallback` and `GetVarint64Ptr`: the value and the offset behind it,
or `some none` for the null pointer. It has no result if it reads outside of `data`. -/
def getVarint (data : Bytes) (limit bits : Nat) (fits : Nat → Nat → Bool) :
    Nat → Nat → Nat → Nat → Option (Option (Nat × Nat))
  | 0, _, _, _ => some none
  | rounds + 1, shift, result, p =>
    if p < limit then do
      let byte ← data[p]?
      if fits shift byte.toNat then
        let result := result ||| (byte.toNat % 128) <<< shift % 2 ^ bits
        if byte.toNat < 128 then some (some (result, p + 1))
        else getVarint data limit bits fits rounds (shift + 7) result (p + 1)
      else some none
    else some none

def getVarint32PtrFallback (data : Bytes) (limit p : Nat) : Option (Option (Nat × Nat)) :=
  getVarint data limit 32 (fun _ _ => true) 5 0 0 p

def getVarint32Ptr (data : Bytes) (limit p : Nat) : Option (Option (Nat × Nat)) :=
  if p < limit then do
    let byte ← data[p]?
    if byte.toNat < 128 then some (some (byte.toNat, p + 1))
    else getVarint32PtrFallback data limit p
  else getVarint32PtrFallback data limit p

/-- The tenth byte may only hold the highest bit. -/
def getVarint64Ptr (data : Bytes) (limit p : Nat) : Option (Option (Nat × Nat)) :=
  getVarint data limit 64 (fun shift byte => !(shift == 63 && decide (1 < byte))) 10 0 0 p

section bounds
variable {data : Bytes} {limit bits : Nat} {fits : Nat → Nat → Bool}

theorem getVarint_bound (inside : limit ≤ data.length) (rounds shift result p : Nat)
    (small : result < 2 ^ bits) :
    ∃ found, getVarint data limit bits fits rounds shift result p = some found ∧
      ∀ value q, found = some (value, q) → p < q ∧ q ≤ limit ∧ value < 2 ^ bits := by
  induction rounds generalizing shift result p with
  | zero => exact ⟨none, rfl, by simp⟩
  | succ rounds ih =>
    rw [getVarint]
    by_cases within : p < limit
    · have read : data[p]? = some data[p] := getElem?_eq_getElem (within.trans_le inside)
      simp only [if_pos within, read, bind_eq_bind, bind_some]
      have grown : result ||| (data[p].toNat % 128) <<< shift % 2 ^ bits < 2 ^ bits :=
        Nat.or_lt_two_pow small (Nat.mod_lt _ (Nat.two_pow_pos bits))
      by_cases fit : fits shift data[p].toNat = true
      · rw [if_pos fit]
        by_cases last : data[p].toNat < 128
        · rw [if_pos last]
          refine ⟨_, rfl, fun value q isFound => ?_⟩
          cases isFound
          exact ⟨Nat.lt_succ_self p, within, grown⟩
        · rw [if_neg last]
          obtain ⟨found, decoded, bound⟩ := ih (shift + 7) _ (p + 1) grown
          refine ⟨found, decoded, fun value q isFound => ?_⟩
          obtain ⟨after, before, small⟩ := bound value q isFound
          exact ⟨Nat.lt_of_succ_lt after, before, small⟩
      · rw [if_neg fit]
        exact ⟨none, rfl, by simp⟩
    · rw [if_neg within]
      exact ⟨none, rfl, by simp⟩

theorem getVarint32Ptr_bound (inside : limit ≤ data.length) (p : Nat) :
    ∃ found, getVarint32Ptr data limit p = some found ∧
      ∀ value q, found = some (value, q) → p < q ∧ q ≤ limit ∧ value < 2 ^ 32 := by
  rw [getVarint32Ptr]
  by_cases within : p < limit
  · have read : data[p]? = some data[p] := getElem?_eq_getElem (within.trans_le inside)
    simp only [if_pos within, read, bind_eq_bind, bind_some]
    by_cases last : data[p].toNat < 128
    · rw [if_pos last]
      refine ⟨_, rfl, fun value q isFound => ?_⟩
      cases isFound
      exact ⟨Nat.lt_succ_self p, within, by omega⟩
    · rw [if_neg last]
      exact getVarint_bound inside _ _ _ _ (by decide)
  · rw [if_neg within]
    exact getVarint_bound inside _ _ _ _ (by decide)

theorem getVarint64Ptr_bound (inside : limit ≤ data.length) (p : Nat) :
    ∃ found, getVarint64Ptr data limit p = some found ∧
      ∀ value q, found = some (value, q) → p < q ∧ q ≤ limit ∧ value < 2 ^ 64 :=
  getVarint_bound inside 10 0 0 p (by decide)

end bounds

theorem encodeVarint_ne_nil (rounds value : Nat) : encodeVarint rounds value ≠ [] := by
  cases rounds with
  | zero => exact cons_ne_nil _ _
  | succ rounds =>
    rw [encodeVarint]
    split <;> exact cons_ne_nil _ _

theorem encodeVarint_length_le (rounds value : Nat) :
    (encodeVarint rounds value).length ≤ rounds + 1 := by
  induction rounds generalizing value with
  | zero => exact le_refl 1
  | succ rounds ih =>
    rw [encodeVarint]
    split
    case isTrue => exact Nat.le_add_left 1 (rounds + 1)
    case isFalse => exact Nat.succ_le_succ (ih (value / 128))

theorem putVarint32_length_le (value : Nat) : (putVarint32 value).length ≤ 5 :=
  encodeVarint_length_le 4 _

theorem putVarint64_length_le (value : Nat) : (putVarint64 value).length ≤ 10 :=
  encodeVarint_length_le 9 _

section roundTrip
variable {data rest : Bytes} {limit bits shift result value : Nat} {fits : Nat → Nat → Bool}

theorem toNat_ofNat (small : value < 256) : (ofNat value).toNat = value := by
  simpa using small

theorem or_shiftLeft (low : result < 2 ^ shift) {x : Nat} (small : x * 2 ^ shift < 2 ^ bits) :
    result ||| x <<< shift % 2 ^ bits = result + x * 2 ^ shift := by
  rw [Nat.shiftLeft_eq, Nat.mod_eq_of_lt small, ← Nat.shiftLeft_eq, Nat.or_comm,
    ← Nat.shiftLeft_add_eq_or_of_lt low, Nat.shiftLeft_eq, Nat.add_comm]

theorem getVarint_round {p byte : Nat} (written : data.drop p = ofNat byte :: rest)
    (isByte : byte < 256) (within : p < limit) (fit : fits shift byte = true)
    (low : result < 2 ^ shift) (small : byte % 128 * 2 ^ shift < 2 ^ bits) (rounds : Nat) :
    getVarint data limit bits fits (rounds + 1) shift result p =
      if byte < 128 then some (some (result + byte % 128 * 2 ^ shift, p + 1))
      else getVarint data limit bits fits rounds (shift + 7) (result + byte % 128 * 2 ^ shift)
        (p + 1) := by
  have read : data[p]? = some (ofNat byte) := by
    rw [← List.head?_drop, written, List.head?_cons]
  simp only [getVarint, if_pos within, read, bind_eq_bind, bind_some,
    toNat_ofNat isByte, if_pos fit, or_shiftLeft low small]

theorem getVarint_last {p : Nat} (written : data.drop p = ofNat value :: rest)
    (final : value < 128) (within : p < limit) (fit : fits shift value = true)
    (low : result < 2 ^ shift) (small : value * 2 ^ shift < 2 ^ bits) (rounds : Nat) :
    getVarint data limit bits fits (rounds + 1) shift result p =
      some (some (result + value * 2 ^ shift, p + 1)) := by
  have mod : value % 128 = value := Nat.mod_eq_of_lt final
  rw [getVarint_round written (by omega) within fit low (by rwa [mod]), if_pos final, mod]

theorem getVarint_encodeVarint (rounds : Nat) {p : Nat}
    (written : data.drop p = encodeVarint rounds value ++ rest)
    (within : p + (encodeVarint rounds value).length ≤ limit) (low : result < 2 ^ shift)
    (short : value < 128 ^ (rounds + 1)) (small : value * 2 ^ shift < 2 ^ bits)
    (fit : ∀ i b, i ≤ rounds → b * 128 ^ i ≤ value ∨ i < rounds → fits (shift + 7 * i) b = true) :
    getVarint data limit bits fits (rounds + 1) shift result p =
      some (some (result + value * 2 ^ shift, p + (encodeVarint rounds value).length)) := by
  induction rounds generalizing shift result p value with
  | zero =>
    exact getVarint_last written (by simpa using short) within
      (fit 0 value le_rfl (.inl (by simp))) low small 0
  | succ rounds ih =>
    by_cases final : value < 128
    · rw [encodeVarint, if_pos final] at written within ⊢
      exact getVarint_last written final within
        (fit 0 value (Nat.zero_le _) (.inl (by simp))) low small _
    · rw [encodeVarint, if_neg final] at written within ⊢
      have split : value = 128 * (value / 128) + value % 128 := (Nat.div_add_mod value 128).symm
      have mod : (value % 128 + 128) % 128 = value % 128 := by omega
      have power : 2 ^ (shift + 7) = 128 * 2 ^ shift := by rw [pow_add]; ring
      have parts : value * 2 ^ shift = value / 128 * 2 ^ (shift + 7) + value % 128 * 2 ^ shift := by
        rw [power]
        nth_rewrite 1 [split]
        ring
      have before : p < limit := by
        rw [length_cons] at within
        omega
      have first : fits shift (value % 128 + 128) = true :=
        fit 0 _ (Nat.zero_le _) (.inr (Nat.succ_pos rounds))
      have bounded : (value % 128 + 128) % 128 * 2 ^ shift < 2 ^ bits := by
        rw [mod]
        omega
      rw [getVarint_round written (by omega) before first low bounded, if_neg (by omega), mod]
      have behind : data.drop (p + 1) = encodeVarint rounds (value / 128) ++ rest := by
        rw [← tail_drop, written]
        rfl
      have lower : result + value % 128 * 2 ^ shift < 2 ^ (shift + 7) := by
        have top : value % 128 * 2 ^ shift ≤ 127 * 2 ^ shift := Nat.mul_le_mul_right _ (by omega)
        omega
      have shorter : value / 128 < 128 ^ (rounds + 1) := by
        rw [Nat.div_lt_iff_lt_mul (by decide), ← pow_succ]
        exact short
      rw [length_cons] at within ⊢
      rw [ih behind (by omega) lower shorter (by omega) fun i b bound small => ?_]
      · rw [parts]
        congr 3 <;> omega
      · have next := fit (i + 1) b (by omega) (small.imp (fun le => ?_) (by omega))
        · rwa [Nat.mul_add, ← Nat.add_assoc, Nat.add_right_comm] at next
        · rw [pow_succ, ← Nat.mul_assoc]
          exact (Nat.le_div_iff_mul_le (by decide)).mp le

theorem getVarint32Ptr_byte {p : Nat} {byte : UInt8} (read : data[p]? = some byte)
    (final : byte.toNat < 128) (within : p < limit) :
    getVarint32Ptr data limit p = some (some (byte.toNat, p + 1)) := by
  simp only [getVarint32Ptr, if_pos within, read, bind_eq_bind, bind_some,
    if_pos final]

theorem getVarint32Ptr_putVarint32 {p : Nat} (small : value < 2 ^ 32)
    (written : data.drop p = putVarint32 value ++ rest)
    (within : p + (putVarint32 value).length ≤ limit) :
    getVarint32Ptr data limit p = some (some (value, p + (putVarint32 value).length)) := by
  rw [putVarint32, Nat.mod_eq_of_lt small] at written within ⊢
  have before : p < limit := by
    have positive := length_pos_iff.mpr (encodeVarint_ne_nil 4 value)
    omega
  by_cases final : value < 128
  · rw [encodeVarint, if_pos final] at written ⊢
    have read : data[p]? = some (ofNat value) := by
      rw [← List.head?_drop, written]
      rfl
    have isByte := toNat_ofNat (show value < 256 by omega)
    rw [getVarint32Ptr_byte read (by rwa [isByte]) before, isByte]
    rfl
  · have read : data[p]? = some (ofNat (value % 128 + 128)) := by
      rw [← List.head?_drop, written, encodeVarint, if_neg final]
      rfl
    have high : ¬(ofNat (value % 128 + 128)).toNat < 128 := by
      rw [toNat_ofNat (by omega)]
      omega
    simp only [getVarint32Ptr, if_pos before, read, bind_eq_bind, bind_some,
      if_neg high]
    rw [getVarint32PtrFallback, getVarint_encodeVarint 4 written within (by decide) (by omega)
      (by simpa using small) (by simp)]
    simp

theorem getVarint64Ptr_putVarint64 {p : Nat} (small : value < 2 ^ 64)
    (written : data.drop p = putVarint64 value ++ rest)
    (within : p + (putVarint64 value).length ≤ limit) :
    getVarint64Ptr data limit p = some (some (value, p + (putVarint64 value).length)) := by
  rw [putVarint64, Nat.mod_eq_of_lt small] at written within ⊢
  rw [getVarint64Ptr, getVarint_encodeVarint 9 written within (by decide) (by omega)
    (by simpa using small)]
  · simp
  · intro i b bound fits
    by_cases tenth : i = 9
    · subst tenth
      have one : b ≤ 1 := by omega
      simpa using one
    · have other : ¬7 * i = 63 := by omega
      simp [other]

end roundTrip

/-- A base-128 little-endian sequence, the last byte of which alone has no continuation bit, and the
number that it stands for. -/
inductive IsVarint : Bytes → Nat → Prop
  | last {byte : UInt8} (final : byte.toNat < 128) : IsVarint [byte] byte.toNat
  | more {byte : UInt8} {bytes : Bytes} {value : Nat} (continues : 128 ≤ byte.toNat)
      (rest : IsVarint bytes value) : IsVarint (byte :: bytes) (byte.toNat % 128 + 128 * value)

namespace IsVarint
variable {bytes other rest behind : Bytes} {value value' : Nat}

theorem ne_nil (isVarint : IsVarint bytes value) : bytes ≠ [] := by
  cases isVarint <;> exact cons_ne_nil _ _

theorem split_last (isVarint : IsVarint bytes value) : ∃ front last low,
    bytes = front ++ [last] ∧ (∀ byte ∈ front, 128 ≤ byte.toNat) ∧ last.toNat < 128 ∧
      low < 128 ^ front.length ∧ value = low + 128 ^ front.length * last.toNat := by
  induction isVarint with
  | last final => exact ⟨[], _, 0, rfl, by simp, final, by simp, by simp⟩
  | @more byte bytes value continues rest ih =>
    obtain ⟨front, last, low, rfl, high, final, small, rfl⟩ := ih
    refine ⟨byte :: front, last, byte.toNat % 128 + 128 * low, rfl, ?_, final, ?_, ?_⟩
    · exact forall_mem_cons.mpr ⟨continues, high⟩
    · rw [length_cons, pow_succ]
      omega
    · rw [length_cons, pow_succ]
      ring

theorem exists_of_front {front : Bytes} (continues : ∀ byte ∈ front, 128 ≤ byte.toNat)
    {last : UInt8} (final : last.toNat < 128) : ∃ value, IsVarint (front ++ [last]) value := by
  induction front with
  | nil => exact ⟨_, .last final⟩
  | cons byte front ih =>
    obtain ⟨first, others⟩ := forall_mem_cons.mp continues
    obtain ⟨value, isVarint⟩ := ih others
    exact ⟨_, .more first isVarint⟩

theorem unique (isVarint : IsVarint bytes value) (isOther : IsVarint other value')
    (same : bytes ++ rest = other ++ behind) : bytes = other ∧ value = value' := by
  induction isVarint generalizing other value' with
  | last final =>
    cases isOther with
    | last => simp_all
    | more continues =>
      cases (cons.inj same).1
      omega
  | more continues _ ih =>
    cases isOther with
    | last final =>
      cases (cons.inj same).1
      omega
    | more continues' isRest =>
      obtain ⟨rfl, tails⟩ := cons.inj same
      obtain ⟨rfl, rfl⟩ := ih isRest tails
      exact ⟨rfl, rfl⟩

/-- Of at most `n + 1` bytes, the last of `n + 1` decides whether the number is in a range. -/
theorem lt_iff (isVarint : IsVarint bytes value) {n top : Nat} (short : bytes.length ≤ n + 1)
    (positive : 0 < top) : value < 128 ^ n * top ↔ ∀ byte, bytes[n]? = some byte → byte.toNat < top
    := by
  obtain ⟨front, last, low, rfl, -, final, small, rfl⟩ := isVarint.split_last
  rw [length_append, length_singleton] at short
  rcases Nat.lt_or_eq_of_le (Nat.le_of_succ_le_succ short) with shorter | rfl
  · have bound : low + 128 ^ front.length * last.toNat < 128 ^ n * top := calc
      low + 128 ^ front.length * last.toNat
        < 128 ^ front.length + 128 ^ front.length * 127 :=
          Nat.add_lt_add_of_lt_of_le small (Nat.mul_le_mul_left _ (by omega))
      _ = 128 ^ (front.length + 1) := by ring
      _ ≤ 128 ^ n := Nat.pow_le_pow_right (by decide) shorter
      _ ≤ 128 ^ n * top := Nat.le_mul_of_pos_right _ positive
    have absent : (front ++ [last])[n]? = none :=
      getElem?_eq_none (by rw [length_append, length_singleton]; omega)
    simp [bound, absent]
  · rw [getElem?_append_right le_rfl, Nat.sub_self, getElem?_cons_zero]
    simp only [Option.some.injEq, forall_eq']
    refine ⟨fun bound => ?_, fun below => ?_⟩
    · exact Nat.lt_of_mul_lt_mul_left (Nat.lt_of_le_of_lt (Nat.le_add_left _ low) bound)
    · calc low + 128 ^ front.length * last.toNat
          < 128 ^ front.length * (last.toNat + 1) := by rw [Nat.mul_succ]; omega
        _ ≤ 128 ^ front.length * top := Nat.mul_le_mul_left _ below

end IsVarint

section exact
variable {data bytes rest : Bytes} {byte : UInt8} {bits shift result value : Nat}
  {fits : Nat → Nat → Bool}

theorem or_shiftLeft_mod (low : result < 2 ^ shift) (inWord : shift ≤ bits) (x : Nat) :
    result ||| x <<< shift % 2 ^ bits = (result + x * 2 ^ shift) % 2 ^ bits := by
  obtain ⟨above, rfl⟩ := Nat.exists_eq_add_of_le inWord
  have kept : x * 2 ^ shift % 2 ^ (shift + above) = x % 2 ^ above * 2 ^ shift := by
    rw [pow_add, mul_comm x, Nat.mul_mod_mul_left, mul_comm]
  have bound : result + x % 2 ^ above * 2 ^ shift < 2 ^ (shift + above) := calc
    result + x % 2 ^ above * 2 ^ shift < (x % 2 ^ above + 1) * 2 ^ shift := by
      rw [Nat.succ_mul]
      omega
    _ ≤ 2 ^ above * 2 ^ shift := Nat.mul_le_mul_right _ (Nat.mod_lt _ (Nat.two_pow_pos above))
    _ = 2 ^ (shift + above) := by rw [pow_add, mul_comm]
  rw [← Nat.add_mod_mod, Nat.shiftLeft_eq, kept, Nat.mod_eq_of_lt bound, Nat.or_comm,
    ← Nat.shiftLeft_eq, ← Nat.shiftLeft_add_eq_or_of_lt low, Nat.add_comm]

theorem getVarint_cons (low : result < 2 ^ shift) (inWord : shift ≤ bits) (rounds : Nat) {p : Nat}
    (front : data.drop p = byte :: rest) :
    getVarint data data.length bits fits (rounds + 1) shift result p =
      if fits shift byte.toNat then
        if byte.toNat < 128 then
          some (some ((result + byte.toNat % 128 * 2 ^ shift) % 2 ^ bits, p + 1))
        else getVarint data data.length bits fits rounds (shift + 7)
          ((result + byte.toNat % 128 * 2 ^ shift) % 2 ^ bits) (p + 1)
      else some none := by
  have within : p < data.length := by
    have length := congrArg List.length front
    rw [length_drop, length_cons] at length
    omega
  have read : data[p]? = some byte := by rw [← List.head?_drop, front, List.head?_cons]
  simp only [getVarint, if_pos within, read, bind_eq_bind, bind_some,
    or_shiftLeft_mod low inWord]

theorem round_lt (low : result < 2 ^ shift) (byte : Nat) :
    (result + byte % 128 * 2 ^ shift) % 2 ^ bits < 2 ^ (shift + 7) := by
  refine (Nat.mod_le _ _).trans_lt ?_
  calc result + byte % 128 * 2 ^ shift < (byte % 128 + 1) * 2 ^ shift := by
        rw [Nat.succ_mul]
        omega
    _ ≤ 128 * 2 ^ shift := Nat.mul_le_mul_right _ (Nat.mod_lt byte (by decide))
    _ = 2 ^ (shift + 7) := by ring

theorem round_add (byte raw : Nat) :
    ((result + byte % 128 * 2 ^ shift) % 2 ^ bits + raw * 2 ^ (shift + 7)) % 2 ^ bits =
      (result + (byte % 128 + 128 * raw) * 2 ^ shift) % 2 ^ bits := by
  rw [Nat.mod_add_mod, pow_add]
  ring_nf

theorem getVarint_isVarint (isVarint : IsVarint bytes value) (rounds : Nat) {p : Nat}
    (low : result < 2 ^ shift) (inWord : shift + 7 * rounds ≤ bits + 7)
    (front : data.drop p = bytes ++ rest) (short : bytes.length ≤ rounds)
    (fit : ∀ i byte, bytes[i]? = some byte → fits (shift + 7 * i) byte.toNat = true) :
    getVarint data data.length bits fits rounds shift result p =
      some (some ((result + value * 2 ^ shift) % 2 ^ bits, p + bytes.length)) := by
  induction isVarint generalizing rounds shift result p with
  | last final =>
    obtain ⟨rounds, rfl⟩ := Nat.exists_eq_add_of_lt short
    have first : fits shift _ = true := fit 0 _ rfl
    rw [getVarint_cons low (by omega) _ front, if_pos first, if_pos final, Nat.mod_eq_of_lt final]
    rfl
  | @more byte bytes value continues isVarint ih =>
    rw [length_cons] at short
    obtain ⟨rounds, rfl⟩ := Nat.exists_eq_add_of_lt short
    have behind : data.drop (p + 1) = bytes ++ rest := by
      rw [← tail_drop, front]
      rfl
    have first : fits shift byte.toNat = true := fit 0 byte rfl
    rw [getVarint_cons low (by omega) _ front, if_pos first, if_neg (Nat.not_lt.mpr continues),
      ih _ (round_lt low _) (by omega) behind (by omega), round_add]
    · rw [length_cons, Nat.add_right_comm, Nat.add_assoc]
    · intro i byte isByte
      have fits := fit (i + 1) byte isByte
      rwa [Nat.mul_succ, Nat.add_comm (7 * i), ← Nat.add_assoc] at fits

theorem getVarint_spec (rounds : Nat) {p q : Nat} (low : result < 2 ^ shift)
    (inWord : shift + 7 * rounds ≤ bits + 7)
    (decoded : getVarint data data.length bits fits rounds shift result p =
      some (some (value, q))) :
    ∃ bytes raw, data.drop p = bytes ++ data.drop q ∧ IsVarint bytes raw ∧ bytes.length ≤ rounds ∧
      ∀ i byte, bytes[i]? = some byte → fits (shift + 7 * i) byte.toNat = true := by
  induction rounds generalizing shift result p with
  | zero => cases decoded
  | succ rounds ih =>
    by_cases within : p < data.length
    · have front : data.drop p = data[p] :: data.drop (p + 1) := drop_eq_getElem_cons within
      rw [getVarint_cons low (by omega) _ front] at decoded
      split at decoded
      case isFalse => cases decoded
      case isTrue fit =>
        split at decoded
        case isTrue final =>
          cases decoded
          refine ⟨[data[p]], _, front, .last final, by simp, ?_⟩
          intro i byte isByte
          cases i with
          | zero =>
            cases isByte
            exact fit
          | succ i => cases isByte
        case isFalse continues =>
          obtain ⟨bytes, raw, behind, isVarint, short, fits⟩ := ih (round_lt low _) (by omega) decoded
          refine ⟨data[p] :: bytes, _, ?_, .more (Nat.le_of_not_lt continues) isVarint,
            Nat.succ_le_succ short, ?_⟩
          · rw [front, behind, cons_append]
          · intro i byte isByte
            cases i with
            | zero =>
              cases isByte
              exact fit
            | succ i =>
              rw [Nat.mul_succ, Nat.add_comm (7 * i), ← Nat.add_assoc]
              exact fits i byte isByte
    · rw [getVarint, if_neg within] at decoded
      cases decoded

end exact
theorem getVarint32Ptr_eq (input : Bytes) : getVarint32Ptr input input.length 0 =
    getVarint input input.length 32 (fun _ _ => true) 5 0 0 0 := by
  cases input with
  | nil => rfl
  | cons byte rest =>
    simp only [getVarint32Ptr, length_cons, Nat.zero_lt_succ, if_true, getElem?_cons_zero,
      bind_eq_bind, bind_some]
    split
    case isFalse => rfl
    case isTrue final =>
      rw [← length_cons, getVarint_cons (by decide) (by decide) 4 rfl, if_pos rfl, if_pos final]
      simp only [pow_zero, mul_one, Nat.zero_add]
      rw [Nat.mod_eq_of_lt final, Nat.mod_eq_of_lt (by omega)]

def varintLength (value : Nat) : Nat :=
  if value < 128 then 1 else varintLength (value / 128) + 1
decreasing_by omega

theorem encodeVarint_length (rounds : Nat) {value : Nat} (short : value < 128 ^ (rounds + 1)) :
    (encodeVarint rounds value).length = varintLength value := by
  induction rounds generalizing value with
  | zero =>
    rw [varintLength, if_pos (by simpa using short)]
    rfl
  | succ rounds ih =>
    rw [varintLength, encodeVarint]
    split
    case isTrue => rfl
    case isFalse =>
      rw [length_cons, ih]
      rwa [Nat.div_lt_iff_lt_mul (by decide), ← pow_succ]

end Coding
end TalusDB
