import Mathlib

/-! Little-endian fixed-width integers, as the log header stores its checksum and internal keys
their tag. -/
namespace TalusDB
open List

abbrev Bytes := List UInt8

namespace Coding

def encodeFixed32 (value : UInt32) : Bytes :=
  [value.toUInt8, (value >>> 8).toUInt8, (value >>> 16).toUInt8, (value >>> 24).toUInt8]

/-- Reads the first four bytes. The source never calls it on fewer. -/
def decodeFixed32 : Bytes → UInt32
  | b0 :: b1 :: b2 :: b3 :: _ =>
    b0.toUInt32 ||| (b1.toUInt32 <<< 8) ||| (b2.toUInt32 <<< 16) ||| (b3.toUInt32 <<< 24)
  | _ => 0

def encodeFixed64 (value : UInt64) : Bytes :=
  [value.toUInt8, (value >>> 8).toUInt8, (value >>> 16).toUInt8, (value >>> 24).toUInt8,
    (value >>> 32).toUInt8, (value >>> 40).toUInt8, (value >>> 48).toUInt8, (value >>> 56).toUInt8]

/-- Reads the first eight bytes. The source never calls it on fewer. -/
def decodeFixed64 : Bytes → UInt64
  | b0 :: b1 :: b2 :: b3 :: b4 :: b5 :: b6 :: b7 :: _ =>
    b0.toUInt64 ||| (b1.toUInt64 <<< 8) ||| (b2.toUInt64 <<< 16) ||| (b3.toUInt64 <<< 24) |||
      (b4.toUInt64 <<< 32) ||| (b5.toUInt64 <<< 40) ||| (b6.toUInt64 <<< 48) |||
      (b7.toUInt64 <<< 56)
  | _ => 0

@[simp] theorem encodeFixed32_length (value : UInt32) : (encodeFixed32 value).length = 4 := rfl

@[simp] theorem encodeFixed64_length (value : UInt64) : (encodeFixed64 value).length = 8 := rfl

theorem getLsbD_placed {w : Nat} (byte : BitVec 8) (s : Nat) {i : Nat} (bound : i < w) :
    (byte.setWidth w <<< s).getLsbD i =
      (decide (s ≤ i ∧ i < s + 8) && byte.getLsbD (i - s)) := by
  rw [BitVec.getLsbD_shiftLeft, BitVec.getLsbD_setWidth]
  have inWord : i - s < w := by omega
  by_cases reaches : s ≤ i
  · by_cases inside : i < s + 8
    · simp [bound, reaches, inside, inWord, not_lt.mpr reaches]
    · have beyond : byte.getLsbD (i - s) = false := BitVec.getLsbD_of_ge _ _ (by omega)
      simp [beyond]
  · simp [reaches, not_le.mp reaches]

theorem getLsbD_placed32 (byte : UInt8) {s : UInt32} (small : s.toNat < 32) {i : Nat}
    (bound : i < 32) : (byte.toUInt32 <<< s).toBitVec.getLsbD i =
      (decide (s.toNat ≤ i ∧ i < s.toNat + 8) && byte.toBitVec.getLsbD (i - s.toNat)) := by
  have shift : (s.toBitVec % 32).toNat = s.toNat := by
    simp [BitVec.toNat_umod, Nat.mod_eq_of_lt small]
  rw [← getLsbD_placed byte.toBitVec s.toNat bound]
  simp only [UInt32.toBitVec_shiftLeft, UInt8.toBitVec_toUInt32, BitVec.shiftLeft_eq', shift]

theorem getLsbD_placed64 (byte : UInt8) {s : UInt64} (small : s.toNat < 64) {i : Nat}
    (bound : i < 64) : (byte.toUInt64 <<< s).toBitVec.getLsbD i =
      (decide (s.toNat ≤ i ∧ i < s.toNat + 8) && byte.toBitVec.getLsbD (i - s.toNat)) := by
  have shift : (s.toBitVec % 64).toNat = s.toNat := by
    simp [BitVec.toNat_umod, Nat.mod_eq_of_lt small]
  rw [← getLsbD_placed byte.toBitVec s.toNat bound]
  simp only [UInt64.toBitVec_shiftLeft, UInt8.toBitVec_toUInt64, BitVec.shiftLeft_eq', shift]

section fixed32
variable {q r : Nat}

theorem getLsbD_decodeFixed32 {bytes : Bytes} (long : 4 ≤ bytes.length) (few : q < 4)
    (inByte : r < 8) : (decodeFixed32 bytes).toBitVec.getLsbD (8 * q + r) =
      (bytes.getD q 0).toBitVec.getLsbD r := by
  obtain ⟨b0, b1, b2, b3, rest, rfl⟩ : ∃ b0 b1 b2 b3 rest, bytes = b0 :: b1 :: b2 :: b3 :: rest := by
    match bytes, long with
    | b0 :: b1 :: b2 :: b3 :: rest, _ => exact ⟨b0, b1, b2, b3, rest, rfl⟩
  have first : b0.toUInt32 = b0.toUInt32 <<< 0 := by simp
  have placed (byte : UInt8) {s : UInt32} (small : s.toNat < 32) :=
    getLsbD_placed32 byte small (show 8 * q + r < 32 by omega)
  rw [decodeFixed32, first]
  simp only [UInt32.toBitVec_or, BitVec.getLsbD_or]
  rw [placed b0 (by decide), placed b1 (by decide), placed b2 (by decide), placed b3 (by decide)]
  clear placed first long
  interval_cases q
  all_goals
    simp only [getD_cons_succ, getD_cons_zero]
    grind

theorem getLsbD_encodeFixed32 (value : UInt32) (rest : Bytes) (few : q < 4) (inByte : r < 8) :
    ((encodeFixed32 value ++ rest).getD q 0).toBitVec.getLsbD r =
      value.toBitVec.getLsbD (8 * q + r) := by
  rw [encodeFixed32]
  interval_cases q
  all_goals simp [inByte, -BitVec.getLsbD_eq_getElem]

end fixed32

theorem decodeFixed32_encodeFixed32 (value : UInt32) (rest : Bytes) :
    decodeFixed32 (encodeFixed32 value ++ rest) = value := by
  apply UInt32.toBitVec_inj.mp
  apply BitVec.eq_of_getLsbD_eq
  intro i bound
  have inByte : i % 8 < 8 := Nat.mod_lt i (by decide)
  have few : i / 8 < 4 := by omega
  rw [← Nat.div_add_mod i 8, getLsbD_decodeFixed32 (by simp) few inByte,
    getLsbD_encodeFixed32 value rest few inByte]

section fixed64
variable {q r : Nat}

theorem getLsbD_decodeFixed64 {bytes : Bytes} (long : 8 ≤ bytes.length) (few : q < 8)
    (inByte : r < 8) : (decodeFixed64 bytes).toBitVec.getLsbD (8 * q + r) =
      (bytes.getD q 0).toBitVec.getLsbD r := by
  obtain ⟨b0, b1, b2, b3, b4, b5, b6, b7, rest, rfl⟩ : ∃ b0 b1 b2 b3 b4 b5 b6 b7 rest,
      bytes = b0 :: b1 :: b2 :: b3 :: b4 :: b5 :: b6 :: b7 :: rest := by
    match bytes, long with
    | b0 :: b1 :: b2 :: b3 :: b4 :: b5 :: b6 :: b7 :: rest, _ =>
      exact ⟨b0, b1, b2, b3, b4, b5, b6, b7, rest, rfl⟩
  have first : b0.toUInt64 = b0.toUInt64 <<< 0 := by simp
  have placed (byte : UInt8) {s : UInt64} (small : s.toNat < 64) :=
    getLsbD_placed64 byte small (show 8 * q + r < 64 by omega)
  rw [decodeFixed64, first]
  simp only [UInt64.toBitVec_or, BitVec.getLsbD_or]
  rw [placed b0 (by decide), placed b1 (by decide), placed b2 (by decide), placed b3 (by decide),
    placed b4 (by decide), placed b5 (by decide), placed b6 (by decide), placed b7 (by decide)]
  clear placed first long
  interval_cases q
  all_goals
    simp only [getD_cons_succ, getD_cons_zero]
    grind

theorem getLsbD_encodeFixed64 (value : UInt64) (rest : Bytes) (few : q < 8) (inByte : r < 8) :
    ((encodeFixed64 value ++ rest).getD q 0).toBitVec.getLsbD r =
      value.toBitVec.getLsbD (8 * q + r) := by
  rw [encodeFixed64]
  interval_cases q
  all_goals simp [inByte, -BitVec.getLsbD_eq_getElem]

end fixed64

theorem decodeFixed64_encodeFixed64 (value : UInt64) (rest : Bytes) :
    decodeFixed64 (encodeFixed64 value ++ rest) = value := by
  apply UInt64.toBitVec_inj.mp
  apply BitVec.eq_of_getLsbD_eq
  intro i bound
  have inByte : i % 8 < 8 := Nat.mod_lt i (by decide)
  have few : i / 8 < 8 := by omega
  rw [← Nat.div_add_mod i 8, getLsbD_decodeFixed64 (by simp) few inByte,
    getLsbD_encodeFixed64 value rest few inByte]

theorem eq_of_decodeFixed64 {a b : Bytes} (eight : a.length = 8) (eight' : b.length = 8)
    (same : decodeFixed64 a = decodeFixed64 b) : a = b := by
  have byte : ∀ q < 8, a.getD q 0 = b.getD q 0 := by
    intro q few
    apply UInt8.toBitVec_inj.mp
    apply BitVec.eq_of_getLsbD_eq
    intro r inByte
    rw [← getLsbD_decodeFixed64 eight.ge few inByte, same,
      getLsbD_decodeFixed64 eight'.ge few inByte]
  apply ext_getElem (eight.trans eight'.symm)
  intro q inA inB
  have here := byte q (by omega)
  rwa [getD_eq_getElem _ _ inA, getD_eq_getElem _ _ inB] at here

end Coding
end TalusDB
