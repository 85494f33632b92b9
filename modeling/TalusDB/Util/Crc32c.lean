import TalusDB.Util.Coding

/-! The bytewise CRC-32C of `util/crc32c.cc` and the masking applied before a
checksum is stored. No error-detection property is assumed or proved. -/
namespace TalusDB.Crc32c

def kCrc32cPolynomial : UInt32 := 0x82f63b78

def extendBit (crc : UInt32) : UInt32 :=
  if crc &&& 1 ≠ 0 then (crc >>> 1) ^^^ kCrc32cPolynomial else crc >>> 1

def extendByte (crc : UInt32) (byte : UInt8) : UInt32 :=
  extendBit^[8] (crc ^^^ byte.toUInt32)

def extend (initCrc : UInt32) (data : Bytes) : UInt32 :=
  ~~~ (data.foldl extendByte (~~~ initCrc))

def value (data : Bytes) : UInt32 := extend 0 data

def kMaskDelta : UInt32 := 0xa282ead8

def mask (crc : UInt32) : UInt32 := ((crc >>> 15) ||| (crc <<< 17)) + kMaskDelta

def unmask (maskedCrc : UInt32) : UInt32 :=
  let rot := maskedCrc - kMaskDelta
  (rot >>> 17) ||| (rot <<< 15)

theorem extend_append (initCrc : UInt32) (first second : Bytes) :
    extend (extend initCrc first) second = extend initCrc (first ++ second) := by
  simp [extend, List.foldl_append]

theorem unmask_mask (crc : UInt32) : unmask (mask crc) = crc := by
  simp only [unmask, mask, UInt32.add_sub_cancel]
  apply UInt32.toBitVec_inj.mp
  apply BitVec.eq_of_getLsbD_eq
  intro i hi
  interval_cases i <;> simp

end TalusDB.Crc32c
