import TalusDB.Util.Crc32c

/-! Physical records of the write-ahead log: `db/log_format.h` and the header that
`log::Writer::EmitPhysicalRecord` builds. A block is 32768 bytes; a physical
record never crosses a block boundary, and a block tail shorter than a header is
filled with zeros. -/
namespace TalusDB.Log
open Coding

inductive RecordType where
  | zero | full | first | middle | last
  deriving DecidableEq, Repr

namespace RecordType

/-- The numeric codes of `enum RecordType`. -/
def code : RecordType → Nat
  | zero => 0
  | full => 1
  | first => 2
  | middle => 3
  | last => 4

def byte (type : RecordType) : UInt8 := UInt8.ofNat type.code

end RecordType

def kMaxRecordType : Nat := RecordType.last.code
def kBlockSize : Nat := 32768
def kHeaderSize : Nat := 4 + 2 + 1

theorem kBlockSize_eq : kBlockSize = 32768 := rfl
theorem kHeaderSize_eq : kHeaderSize = 7 := rfl

/-- `Writer::type_crc_`, filled by `InitTypeCrc`. -/
def typeCrc (type : RecordType) : UInt32 := Crc32c.value [type.byte]

def header (type : RecordType) (payload : Bytes) : Bytes :=
  encodeFixed32 (Crc32c.mask (Crc32c.extend (typeCrc type) payload)) ++
    [UInt8.ofNat (payload.length &&& 0xff), UInt8.ofNat (payload.length >>> 8), type.byte]

def physicalRecord (type : RecordType) (payload : Bytes) : Bytes :=
  header type payload ++ payload

@[simp] theorem header_length (type : RecordType) (payload : Bytes) :
    (header type payload).length = kHeaderSize := by
  simp [header, kHeaderSize]

@[simp] theorem physicalRecord_length (type : RecordType) (payload : Bytes) :
    (physicalRecord type payload).length = kHeaderSize + payload.length := by
  simp [physicalRecord]

theorem length_field (n : Nat) (fits : n < 65536) :
    (UInt8.ofNat (n &&& 0xff)).toNat ||| ((UInt8.ofNat (n >>> 8)).toNat <<< 8) = n := by
  have low : (UInt8.ofNat (n &&& 0xff)).toNat = n % 256 := by
    have mask : n &&& 0xff = n % 256 := Nat.and_two_pow_sub_one_eq_mod n 8
    rw [mask]
    exact Nat.mod_eq_of_lt (Nat.mod_lt _ (by decide))
  have high : (UInt8.ofNat (n >>> 8)).toNat = n / 256 := by
    rw [Nat.shiftRight_eq_div_pow]
    exact Nat.mod_eq_of_lt (by omega)
  rw [low, high, Nat.or_comm, ← Nat.shiftLeft_add_eq_or_of_lt (by omega), Nat.shiftLeft_eq]
  omega

end TalusDB.Log
