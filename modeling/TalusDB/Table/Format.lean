import TalusDB.Table.Block
import TalusDB.Util.Crc32c

/-! Block handles, and `ReadBlock` for any handle. A read of a byte that the file did not return
gives no result, and neither does `new` for more than `PTRDIFF_MAX` bytes, which throws. -/
namespace TalusDB
open Coding List Option

structure BlockHandle where
  offset : Nat
  size : Nat
  deriving Repr, DecidableEq

namespace BlockHandle

def encodeTo (handle : BlockHandle) : Bytes := putVarint64 handle.offset ++ putVarint64 handle.size

def decodeFrom (input : Bytes) : Option (BlockHandle × Bytes) := do
  let (offset, input) ← getVarint64 input
  let (size, input) ← getVarint64 input
  some (⟨offset, size⟩, input)

end BlockHandle

def BlockHandle.unset : BlockHandle := ⟨2 ^ 64 - 1, 2 ^ 64 - 1⟩

structure Footer where
  metaindexHandle : BlockHandle
  indexHandle : BlockHandle
  deriving Repr, DecidableEq

def kTableMagicNumber : UInt64 := 0x8c7f4e0c9d6a2b31

namespace Footer

def kMaxEncodedLength : Nat := 10 + 10

def kEncodedLength : Nat := 2 * kMaxEncodedLength + 8

/-- The handles, filled up with zeros by `resize`. -/
def handles (footer : Footer) : Bytes :=
  let written := footer.metaindexHandle.encodeTo ++ footer.indexHandle.encodeTo
  written.take (2 * kMaxEncodedLength) ++
    List.replicate (2 * kMaxEncodedLength - written.length) 0

def encodeTo (footer : Footer) : Bytes :=
  footer.handles ++ (encodeFixed32 kTableMagicNumber.toUInt32 ++
    encodeFixed32 (kTableMagicNumber >>> 32).toUInt32)

def decodeFrom (input : Bytes) : Except String Footer :=
  if input.length < kEncodedLength then .error "not an sstable (footer too short)"
  else
    let magicLo := decodeFixed32 (input.drop (kEncodedLength - 8))
    let magicHi := decodeFixed32 (input.drop (kEncodedLength - 8 + 4))
    if magicHi.toUInt64 <<< 32 ||| magicLo.toUInt64 ≠ kTableMagicNumber then
      .error "not an sstable (bad magic number)"
    else
      match BlockHandle.decodeFrom input with
      | none => .error "bad block handle"
      | some (metaindexHandle, input) =>
        match BlockHandle.decodeFrom input with
        | none => .error "bad block handle"
        | some (indexHandle, _) => .ok { metaindexHandle, indexHandle }

end Footer

def kBlockTrailerSize : Nat := 5

inductive CompressionType where
  | none
  | snappy
  | zstd
  deriving Repr, DecidableEq

def CompressionType.byte : CompressionType → UInt8
  | .none => 0
  | .snappy => 1
  | .zstd => 2

def CompressionType.ofByte (byte : UInt8) : Option CompressionType :=
  if byte = 0 then some .none else if byte = 1 then some .snappy
  else if byte = 2 then some .zstd else Option.none

/-- A decompressor: the length that it tells for some bytes, and the buffer of this length after it
has worked. -/
structure Codec where
  uncompressedLength : Bytes → Option Nat
  uncompress : Bytes → (ulength : Nat) → Option { ubuf : Bytes // ubuf.length = ulength }

structure Codecs where
  snappy : Codec
  zstd : Codec

structure BlockContents where
  data : Bytes
  cachable : Bool
  heapAllocated : Bool
  deriving Repr, DecidableEq

/-- `RandomAccessFile::Read`: the bytes, and whether they lie in the buffer of the caller. -/
abbrev FileRead := Nat → Nat → Except String (Bytes × Bool)

def uncompressBlock (codec : Codec) (name : String) (payload : Bytes) :
    Option (Except String BlockContents) :=
  match codec.uncompressedLength payload with
  | none => some (.error ("corrupted " ++ name ++ " compressed block length"))
  | some ulength =>
    if 2 ^ 63 ≤ ulength then none
    else
      match codec.uncompress payload ulength with
      | none => some (.error ("corrupted " ++ name ++ " compressed block contents"))
      | some ubuf => some (.ok ⟨ubuf, true, true⟩)

/-- The part of `ReadBlock` behind the checksum. -/
def readPayload (codecs : Codecs) (contents : Bytes) (inBuffer : Bool) (n : Nat) :
    Option (Except String BlockContents) := do
  let byte ← contents[n]?
  let payload ← readBytes contents 0 n
  match CompressionType.ofByte byte with
  | some .none => some (.ok ⟨payload, inBuffer, inBuffer⟩)
  | some .snappy => uncompressBlock codecs.snappy "snappy" payload
  | some .zstd => uncompressBlock codecs.zstd "zstd" payload
  | none => some (.error "bad block type")

/-- The part of `ReadBlock` behind the test of the length. -/
def readChecked (codecs : Codecs) (contents : Bytes) (inBuffer verifyChecksums : Bool) (n : Nat) :
    Option (Except String BlockContents) :=
  if verifyChecksums then do
    let stored ← readBytes contents ((n + 1) % 2 ^ 64) 4
    let checked ← readBytes contents 0 ((n + 1) % 2 ^ 64)
    if Crc32c.value checked ≠ Crc32c.unmask (decodeFixed32 stored) then
      some (.error "block crc checksum missmatch")
    else readPayload codecs contents inBuffer n
  else readPayload codecs contents inBuffer n

/-- Lengths and indices are 64-bit numbers. -/
def readBlock (codecs : Codecs) (read : FileRead) (verifyChecksums : Bool) (handle : BlockHandle) :
    Option (Except String BlockContents) :=
  let size := (handle.size + kBlockTrailerSize) % 2 ^ 64
  if 2 ^ 63 ≤ size then none
  else
    match read handle.offset size with
    | .error status => some (.error status)
    | .ok (contents, inBuffer) =>
      if contents.length ≠ size then some (.error "read truncated block")
      else readChecked codecs contents inBuffer verifyChecksums handle.size

section reading
variable {codecs : Codecs} {read : FileRead} {file : Bytes}

/-- The file returns at most what is asked for, and its own bytes from the offset. -/
def ReadsFrom (read : FileRead) (file : Bytes) : Prop :=
  ∀ offset n contents inBuffer, read offset n = .ok (contents, inBuffer) →
    contents.length ≤ n ∧ contents <+: file.drop offset

/-- What a decompressor makes of the bytes of a block. -/
def Codec.decode (codec : Codec) (payload : Bytes) : Option Bytes :=
  (codec.uncompressedLength payload).bind fun ulength =>
    (codec.uncompress payload ulength).map Subtype.val

/-- What a block type makes of the bytes of a block. -/
def decodeBlock (codecs : Codecs) : CompressionType → Bytes → Option Bytes
  | .none, payload => some payload
  | .snappy, payload => codecs.snappy.decode payload
  | .zstd, payload => codecs.zstd.decode payload

/-- The block is made of `size` bytes of the file at the offset of the handle. -/
def FromFile (codecs : Codecs) (file : Bytes) (handle : BlockHandle) (block : BlockContents) : Prop :=
  ∃ payload byte type, payload.length = handle.size ∧ payload ++ [byte] <+: file.drop handle.offset ∧
    CompressionType.ofByte byte = some type ∧ decodeBlock codecs type payload = some block.data

/-- There is a buffer for what the bytes of a block are uncompressed to. -/
def Allocates (codecs : Codecs) (byte : UInt8) (payload : Bytes) : Prop :=
  match CompressionType.ofByte byte with
  | some .snappy => ∀ ulength ∈ codecs.snappy.uncompressedLength payload, ulength < 2 ^ 63
  | some .zstd => ∀ ulength ∈ codecs.zstd.uncompressedLength payload, ulength < 2 ^ 63
  | _ => True

theorem uncompressBlock_iff {codec : Codec} {name : String} {payload : Bytes}
    {P : BlockContents → Prop} (decodes : ∀ block, codec.decode payload = some block.data → P block) :
    (∃ result, uncompressBlock codec name payload = some result ∧ ∀ block, result = .ok block → P block)
      ↔ ∀ ulength ∈ codec.uncompressedLength payload, ulength < 2 ^ 63 := by
  rw [uncompressBlock]
  cases isLength : codec.uncompressedLength payload with
  | none => simp
  | some ulength =>
    dsimp only
    split
    case isTrue large => exact iff_of_false (by simp) fun all => (all ulength rfl).not_ge large
    case isFalse small =>
      refine iff_of_true ?_ fun _ isLength => Option.some.inj isLength ▸ Nat.lt_of_not_le small
      cases isData : codec.uncompress payload ulength with
      | none => exact ⟨_, rfl, by simp⟩
      | some ubuf =>
        refine ⟨_, rfl, fun block isBlock => ?_⟩
        cases isBlock
        exact decodes _ (by simp [Codec.decode, isLength, isData])

theorem readPayload_iff {contents : Bytes} (inBuffer : Bool) {handle : BlockHandle}
    (part : contents <+: file.drop handle.offset) :
    (∃ result, readPayload codecs contents inBuffer handle.size = some result ∧
      ∀ block, result = .ok block → FromFile codecs file handle block) ↔
    ∃ byte ∈ contents[handle.size]?, Allocates codecs byte (contents.take handle.size) := by
  cases isByte : contents[handle.size]? with
  | none => simp [readPayload, isByte]
  | some byte =>
    obtain ⟨long, rfl⟩ := List.getElem?_eq_some_iff.mp isByte
    have payload : readBytes contents 0 handle.size = some (contents.take handle.size) := by
      rw [readBytes, if_pos (by omega), drop_zero]
    have taken : contents.take handle.size ++ [contents[handle.size]] <+:
        file.drop handle.offset := by
      refine List.IsPrefix.trans ?_ part
      rw [take_concat_get' contents handle.size long]
      exact take_prefix _ _
    have length : (contents.take handle.size).length = handle.size := length_take_of_le long.le
    simp only [readPayload, isByte, payload, bind_eq_bind, bind_some, Allocates, mem_some_iff,
      exists_eq_left']
    cases isType : CompressionType.ofByte contents[handle.size] with
    | none => simp
    | some type =>
      have made : ∀ block, decodeBlock codecs type (contents.take handle.size) = some block.data →
          FromFile codecs file handle block := fun block isBlock =>
        ⟨_, _, type, length, taken, isType, isBlock⟩
      cases type with
      | none => simpa using made _ rfl
      | snappy => exact uncompressBlock_iff made
      | zstd => exact uncompressBlock_iff made

/-- The checksum is verified, and the bytes have another one. -/
def ChecksumFails (verifyChecksums : Bool) (contents : Bytes) (n : Nat) : Prop :=
  verifyChecksums = true ∧ n + 4 ≤ contents.length ∧
    Crc32c.value (contents.take n) ≠ Crc32c.unmask (decodeFixed32 ((contents.drop n).take 4))

/-- There is a buffer for the size of the block and its trailer, which is a 64-bit number. If the
file fills it, `ReadBlock` finds a wrong checksum, or finds the type byte inside and a buffer for
what it says. -/
def BlockHandle.Readable (codecs : Codecs) (read : FileRead) (verifyChecksums : Bool)
    (handle : BlockHandle) : Prop :=
  let size := (handle.size + kBlockTrailerSize) % 2 ^ 64
  size < 2 ^ 63 ∧ ∀ contents inBuffer, read handle.offset size = .ok (contents, inBuffer) →
    contents.length = size → ChecksumFails verifyChecksums contents ((handle.size + 1) % 2 ^ 64) ∨
      ∃ byte ∈ contents[handle.size]?, Allocates codecs byte (contents.take handle.size)

theorem BlockHandle.decodeFrom_size_lt {input rest : Bytes} {handle : BlockHandle}
    (decoded : decodeFrom input = some (handle, rest)) : handle.size < 2 ^ 64 := by
  obtain ⟨first, -, decoded⟩ := bind_eq_some_iff.mp decoded
  obtain ⟨second, isSize, decoded⟩ := bind_eq_some_iff.mp decoded
  cases decoded
  exact (getVarint64_spec isSize).1

theorem readChecked_iff {contents : Bytes} {inBuffer : Bool} {handle : BlockHandle}
    (verifyChecksums : Bool) (small : handle.size < 2 ^ 64)
    (length : contents.length = (handle.size + kBlockTrailerSize) % 2 ^ 64)
    (part : contents <+: file.drop handle.offset) :
    (∃ result, readChecked codecs contents inBuffer verifyChecksums handle.size = some result ∧
      ∀ block, result = .ok block → FromFile codecs file handle block) ↔
    ChecksumFails verifyChecksums contents ((handle.size + 1) % 2 ^ 64) ∨
      ∃ byte ∈ contents[handle.size]?, Allocates codecs byte (contents.take handle.size) := by
  rw [← readPayload_iff inBuffer part, readChecked, ChecksumFails]
  cases verifyChecksums with
  | false => simp
  | true =>
    rw [if_pos rfl]
    by_cases inside : (handle.size + 1) % 2 ^ 64 + 4 ≤ contents.length
    · rw [readBytes_inside inside, readBytes_inside (by omega)]
      simp only [bind_eq_bind, bind_some, drop_zero]
      split
      case isTrue wrong => exact iff_of_true ⟨_, rfl, by simp⟩ (.inl ⟨trivial, inside, wrong⟩)
      case isFalse right => exact (or_iff_right fun fails => right fails.2.2).symm
    · -- The type byte lies behind the bytes as well.
      have outside : contents[handle.size]? = none := by
        rw [kBlockTrailerSize] at length
        exact List.getElem?_eq_none (by omega)
      have stored : readBytes contents ((handle.size + 1) % 2 ^ 64) 4 = none := if_neg inside
      rw [stored]
      refine iff_of_false (by simp) ?_
      rintro (fails | ⟨_, isResult, -⟩)
      · exact inside fails.2.1
      · rw [readPayload, outside] at isResult
        cases isResult

/-- For a file that returns at most what is asked for: `ReadBlock` stays inside the bytes that it
got, and takes the block from the file, exactly for the handles that are readable. -/
theorem readBlock_inside_iff (codecs : Codecs) (read : FileRead) (file : Bytes)
    (reads : ReadsFrom read file) (verifyChecksums : Bool) (input rest : Bytes)
    (handle : BlockHandle) (decoded : BlockHandle.decodeFrom input = some (handle, rest)) :
    (∃ result, readBlock codecs read verifyChecksums handle = some result ∧
      ∀ block, result = .ok block → FromFile codecs file handle block) ↔
    handle.Readable codecs read verifyChecksums := by
  have small := BlockHandle.decodeFrom_size_lt decoded
  rw [BlockHandle.Readable, readBlock]
  by_cases large : 2 ^ 63 ≤ (handle.size + kBlockTrailerSize) % 2 ^ 64
  · rw [if_pos large]
    exact iff_of_false (by simp) fun fine => fine.1.not_ge large
  · rw [if_neg large]
    cases isRead : read handle.offset ((handle.size + kBlockTrailerSize) % 2 ^ 64) with
    | error status => simpa using large
    | ok returned =>
      obtain ⟨contents, inBuffer⟩ := returned
      obtain ⟨-, part⟩ := reads _ _ _ _ isRead
      dsimp only
      by_cases length : contents.length = (handle.size + kBlockTrailerSize) % 2 ^ 64
      · rw [if_neg (not_not.mpr length), readChecked_iff verifyChecksums small length part]
        constructor
        · refine fun fine => ⟨Nat.lt_of_not_le large, fun _ _ isContents _ => ?_⟩
          cases isContents
          exact fine
        · exact fun fine => fine.2 contents inBuffer rfl length
      · rw [if_pos length]
        refine iff_of_true ⟨_, rfl, by simp⟩ ⟨Nat.lt_of_not_le large, fun _ _ isContents same => ?_⟩
        cases isContents
        exact absurd same length

end reading

/-- A file that is read by `pread`. -/
def preadFile (file : Bytes) : FileRead := fun offset n => .ok ((file.drop offset).take n, true)

theorem preadFile_readsFrom (file : Bytes) : ReadsFrom (preadFile file) file := by
  intro offset n contents inBuffer isRead
  cases isRead
  exact ⟨length_take_le _ _, take_prefix _ _⟩

/-- The size `2 ^ 64 - 1` and the trailer make four bytes, which the file has. The type byte is then
looked for far outside of them. -/
theorem readBlock_outside :
    ∃ file input handle rest, BlockHandle.decodeFrom input = some (handle, rest) ∧
      (file.take ((handle.size + kBlockTrailerSize) % 2 ^ 64)).length ≤ handle.size ∧
      ∀ codecs, readBlock codecs (preadFile file) false handle = none := by
  refine ⟨[0, 0, 0, 0], [0, 255, 255, 255, 255, 255, 255, 255, 255, 255, 1], ⟨0, 2 ^ 64 - 1⟩, [],
    by decide +kernel, by decide +kernel, fun codecs => ?_⟩
  rfl

/-- A build without compression libraries. -/
def noCodecs : Codecs := ⟨⟨fun _ => none, fun _ _ => none⟩, ⟨fun _ => none, fun _ _ => none⟩⟩

/-- A block of two bytes, whose checksum is not verified. -/
theorem readBlock_inside_two :
    ∃ result, readBlock noCodecs (preadFile [104, 105, 0, 0x28, 0x3d, 0x54, 0x1c]) false ⟨0, 2⟩ =
        some result ∧
      ∀ block, result = .ok block →
        FromFile noCodecs [104, 105, 0, 0x28, 0x3d, 0x54, 0x1c] ⟨0, 2⟩ block :=
  (readBlock_inside_iff noCodecs _ _ (preadFile_readsFrom _) false [0, 2] [] ⟨0, 2⟩
    (by decide +kernel)).mpr ⟨by decide, fun contents _ isRead _ => by
      cases isRead
      exact .inr ⟨0, rfl, trivial⟩⟩

/-! ### What was written is read -/

/-- The handle is made of 64-bit numbers. -/
def BlockHandle.Fits (handle : BlockHandle) : Prop := handle.offset < 2 ^ 64 ∧ handle.size < 2 ^ 64

theorem BlockHandle.decodeFrom_encodeTo {handle : BlockHandle} (fits : handle.Fits) (rest : Bytes) :
    decodeFrom (handle.encodeTo ++ rest) = some (handle, rest) := by
  rw [decodeFrom, encodeTo, append_assoc, getVarint64_putVarint64 _ fits.1]
  simp only [bind_eq_bind, bind_some]
  rw [getVarint64_putVarint64 _ fits.2, bind_some]

theorem BlockHandle.encodeTo_length_le (handle : BlockHandle) :
    handle.encodeTo.length ≤ Footer.kMaxEncodedLength := by
  have first := putVarint64_length_le handle.offset
  have second := putVarint64_length_le handle.size
  rw [encodeTo, length_append, Footer.kMaxEncodedLength]
  omega

namespace Footer

theorem handles_eq (footer : Footer) : ∃ rest, footer.handles =
    footer.metaindexHandle.encodeTo ++ (footer.indexHandle.encodeTo ++ rest) := by
  have first := footer.metaindexHandle.encodeTo_length_le
  have second := footer.indexHandle.encodeTo_length_le
  refine ⟨List.replicate (2 * kMaxEncodedLength -
    (footer.metaindexHandle.encodeTo ++ footer.indexHandle.encodeTo).length) 0, ?_⟩
  rw [handles, take_of_length_le, append_assoc]
  rw [length_append]
  omega

theorem handles_length (footer : Footer) : footer.handles.length = 2 * kMaxEncodedLength := by
  rw [handles, length_append, length_take, length_replicate]
  omega

theorem encodeTo_length (footer : Footer) : footer.encodeTo.length = kEncodedLength := by
  rw [encodeTo, length_append, handles_length]
  rfl

/-- The footer of a table is read back as it was written. -/
theorem decodeFrom_encoded {footer : Footer} (metaindex : footer.metaindexHandle.Fits)
    (index : footer.indexHandle.Fits) : decodeFrom footer.encodeTo = .ok footer := by
  have low : footer.encodeTo.drop (kEncodedLength - 8) = encodeFixed32 kTableMagicNumber.toUInt32 ++
      encodeFixed32 (kTableMagicNumber >>> 32).toUInt32 := drop_left' footer.handles_length
  have high : footer.encodeTo.drop (kEncodedLength - 8 + 4) =
      encodeFixed32 (kTableMagicNumber >>> 32).toUInt32 ++ [] := by
    rw [← drop_drop, low, append_nil]
    rfl
  obtain ⟨rest, isHandles⟩ := footer.handles_eq
  have input : ∃ rest, footer.encodeTo =
      footer.metaindexHandle.encodeTo ++ (footer.indexHandle.encodeTo ++ rest) := by
    refine ⟨rest ++ (encodeFixed32 kTableMagicNumber.toUInt32 ++
      encodeFixed32 (kTableMagicNumber >>> 32).toUInt32), ?_⟩
    rw [encodeTo, isHandles, append_assoc, append_assoc]
  obtain ⟨rest, isInput⟩ := input
  rw [decodeFrom, if_neg (by rw [encodeTo_length]; exact lt_irrefl _)]
  dsimp only
  rw [low, high, decodeFixed32_encodeFixed32, decodeFixed32_encodeFixed32, if_neg (by decide), isInput,
    BlockHandle.decodeFrom_encodeTo metaindex]
  dsimp only
  rw [BlockHandle.decodeFrom_encodeTo index]

theorem decodeFrom_encoded_two :
    decodeFrom (encodeTo ⟨⟨0, 8⟩, ⟨300, 70000⟩⟩) = .ok ⟨⟨0, 8⟩, ⟨300, 70000⟩⟩ :=
  decodeFrom_encoded ⟨by decide, by decide⟩ ⟨by decide, by decide⟩

end Footer

/-- The type of a block and its checksum. -/
def blockTrailer (contents : Bytes) (type : CompressionType) : Bytes :=
  type.byte :: encodeFixed32 (Crc32c.mask (Crc32c.extend (Crc32c.value contents) [type.byte]))

/-- What `WriteRawBlock` appends. -/
def rawBlock (contents : Bytes) (type : CompressionType) : Bytes :=
  contents ++ blockTrailer contents type

theorem rawBlock_length (contents : Bytes) (type : CompressionType) :
    (rawBlock contents type).length = contents.length + kBlockTrailerSize := by
  rw [rawBlock, length_append, blockTrailer, length_cons, encodeFixed32_length]
  rfl

/-- The file returns its own bytes, and all of them that are asked for. -/
def ReadsAll (read : FileRead) (file : Bytes) : Prop :=
  ∀ offset n, offset + n ≤ file.length →
    ∃ inBuffer, read offset n = .ok ((file.drop offset).take n, inBuffer)

theorem preadFile_readsAll (file : Bytes) : ReadsAll (preadFile file) file :=
  fun _ _ _ => ⟨true, rfl⟩

theorem uncompressBlock_eq {codec : Codec} {payload data : Bytes} (name : String)
    (decoded : codec.decode payload = some data) (small : data.length < 2 ^ 63) :
    uncompressBlock codec name payload = some (.ok ⟨data, true, true⟩) := by
  obtain ⟨ulength, isLength, decoded⟩ := bind_eq_some_iff.mp decoded
  obtain ⟨⟨_, rfl⟩, isData, rfl⟩ := map_eq_some_iff.mp decoded
  rw [uncompressBlock, isLength]
  dsimp only
  rw [if_neg (Nat.not_le.mpr small), isData]

theorem readBlock_rawBlock {codecs : Codecs} {read : FileRead} {file contents data rest : Bytes}
    {type : CompressionType} {handle : BlockHandle} (reads : ReadsAll read file)
    (written : file.drop handle.offset = rawBlock contents type ++ rest)
    (size : handle.size = contents.length) (small : file.length < 2 ^ 63)
    (decoded : decodeBlock codecs type contents = some data) (fits : data.length < 2 ^ 63)
    (verifyChecksums : Bool) :
    ∃ block, readBlock codecs read verifyChecksums handle = some (.ok block) ∧ block.data = data := by
  have inside : handle.offset + (handle.size + kBlockTrailerSize) ≤ file.length := by
    have length := congrArg List.length written
    rw [length_drop, length_append, rawBlock_length] at length
    rw [kBlockTrailerSize] at length ⊢
    omega
  obtain ⟨inBuffer, isRead⟩ := reads _ _ inside
  have whole : (file.drop handle.offset).take (handle.size + kBlockTrailerSize) =
      rawBlock contents type := by
    rw [written, size, ← rawBlock_length, take_left]
  have long := rawBlock_length contents type
  rw [kBlockTrailerSize] at inside long
  have payload : ∃ block, readPayload codecs (rawBlock contents type) inBuffer contents.length =
      some (.ok block) ∧ block.data = data := by
    have byte : (rawBlock contents type)[contents.length]? = some type.byte := by
      rw [rawBlock, List.getElem?_append_right le_rfl, Nat.sub_self]
      rfl
    have front : readBytes (rawBlock contents type) 0 contents.length = some contents :=
      readBytes_written (p := 0) rfl (by omega)
    simp only [readPayload, byte, front, bind_eq_bind, bind_some]
    cases type with
    | none => exact ⟨_, rfl, Option.some.inj decoded⟩
    | snappy => exact ⟨_, uncompressBlock_eq "snappy" decoded fits, rfl⟩
    | zstd => exact ⟨_, uncompressBlock_eq "zstd" decoded fits, rfl⟩
  rw [readBlock, kBlockTrailerSize, Nat.mod_eq_of_lt (by omega)]
  rw [kBlockTrailerSize] at isRead whole
  rw [if_neg (by omega), isRead, whole]
  dsimp only
  rw [if_neg (by omega), readChecked, size]
  cases verifyChecksums with
  | false => exact payload
  | true =>
    rw [if_pos rfl, Nat.mod_eq_of_lt (by omega)]
    have parts : rawBlock contents type = (contents ++ [type.byte]) ++ encodeFixed32
        (Crc32c.mask (Crc32c.extend (Crc32c.value contents) [type.byte])) :=
      append_cons contents type.byte _
    have front : (contents ++ [type.byte]).length = contents.length + 1 := length_append
    have checked : readBytes (rawBlock contents type) 0 (contents.length + 1) =
        some (contents ++ [type.byte]) := by
      rw [← front]
      exact readBytes_written parts (by omega)
    have stored : readBytes (rawBlock contents type) (contents.length + 1) 4 =
        some (encodeFixed32 (Crc32c.mask (Crc32c.extend (Crc32c.value contents) [type.byte]))) := by
      rw [readBytes_inside (by omega), parts, drop_left' front]
      exact congrArg some (take_of_length_le (encodeFixed32_length _).le)
    have same := decodeFixed32_encodeFixed32
      (Crc32c.mask (Crc32c.extend (Crc32c.value contents) [type.byte])) []
    rw [append_nil] at same
    have sum : Crc32c.value (contents ++ [type.byte]) =
        Crc32c.extend (Crc32c.value contents) [type.byte] := (Crc32c.extend_append _ _ _).symm
    simp only [stored, checked, bind_eq_bind, bind_some]
    rw [same, Crc32c.unmask_mask, if_neg (not_not.mpr sum)]
    exact payload

end TalusDB
