import TalusDB.Log.Append
import TalusDB.Table.Format

/-! `TableBuilder::WriteRawBlock`: a block that it wrote is read where its handle says. -/
namespace TalusDB
open Coding List

/-- The part of `Rep` that tells where blocks are written. -/
structure TableBuilder where
  file : Log.WritableFile
  offset : Nat := 0
  ok : Bool := true

namespace TableBuilder

/-- `WriteRawBlock`, with the handle that it sets. -/
def writeRawBlock (t : TableBuilder) (contents : Bytes) (type : CompressionType) :
    BlockHandle × TableBuilder :=
  let handle := ⟨t.offset, contents.length⟩
  let (ok, file) := t.file.append contents
  if ok then
    let (ok, file) := file.append (blockTrailer contents type)
    if ok then
      (handle, { t with file, ok, offset := t.offset + (contents.length + kBlockTrailerSize) })
    else (handle, { t with file, ok })
  else (handle, { t with file, ok })

theorem writeRawBlock_contents {t t' : TableBuilder} {contents : Bytes} {type : CompressionType}
    {handle : BlockHandle} (written : t.writeRawBlock contents type = (handle, t'))
    (ok : t'.ok = true) : handle = ⟨t.offset, contents.length⟩ ∧
      t'.file.contents = t.file.contents ++ rawBlock contents type := by
  obtain ⟨kept, first, -, whole⟩ := Log.Writer.append_spec t.file contents
  rw [writeRawBlock] at written
  generalize t.file.append contents = r at first whole written
  obtain ⟨ok₁, file₁⟩ := r
  obtain ⟨kept₂, second, -, whole₂⟩ := Log.Writer.append_spec file₁ (blockTrailer contents type)
  dsimp only at first whole written
  generalize file₁.append (blockTrailer contents type) = r at second whole₂ written
  obtain ⟨ok₂, file₂⟩ := r
  cases ok₁ <;> cases ok₂ <;> cases written
  case true.true =>
    exact ⟨rfl, second.trans (by rw [first, whole rfl, whole₂ rfl, rawBlock, append_assoc])⟩
  all_goals cases ok

/-- A block that `WriteRawBlock` wrote at the end of a file is read where its handle says, whatever
is written behind it, with or without its checksum verified. -/
theorem readBlock_writeRawBlock {codecs : Codecs} {read : FileRead} {file contents data : Bytes}
    {t t' : TableBuilder} {type : CompressionType} {handle : BlockHandle}
    (written : t.writeRawBlock contents type = (handle, t')) (ok : t'.ok = true)
    (atEnd : t.offset = t.file.contents.length) (kept : t'.file.contents <+: file)
    (reads : ReadsAll read file) (small : file.length < 2 ^ 63)
    (decoded : decodeBlock codecs type contents = some data) (fits : data.length < 2 ^ 63)
    (verifyChecksums : Bool) :
    ∃ block, readBlock codecs read verifyChecksums handle = some (.ok block) ∧ block.data = data := by
  obtain ⟨rfl, isContents⟩ := writeRawBlock_contents written ok
  obtain ⟨rest, rfl⟩ := kept
  have behind : (t'.file.contents ++ rest).drop t.offset = rawBlock contents type ++ rest := by
    rw [isContents, atEnd, append_assoc, drop_left]
  exact readBlock_rawBlock reads behind rfl small decoded fits verifyChecksums

/-- A file of one byte, to which a block of two is written. -/
def oneByte : TableBuilder := { file := ⟨[7], []⟩, offset := 1 }

theorem readBlock_writeRawBlock_oneByte : ∃ block,
    readBlock noCodecs (preadFile ((oneByte.writeRawBlock [1, 2] .none).2.file.contents ++ [9])) true
      ⟨1, 2⟩ = some (.ok block) ∧ block.data = [1, 2] :=
  readBlock_writeRawBlock (t := oneByte) rfl rfl rfl (prefix_append _ _) (preadFile_readsAll _)
    (by decide +kernel) rfl (by decide) true

end TableBuilder
end TalusDB
