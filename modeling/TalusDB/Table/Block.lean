import TalusDB.Lib.Cursor
import TalusDB.Util.Slice

/-! `Block`: entries whose keys share a beginning with the key before, and the array of restart
points behind them. A function has no result if it reads outside of the block, or if one of its
loops does not end. -/
namespace TalusDB
open Coding Cursor List

def readBytes (data : Bytes) (offset length : Nat) : Option Bytes :=
  if offset + length ≤ data.length then some ((data.drop offset).take length) else none

theorem readBytes_inside {data : Bytes} {offset length : Nat}
    (inside : offset + length ≤ data.length) :
    readBytes data offset length = some ((data.drop offset).take length) := if_pos inside

theorem readBytes_written {data bytes rest : Bytes} {p : Nat}
    (written : data.drop p = bytes ++ rest)
    (inside : p + bytes.length ≤ data.length) : readBytes data p bytes.length = some bytes := by
  rw [readBytes_inside inside, written, take_left]

/-- `DecodeFixed32` at an offset. -/
def readFixed32 (data : Bytes) (offset : Nat) : Option Nat :=
  (readBytes data offset 4).map fun bytes => (decodeFixed32 bytes).toNat

/-- The three lengths at the start of an entry, and where its key begins. -/
structure EntryHeader where
  start : Nat
  shared : Nat
  nonShared : Nat
  valueLength : Nat
  deriving Repr, DecidableEq

/-- Goes on with a pointer that is not null. -/
def unlessNull {α β : Type} (x : Option (Option α)) (f : α → Option (Option β)) :
    Option (Option β) :=
  x.bind fun
    | none => some none
    | some a => f a

@[simp]
theorem unlessNull_some {α β : Type} (a : α) (f : α → Option (Option β)) :
    unlessNull (some (some a)) f = f a := rfl

def decodeLengths (data : Bytes) (p limit : Nat) : Option (Option EntryHeader) :=
  unlessNull (getVarint32Ptr data limit p) fun (shared, p) =>
    unlessNull (getVarint32Ptr data limit p) fun (nonShared, p) =>
      unlessNull (getVarint32Ptr data limit p) fun (valueLength, p) =>
        some (some ⟨p, shared, nonShared, valueLength⟩)

/-- The part of `DecodeEntry` that reads the header. -/
def decodeHeader (data : Bytes) (p limit : Nat) : Option (Option EntryHeader) :=
  if limit < p + 3 then some none
  else do
    let shared ← data[p]?
    let nonShared ← data[p + 1]?
    let valueLength ← data[p + 2]?
    if shared.toNat < 128 ∧ nonShared.toNat < 128 ∧ valueLength.toNat < 128 then
      some (some ⟨p + 3, shared.toNat, nonShared.toNat, valueLength.toNat⟩)
    else decodeLengths data p limit

/-- `DecodeEntry`. The lengths are added and compared as 32-bit numbers. -/
def decodeEntry (data : Bytes) (p limit : Nat) : Option (Option EntryHeader) :=
  unlessNull (decodeHeader data p limit) fun h =>
    if (limit - h.start) % 2 ^ 32 < (h.nonShared + h.valueLength) % 2 ^ 32 then some none
    else some (some h)

section header
variable {data : Bytes} {limit p : Nat}

theorem decodeHeader_eq (inside : limit ≤ data.length) (long : p + 3 ≤ limit) :
    decodeHeader data p limit = decodeLengths data p limit := by
  have first : data[p]? = some data[p] := getElem?_eq_getElem (by omega)
  have second : data[p + 1]? = some data[p + 1] := getElem?_eq_getElem (by omega)
  have third : data[p + 2]? = some data[p + 2] := getElem?_eq_getElem (by omega)
  simp only [decodeHeader, if_neg (Nat.not_lt.mpr long), first, second, third, Option.bind_eq_bind,
    Option.bind_some]
  split
  case isTrue short =>
    simp only [decodeLengths, getVarint32Ptr_byte first short.1 (by omega : p < limit),
      getVarint32Ptr_byte second short.2.1 (by omega : p + 1 < limit),
      getVarint32Ptr_byte third short.2.2 (by omega : p + 2 < limit), unlessNull_some]
  case isFalse => rfl

theorem decodeHeader_bound (inside : limit ≤ data.length) (p : Nat) :
    ∃ found, decodeHeader data p limit = some found ∧
      ∀ h, found = some h → p + 3 ≤ h.start ∧ h.start ≤ limit := by
  by_cases long : p + 3 ≤ limit
  · rw [decodeHeader_eq inside long, decodeLengths]
    obtain ⟨first, decoded, bound⟩ := getVarint32Ptr_bound inside p
    rw [decoded]
    cases first with
    | none => exact ⟨none, rfl, by simp⟩
    | some first =>
      obtain ⟨shared, p₁⟩ := first
      obtain ⟨above, -⟩ := bound shared p₁ rfl
      obtain ⟨second, decoded, bound⟩ := getVarint32Ptr_bound inside p₁
      simp only [unlessNull_some, decoded]
      cases second with
      | none => exact ⟨none, rfl, by simp⟩
      | some second =>
        obtain ⟨nonShared, p₂⟩ := second
        obtain ⟨above₂, -⟩ := bound nonShared p₂ rfl
        obtain ⟨third, decoded, bound⟩ := getVarint32Ptr_bound inside p₂
        simp only [unlessNull_some, decoded]
        cases third with
        | none => exact ⟨none, rfl, by simp⟩
        | some third =>
          obtain ⟨valueLength, p₃⟩ := third
          obtain ⟨above₃, below, -⟩ := bound valueLength p₃ rfl
          refine ⟨_, rfl, fun h isH => ?_⟩
          cases isH
          exact ⟨by dsimp only; omega, below⟩
  · rw [decodeHeader, if_pos (Nat.lt_of_not_le long)]
    exact ⟨none, rfl, by simp⟩

theorem decodeEntry_bound (inside : limit ≤ data.length) (small : limit < 2 ^ 32) (p : Nat) :
    ∃ found, decodeEntry data p limit = some found ∧ ∀ h, found = some h → p + 3 ≤ h.start ∧
      (h.nonShared + h.valueLength < 2 ^ 32 → h.start + h.nonShared + h.valueLength ≤ limit) := by
  obtain ⟨found, decoded, bound⟩ := decodeHeader_bound inside p
  rw [decodeEntry, decoded]
  cases found with
  | none => exact ⟨none, rfl, by simp⟩
  | some h =>
    obtain ⟨after, before⟩ := bound h rfl
    rw [unlessNull_some]
    split
    case isTrue => exact ⟨none, rfl, by simp⟩
    case isFalse fits =>
      refine ⟨some h, rfl, fun h' isH => ?_⟩
      cases isH
      exact ⟨after, by omega⟩

end header

/-- The members of `Block::Iter` that do not change. -/
structure BlockView where
  data : Bytes
  restarts : Nat
  numRestarts : Nat
  deriving DecidableEq

/-- The members of `Block::Iter` that do. `value` is the range of `value_` in the block, if it
points there, and `ok` tells whether `status_` is ok. -/
structure BlockIter where
  current : Nat
  restartIndex : Nat
  key : Bytes := []
  value : Option (Nat × Nat) := none
  ok : Bool := true
  deriving DecidableEq

namespace BlockView
variable (b : BlockView)

def start : BlockIter := { current := b.restarts, restartIndex := b.numRestarts }

def getRestartPoint (index : Nat) : Option Nat := readFixed32 b.data (b.restarts + index * 4)

def seekToRestartPoint (it : BlockIter) (index : Nat) : Option BlockIter :=
  (b.getRestartPoint index).map fun offset =>
    { it with key := [], restartIndex := index, value := some (offset, 0) }

def valid (it : BlockIter) : Bool := it.current < b.restarts

/-- The state in which there is no entry. -/
def leave (it : BlockIter) : BlockIter :=
  { it with current := b.restarts, restartIndex := b.numRestarts }

def corruptionError : BlockIter :=
  { current := b.restarts, restartIndex := b.numRestarts, ok := false }

end BlockView

def BlockIter.nextEntryOffset (it : BlockIter) : Option Nat :=
  it.value.map fun v => (v.1 + v.2) % 2 ^ 32

namespace BlockView
variable (b : BlockView)

/-- The loop at the end of `ParseNextKey`. -/
def advanceRestartIndex (current : Nat) : Nat → Nat → Option Nat
  | 0, _ => none
  | fuel + 1, index =>
    if (index + 1) % 2 ^ 32 < b.numRestarts then
      (b.getRestartPoint (index + 1)).bind fun offset =>
        if offset < current then advanceRestartIndex current fuel (index + 1) else some index
    else some index

/-- The state behind the next entry, and whether there is one. -/
def parseNextKey (it : BlockIter) : Option (BlockIter × Bool) := do
  let current ← it.nextEntryOffset
  if b.restarts ≤ current then some (b.leave it, false)
  else
    match ← decodeEntry b.data current b.restarts with
    | none => some (b.corruptionError, false)
    | some h =>
      if it.key.length < h.shared then some (b.corruptionError, false)
      else do
        let delta ← readBytes b.data h.start h.nonShared
        let index ← b.advanceRestartIndex current (b.numRestarts + 1) it.restartIndex
        some ({ it with
          current
          restartIndex := index
          key := it.key.take h.shared ++ delta
          value := some (h.start + h.nonShared, h.valueLength) }, true)

/-- The loops around `ParseNextKey`, which end at an entry or when there is none. -/
def scan (stop : BlockIter → Bool) : Nat → BlockIter → Option BlockIter
  | 0, _ => none
  | fuel + 1, it =>
    (b.parseNextKey it).bind fun (it, more) =>
      if more && !stop it then scan stop fuel it else some it

def seekToFirst (it : BlockIter) : Option BlockIter := do
  let it ← b.seekToRestartPoint it 0
  (b.parseNextKey it).map Prod.fst

def seekToLast (it : BlockIter) : Option BlockIter := do
  let it ← b.seekToRestartPoint it (b.numRestarts - 1)
  b.scan (fun it => it.nextEntryOffset.any (b.restarts ≤ ·)) (b.restarts + 1) it

/-- The search for the last restart point whose key is less than the target. `some none` is the
exit by `CorruptionError`. -/
def searchRestarts (less : Bytes → Bool) : Nat → Nat → Nat → Option (Option Nat)
  | 0, _, _ => none
  | fuel + 1, left, right =>
    if left < right then do
      let mid := (left + right + 1) % 2 ^ 32 / 2
      let offset ← b.getRestartPoint mid
      match ← decodeEntry b.data offset b.restarts with
      | none => some none
      | some h =>
        if h.shared ≠ 0 then some none
        else do
          let midKey ← readBytes b.data h.start h.nonShared
          if less midKey then searchRestarts less fuel mid right
          else searchRestarts less fuel left ((mid + 2 ^ 32 - 1) % 2 ^ 32)
    else some (some left)

/-- The part of `Seek` that follows the comparison with the current key. -/
def seekFrom (compare : Bytes → Bytes → Ordering) (it : BlockIter) (target : Bytes)
    (left right : Nat) (ahead : Bool) : Option BlockIter := do
  match ← b.searchRestarts (compare · target == .lt) (b.numRestarts + 1) left right with
  | none => some b.corruptionError
  | some left =>
    (if left = it.restartIndex ∧ ahead then some it else b.seekToRestartPoint it left).bind
      (b.scan (compare ·.key target != .lt) (b.restarts + 1))

def seek (compare : Bytes → Bytes → Ordering) (it : BlockIter) (target : Bytes) :
    Option BlockIter :=
  if b.valid it then
    match compare it.key target with
    | .lt => b.seekFrom compare it target it.restartIndex (b.numRestarts - 1) true
    | .gt => b.seekFrom compare it target 0 it.restartIndex false
    | .eq => some it
  else b.seekFrom compare it target 0 (b.numRestarts - 1) false

/-- The loop of `Prev` for a restart point before the entry at `original`. -/
def restartBefore (original : Nat) : Nat → Option (Option Nat)
  | 0 => (b.getRestartPoint 0).map fun offset => if original ≤ offset then none else some 0
  | index + 1 =>
    (b.getRestartPoint (index + 1)).bind fun offset =>
      if original ≤ offset then restartBefore original index else some (some (index + 1))

def prev (it : BlockIter) : Option BlockIter := do
  match ← b.restartBefore it.current it.restartIndex with
  | none => some (b.leave it)
  | some index =>
    let start ← b.seekToRestartPoint it index
    b.scan (fun now => !now.nextEntryOffset.any (· < it.current)) (b.restarts + 1) start

def step (compare : Bytes → Bytes → Ordering) (it : BlockIter) : Cursor.Op Slice → Option BlockIter
  | .seekToFirst => b.seekToFirst it
  | .seekToLast => b.seekToLast it
  | .seek target => b.seek compare it target.data
  | .next => (b.parseNextKey it).map Prod.fst
  | .prev => b.prev it

end BlockView

/-- What `NewIterator` returns: an iterator over nothing, with an error or without, or a
`Block::Iter`. -/
inductive BlockStart where
  | error
  | empty
  | iter (b : BlockView)
  deriving DecidableEq

/-- The constructor of `Block` and `NewIterator`. -/
def newBlockIterator (contents : Bytes) : BlockStart :=
  if contents.length < 4 then .error
  else
    let numRestarts := (decodeFixed32 (contents.drop (contents.length - 4))).toNat
    if (contents.length - 4) / 4 < numRestarts then .error
    else if numRestarts = 0 then .empty
    else .iter
      { data := contents
        restarts := (contents.length - (1 + numRestarts) % 2 ^ 32 * 4) % 2 ^ 32
        numRestarts }

end TalusDB
