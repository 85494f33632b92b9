import TalusDB.Table.BlockSafety

/-! `BlockBuilder`, and where the entries of a block that it built lie. -/
namespace TalusDB
open Coding List UInt32

/-- `restarts` is `restarts_`, `counter` the number of entries since the last restart point. -/
structure BlockBuilder where
  buffer : Bytes := []
  restarts : List Nat := [0]
  counter : Nat := 0
  lastKey : Bytes := []

/-- The length of the common beginning of two keys. -/
def sharedLength : Bytes → Bytes → Nat
  | a :: as, b :: bs => if a = b then sharedLength as bs + 1 else 0
  | _, _ => 0

/-- What `Add` appends for an entry. -/
def encodeEntry (shared : Nat) (key value : Bytes) : Bytes :=
  putVarint32 shared ++ (putVarint32 (key.length - shared) ++ (putVarint32 value.length ++
    (key.drop shared ++ value)))

namespace BlockBuilder

/-- The number of bytes of the last key that `Add` does not repeat. -/
def shared (interval : Nat) (t : BlockBuilder) (key : Bytes) : Nat :=
  if t.counter < interval then sharedLength t.lastKey key else 0

def add (interval : Nat) (t : BlockBuilder) (key value : Bytes) : BlockBuilder where
  buffer := t.buffer ++ encodeEntry (t.shared interval key) key value
  restarts := if t.counter < interval then t.restarts else t.restarts ++ [t.buffer.length]
  counter := if t.counter < interval then t.counter + 1 else 1
  lastKey := t.lastKey.take (t.shared interval key) ++ key.drop (t.shared interval key)

def finish (t : BlockBuilder) : Bytes :=
  t.buffer ++ (t.restarts.flatMap (fun offset => encodeFixed32 (ofNat offset)) ++
    encodeFixed32 (ofNat t.restarts.length))

def build (interval : Nat) (entries : List (Slice × Bytes)) : BlockBuilder :=
  entries.foldl (fun t e => t.add interval e.1.data e.2) {}

end BlockBuilder

theorem take_sharedLength (last key : Bytes) :
    last.take (sharedLength last key) = key.take (sharedLength last key) := by
  fun_induction sharedLength last key with
  | case1 as b bs ih => simp [ih]
  | case2 => simp
  | case3 => simp

theorem sharedLength_le (last key : Bytes) :
    sharedLength last key ≤ last.length ∧ sharedLength last key ≤ key.length := by
  fun_induction sharedLength last key with
  | case1 as b bs ih => simpa using ih
  | case2 => simp
  | case3 => simp

theorem drop_behind {data first rest : Bytes} {p : Nat} (written : data.drop p = first ++ rest) :
    data.drop (p + first.length) = rest := by
  rw [← drop_drop, written, drop_left]

theorem putVarint32_length_pos (value : Nat) : 0 < (putVarint32 value).length :=
  length_pos_iff.mpr (encodeVarint_ne_nil _ _)

theorem decodeEntry_encodeEntry {data rest key value : Bytes} {p limit shared : Nat}
    (written : data.drop p = encodeEntry shared key value ++ rest)
    (within : p + (encodeEntry shared key value).length ≤ limit) (inside : limit ≤ data.length)
    (small : limit < 2 ^ 32) (short : shared < 2 ^ 32) :
    ∃ start, decodeEntry data p limit =
        some (some ⟨start, shared, key.length - shared, value.length⟩) ∧ p + 3 ≤ start ∧
      p + (encodeEntry shared key value).length = start + (key.length - shared) + value.length ∧
      data.drop start = key.drop shared ++ (value ++ rest) := by
  have first := putVarint32_length_pos shared
  have second := putVarint32_length_pos (key.length - shared)
  have third := putVarint32_length_pos value.length
  simp only [encodeEntry, length_append, append_assoc, length_drop] at written within ⊢
  have written₁ := drop_behind written
  have written₂ := drop_behind written₁
  have read : getVarint32Ptr data limit p = _ :=
    getVarint32Ptr_putVarint32 short written (by omega)
  have read₁ : getVarint32Ptr data limit _ = _ :=
    getVarint32Ptr_putVarint32 (by omega) written₁ (by omega)
  have read₂ : getVarint32Ptr data limit _ = _ :=
    getVarint32Ptr_putVarint32 (by omega) written₂ (by omega)
  refine ⟨_, ?_, ?_, ?_, drop_behind written₂⟩
  · rw [decodeEntry, decodeHeader_eq inside (by omega)]
    simp only [decodeLengths, read, read₁, read₂, unlessNull_some]
    rw [if_neg]
    rw [Nat.mod_eq_of_lt (by omega), Nat.mod_eq_of_lt (by omega)]
    omega
  · omega
  · omega

namespace BlockBuilder
variable {interval : Nat} {t : BlockBuilder}

theorem take_shared (key : Bytes) :
    t.lastKey.take (t.shared interval key) = key.take (t.shared interval key) := by
  rw [shared]
  split
  · exact take_sharedLength t.lastKey key
  · simp

theorem shared_le (interval : Nat) (t : BlockBuilder) (key : Bytes) :
    t.shared interval key ≤ t.lastKey.length ∧ t.shared interval key ≤ key.length := by
  rw [shared]
  split
  · exact sharedLength_le t.lastKey key
  · simp

theorem add_lastKey (key value : Bytes) : (t.add interval key value).lastKey = key := by
  rw [add, take_shared, take_append_drop]

theorem build_concat (interval : Nat) (es : List (Slice × Bytes)) (e : Slice × Bytes) :
    build interval (es ++ [e]) = (build interval es).add interval e.1.data e.2 := by
  rw [build, foldl_append]
  rfl

/-- The offset of the `i`-th entry. -/
def offset (interval : Nat) (es : List (Slice × Bytes)) (i : Nat) : Nat :=
  (build interval (es.take i)).buffer.length

/-- The number of bytes that the `i`-th entry takes from the key before. -/
def sharedAt (interval : Nat) (es : List (Slice × Bytes)) (i : Nat) (key : Bytes) : Nat :=
  (build interval (es.take i)).shared interval key

/-- The number of restart points of a block. -/
def restartCount (interval count : Nat) : Nat := (count - 1) / interval + 1

structure Built (interval : Nat) (es : List (Slice × Bytes)) (t : BlockBuilder) : Prop where
  lastKey : t.lastKey.length ≤ t.buffer.length
  counter : es = [] ∧ t.counter = 0 ∨ es ≠ [] ∧ t.counter = (es.length - 1) % interval + 1
  restarts : t.restarts =
    (List.range (restartCount interval es.length)).map fun j => offset interval es (j * interval)

variable {es : List (Slice × Bytes)} {i count j : Nat} {e : Slice × Bytes}

theorem offset_append (bound : i ≤ es.length)
    (more : List (Slice × Bytes)) : offset interval (es ++ more) i = offset interval es i := by
  rw [offset, take_append_of_le_length bound, offset]

theorem mul_le_of_restartCount (bound : j < restartCount interval count) :
    j * interval ≤ count - 1 :=
  (Nat.mul_le_mul_right interval (Nat.le_of_lt_succ bound)).trans (Nat.div_mul_le_self _ _)

/-- One more entry after `count`: it opens a restart point when the counter is at the interval. -/
theorem restartCount_succ (positive : 1 ≤ interval) (some : count ≠ 0) :
    if (count - 1) % interval + 1 < interval then
      restartCount interval (count + 1) = restartCount interval count ∧
        count % interval = (count - 1) % interval + 1
    else
      restartCount interval (count + 1) = restartCount interval count + 1 ∧
        restartCount interval count * interval = count ∧ count % interval = 0 := by
  have parts : count = interval * ((count - 1) / interval) + ((count - 1) % interval + 1) := by
    have := Nat.div_add_mod (count - 1) interval
    omega
  have below := Nat.mod_lt (count - 1) positive
  simp only [restartCount, Nat.add_sub_cancel]
  split
  case isTrue less =>
    obtain ⟨quotient, rest⟩ := (Nat.div_mod_unique positive).mpr
      ⟨(Nat.add_comm _ _).trans parts.symm, less⟩
    exact ⟨by rw [quotient], rest⟩
  case isFalse full =>
    have exact : 0 + interval * ((count - 1) / interval + 1) = count := by
      rw [Nat.mul_add]
      omega
    obtain ⟨quotient, rest⟩ := (Nat.div_mod_unique positive).mpr ⟨exact, positive⟩
    exact ⟨by rw [quotient], by rw [Nat.mul_comm]; omega, rest⟩

theorem built (positive : 1 ≤ interval) (es : List (Slice × Bytes)) :
    Built interval es (build interval es) := by
  induction es using reverseRecOn with
  | nil => exact ⟨le_refl 0, .inl ⟨rfl, rfl⟩, by simp [build, restartCount, offset]⟩
  | append_singleton es e ih =>
    rw [build_concat]
    constructor
    case lastKey =>
      rw [add_lastKey]
      have part := shared_le interval (build interval es) e.1.data
      have last := ih.lastKey
      simp only [add, encodeEntry, length_append, length_drop]
      omega
    case counter =>
      right
      refine ⟨by simp, ?_⟩
      simp only [add, length_append, length_singleton, Nat.add_sub_cancel]
      obtain ⟨rfl, none⟩ | ⟨some, isCounter⟩ := ih.counter
      · rw [none, if_pos (show 0 < interval from positive)]
        simp
      · have next := restartCount_succ positive (mt length_eq_zero_iff.mp some)
        rw [isCounter]
        split at next
        case isTrue less => rw [if_pos less, next.2]
        case isFalse full => rw [if_neg full, next.2.2]
    case restarts =>
      have before : (range (restartCount interval es.length)).map (fun j =>
          offset interval (es ++ [e]) (j * interval)) = (build interval es).restarts := by
        rw [ih.restarts]
        refine map_congr_left fun j mem => offset_append ?_ _
        have := mul_le_of_restartCount (mem_range.mp mem)
        omega
      simp only [add, length_append, length_singleton]
      obtain ⟨rfl, none⟩ | ⟨some, isCounter⟩ := ih.counter
      · rw [none, if_pos (show 0 < interval from positive)]
        simp [restartCount, build, offset]
      · have next := restartCount_succ positive (mt length_eq_zero_iff.mp some)
        rw [isCounter]
        split at next
        case isTrue less => rw [if_pos less, next.1, before]
        case isFalse full =>
          rw [if_neg full, next.1, range_succ, map_append, before, map_singleton,
            next.2.1, offset_append le_rfl, offset, take_length]

theorem build_append_buffer (interval : Nat) (es more : List (Slice × Bytes)) :
    ∃ rest, (build interval (es ++ more)).buffer = (build interval es).buffer ++ rest := by
  induction more using reverseRecOn with
  | nil => exact ⟨[], by simp⟩
  | append_singleton more e ih =>
    obtain ⟨rest, isBuffer⟩ := ih
    rw [← append_assoc, build_concat, add, isBuffer, append_assoc]
    exact ⟨_, rfl⟩

theorem offset_le (interval : Nat) (es : List (Slice × Bytes)) (i : Nat) :
    offset interval es i ≤ (build interval es).buffer.length := by
  obtain ⟨rest, isBuffer⟩ := build_append_buffer interval (es.take i) (es.drop i)
  rw [take_append_drop] at isBuffer
  rw [isBuffer, length_append, offset]
  omega

theorem buffer_split (interval : Nat) (isE : es[i]? = some e) :
    ∃ rest, (build interval es).buffer = (build interval (es.take i)).buffer ++
        (encodeEntry (sharedAt interval es i e.1.data) e.1.data e.2 ++ rest) ∧
      offset interval es (i + 1) = offset interval es i +
        (encodeEntry (sharedAt interval es i e.1.data) e.1.data e.2).length := by
  have next : es.take (i + 1) = es.take i ++ [e] := by
    rw [take_add_one, isE]
    rfl
  obtain ⟨rest, isBuffer⟩ := build_append_buffer interval (es.take (i + 1)) (es.drop (i + 1))
  rw [take_append_drop, next, build_concat, add] at isBuffer
  refine ⟨rest, isBuffer.trans (append_assoc _ _ _), ?_⟩
  rw [offset, next, build_concat, add, length_append]
  rfl

theorem lastKey_take (interval : Nat)
    (isE : es[i]? = some e) : (build interval (es.take (i + 1))).lastKey = e.1.data := by
  rw [take_add_one, isE, Option.toList_some, build_concat, add_lastKey]

theorem sharedAt_restart (positive : 1 ≤ interval)
    (bound : j * interval ≤ es.length) (key : Bytes) :
    sharedAt interval es (j * interval) key = 0 := by
  cases j with
  | zero => simp [sharedAt, build, shared, sharedLength]
  | succ j =>
    have length : (es.take ((j + 1) * interval)).length = (j + 1) * interval :=
      length_take_of_le bound
    have large : interval ≤ (j + 1) * interval := Nat.le_mul_of_pos_left _ (Nat.succ_pos j)
    have rest : ((j + 1) * interval - 1) % interval = interval - 1 := by
      have parts : (j + 1) * interval - 1 = interval * j + (interval - 1) := by
        rw [Nat.add_mul, Nat.mul_comm]
        omega
      rw [parts, Nat.mul_add_mod, Nat.mod_eq_of_lt (by omega)]
    rw [sharedAt, shared, if_neg]
    obtain ⟨none, -⟩ | ⟨-, isCounter⟩ := (built positive (es.take ((j + 1) * interval))).counter
    · rw [none] at length
      simp only [length_nil] at length
      omega
    · rw [isCounter, length, rest]
      omega

end BlockBuilder

/-- The block's entries lie where their offsets are, and so do the restart points. -/
structure Layout (b : BlockView) (interval : Nat) (es : List (Slice × Bytes)) : Prop where
  sized : b.Sized
  few : b.numRestarts ≤ 2 ^ 31
  count : b.numRestarts = BlockBuilder.restartCount interval es.length
  last : BlockBuilder.offset interval es es.length = b.restarts
  point : ∀ j < b.numRestarts,
    b.getRestartPoint j = some (BlockBuilder.offset interval es (j * interval))
  entry : ∀ (i : Nat) e, es[i]? = some e → ∃ start rest,
    decodeEntry b.data (BlockBuilder.offset interval es i) b.restarts =
      some (some ⟨start, BlockBuilder.sharedAt interval es i e.1.data,
        e.1.data.length - BlockBuilder.sharedAt interval es i e.1.data, e.2.length⟩) ∧
    BlockBuilder.offset interval es i + 3 ≤ start ∧
    BlockBuilder.offset interval es (i + 1) = start +
      (e.1.data.length - BlockBuilder.sharedAt interval es i e.1.data) + e.2.length ∧
    b.data.drop start =
      e.1.data.drop (BlockBuilder.sharedAt interval es i e.1.data) ++ (e.2 ++ rest)

namespace BlockBuilder

theorem readFixed32_written {data rest : Bytes} {p : Nat} {value : UInt32}
    (written : data.drop p = encodeFixed32 value ++ rest) : readFixed32 data p = some value.toNat
    := by
  have length := congrArg List.length written
  rw [length_drop, length_append, encodeFixed32_length] at length
  rw [readFixed32, readBytes_inside (by omega), written, Option.map_some,
    take_left' (encodeFixed32_length value)]
  have decoded := decodeFixed32_encodeFixed32 value []
  rw [append_nil] at decoded
  rw [decoded]

theorem drop_array {xs : List Nat} {j x : Nat} (isX : xs[j]? = some x) :
    ∃ rest, (xs.flatMap fun offset => encodeFixed32 (ofNat offset)).drop (j * 4) =
      encodeFixed32 (ofNat x) ++ rest := by
  induction xs generalizing j with
  | nil => cases isX
  | cons y xs ih =>
    cases j with
    | zero =>
      cases isX
      exact ⟨_, rfl⟩
    | succ j =>
      obtain ⟨rest, isRest⟩ := ih isX
      refine ⟨rest, ?_⟩
      rw [flatMap_cons, ← isRest, Nat.succ_mul, Nat.add_comm, ← drop_drop,
        drop_left' (encodeFixed32_length _)]

theorem array_length (xs : List Nat) :
    (xs.flatMap fun offset => encodeFixed32 (ofNat offset)).length = xs.length * 4 := by
  induction xs with
  | nil => rfl
  | cons x xs ih =>
    rw [flatMap_cons, length_append, ih, encodeFixed32_length, length_cons]
    omega

theorem finish_length (t : BlockBuilder) :
    t.finish.length = t.buffer.length + t.restarts.length * 4 + 4 := by
  rw [finish, length_append, length_append, array_length, encodeFixed32_length]
  omega

theorem newBlockIterator_finish {t : BlockBuilder} (nonempty : 0 < t.restarts.length)
    (small : t.finish.length < 2 ^ 32) :
    newBlockIterator t.finish = .iter
      { data := t.finish, restarts := t.buffer.length, numRestarts := t.restarts.length } := by
  have length := t.finish_length
  have tail : t.finish.drop (t.finish.length - 4) =
      encodeFixed32 (ofNat t.restarts.length) := by
    rw [length, finish, ← append_assoc]
    refine drop_left' ?_
    rw [length_append, array_length]
    omega
  have decoded : (decodeFixed32 (t.finish.drop (t.finish.length - 4))).toNat =
      t.restarts.length := by
    have read := decodeFixed32_encodeFixed32 (ofNat t.restarts.length) []
    rw [append_nil] at read
    rw [tail, read, toNat_ofNat_of_lt' (by change _ < 2 ^ 32; omega)]
  rw [newBlockIterator, if_neg (by omega)]
  dsimp only
  rw [decoded, if_neg (by omega), if_neg (by omega), Nat.mod_eq_of_lt (by omega : 1 + t.restarts.length < 2 ^ 32),
    Nat.mod_eq_of_lt (by omega)]
  congr 2
  omega

theorem finish_layout {interval : Nat} (positive : 1 ≤ interval) (es : List (Slice × Bytes))
    (small : (build interval es).finish.length < 2 ^ 32) :
    ∃ b, newBlockIterator (build interval es).finish = .iter b ∧ Layout b interval es := by
  have isBuilt := built positive es
  have count : (build interval es).restarts.length = restartCount interval es.length := by
    rw [isBuilt.restarts, length_map, length_range]
  have nonempty : 0 < (build interval es).restarts.length := count ▸ Nat.succ_pos _
  have length := (build interval es).finish_length
  refine ⟨_, newBlockIterator_finish nonempty small, ⟨nonempty, by dsimp only; omega, by dsimp only; omega⟩,
    by dsimp only; omega, count, ?_, fun j bound => ?_, fun i e isE => ?_⟩
  · rw [offset, take_length]
  · have isPoint : (build interval es).restarts[j]? = some (offset interval es (j * interval)) := by
      have within : j < restartCount interval es.length := count ▸ bound
      simp [isBuilt.restarts, within]
    obtain ⟨rest, isRest⟩ := drop_array isPoint
    have within : j * 4 ≤ ((build interval es).restarts.flatMap fun offset =>
        encodeFixed32 (ofNat offset)).length := by
      rw [array_length]
      exact Nat.mul_le_mul_right 4 bound.le
    have written : (build interval es).finish.drop ((build interval es).buffer.length + j * 4) =
        encodeFixed32 (ofNat (offset interval es (j * interval))) ++ (rest ++
          encodeFixed32 (ofNat (build interval es).restarts.length)) := by
      rw [finish, ← drop_drop, drop_left, drop_append_of_le_length within, isRest,
        append_assoc]
    have below := offset_le interval es (j * interval)
    rw [BlockView.getRestartPoint, readFixed32_written written,
      toNat_ofNat_of_lt' (by change _ < 2 ^ 32; omega)]
  · obtain ⟨rest, isBuffer, next⟩ := buffer_split interval isE
    have below := offset_le interval es (i + 1)
    have part := (shared_le interval (build interval (es.take i)) e.1.data).1
    have kept := (built positive (es.take i)).lastKey
    have short : sharedAt interval es i e.1.data ≤ offset interval es i := part.trans kept
    have written : (build interval es).finish.drop (offset interval es i) =
        encodeEntry (sharedAt interval es i e.1.data) e.1.data e.2 ++ (rest ++
          ((build interval es).restarts.flatMap (fun offset => encodeFixed32 (ofNat offset)) ++
            encodeFixed32 (ofNat (build interval es).restarts.length))) := by
      rw [finish, isBuffer, append_assoc, offset, drop_left, append_assoc]
    obtain ⟨start, decoded, after, isNext, data⟩ := decodeEntry_encodeEntry
      written (show _ ≤ (build interval es).buffer.length by omega) (by omega) (by omega) (by omega)
    exact ⟨start, _, decoded, after, next.trans isNext, data⟩

end BlockBuilder
end TalusDB
