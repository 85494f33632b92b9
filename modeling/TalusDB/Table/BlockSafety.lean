import TalusDB.Table.Block

/-! What `Block::Iter` reads of a block whose bytes may be anything. -/
namespace TalusDB
open Coding Cursor Option List

namespace BlockView

/-- The entry at an offset is accepted by an iterator whose key has `size` bytes. -/
structure Accepts (b : BlockView) (offset size : Nat) (h : EntryHeader) : Prop where
  decoded : decodeEntry b.data offset b.restarts = some (some h)
  shares : h.shared ≤ size

/-- The offsets of which an entry is decoded, with the length of the key: the restart points, with
none, and the ends of entries that are accepted. -/
inductive Reached (b : BlockView) : Nat → Nat → Prop where
  | restart {index offset : Nat} (bound : index < b.numRestarts)
      (read : b.getRestartPoint index = some offset) : Reached b offset 0
  | next {offset size : Nat} {h : EntryHeader} (reached : Reached b offset size)
      (accepts : Accepts b offset size h) :
      Reached b (h.start + h.nonShared + h.valueLength) (h.shared + h.nonShared)

/-- The indices of restart points can be added in 32 bits, and so can the lengths in an entry that is
accepted. -/
structure Honest (b : BlockView) : Prop where
  few : b.numRestarts ≤ 2 ^ 31
  lengths : ∀ offset size h, Reached b offset size → Accepts b offset size h →
    h.nonShared + h.valueLength < 2 ^ 32

/-- The restart array lies in the block. -/
structure Sized (b : BlockView) : Prop where
  positive : 0 < b.numRestarts
  array : b.restarts + b.numRestarts * 4 ≤ b.data.length
  small : b.restarts < 2 ^ 32

section safety
variable {b : BlockView} {it : BlockIter} {p : Nat}

/-- An iterator that stands at an entry: its value lies before the restart array, and the bytes of
its key come from there. -/
structure Inside (b : BlockView) (it : BlockIter) : Prop where
  index : it.restartIndex < b.numRestarts
  value : ∃ offset length, it.value = some (offset, length) ∧ it.current < offset ∧
    offset + length ≤ b.restarts ∧ Reached b (offset + length) it.key.length
  key : it.key ⊆ b.data.take b.restarts

/-- An iterator that is about to parse the entry at an offset. -/
structure ReadyAt (b : BlockView) (it : BlockIter) (p : Nat) : Prop where
  index : it.restartIndex < b.numRestarts
  next : it.nextEntryOffset = some p
  reached : Reached b p it.key.length
  key : it.key ⊆ b.data.take b.restarts

theorem Inside.ready (inside : Inside b it) (sized : b.Sized) :
    ∃ p, ReadyAt b it p ∧ it.current < p ∧ p ≤ b.restarts := by
  obtain ⟨offset, length, isValue, after, before, reached⟩ := inside.value
  have small := sized.small
  refine ⟨offset + length, ⟨inside.index, ?_, reached, inside.key⟩, by omega, before⟩
  rw [BlockIter.nextEntryOffset, isValue, map_some, Nat.mod_eq_of_lt (by omega)]

variable {index fuel left right : Nat}

theorem Sized.getRestartPoint (sized : b.Sized) (bound : index < b.numRestarts) :
    ∃ offset, b.getRestartPoint index = some offset ∧ offset < 2 ^ 32 := by
  have array := sized.array
  rw [BlockView.getRestartPoint, readFixed32, readBytes_inside (by omega), map_some]
  exact ⟨_, rfl, UInt32.toNat_lt _⟩

theorem Sized.seekToRestartPoint (sized : b.Sized) (it : BlockIter)
    (bound : index < b.numRestarts) :
    ∃ it' p, b.seekToRestartPoint it index = some it' ∧ ReadyAt b it' p := by
  obtain ⟨offset, read, small⟩ := sized.getRestartPoint bound
  rw [BlockView.seekToRestartPoint, read, map_some]
  refine ⟨_, offset, rfl, bound, ?_, .restart bound read, by simp⟩
  rw [BlockIter.nextEntryOffset, map_some, Nat.add_zero, Nat.mod_eq_of_lt small]

theorem Sized.advanceRestartIndex (sized : b.Sized) (honest : b.Honest) (current fuel : Nat)
    (bound : index < b.numRestarts) (enough : b.numRestarts - index < fuel) :
    ∃ index', b.advanceRestartIndex current fuel index = some index' ∧ index' < b.numRestarts := by
  induction fuel generalizing index with
  | zero => omega
  | succ fuel ih =>
    have few := honest.few
    rw [BlockView.advanceRestartIndex, Nat.mod_eq_of_lt (by omega : index + 1 < 2 ^ 32)]
    by_cases more : index + 1 < b.numRestarts
    · obtain ⟨offset, read, -⟩ := sized.getRestartPoint more
      rw [if_pos more, read, bind_some]
      split
      · exact ih more (by omega)
      · exact ⟨index, rfl, bound⟩
    · rw [if_neg more]
      exact ⟨index, rfl, bound⟩

theorem Sized.decodeEntry (sized : b.Sized) (honest : b.Honest) {size : Nat}
    (reached : Reached b p size) :
    ∃ found, decodeEntry b.data p b.restarts = some found ∧ ∀ h, found = some h → h.shared ≤ size →
      Accepts b p size h ∧ p + 3 ≤ h.start ∧
        h.start + h.nonShared + h.valueLength ≤ b.restarts := by
  have array := sized.array
  obtain ⟨found, decoded, bound⟩ :=
    decodeEntry_bound (by omega : b.restarts ≤ b.data.length) sized.small p
  refine ⟨found, decoded, fun h isH shares => ?_⟩
  have accepts : Accepts b p size h := ⟨isH ▸ decoded, shares⟩
  obtain ⟨after, before⟩ := bound h isH
  exact ⟨accepts, after, before (honest.lengths p size h reached accepts)⟩

/-- The lengths of an entry that is accepted cannot wrap around without harm: the iterator then
reads outside, or stands at a value that ends there. -/
theorem Accepts.not_inside {h : EntryHeader} (accepts : Accepts b p it.key.length h)
    (isNext : it.nextEntryOffset = some p) (before : p < b.restarts) (small : b.restarts < 2 ^ 32)
    (wraps : 2 ^ 32 ≤ h.nonShared + h.valueLength) {it' : BlockIter} {more : Bool}
    (parsed : b.parseNextKey it = some (it', more)) : ¬ Inside b it' := by
  intro inside
  obtain ⟨offset, length, isValue, -, within, -⟩ := inside.value
  simp only [BlockView.parseNextKey, isNext, accepts.decoded, bind_eq_bind, bind_some,
    if_neg (Nat.not_le.mpr before), if_neg (Nat.not_lt.mpr accepts.shares)] at parsed
  obtain ⟨delta, -, parsed⟩ := bind_eq_some_iff.mp parsed
  obtain ⟨index, -, parsed⟩ := bind_eq_some_iff.mp parsed
  cases parsed
  cases isValue
  omega

theorem not_valid_leave (b : BlockView) (it : BlockIter) : b.valid (b.leave it) = false := by
  simp [valid, leave]

theorem not_valid_corruptionError (b : BlockView) : b.valid b.corruptionError = false := by
  simp [valid, corruptionError]

section
variable (ready : ReadyAt b it p) (sized : b.Sized) (honest : b.Honest)
include ready sized honest

/-- Parsing reads only inside the block. It comes to an entry inside, or to none. -/
theorem ReadyAt.parseNextKey : ∃ it' more, b.parseNextKey it = some (it', more) ∧
      (more = true → Inside b it' ∧ it'.current = p ∧ p < b.restarts) ∧
      (more = false → b.valid it' = false) := by
  rw [BlockView.parseNextKey, ready.next]
  simp only [bind_eq_bind, bind_some]
  by_cases atEnd : b.restarts ≤ p
  · rw [if_pos atEnd]
    exact ⟨_, false, rfl, by simp, fun _ => not_valid_leave b it⟩
  · rw [if_neg atEnd]
    obtain ⟨found, decoded, bound⟩ := sized.decodeEntry honest ready.reached
    rw [decoded, bind_some]
    cases found with
    | none => exact ⟨_, false, rfl, by simp, fun _ => not_valid_corruptionError b⟩
    | some h =>
      dsimp only
      by_cases short : it.key.length < h.shared
      · rw [if_pos short]
        exact ⟨_, false, rfl, by simp, fun _ => not_valid_corruptionError b⟩
      · obtain ⟨accepts, after, before⟩ := bound h rfl (Nat.not_lt.mp short)
        have array := sized.array
        obtain ⟨index, advanced, bound⟩ :=
          sized.advanceRestartIndex honest p (b.numRestarts + 1) ready.index (by omega)
        rw [if_neg short, readBytes_inside (by omega), bind_some, advanced, bind_some]
        refine ⟨_, true, rfl, fun _ => ⟨⟨bound, ?_, ?_⟩, rfl, by omega⟩, by simp⟩
        · refine ⟨_, _, rfl, by dsimp only; omega, before, ?_⟩
          have size : (it.key.take h.shared ++ (b.data.drop h.start).take h.nonShared).length =
              h.shared + h.nonShared := by
            simp only [length_append, length_take, length_drop]
            omega
          exact size ▸ .next ready.reached accepts
        · refine append_subset.mpr ⟨List.Subset.trans (take_subset _ _) ready.key, ?_⟩
          rw [take_drop]
          refine List.Subset.trans (drop_subset _ _) ?_
          exact (take_prefix_take_left (by omega)).subset

theorem ReadyAt.next_safe :
    ∃ it', (b.parseNextKey it).map Prod.fst = some it' ∧ (b.valid it' = true → Inside b it') := by
  obtain ⟨it', more, parsed, inside, gone⟩ := ready.parseNextKey sized honest
  refine ⟨it', by rw [parsed]; rfl, fun valid => ?_⟩
  cases more with
  | true => exact (inside rfl).1
  | false => cases (gone rfl).symm.trans valid

/-- The loops around `ParseNextKey` end, because each entry takes at least three bytes. -/
theorem ReadyAt.scan (stop : BlockIter → Bool) (enough : b.restarts - p < fuel) :
    ∃ it', b.scan stop fuel it = some it' ∧ (b.valid it' = true → Inside b it') := by
  induction fuel generalizing it p with
  | zero => omega
  | succ fuel ih =>
    obtain ⟨it', more, parsed, inside, gone⟩ := ready.parseNextKey sized honest
    rw [BlockView.scan, parsed, bind_some]
    cases more with
    | false => exact ⟨it', rfl, fun valid => by rw [gone rfl] at valid; cases valid⟩
    | true =>
      obtain ⟨inside, isCurrent, before⟩ := inside rfl
      by_cases stops : stop it' = true
      · exact ⟨it', by simp [stops], fun _ => inside⟩
      · obtain ⟨q, ready', after, -⟩ := inside.ready sized
        simpa [stops] using ih ready' (by omega)

end

theorem Sized.searchRestarts (sized : b.Sized) (honest : b.Honest) (less : Bytes → Bool)
    (order : left ≤ right) (bound : right < b.numRestarts)
    (enough : right - left < fuel) :
    ∃ found, b.searchRestarts less fuel left right = some found ∧
      ∀ index, found = some index → index < b.numRestarts := by
  induction fuel generalizing left right with
  | zero => omega
  | succ fuel ih =>
    have few := honest.few
    rw [BlockView.searchRestarts]
    by_cases open' : left < right
    · have half : (left + right + 1) % 2 ^ 32 / 2 = (left + right + 1) / 2 := by
        rw [Nat.mod_eq_of_lt (by omega)]
      have inMid : (left + right + 1) / 2 < b.numRestarts := by omega
      obtain ⟨offset, read, -⟩ := sized.getRestartPoint inMid
      obtain ⟨found, decoded, fits⟩ := sized.decodeEntry honest (.restart inMid read)
      simp only [if_pos open', half, read, decoded, bind_eq_bind, bind_some]
      cases found with
      | none => exact ⟨none, rfl, by simp⟩
      | some h =>
        have array := sized.array
        dsimp only
        split
        case isTrue => exact ⟨none, rfl, by simp⟩
        case isFalse whole =>
          obtain ⟨-, -, before⟩ := fits h rfl (by omega)
          rw [readBytes_inside (by omega), bind_some]
          split
          · exact ih (by omega) bound (by omega)
          · have below : ((left + right + 1) / 2 + 2 ^ 32 - 1) % 2 ^ 32 = (left + right + 1) / 2 - 1 := by
              omega
            rw [below]
            exact ih (by omega) (by omega) (by omega)
    · rw [if_neg open']
      refine ⟨_, rfl, fun index isIndex => ?_⟩
      cases isIndex
      omega

theorem Sized.restartBefore (sized : b.Sized) (original : Nat) (bound : index < b.numRestarts) :
    ∃ found, b.restartBefore original index = some found ∧
      ∀ i, found = some i → i < b.numRestarts := by
  induction index with
  | zero =>
    obtain ⟨offset, read, -⟩ := sized.getRestartPoint bound
    rw [BlockView.restartBefore, read, map_some]
    refine ⟨_, rfl, fun i isI => ?_⟩
    split at isI
    · cases isI
    · cases isI
      exact bound
  | succ index ih =>
    obtain ⟨offset, read, -⟩ := sized.getRestartPoint bound
    rw [BlockView.restartBefore, read, bind_some]
    split
    · exact ih (by omega)
    · refine ⟨_, rfl, fun i isI => ?_⟩
      cases isI
      exact bound

theorem Sized.seekFrom (sized : b.Sized) (honest : b.Honest) (compare : Bytes → Bytes → Ordering)
    (it : BlockIter) (target : Bytes) {ahead : Bool} (order : left ≤ right)
    (bound : right < b.numRestarts) (ready : ahead = true → Inside b it) :
    ∃ it', b.seekFrom compare it target left right ahead = some it' ∧
      (b.valid it' = true → Inside b it') := by
  obtain ⟨found, searched, fits⟩ := sized.searchRestarts honest (compare · target == .lt) order
    bound (show right - left < b.numRestarts + 1 by omega)
  rw [BlockView.seekFrom, searched]
  simp only [bind_eq_bind, bind_some]
  cases found with
  | none =>
    exact ⟨_, rfl, fun valid => by rw [not_valid_corruptionError b] at valid; cases valid⟩
  | some index =>
    dsimp only
    split
    case isTrue skip =>
      obtain ⟨p, ready, -⟩ := (ready skip.2).ready sized
      exact ready.scan sized honest _ (by omega)
    case isFalse =>
      obtain ⟨it', p, sought, ready⟩ := sized.seekToRestartPoint it (fits index rfl)
      rw [sought, bind_some]
      exact ready.scan sized honest _ (by omega)

theorem Sized.step (sized : b.Sized) (honest : b.Honest) (compare : Bytes → Bytes → Ordering)
    (op : Cursor.Op Slice) (safe : b.valid it = true → Inside b it)
    (allowed : op.allowed (b.valid it) = true) :
    ∃ it', b.step compare it op = some it' ∧ (b.valid it' = true → Inside b it') := by
  have positive := sized.positive
  cases op with
  | seekToFirst =>
    obtain ⟨it₁, p, sought, ready⟩ := sized.seekToRestartPoint it positive
    obtain ⟨it', parsed, safe'⟩ := ready.next_safe sized honest
    exact ⟨it', by rw [BlockView.step, seekToFirst, sought]; exact parsed, safe'⟩
  | seekToLast =>
    obtain ⟨it₁, p, sought, ready⟩ :=
      sized.seekToRestartPoint it (show b.numRestarts - 1 < b.numRestarts by omega)
    simpa [BlockView.step, seekToLast, sought] using ready.scan sized honest _ (by omega)
  | seek target =>
    rw [BlockView.step, seek]
    split
    case isTrue valid =>
      have inside := safe valid
      split
      · exact sized.seekFrom honest compare it _ (by have := inside.index; omega) (by omega)
          fun _ => inside
      · exact sized.seekFrom honest compare it _ (Nat.zero_le _) inside.index fun _ => inside
      · exact ⟨it, rfl, safe⟩
    case isFalse =>
      exact sized.seekFrom honest compare it _ (Nat.zero_le _) (by omega) (by simp)
  | next =>
    obtain ⟨p, ready, -⟩ := (safe allowed).ready sized
    exact ready.next_safe sized honest
  | prev =>
    obtain ⟨found, searched, fits⟩ := sized.restartBefore it.current (safe allowed).index
    rw [BlockView.step, prev, searched]
    simp only [bind_eq_bind, bind_some]
    cases found with
    | none => exact ⟨_, rfl, fun valid => by rw [not_valid_leave b it] at valid; cases valid⟩
    | some index =>
      obtain ⟨it₁, p, sought, ready⟩ := sized.seekToRestartPoint it (fits index rfl)
      simpa [sought] using ready.scan sized honest _ (by omega)

end safety

/-- The states after calls that are allowed. -/
abbrev run (b : BlockView) (compare : Bytes → Bytes → Ordering) :
    BlockIter → List (Cursor.Op Slice) → Option BlockIter :=
  Runs.run (b.step compare) fun it op => op.allowed (b.valid it)

end BlockView
end TalusDB
