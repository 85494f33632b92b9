import TalusDB.Table.BlockBuilder

/-! `Block::Iter` over a block that `BlockBuilder` built. -/
namespace TalusDB
open Cursor Option BlockBuilder
open BlockBuilder (offset sharedAt)

/-- The iterator, with the value read from the block. -/
def BlockView.iterator (b : BlockView) (compare : Bytes → Bytes → Ordering) :
    Iterator Slice Bytes BlockIter where
  entry it :=
    if b.valid it then
      (it.value.bind fun v => readBytes b.data v.1 v.2).map fun value => (⟨it.key⟩, value)
    else none
  ok it := it.ok
  step op it := b.step compare it op

namespace BlockView
variable {b : BlockView} {compare : Bytes → Bytes → Ordering} {it it' : BlockIter}

theorem parseNextKey_failed {more : Bool} (parsed : b.parseNextKey it = some (it', more))
    (failed : it.ok = false) : it'.ok = false := by
  obtain ⟨current, -, parsed⟩ := bind_eq_some_iff.mp parsed
  split at parsed
  · cases parsed
    exact failed
  · obtain ⟨found, -, parsed⟩ := bind_eq_some_iff.mp parsed
    split at parsed
    · cases parsed
      rfl
    · split at parsed
      · cases parsed
        rfl
      · obtain ⟨delta, -, parsed⟩ := bind_eq_some_iff.mp parsed
        obtain ⟨index, -, parsed⟩ := bind_eq_some_iff.mp parsed
        cases parsed
        exact failed

theorem scan_failed {stop : BlockIter → Bool} {fuel : Nat} (scanned : b.scan stop fuel it = some it')
    (failed : it.ok = false) : it'.ok = false := by
  induction fuel generalizing it with
  | zero => cases scanned
  | succ fuel ih =>
    obtain ⟨⟨it₁, more⟩, parsed, scanned⟩ := bind_eq_some_iff.mp scanned
    have failed₁ := parseNextKey_failed parsed failed
    dsimp only at scanned
    split at scanned
    · exact ih scanned failed₁
    · cases scanned
      exact failed₁

theorem seekToRestartPoint_failed {index : Nat} (sought : b.seekToRestartPoint it index = some it')
    (failed : it.ok = false) : it'.ok = false := by
  obtain ⟨offset, -, rfl⟩ := map_eq_some_iff.mp sought
  exact failed

theorem seekFrom_failed {target : Bytes} {left right : Nat} {ahead : Bool}
    (sought : b.seekFrom compare it target left right ahead = some it') (failed : it.ok = false) :
    it'.ok = false := by
  obtain ⟨found, -, sought⟩ := bind_eq_some_iff.mp sought
  split at sought
  · cases sought
    rfl
  · obtain ⟨it₁, placed, scanned⟩ := bind_eq_some_iff.mp sought
    refine scan_failed scanned ?_
    split at placed
    · cases placed
      exact failed
    · exact seekToRestartPoint_failed placed failed

/-- `status_` is never set to ok again. -/
theorem iterator_lasting (b : BlockView) (compare : Bytes → Bytes → Ordering) :
    Lasting (b.iterator compare) := by
  intro op it it' stepped failed
  cases op with
  | seekToFirst =>
    obtain ⟨it₁, sought, stepped⟩ := bind_eq_some_iff.mp stepped
    obtain ⟨⟨it₂, more⟩, parsed, rfl⟩ := map_eq_some_iff.mp stepped
    exact parseNextKey_failed parsed (seekToRestartPoint_failed sought failed)
  | seekToLast =>
    obtain ⟨it₁, sought, scanned⟩ := bind_eq_some_iff.mp stepped
    exact scan_failed scanned (seekToRestartPoint_failed sought failed)
  | seek target =>
    change b.seek compare it target.data = some it' at stepped
    rw [seek] at stepped
    split at stepped
    · split at stepped
      · exact seekFrom_failed stepped failed
      · exact seekFrom_failed stepped failed
      · cases stepped
        exact failed
    · exact seekFrom_failed stepped failed
  | next =>
    obtain ⟨⟨it₁, more⟩, parsed, rfl⟩ := map_eq_some_iff.mp stepped
    exact parseNextKey_failed parsed failed
  | prev =>
    obtain ⟨found, -, stepped⟩ := bind_eq_some_iff.mp stepped
    split at stepped
    · cases stepped
      exact failed
    · obtain ⟨it₁, sought, scanned⟩ := bind_eq_some_iff.mp stepped
      exact scan_failed scanned (seekToRestartPoint_failed sought failed)

end BlockView

section layout
variable {b : BlockView} {interval : Nat} {es : List (Slice × Bytes)} {it : BlockIter} {i j : Nat}
  {e : Slice × Bytes}

section
variable (layout : Layout b interval es)
include layout

theorem Layout.offset_succ (bound : i < es.length) :
    offset interval es i + 3 ≤ offset interval es (i + 1) := by
  obtain ⟨start, rest, -, after, next, -⟩ :=
    layout.entry i es[i] (List.getElem?_eq_getElem bound)
  omega

theorem Layout.offset_lt (less : i < j) (bound : j ≤ es.length) :
    offset interval es i < offset interval es j := by
  induction j, less using Nat.le_induction with
  | base =>
    have next : offset interval es i + 3 ≤ offset interval es i.succ := layout.offset_succ bound
    omega
  | succ j _ ih =>
    have less := ih (Nat.le_of_succ_le bound)
    have next := layout.offset_succ bound
    omega

theorem Layout.offset_lt_iff (boundI : i ≤ es.length)
    (boundJ : j ≤ es.length) : offset interval es i < offset interval es j ↔ i < j := by
  constructor
  · intro less
    by_contra notLess
    obtain same | greater := Nat.eq_or_lt_of_not_lt notLess
    · rw [same] at less
      exact less.false
    · exact (layout.offset_lt greater boundI).not_gt less
  · intro less
    exact layout.offset_lt less boundJ

theorem Layout.restart_le (bound : j < b.numRestarts) : j * interval ≤ es.length := by
  have := mul_le_of_restartCount (layout.count ▸ bound)
  omega

end

/-- The iterator stands at an entry. Its restart point may be any one before. -/
structure At (b : BlockView) (interval : Nat) (es : List (Slice × Bytes)) (it : BlockIter) (i : Nat)
    (e : Slice × Bytes) : Prop where
  isE : es[i]? = some e
  current : it.current = offset interval es i
  key : it.key = e.1.data
  value : ∃ start, it.value = some (start, e.2.length) ∧
    start + e.2.length = offset interval es (i + 1) ∧ readBytes b.data start e.2.length = some e.2
  index : it.restartIndex < b.numRestarts
  restart : it.restartIndex * interval ≤ i
  ok : it.ok = true

/-- The next entry to be parsed is the `i`-th, and what it takes from the key before is there. -/
structure Ready (b : BlockView) (interval : Nat) (es : List (Slice × Bytes)) (it : BlockIter)
    (i : Nat) : Prop where
  next : it.nextEntryOffset = some (offset interval es i)
  bound : i ≤ es.length
  shares : ∀ e, es[i]? = some e → sharedAt interval es i e.1.data ≤ it.key.length ∧
    it.key.take (sharedAt interval es i e.1.data) = e.1.data.take (sharedAt interval es i e.1.data)
  index : it.restartIndex < b.numRestarts
  restart : it.restartIndex * interval ≤ i
  ok : it.ok = true

theorem Layout.offset_lt_size (layout : Layout b interval es) (bound : i ≤ es.length) :
    offset interval es i ≤ b.restarts := by
  rw [← layout.last]
  obtain rfl | less := Nat.eq_or_lt_of_le bound
  · exact le_rfl
  · exact (layout.offset_lt less le_rfl).le

theorem At.ready (stands : At b interval es it i e) (layout : Layout b interval es) :
    Ready b interval es it (i + 1) := by
  obtain ⟨start, isValue, isNext, -⟩ := stands.value
  have bound := (List.getElem?_eq_some_iff.mp stands.isE).1
  have small := layout.sized.small
  have below := layout.offset_lt_size (i := i + 1) bound
  refine ⟨?_, bound, fun e' _ => ?_, stands.index, stands.restart.trans (Nat.le_succ i), stands.ok⟩
  · rw [BlockIter.nextEntryOffset, isValue, map_some, Nat.mod_eq_of_lt (by omega), isNext]
  · have last := lastKey_take interval stands.isE
    rw [stands.key, ← last]
    exact ⟨(shared_le interval _ _).1, take_shared _⟩

theorem Layout.seekToRestartPoint (layout : Layout b interval es) (positive : 1 ≤ interval)
    (ok : it.ok = true) (bound : j < b.numRestarts) :
    ∃ it', b.seekToRestartPoint it j = some it' ∧ Ready b interval es it' (j * interval) := by
  have within := layout.restart_le bound
  have small := layout.sized.small
  have below := layout.offset_lt_size within
  refine ⟨{ it with
    key := [], restartIndex := j, value := some (offset interval es (j * interval), 0) },
    by rw [BlockView.seekToRestartPoint, layout.point j bound]; rfl, ?_, within, fun e _ => ?_,
    bound, le_rfl, ok⟩
  · rw [BlockIter.nextEntryOffset, map_some, Nat.add_zero, Nat.mod_eq_of_lt (by omega)]
  · rw [sharedAt_restart positive within]
    simp

theorem Layout.advanceRestartIndex (layout : Layout b interval es) (bound : i ≤ es.length)
    {fuel index : Nat} (inside : index < b.numRestarts) (before : index * interval ≤ i)
    (enough : b.numRestarts - index < fuel) :
    ∃ index', b.advanceRestartIndex (offset interval es i) fuel index = some index' ∧
      index' < b.numRestarts ∧ index' * interval ≤ i := by
  induction fuel generalizing index with
  | zero => omega
  | succ fuel ih =>
    have few := layout.few
    rw [BlockView.advanceRestartIndex, Nat.mod_eq_of_lt (by omega : index + 1 < 2 ^ 32)]
    by_cases more : index + 1 < b.numRestarts
    · rw [if_pos more, layout.point _ more, bind_some]
      split
      case isTrue less =>
        have within := (layout.offset_lt_iff (layout.restart_le more) bound).mp less
        exact ih more within.le (by omega)
      case isFalse => exact ⟨index, rfl, inside, before⟩
    · rw [if_neg more]
      exact ⟨index, rfl, inside, before⟩

theorem Ready.parse_end (ready : Ready b interval es it i) (layout : Layout b interval es)
    (atEnd : i = es.length) : b.parseNextKey it = some (b.leave it, false) := by
  have here : b.restarts ≤ offset interval es i := by rw [atEnd, layout.last]
  rw [BlockView.parseNextKey, ready.next]
  simp only [bind_eq_bind, bind_some, if_pos here]

theorem Ready.parse (ready : Ready b interval es it i) (layout : Layout b interval es)
    (isE : es[i]? = some e) :
    ∃ it', b.parseNextKey it = some (it', true) ∧ At b interval es it' i e := by
  have bound := (List.getElem?_eq_some_iff.mp isE).1
  have before : ¬b.restarts ≤ offset interval es i := by
    rw [← layout.last]
    exact (layout.offset_lt bound le_rfl).not_ge
  obtain ⟨start, rest, decoded, after, next, data⟩ := layout.entry i e isE
  obtain ⟨long, same⟩ := ready.shares e isE
  obtain ⟨index, advanced, inside, restart⟩ := layout.advanceRestartIndex ready.bound ready.index
    ready.restart (show b.numRestarts - it.restartIndex < b.numRestarts + 1 by omega)
  have within := layout.offset_lt_size (i := i + 1) bound
  have array := layout.sized.array
  have length := congrArg List.length data
  have delta : readBytes b.data start (e.1.data.length - sharedAt interval es i e.1.data) =
      some (e.1.data.drop (sharedAt interval es i e.1.data)) := by
    rw [← List.length_drop] at next ⊢
    exact readBytes_written data (by omega)
  have value : readBytes b.data (start + (e.1.data.length - sharedAt interval es i e.1.data))
      e.2.length = some e.2 := by
    have behind := drop_behind data
    rw [List.length_drop] at behind
    exact readBytes_written behind (by omega)
  refine ⟨{ it with
    current := offset interval es i
    restartIndex := index
    key := it.key.take (sharedAt interval es i e.1.data) ++
      e.1.data.drop (sharedAt interval es i e.1.data)
    value := some (start + (e.1.data.length - sharedAt interval es i e.1.data), e.2.length) },
    ?_, isE, rfl, ?_, ⟨_, rfl, next.symm, value⟩, inside, restart, ready.ok⟩
  · rw [BlockView.parseNextKey, ready.next]
    simp only [bind_eq_bind, bind_some, if_neg before, decoded,
      if_neg (Nat.not_lt.mpr long), delta, advanced]
  · rw [same, List.take_append_drop]

/-- The iterator stands at the entry of a position of the cursor, or at none. -/
def Stands (b : BlockView) (interval : Nat) (es : List (Slice × Bytes)) (it : BlockIter) :
    Option Nat → Prop
  | some i => ∃ e, At b interval es it i e
  | none => b.valid it = false ∧ it.ok = true

theorem Stands.leave (b : BlockView) (interval : Nat) (es : List (Slice × Bytes)) {it : BlockIter}
    (ok : it.ok = true) : Stands b interval es (b.leave it) none :=
  ⟨b.not_valid_leave it, ok⟩

theorem Ready.scan (ready : Ready b interval es it i) (layout : Layout b interval es)
    {stop : BlockIter → Bool} {goal fuel : Nat} (ahead : i ≤ goal) (bound : goal ≤ es.length)
    (passes : ∀ x e it, x < goal → At b interval es it x e → stop it = false)
    (stops : ∀ e it, At b interval es it goal e → stop it = true) (enough : es.length - i < fuel) :
    ∃ it', b.scan stop fuel it = some it' ∧ Stands b interval es it' (standAt es goal) := by
  induction fuel generalizing it i with
  | zero => omega
  | succ fuel ih =>
    rw [BlockView.scan]
    cases isE : es[i]? with
    | none =>
      have atEnd : i = es.length := le_antisymm ready.bound (List.getElem?_eq_none_iff.mp isE)
      have nowhere : standAt es goal = none := if_neg (by omega)
      rw [ready.parse_end layout atEnd, nowhere]
      exact ⟨_, rfl, Stands.leave b interval es ready.ok⟩
    | some e =>
      have inside := (List.getElem?_eq_some_iff.mp isE).1
      obtain ⟨it', parsed, stands⟩ := ready.parse layout isE
      rw [parsed, bind_some]
      obtain rfl | less := Nat.eq_or_lt_of_le ahead
      · have here : standAt es i = some i := if_pos inside
        rw [here]
        exact ⟨it', by simp [stops e it' stands], e, stands⟩
      · obtain ⟨it'', scanned, stands'⟩ := ih (stands.ready layout) less (by omega)
        exact ⟨it'', by simpa [passes i e it' less stands] using scanned, stands'⟩

theorem Layout.length_le (layout : Layout b interval es) : es.length ≤ b.restarts := by
  have grows : ∀ i ≤ es.length, i ≤ offset interval es i := by
    intro i
    induction i with
    | zero => exact fun _ => Nat.zero_le _
    | succ i ih =>
      intro bound
      have next := layout.offset_succ bound
      have before := ih (Nat.le_of_succ_le bound)
      omega
  exact layout.last ▸ grows es.length le_rfl

theorem Layout.restartKey (layout : Layout b interval es) (positive : 1 ≤ interval)
    (isE : es[j * interval]? = some e) :
    ∃ start, decodeEntry b.data (offset interval es (j * interval)) b.restarts =
        some (some ⟨start, 0, e.1.data.length, e.2.length⟩) ∧
      readBytes b.data start e.1.data.length = some e.1.data := by
  have bound := (List.getElem?_eq_some_iff.mp isE).1
  obtain ⟨start, rest, decoded, -, next, data⟩ := layout.entry _ e isE
  rw [sharedAt_restart positive bound.le] at decoded next data
  have array := layout.sized.array
  have below := layout.offset_lt_size (show j * interval + 1 ≤ es.length from bound)
  exact ⟨start, decoded, readBytes_written data (by omega)⟩

theorem Stands.ok {pos : Option Nat} (stands : Stands b interval es it pos) : it.ok = true := by
  cases pos with
  | none => exact stands.2
  | some i =>
    obtain ⟨e, here⟩ := stands
    exact here.ok

theorem At.valid (here : At b interval es it i e) (layout : Layout b interval es) :
    b.valid it = true := by
  have bound := (List.getElem?_eq_some_iff.mp here.isE).1
  rw [BlockView.valid, here.current, ← layout.last]
  exact decide_eq_true (layout.offset_lt bound le_rfl)

theorem Layout.restartBefore (layout : Layout b interval es) (bound : i ≤ es.length)
    (notFirst : 0 < i) {index : Nat} (inside : index < b.numRestarts) :
    ∃ index', b.restartBefore (offset interval es i) index = some (some index') ∧
      index' < b.numRestarts ∧ index' * interval < i := by
  induction index with
  | zero =>
    have before := layout.offset_lt (show 0 * interval < i by omega) bound
    rw [BlockView.restartBefore, layout.point 0 inside, map_some, if_neg before.not_ge]
    exact ⟨0, rfl, inside, by omega⟩
  | succ index ih =>
    rw [BlockView.restartBefore, layout.point _ inside, bind_some]
    split
    case isTrue => exact ih (Nat.lt_of_succ_lt inside)
    case isFalse before =>
      have less := (layout.offset_lt_iff (layout.restart_le inside) bound).mp (Nat.lt_of_not_le before)
      exact ⟨_, rfl, inside, less⟩

theorem Ready.next_stands (ready : Ready b interval es it i) (layout : Layout b interval es) :
    ∃ it', (b.parseNextKey it).map Prod.fst = some it' ∧ Stands b interval es it' (standAt es i) := by
  cases isE : es[i]? with
  | none =>
    have atEnd : i = es.length := le_antisymm ready.bound (List.getElem?_eq_none_iff.mp isE)
    have nowhere : standAt es i = none := if_neg (by omega)
    rw [ready.parse_end layout atEnd, nowhere]
    exact ⟨_, rfl, Stands.leave b interval es ready.ok⟩
  | some e =>
    obtain ⟨it', parsed, here⟩ := ready.parse layout isE
    have inside : standAt es i = some i := if_pos (List.getElem?_eq_some_iff.mp isE).1
    rw [parsed, inside]
    exact ⟨it', rfl, e, here⟩

theorem Layout.seekToFirst (layout : Layout b interval es) (positive : 1 ≤ interval)
    (ok : it.ok = true) :
    ∃ it', b.seekToFirst it = some it' ∧ Stands b interval es it' (standAt es 0) := by
  obtain ⟨it₁, sought, ready⟩ := layout.seekToRestartPoint positive ok layout.sized.positive
  rw [Nat.zero_mul] at ready
  rw [BlockView.seekToFirst, sought]
  exact ready.next_stands layout

theorem Layout.seekToLast (layout : Layout b interval es) (positive : 1 ≤ interval)
    (ok : it.ok = true) :
    ∃ it', b.seekToLast it = some it' ∧ Stands b interval es it' (standAt es (es.length - 1)) := by
  have length := layout.length_le
  have some := layout.sized.positive
  have inside : b.numRestarts - 1 < b.numRestarts := by omega
  obtain ⟨it₁, sought, ready⟩ := layout.seekToRestartPoint positive ok inside
  rw [BlockView.seekToLast, sought]
  refine ready.scan layout (mul_le_of_restartCount (layout.count ▸ inside)) (by omega)
    (fun x e it less here => ?_) (fun e it here => ?_) (by omega)
  · have before := layout.offset_lt (show x + 1 < es.length by omega) le_rfl
    rw [(here.ready layout).next, any_some, ← layout.last]
    exact decide_eq_false before.not_ge
  · have last : es.length - 1 + 1 = es.length := by
      have bound := (List.getElem?_eq_some_iff.mp here.isE).1
      omega
    rw [(here.ready layout).next, any_some, last, layout.last]
    exact decide_eq_true le_rfl

theorem At.prev (here : At b interval es it i e) (layout : Layout b interval es)
    (positive : 1 ≤ interval) :
    ∃ it', b.prev it = some it' ∧
      Stands b interval es it' (if i = 0 then none else some (i - 1)) := by
  have bound := (List.getElem?_eq_some_iff.mp here.isE).1
  have length := layout.length_le
  rw [BlockView.prev, here.current]
  by_cases first : i = 0
  · have index : it.restartIndex = 0 := by
      have restart := here.restart
      rw [first, Nat.le_zero, Nat.mul_eq_zero] at restart
      omega
    have inside := here.index
    rw [index] at inside
    rw [if_pos first, index, BlockView.restartBefore, layout.point 0 inside, map_some,
      if_pos (by rw [first, Nat.zero_mul])]
    exact ⟨_, rfl, Stands.leave b interval es here.ok⟩
  · obtain ⟨index, found, inside, before⟩ :=
      layout.restartBefore bound.le (Nat.pos_of_ne_zero first) here.index
    obtain ⟨it₁, sought, ready⟩ := layout.seekToRestartPoint positive here.ok inside
    have goal : standAt es (i - 1) = some (i - 1) := if_pos (by omega)
    simp only [if_neg first, found, bind_eq_bind, bind_some, sought, ← goal]
    refine ready.scan layout (by omega) (by omega) (fun x e it less here => ?_) (fun e it here => ?_)
      (by omega)
    · have less := layout.offset_lt (show x + 1 < i by omega) bound.le
      simp [(here.ready layout).next, less]
    · have last : i - 1 + 1 = i := by omega
      simp [(here.ready layout).next, last]

section comparing
variable [LinearOrder Slice] {target : Slice}

/-- The comparator of an order. -/
def compareSlices (x y : Bytes) : Ordering := compare (Slice.mk x) (Slice.mk y)

theorem compareSlices_lt {x y : Slice} : compareSlices x.data y.data = .lt ↔ x < y :=
  compare_lt_iff_lt

/-- The search ends at a restart point that is not behind the first entry with a key that is not
less than the target. -/
theorem Layout.searchRestarts (layout : Layout b interval es) (positive : 1 ≤ interval)
    {goal fuel left right : Nat} (less : ∀ (i : Nat) e, es[i]? = some e → e.1 < target → i < goal)
    (order : left ≤ right) (bound : right < b.numRestarts) (before : left * interval ≤ goal)
    (enough : right - left < fuel) :
    ∃ index, b.searchRestarts (compareSlices · target.data == .lt) fuel left right =
        some (some index) ∧ index < b.numRestarts ∧ index * interval ≤ goal := by
  induction fuel generalizing left right with
  | zero => omega
  | succ fuel ih =>
    have few := layout.few
    rw [BlockView.searchRestarts]
    by_cases open' : left < right
    · have half : (left + right + 1) % 2 ^ 32 / 2 = (left + right + 1) / 2 := by
        rw [Nat.mod_eq_of_lt (by omega)]
      have inMid : (left + right + 1) / 2 < b.numRestarts := by omega
      have large : 1 * 1 ≤ (left + right + 1) / 2 * interval := Nat.mul_le_mul (by omega) positive
      have within := mul_le_of_restartCount (layout.count ▸ inMid)
      obtain ⟨e, isE⟩ : ∃ e, es[(left + right + 1) / 2 * interval]? = some e :=
        ⟨_, List.getElem?_eq_getElem (by omega)⟩
      obtain ⟨start, decoded, midKey⟩ := layout.restartKey positive isE
      simp only [if_pos open', half, layout.point _ inMid, decoded, bind_eq_bind,
        bind_some, ne_eq, not_true_eq_false, if_false, midKey]
      by_cases smaller : e.1 < target
      · rw [if_pos (by simpa using compareSlices_lt.mpr smaller)]
        exact ih (by omega) bound (less _ e isE smaller).le (by omega)
      · rw [if_neg (by simpa using mt compareSlices_lt.mp smaller)]
        have below : ((left + right + 1) / 2 + 2 ^ 32 - 1) % 2 ^ 32 = (left + right + 1) / 2 - 1 := by
          omega
        rw [below]
        exact ih (by omega) (by omega) before (by omega)
    · rw [if_neg open']
      exact ⟨left, rfl, by omega, before⟩

theorem lt_iff_findIdx (sorted : Sorted es) (isE : es[i]? = some e) :
    e.1 < target ↔ i < es.findIdx (target ≤ ·.1) := by
  obtain ⟨bound, rfl⟩ := List.getElem?_eq_some_iff.mp isE
  constructor
  · intro less
    by_contra notBefore
    have found : es.findIdx (target ≤ ·.1) < es.length := by omega
    have atLeast := of_decide_eq_true (List.findIdx_getElem (w := found))
    obtain same | after := Nat.eq_or_lt_of_not_lt notBefore
    · simp only [← same] at atLeast
      exact (atLeast.trans_lt less).false
    · have order := (sorted.lt_iff (List.getElem?_eq_getElem found) isE).mpr after
      exact ((atLeast.trans_lt order).trans less).false
  · intro before
    simpa using List.not_of_lt_findIdx before

theorem Layout.seekFrom (layout : Layout b interval es) (positive : 1 ≤ interval)
    (ok : it.ok = true)
    (sorted : Sorted es) {left right : Nat} {ahead : Bool} (order : left ≤ right)
    (bound : right < b.numRestarts) (before : left * interval ≤ es.findIdx (target ≤ ·.1))
    (stands : ahead = true → ∃ i e, At b interval es it i e ∧ i < es.findIdx (target ≤ ·.1)) :
    ∃ it', b.seekFrom compareSlices it target.data left right ahead = some it' ∧
      Stands b interval es it' (standAt es (es.findIdx (target ≤ ·.1))) := by
  have length := layout.length_le
  obtain ⟨index, searched, inside, notBehind⟩ := layout.searchRestarts positive
    (fun i e isE => (lt_iff_findIdx sorted isE).mp) order bound before
    (show right - left < b.numRestarts + 1 by omega)
  -- from any entry not behind the goal, the scan goes over the keys that are less
  have scan : ∀ it i, Ready b interval es it i → i ≤ es.findIdx (target ≤ ·.1) →
      ∃ it', b.scan (fun it => compareSlices it.key target.data != .lt) (b.restarts + 1) it =
        some it' ∧ Stands b interval es it' (standAt es (es.findIdx (target ≤ ·.1))) := by
    intro it i ready notBehind
    refine ready.scan layout notBehind List.findIdx_le_length (fun x e it less here => ?_)
      (fun e it here => ?_) (by omega)
    · have smaller := (lt_iff_findIdx sorted here.isE).mpr less
      simp [here.key, compareSlices_lt.mpr smaller]
    · have notSmaller : ¬e.1 < target := mt (lt_iff_findIdx sorted here.isE).mp (lt_irrefl _)
      simpa [here.key] using mt compareSlices_lt.mp notSmaller
  rw [BlockView.seekFrom, searched]
  simp only [bind_eq_bind, bind_some]
  split
  case isTrue skip =>
    obtain ⟨i, e, here, less⟩ := stands skip.2
    exact scan it (i + 1) (here.ready layout) less
  case isFalse =>
    obtain ⟨it', sought, ready⟩ := layout.seekToRestartPoint positive ok inside
    rw [sought, bind_some]
    exact scan it' _ ready notBehind

/-- `Seek` from any position, with the shortcuts that it takes when it stands at an entry. -/
theorem Layout.seek (layout : Layout b interval es) (positive : 1 ≤ interval) (sorted : Sorted es)
    {pos : Option Nat} (stands : Stands b interval es it pos) :
    ∃ it', b.seek compareSlices it target.data = some it' ∧
      Stands b interval es it' (standAt es (es.findIdx (target ≤ ·.1))) := by
  have restarts := layout.sized.positive
  rw [BlockView.seek]
  cases pos with
  | none =>
    rw [if_neg (by simp [stands.1])]
    exact layout.seekFrom positive stands.2 sorted (Nat.zero_le _) (by omega) (by simp) (by simp)
  | some i =>
    obtain ⟨e, here⟩ := stands
    have inside := here.index
    have bound := (List.getElem?_eq_some_iff.mp here.isE).1
    rw [if_pos (here.valid layout), here.key]
    cases compared : compareSlices e.1.data target.data with
    | lt =>
      have before := (lt_iff_findIdx sorted here.isE).mp (compareSlices_lt.mp compared)
      exact layout.seekFrom positive here.ok sorted (by omega) (by omega)
        (here.restart.trans before.le) fun _ => ⟨i, e, here, before⟩
    | gt =>
      exact layout.seekFrom positive here.ok sorted (Nat.zero_le _) inside (by simp) (by simp)
    | eq =>
      have same : e.1 = target := compare_eq_iff_eq.mp compared
      have first : es.findIdx (target ≤ ·.1) = i := by
        refine (List.findIdx_eq bound).mpr ⟨?_, fun j less => ?_⟩
        · rw [(List.getElem?_eq_some_iff.mp here.isE).2]
          exact decide_eq_true same.ge
        · have isJ : es[j]? = some es[j] := List.getElem?_eq_getElem (less.trans bound)
          have order := (sorted.lt_iff isJ here.isE).mpr less
          exact decide_eq_false (same ▸ order).not_ge
      have goal : standAt es (es.findIdx (target ≤ ·.1)) = some i := by
        rw [first]
        exact if_pos bound
      rw [goal]
      exact ⟨it, rfl, e, here⟩

theorem Stands.entry {pos : Option Nat} (stands : Stands b interval es it pos)
    (layout : Layout b interval es) :
    (b.iterator compareSlices).entry it = entryAt es pos := by
  cases pos with
  | none => exact if_neg (by simp [stands.1])
  | some i =>
    obtain ⟨e, here⟩ := stands
    obtain ⟨start, isValue, -, read⟩ := here.value
    have shown : entryAt es (some i) = some e := here.isE
    rw [shown]
    simp [BlockView.iterator, here.valid layout, isValue, read, here.key]

theorem Layout.step (layout : Layout b interval es) (positive : 1 ≤ interval) (sorted : Sorted es)
    {pos : Option Nat} (stands : Stands b interval es it pos) (op : Cursor.Op Slice)
    (allowed : op.allowed pos.isSome = true) :
    ∃ it', b.step compareSlices it op = some it' ∧ Stands b interval es it' (move es pos op) := by
  cases op with
  | seekToFirst => exact layout.seekToFirst positive stands.ok
  | seekToLast => exact layout.seekToLast positive stands.ok
  | seek target => exact layout.seek positive sorted stands
  | next =>
    obtain ⟨i, rfl⟩ := isSome_iff_exists.mp allowed
    obtain ⟨e, here⟩ := stands
    exact (here.ready layout).next_stands layout
  | prev =>
    obtain ⟨i, rfl⟩ := isSome_iff_exists.mp allowed
    obtain ⟨e, here⟩ := stands
    exact here.prev layout positive

theorem Layout.behaves (layout : Layout b interval es) (positive : 1 ≤ interval)
    (sorted : Sorted es) :
    Behaves (b.iterator compareSlices) es fun it =>
      ∃ pos, Stands b interval es it pos ∧ ∀ i ∈ pos, i < es.length := by
  rintro it op ⟨pos, stands, bound⟩ allowed
  have shown := stands.entry layout
  have same : pos.isSome = (b.iterator compareSlices).valid it := by
    rw [Iterator.valid, shown]
    cases pos with
    | none => rfl
    | some i => simp [entryAt, bound i rfl]
  obtain ⟨it', stepped, stands'⟩ := layout.step positive sorted stands op (same ▸ allowed)
  obtain ⟨moved, bound'⟩ := sorted.move_entry pos bound op
  exact ⟨it', stepped, ⟨_, stands', bound'⟩, by rw [stands'.entry layout, moved, shown]⟩

end comparing
end layout

/-- A block that was built from keys in increasing order, for any restart interval: the iterator
shows what the cursor over the entries shows, and its status stays ok. -/
theorem block_cursor [LinearOrder Slice] (interval : Nat) (positive : 1 ≤ interval)
    (es : List (Slice × Bytes)) (sorted : Sorted es)
    (small : (build interval es).finish.length < 2 ^ 32) :
    ∃ b, newBlockIterator (build interval es).finish = .iter b ∧
      ∀ ops pos, Cursor.run es none ops = some pos →
        ∃ it, (b.iterator compareSlices).run b.start ops = some it ∧
          (b.iterator compareSlices).entry it = entryAt es pos ∧ it.ok = true := by
  obtain ⟨b, opened, layout⟩ := finish_layout positive es small
  refine ⟨b, opened, fun ops pos ran => ?_⟩
  have start : Stands b interval es b.start none := ⟨by simp [BlockView.valid, BlockView.start], rfl⟩
  obtain ⟨it, went, ⟨_, stands, -⟩, shown⟩ := (layout.behaves positive sorted).run sorted
    ⟨none, start, by simp⟩ (by simp) (start.entry layout) ran
  exact ⟨it, went, shown, stands.ok⟩

/-- Three keys with a restart point at every second one: a seek onto the shared key, a step back
and one onto the restart point. -/
theorem block_cursor_three :
    letI := bytewiseOrder
    ∃ b it, newBlockIterator (build 2
        [(⟨[97]⟩, [1]), (⟨[97, 98]⟩, [2]), (⟨[98]⟩, [3])]).finish = .iter b ∧
      (b.iterator compareSlices).run b.start [.seek ⟨[97, 98]⟩, .prev, .next, .next] = some it ∧
      (b.iterator compareSlices).entry it = some (⟨[98]⟩, [3]) := by
  obtain ⟨b, opened, runs⟩ := @block_cursor bytewiseOrder 2 (by decide)
    [(⟨[97]⟩, [1]), (⟨[97, 98]⟩, [2]), (⟨[98]⟩, [3])] (by decide +kernel) (by decide +kernel)
  obtain ⟨it, ran, shown, -⟩ := runs [.seek ⟨[97, 98]⟩, .prev, .next, .next] (some 2)
    (by decide +kernel)
  exact ⟨b, it, opened, ran, shown⟩

end TalusDB
