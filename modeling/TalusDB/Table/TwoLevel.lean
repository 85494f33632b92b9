import TalusDB.Lib.Cursor

/-! `TwoLevelIterator`: an index whose values are handles of blocks, and one iterator over the
entries of these blocks. -/
namespace TalusDB
open Cursor List
open Option (bind_eq_some_iff bind_some isSome_iff_exists none_or)
variable {K ν σ τ η : Type}

/-- `data` is `data_iter_`, `handle` is `data_block_handle_`, and `ok` tells whether `status_` is
ok. -/
structure TwoLevelIterator (σ τ η : Type) where
  index : σ
  data : Option τ := none
  handle : Option η := none
  ok : Bool := true
  /-- The states in which block iterators were opened or left. The source does not keep them. -/
  visited : List τ := []

namespace TwoLevelIterator

section
variable (index : Iterator K η σ) (data : Iterator K ν τ) (block : η → τ)

/-- `SetDataIterator`, with `SaveError`. -/
def setDataIterator (t : TwoLevelIterator σ τ η) (iter : Option τ) : TwoLevelIterator σ τ η :=
  { t with
    ok := t.ok && t.data.all data.ok
    data := iter
    visited := t.visited ++ iter.toList }

def initDataBlock [DecidableEq η] (t : TwoLevelIterator σ τ η) : TwoLevelIterator σ τ η :=
  match index.entry t.index with
  | none => t.setDataIterator data none
  | some e =>
    if t.data.isSome && decide (t.handle = some e.2) then t
    else { t with handle := some e.2 }.setDataIterator data (some (block e.2))

/-- An operation of `data_iter_`, if there is one. -/
def onData (op : Cursor.Op K) (t : TwoLevelIterator σ τ η) : Option (TwoLevelIterator σ τ η) :=
  match t.data with
  | none => some t
  | some d => (data.step op d).map fun d => { t with data := some d, visited := t.visited ++ [d] }

/-- An operation of `index_iter_`, and one of the block that it leads to. -/
def enter [DecidableEq η] (find op : Cursor.Op K) (t : TwoLevelIterator σ τ η) :
    Option (TwoLevelIterator σ τ η) := do
  let i ← index.step find t.index
  (initDataBlock index data block { t with index := i }).onData data op

/-- The loop of `SkipEmptyDataBlocksForward` and `-Backward`, with at most `fuel` rounds. -/
def skipEmptyDataBlocks [DecidableEq η] (advance op : Cursor.Op K) :
    Nat → TwoLevelIterator σ τ η → Option (TwoLevelIterator σ τ η)
  | 0, _ => none
  | fuel + 1, t =>
    if t.data.any data.valid then some t
    else if index.valid t.index then
      (t.enter index data block advance op).bind (skipEmptyDataBlocks advance op fuel)
    else some (t.setDataIterator data none)

def step [DecidableEq η] (fuel : Nat) (t : TwoLevelIterator σ τ η) :
    Cursor.Op K → Option (TwoLevelIterator σ τ η)
  | .seek target => do
    let t ← t.enter index data block (.seek target) (.seek target)
    t.skipEmptyDataBlocks index data block .next .seekToFirst fuel
  | .seekToFirst => do
    let t ← t.enter index data block .seekToFirst .seekToFirst
    t.skipEmptyDataBlocks index data block .next .seekToFirst fuel
  | .seekToLast => do
    let t ← t.enter index data block .seekToLast .seekToLast
    t.skipEmptyDataBlocks index data block .prev .seekToLast fuel
  | .next => do
    let t ← t.onData data .next
    t.skipEmptyDataBlocks index data block .next .seekToFirst fuel
  | .prev => do
    let t ← t.onData data .prev
    t.skipEmptyDataBlocks index data block .prev .seekToLast fuel

/-- The skipping loops take at most `fuel` rounds. -/
def iterator [DecidableEq η] (fuel : Nat) : Iterator K ν (TwoLevelIterator σ τ η) where
  entry t := t.data.bind data.entry
  ok t := index.ok t.index && t.data.all data.ok && t.ok
  step op t := t.step index data block fuel op

end

section concatenation
variable [LinearOrder K] [DecidableEq η] {index : Iterator K η σ} {data : Iterator K ν τ}
  {block : η → τ} {keys : List (K × η)} {content : η → List (K × ν)} {I : σ → Prop}
  {D : η → τ → Prop} {t : TwoLevelIterator σ τ η} {e : K × η} {fuel : Nat}

/-- The entries of all blocks, in the order of the index. -/
def concatenation (keys : List (K × η)) (content : η → List (K × ν)) : List (K × ν) :=
  keys.flatMap fun e => content e.2

/-- The index is a cursor over `keys`, each handle leads to a cursor over the block's content,
and the keys of the index separate the blocks. -/
structure Levels (index : Iterator K η σ) (data : Iterator K ν τ) (block : η → τ)
    (keys : List (K × η)) (content : η → List (K × ν)) (I : σ → Prop) (D : η → τ → Prop) :
    Prop where
  indexed : Behaves index keys I
  sorted : Sorted keys
  blocks : ∀ e ∈ keys, Behaves data (content e.2) (D e.2)
  opened : ∀ e ∈ keys, D e.2 (block e.2)
  upper : ∀ e ∈ keys, ∀ x ∈ content e.2, x.1 ≤ e.1
  lower : ∀ (i : Nat) e e', keys[i]? = some e → keys[i + 1]? = some e' →
    ∀ x ∈ content e'.2, e.1 < x.1
  concat : Sorted (concatenation keys content)

/-- The data iterator belongs to the block that the index stands at. -/
structure Holds (index : Iterator K η σ) (data : Iterator K ν τ) (keys : List (K × η))
    (content : η → List (K × ν)) (I : σ → Prop) (D : η → τ → Prop) (t : TwoLevelIterator σ τ η) :
    Prop where
  indexed : I t.index
  data : ∀ d ∈ t.data, ∃ e ∈ keys, index.entry t.index = some e ∧ t.handle = some e.2 ∧ D e.2 d ∧
    ∀ x ∈ data.entry d, x ∈ content e.2

theorem Levels.enter (levels : Levels index data block keys content I D)
    (find op : Cursor.Op K) (holds : Holds index data keys content I D t) {here : Option (K × η)}
    (allowed : find.allowed (index.valid t.index) = true)
    (always : ∀ valid, op.allowed valid = true)
    (found : look keys (index.entry t.index) find = here) (mem : ∀ e ∈ here, e ∈ keys) :
    ∃ t', t.enter index data block find op = some t' ∧ Holds index data keys content I D t' ∧
      index.entry t'.index = here ∧
      t'.data.bind data.entry = here.bind fun e => look (content e.2) none op := by
  obtain ⟨i, moved, isI, stands⟩ := levels.indexed t.index find holds.indexed allowed
  rw [found] at stands
  cases here with
  | none =>
    refine ⟨{ t with index := i }.setDataIterator data none, ?_, ⟨isI, by simp [setDataIterator]⟩,
      stands, rfl⟩
    simp [TwoLevelIterator.enter, moved, initDataBlock, stands, onData, setDataIterator]
  | some e =>
    have inKeys := mem e rfl
    have opened : ∃ t₁ d, initDataBlock index data block { t with index := i } = t₁ ∧
        t₁.index = i ∧ t₁.data = some d ∧ t₁.handle = some e.2 ∧ D e.2 d := by
      simp only [initDataBlock, stands]
      by_cases same : (t.data.isSome && decide (t.handle = some e.2)) = true
      · rw [if_pos same]
        rw [Bool.and_eq_true, decide_eq_true_eq] at same
        obtain ⟨d, isD⟩ := isSome_iff_exists.mp same.1
        obtain ⟨e', -, -, isHandle, keeps, -⟩ := holds.data d isD
        rw [same.2, Option.some.injEq] at isHandle
        exact ⟨_, d, rfl, rfl, isD, same.2, isHandle ▸ keeps⟩
      · rw [if_neg same]
        exact ⟨_, block e.2, rfl, rfl, rfl, rfl, levels.opened e inKeys⟩
    obtain ⟨t₁, d, isInit, isIndex, isData, isHandle, keeps⟩ := opened
    obtain ⟨d', stepped, keeps', shown⟩ := levels.blocks e inKeys d op keeps (always _)
    refine ⟨{ t₁ with data := some d', visited := t₁.visited ++ [d'] }, ?_, ⟨isIndex ▸ isI, ?_⟩,
      isIndex ▸ stands, ?_⟩
    · simp [TwoLevelIterator.enter, moved, isInit, onData, isData, stepped]
    · rintro d'' isD
      cases isD
      exact ⟨e, inKeys, isIndex ▸ stands, isHandle, keeps', fun x isX => mem_of_look (shown ▸ isX)⟩
    · exact shown.trans (look_of_always always _ _)

/-- The entries of the index that lie ahead when it is moved by `advance`. -/
inductive Ahead (keys : List (K × η)) (advance : Cursor.Op K) : K × η → List (K × η) → Prop where
  | last {e : K × η} (none : look keys (some e) advance = none) : Ahead keys advance e []
  | next {e e' : K × η} {rest : List (K × η)} (found : look keys (some e) advance = some e')
      (mem : e' ∈ keys) (ahead : Ahead keys advance e' rest) : Ahead keys advance e (e' :: rest)

omit [LinearOrder K] [DecidableEq η] in
theorem Holds.data_none (holds : Holds index data keys content I D t)
    (none : index.entry t.index = none) :
    t.data = Option.none := by
  cases isData : t.data with
  | none => rfl
  | some d =>
    obtain ⟨e, -, stands, -⟩ := holds.data d isData
    cases none.symm.trans stands

theorem Levels.skip (levels : Levels index data block keys content I D) {advance op : Cursor.Op K}
    (allowed : advance.allowed true = true) (always : ∀ valid, op.allowed valid = true)
    {rest : List (K × η)} (holds : Holds index data keys content I D t)
    (here : index.entry t.index = none ∧ rest = [] ∧ 0 < fuel ∨
      ∃ e, index.entry t.index = some e ∧ Ahead keys advance e rest ∧ rest.length + 1 < fuel) :
    ∃ t', t.skipEmptyDataBlocks index data block advance op fuel = some t' ∧
      Holds index data keys content I D t' ∧ t'.data.bind data.entry =
        (t.data.bind data.entry).or (rest.findSome? fun e => look (content e.2) none op) := by
  induction fuel generalizing t rest with
  | zero => omega
  | succ fuel ih =>
    rw [skipEmptyDataBlocks]
    by_cases valid : t.data.any data.valid = true
    · rw [if_pos valid]
      obtain ⟨d, isData, shows⟩ := (Option.any_eq_true _ _).mp valid
      obtain ⟨x, shown⟩ := isSome_iff_exists.mp shows
      exact ⟨t, rfl, holds, by simp [isData, shown]⟩
    · rw [if_neg valid]
      have nothing : t.data.bind data.entry = none := by
        cases isData : t.data with
        | none => rfl
        | some d => simpa [isData, Iterator.valid] using valid
      rw [nothing, none_or]
      obtain ⟨none, rfl, -⟩ | ⟨e, stands, ahead, enough⟩ := here
      · rw [if_neg (by simp [Iterator.valid, none])]
        exact ⟨_, rfl, ⟨holds.indexed, by simp [setDataIterator]⟩, rfl⟩
      · have isValid : index.valid t.index = true := by simp [Iterator.valid, stands]
        rw [if_pos isValid]
        cases ahead with
        | last none =>
          obtain ⟨t₁, entered, holds₁, stands₁, -⟩ := levels.enter advance op holds
            (by rwa [isValid]) always (stands ▸ none) (by simp)
          obtain ⟨t', skipped, holds', shown⟩ := ih holds₁ (.inl ⟨stands₁, rfl, by omega⟩)
          refine ⟨t', by rw [entered]; exact skipped, holds', shown.trans ?_⟩
          simp [holds₁.data_none stands₁]
        | next found mem ahead =>
          rename_i e' rest
          obtain ⟨t₁, entered, holds₁, stands₁, shown₁⟩ := levels.enter advance op holds
            (by rwa [isValid]) always (stands ▸ found) (by simpa using mem)
          obtain ⟨t', skipped, holds', shown⟩ := ih holds₁
            (.inr ⟨e', stands₁, ahead, by simpa using enough⟩)
          refine ⟨t', by rw [entered]; exact skipped, holds', shown.trans ?_⟩
          rw [shown₁, bind_some, List.findSome?_cons]
          cases look (content e'.2) none op <;> rfl

omit [DecidableEq η] in
theorem ahead_next {before after : List (K × η)} (sorted : Sorted (before ++ e :: after)) :
    Ahead (before ++ e :: after) .next e after := by
  induction after generalizing before e with
  | nil => exact .last sorted.look_next
  | cons e' rest ih =>
    have shift : before ++ e :: e' :: rest = (before ++ [e]) ++ e' :: rest := by simp
    exact .next sorted.look_next (by simp) (shift ▸ ih (shift ▸ sorted))

omit [DecidableEq η] in
theorem ahead_prev {before after : List (K × η)} (sorted : Sorted (before.reverse ++ e :: after)) :
    Ahead (before.reverse ++ e :: after) .prev e before := by
  induction before generalizing after e with
  | nil => exact .last sorted.look_prev
  | cons e' rest ih =>
    have shift : (e' :: rest).reverse ++ e :: after = rest.reverse ++ e' :: e :: after := by simp
    exact .next (sorted.look_prev.trans (by simp)) (by simp) (shift ▸ ih (shift ▸ sorted))

omit [DecidableEq η] in
theorem Levels.split (levels : Levels index data block keys content I D)
    {before after : List (K × η)} (isKeys : keys = before ++ e :: after) :
    concatenation keys content =
        concatenation before content ++ (content e.2 ++ concatenation after content) ∧
      (∀ x ∈ concatenation before content, ∃ e' ∈ before, x.1 ≤ e'.1) ∧
      ∀ x ∈ concatenation after content, e.1 < x.1 := by
  refine ⟨by simp [isKeys, concatenation], fun x mem => ?_, fun x mem => ?_⟩
  · obtain ⟨e', inside, inBlock⟩ := mem_flatMap.mp mem
    exact ⟨e', inside, levels.upper e' (by simp [isKeys, inside]) x inBlock⟩
  · obtain ⟨e', inside, inBlock⟩ := mem_flatMap.mp mem
    -- the key of the index before this block is no less than that of `e`
    obtain ⟨j, isE'⟩ := mem_iff_getElem?.mp inside
    have atE : keys[before.length]? = some e := by simp [isKeys]
    have atE' : keys[before.length + j + 1]? = some e' := by
      rw [isKeys, List.getElem?_append_right (by omega)]
      have shift : before.length + j + 1 - before.length = j + 1 := by omega
      rw [shift, List.getElem?_cons_succ, isE']
    have bound := (List.getElem?_eq_some_iff.mp atE').1
    have atPrev : keys[before.length + j]? = some keys[before.length + j] :=
      List.getElem?_eq_getElem (by omega)
    have less := levels.lower _ _ e' atPrev atE' x inBlock
    refine lt_of_le_of_lt (not_lt.mp ?_) less
    rw [levels.sorted.lt_iff atPrev atE]
    omega

omit [DecidableEq η] in
theorem Levels.around (levels : Levels index data block keys content I D)
    {before after : List (K × η)} (isKeys : keys = before ++ e :: after) {x : K × ν}
    (inside : x ∈ content e.2) :
    concatenation keys content =
        concatenation before content ++ (content e.2 ++ concatenation after content) ∧
      (∀ y ∈ concatenation before content, y.1 < x.1) ∧
      ∀ y ∈ concatenation after content, x.1 < y.1 := by
  obtain ⟨parts, -, lower⟩ := levels.split isKeys
  refine ⟨parts, fun y mem => ?_, fun y mem => ?_⟩
  · have sorted := levels.concat
    rw [parts, Sorted, pairwise_append] at sorted
    exact sorted.2.2 y mem x (mem_append_left _ inside)
  · exact (levels.upper e (by simp [isKeys]) x inside).trans_lt (lower y mem)

section
variable (levels : Levels index data block keys content I D) (enough : keys.length < fuel)
  (holds : Holds index data keys content I D t)
include levels enough holds

theorem Levels.forward {before after : List (K × η)} (isKeys : keys = before ++ e :: after)
    (stands : index.entry t.index = some e) :
    ∃ t', t.skipEmptyDataBlocks index data block .next .seekToFirst fuel = some t' ∧
      Holds index data keys content I D t' ∧ t'.data.bind data.entry =
        (t.data.bind data.entry).or (concatenation after content).head? := by
  have ahead : Ahead keys .next e after := isKeys ▸ ahead_next (isKeys ▸ levels.sorted)
  have length := congrArg List.length isKeys
  simp only [length_append, length_cons] at length
  rw [concatenation, List.head?_flatMap]
  exact levels.skip rfl (fun _ => rfl) holds (.inr ⟨e, stands, ahead, by omega⟩)

theorem Levels.backward {before after : List (K × η)} (isKeys : keys = before ++ e :: after)
    (stands : index.entry t.index = some e) :
    ∃ t', t.skipEmptyDataBlocks index data block .prev .seekToLast fuel = some t' ∧
      Holds index data keys content I D t' ∧ t'.data.bind data.entry =
        (t.data.bind data.entry).or (concatenation before content).getLast? := by
  have ahead : Ahead keys .prev e before.reverse := by
    have shift : keys = before.reverse.reverse ++ e :: after := by simpa using isKeys
    exact shift ▸ ahead_prev (shift ▸ levels.sorted)
  have length := congrArg List.length isKeys
  simp only [length_append, length_cons] at length
  rw [concatenation, List.getLast?_flatMap]
  exact levels.skip rfl (fun _ => rfl) holds
    (.inr ⟨e, stands, ahead, by simp only [length_reverse]; omega⟩)

theorem Levels.nowhere
    (stands : index.entry t.index = none) (advance op : Cursor.Op K)
    (allowed : advance.allowed true = true) (always : ∀ valid, op.allowed valid = true) :
    ∃ t', t.skipEmptyDataBlocks index data block advance op fuel = some t' ∧
      Holds index data keys content I D t' ∧ t'.data.bind data.entry = none := by
  obtain ⟨t', skipped, holds', shown⟩ := levels.skip allowed always holds
    (.inl ⟨stands, rfl, Nat.zero_lt_of_lt enough⟩)
  refine ⟨t', skipped, holds', shown.trans ?_⟩
  simp [holds.data_none stands]

end

omit [LinearOrder K] in
/-- Of the entries in three parts, the property holds for none of the first and all of the
third. -/
theorem find_parts {first block rest : List (K × ν)} {p : K × ν → Bool}
    (before : ∀ x ∈ first, p x = false) (behind : ∀ x ∈ rest, p x = true) :
    (first ++ (block ++ rest)).find? p = (block.find? p).or rest.head? := by
  rw [List.find?_append, List.find?_eq_none.mpr (by simpa using before), none_or,
    List.find?_append]
  exact congrArg _ (find_split (fun x mem => absurd mem not_mem_nil) behind)

omit [DecidableEq η] in
theorem Levels.within (levels : Levels index data block keys content I D)
    (op : Cursor.Op K) (holds : Holds index data keys content I D t) {d : τ} {x : K × ν}
    (allowed : op.allowed true = true) (isData : t.data = some d) (shows : data.entry d = some x) :
    ∃ e t' before after, keys = before ++ e :: after ∧ t.onData data op = some t' ∧
      Holds index data keys content I D t' ∧ index.entry t'.index = some e ∧
      t'.data.bind data.entry = look (content e.2) (some x) op ∧ x ∈ content e.2 := by
  obtain ⟨e, inKeys, stands, isHandle, keeps, inside⟩ := holds.data d isData
  obtain ⟨before, after, isKeys⟩ := append_of_mem inKeys
  obtain ⟨d', stepped, keeps', shown⟩ := levels.blocks e inKeys d op keeps
    (by rwa [Iterator.valid, shows])
  refine ⟨e, { t with data := some d', visited := t.visited ++ [d'] }, before, after, isKeys, ?_,
    ⟨holds.indexed, ?_⟩, stands, shows ▸ shown, inside x shows⟩
  · simp [onData, isData, stepped]
  · rintro d'' isD
    cases isD
    exact ⟨e, inKeys, stands, isHandle, keeps', fun y isY => mem_of_look (shown ▸ isY)⟩

theorem Levels.behaves (levels : Levels index data block keys content I D)
    (enough : keys.length < fuel) :
    Behaves (iterator index data block fuel) (concatenation keys content) (Holds index data keys content I D) := by
  intro t op holds allowed
  cases op with
  | seek target =>
    cases found : keys.find? (target ≤ ·.1) with
    | none =>
      obtain ⟨t₁, entered, holds₁, stands, -⟩ := levels.enter (.seek target) (.seek target) holds rfl
        (fun _ => rfl) found (by simp)
      obtain ⟨t', skipped, holds', shown⟩ := levels.nowhere enough holds₁ stands .next .seekToFirst rfl
        fun _ => rfl
      refine ⟨t', by simpa [iterator, step, entered] using skipped, holds', shown.trans ?_⟩
      symm
      simp only [look, List.find?_eq_none, decide_eq_true_eq, not_le] at found ⊢
      intro x mem
      obtain ⟨e, inKeys, inside⟩ := mem_flatMap.mp mem
      exact (levels.upper e inKeys x inside).trans_lt (found e inKeys)
    | some e =>
      obtain ⟨above, before, after, isKeys, less⟩ := List.find?_eq_some_iff_append.mp found
      obtain ⟨t₁, entered, holds₁, stands, shown₁⟩ := levels.enter (.seek target) (.seek target) holds rfl
        (fun _ => rfl) found (by simp [isKeys])
      obtain ⟨t', skipped, holds', shown⟩ := levels.forward enough holds₁ isKeys stands
      refine ⟨t', by simpa [iterator, step, entered] using skipped, holds', shown.trans ?_⟩
      obtain ⟨parts, upper, lower⟩ := levels.split isKeys
      have above := of_decide_eq_true above
      rw [shown₁, look, parts, find_parts]
      · rfl
      · intro x mem
        obtain ⟨e', inside, under⟩ := upper x mem
        have smaller : e'.1 < target := by simpa using less e' inside
        simpa using under.trans_lt smaller
      · intro x mem
        simpa using above.trans (lower x mem).le
  | seekToFirst =>
    cases isKeys : keys with
    | nil =>
      obtain ⟨t₁, entered, holds₁, stands, -⟩ := levels.enter .seekToFirst .seekToFirst holds rfl
        (fun _ => rfl) (by rw [look, isKeys]) (by simp)
      obtain ⟨t', skipped, holds', shown⟩ := levels.nowhere enough holds₁ stands .next .seekToFirst rfl
        fun _ => rfl
      exact ⟨t', by simpa [iterator, step, entered] using skipped, isKeys ▸ holds', shown⟩
    | cons e after =>
      obtain ⟨t₁, entered, holds₁, stands, shown₁⟩ := levels.enter .seekToFirst .seekToFirst holds rfl
        (fun _ => rfl) (by rw [look, isKeys]) (by simp [isKeys])
      obtain ⟨t', skipped, holds', shown⟩ := levels.forward enough holds₁
        (show keys = [] ++ e :: after from isKeys) stands
      refine ⟨t', by simpa [iterator, step, entered] using skipped, isKeys ▸ holds', shown.trans ?_⟩
      rw [shown₁, concatenation, look, concatenation, flatMap_cons, List.head?_append]
      rfl
  | seekToLast =>
    obtain isKeys | ⟨before, e, isKeys⟩ := eq_nil_or_concat' keys
    · obtain ⟨t₁, entered, holds₁, stands, -⟩ := levels.enter .seekToLast .seekToLast holds rfl
        (fun _ => rfl) (by rw [look, isKeys]) (by simp)
      obtain ⟨t', skipped, holds', shown⟩ := levels.nowhere enough holds₁ stands .prev .seekToLast rfl
        fun _ => rfl
      exact ⟨t', by simpa [iterator, step, entered] using skipped, holds', by rw [isKeys]; exact shown⟩
    · have last : keys.getLast? = some e := by rw [isKeys, List.getLast?_concat]
      obtain ⟨t₁, entered, holds₁, stands, shown₁⟩ := levels.enter .seekToLast .seekToLast holds rfl
        (fun _ => rfl) last (by simp [isKeys])
      obtain ⟨t', skipped, holds', shown⟩ := levels.backward enough holds₁ isKeys stands
      refine ⟨t', by simpa [iterator, step, entered] using skipped, holds', shown.trans ?_⟩
      rw [shown₁, isKeys, look]
      simp [concatenation, List.getLast?_append, look]
  | next =>
    obtain ⟨x, isX⟩ := isSome_iff_exists.mp allowed
    obtain ⟨d, isData, shows⟩ := bind_eq_some_iff.mp isX
    obtain ⟨e, t₁, before, after, isKeys, moved, holds₁, stands, shown₁, inside⟩ :=
      levels.within .next holds rfl isData shows
    obtain ⟨t', skipped, holds', shown⟩ := levels.forward enough holds₁ isKeys stands
    refine ⟨t', by simpa [iterator, step, moved] using skipped, holds', shown.trans ?_⟩
    obtain ⟨parts, smaller, larger⟩ := levels.around isKeys inside
    rw [isX, shown₁, look, bind_some, look, bind_some, parts, find_parts]
    · intro y mem
      simpa using (smaller y mem).le
    · intro y mem
      simpa using larger y mem
  | prev =>
    obtain ⟨x, isX⟩ := isSome_iff_exists.mp allowed
    obtain ⟨d, isData, shows⟩ := bind_eq_some_iff.mp isX
    obtain ⟨e, t₁, before, after, isKeys, moved, holds₁, stands, shown₁, inside⟩ :=
      levels.within .prev holds rfl isData shows
    obtain ⟨t', skipped, holds', shown⟩ := levels.backward enough holds₁ isKeys stands
    refine ⟨t', by simpa [iterator, step, moved] using skipped, holds', shown.trans ?_⟩
    obtain ⟨parts, smaller, larger⟩ := levels.around isKeys inside
    rw [isX, shown₁, look, bind_some, look, bind_some, parts, reverse_append,
      reverse_append, append_assoc, find_parts, List.head?_reverse]
    · intro y mem
      simpa using (larger y (mem_reverse.mp mem)).le
    · intro y mem
      simpa using smaller y (mem_reverse.mp mem)

end concatenation

section status
variable {index : Iterator K η σ} {data : Iterator K ν τ} {block : η → τ}
  {t t₁ t' : TwoLevelIterator σ τ η} {op : Cursor.Op K} {fuel : Nat}

/-- What the operations consist of: steps of `index_iter_` and of `data_iter_`, and calls of
`SetDataIterator`. -/
inductive Moves (index : Iterator K η σ) (data : Iterator K ν τ) (t' : TwoLevelIterator σ τ η) :
    TwoLevelIterator σ τ η → Prop where
  | done : Moves index data t' t'
  | index {t : TwoLevelIterator σ τ η} {op : Cursor.Op K} {i : σ}
      (stepped : index.step op t.index = some i)
      (rest : Moves index data t' { t with index := i }) : Moves index data t' t
  | set {t : TwoLevelIterator σ τ η} (handle : Option η) (iter : Option τ)
      (rest : Moves index data t' ({ t with handle }.setDataIterator data iter)) :
      Moves index data t' t
  | data {t : TwoLevelIterator σ τ η} {op : Cursor.Op K} {d d' : τ} (isData : t.data = some d)
      (stepped : data.step op d = some d')
      (rest : Moves index data t' { t with data := some d', visited := t.visited ++ [d'] }) :
      Moves index data t' t

theorem Moves.onData (stepped : t.onData data op = some t₁) (rest : Moves index data t' t₁) :
    Moves index data t' t := by
  rw [TwoLevelIterator.onData] at stepped
  split at stepped
  case h_1 =>
    cases stepped
    exact rest
  case h_2 d isData =>
    obtain ⟨d', moved, rfl⟩ := Option.map_eq_some_iff.mp stepped
    exact .data isData moved rest

variable [DecidableEq η]

theorem Moves.enter {find : Cursor.Op K} (entered : t.enter index data block find op = some t₁)
    (rest : Moves index data t' t₁) : Moves index data t' t := by
  obtain ⟨i, stepped, moved⟩ := bind_eq_some_iff.mp entered
  have rest := rest.onData moved
  refine .index stepped ?_
  rw [initDataBlock] at rest
  split at rest
  case h_1 => exact .set t.handle none rest
  case h_2 e _ =>
    split at rest
    case isTrue => exact rest
    case isFalse => exact .set (some e.2) _ rest

theorem Moves.skip {advance : Cursor.Op K}
    (skipped : t.skipEmptyDataBlocks index data block advance op fuel = some t') :
    Moves index data t' t := by
  induction fuel generalizing t with
  | zero => cases skipped
  | succ fuel ih =>
    rw [skipEmptyDataBlocks] at skipped
    split at skipped
    · cases skipped
      exact .done
    · split at skipped
      · obtain ⟨t₁, entered, skipped⟩ := bind_eq_some_iff.mp skipped
        exact (ih skipped).enter entered
      · cases skipped
        exact .set t.handle none .done

theorem Moves.step (stepped : t.step index data block fuel op = some t') :
    Moves index data t' t := by
  cases op <;>
    (obtain ⟨t₁, moved, skipped⟩ := bind_eq_some_iff.mp stepped
     first
     | exact (Moves.skip skipped).enter moved
     | exact (Moves.skip skipped).onData moved)

omit [DecidableEq η] in
/-- An error of `data_iter_` is in its status, and in `status_` once it is replaced. -/
theorem setDataIterator_ok (iter : Option τ) : (t.setDataIterator data iter).ok = false ↔
    t.ok = false ∨ ∃ d ∈ t.data, data.ok d = false := by
  cases isData : t.data <;> simp [setDataIterator, isData, ← Bool.not_eq_true, imp_iff_not_or]

/-- The errors of all blocks so far are in `status_` or in the status of `data_iter_`. -/
def Reported (data : Iterator K ν τ) (t : TwoLevelIterator σ τ η) : Prop :=
  ∀ d ∈ t.visited, data.ok d = false → t.ok = false ∨ ∃ now ∈ t.data, data.ok now = false

omit [DecidableEq η] in
theorem Reported.moves (reported : Reported data t) (lasting : Lasting data)
    (moves : Moves index data t' t) : Reported data t' := by
  induction moves with
  | done => exact reported
  | index _ _ ih => exact ih reported
  | set handle iter _ ih =>
    refine ih fun d mem failed => ?_
    obtain old | new := mem_append.mp mem
    · exact .inl ((setDataIterator_ok iter).mpr (reported d old failed))
    · exact .inr ⟨d, Option.mem_toList.mp new, failed⟩
  | @data _ op d d' isData stepped _ ih =>
    refine ih fun seen mem failed => ?_
    obtain old | new := mem_append.mp mem
    · obtain kept | ⟨now, isNow, failed⟩ := reported seen old failed
      · exact .inl kept
      · cases isData.symm.trans isNow
        exact .inr ⟨d', rfl, lasting op d d' stepped failed⟩
    · exact .inr ⟨d', rfl, mem_singleton.mp new ▸ failed⟩

theorem ok_eq_false : (iterator index data block fuel).ok t = false ↔
    index.ok t.index = false ∨ t.ok = false ∨ ∃ d ∈ t.data, data.ok d = false := by
  cases isIndex : index.ok t.index <;> cases isOk : t.ok <;> cases isData : t.data <;>
    simp [iterator, isIndex, isOk, isData]

/-- Iterators with two levels can be blocks of others. -/
theorem iterator_lasting (block : η → τ) (fuel : Nat) (indexed : Lasting index)
    (lasting : Lasting data) : Lasting (iterator index data block fuel) := by
  intro op t t' stepped failed
  have moves : Moves index data t' t := .step stepped
  clear stepped
  induction moves with
  | done => exact failed
  | index stepped _ ih =>
    exact ih (ok_eq_false.mpr ((ok_eq_false.mp failed).imp_left (indexed _ _ _ stepped)))
  | set handle iter _ ih =>
    exact ih (ok_eq_false.mpr ((ok_eq_false.mp failed).imp_right fun failed =>
      .inl ((setDataIterator_ok iter).mpr failed)))
  | @data _ op d d' isData stepped _ ih =>
    refine ih (ok_eq_false.mpr ((ok_eq_false.mp failed).imp_right fun failed => ?_))
    obtain kept | ⟨now, isNow, failed⟩ := failed
    · exact .inl kept
    · cases isData.symm.trans isNow
      exact .inr ⟨d', rfl, lasting op d d' stepped failed⟩

end status

/-- Over an index and blocks that are cursors, the iterator shows what the cursor over the
concatenation shows, the loops ending within more rounds than there are blocks. Over any index and
blocks, once a block iterator was opened or left with an error, the status is not ok. -/
theorem run_concatenation [LinearOrder K] [DecidableEq η] (index : Iterator K η σ)
    (data : Iterator K ν τ) (block : η → τ) (i : σ) (fuel : Nat) (ops : List (Cursor.Op K)) :
    (∀ keys content I D, Levels index data block keys content I D → I i → keys.length < fuel →
      ∀ pos, Cursor.run (concatenation keys content) none ops = some pos →
        ∃ t, (iterator index data block fuel).run { index := i } ops = some t ∧
          (iterator index data block fuel).entry t = entryAt (concatenation keys content) pos) ∧
    (Lasting data → ∀ t, (iterator index data block fuel).run { index := i } ops = some t →
      (∃ d ∈ t.visited, data.ok d = false) → (iterator index data block fuel).ok t = false) := by
  constructor
  · intro keys content I D levels start enough pos ran
    have holds : Holds index data keys content I D { index := i } := ⟨start, by simp⟩
    obtain ⟨t, went, -, shown⟩ :=
      (levels.behaves enough).run levels.concat holds (by simp) rfl ran
    exact ⟨t, went, shown⟩
  · rintro lasting t ran ⟨d, mem, failed⟩
    have none : Reported data { index := i : TwoLevelIterator σ τ η } := by simp [Reported]
    have reported : Reported data t := by
      refine Runs.run_induct (P := Reported data) ?_ none ran
      intro s op s' reported _ stepped
      exact reported.moves lasting (.step stepped)
    exact ok_eq_false.mpr (.inr (reported d mem failed))

/-- The second block cannot be read. The iterator goes over it in both directions, and keeps the
error. -/
theorem run_concatenation_failing :
    let data : Iterator Nat Nat (List (Nat × Nat) × Option Nat) :=
      { listIterator with ok := fun s => !s.1.isEmpty }
    let content : Nat → List (Nat × Nat) := fun h => [[(1, 10), (2, 20)], [], [(5, 50)]].getD h []
    let it := iterator listIterator data (fun h => (content h, none)) 4
    ∃ t, it.run { index := ([(2, 0), (4, 1), (6, 2)], none) } [.seek 3, .prev, .next] = some t ∧
      it.entry t = some (5, 50) ∧ it.ok t = false := by
  intro data content it
  have levels : Levels listIterator data (fun h => (content h, none)) [(2, 0), (4, 1), (6, 2)]
      content (fun s => s.1 = [(2, 0), (4, 1), (6, 2)] ∧ ∀ i ∈ s.2, i < 3)
      (fun h s => s.1 = content h ∧ ∀ i ∈ s.2, i < (content h).length) := by
    refine ⟨listIterator_behaves (by decide), by decide, fun e mem => ?_, fun e _ => ⟨rfl, by simp⟩,
      by decide, ?_, by decide⟩
    · have sorted : ∀ e ∈ [(2, 0), (4, 1), (6, 2)], Sorted (content e.2) := by decide
      exact fun s op => listIterator_behaves (sorted e mem) s op
    · rintro (_ | _ | _ | i) e e' isE isE'
      all_goals cases isE
      all_goals cases isE'
      all_goals decide
  have lasting : Lasting data := by
    rintro op d d' stepped failed
    cases stepped
    exact failed
  obtain ⟨shows, fails⟩ := run_concatenation listIterator data (fun h => (content h, none))
    ([(2, 0), (4, 1), (6, 2)], none) 4 [.seek 3, .prev, .next]
  obtain ⟨t, ran, shown⟩ := shows _ content _ _ levels ⟨rfl, by simp⟩ (by decide) (some 2) (by decide)
  refine ⟨t, ran, shown, fails lasting t ran ?_⟩
  have failed : (it.run { index := ([(2, 0), (4, 1), (6, 2)], none) } [.seek 3, .prev, .next]).any
      (fun t => t.visited.any fun d => !data.ok d) = true := by decide
  rw [ran, Option.any_some, any_eq_true] at failed
  simpa using failed

end TwoLevelIterator
end TalusDB
