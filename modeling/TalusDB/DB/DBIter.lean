import TalusDB.DB.KeyBytes
import TalusDB.Lib.Cursor
import TalusDB.Lib.Multiversion

/-! `DBIter`: the iterator over the user keys of a snapshot, on top of one over internal keys. The
samples that `ParseKey` hands to `RecordReadSample` are left out. -/
namespace TalusDB
open Coding Cursor List InternalKey
open Option (bind_eq_bind bind_some isSome_iff_exists map_eq_some_iff map_some)

inductive DBIter.Direction where
  | forward | reverse
  deriving DecidableEq, Repr

/-- `iter` is the state of `iter_`, and `ok` tells whether `status_` is ok. -/
structure DBIter (σ : Type) where
  iter : σ
  ok : Bool := true
  savedKey : Slice := ⟨[]⟩
  savedValue : Bytes := []
  direction : DBIter.Direction := .forward
  valid : Bool := false

namespace DBIter
variable {σ : Type}

section
variable [LinearOrder Slice] (inner : Iterator TaggedKey Bytes σ) (sequence : Nat)

/-- What `FindNextUserEntry` does with the entry that `iter_` stands at: none when it yields it, and
`skipping` otherwise. Its `skip` is always `saved_key_`. -/
def hide (skipping : Bool) (key : TaggedKey) (t : DBIter σ) : Option (Bool × DBIter σ) :=
  match parseInternalKey key.rep with
  | none => some (skipping, { t with ok := false })
  | some ikey =>
    if ikey.sequence ≤ sequence then
      match ikey.type with
      | .deletion => some (true, { t with savedKey := ikey.userKey })
      | .value => if skipping && decide (ikey.userKey ≤ t.savedKey) then some (skipping, t) else none
    else some (skipping, t)

/-- The loop takes at most `fuel` rounds, as do the ones below. -/
def findNextUserEntry : Nat → Bool → DBIter σ → Option (DBIter σ)
  | 0, _, _ => none
  | fuel + 1, skipping, t => do
    let e ← inner.entry t.iter
    match t.hide sequence skipping e.1 with
    | none => some { t with valid := true, savedKey := ⟨[]⟩ }
    | some (skipping, t) =>
      let i ← inner.step .next t.iter
      if inner.valid i then findNextUserEntry fuel skipping { t with iter := i }
      else some { t with iter := i, savedKey := ⟨[]⟩, valid := false }

/-- What `FindPrevUserEntry` does with an entry while `value_type` is `type`: none when it breaks. -/
def save (type : ValueType) (e : TaggedKey × Bytes) (t : DBIter σ) : Option (ValueType × DBIter σ) :=
  match parseInternalKey e.1.rep with
  | none => some (type, { t with ok := false })
  | some ikey =>
    if ikey.sequence ≤ sequence then
      if type ≠ .deletion ∧ ikey.userKey < t.savedKey then none
      else match ikey.type with
        | .deletion => some (.deletion, { t with savedKey := ⟨[]⟩, savedValue := [] })
        | .value =>
          some (.value, { t with savedKey := extractUserKey e.1.rep, savedValue := e.2 })
    else some (type, t)

/-- The loop of `FindPrevUserEntry`. -/
def findPrevLoop : Nat → ValueType → DBIter σ → Option (ValueType × DBIter σ)
  | 0, _, _ => none
  | fuel + 1, type, t => do
    let e ← inner.entry t.iter
    match t.save sequence type e with
    | none => some (type, t)
    | some (type, t) =>
      let i ← inner.step .prev t.iter
      if inner.valid i then findPrevLoop fuel type { t with iter := i }
      else some (type, { t with iter := i })

def findPrevUserEntry (fuel : Nat) (t : DBIter σ) : Option (DBIter σ) := do
  let (type, t) ←
    if inner.valid t.iter then t.findPrevLoop inner sequence fuel .deletion else some (.deletion, t)
  match type with
  | .deletion =>
    some { t with valid := false, savedKey := ⟨[]⟩, savedValue := [], direction := .forward }
  | .value => some { t with valid := true }

/-- How `Next` moves `iter_` and what it saves, before it looks for an entry. -/
def leave (t : DBIter σ) : Option (DBIter σ) :=
  match t.direction with
  | .reverse => do
    let i ← inner.step (if inner.valid t.iter then .next else .seekToFirst) t.iter
    some { t with direction := .forward, iter := i }
  | .forward => do
    let e ← inner.entry t.iter
    let i ← inner.step .next t.iter
    some { t with savedKey := extractUserKey e.1.rep, iter := i }

def next (fuel : Nat) (t : DBIter σ) : Option (DBIter σ) := do
  let t ← t.leave inner
  if inner.valid t.iter then t.findNextUserEntry inner sequence fuel true
  else some { t with valid := false, savedKey := ⟨[]⟩ }

/-- The loop of `Prev` after a move forward: whether it comes to an earlier user key. -/
def scanBack : Nat → DBIter σ → Option (Bool × DBIter σ)
  | 0, _ => none
  | fuel + 1, t => do
    let i ← inner.step .prev t.iter
    match inner.entry i with
    | none => some (false, { t with iter := i })
    | some e =>
      if extractUserKey e.1.rep < t.savedKey then some (true, { t with iter := i })
      else scanBack fuel { t with iter := i }

def prev (fuel : Nat) (t : DBIter σ) : Option (DBIter σ) :=
  match t.direction with
  | .reverse => t.findPrevUserEntry inner sequence fuel
  | .forward => do
    let e ← inner.entry t.iter
    let (earlier, t) ← { t with savedKey := extractUserKey e.1.rep }.scanBack inner fuel
    if earlier then findPrevUserEntry inner sequence fuel { t with direction := .reverse }
    else some { t with valid := false, savedKey := ⟨[]⟩, savedValue := [] }

/-- The end of `Seek` and `SeekToFirst`. -/
def settle (fuel : Nat) (t : DBIter σ) : Option (DBIter σ) :=
  if inner.valid t.iter then t.findNextUserEntry inner sequence fuel false
  else some { t with valid := false }

def seek (fuel : Nat) (target : Slice) (t : DBIter σ) : Option (DBIter σ) := do
  let key := (⟨target, sequence, kValueTypeForSeek⟩ : InternalKey Slice).taggedKey
  let i ← inner.step (.seek key) t.iter
  { t with direction := .forward, savedValue := [], savedKey := ⟨key.rep⟩, iter := i }.settle inner
    sequence fuel

def seekToFirst (fuel : Nat) (t : DBIter σ) : Option (DBIter σ) := do
  let i ← inner.step .seekToFirst t.iter
  { t with direction := .forward, savedValue := [], iter := i }.settle inner sequence fuel

def seekToLast (fuel : Nat) (t : DBIter σ) : Option (DBIter σ) := do
  let i ← inner.step .seekToLast t.iter
  { t with direction := .reverse, savedValue := [], iter := i }.findPrevUserEntry inner sequence fuel

/-- `Key` and `Value`, where `Valid`. -/
def entry (t : DBIter σ) : Option (Slice × Bytes) :=
  if t.valid then
    match t.direction with
    | .forward => (inner.entry t.iter).map fun e => (extractUserKey e.1.rep, e.2)
    | .reverse => some (t.savedKey, t.savedValue)
  else none

def iterator (fuel : Nat) : Iterator Slice Bytes (DBIter σ) where
  entry := entry inner
  ok t := t.ok && inner.ok t.iter
  step
    | .seekToFirst, t => t.seekToFirst inner sequence fuel
    | .seekToLast, t => t.seekToLast inner sequence fuel
    | .seek target, t => t.seek inner sequence fuel target
    | .next, t => t.next inner sequence fuel
    | .prev, t => t.prev inner sequence fuel

end

/-! ### What a snapshot shows -/

section snapshot
variable [LinearOrder Slice] {sequence : Nat} {xs before behind rest : List (TaggedKey × Bytes)}
  {e : TaggedKey × Bytes}

/-- The value of an entry, unless it is a deletion. -/
def valueOf (e : TaggedKey × Bytes) : Option Bytes :=
  if e.1.type = some .value then some e.2 else none

/-- The user keys whose newest entry that the snapshot sees is a value, with that value. -/
def snapshotMap (sequence : Nat) (xs : List (TaggedKey × Bytes)) : List (Slice × Bytes) :=
  (xs.map (·.1.userKey)).dedup.filterMap fun u =>
    (Multiversion.read (·.1.userKey) (·.1.sequence) valueOf xs u sequence).map (u, ·)

/-- The keys are in order and parse, and a user key and a sequence number identify an entry. -/
structure Parsed (xs : List (TaggedKey × Bytes)) : Prop where
  sorted : Sorted xs
  parses : ∀ e ∈ xs, e.1.type.isSome
  unique : Multiversion.Unique (·.1.userKey) (·.1.sequence) xs

/-- The entry is what the snapshot shows of its user key. -/
structure Shown (sequence : Nat) (xs : List (TaggedKey × Bytes)) (e : TaggedKey × Bytes) : Prop where
  newest : Multiversion.IsNewest (·.1.userKey) (·.1.sequence) xs e.1.userKey sequence e
  value : e.1.type = some .value

theorem mem_snapshotMap (parsed : Parsed xs) {y : Slice × Bytes} :
    y ∈ snapshotMap sequence xs ↔ ∃ e, Shown sequence xs e ∧ (e.1.userKey, e.2) = y := by
  simp only [snapshotMap, mem_filterMap, mem_dedup, mem_map, Multiversion.read,
    map_eq_some_iff, Option.bind_eq_some_iff]
  constructor
  · rintro ⟨u, -, v, ⟨e, found, isValue⟩, rfl⟩
    have spec := Multiversion.newest_spec found
    obtain rfl := spec.isKey
    rw [valueOf] at isValue
    obtain ⟨value, isValue⟩ := Option.ite_none_right_eq_some.mp isValue
    cases isValue
    exact ⟨e, ⟨spec, value⟩, rfl⟩
  · rintro ⟨e, shown, rfl⟩
    refine ⟨_, ⟨e, shown.newest.mem, rfl⟩, e.2, ⟨e, shown.newest.newest_eq parsed.unique, ?_⟩, rfl⟩
    rw [valueOf, if_pos shown.value]

theorem snapshotMap_sorted (parsed : Parsed xs) : Sorted (snapshotMap sequence xs) := by
  have ordered : (xs.map (·.1.userKey)).Pairwise (· ≤ ·) :=
    pairwise_map.mpr (parsed.sorted.imp TaggedKey.userKey_le)
  have strict : (xs.map (·.1.userKey)).dedup.Pairwise (· < ·) :=
    ((ordered.sublist (dedup_sublist _)).and (nodup_dedup _)).imp fun both =>
      lt_of_le_of_ne both.1 both.2
  refine strict.filterMap _ fun u u' less y isY y' isY' => ?_
  obtain ⟨v, -, rfl⟩ := map_eq_some_iff.mp isY
  obtain ⟨v', -, rfl⟩ := map_eq_some_iff.mp isY'
  exact less

/-- `r` is what the snapshot shows of the first user key with `p`, in the order `R`. -/
def Extreme (sequence : Nat) (xs : List (TaggedKey × Bytes)) (R : Slice → Slice → Prop)
    (p : Slice → Prop) : Option (Slice × Bytes) → Prop
  | none => ∀ e, Shown sequence xs e → ¬ p e.1.userKey
  | some y => ∃ e, Shown sequence xs e ∧ p e.1.userKey ∧ (e.1.userKey, e.2) = y ∧
      ∀ x, Shown sequence xs x → p x.1.userKey → R e.1.userKey x.1.userKey

variable {p : Slice → Prop} {r : Option (Slice × Bytes)} {a b : TaggedKey × Bytes}

theorem Extreme.find (parsed : Parsed xs) [DecidablePred p]
    (extreme : Extreme sequence xs (· ≤ ·) p r) :
    (snapshotMap sequence xs).find? (fun y => p y.1) = r := by
  cases r with
  | none =>
    simp only [find?_eq_none, mem_snapshotMap parsed, decide_eq_true_eq]
    rintro _ ⟨e, shown, rfl⟩
    exact extreme e shown
  | some y =>
    obtain ⟨e, shown, holds, rfl, least⟩ := extreme
    rw [(snapshotMap_sorted parsed).find_eq_some_iff]
    refine ⟨(mem_snapshotMap parsed).mpr ⟨e, shown, rfl⟩, decide_eq_true holds, ?_⟩
    intro y mem holds'
    obtain ⟨x, shown', rfl⟩ := (mem_snapshotMap parsed).mp mem
    exact least x shown' (of_decide_eq_true holds')

theorem Extreme.findLast (parsed : Parsed xs) [DecidablePred p]
    (extreme : Extreme sequence xs (· ≥ ·) p r) :
    (snapshotMap sequence xs).reverse.find? (fun y => p y.1) = r := by
  cases r with
  | none =>
    simp only [find?_eq_none, mem_reverse, mem_snapshotMap parsed, decide_eq_true_eq]
    rintro _ ⟨e, shown, rfl⟩
    exact extreme e shown
  | some y =>
    obtain ⟨e, shown, holds, rfl, greatest⟩ := extreme
    rw [(snapshotMap_sorted parsed).findLast_eq_some_iff]
    refine ⟨(mem_snapshotMap parsed).mpr ⟨e, shown, rfl⟩, decide_eq_true holds, ?_⟩
    intro y mem holds'
    obtain ⟨x, shown', rfl⟩ := (mem_snapshotMap parsed).mp mem
    exact greatest x shown' (of_decide_eq_true holds')

theorem Parsed.front (parsed : Parsed xs) (split : xs = before ++ behind)
    (inFront : a ∈ before) (inBack : b ∈ behind) : a.1 < b.1 :=
  (pairwise_append.mp (split ▸ parsed.sorted)).2.2 a inFront b inBack

theorem Parsed.not_shown (parsed : Parsed xs) (inside : a ∈ xs)
    (visible : a.1.sequence ≤ sequence) (less : a.1 < b.1) (same : a.1.userKey = b.1.userKey) :
    ¬ Shown sequence xs b := by
  intro shown
  have newer := shown.newest.last a inside same visible
  have older := TaggedKey.sequence_ge less same
  have equal := parsed.unique a inside b shown.newest.mem same (le_antisymm newer older)
  exact absurd (equal ▸ less) (lt_irrefl _)

end snapshot

/-! ### The loops -/

section loops
variable [LinearOrder Slice] {inner : Iterator TaggedKey Bytes σ} {sequence fuel : Nat}
  {xs before behind after : List (TaggedKey × Bytes)} {e : TaggedKey × Bytes} {I : σ → Prop}
  {t : DBIter σ} {p : Slice → Prop}

/-- Forward, `iter_` stands at the entry that is shown. In reverse the entry is saved, and `iter_`
stands in front of everything that the snapshot sees from its user key on. -/
def Placed (inner : Iterator TaggedKey Bytes σ) (sequence : Nat) (xs : List (TaggedKey × Bytes))
    (t : DBIter σ) : Prop :=
  match t.direction with
  | .forward => ∃ e, inner.entry t.iter = some e ∧ Shown sequence xs e
  | .reverse => ∃ before behind e, xs = before ++ behind ∧
      inner.entry t.iter = before.getLast? ∧ e ∈ behind ∧ Shown sequence xs e ∧
      t.savedKey = e.1.userKey ∧ t.savedValue = e.2 ∧
      (∀ x ∈ before, x.1.sequence ≤ sequence → x.1.userKey < e.1.userKey) ∧
      ∀ x ∈ behind, x.1.sequence ≤ sequence → e.1.userKey ≤ x.1.userKey

theorem Placed.entry (placed : Placed inner sequence xs t) (valid : t.valid = true) :
    (t.entry inner).isSome = true := by
  rw [DBIter.entry, if_pos valid]
  rw [Placed] at placed
  cases direction : t.direction with
  | forward =>
    rw [direction] at placed
    obtain ⟨e, here, -⟩ := placed
    simp [here]
  | reverse => rfl

structure Stands (inner : Iterator TaggedKey Bytes σ) (sequence : Nat)
    (xs : List (TaggedKey × Bytes)) (I : σ → Prop) (t : DBIter σ) : Prop where
  inv : I t.iter
  ok : t.ok = true
  placed : t.valid = true → Placed inner sequence xs t

/-- `FindNextUserEntry` goes on with `rest`. Of the entries that are shown, it finds the first one
whose user key has `p`. -/
structure Ahead (sequence : Nat) (xs before rest : List (TaggedKey × Bytes)) (skipping : Bool)
    (saved : Slice) (p : Slice → Prop) : Prop where
  passed : ∀ b ∈ before, Shown sequence xs b → ¬ p b.1.userKey
  wanted : ∀ x ∈ rest, Shown sequence xs x →
    (p x.1.userKey ↔ (skipping = true → saved < x.1.userKey))
  least : skipping = true → ∀ x ∈ rest, x.1.sequence ≤ sequence → saved ≤ x.1.userKey
  hidden : ∀ b ∈ before, b.1.sequence ≤ sequence → ∀ x ∈ rest, x.1.sequence ≤ sequence →
    x.1.userKey = b.1.userKey → skipping = true ∧ x.1.userKey ≤ saved

variable {skipping : Bool} {type : ValueType} {pending : Option (TaggedKey × Bytes)}

theorem Ahead.pass {skipping' : Bool} {saved saved' : Slice}
    (ahead : Ahead sequence xs before (e :: after) skipping saved p)
    (notFound : Shown sequence xs e → ¬ p e.1.userKey)
    (wanted : ∀ x ∈ after, Shown sequence xs x →
      ((skipping = true → saved < x.1.userKey) ↔ (skipping' = true → saved' < x.1.userKey)))
    (least : skipping' = true → ∀ x ∈ after, x.1.sequence ≤ sequence → saved' ≤ x.1.userKey)
    (grows : skipping = true → skipping' = true ∧ saved ≤ saved')
    (hidden : e.1.sequence ≤ sequence → skipping' = true ∧ e.1.userKey ≤ saved') :
    Ahead sequence xs (before ++ [e]) after skipping' saved' p where
  passed b mem := by
    obtain mem | mem := mem_append.mp mem
    · exact ahead.passed b mem
    · cases mem_singleton.mp mem
      exact notFound
  wanted x mem shown := (ahead.wanted x (mem_cons_of_mem e mem) shown).trans (wanted x mem shown)
  least := least
  hidden b mem visible x inside visible' same := by
    obtain mem | mem := mem_append.mp mem
    · obtain ⟨skips, atMost⟩ :=
        ahead.hidden b mem visible x (mem_cons_of_mem e inside) visible' same
      exact ⟨(grows skips).1, atMost.trans (grows skips).2⟩
    · cases mem_singleton.mp mem
      exact ⟨(hidden visible).1, same ▸ (hidden visible).2⟩

theorem hide_spec (parsed : Parsed xs) (split : xs = before ++ e :: after)
    (ahead : Ahead sequence xs before (e :: after) skipping t.savedKey p) :
    t.hide sequence skipping e.1 = none ∧ Shown sequence xs e ∧ p e.1.userKey ∨
      ∃ skipping' saved, t.hide sequence skipping e.1 = some (skipping', { t with savedKey := saved }) ∧
        Ahead sequence xs (before ++ [e]) after skipping' saved p := by
  have inside : e ∈ xs := by simp [split]
  have behind : ∀ x ∈ after, e.1 < x.1 := fun x mem =>
    parsed.front (split.trans (append_cons ..)) (by simp) mem
  obtain ⟨type, isType⟩ := isSome_iff_exists.mp (parsed.parses e inside)
  simp only [hide, e.1.parse_eq, isType, map_some]
  by_cases visible : e.1.sequence ≤ sequence
  · simp only [if_pos visible]
    cases type with
    | deletion =>
      refine .inr ⟨true, e.1.userKey, rfl, ahead.pass ?_ ?_ ?_ ?_ ?_⟩
      · intro shown
        cases isType.symm.trans shown.value
      · intro x mem shown
        have later : e.1.userKey < x.1.userKey := lt_of_le_of_ne (TaggedKey.userKey_le (behind x mem))
          fun same => parsed.not_shown inside visible (behind x mem) same shown
        have lower (skips : skipping = true) := ahead.least skips e mem_cons_self visible
        exact ⟨fun _ _ => later, fun _ skips => (lower skips).trans_lt later⟩
      · exact fun _ x mem _ => TaggedKey.userKey_le (behind x mem)
      · exact fun skips => ⟨rfl, ahead.least skips e mem_cons_self visible⟩
      · exact fun _ => ⟨rfl, le_rfl⟩
    | value =>
      by_cases hidden : skipping = true ∧ e.1.userKey ≤ t.savedKey
      · refine .inr ⟨skipping, t.savedKey, by simp [hidden], ahead.pass ?_ ?_ ?_ ?_ ?_⟩
        · intro shown holds
          have above := (ahead.wanted e mem_cons_self shown).mp holds hidden.1
          exact absurd above hidden.2.not_gt
        · exact fun _ _ _ => Iff.rfl
        · exact fun skips x mem => ahead.least skips x (mem_cons_of_mem e mem)
        · exact fun skips => ⟨skips, le_rfl⟩
        · exact fun _ => hidden
      · have shown : Shown sequence xs e := by
          refine ⟨⟨inside, rfl, visible, fun x mem same visible' => ?_⟩, isType⟩
          rw [split] at mem
          obtain mem | mem := mem_append.mp mem
          · exact absurd (ahead.hidden x mem visible' e mem_cons_self visible same.symm) hidden
          · obtain rfl | mem := mem_cons.mp mem
            · exact le_rfl
            · exact TaggedKey.sequence_ge (behind x mem) same.symm
        refine .inl ⟨by simpa using hidden, shown, ?_⟩
        rw [ahead.wanted e mem_cons_self shown]
        exact fun skips => not_le.mp fun atMost => hidden ⟨skips, atMost⟩
  · simp only [if_neg visible]
    refine .inr ⟨skipping, t.savedKey, rfl, ahead.pass ?_ ?_ ?_ ?_ ?_⟩
    · exact fun shown => absurd shown.newest.visible visible
    · exact fun _ _ _ => Iff.rfl
    · exact fun skips x mem => ahead.least skips x (mem_cons_of_mem e mem)
    · exact fun skips => ⟨skips, le_rfl⟩
    · exact fun sees => absurd sees visible

theorem findNextUserEntry_spec (parsed : Parsed xs) (behaves : Behaves inner xs I)
    (split : xs = before ++ e :: after)
    (ahead : Ahead sequence xs before (e :: after) skipping t.savedKey p) (inv : I t.iter)
    (here : inner.entry t.iter = some e) (ok : t.ok = true) (forward : t.direction = .forward)
    (enough : after.length < fuel) :
    ∃ t', t.findNextUserEntry inner sequence fuel skipping = some t' ∧
      Stands inner sequence xs I t' ∧ Extreme sequence xs (· ≤ ·) p (t'.entry inner) := by
  induction fuel generalizing t before e after skipping with
  | zero => omega
  | succ fuel ih =>
    simp only [findNextUserEntry, here, bind_eq_bind, bind_some]
    obtain ⟨yields, shown, holds⟩ | ⟨skipping', saved, goes, ahead'⟩ := hide_spec parsed split ahead
    · rw [yields]
      refine ⟨_, rfl, ⟨inv, ok, fun _ => ?_⟩, ?_⟩
      · simp only [Placed, forward]
        exact ⟨e, here, shown⟩
      · simp only [entry, if_true, forward, here, map_some]
        refine ⟨e, shown, holds, rfl, fun x shown' holds' => ?_⟩
        have mem := shown'.newest.mem
        rw [split] at mem
        obtain mem | mem := mem_append.mp mem
        · exact absurd holds' (ahead.passed x mem shown')
        · obtain rfl | mem := mem_cons.mp mem
          · exact le_rfl
          · exact TaggedKey.userKey_le
              (parsed.front (split.trans (append_cons ..)) (by simp) mem)
    · rw [goes]
      obtain ⟨i, stepped, inv', entry'⟩ := behaves.next parsed.sorted split inv here
      simp only [stepped, bind_some]
      have split' : xs = (before ++ [e]) ++ after := split.trans (append_cons ..)
      cases after with
      | nil =>
        rw [if_neg (by simp [Iterator.valid, entry'])]
        refine ⟨_, rfl, ⟨inv', ok, by simp⟩, ?_⟩
        intro x shown
        have mem := shown.newest.mem
        rw [split', append_nil] at mem
        exact ahead'.passed x mem shown
      | cons x after =>
        rw [if_pos (by simp [Iterator.valid, entry'])]
        exact ih split' ahead' inv' entry' ok forward (by simpa using enough)

/-- The entry that `FindPrevUserEntry` has saved: of what the snapshot sees behind `iter_`, the
newest one of the least user key. -/
structure Kept (sequence : Nat) (xs behind : List (TaggedKey × Bytes)) (p : Slice → Prop)
    (q : TaggedKey × Bytes) : Prop where
  mem : q ∈ behind
  visible : q.1.sequence ≤ sequence
  value : q.1.type = some .value
  holds : p q.1.userKey
  least : ∀ x ∈ behind, x.1.sequence ≤ sequence → q.1.userKey ≤ x.1.userKey
  newest : ∀ x ∈ behind, x.1.userKey = q.1.userKey → x.1.sequence ≤ sequence →
    x.1.sequence ≤ q.1.sequence
  greatest : ∀ x ∈ behind, Shown sequence xs x → p x.1.userKey → x.1.userKey ≤ q.1.userKey

/-- `FindPrevUserEntry` goes on with the last entry of `before`. Of the entries that are shown, it
finds the last one whose user key has `p`. -/
structure Back (sequence : Nat) (xs before behind : List (TaggedKey × Bytes))
    (pending : Option (TaggedKey × Bytes)) (p : Slice → Prop) : Prop where
  below : ∀ x ∈ before, x.1.sequence ≤ sequence → p x.1.userKey
  nothing : pending = none → ∀ x ∈ behind, Shown sequence xs x → ¬ p x.1.userKey
  kept : ∀ q ∈ pending, Kept sequence xs behind p q

/-- `value_type`, `saved_key_` and `saved_value_` are those of the entry. -/
def Saves (pending : Option (TaggedKey × Bytes)) (type : ValueType) (t : DBIter σ) : Prop :=
  match pending with
  | none => type = .deletion
  | some q => type = .value ∧ t.savedKey = q.1.userKey ∧ t.savedValue = q.2

theorem save_spec (parsed : Parsed xs) (split : xs = before ++ e :: behind)
    (saves : Saves pending type t)
    (back : Back sequence xs (before ++ [e]) behind pending p) :
    (t.save sequence type e = none ∧ ∃ q ∈ pending, e.1.userKey < q.1.userKey) ∨
      ∃ type' key value pending', t.save sequence type e =
          some (type', { t with savedKey := key, savedValue := value }) ∧
        Saves pending' type' { t with savedKey := key, savedValue := value } ∧
        Back sequence xs before (e :: behind) pending' p := by
  have inside : e ∈ xs := by simp [split]
  have later : ∀ x ∈ behind, e.1 < x.1 := fun x mem =>
    parsed.front (split.trans (append_cons ..)) (by simp) mem
  have below : ∀ x ∈ before, x.1.sequence ≤ sequence → p x.1.userKey := fun x mem =>
    back.below x (mem_append_left _ mem)
  obtain ⟨type', isType⟩ := isSome_iff_exists.mp (parsed.parses e inside)
  simp only [save, e.1.parse_eq, isType, map_some]
  by_cases visible : e.1.sequence ≤ sequence
  · simp only [if_pos visible]
    by_cases breaks : ∃ q ∈ pending, e.1.userKey < q.1.userKey
    · obtain ⟨q, isPending, less⟩ := breaks
      rw [Option.mem_def.mp isPending] at saves
      exact .inl ⟨by simp [saves.1, saves.2.1, less], q, isPending, less⟩
    · right
      have goesOn : ¬ (type ≠ .deletion ∧ e.1.userKey < t.savedKey) := by
        rintro ⟨isValue, less⟩
        cases isPending : pending with
        | none => exact isValue (isPending ▸ saves :)
        | some q =>
          rw [isPending] at saves
          exact breaks ⟨q, isPending, saves.2.1 ▸ less⟩
      rw [if_neg goesOn]
      -- what is shown behind the entry is of its own user key
      have own : ∀ x ∈ behind, Shown sequence xs x → p x.1.userKey → x.1.userKey ≤ e.1.userKey := by
        intro x mem shown holds
        cases isPending : pending with
        | none => exact absurd holds (back.nothing isPending x mem shown)
        | some q =>
          have atMost := (back.kept q isPending).greatest x mem shown holds
          exact atMost.trans (not_lt.mp fun less => breaks ⟨q, isPending, less⟩)
      cases type' with
      | deletion =>
        refine ⟨.deletion, ⟨[]⟩, [], none, rfl, rfl, below, fun _ x mem shown holds => ?_, nofun⟩
        obtain rfl | mem := mem_cons.mp mem
        · cases isType.symm.trans shown.value
        · have same := le_antisymm (TaggedKey.userKey_le (later x mem)) (own x mem shown holds)
          exact parsed.not_shown inside visible (later x mem) same shown
      | value =>
        refine ⟨.value, e.1.userKey, e.2, some e, rfl, ⟨rfl, rfl, rfl⟩, below, nofun, ?_⟩
        rintro q isE
        cases isE
        refine ⟨mem_cons_self, visible, isType, back.below e (by simp) visible, ?_, ?_, ?_⟩
        · intro x mem _
          obtain rfl | mem := mem_cons.mp mem
          · exact le_rfl
          · exact TaggedKey.userKey_le (later x mem)
        · intro x mem same _
          obtain rfl | mem := mem_cons.mp mem
          · exact le_rfl
          · exact TaggedKey.sequence_ge (later x mem) same.symm
        · intro x mem shown holds
          obtain rfl | mem := mem_cons.mp mem
          · exact le_rfl
          · exact own x mem shown holds
  · simp only [if_neg visible]
    refine .inr ⟨type, t.savedKey, t.savedValue, pending, rfl, saves, below, ?_, ?_⟩
    · intro none x mem shown
      obtain rfl | mem := mem_cons.mp mem
      · exact absurd shown.newest.visible visible
      · exact back.nothing none x mem shown
    · intro q isPending
      obtain ⟨mem, visible', value, holds, least, newest, greatest⟩ := back.kept q isPending
      refine ⟨mem_cons_of_mem e mem, visible', value, holds, ?_, ?_, ?_⟩
      · intro x mem sees
        obtain rfl | mem := mem_cons.mp mem
        · exact absurd sees visible
        · exact least x mem sees
      · intro x mem same sees
        obtain rfl | mem := mem_cons.mp mem
        · exact absurd sees visible
        · exact newest x mem same sees
      · intro x mem shown
        obtain rfl | mem := mem_cons.mp mem
        · exact absurd shown.newest.visible visible
        · exact greatest x mem shown

variable (parsed : Parsed xs) (behaves : Behaves inner xs I)
include parsed behaves

/-- Where the loop of `FindPrevUserEntry` ends: at the front, or in front of the entry it saved. -/
theorem findPrevLoop_spec (split : xs = before ++ e :: behind) (saves : Saves pending type t)
    (back : Back sequence xs (before ++ [e]) behind pending p) (inv : I t.iter)
    (here : inner.entry t.iter = some e) (enough : before.length < fuel) :
    ∃ type' key value i pending' before' behind',
      t.findPrevLoop inner sequence fuel type =
        some (type', { t with savedKey := key, savedValue := value, iter := i }) ∧
      Saves pending' type' { t with savedKey := key, savedValue := value, iter := i } ∧ I i ∧
      xs = before' ++ behind' ∧ inner.entry i = before'.getLast? ∧
      Back sequence xs before' behind' pending' p ∧
      (∀ q ∈ pending', ∀ x ∈ before', x.1.userKey < q.1.userKey) ∧
      (pending' = none → before' = []) := by
  induction fuel generalizing t before e behind type pending with
  | zero => omega
  | succ fuel ih =>
    simp only [findPrevLoop, here, bind_eq_bind, bind_some]
    obtain ⟨breaks, q, isPending, less⟩ | ⟨type', key, value, pending', goes, saves', back'⟩ :=
      save_spec parsed split saves back
    · rw [breaks]
      refine ⟨type, t.savedKey, t.savedValue, t.iter, pending, before ++ [e], behind, rfl, saves, inv,
        split.trans (append_cons ..), by simp [here], back, ?_, ?_⟩
      · intro q' isPending' x mem
        cases isPending.symm.trans isPending'
        obtain mem | mem := mem_append.mp mem
        · exact (TaggedKey.userKey_le (parsed.front split mem (by simp))).trans_lt less
        · cases mem_singleton.mp mem
          exact less
      · intro none
        cases none.symm.trans isPending
    · rw [goes]
      obtain ⟨i, stepped, inv', entry'⟩ := behaves.prev parsed.sorted split inv here
      simp only [stepped, bind_some]
      rcases eq_nil_or_concat before with rfl | ⟨before, x, rfl⟩
      · rw [if_neg (by simp [Iterator.valid, entry'])]
        exact ⟨type', key, value, i, pending', [], e :: behind, rfl, saves', inv', split, entry',
          back', by simp, fun _ => rfl⟩
      · rw [if_pos (by simp [Iterator.valid, entry'])]
        exact ih (t := { t with savedKey := key, savedValue := value, iter := i })
          (by simpa using split) saves' (by simpa using back') inv' (by simpa using entry')
          (by simpa using enough)

theorem findPrevUserEntry_spec
    (split : xs = before ++ behind) (below : ∀ x ∈ before, x.1.sequence ≤ sequence → p x.1.userKey)
    (nothing : ∀ x ∈ behind, Shown sequence xs x → ¬ p x.1.userKey) (inv : I t.iter)
    (here : inner.entry t.iter = before.getLast?) (ok : t.ok = true)
    (reverse : t.direction = .reverse) (enough : before.length ≤ fuel) :
    ∃ t', t.findPrevUserEntry inner sequence fuel = some t' ∧ Stands inner sequence xs I t' ∧
      Extreme sequence xs (· ≥ ·) p (t'.entry inner) := by
  rw [findPrevUserEntry]
  rcases eq_nil_or_concat before with rfl | ⟨before, e, rfl⟩
  · rw [if_neg (by simp [Iterator.valid, here])]
    refine ⟨_, rfl, ⟨inv, ok, by simp⟩, fun x shown => ?_⟩
    have mem := shown.newest.mem
    rw [split, nil_append] at mem
    exact nothing x mem shown
  · simp only [concat_eq_append] at *
    rw [getLast?_concat] at here
    rw [if_pos (by simp [Iterator.valid, here])]
    rw [append_assoc] at split
    obtain ⟨type, key, value, i, pending, front, rest, ran, saves, inv', split', entry', back, above,
      all⟩ := findPrevLoop_spec parsed behaves split (show Saves none .deletion t from rfl)
        ⟨below, fun _ => nothing, by simp⟩ inv here (by simpa using enough)
    simp only [ran, bind_eq_bind, bind_some]
    cases pending with
    | none =>
      cases (saves : type = .deletion)
      refine ⟨_, rfl, ⟨inv', ok, by simp⟩, fun x shown => ?_⟩
      have mem := shown.newest.mem
      rw [split', all rfl, nil_append] at mem
      exact back.nothing rfl x mem shown
    | some q =>
      obtain ⟨isValue, isKey, isValue'⟩ := saves
      cases isValue
      have kept := back.kept q rfl
      have shown : Shown sequence xs q := by
        refine ⟨⟨split' ▸ mem_append_right _ kept.mem, rfl, kept.visible, ?_⟩, kept.value⟩
        intro x mem same sees
        rw [split'] at mem
        obtain mem | mem := mem_append.mp mem
        · exact absurd same (above q rfl x mem).ne
        · exact kept.newest x mem same sees
      refine ⟨_, rfl, ⟨inv', ok, fun _ => ?_⟩, ?_⟩
      · simp only [Placed, reverse]
        exact ⟨front, rest, q, split', entry', kept.mem, shown, isKey, isValue',
          fun x mem _ => above q rfl x mem, kept.least⟩
      · simp only [entry, if_true, reverse]
        refine ⟨q, shown, kept.holds, Prod.ext isKey.symm isValue'.symm, fun x shown' holds => ?_⟩
        have mem := shown'.newest.mem
        rw [split'] at mem
        obtain mem | mem := mem_append.mp mem
        · exact (above q rfl x mem).le
        · exact kept.greatest x mem shown' holds

theorem scanBack_spec
    (split : xs = before ++ e :: behind) (inv : I t.iter) (here : inner.entry t.iter = some e)
    (enough : before.length < fuel) :
    ∃ earlier i, t.scanBack inner fuel = some (earlier, { t with iter := i }) ∧ I i ∧
      ((earlier = false ∧ ∀ x ∈ before, t.savedKey ≤ x.1.userKey) ∨
        earlier = true ∧ ∃ front between, before = front ++ between ∧
          inner.entry i = front.getLast? ∧ (∀ x ∈ front, x.1.userKey < t.savedKey) ∧
          ∀ x ∈ between, t.savedKey ≤ x.1.userKey) := by
  induction fuel generalizing t before e behind with
  | zero => omega
  | succ fuel ih =>
    obtain ⟨i, stepped, inv', entry'⟩ := behaves.prev parsed.sorted split inv here
    simp only [scanBack, stepped, bind_eq_bind, bind_some]
    rcases eq_nil_or_concat before with rfl | ⟨before, x, rfl⟩
    · rw [getLast?_nil] at entry'
      rw [entry']
      exact ⟨false, i, rfl, inv', .inl ⟨rfl, by simp⟩⟩
    · simp only [concat_eq_append, append_assoc, singleton_append,
        getLast?_concat] at split entry' enough ⊢
      rw [entry']
      by_cases less : extractUserKey x.1.rep < t.savedKey
      · simp only [if_pos less]
        refine ⟨true, i, rfl, inv', .inr ⟨rfl, before ++ [x], [], by simp, by simpa using entry', ?_,
          by simp⟩⟩
        intro y mem
        obtain mem | mem := mem_append.mp mem
        · exact (TaggedKey.userKey_le (parsed.front split mem (by simp))).trans_lt less
        · cases mem_singleton.mp mem
          exact less
      · simp only [if_neg less]
        have atLeast : ∀ y ∈ [x], t.savedKey ≤ y.1.userKey := by
          intro y mem
          cases mem_singleton.mp mem
          exact not_lt.mp less
        obtain ⟨earlier, i', ran, inv'', found⟩ := ih (t := { t with iter := i }) split inv' entry'
          (by simpa using enough)
        refine ⟨earlier, i', ran, inv'', found.imp ?_ ?_⟩
        · rintro ⟨isFalse, all⟩
          exact ⟨isFalse, forall_mem_append.mpr ⟨all, atLeast⟩⟩
        · rintro ⟨isTrue, front, between, rfl, entry, below, above⟩
          exact ⟨isTrue, front, between ++ [x], by simp, entry, below,
            forall_mem_append.mpr ⟨above, atLeast⟩⟩

end loops

/-! ### The operations -/

section operations
variable [LinearOrder Slice] {inner : Iterator TaggedKey Bytes σ} {sequence fuel : Nat}
  {xs before behind : List (TaggedKey × Bytes)} {I : σ → Prop} {t : DBIter σ} {p : Slice → Prop}
  {y : Slice × Bytes}

section
variable (parsed : Parsed xs) (behaves : Behaves inner xs I)
include parsed behaves

theorem settle_spec (split : xs = before ++ behind)
    (passed : ∀ x ∈ before, x.1.sequence ≤ sequence → ¬ p x.1.userKey)
    (all : ∀ x ∈ behind, p x.1.userKey) (inv : I t.iter)
    (here : inner.entry t.iter = behind.head?) (ok : t.ok = true) (forward : t.direction = .forward)
    (enough : xs.length < fuel) :
    ∃ t', t.settle inner sequence fuel = some t' ∧ Stands inner sequence xs I t' ∧
      Extreme sequence xs (· ≤ ·) p (t'.entry inner) := by
  rw [settle]
  cases behind with
  | nil =>
    rw [if_neg (by simp [Iterator.valid, here])]
    refine ⟨_, rfl, ⟨inv, ok, by simp⟩, fun x shown => passed x ?_ shown.newest.visible⟩
    simpa [split] using shown.newest.mem
  | cons e after =>
    rw [if_pos (by simp [Iterator.valid, here])]
    have ahead : Ahead sequence xs before (e :: after) false t.savedKey p := by
      refine ⟨fun b mem shown => passed b mem shown.newest.visible, fun x mem _ => ?_, by simp, ?_⟩
      · simpa using all x mem
      · intro b mem visible x inside _ same
        exact absurd (same ▸ all x inside) (passed b mem visible)
    exact findNextUserEntry_spec parsed behaves split ahead inv here ok forward (by
      rw [split] at enough
      simp only [length_append, length_cons] at enough
      omega)

theorem leave_spec (stands : Stands inner sequence xs I t) (shown : t.entry inner = some y) :
    ∃ t' before behind, t.leave inner = some t' ∧ xs = before ++ behind ∧ I t'.iter ∧
      inner.entry t'.iter = behind.head? ∧ t'.ok = true ∧ t'.direction = .forward ∧
      t'.savedKey = y.1 ∧ (∀ x ∈ before, x.1.sequence ≤ sequence → x.1.userKey ≤ y.1) ∧
      ∀ x ∈ behind, x.1.sequence ≤ sequence → y.1 ≤ x.1.userKey := by
  rw [entry] at shown
  obtain ⟨valid, shown⟩ := Option.ite_none_right_eq_some.mp shown
  have placed := stands.placed valid
  rw [leave]
  cases direction : t.direction with
  | forward =>
    simp only [Placed, direction] at placed shown
    obtain ⟨e, here, isShown⟩ := placed
    rw [here, map_some, Option.some.injEq] at shown
    subst shown
    obtain ⟨before, after, split⟩ := append_of_mem isShown.newest.mem
    obtain ⟨i, stepped, inv, entry'⟩ := behaves.next parsed.sorted split stands.inv here
    simp only [here, stepped, bind_eq_bind, bind_some]
    have split' : xs = (before ++ [e]) ++ after := split.trans (append_cons ..)
    refine ⟨_, before ++ [e], after, rfl, split', inv, entry', stands.ok, rfl, rfl, ?_, ?_⟩
    · intro x mem _
      obtain mem | mem := mem_append.mp mem
      · exact TaggedKey.userKey_le (parsed.front split mem (by simp))
      · cases mem_singleton.mp mem
        exact le_rfl
    · exact fun x mem _ => TaggedKey.userKey_le (parsed.front split' (by simp) mem)
  | reverse =>
    simp only [Placed, direction, Option.some.injEq] at placed shown
    obtain ⟨before, behind, e, split, here, -, -, isKey, -, below, above⟩ := placed
    subst shown
    have moves : ∃ i, inner.step (if inner.valid t.iter then .next else .seekToFirst) t.iter =
        some i ∧ I i ∧ inner.entry i = behind.head? := by
      rcases eq_nil_or_concat before with rfl | ⟨front, b, rfl⟩
      · rw [if_neg (by simp [Iterator.valid, here])]
        obtain ⟨i, stepped, inv, entry'⟩ := behaves t.iter .seekToFirst stands.inv rfl
        exact ⟨i, stepped, inv, by rw [entry', split]; rfl⟩
      · rw [concat_eq_append] at split here
        rw [getLast?_concat] at here
        rw [if_pos (by simp [Iterator.valid, here])]
        exact behaves.next parsed.sorted (split.trans (append_assoc ..)) stands.inv here
    obtain ⟨i, stepped, inv, entry'⟩ := moves
    simp only [stepped, bind_eq_bind, bind_some]
    refine ⟨_, before, behind, rfl, split, inv, entry', stands.ok, rfl, rfl, ?_, isKey ▸ above⟩
    exact fun x mem sees => isKey ▸ (below x mem sees).le

theorem next_spec (stands : Stands inner sequence xs I t) (shown : t.entry inner = some y)
    (enough : xs.length < fuel) :
    ∃ t', t.next inner sequence fuel = some t' ∧ Stands inner sequence xs I t' ∧
      Extreme sequence xs (· ≤ ·) (y.1 < ·) (t'.entry inner) := by
  obtain ⟨t', before, behind, left, split, inv, here, ok, forward, isKey, below, above⟩ :=
    leave_spec parsed behaves stands shown
  simp only [next, left, bind_eq_bind, bind_some]
  have passed : ∀ b ∈ before, Shown sequence xs b → ¬ y.1 < b.1.userKey := fun b mem shown =>
    (below b mem shown.newest.visible).not_gt
  cases behind with
  | nil =>
    rw [if_neg (by simp [Iterator.valid, here])]
    refine ⟨_, rfl, ⟨inv, ok, by simp⟩, fun x shown => passed x ?_ shown⟩
    simpa [split] using shown.newest.mem
  | cons e after =>
    rw [if_pos (by simp [Iterator.valid, here])]
    have ahead : Ahead sequence xs before (e :: after) true t'.savedKey (y.1 < ·) := by
      rw [isKey]
      refine ⟨passed, fun x _ _ => by simp, fun _ => above, ?_⟩
      exact fun b mem visible x _ _ same => ⟨rfl, same ▸ below b mem visible⟩
    exact findNextUserEntry_spec parsed behaves split ahead inv here ok forward (by
      rw [split] at enough
      simp only [length_append, length_cons] at enough
      omega)

theorem prev_spec (stands : Stands inner sequence xs I t) (shown : t.entry inner = some y)
    (enough : xs.length < fuel) :
    ∃ t', t.prev inner sequence fuel = some t' ∧ Stands inner sequence xs I t' ∧
      Extreme sequence xs (· ≥ ·) (· < y.1) (t'.entry inner) := by
  rw [entry] at shown
  obtain ⟨valid, shown⟩ := Option.ite_none_right_eq_some.mp shown
  have placed := stands.placed valid
  rw [prev]
  cases direction : t.direction with
  | forward =>
    simp only [Placed, direction] at placed shown
    obtain ⟨e, here, isShown⟩ := placed
    rw [here, map_some, Option.some.injEq] at shown
    subst shown
    obtain ⟨before, after, split⟩ := append_of_mem isShown.newest.mem
    have short : before.length < fuel := by
      rw [split, length_append] at enough
      omega
    have later : ∀ x ∈ e :: after, e.1.userKey ≤ x.1.userKey := by
      intro x mem
      obtain rfl | mem := mem_cons.mp mem
      · exact le_rfl
      · exact TaggedKey.userKey_le
          (parsed.front (split.trans (append_cons ..)) (by simp) mem)
    obtain ⟨earlier, i, ran, inv, found⟩ :=
      scanBack_spec (t := { t with savedKey := extractUserKey e.1.rep }) parsed behaves split
        stands.inv here short
    simp only [direction] at ran
    simp only [here, ran, bind_eq_bind, bind_some]
    obtain ⟨rfl, all⟩ | ⟨rfl, front, between, rfl, entry', below, above⟩ := found
    · refine ⟨_, rfl, ⟨inv, stands.ok, nofun⟩, fun x shown => ?_⟩
      have mem := shown.newest.mem
      rw [split] at mem
      exact (forall_mem_append.mpr ⟨all, later⟩ x mem).not_gt
    · rw [append_assoc] at split
      refine findPrevUserEntry_spec parsed behaves split (fun x mem _ => below x mem) ?_ inv entry'
        stands.ok rfl ?_
      · exact fun x mem _ => (forall_mem_append.mpr ⟨above, later⟩ x mem).not_gt
      · rw [length_append] at short
        omega
  | reverse =>
    simp only [Placed, direction, Option.some.injEq] at placed shown
    obtain ⟨before, behind, e, split, here, -, -, isKey, -, below, above⟩ := placed
    subst shown
    rw [isKey]
    refine findPrevUserEntry_spec parsed behaves split below ?_ stands.inv here stands.ok direction ?_
    · exact fun x mem shown => (above x mem shown.newest.visible).not_gt
    · rw [split, length_append] at enough
      omega

end

theorem userKey_lt_target {target : Slice} (bound : sequence ≤ kMaxSequenceNumber) {k : TaggedKey}
    (parses : k.type.isSome) (visible : k.sequence ≤ sequence)
    (less : k < (⟨target, sequence, kValueTypeForSeek⟩ : InternalKey Slice).taggedKey) :
    k.userKey < target := by
  rw [TaggedKey.lt_def, taggedKey_userKey] at less
  obtain before | ⟨-, tags⟩ := less
  · exact before
  · have tag := k.tag_le parses
    rw [taggedKey_tag bound, tag_eq] at tags
    have code : kValueTypeForSeek.code = 1 := rfl
    simp only [code] at tags
    omega

variable (parsed : Parsed xs) (behaves : Behaves inner xs I) (bound : sequence ≤ kMaxSequenceNumber)
include parsed behaves bound

theorem seek_spec (target : Slice) (inv : I t.iter) (ok : t.ok = true) (enough : xs.length < fuel) :
    ∃ t', t.seek inner sequence fuel target = some t' ∧ Stands inner sequence xs I t' ∧
      Extreme sequence xs (· ≤ ·) (target ≤ ·) (t'.entry inner) := by
  set key := (⟨target, sequence, kValueTypeForSeek⟩ : InternalKey Slice).taggedKey with isKey
  obtain ⟨i, before, behind, stepped, inv', split, less, others, entry'⟩ :=
    behaves.seek parsed.sorted key inv
  simp only [seek, ← isKey, stepped, bind_eq_bind, bind_some]
  refine settle_spec parsed behaves split ?_ ?_ inv' entry' ok rfl enough
  · intro x mem visible
    have parses := parsed.parses x (split ▸ mem_append_left _ mem)
    exact (userKey_lt_target bound parses visible (less x mem)).not_ge
  · intro x mem
    have atLeast := TaggedKey.userKey_mono (others x mem)
    rwa [isKey, taggedKey_userKey] at atLeast

/-- The iterator goes where the cursor over the map of the snapshot goes. -/
theorem iterator_behaves (enough : xs.length < fuel) :
    Behaves (iterator inner sequence fuel) (snapshotMap sequence xs)
      (Stands inner sequence xs I) := by
  intro t op stands allowed
  cases op with
  | seekToFirst =>
    obtain ⟨i, stepped, inv, entry'⟩ := behaves t.iter .seekToFirst stands.inv rfl
    obtain ⟨t', settled, stands', extreme⟩ := settle_spec (p := fun _ => True)
      (t := { t with direction := .forward, savedValue := [], iter := i }) parsed behaves
      (show xs = [] ++ xs from rfl) (fun _ nowhere _ => absurd nowhere not_mem_nil) (by simp) inv
      entry' stands.ok rfl enough
    refine ⟨t', ?_, stands', ?_⟩
    · simpa [iterator, seekToFirst, stepped] using settled
    · exact (extreme.find parsed).symm.trans (find_of_all (by simp))
  | seekToLast =>
    obtain ⟨i, stepped, inv, entry'⟩ := behaves t.iter .seekToLast stands.inv rfl
    obtain ⟨t', found, stands', extreme⟩ := findPrevUserEntry_spec (p := fun _ => True)
      (t := { t with direction := .reverse, savedValue := [], iter := i }) parsed behaves
      (append_nil xs).symm (by simp) (fun _ nowhere _ => absurd nowhere not_mem_nil) inv
      entry' stands.ok rfl enough.le
    refine ⟨t', ?_, stands', ?_⟩
    · simpa [iterator, seekToLast, stepped] using found
    · rw [look, ← List.head?_reverse]
      exact (extreme.findLast parsed).symm.trans (find_of_all (by simp))
  | seek target =>
    obtain ⟨t', stepped, stands', extreme⟩ :=
      seek_spec parsed behaves bound target stands.inv stands.ok enough
    exact ⟨t', stepped, stands', (extreme.find parsed).symm⟩
  | next =>
    obtain ⟨y, shown⟩ := isSome_iff_exists.mp allowed
    obtain ⟨t', stepped, stands', extreme⟩ := next_spec parsed behaves stands shown enough
    refine ⟨t', stepped, stands', ?_⟩
    rw [shown]
    exact (extreme.find parsed).symm
  | prev =>
    obtain ⟨y, shown⟩ := isSome_iff_exists.mp allowed
    obtain ⟨t', stepped, stands', extreme⟩ := prev_spec parsed behaves stands shown enough
    refine ⟨t', stepped, stands', ?_⟩
    rw [shown]
    exact (extreme.findLast parsed).symm

end operations

/-- In every run the iterator is valid where the cursor over the map of the snapshot is, and shows
the same entry. The bound is the one that `PackSequenceAndType` asserts. -/
theorem run_snapshotMap [LinearOrder Slice] (inner : Iterator TaggedKey Bytes σ) (I : σ → Prop)
    (xs : List (TaggedKey × Bytes)) (behaves : Behaves inner xs I) (sorted : Sorted xs)
    (parses : ∀ e ∈ xs, (parseInternalKey e.1.rep).isSome)
    (distinct : xs.Pairwise fun a b => (a.1.userKey, a.1.sequence) ≠ (b.1.userKey, b.1.sequence))
    (sequence : Nat) (bound : sequence ≤ kMaxSequenceNumber) (i : σ) (start : I i) (fuel : Nat)
    (enough : xs.length < fuel) (ops : List (Cursor.Op Slice)) (pos : Option Nat)
    (ran : Cursor.run (snapshotMap sequence xs) none ops = some pos) :
    ∃ t, (iterator inner sequence fuel).run { iter := i } ops = some t ∧ t.valid = pos.isSome ∧
      t.entry inner = entryAt (snapshotMap sequence xs) pos ∧ t.ok = true := by
  have parsed : Parsed xs := by
    refine ⟨sorted, fun e mem => ?_, ?_⟩
    · simpa [e.1.parse_eq] using parses e mem
    · have nodup : (xs.map fun e => (e.1.userKey, e.1.sequence)).Nodup := pairwise_map.mpr distinct
      intro a inA b inB users sequences
      exact inj_on_of_nodup_map nodup inA inB (Prod.ext users sequences)
  obtain ⟨t, ran', stands, same⟩ := (iterator_behaves parsed behaves bound enough).run
    (s := { iter := i }) (snapshotMap_sorted parsed) ⟨start, rfl, nofun⟩ (by simp) rfl ran
  refine ⟨t, ran', ?_, same, stands.ok⟩
  have isSome := isSome_entryAt ((snapshotMap_sorted parsed).run_bound ran (by simp))
  rw [← isSome, ← same, iterator]
  cases valid : t.valid with
  | false => simp [entry, valid]
  | true => exact ((stands.placed valid).entry valid).symm

/-- Of the user key 98 the snapshot 7 sees a deletion, and a newer value that it does not see. -/
def fiveEntries : List (TaggedKey × Bytes) :=
  [(⟨⟨[97]⟩, 5, .value⟩, [1]), (⟨⟨[98]⟩, 9, .value⟩, [2]), (⟨⟨[98]⟩, 3, .deletion⟩, []),
    (⟨⟨[99]⟩, 7, .value⟩, [3]), (⟨⟨[99]⟩, 2, .value⟩, [4])].map fun e : InternalKey Slice × Bytes =>
      (e.1.taggedKey, e.2)

/-- Both directions, with turns at both ends. -/
def turns : List (Cursor.Op Slice) := [.seekToFirst, .next, .prev, .seekToLast, .prev, .next]

theorem run_snapshotMap_turns : letI := bytewiseOrder
    ∃ t, (iterator listIterator 7 6).run { iter := (fiveEntries, none) } turns = some t ∧
      t.valid = true ∧
      (t.entry listIterator).map (fun y => (y.1.data, y.2)) = some ([99], [3]) := by
  have sorted : letI := bytewiseOrder; Sorted fiveEntries := by decide +kernel
  have distinct : fiveEntries.Pairwise fun a b =>
      (a.1.userKey.data, a.1.sequence) ≠ (b.1.userKey.data, b.1.sequence) := by decide +kernel
  have moves : letI := bytewiseOrder; Cursor.run (snapshotMap 7 fiveEntries) none turns =
      some (some 1) := by decide +kernel
  have last : letI := bytewiseOrder; (entryAt (snapshotMap 7 fiveEntries) (some 1)).map
      (fun y => (y.1.data, y.2)) = some ([99], [3]) := by decide +kernel
  let := bytewiseOrder
  obtain ⟨t, ran, valid, shown, -⟩ := run_snapshotMap listIterator _ fiveEntries
    (listIterator_behaves sorted) sorted (by decide)
    (distinct.imp fun differ same => differ (congrArg (fun k => (k.1.data, k.2)) same)) 7
    (by decide)
    (fiveEntries, none) ⟨rfl, by simp⟩ 6 (by decide) turns (some 1) moves
  exact ⟨t, ran, valid, shown ▸ last⟩

end DBIter
end TalusDB
