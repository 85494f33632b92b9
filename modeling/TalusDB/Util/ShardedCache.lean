import TalusDB.Util.Cache

/-! `ShardedLRUCache` of `util/cache.cc` and its clients, who hold handles and let go of them. -/
namespace TalusDB
open List Function Prod

/-- A handle, with the shard that it belongs to. -/
abbrev CacheHandle := Fin 16 × Nat

structure ShardedLRUCache (ν : Type) where
  shards : Fin 16 → LRUCache ν

namespace ShardedLRUCache
variable {ν : Type}

/-- `NewLRUCache`, with the capacity divided among the shards. -/
def new (capacity : UInt64) : ShardedLRUCache ν := ⟨fun _ => .new ((capacity + (16 - 1)) / 16)⟩

/-- `Shard`: the upper four bits. -/
def shardOf (hash : UInt32) : Fin 16 := Fin.ofNat 16 (hash >>> (32 - 4)).toNat

def set (s : ShardedLRUCache ν) (i : Fin 16) (c : LRUCache ν) : ShardedLRUCache ν :=
  ⟨Function.update s.shards i c⟩

@[simp] theorem set_same (s : ShardedLRUCache ν) (i : Fin 16) (c : LRUCache ν) :
    (s.set i c).shards i = c := by
  simp [set]

theorem set_other (s : ShardedLRUCache ν) {i j : Fin 16} (c : LRUCache ν) (other : j ≠ i) :
    (s.set i c).shards j = s.shards j := by
  simp [set, other]

section functions
-- `HashSlice`, of which only matters that it is a function
variable (hashSlice : Bytes → UInt32)

def insert (s : ShardedLRUCache ν) (key : Bytes) (value : ν) (charge : UInt64) :
    Option (CacheHandle × ShardedLRUCache ν) := do
  let hash := hashSlice key
  let (h, c) ← (s.shards (shardOf hash)).insert ⟨key, hash, value, charge⟩
  some ((shardOf hash, h), s.set (shardOf hash) c)

def lookup (s : ShardedLRUCache ν) (key : Bytes) :
    Option (Option CacheHandle × ShardedLRUCache ν) := do
  let hash := hashSlice key
  let (o, c) ← (s.shards (shardOf hash)).lookup ⟨key, hash⟩
  some (o.map (shardOf hash, ·), s.set (shardOf hash) c)

def erase (s : ShardedLRUCache ν) (key : Bytes) : Option (ShardedLRUCache ν) := do
  let hash := hashSlice key
  let c ← (s.shards (shardOf hash)).erase ⟨key, hash⟩
  some (s.set (shardOf hash) c)

end functions

/-- `Release` takes the shard from the hash in the handle. -/
def release (s : ShardedLRUCache ν) (h : CacheHandle) : Option (ShardedLRUCache ν) := do
  let e ← (s.shards h.1).heap h.2
  let c ← (s.shards (shardOf e.item.hash)).release h.2
  some (s.set (shardOf e.item.hash) c)

def pruneAll (s : ShardedLRUCache ν) : List (Fin 16) → Option (ShardedLRUCache ν)
  | [] => some s
  | i :: rest => do
    let c ← (s.shards i).prune
    (s.set i c).pruneAll rest

def prune (s : ShardedLRUCache ν) : Option (ShardedLRUCache ν) := s.pruneAll (List.finRange 16)

end ShardedLRUCache

/-- What clients do with a cache. -/
inductive CacheOp (ν : Type) where
  | insert (key : Bytes) (value : ν) (charge : UInt64)
  | lookup (key : Bytes)
  | release (h : CacheHandle)
  | erase (key : Bytes)
  | prune

/-- A cache with the handles that its clients hold, and those that they have released, newest first. -/
structure CacheClients (ν : Type) where
  cache : ShardedLRUCache ν
  held : List CacheHandle
  released : List CacheHandle

namespace CacheClients
open ShardedLRUCache
variable {ν : Type} (hashSlice : Bytes → UInt32)

/-- One operation, with the handle that it returns. -/
def step (s : CacheClients ν) : CacheOp ν → Option (Option CacheHandle × CacheClients ν)
  | .insert key value charge => do
    let (h, cache) ← s.cache.insert hashSlice key value charge
    some (some h, { s with cache, held := h :: s.held })
  | .lookup key => do
    let (o, cache) ← s.cache.lookup hashSlice key
    some (o, { s with cache, held := o.toList ++ s.held })
  | .release h => do
    let cache ← s.cache.release h
    some (none, ⟨cache, s.held.erase h, h :: s.released⟩)
  | .erase key => do
    let cache ← s.cache.erase hashSlice key
    some (none, { s with cache })
  | .prune => do
    let cache ← s.cache.prune
    some (none, { s with cache })

/-- The counters of the code have room for one more reference and one more entry. -/
structure Small (s : CacheClients ν) : Prop where
  held : ∀ h, s.held.count h + 2 < 2 ^ 32
  elems : ∀ i, (s.cache.shards i).table.elems < 2 ^ 31

/-- Clients release only what they hold. -/
def Allowed (s : CacheClients ν) (op : CacheOp ν) : Prop :=
  s.Small ∧ ∀ h, op = .release h → h ∈ s.held

/-- The states that clients can bring a new cache to. -/
inductive Reach (capacity : UInt64) : CacheClients ν → Prop
  | new : Reach capacity ⟨.new capacity, [], []⟩
  | step {s s' : CacheClients ν} {op : CacheOp ν} {r : Option CacheHandle} :
      Reach capacity s → s.Allowed op → s.step hashSlice op = some (r, s') → Reach capacity s'

end CacheClients

/-- What holds of a shard between the operations, by the handles that clients hold and those that they
have released. -/
structure Bookkeeping {ν : Type} (c : LRUCache ν) (i : Fin 16) (held released : List CacheHandle) :
    Prop where
  distinct : c.table.entries.Nodup
  usage : c.usage.toNat = (c.table.entries.map c.chargeOf).sum % 2 ^ 64
  lru : ∀ h, h ∈ c.onList .lru ↔ h ∈ c.table.entries ∧ (i, h) ∉ held
  inUse : ∀ h, h ∈ c.onList .inUse ↔ h ∈ c.table.entries ∧ (i, h) ∈ held
  lruOnce : (c.onList .lru).Nodup
  inUseOnce : (c.onList .inUse).Nodup
  heap : ∀ h, (c.heap h).map (·.item) =
    if h ∈ c.table.entries ∨ (i, h) ∈ held then c.inserted[h]? else none
  deletedOnce : (c.deleted.map Prod.fst).Nodup
  deleted : ∀ d, d ∈ c.deleted ↔ ∃ h item, c.inserted[h]? = some item ∧ h ∉ c.table.entries ∧
    (i, h) ∉ held ∧ d = (h, item.key, item.value)
  order : (c.onList .lru).Pairwise fun older newer =>
    released.idxOf (i, newer) < released.idxOf (i, older)
  wereReleased : ∀ h ∈ c.onList .lru, (i, h) ∈ released
  removed : ∀ h, h ∈ c.removed.map Prod.fst ↔ h < c.inserted.length ∧ h ∉ c.table.entries

/-- What an `Insert` does to its shard: the evicted entries are the oldest ones of `lru_`, without an
entry that was replaced. -/
structure Inserts {ν : Type} (c c' : LRUCache ν) (item : CacheItem ν) : Prop where
  inserted : c'.inserted = c.inserted ++ [item]
  fits : c'.usage ≤ c'.capacity ∨ c'.onList .lru = []
  evictions : ∃ evicted,
    c'.removed = (evicted.map (·, Removal.evicted)).reverse ++ c.displaced item ++ c.removed ∧
    (c.onList .lru).filter (· ∉ (c.displaced item).map Prod.fst) = evicted ++ c'.onList .lru

namespace CacheClients
open ShardedLRUCache
variable {ν : Type}

/-- The answer of an operation, and what it adds to the history of each shard. -/
def Outcome (hashSlice : Bytes → UInt32) (s s' : CacheClients ν) (r : Option CacheHandle) :
    CacheOp ν → Prop
  | .insert key value charge =>
    let i := shardOf (hashSlice key)
    r = some (i, (s.cache.shards i).inserted.length) ∧
      Inserts (s.cache.shards i) (s'.cache.shards i) ⟨key, hashSlice key, value, charge⟩ ∧
      ∀ j ≠ i, s'.cache.shards j = s.cache.shards j
  | .lookup key =>
    let i := shardOf (hashSlice key)
    r = ((s.cache.shards i).current key).map (i, ·) ∧
      ∀ j, (s.cache.shards j).Removes (s'.cache.shards j) []
  | .release _ => r = none ∧ ∀ j, (s.cache.shards j).Removes (s'.cache.shards j) []
  | .erase key =>
    let i := shardOf (hashSlice key)
    r = none ∧ ∀ j, (s.cache.shards j).Removes (s'.cache.shards j)
      (if j = i then ((s.cache.shards i).current key).toList.map (·, .erased) else [])
  | .prune => r = none ∧ ∀ j, (s.cache.shards j).Removes (s'.cache.shards j)
      (((s.cache.shards j).onList .lru).map (·, .evicted)).reverse ∧
        (s'.cache.shards j).onList .lru = []

variable {hashSlice : Bytes → UInt32} {s s' : CacheClients ν} {capacity : UInt64} {i : Fin 16}
  {lru inUse : List Nat} {released : List CacheHandle} {c : LRUCache ν} {h : CacheHandle}

/-- The list `lru_` of a shard is in the order of the last releases. -/
structure Ordered (i : Fin 16) (lru : List Nat) (released : List CacheHandle) : Prop where
  order : lru.Pairwise fun older newer => released.idxOf (i, newer) < released.idxOf (i, older)
  were : ∀ x ∈ lru, (i, x) ∈ released

namespace Ordered

theorem sublist {lru' : List Nat} (ordered : Ordered i lru released) (fewer : lru'.Sublist lru) :
    Ordered i lru' released :=
  ⟨ordered.order.sublist fewer, fun x isIn => ordered.were x (fewer.subset isIn)⟩

theorem cons (ordered : Ordered i lru released) (other : ∀ x ∈ lru, (i, x) ≠ h) :
    Ordered i lru (h :: released) := by
  constructor
  · refine ordered.order.imp_of_mem fun {a b} inA inB before => ?_
    rw [idxOf_cons_ne _ (other a inA).symm, idxOf_cons_ne _ (other b inB).symm]
    exact Nat.succ_lt_succ before
  · exact fun x isIn => mem_cons_of_mem h (ordered.were x isIn)

theorem snoc {x : Nat} (ordered : Ordered i lru released) (new : x ∉ lru) :
    Ordered i (lru ++ [x]) ((i, x) :: released) := by
  have other (y : Nat) (isIn : y ∈ lru) : (i, y) ≠ (i, x) := by
    rintro ⟨⟩
    exact new isIn
  have before := ordered.cons other
  constructor
  · refine pairwise_append.mpr ⟨before.order, pairwise_singleton _ x, ?_⟩
    intro y isIn z isLast
    rw [mem_singleton.mp isLast, idxOf_cons_self, idxOf_cons_ne _ (other y isIn).symm]
    exact Nat.succ_pos _
  · intro y isIn
    rcases mem_append.mp isIn with old | last
    · exact before.were y old
    · rw [mem_singleton.mp last]
      exact mem_cons_self

end Ordered

/-- The items of a shard have its hashes. -/
def Placed (hashSlice : Bytes → UInt32) (i : Fin 16) (c : LRUCache ν) : Prop :=
  ∀ item ∈ c.inserted, item.hash = hashSlice item.key ∧ shardOf item.hash = i

theorem Placed.hashed (placed : Placed hashSlice i c) {key : Bytes} :
    ∀ item ∈ c.inserted, item.key = key → item.hash = hashSlice key := by
  intro item isIn same
  rw [(placed item isIn).1, same]

/-- What every operation keeps, for one shard. -/
def Kept (hashSlice : Bytes → UInt32) (held released : List CacheHandle) (i : Fin 16)
    (c : LRUCache ν) : Prop :=
  ∃ lru inUse, c.Whole (fun x => held.count (i, x)) lru inUse ∧ Placed hashSlice i c ∧
    Ordered i lru released

theorem kept_set {held : List CacheHandle}
    (kept : ∀ j, Kept hashSlice s.held s.released j (s.cache.shards j))
    (here : Kept hashSlice held released i c)
    (sameHeld : ∀ j x, j ≠ i → held.count (j, x) = s.held.count (j, x))
    (later : released = s.released ∨ ∃ x, released = (i, x) :: s.released) (j : Fin 16) :
    Kept hashSlice held released j ((s.cache.set i c).shards j) := by
  by_cases same : j = i
  · subst same
    rw [set_same]
    exact here
  · rw [set_other _ _ same]
    obtain ⟨lru, inUse, whole, placed, ordered⟩ := kept j
    refine ⟨lru, inUse, ?_, placed, ?_⟩
    · simpa only [sameHeld j _ same] using whole
    · rcases later with rfl | ⟨x, rfl⟩
      · exact ordered
      · exact ordered.cons fun y _ equal => same (congrArg fst equal)

theorem Placed.removes {c' : LRUCache ν} {gone : List (Nat × Removal)}
    (placed : Placed hashSlice i c) (removes : c.Removes c' gone) : Placed hashSlice i c' := by
  rw [Placed, removes.inserted]
  exact placed

theorem removes_set {gone : List (Nat × Removal)} {cache : ShardedLRUCache ν}
    (removes : (cache.shards i).Removes c gone) (j : Fin 16) :
    (cache.shards j).Removes ((cache.set i c).shards j) (if j = i then gone else []) := by
  by_cases same : j = i
  · subst same
    rwa [set_same, if_pos rfl]
  · rw [set_other _ _ same, if_neg same]
    exact ⟨rfl, rfl⟩

theorem pruneAll_kept (small : s.Small) {shards : List (Fin 16)} (distinct : shards.Nodup)
    {cache : ShardedLRUCache ν} (kept : ∀ j, Kept hashSlice s.held s.released j (cache.shards j)) :
    ∃ cache', cache.pruneAll shards = some cache' ∧
      (∀ j, Kept hashSlice s.held s.released j (cache'.shards j)) ∧
      (∀ j ∈ shards, (cache.shards j).Removes (cache'.shards j)
        (((cache.shards j).onList .lru).map (·, .evicted)).reverse ∧
          (cache'.shards j).onList .lru = []) ∧
      ∀ j ∉ shards, cache'.shards j = cache.shards j := by
  induction shards generalizing cache with
  | nil => exact ⟨cache, rfl, kept, by simp, fun _ _ => rfl⟩
  | cons i rest ih =>
    obtain ⟨lru, inUse, whole, placed, ordered⟩ := kept i
    have few (x : Nat) := Nat.lt_of_succ_lt (small.held (i, x))
    obtain ⟨c', inUse', result, whole', removes⟩ := whole.prune few
    have here : Kept hashSlice s.held s.released i c' :=
      ⟨[], inUse', whole', placed.removes removes, ordered.sublist (nil_sublist lru)⟩
    obtain ⟨notIn, distinct⟩ := nodup_cons.mp distinct
    obtain ⟨cache', run, kept', pruned, same⟩ := @ih distinct (cache.set i c') (@kept_set ν hashSlice
      ⟨cache, s.held, s.released⟩ i s.released c' s.held kept here (fun _ _ _ => rfl) (.inl rfl))
    refine ⟨cache', ?_, kept', ?_, ?_⟩
    · rw [pruneAll, result]
      exact run
    · intro j isIn
      rcases mem_cons.mp isIn with rfl | later
      · rw [same j notIn, set_same, whole.onList_lru, whole'.onList_lru]
        exact ⟨removes, rfl⟩
      · have other : j ≠ i := fun isI => notIn (isI ▸ later)
        have pruned := pruned j later
        rwa [set_other _ _ other] at pruned
    · intro j isOut
      rw [same j fun later => isOut (mem_cons_of_mem i later)]
      exact set_other _ _ fun isI => isOut (isI ▸ mem_cons_self)

section steps
variable (kept : ∀ j, Kept hashSlice s.held s.released j (s.cache.shards j)) (small : s.Small)
include kept small

theorem step_insert (key : Bytes) (value : ν) (charge : UInt64) :
    ∃ r s', s.step hashSlice (.insert key value charge) = some (r, s') ∧
      (∀ j, Kept hashSlice s'.held s'.released j (s'.cache.shards j)) ∧
      Outcome hashSlice s s' r (.insert key value charge) := by
  let i := shardOf (hashSlice key)
  obtain ⟨lru, inUse, whole, placed, ordered⟩ := kept i
  have few (x : Nat) := Nat.lt_of_succ_lt (small.held (i, x))
  obtain ⟨evicted, rest, c', inUse', result, whole', split, fits, inserted, removed⟩ :=
    whole.insert few (small.elems _) ⟨key, hashSlice key, value, charge⟩ placed.hashed
  have fresh := whole.counted.fresh.2
  refine ⟨some (i, (s.cache.shards i).inserted.length), { s with
    cache := s.cache.set i c', held := (i, (s.cache.shards i).inserted.length) :: s.held }, ?_,
    kept_set kept ⟨rest, inUse', ?_, ?_, ?_⟩ ?_ (.inl rfl), rfl, ?_, fun j => set_other _ _⟩
  · rw [step, ShardedLRUCache.insert]
    simp only [Option.bind_eq_bind]
    rw [result]
    rfl
  · convert whole' using 1
    funext x
    by_cases new : x = (s.cache.shards i).inserted.length
    · rw [new, update_self, count_cons_self, fresh]
    · rw [update_of_ne new, count_cons_of_ne (by simpa using Ne.symm new)]
  · intro item isIn
    rw [inserted] at isIn
    rcases mem_append.mp isIn with old | new
    · exact placed item old
    · rw [mem_singleton.mp new]
      exact ⟨rfl, rfl⟩
  · have fewer := sublist_append_right evicted rest
    rw [← split] at fewer
    exact ordered.sublist (fewer.trans filter_sublist)
  · intro j x other
    rw [count_cons_of_ne]
    exact fun same => other (congrArg fst same).symm
  · change Inserts (s.cache.shards i) ((s.cache.set i c').shards i) _
    rw [set_same]
    refine ⟨inserted, ?_, evicted, removed, ?_⟩
    · rw [whole'.onList_lru]
      exact fits
    · rw [whole.onList_lru, whole'.onList_lru]
      exact split

theorem step_lookup (key : Bytes) :
    ∃ r s', s.step hashSlice (.lookup key) = some (r, s') ∧
      (∀ j, Kept hashSlice s'.held s'.released j (s'.cache.shards j)) ∧
      Outcome hashSlice s s' r (.lookup key) := by
  let i := shardOf (hashSlice key)
  obtain ⟨lru, inUse, whole, placed, ordered⟩ := kept i
  obtain ⟨o, c', inUse', result, finds, whole', removes⟩ :=
    whole.lookup (fun x => small.held (i, x)) ⟨key, hashSlice key⟩
  refine ⟨o.map (i, ·), { s with
    cache := s.cache.set i c', held := (o.map (i, ·)).toList ++ s.held }, ?_,
    kept_set kept ⟨lru.filter (some · ≠ o), inUse', ?_, placed.removes removes,
      ordered.sublist filter_sublist⟩ ?_ (.inl rfl), ?_, ?_⟩
  · rw [step, ShardedLRUCache.lookup]
    simp only [Option.bind_eq_bind]
    rw [result]
    rfl
  · convert whole' using 1
    funext x
    cases o with
    | none => simp
    | some h =>
      by_cases found : h = x
      · simp [found]
      · simp [found]
  · intro j x other
    cases o with
    | none => rfl
    | some h =>
      refine count_cons_of_ne ?_
      exact fun same => other (congrArg fst same).symm
  · rw [← whole.current_eq placed.hashed finds]
  · simpa using removes_set removes

theorem step_release (h : CacheHandle) (isHeld : h ∈ s.held) :
    ∃ r s', s.step hashSlice (.release h) = some (r, s') ∧
      (∀ j, Kept hashSlice s'.held s'.released j (s'.cache.shards j)) ∧
      Outcome hashSlice s s' r (.release h) := by
  obtain ⟨i, x⟩ := h
  obtain ⟨lru, inUse, whole, placed, ordered⟩ := kept i
  have few (x : Nat) := Nat.lt_of_succ_lt (small.held (i, x))
  have counts : s.held.count (i, x) ≠ 0 := (count_pos_iff.mpr isHeld).ne'
  have known := whole.counted.known x (.inr counts)
  have heap := whole.counted.heap x
  rw [if_pos (.inr counts), List.getElem?_eq_getElem known] at heap
  have shard := (placed _ (getElem_mem known)).2
  obtain ⟨lru', c', inUse', result, whole', notIn, last, removes⟩ := whole.release few counts
  refine ⟨none, ⟨s.cache.set i c', s.held.erase (i, x), (i, x) :: s.released⟩, ?_,
    kept_set kept ⟨lru', inUse', ?_, placed.removes removes, ?_⟩ ?_ (.inr ⟨x, rfl⟩), rfl,
    by simpa using removes_set removes⟩
  · rw [step, ShardedLRUCache.release, heap]
    simp only [Option.bind_eq_bind, Option.bind_some, Option.map_some, LRUCache.handleOf, shard]
    rw [result]
    rfl
  · convert whole' using 1
    funext y
    by_cases same : y = x
    · rw [same, update_self, count_erase_self]
    · rw [update_of_ne same, count_erase_of_ne (by simpa using same)]
  · rcases last with rfl | rfl
    · refine ordered.cons fun y isIn => ?_
      rintro ⟨⟩
      exact notIn isIn
    · exact ordered.snoc notIn
  · intro j y other
    exact count_erase_of_ne fun same => other (congrArg fst same)

theorem step_erase (key : Bytes) :
    ∃ r s', s.step hashSlice (.erase key) = some (r, s') ∧
      (∀ j, Kept hashSlice s'.held s'.released j (s'.cache.shards j)) ∧
      Outcome hashSlice s s' r (.erase key) := by
  let i := shardOf (hashSlice key)
  obtain ⟨lru, inUse, whole, placed, ordered⟩ := kept i
  have few (x : Nat) := Nat.lt_of_succ_lt (small.held (i, x))
  obtain ⟨lru', c', inUse', result, whole', fewer, removes⟩ :=
    whole.erase few ⟨key, hashSlice key⟩ placed.hashed
  refine ⟨none, { s with cache := s.cache.set i c' }, ?_, kept_set kept ⟨lru', inUse', whole',
    placed.removes removes, ordered.sublist fewer⟩ (fun _ _ _ => rfl) (.inl rfl), rfl,
    removes_set removes⟩
  rw [step, ShardedLRUCache.erase]
  simp only [Option.bind_eq_bind]
  rw [result]
  rfl

theorem step_prune :
    ∃ r s', s.step hashSlice .prune = some (r, s') ∧
      (∀ j, Kept hashSlice s'.held s'.released j (s'.cache.shards j)) ∧
      Outcome hashSlice s s' r .prune := by
  obtain ⟨cache', run, kept', pruned, -⟩ := pruneAll_kept small (nodup_finRange 16) kept
  refine ⟨none, { s with cache := cache' }, ?_, kept', rfl, fun j => pruned j (mem_finRange j)⟩
  rw [step, ShardedLRUCache.prune, run]
  rfl

end steps

theorem step_kept (kept : ∀ j, Kept hashSlice s.held s.released j (s.cache.shards j))
    {op : CacheOp ν} (allowed : s.Allowed op) :
    ∃ r s', s.step hashSlice op = some (r, s') ∧
      (∀ j, Kept hashSlice s'.held s'.released j (s'.cache.shards j)) ∧
      Outcome hashSlice s s' r op := by
  obtain ⟨small, holds⟩ := allowed
  cases op with
  | insert key value charge => exact step_insert kept small key value charge
  | lookup key => exact step_lookup kept small key
  | release h => exact step_release kept small h (holds h rfl)
  | erase key => exact step_erase kept small key
  | prune => exact step_prune kept small

theorem kept_new (capacity : UInt64) (i : Fin 16) :
    @Kept ν hashSlice [] [] i ((ShardedLRUCache.new capacity).shards i) := by
  refine ⟨[], [], LRUCache.Whole.new _, ?_, List.Pairwise.nil, ?_⟩
  · intro item isIn
    exact absurd isIn not_mem_nil
  · intro x isIn
    exact absurd isIn not_mem_nil

theorem Reach.kept (reach : Reach hashSlice capacity s) (j : Fin 16) :
    Kept hashSlice s.held s.released j (s.cache.shards j) := by
  induction reach generalizing j with
  | new => exact kept_new capacity j
  | step reach allowed result ih =>
    obtain ⟨r, s', run, kept, -⟩ := step_kept ih allowed
    obtain ⟨rfl, rfl⟩ := Prod.mk.inj (Option.some.inj (run.symm.trans result))
    exact kept j

theorem Kept.bookkeeping {held : List CacheHandle} (kept : Kept hashSlice held released i c) :
    Bookkeeping c i held released := by
  obtain ⟨lru, inUse, whole, -, ordered⟩ := kept
  have counted := whole.counted
  have isHeld (h : Nat) : held.count (i, h) ≠ 0 ↔ (i, h) ∈ held := by
    rw [← Nat.pos_iff_ne_zero, count_pos_iff]
  have notHeld (h : Nat) : held.count (i, h) = 0 ↔ (i, h) ∉ held := count_eq_zero
  constructor
  · exact whole.valid.nodup
  · rw [counted.usage, sum_toFinset _ whole.valid.nodup, UInt64.toNat_ofNat']
  · intro h
    rw [whole.onList_lru, counted.mem_lru, mem_toFinset, notHeld]
  · intro h
    rw [whole.onList_inUse, counted.mem_inUse, mem_toFinset, isHeld]
  · rw [whole.onList_lru]
    exact counted.lists.nodup
  · rw [whole.onList_inUse]
    exact counted.lists.symm.nodup
  · intro h
    have live : h ∈ c.table.entries.toFinset ∨ held.count (i, h) ≠ 0 ↔
        h ∈ c.table.entries ∨ (i, h) ∈ held := by rw [mem_toFinset, isHeld]
    rw [counted.heap]
    by_cases needed : h ∈ c.table.entries ∨ (i, h) ∈ held
    · rw [if_pos (live.mpr needed), if_pos needed, Option.map_map]
      exact Option.map_id'
    · rw [if_neg (live.not.mpr needed), if_neg needed]
      rfl
  · exact counted.deletedOnce
  · intro d
    simp only [counted.mem_deleted, mem_toFinset, notHeld]
  · rw [whole.onList_lru]
    exact ordered.order
  · rw [whole.onList_lru]
    exact ordered.were
  · intro h
    rw [counted.mem_removed, mem_toFinset]

/-- The books of every shard are right in every state that clients can bring a cache to, and every
operation that they may ask for comes to its end with the right answer. -/
theorem cache_bookkeeping (hashSlice : Bytes → UInt32) (capacity : UInt64) (s : CacheClients ν)
    (reach : Reach hashSlice capacity s) :
    (∀ i, Bookkeeping (s.cache.shards i) i s.held s.released) ∧
      ∀ op, s.Allowed op → ∃ r s', s.step hashSlice op = some (r, s') ∧
        Outcome hashSlice s s' r op := by
  constructor
  · exact fun i => (reach.kept i).bookkeeping
  · intro op allowed
    obtain ⟨r, s', run, -, outcome⟩ := step_kept reach.kept allowed
    exact ⟨r, s', run, outcome⟩

/-- The first of two entries that have half of the largest charge each, and the second. -/
def half : Option (Option CacheHandle × CacheClients Unit) :=
  step (fun _ => 0) ⟨.new 16, [], []⟩ (.insert [0] () (2 ^ 63))

def halves : Option (Option CacheHandle × CacheClients Unit) := do
  let (_, s) ← half
  step (fun _ => 0) s (.insert [1] () (2 ^ 63))

theorem small_new : (⟨.new 16, [], []⟩ : CacheClients Unit).Small :=
  ⟨fun h => by simp, fun i => by simp [new, LRUCache.new, HandleTable.new]⟩

theorem small_half {p : Option CacheHandle × CacheClients Unit} (run : half = some p) :
    p.2.Small := by
  have sizes : half.all fun p => p.2.held.length ≤ 1 ∧
      ∀ i, (p.2.cache.shards i).table.elems < 2 ^ 31 := by decide +kernel
  rw [run] at sizes
  obtain ⟨held, elems⟩ : p.2.held.length ≤ 1 ∧ _ := by simpa using sizes
  refine ⟨fun h => ?_, elems⟩
  have := count_le_length (a := h) (l := p.2.held)
  omega

theorem reach_halves : ∃ r s, halves = some (r, s) ∧ Reach (fun _ => 0) 16 s := by
  have allowed {s : CacheClients Unit} (small : s.Small) (key : Bytes) :
      s.Allowed (.insert key () (2 ^ 63)) := ⟨small, fun h same => nomatch same⟩
  obtain ⟨r₁, s₁, run₁, -⟩ :=
    @step_kept Unit (fun _ => 0) ⟨.new 16, [], []⟩ (kept_new 16) _ (allowed small_new [0])
  have reach₁ := Reach.new.step (allowed small_new [0]) run₁
  have next := allowed (small_half run₁) [1]
  obtain ⟨r, s, run, -⟩ := step_kept reach₁.kept next
  refine ⟨r, s, ?_, reach₁.step next run⟩
  rw [halves, show half = some (r₁, s₁) from run₁]
  exact run

theorem cache_bookkeeping_halves : ∃ r s, halves = some (r, s) ∧
    ∀ i, Bookkeeping (s.cache.shards i) i s.held s.released := by
  obtain ⟨r, s, run, reach⟩ := reach_halves
  exact ⟨r, s, run, (cache_bookkeeping (fun _ => 0) 16 s reach).1⟩

/-- `usage_` has 64 bits, so charges that are large enough leave it at zero. -/
theorem usage_ne_sum : ∃ s : CacheClients Unit, Reach (fun _ => 0) 16 s ∧
    (s.cache.shards 0).usage = 0 ∧
    ((s.cache.shards 0).table.entries.map (s.cache.shards 0).chargeOf).sum = 2 ^ 64 := by
  obtain ⟨r, s, run, reach⟩ := reach_halves
  have shard : halves.map (fun p => ((p.2.cache.shards 0).usage,
      ((p.2.cache.shards 0).table.entries.map (p.2.cache.shards 0).chargeOf).sum)) =
      some (0, 2 ^ 64) := by decide +kernel
  rw [run] at shard
  obtain ⟨usage, sum⟩ := Prod.mk.inj (Option.some.inj shard)
  exact ⟨s, reach, usage, sum⟩

end CacheClients
end TalusDB
