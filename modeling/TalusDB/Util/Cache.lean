import Mathlib.Algebra.BigOperators.Group.Finset.Basic
import Mathlib.Algebra.BigOperators.Group.Finset.Piecewise
import TalusDB.Lib.Circular
import TalusDB.Util.HandleTable

/-! The LRU cache of `util/cache.cc`. A handle is named by the place of its `Insert` in the history of
its shard; a freed one is no longer on the heap. An operation has no answer (`none`) where the source
would use a freed handle, fail an assertion or not end. -/
namespace TalusDB
open Circular List Function
open Option (bind_eq_bind bind_some)
open UInt64 (ofNat)

/-- What the lists of a shard link: their two dummy heads and the handles. -/
inductive Node where
  | lru
  | inUse
  | null
  | handle (h : Nat)
  deriving DecidableEq, Repr

/-- The part of an `LRUHandle` that does not change. -/
structure CacheItem (ν : Type) where
  key : Bytes
  hash : UInt32
  value : ν
  charge : UInt64

structure LRUHandle (ν : Type) where
  item : CacheItem ν
  inCache : Bool
  refs : UInt32

/-- Why an entry left the table, or never came there. -/
inductive Removal where
  | erased
  | replaced
  | evicted
  | uncached
  deriving DecidableEq, Repr

/-- `LRUCache`, with the heap of its handles and its history: the items of all `Insert` calls, the
handles that left the table, newest first, and the calls of deleters. -/
structure LRUCache (ν : Type) where
  capacity : UInt64
  usage : UInt64
  links : Links Node
  table : HandleTable
  heap : Nat → Option (LRUHandle ν)
  inserted : List (CacheItem ν)
  removed : List (Nat × Removal)
  deleted : List (Nat × Bytes × ν)

namespace LRUCache
variable {ν : Type}

def new (capacity : UInt64) : LRUCache ν :=
  { capacity, usage := 0, links := ⟨id, id⟩, table := .new, heap := fun _ => none
    inserted := [], removed := [], deleted := [] }

/-- `key()` with its assertion `next != this`, and the hash. -/
def keyOf (c : LRUCache ν) (h : Nat) : Option HandleKey := do
  let e ← c.heap h
  if c.links.next (.handle h) = .handle h then none else some ⟨e.item.key, e.item.hash⟩

def setHandle (c : LRUCache ν) (h : Nat) (e : Option (LRUHandle ν)) : LRUCache ν :=
  { c with heap := Function.update c.heap h e }

/-- `LRU_Remove`. -/
def lruRemove (c : LRUCache ν) (h : Nat) : LRUCache ν :=
  { c with links := c.links.remove (.handle h) }

/-- `LRU_Append`. -/
def lruAppend (c : LRUCache ν) (list : Node) (h : Nat) : LRUCache ν :=
  { c with links := c.links.append list (.handle h) }

def ref (c : LRUCache ν) (h : Nat) : Option (LRUCache ν) := do
  let e ← c.heap h
  let c := if e.refs = 1 ∧ e.inCache then (c.lruRemove h).lruAppend .inUse h else c
  some (c.setHandle h (some { e with refs := e.refs + 1 }))

def unref (c : LRUCache ν) (h : Nat) : Option (LRUCache ν) := do
  let e ← c.heap h
  if e.refs = 0 then none
  else
    let refs := e.refs - 1
    if refs = 0 then
      if e.inCache then none
      else
        let k ← c.keyOf h
        some { c.setHandle h none with deleted := c.deleted ++ [(h, k.key, e.item.value)] }
    else
      let c := c.setHandle h (some { e with refs })
      if e.inCache ∧ refs = 1 then some ((c.lruRemove h).lruAppend .lru h) else some c

/-- `FinishErase`, with its result. -/
def finishErase (c : LRUCache ν) (o : Option Nat) (reason : Removal) :
    Option (Bool × LRUCache ν) :=
  match o with
  | none => some (false, c)
  | some h => do
    let e ← c.heap h
    if e.inCache then
      let c := (c.lruRemove h).setHandle h (some { e with inCache := false })
      let c := { c with usage := c.usage - e.item.charge, removed := (h, reason) :: c.removed }
      let c ← c.unref h
      some (true, c)
    else none

def lookup (c : LRUCache ν) (k : HandleKey) : Option (Option Nat × LRUCache ν) := do
  let o ← c.table.lookup c.keyOf k
  match o with
  | none => some (none, c)
  | some h => do
    let c ← c.ref h
    some (some h, c)

def release (c : LRUCache ν) (h : Nat) : Option (LRUCache ν) := c.unref h

/-- The loops of `Insert` and `Prune` over the oldest entry of `lru_`. -/
def evictLoop (goesOn : LRUCache ν → Bool) : Nat → LRUCache ν → Option (LRUCache ν)
  | 0, _ => none
  | fuel + 1, c =>
    if goesOn c then
      match c.links.next .lru with
      | .lru => some c
      | .handle old => do
        let e ← c.heap old
        if e.refs = 1 then
          let k ← c.keyOf old
          let (o, table) ← c.table.remove c.keyOf k
          let (erased, c) ← { c with table }.finishErase o .evicted
          if erased then evictLoop goesOn fuel c else none
        else none
      | .inUse => none
      | .null => none
    else some c

def overCapacity (c : LRUCache ν) : Bool := c.capacity < c.usage

/-- The first part of `Insert`, for a new handle. -/
def enter (c : LRUCache ν) (item : CacheItem ν) : Option (LRUCache ν) :=
  let h := c.inserted.length
  let c : LRUCache ν :=
    { c.setHandle h (some ⟨item, false, 1⟩) with inserted := c.inserted ++ [item] }
  if 0 < c.capacity then do
    let c := (c.setHandle h (some ⟨item, true, 1 + 1⟩)).lruAppend .inUse h
    let c := { c with usage := c.usage + item.charge }
    let (o, table) ← c.table.insert c.keyOf h
    let (_, c) ← { c with table }.finishErase o .replaced
    some c
  else
    -- `next` is read in the assertion of `key()`
    some { c with
      links := c.links.setNext (.handle h) .null, removed := (h, .uncached) :: c.removed }

/-- `Insert`, with the handle that it returns. -/
def insert (c : LRUCache ν) (item : CacheItem ν) : Option (Nat × LRUCache ν) := do
  let entered ← c.enter item
  let left ← entered.evictLoop overCapacity (entered.inserted.length + 1)
  some (c.inserted.length, left)

def erase (c : LRUCache ν) (k : HandleKey) : Option (LRUCache ν) := do
  let (o, table) ← c.table.remove c.keyOf k
  let (_, c) ← { c with table }.finishErase o .erased
  some c

def prune (c : LRUCache ν) : Option (LRUCache ν) :=
  c.evictLoop (fun _ => true) (c.inserted.length + 1)

/-- The charge of a handle, also of one that is freed. -/
def chargeOf (c : LRUCache ν) (h : Nat) : Nat := (c.inserted[h]?.map (·.charge.toNat)).getD 0

/-- The handles on one of the lists, oldest first. -/
def onList (c : LRUCache ν) (head : Node) : List Nat :=
  (c.links.walk head (c.inserted.length + 1) (c.links.next head)).filterMap fun
    | .handle h => some h
    | .lru => none
    | .inUse => none
    | .null => none

/-- The handle of the last `Insert` with this key that has not left the table. -/
def current (c : LRUCache ν) (key : Bytes) : Option Nat :=
  (List.range c.inserted.length).reverse.find? fun h =>
    c.inserted[h]?.any (·.key = key) ∧ h ∉ c.removed.map Prod.fst

/-- What leaves the table in the first part of `Insert`, or never comes there. -/
def displaced (c : LRUCache ν) (item : CacheItem ν) : List (Nat × Removal) :=
  if 0 < c.capacity then (c.current item.key).toList.map (·, .replaced)
  else [(c.inserted.length, .uncached)]

end LRUCache

/-- Two lists of handles that have no handle in common, and the links of the first `n` handles. -/
structure Lists (links : Links Node) (n : Nat) (a b : Node) (xs ys : List Nat) : Prop where
  first : Cycle links a (xs.map .handle)
  second : Cycle links b (ys.map .handle)
  heads : a ≠ b
  firstHead : ∀ h, a ≠ .handle h
  secondHead : ∀ h, b ≠ .handle h
  apart : List.Disjoint xs ys
  linked : ∀ h < n, links.next (.handle h) ≠ .handle h

theorem node_handle_injective : Function.Injective Node.handle := fun _ _ same =>
  Node.handle.inj same

namespace Lists
variable {links : Links Node} {n h : Nat} {a b : Node} {xs ys : List Nat}

variable (lists : Lists links n a b xs ys)
include lists

theorem symm : Lists links n b a ys xs :=
  ⟨lists.second, lists.first, lists.heads.symm, lists.secondHead, lists.firstHead,
    lists.apart.symm, lists.linked⟩

theorem nodup : xs.Nodup :=
  lists.first.distinct.of_cons.of_map _

theorem nodes_apart : ∀ x ∈ b :: ys.map Node.handle, x ∉ a :: xs.map Node.handle := by
  intro x inSecond inFirst
  rcases mem_cons.mp inSecond with rfl | inSecond
  · rcases mem_cons.mp inFirst with same | inFirst
    · exact lists.heads same.symm
    · obtain ⟨y, -, same⟩ := mem_map.mp inFirst
      exact lists.secondHead y same.symm
  · obtain ⟨y, isIn, rfl⟩ := mem_map.mp inSecond
    rcases mem_cons.mp inFirst with same | inFirst
    · exact lists.firstHead y same.symm
    · rw [mem_map_of_injective node_handle_injective] at inFirst
      exact lists.apart inFirst isIn

theorem notMem_nodes (outside : h ∉ xs) : Node.handle h ∉ a :: xs.map Node.handle := by
  rw [mem_cons, mem_map_of_injective node_handle_injective]
  rintro (same | inside)
  · exact lists.firstHead h same.symm
  · exact outside inside

theorem remove (isIn : h ∈ xs) : Lists (links.remove (.handle h)) n a b (xs.erase h) ys := by
  have node : Node.handle h ∈ xs.map Node.handle := mem_map_of_mem isIn
  refine ⟨?_, ?_, lists.heads, lists.firstHead, lists.secondHead, ?_, ?_⟩
  · rw [map_erase node_handle_injective]
    exact lists.first.remove node
  · exact lists.first.remove_other node lists.second lists.nodes_apart
  · exact disjoint_of_subset_left erase_subset lists.apart
  · intro x known
    rw [Links.remove_next]
    split
    · next before =>
      rw [before]
      apply lists.first.next_ne_prev node
      rw [← before]
      exact (lists.firstHead x).symm
    · exact lists.linked x known

theorem append (outside : h ∉ xs) (other : h ∉ ys) {n' : Nat} (known : ∀ x < n', x < n ∨ x = h) :
    Lists (links.append a (.handle h)) n' a b (xs ++ [h]) ys := by
  have fresh := lists.notMem_nodes outside
  refine ⟨?_, ?_, lists.heads, lists.firstHead, lists.secondHead, ?_, ?_⟩
  · rw [map_append]
    exact lists.first.append fresh
  · exact lists.first.append_other fresh lists.second lists.nodes_apart
      (lists.symm.notMem_nodes other)
  · rw [disjoint_append_left]
    exact ⟨lists.apart, singleton_disjoint.mpr other⟩
  · intro x isKnown
    rw [Links.append_next]
    split
    · next last =>
      intro same
      exact fresh (same ▸ last ▸ lists.first.last_mem)
    · split
      · exact lists.firstHead x
      · next notNew =>
        exact lists.linked x ((known x isKnown).resolve_right fun same => notNew (same ▸ rfl))

theorem move (isIn : h ∈ xs) :
    Lists ((links.remove (.handle h)).append b (.handle h)) n a b (xs.erase h) (ys ++ [h]) :=
  ((lists.remove isIn).symm.append (lists.apart isIn) lists.nodup.not_mem_erase
    fun _ known => .inl known).symm

end Lists

namespace LRUCache
variable {ν : Type} {c : LRUCache ν} {entries : Finset Nat} {held : Nat → Nat}
  {lru inUse : List Nat} {h : Nat}

/-- A handle that clients hold so often. -/
def handleOf (inCache : Bool) (held : Nat) (item : CacheItem ν) : LRUHandle ν :=
  ⟨item, inCache, UInt32.ofNat (held + inCache.toNat)⟩

/-- The handles, by who needs them: `entries` are in the table, `held` counts the references of
clients, and the lists are those of `lru_` and `in_use_`. -/
structure Counted (c : LRUCache ν) (entries : Finset Nat) (held : Nat → Nat) (lru inUse : List Nat) :
    Prop where
  lists : Lists c.links c.inserted.length .lru .inUse lru inUse
  mem_lru : ∀ h, h ∈ lru ↔ h ∈ entries ∧ held h = 0
  mem_inUse : ∀ h, h ∈ inUse ↔ h ∈ entries ∧ held h ≠ 0
  known : ∀ h, h ∈ entries ∨ held h ≠ 0 → h < c.inserted.length
  heap : ∀ h, c.heap h = if h ∈ entries ∨ held h ≠ 0 then
    c.inserted[h]?.map (handleOf (decide (h ∈ entries)) (held h)) else none
  usage : c.usage = ofNat (∑ h ∈ entries, c.chargeOf h)
  deletedOnce : (c.deleted.map Prod.fst).Nodup
  mem_deleted : ∀ d, d ∈ c.deleted ↔ ∃ h item, c.inserted[h]? = some item ∧ h ∉ entries ∧
    held h = 0 ∧ d = (h, item.key, item.value)
  mem_removed : ∀ h, h ∈ c.removed.map Prod.fst ↔ h < c.inserted.length ∧ h ∉ entries

/-- These entries left the table, and none came. -/
structure Removes (c c' : LRUCache ν) (gone : List (Nat × Removal)) : Prop where
  inserted : c'.inserted = c.inserted
  removed : c'.removed = gone ++ c.removed

/-- What references do not change. -/
structure Frame (c c' : LRUCache ν) : Prop where
  table : c'.table = c.table
  inserted : c'.inserted = c.inserted
  removed : c'.removed = c.removed
  capacity : c'.capacity = c.capacity

namespace Counted

theorem key_of (counted : Counted c entries held lru inUse) (live : h ∈ entries ∨ held h ≠ 0) :
    c.keyOf h = c.inserted[h]?.map fun item => ⟨item.key, item.hash⟩ := by
  have linked := counted.lists.linked h (counted.known h live)
  rw [keyOf, counted.heap, if_pos live]
  cases c.inserted[h]? with
  | none => rfl
  | some item => simp [linked, handleOf]

variable {entries' : Finset Nat} {held' : Nat → Nat} {item : CacheItem ν} {n : Nat}

theorem deleted_ne (counted : Counted c entries held lru inUse) (live : h ∈ entries ∨ held h ≠ 0) :
    ∀ d ∈ c.deleted, d.1 ≠ h := by
  intro d isIn
  obtain ⟨x, item, -, out, unheld, rfl⟩ := (counted.mem_deleted d).mp isIn
  rintro rfl
  exact live.elim out (· unheld)

theorem changed {c' : LRUCache ν} {lru' inUse' : List Nat} {e : Option (LRUHandle ν)}
    (counted : Counted c entries held lru inUse)
    (sameEntries : ∀ x ≠ h, (x ∈ entries' ↔ x ∈ entries)) (sameHeld : ∀ x ≠ h, held' x = held x)
    (sameItems : ∀ x ≠ h, c'.inserted[x]? = c.inserted[x]?) (isKnown : h < c'.inserted.length)
    (lists : Lists c'.links c'.inserted.length .lru .inUse lru' inUse')
    (mem_lru : ∀ x, x ∈ lru' ↔ if x = h then h ∈ entries' ∧ held' h = 0 else x ∈ lru)
    (mem_inUse : ∀ x, x ∈ inUse' ↔ if x = h then h ∈ entries' ∧ held' h ≠ 0 else x ∈ inUse)
    (sameHeap : c'.heap = Function.update c.heap h e)
    (heap : e = if h ∈ entries' ∨ held' h ≠ 0 then
      c'.inserted[h]?.map (handleOf (decide (h ∈ entries')) (held' h)) else none)
    (usage : c'.usage = ofNat (∑ x ∈ entries', c'.chargeOf x))
    (deletedOnce : (c'.deleted.map Prod.fst).Nodup)
    (mem_deleted : ∀ d, d ∈ c'.deleted ↔ if d.1 = h then ∃ item, c'.inserted[h]? = some item ∧
      h ∉ entries' ∧ held' h = 0 ∧ d = (h, item.key, item.value) else d ∈ c.deleted)
    (mem_removed : ∀ x, x ∈ c'.removed.map Prod.fst ↔
      if x = h then h ∉ entries' else x ∈ c.removed.map Prod.fst) :
    Counted c' entries' held' lru' inUse' := by
  have sameKnown (x : Nat) (other : x ≠ h) : x < c'.inserted.length ↔ x < c.inserted.length := by
    rw [← not_le, ← not_le, ← List.getElem?_eq_none_iff, ← List.getElem?_eq_none_iff,
      sameItems x other]
  refine ⟨lists, fun x => ?_, fun x => ?_, fun x live => ?_, fun x => ?_, usage, deletedOnce,
    fun d => ?_, fun x => ?_⟩
  · rw [mem_lru]
    split
    · next same => rw [same]
    · next other => rw [counted.mem_lru, sameEntries x other, sameHeld x other]
  · rw [mem_inUse]
    split
    · next same => rw [same]
    · next other => rw [counted.mem_inUse, sameEntries x other, sameHeld x other]
  · by_cases same : x = h
    · exact same ▸ isKnown
    · rw [sameEntries x same, sameHeld x same] at live
      exact (sameKnown x same).mpr (counted.known x live)
  · rw [sameHeap]
    by_cases same : x = h
    · rw [same, update_self, heap]
    · rw [update_of_ne same, counted.heap, sameItems x same, sameHeld x same]
      simp only [sameEntries x same]
  · rw [mem_deleted]
    split
    · next same =>
      refine ⟨fun ⟨item, freed⟩ => ⟨h, item, freed⟩, ?_⟩
      rintro ⟨x, item, isItem, out, unheld, rfl⟩
      obtain rfl : x = h := same
      exact ⟨item, isItem, out, unheld, rfl⟩
    · next other =>
      rw [counted.mem_deleted]
      refine exists_congr fun x => exists_congr fun item => ?_
      by_cases same : x = h
      · have differs : d ≠ (x, item.key, item.value) := by
          rintro rfl
          exact other same
        simp [differs]
      · rw [sameItems x same, sameEntries x same, sameHeld x same]
  · rw [mem_removed]
    split
    · next same => simp [same, isKnown]
    · next other => rw [counted.mem_removed, sameKnown x other, sameEntries x other]

theorem deleted_same (freed : ∀ d ∈ c.deleted, d.1 ≠ h) (live : h ∈ entries' ∨ held' h ≠ 0)
    {inserted : List (CacheItem ν)} (d : Nat × Bytes × ν) :
    d ∈ c.deleted ↔ if d.1 = h then ∃ item, inserted[h]? = some item ∧ h ∉ entries' ∧
      held' h = 0 ∧ d = (h, item.key, item.value) else d ∈ c.deleted := by
  split
  · next same =>
    refine ⟨fun isIn => absurd same (freed d isIn), ?_⟩
    rintro ⟨item, -, out, unheld, -⟩
    exact absurd live (by simp [out, unheld])
  · rfl

section
variable (counted : Counted c entries held lru inUse)
include counted

theorem removed_same (isKnown : h < c.inserted.length) (x : Nat) : x ∈ c.removed.map Prod.fst ↔
      if x = h then h ∉ entries else x ∈ c.removed.map Prod.fst := by
  split
  · next same => rw [same, counted.mem_removed, and_iff_right isKnown]
  · rfl

theorem heap_cached (isIn : h ∈ entries) :
    ∃ item, c.inserted[h]? = some item ∧ c.heap h = some (handleOf true (held h) item) := by
  have known := counted.known h (.inl isIn)
  refine ⟨c.inserted[h], List.getElem?_eq_getElem known, ?_⟩
  rw [counted.heap, if_pos (.inl isIn), List.getElem?_eq_getElem known]
  simp [isIn]

theorem heap_detached (out : h ∉ entries) (isHeld : held h ≠ 0) :
    ∃ item, c.inserted[h]? = some item ∧ c.heap h = some (handleOf false (held h) item) := by
  have known := counted.known h (.inr isHeld)
  refine ⟨c.inserted[h], List.getElem?_eq_getElem known, ?_⟩
  rw [counted.heap, if_pos (.inr isHeld), List.getElem?_eq_getElem known]
  simp [out]

theorem recount (isIn : h ∈ entries) (n : Nat)
    (found : c.inserted[h]? = some item) {links : Links Node}
    {lru' inUse' : List Nat} (lists : Lists links c.inserted.length .lru .inUse lru' inUse')
    (mem_lru : ∀ x, x ∈ lru' ↔ if x = h then n = 0 else x ∈ lru)
    (mem_inUse : ∀ x, x ∈ inUse' ↔ if x = h then n ≠ 0 else x ∈ inUse) :
    Counted { c.setHandle h (some (handleOf true n item)) with links } entries
      (Function.update held h n) lru' inUse' := by
  have isKnown := counted.known h (.inl isIn)
  refine counted.changed (fun _ _ => Iff.rfl) (fun x other => update_of_ne other n held)
    (fun _ _ => rfl) isKnown lists (fun x => ?_) (fun x => ?_) rfl ?_ counted.usage
    counted.deletedOnce (deleted_same (counted.deleted_ne (.inl isIn)) (.inl isIn))
    (counted.removed_same isKnown)
  · simpa [isIn] using mem_lru x
  · simpa [isIn] using mem_inUse x
  · simp [isIn, setHandle, found]

end

theorem refs_eq_one (few : n + 1 < 2 ^ 32) (item : CacheItem ν) :
    (handleOf true n item).refs = 1 ↔ n = 0 := by
  rw [← UInt32.toNat_inj]
  simp only [handleOf, Bool.toNat_true, UInt32.toNat_ofNat', UInt32.toNat_one,
    Nat.mod_eq_of_lt few]
  omega

theorem ref (counted : Counted c entries held lru inUse) (isIn : h ∈ entries)
    (few : held h + 2 < 2 ^ 32) :
    ∃ c' inUse', c.ref h = some c' ∧ Frame c c' ∧
      Counted c' entries (Function.update held h (held h + 1)) (lru.erase h) inUse' := by
  obtain ⟨item, found, heap⟩ := counted.heap_cached isIn
  have more : (handleOf true (held h) item).refs + 1 = (handleOf true (held h + 1) item).refs := by
    simp [handleOf, UInt32.ofNat_add]
  have one := refs_eq_one (show held h + 1 < 2 ^ 32 by omega) item
  by_cases idle : held h = 0
  · have onLru : h ∈ lru := (counted.mem_lru h).mpr ⟨isIn, idle⟩
    refine ⟨{ c.setHandle h (some (handleOf true (held h + 1) item)) with
      links := (c.links.remove (.handle h)).append .inUse (.handle h) }, inUse ++ [h], ?_,
      ⟨rfl, rfl, rfl, rfl⟩, ?_⟩
    · rw [LRUCache.ref, heap]
      simp only [bind_eq_bind, bind_some, more]
      rw [if_pos ⟨one.mpr idle, rfl⟩]
      rfl
    · apply counted.recount isIn _ found (counted.lists.move onLru)
      · intro x
        rw [counted.lists.nodup.mem_erase_iff]
        by_cases same : x = h
        · simp [same]
        · simp [same]
      · intro x
        by_cases same : x = h
        · simp [same]
        · simp [same]
  · have notOnLru : h ∉ lru := fun onLru => idle ((counted.mem_lru h).mp onLru).2
    refine ⟨c.setHandle h (some (handleOf true (held h + 1) item)), inUse, ?_,
      ⟨rfl, rfl, rfl, rfl⟩, ?_⟩
    · rw [LRUCache.ref, heap]
      simp only [bind_eq_bind, bind_some, more]
      rw [if_neg fun both => idle (one.mp both.1)]
      rfl
    · rw [erase_of_not_mem notOnLru]
      apply counted.recount isIn _ found counted.lists
      · intro x
        by_cases same : x = h
        · simp [same, notOnLru]
        · simp [same]
      · intro x
        by_cases same : x = h
        · simp [same, counted.mem_inUse, isIn, idle]
        · simp [same]

theorem pred_refs (inCache : Bool) (isHeld : n ≠ 0) (item : CacheItem ν) :
    (handleOf inCache n item).refs - 1 = (handleOf inCache (n - 1) item).refs := by
  obtain ⟨m, rfl⟩ := Nat.exists_eq_succ_of_ne_zero isHeld
  rw [Nat.succ_sub_one, sub_eq_iff_eq_add]
  simp [handleOf, UInt32.ofNat_add, add_right_comm]

theorem refs_eq_zero {inCache : Bool} (few : n + inCache.toNat < 2 ^ 32)
    (item : CacheItem ν) : (handleOf inCache n item).refs = 0 ↔ n = 0 ∧ inCache = false := by
  rw [← UInt32.toNat_inj]
  simp only [handleOf, UInt32.toNat_ofNat', UInt32.toNat_zero, Nat.mod_eq_of_lt few]
  cases inCache <;> simp

section
variable (counted : Counted c entries held lru inUse)
include counted

theorem unref_cached (isIn : h ∈ entries) (isHeld : held h ≠ 0) (few : held h + 1 < 2 ^ 32) :
    ∃ c' inUse', c.unref h = some c' ∧ Frame c c' ∧
      Counted c' entries (Function.update held h (held h - 1))
        (if held h = 1 then lru ++ [h] else lru) inUse' := by
  obtain ⟨item, found, heap⟩ := counted.heap_cached isIn
  have inUseHas : h ∈ inUse := (counted.mem_inUse h).mpr ⟨isIn, isHeld⟩
  have notOnLru : h ∉ lru := fun onLru => isHeld ((counted.mem_lru h).mp onLru).2
  have positive : (handleOf true (held h) item).refs ≠ 0 := by
    rw [Ne, refs_eq_zero (by simpa using few)]
    simp
  have left : (handleOf true (held h - 1) item).refs ≠ 0 := by
    rw [Ne, refs_eq_zero (by simp; omega)]
    simp
  have one := refs_eq_one (show held h - 1 + 1 < 2 ^ 32 by omega) item
  have last : held h - 1 = 0 ↔ held h = 1 := by omega
  by_cases idle : held h = 1
  · refine ⟨{ c.setHandle h (some (handleOf true (held h - 1) item)) with
      links := (c.links.remove (.handle h)).append .lru (.handle h) }, inUse.erase h, ?_,
      ⟨rfl, rfl, rfl, rfl⟩, ?_⟩
    · rw [LRUCache.unref, heap]
      simp only [bind_eq_bind, bind_some, pred_refs true isHeld]
      rw [if_neg positive, if_neg left, if_pos ⟨rfl, one.mpr (last.mpr idle)⟩]
      rfl
    · rw [if_pos idle]
      apply counted.recount isIn _ found (counted.lists.symm.move inUseHas).symm
      · intro x
        by_cases same : x = h
        · simp [same, idle]
        · simp [same]
      · intro x
        rw [counted.lists.symm.nodup.mem_erase_iff]
        by_cases same : x = h
        · simp [same, idle]
        · simp [same]
  · refine ⟨c.setHandle h (some (handleOf true (held h - 1) item)), inUse, ?_,
      ⟨rfl, rfl, rfl, rfl⟩, ?_⟩
    · rw [LRUCache.unref, heap]
      simp only [bind_eq_bind, bind_some, pred_refs true isHeld]
      rw [if_neg positive, if_neg left, if_neg fun both => idle (last.mp (one.mp both.2))]
      rfl
    · rw [if_neg idle]
      apply counted.recount isIn _ found counted.lists
      · intro x
        by_cases same : x = h
        · simp [same, notOnLru, last, idle]
        · simp [same]
      · intro x
        by_cases same : x = h
        · simp [same, inUseHas, last, idle]
        · simp [same]

theorem unref_detached (out : h ∉ entries) (isHeld : held h ≠ 0) (few : held h < 2 ^ 32) :
    ∃ c', c.unref h = some c' ∧ Frame c c' ∧
      Counted c' entries (Function.update held h (held h - 1)) lru inUse := by
  obtain ⟨item, found, heap⟩ := counted.heap_detached out isHeld
  have positive : (handleOf false (held h) item).refs ≠ 0 := by
    rw [Ne, refs_eq_zero (by simpa using few)]
    simp [isHeld]
  have zero := refs_eq_zero (show held h - 1 + false.toNat < 2 ^ 32 by simp; omega) item
  have last : held h - 1 = 0 ↔ held h = 1 := by omega
  have isKnown := counted.known h (.inr isHeld)
  have freed := counted.deleted_ne (.inr isHeld)
  have mem_lru (x : Nat) : x ∈ lru ↔
      if x = h then h ∈ entries ∧ Function.update held h (held h - 1) h = 0 else x ∈ lru := by
    split
    · next same => simp [same, counted.mem_lru, out]
    · rfl
  have mem_inUse (x : Nat) : x ∈ inUse ↔
      if x = h then h ∈ entries ∧ Function.update held h (held h - 1) h ≠ 0 else x ∈ inUse := by
    split
    · next same => simp [same, counted.mem_inUse, out]
    · rfl
  by_cases free : held h = 1
  · have key : c.keyOf h = some ⟨item.key, item.hash⟩ := by
      rw [counted.key_of (.inr isHeld), found]
      rfl
    refine ⟨{ c.setHandle h none with deleted := c.deleted ++ [(h, item.key, item.value)] }, ?_,
      ⟨rfl, rfl, rfl, rfl⟩, counted.changed (fun _ _ => Iff.rfl)
        (fun x other => update_of_ne other _ held) (fun _ _ => rfl) isKnown counted.lists mem_lru
        mem_inUse rfl ?_ counted.usage ?_ (fun d => ?_) (counted.removed_same isKnown)⟩
    · rw [LRUCache.unref, heap]
      simp only [bind_eq_bind, bind_some, pred_refs false isHeld]
      rw [if_neg positive, if_pos (zero.mpr ⟨last.mpr free, rfl⟩), key]
      rfl
    · simp [out, free]
    · rw [map_append, nodup_append_comm]
      refine nodup_cons.mpr ⟨fun isDeleted => ?_, counted.deletedOnce⟩
      obtain ⟨d, isIn, same⟩ := mem_map.mp isDeleted
      exact freed d isIn same
    · rw [mem_append, mem_singleton]
      split
      · next same =>
        have old : d ∉ c.deleted := fun isIn => freed d isIn same
        simp [old, setHandle, found, out, free]
      · next other =>
        refine or_iff_left ?_
        rintro rfl
        exact other rfl
  · refine ⟨c.setHandle h (some (handleOf false (held h - 1) item)), ?_, ⟨rfl, rfl, rfl, rfl⟩,
      counted.changed (fun _ _ => Iff.rfl) (fun x other => update_of_ne other _ held)
        (fun _ _ => rfl) isKnown counted.lists mem_lru mem_inUse rfl ?_ counted.usage
        counted.deletedOnce (deleted_same freed (.inr ?_)) (counted.removed_same isKnown)⟩
    · rw [LRUCache.unref, heap]
      simp only [bind_eq_bind, bind_some, pred_refs false isHeld]
      rw [if_neg positive, if_neg fun none => free (last.mp (zero.mp none).1)]
      simp [handleOf]
    · simp [out, last, free, setHandle, found]
    · simpa [last] using free

theorem detach (isIn : h ∈ entries) (found : c.inserted[h]? = some item) (reason : Removal) :
    Counted { (c.lruRemove h).setHandle h (some { handleOf true (held h) item with inCache := false })
        with usage := c.usage - item.charge, removed := (h, reason) :: c.removed }
      (entries.erase h) (Function.update held h (held h + 1)) (lru.erase h) (inUse.erase h) := by
  have isKnown := counted.known h (.inl isIn)
  refine counted.changed (fun x other => by simp [other]) (fun x other => update_of_ne other _ held)
    (fun _ _ => rfl) isKnown ?_ (fun x => ?_) (fun x => ?_) rfl ?_ ?_ counted.deletedOnce
    (deleted_same (counted.deleted_ne (.inl isIn)) (.inr (by simp))) fun x => ?_
  · by_cases idle : held h = 0
    · have onLru : h ∈ lru := (counted.mem_lru h).mpr ⟨isIn, idle⟩
      rw [erase_of_not_mem (counted.lists.apart onLru)]
      exact counted.lists.remove onLru
    · have busy : h ∈ inUse := (counted.mem_inUse h).mpr ⟨isIn, idle⟩
      rw [erase_of_not_mem (counted.lists.symm.apart busy)]
      exact (counted.lists.symm.remove busy).symm
  · rw [counted.lists.nodup.mem_erase_iff]
    by_cases same : x = h <;> simp [same]
  · rw [counted.lists.symm.nodup.mem_erase_iff]
    by_cases same : x = h <;> simp [same]
  · simp [found, handleOf, setHandle, lruRemove]
  · have total := Finset.add_sum_erase entries c.chargeOf isIn
    have charge : c.chargeOf h = item.charge.toNat := by simp [chargeOf, found]
    change c.usage - item.charge = ofNat (∑ x ∈ entries.erase h, c.chargeOf x)
    rw [counted.usage, ← total, UInt64.ofNat_add, charge, UInt64.ofNat_toNat, add_sub_cancel_left]
  · by_cases same : x = h <;> simp [same]

theorem finishErase (isIn : h ∈ entries) (few : held h + 1 < 2 ^ 32) (reason : Removal) :
    ∃ c', c.finishErase (some h) reason = some (true, c') ∧
      Counted c' (entries.erase h) held (lru.erase h) (inUse.erase h) ∧
      c'.table = c.table ∧ c'.inserted = c.inserted ∧ c'.capacity = c.capacity ∧
      c'.removed = (h, reason) :: c.removed := by
  obtain ⟨item, found, heap⟩ := counted.heap_cached isIn
  have detached := counted.detach isIn found reason
  obtain ⟨c', result, frame, counted'⟩ := detached.unref_detached (h := h)
    (Finset.notMem_erase h entries) (by simp) (by simpa using few)
  have run := congrArg (Option.bind · fun c => some (true, c)) result
  refine ⟨c', Eq.trans ?_ run, ?_, frame.table, frame.inserted, frame.capacity, frame.removed⟩
  · rw [LRUCache.finishErase, heap]
    rfl
  · simpa using counted'

theorem charges_snoc (item : CacheItem ν) :
    ∑ x ∈ entries, (((c.inserted ++ [item])[x]?.map (·.charge.toNat)).getD 0) =
      ∑ x ∈ entries, c.chargeOf x := by
  refine Finset.sum_congr rfl fun x isIn => ?_
  rw [List.getElem?_append_left (counted.known x (.inl isIn)), chargeOf]

theorem fresh : c.inserted.length ∉ entries ∧ held c.inserted.length = 0 := by
  constructor
  · exact fun isIn => (counted.known _ (.inl isIn)).false
  · by_contra isHeld
    exact (counted.known _ (.inr isHeld)).false

end

theorem items_snoc (inserted : List (CacheItem ν)) (item : CacheItem ν) :
    ∀ x ≠ inserted.length, (inserted ++ [item])[x]? = inserted[x]? := by
  intro x other
  rcases lt_or_gt_of_ne other with known | beyond
  · exact List.getElem?_append_left known
  · rw [List.getElem?_eq_none beyond.le, List.getElem?_eq_none (by simpa using beyond)]

variable (counted : Counted c entries held lru inUse)
include counted

theorem deleted_ne_length : ∀ d ∈ c.deleted, d.1 ≠ c.inserted.length := by
  intro d isIn
  obtain ⟨x, item, isItem, -, -, rfl⟩ := (counted.mem_deleted d).mp isIn
  exact (List.getElem?_eq_some_iff.mp isItem).1.ne

theorem attach (item : CacheItem ν) : Counted { c with
        inserted := c.inserted ++ [item]
        heap := Function.update c.heap c.inserted.length (some ⟨item, true, 1 + 1⟩)
        links := c.links.append .inUse (.handle c.inserted.length)
        usage := c.usage + item.charge }
      (Insert.insert c.inserted.length entries) (Function.update held c.inserted.length 1) lru
      (inUse ++ [c.inserted.length]) := by
  obtain ⟨out, unheld⟩ := counted.fresh
  have notLru : c.inserted.length ∉ lru := fun isIn => out ((counted.mem_lru _).mp isIn).1
  have notInUse : c.inserted.length ∉ inUse := fun isIn => out ((counted.mem_inUse _).mp isIn).1
  refine counted.changed (fun x other => by simp [other]) (fun x other => update_of_ne other _ held)
    (items_snoc c.inserted item) (by simp) ?_ (fun x => ?_) (fun x => ?_) rfl ?_ ?_
    counted.deletedOnce (deleted_same counted.deleted_ne_length (.inl (by simp))) fun x => ?_
  · refine (counted.lists.symm.append notInUse notLru fun x known => ?_).symm
    rw [length_append, length_singleton] at known
    omega
  · by_cases same : x = c.inserted.length <;> simp [same, notLru]
  · by_cases same : x = c.inserted.length <;> simp [same]
  · simp [handleOf]
  · change c.usage + item.charge = ofNat (∑ x ∈ Insert.insert c.inserted.length entries, _)
    rw [Finset.sum_insert out, add_comm, UInt64.ofNat_add]
    congr 1
    · simp [chargeOf]
    · rw [counted.usage]
      exact congrArg ofNat (counted.charges_snoc item).symm
  · by_cases same : x = c.inserted.length
    · rw [if_pos same, same, counted.mem_removed]
      simp
    · rw [if_neg same]

theorem create (item : CacheItem ν) : Counted { c with
        inserted := c.inserted ++ [item]
        heap := Function.update c.heap c.inserted.length (some ⟨item, false, 1⟩)
        links := c.links.setNext (.handle c.inserted.length) .null
        removed := (c.inserted.length, .uncached) :: c.removed }
      entries (Function.update held c.inserted.length 1) lru inUse := by
  obtain ⟨out, unheld⟩ := counted.fresh
  have notLru : c.inserted.length ∉ lru := fun isIn => out ((counted.mem_lru _).mp isIn).1
  have notInUse : c.inserted.length ∉ inUse := fun isIn => out ((counted.mem_inUse _).mp isIn).1
  have links := counted.lists
  refine counted.changed (fun _ _ => Iff.rfl) (fun x other => update_of_ne other _ held)
    (items_snoc c.inserted item) (by simp) ⟨?_, ?_, links.heads, links.firstHead, links.secondHead,
      links.apart, fun x known => ?_⟩ (fun x => ?_) (fun x => ?_) rfl ?_ ?_ counted.deletedOnce
    (deleted_same counted.deleted_ne_length (.inr (by simp))) fun x => ?_
  · refine links.first.congr (fun n isIn => update_of_ne ?_ _ _) fun _ _ => rfl
    rintro rfl
    exact links.notMem_nodes notLru isIn
  · refine links.second.congr (fun n isIn => update_of_ne ?_ _ _) fun _ _ => rfl
    rintro rfl
    exact links.symm.notMem_nodes notInUse isIn
  · rw [length_append, length_singleton] at known
    by_cases same : x = c.inserted.length
    · simp [Links.setNext, same]
    · simpa [Links.setNext, same] using links.linked x (by omega)
  · by_cases same : x = c.inserted.length <;> simp [same, notLru, out]
  · by_cases same : x = c.inserted.length <;> simp [same, notInUse, out]
  · simp [handleOf, out]
  · rw [counted.usage]
    exact congrArg ofNat (counted.charges_snoc item).symm
  · by_cases same : x = c.inserted.length <;> simp [same, out]

theorem with_table (table : HandleTable) : Counted { c with table } entries held lru inUse :=
  ⟨counted.lists, counted.mem_lru, counted.mem_inUse, counted.known, counted.heap, counted.usage,
    counted.deletedOnce, counted.mem_deleted, counted.mem_removed⟩

theorem finishErase_option
    (few : ∀ h, held h + 1 < 2 ^ 32) {o : Option Nat} (isIn : ∀ h, o = some h → h ∈ entries)
    (reason : Removal) :
    ∃ c' inUse', c.finishErase o reason = some (o.isSome, c') ∧
      Counted c' (entries.filter (some · ≠ o)) held (lru.filter (some · ≠ o)) inUse' ∧
      c'.table = c.table ∧ c'.inserted = c.inserted ∧ c'.capacity = c.capacity ∧
      c'.removed = o.toList.map (·, reason) ++ c.removed := by
  cases o with
  | none => exact ⟨c, inUse, rfl, by simpa using counted, rfl, rfl, rfl, rfl⟩
  | some h =>
    obtain ⟨c', result, counted', same⟩ := counted.finishErase (isIn h rfl) (few h) reason
    refine ⟨c', inUse.erase h, result, ?_, same⟩
    have without : entries.filter (some · ≠ some h) = entries.erase h := by
      ext x
      simp [and_comm]
    have left : lru.filter (some · ≠ some h) = lru.erase h := by
      rw [counted.lists.nodup.erase_eq_filter]
      refine filter_congr fun x _ => ?_
      by_cases here : x = h <;> simp [here]
    rw [without, left]
    exact counted'

end Counted

/-- The counts, with the entries as the table has them. -/
structure Whole (c : LRUCache ν) (held : Nat → Nat) (lru inUse : List Nat) : Prop where
  counted : Counted c c.table.entries.toFinset held lru inUse
  valid : HandleTable.Valid c.keyOf c.table

namespace Whole

theorem new (capacity : UInt64) : (LRUCache.new capacity : LRUCache ν).Whole (fun _ => 0) [] [] :=
    by
  have empty : HandleTable.new.entries = [] := rfl
  refine ⟨⟨⟨⟨⟨rfl, rfl⟩, by simp⟩, ⟨⟨rfl, rfl⟩, by simp⟩, by simp, by simp, by simp, by simp, ?_⟩, ?_,
    ?_, ?_, ?_, ?_, ?_, ?_, ?_⟩, HandleTable.valid_new _⟩
  all_goals simp [empty, LRUCache.new]

section
variable (whole : Whole c held lru inUse)
include whole

theorem known (isIn : h ∈ c.table.entries) : h < c.inserted.length :=
  whole.counted.known h (.inl (mem_toFinset.mpr isIn))

theorem key_of (isIn : h ∈ c.table.entries) :
    c.keyOf h = c.inserted[h]?.map fun item => ⟨item.key, item.hash⟩ :=
  whole.counted.key_of (.inl (mem_toFinset.mpr isIn))

theorem framed {c' : LRUCache ν} {held' : Nat → Nat} {lru' inUse' : List Nat} (frame : Frame c c')
    (counted : Counted c' c.table.entries.toFinset held' lru' inUse') :
    Whole c' held' lru' inUse' := by
  constructor
  · rw [frame.table]
    exact counted
  · rw [frame.table]
    refine whole.valid.congr fun x isEntry => ?_
    rw [counted.key_of (.inl (mem_toFinset.mpr isEntry)), frame.inserted,
      whole.key_of isEntry]

theorem take (few : ∀ h, held h + 1 < 2 ^ 32) (k : HandleKey) (reason : Removal) :
    ∃ o table c' inUse', c.table.remove c.keyOf k = some (o, table) ∧
      { c with table }.finishErase o reason = some (o.isSome, c') ∧
      HandleTable.Finds c.keyOf c.table.entries k o ∧
      Whole c' held (lru.filter (some · ≠ o)) inUse' ∧ c'.inserted = c.inserted ∧
      c'.capacity = c.capacity ∧ c'.removed = o.toList.map (·, reason) ++ c.removed := by
  obtain ⟨o, table, result, valid, finds, members⟩ := whole.valid.remove k
  have isIn (h : Nat) (isFound : o = some h) : h ∈ c.table.entries.toFinset :=
    mem_toFinset.mpr ((finds h).mp isFound).1
  obtain ⟨c', inUse', erased, counted, sameTable, inserted, capacity, removed⟩ :=
    (whole.counted.with_table table).finishErase_option few isIn reason
  refine ⟨o, table, c', inUse', result, erased, finds, ⟨?_, ?_⟩, inserted, capacity, removed⟩
  · rw [sameTable]
    convert counted using 1
    ext x
    simp [members]
  · rw [sameTable]
    refine valid.congr fun x isEntry => ?_
    have old := (members x).mp isEntry
    rw [whole.key_of old.1, counted.key_of, inserted]
    simp [old]

end

theorem evict (whole : Whole c held (h :: lru) inUse) (few : ∀ h, held h + 1 < 2 ^ 32)
    {goesOn : LRUCache ν → Bool} (go : goesOn c = true) (fuel : Nat) :
    ∃ c' inUse', c.evictLoop goesOn (fuel + 1) = c'.evictLoop goesOn fuel ∧
      Whole c' held lru inUse' ∧ c'.inserted = c.inserted ∧ c'.capacity = c.capacity ∧
      c'.removed = (h, .evicted) :: c.removed := by
  obtain ⟨isEntry, idle⟩ := (whole.counted.mem_lru h).mp mem_cons_self
  obtain ⟨item, found, heap⟩ := whole.counted.heap_cached isEntry
  have isIn : h ∈ c.table.entries := mem_toFinset.mp isEntry
  have next : c.links.next .lru = .handle h := whole.counted.lists.first.next_head
  have key : c.keyOf h = some ⟨item.key, item.hash⟩ := by
    rw [whole.key_of isIn, found]
    rfl
  obtain ⟨o, table, c', inUse', removed, erased, finds, whole', same⟩ :=
    whole.take few ⟨item.key, item.hash⟩ .evicted
  obtain rfl : o = some h := (finds h).mpr ⟨isIn, key⟩
  have others : (h :: lru).filter (some · ≠ some h) = lru := by
    have notIn : h ∉ lru := (nodup_cons.mp whole.counted.lists.nodup).1
    rw [filter_cons_of_neg (by simp), filter_eq_self]
    intro x isLater
    have other : x ≠ h := by
      rintro rfl
      exact notIn isLater
    simpa using other
  rw [others] at whole'
  refine ⟨c', inUse', ?_, whole', same⟩
  have one := (Counted.refs_eq_one (few h) item).mpr idle
  rw [evictLoop, if_pos go, next]
  simp only [heap, bind_eq_bind, bind_some]
  rw [if_pos one, key]
  simp only [bind_some]
  rw [removed]
  simp only [bind_some]
  rw [erased]
  rfl

theorem evictLoop (whole : Whole c held lru inUse) (few : ∀ h, held h + 1 < 2 ^ 32)
    (goesOn : LRUCache ν → Bool) {fuel : Nat} (enough : lru.length < fuel) :
    ∃ evicted left c' inUse', lru = evicted ++ left ∧ c.evictLoop goesOn fuel = some c' ∧
      Whole c' held left inUse' ∧ (goesOn c' = false ∨ left = []) ∧ c'.inserted = c.inserted ∧
      c'.capacity = c.capacity ∧
      c'.removed = (evicted.map (·, Removal.evicted)).reverse ++ c.removed := by
  induction fuel generalizing c lru inUse with
  | zero => exact absurd enough (Nat.not_lt_zero _)
  | succ fuel ih =>
    by_cases go : goesOn c = true
    · cases lru with
      | nil =>
        have next : c.links.next .lru = .lru := whole.counted.lists.first.next_head
        refine ⟨[], [], c, inUse, rfl, ?_, whole, .inr rfl, rfl, rfl, rfl⟩
        rw [LRUCache.evictLoop, if_pos go, next]
      | cons h lru =>
        obtain ⟨c₁, inUse₁, step, whole₁, inserted₁, capacity₁, removed₁⟩ := whole.evict few go fuel
        obtain ⟨evicted, left, c', inUse', rfl, run, whole', stops, inserted, capacity, removed⟩ :=
          ih whole₁ (Nat.lt_of_succ_lt_succ enough)
        refine ⟨h :: evicted, left, c', inUse', rfl, step.trans run, whole', stops,
          inserted.trans inserted₁, capacity.trans capacity₁, ?_⟩
        rw [removed, removed₁]
        simp
    · refine ⟨[], lru, c, inUse, rfl, ?_, whole, .inl (by simpa using go), rfl, rfl, rfl⟩
      rw [LRUCache.evictLoop, if_neg go]

theorem lru_length_lt (whole : Whole c held lru inUse) : lru.length < c.inserted.length + 1 := by
  have within : lru ⊆ List.range c.inserted.length := fun x isIn =>
    mem_range.mpr (whole.counted.known x (.inl ((whole.counted.mem_lru x).mp isIn).1))
  have := (whole.counted.lists.nodup.subperm within).length_le
  rw [length_range] at this
  omega

theorem few_update {n : Nat} (few : ∀ x, held x + 1 < 2 ^ 32) (fits : n + 1 < 2 ^ 32) (x : Nat) :
    Function.update held h n x + 1 < 2 ^ 32 := by
  by_cases here : x = h
  · rw [here, update_self]
    exact fits
  · rw [update_of_ne here]
    exact few x

theorem current_eq (whole : Whole c held lru inUse) {k : HandleKey} {o : Option Nat}
    (hashed : ∀ item ∈ c.inserted, item.key = k.key → item.hash = k.hash)
    (finds : HandleTable.Finds c.keyOf c.table.entries k o) : c.current k.key = o := by
  have meets (h : Nat) (known : h < c.inserted.length) :
      o = some h ↔ c.inserted[h].key = k.key ∧ h ∉ c.removed.map Prod.fst := by
    rw [finds h, whole.counted.mem_removed, mem_toFinset]
    constructor
    · rintro ⟨isIn, key⟩
      rw [whole.key_of isIn, List.getElem?_eq_getElem known] at key
      exact ⟨congrArg HandleKey.key (Option.some.inj key), fun gone => gone.2 isIn⟩
    · rintro ⟨key, present⟩
      have isIn : h ∈ c.table.entries := by
        by_contra out
        exact present ⟨known, out⟩
      refine ⟨isIn, ?_⟩
      have hash := hashed _ (getElem_mem known) key
      rw [whole.key_of isIn, List.getElem?_eq_getElem known, Option.map_some, key, hash]
  rw [current]
  cases found : (List.range c.inserted.length).reverse.find? _ with
  | none =>
    cases o with
    | none => rfl
    | some h =>
      have known : h < c.inserted.length := whole.known ((finds h).mp rfl).1
      have missed := List.find?_eq_none.mp found h (by simpa using known)
      rw [List.getElem?_eq_getElem known] at missed
      exact absurd ((meets h known).mp rfl) (by simpa using missed)
  | some h =>
    have known : h < c.inserted.length := by simpa using mem_of_find?_eq_some found
    have suits := List.find?_some found
    rw [List.getElem?_eq_getElem known] at suits
    exact ((meets h known).mpr (by simpa using suits)).symm

section
variable (whole : Whole c held lru inUse)
include whole

/-- The new entry is in the table and what it replaces is not, or nothing is cached. -/
theorem enter (few : ∀ h, held h + 1 < 2 ^ 32)
    (room : c.table.elems < 2 ^ 31) (item : CacheItem ν)
    (hashed : ∀ old ∈ c.inserted, old.key = item.key → old.hash = item.hash) :
    ∃ c' inUse', c.enter item = some c' ∧
      Whole c' (Function.update held c.inserted.length 1)
        (lru.filter (· ∉ (c.displaced item).map Prod.fst)) inUse' ∧
      c'.inserted = c.inserted ++ [item] ∧ c'.capacity = c.capacity ∧
      c'.removed = c.displaced item ++ c.removed := by
  have notEntry : c.inserted.length ∉ c.table.entries := fun isIn => (whole.known isIn).false
  by_cases caches : 0 < c.capacity
  · have attached := whole.counted.attach item
    have sameKeys (x : Nat) (isIn : x ∈ c.table.entries) :=
      (attached.key_of (h := x) (.inl (by simp [isIn]))).trans
        ((congrArg _ (List.getElem?_append_left (whole.known isIn))).trans (whole.key_of isIn).symm)
    have newKey := attached.key_of (h := c.inserted.length) (.inl (by simp))
    rw [List.getElem?_concat_length] at newKey
    obtain ⟨o, table, result, valid, finds, members⟩ :=
      (whole.valid.congr sameKeys).insert newKey notEntry fun _ => room
    have isIn (h : Nat) (isFound : o = some h) :
        h ∈ Insert.insert c.inserted.length c.table.entries.toFinset := by
      simp [((finds h).mp isFound).1]
    have notNew : some c.inserted.length ≠ o := fun same => notEntry ((finds _).mp same.symm).1
    obtain ⟨c', inUse', erased, counted, sameTable, inserted, capacity, removed⟩ :=
      (attached.with_table table).finishErase_option (few_update few (by decide)) isIn .replaced
    have isCurrent : c.current item.key = o := by
      refine whole.current_eq (k := ⟨item.key, item.hash⟩) hashed fun h => (finds h).trans ?_
      exact and_congr_right fun isOld => by rw [sameKeys h isOld]
    rw [displaced, if_pos caches, isCurrent]
    refine ⟨c', inUse', ?_, ⟨?_, ?_⟩, inserted, capacity, removed⟩
    · refine (if_pos caches).trans ?_
      simp only [setHandle, lruAppend, update_idem, bind_eq_bind]
      rw [result, bind_some, erased]
      rfl
    · rw [sameTable]
      convert counted using 1
      · ext x
        by_cases same : x = c.inserted.length
        · simp [same, members, notNew]
        · simp [same, members]
      · refine filter_congr fun x _ => ?_
        cases o <;> simp [eq_comm]
    · rw [sameTable]
      refine valid.congr fun x isEntry => ?_
      have kept : x ∈ (Insert.insert c.inserted.length c.table.entries.toFinset).filter
          (some · ≠ o) := by
        rcases (members x).mp isEntry with rfl | old
        · simp [notNew]
        · simp [old]
      rw [counted.key_of (.inl kept), inserted]
      exact (attached.key_of (.inl (Finset.mem_of_mem_filter x kept))).symm
  · have created := whole.counted.create item
    have all : lru.filter (· ∉ [(c.inserted.length, Removal.uncached)].map Prod.fst) = lru := by
      rw [filter_eq_self]
      intro x isIn
      have entry := mem_toFinset.mp ((whole.counted.mem_lru x).mp isIn).1
      simpa using (whole.known entry).ne
    rw [displaced, if_neg caches]
    refine ⟨_, inUse, if_neg caches, ⟨?_, ?_⟩, rfl, rfl, rfl⟩
    · rw [all]
      exact created
    · refine whole.valid.congr fun x isIn => ?_
      refine (created.key_of (.inl (mem_toFinset.mpr isIn))).trans ?_
      rw [whole.key_of isIn]
      exact congrArg _ (List.getElem?_append_left (whole.known isIn))

/-- `Insert` gives up the entries that were released longest ago, until the rest fits. -/
theorem insert (few : ∀ h, held h + 1 < 2 ^ 32)
    (room : c.table.elems < 2 ^ 31) (item : CacheItem ν)
    (hashed : ∀ old ∈ c.inserted, old.key = item.key → old.hash = item.hash) :
    ∃ evicted kept c' inUse', c.insert item = some (c.inserted.length, c') ∧
      Whole c' (Function.update held c.inserted.length 1) kept inUse' ∧
      lru.filter (· ∉ (c.displaced item).map Prod.fst) = evicted ++ kept ∧
      (c'.usage ≤ c'.capacity ∨ kept = []) ∧ c'.inserted = c.inserted ++ [item] ∧
      c'.removed = (evicted.map (·, Removal.evicted)).reverse ++ c.displaced item ++ c.removed := by
  obtain ⟨entered, inUse₁, entering, whole₁, inserted₁, -, removed₁⟩ :=
    whole.enter few room item hashed
  obtain ⟨evicted, kept, c', inUse', split, run, whole', stops, inserted, -, removed⟩ :=
    whole₁.evictLoop (few_update few (by decide)) overCapacity whole₁.lru_length_lt
  refine ⟨evicted, kept, c', inUse', ?_, whole', split, ?_, inserted.trans inserted₁, ?_⟩
  · rw [LRUCache.insert, entering, bind_eq_bind, bind_some, run]
    rfl
  · refine stops.imp_left fun fits => ?_
    simpa [overCapacity] using fits
  · rw [removed, removed₁, append_assoc]

theorem lookup (few : ∀ h, held h + 2 < 2 ^ 32) (k : HandleKey) :
    ∃ o c' inUse', c.lookup k = some (o, c') ∧
      HandleTable.Finds c.keyOf c.table.entries k o ∧
      Whole c' (fun x => held x + if o = some x then 1 else 0) (lru.filter (some · ≠ o)) inUse' ∧
      Removes c c' [] := by
  obtain ⟨o, found, finds⟩ := whole.valid.lookup k
  cases o with
  | none =>
    refine ⟨none, c, inUse, ?_, finds, ?_, rfl, rfl⟩
    · rw [LRUCache.lookup, found]
      rfl
    · simpa using whole
  | some h =>
    have isIn : h ∈ c.table.entries := ((finds h).mp rfl).1
    obtain ⟨c', inUse', result, frame, counted⟩ :=
      whole.counted.ref (mem_toFinset.mpr isIn) (few h)
    have sameHeld : Function.update held h (held h + 1) =
        fun x => held x + if some h = some x then 1 else 0 := by
      funext x
      by_cases here : x = h
      · simp [here]
      · simp [here, Ne.symm here]
    have sameLru : lru.filter (some · ≠ some h) = lru.erase h := by
      rw [whole.counted.lists.nodup.erase_eq_filter]
      refine filter_congr fun x _ => ?_
      by_cases here : x = h <;> simp [here]
    refine ⟨some h, c', inUse', ?_, finds, ?_, frame.inserted, frame.removed⟩
    · rw [LRUCache.lookup, found, bind_eq_bind, bind_some]
      exact congrArg (Option.bind · fun c => some (some h, c)) result
    · rw [← sameHeld, sameLru]
      exact whole.framed frame counted

theorem release (few : ∀ h, held h + 1 < 2 ^ 32) (isHeld : held h ≠ 0) :
    ∃ lru' c' inUse', c.release h = some c' ∧
      Whole c' (Function.update held h (held h - 1)) lru' inUse' ∧
      h ∉ lru ∧ (lru' = lru ∨ lru' = lru ++ [h]) ∧ Removes c c' [] := by
  have notOnLru : h ∉ lru := fun onLru => isHeld ((whole.counted.mem_lru h).mp onLru).2
  by_cases isIn : h ∈ c.table.entries.toFinset
  · obtain ⟨c', inUse', result, frame, counted⟩ :=
      whole.counted.unref_cached isIn isHeld (few h)
    refine ⟨_, c', inUse', result, whole.framed frame counted, notOnLru, ?_, frame.inserted,
      frame.removed⟩
    split
    · exact .inr rfl
    · exact .inl rfl
  · obtain ⟨c', result, frame, counted⟩ :=
      whole.counted.unref_detached isIn isHeld (Nat.lt_of_succ_lt (few h))
    exact ⟨lru, c', inUse, result, whole.framed frame counted, notOnLru, .inl rfl, frame.inserted,
      frame.removed⟩

theorem erase (few : ∀ h, held h + 1 < 2 ^ 32) (k : HandleKey)
    (hashed : ∀ item ∈ c.inserted, item.key = k.key → item.hash = k.hash) :
    ∃ lru' c' inUse', c.erase k = some c' ∧ Whole c' held lru' inUse' ∧ lru'.Sublist lru ∧
      Removes c c' ((c.current k.key).toList.map (·, .erased)) := by
  obtain ⟨o, table, c', inUse', removed, erased, finds, whole', inserted, -, gone⟩ :=
    whole.take few k .erased
  rw [whole.current_eq hashed finds]
  refine ⟨_, c', inUse', ?_, whole', filter_sublist, inserted, gone⟩
  rw [LRUCache.erase, removed, bind_eq_bind, bind_some]
  exact congrArg (Option.bind · fun r => some r.2) erased

theorem prune (few : ∀ h, held h + 1 < 2 ^ 32) :
    ∃ c' inUse', c.prune = some c' ∧ Whole c' held [] inUse' ∧
      Removes c c' (lru.map (·, .evicted)).reverse := by
  obtain ⟨evicted, left, c', inUse', rfl, run, whole', stops, inserted, -, removed⟩ :=
    whole.evictLoop few (fun _ => true) whole.lru_length_lt
  obtain rfl : left = [] := stops.resolve_left (by simp)
  rw [append_nil]
  exact ⟨c', inUse', run, whole', inserted, removed⟩

end

theorem onList_eq {links : Links Node} {head : Node} {xs : List Nat}
    (cycle : Cycle links head (xs.map .handle)) (isLinks : c.links = links)
    (enough : xs.length < c.inserted.length + 1) : c.onList head = xs := by
  subst isLinks
  rw [onList, cycle.walk_eq (by simpa using enough), filterMap_map]
  exact filterMap_some

theorem onList_lru (whole : Whole c held lru inUse) : c.onList .lru = lru :=
  onList_eq whole.counted.lists.first rfl whole.lru_length_lt

theorem onList_inUse (whole : Whole c held lru inUse) : c.onList .inUse = inUse := by
  refine onList_eq whole.counted.lists.second rfl ?_
  have within : inUse ⊆ List.range c.inserted.length := fun x isIn =>
    mem_range.mpr (whole.counted.known x (.inl ((whole.counted.mem_inUse x).mp isIn).1))
  have := (whole.counted.lists.symm.nodup.subperm within).length_le
  rw [length_range] at this
  omega

end Whole
end LRUCache
end TalusDB
