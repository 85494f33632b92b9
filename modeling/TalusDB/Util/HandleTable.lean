import TalusDB.Lib.Chain
import TalusDB.Util.Coding

/-! `HandleTable` of `util/cache.cc`: a hash table whose chains run through the `next_hash` pointers of
the handles. Handles are named by their addresses; `none` is the null pointer. -/
namespace TalusDB
open List Function

/-- What identifies a handle. -/
structure HandleKey where
  key : Bytes
  hash : UInt32
  deriving DecidableEq, Repr

/-- A variable that holds a pointer to a handle: an element of `list_`, or a `next_hash`. -/
inductive Cell where
  | bucket (i : Nat)
  | handle (h : Nat)
  deriving DecidableEq, Repr

/-- `length_`, `elems_` and `list_`, with the `next_hash` of all handles. -/
structure HandleTable where
  length : Nat
  elems : Nat
  list : Nat → Option Nat
  nextHash : Nat → Option Nat

namespace HandleTable

/-- The table that `HandleTable()` makes with its call of `Resize`. -/
def new : HandleTable := ⟨4, 0, fun _ => none, fun _ => none⟩

def read (t : HandleTable) : Cell → Option Nat
  | .bucket i => t.list i
  | .handle h => t.nextHash h

def write (t : HandleTable) (cell : Cell) (p : Option Nat) : HandleTable :=
  match cell with
  | .bucket i => { t with list := Function.update t.list i p }
  | .handle h => { t with nextHash := Function.update t.nextHash h p }

/-- `hash & (length - 1)`. -/
def bucketOf (length : Nat) (hash : UInt32) : Nat := hash.toNat &&& (length - 1)

section functions
variable (keyOf : Nat → Option HandleKey)

/-- The loop of `FindPointer`. A pointer to a handle that is not there has no answer, and neither has a
loop that runs out of fuel. -/
def findFrom (t : HandleTable) (k : HandleKey) : Nat → Cell → Option Cell
  | 0, _ => none
  | fuel + 1, cell =>
    match t.read cell with
    | none => some cell
    | some h =>
      match keyOf h with
      | none => none
      | some found =>
        if found.hash ≠ k.hash ∨ k.key ≠ found.key then t.findFrom k fuel (.handle h) else some cell

def findPointer (t : HandleTable) (k : HandleKey) : Option Cell :=
  t.findFrom keyOf k (t.elems + 1) (.bucket (bucketOf t.length k.hash))

def lookup (t : HandleTable) (k : HandleKey) : Option (Option Nat) := do
  let cell ← t.findPointer keyOf k
  some (t.read cell)

/-- `while (new_length < elems_) new_length *= 2;` in 32 bits. Above 2^31 elements the length becomes 0
and the loop does not end. -/
def growLength (elems : Nat) : Nat → Nat → Option Nat
  | 0, _ => none
  | fuel + 1, newLength =>
    if newLength < elems then growLength elems fuel (newLength * 2 % 2 ^ 32) else some newLength

/-- The inner loop of `Resize`, over the new list and its count. -/
def relink : Nat → Option Nat → HandleTable → Option HandleTable
  | 0, _, _ => none
  | _ + 1, none, t => some t
  | fuel + 1, some h, t =>
    match keyOf h with
    | none => none
    | some k =>
      let next := t.nextHash h
      let cell := Cell.bucket (bucketOf t.length k.hash)
      let t := t.write (.handle h) (t.read cell)
      let t := t.write cell (some h)
      relink fuel next { t with elems := t.elems + 1 }

/-- The outer loop of `Resize`, over the buckets of the old list. -/
def relinkAll (old : HandleTable) : List Nat → HandleTable → Option HandleTable
  | [], t => some t
  | i :: rest, t => do
    let t ← relink keyOf (old.elems + 1) (old.list i) t
    old.relinkAll rest t

def resize (t : HandleTable) : Option HandleTable := do
  let newLength ← growLength t.elems 33 4
  let moved ← t.relinkAll keyOf (List.range t.length) ⟨newLength, 0, fun _ => none, t.nextHash⟩
  if t.elems = moved.elems then some moved else none

/-- `Insert`, with the handle that it replaces. -/
def insert (t : HandleTable) (h : Nat) : Option (Option Nat × HandleTable) := do
  let k ← keyOf h
  let cell ← t.findPointer keyOf k
  let old := t.read cell
  let t := t.write (.handle h) (old.bind t.nextHash)
  let t := t.write cell (some h)
  if old = none then
    let t := { t with elems := (t.elems + 1) % 2 ^ 32 }
    if t.length < t.elems then
      let t ← t.resize keyOf
      some (old, t)
    else some (old, t)
  else some (old, t)

/-- `Remove`, with the handle that is removed. -/
def remove (t : HandleTable) (k : HandleKey) : Option (Option Nat × HandleTable) := do
  let cell ← t.findPointer keyOf k
  match t.read cell with
  | none => some (none, t)
  | some h => some (some h, { t.write cell (t.nextHash h) with elems := t.elems - 1 })

end functions

variable {keyOf keyOf' : Nat → Option HandleKey} {t t' : HandleTable}

theorem read_write (t : HandleTable) (cell other : Cell) (p : Option Nat) :
    (t.write cell p).read other = if other = cell then p else t.read other := by
  cases cell <;> cases other <;> simp [write, read, update_apply]

@[simp] theorem write_length (t : HandleTable) (cell : Cell) (p : Option Nat) :
    (t.write cell p).length = t.length := by
  cases cell <;> rfl

@[simp] theorem write_elems (t : HandleTable) (cell : Cell) (p : Option Nat) :
    (t.write cell p).elems = t.elems := by
  cases cell <;> rfl

/-- The pointer in a cell, as a cell. -/
def pointer (t : HandleTable) (cell : Cell) : Option (Option Cell) := some ((t.read cell).map .handle)

abbrev Leads (t : HandleTable) (cell : Cell) (hs : List Nat) : Prop :=
  Chain.Links t.pointer cell (hs.map .handle)

variable {cell : Cell} {hs before after : List Nat} {i : Nat}

theorem leads_nil : t.Leads cell [] ↔ t.read cell = none := by
  simp [Leads, Chain.Links, pointer]

theorem leads_cons {h : Nat} :
    t.Leads cell (h :: hs) ↔ t.read cell = some h ∧ t.Leads (.handle h) hs := by
  simp [Leads, Chain.Links, pointer]

theorem Leads.read_eq (leads : t.Leads cell hs) : t.read cell = hs.head? := by
  cases hs with
  | nil => exact leads_nil.mp leads
  | cons h hs => exact (leads_cons.mp leads).1

theorem Leads.moved {cell' : Cell} (leads : t.Leads cell hs) (first : t'.read cell' = t.read cell)
    (rest : ∀ h ∈ hs, t'.read (.handle h) = t.read (.handle h)) : t'.Leads cell' hs := by
  apply Chain.Links.moved leads
  · simp [pointer, first]
  · intro other isIn
    obtain ⟨h, inside, rfl⟩ := mem_map.mp isIn
    simp [pointer, rest h inside]

/-- A pointer that leads over these handles. -/
def LeadsFrom (t : HandleTable) (p : Option Nat) : List Nat → Prop
  | [] => p = none
  | h :: hs => p = some h ∧ t.Leads (.handle h) hs

theorem leads_iff : t.Leads cell hs ↔ t.LeadsFrom (t.read cell) hs := by
  cases hs with
  | nil => exact leads_nil
  | cons h hs => exact leads_cons

theorem LeadsFrom.congr {p : Option Nat} (leads : t.LeadsFrom p hs)
    (same : ∀ h ∈ hs, t'.nextHash h = t.nextHash h) : t'.LeadsFrom p hs := by
  cases hs with
  | nil => exact leads
  | cons h hs =>
    refine ⟨leads.1, leads.2.moved (same h mem_cons_self) fun x isIn => ?_⟩
    exact same x (mem_cons_of_mem h isIn)

/-- The cell that holds the pointer behind some handles of a chain. -/
def cellAfter (i : Nat) (before : List Nat) : Cell := (before.map Cell.handle).getLastD (.bucket i)

theorem leads_after
    (leads : t.Leads (.bucket i) (before ++ after)) : t.Leads (cellAfter i before) after := by
  rw [Leads, map_append] at leads
  exact leads.drop

theorem cellAfter_append (i : Nat) (before : List Nat) (h : Nat) :
    cellAfter i (before ++ [h]) = .handle h := by
  simp [cellAfter]

theorem cellAfter_mem (i : Nat) (before : List Nat) :
    cellAfter i before ∈ Cell.bucket i :: before.map .handle :=
  getLastD_mem_cons

theorem handle_ne_cellAfter {x : Nat} (out : x ∉ before) : Cell.handle x ≠ cellAfter i before := by
  intro same
  have inside := cellAfter_mem i before
  rw [← same] at inside
  exact out (by simpa using inside)

theorem Leads.splice {after' : List Nat}
    (leads : t.Leads (.bucket i) (before ++ after)) (distinct : before.Nodup)
    (tail : t'.Leads (cellAfter i before) after')
    (frame : ∀ cell ∈ Cell.bucket i :: before.map .handle, cell ≠ cellAfter i before →
      t'.read cell = t.read cell) : t'.Leads (.bucket i) (before ++ after') := by
  rw [Leads, map_append] at leads ⊢
  refine leads.splice ?_ tail fun cell isIn other => ?_
  · refine nodup_cons.mpr ⟨by simp, ?_⟩
    exact distinct.map fun _ _ same => Cell.handle.inj same
  · simp [pointer, frame cell isIn other]

/-- The handles of the chains of the table. -/
def allOf (length : Nat) (chains : Nat → List Nat) : List Nat := (List.range length).flatMap chains

/-- The chains of the table, with handles that have their keys and stand in the buckets of their
hashes. -/
structure Chained (keyOf : Nat → Option HandleKey) (t : HandleTable) (chains : Nat → List Nat) :
    Prop where
  shape : ∃ n, 2 ≤ n ∧ n ≤ 31 ∧ t.length = 2 ^ n
  leads : ∀ i < t.length, t.Leads (.bucket i) (chains i)
  placed : ∀ i, ∀ h ∈ chains i, ∃ k, keyOf h = some k ∧ bucketOf t.length k.hash = i
  distinct : ∀ i, (chains i).Nodup

namespace Chained
variable {chains : Nat → List Nat}

theorem bucketOf_lt (chained : Chained keyOf t chains) (hash : UInt32) :
    bucketOf t.length hash < t.length := by
  obtain ⟨n, -, -, length⟩ := chained.shape
  rw [bucketOf, length, Nat.and_two_pow_sub_one_eq_mod]
  exact Nat.mod_lt _ (Nat.two_pow_pos n)

variable {i h : Nat}

variable (chained : Chained keyOf t chains)
include chained

theorem bucket_lt (isIn : h ∈ chains i) : i < t.length := by
  obtain ⟨k, -, rfl⟩ := chained.placed i h isIn
  exact chained.bucketOf_lt k.hash

theorem mem_all : h ∈ allOf t.length chains ↔ ∃ i, h ∈ chains i := by
  rw [allOf, mem_flatMap]
  constructor
  · rintro ⟨i, -, isIn⟩
    exact ⟨i, isIn⟩
  · rintro ⟨i, isIn⟩
    exact ⟨i, mem_range.mpr (chained.bucket_lt isIn), isIn⟩

theorem bucket_eq {j : Nat} (left : h ∈ chains i) (right : h ∈ chains j) : i = j := by
  obtain ⟨k, key, rfl⟩ := chained.placed i h left
  obtain ⟨k', key', rfl⟩ := chained.placed j h right
  rw [key] at key'
  cases key'
  rfl

theorem mem_bucket {k : HandleKey} (isIn : h ∈ allOf t.length chains) (key : keyOf h = some k) :
    h ∈ chains (bucketOf t.length k.hash) := by
  obtain ⟨i, inside⟩ := chained.mem_all.mp isIn
  obtain ⟨k', key', rfl⟩ := chained.placed i h inside
  rw [key] at key'
  cases key'
  exact inside

theorem all_nodup : (allOf t.length chains).Nodup := by
  refine nodup_flatMap.mpr ⟨fun i _ => chained.distinct i, ?_⟩
  refine nodup_range.imp fun {i j} other h left right => ?_
  exact other (chained.bucket_eq left right)

theorem chain_length_le (i : Nat) : (chains i).length ≤ (allOf t.length chains).length := by
  refine ((chained.distinct i).subperm fun h isIn => ?_).length_le
  exact chained.mem_all.mpr ⟨i, isIn⟩

theorem congr
    (same : ∀ h ∈ allOf t.length chains, keyOf' h = keyOf h) : Chained keyOf' t chains where
  shape := chained.shape
  leads := chained.leads
  placed i h isIn := by
    rw [same h (chained.mem_all.mpr ⟨i, isIn⟩)]
    exact chained.placed i h isIn
  distinct := chained.distinct

end Chained

theorem findFrom_spec {i : Nat} {k : HandleKey} {before after : List Nat} {fuel : Nat}
    (leads : t.Leads (cellAfter i before) after) (keys : ∀ h ∈ after, (keyOf h).isSome)
    (enough : after.length < fuel) :
    ∃ passed rest, after = passed ++ rest ∧
      t.findFrom keyOf k fuel (cellAfter i before) = some (cellAfter i (before ++ passed)) ∧
      (∀ h ∈ passed, keyOf h ≠ some k) ∧ ∀ h ∈ rest.head?, keyOf h = some k := by
  induction after generalizing before fuel with
  | nil =>
    obtain ⟨fuel, rfl⟩ := Nat.exists_eq_succ_of_ne_zero (Nat.ne_zero_of_lt enough)
    refine ⟨[], [], rfl, ?_, nofun, nofun⟩
    rw [findFrom, leads_nil.mp leads, append_nil]
  | cons h after ih =>
    obtain ⟨fuel, rfl⟩ := Nat.exists_eq_succ_of_ne_zero (Nat.ne_zero_of_lt enough)
    obtain ⟨first, following⟩ := leads_cons.mp leads
    obtain ⟨found, key⟩ := Option.isSome_iff_exists.mp (keys h mem_cons_self)
    rw [findFrom, first]
    dsimp only
    rw [key]
    dsimp only
    by_cases other : found.hash ≠ k.hash ∨ k.key ≠ found.key
    · rw [← cellAfter_append i before h] at following
      obtain ⟨passed, rest, rfl, result, different, same⟩ := ih following
        (fun x isIn => keys x (mem_cons_of_mem h isIn)) (Nat.lt_of_succ_lt_succ enough)
      rw [if_pos other, ← cellAfter_append i before h]
      refine ⟨h :: passed, rest, rfl, ?_, ?_, same⟩
      · rw [result, append_assoc]
        rfl
      · intro x isIn
        rcases mem_cons.mp isIn with rfl | later
        · rw [key]
          rintro ⟨⟩
          simp at other
        · exact different x later
    · rw [if_neg other]
      refine ⟨[], h :: after, rfl, by rw [append_nil], nofun, ?_⟩
      intro x isIn
      cases isIn
      rw [key]
      simp only [not_or, not_not] at other
      obtain ⟨sameHash, sameKey⟩ := other
      cases found
      cases k
      simp_all

theorem Chained.mem_update {chains : Nat → List Nat} {i : Nat} {new : List Nat}
    (chained : Chained keyOf t chains) (chained' : Chained keyOf t' (Function.update chains i new))
    (x : Nat) : x ∈ allOf t'.length (Function.update chains i new) ↔
      x ∈ new ∨ (x ∈ allOf t.length chains ∧ x ∉ chains i) := by
  rw [chained'.mem_all, chained.mem_all]
  constructor
  · rintro ⟨j, isIn⟩
    by_cases here : j = i
    · subst here
      exact .inl (by simpa using isIn)
    · rw [update_of_ne here] at isIn
      exact .inr ⟨⟨j, isIn⟩, fun other => here (chained.bucket_eq isIn other)⟩
  · rintro (new | ⟨⟨j, isIn⟩, other⟩)
    · exact ⟨i, by simpa using new⟩
    · refine ⟨j, ?_⟩
      rwa [update_of_ne]
      rintro rfl
      exact other isIn

/-- In the chain of one bucket, what stands behind some handles is replaced: new handles come, and
some of the old ones stay. -/
theorem Chained.rewire {chains : Nat → List Nat} (chained : Chained keyOf t chains) {i : Nat}
    {before after new rest : List Nat} (bound : i < t.length) (split : chains i = before ++ after)
    (part : rest <+ after) (fresh : ∀ x ∈ new, x ∉ allOf t.length chains) (distinct : new.Nodup)
    (placed : ∀ x ∈ new, ∃ k, keyOf x = some k ∧ bucketOf t.length k.hash = i)
    (length : t'.length = t.length) (tail : t'.Leads (cellAfter i before) (new ++ rest))
    (frame : ∀ cell, cell ≠ cellAfter i before → (∀ x ∈ new, cell ≠ .handle x) →
      t'.read cell = t.read cell) :
    ∃ chains', Chained keyOf t' chains' ∧ ∀ x, x ∈ allOf t'.length chains' ↔
      x ∈ new ∨ x ∈ allOf t.length chains ∧ (x ∈ after → x ∈ rest) := by
  have handles {j x : Nat} (isIn : x ∈ chains j) (other : Cell.handle x ≠ cellAfter i before) :
      t'.read (.handle x) = t.read (.handle x) := by
    refine frame _ other fun y isNew same => fresh y isNew (chained.mem_all.mpr ⟨j, ?_⟩)
    rwa [← Cell.handle.inj same]
  have buckets {j : Nat} (other : Cell.bucket j ≠ cellAfter i before) :
      t'.read (.bucket j) = t.read (.bucket j) := frame _ other (by simp)
  have inside {x : Nat} (isIn : x ∈ before ++ after) : x ∈ allOf t.length chains :=
    chained.mem_all.mpr ⟨i, split ▸ isIn⟩
  have apart : (before ++ after).Nodup := split ▸ chained.distinct i
  have chained' : Chained keyOf t' (Function.update chains i (before ++ (new ++ rest))) := by
    refine ⟨length ▸ chained.shape, fun j below => ?_, fun j x isIn => ?_, fun j => ?_⟩
    · rw [length] at below
      have leads := chained.leads j below
      by_cases here : j = i
      · subst here
        rw [update_self]
        rw [split] at leads
        refine leads.splice (nodup_append.mp apart).1 tail fun cell isIn other => ?_
        rcases mem_cons.mp isIn with rfl | inside
        · exact buckets other
        · obtain ⟨x, inBefore, rfl⟩ := mem_map.mp inside
          exact handles (split ▸ mem_append_left after inBefore) other
      · rw [update_of_ne here]
        refine leads.moved (buckets fun same => ?_) fun x isIn => handles isIn ?_
        · have inside := cellAfter_mem i before
          rw [← same] at inside
          simp [here] at inside
        · refine handle_ne_cellAfter fun inBefore => here ?_
          exact chained.bucket_eq isIn (split ▸ mem_append_left after inBefore)
    · rw [length]
      by_cases here : j = i
      · subst here
        rw [update_self, mem_append, mem_append] at isIn
        obtain old | isNew | old := isIn
        · exact chained.placed j x (split ▸ mem_append_left after old)
        · exact placed x isNew
        · exact chained.placed j x (split ▸ mem_append_right before (part.subset old))
      · rw [update_of_ne here] at isIn
        exact chained.placed j x isIn
    · by_cases here : j = i
      · subst here
        rw [update_self, (perm_append_comm_assoc before new rest).nodup_iff]
        refine distinct.append (apart.sublist (part.append_left before)) fun x isNew old => ?_
        exact fresh x isNew (inside ((part.append_left before).subset old))
      · rw [update_of_ne here]
        exact chained.distinct j
  refine ⟨_, chained', fun x => ?_⟩
  have old : x ∈ before → x ∉ after := fun early late => (nodup_append.mp apart).2.2 x early x late rfl
  have late : x ∈ rest → x ∈ after := fun isIn => part.subset isIn
  have here : x ∈ before ++ after → x ∈ allOf t.length chains := inside
  rw [chained.mem_update chained', split]
  simp only [mem_append] at here ⊢
  tauto

/-- The handle with a key, if there is one. -/
def Finds (keyOf : Nat → Option HandleKey) (all : List Nat) (k : HandleKey) (o : Option Nat) : Prop :=
  ∀ h, o = some h ↔ h ∈ all ∧ keyOf h = some k

/-- The table holds the handles of the chains: one for each key, all counted, and not more than there
are buckets. -/
structure Stored (keyOf : Nat → Option HandleKey) (t : HandleTable) (chains : Nat → List Nat) :
    Prop where
  chained : Chained keyOf t chains
  unique : ∀ h ∈ allOf t.length chains, ∀ h' ∈ allOf t.length chains, keyOf h = keyOf h' → h = h'
  count : t.elems = (allOf t.length chains).length
  loaded : t.elems ≤ t.length

namespace Stored
variable {chains : Nat → List Nat}

theorem findPointer_spec (stored : Stored keyOf t chains) (k : HandleKey) :
    ∃ before after, chains (bucketOf t.length k.hash) = before ++ after ∧
      t.findPointer keyOf k = some (cellAfter (bucketOf t.length k.hash) before) ∧
      t.Leads (cellAfter (bucketOf t.length k.hash) before) after ∧
      Finds keyOf (allOf t.length chains) k after.head? := by
  have chained := stored.chained
  set i := bucketOf t.length k.hash with bucketEq
  have leads := chained.leads i (chained.bucketOf_lt k.hash)
  have keys : ∀ h ∈ chains i, (keyOf h).isSome := by
    intro h isIn
    obtain ⟨k, key, -⟩ := chained.placed i h isIn
    rw [key]
    rfl
  have enough : (chains i).length < t.elems + 1 := by
    rw [stored.count]
    exact Nat.lt_succ_of_le (chained.chain_length_le i)
  obtain ⟨before, after, split, result, different, same⟩ :=
    @findFrom_spec keyOf t i k [] (chains i) (t.elems + 1) leads keys enough
  have inside {h : Nat} (isIn : h ∈ chains i) : h ∈ allOf t.length chains :=
    chained.mem_all.mpr ⟨i, isIn⟩
  refine ⟨before, after, split, result, leads_after (split ▸ leads), fun h => ⟨?_, ?_⟩⟩
  · intro first
    have isIn : h ∈ after := mem_of_head? first
    exact ⟨inside (split ▸ mem_append_right before isIn), same h first⟩
  · rintro ⟨isIn, key⟩
    have here := chained.mem_bucket isIn key
    rw [← bucketEq, split] at here
    rcases mem_append.mp here with early | late
    · exact absurd key (different h early)
    · obtain ⟨x, rest, rfl⟩ := exists_cons_of_ne_nil (ne_nil_of_mem late)
      have head : x ∈ allOf t.length chains := inside (split ▸ by simp)
      rw [stored.unique h isIn x head (key.trans (same x rfl).symm)]
      rfl

theorem lookup_spec (stored : Stored keyOf t chains) (k : HandleKey) :
    ∃ o, t.lookup keyOf k = some o ∧ Finds keyOf (allOf t.length chains) k o := by
  obtain ⟨before, after, split, result, leads, finds⟩ := stored.findPointer_spec k
  refine ⟨after.head?, ?_, finds⟩
  rw [lookup, result, ← leads.read_eq]
  rfl

theorem mem_tail_iff {hs : List Nat} (distinct : hs.Nodup) (x : Nat) :
    (x ∈ hs → x ∈ hs.tail) ↔ some x ≠ hs.head? := by
  cases hs with
  | nil => simp
  | cons h rest =>
    have once : h ∉ rest := (nodup_cons.mp distinct).1
    by_cases same : x = h
    · simp [same, once]
    · simp [same]

theorem remove_spec (stored : Stored keyOf t chains) (k : HandleKey) :
    ∃ o t' chains', t.remove keyOf k = some (o, t') ∧ Stored keyOf t' chains' ∧
      Finds keyOf (allOf t.length chains) k o ∧
      ∀ x, x ∈ allOf t'.length chains' ↔ x ∈ allOf t.length chains ∧ some x ≠ o := by
  have chained := stored.chained
  obtain ⟨before, after, split, result, leads, finds⟩ := stored.findPointer_spec k
  set i := bucketOf t.length k.hash
  have distinct := chained.distinct i
  rw [split] at distinct
  obtain ⟨-, distinctAfter, apart⟩ := nodup_append.mp distinct
  cases after with
  | nil =>
    refine ⟨none, t, chains, ?_, stored, finds, by simp⟩
    rw [remove, result]
    simp [leads_nil.mp leads]
  | cons h rest =>
    obtain ⟨first, following⟩ := leads_cons.mp leads
    set t' : HandleTable :=
      { t.write (cellAfter i before) (t.nextHash h) with elems := t.elems - 1 } with made
    have reads (cell : Cell) : t'.read cell =
        if cell = cellAfter i before then t.nextHash h else t.read cell :=
      read_write t (cellAfter i before) cell (t.nextHash h)
    have length : t'.length = t.length := write_length ..
    have tail : t'.Leads (cellAfter i before) ([] ++ rest) := by
      refine following.moved ((reads _).trans (if_pos rfl)) fun x isIn => ?_
      refine (reads _).trans (if_neg (handle_ne_cellAfter fun early => ?_))
      exact apart x early x (mem_cons_of_mem h isIn) rfl
    obtain ⟨chains', chained', all⟩ := chained.rewire (chained.bucketOf_lt k.hash) split
      (sublist_cons_self h rest) (by simp) (by simp) (by simp) length tail
      fun cell other _ => (reads cell).trans (if_neg other)
    have members (x : Nat) :
        x ∈ allOf t'.length chains' ↔ x ∈ allOf t.length chains ∧ some x ≠ some h := by
      have differs : (x ∈ h :: rest → x ∈ rest) ↔ some x ≠ some h := mem_tail_iff distinctAfter x
      rw [all, differs]
      simp
    refine ⟨some h, t', _, ?_, ⟨chained', ?_, ?_, ?_⟩, finds, members⟩
    · rw [remove, result]
      simp only [Option.bind_eq_bind, Option.bind_some, first, made]
    · intro x isIn y isIn' same
      exact stored.unique x ((members x).mp isIn).1 y ((members y).mp isIn').1 same
    · have isIn : h ∈ allOf t.length chains := ((finds h).mp rfl).1
      have perm : (allOf t'.length chains').Perm ((allOf t.length chains).erase h) := by
        refine (perm_ext_iff_of_nodup chained'.all_nodup (chained.all_nodup.erase h)).mpr ?_
        intro x
        rw [members, chained.all_nodup.mem_erase_iff, and_comm]
        simp
      rw [perm.length_eq, length_erase_of_mem isIn, ← stored.count]
    · rw [length]
      exact Nat.le_trans (Nat.sub_le _ _) stored.loaded

end Stored

variable {fuel h : Nat} {cell : Cell} {hs : List Nat} {p : Option Nat} {chains : Nat → List Nat}
  {k : HandleKey}

theorem growLength_spec {elems : Nat} (few : elems ≤ 2 ^ 31) {n : Nat} (low : 2 ≤ n)
    (high : n ≤ 31) (enough : 31 < n + fuel) :
    ∃ m, 2 ≤ m ∧ m ≤ 31 ∧ growLength elems fuel (2 ^ n) = some (2 ^ m) ∧ elems ≤ 2 ^ m := by
  induction fuel generalizing n with
  | zero => omega
  | succ fuel ih =>
    rw [growLength]
    by_cases more : 2 ^ n < elems
    · have below : n < 31 :=
        (Nat.pow_lt_pow_iff_right (by decide)).mp (Nat.lt_of_lt_of_le more few)
      have small : 2 ^ (n + 1) < 2 ^ 32 := Nat.pow_lt_pow_right (by decide) (by omega)
      rw [if_pos more, ← Nat.pow_succ, Nat.mod_eq_of_lt small]
      exact ih (by omega) below (by omega)
    · rw [if_neg more]
      exact ⟨n, low, high, rfl, Nat.le_of_not_lt more⟩

theorem relink_spec
    (chained : Chained keyOf t chains) (leads : t.LeadsFrom p hs) (distinct : hs.Nodup)
    (fresh : ∀ h ∈ hs, h ∉ allOf t.length chains) (keys : ∀ h ∈ hs, (keyOf h).isSome)
    (enough : hs.length < fuel) :
    ∃ t' chains', relink keyOf fuel p t = some t' ∧ Chained keyOf t' chains' ∧
      t'.length = t.length ∧ t'.elems = t.elems + hs.length ∧
      (∀ x, x ∈ allOf t'.length chains' ↔ x ∈ allOf t.length chains ∨ x ∈ hs) ∧
      ∀ x, x ∉ hs → t'.nextHash x = t.nextHash x := by
  induction hs generalizing t chains p fuel with
  | nil =>
    obtain ⟨fuel, rfl⟩ := Nat.exists_eq_succ_of_ne_zero (Nat.ne_zero_of_lt enough)
    rw [show p = none from leads]
    exact ⟨t, chains, rfl, chained, rfl, rfl, by simp, fun _ _ => rfl⟩
  | cons h hs ih =>
    obtain ⟨fuel, rfl⟩ := Nat.exists_eq_succ_of_ne_zero (Nat.ne_zero_of_lt enough)
    obtain ⟨rfl, following⟩ := leads
    obtain ⟨notLater, distinct⟩ := nodup_cons.mp distinct
    obtain ⟨k, key⟩ := Option.isSome_iff_exists.mp (keys h mem_cons_self)
    have new := fresh h mem_cons_self
    rw [relink, key]
    dsimp only
    set i := bucketOf t.length k.hash with bucketEq
    set t₁ : HandleTable := { (t.write (.handle h) (t.read (.bucket i))).write (.bucket i) (some h)
      with elems := _ + 1 } with made
    have reads (cell : Cell) : t₁.read cell = if cell = .bucket i then some h
        else if cell = .handle h then t.read (.bucket i) else t.read cell := by
      refine (read_write _ (.bucket i) cell (some h)).trans ?_
      rw [read_write]
    have length : t₁.length = t.length := (write_length ..).trans (write_length ..)
    have bound : i < t.length := chained.bucketOf_lt k.hash
    have other {j x : Nat} (isIn : x ∈ chains j) : x ≠ h := by
      rintro rfl
      exact new (chained.mem_all.mpr ⟨j, isIn⟩)
    have nextHash (x : Nat) (differs : x ≠ h) : t₁.nextHash x = t.nextHash x := by
      refine (reads (.handle x)).trans ?_
      simp [differs, read]
    have tail : t₁.Leads (cellAfter i []) ([h] ++ chains i) := by
      refine leads_cons.mpr ⟨(reads (.bucket i)).trans (if_pos rfl), ?_⟩
      refine (chained.leads i bound).moved ?_ fun x isIn => nextHash x (other isIn)
      rw [reads, if_neg (by simp), if_pos rfl]
    obtain ⟨chains₁, chained₁, all₁⟩ := chained.rewire bound (nil_append _).symm (Sublist.refl _)
      (by simpa using new) (nodup_singleton h) (by simpa using ⟨k, key, rfl⟩) length tail
      fun cell differs notH =>
        (reads cell).trans ((if_neg differs).trans (if_neg (notH h mem_cons_self)))
    have members (x : Nat) : x ∈ allOf t₁.length chains₁ ↔ x ∈ allOf t.length chains ∨ x = h := by
      rw [all₁, mem_singleton, or_comm]
      simp
    have remaining : t₁.LeadsFrom (t.nextHash h) hs := by
      have from_ : t.LeadsFrom (t.nextHash h) hs := leads_iff.mp following
      exact from_.congr fun x isIn => nextHash x (ne_of_mem_of_not_mem isIn notLater)
    have fresh₁ : ∀ x ∈ hs, x ∉ allOf t₁.length chains₁ := by
      intro x isIn inside
      rcases (members x).mp inside with old | rfl
      · exact fresh x (mem_cons_of_mem h isIn) old
      · exact notLater isIn
    obtain ⟨t', chains', result, chained', length', elems, all, frame⟩ := ih chained₁ remaining
      distinct fresh₁ (fun x isIn => keys x (mem_cons_of_mem h isIn))
      (Nat.lt_of_succ_lt_succ enough)
    refine ⟨t', chains', result, chained', length'.trans length, ?_, ?_, ?_⟩
    · rw [elems, show t₁.elems = t.elems + 1 by simp [made], length_cons]
      omega
    · intro x
      rw [all, members, mem_cons, or_assoc]
    · intro x outside
      obtain ⟨differs, outside⟩ := not_or.mp (mt mem_cons.mpr outside)
      rw [frame x outside, nextHash x differs]

theorem relinkAll_spec {old : HandleTable} {from_ : Nat → List Nat}
    (source : Chained keyOf old from_)
    (count : old.elems = (allOf old.length from_).length) {buckets : List Nat}
    (distinct : buckets.Nodup) (inside : ∀ i ∈ buckets, i < old.length) (chained : Chained keyOf t chains)
    (fresh : ∀ i ∈ buckets, ∀ h ∈ from_ i, h ∉ allOf t.length chains)
    (same : ∀ i ∈ buckets, ∀ h ∈ from_ i, t.nextHash h = old.nextHash h) :
    ∃ t' chains', old.relinkAll keyOf buckets t = some t' ∧ Chained keyOf t' chains' ∧
      t'.length = t.length ∧ t'.elems = t.elems + (buckets.flatMap from_).length ∧
      ∀ x, x ∈ allOf t'.length chains' ↔ x ∈ allOf t.length chains ∨ x ∈ buckets.flatMap from_ := by
  induction buckets generalizing t chains with
  | nil => exact ⟨t, chains, rfl, chained, rfl, rfl, by simp⟩
  | cons i buckets ih =>
    obtain ⟨notLater, distinct⟩ := nodup_cons.mp distinct
    have leads : old.LeadsFrom (old.list i) (from_ i) :=
      leads_iff.mp (source.leads i (inside i mem_cons_self))
    have keys : ∀ h ∈ from_ i, (keyOf h).isSome := by
      intro h isIn
      obtain ⟨k, key, -⟩ := source.placed i h isIn
      rw [key]
      rfl
    have enough : (from_ i).length < old.elems + 1 := by
      rw [count]
      exact Nat.lt_succ_of_le (source.chain_length_le i)
    obtain ⟨t₁, chains₁, moved, chained₁, length, elems, all, frame⟩ := relink_spec chained
      (leads.congr (same i mem_cons_self)) (source.distinct i) (fresh i mem_cons_self) keys
      enough
    have apart {j h : Nat} (later : j ∈ buckets) (isIn : h ∈ from_ j) : h ∉ from_ i := by
      intro here
      exact notLater (source.bucket_eq here isIn ▸ later)
    obtain ⟨t', chains', rest, chained', length', elems', all'⟩ := ih distinct
      (fun j later => inside j (mem_cons_of_mem i later)) chained₁
      (by
        intro j later h isIn present
        rcases (all h).mp present with earlier | now
        · exact fresh j (mem_cons_of_mem i later) h isIn earlier
        · exact apart later isIn now)
      (by
        intro j later h isIn
        rw [frame h (apart later isIn)]
        exact same j (mem_cons_of_mem i later) h isIn)
    refine ⟨t', chains', ?_, chained', length'.trans length, ?_, ?_⟩
    · rw [relinkAll, moved]
      exact rest
    · rw [elems', elems, flatMap_cons, length_append]
      omega
    · intro x
      rw [all', all, flatMap_cons, mem_append, or_assoc]

theorem resize_spec (chained : Chained keyOf t chains)
    (unique : ∀ h ∈ allOf t.length chains, ∀ h' ∈ allOf t.length chains,
      keyOf h = keyOf h' → h = h')
    (count : t.elems = (allOf t.length chains).length) (few : t.elems ≤ 2 ^ 31) :
    ∃ t' chains', t.resize keyOf = some t' ∧ Stored keyOf t' chains' ∧
      ∀ x, x ∈ allOf t'.length chains' ↔ x ∈ allOf t.length chains := by
  obtain ⟨n, low, high, grown, large⟩ :=
    growLength_spec few (Nat.le_refl 2) (by decide) (show 31 < 2 + 33 by decide)
  have empty : Chained keyOf ⟨2 ^ n, 0, fun _ => none, t.nextHash⟩ (fun _ => []) :=
    ⟨⟨n, low, high, rfl⟩, fun _ _ => leads_nil.mpr rfl, nofun, fun _ => nodup_nil⟩
  have none : allOf (2 ^ n) (fun _ => []) = [] := by simp [allOf]
  obtain ⟨t', chains', moved, chained', length, elems, all⟩ := relinkAll_spec chained count
    nodup_range (fun i isIn => mem_range.mp isIn) empty (fun _ _ _ _ => by simp [none])
    (fun _ _ _ _ => rfl)
  have members (x : Nat) : x ∈ allOf t'.length chains' ↔ x ∈ allOf t.length chains := by
    rw [all, none]
    simp [allOf]
  have same : t'.elems = t.elems := by
    rw [elems, count, allOf]
    exact Nat.zero_add _
  refine ⟨t', chains', ?_, ⟨chained', ?_, ?_, ?_⟩, members⟩
  · rw [resize, show (4 : Nat) = 2 ^ 2 from rfl, grown]
    simp only [Option.bind_eq_bind, Option.bind_some, moved]
    rw [if_pos same.symm]
  · intro x isIn y isIn' key
    exact unique x ((members x).mp isIn) y ((members y).mp isIn') key
  · rw [same, count]
    refine (List.Perm.length_eq ?_).symm
    exact (perm_ext_iff_of_nodup chained'.all_nodup chained.all_nodup).mpr members
  · rw [same, length]
    exact large

theorem insert_eq (key : keyOf h = some k) (found : t.findPointer keyOf k = some cell) :
    t.insert keyOf h =
      let written := (t.write (.handle h) ((t.read cell).bind t.nextHash)).write cell (some h)
      let counted := { written with elems := (t.elems + 1) % 2 ^ 32 }
      if t.read cell = none then
        if t.length < (t.elems + 1) % 2 ^ 32 then (counted.resize keyOf).map (t.read cell, ·)
        else some (t.read cell, counted)
      else some (t.read cell, written) := by
  rw [insert, key]
  simp only [Option.bind_eq_bind, Option.bind_some, found, write_elems, write_length,
    Option.map_eq_bind]
  rfl

theorem Stored.insert_spec (stored : Stored keyOf t chains) (key : keyOf h = some k)
    (fresh : h ∉ allOf t.length chains)
    (few : Finds keyOf (allOf t.length chains) k none → t.elems < 2 ^ 31) :
    ∃ o t' chains', t.insert keyOf h = some (o, t') ∧ Stored keyOf t' chains' ∧
      Finds keyOf (allOf t.length chains) k o ∧
      ∀ x, x ∈ allOf t'.length chains' ↔ x = h ∨ (x ∈ allOf t.length chains ∧ some x ≠ o) := by
  have chained := stored.chained
  obtain ⟨before, after, split, result, leads, finds⟩ := stored.findPointer_spec k
  set i := bucketOf t.length k.hash
  have distinct := chained.distinct i
  rw [split] at distinct
  obtain ⟨-, distinctAfter, apart⟩ := nodup_append.mp distinct
  have other {x : Nat} (isIn : x ∈ before ++ after) : x ≠ h := by
    rintro rfl
    exact fresh (chained.mem_all.mpr ⟨i, split ▸ isIn⟩)
  set t₁ := (t.write (.handle h) (after.head?.bind t.nextHash)).write (cellAfter i before) (some h)
    with made
  have reads (cell : Cell) : t₁.read cell = if cell = cellAfter i before then some h
      else if cell = .handle h then after.head?.bind t.nextHash else t.read cell := by
    rw [made, read_write, read_write]
  have length : t₁.length = t.length := (write_length ..).trans (write_length ..)
  have elems : t₁.elems = t.elems := (write_elems ..).trans (write_elems ..)
  have tail : t₁.Leads (cellAfter i before) ([h] ++ after.tail) := by
    refine leads_cons.mpr ⟨(reads _).trans (if_pos rfl), ?_⟩
    have handle : t₁.read (.handle h) = after.head?.bind t.nextHash := by
      rw [reads, if_neg, if_pos rfl]
      exact handle_ne_cellAfter fun early => other (mem_append_left after early) rfl
    cases after with
    | nil => exact leads_nil.mpr handle
    | cons o rest =>
      refine (leads_cons.mp leads).2.moved handle fun x isIn => ?_
      have late : x ∈ o :: rest := mem_cons_of_mem o isIn
      rw [reads, if_neg (handle_ne_cellAfter fun early => apart x early x late rfl), if_neg]
      exact fun same => other (mem_append_right before late) (Cell.handle.inj same)
  obtain ⟨chains₁, chained₁, all⟩ := chained.rewire (chained.bucketOf_lt k.hash) split
    (tail_sublist after) (by simpa using fresh) (nodup_singleton h) (by simpa using ⟨k, key, rfl⟩) length tail
    fun cell differs notH =>
      (reads cell).trans ((if_neg differs).trans (if_neg (notH h mem_cons_self)))
  have members (x : Nat) : x ∈ allOf t₁.length chains₁ ↔
      x = h ∨ (x ∈ allOf t.length chains ∧ some x ≠ after.head?) := by
    rw [all, mem_singleton, mem_tail_iff distinctAfter]
  have unique : ∀ x ∈ allOf t₁.length chains₁, ∀ y ∈ allOf t₁.length chains₁,
      keyOf x = keyOf y → x = y := by
    intro x isIn y isIn' same
    rcases (members x).mp isIn with rfl | ⟨old, differs⟩ <;>
      rcases (members y).mp isIn' with rfl | ⟨old', differs'⟩
    · rfl
    · exact absurd ((finds y).mpr ⟨old', same.symm.trans key⟩).symm differs'
    · exact absurd ((finds x).mpr ⟨old, same.trans key⟩).symm differs
    · exact stored.unique x old y old' same
  have unfolded := insert_eq key result
  rw [leads.read_eq] at unfolded
  cases first : after.head? with
  | none =>
    rw [first] at unfolded members finds
    have all : (allOf t₁.length chains₁).Perm (h :: allOf t.length chains) := by
      refine (perm_ext_iff_of_nodup chained₁.all_nodup
        (nodup_cons.mpr ⟨fresh, chained.all_nodup⟩)).mpr fun x => ?_
      rw [members, mem_cons]
      simp
    have room := few finds
    have small : (t.elems + 1) % 2 ^ 32 = t.elems + 1 := Nat.mod_eq_of_lt (by omega)
    have count : t.elems + 1 = (allOf t₁.length chains₁).length := by
      rw [all.length_eq, length_cons, ← stored.count]
    have chained₂ : Chained keyOf { t₁ with elems := t.elems + 1 } chains₁ :=
      ⟨chained₁.shape, chained₁.leads, chained₁.placed, chained₁.distinct⟩
    simp only [if_pos, small, ← first, ← made] at unfolded
    by_cases crowded : t.length < t.elems + 1
    · obtain ⟨t', chains', resized, stored', same⟩ := resize_spec chained₂ unique count room
      refine ⟨none, t', chains', ?_, stored', finds, fun x => (same x).trans (members x)⟩
      rw [unfolded, if_pos crowded, resized, first]
      rfl
    · refine ⟨none, _, _, (unfolded.trans (if_neg crowded)).trans (by rw [first]),
        ⟨chained₂, unique, count, length ▸ Nat.le_of_not_lt crowded⟩, finds, members⟩
  | some o =>
    rw [first] at unfolded members finds
    have isIn : o ∈ allOf t.length chains := ((finds o).mp rfl).1
    have all : (allOf t₁.length chains₁).Perm (h :: (allOf t.length chains).erase o) := by
      have fresh' : h ∉ (allOf t.length chains).erase o := fun inside =>
        fresh (mem_of_mem_erase inside)
      refine (perm_ext_iff_of_nodup chained₁.all_nodup
        (nodup_cons.mpr ⟨fresh', chained.all_nodup.erase o⟩)).mpr fun x => ?_
      rw [members, mem_cons, chained.all_nodup.mem_erase_iff, and_comm]
      simp
    refine ⟨some o, t₁, _, ?_, ⟨chained₁, unique, ?_, ?_⟩, finds, members⟩
    · simp only [unfolded, reduceCtorEq, if_false]
      rw [made, first]
    · have some := length_pos_of_mem isIn
      rw [all.length_eq, length_cons, length_erase_of_mem isIn, elems, stored.count]
      omega
    · rw [elems, length]
      exact stored.loaded

theorem stored_new (keyOf : Nat → Option HandleKey) : Stored keyOf new fun _ => [] where
  chained := ⟨⟨2, by decide, by decide, rfl⟩, fun _ _ => leads_nil.mpr rfl, nofun,
    fun _ => nodup_nil⟩
  unique := by simp [allOf]
  count := by simp [allOf, new]
  loaded := Nat.zero_le _

theorem Stored.congr (stored : Stored keyOf t chains)
    (same : ∀ h ∈ allOf t.length chains, keyOf' h = keyOf h) : Stored keyOf' t chains where
  chained := stored.chained.congr same
  unique h isIn h' isIn' key := by
    rw [same h isIn, same h' isIn'] at key
    exact stored.unique h isIn h' isIn' key
  count := stored.count
  loaded := stored.loaded

/-- The handles along the `next_hash` pointers. -/
def chainFrom (t : HandleTable) : Nat → Option Nat → List Nat
  | 0, _ => []
  | _ + 1, none => []
  | fuel + 1, some h => h :: t.chainFrom fuel (t.nextHash h)

def entries (t : HandleTable) : List Nat :=
  (List.range t.length).flatMap fun i => t.chainFrom (t.elems + 1) (t.list i)

theorem LeadsFrom.chainFrom_eq
    (leads : t.LeadsFrom p hs) (enough : hs.length < fuel) : t.chainFrom fuel p = hs := by
  induction hs generalizing p fuel with
  | nil =>
    obtain ⟨fuel, rfl⟩ := Nat.exists_eq_succ_of_ne_zero (Nat.ne_zero_of_lt enough)
    rw [show p = none from leads, chainFrom]
  | cons h hs ih =>
    obtain ⟨fuel, rfl⟩ := Nat.exists_eq_succ_of_ne_zero (Nat.ne_zero_of_lt enough)
    obtain ⟨rfl, following⟩ := leads
    have rest : t.LeadsFrom (t.nextHash h) hs := leads_iff.mp following
    rw [chainFrom, ih rest (Nat.lt_of_succ_lt_succ enough)]

theorem Stored.entries_eq (stored : Stored keyOf t chains) : t.entries = allOf t.length chains := by
  refine flatMap_congr fun i isIn => ?_
  have leads := stored.chained.leads i (mem_range.mp isIn)
  refine (leads_iff.mp leads).chainFrom_eq (Nat.lt_succ_of_le ?_)
  rw [stored.count]
  exact stored.chained.chain_length_le i

/-! What a user of the table sees. -/

/-- A table that its operations have made. -/
def Valid (keyOf : Nat → Option HandleKey) (t : HandleTable) : Prop := ∃ chains, Stored keyOf t chains

theorem valid_new (keyOf : Nat → Option HandleKey) : Valid keyOf new := ⟨_, stored_new keyOf⟩

namespace Valid

variable (valid : Valid keyOf t)
include valid

theorem nodup : t.entries.Nodup := by
  obtain ⟨chains, stored⟩ := valid
  rw [stored.entries_eq]
  exact stored.chained.all_nodup

theorem elems_eq : t.elems = t.entries.length := by
  obtain ⟨chains, stored⟩ := valid
  rw [stored.entries_eq]
  exact stored.count

theorem congr (same : ∀ h ∈ t.entries, keyOf' h = keyOf h) : Valid keyOf' t := by
  obtain ⟨chains, stored⟩ := valid
  rw [stored.entries_eq] at same
  exact ⟨chains, stored.congr same⟩

theorem lookup (k : HandleKey) : ∃ o, t.lookup keyOf k = some o ∧ Finds keyOf t.entries k o := by
  obtain ⟨chains, stored⟩ := valid
  rw [stored.entries_eq]
  exact stored.lookup_spec k

theorem remove (k : HandleKey) :
    ∃ o t', t.remove keyOf k = some (o, t') ∧ Valid keyOf t' ∧ Finds keyOf t.entries k o ∧
      ∀ x, x ∈ t'.entries ↔ x ∈ t.entries ∧ some x ≠ o := by
  obtain ⟨chains, stored⟩ := valid
  obtain ⟨o, t', chains', result, stored', finds, members⟩ := stored.remove_spec k
  rw [← stored.entries_eq] at finds members
  rw [← stored'.entries_eq] at members
  exact ⟨o, t', result, ⟨chains', stored'⟩, finds, members⟩

theorem insert {h : Nat} {k : HandleKey} (key : keyOf h = some k)
    (fresh : h ∉ t.entries) (few : Finds keyOf t.entries k none → t.elems < 2 ^ 31) :
    ∃ o t', t.insert keyOf h = some (o, t') ∧ Valid keyOf t' ∧ Finds keyOf t.entries k o ∧
      ∀ x, x ∈ t'.entries ↔ x = h ∨ (x ∈ t.entries ∧ some x ≠ o) := by
  obtain ⟨chains, stored⟩ := valid
  rw [stored.entries_eq] at fresh few
  obtain ⟨o, t', chains', result, stored', finds, members⟩ := stored.insert_spec key fresh few
  rw [← stored.entries_eq] at finds members
  rw [← stored'.entries_eq] at members
  exact ⟨o, t', result, ⟨chains', stored'⟩, finds, members⟩

end Valid
end HandleTable
end TalusDB
