import TalusDB.Lib.Chain
import TalusDB.Lib.Cursor

/-! `SkipList`: up to twelve linked lists over the same nodes. Nodes are numbered in the order in
which the arena hands them out, the first one being `head_`. Reading a pointer that a node does not
have fails, and so does a loop that takes too long. -/
namespace TalusDB
open Cursor Chain List Function
open Option (bind_some map_eq_some_iff map_some)
variable {K : Type}

def kMaxHeight : Nat := 12

/-- `next` is `next_`, from level 0 up. -/
structure SkipNode (K : Type) where
  key : K
  next : List (Option Nat)

structure SkipList (K : Type) where
  nodes : List (SkipNode K)
  maxHeight : Nat

namespace SkipList

/-- The node `head_`. -/
def head : Nat := 0

/-- The constructor. The key of `head_` is whatever `0` is as a key. -/
def empty (zero : K) : SkipList K :=
  { nodes := [{ key := zero, next := List.replicate kMaxHeight none }], maxHeight := 1 }

/-- `Node::Next`. -/
def next (s : SkipList K) (n : Nat) (x : Nat) : Option (Option Nat) :=
  s.nodes[x]?.bind fun node => node.next[n]?

/-- `Node::SetNext`. -/
def setNext (s : SkipList K) (x n : Nat) (y : Option Nat) : SkipList K :=
  { s with nodes := s.nodes.modify x fun node => { node with next := node.next.set n y } }

/-- `RandomHeight`, where the draws are the results of `rnd_.OneIn(kBranching)`. -/
def randomHeight (draws : Nat → Bool) : Nat :=
  go (kMaxHeight - 1) 1
where
  go : Nat → Nat → Nat
  | 0, height => height
  | left + 1, height => if draws height then go left (height + 1) else height

theorem randomHeight_range (draws : Nat → Bool) :
    1 ≤ randomHeight draws ∧ randomHeight draws ≤ kMaxHeight := by
  have bound : ∀ left height, height ≤ randomHeight.go draws left height ∧
      randomHeight.go draws left height ≤ left + height := by
    intro left
    induction left with
    | zero => exact fun height => ⟨le_refl _, by simp [randomHeight.go]⟩
    | succ left ih =>
      intro height
      rw [randomHeight.go]
      split
      · have := ih (height + 1)
        omega
      · omega
  exact bound (kMaxHeight - 1) 1

/-- The node that a search goes on to: the next one, unless it is null or its key is too large. -/
def onwardTo (s : SkipList K) (onward : K → Bool) : Option Nat → Option (Option Nat)
  | none => some none
  | some n => s.nodes[n]?.map fun node => if onward node.key then some n else none

/-- The loop of the three searches: along a level as long as it goes onward, then down. It ends
with the node that it came to, the one behind it and the node left on each level. -/
def search (s : SkipList K) (onward : K → Bool) :
    Nat → Nat → Nat → (Nat → Option Nat) → Option (Nat × Option Nat × (Nat → Option Nat))
  | 0, _, _, _ => none
  | fuel + 1, x, level, prev => do
    let next ← s.next level x
    match ← s.onwardTo onward next with
    | some n => search s onward fuel n level prev
    | none =>
      let prev := Function.update prev level (some x)
      match level with
      | 0 => some (x, next, prev)
      | level + 1 => search s onward fuel x level prev

/-- The search from the top, with a round for every node and every level. -/
def searchAll (s : SkipList K) (onward : K → Bool) :
    Option (Nat × Option Nat × (Nat → Option Nat)) :=
  s.search onward (s.maxHeight + s.nodes.length) head (s.maxHeight - 1) fun _ => none

section
variable [LT K] [DecidableLT K]

/-- The node found, and `prev`. -/
def findGreaterOrEqual (s : SkipList K) (key : K) : Option (Option Nat × (Nat → Option Nat)) :=
  (s.searchAll (· < key)).map Prod.snd

def findLessThan (s : SkipList K) (key : K) : Option Nat :=
  (s.searchAll (· < key)).map Prod.fst

def findLast (s : SkipList K) : Option Nat :=
  (s.searchAll fun _ => true).map Prod.fst

/-- The loop of `Insert` that links the node `x`, after `i` rounds. -/
def link (s : SkipList K) (prev : Nat → Option Nat) (x : Nat) : Nat → Option (SkipList K)
  | 0 => some s
  | i + 1 => do
    let s ← link s prev x i
    let p ← prev i
    let n ← s.next i p
    some ((s.setNext x i n).setNext p i (some x))

/-- `Insert`, where `height` is what `RandomHeight` returned. -/
def insert (s : SkipList K) (key : K) (height : Nat) : Option (SkipList K) := do
  let (_, prev) ← s.findGreaterOrEqual key
  let prev := fun i => if s.maxHeight ≤ i && decide (i < height) then some head else prev i
  let node : SkipNode K := { key, next := List.replicate height none }
  let grown : SkipList K := { nodes := s.nodes ++ [node], maxHeight := max s.maxHeight height }
  grown.link prev s.nodes.length height

def contains [DecidableEq K] (s : SkipList K) (key : K) : Option Bool := do
  let (x, _) ← s.findGreaterOrEqual key
  match x with
  | none => some false
  | some x => s.nodes[x]?.map fun node => decide (key = node.key)

/-- `head_` is no entry: `Prev` and `SeekToLast` turn it into the null pointer. -/
def unlessHead (x : Nat) : Option Nat := if x = head then none else some x

/-- The key of a node that is not `head_`. -/
def keyOf (s : SkipList K) (x : Nat) : Option K :=
  if x = head then none else s.nodes[x]?.map SkipNode.key

/-- The operations of the iterator, whose state is `node_`. -/
def step (s : SkipList K) (node : Option Nat) : Cursor.Op K → Option (Option Nat)
  | .next => node.bind (s.next 0)
  | .prev => do
    let x ← s.nodes[← node]?
    (s.findLessThan x.key).map unlessHead
  | .seek target => (s.findGreaterOrEqual target).map Prod.fst
  | .seekToFirst => s.next 0 head
  | .seekToLast => s.findLast.map unlessHead

def iterator (s : SkipList K) : Iterator K Unit (Option Nat) where
  entry node := node.bind fun x => (s.keyOf x).map (·, ())
  ok _ := true
  step op node := s.step node op

end

/-- The keys on a level, read by following the pointers. -/
def keysAt (s : SkipList K) (level : Nat) : Option (List K) :=
  (walk (s.next level) (s.nodes.length + 1) head).bind fun xs => xs.mapM s.keyOf

/-! ### The lists of a skip list -/

/-- A node with its key and its number of pointers. -/
structure Tower (K : Type) where
  index : Nat
  key : K
  height : Nat

/-- The nodes that a level has of these towers. -/
def onLevel (level : Nat) (xs : List (Tower K)) : List Nat :=
  (xs.filter (level < ·.height)).map Tower.index

/-- Where a search that went past these towers left the level. -/
def lastOn (level : Nat) (xs : List (Tower K)) : Nat := (onLevel level xs).getLastD head

/-- The pointers of each level lead over the towers in the order of their keys. -/
structure Represents [LT K] (s : SkipList K) (xs : List (Tower K)) : Prop where
  keyed : ∀ e ∈ xs, s.nodes[e.index]?.map SkipNode.key = some e.key
  behind : ∀ e ∈ xs, head < e.index
  height : ∀ e ∈ xs, 1 ≤ e.height ∧ e.height ≤ kMaxHeight
  distinct : (xs.map Tower.index).Nodup
  sorted : xs.Pairwise (·.key < ·.key)
  links : ∀ level < kMaxHeight, Links (s.next level) head (onLevel level xs)
  below : ∀ e ∈ xs, e.height ≤ s.maxHeight
  top : 1 ≤ s.maxHeight ∧ s.maxHeight ≤ kMaxHeight
  few : xs.length < s.nodes.length

@[simp]
theorem onLevel_append (level : Nat) (xs ys : List (Tower K)) :
    onLevel level (xs ++ ys) = onLevel level xs ++ onLevel level ys := by
  simp [onLevel]

theorem onLevel_cons_of_lt {level : Nat} {e : Tower K} (high : level < e.height)
    (xs : List (Tower K)) : onLevel level (e :: xs) = e.index :: onLevel level xs := by
  simp [onLevel, high]

theorem mem_of_onLevel {level x : Nat} {xs : List (Tower K)} (mem : x ∈ onLevel level xs) :
    ∃ e ∈ xs, e.index = x := by
  obtain ⟨e, inside, rfl⟩ := mem_map.mp mem
  exact ⟨e, mem_of_mem_filter inside, rfl⟩

section searching
variable [LT K] {s : SkipList K} {xs before after mid : List (Tower K)}
  {onward : K → Bool} {x level fuel : Nat}

theorem Represents.onLevel_top (represents : Represents s xs) (high : s.maxHeight ≤ level) :
    onLevel level xs = [] := by
  suffices none : xs.filter (level < ·.height) = [] by rw [onLevel, none]; rfl
  rw [filter_eq_nil_iff]
  intro e mem
  simpa using (represents.below e mem).trans high

omit [LT K] in
theorem onLevel_zero (positive : ∀ e ∈ xs, 1 ≤ e.height) : onLevel 0 xs = xs.map Tower.index := by
  rw [onLevel, filter_eq_self.mpr]
  intro e mem
  exact decide_eq_true (positive e mem)

theorem Represents.onwardTo (represents : Represents s xs) {e : Tower K} (mem : e ∈ xs) :
    s.onwardTo onward (some e.index) = some (if onward e.key then some e.index else none) := by
  obtain ⟨node, found, isKey⟩ := map_eq_some_iff.mp (represents.keyed e mem)
  rw [SkipList.onwardTo, found, map_some, isKey]

/-- A search stands at a node of the level, with these towers left before the end. -/
def StandsAt (before : List (Tower K)) (level x : Nat) (mid : List (Tower K)) : Prop :=
  x = head ∧ before = mid ∨
    ∃ front e, before = front ++ e :: mid ∧ x = e.index ∧ level < e.height

theorem StandsAt.links (stands : StandsAt before level x mid)
    (represents : Represents s (before ++ after)) (low : level < kMaxHeight) :
    Links (s.next level) x (onLevel level mid ++ onLevel level after) := by
  have links := represents.links level low
  obtain ⟨rfl, rfl⟩ | ⟨front, e, rfl, rfl, high⟩ := stands
  · simpa using links
  · have parts : onLevel level (front ++ e :: mid ++ after) =
        (onLevel level front ++ [e.index]) ++ (onLevel level mid ++ onLevel level after) := by
      simp [onLevel_cons_of_lt high]
    rw [parts] at links
    simpa using links.drop

omit [LT K] in
theorem StandsAt.last (stands : StandsAt before level x mid) (none : onLevel level mid = []) :
    lastOn level before = x := by
  obtain ⟨rfl, rfl⟩ | ⟨front, e, rfl, rfl, high⟩ := stands
  · simp [lastOn, none]
  · simp [lastOn, onLevel_cons_of_lt high, none]

omit [LT K] in
theorem StandsAt.down (stands : StandsAt before (level + 1) x mid) : StandsAt before level x mid :=
    by
  obtain here | ⟨front, e, isBefore, isX, high⟩ := stands
  · exact .inl here
  · exact .inr ⟨front, e, isBefore, isX, Nat.lt_of_succ_lt high⟩

omit [LT K] in
theorem StandsAt.along (stands : StandsAt before level x mid) {e : Tower K}
    {skipped rest : List (Tower K)} (isMid : mid = skipped ++ e :: rest) (high : level < e.height) :
    StandsAt before level e.index rest := by
  right
  obtain ⟨-, rfl⟩ | ⟨front, e', rfl, -, -⟩ := stands
  · exact ⟨skipped, e, isMid, rfl, high⟩
  · exact ⟨front ++ e' :: skipped, e, by simp [isMid], rfl, high⟩

omit [LT K] in
theorem StandsAt.mem (stands : StandsAt before level x mid) {e : Tower K} (mem : e ∈ mid) :
    e ∈ before := by
  obtain ⟨-, rfl⟩ | ⟨front, e', rfl, -, -⟩ := stands
  · exact mem
  · exact mem_append_right front (mem_cons_of_mem e' mem)

/-- A search comes to the last tower before the ones that it does not go on to, on every level. -/
theorem search_spec (represents : Represents s (before ++ after))
    (goes : ∀ e ∈ before, onward e.key = true) (stops : ∀ e ∈ after, onward e.key = false)
    (low : level < kMaxHeight) (stands : StandsAt before level x mid)
    (enough : level + mid.length < fuel) (prev : Nat → Option Nat) :
    ∃ prev', s.search onward fuel x level prev =
        some (lastOn 0 before, (after.map Tower.index).head?, prev') ∧
      (∀ l ≤ level, prev' l = some (lastOn l before)) ∧ ∀ l, level < l → prev' l = prev l := by
  induction fuel generalizing x level mid prev with
  | zero => omega
  | succ fuel ih =>
    have links := stands.links represents low
    rw [search, links.next_eq]
    cases split : mid.filter (level < ·.height) with
    | nil =>
      have none : onLevel level mid = [] := by rw [onLevel, split]; rfl
      have stay : s.onwardTo onward (onLevel level after).head? = some Option.none := by
        cases isHead : (onLevel level after).head? with
        | none => rfl
        | some n =>
          obtain ⟨e, mem, rfl⟩ := mem_of_onLevel (mem_of_head? isHead)
          simp [represents.onwardTo (mem_append_right before mem), stops e mem]
      have left := stands.last none
      rw [none, nil_append, Option.bind_eq_bind, bind_some, stay]
      cases level with
      | zero =>
        have all : onLevel 0 after = after.map Tower.index := onLevel_zero fun e mem =>
          (represents.height e (mem_append_right before mem)).1
        refine ⟨_, by rw [left, all]; rfl, fun l bound => ?_, fun l above => ?_⟩
        · rw [Nat.le_zero.mp bound, update_self, left]
        · exact update_of_ne (by omega) _ _
      | succ level =>
        obtain ⟨prev', found, filled, kept⟩ := ih (Nat.lt_of_succ_lt low) stands.down (by omega)
          (Function.update prev (level + 1) (some x))
        refine ⟨prev', found, fun l bound => ?_, fun l above => ?_⟩
        · obtain lower | rfl := Nat.le_succ_iff.mp bound
          · exact filled l lower
          · rw [kept _ (Nat.lt_succ_self level), update_self, left]
        · rw [kept l (by omega), update_of_ne (by omega)]
    | cons e rest =>
      obtain ⟨skipped, rest', isMid, -, high, -⟩ := filter_eq_cons_iff.mp split
      have high := of_decide_eq_true high
      have mem : e ∈ before := stands.mem (by simp [isMid])
      obtain ⟨prev', found, filled, kept⟩ := ih low (stands.along isMid high) (by
        have := congrArg List.length isMid
        simp at this
        omega) prev
      refine ⟨prev', ?_, filled, kept⟩
      rw [onLevel, split]
      simpa [represents.onwardTo (mem_append_left after mem), goes e mem] using found

theorem searchAll_spec (onward : K → Bool) (represents : Represents s (before ++ after))
    (goes : ∀ e ∈ before, onward e.key = true) (stops : ∀ e ∈ after, onward e.key = false) :
    ∃ prev, s.searchAll onward = some (lastOn 0 before, (after.map Tower.index).head?, prev) ∧
      ∀ l < s.maxHeight, prev l = some (lastOn l before) := by
  have few := represents.few
  have top := represents.top
  rw [length_append] at few
  have low : s.maxHeight - 1 < kMaxHeight := by omega
  have enough : s.maxHeight - 1 + before.length < s.maxHeight + s.nodes.length := by omega
  obtain ⟨prev, found, filled, -⟩ := search_spec represents goes stops low (.inl ⟨rfl, rfl⟩)
    enough fun _ => none
  exact ⟨prev, found, fun l low => filled l (by omega)⟩

end searching

section inserting
variable {s : SkipList K} {before after : List (Tower K)} {key : K} {height : Nat}

theorem next_setNext {s : SkipList K} {x n : Nat} (has : (s.next n x).isSome) (y : Option Nat)
    (level z : Nat) :
    (s.setNext x n y).next level z = if level = n ∧ z = x then some y else s.next level z := by
  obtain ⟨old, isOld⟩ := Option.isSome_iff_exists.mp has
  obtain ⟨node, isNode, isNext⟩ := Option.bind_eq_some_iff.mp isOld
  have bound := (List.getElem?_eq_some_iff.mp isNext).1
  rw [next, setNext, List.getElem?_modify]
  by_cases sameNode : x = z
  · subst sameNode
    by_cases sameLevel : level = n
    · subst sameLevel
      simp [isNode, bound]
    · simp [isNode, next, sameLevel, Ne.symm sameLevel]
  · simp [next, sameNode, Ne.symm sameNode]

theorem setNext_keys (s : SkipList K) (x n : Nat) (y : Option Nat) :
    (s.setNext x n y).nodes.map SkipNode.key = s.nodes.map SkipNode.key := by
  refine ext_getElem? fun z => ?_
  rw [setNext, List.getElem?_map, List.getElem?_modify, List.getElem?_map]
  split <;> simp [comp_def]

theorem link_spec {prev : Nat → Option Nat} {p : Nat → Nat} {x : Nat} (other : ∀ l, p l ≠ x)
    (filled : ∀ l < height, prev l = some (p l)) (reads : ∀ l < height, (s.next l (p l)).isSome)
    (own : ∀ l < height, (s.next l x).isSome) {i : Nat} (bound : i ≤ height) :
    ∃ s', s.link prev x i = some s' ∧ s'.maxHeight = s.maxHeight ∧
      s'.nodes.map SkipNode.key = s.nodes.map SkipNode.key ∧
      ∀ l y, s'.next l y = if l < i ∧ y = p l then some (some x)
        else if l < i ∧ y = x then s.next l (p l) else s.next l y := by
  induction i with
  | zero => exact ⟨s, rfl, rfl, rfl, by simp⟩
  | succ i ih =>
    obtain ⟨s₁, linked, top, keys, pointers⟩ := ih (by omega)
    have same : ∀ y, s₁.next i y = s.next i y := by
      intro y
      rw [pointers, if_neg (by omega), if_neg (by omega)]
    obtain ⟨n, isN⟩ := Option.isSome_iff_exists.mp (reads i bound)
    have taken := next_setNext (same x ▸ own i bound) n
    have kept : ((s₁.setNext x i n).next i (p i)).isSome := by
      rw [taken, if_neg (fun both => other i both.2), same]
      exact reads i bound
    have given := next_setNext kept (some x)
    refine ⟨(s₁.setNext x i n).setNext (p i) i (some x), ?_, top, ?_, fun l y => ?_⟩
    · simp [link, linked, filled i bound, same, isN]
    · rw [setNext_keys, setNext_keys, keys]
    · rw [given, taken, pointers]
      rcases lt_trichotomy l i with lower | rfl | higher
      · simp [lower, lower.ne, lower.trans (Nat.lt_succ_self i)]
      · by_cases isP : y = p l
        · simp [isP]
        · simp [isP, isN]
      · have above : ¬l < i + 1 := by omega
        simp [above, higher.not_gt, higher.ne']

theorem next_append (s : SkipList K) (node : SkipNode K) (top l y : Nat) :
    SkipList.next { nodes := s.nodes ++ [node], maxHeight := top } l y =
      if y = s.nodes.length then node.next[l]? else s.next l y := by
  rw [next, next]
  rcases lt_trichotomy y s.nodes.length with below | rfl | above
  · rw [if_neg below.ne, List.getElem?_append_left below]
  · simp
  · have beyond : (s.nodes ++ [node]).length ≤ y := by simpa using above
    rw [if_neg above.ne', List.getElem?_eq_none beyond, List.getElem?_eq_none above.le]

section
variable [LT K]

theorem Represents.index_lt (represents : Represents s before) {e : Tower K} (mem : e ∈ before) :
    e.index < s.nodes.length := by
  obtain ⟨node, found, -⟩ := map_eq_some_iff.mp (represents.keyed e mem)
  exact (List.getElem?_eq_some_iff.mp found).1

theorem Represents.level (represents : Represents s before) (l : Nat) :
    (head :: onLevel l before).Nodup ∧ ∀ y ∈ head :: onLevel l before, y < s.nodes.length := by
  refine ⟨nodup_cons.mpr ⟨fun mem => ?_, ?_⟩, fun y mem => ?_⟩
  · obtain ⟨e, inside, isHead⟩ := mem_of_onLevel mem
    exact (represents.behind e inside).ne isHead.symm
  · exact represents.distinct.sublist (filter_sublist.map _)
  · obtain rfl | mem := mem_cons.mp mem
    · exact Nat.zero_lt_of_lt represents.few
    · obtain ⟨e, inside, rfl⟩ := mem_of_onLevel mem
      exact represents.index_lt inside

theorem Represents.linked {s' : SkipList K} (represents : Represents s (before ++ after))
    (smaller : ∀ e ∈ before, e.key < key) (larger : ∀ e ∈ after, key < e.key)
    (positive : 1 ≤ height) (bounded : height ≤ kMaxHeight)
    (top : s'.maxHeight = max s.maxHeight height)
    (keys : s'.nodes.map SkipNode.key = s.nodes.map SkipNode.key ++ [key])
    (pointers : ∀ l y, s'.next l y =
      if l < height ∧ y = lastOn l before then some (some s.nodes.length)
      else if l < height ∧ y = s.nodes.length then s.next l (lastOn l before)
      else if y = s.nodes.length then none else s.next l y) :
    Represents s' (before ++ ⟨s.nodes.length, key, height⟩ :: after) := by
  have member : ∀ e ∈ before ++ ⟨s.nodes.length, key, height⟩ :: after,
      e = ⟨s.nodes.length, key, height⟩ ∨ e ∈ before ++ after := by
    intro e mem
    simpa [or_left_comm] using mem
  constructor
  case keyed =>
    intro e mem
    rw [← List.getElem?_map, keys]
    obtain rfl | old := member e mem
    · simp
    · rw [List.getElem?_append_left (by simpa using represents.index_lt old), List.getElem?_map]
      exact represents.keyed e old
  case behind =>
    intro e mem
    obtain rfl | old := member e mem
    · exact Nat.zero_lt_of_lt represents.few
    · exact represents.behind e old
  case height =>
    intro e mem
    obtain rfl | old := member e mem
    · exact ⟨positive, bounded⟩
    · exact represents.height e old
  case distinct =>
    rw [map_append, map_cons, nodup_middle, nodup_cons, ← map_append]
    refine ⟨fun mem => ?_, represents.distinct⟩
    obtain ⟨e, inside, same⟩ := mem_map.mp mem
    exact (represents.index_lt inside).ne same
  case sorted =>
    obtain ⟨first, second, across⟩ := pairwise_append.mp represents.sorted
    refine pairwise_append.mpr ⟨first, pairwise_cons.mpr ⟨larger, second⟩, ?_⟩
    intro a inA b inB
    obtain rfl | inB := mem_cons.mp inB
    · exact smaller a inA
    · exact across a inA b inB
  case links =>
    intro l low
    have links := represents.links l low
    obtain ⟨distinct, bound⟩ := represents.level l
    have fresh : s.nodes.length ∉ head :: onLevel l (before ++ after) := fun mem =>
      (bound _ mem).false
    rw [onLevel_append] at links distinct fresh
    rw [onLevel_append]
    by_cases short : l < height
    · have other : s.nodes.length ≠ lastOn l before := by
        intro same
        refine fresh (same ▸ ?_)
        exact mem_cons.mpr ((mem_cons.mp getLastD_mem_cons).imp_right
          (mem_append_left _))
      rw [onLevel_cons_of_lt short]
      refine links.insert distinct fresh ?_ ?_ fun y notP notX => ?_
      · rw [pointers, if_pos ⟨short, rfl⟩]
      · rw [pointers, if_neg (fun both => other both.2), if_pos ⟨short, rfl⟩]
        rfl
      · rw [pointers, if_neg (fun both => notP both.2), if_neg (fun both => notX both.2),
          if_neg notX]
    · have same : ∀ y ∈ head :: (onLevel l before ++ onLevel l after), s'.next l y = s.next l y := by
        intro y mem
        have notX : y ≠ s.nodes.length := fun isX => fresh (isX ▸ mem)
        rw [pointers, if_neg (fun both => short both.1), if_neg (fun both => short both.1),
          if_neg notX]
      have unchanged : onLevel l (⟨s.nodes.length, key, height⟩ :: after) = onLevel l after := by
        simp [onLevel, short]
      rw [unchanged]
      exact links.moved (same head mem_cons_self) fun y mem =>
        same y (mem_cons_of_mem head mem)
  case below =>
    intro e mem
    rw [top]
    obtain rfl | old := member e mem
    · exact le_max_right _ _
    · exact (represents.below e old).trans (le_max_left _ _)
  case top =>
    rw [top]
    exact ⟨le_max_of_le_right positive, max_le represents.top.2 bounded⟩
  case few =>
    have length := congrArg List.length keys
    have few := represents.few
    simp only [length_map, length_append, length_cons, length_nil] at length few ⊢
    omega

end

theorem insert_represents [Preorder K] [DecidableLT K] (represents : Represents s (before ++ after))
    (smaller : ∀ e ∈ before, e.key < key) (larger : ∀ e ∈ after, key < e.key)
    (positive : 1 ≤ height) (bounded : height ≤ kMaxHeight) :
    ∃ s', s.insert key height = some s' ∧ s'.maxHeight = max s.maxHeight height ∧
      Represents s' (before ++ ⟨s.nodes.length, key, height⟩ :: after) := by
  obtain ⟨prev, found, filled⟩ := searchAll_spec (· < key) represents
    (fun e mem => decide_eq_true (smaller e mem))
    fun e mem => decide_eq_false (larger e mem).not_gt
  have bound : ∀ l, lastOn l before < s.nodes.length := by
    intro l
    refine (represents.level l).2 _ ?_
    rw [onLevel_append]
    exact mem_cons.mpr ((mem_cons.mp getLastD_mem_cons).imp_right
      (mem_append_left _))
  -- above the old height nothing is on the level, and the node before is `head_`
  have prevs : ∀ l < height, (if s.maxHeight ≤ l && decide (l < height) then some head
      else prev l) = some (lastOn l before) := by
    intro l short
    by_cases high : s.maxHeight ≤ l
    · have none := represents.onLevel_top high
      rw [onLevel_append, append_eq_nil_iff] at none
      simp [high, short, lastOn, none.1]
    · simp [high, filled l (Nat.lt_of_not_le high)]
  let grown : SkipList K :=
    { nodes := s.nodes ++ [{ key, next := List.replicate height none }]
      maxHeight := max s.maxHeight height }
  have reads : ∀ l < height, (grown.next l (lastOn l before)).isSome := by
    intro l short
    rw [next_append, if_neg (bound l).ne]
    have links := represents.links l (short.trans_le bounded)
    rw [onLevel_append] at links
    exact Option.isSome_iff_exists.mpr ⟨_, links.drop.next_eq⟩
  have own : ∀ l < height, (grown.next l s.nodes.length).isSome := by
    intro l short
    rw [next_append, if_pos rfl]
    simp [short]
  obtain ⟨s', linked, top, keys, pointers⟩ :=
    link_spec (fun l => (bound l).ne) prevs reads own le_rfl
  refine ⟨s', ?_, top, represents.linked smaller larger positive bounded top ?_ fun l y => ?_⟩
  · rw [insert, findGreaterOrEqual, found]
    exact linked
  · simpa [grown] using keys
  · rw [pointers, next_append, next_append, if_neg (bound l).ne]
    by_cases short : l < height
    · by_cases isX : y = s.nodes.length <;> simp [short, isX]
    · simp [short]

end inserting

section reading
variable {s : SkipList K} {xs ys : List (Tower K)}

section
variable [LT K]

/-- A tower as an entry of a cursor. -/
def Tower.entry (e : Tower K) : K × Unit := (e.key, ())

theorem Represents.keyOf (represents : Represents s xs) {e : Tower K} (mem : e ∈ xs) :
    s.keyOf e.index = some e.key := by
  rw [SkipList.keyOf, if_neg (represents.behind e mem).ne', represents.keyed e mem]

theorem Represents.keysAt (represents : Represents s xs) {level : Nat} (low : level < kMaxHeight) :
    s.keysAt level = some ((xs.filter (level < ·.height)).map Tower.key) := by
  have walked : walk (s.next level) (s.nodes.length + 1) head = some (onLevel level xs) := by
    refine (represents.links level low).walk ?_
    have few := represents.few
    have short := length_filter_le (level < ·.height) xs
    rw [onLevel, length_map]
    omega
  have keys : ∀ ys ⊆ xs, (ys.map Tower.index).mapM s.keyOf = some (ys.map Tower.key) := by
    intro ys
    induction ys with
    | nil => simp
    | cons e ys ih =>
      intro sub
      obtain ⟨mem, sub⟩ := cons_subset.mp sub
      simp [represents.keyOf mem, ih sub]
  rw [SkipList.keysAt, walked, bind_some, onLevel, keys _ (filter_subset_self _)]

end

section
variable [Preorder K] [DecidableLT K] {before after : List (Tower K)} {key : K}

theorem Represents.split (represents : Represents s xs) (key : K) :
    ∃ before after, xs = before ++ after ∧ (∀ e ∈ before, e.key < key) ∧
      ∀ e ∈ after, ¬e.key < key := by
  have sorted := represents.sorted
  clear represents
  induction xs with
  | nil => exact ⟨[], [], rfl, by simp, by simp⟩
  | cons e xs ih =>
    obtain ⟨first, rest⟩ := pairwise_cons.mp sorted
    by_cases less : e.key < key
    · obtain ⟨before, after, rfl, smaller, larger⟩ := ih rest
      exact ⟨e :: before, after, rfl, by simpa [less] using smaller, larger⟩
    · refine ⟨[], e :: xs, rfl, by simp, fun e' mem => ?_⟩
      obtain rfl | mem := mem_cons.mp mem
      · exact less
      · exact fun less' => less ((first e' mem).trans less')

omit [DecidableLT K] in
theorem Represents.around {e : Tower K} (represents : Represents s (before ++ e :: after)) :
    (∀ e' ∈ before, e'.key < e.key) ∧ ∀ e' ∈ e :: after, ¬e'.key < e.key := by
  obtain ⟨-, rest, across⟩ := pairwise_append.mp represents.sorted
  refine ⟨fun e' mem => across e' mem e mem_cons_self, fun e' mem => ?_⟩
  obtain rfl | mem := mem_cons.mp mem
  · exact lt_irrefl _
  · exact ((pairwise_cons.mp rest).1 e' mem).not_gt

variable (represents : Represents s (before ++ after)) (smaller : ∀ e ∈ before, e.key < key)
  (larger : ∀ e ∈ after, ¬e.key < key)
include represents smaller larger

theorem Represents.findGreaterOrEqual :
    ∃ prev, s.findGreaterOrEqual key = some ((after.map Tower.index).head?, prev) := by
  obtain ⟨prev, found, -⟩ := searchAll_spec (· < key) represents
    (fun e mem => decide_eq_true (smaller e mem)) fun e mem => decide_eq_false (larger e mem)
  exact ⟨prev, by rw [SkipList.findGreaterOrEqual, found]; rfl⟩

theorem Represents.findLessThan :
    s.findLessThan key = some ((before.map Tower.index).getLastD head) := by
  obtain ⟨prev, found, -⟩ := searchAll_spec (· < key) represents
    (fun e mem => decide_eq_true (smaller e mem)) fun e mem => decide_eq_false (larger e mem)
  have all := onLevel_zero fun e mem => (represents.height e (mem_append_left after mem)).1
  rw [SkipList.findLessThan, found, map_some, lastOn, all]

end

theorem Represents.findLast [LT K] (represents : Represents s xs) :
    s.findLast = some ((xs.map Tower.index).getLastD head) := by
  obtain ⟨prev, found, -⟩ := searchAll_spec (fun _ => true)
    (show Represents s (xs ++ []) by rwa [append_nil]) (fun _ _ => rfl) (by simp)
  have all := onLevel_zero fun e mem => (represents.height e mem).1
  rw [SkipList.findLast, found, map_some, lastOn, all]

section presenting
variable {ι ν : Type} [Preorder K] [DecidableLT K] [LinearOrder ι]
  {it : Iterator ι ν (Option Nat)} {shows : Tower K → ι × ν}

/-- An iterator that moves over the nodes and shows each as an entry of its own. Its targets are
ordered against the entries as some key is against the nodes. -/
structure Presents (s : SkipList K) (xs : List (Tower K)) (it : Iterator ι ν (Option Nat))
    (shows : Tower K → ι × ν) : Prop where
  nowhere : it.entry none = none
  entry : ∀ e ∈ xs, it.entry (some e.index) = some (shows e)
  ordered : ∀ a ∈ xs, ∀ b ∈ xs, a.key < b.key → (shows a).1 < (shows b).1
  seek : ∀ target, ∃ key, (∀ node, it.step (.seek target) node = s.step node (.seek key)) ∧
    ∀ e ∈ xs, e.key < key ↔ (shows e).1 < target
  seekToFirst : ∀ node, it.step .seekToFirst node = s.step node .seekToFirst
  seekToLast : ∀ node, it.step .seekToLast node = s.step node .seekToLast
  next : ∀ node, it.step .next node = s.step node .next
  prev : ∀ node, it.step .prev node = s.step node .prev

section
variable (presents : Presents s xs it shows)
include presents

theorem Presents.entry_head (sub : ys ⊆ xs) :
    it.entry (ys.map Tower.index).head? = (ys.map shows).head? := by
  cases ys with
  | nil => exact presents.nowhere
  | cons e ys => exact presents.entry e (sub mem_cons_self)

theorem Presents.entry_last (represents : Represents s xs)
    (sub : ys ⊆ xs) : it.entry (unlessHead ((ys.map Tower.index).getLastD head)) =
      (ys.map shows).getLast? := by
  obtain rfl | ⟨front, e, rfl⟩ := eq_nil_or_concat' ys
  · exact presents.nowhere
  · have mem : e ∈ xs := sub (by simp)
    have behind := (represents.behind e mem).ne'
    simpa [unlessHead, behind] using presents.entry e mem

theorem Presents.sorted (represents : Represents s xs) : Sorted (xs.map shows) :=
  pairwise_map.mpr (represents.sorted.imp_of_mem fun inA inB => presents.ordered _ inA _ inB)

theorem Presents.tower {node : Option Nat}
    (inside : ∀ x ∈ node, ∃ e ∈ xs, e.index = x) (stands : (it.entry node).isSome) :
    ∃ before e after, xs = before ++ e :: after ∧ node = some e.index := by
  cases node with
  | none =>
    rw [presents.nowhere] at stands
    cases stands
  | some x =>
    obtain ⟨e, mem, rfl⟩ := inside x rfl
    obtain ⟨before, after, isList⟩ := append_of_mem mem
    exact ⟨before, e, after, isList, rfl⟩

end

theorem Represents.behaves (represents : Represents s xs) (presents : Presents s xs it shows) :
    Behaves it (xs.map shows) fun node => ∀ x ∈ node, ∃ e ∈ xs, e.index = x := by
  have sorted := presents.sorted represents
  have onHead : ∀ ys ⊆ xs, ∀ x ∈ (ys.map Tower.index).head?, ∃ e ∈ xs, e.index = x := by
    intro ys sub x isX
    obtain ⟨e, mem, rfl⟩ := mem_map.mp (mem_of_head? isX)
    exact ⟨e, sub mem, rfl⟩
  have onLast : ∀ ys ⊆ xs, ∀ x ∈ unlessHead ((ys.map Tower.index).getLastD head),
      ∃ e ∈ xs, e.index = x := by
    intro ys sub x isX
    rw [unlessHead] at isX
    obtain ⟨behind, isX⟩ := Option.ite_none_left_eq_some.mp isX
    cases isX
    obtain isHead | mem := mem_cons.mp (getLastD_mem_cons (l := ys.map Tower.index))
    · exact absurd isHead behind
    · obtain ⟨e, inside, isIndex⟩ := mem_map.mp mem
      exact ⟨e, sub inside, isIndex⟩
  have all : xs ⊆ xs := List.Subset.refl xs
  have links := represents.links 0 (by decide)
  rw [onLevel_zero fun e mem => (represents.height e mem).1] at links
  intro node op inside allowed
  cases op with
  | seek target =>
    obtain ⟨key, seeks, against⟩ := presents.seek target
    obtain ⟨before, after, rfl, smaller, larger⟩ := represents.split key
    obtain ⟨prev, found⟩ := represents.findGreaterOrEqual smaller larger
    have sub : after ⊆ before ++ after := subset_append_right before after
    refine ⟨_, by simp [seeks, step, found], onHead after sub, ?_⟩
    rw [presents.entry_head sub, look, map_append, find_split]
    · intro x mem
      obtain ⟨e, inside, rfl⟩ := mem_map.mp mem
      have less := (against e (mem_append_left after inside)).mp (smaller e inside)
      exact decide_eq_false (not_le.mpr less)
    · intro x mem
      obtain ⟨e, inside, rfl⟩ := mem_map.mp mem
      have notLess := (against e (sub inside)).not.mp (larger e inside)
      exact decide_eq_true (not_lt.mp notLess)
  | seekToFirst =>
    exact ⟨_, (presents.seekToFirst node).trans links.next_eq, onHead xs all,
      presents.entry_head all⟩
  | seekToLast =>
    exact ⟨_, by simp [presents.seekToLast, step, represents.findLast], onLast xs all,
      presents.entry_last represents all⟩
  | next =>
    obtain ⟨before, e, after, rfl, rfl⟩ := presents.tower inside allowed
    have sub : after ⊆ before ++ e :: after := by intro e' mem; simp [mem]
    have behind : Links (s.next 0) e.index (after.map Tower.index) := by
      have parts : (before ++ e :: after).map Tower.index =
        (before.map Tower.index ++ [e.index]) ++ after.map Tower.index := by simp
      rw [parts] at links
      simpa using links.drop
    refine ⟨_, by simp [presents.next, step, behind.next_eq], onHead after sub, ?_⟩
    rw [presents.entry_head sub, presents.entry e (by simp), map_append, map_cons]
    rw [map_append, map_cons] at sorted
    exact sorted.look_next.symm
  | prev =>
    obtain ⟨before, e, after, rfl, rfl⟩ := presents.tower inside allowed
    obtain ⟨smaller, larger⟩ := represents.around
    have mem : e ∈ before ++ e :: after := by simp
    have sub : before ⊆ before ++ e :: after := subset_append_left before _
    obtain ⟨node, isNode, isKey⟩ := map_eq_some_iff.mp (represents.keyed e mem)
    refine ⟨_, ?_, onLast before sub, ?_⟩
    · simp [presents.prev, step, isNode, isKey, represents.findLessThan smaller larger]
    · rw [presents.entry_last represents sub, presents.entry e mem, map_append, map_cons]
      rw [map_append, map_cons] at sorted
      exact sorted.look_prev.symm

end presenting

section
variable [LT K]

theorem Represents.keyOf_head (represents : Represents s xs) (sub : ys ⊆ xs) :
    (ys.map Tower.index).head?.map s.keyOf = (ys.map Tower.key).head?.map some := by
  cases ys with
  | nil => rfl
  | cons e ys => exact congrArg some (represents.keyOf (sub mem_cons_self))

theorem Represents.keyOf_last (represents : Represents s xs) (sub : ys ⊆ xs) :
    (unlessHead ((ys.map Tower.index).getLastD head)).map s.keyOf =
      (ys.map Tower.key).getLast?.map some := by
  obtain rfl | ⟨front, e, rfl⟩ := eq_nil_or_concat' ys
  · rfl
  · have mem : e ∈ xs := sub (by simp)
    have behind := (represents.behind e mem).ne'
    simpa [unlessHead, behind] using represents.keyOf mem

theorem Represents.entry [DecidableLT K] (represents : Represents s xs) {e : Tower K}
    (mem : e ∈ xs) : s.iterator.entry (some e.index) = some e.entry := by
  simp [iterator, represents.keyOf mem, Tower.entry]

end

section
variable [LinearOrder K]

theorem Represents.presents (represents : Represents s xs) :
    Presents s xs s.iterator Tower.entry where
  nowhere := rfl
  entry _ mem := represents.entry mem
  ordered _ _ _ _ less := less
  seek target := ⟨target, fun _ => rfl, fun _ _ => Iff.rfl⟩
  seekToFirst _ := rfl
  seekToLast _ := rfl
  next _ := rfl
  prev _ := rfl

/-- What the searches and the iterator find is what a sorted list of keys has. The null pointer
stands for no key where a node is looked for, and `head_` where the node before is. -/
structure SortedSet (s : SkipList K) (keys : List K) : Prop where
  contains : ∀ key, s.contains key = some (decide (key ∈ keys))
  greaterOrEqual : ∀ key, ∃ x prev, s.findGreaterOrEqual key = some (x, prev) ∧
    x.map s.keyOf = (keys.find? (key ≤ ·)).map some
  lessThan : ∀ key, ∃ x, s.findLessThan key = some x ∧
    (unlessHead x).map s.keyOf = (keys.reverse.find? (· < key)).map some
  last : ∃ x, s.findLast = some x ∧ (unlessHead x).map s.keyOf = keys.getLast?.map some
  iterator : ∀ ops pos, Cursor.run (keys.map (·, ())) none ops = some pos →
    ∃ node, s.iterator.run none ops = some node ∧
      node.map s.keyOf = (pos.bind (keys[·]?)).map some

theorem Represents.sortedSet (represents : Represents s xs) : SortedSet s (xs.map Tower.key) := by
  constructor
  case contains =>
    intro key
    obtain ⟨before, after, rfl, smaller, larger⟩ := represents.split key
    obtain ⟨prev, found⟩ := represents.findGreaterOrEqual smaller larger
    have notBefore : ∀ e ∈ before, e.key ≠ key := fun e mem => (smaller e mem).ne
    rw [SkipList.contains, found]
    cases after with
    | nil => simpa using notBefore
    | cons e after =>
      obtain ⟨node, isNode, isKey⟩ := map_eq_some_iff.mp (represents.keyed e (by simp))
      have notAfter : ∀ e' ∈ after, e'.key ≠ key := by
        intro e' mem
        have order := pairwise_cons.mp (pairwise_append.mp represents.sorted).2.1
        exact ((not_lt.mp (larger e mem_cons_self)).trans_lt (order.1 e' mem)).ne'
      have only : key ∈ (before ++ e :: after).map Tower.key ↔ key = e.key := by
        simp only [mem_map, mem_append, mem_cons]
        constructor
        · rintro ⟨e', inBefore | rfl | inAfter, same⟩
          · exact absurd same (notBefore e' inBefore)
          · exact same.symm
          · exact absurd same (notAfter e' inAfter)
        · intro same
          exact ⟨e, .inr (.inl rfl), same.symm⟩
      have same : decide (key = e.key) = decide (key ∈ (before ++ e :: after).map Tower.key) :=
        decide_eq_decide.mpr only.symm
      rw [← same]
      simp [isNode, isKey]
  case greaterOrEqual =>
    intro key
    obtain ⟨before, after, rfl, smaller, larger⟩ := represents.split key
    obtain ⟨prev, found⟩ := represents.findGreaterOrEqual smaller larger
    refine ⟨_, prev, found, ?_⟩
    rw [represents.keyOf_head (subset_append_right before after), map_append, find_split]
    · simpa using smaller
    · simpa using larger
  case lessThan =>
    intro key
    obtain ⟨before, after, rfl, smaller, larger⟩ := represents.split key
    refine ⟨_, represents.findLessThan smaller larger, ?_⟩
    rw [represents.keyOf_last (subset_append_left before after), map_append,
      reverse_append, find_split, List.head?_reverse]
    · simpa using larger
    · simpa using smaller
  case last => exact ⟨_, represents.findLast, represents.keyOf_last (List.Subset.refl xs)⟩
  case iterator =>
    intro ops pos ran
    have sorted : Sorted (xs.map Tower.entry) := pairwise_map.mpr represents.sorted
    have entries : (xs.map Tower.key).map (·, ()) = xs.map Tower.entry := by
      rw [map_map]
      rfl
    rw [entries] at ran
    obtain ⟨node, went, inside, shown⟩ := (represents.behaves represents.presents).run sorted
      (s := none) (by simp) (by simp) rfl ran
    refine ⟨node, went, ?_⟩
    have isEntry : entryAt (xs.map Tower.entry) pos =
        (pos.bind ((xs.map Tower.key)[·]?)).map (·, ()) := by
      cases pos with
      | none => rfl
      | some i =>
        simp only [entryAt, bind_some, List.getElem?_map, Option.map_map]
        rfl
    rw [isEntry] at shown
    cases node with
    | none =>
      rw [Option.map_eq_none_iff.mp shown.symm]
      rfl
    | some x =>
      obtain ⟨e, mem, rfl⟩ := inside x rfl
      rw [represents.entry mem] at shown
      obtain ⟨key, isKey, same⟩ := map_eq_some_iff.mp shown.symm
      have isKey' : key = e.key := congrArg Prod.fst same
      rw [isKey, map_some, represents.keyOf mem, map_some, isKey']

end
end reading

/-- The insertions one after another, each with the height that was drawn for it. -/
def insertAll [LinearOrder K] (s : SkipList K) : List (K × Nat) → Option (SkipList K)
  | [] => some s
  | (key, height) :: rest => (s.insert key height).bind (insertAll · rest)

theorem empty_represents [LT K] (zero : K) : Represents (empty zero) [] := by
  constructor
  case links =>
    intro level low
    simp [Links, onLevel, empty, SkipList.next, head, low]
  case top => exact ⟨le_refl 1, by simp [empty, kMaxHeight]⟩
  case few => exact Nat.zero_lt_one
  all_goals simp

theorem Represents.insertAll [LinearOrder K] {s : SkipList K} {xs : List (Tower K)}
    (represents : Represents s xs) {inserts : List (K × Nat)}
    (distinct : (inserts.map Prod.fst).Nodup)
    (fresh : ∀ x ∈ inserts, ∀ e ∈ xs, e.key ≠ x.1)
    (heights : ∀ x ∈ inserts, 1 ≤ x.2 ∧ x.2 ≤ kMaxHeight) :
    ∃ s' xs', s.insertAll inserts = some s' ∧ Represents s' xs' ∧
      (xs'.map Tower.key).Perm (xs.map Tower.key ++ inserts.map Prod.fst) ∧
      s'.maxHeight = (inserts.map Prod.snd).foldl max s.maxHeight := by
  induction inserts generalizing s xs with
  | nil => exact ⟨s, xs, rfl, represents, by simp, rfl⟩
  | cons x rest ih =>
    obtain ⟨key, height⟩ := x
    obtain ⟨before, after, rfl, smaller, larger⟩ := represents.split key
    obtain ⟨positive, bounded⟩ := heights _ mem_cons_self
    have notKey := fresh _ mem_cons_self
    have above : ∀ e ∈ after, key < e.key := fun e mem =>
      lt_of_le_of_ne (not_lt.mp (larger e mem)) (notKey e (mem_append_right _ mem)).symm
    obtain ⟨s₁, inserted, top, represents₁⟩ :=
      insert_represents represents smaller above positive bounded
    obtain ⟨notIn, distinct⟩ := nodup_cons.mp distinct
    have fresh₁ : ∀ x ∈ rest, ∀ e ∈ before ++ ⟨s.nodes.length, key, height⟩ :: after, e.key ≠ x.1 := by
      intro x mem e inside
      obtain inBefore | inRest := mem_append.mp inside
      · exact fresh x (mem_cons_of_mem _ mem) e (mem_append_left after inBefore)
      · obtain rfl | inAfter := mem_cons.mp inRest
        · intro same
          exact notIn (mem_map.mpr ⟨x, mem, same.symm⟩)
        · exact fresh x (mem_cons_of_mem _ mem) e (mem_append_right before inAfter)
    obtain ⟨s', xs', ran, represents', same, top'⟩ := ih represents₁ distinct fresh₁ fun x mem =>
      heights x (mem_cons_of_mem _ mem)
    refine ⟨s', xs', by simpa [SkipList.insertAll, inserted] using ran, represents', same.trans ?_, ?_⟩
    · simp only [map_append, map_cons, append_assoc, cons_append]
      refine List.Perm.append_left _ ?_
      exact perm_middle.symm
    · rw [top', top]
      rfl

/-- For keys that are all different and any heights, the levels are sorted and each is part of the
one below, the lowest has all keys, and the searches and the iterator agree with it. -/
theorem insertAll_sorted [LinearOrder K] (zero : K) (inserts : List (K × Nat))
    (distinct : (inserts.map Prod.fst).Nodup)
    (heights : ∀ x ∈ inserts, 1 ≤ x.2 ∧ x.2 ≤ kMaxHeight) :
    ∃ (s : SkipList K) (levels : Nat → List K), (empty zero).insertAll inserts = some s ∧
      (∀ l < kMaxHeight, s.keysAt l = some (levels l) ∧ (levels l).Pairwise (· < ·)) ∧
      (∀ l, l + 1 < kMaxHeight → (levels (l + 1)).Sublist (levels l)) ∧
      (levels 0).Perm (inserts.map Prod.fst) ∧
      s.maxHeight = (inserts.map Prod.snd).foldl max 1 ∧ SortedSet s (levels 0) := by
  obtain ⟨s, xs, ran, represents, same, top⟩ :=
    (empty_represents zero).insertAll distinct (by simp) heights
  have all : xs.filter (0 < ·.height) = xs :=
    filter_eq_self.mpr fun e mem => decide_eq_true (represents.height e mem).1
  refine ⟨s, fun l => (xs.filter (l < ·.height)).map Tower.key, ran, fun l low => ?_, fun l low => ?_,
    ?_, top, ?_⟩
  · refine ⟨represents.keysAt low, pairwise_map.mpr ?_⟩
    exact represents.sorted.sublist filter_sublist
  · have fewer : xs.filter (l + 1 < ·.height) =
        (xs.filter (l < ·.height)).filter (l + 1 < ·.height) := by
      rw [filter_filter]
      refine filter_congr fun e _ => ?_
      by_cases high : l + 1 < e.height
      · simp [high, Nat.lt_of_succ_lt high]
      · simp [high]
    simp only [fewer]
    exact filter_sublist.map _
  · simpa only [all, map_nil, nil_append] using same
  · simpa only [all] using represents.sortedSet

/-- Towers of heights 1, 3 and 2, inserted out of order. -/
theorem insertAll_sorted_three : ∃ (s : SkipList Nat) (levels : Nat → List Nat),
    (empty 0).insertAll [(20, 1), (10, 3), (30, 2)] = some s ∧ s.keysAt 1 = some [10, 30] ∧
      s.maxHeight = 3 ∧ SortedSet s (levels 0) ∧ levels 0 = [10, 20, 30] := by
  obtain ⟨s, levels, ran, sorted, -, -, top, agrees⟩ :=
    insertAll_sorted 0 [(20, 1), (10, 3), (30, 2)] (by decide) (by decide)
  have shape : ((empty 0).insertAll [(20, 1), (10, 3), (30, 2)]).all (fun s =>
      s.keysAt 0 = some [10, 20, 30] && s.keysAt 1 = some [10, 30]) = true := by decide +kernel
  rw [ran, Option.all_some, Bool.and_eq_true, decide_eq_true_eq, decide_eq_true_eq] at shape
  refine ⟨s, levels, ran, shape.2, top, agrees, ?_⟩
  exact Option.some.inj ((sorted 0 (by decide)).1.symm.trans shape.1)

end SkipList
end TalusDB
