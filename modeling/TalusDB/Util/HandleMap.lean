import TalusDB.Util.HandleTable

/-! `HandleTable` as a finite map from keys to handles, over any sequence of its calls. -/
namespace TalusDB
namespace HandleTable
open List Function Option UInt8

inductive Call where
  | insert (h : Nat)
  | remove (k : HandleKey)
  | lookup (k : HandleKey)
  deriving DecidableEq, Repr

section calls
variable (keys : Nat → HandleKey)

/-- One call on handles with these keys and hashes, with the handle that it returns. -/
def call (t : HandleTable) : Call → Option (Option Nat × HandleTable)
  | .insert h => t.insert (some ∘ keys) h
  | .remove k => t.remove (some ∘ keys) k
  | .lookup k => do
    let o ← t.lookup (some ∘ keys) k
    some (o, t)

def calls (t : HandleTable) : List Call → Option (List (Option Nat) × HandleTable)
  | [] => some ([], t)
  | c :: cs => do
    let (o, t) ← t.call keys c
    let (os, t) ← t.calls cs
    some (o :: os, t)

/-- The same call on the reference map. -/
def mapCall (m : HandleKey → Option Nat) : Call → Option Nat × (HandleKey → Option Nat)
  | .insert h => (m (keys h), Function.update m (keys h) (some h))
  | .remove k => (m k, Function.update m k none)
  | .lookup k => (m k, m)

def mapCalls (m : HandleKey → Option Nat) : List Call → List (Option Nat) × (HandleKey → Option Nat)
  | [] => ([], m)
  | c :: cs =>
    let (o, m) := mapCall keys m c
    let (os, m) := mapCalls m cs
    (o :: os, m)

def chain (t : HandleTable) (i : Nat) : List Nat := t.chainFrom (t.elems + 1) (t.list i)

/-- The table holds the handles of the map, each in the chain of its hash and there once. -/
structure Holds (t : HandleTable) (m : HandleKey → Option Nat) : Prop where
  shape : ∃ n, 2 ≤ n ∧ t.length = 2 ^ n
  chains : ∀ i < t.length, ∀ h,
    h ∈ t.chain i ↔ m (keys h) = some h ∧ bucketOf t.length (keys h).hash = i
  distinct : ∀ i < t.length, (t.chain i).Nodup
  unique : ∀ h ∈ t.entries, ∀ h' ∈ t.entries, keys h = keys h' → h = h'
  named : ∀ k h, m k = some h → keys h = k
  count : t.elems = t.entries.length
  loaded : t.elems ≤ t.length

/-- An `Insert` that does not bring the table above 2^31 handles. -/
def Room (t : HandleTable) : Call → Prop
  | .insert h => t.elems < 2 ^ 31 ∨ ∃ o, t.lookup (some ∘ keys) (keys h) = some (some o)
  | .remove _ => True
  | .lookup _ => True

def Roomy (t : HandleTable) : List Call → Prop
  | [] => True
  | c :: cs => t.Room keys c ∧ ∀ o t', t.call keys c = some (o, t') → t'.Roomy cs

end calls

variable {keys : Nat → HandleKey} {keyOf : Nat → Option HandleKey} {t t' : HandleTable}
  {m : HandleKey → Option Nat}

/-- The table and the map before and after each call. -/
structure Agrees (keys : Nat → HandleKey) (t : HandleTable) (m : HandleKey → Option Nat) : Prop where
  valid : Valid (some ∘ keys) t
  finds : ∀ k, Finds (some ∘ keys) t.entries k (m k)

theorem agrees_new (keys : Nat → HandleKey) : Agrees keys new fun _ => none where
  valid := valid_new _
  finds k h := by simp [show new.entries = [] from rfl]

theorem write_read (t : HandleTable) (cell : Cell) : t.write cell (t.read cell) = t := by
  cases cell <;> simp [write, read]

/-- Above 2^31 the loop of `Resize` does not end: the length goes through all powers of two to 0. -/
theorem growLength_none {elems : Nat} (many : 2 ^ 31 < elems) (fuel : Nat) {n : Nat}
    (low : n = 0 ∨ ∃ e ≤ 31, n = 2 ^ e) : growLength elems fuel n = none := by
  induction fuel generalizing n with
  | zero => rfl
  | succ fuel ih =>
    have below : n < elems := by
      rcases low with rfl | ⟨e, small, rfl⟩
      · omega
      · exact Nat.lt_of_le_of_lt (Nat.pow_le_pow_right (by decide) small) many
    rw [growLength, if_pos below]
    apply ih
    rcases low with rfl | ⟨e, small, rfl⟩
    · exact .inl rfl
    · rcases Nat.lt_or_eq_of_le small with less | rfl
      · refine .inr ⟨e + 1, less, ?_⟩
        rw [← Nat.pow_succ]
        exact Nat.mod_eq_of_lt (Nat.pow_lt_pow_right (by decide) (by omega))
      · exact .inl rfl

namespace Valid

theorem loaded (valid : Valid keyOf t) : t.elems ≤ t.length ∧ ∃ n, 2 ≤ n ∧ n ≤ 31 ∧ t.length = 2 ^
    n := by
  obtain ⟨chains, stored⟩ := valid
  exact ⟨stored.loaded, stored.chained.shape⟩

variable {h : Nat} {k : HandleKey}

theorem insert_same (valid : Valid keyOf t) (key : keyOf h = some k)
    (isIn : h ∈ t.entries) : t.insert keyOf h = some (some h, t) := by
  obtain ⟨chains, stored⟩ := valid
  rw [stored.entries_eq] at isIn
  obtain ⟨before, after, -, found, leads, finds⟩ := stored.findPointer_spec k
  have here : t.read _ = some h := leads.read_eq.trans ((finds h).mpr ⟨isIn, key⟩)
  have same : t.write (.handle h) (t.nextHash h) = t := write_read t (.handle h)
  rw [insert_eq key found, here]
  simp only [reduceCtorEq, if_false, bind_some, same]
  rw [← here, write_read]

theorem insert_none (valid : Valid keyOf t) (key : keyOf h = some k)
    (absent : Finds keyOf t.entries k none) (full : 2 ^ 31 ≤ t.elems) :
    t.insert keyOf h = none := by
  obtain ⟨loaded, n, -, high, length⟩ := valid.loaded
  have most : 2 ^ n ≤ 2 ^ 31 := Nat.pow_le_pow_right (by decide) high
  obtain ⟨chains, stored⟩ := valid
  rw [stored.entries_eq] at absent
  obtain ⟨before, after, -, found, leads, finds⟩ := stored.findPointer_spec k
  have empty : after.head? = none := by
    refine eq_none_iff_forall_ne_some.mpr fun x isHead => ?_
    exact absurd ((absent x).mpr ((finds x).mp isHead)) (by simp)
  have grown : growLength ((t.elems + 1) % 2 ^ 32) 33 4 = none :=
    growLength_none (by omega) 33 (.inr ⟨2, by decide, rfl⟩)
  rw [insert_eq key found, leads.read_eq, empty]
  simp only [if_true]
  rw [if_pos (by omega), resize, grown]
  rfl

end Valid

section
variable (agrees : Agrees keys t m)
include agrees

theorem Agrees.holds : t.Holds keys m := by
  obtain ⟨loaded, n, low, -, length⟩ := agrees.valid.loaded
  obtain ⟨⟨chains, stored⟩, finds⟩ := agrees
  have chain (i : Nat) (bound : i < t.length) : t.chain i = chains i := by
    refine (leads_iff.mp (stored.chained.leads i bound)).chainFrom_eq (Nat.lt_succ_of_le ?_)
    rw [stored.count]
    exact stored.chained.chain_length_le i
  have member (h : Nat) : m (keys h) = some h ↔ h ∈ allOf t.length chains := by
    rw [finds (keys h) h, stored.entries_eq]
    exact and_iff_left rfl
  refine ⟨⟨n, low, length⟩, ?_, ?_, ?_, ?_, ?_, loaded⟩
  · intro i bound h
    rw [chain i bound, member]
    constructor
    · intro isIn
      obtain ⟨k, key, bucket⟩ := stored.chained.placed i h isIn
      cases key
      exact ⟨stored.chained.mem_all.mpr ⟨i, isIn⟩, bucket⟩
    · rintro ⟨isIn, rfl⟩
      exact stored.chained.mem_bucket isIn rfl
  · intro i bound
    rw [chain i bound]
    exact stored.chained.distinct i
  · intro h isIn h' isIn' same
    rw [stored.entries_eq] at isIn isIn'
    exact stored.unique h isIn h' isIn' (congrArg some same)
  · exact fun k h isH => Option.some.inj ((finds k h).mp isH).2
  · rw [stored.entries_eq]
    exact stored.count

theorem Agrees.unique {k : HandleKey} {o : Option Nat}
    (finds : Finds (some ∘ keys) t.entries k o) : o = m k := by
  ext h
  exact (finds h).trans (agrees.finds k h).symm

theorem Agrees.lookup (k : HandleKey) : t.lookup (some ∘ keys) k = some (m k) := by
  obtain ⟨o, result, finds⟩ := agrees.valid.lookup k
  rw [result, agrees.unique finds]

theorem Agrees.insert {h : Nat} (room : t.Room keys (.insert h)) :
    ∃ t', t.insert (some ∘ keys) h = some (m (keys h), t') ∧
      Agrees keys t' (Function.update m (keys h) (some h)) := by
  by_cases isIn : h ∈ t.entries
  · have same : m (keys h) = some h := (agrees.finds _ h).mpr ⟨isIn, rfl⟩
    refine ⟨t, ?_, ?_⟩
    · rw [same]
      exact agrees.valid.insert_same rfl isIn
    · rw [← same, update_eq_self]
      exact agrees
  · have few : Finds (some ∘ keys) t.entries (keys h) none → t.elems < 2 ^ 31 := by
      intro absent
      rcases room with few | ⟨o, found⟩
      · exact few
      · rw [agrees.lookup, ← agrees.unique absent] at found
        cases found
    obtain ⟨o, t', result, valid, finds, members⟩ := agrees.valid.insert rfl isIn few
    obtain rfl := agrees.unique finds
    refine ⟨t', result, valid, fun k x => ?_⟩
    by_cases here : k = keys h
    · subst here
      rw [update_self, members]
      constructor
      · rintro ⟨⟩
        exact ⟨.inl rfl, rfl⟩
      · rintro ⟨rfl | ⟨old, other⟩, key⟩
        · rfl
        · exact absurd ((agrees.finds _ x).mpr ⟨old, key⟩).symm other
    · rw [update_of_ne here, agrees.finds k x, members]
      refine and_congr_left fun key => ⟨fun old => .inr ⟨old, fun same => here ?_⟩, ?_⟩
      · exact Option.some.inj (key.symm.trans ((agrees.finds _ x).mp same.symm).2)
      · rintro (rfl | ⟨old, -⟩)
        · exact absurd (Option.some.inj key).symm here
        · exact old

theorem Agrees.remove (k : HandleKey) :
    ∃ t', t.remove (some ∘ keys) k = some (m k, t') ∧ Agrees keys t' (Function.update m k none) := by
  obtain ⟨o, t', result, valid, finds, members⟩ := agrees.valid.remove k
  obtain rfl := agrees.unique finds
  refine ⟨t', result, valid, fun k' x => ?_⟩
  rw [members, and_assoc]
  by_cases here : k' = k
  · subst here
    rw [update_self]
    refine iff_of_false (by simp) ?_
    rintro ⟨old, other, key⟩
    exact other ((agrees.finds _ x).mpr ⟨old, key⟩).symm
  · rw [update_of_ne here, agrees.finds k' x]
    refine and_congr_right fun _ => (and_iff_right_of_imp fun key same => here ?_).symm
    exact Option.some.inj (key.symm.trans ((agrees.finds _ x).mp same.symm).2)

end

variable {c : Call} {cs : List Call}

theorem Agrees.call (agrees : Agrees keys t m) (room : t.Room keys c) :
    ∃ t', t.call keys c = some ((mapCall keys m c).1, t') ∧ Agrees keys t' (mapCall keys m c).2 := by
  cases c with
  | insert h => exact agrees.insert room
  | remove k => exact agrees.remove k
  | lookup k =>
    refine ⟨t, ?_, agrees⟩
    rw [HandleTable.call, agrees.lookup]
    rfl

theorem Agrees.call_none (agrees : Agrees keys t m) (full : ¬t.Room keys c) :
    t.call keys c = none := by
  cases c with
  | insert h =>
    obtain ⟨many, absent⟩ := not_or.mp full
    have missing : m (keys h) = none := by
      refine eq_none_iff_forall_ne_some.mpr fun o found => absent ⟨o, ?_⟩
      rw [agrees.lookup, found]
    refine agrees.valid.insert_none rfl ?_ (Nat.le_of_not_lt many)
    rw [← missing]
    exact agrees.finds (keys h)
  | remove k => exact absurd trivial full
  | lookup k => exact absurd trivial full

theorem Agrees.calls (agrees : Agrees keys t m) (roomy : t.Roomy keys cs) :
    ∃ t', t.calls keys cs = some ((mapCalls keys m cs).1, t') ∧
      Agrees keys t' (mapCalls keys m cs).2 := by
  induction cs generalizing t m with
  | nil => exact ⟨t, rfl, agrees⟩
  | cons c cs ih =>
    obtain ⟨t₁, first, agrees₁⟩ := agrees.call roomy.1
    obtain ⟨t', rest, agrees'⟩ := ih agrees₁ (roomy.2 _ _ first)
    refine ⟨t', ?_, agrees'⟩
    simp only [HandleTable.calls, first, bind_eq_bind, bind_some, rest]
    rfl

theorem Agrees.calls_none (agrees : Agrees keys t m) (full : ¬t.Roomy keys cs) :
    t.calls keys cs = none := by
  induction cs generalizing t m with
  | nil => exact absurd trivial full
  | cons c cs ih =>
    by_cases room : t.Room keys c
    · obtain ⟨t₁, first, agrees₁⟩ := agrees.call room
      have later : ¬t₁.Roomy keys cs := by
        intro roomy
        refine full ⟨room, fun o t' same => ?_⟩
        rw [first] at same
        cases same
        exact roomy
      simp only [HandleTable.calls, first, bind_eq_bind, bind_some, ih agrees₁ later]
      rfl
    · rw [HandleTable.calls, agrees.call_none room]
      rfl

/-- In a sequence of calls where no `Insert` makes more than 2^31 handles, the table and what it
returns agree with the map. Any other sequence comes to an `Insert` that does not end. -/
theorem handleTable_map_iff (keys : Nat → HandleKey) (cs : List Call) :
    new.Roomy keys cs ↔ ∃ t, new.calls keys cs = some ((mapCalls keys (fun _ => none) cs).1, t) ∧
      t.Holds keys (mapCalls keys (fun _ => none) cs).2 := by
  constructor
  · intro roomy
    obtain ⟨t, result, agrees⟩ := (agrees_new keys).calls roomy
    exact ⟨t, result, agrees.holds⟩
  · rintro ⟨t, result, -⟩
    by_contra full
    rw [(agrees_new keys).calls_none full] at result
    cases result

/-- Handles with different keys, of four bytes up to `2 ^ 32`, and one hash. -/
def numbered (h : Nat) : HandleKey := ⟨(Nat.digits 256 h).map ofNat, 0⟩

theorem numbered_injective : Function.Injective numbered := by
  have decoded (h : Nat) : Nat.ofDigits 256 ((numbered h).key.map toNat) = h := by
    have same : (numbered h).key.map toNat = Nat.digits 256 h := by
      rw [numbered, List.map_map]
      refine (map_congr_left fun d mem => ?_).trans (List.map_id _)
      exact toNat_ofNat_of_lt' (Nat.digits_lt_base (by decide) mem)
    rw [same, Nat.ofDigits_digits]
  intro h h' same
  rw [← decoded h, same, decoded]

theorem calls_concat {os : List (Option Nat)} (c : Call)
    (result : t.calls keys cs = some (os, t')) :
    t.calls keys (cs ++ [c]) = (t'.call keys c).map fun r => (os ++ [r.1], r.2) := by
  induction cs generalizing t os with
  | nil =>
    cases result
    cases last : t'.call keys c <;> simp [calls, last]
  | cons first cs ih =>
    obtain ⟨⟨o, t₁⟩, one, rest⟩ := bind_eq_some_iff.mp result
    obtain ⟨⟨os', t₂⟩, more, same⟩ := bind_eq_some_iff.mp rest
    cases same
    rw [cons_append, calls, one, bind_eq_bind, bind_some]
    simp only [ih more]
    cases t'.call keys c <;> rfl

theorem inserts_numbered {n : Nat} (few : n ≤ 2 ^ 31) :
    ∃ os t m, new.calls numbered ((List.range n).map .insert) = some (os, t) ∧ Agrees numbered t m ∧
      t.elems = n ∧ ∀ h, h ∈ t.entries ↔ h < n := by
  induction n with
  | zero => exact ⟨[], new, _, rfl, agrees_new numbered, rfl, by simp [show new.entries = [] from rfl]⟩
  | succ n ih =>
    obtain ⟨os, t, m, result, agrees, count, members⟩ := ih (Nat.le_of_succ_le few)
    have room : t.Room numbered (.insert n) := .inl (count ▸ few)
    obtain ⟨t', inserted, agrees'⟩ := agrees.insert room
    have members' (h : Nat) : h ∈ t'.entries ↔ h < n + 1 := by
      have found := agrees'.finds (numbered h) h
      have old := agrees.finds (numbered h) h
      simp only [members, comp_apply, and_true] at found old
      rw [← found]
      by_cases same : h = n
      · simp [same]
      · rw [update_of_ne (numbered_injective.ne same), old]
        omega
    have all : t'.entries.Perm (List.range (n + 1)) :=
      (perm_ext_iff_of_nodup agrees'.valid.nodup nodup_range).mpr (by simp [members'])
    refine ⟨os ++ [m (numbered n)], t', _, ?_, agrees', ?_, members'⟩
    · rw [range_succ, map_append]
      refine (calls_concat (.insert n) result).trans ?_
      rw [call, inserted]
      rfl
    · rw [agrees'.valid.elems_eq, all.length_eq, length_range]

theorem handleTable_overflows : (∀ fuel, growLength (2 ^ 31 + 1) fuel 4 = none) ∧
      new.calls numbered ((List.range (2 ^ 31 + 1)).map .insert) = none := by
  constructor
  · exact fun fuel => growLength_none (by decide) fuel (.inr ⟨2, by decide, rfl⟩)
  · obtain ⟨os, t, m, result, agrees, count, members⟩ := inserts_numbered (Nat.le_refl (2 ^ 31))
    have full : ¬t.Room numbered (.insert (2 ^ 31)) := by
      rintro (few | ⟨o, found⟩)
      · exact absurd few (by omega)
      · rw [agrees.lookup] at found
        obtain ⟨isIn, key⟩ := (agrees.finds _ o).mp (Option.some.inj found)
        rw [numbered_injective (Option.some.inj key)] at isIn
        exact absurd ((members _).mp isIn) (Nat.lt_irrefl _)
    rw [range_succ, map_append]
    refine (calls_concat (.insert (2 ^ 31)) result).trans ?_
    rw [agrees.call_none full]
    rfl

end HandleTable
end TalusDB
