import Mathlib.Data.List.MinMax
import Mathlib.Data.Set.Basic

/-! Collections of timed entries, where several entries may have one key and a read at
a time sees the newest entry of a key that is no younger. -/
namespace Multiversion
open List Option
variable {E K T V : Type*}

section
variable [LinearOrder T] (key : E → K) (time : E → T)

/-- For each key, the entries of `A` are newer than those of `B`. -/
def Newer (A B : List E) : Prop :=
  ∀ a ∈ A, ∀ b ∈ B, key a = key b → time b < time a

/-- The key and the time identify an entry. -/
def Unique (l : List E) : Prop :=
  ∀ a ∈ l, ∀ b ∈ l, key a = key b → time a = time b → a = b

/-- The entry that a read of `k` at `s` sees. -/
def newest [DecidableEq K] (l : List E) (k : K) (s : T) : Option E :=
  (l.filter fun e => key e = k ∧ time e ≤ s).argmax time

/-- What a read returns: `value` is none for an entry that marks a key as absent. -/
def read [DecidableEq K] (value : E → Option V) (l : List E) (k : K) (s : T) : Option V :=
  (newest key time l k s).bind value

end

section
variable {key : E → K} {time : E → T} {A B l l' : List E} {k : K} {s : T} {e : E}

theorem Unique.mono (unique : Unique key time l) (subset : l' ⊆ l) : Unique key time l' :=
  fun a inA b inB => unique a (subset inA) b (subset inB)

variable [LinearOrder T]

theorem Newer.mono (newer : Newer key time A B) {A' B' : List E} (left : A' ⊆ A) (right : B' ⊆ B) :
    Newer key time A' B' :=
  fun a inA b inB => newer a (left inA) b (right inB)

variable [DecidableEq K]

theorem newest_eq_none_iff :
    newest key time l k s = none ↔ ∀ e ∈ l, key e = k → ¬ time e ≤ s := by
  rw [newest, argmax_eq_none, filter_eq_nil_iff]
  simp

/-- The properties of the entry that a read sees. -/
structure IsNewest (key : E → K) (time : E → T) (l : List E) (k : K) (s : T) (e : E) : Prop where
  mem : e ∈ l
  isKey : key e = k
  visible : time e ≤ s
  last : ∀ x ∈ l, key x = k → time x ≤ s → time x ≤ time e

theorem newest_spec (found : newest key time l k s = some e) : IsNewest key time l k s e := by
  have mem := argmax_mem found
  rw [mem_filter, decide_eq_true_eq] at mem
  refine ⟨mem.1, mem.2.1, mem.2.2, fun x inside isKey visible => ?_⟩
  exact le_of_mem_argmax
    (mem_filter.mpr ⟨inside, decide_eq_true ⟨isKey, visible⟩⟩) found

theorem IsNewest.newest_eq (unique : Unique key time l) (isNewest : IsNewest key time l k s e) :
    newest key time l k s = some e := by
  cases found : newest key time l k s with
  | none => exact absurd isNewest.visible (newest_eq_none_iff.mp found e isNewest.mem isNewest.isKey)
  | some x =>
    have spec := newest_spec found
    have times : time x = time e := le_antisymm
      (isNewest.last x spec.mem spec.isKey spec.visible)
      (spec.last e isNewest.mem isNewest.isKey isNewest.visible)
    rw [unique x spec.mem e isNewest.mem (spec.isKey.trans isNewest.isKey.symm) times]

/-- `found` is what a read of `k` at `s` has to see. -/
structure Answers (key : E → K) (time : E → T) (l : List E) (k : K) (s : T) (found : Option E) :
    Prop where
  newest : ∀ e ∈ found, IsNewest key time l k s e
  nothing : found = none → ∀ e ∈ l, key e = k → ¬ time e ≤ s

theorem Answers.newest_eq {found : Option E} (unique : Unique key time l)
    (answers : Answers key time l k s found) :
    Multiversion.newest key time l k s = found := by
  cases found with
  | none => exact newest_eq_none_iff.mpr (answers.nothing rfl)
  | some e => exact (answers.newest e rfl).newest_eq unique

omit [DecidableEq K] in
theorem Answers.congr {found : Option E} (answers : Answers key time l k s found)
    (same : ∀ e, key e = k → time e ≤ s → (e ∈ l ↔ e ∈ l')) : Answers key time l' k s found := by
  refine ⟨fun e mem => ?_, fun none e mem isKey visible => ?_⟩
  · have newest := answers.newest e mem
    exact ⟨(same e newest.isKey newest.visible).mp newest.mem, newest.isKey, newest.visible,
      fun x inside isKey visible =>
        newest.last x ((same x isKey visible).mpr inside) isKey visible⟩
  · exact answers.nothing none e ((same e isKey visible).mpr mem) isKey visible

omit [DecidableEq K] in
theorem Answers.append {found found' : Option E} (newer : Newer key time A B)
    (first : Answers key time A k s found) (second : Answers key time B k s found') :
    Answers key time (A ++ B) k s (found.or found') := by
  cases found with
  | some e =>
    have newest := first.newest e rfl
    refine ⟨?_, by simp⟩
    rintro _ ⟨rfl⟩
    refine ⟨mem_append_left _ newest.mem, newest.isKey, newest.visible, ?_⟩
    intro x mem isKey visible
    obtain mem | mem := mem_append.mp mem
    · exact newest.last x mem isKey visible
    · exact (newer e newest.mem x mem (newest.isKey.trans isKey.symm)).le
  | none =>
    rw [none_or]
    have hidden := first.nothing rfl
    refine ⟨fun e mem => ?_, fun none x mem => ?_⟩
    · have newest := second.newest e mem
      refine ⟨mem_append_right _ newest.mem, newest.isKey, newest.visible, ?_⟩
      intro x mem isKey visible
      obtain mem | mem := mem_append.mp mem
      · exact absurd visible (hidden x mem isKey)
      · exact newest.last x mem isKey visible
    · obtain mem | mem := mem_append.mp mem
      · exact hidden x mem
      · exact second.nothing none x mem

theorem newest_answers : Answers key time l k s (newest key time l k s) :=
  ⟨fun _ found => newest_spec found, newest_eq_none_iff.mp⟩

theorem newest_congr (unique : Unique key time l)
    (same : ∀ e, key e = k → time e ≤ s → (e ∈ l ↔ e ∈ l')) :
    newest key time l' k s = newest key time l k s :=
  ((newest_answers.congr fun e isKey visible => (same e isKey visible).symm).newest_eq unique).symm

/-- A read of two collections, of which the first is newer, looks at the first one
first. -/
theorem newest_append (unique : Unique key time (A ++ B)) (newer : Newer key time A B) :
    newest key time (A ++ B) k s = (newest key time A k s).or (newest key time B k s) :=
  (newest_answers.append newer newest_answers).newest_eq unique

theorem newest_of_le {s' : T} (all : ∀ e ∈ l, time e ≤ s) (all' : ∀ e ∈ l, time e ≤ s') :
    newest key time l k s = newest key time l k s' := by
  rw [newest, newest]
  congr 1
  refine filter_congr fun e mem => ?_
  simp [all e mem, all' e mem]

omit [DecidableEq K] in
/-- A read of sources in order of age stops at the first one that has something. -/
theorem Answers.flatMap {S : Type*} {sources : List S} {entries : S → List E}
    {answer : S → Option E}
    (newer : sources.Pairwise fun x y => Newer key time (entries x) (entries y))
    (answers : ∀ x ∈ sources, Answers key time (entries x) k s (answer x)) :
    Answers key time (sources.flatMap entries) k s (sources.findSome? answer) := by
  induction sources with
  | nil => exact ⟨by simp, by simp⟩
  | cons x rest ih =>
    obtain ⟨first, newer'⟩ := pairwise_cons.mp newer
    obtain ⟨head, answers'⟩ := forall_mem_cons.mp answers
    have older : Newer key time (entries x) (rest.flatMap entries) := by
      intro a inA b mem
      obtain ⟨y, inRest, inB⟩ := mem_flatMap.mp mem
      exact first y inRest a inA b inB
    have both := head.append older (ih newer' answers')
    rw [flatMap_cons, List.findSome?_cons]
    cases found : answer x <;> simpa only [found, some_or, none_or] using both

/-- Entries in the middle of a collection may be left out of a read's sight: those that
are not the newest, and a mark of absence when nothing older is left of its key. -/
theorem read_replace {value : E → Option V} {A I O B : List E}
    (unique : Unique key time (A ++ (I ++ B))) (above : Newer key time A (I ++ B))
    (below : Newer key time I B) (subset : O ⊆ I)
    (kept : ∀ e, IsNewest key time I k s e → e ∈ O ∨ value e = none ∧
      (∀ x ∈ O, key x = k → ¬ time x ≤ s) ∧ ∀ x ∈ B, key x ≠ k) :
    read key time value (A ++ (O ++ B)) k s = read key time value (A ++ (I ++ B)) k s := by
  have less : O ++ B ⊆ I ++ B := append_subset.mpr
    ⟨subset_append_of_subset_left B subset, subset_append_right _ _⟩
  have uniqueO : Unique key time (A ++ (O ++ B)) := unique.mono
    (append_subset.mpr ⟨subset_append_left _ _, subset_append_of_subset_right A less⟩)
  have uniqueI := unique.mono (subset_append_right A (I ++ B))
  rw [read, read, newest_append unique above,
    newest_append uniqueO (above.mono (List.Subset.refl A) less),
    newest_append uniqueI below, newest_append (uniqueI.mono less)
      (below.mono subset (List.Subset.refl B))]
  cases newest key time A k s with
  | some a => rfl
  | none =>
    simp only [none_or]
    cases found : newest key time I k s with
    | none =>
      rw [newest_eq_none_iff] at found
      rw [newest_eq_none_iff.mpr fun x mem => found x (subset mem)]
    | some e =>
      have spec := newest_spec found
      obtain mem | ⟨absent, hidden, bottom⟩ := kept e spec
      · rw [IsNewest.newest_eq ((uniqueI.mono (subset_append_left _ _)).mono subset)
          ⟨mem, spec.isKey, spec.visible, fun x inO => spec.last x (subset inO)⟩]
      · rw [newest_eq_none_iff.mpr hidden,
          newest_eq_none_iff.mpr fun x inB isKey => absurd isKey (bottom x inB)]
        exact absent.symm

end
end Multiversion
