import TalusDB.DB.Covered
import TalusDB.DB.Descriptor

/-! What the directory of a database holds, whenever the process ends: the descriptor that
`CURRENT` names, the tables of its version, and nothing in an older log that is not in these
tables. -/
namespace TalusDB
open AList List
open Recovery (entriesOf)
variable {K V : Type} [LinearOrder K]

namespace DBFiles

/-- The version that `Recover` would bring back. -/
def recorded (comparator : String) (files : DBFiles K V) : Option (Version K V) := do
  let number ← files.current
  let records ← files.descriptors.lookup number
  let set ← (VersionSet.recover comparator ⟨number, records⟩ false).toOption
  some set.current

/-- The entry is in a table of the version, and the table is in the directory. -/
def InTables (files : DBFiles K V) (v : Version K V) (e : Entry K V) : Prop :=
  ∃ level, ∃ f ∈ v.files level, e ∈ f.entries ∧ files.tables.lookup f.number = some f.entries

theorem lookup_writeTables (files : DBFiles K V) {tables : List (FileMetaData K V)}
    (numbers : (tables.map (·.number)).Nodup) :
    (∀ f ∈ tables, (files.writeTables tables).tables.lookup f.number = some f.entries) ∧
      ∀ n, (∀ f ∈ tables, f.number ≠ n) →
        (files.writeTables tables).tables.lookup n = files.tables.lookup n := by
  induction tables generalizing files with
  | nil => exact ⟨by simp, fun _ _ => rfl⟩
  | cons f rest ih =>
    rw [map_cons, nodup_cons] at numbers
    obtain ⟨written, others⟩ := ih (files.writeTable f) numbers.2
    have first : ∀ g ∈ rest, g.number ≠ f.number := fun g mem same =>
      numbers.1 (mem_map.mpr ⟨g, mem, same⟩)
    refine ⟨fun g mem => ?_, fun n different => ?_⟩
    · obtain rfl | mem := mem_cons.mp mem
      · exact (others g.number first).trans (lookup_insert _)
      · exact written g mem
    · refine (others n fun g mem => different g (mem_cons_of_mem f mem)).trans ?_
      exact lookup_insert_ne (different f mem_cons_self).symm

theorem writeTables_eq (files : DBFiles K V) (tables : List (FileMetaData K V)) :
    ∃ written, files.writeTables tables = { files with tables := written } := by
  induction tables generalizing files with
  | nil => exact ⟨files.tables, rfl⟩
  | cons f rest ih => exact ih (files.writeTable f)

theorem mem_writeTables (files : DBFiles K V) (tables : List (FileMetaData K V)) {n : Nat}
    (mem : n ∈ files.tables) : n ∈ (files.writeTables tables).tables := by
  induction tables generalizing files with
  | nil => exact mem
  | cons f rest ih => exact ih (files.writeTable f) ((mem_insert _).mpr (.inr mem))

/-- The directory keeps what its descriptor `number` says. -/
structure Keeps [Inhabited V] (comparator : String) (files : DBFiles K V) (number : Nat)
    (rec : Record K V) : Prop where
  current : files.current = some number
  descriptor : ∃ records r, files.descriptors.lookup number = some records ∧
    Says comparator records rec r
  numberBelow : number < rec.nextFile
  tables : ∀ level, ∀ f ∈ rec.version.files level, files.tables.lookup f.number = some f.entries
  logs : ∀ n records, files.logs.lookup n = some records → n < rec.logNumber →
    ∀ e ∈ entriesOf records, e ∈ rec.version.entries
  positive : ∀ n records, files.logs.lookup n = some records → 0 < n

variable [Inhabited V] {comparator : String} {files files' : DBFiles K V} {number : Nat}
  {rec : Record K V}

namespace Keeps

variable (keeps : files.Keeps comparator number rec)
include keeps

theorem recorded_eq : files.recorded comparator = some rec.version := by
  obtain ⟨records, r, found, said⟩ := keeps.descriptor
  simp [recorded, keeps.current, found, said.recover, Except.toOption]

theorem inTables {e : Entry K V}
    (mem : e ∈ rec.version.entries) : files.InTables rec.version e := by
  obtain ⟨level, f, inLevel, inside⟩ := Version.mem_entries.mp mem
  exact ⟨level, f, inLevel, inside, keeps.tables level f inLevel⟩

theorem known : ∀ level, ∀ f ∈ rec.version.files level, (level, f.number) ∈ rec.added := by
  obtain ⟨records, r, -, said⟩ := keeps.descriptor
  exact said.known

theorem insertTable {n : Nat} (fresh : ∀ a ∈ rec.added, a.2 ≠ n) (entries : List (Entry K V)) :
    { files with tables := files.tables.insert n entries }.Keeps comparator number rec :=
  { keeps with
    tables := fun level f mem => by
      have other : f.number ≠ n := fresh _ (keeps.known level f mem)
      rw [lookup_insert_ne other]
      exact keeps.tables level f mem }

theorem writeTables
    {tables : List (FileMetaData K V)} (fresh : ∀ f ∈ tables, ∀ a ∈ rec.added, a.2 ≠ f.number) :
    (files.writeTables tables).Keeps comparator number rec := by
  induction tables generalizing files with
  | nil => exact keeps
  | cons f rest ih =>
    exact ih (keeps.insertTable (fresh f mem_cons_self) f.entries)
      fun g mem => fresh g (mem_cons_of_mem f mem)

theorem insertLog {n : Nat}
    (young : rec.logNumber ≤ n) (positive : 0 < n) (log : List (LogRecord K V)) :
    { files with logs := files.logs.insert n log }.Keeps comparator number rec :=
  { keeps with
    logs := fun m records found older => by
      rw [lookup_insert_ne (by omega)] at found
      exact keeps.logs m records found older
    positive := fun m records found => by
      by_cases here : m = n
      · exact here ▸ positive
      · rw [lookup_insert_ne here] at found
        exact keeps.positive m records found }

theorem insertDescriptor {n : Nat} (other : number ≠ n) (records : List (ManifestEdit K V)) :
    { files with descriptors := files.descriptors.insert n records }.Keeps comparator number rec :=
  { keeps with
    descriptor := by
      obtain ⟨records', r, found, said⟩ := keeps.descriptor
      refine ⟨records', r, ?_, said⟩
      rwa [lookup_insert_ne other] }

theorem removeFile {name : FileName}
    (table : ∀ n, name = .table n → ∀ a ∈ rec.version.fileNumbers, a ≠ n)
    (descriptor : name ≠ .descriptor number) :
    (files.removeFile name).Keeps comparator number rec := by
  cases name with
  | log n =>
    have back {m : Nat} {records : List (LogRecord K V)}
        (found : (files.logs.erase n).lookup m = some records) :
        files.logs.lookup m = some records := by
      by_cases here : m = n
      · rw [here, lookup_erase] at found
        cases found
      · rwa [lookup_erase_ne here] at found
    exact { keeps with
      logs := fun m records found => keeps.logs m records (back found)
      positive := fun m records found => keeps.positive m records (back found) }
  | table n =>
    refine { keeps with tables := fun level f mem => ?_ }
    have other : f.number ≠ n := by
      refine table n rfl f.number ?_
      simp only [Version.fileNumbers, mem_flatMap, mem_range, mem_map]
      exact ⟨level, Version.level_lt mem, f, mem, rfl⟩
    exact (lookup_erase_ne other).trans (keeps.tables level f mem)
  | descriptor n =>
    have other : number ≠ n := fun same => descriptor (same ▸ rfl)
    obtain ⟨records, r, found, said⟩ := keeps.descriptor
    exact { keeps with
      descriptor := ⟨records, r, (lookup_erase_ne other).trans found, said⟩ }

end Keeps

end DBFiles
end TalusDB
