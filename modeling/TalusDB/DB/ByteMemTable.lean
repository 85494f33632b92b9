import TalusDB.DB.Get
import TalusDB.DB.KeyBytes
import TalusDB.DB.SkipList

/-! `MemTable` over its buffers. The skip list holds pointers to buffers, each with the length of an
internal key, the key, the length of a value and the value; it compares them by decoding the key.
A function has no result if it reads outside of a buffer. -/
namespace TalusDB
open Coding Cursor List MemTable

/-- `GetLengthPrefixedSlice` of `memtable.cc`, on the bytes that a pointer leads to: the slice, and
what stands behind it. -/
def lengthPrefixedSliceAt (data : Bytes) : Option (Bytes × Bytes) := do
  let (length, p) ← (getVarint32Ptr data 5 0).join
  if data.length < p + length then none
  else some ((data.drop p).take length, data.drop (p + length))

theorem lengthPrefixedSliceAt_put {slice : Bytes} (short : slice.length < 2 ^ 32) (rest : Bytes) :
    lengthPrefixedSliceAt (putLengthPrefixedSlice slice ++ rest) = some (slice, rest) := by
  have written : (putLengthPrefixedSlice slice ++ rest).drop 0 =
      putVarint32 slice.length ++ (slice ++ rest) := by simp [putLengthPrefixedSlice]
  have within : 0 + (putVarint32 slice.length).length ≤ 5 := by
    rw [Nat.zero_add]
    exact putVarint32_length_le slice.length
  rw [lengthPrefixedSliceAt, getVarint32Ptr_putVarint32 short written within]
  simp [putLengthPrefixedSlice, ← drop_drop]

/-- A pointer that the skip list compares: it leads to an internal key with its length. -/
structure TableKey where
  buf : Bytes
  key : KeyBytes
  behind : Bytes
  reads : lengthPrefixedSliceAt buf = some (key.rep, behind)

namespace TableKey

def of (buf : Bytes) : Option TableKey :=
  match reads : lengthPrefixedSliceAt buf with
  | none => none
  | some (rep, behind) =>
    if fits : 8 ≤ rep.length ∧ rep.length < 2 ^ 32 then
      some ⟨buf, ⟨⟨rep, fits.1⟩, fits.2⟩, behind, reads⟩
    else none

theorem of_reads {buf behind : Bytes} {key : KeyBytes}
    (reads : lengthPrefixedSliceAt buf = some (key.rep, behind)) :
    of buf = some ⟨buf, key, behind, reads⟩ := by
  rw [of]
  split
  case h_1 nothing => cases reads.symm.trans nothing
  case h_2 rep behind' reads' =>
    have same := Option.some.inj (reads'.symm.trans reads)
    obtain ⟨rfl, rfl⟩ := Prod.mk.inj same
    rw [dif_pos ⟨key.tagged, key.short⟩]

/-- The pointer to the bytes of a key and something behind them. -/
def point (key : KeyBytes) (behind : Bytes) : TableKey :=
  { buf := putLengthPrefixedSlice key.rep ++ behind
    key
    behind
    reads := lengthPrefixedSliceAt_put key.short behind }

theorem of_put (key : KeyBytes) (behind : Bytes) :
    of (putLengthPrefixedSlice key.rep ++ behind) = some (point key behind) :=
  of_reads _

variable [LinearOrder Slice]

/-- The order is what `KeyComparator` decides on the decoded keys. -/
instance : Preorder TableKey where
  le a b := a.key ≤ b.key
  lt a b := compareKeys a.key.rep b.key.rep = .lt
  le_refl a := le_refl a.key
  le_trans a b c := @le_trans KeyBytes _ a.key b.key c.key
  lt_iff_le_not_ge _ _ := TaggedKey.lt_iff_compareKeys.symm.trans lt_iff_le_not_ge

instance : DecidableLT TableKey := fun a b =>
  inferInstanceAs (Decidable (compareKeys a.key.rep b.key.rep = .lt))

theorem lt_iff {a b : TableKey} : a < b ↔ a.key < b.key := TaggedKey.lt_iff_compareKeys.symm

end TableKey

/-- `LookupKey`: the bytes from `start_` to `end_`, and where `kstart_` is. -/
structure LookupKey where
  rep : Bytes
  kstart : Nat

namespace LookupKey

def new (userKey : Slice) (sequence : Nat) : LookupKey :=
  let length := putVarint32 (userKey.data.length + 8)
  let tag := (InternalKey.lookup userKey sequence).tag
  { rep := length ++ userKey.data ++ encodeFixed64 (UInt64.ofNat tag), kstart := length.length }

def memtableKey (k : LookupKey) : Bytes := k.rep

def internalKey (k : LookupKey) : Bytes := k.rep.drop k.kstart

def userKey (k : LookupKey) : Slice := extractUserKey k.internalKey

end LookupKey

/-- The buffer that `MemTable::Add` fills. -/
def Entry.encode (e : Entry Slice Bytes) : Bytes :=
  putVarint32 (e.userKey.data.length + 8) ++ e.userKey.data ++
    encodeFixed64 (UInt64.ofNat e.key.tag) ++ putVarint32 e.value.length ++ e.value

/-- The key of `head_` is the null pointer, and is never read. -/
structure ByteMemTable where
  table : SkipList TableKey

namespace ByteMemTable

def empty (null : TableKey) : ByteMemTable := ⟨SkipList.empty null⟩

variable [LinearOrder Slice]

/-- `MemTable::Add`, with the draws of the random height. -/
def add (mem : ByteMemTable) (e : Entry Slice Bytes) (draws : Nat → Bool) : Option ByteMemTable := do
  let buf ← TableKey.of e.encode
  let table ← mem.table.insert buf (SkipList.randomHeight draws)
  some ⟨table⟩

/-- What `Get` returns at the entry that it came to. -/
def answer (userKey : Slice) (entry : TableKey) : Option (Option (Option Bytes)) :=
  if compare (extractUserKey entry.key.rep) userKey = .eq then
    match ValueType.ofTag (extractTag entry.key.rep) with
    | some .value => (lengthPrefixedSliceAt entry.behind).map fun v => some (some v.1)
    | some .deletion => some (some none)
    | none => some none
  else some none

/-- `MemTable::Get`: none when it returns false, else the value or NotFound. -/
def get (mem : ByteMemTable) (key : LookupKey) : Option (Option (Option Bytes)) := do
  let memkey ← TableKey.of key.memtableKey
  let (node, _) ← mem.table.findGreaterOrEqual memkey
  match node with
  | none => some none
  | some x => (mem.table.keyOf x).bind (answer key.userKey)

/-- `MemTableIterator`, whose state is the one of the iterator of the skip list. -/
def newIterator (mem : ByteMemTable) : Iterator KeyBytes Bytes (Option Nat) where
  entry node := do
    let entry ← mem.table.keyOf (← node)
    let (value, _) ← lengthPrefixedSliceAt entry.behind
    some (entry.key, value)
  ok _ := true
  step
    | .seek target, node => do
      let key ← TableKey.of (putLengthPrefixedSlice target.rep)
      mem.table.step node (.seek key)
    | .seekToFirst, node => mem.table.step node .seekToFirst
    | .seekToLast, node => mem.table.step node .seekToLast
    | .next, node => mem.table.step node .next
    | .prev, node => mem.table.step node .prev

/-- Calls of `Add`, one after another. -/
def addAll (mem : ByteMemTable) : List (Entry Slice Bytes × (Nat → Bool)) → Option ByteMemTable
  | [] => some mem
  | (e, draws) :: rest => (mem.add e draws).bind (addAll · rest)

end ByteMemTable

/-! ### What a buffer holds -/

/-- The sequence number leaves room for the type, and the lengths are ones of 32 bits. -/
structure Entry.Fits (e : Entry Slice Bytes) : Prop where
  sequence : e.sequence ≤ kMaxSequenceNumber
  key : e.userKey.data.length + 8 < 2 ^ 32
  value : e.value.length < 2 ^ 32

instance (e : Entry Slice Bytes) : Decidable e.Fits :=
  decidable_of_iff (e.sequence ≤ kMaxSequenceNumber ∧ e.userKey.data.length + 8 < 2 ^ 32 ∧
    e.value.length < 2 ^ 32) ⟨fun ⟨a, b, c⟩ => ⟨a, b, c⟩, fun ⟨a, b, c⟩ => ⟨a, b, c⟩⟩

abbrev FitEntry := { e : Entry Slice Bytes // e.Fits }

namespace FitEntry

def keyBytes (e : FitEntry) : KeyBytes := e.1.key.keyBytes e.2.key

/-- The pointer to the buffer of the entry. -/
def tableKey (e : FitEntry) : TableKey := .point e.keyBytes (putLengthPrefixedSlice e.1.value)

theorem of_encode (e : FitEntry) : TableKey.of e.1.encode = some e.tableKey := by
  have isPut : e.1.encode =
      putLengthPrefixedSlice e.keyBytes.rep ++ putLengthPrefixedSlice e.1.value := by
    simp [Entry.encode, putLengthPrefixedSlice, keyBytes, InternalKey.keyBytes, InternalKey.taggedKey,
      InternalKey.encode]
  rw [isPut]
  exact TableKey.of_put _ _

theorem value_reads (e : FitEntry) :
    lengthPrefixedSliceAt e.tableKey.behind = some (e.1.value, []) := by
  have read := lengthPrefixedSliceAt_put e.2.value []
  rwa [append_nil] at read

variable [LinearOrder Slice]

theorem keyBytes_lt_iff {a b : FitEntry} : a.keyBytes < b.keyBytes ↔ a.1.key < b.1.key :=
  InternalKey.taggedKey_lt_iff a.2.sequence b.2.sequence

theorem tableKey_lt_iff {a b : FitEntry} : a.tableKey < b.tableKey ↔ a.1.key < b.1.key :=
  TableKey.lt_iff.trans keyBytes_lt_iff

end FitEntry

namespace ByteMemTable
open SkipList
variable [LinearOrder Slice] {mem : ByteMemTable} {es : List FitEntry} {xs : List (Tower TableKey)}

/-- The towers of the skip list lead to the buffers of the entries. -/
structure Leads (mem : ByteMemTable) (xs : List (Tower TableKey)) (es : List FitEntry) : Prop where
  represents : Represents mem.table xs
  keys : xs.map Tower.key = es.map FitEntry.tableKey

/-- The table holds these entries, in this order. -/
def Holds (mem : ByteMemTable) (es : List FitEntry) : Prop := ∃ xs, Leads mem xs es

theorem empty_holds (null : TableKey) : Holds (empty null) [] :=
  ⟨[], empty_represents null, rfl⟩

theorem Leads.sorted (leads : Leads mem xs es) : es.Pairwise fun a b => a.1.key < b.1.key := by
  have sorted := pairwise_map.mpr leads.represents.sorted
  rw [leads.keys, pairwise_map] at sorted
  exact sorted.imp FitEntry.tableKey_lt_iff.mp

theorem Leads.split (leads : Leads mem xs es) (key : TableKey) :
    ∃ before after first rest, xs = before ++ after ∧ es = first ++ rest ∧
      before.map Tower.key = first.map FitEntry.tableKey ∧
      after.map Tower.key = rest.map FitEntry.tableKey ∧
      (∀ t ∈ before, t.key < key) ∧ (∀ t ∈ after, ¬t.key < key) ∧
      (∀ e ∈ first, e.tableKey < key) ∧ ∀ e ∈ rest, ¬e.tableKey < key := by
  obtain ⟨before, after, rfl, smaller, larger⟩ := leads.represents.split key
  have keys := leads.keys.symm
  rw [map_append, map_eq_append_iff] at keys
  obtain ⟨first, rest, isEs, isFirst, isRest⟩ := keys
  refine ⟨before, after, first, rest, rfl, isEs, isFirst.symm, isRest.symm, smaller, larger, ?_, ?_⟩
  · intro e mem
    have inside := mem_map_of_mem (f := FitEntry.tableKey) mem
    rw [isFirst] at inside
    obtain ⟨t, inBefore, isKey⟩ := mem_map.mp inside
    exact isKey ▸ smaller t inBefore
  · intro e mem
    have inside := mem_map_of_mem (f := FitEntry.tableKey) mem
    rw [isRest] at inside
    obtain ⟨t, inAfter, isKey⟩ := mem_map.mp inside
    exact isKey ▸ larger t inAfter

theorem Holds.add (holds : Holds mem es) {e : FitEntry} (fresh : ∀ x ∈ es, x.1.key ≠ e.1.key)
    (draws : Nat → Bool) :
    ∃ mem' es', mem.add e.1 draws = some mem' ∧ Holds mem' es' ∧
      es'.map Subtype.val = MemTable.add (es.map Subtype.val) e.1 := by
  obtain ⟨xs, leads⟩ := holds
  obtain ⟨before, after, first, rest, rfl, rfl, isFirst, isRest, smaller, -, less, notLess⟩ :=
    leads.split e.tableKey
  have greater : ∀ x ∈ rest, e.1.key < x.1.key := by
    intro x mem
    have le := not_lt.mp (FitEntry.tableKey_lt_iff.not.mp (notLess x mem))
    exact lt_of_le_of_ne le (fresh x (mem_append_right first mem)).symm
  have larger : ∀ t ∈ after, e.tableKey < t.key := by
    intro t mem
    have inside := mem_map_of_mem (f := Tower.key) mem
    rw [isRest] at inside
    obtain ⟨x, inRest, isKey⟩ := mem_map.mp inside
    exact isKey ▸ FitEntry.tableKey_lt_iff.mpr (greater x inRest)
  obtain ⟨positive, bounded⟩ := randomHeight_range draws
  obtain ⟨table, inserted, -, represents⟩ :=
    insert_represents leads.represents smaller larger positive bounded
  refine ⟨⟨table⟩, first ++ e :: rest, ?_, ⟨_, represents, ?_⟩, ?_⟩
  · simp [ByteMemTable.add, e.of_encode, inserted]
  · simp [isFirst, isRest]
  · rw [map_append, map_append, map_cons, add_between]
    · intro x mem
      obtain ⟨x, inside, rfl⟩ := mem_map.mp mem
      exact FitEntry.tableKey_lt_iff.mp (less x inside)
    · intro x mem
      obtain ⟨x, inside, rfl⟩ := mem_map.mp mem
      exact greater x inside

omit [LinearOrder Slice] in
theorem lookup_memtableKey (userKey : Slice) (sequence : Nat)
    (short : userKey.data.length + 8 < 2 ^ 32) :
    TableKey.of (LookupKey.new userKey sequence).memtableKey =
      some (.point ((InternalKey.lookup userKey sequence).keyBytes short) []) := by
  rw [← TableKey.of_put]
  simp [LookupKey.new, LookupKey.memtableKey, putLengthPrefixedSlice, InternalKey.keyBytes,
    InternalKey.taggedKey, InternalKey.encode, InternalKey.lookup]

omit [LinearOrder Slice] in
theorem lookup_userKey (userKey : Slice) (sequence : Nat) :
    (LookupKey.new userKey sequence).userKey = userKey := by
  have isEncoded : (LookupKey.new userKey sequence).internalKey =
      (InternalKey.lookup userKey sequence).encode := by
    simp [LookupKey.new, LookupKey.internalKey, InternalKey.encode, InternalKey.lookup]
  rw [LookupKey.userKey, isEncoded, InternalKey.extractUserKey_encode]
  rfl

theorem answer_tableKey (userKey : Slice) (e : FitEntry) :
    answer userKey e.tableKey = some (if e.1.userKey = userKey then some e.1.read else none) := by
  have user : extractUserKey e.tableKey.key.rep = e.1.userKey := InternalKey.extractUserKey_encode _
  have type : ValueType.ofTag (extractTag e.tableKey.key.rep) = some e.1.key.type := by
    rw [← InternalKey.ofTag_tag, ← InternalKey.extractTag_encode]
    rfl
  simp only [answer, user, type, e.value_reads, compare_eq_iff_eq, Entry.read]
  by_cases same : e.1.userKey = userKey
  · cases e.1.key.type <;> simp [same]
  · simp [same]

theorem Holds.get (holds : Holds mem es) {userKey : Slice} {sequence : Nat}
    (short : userKey.data.length + 8 < 2 ^ 32) (bound : sequence ≤ kMaxSequenceNumber) :
    mem.get (.new userKey sequence) =
      some (MemTable.get (es.map Subtype.val) userKey sequence) := by
  obtain ⟨xs, leads⟩ := holds
  let target : TableKey := .point ((InternalKey.lookup userKey sequence).keyBytes short) []
  have against : ∀ e : FitEntry, e.tableKey < target ↔
      ¬InternalKey.lookup userKey sequence ≤ e.1.key := by
    intro e
    rw [not_le, TableKey.lt_iff]
    exact InternalKey.taggedKey_lt_iff e.2.sequence bound
  obtain ⟨before, after, first, rest, rfl, rfl, -, isRest, smaller, larger, less, notLess⟩ :=
    leads.split target
  obtain ⟨prev, found⟩ := leads.represents.findGreaterOrEqual smaller larger
  have sought : seek ((first ++ rest).map Subtype.val) (.lookup userKey sequence) =
      (rest.map Subtype.val).head? := by
    rw [seek, map_append, find_split]
    · intro x mem
      obtain ⟨e, inside, rfl⟩ := mem_map.mp mem
      exact decide_eq_false ((against e).mp (less e inside))
    · intro x mem
      obtain ⟨e, inside, rfl⟩ := mem_map.mp mem
      exact decide_eq_true (not_not.mp ((against e).not.mp (notLess e inside)))
  rw [ByteMemTable.get, lookup_memtableKey userKey sequence short, lookup_userKey, MemTable.get,
    sought]
  simp only [Option.bind_eq_bind, Option.bind_some, target] at found ⊢
  rw [found]
  cases after with
  | nil =>
    cases rest with
    | nil => rfl
    | cons e rest => cases isRest
  | cons t after =>
    cases rest with
    | nil => cases isRest
    | cons e rest =>
      have isKey : t.key = e.tableKey := (List.cons.inj isRest).1
      have key := leads.represents.keyOf (e := t) (by simp)
      simp [key, isKey, answer_tableKey]

theorem Leads.presents (leads : Leads mem xs es) :
    Presents mem.table xs mem.newIterator fun t =>
      (t.key.key, ((lengthPrefixedSliceAt t.key.behind).map Prod.fst).getD []) where
  nowhere := rfl
  entry t inside := by
    have shown := mem_map_of_mem (f := Tower.key) inside
    rw [leads.keys] at shown
    obtain ⟨e, -, isKey⟩ := mem_map.mp shown
    simp [newIterator, leads.represents.keyOf inside, ← isKey, e.value_reads]
  ordered _ _ _ _ less := TableKey.lt_iff.mp less
  seek target := by
    refine ⟨.point target [], fun node => ?_, fun t _ => TableKey.lt_iff⟩
    have pointer := TableKey.of_put target []
    rw [append_nil] at pointer
    simp [newIterator, pointer]
  seekToFirst _ := rfl
  seekToLast _ := rfl
  next _ := rfl
  prev _ := rfl

theorem Holds.sorted (holds : Holds mem es) :
    (es.map Subtype.val).Pairwise fun a b => a.key < b.key := by
  obtain ⟨xs, leads⟩ := holds
  exact pairwise_map.mpr leads.sorted

/-- The entries as an iterator shows them. -/
def shown (es : List FitEntry) : List (KeyBytes × Bytes) := es.map fun e => (e.keyBytes, e.1.value)

theorem Holds.shown_sorted (holds : Holds mem es) : Cursor.Sorted (shown es) := by
  obtain ⟨xs, leads⟩ := holds
  exact pairwise_map.mpr (leads.sorted.imp FitEntry.keyBytes_lt_iff.mpr)

theorem Holds.iterator (holds : Holds mem es) {ops : List (Cursor.Op KeyBytes)} {pos : Option Nat}
    (ran : Cursor.run (shown es) none ops = some pos) :
    ∃ node, mem.newIterator.run none ops = some node ∧
      mem.newIterator.entry node = entryAt (shown es) pos := by
  have sorted := holds.shown_sorted
  obtain ⟨xs, leads⟩ := holds
  have entries : xs.map (fun t => (t.key.key,
      ((lengthPrefixedSliceAt t.key.behind).map Prod.fst).getD [])) = shown es := by
    have shownKeys := congrArg (List.map fun k : TableKey =>
      (k.key, ((lengthPrefixedSliceAt k.behind).map Prod.fst).getD [])) leads.keys
    rw [map_map, map_map] at shownKeys
    refine shownKeys.trans (map_congr_left fun e _ => ?_)
    simp [e.value_reads]
    rfl
  have behaves := leads.represents.behaves leads.presents
  rw [entries] at behaves
  obtain ⟨node, went, -, same⟩ := behaves.run sorted (s := none) (by simp) (by simp) rfl ran
  exact ⟨node, went, same⟩

theorem addAll_eq (mem : ByteMemTable) (entries : List (Entry Slice Bytes))
    (draws : Entry Slice Bytes → Nat → Bool) :
    mem.addAll (entries.map fun e => (e, draws e)) =
      entries.foldlM (fun mem e => mem.add e (draws e)) mem := by
  induction entries generalizing mem with
  | nil => rfl
  | cons e rest ih =>
    rw [map_cons, addAll, foldlM_cons]
    exact congrArg (Option.bind _) (funext ih)

theorem Holds.addAll (holds : Holds mem es) {adds : List (Entry Slice Bytes × (Nat → Bool))}
    (fits : ∀ a ∈ adds, a.1.Fits) (distinct : (adds.map fun a => a.1.key).Nodup)
    (fresh : ∀ a ∈ adds, ∀ x ∈ es, x.1.key ≠ a.1.key) :
    ∃ mem' es', mem.addAll adds = some mem' ∧ Holds mem' es' ∧
      es'.map Subtype.val = (adds.map Prod.fst).foldl MemTable.add (es.map Subtype.val) := by
  induction adds generalizing mem es with
  | nil => exact ⟨mem, es, rfl, holds, rfl⟩
  | cons a rest ih =>
    obtain ⟨notIn, distinct⟩ := nodup_cons.mp distinct
    obtain ⟨mem₁, es₁, added, holds₁, same⟩ :=
      holds.add (e := ⟨a.1, fits a mem_cons_self⟩) (fresh a mem_cons_self) a.2
    have fresh₁ : ∀ b ∈ rest, ∀ x ∈ es₁, x.1.key ≠ b.1.key := by
      intro b inRest x inside
      have old : x.1 ∈ MemTable.add (es.map Subtype.val) a.1 := same ▸ mem_map_of_mem inside
      obtain isNew | isOld := mem_add.mp old
      · rw [isNew]
        exact fun sameKey => notIn (mem_map.mpr ⟨b, inRest, sameKey.symm⟩)
      · obtain ⟨y, inEs, isX⟩ := mem_map.mp isOld
        rw [← isX]
        exact fresh b (mem_cons_of_mem a inRest) y inEs
    obtain ⟨mem', es', ran, holds', same'⟩ :=
      ih holds₁ (fun b mem => fits b (mem_cons_of_mem a mem)) distinct fresh₁
    refine ⟨mem', es', ?_, holds', ?_⟩
    · rw [ByteMemTable.addAll, added]
      exact ran
    · rw [same', same]
      rfl

end ByteMemTable

/-- After calls of `Add` with distinct pairs of user key and sequence number, `Get` answers with the
newest visible entry of its key, and the iterator is over the added entries in the order of their
internal keys. -/
theorem byteMemTable_reads [LinearOrder Slice] (null : TableKey)
    (adds : List (Entry Slice Bytes × (Nat → Bool))) (fits : ∀ a ∈ adds, a.1.Fits)
    (distinct : (adds.map fun a => (a.1.userKey, a.1.sequence)).Nodup) :
    ∃ mem, (ByteMemTable.empty null).addAll adds = some mem ∧
      (∀ userKey sequence, userKey.data.length + 8 < 2 ^ 32 → sequence ≤ kMaxSequenceNumber →
        ∃ found, AnswersEntries (adds.map Prod.fst) userKey sequence found ∧
          mem.get (.new userKey sequence) = some (found.map Entry.read)) ∧
      ∃ es : List (KeyBytes × Bytes), Cursor.Sorted es ∧
        (es.map fun e => (e.1.rep, e.2)).Perm (adds.map fun a => (a.1.key.encode, a.1.value)) ∧
        ∀ ops pos, Cursor.run es none ops = some pos →
          ∃ node, mem.newIterator.run none ops = some node ∧
            mem.newIterator.entry node = entryAt es pos := by
  have distinctKeys : (adds.map fun a => a.1.key).Nodup := by
    refine List.Nodup.of_map (fun k : InternalKey Slice => (k.userKey, k.sequence)) ?_
    rwa [map_map]
  obtain ⟨mem, es, ran, holds, same⟩ :=
    (ByteMemTable.empty_holds null).addAll fits distinctKeys (by simp)
  have perm : (es.map Subtype.val).Perm (adds.map Prod.fst) := by
    rw [same]
    exact foldl_add_perm [] _
  refine ⟨mem, ran, fun userKey sequence short bound => ?_, ByteMemTable.shown es,
    holds.shown_sorted, ?_, fun ops pos => holds.iterator⟩
  · refine ⟨pointRead (es.map Subtype.val) userKey sequence, ?_, ?_⟩
    · exact (pointRead_answers holds.sorted).congr fun e _ _ => perm.mem_iff
    · rw [holds.get short bound, get_eq]
  · have shownPerm := perm.map fun e => (e.key.encode, e.value)
    rw [map_map, map_map] at shownPerm
    rw [ByteMemTable.shown, map_map]
    exact shownPerm

/-- A key with a value and then a deletion, and a longer key between them. -/
def threeAdds : List (Entry Slice Bytes × (Nat → Bool)) :=
  [(⟨⟨⟨[97]⟩, 1, .value⟩, [1]⟩, fun _ => false), (⟨⟨⟨[97, 0]⟩, 2, .value⟩, [2]⟩, fun _ => true),
    (⟨⟨⟨[97]⟩, 3, .deletion⟩, []⟩, fun height => height < 2)]

/-- A key for `head_`. -/
def zeroKey : TableKey := .point ⟨⟨List.replicate 8 0, by decide⟩, by decide⟩ []

theorem byteMemTable_reads_three :
    letI := bytewiseOrder
    ∃ mem, (ByteMemTable.empty zeroKey).addAll threeAdds = some mem ∧
      mem.get (.new ⟨[97]⟩ 2) = some (some (some [1])) ∧
      mem.get (.new ⟨[97]⟩ 3) = some (some none) ∧ mem.get (.new ⟨[97, 0]⟩ 1) = some none ∧
      ∃ node, mem.newIterator.run none [.seekToFirst, .next, .next] = some node ∧
        (mem.newIterator.entry node).map Prod.snd = some [2] := by
  obtain ⟨mem, ran, -⟩ :=
    @byteMemTable_reads bytewiseOrder zeroKey threeAdds (by decide +kernel) (by simp [threeAdds, Entry.sequence])
  have shape : ((@ByteMemTable.addAll bytewiseOrder (.empty zeroKey) threeAdds).all fun mem =>
      (@ByteMemTable.get bytewiseOrder mem (.new ⟨[97]⟩ 2) = some (some (some [1]))) &&
      ((@ByteMemTable.get bytewiseOrder mem (.new ⟨[97]⟩ 3) = some (some none)) &&
      ((@ByteMemTable.get bytewiseOrder mem (.new ⟨[97, 0]⟩ 1) = some none) &&
      (((@ByteMemTable.newIterator bytewiseOrder mem).run none [.seekToFirst, .next, .next]).any
        fun node => ((@ByteMemTable.newIterator bytewiseOrder mem).entry node).map Prod.snd =
          some [2])))) = true := by decide +kernel
  rw [ran, Option.all_some] at shape
  simp only [Bool.and_eq_true, decide_eq_true_eq] at shape
  obtain ⟨first, second, third, moved⟩ := shape
  obtain ⟨node, went, value⟩ := (Option.any_eq_true _ _).mp moved
  exact ⟨mem, ran, first, second, third, node, went, of_decide_eq_true value⟩

end TalusDB
