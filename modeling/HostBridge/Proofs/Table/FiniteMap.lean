import HostBridge.Proofs.Table.Valid
import HostBridge.Catalog.Types
import HostBridge.State.Heap

namespace HostBridge

inductive Write where
  | set (key value : Value)
  | setStr (key : String) (value : Value)
  | setInt (i : Int) (value : Value)

namespace Write

def key : Write → Value
  | set key _ => key
  | setStr s _ => .string s
  | setInt i _ => .ofInt i

def value : Write → Value
  | set _ v | setStr _ v | setInt _ v => v

/-- A refused write leaves the table as it was. -/
def run (t : Table) : Write → Table
  | set key value =>
    match t.set key value with
    | .ok t => t
    | .error _ => t
  | setStr s value => t.setStr s value
  | setInt i value => t.setInt i value

end Write

namespace Table

theorem set_of_isKey (t : Table) {key : Value} (isKey : key.isKey = true) (value : Value) :
    t.set key value = .ok (t.put key value) := by
  rw [set, keyFault?_eq_none_iff.mpr isKey]

theorem set_error_iff (t : Table) (key value : Value) :
    (∃ e, t.set key value = .error e) ↔ key = .nil ∨ key.isNaN = true := by
  have fault : key.isKey = false ↔ key = .nil ∨ key.isNaN = true := by
    rw [Value.isKey, Bool.and_eq_false_iff, Bool.not_eq_false', Bool.not_eq_false',
      Value.isNil_iff]
  rw [← fault]
  cases isKey : key.isKey with
  | true => simp [t.set_of_isKey isKey]
  | false =>
    unfold set
    cases found : keyFault? key with
    | some e => simp
    | none =>
      rw [keyFault?_eq_none_iff.mp found] at isKey
      contradiction

theorem setStr_eq_put (t : Table) (s : String) (value : Value) :
    t.setStr s value = t.put (.string s) value := rfl

theorem setInt_eq_put (t : Table) (i : Int) (value : Value) :
    t.setInt i value = t.put (.ofInt i) value := by
  rw [setInt, t.set_of_isKey (Value.isKey_ofInt i)]

theorem getStr_eq (t : Table) (s : String) : t.getStr s = t.get (.string s) := rfl

theorem Valid.getStr_setStr {t : Table} (valid : t.Valid) (key other : String) (value : Value) :
    (t.setStr key value).getStr other = if other = key then value else t.getStr other := by
  have differ : Value.normal (.string other) = Value.normal (.string key) ↔ other = key :=
    Value.string.injEq other key ▸ Iff.rfl
  rw [setStr_eq_put, getStr_eq, get_put valid rfl, getStr_eq]
  simp only [differ]

theorem getInt_eq {t : Table} (small : t.array.size ≤ 2 ^ 53) (i : Int) :
    t.getInt i = t.get (.ofInt i) := by
  rw [getInt]
  split
  · rename_i inside
    obtain ⟨n, rfl⟩ := Int.eq_ofNat_of_zero_le (by omega : 0 ≤ i)
    have slot := arraySlot?_ofInt (t := t) small (i := n) (by omega) (by omega)
    rw [get_of_arraySlot? slot]
    rfl
  · rfl

theorem run_of_isKey (t : Table) {w : Write} (isKey : w.key.isKey = true) :
    w.run t = t.put w.key w.value := by
  cases w with
  | set key value =>
    have accepted : t.set key value = .ok (t.put key value) := t.set_of_isKey isKey value
    rw [Write.run, accepted]
    rfl
  | setStr s value => exact t.setStr_eq_put s value
  | setInt i value => exact t.setInt_eq_put i value

theorem run_of_not_isKey (t : Table) {w : Write} (refused : w.key.isKey = false) :
    w.run t = t := by
  cases w with
  | set key value =>
    rw [Write.run, set]
    cases found : keyFault? key with
    | some e => rfl
    | none =>
      rw [Write.key, keyFault?_eq_none_iff.mp found] at refused
      contradiction
  | setStr s value => contradiction
  | setInt i value =>
    rw [Write.key, Value.isKey_ofInt] at refused
    contradiction

theorem Valid.run {t : Table} (valid : t.Valid) (w : Write) : (w.run t).Valid := by
  cases isKey : w.key.isKey with
  | true =>
    rw [t.run_of_isKey isKey]
    exact valid.put isKey w.value
  | false =>
    rw [t.run_of_not_isKey isKey]
    exact valid

/-- The table that a history of writes leaves, newest write first. -/
def replay : List Write → Table
  | [] => .empty
  | w :: earlier => w.run (replay earlier)

/-- What the last accepted write under one of the keys stored, newest write first. -/
def lastStored (under : Value → Bool) : List Write → Value
  | [] => .nil
  | w :: earlier => if w.key.isKey ∧ under w.key then w.value else lastStored under earlier

theorem lastStored_congr {under under' : Value → Bool} {log : List Write}
    (same : ∀ w ∈ log, w.key.isKey = true → under w.key = under' w.key) :
    lastStored under log = lastStored under' log := by
  induction log with
  | nil => rfl
  | cons w log ih =>
    obtain ⟨first, rest⟩ := List.forall_mem_cons.mp same
    rw [lastStored, lastStored, ih rest]
    cases isKey : w.key.isKey with
    | true => rw [first isKey]
    | false => simp

theorem exists_of_lastStored {under : Value → Bool} {log : List Write}
    (stored : lastStored under log ≠ .nil) :
    ∃ w ∈ log, w.key.isKey = true ∧ under w.key = true := by
  induction log with
  | nil => exact absurd rfl stored
  | cons w log ih =>
    rw [lastStored] at stored
    split at stored
    · rename_i here
      exact ⟨w, List.mem_cons_self, here⟩
    · obtain ⟨w', listed, found⟩ := ih stored
      exact ⟨w', List.mem_cons_of_mem w listed, found⟩

theorem Valid.replay (log : List Write) : (replay log).Valid := by
  induction log with
  | nil => exact Valid.empty
  | cons w earlier ih => exact ih.run w

theorem get_empty (key : Value) : Table.empty.get key = .nil := by
  have outside : Table.empty.arraySlot? key = none := by
    refine arraySlot?_eq_none_iff.mpr fun i position => ?_
    exact Nat.lt_of_lt_of_le Nat.zero_lt_one (position?_pos position)
  rw [get_of_no_arraySlot? outside]
  exact Indexed.empty.entryGet_of_absent fun e he => absurd he (Array.not_mem_empty e)

theorem get_run {t : Table} (valid : t.Valid) (w : Write) (key : Value) :
    (w.run t).get key =
      if w.key.isKey ∧ w.key.sameKey key then w.value else t.get key := by
  cases isKey : w.key.isKey with
  | true =>
    rw [t.run_of_isKey isKey, get_put valid isKey]
    simp only [Value.sameKey_iff, true_and, eq_comm (a := key.normal) (b := w.key.normal)]
  | false =>
    rw [t.run_of_not_isKey isKey]
    simp

theorem get_replay (log : List Write) (key : Value) :
    (replay log).get key = lastStored (·.sameKey key) log := by
  induction log with
  | nil => exact get_empty key
  | cons w earlier ih => rw [replay, get_run (Valid.replay earlier), ih, lastStored]

theorem arrayPairs_zero (t : Table) :
    t.arrayPairs 0 = t.array.toList.zipIdx.filterMap fun (v, i) =>
      if v.isNil then none else some (.ofInt ((i : Int) + 1), v) := by
  simp [arrayPairs]

theorem mem_arrayPairs {t : Table} {e : Value × Value} :
    e ∈ t.arrayPairs 0 ↔
      ∃ i : Nat, t.array[i]? = some e.2 ∧ e.2.isNil = false ∧ e.1 = .ofInt ((i : Int) + 1) := by
  rw [arrayPairs_zero, List.mem_filterMap]
  constructor
  · rintro ⟨⟨v, i⟩, found, here⟩
    rw [List.mem_zipIdx_iff_getElem?, Array.getElem?_toList] at found
    cases held : v.isNil with
    | true => simp [held] at here
    | false =>
      simp only [held, Bool.false_eq_true, if_false, Option.some.injEq] at here
      cases here
      exact ⟨i, found, held, rfl⟩
  · rintro ⟨i, found, held, key⟩
    refine ⟨(e.2, i), ?_, ?_⟩
    · rw [List.mem_zipIdx_iff_getElem?, Array.getElem?_toList]
      exact found
    · simp only [held, Bool.false_eq_true, if_false]
      rw [← key]

theorem mem_entryPairs {t : Table} {e : Value × Value} :
    e ∈ t.entryPairs 0 ↔ e ∈ t.entries ∧ e.2.isNil = false := by
  simp [entryPairs]

theorem length_pairs (t : Table) : t.pairs.length = t.pairCount := by
  have array : (t.arrayPairs 0).length = t.array.countP fun v => !v.isNil := by
    rw [arrayPairs_zero, List.length_filterMap_eq_countP, ← Array.countP_toList]
    conv => rhs; rw [← List.zipIdx_map_fst 0 t.array.toList, List.countP_map]
    congr 1
    funext ⟨v, i⟩
    cases held : v.isNil <;> simp [held]
  have entries : (t.entryPairs 0).length = t.entries.countP fun e => !e.2.isNil := by
    rw [entryPairs, List.drop_zero, ← List.countP_eq_length_filter, Array.countP_toList]
  rw [pairs, List.length_append, array, entries, pairCount]

theorem get_ofInt_succ {t : Table} (small : t.array.size ≤ 2 ^ 53) {i : Nat} {v : Value}
    (found : t.array[i]? = some v) : t.get (.ofInt ((i : Int) + 1)) = v := by
  have below := (Array.getElem?_eq_some_iff.mp found).1
  have slot := arraySlot?_ofInt small (i := i + 1) (by omega) (by omega)
  have value : t.get (.ofInt ((i + 1 : Nat) : Int)) = v := by
    rw [get_of_arraySlot? slot, Array.getD_eq_getD_getElem?, Nat.add_sub_cancel, found]
    rfl
  exact value

theorem Valid.arraySlot?_of_live {t : Table} (valid : t.Valid) {e : Value × Value}
    (he : e ∈ t.entries) (live : e.2.isNil = false) : t.arraySlot? e.1 = none := by
  cases here : t.arraySlot? e.1 with
  | none => rfl
  | some slot =>
    obtain ⟨position, below⟩ := arraySlot?_eq_some_iff.mp here
    have small := valid.small
    have empty := valid.behind (slot + 1) (by omega) below
    rw [← eq_ofInt_of_position? position (by omega), valid.entryGet_of_mem he rfl] at empty
    rw [empty] at live
    contradiction

theorem Valid.get_of_mem_pairs {t : Table} (valid : t.Valid) {e : Value × Value}
    (he : e ∈ t.pairs) : e.1.isKey = true ∧ t.get e.1 = e.2 ∧ e.2.isNil = false := by
  rcases List.mem_append.mp he with inArray | inEntries
  · obtain ⟨i, found, held, key⟩ := mem_arrayPairs.mp inArray
    rw [key]
    exact ⟨Value.isKey_ofInt _, get_ofInt_succ valid.small found, held⟩
  · obtain ⟨mem, held⟩ := mem_entryPairs.mp inEntries
    refine ⟨valid.isKey_of_mem mem, ?_, held⟩
    rw [get_of_no_arraySlot? (valid.arraySlot?_of_live mem held), valid.entryGet_of_mem mem rfl]

theorem Valid.get_ne_nil {t : Table} (valid : t.Valid) {e : Value × Value} (he : e ∈ t.pairs) :
    t.get e.1 ≠ .nil := by
  obtain ⟨-, held, live⟩ := valid.get_of_mem_pairs he
  rw [held]
  exact mt Value.isNil_iff.mpr (Bool.eq_false_iff.mp live)

theorem Valid.exists_pair {t : Table} (valid : t.Valid) {key : Value}
    (held : t.get key ≠ .nil) : ∃ e ∈ t.pairs, e.1.normal = key.normal := by
  cases here : t.arraySlot? key with
  | some slot =>
    obtain ⟨position, below⟩ := arraySlot?_eq_some_iff.mp here
    have small := valid.small
    have found : t.array[slot]? = some (t.get key) := by
      rw [get_of_arraySlot? here, Array.getD_eq_getD_getElem?, Array.getElem?_eq_getElem below]
      rfl
    have live : (t.get key).isNil = false := Bool.eq_false_iff.mpr (held ∘ Value.isNil_iff.mp)
    refine ⟨(.ofInt ((slot : Int) + 1), t.get key), ?_, ?_⟩
    · exact List.mem_append_left _ (mem_arrayPairs.mpr ⟨slot, found, live, rfl⟩)
    · rw [eq_ofInt_of_position? position (by omega)]
      rfl
  | none =>
    rw [get_of_no_arraySlot? here] at held
    by_cases h : ∃ e ∈ t.entries, e.1.normal = key.normal
    · obtain ⟨e, he, same⟩ := h
      rw [valid.entryGet_of_mem he same] at held
      have live : e.2.isNil = false := Bool.eq_false_iff.mpr (held ∘ Value.isNil_iff.mp)
      exact ⟨e, List.mem_append_right _ (mem_entryPairs.mpr ⟨he, live⟩), same⟩
    · exact absurd (valid.entryGet_of_absent fun e he same => h ⟨e, he, same⟩) held

theorem Valid.pairs_distinct {t : Table} (valid : t.Valid) :
    t.pairs.Pairwise fun a b => a.1.normal ≠ b.1.normal := by
  have small := valid.small
  refine List.pairwise_append.mpr ⟨?_, valid.distinct.filter _, ?_⟩
  · rw [arrayPairs_zero, List.pairwise_filterMap]
    refine List.pairwise_iff_getElem.mpr fun i j hi hj before a ha b hb => ?_
    simp only [List.length_zipIdx, Array.length_toList] at hi hj
    simp only [List.getElem_zipIdx, Nat.zero_add] at ha hb
    split at ha
    · contradiction
    · split at hb
      · contradiction
      · cases Option.some.inj ha
        cases Option.some.inj hb
        intro same
        have equal := ofInt_normal_inj (i := i + 1) (j := j + 1) (by omega) (by omega) same
        omega
  · intro a ha b hb same
    obtain ⟨i, found, -, key⟩ := mem_arrayPairs.mp ha
    obtain ⟨mem, live⟩ := mem_entryPairs.mp hb
    have below := (Array.getElem?_eq_some_iff.mp found).1
    have outside := valid.arraySlot?_of_live mem live
    have inside := arraySlot?_ofInt small (i := i + 1) (by omega) below
    rw [key] at same
    rw [← arraySlot?_congr t same] at outside
    exact absurd (outside.symm.trans inside) nofun

end Table

/-- What a host does to the tables of a heap: it makes a new one, or writes to one. -/
inductive TableOp where
  | create
  | write (t : TableId) (w : Write)

namespace TableOp
variable {E : Embedding}

def run (h : Heap E) : TableOp → Heap E
  | create => (h.allocTable .empty).2
  | write t w => h.modifyTable t w.run

/-- The writes that each table has seen, newest first. -/
def record (logs : Array (List Write)) : TableOp → Array (List Write)
  | create => logs.push []
  | write t w => logs.modify t.index (w :: ·)

def runAll (ops : List TableOp) : Heap E := ops.foldl run {}
def recordAll (ops : List TableOp) : Array (List Write) := ops.foldl record #[]

theorem tables_run {h : Heap E} {logs : Array (List Write)}
    (agree : h.tables = logs.map Table.replay) (op : TableOp) :
    (op.run h).tables = (op.record logs).map Table.replay := by
  cases op with
  | create =>
    simp only [run, Heap.allocTable, record, agree, Array.map_push]
    rfl
  | write t w =>
    apply Array.ext_getElem?
    intro i
    simp only [run, Heap.modifyTable, record, agree, Array.getElem?_modify, Array.getElem?_map]
    split
    · simp only [Option.map_map]
      rfl
    · rfl

theorem tables_foldl (ops : List TableOp) (h : Heap E) (logs : Array (List Write))
    (agree : h.tables = logs.map Table.replay) :
    (ops.foldl run h).tables = (ops.foldl record logs).map Table.replay := by
  induction ops generalizing h logs with
  | nil => exact agree
  | cons op ops ih => exact ih (op.run h) (op.record logs) (tables_run agree op)

theorem table_runAll (ops : List TableOp) (t : TableId) {log : List Write}
    (made : (recordAll ops)[t.index]? = some log) :
    (runAll ops : Heap E).table t = Table.replay log := by
  have all : (runAll ops : Heap E).tables = (recordAll ops).map Table.replay :=
    tables_foldl ops {} #[] Array.map_empty.symm
  rw [Heap.table, Array.getD_eq_getD_getElem?, all, Array.getElem?_map, made]
  rfl

/-- None of the keys written is an object whose address the key carries, or the address of an object
that the key is. -/
def Unaliased (log : List Write) (key : Value) : Prop := ∀ w ∈ log, Value.Unaliased w.key key

theorem Unaliased.lastStored_eq {log : List Write} {key : Value} (unaliased : Unaliased log key) :
    Table.lastStored (·.rawEquals key) log = Table.lastStored (·.sameKey key) log :=
  Table.lastStored_congr fun w listed isKey =>
    (Bool.eq_iff_iff.mpr (Value.sameKey_iff_rawEquals isKey (unaliased w listed))).symm

theorem unaliased_of_plain {key : Value} (plain : key.isReference = false) (other : key.kind ≠ .light)
    (log : List Write) : Unaliased log key := fun w _ => by
  refine ⟨fun _ same => other (same ▸ rfl), fun reference => ?_⟩
  rw [plain] at reference
  contradiction

theorem exists_keys {t : Table} {log : List Write} (replayed : t = Table.replay log) :
    ∃ keys : List Value, keys.length = t.pairCount ∧ (∀ k ∈ keys, ∃ w ∈ log, w.key = k ∧ k.isKey) ∧
      keys.Pairwise (fun a b => a.sameKey b = false) ∧
      ∀ key, Table.lastStored (·.sameKey key) log ≠ .nil ↔ ∃ k ∈ keys, k.sameKey key = true := by
  have valid : t.Valid := replayed ▸ Table.Valid.replay log
  have reads : ∀ key, t.get key = Table.lastStored (·.sameKey key) log :=
    fun key => replayed ▸ Table.get_replay log key
  have written (e : Value × Value) (he : e ∈ t.pairs) :
      ∃ k, (∃ w ∈ log, w.key = k ∧ k.isKey) ∧ k.normal = e.1.normal := by
    have held := valid.get_ne_nil he
    rw [reads] at held
    obtain ⟨w, listed, isKey, same⟩ := Table.exists_of_lastStored held
    exact ⟨w.key, ⟨w, listed, rfl, isKey⟩, Value.sameKey_iff.mp same⟩
  choose! key own same using written
  refine ⟨t.pairs.map key, by rw [List.length_map, t.length_pairs], ?_, ?_, fun k => ?_⟩
  · intro k listed
    obtain ⟨e, he, rfl⟩ := List.mem_map.mp listed
    exact own e he
  · rw [List.pairwise_map]
    refine valid.pairs_distinct.imp_of_mem fun {a b} ha hb apart => ?_
    rw [Value.sameKey_eq_false_iff, same a ha, same b hb]
    exact apart
  · simp only [Value.sameKey_iff, ← reads]
    constructor
    · intro held
      obtain ⟨e, he, equal⟩ := valid.exists_pair held
      exact ⟨key e, List.mem_map_of_mem he, (same e he).trans equal⟩
    · rintro ⟨_, listed, equal⟩
      obtain ⟨e, he, rfl⟩ := List.mem_map.mp listed
      rw [← t.get_congr ((same e he).symm.trans equal)]
      exact valid.get_ne_nil he

/-- Every table of a heap is a finite map, after any operations on any of the tables: it holds what
was last stored under a key, where objects are keys by their address. Keys are the same key if they
are raw-equal, and only then unless one is the address of the other. Integers are keys of their own
up to `2 ^ 53`. -/
theorem tables_are_finite_maps (E : Embedding) (ops : List TableOp) (t : TableId)
    (log : List Write) (made : (recordAll ops)[t.index]? = some log) :
    let table := (runAll ops : Heap E).table t
    (∀ key, table.get key = Table.lastStored (·.sameKey key) log) ∧
    (∀ key, Unaliased log key → table.get key = Table.lastStored (·.rawEquals key) log) ∧
    (∀ s, table.getStr s = Table.lastStored (·.rawEquals (.string s)) log) ∧
    (∀ i, table.getInt i = Table.lastStored (·.rawEquals (.ofInt i)) log) ∧
    (∀ i j : Int, i.natAbs ≤ 2 ^ 53 → j.natAbs ≤ 2 ^ 53 →
      ((Value.ofInt i).rawEquals (.ofInt j) = true ↔ i = j)) ∧
    (∀ key value, ((∃ e, table.set key value = .error e) ↔ key = .nil ∨ key.isNaN = true) ∧
      (key = .nil ∨ key.isNaN = true → (Write.set key value).run table = table)) ∧
    ∃ keys : List Value, keys.length = table.pairCount ∧ (∀ k ∈ keys, ∃ w ∈ log, w.key = k) ∧
      keys.Pairwise (fun a b => a.rawEquals b = false) ∧
      ∀ key, Unaliased log key →
        (Table.lastStored (·.rawEquals key) log ≠ .nil ↔ ∃ k ∈ keys, k.rawEquals key = true) := by
  intro table
  have replayed : table = Table.replay log := table_runAll ops t made
  have valid : table.Valid := replayed ▸ Table.Valid.replay log
  have reads : ∀ key, table.get key = Table.lastStored (·.sameKey key) log :=
    fun key => replayed ▸ Table.get_replay log key
  have raw : ∀ key, Unaliased log key → table.get key = Table.lastStored (·.rawEquals key) log :=
    fun key unaliased => (reads key).trans unaliased.lastStored_eq.symm
  obtain ⟨keys, count, own, apart, live⟩ := exists_keys replayed
  refine ⟨reads, raw, fun s => ?_, fun i => ?_, fun i j hi hj => ?_, fun key value => ⟨?_, ?_⟩,
    keys, count, fun k listed => ?_, apart.imp Value.rawEquals_of_not_sameKey,
    fun key unaliased => ?_⟩
  · rw [table.getStr_eq, raw _ (unaliased_of_plain rfl (Kind.noConfusion ·) log)]
  · rw [Table.getInt_eq valid.small, raw _ (unaliased_of_plain rfl (Kind.noConfusion ·) log)]
  · exact Number.eqv_ofInt_iff hi hj
  · exact table.set_error_iff key value
  · intro refused
    obtain ⟨e, failed⟩ := (table.set_error_iff key value).mpr refused
    rw [Write.run, failed]
  · obtain ⟨w, listed, same, -⟩ := own k listed
    exact ⟨w, listed, same⟩
  · rw [unaliased.lastStored_eq, live]
    refine exists_congr fun k => and_congr_right fun listed => ?_
    obtain ⟨w, written, rfl, isKey⟩ := own k listed
    exact Value.sameKey_iff_rawEquals isKey (unaliased w written)

/-- The negative zero reads what was stored under the positive one. -/
theorem tables_are_finite_maps_signed_zero :
    (recordAll [create, write ⟨0⟩ (.set (.number .zero) (.boolean true))])[0]? =
        some [.set (.number .zero) (.boolean true)] ∧
      Unaliased [.set (.number .zero) (.boolean true)] (.number ⟨Number.signBit⟩) ∧
      ((runAll [create, write ⟨0⟩ (.set (.number .zero) (.boolean true))] :
        Heap (Catalog.embedding Unit Unit)).table ⟨0⟩).get (.number ⟨Number.signBit⟩) =
          .boolean true := by
  have reads := (tables_are_finite_maps (Catalog.embedding Unit Unit)
    [create, write ⟨0⟩ (.set (.number .zero) (.boolean true))] ⟨0⟩ _ rfl).2.1
  have unaliased : Unaliased [.set (.number .zero) (.boolean true)] (.number ⟨Number.signBit⟩) :=
    unaliased_of_plain rfl (Kind.noConfusion ·) _
  refine ⟨rfl, unaliased, (reads _ unaliased).trans ?_⟩
  decide

/-- A table with itself for a key answers the same under its address, which is another value. -/
theorem address_reads_object :
    let own : Value := .table ⟨0⟩
    let log : List Write := [.set own (.boolean true)]
    (recordAll [create, write ⟨0⟩ (.set own (.boolean true))])[0]? = some log ∧
      own.rawEquals (.light own.address) = false ∧
      Table.lastStored (·.rawEquals (.light own.address)) log = .nil ∧
      ((runAll [create, write ⟨0⟩ (.set own (.boolean true))] :
        Heap (Catalog.embedding Unit Unit)).table ⟨0⟩).get (.light own.address) =
          .boolean true := by
  intro own log
  have made : (recordAll [create, write ⟨0⟩ (.set own (.boolean true))])[0]? = some log := rfl
  refine ⟨made, by decide, by decide, ?_⟩
  rw [table_runAll _ ⟨0⟩ made, Table.get_replay]
  decide

end TableOp
end HostBridge
