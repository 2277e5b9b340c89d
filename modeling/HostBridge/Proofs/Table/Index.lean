import HostBridge.Proofs.Number.Integral
import HostBridge.Table.Basic
/-!
Keys and the entry list. Which slot a key has depends only on its normal form. The two indexes are
exact when they find a slot for a key iff that slot holds a key with the same normal form; reading
and writing the entry list is stated for tables with exact indexes, apart from the array part.
-/
namespace HostBridge
namespace Value

theorem isNil_iff {v : Value} : v.isNil = true ↔ v = .nil := by
  cases v <;> simp [isNil]

def isKey (v : Value) : Bool := !v.isNil && !v.isNaN

theorem isNaN_normal (v : Value) : v.normal.isNaN = v.isNaN := by
  cases v <;> simp [normal, isNaN]

theorem isNil_normal (v : Value) : v.normal.isNil = v.isNil := by
  cases v <;> rfl

theorem isKey_normal (v : Value) : v.normal.isKey = v.isKey := by
  rw [isKey, isNaN_normal, isNil_normal, isKey]

theorem isKey_congr {a b : Value} (same : a.normal = b.normal) : a.isKey = b.isKey := by
  rw [← isKey_normal, same, isKey_normal]

theorem isKey_ofInt (i : Int) : (ofInt i).isKey = true := by
  simp [isKey, ofInt, isNil, isNaN, Number.ofInt_isNaN]

theorem sameKey_iff {a b : Value} : a.sameKey b = true ↔ a.normal = b.normal := beq_iff_eq

theorem sameKey_eq_false_iff {a b : Value} : a.sameKey b = false ↔ a.normal ≠ b.normal :=
  beq_eq_false_iff_ne

theorem sameKey_of_rawEquals {a b : Value} (equal : a.rawEquals b = true) : a.sameKey b = true := by
  rw [sameKey_iff]
  cases a <;> cases b <;> simp_all [rawEquals, normal, Number.eqv_iff]

theorem rawEquals_of_not_sameKey {a b : Value} (apart : a.sameKey b = false) :
    a.rawEquals b = false :=
  Bool.eq_false_iff.mpr fun equal =>
    absurd ((sameKey_of_rawEquals equal).symm.trans apart) nofun

theorem eq_of_address {a b : Value} (ha : a.isReference = true) (hb : b.isReference = true)
    (same : a.address = b.address) : a = b := by
  cases a <;> cases b <;> simp_all only [isReference, Bool.false_eq_true, address] <;> first
    | omega
    | (congr 1; ext; omega)

/-- Neither of the values carries the address of an object that is the other. -/
def Unaliased (a b : Value) : Prop :=
  (a.isReference = true → b ≠ .light a.address) ∧ (b.isReference = true → a ≠ .light b.address)

/-- Different keys are one key of a table only where one is the address of the other. -/
theorem sameKey_iff_rawEquals {a b : Value} (key : a.isKey = true) (unaliased : Unaliased a b) :
    a.sameKey b = true ↔ a.rawEquals b = true := by
  refine ⟨fun same => ?_, sameKey_of_rawEquals⟩
  rw [sameKey_iff] at same
  have other : b.isKey = true := isKey_congr same ▸ key
  by_cases both : a.isReference = true ∧ b.isReference = true
  · have equal := eq_of_address both.1 both.2
    cases a <;> cases b <;> simp_all [normal, rawEquals, isReference]
  · cases a <;> cases b <;>
      simp_all [normal, rawEquals, Unaliased, isReference, isKey, isNaN, isNil, Number.eqv_iff]

end Value

namespace Table

theorem keyFault?_eq_none_iff {key : Value} : keyFault? key = none ↔ key.isKey = true := by
  cases key <;> simp [keyFault?, Value.isKey, Value.isNil, Value.isNaN]

theorem keyFault?_eq (key : Value) :
    keyFault? key =
      if key = .nil then some Error.nilKey else if key.isNaN then some Error.nanKey else none := by
  cases key with
  | nil => rfl
  | _ => exact (if_neg nofun).symm

theorem position?_eq_some_iff {v : Value} {i : Nat} :
    position? v = some i ↔
      ∃ n, v = .number n ∧ Number.one.le n = true ∧ n.toInt?.map Int.toNat = some i := by
  cases v with
  | number n =>
    unfold position?
    by_cases above : Number.one.le n = true
    · simp [above]
    · simp [above]
  | _ => simp [position?]

theorem position?_eq_some {v : Value} {i : Nat} (h : position? v = some i) :
    1 ≤ i ∧ ∃ n, v = .number n ∧ n.toInt? = some (i : Int) := by
  obtain ⟨n, rfl, above, read⟩ := position?_eq_some_iff.mp h
  obtain ⟨k, hk, rfl⟩ := Option.map_eq_some_iff.mp read
  have positive := (Number.one_le_iff hk).mp above
  refine ⟨by omega, n, rfl, ?_⟩
  rw [hk]
  congr 1
  omega

theorem position?_pos {v : Value} {i : Nat} (h : position? v = some i) : 1 ≤ i :=
  (position?_eq_some h).1

theorem position?_ofInt {i : Nat} (positive : 1 ≤ i) (small : i ≤ 2 ^ 53) :
    position? (.ofInt i) = some i := by
  have read : (Number.ofInt i).toInt? = some (i : Int) := Number.toInt?_ofInt (by omega)
  refine position?_eq_some_iff.mpr ⟨Number.ofInt i, rfl, ?_, ?_⟩
  · exact (Number.one_le_iff read).mpr (by omega)
  · rw [read]
    rfl

theorem eq_ofInt_of_position? {v : Value} {i : Nat} (h : position? v = some i)
    (small : i ≤ 2 ^ 53) : v = .ofInt i := by
  obtain ⟨positive, n, rfl, read⟩ := position?_eq_some h
  exact congrArg Value.number (Number.eq_ofInt_of_toInt? (by omega) (by omega) read)

theorem position?_ne_gap (v : Value) : position? v ≠ some (2 ^ 53 + 1) := by
  intro h
  obtain ⟨-, n, -, read⟩ := position?_eq_some h
  exact Number.toInt?_ne_of_gap n read

theorem position?_normal (v : Value) : position? v.normal = position? v := by
  cases v with
  | number n =>
    rw [Value.normal, Number.canonical]
    split
    · rename_i isZero
      have below : Number.one.le n = false := by
        have zero : n.rank = 0 := by simp [Number.rank, isZero]
        have one : 0 < Number.one.rank := by decide
        simp only [Number.le, zero, Bool.and_eq_false_iff, decide_eq_false_iff_not]
        exact .inr (by omega)
      have none : position? (.number Number.zero) = none := by decide
      rw [none, position?, below]
      rfl
    · split
      · rename_i isNaN
        simp [position?, Number.le, isNaN, Number.quiet_isNaN isNaN]
      · rfl
  | _ => rfl

theorem position?_congr {a b : Value} (same : a.normal = b.normal) : position? a = position? b := by
  rw [← position?_normal, same, position?_normal]

theorem ofInt_normal_inj {i j : Nat} (hi : 1 ≤ i ∧ i ≤ 2 ^ 53) (hj : 1 ≤ j ∧ j ≤ 2 ^ 53)
    (same : (Value.ofInt i).normal = (Value.ofInt j).normal) : i = j := by
  have position := position?_congr same
  rw [position?_ofInt hi.1 hi.2, position?_ofInt hj.1 hj.2] at position
  exact Option.some.inj position

theorem arraySlot?_congr (t : Table) {a b : Value} (same : a.normal = b.normal) :
    t.arraySlot? a = t.arraySlot? b := by
  rw [arraySlot?, arraySlot?, position?_congr same]

theorem entrySlot?_congr (t : Table) {a b : Value} (same : a.normal = b.normal) :
    t.entrySlot? a = t.entrySlot? b := by
  cases a <;> cases b <;> simp_all [Value.normal, entrySlot?]

theorem get_congr (t : Table) {a b : Value} (same : a.normal = b.normal) : t.get a = t.get b := by
  rw [get, get, arraySlot?_congr t same, entrySlot?_congr t same]

def keyAt? (t : Table) (slot : Nat) : Option Value := t.entries[slot]?.map Prod.fst

def entryGet (t : Table) (key : Value) : Value :=
  match t.entrySlot? key with
  | some slot => t.entryValue slot
  | none => .nil

theorem get_of_arraySlot? {t : Table} {key : Value} {i : Nat} (h : t.arraySlot? key = some i) :
    t.get key = t.array.getD i .nil := by
  rw [get, h]

theorem get_of_no_arraySlot? {t : Table} {key : Value} (h : t.arraySlot? key = none) :
    t.get key = t.entryGet key := by
  rw [get, h]
  rfl

theorem entryGet_congr (t : Table) {a b : Value} (same : a.normal = b.normal) :
    t.entryGet a = t.entryGet b := by
  rw [entryGet, entryGet, entrySlot?_congr t same]

/-- The entry list is sound: its keys are keys, the indexes are exact and the count of empty slots
is right. -/
structure Indexed (t : Table) : Prop where
  index : ∀ key slot,
    t.entrySlot? key = some slot ↔ ∃ k, t.keyAt? slot = some k ∧ k.normal = key.normal
  keys : ∀ slot key, t.keyAt? slot = some key → key.isKey = true
  dead : t.dead = t.entries.countP fun e => e.2.isNil

theorem Indexed.empty : Table.empty.Indexed where
  index := by
    intro key slot
    cases key <;> simp [Table.empty, entrySlot?, keyAt?]
  keys := by
    intro slot key found
    simp [Table.empty, keyAt?] at found
  dead := rfl

theorem Indexed.slot_lt {t : Table} (sound : t.Indexed) {key : Value} {slot : Nat}
    (found : t.entrySlot? key = some slot) : slot < t.entries.size := by
  obtain ⟨k, at_slot, -⟩ := (sound.index key slot).mp found
  obtain ⟨e, he, -⟩ := Option.map_eq_some_iff.mp at_slot
  exact (Array.getElem?_eq_some_iff.mp he).1

theorem Indexed.normal_eq {t : Table} (sound : t.Indexed) {a b : Value} {slot : Nat}
    (ha : t.entrySlot? a = some slot) (hb : t.entrySlot? b = some slot) : a.normal = b.normal := by
  obtain ⟨k, at_a, same_a⟩ := (sound.index a slot).mp ha
  obtain ⟨k', at_b, same_b⟩ := (sound.index b slot).mp hb
  rw [at_a] at at_b
  rw [← same_a, ← same_b, Option.some.inj at_b]

theorem Indexed.of_entries {t u : Table} (sound : t.Indexed) (entries : u.entries = t.entries)
    (strings : u.strings = t.strings) (others : u.others = t.others) (dead : u.dead = t.dead) :
    u.Indexed := by
  have slots : ∀ key, u.entrySlot? key = t.entrySlot? key := by
    intro key
    cases key <;> simp only [entrySlot?, strings, others]
  have keyAt : ∀ slot, u.keyAt? slot = t.keyAt? slot := by
    intro slot
    rw [keyAt?, keyAt?, entries]
  constructor
  · intro key slot
    rw [slots, keyAt]
    exact sound.index key slot
  · intro slot key found
    rw [keyAt] at found
    exact sound.keys slot key found
  · rw [dead, entries]
    exact sound.dead

@[simp] theorem entrySlot?_store (t : Table) (slot : Nat) (value key : Value) :
    (t.store slot value).entrySlot? key = t.entrySlot? key := by
  cases key <;> rfl

@[simp] theorem size_store (t : Table) (slot : Nat) (value : Value) :
    (t.store slot value).entries.size = t.entries.size := Array.size_modify

@[simp] theorem keyAt?_store (t : Table) (slot other : Nat) (value : Value) :
    (t.store slot value).keyAt? other = t.keyAt? other := by
  simp only [keyAt?, store, Array.getElem?_modify]
  split
  · rw [Option.map_map]
    rfl
  · rfl

theorem entryValue_eq (t : Table) (slot : Nat) :
    t.entryValue slot = (t.entries[slot]?.getD (.nil, .nil)).2 := by
  rw [entryValue, Array.getD_eq_getD_getElem?]

theorem entryValue_store_self (t : Table) {slot : Nat} (value : Value)
    (h : slot < t.entries.size) : (t.store slot value).entryValue slot = value := by
  simp only [entryValue_eq, store, Array.getElem?_modify, if_true, Array.getElem?_eq_getElem h]
  rfl

theorem entryValue_store_of_ne (t : Table) {slot other : Nat} (value : Value)
    (h : slot ≠ other) : (t.store slot value).entryValue other = t.entryValue other := by
  simp only [entryValue_eq, store, Array.getElem?_modify, if_neg h]

theorem countP_modify {α : Type} (p : α → Bool) (xs : Array α) (f : α → α) {i : Nat}
    (h : i < xs.size) :
    (xs.modify i f).countP p + (if p xs[i] then 1 else 0) =
      xs.countP p + (if p (f xs[i]) then 1 else 0) := by
  have change : xs.modify i f = xs.set i (f xs[i]) h := by
    apply Array.ext_getElem?
    intro j
    rw [Array.getElem?_modify, Array.getElem?_set]
    split
    · rename_i same
      subst same
      simp [h]
    · rfl
  have counted : (if p xs[i] then 1 else 0) ≤ xs.countP p := by
    split
    · rename_i holds
      exact Array.countP_pos_iff.mpr ⟨xs[i], Array.getElem_mem h, holds⟩
    · exact Nat.zero_le _
  rw [change, Array.countP_set]
  omega

theorem Indexed.store {t : Table} (sound : t.Indexed) {slot : Nat} (h : slot < t.entries.size)
    (value : Value) : (t.store slot value).Indexed := by
  constructor
  · intro key other
    rw [entrySlot?_store, keyAt?_store]
    exact sound.index key other
  · intro other key found
    rw [keyAt?_store] at found
    exact sound.keys other key found
  · have count := countP_modify (fun e : Value × Value => e.2.isNil) t.entries
      (fun e => (e.1, value)) h
    have held : t.entryValue slot = t.entries[slot].2 := by
      rw [entryValue_eq, Array.getElem?_eq_getElem h]
      rfl
    have dead := sound.dead
    simp only [Table.store, held]
    rw [← dead] at count
    cases was : t.entries[slot].2.isNil <;> cases now : value.isNil <;>
      simp only [was, now, if_true, if_false, Bool.false_eq_true] at count ⊢ <;> omega

theorem entryGet_store {t : Table} (sound : t.Indexed) {key : Value} {slot : Nat}
    (found : t.entrySlot? key = some slot) (value other : Value) :
    (t.store slot value).entryGet other =
      if other.normal = key.normal then value else t.entryGet other := by
  split
  · rename_i same
    rw [entryGet_congr _ same, entryGet, entrySlot?_store, found]
    exact t.entryValue_store_self value (sound.slot_lt found)
  · rename_i differ
    rw [entryGet, entryGet, entrySlot?_store]
    cases here : t.entrySlot? other with
    | none => rfl
    | some place =>
      have apart : slot ≠ place := by
        rintro rfl
        exact differ (sound.normal_eq here found)
      exact t.entryValue_store_of_ne value apart

theorem entrySlot?_enterKey (t : Table) {key : Value} (isKey : key.isKey = true) (slot : Nat)
    (other : Value) :
    (t.enterKey key slot).entrySlot? other =
      if key.normal = other.normal then some slot else t.entrySlot? other := by
  cases key with
  | nil => simp [Value.isKey, Value.isNil] at isKey
  | _ => cases other <;> simp [enterKey, entrySlot?, Value.normal, Std.HashMap.getElem?_insert]

theorem entries_enterKey (t : Table) (key : Value) (slot : Nat) :
    (t.enterKey key slot).entries = t.entries := by
  cases key <;> rfl

theorem array_enterKey (t : Table) (key : Value) (slot : Nat) :
    (t.enterKey key slot).array = t.array := by
  cases key <;> rfl

theorem dead_enterKey (t : Table) (key : Value) (slot : Nat) :
    (t.enterKey key slot).dead = t.dead := by
  cases key <;> rfl

theorem entries_enterKeys (t : Table) (es : List (Value × Value)) (slot : Nat) :
    (t.enterKeys es slot).entries = t.entries := by
  induction es generalizing t slot with
  | nil => rfl
  | cons e es ih => rw [enterKeys, ih, entries_enterKey]

theorem array_enterKeys (t : Table) (es : List (Value × Value)) (slot : Nat) :
    (t.enterKeys es slot).array = t.array := by
  induction es generalizing t slot with
  | nil => rfl
  | cons e es ih => rw [enterKeys, ih, array_enterKey]

theorem dead_enterKeys (t : Table) (es : List (Value × Value)) (slot : Nat) :
    (t.enterKeys es slot).dead = t.dead := by
  induction es generalizing t slot with
  | nil => rfl
  | cons e es ih => rw [enterKeys, ih, dead_enterKey]

theorem entrySlot?_enterKeys (t : Table) (es : List (Value × Value)) (start : Nat)
    (keys : ∀ e ∈ es, e.1.isKey = true)
    (distinct : es.Pairwise fun a b => a.1.normal ≠ b.1.normal) (key : Value) (slot : Nat) :
    (t.enterKeys es start).entrySlot? key = some slot ↔
      (∃ i e, es[i]? = some e ∧ e.1.normal = key.normal ∧ slot = start + i) ∨
        ((∀ e ∈ es, e.1.normal ≠ key.normal) ∧ t.entrySlot? key = some slot) := by
  induction es generalizing t start with
  | nil => simp [enterKeys]
  | cons e es ih =>
    obtain ⟨apart, later⟩ := List.pairwise_cons.mp distinct
    rw [enterKeys, ih _ _ (fun f hf => keys f (List.mem_cons_of_mem e hf)) later,
      entrySlot?_enterKey t (keys e List.mem_cons_self)]
    constructor
    · rintro (⟨i, f, found, same, rfl⟩ | ⟨absent, found⟩)
      · exact .inl ⟨i + 1, f, found, same, by omega⟩
      · split at found
        · rename_i same
          exact .inl ⟨0, e, rfl, same, (Option.some.inj found).symm⟩
        · rename_i differ
          refine .inr ⟨?_, found⟩
          intro f hf
          rcases List.mem_cons.mp hf with rfl | hf
          · exact differ
          · exact absent f hf
    · rintro (⟨i, f, found, same, rfl⟩ | ⟨absent, found⟩)
      · cases i with
        | zero =>
          cases Option.some.inj found
          refine .inr ⟨fun f hf other => apart f hf (same.trans other.symm), ?_⟩
          rw [if_pos same]
          rfl
        | succ i => exact .inl ⟨i, f, found, same, by omega⟩
      · refine .inr ⟨fun f hf => absent f (List.mem_cons_of_mem e hf), ?_⟩
        rw [if_neg (absent e List.mem_cons_self)]
        exact found

theorem keyAt?_eq_some_iff {t : Table} {slot : Nat} {key : Value} :
    t.keyAt? slot = some key ↔ ∃ e, t.entries[slot]? = some e ∧ e.1 = key :=
  Option.map_eq_some_iff

theorem Indexed.entrySlot?_of_entry {t : Table} (sound : t.Indexed) {slot : Nat}
    {e : Value × Value} (he : t.entries[slot]? = some e) : t.entrySlot? e.1 = some slot :=
  (sound.index e.1 slot).mpr ⟨e.1, keyAt?_eq_some_iff.mpr ⟨e, he, rfl⟩, rfl⟩

theorem Indexed.isKey_of_mem {t : Table} (sound : t.Indexed) {e : Value × Value}
    (he : e ∈ t.entries) : e.1.isKey = true := by
  obtain ⟨slot, found⟩ := Array.mem_iff_getElem?.mp he
  exact sound.keys slot e.1 (keyAt?_eq_some_iff.mpr ⟨e, found, rfl⟩)

theorem Indexed.distinct {t : Table} (sound : t.Indexed) :
    t.entries.toList.Pairwise fun a b => a.1.normal ≠ b.1.normal := by
  refine List.pairwise_iff_getElem.mpr fun i j hi hj before same => ?_
  have first := sound.entrySlot?_of_entry (Array.getElem?_eq_getElem hi)
  have second := sound.entrySlot?_of_entry (Array.getElem?_eq_getElem hj)
  rw [Array.getElem_toList, Array.getElem_toList] at same
  rw [entrySlot?_congr t same, second] at first
  exact absurd (Option.some.inj first) (Nat.ne_of_gt before)

theorem Indexed.entryGet_of_mem {t : Table} (sound : t.Indexed) {e : Value × Value}
    (he : e ∈ t.entries) {key : Value} (same : e.1.normal = key.normal) :
    t.entryGet key = e.2 := by
  obtain ⟨slot, found⟩ := Array.mem_iff_getElem?.mp he
  rw [← entryGet_congr t same, entryGet, sound.entrySlot?_of_entry found]
  simp only [entryValue_eq, found, Option.getD_some]

theorem Indexed.entryGet_of_absent {t : Table} (sound : t.Indexed) {key : Value}
    (absent : ∀ e ∈ t.entries, e.1.normal ≠ key.normal) : t.entryGet key = .nil := by
  unfold entryGet
  cases found : t.entrySlot? key with
  | none => rfl
  | some slot =>
    obtain ⟨k, here, same⟩ := (sound.index key slot).mp found
    obtain ⟨e, he, rfl⟩ := keyAt?_eq_some_iff.mp here
    exact absurd same (absent e (Array.mem_of_getElem? he))

/-- Entering the keys of a list of distinct entries into empty indexes makes them exact. -/
theorem Indexed.rebuild (t : Table) (es : Array (Value × Value))
    (keys : ∀ e ∈ es, e.1.isKey = true)
    (distinct : es.toList.Pairwise fun a b => a.1.normal ≠ b.1.normal)
    (live : es.countP (fun e => e.2.isNil) = 0) :
    (enterKeys { t with entries := es, strings := ∅, others := ∅, dead := 0 }
      es.toList 0).Indexed := by
  constructor
  · intro key slot
    have blank : Table.entrySlot? { t with entries := es, strings := ∅, others := ∅, dead := 0 }
        key = none := by
      cases key <;> simp [entrySlot?]
    rw [entrySlot?_enterKeys _ _ _ (fun e he => keys e (Array.mem_toList_iff.mp he)) distinct,
      blank, keyAt?, entries_enterKeys]
    constructor
    · rintro (⟨i, e, found, same, rfl⟩ | ⟨-, found⟩)
      · rw [Nat.zero_add]
        exact ⟨e.1, Option.map_eq_some_iff.mpr ⟨e, Array.getElem?_toList ▸ found, rfl⟩, same⟩
      · contradiction
    · rintro ⟨k, here, same⟩
      obtain ⟨e, found, rfl⟩ := Option.map_eq_some_iff.mp here
      exact .inl ⟨slot, e, Array.getElem?_toList ▸ found, same, (Nat.zero_add slot).symm⟩
  · intro slot key here
    rw [keyAt?, entries_enterKeys] at here
    obtain ⟨e, found, rfl⟩ := Option.map_eq_some_iff.mp here
    exact keys e (Array.mem_of_getElem? found)
  · rw [dead_enterKeys, entries_enterKeys]
    exact live.symm

theorem Indexed.reclaim {t : Table} (sound : t.Indexed) : t.reclaim.Indexed := by
  rw [Table.reclaim]
  split
  · exact sound
  · refine Indexed.rebuild t _ ?_ ?_ ?_
    · intro e he
      exact sound.isKey_of_mem (Array.mem_filter.mp he).1
    · rw [Array.toList_filter]
      exact sound.distinct.filter _
    · refine Array.countP_eq_zero.mpr fun e he => ?_
      have held := (Array.mem_filter.mp he).2
      rw [Bool.not_eq_true'] at held
      rw [held]
      exact Bool.false_ne_true

@[simp] theorem array_reclaim (t : Table) : t.reclaim.array = t.array := by
  unfold reclaim
  split
  · rfl
  · rw [array_enterKeys]

theorem mem_of_mem_reclaim {t : Table} {e : Value × Value} (he : e ∈ t.reclaim.entries) :
    e ∈ t.entries := by
  unfold reclaim at he
  split at he
  · exact he
  · rw [entries_enterKeys] at he
    exact (Array.mem_filter.mp he).1

theorem mem_reclaim_of_live {t : Table} {e : Value × Value} (he : e ∈ t.entries)
    (live : e.2.isNil = false) : e ∈ t.reclaim.entries := by
  unfold reclaim
  split
  · exact he
  · rw [entries_enterKeys]
    exact Array.mem_filter.mpr ⟨he, by simp [live]⟩

theorem entryGet_reclaim {t : Table} (sound : t.Indexed) (key : Value) :
    t.reclaim.entryGet key = t.entryGet key := by
  by_cases h : ∃ e ∈ t.entries, e.1.normal = key.normal
  · obtain ⟨e, he, same⟩ := h
    rw [sound.entryGet_of_mem he same]
    cases held : e.2.isNil with
    | false => exact sound.reclaim.entryGet_of_mem (mem_reclaim_of_live he held) same
    | true =>
      unfold entryGet
      cases found : t.reclaim.entrySlot? key with
      | none => exact (Value.isNil_iff.mp held).symm
      | some slot =>
        obtain ⟨k, here, other⟩ := (sound.reclaim.index key slot).mp found
        obtain ⟨f, at_slot, rfl⟩ := keyAt?_eq_some_iff.mp here
        have kept := Array.mem_of_getElem? at_slot
        have value := sound.entryGet_of_mem (mem_of_mem_reclaim kept) other
        rw [sound.entryGet_of_mem he same] at value
        simp only [entryValue_eq, at_slot, Option.getD_some, value]
  · have absent : ∀ e ∈ t.entries, e.1.normal ≠ key.normal := fun e he same => h ⟨e, he, same⟩
    rw [sound.entryGet_of_absent absent]
    exact sound.reclaim.entryGet_of_absent fun e he => absent e (mem_of_mem_reclaim he)

theorem Indexed.entrySlot?_reclaim_of_none {t : Table} (sound : t.Indexed) {key : Value}
    (h : t.entrySlot? key = none) : t.reclaim.entrySlot? key = none := by
  cases found : t.reclaim.entrySlot? key with
  | none => rfl
  | some slot =>
    obtain ⟨k, here, same⟩ := (sound.reclaim.index key slot).mp found
    obtain ⟨e, at_slot, rfl⟩ := keyAt?_eq_some_iff.mp here
    have old := mem_of_mem_reclaim (Array.mem_of_getElem? at_slot)
    obtain ⟨place, there⟩ := Array.mem_iff_getElem?.mp old
    have slotOld := sound.entrySlot?_of_entry there
    rw [entrySlot?_congr t same, h] at slotOld
    contradiction

theorem entrySlot?_append (t : Table) {key : Value} (isKey : key.isKey = true)
    (value other : Value) :
    (t.append key value).entrySlot? other =
      if key.normal = other.normal then some t.entries.size else t.entrySlot? other := by
  rw [← entrySlot?_enterKey t isKey]
  cases other <;> rfl

theorem entries_append (t : Table) (key value : Value) :
    (t.append key value).entries = t.entries.push (key, value) := by
  simp only [append, entries_enterKey]

@[simp] theorem array_append (t : Table) (key value : Value) :
    (t.append key value).array = t.array := by
  simp only [append, array_enterKey]

theorem Indexed.append {t : Table} (sound : t.Indexed) {key value : Value}
    (isKey : key.isKey = true) (fresh : t.entrySlot? key = none) (held : value.isNil = false) :
    (t.append key value).Indexed := by
  constructor
  · intro other slot
    rw [entrySlot?_append t isKey, keyAt?, entries_append, Array.getElem?_push]
    by_cases same : key.normal = other.normal
    · rw [if_pos same]
      by_cases last : slot = t.entries.size
      · simp [last, same]
      · rw [if_neg last]
        have differ : some t.entries.size ≠ some slot := fun h => last (Option.some.inj h).symm
        refine iff_of_false differ fun here => ?_
        have old := (sound.index other slot).mpr here
        rw [← entrySlot?_congr t same, fresh] at old
        contradiction
    · rw [if_neg same]
      by_cases last : slot = t.entries.size
      · rw [if_pos last, last]
        refine iff_of_false (fun found => ?_) ?_
        · exact Nat.lt_irrefl _ (sound.slot_lt found)
        · simpa using same
      · rw [if_neg last]
        exact sound.index other slot
  · intro slot other here
    rw [keyAt?, entries_append, Array.getElem?_push] at here
    split at here
    · cases Option.some.inj here
      exact isKey
    · exact sound.keys slot other here
  · have count : (t.entries.push (key, value)).countP (fun e => e.2.isNil) =
        t.entries.countP fun e => e.2.isNil := Array.countP_push_of_neg (by simp [held])
    rw [entries_append, count, ← sound.dead]
    exact dead_enterKey t key _

theorem entryGet_append {t : Table} (sound : t.Indexed) {key : Value} (isKey : key.isKey = true)
    (value other : Value) :
    (t.append key value).entryGet other =
      if other.normal = key.normal then value else t.entryGet other := by
  rw [entryGet, entrySlot?_append t isKey]
  by_cases same : other.normal = key.normal
  · rw [if_pos same, if_pos same.symm]
    simp only [entryValue_eq, entries_append, Array.getElem?_push_size, Option.getD_some]
  · rw [if_neg same, if_neg fun h => same h.symm, entryGet]
    cases found : t.entrySlot? other with
    | none => rfl
    | some slot =>
      have before := sound.slot_lt found
      simp only [entryValue_eq, entries_append, Array.getElem?_push, if_neg (Nat.ne_of_lt before)]

@[simp] theorem array_setEntry (t : Table) (key value : Value) :
    (t.setEntry key value).array = t.array := by
  unfold setEntry
  split
  · rfl
  · split
    · rfl
    · rw [array_append, array_reclaim]

theorem Indexed.setEntry {t : Table} (sound : t.Indexed) {key : Value} (isKey : key.isKey = true)
    (value : Value) : (t.setEntry key value).Indexed := by
  rw [Table.setEntry]
  split
  · rename_i slot found
    exact sound.store (sound.slot_lt found) value
  · rename_i absent
    split
    · exact sound
    · rename_i held
      exact sound.reclaim.append isKey (sound.entrySlot?_reclaim_of_none absent)
        (Bool.eq_false_iff.mpr held)

theorem entryGet_of_no_entrySlot? {t : Table} {key : Value} (absent : t.entrySlot? key = none) :
    t.entryGet key = .nil := by
  rw [entryGet, absent]

theorem entryGet_setEntry {t : Table} (sound : t.Indexed) {key : Value}
    (isKey : key.isKey = true) (value other : Value) :
    (t.setEntry key value).entryGet other =
      if other.normal = key.normal then value else t.entryGet other := by
  unfold setEntry
  cases found : t.entrySlot? key with
  | some slot => exact entryGet_store sound found value other
  | none =>
    simp only
    split
    · rename_i held
      split
      · rename_i same
        rw [entryGet_congr t same, entryGet_of_no_entrySlot? found, Value.isNil_iff.mp held]
      · rfl
    · rw [entryGet_append sound.reclaim isKey, entryGet_reclaim sound]

@[simp] theorem array_removeEntry (t : Table) (key : Value) :
    (t.removeEntry key).array = t.array := by
  unfold removeEntry
  split <;> rfl

theorem Indexed.removeEntry {t : Table} (sound : t.Indexed) (key : Value) :
    (t.removeEntry key).Indexed := by
  rw [Table.removeEntry]
  split
  · rename_i slot found
    exact sound.store (sound.slot_lt found) .nil
  · exact sound

theorem entryGet_removeEntry {t : Table} (sound : t.Indexed) (key other : Value) :
    (t.removeEntry key).entryGet other =
      if other.normal = key.normal then .nil else t.entryGet other := by
  unfold removeEntry
  cases found : t.entrySlot? key with
  | some slot => exact entryGet_store sound found .nil other
  | none =>
    simp only
    split
    · rename_i same
      rw [entryGet_congr t same, entryGet_of_no_entrySlot? found]
    · rfl

end Table
end HostBridge
