import HostBridge.Proofs.Table.FiniteMap

namespace HostBridge
namespace Table

/-- `key` itself, not just an equal one, is in the entry list. -/
def Lists (t : Table) (key : Value) : Prop := ∃ e ∈ t.entries, e.1 = key

theorem Lists.of_store {t : Table} {slot : Nat} {value key : Value}
    (lists : (t.store slot value).Lists key) : t.Lists key := by
  obtain ⟨e, listed, rfl⟩ := lists
  obtain ⟨i, found⟩ := Array.mem_iff_getElem?.mp listed
  change (t.entries.modify slot fun e => (e.1, value))[i]? = some e at found
  rw [Array.getElem?_modify] at found
  split at found
  · obtain ⟨f, here, rfl⟩ := Option.map_eq_some_iff.mp found
    exact ⟨f, Array.mem_of_getElem? here, rfl⟩
  · exact ⟨e, Array.mem_of_getElem? found, rfl⟩

theorem Lists.of_advance {t : Table} {value key : Value} (lists : (t.advance value).Lists key) :
    t.Lists key := by
  rw [advance, removeEntry] at lists
  split at lists
  · exact Lists.of_store lists
  · exact lists

theorem Lists.of_migrate {t : Table} {fuel : Nat} {key : Value}
    (lists : (t.migrate fuel).Lists key) : t.Lists key := by
  induction fuel generalizing t with
  | zero => exact lists
  | succ fuel ih =>
    rw [migrate_succ] at lists
    split at lists
    · exact lists
    · exact (ih lists).of_advance

theorem Lists.of_setEntry {t : Table} {key value other : Value}
    (lists : (t.setEntry key value).Lists other) : other = key ∨ t.Lists other := by
  rw [setEntry] at lists
  split at lists
  · exact .inr lists.of_store
  · split at lists
    · exact .inr lists
    · obtain ⟨e, listed, rfl⟩ := lists
      rw [entries_append] at listed
      rcases Array.mem_push.mp listed with before | rfl
      · exact .inr ⟨e, mem_of_mem_reclaim before, rfl⟩
      · exact .inl rfl

/-- Besides the key that is written to, a write brings no key into the entry list. -/
theorem Lists.of_put {t : Table} {key value other : Value}
    (lists : (t.put key value).Lists other) : other = key ∨ t.Lists other := by
  rcases t.put_cases key value with ⟨slot, -, eq⟩ | ⟨-, -, eq⟩ | ⟨-, -, eq⟩
  · rw [eq] at lists
    exact .inr lists
  · rw [eq, extend_eq] at lists
    exact .inr lists.of_migrate.of_advance
  · rw [eq] at lists
    exact lists.of_setEntry

/-- Every key of the entry list holds a value, there or in the array part. -/
structure Filled (t : Table) : Prop extends t.Valid where
  held : ∀ key, t.Lists key → t.get key ≠ .nil

theorem Filled.empty : Table.empty.Filled where
  toValid := .empty
  held := by
    rintro key ⟨e, listed, -⟩
    exact absurd listed (Array.not_mem_empty e)

theorem Filled.put {t : Table} (filled : t.Filled) {key value : Value} (isKey : key.isKey = true)
    (some : value ≠ .nil) : (t.put key value).Filled where
  toValid := filled.toValid.put isKey value
  held := by
    intro other lists
    rw [get_put filled.toValid isKey]
    split
    · exact some
    · rcases lists.of_put with rfl | before
      · contradiction
      · exact filled.held other before

theorem eq_ofInt_of_normal {v : Value} {i : Nat} (positive : 1 ≤ i) (small : i ≤ 2 ^ 53)
    (same : v.normal = (Value.ofInt i).normal) : v = .ofInt i := by
  have position := position?_congr same
  rw [position?_ofInt positive small] at position
  exact eq_ofInt_of_position? position small

/-- A pair of the array part has the key that counts it; all others are entries. -/
theorem Valid.pair_cases {t : Table} (valid : t.Valid) {e : Value × Value} (listed : e ∈ t.pairs) :
    (∃ i : Nat, 1 ≤ i ∧ i ≤ 2 ^ 53 ∧ e.1 = .ofInt i) ∨ e ∈ t.entries := by
  rcases List.mem_append.mp listed with inArray | inEntries
  · obtain ⟨i, found, -, key⟩ := mem_arrayPairs.mp inArray
    have below := (Array.getElem?_eq_some_iff.mp found).1
    have small := valid.small
    exact .inl ⟨i + 1, by omega, by omega, key⟩
  · exact .inr (mem_entryPairs.mp inEntries).1

theorem Indexed.entry_eq {t : Table} (sound : t.Indexed) {e f : Value × Value}
    (he : e ∈ t.entries) (hf : f ∈ t.entries) (same : e.1.normal = f.1.normal) : e = f := by
  obtain ⟨i, at_i⟩ := Array.mem_iff_getElem?.mp he
  obtain ⟨j, at_j⟩ := Array.mem_iff_getElem?.mp hf
  have slot := sound.entrySlot?_of_entry at_i
  rw [entrySlot?_congr t same, sound.entrySlot?_of_entry at_j] at slot
  rw [Option.some.inj slot] at at_j
  exact Option.some.inj (at_i.symm.trans at_j)

/-- Equal keys of pairs are the same key, if the one is in the entry list of the other's table. -/
theorem Valid.key_eq {t u : Table} (valid : t.Valid) (later : u.Valid) {e f : Value × Value}
    (he : e ∈ u.pairs) (hf : f ∈ t.pairs) (same : e.1.normal = f.1.normal)
    (old : e ∈ u.entries → t.Lists e.1) : e.1 = f.1 := by
  rcases later.pair_cases he with ⟨i, positive, small, key⟩ | entry
  · rw [key] at same
    rw [key, eq_ofInt_of_normal positive small same.symm]
  · rcases valid.pair_cases hf with ⟨i, positive, small, key⟩ | entry'
    · rw [key] at same
      rw [key, eq_ofInt_of_normal positive small same]
    · obtain ⟨g, listed, key⟩ := old entry
      rw [← key] at same
      rw [← key, valid.entry_eq listed entry' same]

theorem Valid.pair_eq {t : Table} (valid : t.Valid) {e f : Value × Value} (he : e ∈ t.pairs)
    (hf : f ∈ t.pairs) (same : e.1.normal = f.1.normal) : e = f := by
  have value : e.2 = f.2 := by
    rw [← (valid.get_of_mem_pairs he).2.1, ← (valid.get_of_mem_pairs hf).2.1, get_congr t same]
  exact Prod.ext (valid.key_eq valid he hf same fun entry => ⟨e, entry, rfl⟩) value

theorem Valid.nodup_pairs {t : Table} (valid : t.Valid) : t.pairs.Nodup :=
  valid.pairs_distinct.imp fun differ same => differ (by rw [same])

section NewKey
variable {t : Table} (filled : t.Filled) {key value : Value} (isKey : key.isKey = true)
  (some : value ≠ .nil) (absent : t.get key = .nil)
include filled

theorem Filled.apart (absent : t.get key = .nil) {e : Value × Value} (listed : e ∈ t.pairs) :
    e.1.normal ≠ key.normal := fun same =>
  filled.get_ne_nil listed ((get_congr t same).trans absent)

include isKey absent

/-- An equal key in the entry list would hold a value, so the new key goes there as it is. -/
theorem Filled.mem_of_mem_pairs_put {e : Value × Value} (listed : e ∈ (t.put key value).pairs) :
    e ∈ (key, value) :: t.pairs := by
  have later : (t.put key value).Valid := filled.toValid.put isKey value
  have old : e ∈ (t.put key value).entries → e.1 = key ∨ t.Lists e.1 := fun entry =>
    Lists.of_put ⟨e, entry, rfl⟩
  obtain ⟨-, held, -⟩ := later.get_of_mem_pairs listed
  have live := later.get_ne_nil listed
  rw [get_put filled.toValid isKey] at held live
  by_cases same : e.1.normal = key.normal
  · rw [if_pos same] at held
    have own : e.1 = key := by
      rcases later.pair_cases listed with ⟨i, positive, small, position⟩ | entry
      · rw [position] at same
        rw [position, eq_ofInt_of_normal positive small same.symm]
      · refine (old entry).resolve_right fun lists => ?_
        exact filled.held _ lists ((get_congr t same).trans absent)
    exact List.mem_cons.mpr (.inl (Prod.ext own held.symm))
  · rw [if_neg same] at held live
    obtain ⟨f, before, equal⟩ := filled.exists_pair live
    have keys : e.1 = f.1 := filled.key_eq later listed before equal.symm fun entry =>
      (old entry).resolve_left fun own => same (congrArg Value.normal own)
    have values : e.2 = f.2 := by
      rw [← held, ← (filled.get_of_mem_pairs before).2.1, keys]
    exact List.mem_cons_of_mem _ (Prod.ext keys values ▸ before)

include some

theorem Filled.mem_pairs_put {e : Value × Value} (listed : e ∈ (key, value) :: t.pairs) :
    e ∈ (t.put key value).pairs := by
  have later : (t.put key value).Valid := filled.toValid.put isKey value
  have held : (t.put key value).get e.1 ≠ .nil := by
    rw [get_put filled.toValid isKey]
    rcases List.mem_cons.mp listed with rfl | before
    · rwa [if_pos rfl]
    · rw [if_neg (filled.apart absent before)]
      exact filled.get_ne_nil before
  obtain ⟨f, listed', same⟩ := later.exists_pair held
  have equal : f = e := by
    rcases List.mem_cons.mp (filled.mem_of_mem_pairs_put isKey absent listed') with rfl | before'
    · rcases List.mem_cons.mp listed with rfl | before
      · rfl
      · exact absurd same.symm (filled.apart absent before)
    · rcases List.mem_cons.mp listed with rfl | before
      · exact absurd same (filled.apart absent before')
      · exact filled.pair_eq before' before same
  exact equal ▸ listed'

/-- A key that is new to a filled table adds one pair to those that the table lists. -/
theorem Filled.pairs_put : (t.put key value).pairs.Perm ((key, value) :: t.pairs) := by
  have later : (t.put key value).Valid := filled.toValid.put isKey value
  have fresh : (key, value) ∉ t.pairs := fun listed => filled.apart absent listed rfl
  refine (List.perm_ext_iff_of_nodup later.nodup_pairs (List.nodup_cons.mpr
    ⟨fresh, filled.nodup_pairs⟩)).mpr fun e => ?_
  exact ⟨filled.mem_of_mem_pairs_put isKey absent, filled.mem_pairs_put isKey some absent⟩

end NewKey

end Table
end HostBridge
