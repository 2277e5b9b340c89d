import HostBridge.Proofs.Table.FiniteMap
/-!
Traversals while a table loses values. A quiet write stores nil or overwrites a live key: it moves no
value and gives no slot away, so the key that a traversal handed out last still tells where to go
on, and what lies behind that point has been visited or is gone.
-/
namespace HostBridge
namespace Table

/-- `u` has the slots of `t` and is live at most where `t` is. -/
structure Fades (t u : Table) : Prop where
  size : u.array.size = t.array.size
  slots : ∀ key, u.entrySlot? key = t.entrySlot? key
  keys : ∀ slot, u.keyAt? slot = t.keyAt? slot
  array : ∀ i, (u.array.getD i .nil).isNil = false → (t.array.getD i .nil).isNil = false
  entries : ∀ slot, (u.entryValue slot).isNil = false → (t.entryValue slot).isNil = false

theorem Fades.refl (t : Table) : t.Fades t where
  size := rfl
  slots _ := rfl
  keys _ := rfl
  array _ live := live
  entries _ live := live

theorem Fades.trans {t u v : Table} (first : t.Fades u) (second : u.Fades v) : t.Fades v where
  size := second.size.trans first.size
  slots key := (second.slots key).trans (first.slots key)
  keys slot := (second.keys slot).trans (first.keys slot)
  array i live := first.array i (second.array i live)
  entries slot live := first.entries slot (second.entries slot live)

theorem Fades.arraySlot? {t u : Table} (fades : t.Fades u) (key : Value) :
    u.arraySlot? key = t.arraySlot? key := by
  rw [Table.arraySlot?, Table.arraySlot?, fades.size]

theorem keyAt?_isSome_iff {t : Table} {slot : Nat} :
    (t.keyAt? slot).isSome = true ↔ slot < t.entries.size := by
  simp [keyAt?]

theorem Fades.get_live {t u : Table} (fades : t.Fades u) {key : Value}
    (live : u.get key ≠ .nil) : t.get key ≠ .nil := by
  have held : (u.get key).isNil = false := Bool.eq_false_iff.mpr (live ∘ Value.isNil_iff.mp)
  have held' : (t.get key).isNil = false := by
    cases here : t.arraySlot? key with
    | some i =>
      rw [get_of_arraySlot? here]
      rw [get_of_arraySlot? ((fades.arraySlot? key).trans here)] at held
      exact fades.array i held
    | none =>
      rw [get_of_no_arraySlot? here, entryGet]
      rw [get_of_no_arraySlot? ((fades.arraySlot? key).trans here), entryGet, fades.slots] at held
      cases found : t.entrySlot? key with
      | none =>
        rw [found] at held
        contradiction
      | some slot =>
        rw [found] at held
        exact fades.entries slot held
  intro gone
  rw [gone] at held'
  contradiction

theorem Fades.entries_size {t u : Table} (fades : t.Fades u) :
    u.entries.size = t.entries.size := by
  have same : ∀ slot, slot < u.entries.size ↔ slot < t.entries.size := by
    intro slot
    rw [← keyAt?_isSome_iff, ← keyAt?_isSome_iff, fades.keys]
  have below := (same t.entries.size).mp
  have above := (same u.entries.size).mpr
  omega

theorem Fades.setArray {t : Table} {slot : Nat} {value : Value}
    (quiet : value.isNil = false → (t.array.getD slot .nil).isNil = false) :
    t.Fades { t with array := t.array.setIfInBounds slot value } where
  size := Array.size_setIfInBounds
  slots key := by cases key <;> rfl
  keys _ := rfl
  entries _ live := live
  array i live := by
    by_cases same : slot = i
    · subst same
      by_cases below : slot < t.array.size
      · rw [Array.getD_eq_getD_getElem?, Array.getElem?_setIfInBounds_self_of_lt below] at live
        exact quiet live
      · rw [Array.setIfInBounds_eq_of_size_le (Nat.le_of_not_lt below)] at live
        exact live
    · rw [Array.getD_eq_getD_getElem?, Array.getElem?_setIfInBounds_ne same,
        ← Array.getD_eq_getD_getElem?] at live
      exact live

theorem Fades.store {t : Table} {slot : Nat} {value : Value} (below : slot < t.entries.size)
    (quiet : value.isNil = false → (t.entryValue slot).isNil = false) :
    t.Fades (t.store slot value) where
  size := rfl
  slots key := entrySlot?_store t slot value key
  keys other := keyAt?_store t slot other value
  array _ live := live
  entries other live := by
    by_cases same : slot = other
    · subst same
      rw [entryValue_store_self t value below] at live
      exact quiet live
    · rw [entryValue_store_of_ne t value same] at live
      exact live

end Table

/-- A write that stores nil, or overwrites a key that is live. -/
def Write.Quiet (w : Write) (t : Table) : Prop :=
  w.value = .nil ∨ t.get w.key ≠ .nil

namespace Table

/-- A quiet write moves nothing between the parts, drops no slot and makes no key live. -/
theorem Valid.fades {t : Table} (valid : t.Valid) {w : Write} (quiet : w.Quiet t) :
    t.Fades (w.run t) := by
  cases isKey : w.key.isKey with
  | false =>
    rw [t.run_of_not_isKey isKey]
    exact .refl t
  | true =>
    have live : w.value.isNil = false → (t.get w.key).isNil = false := by
      intro held
      rcases quiet with nil | live
      · rw [nil] at held
        contradiction
      · exact Bool.eq_false_iff.mpr (live ∘ Value.isNil_iff.mp)
    rw [t.run_of_isKey isKey]
    rcases t.put_cases w.key w.value with ⟨slot, here, eq⟩ | ⟨last, held, -⟩ | ⟨outside, -, eq⟩
    · rw [eq]
      rw [get_of_arraySlot? here] at live
      exact .setArray live
    · -- The seam holds nothing, so nothing is overwritten there.
      have room := valid.room last
      have beyond := arraySlot?_of_last last
      have nothing := valid.ahead
      rw [← entryGet_congr t ((normal_eq_seam_iff room).mpr last),
        ← get_of_no_arraySlot? beyond] at nothing
      have full := live held
      rw [nothing] at full
      contradiction
    · rw [eq, Table.setEntry]
      rw [get_of_no_arraySlot? outside, entryGet] at live
      cases found : t.entrySlot? w.key with
      | some slot =>
        rw [found] at live
        exact .store (valid.slot_lt found) live
      | none =>
        rw [found] at live
        simp only
        split
        · exact .refl t
        · rename_i held
          have full := live (Bool.eq_false_iff.mpr held)
          contradiction

theorem arrayNext?_cases (t : Table) (i : Nat) :
    (t.arrayNext? i = none ∧ ∀ p, i ≤ p → (t.array.getD p .nil).isNil = true) ∨
    ∃ p, i ≤ p ∧ p < t.array.size ∧ (t.array.getD p .nil).isNil = false ∧
      (∀ q, i ≤ q → q < p → (t.array.getD q .nil).isNil = true) ∧
      t.arrayNext? i = some (.ofInt ((p : Int) + 1), t.array.getD p .nil) := by
  fun_induction arrayNext? t i with
  | case1 i below empty ih =>
    have here : (t.array.getD i .nil).isNil = true := by
      rw [Array.getD_eq_getD_getElem?, Array.getElem?_eq_getElem below]
      exact empty
    rcases ih with ⟨eq, rest⟩ | ⟨p, after, inside, live, between, eq⟩
    · refine .inl ⟨eq, fun p ahead => ?_⟩
      rcases Nat.eq_or_lt_of_le ahead with rfl | later
      · exact here
      · exact rest p later
    · refine .inr ⟨p, Nat.le_of_succ_le after, inside, live, fun q ahead before => ?_, eq⟩
      rcases Nat.eq_or_lt_of_le ahead with rfl | later
      · exact here
      · exact between q later before
  | case2 i below held =>
    have value : t.array.getD i .nil = t.array[i] := by
      rw [Array.getD_eq_getD_getElem?, Array.getElem?_eq_getElem below]
      rfl
    refine .inr ⟨i, Nat.le_refl i, below, ?_, fun q ahead before => ?_, ?_⟩
    · rw [value]
      exact Bool.eq_false_iff.mpr held
    · exact absurd (Nat.lt_of_le_of_lt ahead before) (Nat.lt_irrefl i)
    · rw [value]
  | case3 i beyond =>
    refine .inl ⟨rfl, fun p ahead => ?_⟩
    rw [Array.getD_eq_getD_getElem?, Array.getElem?_eq_none (by omega)]
    rfl

theorem entryNext?_cases (t : Table) (j : Nat) :
    (t.entryNext? j = none ∧ ∀ s, j ≤ s → (t.entryValue s).isNil = true) ∨
    ∃ s e, j ≤ s ∧ t.entries[s]? = some e ∧ e.2.isNil = false ∧
      (∀ q, j ≤ q → q < s → (t.entryValue q).isNil = true) ∧ t.entryNext? j = some e := by
  fun_induction entryNext? t j with
  | case1 j below empty ih =>
    have here : (t.entryValue j).isNil = true := by
      rw [entryValue_eq, Array.getElem?_eq_getElem below]
      exact empty
    rcases ih with ⟨eq, rest⟩ | ⟨s, e, after, found, live, between, eq⟩
    · refine .inl ⟨eq, fun s ahead => ?_⟩
      rcases Nat.eq_or_lt_of_le ahead with rfl | later
      · exact here
      · exact rest s later
    · refine .inr ⟨s, e, Nat.le_of_succ_le after, found, live, fun q ahead before => ?_, eq⟩
      rcases Nat.eq_or_lt_of_le ahead with rfl | later
      · exact here
      · exact between q later before
  | case2 j below held =>
    refine .inr ⟨j, t.entries[j], Nat.le_refl j, Array.getElem?_eq_getElem below,
      Bool.eq_false_iff.mpr held, fun q ahead before => ?_, rfl⟩
    exact absurd (Nat.lt_of_le_of_lt ahead before) (Nat.lt_irrefl j)
  | case3 j beyond =>
    refine .inl ⟨rfl, fun s ahead => ?_⟩
    rw [entryValue_eq, Array.getElem?_eq_none (by omega)]
    rfl

/-- Where a traversal goes on after a key: the first slot of the array part, and of the entry list,
that it has not passed. -/
def cursor? (t : Table) (key : Value) : Option (Nat × Nat) :=
  if key.isNil then some (0, 0)
  else
    match t.arraySlot? key with
    | some i => some (i + 1, 0)
    | none => (t.entrySlot? key).map fun j => (t.array.size, j + 1)

theorem arrayNext?_size (t : Table) : t.arrayNext? t.array.size = none := by
  rw [arrayNext?, dif_neg (Nat.lt_irrefl _)]

theorem next_of_cursor? {t : Table} {key : Value} {i j : Nat} (h : t.cursor? key = some (i, j)) :
    t.next key = .ok ((t.arrayNext? i).or (t.entryNext? j)) := by
  rw [cursor?] at h
  simp only [next, Option.orElse_eq_orElse, Option.orElse_eq_or]
  split at h
  · rename_i start
    cases h
    rw [if_pos start]
  · rename_i later
    rw [if_neg later]
    cases here : t.arraySlot? key with
    | some slot =>
      rw [here] at h
      cases h
      rfl
    | none =>
      rw [here] at h
      obtain ⟨slot, found, eq⟩ := Option.map_eq_some_iff.mp h
      cases eq
      simp only [found, arrayNext?_size, Option.none_or]

theorem Fades.cursor? {t u : Table} (fades : t.Fades u) (key : Value) :
    u.cursor? key = t.cursor? key := by
  rw [Table.cursor?, Table.cursor?, fades.arraySlot?, fades.slots, fades.size]

def arrayKey (i : Nat) : Value := .ofInt ((i : Int) + 1)
def slotKey (t : Table) (slot : Nat) : Value := (t.keyAt? slot).getD .nil

/-- The keys visited so far are those of `positions`, then those of `slots`; no live slot before
`(i, j)` is left out. -/
structure Passed (t : Table) (keys : List Value) (i j : Nat) (positions slots : List Nat) :
    Prop where
  keys_eq : keys = positions.map arrayKey ++ slots.map t.slotKey
  positions_sorted : positions.Pairwise (· < ·)
  slots_sorted : slots.Pairwise (· < ·)
  positions_lt : ∀ p ∈ positions, p < i
  slots_lt : ∀ s ∈ slots, s < j
  positions_length : positions.length ≤ i
  slots_length : slots.length ≤ j
  array_le : i ≤ t.array.size
  entries_le : j ≤ t.entries.size
  array_first : j ≠ 0 → i = t.array.size
  slots_outside : ∀ s ∈ slots, t.arraySlot? (t.slotKey s) = none
  array_covered : ∀ p, p < i → (t.array.getD p .nil).isNil = false → p ∈ positions
  entries_covered : ∀ s, s < j → (t.entryValue s).isNil = false → s ∈ slots

theorem Passed.start (t : Table) : t.Passed [] 0 0 [] [] where
  keys_eq := rfl
  positions_sorted := .nil
  slots_sorted := .nil
  positions_lt := nofun
  slots_lt := nofun
  positions_length := Nat.le_refl 0
  slots_length := Nat.le_refl 0
  array_le := Nat.zero_le _
  entries_le := Nat.zero_le _
  array_first := fun h => absurd rfl h
  slots_outside := nofun
  array_covered := nofun
  entries_covered := nofun

theorem Fades.slotKey {t u : Table} (fades : t.Fades u) : u.slotKey = t.slotKey := by
  funext slot
  rw [Table.slotKey, Table.slotKey, fades.keys]

theorem Passed.fades {t u : Table} {keys : List Value} {i j : Nat} {positions slots : List Nat}
    (passed : t.Passed keys i j positions slots) (fades : t.Fades u) :
    u.Passed keys i j positions slots where
  keys_eq := by
    rw [fades.slotKey]
    exact passed.keys_eq
  positions_sorted := passed.positions_sorted
  slots_sorted := passed.slots_sorted
  positions_lt := passed.positions_lt
  slots_lt := passed.slots_lt
  positions_length := passed.positions_length
  slots_length := passed.slots_length
  array_le := fades.size ▸ passed.array_le
  entries_le := fades.entries_size ▸ passed.entries_le
  array_first := fades.size ▸ passed.array_first
  slots_outside := by
    intro s hs
    rw [fades.slotKey, fades.arraySlot?]
    exact passed.slots_outside s hs
  array_covered p before live := passed.array_covered p before (fades.array p live)
  entries_covered s before live := passed.entries_covered s before (fades.entries s live)

theorem pairwise_lt_append {xs : List Nat} (sorted : xs.Pairwise (· < ·)) {n x : Nat}
    (bounded : ∀ y ∈ xs, y < n) (later : n ≤ x) : (xs ++ [x]).Pairwise (· < ·) := by
  refine List.pairwise_append.mpr ⟨sorted, List.pairwise_singleton _ _, ?_⟩
  intro y hy z hz
  rw [List.mem_singleton.mp hz]
  exact Nat.lt_of_lt_of_le (bounded y hy) later

theorem Passed.visit_array {t : Table} {keys : List Value} {i p : Nat} {positions slots : List Nat}
    (passed : t.Passed keys i 0 positions slots) (after : i ≤ p) (inside : p < t.array.size)
    (between : ∀ q, i ≤ q → q < p → (t.array.getD q .nil).isNil = true) :
    t.Passed (keys ++ [arrayKey p]) (p + 1) 0 (positions ++ [p]) slots := by
  have none : slots = [] := by
    have short := passed.slots_length
    exact List.length_eq_zero_iff.mp (Nat.le_zero.mp short)
  subst none
  constructor
  case keys_eq => simp [passed.keys_eq]
  case positions_sorted =>
    exact pairwise_lt_append passed.positions_sorted passed.positions_lt after
  case slots_sorted => exact .nil
  case positions_lt =>
    intro q hq
    rcases List.mem_append.mp hq with old | new
    · have before := passed.positions_lt q old
      omega
    · rw [List.mem_singleton.mp new]
      exact Nat.lt_succ_self p
  case slots_lt => exact nofun
  case positions_length =>
    have short := passed.positions_length
    rw [List.length_append, List.length_singleton]
    omega
  case slots_length => exact Nat.le_refl 0
  case array_le => exact inside
  case entries_le => exact Nat.zero_le _
  case array_first => exact fun h => absurd rfl h
  case slots_outside => exact nofun
  case array_covered =>
    intro q before live
    rcases Nat.lt_or_ge q i with old | new
    · exact List.mem_append_left _ (passed.array_covered q old live)
    · rcases Nat.eq_or_lt_of_le (Nat.le_of_lt_succ before) with rfl | skipped
      · exact List.mem_append_right _ (List.mem_singleton_self q)
      · rw [between q new skipped] at live
        contradiction
  case entries_covered => exact nofun

theorem Passed.visit_entry {t : Table} {keys : List Value} {i j s : Nat}
    {positions slots : List Nat} (passed : t.Passed keys i j positions slots) (after : j ≤ s)
    (exhausted : ∀ p, i ≤ p → (t.array.getD p .nil).isNil = true) {e : Value × Value}
    (found : t.entries[s]? = some e) (outside : t.arraySlot? e.1 = none)
    (between : ∀ q, j ≤ q → q < s → (t.entryValue q).isNil = true) :
    t.Passed (keys ++ [e.1]) t.array.size (s + 1) positions (slots ++ [s]) := by
  have key : t.slotKey s = e.1 := by
    rw [slotKey, keyAt?, found]
    rfl
  have reached := passed.array_le
  constructor
  case keys_eq => simp [passed.keys_eq, key]
  case positions_sorted => exact passed.positions_sorted
  case slots_sorted => exact pairwise_lt_append passed.slots_sorted passed.slots_lt after
  case positions_lt =>
    intro p hp
    exact Nat.lt_of_lt_of_le (passed.positions_lt p hp) reached
  case slots_lt =>
    intro q hq
    rcases List.mem_append.mp hq with old | new
    · have before := passed.slots_lt q old
      omega
    · rw [List.mem_singleton.mp new]
      exact Nat.lt_succ_self s
  case positions_length => exact Nat.le_trans passed.positions_length reached
  case slots_length =>
    have short := passed.slots_length
    rw [List.length_append, List.length_singleton]
    omega
  case array_le => exact Nat.le_refl _
  case entries_le => exact (Array.getElem?_eq_some_iff.mp found).1
  case array_first => exact fun _ => rfl
  case slots_outside =>
    intro q hq
    rcases List.mem_append.mp hq with old | new
    · exact passed.slots_outside q old
    · rw [List.mem_singleton.mp new, key]
      exact outside
  case array_covered =>
    intro p _ live
    rcases Nat.lt_or_ge p i with old | new
    · exact passed.array_covered p old live
    · rw [exhausted p new] at live
      contradiction
  case entries_covered =>
    intro q before live
    rcases Nat.lt_or_ge q j with old | new
    · exact List.mem_append_left _ (passed.entries_covered q old live)
    · rcases Nat.eq_or_lt_of_le (Nat.le_of_lt_succ before) with rfl | skipped
      · exact List.mem_append_right _ (List.mem_singleton_self q)
      · rw [between q new skipped] at live
        contradiction

theorem cursor?_of_arraySlot? {t : Table} {key : Value} {i : Nat}
    (h : t.arraySlot? key = some i) : t.cursor? key = some (i + 1, 0) := by
  have held : key.isNil = false := by
    cases key with
    | nil => contradiction
    | _ => rfl
  rw [cursor?, held, h]
  rfl

theorem Valid.cursor?_of_entry {t : Table} (valid : t.Valid) {s : Nat} {e : Value × Value}
    (found : t.entries[s]? = some e) (outside : t.arraySlot? e.1 = none) :
    t.cursor? e.1 = some (t.array.size, s + 1) := by
  have isKey := valid.isKey_of_mem (Array.mem_of_getElem? found)
  have held : e.1.isNil = false := by
    rw [Value.isKey, Bool.and_eq_true, Bool.not_eq_true'] at isKey
    exact isKey.1
  rw [cursor?, held, outside, valid.entrySlot?_of_entry found]
  rfl

/-- A step of a traversal goes to the next live slot and hands out what that slot holds. -/
theorem Passed.step {t : Table} (valid : t.Valid) {keys : List Value} {i j : Nat}
    {positions slots : List Nat} (passed : t.Passed keys i j positions slots) {last : Value}
    (cursor : t.cursor? last = some (i, j)) {e : Value × Value}
    (next : t.next last = .ok (some e)) :
    (t.get e.1 = e.2 ∧ e.2.isNil = false) ∧
      ∃ i' j' positions' slots', t.cursor? e.1 = some (i', j') ∧
        t.Passed (keys ++ [e.1]) i' j' positions' slots' := by
  rw [next_of_cursor? cursor] at next
  rcases t.arrayNext?_cases i with ⟨none, exhausted⟩ | ⟨p, after, inside, live, between, eq⟩
  · rw [none] at next
    rcases t.entryNext?_cases j with ⟨none', -⟩ | ⟨s, f, after, found, live, between, eq⟩
    · rw [none'] at next
      exact absurd (Except.ok.inj next) nofun
    · rw [eq] at next
      cases next
      have mem := Array.mem_of_getElem? found
      have outside := valid.arraySlot?_of_live mem live
      refine ⟨⟨?_, live⟩, t.array.size, s + 1, positions, slots ++ [s], ?_, ?_⟩
      · rw [get_of_no_arraySlot? outside, valid.entryGet_of_mem mem rfl]
      · exact valid.cursor?_of_entry found outside
      · exact passed.visit_entry after exhausted found outside between
  · rw [eq] at next
    cases next
    have fresh : j = 0 := by
      by_contra later
      have reached := passed.array_first later
      omega
    subst fresh
    have small := valid.small
    have slot : t.arraySlot? (arrayKey p) = some p :=
      arraySlot?_ofInt small (i := p + 1) (by omega) inside
    refine ⟨⟨get_of_arraySlot? slot, live⟩, p + 1, 0, positions ++ [p], slots, ?_, ?_⟩
    · exact cursor?_of_arraySlot? slot
    · exact passed.visit_array after inside between

theorem Passed.isKey {t : Table} (valid : t.Valid) {keys : List Value} {i j : Nat}
    {positions slots : List Nat} (passed : t.Passed keys i j positions slots) {key : Value}
    (mem : key ∈ keys) : key.isKey = true := by
  rw [passed.keys_eq] at mem
  rcases List.mem_append.mp mem with inArray | inEntries
  · obtain ⟨p, -, rfl⟩ := List.mem_map.mp inArray
    exact Value.isKey_ofInt _
  · obtain ⟨s, hs, rfl⟩ := List.mem_map.mp inEntries
    have inside := Nat.lt_of_lt_of_le (passed.slots_lt s hs) passed.entries_le
    obtain ⟨k, found⟩ := Option.isSome_iff_exists.mp (keyAt?_isSome_iff.mpr inside)
    rw [slotKey, found]
    exact valid.keys s k found

theorem Indexed.slotKey_inj {t : Table} (sound : t.Indexed) {a b : Nat}
    (ha : a < t.entries.size) (hb : b < t.entries.size)
    (same : (t.slotKey a).normal = (t.slotKey b).normal) : a = b := by
  obtain ⟨k, atA⟩ := Option.isSome_iff_exists.mp (keyAt?_isSome_iff.mpr ha)
  obtain ⟨l, atB⟩ := Option.isSome_iff_exists.mp (keyAt?_isSome_iff.mpr hb)
  rw [slotKey, slotKey, atA, atB] at same
  have slotA := (sound.index k a).mpr ⟨k, atA, rfl⟩
  have slotB := (sound.index k b).mpr ⟨l, atB, same.symm⟩
  exact Option.some.inj (slotA.symm.trans slotB)

theorem Passed.distinct {t : Table} (valid : t.Valid) {keys : List Value} {i j : Nat}
    {positions slots : List Nat} (passed : t.Passed keys i j positions slots) :
    keys.Pairwise fun a b => a.normal ≠ b.normal := by
  have small := valid.small
  have reached := passed.array_le
  rw [passed.keys_eq]
  refine List.pairwise_append.mpr ⟨?_, ?_, ?_⟩
  · refine List.pairwise_map.mpr (passed.positions_sorted.imp_of_mem fun {p q} hp hq lt same => ?_)
    have below := passed.positions_lt p hp
    have below' := passed.positions_lt q hq
    have equal := ofInt_normal_inj (i := p + 1) (j := q + 1) (by omega) (by omega) same
    omega
  · refine List.pairwise_map.mpr (passed.slots_sorted.imp_of_mem fun {a b} ha hb lt same => ?_)
    have inside := Nat.lt_of_lt_of_le (passed.slots_lt a ha) passed.entries_le
    have inside' := Nat.lt_of_lt_of_le (passed.slots_lt b hb) passed.entries_le
    exact Nat.ne_of_lt lt (valid.slotKey_inj inside inside' same)
  · intro a ha b hb same
    obtain ⟨p, hp, rfl⟩ := List.mem_map.mp ha
    obtain ⟨s, hs, rfl⟩ := List.mem_map.mp hb
    have below := passed.positions_lt p hp
    have slot : t.arraySlot? (arrayKey p) = some p :=
      arraySlot?_ofInt small (i := p + 1) (by omega) (by omega)
    rw [arraySlot?_congr t same, passed.slots_outside s hs] at slot
    contradiction

/-- Once nothing is left ahead, every live key has been visited. -/
theorem Passed.complete {t : Table} (valid : t.Valid) {keys : List Value} {i j : Nat}
    {positions slots : List Nat} (passed : t.Passed keys i j positions slots) {last : Value}
    (cursor : t.cursor? last = some (i, j)) (finished : t.next last = .ok none) {key : Value}
    (held : t.get key ≠ .nil) : ∃ k ∈ keys, k.normal = key.normal := by
  have small := valid.small
  have live : (t.get key).isNil = false := Bool.eq_false_iff.mpr (held ∘ Value.isNil_iff.mp)
  rw [next_of_cursor? cursor] at finished
  obtain ⟨noArray, noEntry⟩ := Option.or_eq_none_iff.mp (Except.ok.inj finished)
  have arrayDone : ∀ p, i ≤ p → (t.array.getD p .nil).isNil = true := by
    rcases t.arrayNext?_cases i with ⟨-, exhausted⟩ | ⟨p, -, -, -, -, eq⟩
    · exact exhausted
    · rw [noArray] at eq
      contradiction
  have entriesDone : ∀ s, j ≤ s → (t.entryValue s).isNil = true := by
    rcases t.entryNext?_cases j with ⟨-, exhausted⟩ | ⟨s, e, -, -, -, -, eq⟩
    · exact exhausted
    · rw [noEntry] at eq
      contradiction
  rw [passed.keys_eq]
  cases here : t.arraySlot? key with
  | some p =>
    rw [get_of_arraySlot? here] at live
    have before : p < i := by
      by_contra ahead
      rw [arrayDone p (Nat.le_of_not_lt ahead)] at live
      contradiction
    have visited := passed.array_covered p before live
    obtain ⟨position, inside⟩ := arraySlot?_eq_some_iff.mp here
    refine ⟨arrayKey p, List.mem_append_left _ (List.mem_map_of_mem visited), ?_⟩
    rw [eq_ofInt_of_position? position (by omega)]
    rfl
  | none =>
    rw [get_of_no_arraySlot? here, entryGet] at live
    cases found : t.entrySlot? key with
    | none =>
      rw [found] at live
      contradiction
    | some s =>
      rw [found] at live
      have before : s < j := by
        by_contra ahead
        have gone := entriesDone s (Nat.le_of_not_lt ahead)
        rw [gone] at live
        contradiction
      have visited := passed.entries_covered s before live
      obtain ⟨k, atSlot, same⟩ := (valid.index key s).mp found
      refine ⟨t.slotKey s, List.mem_append_right _ (List.mem_map_of_mem visited), ?_⟩
      rw [slotKey, atSlot]
      exact same

/-- Keys of the array part in increasing order, then keys of the entry list by slot. -/
def InOrder (t : Table) (keys : List Value) : Prop :=
  ∃ positions slots : List Nat,
    keys = positions.map arrayKey ++ slots.map t.slotKey ∧
    positions.Pairwise (· < ·) ∧ slots.Pairwise (· < ·) ∧
    (∀ p ∈ positions, p < t.array.size) ∧ ∀ s ∈ slots, s < t.entries.size

theorem Passed.inOrder {t : Table} {keys : List Value} {i j : Nat} {positions slots : List Nat}
    (passed : t.Passed keys i j positions slots) : t.InOrder keys :=
  ⟨positions, slots, passed.keys_eq, passed.positions_sorted, passed.slots_sorted,
    fun p hp => Nat.lt_of_lt_of_le (passed.positions_lt p hp) passed.array_le,
    fun s hs => Nat.lt_of_lt_of_le (passed.slots_lt s hs) passed.entries_le⟩

theorem Fades.inOrder {t u : Table} (fades : t.Fades u) {keys : List Value}
    (ordered : u.InOrder keys) : t.InOrder keys := by
  obtain ⟨positions, slots, eq, sorted, sorted', below, below'⟩ := ordered
  refine ⟨positions, slots, ?_, sorted, sorted', ?_, ?_⟩
  · rw [← fades.slotKey]
    exact eq
  · rw [← fades.size]
    exact below
  · rw [← fades.entries_size]
    exact below'

theorem countP_eq_one {α : Type} {p : α → Bool} {xs : List α}
    (apart : xs.Pairwise fun a b => ¬(p a = true ∧ p b = true)) {x : α} (mem : x ∈ xs)
    (holds : p x = true) : xs.countP p = 1 := by
  induction xs with
  | nil => contradiction
  | cons y ys ih =>
    obtain ⟨first, rest⟩ := List.pairwise_cons.mp apart
    rcases List.mem_cons.mp mem with rfl | later
    · have none : ys.countP p = 0 :=
        List.countP_eq_zero.mpr fun z hz other => first z hz ⟨holds, other⟩
      rw [List.countP_cons_of_pos holds, none]
    · have skip : ¬p y = true := fun other => first x later ⟨other, holds⟩
      rw [List.countP_cons_of_neg skip, ih rest later]

end Table

/-- A traversal from its start: the pairs visited, the table as it is now, and the key that the next
step is asked with. Quiet writes come in between in any number. -/
inductive Traversal (start : Table) : List (Value × Value) → Table → Value → Prop
  | start : Traversal start [] start .nil
  | write {seen : List (Value × Value)} {t : Table} {last : Value} (w : Write) :
    Traversal start seen t last → w.Quiet t → Traversal start seen (w.run t) last
  | visit {seen : List (Value × Value)} {t : Table} {last : Value} {e : Value × Value} :
    Traversal start seen t last → t.next last = .ok (some e) →
      Traversal start (seen ++ [e]) t e.1

namespace Traversal
open Table

theorem progress {start t : Table} {seen : List (Value × Value)} {last : Value}
    (valid : start.Valid) (walk : Traversal start seen t last) :
    t.Valid ∧ start.Fades t ∧ ∃ i j positions slots, t.cursor? last = some (i, j) ∧
      t.Passed (seen.map Prod.fst) i j positions slots := by
  induction walk with
  | start => exact ⟨valid, .refl _, 0, 0, [], [], rfl, .start _⟩
  | write w _ quiet ih =>
    obtain ⟨valid, fades, i, j, positions, slots, cursor, passed⟩ := ih
    have less := valid.fades quiet
    refine ⟨valid.run w, fades.trans less, i, j, positions, slots, ?_, passed.fades less⟩
    rw [less.cursor?, cursor]
  | visit _ found ih =>
    obtain ⟨valid, fades, i, j, positions, slots, cursor, passed⟩ := ih
    obtain ⟨-, i', j', positions', slots', cursor', passed'⟩ := passed.step valid cursor found
    refine ⟨valid, fades, i', j', positions', slots', cursor', ?_⟩
    rw [List.map_append]
    exact passed'

/-- A traversal of a table reached by writes, with quiet writes in between, never fails and ends;
it hands out live pairs, no key twice, in slot order, and every key that is still live when it ends
exactly once. A quiet write makes no key live, so those are the keys that were live throughout. -/
theorem visits_live_keys_once (log : List Write) {seen : List (Value × Value)} {t : Table}
    {last : Value} (walk : Traversal (replay log) seen t last) :
    (∃ found, t.next last = .ok found) ∧
    seen.length ≤ (replay log).array.size + (replay log).entries.size ∧
    (∀ e, t.next last = .ok (some e) → t.get e.1 = e.2 ∧ e.2 ≠ .nil) ∧
    seen.Pairwise (fun a b => a.1.sameKey b.1 = false) ∧
    (replay log).InOrder (seen.map Prod.fst) ∧
    (∀ key, t.get key ≠ .nil → (replay log).get key ≠ .nil) ∧
    (t.next last = .ok none → ∀ key, t.get key ≠ .nil →
      seen.countP (fun e => e.1.sameKey key) = 1) := by
  obtain ⟨valid, fades, i, j, positions, slots, cursor, passed⟩ :=
    walk.progress (Valid.replay log)
  have isKey : ∀ e ∈ seen, e.1.isKey = true :=
    fun e he => passed.isKey valid (List.mem_map_of_mem he)
  have distinct := List.pairwise_map.mp (passed.distinct valid)
  refine ⟨⟨_, next_of_cursor? cursor⟩, ?_, ?_, ?_, ?_, ?_, ?_⟩
  · have total := congrArg List.length passed.keys_eq
    have short := passed.positions_length
    have short' := passed.slots_length
    have inside := passed.array_le
    have inside' := passed.entries_le
    rw [List.length_map, List.length_append, List.length_map, List.length_map] at total
    rw [← fades.size, ← fades.entries_size]
    omega
  · intro e found
    obtain ⟨⟨value, live⟩, -⟩ := passed.step valid cursor found
    refine ⟨value, fun nil => ?_⟩
    rw [nil] at live
    contradiction
  · exact distinct.imp Value.sameKey_eq_false_iff.mpr
  · exact fades.inOrder passed.inOrder
  · exact fun key => fades.get_live
  · intro finished key held
    obtain ⟨k, hk, same⟩ := passed.complete valid cursor finished held
    obtain ⟨e, he, rfl⟩ := List.mem_map.mp hk
    refine countP_eq_one ?_ he (Value.sameKey_iff.mpr same)
    refine distinct.imp fun {a b} apart both => apart ?_
    exact (Value.sameKey_iff.mp both.1).trans (Value.sameKey_iff.mp both.2).symm

/-- The only pair is visited, removed at once, and the traversal still goes on from its key. -/
theorem visits_live_keys_once_after_removal :
    ∃ e t, Traversal (replay [.setInt 1 (.boolean true)]) [e] t e.1 ∧
      (Value.ofInt 1).sameKey e.1 = true ∧ t.get e.1 = .nil ∧ ∃ found, t.next e.1 = .ok found := by
  let log : List Write := [.setInt 1 (.boolean true)]
  have held : (replay log).get (.ofInt 1) ≠ .nil := by
    rw [get_replay]
    decide
  obtain ⟨⟨found, eq⟩, -, live, -, -, -, all⟩ := visits_live_keys_once log .start
  cases found with
  | none => exact absurd (all eq _ held) nofun
  | some e =>
    obtain ⟨value, full⟩ := live e eq
    have one : (Value.ofInt 1).sameKey e.1 = true := by
      by_contra other
      rw [get_replay] at value
      have none : lastStored (·.sameKey e.1) log = .nil := if_neg fun both => other both.2
      exact full (value.symm.trans none)
    have walk : Traversal (replay log) [e] (Write.run (replay log) (.set e.1 .nil)) e.1 :=
      .write (.set e.1 .nil) (.visit .start eq) (.inl rfl)
    refine ⟨e, _, walk, one, ?_, (visits_live_keys_once log walk).1⟩
    have isKey : e.1.isKey = true := by
      rw [← Value.isKey_congr (Value.sameKey_iff.mp one)]
      exact Value.isKey_ofInt 1
    rw [get_run (Valid.replay log), if_pos]
    · rfl
    · exact ⟨isKey, Value.sameKey_iff.mpr rfl⟩

end Traversal
end HostBridge
