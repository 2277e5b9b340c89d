import HostBridge.Proofs.Table.Index
/-!
The invariant of tables: the entry list is sound, and it holds nothing under a key of the array part
or under the next one. Every write keeps it, and a read after a write gives what was written under
the keys with the same normal form and what was there before under all others.
-/
namespace HostBridge
namespace Table

/-- The key that the array part does not reach yet. -/
def seam (t : Table) : Value := .ofInt (t.array.size + 1)

/-- Nothing of the array part is also in the entry list. Numbers name the positions up to `2 ^ 53`
exactly, and the array part never grows longer. -/
structure Split (t : Table) : Prop extends t.Indexed where
  small : t.array.size ≤ 2 ^ 53
  behind : ∀ i : Nat, 1 ≤ i → i ≤ t.array.size → t.entryGet (.ofInt i) = .nil

structure Valid (t : Table) : Prop extends t.Split where
  ahead : t.entryGet t.seam = .nil

theorem Valid.empty : Table.empty.Valid where
  toIndexed := Indexed.empty
  small := Nat.zero_le _
  behind := by
    intro i positive below
    exact absurd (Nat.le_trans positive below) (by decide)
  ahead := entryGet_of_no_entrySlot? (by simp [seam, Value.ofInt, entrySlot?, Table.empty])

theorem position?_seam {t : Table} (room : t.array.size < 2 ^ 53) :
    position? t.seam = some (t.array.size + 1) :=
  position?_ofInt (i := t.array.size + 1) (by omega) (by omega)

theorem normal_eq_seam_iff {t : Table} (room : t.array.size < 2 ^ 53) {key : Value} :
    key.normal = t.seam.normal ↔ position? key = some (t.array.size + 1) := by
  constructor
  · intro same
    rw [position?_congr same, position?_seam room]
  · intro here
    rw [eq_ofInt_of_position? here (by omega)]
    rfl

theorem arraySlot?_eq_some_iff {t : Table} {key : Value} {slot : Nat} :
    t.arraySlot? key = some slot ↔ position? key = some (slot + 1) ∧ slot < t.array.size := by
  unfold arraySlot?
  cases here : position? key with
  | none => simp
  | some i =>
    have positive := position?_pos here
    simp only
    split
    · simp only [Option.some.injEq]
      omega
    · simp only [reduceCtorEq, Option.some.injEq, false_iff]
      omega

theorem arraySlot?_eq_none_iff {t : Table} {key : Value} :
    t.arraySlot? key = none ↔ ∀ i, position? key = some i → t.array.size < i := by
  unfold arraySlot?
  cases position? key with
  | none => simp
  | some i =>
    simp only [Option.some.injEq, forall_eq']
    split
    · simp only [reduceCtorEq, false_iff]
      omega
    · simp only [true_iff]
      omega

theorem arraySlot?_of_last {t : Table} {key : Value}
    (last : position? key = some (t.array.size + 1)) : t.arraySlot? key = none := by
  refine arraySlot?_eq_none_iff.mpr fun i position => ?_
  rw [last] at position
  cases position
  exact Nat.lt_succ_self _

/-- The array part takes one more value, and the entry list gives up its key. -/
def advance (t : Table) (value : Value) : Table :=
  { t.removeEntry t.seam with array := t.array.push value }

@[simp] theorem array_advance (t : Table) (value : Value) :
    (t.advance value).array = t.array.push value := rfl

theorem entryGet_advance {t : Table} (sound : t.Indexed) (value key : Value) :
    (t.advance value).entryGet key =
      if key.normal = t.seam.normal then .nil else t.entryGet key := by
  have slot : (t.advance value).entrySlot? key = (t.removeEntry t.seam).entrySlot? key := by
    cases key <;> rfl
  rw [← entryGet_removeEntry sound, entryGet, entryGet, slot]
  rfl

theorem Split.advance {t : Table} (sound : t.Split) (room : t.array.size < 2 ^ 53)
    (value : Value) : (t.advance value).Split where
  toIndexed := (sound.toIndexed.removeEntry t.seam).of_entries rfl rfl rfl rfl
  small := by
    rw [array_advance, Array.size_push]
    exact room
  behind := by
    intro i positive below
    rw [array_advance, Array.size_push] at below
    rw [entryGet_advance sound.toIndexed]
    split
    · rfl
    · rename_i apart
      apply sound.behind i positive
      by_contra beyond
      have last : i = t.array.size + 1 := by omega
      exact apart (last ▸ rfl)

theorem get_advance {t : Table} (sound : t.Split) (room : t.array.size < 2 ^ 53)
    (value key : Value) :
    (t.advance value).get key = if key.normal = t.seam.normal then value else t.get key := by
  split
  · rename_i same
    have here := (normal_eq_seam_iff room).mp same
    have slot : (t.advance value).arraySlot? key = some t.array.size :=
      arraySlot?_eq_some_iff.mpr ⟨here, by simp⟩
    rw [get_of_arraySlot? slot, array_advance, Array.getD_eq_getD_getElem?,
      Array.getElem?_push_size]
    rfl
  · rename_i differ
    have apart : position? key ≠ some (t.array.size + 1) :=
      fun here => differ ((normal_eq_seam_iff room).mpr here)
    cases here : t.arraySlot? key with
    | some slot =>
      obtain ⟨position, below⟩ := arraySlot?_eq_some_iff.mp here
      have slot' : (t.advance value).arraySlot? key = some slot :=
        arraySlot?_eq_some_iff.mpr ⟨position, by simp; omega⟩
      rw [get_of_arraySlot? here, get_of_arraySlot? slot', array_advance,
        Array.getD_eq_getD_getElem?, Array.getD_eq_getD_getElem?, Array.getElem?_push,
        if_neg (Nat.ne_of_lt below)]
    | none =>
      have slot' : (t.advance value).arraySlot? key = none := by
        refine arraySlot?_eq_none_iff.mpr fun i position => ?_
        have beyond := arraySlot?_eq_none_iff.mp here i position
        rw [position] at apart
        rw [array_advance, Array.size_push]
        have other : i ≠ t.array.size + 1 := fun h => apart (congrArg some h)
        omega
      rw [get_of_no_arraySlot? here, get_of_no_arraySlot? slot',
        entryGet_advance sound.toIndexed, if_neg differ]

/-- A table whose array part is as long as numbers can count has nothing at its seam. -/
theorem Split.ahead_of_full {t : Table} (sound : t.Split) (full : 2 ^ 53 ≤ t.array.size) :
    t.entryGet t.seam = .nil := by
  have size : t.array.size = 2 ^ 53 := Nat.le_antisymm sound.small full
  -- The next integer is no number: it rounds down to a key that the array part holds already.
  have wraps : t.seam = .ofInt (2 ^ 53 : Nat) := by
    rw [seam, size]
    exact congrArg Value.number Number.ofInt_gap
  rw [wraps]
  exact sound.behind (2 ^ 53) (by decide) full

theorem Split.room {t : Table} (sound : t.Split) (held : (t.entryGet t.seam).isNil = false) :
    t.array.size < 2 ^ 53 := by
  by_contra full
  rw [sound.ahead_of_full (Nat.le_of_not_lt full)] at held
  contradiction

theorem migrate_succ (t : Table) (fuel : Nat) :
    t.migrate (fuel + 1) =
      if (t.entryGet t.seam).isNil then t
      else (t.advance (t.entryGet t.seam)).migrate fuel := by
  rw [migrate, advance, removeEntry, entryGet, seam]
  split
  · rename_i absent
    rw [absent]
    rfl
  · rename_i slot found
    rw [found]
    rfl

theorem size_advance (t : Table) (value : Value) :
    (t.advance value).entries.size = t.entries.size := by
  rw [advance, removeEntry]
  split
  · exact size_store _ _ _
  · rfl

theorem dead_advance {t : Table} (value : Value) (held : (t.entryGet t.seam).isNil = false) :
    (t.advance value).dead = t.dead + 1 := by
  unfold entryGet at held
  rw [advance, removeEntry]
  split
  · rename_i slot found
    rw [found] at held
    have live : (t.entryValue slot).isNil = false := held
    simp only [store, live, Bool.false_eq_true, if_false]
    rfl
  · rename_i absent
    rw [absent] at held
    contradiction

/-- Moving values from the entry list to the array part changes no read. -/
theorem get_migrate {t : Table} (sound : t.Split) (fuel : Nat) (key : Value) :
    (t.migrate fuel).get key = t.get key := by
  induction fuel generalizing t with
  | zero => rfl
  | succ fuel ih =>
    rw [migrate_succ]
    split
    · rfl
    · rename_i held
      have room := sound.room (Bool.eq_false_iff.mpr held)
      rw [ih (sound.advance room _), get_advance sound room]
      split
      · rename_i same
        have beyond := arraySlot?_of_last (position?_seam room)
        rw [get_congr t same, get_of_no_arraySlot? beyond]
      · rfl

theorem entryGet_of_all_dead {t : Table} (sound : t.Indexed) (dead : t.entries.size ≤ t.dead)
    (key : Value) : t.entryGet key = .nil := by
  have all : t.entries.countP (fun e => e.2.isNil) = t.entries.size :=
    Nat.le_antisymm Array.countP_le_size (sound.dead ▸ dead)
  by_cases h : ∃ e ∈ t.entries, e.1.normal = key.normal
  · obtain ⟨e, he, same⟩ := h
    rw [sound.entryGet_of_mem he same]
    exact Value.isNil_iff.mp (Array.countP_eq_size.mp all e he)
  · exact sound.entryGet_of_absent fun e he same => h ⟨e, he, same⟩

/-- Each value that moves leaves an empty slot behind, so the number of entries is fuel enough. -/
theorem Split.valid_migrate {t : Table} (sound : t.Split) {fuel : Nat}
    (enough : t.entries.size ≤ t.dead + fuel) : (t.migrate fuel).Valid := by
  induction fuel generalizing t with
  | zero =>
    -- Without fuel every entry is an empty slot, so the seam has nothing to give.
    exact ⟨sound, entryGet_of_all_dead sound.toIndexed enough _⟩
  | succ fuel ih =>
    rw [migrate_succ]
    split
    · rename_i held
      exact ⟨sound, Value.isNil_iff.mp held⟩
    · rename_i held
      have live := Bool.eq_false_iff.mpr held
      apply ih (sound.advance (sound.room live) _)
      rw [size_advance, dead_advance _ live]
      omega

theorem extend_eq (t : Table) (value : Value) :
    t.extend value = (t.advance value).migrate t.entries.size := by
  rw [extend, advance, seam, ← size_advance t value]
  simp only [array_removeEntry]
  rfl

theorem Split.valid_extend {t : Table} (sound : t.Split) (room : t.array.size < 2 ^ 53)
    (value : Value) : (t.extend value).Valid := by
  rw [extend_eq]
  apply (sound.advance room value).valid_migrate
  rw [size_advance]
  exact Nat.le_add_left _ _

theorem get_extend {t : Table} (sound : t.Split) (room : t.array.size < 2 ^ 53)
    (value key : Value) :
    (t.extend value).get key = if key.normal = t.seam.normal then value else t.get key := by
  rw [extend_eq, get_migrate (sound.advance room value), get_advance sound room]

theorem Valid.setArray {t : Table} (valid : t.Valid) (i : Nat) (value : Value) :
    Table.Valid { t with array := t.array.setIfInBounds i value } := by
  have size : (t.array.setIfInBounds i value).size = t.array.size := Array.size_setIfInBounds
  have entry : ∀ key, entryGet { t with array := t.array.setIfInBounds i value } key =
      t.entryGet key := by
    intro key
    cases key <;> rfl
  refine ⟨⟨valid.toIndexed.of_entries rfl rfl rfl rfl, ?_, ?_⟩, ?_⟩
  · rw [size]
    exact valid.small
  · intro j positive below
    rw [size] at below
    rw [entry]
    exact valid.behind j positive below
  · rw [seam, size, entry]
    exact valid.ahead

theorem get_setArray {t : Table} (small : t.array.size ≤ 2 ^ 53) {key : Value} {slot : Nat}
    (here : t.arraySlot? key = some slot) (value other : Value) :
    get { t with array := t.array.setIfInBounds slot value } other =
      if other.normal = key.normal then value else t.get other := by
  obtain ⟨position, below⟩ := arraySlot?_eq_some_iff.mp here
  have size : (t.array.setIfInBounds slot value).size = t.array.size := Array.size_setIfInBounds
  have slots : ∀ k, arraySlot? { t with array := t.array.setIfInBounds slot value } k =
      t.arraySlot? k := by
    intro k
    rw [arraySlot?, arraySlot?, size]
  split
  · rename_i same
    have here' := (slots other).trans ((arraySlot?_congr t same).trans here)
    rw [get_of_arraySlot? here']
    simp [Array.getD_eq_getD_getElem?, below]
  · rename_i differ
    cases there : t.arraySlot? other with
    | none =>
      rw [get_of_no_arraySlot? there, get_of_no_arraySlot? ((slots other).trans there)]
      cases other <;> rfl
    | some place =>
      rw [get_of_arraySlot? there, get_of_arraySlot? ((slots other).trans there)]
      -- Keys of one position are one integer, which both of them equal.
      have apart : slot ≠ place := by
        rintro rfl
        obtain ⟨position', -⟩ := arraySlot?_eq_some_iff.mp there
        have both := eq_ofInt_of_position? position (by omega)
        have both' := eq_ofInt_of_position? position' (by omega)
        exact differ (by rw [both, both'])
      simp [Array.getD_eq_getD_getElem?, Array.getElem?_setIfInBounds_ne apart]

theorem get_setEntry {t : Table} (sound : t.Indexed) {key : Value} (isKey : key.isKey = true)
    (outside : t.arraySlot? key = none) (value other : Value) :
    (t.setEntry key value).get other =
      if other.normal = key.normal then value else t.get other := by
  have slots : ∀ k, (t.setEntry key value).arraySlot? k = t.arraySlot? k := by
    intro k
    rw [arraySlot?, arraySlot?, array_setEntry]
  cases here : t.arraySlot? other with
  | some slot =>
    have differ : other.normal ≠ key.normal := by
      intro same
      rw [arraySlot?_congr t same, outside] at here
      contradiction
    rw [if_neg differ, get_of_arraySlot? here, get_of_arraySlot? ((slots other).trans here),
      array_setEntry]
  | none =>
    rw [get_of_no_arraySlot? here, get_of_no_arraySlot? ((slots other).trans here),
      entryGet_setEntry sound isKey]

theorem arraySlot?_ofInt {t : Table} (small : t.array.size ≤ 2 ^ 53) {i : Nat} (positive : 1 ≤ i)
    (below : i ≤ t.array.size) : t.arraySlot? (.ofInt i) = some (i - 1) := by
  refine arraySlot?_eq_some_iff.mpr ⟨?_, by omega⟩
  rw [position?_ofInt positive (Nat.le_trans below small)]
  congr 1
  omega

/-- The entry list takes every key but those that belong to the array part. -/
theorem Valid.setEntry {t : Table} (valid : t.Valid) {key : Value} (isKey : key.isKey = true)
    (outside : t.arraySlot? key = none) {value : Value}
    (seam : position? key = some (t.array.size + 1) → value = .nil) :
    (t.setEntry key value).Valid := by
  have split : (t.setEntry key value).Split := by
    refine ⟨valid.toIndexed.setEntry isKey value, ?_, ?_⟩
    · rw [array_setEntry]
      exact valid.small
    · intro i positive below
      rw [array_setEntry] at below
      rw [entryGet_setEntry valid.toIndexed isKey, if_neg]
      · exact valid.behind i positive below
      · intro same
        have inside := arraySlot?_ofInt valid.small positive below
        rw [arraySlot?_congr t same, outside] at inside
        contradiction
  refine ⟨split, ?_⟩
  rcases Nat.lt_or_ge t.array.size (2 ^ 53) with room | full
  · have same : (t.setEntry key value).seam = t.seam := by rw [Table.seam, Table.seam, array_setEntry]
    rw [same, entryGet_setEntry valid.toIndexed isKey]
    split
    · rename_i hit
      exact seam ((normal_eq_seam_iff room).mp hit.symm)
    · exact valid.ahead
  · apply split.ahead_of_full
    rw [array_setEntry]
    exact full

/-- The three places that a write can go to. -/
theorem put_cases (t : Table) (key value : Value) :
    (∃ slot, t.arraySlot? key = some slot ∧
      t.put key value = { t with array := t.array.setIfInBounds slot value }) ∨
    (position? key = some (t.array.size + 1) ∧ value.isNil = false ∧
      t.put key value = t.extend value) ∨
    (t.arraySlot? key = none ∧ (position? key = some (t.array.size + 1) → value = .nil) ∧
      t.put key value = t.setEntry key value) := by
  rw [put, arraySlot?]
  cases here : position? key with
  | none => exact .inr (.inr ⟨rfl, fun last => absurd last (Option.some_ne_none _).symm, rfl⟩)
  | some i =>
    simp only
    split
    · exact .inl ⟨i - 1, rfl, rfl⟩
    · split
      · rename_i grows
        simp only [Bool.not_eq_true'] at grows
        exact .inr (.inl ⟨congrArg some grows.1, grows.2, rfl⟩)
      · rename_i stays
        refine .inr (.inr ⟨rfl, fun last => ?_, rfl⟩)
        simp only [Bool.not_eq_true', not_and, Bool.not_eq_false] at stays
        exact Value.isNil_iff.mp (stays (Option.some.inj last))

theorem Valid.room {t : Table} (valid : t.Valid) {key : Value}
    (last : position? key = some (t.array.size + 1)) : t.array.size < 2 ^ 53 := by
  refine Nat.lt_of_le_of_ne valid.small fun full => ?_
  rw [full] at last
  exact position?_ne_gap key last

theorem Valid.put {t : Table} (valid : t.Valid) {key : Value} (isKey : key.isKey = true)
    (value : Value) : (t.put key value).Valid := by
  rcases t.put_cases key value with ⟨slot, -, eq⟩ | ⟨last, -, eq⟩ | ⟨outside, seam, eq⟩
  · rw [eq]
    exact valid.setArray slot value
  · rw [eq]
    exact valid.toSplit.valid_extend (valid.room last) value
  · rw [eq]
    exact valid.setEntry isKey outside seam

theorem get_put {t : Table} (valid : t.Valid) {key : Value} (isKey : key.isKey = true)
    (value other : Value) :
    (t.put key value).get other = if other.normal = key.normal then value else t.get other := by
  rcases t.put_cases key value with ⟨slot, here, eq⟩ | ⟨last, -, eq⟩ | ⟨outside, -, eq⟩
  · rw [eq]
    exact get_setArray valid.small here value other
  · have room := valid.room last
    have same := (normal_eq_seam_iff room).mpr last
    rw [eq, get_extend valid.toSplit room, same]
  · rw [eq]
    exact get_setEntry valid.toIndexed isKey outside value other

end Table
end HostBridge
