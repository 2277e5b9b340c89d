import HostBridge.Proofs.Table.Valid

namespace HostBridge
namespace Table

/-- All that `u` refers to is in `vs` or was referred to by `t`. -/
def Draws (t : Table) (vs : List Value) (u : Table) : Prop :=
  ∀ v ∈ u.contents, v ∈ t.contents ∨ v ∈ vs

theorem mem_contents {t : Table} {v : Value} :
    v ∈ t.contents ↔ v ∈ t.array ∨ (∃ e ∈ t.entries, v = e.1 ∨ v = e.2) ∨
      ∃ m, t.metatable = some m ∧ v = .table m := by
  simp only [contents, List.mem_append, List.mem_flatMap, Array.mem_toList_iff, List.mem_cons,
    List.not_mem_nil, or_false, Option.mem_toList, Option.map_eq_some_iff, or_assoc, eq_comm]

variable {t u w : Table} {vs : List Value}

theorem Draws.refl (t : Table) (vs : List Value) : t.Draws vs t := fun _ => .inl

theorem Draws.trans (first : t.Draws vs u) (second : u.Draws vs w) : t.Draws vs w := fun v listed =>
  (second v listed).elim (first v) .inr

theorem Draws.of_parts (array : ∀ v ∈ u.array, v ∈ t.contents ∨ v ∈ vs)
    (entries : ∀ e ∈ u.entries, (e.1 ∈ t.contents ∨ e.1 ∈ vs) ∧ (e.2 ∈ t.contents ∨ e.2 ∈ vs))
    (metatable : u.metatable = t.metatable) : t.Draws vs u := by
  intro v listed
  rcases mem_contents.mp listed with slot | ⟨e, entry, rfl | rfl⟩ | own
  · exact array v slot
  · exact (entries e entry).1
  · exact (entries e entry).2
  · rw [metatable] at own
    exact .inl (mem_contents.mpr (.inr (.inr own)))

theorem mem_contents_of_array {v : Value} (slot : v ∈ t.array) : v ∈ t.contents :=
  mem_contents.mpr (.inl slot)

theorem mem_contents_of_entry {e : Value × Value} (entry : e ∈ t.entries) :
    e.1 ∈ t.contents ∧ e.2 ∈ t.contents :=
  ⟨mem_contents.mpr (.inr (.inl ⟨e, entry, .inl rfl⟩)),
    mem_contents.mpr (.inr (.inl ⟨e, entry, .inr rfl⟩))⟩

theorem draws_store (slot : Nat) {value : Value} (given : value ∈ vs) :
    t.Draws vs (t.store slot value) := by
  apply Draws.of_parts
  · exact fun v slot => .inl (mem_contents_of_array slot)
  · intro e entry
    obtain ⟨i, inside, rfl⟩ := Array.mem_iff_getElem.mp entry
    simp only [store, Array.size_modify] at inside
    have old := mem_contents_of_entry (Array.getElem_mem inside)
    simp only [store, Array.getElem_modify]
    split
    · exact ⟨.inl old.1, .inr given⟩
    · exact ⟨.inl old.1, .inl old.2⟩
  · rfl

@[simp] theorem metatable_enterKey (t : Table) (key : Value) (slot : Nat) :
    (t.enterKey key slot).metatable = t.metatable := by
  cases key <;> rfl

@[simp] theorem metatable_enterKeys (t : Table) (es : List (Value × Value)) (slot : Nat) :
    (t.enterKeys es slot).metatable = t.metatable := by
  induction es generalizing t slot with
  | nil => rfl
  | cons e es ih => rw [enterKeys, ih, metatable_enterKey]

@[simp] theorem metatable_reclaim (t : Table) : t.reclaim.metatable = t.metatable := by
  unfold reclaim
  split
  · rfl
  · exact metatable_enterKeys _ _ _

theorem draws_reclaim : t.Draws vs t.reclaim := by
  apply Draws.of_parts
  · intro v slot
    rw [array_reclaim] at slot
    exact .inl (mem_contents_of_array slot)
  · intro e entry
    have old := mem_contents_of_entry (mem_of_mem_reclaim entry)
    exact ⟨.inl old.1, .inl old.2⟩
  · exact metatable_reclaim t

theorem draws_append {key value : Value} (keyGiven : key ∈ vs) (valueGiven : value ∈ vs) :
    t.Draws vs (t.append key value) := by
  apply Draws.of_parts
  · intro v slot
    rw [array_append] at slot
    exact .inl (mem_contents_of_array slot)
  · intro e entry
    rw [entries_append] at entry
    rcases Array.mem_push.mp entry with earlier | rfl
    · have old := mem_contents_of_entry earlier
      exact ⟨.inl old.1, .inl old.2⟩
    · exact ⟨.inr keyGiven, .inr valueGiven⟩
  · exact metatable_enterKey t key _

theorem draws_setEntry {key value : Value} (keyGiven : key ∈ vs) (valueGiven : value ∈ vs) :
    t.Draws vs (t.setEntry key value) := by
  unfold setEntry
  split
  · exact draws_store _ valueGiven
  · split
    · exact .refl t vs
    · exact draws_reclaim.trans (draws_append keyGiven valueGiven)

theorem draws_removeEntry (key : Value) (given : .nil ∈ vs) : t.Draws vs (t.removeEntry key) := by
  unfold removeEntry
  split
  · exact draws_store _ given
  · exact .refl t vs

theorem entryValue_mem (t : Table) (slot : Nat) :
    t.entryValue slot ∈ t.contents ∨ t.entryValue slot = .nil := by
  rw [entryValue, Array.getD_eq_getD_getElem?]
  cases found : t.entries[slot]? with
  | none => exact .inr rfl
  | some e =>
    obtain ⟨inside, rfl⟩ := Array.getElem?_eq_some_iff.mp found
    exact .inl (mem_contents_of_entry (Array.getElem_mem inside)).2

theorem entryGet_mem (t : Table) (key : Value) :
    t.entryGet key ∈ t.contents ∨ t.entryGet key = .nil := by
  unfold entryGet
  split
  · exact t.entryValue_mem _
  · exact .inr rfl

theorem get_mem (t : Table) (key : Value) : t.get key ∈ t.contents ∨ t.get key = .nil := by
  unfold get
  split
  · rename_i slot _
    rw [Array.getD_eq_getD_getElem?]
    cases found : t.array[slot]? with
    | none => exact .inr rfl
    | some v => exact .inl (mem_contents_of_array (Array.mem_of_getElem? found))
  · exact t.entryGet_mem key

theorem draws_advance {value : Value} (nilGiven : .nil ∈ vs)
    (given : value ∈ t.contents ∨ value ∈ vs) : t.Draws vs (t.advance value) := by
  intro v listed
  rcases mem_contents.mp listed with slot | rest
  · rcases Array.mem_push.mp slot with earlier | rfl
    · exact .inl (mem_contents_of_array earlier)
    · exact given
  · exact draws_removeEntry t.seam nilGiven v (mem_contents.mpr (.inr rest))

theorem draws_migrate (fuel : Nat) (nilGiven : .nil ∈ vs) : t.Draws vs (t.migrate fuel) := by
  induction fuel generalizing t with
  | zero => exact .refl t vs
  | succ fuel ih =>
    rw [migrate_succ]
    split
    · exact .refl t vs
    · have held := (t.entryGet_mem t.seam).imp_right fun nil => nil ▸ nilGiven
      exact (draws_advance nilGiven held).trans ih

theorem draws_extend {value : Value} (nilGiven : .nil ∈ vs) (given : value ∈ vs) :
    t.Draws vs (t.extend value) := by
  rw [extend_eq]
  exact (draws_advance nilGiven (.inr given)).trans (draws_migrate _ nilGiven)

theorem draws_setArray (i : Nat) {value : Value} (given : value ∈ vs) :
    t.Draws vs { t with array := t.array.setIfInBounds i value } := by
  intro v listed
  rcases mem_contents.mp listed with slot | rest
  · rcases Array.mem_or_eq_of_mem_setIfInBounds slot with earlier | rfl
    · exact .inl (mem_contents_of_array earlier)
    · exact .inr given
  · exact .inl (mem_contents.mpr (.inr rest))

/-! Writes leave the metatable alone. -/

@[simp] theorem metatable_store (t : Table) (slot : Nat) (value : Value) :
    (t.store slot value).metatable = t.metatable := rfl

@[simp] theorem metatable_append (t : Table) (key value : Value) :
    (t.append key value).metatable = t.metatable := metatable_enterKey t key _

@[simp] theorem metatable_setEntry (t : Table) (key value : Value) :
    (t.setEntry key value).metatable = t.metatable := by
  unfold setEntry
  split
  · rfl
  · split
    · rfl
    · rw [metatable_append, metatable_reclaim]

@[simp] theorem metatable_removeEntry (t : Table) (key : Value) :
    (t.removeEntry key).metatable = t.metatable := by
  unfold removeEntry
  split <;> rfl

@[simp] theorem metatable_migrate (t : Table) (fuel : Nat) :
    (t.migrate fuel).metatable = t.metatable := by
  induction fuel generalizing t with
  | zero => rfl
  | succ fuel ih =>
    rw [migrate_succ]
    split
    · rfl
    · rw [ih]
      exact metatable_removeEntry t t.seam

@[simp] theorem metatable_put (t : Table) (key value : Value) :
    (t.put key value).metatable = t.metatable := by
  unfold put
  split
  · split
    · rfl
    · split
      · rw [extend_eq, metatable_migrate]
        exact metatable_removeEntry t t.seam
      · exact metatable_setEntry t key value
  · exact metatable_setEntry t key value

/-- A table refers to nothing new but the key and the value that are stored. -/
theorem draws_put (t : Table) (key value : Value) :
    t.Draws [.nil, key, value] (t.put key value) := by
  have nilGiven : Value.nil ∈ [.nil, key, value] := by simp
  have keyGiven : key ∈ [.nil, key, value] := by simp
  have valueGiven : value ∈ [.nil, key, value] := by simp
  unfold put
  split
  · split
    · exact draws_setArray _ valueGiven
    · split
      · exact draws_extend nilGiven valueGiven
      · exact draws_setEntry keyGiven valueGiven
  · exact draws_setEntry keyGiven valueGiven

end Table
end HostBridge
