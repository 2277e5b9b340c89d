import HostBridge.Proofs.Table.FiniteMap

namespace HostBridge
namespace Table

/-- The second index lists normal forms of keys that are no strings. -/
def Proper (t : Table) : Prop :=
  ∀ k ∈ t.others, ∃ key : Value, key.isKey = true ∧ key.kind ≠ .string ∧ key.normal = k

variable {t : Table}

theorem Proper.enterKey (proper : t.Proper) {key : Value} (isKey : key.isKey = true)
    (slot : Nat) : (t.enterKey key slot).Proper := by
  cases key with
  | nil => exact proper
  | string s => exact proper
  | _ =>
    intro k listed
    rcases Std.HashMap.mem_insert.mp listed with same | before
    · exact ⟨_, isKey, nofun, eq_of_beq same⟩
    · exact proper k before

theorem Proper.enterKeys (proper : t.Proper) {es : List (Value × Value)}
    (keys : ∀ e ∈ es, e.1.isKey = true) (slot : Nat) : (t.enterKeys es slot).Proper := by
  induction es generalizing t slot with
  | nil => exact proper
  | cons e es ih =>
    have first := proper.enterKey (keys e List.mem_cons_self) slot
    exact ih first (fun f hf => keys f (List.mem_cons_of_mem e hf)) (slot + 1)

theorem Proper.reclaim (proper : t.Proper) (sound : t.Indexed) :
    t.reclaim.Proper := by
  unfold Table.reclaim
  split
  · exact proper
  · refine Proper.enterKeys (fun k listed => absurd listed Std.HashMap.not_mem_empty) ?_ 0
    intro e listed
    exact sound.isKey_of_mem (Array.mem_filter.mp (Array.mem_toList_iff.mp listed)).1

theorem Proper.setEntry (proper : t.Proper) (sound : t.Indexed) {key : Value}
    (isKey : key.isKey = true) (value : Value) : (t.setEntry key value).Proper := by
  unfold Table.setEntry
  split
  · exact proper
  · split
    · exact proper
    · exact (proper.reclaim sound).enterKey isKey _

theorem Proper.advance (proper : t.Proper) (value : Value) :
    (t.advance value).Proper := by
  unfold Table.advance removeEntry
  split
  · exact proper
  · exact proper

theorem Proper.migrate (proper : t.Proper) (fuel : Nat) :
    (t.migrate fuel).Proper := by
  induction fuel generalizing t with
  | zero => exact proper
  | succ fuel ih =>
    rw [migrate_succ]
    split
    · exact proper
    · exact ih (proper.advance _)

theorem Proper.put (proper : t.Proper) (sound : t.Indexed) {key : Value}
    (isKey : key.isKey = true) (value : Value) : (t.put key value).Proper := by
  rcases t.put_cases key value with ⟨slot, -, eq⟩ | ⟨-, -, eq⟩ | ⟨-, -, eq⟩
  · rw [eq]
    exact proper
  · rw [eq, extend_eq]
    exact (proper.advance value).migrate _
  · rw [eq]
    exact proper.setEntry sound isKey value

theorem Proper.run (proper : t.Proper) (sound : t.Indexed) (w : Write) : (w.run t).Proper := by
  cases isKey : w.key.isKey with
  | true =>
    rw [t.run_of_isKey isKey]
    exact proper.put sound isKey w.value
  | false =>
    rw [t.run_of_not_isKey isKey]
    exact proper

theorem Proper.replay (log : List Write) : (replay log).Proper := by
  induction log with
  | nil => exact fun k listed => absurd listed Std.HashMap.not_mem_empty
  | cons w earlier ih => exact ih.run (Valid.replay earlier).toIndexed w

theorem kind_normal (v : Value) : v.normal.kind = .string ↔ v.kind = .string := by
  cases v <;> simp [Value.normal, Value.kind]

theorem Indexed.strings_iff (sound : t.Indexed) (s : String) (slot : Nat) :
    t.strings[s]? = some slot ↔ ∃ v, t.entries[slot]? = some (.string s, v) := by
  have index : t.strings[s]? = some slot ↔ _ := sound.index (.string s) slot
  rw [index]
  constructor
  · rintro ⟨k, here, same⟩
    obtain ⟨⟨key, v⟩, found, rfl⟩ := keyAt?_eq_some_iff.mp here
    cases key with
    | string s' =>
      cases same
      exact ⟨v, found⟩
    | _ => contradiction
  · rintro ⟨v, found⟩
    exact ⟨_, keyAt?_eq_some_iff.mpr ⟨_, found, rfl⟩, rfl⟩

theorem entrySlot?_of_kind {key : Value} (isKey : key.isKey = true) (other : key.kind ≠ .string) :
    t.entrySlot? key = t.others[key.normal]? := by
  cases key with
  | nil => contradiction
  | string s => exact absurd rfl other
  | _ => rfl

theorem Indexed.others_iff (sound : t.Indexed) (proper : t.Proper) (k : Value) (slot : Nat) :
    t.others[k]? = some slot ↔
      ∃ e, t.entries[slot]? = some e ∧ e.1.kind ≠ .string ∧ e.1.normal = k := by
  constructor
  · intro listed
    obtain ⟨key, isKey, other, rfl⟩ := proper k (Std.HashMap.mem_iff_isSome_getElem?.mpr (listed ▸ rfl))
    rw [← entrySlot?_of_kind isKey other] at listed
    obtain ⟨_, here, same⟩ := (sound.index key slot).mp listed
    obtain ⟨e, found, rfl⟩ := keyAt?_eq_some_iff.mp here
    have kind : e.1.kind = .string ↔ key.kind = .string := by rw [← kind_normal, same, kind_normal]
    exact ⟨e, found, kind.not.mpr other, same⟩
  · rintro ⟨e, found, other, rfl⟩
    have isKey := sound.isKey_of_mem (Array.mem_of_getElem? found)
    rw [← entrySlot?_of_kind isKey other]
    exact sound.entrySlot?_of_entry found

theorem Indexed.slot_eq (sound : t.Indexed) {i j : Nat} {e f : Value × Value}
    (he : t.entries[i]? = some e) (hf : t.entries[j]? = some f)
    (equal : e.1.rawEquals f.1 = true) : i = j := by
  have first := sound.entrySlot?_of_entry he
  have same := Value.sameKey_iff.mp (Value.sameKey_of_rawEquals equal)
  rw [entrySlot?_congr t same, sound.entrySlot?_of_entry hf] at first
  exact (Option.some.inj first).symm

/-- No value of the entry list belongs to the array part or next to it. -/
theorem Valid.beyond (valid : t.Valid) {e : Value × Value} (he : e ∈ t.entries)
    (live : e.2.isNil = false) {n : Number} (number : e.1 = .number n) {i : Int}
    (integer : n.toInt? = some i) (positive : 1 ≤ i) : t.array.size + 1 < i := by
  have position : position? e.1 = some i.toNat := by
    refine position?_eq_some_iff.mpr ⟨n, number, (Number.one_le_iff integer).mpr positive, ?_⟩
    rw [integer]
    rfl
  have outside := arraySlot?_eq_none_iff.mp (valid.arraySlot?_of_live he live) _ position
  by_contra near
  have last : position? e.1 = some (t.array.size + 1) := by
    rw [position]
    congr 1
    omega
  have seam := (normal_eq_seam_iff (valid.room last)).mpr last
  have empty := valid.ahead
  rw [← entryGet_congr t seam, valid.entryGet_of_mem he rfl] at empty
  rw [empty] at live
  contradiction

theorem Indexed.advance (sound : t.Indexed) (value : Value) : (t.advance value).Indexed :=
  (sound.removeEntry t.seam).of_entries rfl rfl rfl rfl

theorem Indexed.migrate (sound : t.Indexed) (fuel : Nat) : (t.migrate fuel).Indexed := by
  induction fuel generalizing t with
  | zero => exact sound
  | succ fuel ih =>
    rw [migrate_succ]
    split
    · exact sound
    · exact ih (sound.advance _)

structure Exact (t : Table) : Prop where
  strings : ∀ (s : String) (slot : Nat),
    t.strings[s]? = some slot ↔ ∃ v, t.entries[slot]? = some (.string s, v)
  others : ∀ (k : Value) (slot : Nat), t.others[k]? = some slot ↔
    ∃ e : Value × Value, t.entries[slot]? = some e ∧ e.1.kind ≠ .string ∧ e.1.normal = k
  own : ∀ (slot : Nat) (e : Value × Value), t.entries[slot]? = some e →
    t.entrySlot? e.1 = some slot
  keys : ∀ (i j : Nat) (e f : Value × Value), t.entries[i]? = some e → t.entries[j]? = some f →
    e.1.rawEquals f.1 = true → i = j
  dead : t.dead = t.entries.countP fun e => e.2.isNil
  beyond : ∀ e ∈ t.entries, e.2.isNil = false → ∀ (n : Number) (i : Int), e.1 = .number n →
    n.toInt? = some i → ¬(1 ≤ i ∧ i ≤ t.array.size + 1)

theorem Valid.exact (valid : t.Valid) (proper : t.Proper) : t.Exact where
  strings := valid.strings_iff
  others := valid.others_iff proper
  own _ _ := valid.entrySlot?_of_entry
  keys _ _ _ _ := valid.slot_eq
  dead := valid.dead
  beyond _ he live _ _ number integer := fun ⟨positive, near⟩ =>
    Int.not_le_of_gt (valid.beyond he live number integer positive) near

/-- Whatever was written, the fields of a table agree. So each key has one value at most, and what
a lookup finds is there; also where a write is about to move the next value to the array part. -/
theorem replay_exact (log : List Write) :
    let t := replay log
    t.Exact ∧
    t.pairs.Pairwise (fun a b => a.1.rawEquals b.1 = false) ∧
    (∀ key slot, t.arraySlot? key = some slot → slot < t.array.size) ∧
    (∀ key slot, t.entrySlot? key = some slot → slot < t.entries.size) ∧
    ∀ value moves key slot, ((t.advance value).migrate moves).entrySlot? key = some slot →
      slot < ((t.advance value).migrate moves).entries.size := by
  intro t
  have valid : t.Valid := .replay log
  refine ⟨valid.exact (.replay log), ?_, fun key slot found => (arraySlot?_eq_some_iff.mp found).2,
    fun key slot => valid.slot_lt, fun value moves key slot => ?_⟩
  · exact valid.pairs_distinct.imp fun apart =>
      Value.rawEquals_of_not_sameKey (Value.sameKey_eq_false_iff.mpr apart)
  · exact ((valid.toIndexed.advance value).migrate moves).slot_lt

/-- A key that comes back takes the slot that it had. -/
theorem replay_exact_revived :
    let t := replay [.setStr "a" (.light 3), .setStr "a" .nil, .setStr "b" (.light 2),
      .setStr "a" (.light 1)]
    t.entrySlot? (.string "a") = some 0 ∧ 0 < t.entries.size ∧ t.dead = 0 := by
  intro t
  have slot : t.entrySlot? (.string "a") = some 0 ∧ t.dead = 0 := by
    simp [t, replay, Write.run, setStr, setEntry, entrySlot?, entryValue, Value.isNil, reclaim,
      append, enterKey, store, Table.empty, Std.HashMap.getElem_insert]
  exact ⟨slot.1, (replay_exact _).2.2.2.1 _ 0 slot.1, slot.2⟩

end Table
end HostBridge
