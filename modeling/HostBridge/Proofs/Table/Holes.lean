import HostBridge.Proofs.Table.Border
import Mathlib.Data.List.TakeWhile
/-!
Sequences with holes. A table that is filled from index one on takes values into its array part until
the first nil; what follows goes to the entry list, where no later write can pull it back, since the
index after the array part is the hole itself.
-/
namespace HostBridge
namespace Table

def fill (t : Table) (i : Nat) (vs : List Value) : Table :=
  (vs.foldl (fun (x, i) v => (x.setInt i v, i + 1)) (t, (i : Int))).1

variable {t : Table} {i : Nat}

@[simp] theorem fill_nil : t.fill i [] = t := rfl

theorem fill_cons (v : Value) (vs : List Value) :
    t.fill i (v :: vs) = (t.put (.ofInt i) v).fill (i + 1) vs := by
  rw [← setInt_eq_put]
  rfl

theorem fill_append (vs ws : List Value) :
    t.fill i (vs ++ ws) = (t.fill i vs).fill (i + vs.length) ws := by
  induction vs generalizing t i with
  | nil => rfl
  | cons v vs ih =>
    have next : i + 1 + vs.length = i + (v :: vs).length := by rw [List.length_cons]; omega
    rw [List.cons_append, fill_cons, ih, fill_cons, next]

theorem get_fill (valid : t.Valid) {vs : List Value} (positive : 1 ≤ i)
    (small : i + vs.length ≤ 2 ^ 53 + 1) {j : Nat} (exact : 1 ≤ j) (exact' : j ≤ 2 ^ 53) :
    (t.fill i vs).get (.ofInt j) =
      if i ≤ j ∧ j < i + vs.length then vs.getD (j - i) .nil else t.get (.ofInt j) := by
  induction vs generalizing t i with
  | nil => rw [fill_nil, if_neg (by rw [List.length_nil]; omega)]
  | cons v vs ih =>
    have length : (v :: vs).length = vs.length + 1 := List.length_cons
    have same : (Value.ofInt j).normal = (Value.ofInt i).normal ↔ j = i := by
      refine ⟨fun same => ?_, fun same => same ▸ rfl⟩
      exact ofInt_normal_inj (by omega) (by omega) same
    rw [fill_cons, ih (valid.put (Value.isKey_ofInt _) v) (by omega) (by omega),
      get_put valid (Value.isKey_ofInt _), length]
    simp only [same]
    by_cases here : j = i
    · rw [if_neg (by omega), if_pos here, if_pos (by omega), here, Nat.sub_self]
      rfl
    · by_cases later : i + 1 ≤ j ∧ j < i + 1 + vs.length
      · have index : j - i = (j - (i + 1)) + 1 := by omega
        rw [if_pos later, if_pos (by omega), index]
        rfl
      · rw [if_neg later, if_neg here, if_neg (by omega)]

theorem array_put_of_nil (last : position? (.ofInt i) = some (t.array.size + 1)) :
    (t.put (.ofInt i) .nil).array = t.array := by
  rcases t.put_cases (.ofInt i) .nil with ⟨slot, inside, -⟩ | ⟨-, live, -⟩ | ⟨-, -, eq⟩
  · rw [arraySlot?_of_last last] at inside
    contradiction
  · contradiction
  · rw [eq, array_setEntry]

/-- Past the hole, nothing gets into the array part any more. -/
theorem array_fill_beyond {vs : List Value} (beyond : t.array.size + 1 < i)
    (small : i + vs.length ≤ 2 ^ 53 + 1) : (t.fill i vs).array = t.array := by
  induction vs generalizing t i with
  | nil => rfl
  | cons v vs ih =>
    rw [List.length_cons] at small
    have position : position? (.ofInt i) = some i := position?_ofInt (by omega) (by omega)
    have stored : (t.put (.ofInt i) v).array = t.array := by
      rcases t.put_cases (.ofInt i) v with ⟨slot, inside, -⟩ | ⟨last, -, -⟩ | ⟨-, -, eq⟩
      · obtain ⟨position', below⟩ := arraySlot?_eq_some_iff.mp inside
        rw [position, Option.some.injEq] at position'
        omega
      · rw [position, Option.some.injEq] at last
        omega
      · rw [eq, array_setEntry]
    rw [fill_cons, ih (stored ▸ by omega) (by omega), stored]

end Table

namespace Run

def leading (vs : List Value) : List Value := vs.takeWhile fun v => !v.isNil

theorem live_of_leading {vs : List Value} {v : Value} (listed : v ∈ leading vs) :
    v.isNil = false := by
  have live := List.mem_takeWhile_imp listed
  exact Bool.not_eq_true' _ |>.mp live

theorem length_leading_le (vs : List Value) : (leading vs).length ≤ vs.length :=
  (List.takeWhile_prefix _).length_le

variable {vs : List Value} (small : vs.length ≤ 2 ^ 53)

include small

theorem get_sequenceTable {i : Nat} (positive : 1 ≤ i) (below : i ≤ 2 ^ 53) :
    (sequenceTable vs).get (.ofInt i) = vs.getD (i - 1) .nil := by
  have found : (Table.empty.fill 1 vs).get (.ofInt i) = _ :=
    Table.get_fill .empty (Nat.le_refl 1) (by omega) positive below
  refine found.trans ?_
  split
  · rfl
  · rw [Table.get_empty, List.getD_eq_default _ _ (by omega)]

theorem array_sequenceTable : (sequenceTable vs).array = (leading vs).toArray := by
  have live : ∀ v ∈ leading vs, v.isNil = false := fun v => live_of_leading
  have short := length_leading_le vs
  have first : Table.empty.fill 1 (leading vs) = .ofArray (leading vs).toArray :=
    sequenceTable_eq live (by omega)
  have parts : leading vs ++ vs.dropWhile (fun v => !v.isNil) = vs := List.takeWhile_append_dropWhile
  have whole : sequenceTable vs =
      (Table.ofArray (leading vs).toArray).fill (1 + (leading vs).length)
        (vs.dropWhile fun v => !v.isNil) := by
    rw [← first, ← Table.fill_append, parts]
    rfl
  rw [whole]
  cases rest : vs.dropWhile (fun v => !v.isNil) with
  | nil => rfl
  | cons v ws =>
    have dead : v.isNil = true := by
      have stops := List.head?_dropWhile_not (fun v : Value => !v.isNil) vs
      rw [rest] at stops
      simpa using stops
    have lengths : (leading vs).length + (ws.length + 1) = vs.length := by
      rw [← List.length_cons (a := v), ← rest, ← List.length_append, parts]
    have size : (Table.ofArray (leading vs).toArray).array.size = (leading vs).length := rfl
    have last : Table.position? (.ofInt (1 + (leading vs).length : Nat)) =
        some ((Table.ofArray (leading vs).toArray).array.size + 1) := by
      rw [Table.position?_ofInt (by omega) (by omega), size, Nat.add_comm]
    have stored := Table.array_put_of_nil last
    rw [Table.fill_cons, Value.isNil_iff.mp dead,
      Table.array_fill_beyond (by rw [stored, size]; omega) (by omega), stored]
    rfl

/-- The length of the table is that of its array part: the hole ends it. -/
theorem border_sequenceTable : (sequenceTable vs).border = (leading vs).length := by
  have short := length_leading_le vs
  have live : ∀ v ∈ (leading vs).toArray, v.isNil = false :=
    fun v listed => live_of_leading (List.mem_toArray.mp listed)
  rcases Nat.lt_or_eq_of_le short with holed | whole
  · have room : (sequenceTable vs).array.size < 2 ^ 53 := by
      rw [array_sequenceTable small, List.size_toArray]
      omega
    rw [Table.border_eq (valid_sequenceTable vs) room, array_sequenceTable small,
      Table.trimmed_of_live live, List.size_toArray]
  · have all : leading vs = vs := (List.takeWhile_prefix _).eq_of_length whole
    rw [all] at live ⊢
    rw [sequenceTable_eq (by simpa using live) small, Table.border_ofArray live, List.size_toArray]

/-- What is in the table under the index of an element is what was put there. -/
theorem getInt_sequenceTable {n : Nat} {v : Value} (listed : vs[n]? = some v) :
    (sequenceTable vs).getInt (n + 1) = v := by
  obtain ⟨inside, here⟩ := List.getElem?_eq_some_iff.mp listed
  have index : (n : Int) + 1 = ((n + 1 : Nat) : Int) := rfl
  rw [Table.getInt_eq (valid_sequenceTable vs).small, index,
    get_sequenceTable small (by omega) (by omega), Nat.add_sub_cancel,
    List.getD_eq_getElem _ _ inside, here]

end Run

theorem Heap.sequence_of_sequenceTable {E : Embedding} {h : Heap E} {t : TableId} {vs : List Value}
    (small : vs.length ≤ 2 ^ 53) (stored : h.table t = Run.sequenceTable vs) :
    h.sequence t = Run.leading vs := by
  rw [sequence]
  simp only [stored, Run.border_sequenceTable small]
  apply List.ext_getElem
  · simp
  · intro i inside inside'
    have short := Run.length_leading_le vs
    have leads := (List.takeWhile_prefix fun v : Value => !v.isNil).getElem inside'
    have listed : vs[i]? = some vs[i] := List.getElem?_eq_getElem (by omega)
    simp only [List.getElem_map, List.getElem_range]
    rw [Run.getInt_sequenceTable small listed]
    exact leads.symm

end HostBridge
