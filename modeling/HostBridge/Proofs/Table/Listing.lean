import HostBridge.Proofs.Table.Traversal

namespace HostBridge
namespace Table

/-- From `key` on, `next` hands out `ps` and then nothing more. -/
inductive Follows (t : Table) : Value → List (Value × Value) → Prop
  | done {key : Value} (last : t.next key = .ok none) : Follows t key []
  | step {key : Value} {p : Value × Value} {ps : List (Value × Value)}
      (next : t.next key = .ok (some p)) (rest : Follows t p.1 ps) : Follows t key (p :: ps)

theorem entryPairs_of_lt {t : Table} {j : Nat} (below : j < t.entries.size) :
    t.entryPairs j =
      (if t.entries[j].2.isNil then [] else [t.entries[j]]) ++ t.entryPairs (j + 1) := by
  have below' : j < t.entries.toList.length := below
  rw [entryPairs, List.drop_eq_getElem_cons below', List.filter_cons, Array.getElem_toList]
  cases t.entries[j].2.isNil <;> rfl

theorem arrayPairs_of_lt {t : Table} {i : Nat} (below : i < t.array.size) :
    t.arrayPairs i =
      (if t.array[i].isNil then [] else [(.ofInt (i + 1), t.array[i])]) ++ t.arrayPairs (i + 1) := by
  have below' : i < t.array.toList.length := below
  have shift : ∀ n : Nat, ((i : Int) + (n + 1 : Nat) + 1) = ((i + 1 : Nat) : Int) + n + 1 := by
    intro n
    omega
  have rest : (t.array.toList.drop (i + 1)).zipIdx.filterMap
      (fun p => if p.1.isNil then none else some (Value.ofInt (i + (p.2 + 1 : Nat) + 1), p.1)) =
        t.arrayPairs (i + 1) := by
    simp only [arrayPairs, shift]
  rw [arrayPairs, List.drop_eq_getElem_cons below', List.zipIdx_cons, List.filterMap_cons,
    Array.getElem_toList, List.zipIdx_succ, List.filterMap_map]
  by_cases empty : t.array[i].isNil = true
  · simp only [if_pos empty, List.nil_append]
    exact rest
  · simp only [if_neg empty, List.cons_append, List.nil_append, Int.natCast_zero, Int.add_zero]
    exact congrArg (_ :: ·) rest

theorem Valid.follows_entryPairs {t : Table} (valid : t.Valid) {j : Nat} {key : Value}
    (here : t.next key = .ok (t.entryNext? j)) : t.Follows key (t.entryPairs j) := by
  by_cases below : j < t.entries.size
  · rw [entryNext?, dif_pos below] at here
    rw [entryPairs_of_lt below]
    by_cases empty : t.entries[j].2.isNil = true
    · rw [if_pos empty] at here
      rw [if_pos empty]
      exact valid.follows_entryPairs here
    · rw [if_neg empty] at here
      rw [if_neg empty]
      have found := Array.getElem?_eq_getElem below
      have outside := valid.arraySlot?_of_live (Array.mem_of_getElem? found)
        (Bool.eq_false_iff.mpr empty)
      have after := next_of_cursor? (valid.cursor?_of_entry found outside)
      rw [arrayNext?_size, Option.none_or] at after
      exact .step here (valid.follows_entryPairs after)
  · have past : t.entries.toList.length ≤ j := Nat.le_of_not_lt below
    rw [entryNext?, dif_neg below] at here
    rw [entryPairs, List.drop_eq_nil_of_le past]
    exact .done here
termination_by t.entries.size - j

theorem Valid.follows_arrayPairs {t : Table} (valid : t.Valid) {i : Nat} {key : Value}
    (here : t.next key = .ok ((t.arrayNext? i).or (t.entryNext? 0))) :
    t.Follows key (t.arrayPairs i ++ t.entryPairs 0) := by
  by_cases below : i < t.array.size
  · rw [arrayNext?, dif_pos below] at here
    rw [arrayPairs_of_lt below]
    by_cases empty : t.array[i].isNil = true
    · rw [if_pos empty] at here
      rw [if_pos empty]
      exact valid.follows_arrayPairs here
    · rw [if_neg empty] at here
      rw [if_neg empty]
      have small := valid.small
      have slot := arraySlot?_ofInt small (i := i + 1) (by omega) (by omega)
      exact .step here (valid.follows_arrayPairs (next_of_cursor? (cursor?_of_arraySlot? slot)))
  · have past : t.array.toList.length ≤ i := Nat.le_of_not_lt below
    rw [arrayNext?, dif_neg below, Option.none_or] at here
    rw [arrayPairs, List.drop_eq_nil_of_le past]
    exact valid.follows_entryPairs here
termination_by t.array.size - i

theorem Valid.follows_pairs {t : Table} (valid : t.Valid) : t.Follows .nil t.pairs :=
  valid.follows_arrayPairs (next_of_cursor? rfl)

end Table
end HostBridge
