import HostBridge.Proofs.Table.FiniteMap
import HostBridge.State.Codec

namespace HostBridge
namespace Table

def ofArray (a : Array Value) : Table := { empty with array := a }

theorem entrySlot?_ofArray (a : Array Value) (key : Value) :
    (ofArray a).entrySlot? key = none := by
  cases key with
  | nil => rfl
  | string s => exact Std.HashMap.getElem?_empty
  | _ => exact Std.HashMap.getElem?_empty

theorem extend_ofArray (a : Array Value) (v : Value) : (ofArray a).extend v = ofArray (a.push v) := by
  have same : (ofArray a).removeEntry (.ofInt ((ofArray a).array.size + 1)) = ofArray a := by
    rw [removeEntry, entrySlot?_ofArray]
  rw [extend]
  simp only [same]
  rfl

theorem setInt_ofArray {a : Array Value} (room : a.size < 2 ^ 53) {v : Value}
    (live : v.isNil = false) :
    (ofArray a).setInt (a.size + 1) v = ofArray (a.push v) := by
  have position : position? (.ofInt (a.size + 1)) = some (a.size + 1) :=
    position?_ofInt (i := a.size + 1) (by omega) (by omega)
  have next : ¬a.size + 1 ≤ (ofArray a).array.size := Nat.not_succ_le_self a.size
  rw [setInt_eq_put, put, position]
  simp only [next, if_false]
  rw [if_pos ⟨rfl, by rw [live]; rfl⟩, extend_ofArray]

theorem trimmed_of_live {a : Array Value} (live : ∀ v ∈ a, v.isNil = false) :
    trimmed a a.size = a.size := by
  cases size : a.size with
  | zero => rfl
  | succ n =>
    have inside : n < a.size := by omega
    have last : (a.getD n .nil).isNil = false := by
      rw [Array.getD_eq_getD_getElem?, Array.getElem?_eq_getElem inside]
      exact live _ (Array.getElem_mem inside)
    rw [trimmed, last]
    rfl

theorem border_ofArray {a : Array Value} (live : ∀ v ∈ a, v.isNil = false) :
    (ofArray a).border = a.size := by
  have all := trimmed_of_live live
  unfold border
  simp only [ofArray, all, Nat.lt_irrefl, if_false]
  rfl

theorem getInt_ofArray {a : Array Value} {i : Nat} (inside : i < a.size) :
    (ofArray a).getInt (i + 1) = a[i] := by
  have bounds : (1 : Int) ≤ i + 1 ∧ (i : Int) + 1 ≤ (ofArray a).array.size := by
    refine ⟨by omega, ?_⟩
    change (i : Int) + 1 ≤ a.size
    omega
  have index : ((i : Int) + 1).toNat - 1 = i := by omega
  rw [getInt, if_pos bounds, index]
  change a.getD i .nil = a[i]
  rw [Array.getD_eq_getD_getElem?, Array.getElem?_eq_getElem inside, Option.getD_some]

end Table

namespace Run

theorem foldl_sequence {vs : List Value} (live : ∀ v ∈ vs, v.isNil = false) (a : Array Value)
    (small : a.size + vs.length ≤ 2 ^ 53) :
    vs.foldl (fun (x, i) v => (x.setInt i v, i + 1)) (Table.ofArray a, (a.size + 1 : Int)) =
      (Table.ofArray (a ++ vs.toArray), (a.size + vs.length + 1 : Int)) := by
  induction vs generalizing a with
  | nil => simp
  | cons v vs ih =>
    obtain ⟨first, rest⟩ := List.forall_mem_cons.mp live
    simp only [List.length_cons] at small
    have step := ih rest (a.push v) (by rw [Array.size_push]; omega)
    have next : ((a.push v).size : Int) = a.size + 1 := by rw [Array.size_push]; omega
    have stored := Table.setInt_ofArray (a := a) (by omega) first
    rw [next] at step
    rw [List.foldl_cons]
    change vs.foldl _ ((Table.ofArray a).setInt (a.size + 1) v, (a.size + 1 + 1 : Int)) = _
    rw [stored, step]
    refine Prod.ext (by simp) ?_
    simp only [List.length_cons]
    omega

theorem sequenceTable_eq {vs : List Value} (live : ∀ v ∈ vs, v.isNil = false)
    (small : vs.length ≤ 2 ^ 53) : sequenceTable vs = Table.ofArray vs.toArray := by
  have filled := foldl_sequence live #[] (by simpa using small)
  have start : Table.ofArray #[] = Table.empty := rfl
  rw [sequenceTable]
  simp only [start, Array.size_empty, Int.ofNat_zero, Int.zero_add,
    Array.empty_append] at filled
  rw [filled]

end Run

namespace Heap
variable {E : Embedding}

theorem sequence_of_ofArray {h : Heap E} {t : TableId} {vs : List Value}
    (live : ∀ v ∈ vs, v.isNil = false) (stored : h.table t = .ofArray vs.toArray) :
    h.sequence t = vs := by
  have border : (h.table t).border = vs.length := by
    rw [stored, Table.border_ofArray (by simpa using live)]
    rfl
  rw [sequence]
  simp only [border]
  apply List.ext_getElem
  · simp
  · intro i inside inside'
    simp only [List.getElem_map, List.getElem_range, stored]
    exact Table.getInt_ofArray (a := vs.toArray) inside'

end Heap
end HostBridge
