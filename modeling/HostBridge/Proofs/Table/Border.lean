import HostBridge.Action.View
import HostBridge.Proofs.Access.Chain
import HostBridge.Proofs.Table.Sequence
/-!
The border of a table. The array part may have holes and end with removed values, and keys that
follow it may be in the entry list; the border is a border of the two together.
-/
namespace HostBridge

namespace Number

theorem zero_le_ofInt {i : Int} (positive : 0 ≤ i) : zero.le (ofInt i) = true := by
  have sign : (ofInt i).negative = false := by
    rw [negative_ofInt]
    exact decide_eq_false (Int.not_lt.mpr positive)
  have below : zero.rank ≤ (ofInt i).rank := by
    rw [rank, rank, sign]
    exact Int.natCast_nonneg _
  rw [le, ofInt_isNaN, decide_eq_true below]
  rfl

end Number

namespace Table

theorem trimmed_le (a : Array Value) (n : Nat) : trimmed a n ≤ n := by
  induction n with
  | zero => exact Nat.le_refl 0
  | succ n ih =>
    rw [trimmed]
    split
    · exact Nat.le_succ_of_le ih
    · exact Nat.le_refl _

theorem live_of_trimmed {a : Array Value} {n : Nat} (some : 0 < trimmed a n) :
    a.getD (trimmed a n - 1) .nil ≠ .nil := by
  induction n with
  | zero => contradiction
  | succ n ih =>
    rw [trimmed] at some ⊢
    split
    · rename_i dead
      rw [if_pos dead] at some
      exact ih some
    · rename_i live
      exact fun nil => live (Value.isNil_iff.mpr nil)

theorem dead_of_trimmed {a : Array Value} {n i : Nat} (above : trimmed a n ≤ i) (below : i < n) :
    a.getD i .nil = .nil := by
  induction n with
  | zero => contradiction
  | succ n ih =>
    rw [trimmed] at above
    split at above
    · rename_i dead
      rcases Nat.lt_succ_iff_lt_or_eq.mp below with earlier | rfl
      · exact ih above earlier
      · exact Value.isNil_iff.mp dead
    · omega

theorem Valid.get_inside {t : Table} (valid : t.Valid) {i : Nat} (positive : 1 ≤ i)
    (inside : i ≤ t.array.size) : t.get (.ofInt i) = t.array.getD (i - 1) .nil :=
  get_of_arraySlot? (arraySlot?_ofInt valid.small positive inside)

/-- The positive integers under which the table holds a value are `1 .. n`. Numbers name integers up
to `2 ^ 53` exactly. -/
def HoldsRun (t : Table) (n : Nat) : Prop :=
  ∀ i : Nat, 1 ≤ i → i ≤ 2 ^ 53 → (t.get (.ofInt i) ≠ .nil ↔ i ≤ n)

def elements (t : Table) (n : Nat) : List Value :=
  (List.range n).map fun i : Nat => t.get (.ofInt (i + 1))

section Border
variable {t : Table} (valid : t.Valid) (room : t.array.size < 2 ^ 53)
include valid room

theorem get_seam : t.get t.seam = .nil := by
  rw [get_of_no_arraySlot? (arraySlot?_of_last (position?_seam room))]
  exact valid.ahead

/-- Behind a full array part there is nothing to look for in the entry list. -/
theorem border_eq : t.border = trimmed t.array t.array.size := by
  have stops : ∀ fuel, t.runEnd t.array.size fuel = t.array.size := by
    intro fuel
    cases fuel with
    | zero => rfl
    | succ fuel =>
      have empty : t.getInt (t.array.size + 1) = .nil :=
        (getInt_eq valid.small _).trans (get_seam valid room)
      rw [runEnd, empty]
      rfl
  simp only [border]
  split
  · rfl
  · rename_i full
    have all : trimmed t.array t.array.size = t.array.size :=
      Nat.le_antisymm (trimmed_le _ _) (Nat.le_of_not_lt full)
    rw [all, stops]

theorem border_le_size : t.border ≤ t.array.size :=
  border_eq valid room ▸ trimmed_le _ _

theorem get_border (some : 0 < t.border) : t.get (.ofInt t.border) ≠ .nil := by
  have inside := border_le_size valid room
  rw [border_eq valid room] at some inside ⊢
  rw [valid.get_inside some inside]
  exact live_of_trimmed some

theorem get_after_border : t.get (.ofInt (t.border + 1)) = .nil := by
  rcases Nat.lt_or_eq_of_le (border_le_size valid room) with inside | last
  · have found := valid.get_inside (i := t.border + 1) (by omega) inside
    rw [Nat.add_sub_cancel] at found
    refine found.trans (dead_of_trimmed ?_ inside)
    rw [border_eq valid room]
  · rw [last]
    exact get_seam valid room

theorem border_of_run {n : Nat} (run : t.HoldsRun n) : t.border = n := by
  have inside := border_le_size valid room
  have above : n ≤ t.border := by
    by_contra short
    exact (run (t.border + 1) (by omega) (by omega)).mpr (by omega) (get_after_border valid room)
  rcases Nat.eq_zero_or_pos t.border with zero | some
  · omega
  · exact Nat.le_antisymm ((run t.border some (by omega)).mp (get_border valid room some)) above

end Border

theorem get_ofArray {a : Array Value} (small : a.size ≤ 2 ^ 53) {i : Nat} (positive : 1 ≤ i)
    (below : i ≤ 2 ^ 53) : (ofArray a).get (.ofInt i) = a.getD (i - 1) .nil := by
  by_cases inside : i ≤ (ofArray a).array.size
  · exact get_of_arraySlot? (arraySlot?_ofInt (t := ofArray a) small positive inside)
  · have outside : (ofArray a).arraySlot? (.ofInt i) = none := by
      refine arraySlot?_eq_none_iff.mpr fun j position => ?_
      cases (position?_ofInt positive below).symm.trans position
      exact Nat.lt_of_not_le inside
    have past : a.size ≤ i - 1 := Nat.le_sub_one_of_lt (Nat.lt_of_not_le inside)
    rw [get_of_no_arraySlot? outside, entryGet_of_no_entrySlot? (entrySlot?_ofArray a _),
      Array.getD_eq_getD_getElem?, Array.getElem?_eq_none past, Option.getD_none]

theorem holdsRun_ofArray {a : Array Value} (small : a.size ≤ 2 ^ 53)
    (live : ∀ v ∈ a, v.isNil = false) : (ofArray a).HoldsRun a.size := by
  intro i positive below
  rw [get_ofArray small positive below, Array.getD_eq_getD_getElem?]
  by_cases inside : i - 1 < a.size
  · have filled := live _ (Array.getElem_mem inside)
    rw [Array.getElem?_eq_getElem inside, Option.getD_some]
    refine iff_of_true (fun nil => ?_) (by omega)
    rw [nil] at filled
    contradiction
  · rw [Array.getElem?_eq_none (Nat.le_of_not_lt inside), Option.getD_none]
    exact iff_of_false (fun filled => filled rfl) (by omega)

end Table

namespace Run
open State
variable {E : Embedding} {H : Host E} {s : State E} {t : TableId}

theorem runAction_rawLen {i : Int} (placed : s.slot i = .ok (.table t)) :
    runAction H (Action.rawLen i) s = .ok (s.heap.table t).border s := by
  simp only [runAction, Action.rawLen, action_bind, bind_eq, action_value, read_eq, placed,
    ofExcept_ok, pure_eq, action_table, table_eq, action_pure]

theorem action_lengthOf {enter : Enter E} (plain : s.heap.metafield (.table t) .len = .nil) :
    action enter H (Action.lengthOf (.table t)) s = .ok (.ofInt (s.heap.table t).border) s := by
  simp only [Action.lengthOf, action_bind, bind_eq, action_metafield, plain, action_table,
    table_eq, Value.isNil, Bool.not_true, Bool.false_eq_true, if_false, action_pure, pure_eq]

theorem runAction_len {i : Int} (placed : s.slot i = .ok (.table t))
    (plain : s.heap.metafield (.table t) .len = .nil) :
    runAction H (Action.len i) s =
      if s.stack.isFull then .error (.raised .stackOverflow) s
      else .ok () (s.mapSlots (·.push (.ofInt (s.heap.table t).border))) := by
  simp only [runAction, Action.len, action_bind, bind_eq, action_value, read_eq, placed,
    ofExcept_ok, pure_eq, action_lengthOf plain, action_push, push_eq]

theorem runAction_count (plain : s.heap.metafield (.table t) .len = .nil)
    (small : (s.heap.table t).border ≤ 2 ^ 53) :
    runAction H (View.count ⟨t⟩) s = .ok (s.heap.table t).border s := by
  have sign := Number.zero_le_ofInt (i := (s.heap.table t).border) (Int.natCast_nonneg _)
  have whole : (Number.ofInt (s.heap.table t).border).clamp 0 0xFFFFFFFFFFFFFFFF =
      (s.heap.table t).border := Number.clamp_ofInt (by omega) (by omega) (by omega)
  simp only [runAction, View.count, View.value, action_bind, bind_eq, action_lengthOf plain,
    Value.ofInt, sign, if_true, whole, Int.toNat_natCast, action_pure, pure_eq]

theorem runAction_toList (shape : Shape E.Tag) :
    runAction H (View.toList ⟨t⟩ shape) s =
      ofExcept ((s.heap.sequence t).mapM (s.decode shape)) s := by
  rw [runAction, View.toList, action_decode, read_eq]
  rfl

theorem sequence_eq (small : (s.heap.table t).array.size ≤ 2 ^ 53) :
    s.heap.sequence t = (s.heap.table t).elements (s.heap.table t).border := by
  unfold Heap.sequence Table.elements
  simp only [Table.getInt_eq small]

/-- A border ends a run of keys that hold values, and a table whose integer keys are one such run
has the length of the run by all means of asking for it. -/
theorem length_of_table (reachable : s.Reachable H) (t : TableId)
    (room : (s.heap.table t).array.size < 2 ^ 53) :
    let x := s.heap.table t
    (x.border = 0 ∨ x.get (.ofInt x.border) ≠ .nil) ∧ x.get (.ofInt (x.border + 1)) = .nil ∧
    ∀ n, x.HoldsRun n →
      x.border = n ∧
      (∀ i, s.slot i = .ok (.table t) → runAction H (Action.rawLen i) s = .ok n s) ∧
      (∀ shape, runAction H (View.toList ⟨t⟩ shape) s =
        ofExcept ((x.elements n).mapM (s.decode shape)) s) ∧
      runAction H (View.toList ⟨t⟩ .value) s = .ok (x.elements n) s ∧
      (s.heap.metafield (.table t) .len = .nil →
        runAction H (View.count ⟨t⟩) s = .ok n s ∧
        ∀ i, s.slot i = .ok (.table t) → runAction H (Action.len i) s =
          if s.stack.isFull then .error (.raised .stackOverflow) s
          else .ok () (s.mapSlots (·.push (.ofInt n)))) := by
  intro x
  have valid : x.Valid := reachable.sound.tables t
  refine ⟨?_, Table.get_after_border valid room, fun n run => ?_⟩
  · rcases Nat.eq_zero_or_pos x.border with zero | some
    · exact .inl zero
    · exact .inr (Table.get_border valid room some)
  · have border : (s.heap.table t).border = n := Table.border_of_run valid room run
    have listed : s.heap.sequence t = x.elements n := border ▸ sequence_eq (Nat.le_of_lt room)
    have small : (s.heap.table t).border ≤ 2 ^ 53 :=
      Nat.le_trans (Table.border_le_size valid room) (Nat.le_of_lt room)
    have read : ∀ shape, runAction H (View.toList ⟨t⟩ shape) s =
        ofExcept ((x.elements n).mapM (s.decode shape)) s := fun shape =>
      listed ▸ runAction_toList shape
    refine ⟨border, fun i placed => border ▸ runAction_rawLen placed, read, ?_, fun plain => ?_⟩
    · have all : (x.elements n).mapM (s.decode .value) = .ok (x.elements n) := by
        exact List.mapM_pure.trans (congrArg Except.ok (List.map_id _))
      rw [read, all]
      rfl
    · exact ⟨border ▸ runAction_count plain small, fun i placed =>
        border ▸ runAction_len placed plain⟩

/-- A table that got its second value before the first. -/
theorem length_of_table_two :
    let H := Host.running (pure 0)
    let start : State .plain := State.new .standard ()
    let x := Table.replay [.setInt 2 (.light 5), .setInt 1 (.light 4)]
    let s : State .plain := { start with heap := (start.heap.allocTable x).2 }
    s.Reachable H ∧ x.array.size < 2 ^ 53 ∧ x.HoldsRun 2 ∧
      runAction H (View.toList ⟨⟨2⟩⟩ .value) s = .ok [.light 4, .light 5] s := by
  intro H start x s
  have reachable : s.Reachable H :=
    (Reachable.new H .standard ()).changes (Change.newTable x (Table.Valid.replay _)).changes
  have first : Table.empty.setInt 1 (.light 4) = .ofArray #[.light 4] :=
    Table.setInt_ofArray (a := #[]) (by decide) rfl
  have both : x = .ofArray #[.light 4, .light 5] := by
    change (Table.empty.setInt 1 (.light 4)).setInt 2 (.light 5) = _
    rw [first]
    exact Table.setInt_ofArray (a := #[.light 4]) (by decide) rfl
  have room : x.array.size < 2 ^ 53 := both ▸ by decide
  have run : x.HoldsRun 2 :=
    both ▸ Table.holdsRun_ofArray (a := #[.light 4, .light 5]) (by decide) (by decide)
  have length := (length_of_table reachable ⟨2⟩ room).2.2 2 run
  have elements : x.elements 2 = [.light 4, .light 5] := both ▸ rfl
  exact ⟨reachable, room, run, length.2.2.2.1.trans (elements ▸ rfl)⟩

end Run
end HostBridge
