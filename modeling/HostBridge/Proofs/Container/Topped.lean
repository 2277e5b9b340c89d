import HostBridge.Proofs.Access.Overflow
import HostBridge.Proofs.Call.Restoring
import HostBridge.Proofs.Call.Unwinding

namespace HostBridge
namespace State
variable {E : Embedding} {H : Host E} {α : Type} {s t u : State E} {vs ws : List Value}

/-- `t` has the frame of `s` with `vs` on top. -/
structure Topped (s : State E) (vs : List Value) (t : State E) : Prop where
  slots : t.stack.slots = s.stack.slots ++ vs.toArray
  base : t.base = s.base

def atPeak (s : State E) (peak : Peak) : State E := { s with peak := peak }

theorem Topped.refl (s : State E) : s.Topped [] s := ⟨by simp, rfl⟩

theorem Topped.trans (first : s.Topped vs t) (second : t.Topped ws u) : s.Topped (vs ++ ws) u where
  slots := by simp [second.slots, first.slots]
  base := second.base.trans first.base

theorem Topped.atPeak (topped : s.Topped vs t) (peak : Peak) : s.Topped vs (t.atPeak peak) :=
  ⟨topped.slots, topped.base⟩

theorem Topped.size (topped : s.Topped vs t) : t.stack.size = s.stack.size + vs.length := by
  rw [Stack.size, topped.slots]
  simp [Stack.size]

theorem Topped.top_eq (topped : s.Topped vs t) : t.top = s.top + vs.length := by
  simp only [State.top, topped.size, topped.base]
  omega

theorem Topped.isFull (topped : s.Topped vs t) :
    t.stack.isFull = decide (t.stack.maxDepth ≤ s.stack.size + vs.length) :=
  congrArg (fun n => decide (t.stack.maxDepth ≤ n)) topped.size

theorem Topped.framed (topped : s.Topped vs t) (framed : s.base ≤ s.stack.size) :
    t.base ≤ t.stack.size := by
  rw [topped.base, topped.size]
  exact Nat.le_add_right_of_le framed

theorem Topped.push (topped : s.Topped vs t) (v : Value) :
    s.Topped (vs ++ [v]) (t.mapSlots (·.push v)) where
  slots := by simp [topped.slots]
  base := topped.base

theorem Topped.pop (vs : List Value) {v : Value} (topped : s.Topped (vs ++ [v]) t) :
    s.Topped vs (t.mapSlots (·.pop)) where
  slots := by simp [topped.slots]
  base := topped.base

theorem Topped.cut (topped : s.Topped vs t) :
    s.Topped [] (t.mapSlots (·.take s.stack.size)) where
  slots := by simp [topped.slots, Stack.size]
  base := topped.base

theorem Topped.push_eq (topped : s.Topped vs t) (v : Value) : ∃ peak,
    t.mapSlots (·.push v) = t.holding (s.stack.slots ++ (vs ++ [v]).toArray) peak :=
  Run.mapSlots_of_eq (f := (·.push v)) (topped.push v).slots

theorem Topped.cut_eq (topped : s.Topped vs t) : ∃ peak,
    t.mapSlots (·.take s.stack.size) = t.holding s.stack.slots peak :=
  Run.mapSlots_of_eq (f := (·.take s.stack.size)) (topped.cut.slots.trans Array.append_empty)

theorem Topped.last (vs : List Value) {v : Value} (topped : s.Topped (vs ++ [v]) t) :
    t.stack.top? = some v := by
  simp [Stack.top?, topped.slots]

theorem Topped.slot_first {v : Value} (topped : s.Topped (v :: vs) t)
    (framed : s.base ≤ s.stack.size) : t.slot (s.top + 1) = .ok v := by
  have top : s.top = (s.stack.size : Int) - s.base := rfl
  have size := topped.size
  rw [List.length_cons] at size
  have position : t.position (s.top + 1) = .ok s.stack.size := by
    have here : t.base + (s.top + 1).toNat - 1 = s.stack.size := by
      rw [topped.base]
      omega
    rw [State.position, if_pos (by omega)]
    simp only [here]
    rw [if_pos (by omega)]
  rw [slot, position]
  change t.stack.get s.stack.size = _
  simp [Stack.get, topped.slots, Stack.size]

theorem Topped.slots_pair (vs : List Value) {k v : Value} (topped : s.Topped (vs ++ [k, v]) t)
    (framed : s.base ≤ s.stack.size) : t.slot (-2) = .ok k ∧ t.slot (-1) = .ok v := by
  have low : t.base ≤ (s.stack.slots ++ vs.toArray).size := by
    rw [topped.base, Array.size_append]
    exact Nat.le_add_right_of_le framed
  have pair : t.stack.slots = s.stack.slots ++ vs.toArray ++ [k, v].toArray := by
    simp [topped.slots]
  have top : t.stack.slots = (s.stack.slots ++ vs.toArray).push k ++ [v].toArray := by
    simp [topped.slots]
  constructor
  · exact slot_deepest pair low
  · apply slot_deepest top
    rw [Array.size_push]
    exact Nat.le_succ_of_le low

theorem Topped.sameStack (topped : s.Topped [] t) (maxDepth : t.stack.maxDepth = s.stack.maxDepth)
    (callDepth : t.callDepth = s.callDepth) : s.SameStack t where
  stack := by
    have slots : t.stack.slots = s.stack.slots := by simp [topped.slots]
    cases stack : s.stack
    cases stack' : t.stack
    simp_all only
  base := topped.base
  callDepth := callDepth

end State

namespace Run
open State
variable {E : Embedding} {H : Host E} {enter : Enter E} {s t : State E} {vs : List Value}

theorem setTop_topped (framed : s.base ≤ s.stack.size) {v : Value} (topped : s.Topped (v :: vs) t) :
    setTop s.top t = .ok () (t.mapSlots (·.take s.stack.size)) := by
  apply setTop_cut framed topped.base
  rw [topped.size]
  exact Nat.lt_add_of_pos_right (Nat.succ_pos vs.length)

theorem drop_topped (framed : s.base ≤ s.stack.size) (topped : s.Topped vs t) :
    drop vs.length t = .ok () (t.mapSlots (·.take s.stack.size)) := by
  have top : t.top = (t.stack.size : Int) - t.base := rfl
  have size := topped.size
  have base := topped.base
  rw [drop_of_framed (by omega), if_neg (by omega), size, Nat.add_sub_cancel]

theorem drop_one (inside : s.base < s.stack.size) : drop 1 s = .ok () (s.mapSlots (·.pop)) := by
  have top : s.top = (s.stack.size : Int) - s.base := rfl
  rw [drop_of_framed (by omega), if_neg (by omega)]
  congr 1
  apply mapSlots_congr
  apply Array.toList_inj.mp
  simp [List.dropLast_eq_take, Stack.size]

theorem pushPair_eq {α : Type} (room : s.stack.isFull = false) (k v : Value) (a : α) :
    (push k >>= fun _ => push v >>= fun _ => pure a) s =
      if (s.mapSlots (·.push k)).stack.isFull then
        .error (.raised .stackOverflow) (s.mapSlots (·.push k))
      else .ok a ((s.mapSlots (·.push k)).mapSlots (·.push v)) := by
  simp only [bind_eq, push_eq, room, Bool.false_eq_true, if_false]
  cases (s.mapSlots (·.push k)).stack.isFull <;> rfl

/-- `next` takes the key on top of the frame and leaves the next pair, for which there may be too
little room. -/
theorem next_topped (framed : s.base ≤ s.stack.size) {x : TableId} {key : Value}
    (topped : s.Topped [.table x, key] t) :
    action enter H (Action.next (s.top + 1)) t =
      match (t.heap.table x).next key with
      | .error e => .error (.raised e) (t.mapSlots (·.pop))
      | .ok none => .ok false (t.mapSlots (·.pop))
      | .ok (some (k, v)) =>
        (push k >>= fun _ => push v >>= fun _ => pure true) (t.mapSlots (·.pop)) := by
  have inside : t.base < t.stack.size := by
    rw [topped.base, topped.size]
    exact Nat.lt_of_le_of_lt framed (Nat.lt_add_of_pos_right (Nat.succ_pos _))
  exact action_next (topped.slot_first framed) inside (Topped.last [.table x] topped)

end Run
end HostBridge
