import HostBridge.Proofs.Call.Outcome

namespace HostBridge

namespace State
variable {E : Embedding}

def calling (s : State E) (f : ScriptFunction) (n : Nat) : State E :=
  s.mapSlots fun slots => slots.take (slots.size - n) ++ #[f.value] ++ slots.drop (slots.size - n)

end State

namespace Run
open State
variable {E : Embedding} {enter : Enter E} {H : Host E} {s : State E} {f : ScriptFunction}

theorem insertIdxIfInBounds_eq {slots : Array Value} {p : Nat} (le : p ≤ slots.size) (v : Value) :
    slots.insertIdxIfInBounds p v = slots.take p ++ #[v] ++ slots.drop p := by
  have size : (slots.take p).size = p := by
    rw [Array.take_eq_extract, Array.size_extract]
    omega
  have cut : slots.take p ++ slots.drop p = slots := by
    rw [Array.take_eq_extract, Array.drop_eq_extract, Array.extract_append_extract,
      Nat.min_eq_left (Nat.zero_le p), Nat.max_eq_right le, Array.extract_size]
  have first : (slots.drop p).insertIdxIfInBounds 0 v = #[v] ++ slots.drop p := by
    simp [Array.insertIdxIfInBounds]
  have inserted := append_insert (slots.take p) (slots.drop p) (p := 0) v
  rw [cut, size, Nat.add_zero, first] at inserted
  rw [inserted, Array.append_assoc]

theorem size_calling (n : Nat) : (s.calling f n).stack.size = s.stack.size + 1 := by
  have inside : s.stack.slots.size - n ≤ s.stack.slots.size := Nat.sub_le ..
  rw [Stack.size, calling, slots_mapSlots, ← insertIdxIfInBounds_eq inside]
  exact size_insertIdxIfInBounds inside _

/-- The push and the insertion as one change: what was pushed is taken off before it is inserted. -/
theorem mapSlots_pushed (n : Nat) :
    ((s.mapSlots (·.push f.value)).mapSlots (·.pop)).mapSlots
        (·.insertIdxIfInBounds (s.stack.size - n) f.value) = s.calling f n := by
  have inside : s.stack.size - n ≤ s.stack.slots.size := Nat.sub_le ..
  have size := size_insertIdxIfInBounds inside f.value
  have pushed : (s.stack.slots.push f.value).size = s.stack.slots.size + 1 := Array.size_push ..
  rw [mapSlots_mapSlots, mapSlots_mapSlots]
  · apply mapSlots_congr
    rw [Array.pop_push]
    exact insertIdxIfInBounds_eq inside f.value
  · rw [Array.pop_push, size, pushed]
    exact Nat.le_max_right ..
  · rw [slots_mapSlots, Array.pop_push, size]
    omega

theorem insert_pushed {n : Nat} (room : s.stack.isFull = false) (enough : n ≤ s.top) :
    insert (-(n + 1)) (s.mapSlots (·.push f.value)) = .ok () (s.calling f n) := by
  rw [← mapSlots_pushed]
  generalize pushed : s.mapSlots (·.push f.value) = u
  have below : s.stack.size < s.stack.maxDepth := Stack.free_iff.mp room
  have limit : u.stack.maxDepth = s.stack.maxDepth := pushed ▸ rfl
  have base : u.base = s.base := pushed ▸ rfl
  have size : u.stack.size = s.stack.size + 1 := pushed ▸ Array.size_push f.value
  have last : u.stack.top? = some f.value := pushed ▸ Array.back?_push
  have top : s.top = (s.stack.size : Int) - s.base := rfl
  have height : u.top = s.top + 1 := by
    rw [State.top, size, base, top]
    omega
  have position : u.position (-(n + 1)) = .ok (s.stack.size - n) := by
    rw [position_of_framed (by omega), if_neg (by omega), if_pos (by omega)]
    congr 1
    omega
  have popped : pop u = .ok f.value (u.mapSlots (·.pop)) := by
    rw [pop_eq, if_neg (by omega), last]
  have size' : (u.mapSlots (·.pop)).stack.size = u.stack.size - 1 := Array.size_pop
  have limit' : (u.mapSlots (·.pop)).stack.maxDepth = u.stack.maxDepth := rfl
  have free : (u.mapSlots (·.pop)).stack.isFull = false := Stack.free_iff.mpr (by omega)
  rw [insert_eq, position]
  simp only [popped]
  rw [if_neg (by omega), free, if_neg Bool.false_ne_true]

theorem placeBelow_eq (n : Int) :
    action enter H (f.placeBelow n) s =
      if n < 0 ∨ s.top < n then .error (.raised .stackUnderflow) s
      else if s.stack.isFull then .error (.raised .stackOverflow) s
      else .ok () (s.calling f n.toNat) := by
  rw [ScriptFunction.placeBelow, action_bind, bind_eq, action_top]
  by_cases short : n < 0 ∨ s.top < n
  · simp only [if_pos short]
    rfl
  obtain ⟨n, rfl⟩ := Int.eq_ofNat_of_zero_le (show 0 ≤ n by omega)
  simp only [if_neg short]
  rw [action_bind, action_push, bind_eq, push_eq]
  cases room : s.stack.isFull with
  | true => rfl
  | false =>
    simp only [Bool.false_eq_true, if_false]
    rw [action_insert]
    exact insert_pushed room (by omega)

/-- An invocation is the call of a function that stands under its arguments. Without the arguments or
without room for the function it fails, and nothing has changed. -/
theorem invocation_as_call (enter : Enter E) (H : Host E) (s : State E) (f : ScriptFunction)
    (n k : Int) :
    (action enter H (f.invoke n k) s =
      if n < 0 ∨ s.top < n then .error (.raised .stackUnderflow) s
      else if s.stack.isFull then .error (.raised .stackOverflow) s
      else action enter H (Action.call n k) (s.calling f n.toNat)) ∧
    action enter H (f.invokeProtected n k) s =
      if n < 0 ∨ s.top < n then .error (.raised .stackUnderflow) s
      else if s.stack.isFull then .error (.raised .stackOverflow) s
      else action enter H (Action.pcall n k) (s.calling f n.toNat) := by
  rw [ScriptFunction.invoke, ScriptFunction.invokeProtected, action_bind, action_bind, bind_eq,
    bind_eq, placeBelow_eq]
  by_cases short : n < 0 ∨ s.top < n
  · simp only [if_pos short, and_self]
  simp only [if_neg short]
  cases s.stack.isFull <;> exact ⟨rfl, rfl⟩

end Run
end HostBridge
