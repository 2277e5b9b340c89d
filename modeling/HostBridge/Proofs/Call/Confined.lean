import HostBridge.Proofs.Call.Outcome

namespace HostBridge
namespace Run
open State
variable {E : Embedding} {s t : State E} {func : Nat}

/-- A call panics when its callee reports more values than the stack holds above the function. -/
theorem callAt_panicked {enter : Enter E} (calm : Calm enter) {nresults : Int} {p : Panic}
    (panicked : callAt enter func nresults s = .error (.panicked p) t) :
    s.config.catchPanics = false ∨
      ∃ n v, Reports enter func s n v ∧ v.stack.size - (func + 1) < n := by
  rw [callAt_eq] at panicked
  cases found : callee func s with
  | error f u =>
    obtain ⟨-, e, rfl⟩ := callee_error found
    rw [found] at panicked
    cases panicked
  | ok f u =>
    have config : u.config = s.config := by
      rcases callee_cases func s with ⟨g, eq⟩ | ⟨g, -, eq⟩ | ⟨e, eq⟩
      · rw [eq] at found
        cases found
        rfl
      · rw [eq] at found
        cases found
        rfl
      · rw [eq] at found
        cases found
    rw [found] at panicked
    by_cases deep : u.config.maxCallDepth ≤ u.callDepth
    · simp only [if_pos deep] at panicked
      cases panicked
    · simp only [if_neg deep] at panicked
      cases ran : enter f (u.descend (func + 1)) with
      | ok n v =>
        rw [ran] at panicked
        refine .inr ⟨n, v, ⟨f, u, found, ran⟩, ?_⟩
        rcases deliver_cases f func n nresults (v.ascend u.base) with
          ⟨x, eq, -⟩ | ⟨e, x, eq⟩ | ⟨q, x, -, excess⟩
        · exact absurd (eq.symm.trans panicked) nofun
        · exact absurd (eq.symm.trans panicked) nofun
        · exact excess
      | error e v =>
        rw [ran] at panicked
        cases e with
        | raised e => cases panicked
        | panicked q =>
          cases catches : s.config.catchPanics with
          | false => exact .inl rfl
          | true => exact absurd ran (calm f _ q v ((congrArg _ config).trans catches))

/-- What the operations of `s` do to its frame. They return, or raise an error and change nothing;
those that take from the frame end at its base. -/
structure Confines (H : Host E) (s : State E) : Prop where
  top : runAction H Action.top s = .ok (s.stack.size - s.base : Nat) s
  pop : runAction H Action.pop s = .error (.raised .stackUnderflow) s ∧ s.stack.size = s.base ∨
    ∃ v, s.base < s.stack.size ∧ s.stack.slots.back? = some v ∧
      runAction H Action.pop s = .ok v (s.mapSlots (·.pop))
  drop (n : Nat) : runAction H (Action.drop n) s =
    if s.stack.size - s.base < n then .error (.raised .stackUnderflow) s
    else .ok () (s.mapSlots (·.take (s.stack.size - n)))
  setTop (index : Int) : (∃ e, runAction H (Action.setTop index) s = .error (.raised e) s) ∨
    ∃ n : Nat, s.base ≤ n ∧ (n : Int) = (if 0 ≤ index then s.base else s.stack.size + 1) + index ∧
      runAction H (Action.setTop index) s =
        .ok () (s.mapSlots fun a => a.take n ++ Array.replicate (n - a.size) .nil)
  missing (nargs nresults : Int) : ¬HasOperands s nargs →
    ∃ e, runAction H (Action.call nargs nresults) s = .error (.raised e) s ∧
      runAction H (Action.pcall nargs nresults) s = .error (.raised e) s
  call (nargs nresults : Int) : HasOperands s nargs →
    let func := functionSlot s nargs
    s.base ≤ func ∧ func < s.stack.size ∧
      ∀ p t, runAction H (Action.call nargs nresults) s = .error (.panicked p) t ∨
        runAction H (Action.pcall nargs nresults) s = .error (.panicked p) t →
          s.config.catchPanics = false ∨
            ∃ n v, Reports (enter H s.depthLeft) func s n v ∧ v.stack.size - (func + 1) < n

theorem position_backward (framed : s.base ≤ s.stack.size) {index : Int} (negative : index < 0)
    {p : Nat} (found : s.position index = .ok p) : (p : Int) = s.stack.size + index := by
  have top : s.top = (s.stack.size : Int) - s.base := rfl
  rw [position_of_framed framed, if_neg (by omega)] at found
  by_cases inside : index < 0 ∧ -index ≤ s.top
  · rw [if_pos inside] at found
    cases found
    omega
  · rw [if_neg inside] at found
    contradiction

theorem resize_cases (n : Nat) (s : State E) :
    resize n s = .error (.raised .stackOverflow) s ∨
      resize n s =
        .ok () (s.mapSlots fun a => a.take n ++ Array.replicate (n - a.size) .nil) := by
  rw [resize_eq]
  by_cases shorter : n < s.stack.size
  · have none : n - s.stack.slots.size = 0 := Nat.sub_eq_zero_of_le (Nat.le_of_lt shorter)
    rw [if_pos shorter]
    refine .inr (congrArg (EStateM.Result.ok ()) (mapSlots_congr ?_))
    rw [none, Array.replicate_zero, Array.append_empty]
  · rw [if_neg shorter]
    by_cases excess : s.stack.maxDepth < n
    · exact .inl (if_pos excess)
    · have all : s.stack.slots.take n = s.stack.slots := by
        rw [Array.take_eq_extract]
        exact Array.extract_eq_self_of_le (Nat.le_of_not_lt shorter)
      rw [if_neg excess]
      refine .inr (congrArg (EStateM.Result.ok ()) (mapSlots_congr ?_))
      rw [all]

section Confined
variable (H : Host E) (framed : s.base ≤ s.stack.size)

theorem call_panicked {nargs nresults : Int} (operands : HasOperands s nargs) {p : Panic}
    (panicked : runAction H (Action.call nargs nresults) s = .error (.panicked p) t ∨
      runAction H (Action.pcall nargs nresults) s = .error (.panicked p) t) :
    callAt (enter H s.depthLeft) (functionSlot s nargs) nresults s = .error (.panicked p) t := by
  rw [runAction_call, runAction_pcall, call_of_operands _ operands, pcall_eq,
    callPosition_of_operands operands] at panicked
  dsimp only at panicked
  cases ran : callAt (enter H s.depthLeft) (functionSlot s nargs) nresults s with
  | ok x u =>
    rw [ran] at panicked
    rcases panicked with plain | guarded
    · cases plain
    · cases guarded
  | error f u =>
    rw [ran] at panicked
    cases f with
    | panicked q =>
      rcases panicked with plain | guarded
      · cases plain
        rfl
      · cases guarded
        rfl
    | raised e =>
      -- Pushing the message of an error may fail, but without a panic.
      rcases panicked with plain | guarded
      · cases plain
      · simp only [push_eq] at guarded
        split at guarded
        · cases guarded
        · rename_i f v pushed
          split at pushed
          · cases pushed
            cases guarded
          · cases pushed

include framed

theorem confines : Confines H s where
  top := by
    have size : (s.stack.size : Int) - s.base = (s.stack.size - s.base : Nat) := by omega
    rw [runAction, action_top, State.top, size]
  pop := by
    rw [runAction, action_pop, pop_eq]
    by_cases empty : s.stack.size ≤ s.base
    · exact .inl ⟨if_pos empty, Nat.le_antisymm empty framed⟩
    · have inside : s.base < s.stack.slots.size := Nat.lt_of_not_le empty
      have top : s.stack.slots.back? = some s.stack.slots[s.stack.slots.size - 1] := by
        rw [Array.back?_eq_getElem?]
        exact Array.getElem?_eq_getElem _
      refine .inr ⟨_, inside, top, ?_⟩
      rw [if_neg empty, Stack.top?, top]
  drop n := by
    have top : s.top = (s.stack.size - s.base : Nat) := by
      unfold State.top
      omega
    rw [runAction, action_drop, drop_of_framed framed, top]
    by_cases short : s.stack.size - s.base < n
    · rw [if_pos short, if_pos (Int.ofNat_lt.mpr short)]
    · rw [if_neg short, if_neg fun both => short (Int.ofNat_lt.mp both)]
  setTop index := by
    rw [runAction, action_setTop, setTop_of_framed framed]
    by_cases forward : 0 ≤ index
    · simp only [if_pos forward]
      rcases resize_cases (s.base + index.toNat) s with overflow | resized
      · exact .inl ⟨_, overflow⟩
      · exact .inr ⟨_, Nat.le_add_right _ _, by omega, resized⟩
    · simp only [if_neg forward]
      cases found : s.position index with
      | error e => exact .inl ⟨e, rfl⟩
      | ok p =>
        have bounds := position_bounds framed found
        have back := position_backward framed (Int.not_le.mp forward) found
        rcases resize_cases (p + 1) s with overflow | resized
        · exact .inl ⟨_, overflow⟩
        · exact .inr ⟨p + 1, Nat.le_succ_of_le bounds.1, by omega, resized⟩
  missing nargs nresults absent := by
    obtain ⟨e, refused⟩ := callPosition_of_missing absent
    refine ⟨e, ?_, ?_⟩
    · rw [runAction_call, call_eq, refused]
    · rw [runAction_pcall, pcall_eq, refused]
  call nargs nresults operands := by
    obtain ⟨above, inside⟩ := functionSlot_bounds operands
    exact ⟨above, inside, fun p t panicked =>
      callAt_panicked (calm_enter H s.depthLeft) (call_panicked H operands panicked)⟩

end Confined

end Run
end HostBridge
