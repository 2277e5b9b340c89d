import HostBridge.Proofs.Access.Reading
import HostBridge.Proofs.Call.Invocation
import HostBridge.Proofs.Call.Operands
/-!
What is asked of a frame with an index, a count or operands, and frames too small for it. An index
that names no slot and operands that are not there are found out before anything else happens, so
that the operation fails with the state as it was; `setTable` and `rawSet` alone take the value
before they miss the key.
-/
namespace HostBridge

/-- What a host asks of a frame with an index, a count or operands on it. -/
inductive FrameRequest (E : Embedding) where
  | setTop (index : Int)
  | absolute (index : Int)
  | kind (index : Int)
  | value (index : Int)
  | read (shape : Shape E.Tag) (index : Int)
  | drop (n : Nat)
  | pop
  | pushCopy (index : Int)
  | insert (index : Int)
  | remove (index : Int)
  | replace (index : Int)
  | tableAt (index : Int)
  | rawGet (index : Int)
  | rawSet (index : Int)
  | rawGetIndex (index n : Int)
  | rawSetIndex (index n : Int)
  | next (index : Int)
  | setNamedMetatable (index : Int) (name : String)
  | setMetatable (index : Int)
  | getMetatable (index : Int)
  | rawEqual (left right : Int)
  | rawLen (index : Int)
  | call (nargs nresults : Int)
  | pcall (nargs nresults : Int)
  | invoke (f : ScriptFunction) (nargs nresults : Int)
  | invokeProtected (f : ScriptFunction) (nargs nresults : Int)
  | handled (o : FrameOp)

namespace FrameRequest
variable {E : Embedding}

@[reducible] def Answer : FrameRequest E → Type
  | absolute _ => Int
  | kind _ | rawGet _ | rawGetIndex .. => Kind
  | value _ | pop => Value
  | read shape _ => shape.Carrier E
  | tableAt _ => TableId
  | next _ | getMetatable _ | rawEqual .. => Bool
  | rawLen _ => Nat
  | pcall .. | invokeProtected .. => CallStatus
  | handled o => o.Answer
  | _ => Unit

def action : (r : FrameRequest E) → Action E r.Answer
  | setTop i => Action.setTop i
  | absolute i => Action.absolute i
  | kind i => Action.kind i
  | value i => Action.value i
  | read shape i => Action.readAs shape i
  | drop n => Action.drop n
  | pop => Action.pop
  | pushCopy i => Action.pushCopy i
  | insert i => Action.insert i
  | remove i => Action.remove i
  | replace i => Action.replace i
  | tableAt i => Action.tableAt i
  | rawGet i => Action.rawGet i
  | rawSet i => Action.rawSet i
  | rawGetIndex i n => Action.rawGetIndex i n
  | rawSetIndex i n => Action.rawSetIndex i n
  | next i => Action.next i
  | setNamedMetatable i name => Action.setNamedMetatable i name
  | setMetatable i => Action.setMetatable i
  | getMetatable i => Action.getMetatable i
  | rawEqual i j => Action.rawEqual i j
  | rawLen i => Action.rawLen i
  | call n k => Action.call n k
  | pcall n k => Action.pcall n k
  | invoke f n k => f.invoke n k
  | invokeProtected f n k => f.invokeProtected n k
  | handled o => o.action

/-- The slots that are asked for, in the order in which they are looked at. -/
def slots : FrameRequest E → List Int
  | setTop i => if i < 0 then [i] else []
  | absolute i | kind i | value i | read _ i | pushCopy i | insert i | remove i | replace i => [i]
  | tableAt i | rawGet i | rawSet i | rawGetIndex i _ | rawSetIndex i _ | next i | rawLen i => [i]
  | setNamedMetatable i _ | setMetatable i | getMetatable i => [i]
  | rawEqual i j => [i, j]
  | handled o => o.slots
  | _ => []

def operands : FrameRequest E → Int
  | drop n => n
  | pop | insert _ | replace _ | rawGet _ | rawSetIndex .. | next _ | setMetatable _ => 1
  | rawSet _ => 2
  | call n _ | pcall n _ => n + 1
  | invoke _ n _ | invokeProtected _ n _ => n
  | handled o => o.popped
  | _ => 0

def refused? : FrameRequest E → Option Error
  | call n _ | pcall n _ => if n < 0 then some (.invalidIndex n) else none
  | invoke _ n _ | invokeProtected _ n _ => if n < 0 then some .stackUnderflow else none
  | _ => none

def tableSlot? : FrameRequest E → Option Int
  | tableAt i | rawGet i | rawSet i | rawGetIndex i _ | rawSetIndex i _ | next i => some i
  | _ => none

def TakesValueFirst : FrameRequest E → Prop
  | rawSet _ | handled (.setTable _) => True
  | _ => False

instance (r : FrameRequest E) : Decidable r.TakesValueFirst := by
  unfold TakesValueFirst
  split <;> infer_instance

end FrameRequest

namespace State
variable {E : Embedding}

def Addresses (s : State E) (index : Int) : Prop := index ≠ 0 ∧ index.natAbs ≤ s.top

instance (s : State E) (index : Int) : Decidable (s.Addresses index) :=
  inferInstanceAs (Decidable (_ ∧ _))

def holdsTable (s : State E) : Option Int → Bool
  | some i => match s.slot i with
    | .ok (.table _) => true
    | _ => false
  | none => true

/-- What the request lacks in the frame: a slot, or else operands. Where another kind of value is in
the place of a table, that is found out before operands are missed. -/
def shortage? (s : State E) (r : FrameRequest E) : Option Error :=
  match r.refused? with
  | some e => some e
  | none =>
    match r.slots.find? fun i => ¬s.Addresses i with
    | some i => some (.invalidIndex i)
    | none => if s.top < r.operands ∧ s.holdsTable r.tableSlot? then some .stackUnderflow else none

end State

namespace Run
open State
variable {E : Embedding} {α β : Type} {enter : Enter E} {H : Host E} {s : State E}

theorem position_of_addresses {i : Int} (addressed : s.Addresses i) :
    ∃ p, s.position i = .ok p ∧ p < s.stack.size := by
  have top : s.top = (s.stack.size : Int) - s.base := rfl
  obtain ⟨other, inside⟩ := addressed
  rw [position_of_framed (by omega)]
  split
  · exact ⟨_, if_pos (by omega), by omega⟩
  · exact ⟨_, if_pos (by omega), by omega⟩

theorem slot_of_addresses {i : Int} (addressed : s.Addresses i) : ∃ v, s.slot i = .ok v := by
  obtain ⟨p, position, inside⟩ := position_of_addresses addressed
  refine ⟨s.stack.slots[p], ?_⟩
  rw [slot, position]
  change s.stack.get p = _
  rw [Stack.get, Array.getElem?_eq_getElem inside]

theorem popped_of_top (one : 1 ≤ s.top) : ∃ v, pop s = .ok v (s.mapSlots (·.pop)) := by
  have top : s.top = (s.stack.size : Int) - s.base := rfl
  obtain ⟨v, last⟩ := top?_isSome (s := s) (by omega)
  refine ⟨v, ?_⟩
  rw [pop_eq, if_neg (by omega), last]

section Missing
variable (framed : s.base ≤ s.stack.size)
include framed

theorem position_of_not_addresses {i : Int} (missing : ¬s.Addresses i) :
    s.position i = .error (.invalidIndex i) := by
  have top : s.top = (s.stack.size : Int) - s.base := rfl
  unfold Addresses at missing
  rw [position_of_framed framed]
  split
  · rw [if_neg (by omega)]
  · rw [if_neg (by omega)]

theorem slot_of_not_addresses {i : Int} (missing : ¬s.Addresses i) :
    s.slot i = .error (.invalidIndex i) := by
  rw [slot, position_of_not_addresses framed missing]
  rfl

theorem value_missing {i : Int} (missing : ¬s.Addresses i) (f : Value → Action E β) :
    action enter H (Action.value i >>= f) s = .error (.raised (.invalidIndex i)) s := by
  simp only [action_bind, action_value, bind_eq, read_eq, slot_of_not_addresses framed missing]
  rfl

theorem tableAt_missing {i : Int} (missing : ¬s.Addresses i) (f : TableId → Action E β) :
    action enter H (Action.tableAt i >>= f) s = .error (.raised (.invalidIndex i)) s := by
  rw [action_bind, bind_eq, Action.tableAt, value_missing framed missing]

theorem pop_missing (empty : s.top < 1) (f : Value → Action E β) :
    action enter H (Action.pop >>= f) s = .error (.raised .stackUnderflow) s := by
  have top : s.top = (s.stack.size : Int) - s.base := rfl
  simp only [action_bind, action_pop, bind_eq, pop_eq]
  rw [if_pos (by omega)]

theorem values_missing {j k i : Int} (missed : ([j, k].find? fun i => ¬s.Addresses i) = some i)
    (f : Value → Value → Action E β) :
    action enter H (do let a ← Action.value j; let b ← Action.value k; f a b) s =
      .error (.raised (.invalidIndex i)) s := by
  by_cases first : s.Addresses j
  · obtain ⟨v, held⟩ := slot_of_addresses first
    rw [List.find?_cons_of_neg (by simpa using first)] at missed
    have missing : ¬s.Addresses i := by simpa using List.find?_some missed
    cases List.mem_singleton.mp (List.mem_of_find?_eq_some missed)
    rw [action_bind, bind_eq, action_value, read_eq, held]
    exact value_missing framed missing _
  · rw [List.find?_cons_of_pos (by simpa using first)] at missed
    cases missed
    exact value_missing framed first _

theorem fails_for_slot {r : FrameRequest E} {i : Int}
    (missed : (r.slots.find? fun i => ¬s.Addresses i) = some i) :
    action enter H r.action s = .error (.raised (.invalidIndex i)) s := by
  have missing : ¬s.Addresses i := by simpa using List.find?_some missed
  have listed := List.mem_of_find?_eq_some missed
  have position := position_of_not_addresses framed missing
  cases r with
  | setTop j =>
    have negative : j < 0 := by
      by_contra forward
      rw [FrameRequest.slots, if_neg forward] at listed
      cases listed
    rw [FrameRequest.slots, if_pos negative] at listed
    cases List.mem_singleton.mp listed
    rw [FrameRequest.action, action_setTop, setTop_eq, if_neg (Int.not_le.mpr negative), position]
  | value j =>
    cases List.mem_singleton.mp listed
    rw [FrameRequest.action, action_value, read_eq, slot_of_not_addresses framed missing]
    rfl
  | absolute j =>
    cases List.mem_singleton.mp listed
    rw [FrameRequest.action, action_absolute, read_eq, State.absolute, position]
    rfl
  | insert j =>
    cases List.mem_singleton.mp listed
    rw [FrameRequest.action, action_insert, insert_eq, position]
  | remove j =>
    cases List.mem_singleton.mp listed
    rw [FrameRequest.action, action_remove, remove_eq, position]
  | replace j =>
    cases List.mem_singleton.mp listed
    rw [FrameRequest.action, action_replace, replace_eq, position]
  | kind j | read _ j | pushCopy j | tableAt j | setNamedMetatable j _ | setMetatable j
  | getMetatable j | rawLen j =>
    cases List.mem_singleton.mp listed
    exact value_missing framed missing _
  | rawGet j | rawSet j | rawGetIndex j _ | rawSetIndex j _ | next j =>
    cases List.mem_singleton.mp listed
    exact tableAt_missing framed missing _
  | rawEqual j k => exact values_missing framed missed _
  | handled o =>
    cases o with
    | compare j k op => exact values_missing framed missed _
    | getField j _ | getIndex j _ | getTable j | setField j _ | setIndex j _ | setTable j | len j
    | toText j =>
      cases List.mem_singleton.mp listed
      exact value_missing framed missing _
    | _ => cases listed
  | _ => cases listed

omit framed in
theorem fails_at_call {n : Int} {e : Error} (failed : callPosition n s = .error (.raised e) s)
    (k : Int) :
    action enter H (Action.call n k) s = .error (.raised e) s ∧
      action enter H (Action.pcall n k) s = .error (.raised e) s := by
  constructor
  · rw [action_call, call_eq, failed]
  · rw [action_pcall, pcall_eq, failed]

omit framed in
theorem fails_at_invoke {n : Int} (short : n < 0 ∨ s.top < n) (f : ScriptFunction) (k : Int) :
    action enter H (f.invoke n k) s = .error (.raised .stackUnderflow) s ∧
      action enter H (f.invokeProtected n k) s = .error (.raised .stackUnderflow) s := by
  have placed : action enter H (f.placeBelow n) s = .error (.raised .stackUnderflow) s := by
    rw [placeBelow_eq, if_pos short]
  constructor
  · rw [ScriptFunction.invoke, action_bind, bind_eq, placed]
  · rw [ScriptFunction.invokeProtected, action_bind, bind_eq, placed]

omit framed in
theorem fails_for_count {r : FrameRequest E} {e : Error} (refused : r.refused? = some e) :
    action enter H r.action s = .error (.raised e) s := by
  have negative {n : Int} {e' : Error} (chosen : (if n < 0 then some e' else none) = some e) :
      n < 0 ∧ e' = e := by
    by_cases below : n < 0
    · rw [if_pos below] at chosen
      exact ⟨below, Option.some.inj chosen⟩
    · rw [if_neg below] at chosen
      cases chosen
  cases r with
  | call n k =>
    obtain ⟨below, rfl⟩ := negative refused
    exact (fails_at_call (by rw [callPosition_eq, if_pos below]) k).1
  | pcall n k =>
    obtain ⟨below, rfl⟩ := negative refused
    exact (fails_at_call (by rw [callPosition_eq, if_pos below]) k).2
  | invoke f n k =>
    obtain ⟨below, rfl⟩ := negative refused
    exact (fails_at_invoke (.inl below) f k).1
  | invokeProtected f n k =>
    obtain ⟨below, rfl⟩ := negative refused
    exact (fails_at_invoke (.inl below) f k).2
  | _ => cases refused

omit framed in
theorem fails_between (one : s.top = 1) (f : Value → Value → Action E β) :
    action enter H (do let v ← Action.pop; let key ← Action.pop; f v key) s =
      .error (.raised .stackUnderflow) (s.mapSlots (·.pop)) := by
  have top : s.top = (s.stack.size : Int) - s.base := rfl
  have size : (s.mapSlots (·.pop)).stack.size = s.stack.size - 1 := Array.size_pop
  obtain ⟨v, popped⟩ := popped_of_top (s := s) (by omega)
  rw [action_bind, bind_eq, action_pop, popped]
  refine pop_missing ?_ ?_ _
  · change s.base ≤ _
    omega
  · change ((s.mapSlots (·.pop)).stack.size : Int) - s.base < 1
    omega

theorem fails_for_operands {r : FrameRequest E} (accepted : r.refused? = none)
    (found : (r.slots.find? fun i => ¬s.Addresses i) = none) (short : s.top < r.operands)
    (table : s.holdsTable r.tableSlot? = true) :
    action enter H r.action s = .error (.raised .stackUnderflow)
      (if r.TakesValueFirst then s.mapSlots (·.pop) else s) := by
  have top : s.top = (s.stack.size : Int) - s.base := rfl
  have addressed : ∀ i ∈ r.slots, s.Addresses i := fun i listed => by
    simpa using List.find?_eq_none.mp found i listed
  have height := action_top enter H s
  -- A slot that is there is an operand, and an operation that takes one value takes that one.
  have enough : ∀ i ∈ r.slots, ¬s.top < 1 := fun i listed => by
    obtain ⟨other, inside⟩ := addressed i listed
    omega
  have positive {n : Int} {e : Error} (accepted : (if n < 0 then some e else none) = none) :
      ¬n < 0 := fun below => by
    rw [if_pos below] at accepted
    cases accepted
  have position {n : Int} (positive : ¬n < 0) (short : s.top < n + 1) :
      callPosition n s = .error (.raised .stackUnderflow) s := by
    rw [callPosition_eq, if_neg positive, if_pos (by omega)]
  cases r with
  | drop n =>
    simp only [FrameRequest.operands] at short
    rw [FrameRequest.action, action_drop, drop_of_framed framed, if_pos short]
    rfl
  | pop =>
    simp only [FrameRequest.operands] at short
    rw [FrameRequest.action, action_pop, pop_eq, if_pos (by omega)]
    rfl
  | rawSet i =>
    have some := enough i (List.mem_singleton_self i)
    simp only [FrameRequest.operands] at short
    obtain ⟨t, held⟩ : ∃ t, s.slot i = .ok (.table t) := by
      unfold holdsTable FrameRequest.tableSlot? at table
      simp only at table
      split at table
      · exact ⟨_, ‹_›⟩
      · contradiction
    refine (congrFun (action_bind enter H (Action.tableAt i) _) s).trans ?_
    rw [bind_eq, action_tableAt held]
    exact fails_between (by omega) _
  | call n k => exact (fails_at_call (position (positive accepted) short) k).1
  | pcall n k => exact (fails_at_call (position (positive accepted) short) k).2
  | invoke f n k => exact (fails_at_invoke (.inr short) f k).1
  | invokeProtected f n k => exact (fails_at_invoke (.inr short) f k).2
  | insert i | replace i | rawGet i | rawSetIndex i _ | next i | setMetatable i =>
    exact absurd short (enough i (List.mem_singleton_self i))
  | handled o =>
    cases o with
    | getTable i | setField i _ | setIndex i _ =>
      exact absurd short (enough i (List.mem_singleton_self i))
    | setGlobal name => exact pop_missing framed short _
    | setTable i =>
      have listed : i ∈ (FrameRequest.handled (E := E) (.setTable i)).slots :=
        List.mem_singleton_self i
      have some := enough i listed
      simp only [FrameRequest.operands, FrameOp.popped] at short
      obtain ⟨v, held⟩ := slot_of_addresses (addressed i listed)
      refine (congrFun (action_bind enter H (Action.value i) _) s).trans ?_
      rw [bind_eq, action_value, read_eq, held]
      exact fails_between (by omega) _
    | arith op =>
      refine (congrArg (fun a => action enter H a s) (Action.arith.eq_1 op)).trans ?_
      cases unary : op.isUnary with
      | true =>
        simp only [FrameRequest.operands, FrameOp.popped, unary, if_true] at short ⊢
        exact pop_missing framed short _
      | false =>
        simp only [FrameRequest.operands, FrameOp.popped, unary, Bool.false_eq_true,
          if_false] at short ⊢
        rw [action_bind, bind_eq, height]
        simp only [if_pos (show s.top < 2 from short)]
        rfl
    | concat n =>
      simp only [FrameRequest.operands, FrameOp.popped] at short
      exact action_concat_of_short framed short
    | _ =>
      simp only [FrameRequest.operands, FrameOp.popped] at short
      omega
  | _ =>
    simp only [FrameRequest.operands] at short
    omega

end Missing

theorem fails_of_shortage (framed : s.base ≤ s.stack.size) {r : FrameRequest E} {e : Error}
    (short : s.shortage? r = some e) :
    action enter H r.action s = .error (.raised e)
      (if r.TakesValueFirst ∧ e = .stackUnderflow then s.mapSlots (·.pop) else s) := by
  unfold shortage? at short
  cases refused : r.refused? with
  | some e' =>
    rw [refused] at short
    cases short
    rw [if_neg]
    · exact fails_for_count refused
    · rintro ⟨first, -⟩
      cases r with
      | call _ _ | pcall _ _ | invoke _ _ _ | invokeProtected _ _ _ => exact first
      | _ => cases refused
  | none =>
    rw [refused] at short
    simp only at short
    cases missed : r.slots.find? fun i => ¬s.Addresses i with
    | some i =>
      rw [missed] at short
      cases short
      rw [if_neg fun both => Error.noConfusion both.2]
      exact fails_for_slot framed missed
    | none =>
      rw [missed] at short
      simp only at short
      split at short
      · cases short
        obtain ⟨few, table⟩ := ‹_ ∧ _›
        rw [fails_for_operands framed refused missed few table]
        simp only [and_true]
      · cases short

end Run
end HostBridge
