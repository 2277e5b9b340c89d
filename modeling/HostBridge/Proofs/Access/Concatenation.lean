import HostBridge.Proofs.Access.Exclusion
import HostBridge.Proofs.Call.Piles
import HostBridge.Proofs.Container.Topped
/-!
Concatenation of many values. It takes all its operands off the stack and joins them from the right.
To join them in stages, a few at a time, comes to the same: the values that wait for a later stage
lie on the stack meanwhile and not beside it, but the handlers that are called for the earlier ones find
their way by their frames, which begin above them, and what the values own is owned in either case.
-/
namespace HostBridge

namespace Value

def joined (vs : List Value) : String := String.join (vs.filterMap concatText?)

theorem concatText?_of_kind {v : Value} (text : v.kind = .string ∨ v.kind = .number) :
    v.concatText?.isSome := by
  cases v with
  | string | number => rfl
  | _ => rcases text with text | text <;> cases text

end Value

namespace Action
variable {E : Embedding}

section Lookup
variable {P : Op E → Prop} (metatable : ∀ v, P (.metatable v)) (table : ∀ t, P (.table t))
include metatable table

theorem uses_metafield (v : Value) (e : Event) :
    Prog.Uses (F := Op.effect E) P (metafield v e) := by
  apply Prog.Uses.bind (Prog.uses_op (metatable v))
  intro m
  cases m with
  | none => trivial
  | some m => exact Prog.Uses.bind (Prog.uses_op (table m)) fun _ => trivial

theorem uses_handlerOf (a b : Value) (e : Event) :
    Prog.Uses (F := Op.effect E) P (handlerOf a b e) := by
  apply Prog.Uses.bind (uses_metafield metatable table a e)
  intro h
  split
  · exact uses_metafield metatable table b e
  · trivial

end Lookup

theorem handles_concatPair (a b : Value) (waiting : List Value) :
    Prog.Uses (F := Op.effect E) Op.Handles (concatPair a b waiting) := by
  unfold concatPair
  split
  · trivial
  · apply Prog.Uses.bind (uses_handlerOf (fun _ => trivial) (fun _ => trivial) a b .concat)
    intro h
    split
    · trivial
    · exact Prog.Uses.bind (Prog.uses_op trivial) fun _ => trivial

/-- Joins values to `last`, from the right, beside the values of `waiting`. -/
def joinTo (last : Value) (waiting : List Value) : List Value → Action E Value
  | [] => return last
  | v :: vs => do concatPair v (← joinTo last (v :: waiting) vs) waiting

theorem handles_joinTo (last : Value) (waiting vs : List Value) :
    Prog.Uses (F := Op.effect E) Op.Handles (joinTo last waiting vs) := by
  induction vs generalizing waiting with
  | nil => trivial
  | cons v vs ih => exact Prog.Uses.bind (ih _) fun w => handles_concatPair v w waiting

/-- Those that are joined last wait for the others, the nearest first. -/
theorem joinTo_append (last : Value) (waiting us vs : List Value) :
    joinTo (E := E) last waiting (us ++ vs) =
      joinTo last (us.reverse ++ waiting) vs >>= fun w => joinTo w waiting us := by
  induction us generalizing waiting with
  | nil => exact (bind_pure _).symm
  | cons u us ih =>
    rw [List.reverse_cons, List.append_assoc]
    simp only [List.cons_append, joinTo, ih, bind_assoc, List.nil_append]

theorem concatValues_eq (waiting vs : List Value) (last : Value) :
    concatValues (E := E) waiting (vs ++ [last]) = joinTo last waiting vs := by
  induction vs generalizing waiting with
  | nil => rfl
  | cons v vs ih =>
    rw [joinTo, ← ih]
    cases vs <;> rfl

theorem joinTo_texts {us : List Value} {v : Value}
    (texts : ∀ u ∈ us ++ [v], u.concatText?.isSome) :
    ∃ w, (∀ waiting, joinTo (E := E) v waiting us = pure w) ∧
      w.concatText? = some (Value.joined (us ++ [v])) ∧
      (us ≠ [] → w = .string (Value.joined (us ++ [v]))) := by
  induction us with
  | nil =>
    obtain ⟨x, text⟩ := Option.isSome_iff_exists.mp (texts v List.mem_cons_self)
    refine ⟨v, fun _ => rfl, ?_, fun none => absurd rfl none⟩
    simp [Value.joined, text]
  | cons u us ih =>
    obtain ⟨w, joined, text, -⟩ := ih fun u' later => texts u' (List.mem_cons_of_mem _ later)
    obtain ⟨x, first⟩ := Option.isSome_iff_exists.mp (texts u List.mem_cons_self)
    have whole : Value.joined (u :: us ++ [v]) = x ++ Value.joined (us ++ [v]) := by
      simp [Value.joined, first]
    refine ⟨.string (x ++ Value.joined (us ++ [v])), fun waiting => ?_, congrArg some whole.symm,
      fun _ => by rw [whole]⟩
    have pair : concatPair (E := E) u w waiting = pure (.string (x ++ Value.joined (us ++ [v]))) := by
      simp only [concatPair, first, text]
    rw [joinTo, joined, ← pair]
    rfl

/-- A way to concatenate `n` values in stages, with the number of operands of each stage. A stage puts
one value in the place of its operands. -/
structure Grouping (n : Nat) (ks : List Nat) : Prop where
  positive : ∀ k ∈ ks, 1 ≤ k
  total : (ks.map (· - 1)).sum = n - 1

theorem grouping_pairs (n : Nat) : Grouping n (List.replicate (n - 1) 2) where
  positive k given := by
    rw [List.eq_of_mem_replicate given]
    decide
  total := by simp

theorem Grouping.eq_nil {us : List Value} (grouping : Grouping (us.length + 1) []) : us = [] :=
  List.length_eq_zero_iff.mp grouping.total.symm

theorem Grouping.of_cons {us : List Value} {k : Nat} {ks : List Nat}
    (grouping : Grouping (us.length + 1) (k :: ks)) :
    ∃ us' ws, us = us' ++ ws ∧ k = ws.length + 1 ∧ Grouping (us'.length + 1) ks := by
  have least := grouping.positive k List.mem_cons_self
  have total := grouping.total
  rw [List.map_cons, List.sum_cons] at total
  refine ⟨us.take (us.length - (k - 1)), us.drop (us.length - (k - 1)),
    (List.take_append_drop ..).symm, ?_, ?_, ?_⟩
  · rw [List.length_drop]
    omega
  · exact fun j later => grouping.positive j (List.mem_cons_of_mem _ later)
  · rw [List.length_take]
    omega

end Action

namespace Run
open State
variable {E : Embedding} {H : Host E} {α : Type} {s t : State E}

section Operands
variable {enter : Enter E}

theorem handlerCalls_of_none {a : Action E α}
    (none : Prog.Uses (F := Op.effect E) (fun o => Op.handed o = []) a) (s : State E) :
    handlerCalls enter H a s = [] := by
  induction a generalizing s with
  | done r => rfl
  | abort p => rfl
  | perform o next ih =>
    have here : Op.handed o = [] := none.1
    simp only [handlerCalls, here, List.nil_append]
    cases perform enter H o s with
    | ok x t => exact ih (.ok x) (none.2 _) t
    | error f t =>
      cases f with
      | raised e => exact ih (.error e) (none.2 _) t
      | panicked p => rfl

variable (enter) in
/-- The values on top of the stack are read one by one, from the deepest. -/
theorem action_operands {below : Array Value} {vs : List Value}
    (slots : s.stack.slots = below ++ vs.toArray) (framed : s.base ≤ below.size) :
    action enter H ((List.range vs.length).mapM fun i =>
      Action.value (-(vs.length - i : Nat))) s = .ok vs s := by
  induction vs generalizing below with
  | nil => rfl
  | cons v vs ih =>
    have first : s.slot (-((v :: vs).length - 0 : Nat)) = .ok v := slot_deepest slots framed
    have shifted : s.stack.slots = below.push v ++ vs.toArray := by simp [slots]
    have rest := ih shifted (by rw [Array.size_push]; exact Nat.le_succ_of_le framed)
    have later : ((List.range vs.length).map Nat.succ).mapM (fun i =>
        (Action.value (-((v :: vs).length - i : Nat)) : Action E Value)) =
          (List.range vs.length).mapM fun i => Action.value (-(vs.length - i : Nat)) := by
      rw [List.mapM_map]
      simp only [Function.comp_def, List.length_cons, Nat.succ_eq_add_one, Nat.add_sub_add_right]
    rw [List.length_cons, List.range_succ_eq_map, List.mapM_cons, action_bind, bind_eq,
      action_value, read_eq, ← List.length_cons (a := v), first]
    simp only [ofExcept_ok, pure_eq, later, action_bind, bind_eq, rest, action_pure]

variable (enter) in
theorem action_concat {below : Array Value} {vs : List Value} {last : Value}
    (slots : s.stack.slots = below ++ (vs ++ [last]).toArray) (framed : s.base ≤ below.size) :
    action enter H (Action.concat (vs.length + 1)) s =
        (action enter H (Action.joinTo last [] vs) >>= push) (s.mapSlots (·.take below.size)) ∧
      handlerCalls enter H (Action.concat (vs.length + 1)) s =
        handlerCalls enter H (Action.joinTo last [] vs) (s.mapSlots (·.take below.size)) := by
  have length : (vs ++ [last]).length = vs.length + 1 := List.length_append
  have operands := action_operands enter (H := H) slots framed
  have size : s.stack.size = below.size + (vs.length + 1) := by
    rw [Stack.size, slots]
    simp
  have top : s.top = (s.stack.size : Int) - s.base := rfl
  have held : Stack.wrapped s.top = s.stack.size - s.base := by
    rw [wrapped_of_nonneg (by omega)]
    omega
  have enough : ¬Stack.wrapped s.top < vs.length + 1 := by omega
  have within : ¬(s.top < 0 ∧ 0 < vs.length + 1) := by omega
  have cut : drop (vs.length + 1) s = .ok () (s.mapSlots (·.take below.size)) := by
    rw [drop_eq, if_neg enough, if_pos (by omega), size, Nat.add_sub_cancel]
  rw [length] at operands
  constructor
  · simp only [Action.concat, Action.joinTop, action_bind, bind_eq, action_top, if_neg enough,
      if_neg within, operands,
      action_drop, cut, Action.concatValues_eq, action_push]
  · have plain (i : Int) : Prog.Uses (F := Op.effect E) (fun o => Op.handed o = [])
        (Action.value i) := Prog.uses_op rfl
    have asked : handlerCalls enter H (Action.top : Action E Int) s = [] :=
      handlerCalls_of_none (Prog.uses_op rfl) s
    have read : handlerCalls enter H ((List.range (vs.length + 1)).mapM fun i =>
        (Action.value (-(vs.length + 1 - i : Nat)) : Action E Value)) s = [] :=
      handlerCalls_of_none (Prog.uses_mapM (fun _ => plain _) _) s
    have dropped : handlerCalls enter H (Action.drop (vs.length + 1) : Action E Unit) s = [] :=
      handlerCalls_of_none (Prog.uses_op rfl) s
    have pushed (v : Value) (t : State E) :
        handlerCalls enter H (Action.push v : Action E Unit) t = [] :=
      handlerCalls_of_none (Prog.uses_op rfl) t
    simp only [Action.concat, Action.joinTop, handlerCalls_bind, action_top, if_neg enough,
      if_neg within, operands,
      action_drop, cut, Action.concatValues_eq, asked, read, dropped, pushed, List.nil_append]
    cases action enter H (Action.joinTo last [] vs) (s.mapSlots (·.take below.size)) <;>
      exact List.append_nil _

end Operands

section Waiting
variable (H) (enter : Enter E) (waits : List Value) (s : State E)

theorem handlerOf_keeping (a b : Value) (e : Event) {f g : Value → Action E Value}
    (same : ∀ h, action enter H (f h) s = keeping waits (action enter H (g h)) s ∧
      handlerCalls enter H (f h) s = handlerCalls enter H (g h) (s.awaiting (waits ++ s.waiting))) :
    action enter H (Action.handlerOf a b e >>= f) s =
        keeping waits (action enter H (Action.handlerOf a b e >>= g)) s ∧
      handlerCalls enter H (Action.handlerOf a b e >>= f) s =
        handlerCalls enter H (Action.handlerOf a b e >>= g) (s.awaiting (waits ++ s.waiting)) := by
  have looked (t : State E) : handlerCalls enter H (Action.handlerOf a b e) t = [] :=
    handlerCalls_of_none (Action.uses_handlerOf (fun _ => rfl) (fun _ => rfl) a b e) t
  have found (f : Value → Action E Value) (t : State E) :
      action enter H (Action.handlerOf a b e >>= f) t =
          action enter H (f (t.heap.handler a b e)) t ∧
        handlerCalls enter H (Action.handlerOf a b e >>= f) t =
          handlerCalls enter H (f (t.heap.handler a b e)) t := by
    rw [action_bind, bind_eq, handlerCalls_bind, looked, action_handlerOf]
    exact ⟨rfl, rfl⟩
  obtain ⟨here, calls⟩ := found f s
  obtain ⟨there, calls'⟩ := found g (s.awaiting (waits ++ s.waiting))
  rw [here, calls, calls']
  exact ⟨(same _).1.trans (keeping_congr there.symm), (same _).2⟩

theorem concatPair_keeping (a b : Value) :
    action enter H (Action.concatPair a b waits) s =
        keeping waits (action enter H (Action.concatPair a b)) s ∧
      handlerCalls enter H (Action.concatPair a b waits) s =
        handlerCalls enter H (Action.concatPair a b) (s.awaiting (waits ++ s.waiting)) := by
  unfold Action.concatPair
  split
  · exact ⟨(keeping_pure waits _ s).symm, rfl⟩
  · refine handlerOf_keeping H enter waits s a b .concat fun h => ?_
    cases h.isNil with
    | true => exact ⟨(keeping_throw waits _ s).symm, rfl⟩
    | false =>
      have called (ws : List Value) (t : State E) :
          handlerCalls enter H (Action.callForOne h [a, b] ws) t = [(h, [a, b])] := by
        rw [Action.callForOne, handlerCalls_bind, Action.callValue, handlerCalls_op]
        split <;> rfl
      simp only [Bool.false_eq_true, if_false, called, and_true]
      rw [action_callForOne, action_callForOne, keeping_nil, keeping_map]

/-- So does joining many. By induction on the values, each of which waits for those behind it. -/
theorem joinTo_keeping (last : Value) (vs : List Value) :
    action enter H (Action.joinTo last waits vs) s =
        keeping waits (action enter H (Action.joinTo last [] vs)) s ∧
      handlerCalls enter H (Action.joinTo last waits vs) s =
        handlerCalls enter H (Action.joinTo last [] vs) (s.awaiting (waits ++ s.waiting)) := by
  induction vs generalizing waits s with
  | nil => exact ⟨(keeping_pure waits last s).symm, rfl⟩
  | cons v vs ih =>
    obtain ⟨here, calls⟩ := ih (v :: waits) s
    obtain ⟨there, calls'⟩ := ih [v] (s.awaiting (waits ++ s.waiting))
    have start : (s.awaiting (waits ++ s.waiting)).awaiting
        ([v] ++ (s.awaiting (waits ++ s.waiting)).waiting) = s.awaiting (v :: waits ++ s.waiting) := rfl
    rw [keeping_cons] at here there
    rw [start] at there calls'
    rw [Action.joinTo, Action.joinTo, handlerCalls_bind, handlerCalls_bind, calls, calls', action_bind,
      action_bind, bind_eq]
    cases ran : action enter H (Action.joinTo last [] vs) (s.awaiting (v :: waits ++ s.waiting)) with
    | ok w t =>
      simp only [ran] at here there
      obtain ⟨pair, called⟩ := concatPair_keeping H enter waits (t.awaiting s.waiting) v w
      simp only [here, there, pair, called]
      refine ⟨keeping_congr ?_, rfl⟩
      rw [bind_eq, there]
      rfl
    | error f t =>
      simp only [ran] at here there
      simp only [here, there, and_true]
      refine (keeping_throw waits f (t.awaiting s.waiting)).symm.trans (keeping_congr ?_)
      rw [bind_eq, there]
      rfl

end Waiting

section Stages
variable {d : Nat}

theorem restored_joinTo (uses : H.Uses (Op.StaysAbove True s.stack.maxDepth))
    (bounded : s.stack.size ≤ s.stack.maxDepth) (measured : s.stack.size ≤ s.peak.size)
    (v : Value) (waits ws : List Value) :
    EndsIn (Restored s) (action (enter H d) H (Action.joinTo v waits ws) s) := by
  rw [(joinTo_keeping H (enter H d) waits s v ws).1]
  exact restored_keeping uses (Action.handles_joinTo v [] ws) bounded measured waits

/-- Values that wait for a later stage matter to an earlier one no more on top of the stack than beside
it. They need room there only where there is something to join. -/
theorem joinTo_pile (uses : H.Uses (Op.StaysAbove True s.stack.maxDepth))
    (bounded : s.stack.size ≤ s.stack.maxDepth) (measured : s.stack.size ≤ s.peak.size)
    {vs : Array Value} {waits : List Value} (moved : waits.Perm vs.toList) {reached : Nat}
    (covers : s.stack.size + vs.size ≤ reached) (v : Value) (ws : List Value)
    (room : ws ≠ [] → ((action (enter H d) H (Action.joinTo v waits ws)).final s).peak.size +
      vs.size ≤ s.stack.maxDepth) :
    let t := s.holding (s.stack.slots ++ vs) { s.peak with size := reached }
    Agree (Piled vs) (Piled vs) (action (enter H d) H (Action.joinTo v waits ws) s)
        (action (enter H d) H (Action.joinTo v [] ws) t) ∧
      handlerCalls (enter H d) H (Action.joinTo v [] ws) t =
        handlerCalls (enter H d) H (Action.joinTo v waits ws) s := by
  cases ws with
  | nil => exact ⟨.ok v ⟨rfl⟩, rfl⟩
  | cons w ws =>
    obtain ⟨outcome, calls⟩ := joinTo_keeping H (enter H d) waits s v (w :: ws)
    have room := room (List.cons_ne_nil w ws)
    rw [final, outcome] at room
    rw [outcome, calls]
    exact handlers_pile uses (Action.handles_joinTo v [] _) bounded measured moved covers room

theorem joinTo_grows (uses : H.Uses (Op.StaysAbove True s.stack.maxDepth))
    (bounded : s.stack.size ≤ s.stack.maxDepth) (measured : s.stack.size ≤ s.peak.size)
    (v : Value) (us ws : List Value) :
    ((action (enter H d) H (Action.joinTo v us.reverse ws)).final s).peak.size ≤
      ((action (enter H d) H (Action.joinTo v [] (us ++ ws))).final s).peak.size := by
  have restored := restored_joinTo (d := d) uses bounded measured v us.reverse ws
  rw [Action.joinTo_append, List.append_nil, action_bind]
  simp only [final, bind_eq]
  cases ran : action (enter H d) H (Action.joinTo v us.reverse ws) s with
  | ok w s' =>
    rw [ran] at restored
    have size : s'.stack.size = s.stack.size := restored.size
    have grows := grows_handlers (s := s') (d := d) (restored.maxDepth ▸ uses)
      (Action.handles_joinTo w [] us) (by rw [size, restored.maxDepth]; exact bounded)
      (by rw [size]; exact Nat.le_trans measured restored.grows)
    exact grows
  | error f s' => exact Nat.le_refl _

/-- What becomes of a stage while the values of `us` wait: where its operands are joined on `s`, the
result is the answer; where they are joined on top of the stack, it lies there. -/
inductive Stage (us : List Value) (s : State E) :
    EStateM.Result Fault (State E) Value → EStateM.Result Fault (State E) Unit → Prop
  | ok (w : Value) {s' t' : State E} (restored : Restored s s')
      (piled : Piled (us ++ [w]).toArray s' t') : Stage us s (.ok w s') (.ok () t')
  | raised (e : Error) {s' t' : State E} (piled : Piled us.toArray s' t') :
      Stage us s (.error (.raised e) s') (.error (.raised e) t')
  | panicked (p : Panic) {s' t' : State E} :
      Stage us s (.error (.panicked p) s') (.error (.panicked p) t')

theorem stage_concat (uses : H.Uses (Op.StaysAbove True s.stack.maxDepth))
    (framed : s.base ≤ s.stack.size) (measured : s.stack.size ≤ s.peak.size)
    {us ws : List Value} {v : Value} (piled : Piled (us ++ (ws ++ [v])).toArray s t)
    (holds : s.stack.size + us.length < s.stack.maxDepth)
    (room : ws ≠ [] → ((action (enter H d) H (Action.joinTo v us.reverse ws)).final s).peak.size +
      us.length ≤ s.stack.maxDepth) :
    Stage us s (action (enter H d) H (Action.joinTo v us.reverse ws) s)
        (action (enter H d) H (Action.concat (ws.length + 1)) t) ∧
      handlerCalls (enter H d) H (Action.concat (ws.length + 1)) t =
        handlerCalls (enter H d) H (Action.joinTo v us.reverse ws) s := by
  rw [← List.append_toArray] at piled
  have bounded : s.stack.size ≤ s.stack.maxDepth := by omega
  have slots : t.stack.slots = (s.stack.slots ++ us.toArray) ++ (ws ++ [v]).toArray := by
    rw [piled.slots, Array.append_assoc]
  have size : (s.stack.slots ++ us.toArray).size = s.stack.size + us.length := Array.size_append
  have framed' : t.base ≤ (s.stack.slots ++ us.toArray).size := by
    rw [piled.base, size]
    exact Nat.le_add_right_of_le framed
  obtain ⟨outcome, calls⟩ := action_concat (enter H d) (H := H) slots framed'
  rw [piled.cut] at outcome calls
  have restored := restored_joinTo (d := d) uses bounded measured v us.reverse ws
  have covers : s.stack.size + us.toArray.size ≤
      max t.peak.size (s.stack.slots ++ us.toArray).size :=
    (Nat.le_of_eq size.symm).trans (Nat.le_max_right t.peak.size _)
  obtain ⟨joined, called⟩ := joinTo_pile (d := d) uses bounded measured
    us.reverse_perm covers v ws room
  refine ⟨?_, calls.trans called⟩
  rw [outcome, bind_eq]
  cases ran : action (enter H d) H (Action.joinTo v us.reverse ws) s with
  | ok w s' =>
    rw [ran] at joined restored
    obtain ⟨t', ran', piled'⟩ := joined.of_ok
    have room : t'.stack.size < t'.stack.maxDepth := by
      rw [piled'.maxDepth, piled'.size, restored.maxDepth, restored.size]
      exact holds
    simp only [ran', push_of_room room]
    refine .ok w restored ?_
    rw [← List.push_toArray]
    exact piled'.push w
  | error f s' =>
    rw [ran] at joined
    cases f with
    | raised e =>
      obtain ⟨t', ran', piled'⟩ := joined.of_raised
      rw [ran']
      exact .raised e piled'
    | panicked p =>
      obtain ⟨t', ran'⟩ := joined.of_panicked
      rw [ran']
      exact .panicked p

/-- By induction on the stages that are left. `us` and `v` are the operands that wait on top of `t`;
`s` is the state without them, where they are joined at once. -/
theorem stages_agree (uses : H.Uses (Op.StaysAbove True s.stack.maxDepth))
    (framed : s.base ≤ s.stack.size) (measured : s.stack.size ≤ s.peak.size) {ks : List Nat}
    {us : List Value} {v : Value} (grouping : Action.Grouping (us.length + 1) ks)
    (piled : Piled (us ++ [v]).toArray s t)
    (holds : s.stack.size + us.length < s.stack.maxDepth)
    (room : ((action (enter H d) H (Action.joinTo v [] us)).final s).peak.size +
      (us.length - 1) ≤ s.stack.maxDepth) :
    Agree (Piled #[]) (fun s t => ∃ vs, Piled vs s t)
        ((action (enter H d) H (Action.joinTo v [] us) >>= push) s)
        (action (enter H d) H (ks.forM Action.concat) t) ∧
      handlerCalls (enter H d) H (ks.forM Action.concat) t =
        handlerCalls (enter H d) H (Action.joinTo v [] us) s := by
  induction ks generalizing s t us v with
  | nil =>
    obtain rfl := grouping.eq_nil
    have pushed : (action (enter H d) H (Action.joinTo v [] []) >>= push) s =
        .ok () (s.mapSlots (·.push v)) := push_of_room holds v
    rw [pushed]
    exact ⟨.ok () piled.of_push, rfl⟩
  | cons k ks ih =>
    obtain ⟨us, ws, rfl, rfl, rest⟩ := grouping.of_cons
    rw [List.append_assoc] at piled
    rw [List.length_append] at holds room
    have grows := joinTo_grows (d := d) uses (by omega) measured v us ws
    obtain ⟨stage, calls⟩ := stage_concat (d := d) uses framed measured piled (by omega)
      fun some => by
        have positive := List.length_pos_iff.mpr some
        omega
    have forM : ((ws.length + 1) :: ks).forM (Action.concat (E := E)) =
      Action.concat (ws.length + 1) >>= fun _ => ks.forM Action.concat := rfl
    rw [Action.joinTo_append, List.append_nil, final] at room
    rw [Action.joinTo_append, List.append_nil, forM, handlerCalls_bind, handlerCalls_bind, calls]
    simp only [action_bind, bind_eq] at room ⊢
    revert stage room
    generalize action (enter H d) H (Action.joinTo v us.reverse ws) s = r
    generalize action (enter H d) H (Action.concat (ws.length + 1)) t = r'
    intro stage room
    cases stage with
    | @ok w s' t' restored piled =>
      have measured' := Nat.le_trans measured restored.grows
      change ((action (enter H d) H (Action.joinTo w [] us)).final s').peak.size + _ ≤ _ at room
      rw [← restored.size] at framed holds measured'
      rw [← restored.base] at framed
      rw [← restored.maxDepth] at uses holds room
      obtain ⟨outcome, calls⟩ := ih uses framed measured' rest piled (by omega) (by omega)
      rw [bind_eq] at outcome
      exact ⟨outcome, congrArg (_ ++ ·) calls⟩
    | raised e piled => exact ⟨.raised e ⟨_, piled⟩, rfl⟩
    | panicked p => exact ⟨.panicked p, rfl⟩

theorem concat_agree (uses : H.Uses (Op.StaysAbove True s.stack.maxDepth))
    (framed : s.base ≤ s.stack.size) (measured : s.stack.size ≤ s.peak.size)
    {us : List Value} {v : Value} (piled : Piled (us ++ [v]).toArray s t)
    (holds : s.stack.size < s.stack.maxDepth)
    (room : ((action (enter H d) H (Action.joinTo v [] us)).final s).peak.size ≤
      s.stack.maxDepth) :
    Agree (Piled #[]) (Piled #[]) ((action (enter H d) H (Action.joinTo v [] us) >>= push) s)
        (action (enter H d) H (Action.concat (us.length + 1)) t) ∧
      handlerCalls (enter H d) H (Action.concat (us.length + 1)) t =
        handlerCalls (enter H d) H (Action.joinTo v [] us) s := by
  have whole : Piled ([] ++ (us ++ [v])).toArray s t := piled
  obtain ⟨stage, calls⟩ : Stage [] s (action (enter H d) H (Action.joinTo v [] us) s) _ ∧ _ :=
    stage_concat (d := d) uses framed measured whole holds fun _ => room
  refine ⟨?_, calls⟩
  rw [bind_eq]
  revert stage
  generalize action (enter H d) H (Action.joinTo v [] us) s = r
  generalize action (enter H d) H (Action.concat (us.length + 1)) t = r'
  intro stage
  cases stage with
  | @ok w s' t' restored piled =>
    rw [← restored.size, ← restored.maxDepth] at holds
    simp only [push_of_room holds]
    exact .ok () piled.of_push
  | raised e piled => exact .raised e piled
  | panicked p => exact .panicked p

end Stages

section Texts
variable {enter : Enter E}

variable (enter) in
/-- Where joining has no effect, the values are replaced by the result. -/
theorem concat_of_pure {below : Array Value} {ws : List Value} {v w : Value}
    (slots : s.stack.slots = below ++ (ws ++ [v]).toArray) (framed : s.base ≤ below.size)
    (bounded : s.stack.size ≤ s.stack.maxDepth) (joined : Action.joinTo (E := E) v [] ws = pure w) :
    ∃ peak, action enter H (Action.concat (ws.length + 1)) s =
      .ok () (s.holding (below.push w) peak) := by
  have cut : s.stack.slots.take below.size = below := by
    rw [slots]
    simp
  have size : s.stack.size = below.size + (ws.length + 1) := by
    rw [Stack.size, slots]
    simp
  obtain ⟨low, taken⟩ := mapSlots_of_eq (f := (·.take below.size)) cut
  obtain ⟨peak, pushed⟩ := mapSlots_of_eq (s := s.holding below low) (f := (·.push w)) rfl
  have room : (s.holding below low).stack.size < (s.holding below low).stack.maxDepth := by
    change below.size < s.stack.maxDepth
    omega
  refine ⟨peak, ?_⟩
  rw [(action_concat enter (H := H) slots framed).1, taken, joined]
  exact (push_of_room room w).trans (congrArg _ pushed)

variable (enter) in
/-- Texts need no more room than they take. By induction on the stages that are left. -/
theorem stages_texts {ks : List Nat} {below : Array Value} {us : List Value} {v : Value}
    (texts : ∀ u ∈ us ++ [v], u.concatText?.isSome)
    (grouping : Action.Grouping (us.length + 1) ks)
    (slots : s.stack.slots = below ++ (us ++ [v]).toArray) (framed : s.base ≤ below.size)
    (bounded : s.stack.size ≤ s.stack.maxDepth) :
    ∃ w peak, Action.joinTo (E := E) v [] us = pure w ∧
      action enter H (ks.forM Action.concat) s = .ok () (s.holding (below.push w) peak) := by
  induction ks generalizing s us v with
  | nil =>
    obtain rfl := grouping.eq_nil
    refine ⟨v, s.peak, rfl, ?_⟩
    have same : below.push v = s.stack.slots := by simp [slots]
    rw [same]
    rfl
  | cons k ks ih =>
    obtain ⟨us, ws, rfl, rfl, rest⟩ := grouping.of_cons
    rw [List.append_assoc] at texts slots
    have last : ∀ u ∈ ws ++ [v], u.concatText?.isSome := fun u given =>
      texts u (List.mem_append_right us given)
    obtain ⟨w, joined, text, -⟩ := Action.joinTo_texts (E := E) last
    have texts' : ∀ u ∈ us ++ [w], u.concatText?.isSome := by
      intro u given
      rcases List.mem_append.mp given with given | given
      · exact texts u (List.mem_append_left _ given)
      · rw [List.mem_singleton.mp given, text]
        rfl
    rw [← List.append_toArray, ← Array.append_assoc] at slots
    have size : s.stack.size = below.size + us.length + (ws.length + 1) := by
      rw [Stack.size, slots]
      simp [Nat.add_assoc]
    have room : ((below ++ us.toArray).push w).size ≤ s.stack.maxDepth := by
      simp only [Array.size_push, Array.size_append, List.size_toArray]
      omega
    obtain ⟨peak, stage⟩ := concat_of_pure enter (H := H) slots
      (by rw [Array.size_append]; exact Nat.le_add_right_of_le framed) bounded (joined [])
    obtain ⟨x, peak, all, stages⟩ := ih (s := s.holding ((below ++ us.toArray).push w) peak)
      texts' rest (by simp [holding]) framed room
    refine ⟨x, peak, ?_, ?_⟩
    · rw [Action.joinTo_append, joined, ← all]
      rfl
    · have forM : ((ws.length + 1) :: ks).forM (Action.concat (E := E)) =
        Action.concat (ws.length + 1) >>= fun _ => ks.forM Action.concat := rfl
      rw [forM, action_bind, bind_eq, stage]
      exact stages

end Texts

def height (m : Run E α) (s : State E) : Nat :=
  (m.final (s.atPeak { s.peak with size := 0 })).peak.size

theorem final_peak_push (m : Run E Value) (s : State E) :
    (m.final s).peak.size ≤ ((m >>= push).final s).peak.size := by
  simp only [final, bind_eq]
  cases m s with
  | ok v t =>
    simp only [push_eq]
    cases t.stack.isFull with
    | true => exact Nat.le_refl _
    | false => exact Nat.le_max_left _ _
  | error f t => exact Nat.le_refl _

/-- Two runs that agree with one that knows nothing of the values on top agree with each other. -/
theorem Agree.compare {r₀ r r' : EStateM.Result Fault (State E) α}
    (first : Agree (Piled #[]) (Piled #[]) r₀ r)
    (second : Agree (Piled #[]) (fun s t => ∃ vs, Piled vs s t) r₀ r') :
    Agree (Piled #[]) (fun s t => ∃ vs, Piled vs s t) r r' := by
  cases first with
  | ok a same =>
    obtain ⟨t, rfl, same'⟩ := second.of_ok
    exact .ok a (same.compare same')
  | raised e same =>
    obtain ⟨t, rfl, vs, same'⟩ := second.of_raised
    exact .raised e ⟨vs, same.compare same'⟩
  | panicked p =>
    obtain ⟨t, rfl⟩ := second.of_panicked
    exact .panicked p

section Core
variable {below : Array Value} {vs : List Value} (slots : s.stack.slots = below ++ vs.toArray)
include slots

/-- The operands lie on top of what is below them, however high the stack has been. -/
theorem piled_of_slots :
    Piled vs.toArray (s.holding below { s.peak with size := below.size }) s where
  eq := by
    simp only [holding]
    rw [← slots]

/-- To join the operands takes no more room than to concatenate them. -/
theorem joinTo_le_height {us : List Value} {v : Value} (operands : vs = us ++ [v])
    (framed : s.base ≤ below.size) :
    ((action (enter H s.depthLeft) H (Action.joinTo v [] us)).final
        (s.holding below { s.peak with size := below.size })).peak.size ≤
      height (runAction H (Action.concat vs.length)) s := by
  have length : vs.length = us.length + 1 := by
    rw [operands]
    exact List.length_append
  have cut : s.stack.slots.take below.size = below := by
    rw [slots]
    simp
  have fresh : (s.atPeak { s.peak with size := 0 }).mapSlots (·.take below.size) =
      s.holding below { s.peak with size := below.size } := by
    simp only [mapSlots, holding, atPeak, cut, Nat.zero_max]
  rw [operands] at slots
  have outcome := (action_concat (enter H s.depthLeft) (H := H)
    (s := s.atPeak { s.peak with size := 0 }) slots framed).1
  rw [fresh] at outcome
  have final : height (runAction H (Action.concat vs.length)) s =
      ((action (enter H s.depthLeft) H (Action.joinTo v [] us) >>= push).final
        (s.holding below { s.peak with size := below.size })).peak.size := by
    rw [height, length, Run.final, Run.final, ← outcome]
    rfl
  rw [final]
  exact final_peak_push _ _

end Core

/-- Concatenation in stages, two values at a time or in any other way, calls the same handlers as
concatenation at once and comes to the same end, given room for the operands that wait; an error
leaves these on the stack. Texts are put one after another however they are grouped. -/
theorem concat_in_stages (H : Host E) {s : State E} {below : Array Value} {vs : List Value}
    (slots : s.stack.slots = below ++ vs.toArray) (framed : s.base ≤ below.size)
    (bounded : s.stack.size ≤ s.stack.maxDepth) (nonempty : vs ≠ []) :
    Action.Grouping vs.length (List.replicate (vs.length - 1) 2) ∧
    ∀ ks, Action.Grouping vs.length ks →
      (H.Uses (Op.StaysAbove True s.stack.maxDepth) →
        height (runAction H (Action.concat vs.length)) s + (vs.length - 2) ≤ s.stack.maxDepth →
        Agree (Piled #[]) (fun t t' => ∃ us, Piled us t t')
            (runAction H (Action.concat vs.length) s) (runAction H (ks.forM Action.concat) s) ∧
          handlerCalls (enter H s.depthLeft) H (ks.forM Action.concat) s =
            handlerCalls (enter H s.depthLeft) H (Action.concat vs.length) s) ∧
      (2 ≤ vs.length → (∀ v ∈ vs, v.kind = .string ∨ v.kind = .number) →
        ∃ peak, runAction H (ks.forM Action.concat) s =
          .ok () (s.holding (below.push (.string (Value.joined vs))) peak)) := by
  refine ⟨Action.grouping_pairs _, fun ks grouping => ?_⟩
  obtain ⟨us, v, rfl⟩ : ∃ us v, vs = us ++ [v] :=
    ⟨_, _, (List.dropLast_concat_getLast nonempty).symm⟩
  have length : (us ++ [v]).length = us.length + 1 := List.length_append
  rw [length] at grouping ⊢
  constructor
  · intro uses room
    -- the operands are joined on what is below them
    obtain ⟨core, core_eq⟩ : ∃ core, core = s.holding below { s.peak with size := below.size } :=
      ⟨_, rfl⟩
    have piled := piled_of_slots slots
    have height := joinTo_le_height (H := H) slots rfl framed
    rw [← core_eq] at piled height
    have framed' : core.base ≤ core.stack.size := by
      rw [core_eq]
      exact framed
    have measured : core.stack.size ≤ core.peak.size := by
      rw [core_eq]
      exact Nat.le_refl _
    have size : core.stack.size + (us.length + 1) = s.stack.size := by
      rw [piled.size]
      simp
    rw [length] at height
    rw [piled.maxDepth] at uses bounded room
    obtain ⟨once, calls⟩ := concat_agree (d := s.depthLeft) uses framed' measured piled
      (by omega) (by omega)
    obtain ⟨staged, calls'⟩ := stages_agree (d := s.depthLeft) uses framed' measured grouping
      piled (by omega) (by omega)
    exact ⟨once.compare staged, calls'.trans calls.symm⟩
  · intro two kinds
    have texts : ∀ u ∈ us ++ [v], u.concatText?.isSome := fun u given =>
      Value.concatText?_of_kind (kinds u given)
    obtain ⟨w, peak, joined, ran⟩ :=
      stages_texts (enter H s.depthLeft) (H := H) texts grouping slots framed bounded
    obtain ⟨w', joined', -, string⟩ := Action.joinTo_texts (E := E) texts
    have some : us ≠ [] := List.length_pos_iff.mp (Nat.lt_of_succ_le (Nat.le_of_succ_le_succ two))
    obtain rfl : w = w' := Except.ok.inj (Prog.done.inj (joined.symm.trans (joined' [])))
    rw [← string some]
    exact ⟨peak, ran⟩

/-! A handler at work. -/

section Handled
variable {enter : Enter E} {below : Array Value} {a b : Value} {g : FunctionId}

theorem handlerCalls_concatPair {waits : List Value} (other : a.concatText? = none ∨ b.concatText? = none)
    (handled : s.heap.handler a b .concat = .function g) :
    handlerCalls enter H (Action.concatPair a b waits) s = [(.function g, [a, b])] := by
  unfold Action.concatPair
  split
  · rename_i x y first second
    rw [first, second] at other
    rcases other with none | none <;> cases none
  · have looked : handlerCalls enter H (Action.handlerOf a b .concat) s = [] :=
      handlerCalls_of_none (Action.uses_handlerOf (fun _ => rfl) (fun _ => rfl) a b .concat) s
    rw [handlerCalls_bind, looked, action_handlerOf, handled]
    change handlerCalls enter H (Action.callForOne (.function g) [a, b] waits) s = _
    rw [Action.callForOne, handlerCalls_bind, Action.callValue, handlerCalls_op]
    split <;> rfl

variable (enter) in
/-- The topmost two go to their handler, and what it answers is joined with the others. -/
theorem concat_handled {us : List Value} (slots : s.stack.slots = below ++ (us ++ [a, b]).toArray)
    (framed : s.base ≤ below.size) (other : a.concatText? = none ∨ b.concatText? = none)
    (handled : s.heap.handler a b .concat = .function g) :
    action enter H (Action.concat (us.length + 2)) s =
        (keeping us.reverse (callValue enter (.function g) [a, b] 1) >>= fun vs =>
          action enter H (Action.joinTo (vs.getLastD .nil) [] us) >>= push)
            (s.mapSlots (·.take below.size)) ∧
      handlerCalls enter H (Action.concat (us.length + 2)) s = (.function g, [a, b]) ::
        match keeping us.reverse (callValue enter (.function g) [a, b] 1)
          (s.mapSlots (·.take below.size)) with
        | .ok vs t => handlerCalls enter H (Action.joinTo (vs.getLastD .nil) [] us) t
        | .error _ _ => [] := by
  have operands : us ++ [a, b] = (us ++ [a]) ++ [b] := by simp
  have length : us.length + 2 = (us ++ [a]).length + 1 := by simp
  have joined : Action.joinTo (E := E) b [] (us ++ [a]) =
      Action.concatPair a b us.reverse >>= fun w => Action.joinTo w [] us := by
    rw [Action.joinTo_append, List.append_nil]
    simp [Action.joinTo]
  have cut : (s.mapSlots (·.take below.size)).heap.handler a b .concat = .function g := handled
  rw [operands] at slots
  obtain ⟨outcome, calls⟩ := action_concat enter (H := H) slots framed
  rw [length, outcome, calls, joined, action_bind, bind_eq, bind_eq, handlerCalls_bind,
    action_concatPair_handled other cut, handlerCalls_concatPair other cut, bind_eq, bind_eq]
  cases keeping us.reverse (callValue enter (.function g) [a, b] 1)
    (s.mapSlots (·.take below.size)) with
  | ok vs t => exact ⟨by simp only [pure_eq, bind_eq], rfl⟩
  | error f t => exact ⟨rfl, rfl⟩

end Handled

end Run

/-- Two texts below a table whose metatable has function zero as its handler for concatenation. -/
def State.joining : State .plain :=
  { State.plain #[.string "x", .string "y", .table ⟨3⟩] with
    heap := {
      tables := #[.empty, .empty, Table.empty.setStr Event.concat.key (.function ⟨0⟩),
        { Table.empty with metatable := some ⟨2⟩ }]
      callables := #[⟨"plain", .native ()⟩] } }

theorem State.joining_handled :
    joining.heap.handler (.string "y") (.table ⟨3⟩) .concat = .function ⟨0⟩ := by
  have found : joining.heap.metafield (.table ⟨3⟩) .concat = .function ⟨0⟩ := by
    change (Table.empty.setStr Event.concat.key (.function ⟨0⟩)).getStr Event.concat.key = _
    rw [Table.Valid.empty.getStr_setStr, if_pos rfl]
  exact found

namespace Run
open State

theorem concat_in_stages_handled :
    let H := Host.running do
      Action.push (.string "z")
      return 1
    Agree (Piled #[]) (fun t t' => ∃ us, Piled us t t') (runAction H (Action.concat 3) joining)
        (runAction H ([2, 2].forM Action.concat) joining) ∧
      handlerCalls (enter H joining.depthLeft) H ([2, 2].forM Action.concat) joining =
        [(.function ⟨0⟩, [.string "y", .table ⟨3⟩])] ∧
      let s := State.plain #[.string "a", .string "b", .string "c"]
      ∃ peak, runAction H ([2, 2].forM Action.concat) s =
        .ok () (s.holding #[.string "abc"] peak) := by
  intro H
  have uses : H.Uses (Op.StaysAbove True joining.stack.maxDepth) := by
    apply Host.uses_running
    exact Prog.Uses.bind (Prog.uses_op trivial) fun _ => trivial
  have slots : joining.stack.slots =
    #[] ++ ([.string "x"] ++ [.string "y", .table ⟨3⟩] : List Value).toArray := rfl
  have once (peak : Peak) := concat_handled (enter H joining.depthLeft) (H := H)
    (s := joining.atPeak peak) slots (Nat.le_refl 0) (.inr rfl) joining_handled
  have room : height (runAction H (Action.concat 3)) joining + 1 ≤ joining.stack.maxDepth := by
    have ran (peak : Peak) : runAction H (Action.concat 3) (joining.atPeak peak) = _ :=
      (once peak).1
    rw [height, final, ran]
    decide +kernel
  have handled := concat_in_stages H slots (Nat.le_refl 0) (by decide) (by decide)
  obtain ⟨agree, calls⟩ := (handled.2 [2, 2] handled.1).1 uses room
  refine ⟨agree, calls.trans ((once joining.peak).2.trans (by decide +kernel)), ?_⟩
  intro s
  have slots : s.stack.slots =
    #[] ++ ([.string "a", .string "b", .string "c"] : List Value).toArray := rfl
  have texts := concat_in_stages H slots (Nat.le_refl 0) (by decide) (by decide)
  have joined : Value.joined [.string "a", .string "b", .string "c"] = "abc" := by decide +kernel
  have strings : ∀ v ∈ [Value.string "a", .string "b", .string "c"],
      v.kind = .string ∨ v.kind = .number := by simp [Value.kind]
  have ended := (texts.2 [2, 2] texts.1).2 (by decide) strings
  rwa [joined] at ended

/-- A handler that closes the state lets go of the operand that waits on the stack, but not of one
that was taken off it. A handler that prints the state shows the operand that waits, and one that asks
for an argument whose position wraps around is given it. -/
theorem handler_finds_waiting_operand :
    let closing := Host.running do
      Action.perform .close
      Action.push (.string "a")
      Action.push (.string "b")
      Action.push (.string "c")
      return 1
    let printing := Host.running do
      Action.push (.string (← Action.perform .describe))
      return 1
    let asking := Host.running do
      Action.push (← Action.argument 0xffffffffffffffff)
      return 1
    let once H := runAction H (Action.concat 3)
    let twice H := runAction H ([2, 2].forM Action.concat)
    height (once closing) joining + 1 ≤ joining.stack.maxDepth ∧
      ((once closing).final joining).stack.slots.back? = some (.string "xc") ∧
      ((twice closing).final joining).stack.slots.back? = some (.string "ac") ∧
      height (once printing) joining + 1 ≤ joining.stack.maxDepth ∧
      ((once printing).final joining).stack.slots.back? ≠
        ((twice printing).final joining).stack.slots.back? ∧
      height (once asking) joining + 1 ≤ joining.stack.maxDepth ∧
      ((once asking).final joining).stack.slots.back? = none ∧
      ((twice asking).final joining).stack.slots.back? = some (.string "xx") := by
  intro closing printing asking once twice
  have slots : joining.stack.slots =
    #[] ++ ([.string "x"] ++ [.string "y", .table ⟨3⟩] : List Value).toArray := rfl
  have slots' : joining.stack.slots =
    #[.string "x"] ++ ([] ++ [.string "y", .table ⟨3⟩] : List Value).toArray := rfl
  have all (H : Host .plain) (peak : Peak) : once H (joining.atPeak peak) = _ :=
    (concat_handled (enter H joining.depthLeft) (H := H) (s := joining.atPeak peak) slots (Nat.le_refl 0)
      (.inr rfl) joining_handled).1
  have same (H : Host .plain) : once H joining = _ := all H joining.peak
  have pair (H : Host .plain) :
      action (enter H joining.depthLeft) H (Action.concat 2) joining = _ :=
    (concat_handled (enter H joining.depthLeft) (H := H) slots' (Nat.zero_le 1) (.inr rfl)
      joining_handled).1
  have pairs (H : Host .plain) : twice H joining = _ :=
    (congrFun (action_bind _ H (Action.concat 2) fun _ => [2].forM Action.concat) joining).trans
      (bind_eq _ _ joining)
  refine ⟨?_, ?_, ?_, ?_, ?_, ?_, ?_, ?_⟩
  · rw [height, final, all]
    decide +kernel
  · rw [final, same]
    decide +kernel
  · rw [final, pairs, pair]
    decide +kernel
  · rw [height, final, all]
    decide +kernel
  · rw [final, final, same, pairs, pair]
    decide +kernel
  · rw [height, final, all]
    decide +kernel
  · rw [final, same]
    decide +kernel
  · rw [final, pairs, pair]
    decide +kernel

end Run
end HostBridge
