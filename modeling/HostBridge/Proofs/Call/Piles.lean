import HostBridge.Proofs.Call.Handlers
import HostBridge.Proofs.Call.Lifting
import HostBridge.Proofs.Call.Closure
/-!
Handlers on piles of values. An operator on values looks up handlers and calls them on top of the
stack, whatever lies there. So it comes to the same with more values on top of the stack, as long as
there is room for them: it calls the same handlers and gives the same outcome, and these values stay
where they are.
-/
namespace HostBridge

/-- What operators on values do: look up handlers and call them. -/
def Op.Handles {E : Embedding} : Op E → Prop
  | .metatable _ | .table _ | .callValue .. => True
  | _ => False

theorem Op.Handles.staysAbove {E : Embedding} {limit : Nat} {o : Op E} (handles : o.Handles) :
    o.StaysAbove True limit := by
  cases o with
  | metatable | table | callValue => trivial
  | _ => exact handles.elim

/-- The value that an operation calls a handler by, and the arguments. -/
def Op.handed {E : Embedding} : Op E → List (Value × List Value)
  | .callValue f args _ _ => [(f, args)]
  | _ => []

namespace State
variable {E : Embedding}

/-- `s` with nothing on its stack, and with as much room as there is above the stack of `s`. What was
there waits. -/
def emptied (s : State E) : State E :=
  { s with
    stack := { maxDepth := s.stack.maxDepth - s.stack.size }
    base := 0
    peak := { s.peak with size := 0 }
    waiting := s.stack.slots.toList ++ s.waiting }

section Footing
variable {s : State E} {vs : Array Value} {still : List Value}
  (split : s.waiting.Perm (vs.toList ++ still)) (reached : Nat)

/-- The stack of `s` with `vs` on top, of which at most `reached` slots have been in use. Of what waits
in `s`, `vs` lies there now, and the rest waits still. -/
def footing : Footing where
  values := s.stack.slots ++ vs
  reached := reached
  extra := s.stack.size
  extra_le := by
    rw [Array.size_append]
    exact Nat.le_add_right _ _
  aside := s.stack.slots.toList ++ s.waiting
  still := still
  aside_perm := by
    rw [Array.toList_append, List.append_assoc]
    exact split.append_left _

theorem unmoved (s : State E) : s.waiting.Perm ((#[] : Array Value).toList ++ s.waiting) := .refl _

theorem standing_emptied :
    s.emptied.Standing (footing split reached) (s.stack.maxDepth - s.stack.size) where
  base := Nat.zero_le _
  framed := Nat.zero_le _
  bounded := Nat.zero_le _
  limit := rfl
  measured := Nat.zero_le _
  capped := Nat.zero_le _
  aside := List.suffix_refl _

theorem size_footing : (footing split reached).values.size = s.stack.size + vs.size :=
  Array.size_append

theorem emptied_atop (bounded : s.stack.size ≤ s.stack.maxDepth)
    (covers : s.stack.size + vs.size ≤ reached) :
    (s.emptied.atop (footing split reached)).rebase s.base =
      (s.holding (s.stack.slots ++ vs) { s.peak with size := reached }).awaiting still := by
  have size : (s.stack.slots ++ vs).size = s.stack.size + vs.size := Array.size_append
  have limit : s.stack.maxDepth - s.stack.size + s.stack.size = s.stack.maxDepth :=
    Nat.sub_add_cancel bounded
  simp only [emptied, atop, footing, rebase, holding, awaiting, Array.append_empty, limit, size,
    Nat.sub_self, List.take_zero, List.nil_append]
  rw [Nat.max_eq_left (by omega)]

end Footing

end State

namespace Run
open State
variable {E : Embedding} {α β : Type} {s t : State E}

/-- The handlers that a run of an action calls, in order, with the arguments of each. -/
def handlerCalls (enter : Enter E) (H : Host E) {α : Type} :
    Action E α → State E → List (Value × List Value)
  | Prog.done _, _ => []
  | Prog.abort _, _ => []
  | Prog.perform o next, s => o.handed ++
    match perform enter H o s with
    | .ok a t => handlerCalls enter H (next (.ok a)) t
    | .error (.raised e) t => handlerCalls enter H (next (.error e)) t
    | .error (.panicked _) _ => []

theorem handlerCalls_op (enter : Enter E) (H : Host E) (o : Op E) (s : State E) :
    handlerCalls enter H (Action.perform o) s = o.handed := by
  change handlerCalls enter H (Prog.perform (F := Op.effect E) (α := o.Answer) o Prog.done) s = _
  unfold handlerCalls
  cases perform enter H o s with
  | ok a t => exact List.append_nil _
  | error f t => cases f <;> exact List.append_nil _

/-- `P` holds of the state that a run ends in, unless it ends in a panic. -/
def EndsIn (P : State E → Prop) : EStateM.Result Fault (State E) α → Prop
  | .ok _ t => P t
  | .error (.raised _) t => P t
  | .error (.panicked _) _ => True

theorem endsIn_keeping {P : State E → Prop} (blind : ∀ t ws, P t → P (t.awaiting ws))
    {vs : List Value} {m : Run E α} (ended : EndsIn P (m (s.awaiting (vs ++ s.waiting)))) :
    EndsIn P (keeping vs m s) := by
  cases vs with
  | nil => exact ended
  | cons v vs =>
    rw [keeping_cons]
    revert ended
    cases m (s.awaiting (v :: vs ++ s.waiting)) with
    | ok a t => exact blind t _
    | error f t =>
      cases f with
      | raised e => exact blind t _
      | panicked p => exact id

theorem keeping_eq {vs : List Value} {m : Run E α}
    (kept : (m.final (s.awaiting (vs ++ s.waiting))).waiting = vs ++ s.waiting) :
    keeping vs m s = mapState (·.awaiting s.waiting) (m (s.awaiting (vs ++ s.waiting))) := by
  cases vs with
  | nil =>
    change (m.final s).waiting = s.waiting at kept
    change m s = mapState (·.awaiting s.waiting) (m s)
    unfold final at kept
    rw [← kept]
    cases m s <;> rfl
  | cons v vs => rfl

/-- The same outcome twice: the same answer in states that `R` holds between, the same error in states
that `K` holds between, or the same panic. -/
inductive Agree (R K : State E → State E → Prop) :
    EStateM.Result Fault (State E) α → EStateM.Result Fault (State E) α → Prop
  | ok (a : α) {s t : State E} (same : R s t) : Agree R K (.ok a s) (.ok a t)
  | raised (e : Error) {s t : State E} (same : K s t) :
      Agree R K (.error (.raised e) s) (.error (.raised e) t)
  | panicked (p : Panic) {s t : State E} :
      Agree R K (.error (.panicked p) s) (.error (.panicked p) t)

section Agree
variable {R K : State E → State E → Prop} {r : EStateM.Result Fault (State E) α}

theorem Agree.of_ok {a : α} (agree : Agree R K (.ok a s) r) : ∃ t, r = .ok a t ∧ R s t := by
  cases agree with
  | ok a same => exact ⟨_, rfl, same⟩

theorem Agree.of_raised {e : Error} (agree : Agree R K (.error (.raised e) s) r) :
    ∃ t, r = .error (.raised e) t ∧ K s t := by
  cases agree with
  | raised e same => exact ⟨_, rfl, same⟩

theorem Agree.of_panicked {p : Panic} (agree : Agree R K (.error (.panicked p) s) r) :
    ∃ t, r = .error (.panicked p) t := by
  cases agree with
  | panicked p => exact ⟨_, rfl⟩

end Agree

theorem handlerCalls_bind (enter : Enter E) (H : Host E) (a : Action E α) (f : α → Action E β)
    (s : State E) : handlerCalls enter H (a >>= f) s =
      handlerCalls enter H a s ++ match action enter H a s with
        | .ok x t => handlerCalls enter H (f x) t
        | .error _ _ => [] := by
  induction a generalizing s with
  | done r => cases r <;> rfl
  | abort p => rfl
  | perform o next ih =>
    have unfolded : (Prog.perform o next >>= f : Action E β) =
      Prog.perform o fun r => next r >>= f := rfl
    rw [unfolded, action_perform]
    simp only [handlerCalls]
    cases perform enter H o s with
    | ok x t => simp only [ih, List.append_assoc]
    | error fault t =>
      cases fault with
      | raised e => simp only [ih, List.append_assoc]
      | panicked p => simp only [List.append_nil]

/-! A run of handlers does not depend on where the frame of its caller begins. -/

/-- `r'` is `r` with a frame that begins at `base`, but for a panic, which may have arisen in the
frame of another. -/
def Rebased (base : Nat) (r r' : EStateM.Result Fault (State E) α) : Prop :=
  r' = rebased base r ∨ ∃ p t, r = .error (.panicked p) t ∧ r' = r

theorem Rebased.of_ok {base : Nat} {y : α} {r : EStateM.Result Fault (State E) α}
    (same : Rebased base (.ok y t) r) : r = .ok y (t.rebase base) := by
  rcases same with same | ⟨p, u, ran, -⟩
  · exact same
  · contradiction

theorem Rebased.of_raised {base : Nat} {e : Error} {r : EStateM.Result Fault (State E) α}
    (same : Rebased base (.error (.raised e) t) r) : r = .error (.raised e) (t.rebase base) := by
  rcases same with same | ⟨p, u, ran, -⟩
  · exact same
  · cases ran

theorem Rebased.of_panicked {base : Nat} {p : Panic} {r : EStateM.Result Fault (State E) α}
    (same : Rebased base (.error (.panicked p) t) r) : ∃ u, r = .error (.panicked p) u := by
  rcases same with same | ⟨q, u, -, same⟩
  · exact ⟨_, same⟩
  · exact ⟨t, same⟩

/-- What does not depend on where the frame begins is the same in the end. -/
theorem Rebased.final {base : Nat} {m n : Run E α} {g : State E → State E} {f : State E → β}
    (same : Rebased base (mapState g (m s)) (n t)) (blind : ∀ u, f (u.rebase base) = f u) :
    f (n.final t) = f (g (m.final s)) := by
  unfold Run.final
  rcases same with same | ⟨p, u, ran, same⟩
  · rw [same]
    cases m s <;> exact blind _
  · rw [same]
    cases m s <;> rfl

theorem callAt_rebased (enter : Enter E) (func : Nat) (nresults : Int) (s : State E) (base : Nat) :
    Rebased base (callAt enter func nresults s) (callAt enter func nresults (s.rebase base)) := by
  rw [callAt_eq, callAt_eq, callee_rebase]
  cases callee func s with
  | error f t => exact .inl rfl
  | ok f t =>
    simp only [rebased]
    by_cases deep : t.config.maxCallDepth ≤ t.callDepth
    · have deep' : (t.rebase base).config.maxCallDepth ≤ (t.rebase base).callDepth := deep
      simp only [if_pos deep, if_pos deep']
      exact .inl rfl
    · have deep' : ¬(t.rebase base).config.maxCallDepth ≤ (t.rebase base).callDepth := deep
      simp only [if_neg deep, if_neg deep', descend_rebase]
      cases enter f (t.descend (func + 1)) with
      | ok n v => exact .inl (deliver_rebase f func n nresults (v.ascend t.base) base)
      | error e v =>
        cases e with
        | raised e => exact .inl rfl
        | panicked p => exact .inr ⟨p, v, rfl, rfl⟩

theorem callValue_rebased (enter : Enter E) (f : Value) (args : List Value) (nresults : Int)
    (s : State E) (base : Nat) :
    Rebased base (callValue enter f args nresults s)
      (callValue enter f args nresults (s.rebase base)) := by
  rw [callValue_eq, callValue_eq, stack_rebase, rebase_mapSlots, bind_eq, bind_eq, pushAll_rebase]
  cases s.stack.isFull with
  | true => exact .inl rfl
  | false =>
    simp only [Bool.false_eq_true, if_false]
    cases pushAll args (s.mapSlots (·.push f)) with
    | error e t =>
      cases e <;> exact .inl rfl
    | ok x t =>
      simp only [rebased]
      rcases callAt_rebased enter s.stack.size nresults t base with same | ⟨p, u, ran, same⟩
      · rw [same]
        cases callAt enter s.stack.size nresults t with
        | ok y u => exact .inl rfl
        | error e u => cases e <;> exact .inl rfl
      · rw [same, ran]
        exact .inr ⟨p, u, rfl, rfl⟩

theorem keeping_rebased {m : Run E α} {base : Nat}
    (same : ∀ s, Rebased base (m s) (m (s.rebase base))) (vs : List Value) (s : State E) :
    Rebased base (keeping vs m s) (keeping vs m (s.rebase base)) := by
  cases vs with
  | nil => exact same s
  | cons v vs =>
    have start : (s.rebase base).awaiting (v :: vs ++ (s.rebase base).waiting) =
      (s.awaiting (v :: vs ++ s.waiting)).rebase base := rfl
    rw [keeping_cons, keeping_cons, start]
    rcases same (s.awaiting (v :: vs ++ s.waiting)) with here | ⟨p, t, ran, here⟩
    · rw [here]
      cases m (s.awaiting (v :: vs ++ s.waiting)) <;> exact .inl rfl
    · rw [here, ran]
      exact .inr ⟨p, _, rfl, rfl⟩

section Handling
variable {enter : Enter E} {H : Host E} {a : Action E α}

theorem perform_rebased {o : Op E} (handles : o.Handles) (s : State E) (base : Nat) :
    Rebased base (perform enter H o s) (perform enter H o (s.rebase base)) := by
  cases o with
  | metatable v => exact .inl rfl
  | table t => exact .inl rfl
  | callValue f args k waiting =>
    exact keeping_rebased (fun s => callValue_rebased enter f args k s base) waiting s
  | _ => exact handles.elim

variable (enter H) in
theorem action_rebased (handles : Prog.Uses (F := Op.effect E) Op.Handles a) (s : State E)
    (base : Nat) :
    Rebased base (action enter H a s) (action enter H a (s.rebase base)) ∧
      handlerCalls enter H a (s.rebase base) = handlerCalls enter H a s := by
  induction a generalizing s with
  | done r => cases r <;> exact ⟨.inl rfl, rfl⟩
  | abort p => exact ⟨.inl rfl, rfl⟩
  | perform o next ih =>
    rw [action_perform, action_perform]
    simp only [handlerCalls]
    rcases perform_rebased (H := H) handles.1 s base with same | ⟨p, t, ran, same⟩
    · rw [same]
      cases perform enter H o s with
      | ok x t =>
        obtain ⟨outcome, calls⟩ := ih (.ok x) (handles.2 _) t
        exact ⟨outcome, congrArg (o.handed ++ ·) calls⟩
      | error f t =>
        cases f with
        | raised e =>
          obtain ⟨outcome, calls⟩ := ih (.error e) (handles.2 _) t
          exact ⟨outcome, congrArg (o.handed ++ ·) calls⟩
        | panicked p => exact ⟨.inl rfl, rfl⟩
    · rw [same, ran]
      exact ⟨.inr ⟨p, t, rfl, rfl⟩, rfl⟩

variable (enter H) in
theorem emptied_of_handles (handles : Prog.Uses (F := Op.effect E) Op.Handles a)
    (empty : s.stack.slots = #[]) : EndsIn (·.stack.slots = #[]) (action enter H a s) := by
  induction a generalizing s with
  | done r => cases r <;> exact empty
  | abort p => trivial
  | perform o next ih =>
    have kept : EndsIn (·.stack.slots = #[]) (perform enter H o s) := by
      have cut (t : State E) : (t.mapSlots (·.take s.stack.size)).stack.slots = #[] := by
        rw [slots_mapSlots, Stack.size, empty]
        simp
      cases o with
      | metatable v => exact empty
      | table t => exact empty
      | callValue f args k waiting =>
        refine endsIn_keeping (fun _ _ => id) ?_
        rw [callValue_eq]
        split
        · exact empty
        · split
          · exact cut _
          · exact cut _
          · trivial
      | _ => exact handles.1.elim
    rw [action_perform]
    revert kept
    cases perform enter H o s with
    | ok x t => exact ih (.ok x) (handles.2 _)
    | error f t =>
      cases f with
      | raised e => exact ih (.error e) (handles.2 _)
      | panicked p => exact id

section Lifted
variable {x : Footing} {limit : Nat} (enters : ∀ f, Confined False 0 limit (enter f))
  (lift : ∀ f t, t.Standing x limit → LiftsAt x t (enter f) (enter f))
include enters lift

theorem handlerCalls_atop (standing : s.Standing x limit)
    (stays : Prog.Uses (F := Op.effect E) (Op.StaysAbove True (limit + x.extra)) a)
    (room : x.values.size + ((action enter H a).final s).peak.size ≤ s.stack.maxDepth + x.extra) :
    handlerCalls enter H a (s.atop x) = handlerCalls enter H a s := by
  induction a generalizing s with
  | done r => rfl
  | abort p => rfl
  | perform o next ih =>
    have lifted := lifts_perform enters lift H o stays.1
    have isolated := lifted.isolated s standing.toAbove
    have performed := lifted.lift s standing
    have rest (r : Except Error o.Answer) {t : State E} (standing' : t.Standing x limit)
        (ended : (perform enter H o).final s = t)
        (goes : action enter H (Prog.perform o next) s = action enter H (next r) t) :
        perform enter H o (s.atop x) = mapState (·.atop x) (perform enter H o s) ∧
          handlerCalls enter H (next r) (t.atop x) = handlerCalls enter H (next r) t := by
      have limits : t.stack.maxDepth = s.stack.maxDepth := standing'.limit.trans standing.limit.symm
      have final : (action enter H (Prog.perform o next)).final s =
          (action enter H (next r)).final t := by rw [Run.final, Run.final, goes]
      have later := (lifts_action enters lift H (next r) (stays.2 r)).lift t standing'
      rw [final] at room
      refine ⟨performed.lifts ?_, ih r standing' (stays.2 r) (limits ▸ room)⟩
      rw [ended]
      exact Nat.le_trans (Nat.add_le_add_left later.rises.grows _) room
    simp only [handlerCalls]
    cases ran : perform enter H o s with
    | ok y t =>
      have ended := final_of_ok ran
      have standing' := performed.standing standing isolated ended (isolated.base_of_ok y t ran)
      have goes : action enter H (Prog.perform o next) s = action enter H (next (.ok y)) t := by
        rw [action_perform, ran]
      obtain ⟨there, calls⟩ := rest (.ok y) standing' ended goes
      rw [there, ran]
      exact congrArg (o.handed ++ ·) calls
    | error f t =>
      have ended := final_of_error ran
      cases f with
      | raised e =>
        have standing' :=
          performed.standing standing isolated ended (isolated.base_of_raised e t ran)
        have goes : action enter H (Prog.perform o next) s =
            action enter H (next (.error e)) t := by
          rw [action_perform, ran]
        obtain ⟨there, calls⟩ := rest (.error e) standing' ended goes
        rw [there, ran]
        exact congrArg (o.handed ++ ·) calls
      | panicked p =>
        have final : (action enter H (Prog.perform o next)).final s = t := by
          simp only [Run.final, action_perform, ran]
        rw [final, ← ended] at room
        rw [performed.lifts room, ran]
        rfl

end Lifted

end Handling

section Piles
variable {H : Host E} {d : Nat} {a : Action E α}

theorem lifts_handlers {x : Footing} {limit : Nat}
    (uses : H.Uses (Op.StaysAbove True (limit + x.extra)))
    (handles : Prog.Uses (F := Op.effect E) Op.Handles a) :
    Lifts x limit (action (enter H d) H a) ∧ ∀ s, s.Standing x limit →
      x.values.size + ((action (enter H d) H a).final s).peak.size ≤
          s.stack.maxDepth + x.extra →
        handlerCalls (enter H d) H a (s.atop x) = handlerCalls (enter H d) H a s := by
  have enters : ∀ f, Confined False 0 limit (enter H d f) :=
    confined_enter (uses.mono fun _ h => (Op.StaysAbove.keepsOpen h).staysAbove) d
  have lift f (t : State E) (standing : t.Standing x limit) := liftsAt_enter uses d f standing
  have stays : Prog.Uses (F := Op.effect E) (Op.StaysAbove True (limit + x.extra)) a :=
    handles.mono fun _ h => h.staysAbove
  exact ⟨lifts_action enters lift H a stays, fun s standing room =>
    handlerCalls_atop enters lift standing stays room⟩

section Emptied
variable (uses : H.Uses (Op.StaysAbove True s.stack.maxDepth))
  (handles : Prog.Uses (F := Op.effect E) Op.Handles a)
  (bounded : s.stack.size ≤ s.stack.maxDepth)
include uses handles bounded

theorem lifts_emptied {vs : Array Value} {still : List Value}
    (split : s.waiting.Perm (vs.toList ++ still)) (reached : Nat) :
    Lifts (footing split reached) s.emptied.stack.maxDepth (action (enter H d) H a) ∧
      (s.stack.size + vs.size + ((action (enter H d) H a).final s.emptied).peak.size ≤
          s.stack.maxDepth →
        handlerCalls (enter H d) H a (s.emptied.atop (footing split reached)) =
          handlerCalls (enter H d) H a s.emptied) := by
  have limit : s.emptied.stack.maxDepth + s.stack.size = s.stack.maxDepth :=
    Nat.sub_add_cancel bounded
  obtain ⟨lifts, calls⟩ : Lifts (footing split reached) s.emptied.stack.maxDepth
      (action (enter H d) H a) ∧ _ :=
    lifts_handlers (by rwa [footing, limit]) handles
  refine ⟨lifts, fun room => calls _ (standing_emptied split reached) ?_⟩
  rw [size_footing]
  exact limit.symm ▸ room

theorem limit_emptied :
    ((action (enter H d) H a).final s.emptied).stack.maxDepth = s.emptied.stack.maxDepth :=
  ((lifts_emptied uses handles bounded s.unmoved 0).1.isolated s.emptied
    (standing_emptied s.unmoved 0).toAbove).covers.maxDepth

theorem rises_emptied : s.emptied.Rises ((action (enter H d) H a).final s.emptied) :=
  ((lifts_emptied uses handles bounded s.unmoved 0).1.lift s.emptied
    (standing_emptied s.unmoved 0)).rises

/-- An empty stack has no more room than there is above the stack of `s`. -/
theorem capped_emptied :
    s.stack.size + ((action (enter H d) H a).final s.emptied).peak.size ≤ s.stack.maxDepth := by
  have limit : s.emptied.stack.maxDepth + s.stack.size = s.stack.maxDepth :=
    Nat.sub_add_cancel bounded
  have capped := (rises_emptied (d := d) uses handles bounded).capped
  omega

/-- What handlers do from `s` on, with values on top that there is room for in place of some that wait,
shows in what they do on an empty stack. -/
theorem action_emptied {vs : Array Value} {still : List Value}
    (split : s.waiting.Perm (vs.toList ++ still)) {reached : Nat}
    (covers : s.stack.size + vs.size ≤ reached)
    (room : s.stack.size + vs.size + ((action (enter H d) H a).final s.emptied).peak.size ≤
      s.stack.maxDepth) :
    let t := (s.holding (s.stack.slots ++ vs) { s.peak with size := reached }).awaiting still
    Rebased s.base (mapState (·.atop (footing split reached))
        (action (enter H d) H a s.emptied)) (action (enter H d) H a t) ∧
      handlerCalls (enter H d) H a t = handlerCalls (enter H d) H a s.emptied := by
  intro t
  have limit : s.emptied.stack.maxDepth + s.stack.size = s.stack.maxDepth :=
    Nat.sub_add_cancel bounded
  obtain ⟨lifts, calls'⟩ := lifts_emptied (d := d) uses handles bounded split reached
  obtain ⟨outcome, calls⟩ := action_rebased (enter H d) H handles
    (s.emptied.atop (footing split reached)) s.base
  rw [emptied_atop split reached bounded covers] at outcome calls
  have lift := lifts.lift s.emptied (standing_emptied split reached)
  rw [lift.lifts (by rw [size_footing]; exact limit.symm ▸ room)] at outcome
  exact ⟨outcome, calls.trans (calls' room)⟩

end Emptied

/-- `t` is `s` with `vs` on top of its stack. -/
structure Piled (vs : Array Value) (s t : State E) : Prop where
  eq : t = s.holding (s.stack.slots ++ vs) { s.peak with size := t.peak.size }

structure Restored (s t : State E) : Prop where
  slots : t.stack.slots = s.stack.slots
  maxDepth : t.stack.maxDepth = s.stack.maxDepth
  base : t.base = s.base
  grows : s.peak.size ≤ t.peak.size

theorem Restored.size (restored : Restored s t) : t.stack.size = s.stack.size :=
  congrArg Array.size restored.slots

theorem Piled.slots {vs : Array Value} (piled : Piled vs s t) :
    t.stack.slots = s.stack.slots ++ vs := by
  rw [piled.eq]
  rfl

theorem Piled.base {vs : Array Value} (piled : Piled vs s t) : t.base = s.base := by
  rw [piled.eq]
  rfl

theorem Piled.maxDepth {vs : Array Value} (piled : Piled vs s t) :
    t.stack.maxDepth = s.stack.maxDepth := by
  rw [piled.eq]
  rfl

theorem Piled.size {vs : Array Value} (piled : Piled vs s t) :
    t.stack.size = s.stack.size + vs.size := by
  rw [Stack.size, piled.slots]
  exact Array.size_append

theorem Piled.push {vs : Array Value} (piled : Piled vs s t) (v : Value) :
    Piled (vs.push v) s (t.mapSlots (·.push v)) where
  eq := by
    rw [piled.eq]
    simp only [mapSlots, holding, Array.push_append]

theorem Piled.of_push {v : Value} (piled : Piled #[v] s t) : Piled #[] (s.mapSlots (·.push v)) t where
  eq := by
    rw [piled.eq]
    simp [mapSlots, holding]

theorem Piled.compare {vs : Array Value} {t' : State E} (alone : Piled #[] s t)
    (piled : Piled vs s t') : Piled vs t t' where
  eq := by
    rw [piled.eq, alone.eq]
    simp [holding]

/-- The values on top are kept in part when the stack is cut above those of `s`. -/
theorem Piled.cut {vs ws : Array Value} (piled : Piled (vs ++ ws) s t) :
    t.mapSlots (·.take (s.stack.slots ++ vs).size) =
      s.holding (s.stack.slots ++ vs)
        { s.peak with size := max t.peak.size (s.stack.slots ++ vs).size } := by
  have kept (below : Array Value) : (below ++ ws).take below.size = below := by simp
  rw [piled.eq]
  simp only [mapSlots, holding, ← Array.append_assoc, kept]

section Over
variable {c : State E} (empty : c.stack.slots = #[])
include empty

theorem restored_atop (bounded : s.stack.size ≤ s.stack.maxDepth)
    (limit : c.stack.maxDepth = s.emptied.stack.maxDepth) :
    Restored s ((c.atop (footing s.unmoved s.peak.size)).rebase s.base) where
  slots := by
    change s.stack.slots ++ #[] ++ c.stack.slots = _
    rw [empty, Array.append_empty, Array.append_empty]
  maxDepth := by
    change c.stack.maxDepth + s.stack.size = _
    rw [limit]
    exact Nat.sub_add_cancel bounded
  base := rfl
  grows := Nat.le_max_left _ _

theorem piled_atop (waits : c.waiting = s.emptied.waiting) {vs : Array Value} {still : List Value}
    (split : s.waiting.Perm (vs.toList ++ still)) (reached higher : Nat) :
    Piled vs (((c.atop (footing s.unmoved reached)).rebase s.base).awaiting still)
      ((c.atop (footing split higher)).rebase s.base) where
  eq := by
    have none : c.waiting.take (c.waiting.length - (s.stack.slots.toList ++ s.waiting).length) = [] := by
      rw [waits, emptied, Nat.sub_self, List.take_zero]
    simp only [atop, footing, rebase, holding, awaiting, empty, none, Array.append_empty,
      List.nil_append]

end Over

theorem action_unpiled (uses : H.Uses (Op.StaysAbove True s.stack.maxDepth))
    (handles : Prog.Uses (F := Op.effect E) Op.Handles a)
    (bounded : s.stack.size ≤ s.stack.maxDepth) (measured : s.stack.size ≤ s.peak.size) :
    Rebased s.base (mapState (·.atop (footing s.unmoved s.peak.size))
        (action (enter H d) H a s.emptied)) (action (enter H d) H a s) ∧
      handlerCalls (enter H d) H a s = handlerCalls (enter H d) H a s.emptied := by
  have same : (s.holding (s.stack.slots ++ #[]) { s.peak with size := s.peak.size }).awaiting
      s.waiting = s := by
    rw [Array.append_empty]
    rfl
  have alone := action_emptied uses handles bounded s.unmoved measured
    (capped_emptied (d := d) uses handles bounded)
  rwa [same] at alone

theorem grows_handlers (uses : H.Uses (Op.StaysAbove True s.stack.maxDepth))
    (handles : Prog.Uses (F := Op.effect E) Op.Handles a)
    (bounded : s.stack.size ≤ s.stack.maxDepth) (measured : s.stack.size ≤ s.peak.size) :
    s.peak.size ≤ ((action (enter H d) H a).final s).peak.size := by
  rw [(action_unpiled uses handles bounded measured).1.final (f := State.peak) fun _ => rfl]
  exact Nat.le_max_left _ _

theorem restored_handlers (uses : H.Uses (Op.StaysAbove True s.stack.maxDepth))
    (handles : Prog.Uses (F := Op.effect E) Op.Handles a)
    (bounded : s.stack.size ≤ s.stack.maxDepth) (measured : s.stack.size ≤ s.peak.size) :
    EndsIn (Restored s) (action (enter H d) H a s) := by
  obtain ⟨here, -⟩ := action_unpiled (d := d) uses handles bounded measured
  have empty := emptied_of_handles (enter H d) H handles (s := s.emptied) rfl
  have limits := limit_emptied (d := d) uses handles bounded
  cases ran : action (enter H d) H a s.emptied with
  | ok y c =>
    rw [final_of_ok ran] at limits
    rw [ran] at here empty
    rw [here.of_ok]
    exact restored_atop empty bounded limits
  | error f c =>
    rw [final_of_error ran] at limits
    rw [ran] at here empty
    cases f with
    | raised e =>
      rw [here.of_raised]
      exact restored_atop empty bounded limits
    | panicked p =>
      obtain ⟨u, ended⟩ := here.of_panicked
      rw [ended]
      trivial

section Waiting
variable (uses : H.Uses (Op.StaysAbove True s.stack.maxDepth))
  (handles : Prog.Uses (F := Op.effect E) Op.Handles a)
  (bounded : s.stack.size ≤ s.stack.maxDepth) (measured : s.stack.size ≤ s.peak.size)
include uses handles bounded measured

theorem restored_keeping (waits : List Value) :
    EndsIn (Restored s) (keeping waits (action (enter H d) H a) s) := by
  have same {t : State E} (ws : List Value) (restored : Restored s t) : Restored s (t.awaiting ws) :=
    { restored with }
  refine endsIn_keeping (fun _ ws => same ws) ?_
  have restored := restored_handlers (s := s.awaiting (waits ++ s.waiting)) (d := d) uses handles
    bounded measured
  revert restored
  cases action (enter H d) H a (s.awaiting (waits ++ s.waiting)) with
  | ok y t => exact fun restored => { restored with }
  | error f t =>
    cases f with
    | raised e => exact fun restored => { restored with }
    | panicked p => exact id

theorem waiting_handlers : ((action (enter H d) H a).final s).waiting = s.waiting := by
  obtain ⟨here, -⟩ := action_unpiled (d := d) uses handles bounded measured
  rw [here.final (f := State.waiting) fun _ => rfl]
  have rises := rises_emptied (d := d) uses handles bounded
  have none : ((action (enter H d) H a).final s.emptied).waiting.length -
      (s.stack.slots.toList ++ s.waiting).length = 0 := by
    rw [rises.waiting, emptied, Nat.sub_self]
  simp only [atop, footing, none, List.take_zero, List.nil_append]

/-- Values that wait may as well lie on top: handlers come to the same, and the values stay there. -/
theorem handlers_split {vs : Array Value} {still : List Value}
    (split : s.waiting.Perm (vs.toList ++ still)) {reached : Nat}
    (covers : s.stack.size + vs.size ≤ reached)
    (room : ((action (enter H d) H a).final s).peak.size + vs.size ≤ s.stack.maxDepth) :
    let t := (s.holding (s.stack.slots ++ vs) { s.peak with size := reached }).awaiting still
    Agree (Piled vs) (Piled vs) (mapState (·.awaiting still) (action (enter H d) H a s))
        (action (enter H d) H a t) ∧
      handlerCalls (enter H d) H a t = handlerCalls (enter H d) H a s := by
  intro t
  obtain ⟨here, calls⟩ := action_unpiled (d := d) uses handles bounded measured
  have rises := rises_emptied (d := d) uses handles bounded
  have higher : s.stack.size + vs.size +
      ((action (enter H d) H a).final s.emptied).peak.size ≤ s.stack.maxDepth := by
    have reached := Nat.le_max_right s.peak.size
      ((footing s.unmoved s.peak.size).values.size +
        ((action (enter H d) H a).final s.emptied).peak.size)
    rw [here.final (f := State.peak) fun _ => rfl] at room
    have size : (footing s.unmoved s.peak.size).values.size = s.stack.size + 0 := size_footing _ _
    have height : s.stack.size + 0 + ((action (enter H d) H a).final s.emptied).peak.size ≤
      (((action (enter H d) H a).final s.emptied).atop (footing s.unmoved s.peak.size)).peak.size :=
        size ▸ reached
    omega
  obtain ⟨there, calls'⟩ :=
    action_emptied (d := d) uses handles bounded split covers higher
  refine ⟨?_, calls'.trans calls.symm⟩
  have empty := emptied_of_handles (enter H d) H handles (s := s.emptied) rfl
  have waits := rises.waiting
  cases ran : action (enter H d) H a s.emptied with
  | ok y c =>
    rw [final_of_ok ran] at waits
    rw [ran] at here there empty
    rw [here.of_ok, there.of_ok]
    exact .ok y (piled_atop empty waits split _ _)
  | error f c =>
    rw [final_of_error ran] at waits
    rw [ran] at here there empty
    cases f with
    | raised e =>
      rw [here.of_raised, there.of_raised]
      exact .raised e (piled_atop empty waits split _ _)
    | panicked p =>
      obtain ⟨u, ended⟩ := here.of_panicked
      obtain ⟨u', ended'⟩ := there.of_panicked
      rw [ended, ended']
      exact .panicked p

theorem handlers_pile {vs : Array Value} {waits : List Value} (moved : waits.Perm vs.toList)
    {reached : Nat} (covers : s.stack.size + vs.size ≤ reached)
    (room : ((keeping waits (action (enter H d) H a)).final s).peak.size + vs.size ≤
      s.stack.maxDepth) :
    let t := s.holding (s.stack.slots ++ vs) { s.peak with size := reached }
    Agree (Piled vs) (Piled vs) (keeping waits (action (enter H d) H a) s)
        (action (enter H d) H a t) ∧
      handlerCalls (enter H d) H a t =
        handlerCalls (enter H d) H a (s.awaiting (waits ++ s.waiting)) := by
  have kept := waiting_handlers (s := s.awaiting (waits ++ s.waiting)) (d := d) uses handles bounded
    measured
  have keeps := keeping_eq kept
  rw [final_mapState keeps] at room
  rw [keeps]
  exact handlers_split (s := s.awaiting (waits ++ s.waiting)) uses handles bounded measured
    (moved.append_right s.waiting) covers room

end Waiting

end Piles

end Run
end HostBridge
