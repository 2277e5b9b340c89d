import HostBridge.Proofs.Run.Lifting
import HostBridge.Proofs.Call.Isolation
/-!
Calls on a higher stack. A call finds its function by a position, which is higher by as much as the
stack is; the frame that it begins is the same frame, higher up. So the nested calls of an action
come to the same on a higher stack as well, by induction on how deep they may nest.
-/
namespace HostBridge
namespace Run
open State
variable {E : Embedding} {α β : Type} {x : Footing} {limit : Nat} {s : State E}

/-! One call. -/

theorem insertHandler_eq (func : Nat) (v : Value) (s : State E) :
    insertHandler func v s = match s.heap.metafield v .call with
      | .function f =>
        if s.stack.isFull then .error (.raised .stackOverflow) s
        else .ok f (s.mapSlots (·.insertIdxIfInBounds func (.function f)))
      | _ => .error (.raised (.notCallable v.kind)) s := by
  rw [insertHandler, bind_eq, get_eq]
  simp only
  cases s.heap.metafield v .call with
  | function f => cases s.stack.isFull <;> rfl
  | _ => rfl

theorem liftsAt_insertHandler (standing : s.Standing x limit) {func : Nat}
    (inside : func ≤ s.stack.size) (v : Value) :
    LiftsAt x s (insertHandler func v) (insertHandler (x.values.size + func) v) := by
  have here := insertHandler_eq func v s
  have there := insertHandler_eq (x.values.size + func) v (s.atop x)
  rw [heap_atop] at there
  cases handler : s.heap.metafield v .call with
  | function f =>
    rw [handler] at here there
    cases full : s.stack.isFull with
    | true =>
      rw [full] at here
      rw [isFull_atop_of_full full] at there
      exact (liftsAt_raise standing .stackOverflow).congr here fun _ => there
    | false =>
      rw [full] at here
      exact (liftsAt_inserted standing f inside full (.function f)).congr here fun _ => there
  | _ =>
    rw [handler] at here there
    exact (liftsAt_raise standing (.notCallable v.kind)).congr here fun _ => there

theorem liftsAt_callee (standing : s.Standing x limit) (func : Nat) :
    LiftsAt x s (callee func) (callee (x.values.size + func)) := by
  have shifted := get_atop (s := s) (x := x) func
  cases found : s.stack.get func with
  | error e =>
    rw [found] at shifted
    apply (liftsAt_raise standing e).congr
    · rw [callee, bind_eq, read_eq, found]
      rfl
    · intro _
      rw [callee, bind_eq, read_eq, shifted]
      rfl
  | ok v =>
    have inside : func ≤ s.stack.size := Nat.le_of_lt (Stack.lt_of_get found)
    rw [found] at shifted
    cases v with
    | function f =>
      apply (liftsAt_pure standing f).congr
      · rw [callee, bind_eq, read_eq, found]
        rfl
      · intro _
        rw [callee, bind_eq, read_eq, shifted]
        rfl
    | _ =>
      apply (liftsAt_insertHandler standing inside _).congr
      · rw [callee, bind_eq, read_eq, found]
        rfl
      · intro _
        rw [callee, bind_eq, read_eq, shifted]
        rfl

theorem liftsAt_inFrame (standing : s.Standing x limit) {frame : Nat} (upper : frame ≤ s.stack.size)
    {body : Run E α} (lift : ∀ t, t.Standing x limit → LiftsAt x t body body) :
    LiftsAt x s (inFrame frame body) (inFrame (x.values.size + frame) body) := by
  have above : (s.descend frame).Above 0 limit :=
    ⟨Nat.zero_le _, upper, standing.bounded, standing.limit⟩
  obtain ⟨rises, lifts⟩ :=
    lift (s.descend frame) ⟨above, standing.measured, standing.capped, standing.aside⟩
  have here := inFrame_eq frame body s
  have there := inFrame_eq (x.values.size + frame) body (s.atop x)
  have raised : (s.atop x).descend (x.values.size + frame) = (s.descend frame).atop x := rfl
  rw [raised] at there
  unfold final at rises lifts
  cases ran : body (s.descend frame) with
  | ok x t =>
    rw [ran] at here rises lifts
    have ended := final_of_ok here
    refine ⟨ended ▸ { rises with }, fun room => ?_⟩
    rw [ended] at room
    rw [there, lifts room, here]
    rfl
  | error fault t =>
    rw [ran] at here rises lifts
    cases fault with
    | raised e =>
      have ended := final_of_error here
      refine ⟨ended ▸ { rises with }, fun room => ?_⟩
      rw [ended] at room
      rw [there, lifts room, here]
      rfl
    | panicked p =>
      have ended := final_of_error here
      refine ⟨ended ▸ { rises with }, fun room => ?_⟩
      rw [ended] at room
      rw [there, lifts room, here]
      rfl

theorem extract_atop (start stop : Nat) :
    (s.atop x).stack.slots.extract (x.values.size + start) (x.values.size + stop) =
      s.stack.slots.extract start stop := by
  rw [slots_atop, Array.extract_append, Nat.add_sub_cancel_left, Nat.add_sub_cancel_left,
    Array.extract_eq_empty_of_le (by omega), Array.empty_append]

theorem liftsAt_deliver (standing : s.Standing x limit) {func : Nat} (above : s.base ≤ func)
    (inside : func < s.stack.size) (f : FunctionId) (returned : Nat) (nresults : Int) :
    LiftsAt x s (deliver f func returned nresults)
      (deliver f (x.values.size + func) returned nresults) := by
  have available : x.values.size + s.stack.size - (x.values.size + func + 1) = s.stack.size - (func + 1) := by
    omega
  have here := deliver_eq f func returned nresults s
  have there := deliver_eq f (x.values.size + func) returned nresults (s.atop x)
  rw [size_atop, heap_atop, available] at there
  by_cases excess : s.stack.size - (func + 1) < returned
  · rw [if_pos excess] at here there
    have ended : (deliver f func returned nresults).final s = s.withOverreport :=
      final_of_error here
    refine ⟨ended ▸ { standing.rises with }, fun _ => ?_⟩
    rw [here, there]
    rfl
  · have start : x.values.size + s.stack.size - returned = x.values.size + (s.stack.size - returned) := by
      omega
    rw [if_neg excess] at here there
    rw [start, extract_atop] at there
    have delivered := (liftsAt_truncate (s := s) (x := x) standing func).bind standing
      (isolatedAt_truncate standing.toAbove above) fun _ _ _ standing' =>
        liftsAt_pushAll standing' (adjust
          (s.stack.slots.extract (s.stack.size - returned) s.stack.size).toList nresults)
    exact delivered.congr here fun _ => there

theorem liftsAt_orTruncate (standing : s.Standing x limit) {func : Nat} (above : s.base ≤ func)
    {body body' : Run E α} (isolated : IsolatedAt False 0 s body)
    (lift : LiftsAt x s body body') :
    LiftsAt x s (orTruncate func body) (orTruncate (x.values.size + func) body') := by
  apply lift.branch standing isolated (f := pure) (h := pure)
    (g := fun e => truncate func >>= fun _ => raise e)
    (k := fun e => truncate (x.values.size + func) >>= fun _ => raise e)
  · exact orTruncate_eq func body
  · exact orTruncate_eq (x.values.size + func) body'
  · intro a t _ standing'
    exact liftsAt_pure standing' a
  · intro e t ran standing'
    have kept : t.base ≤ func := isolated.base_of_raised e t ran ▸ above
    apply (liftsAt_truncate standing' func).bind standing' (isolatedAt_truncate standing'.toAbove kept)
    intro _ u _ standing''
    exact liftsAt_raise standing'' e

/-- A protected call in two steps: what it calls is looked for, then called. -/
theorem pcall_noted (enter : Enter E) (nargs nresults : Int) (s : State E) :
    pcall enter nargs nresults s = match callPosition nargs s with
      | .ok func t => (match callAt enter func nresults t with
        | .ok _ u => .ok .ok u
        | .error (.raised e) u => note func e u
        | .error (.panicked p) u => .error (.panicked p) u)
      | .error f t => .error f t := by
  rw [pcall_eq]
  cases callPosition nargs s with
  | error f t => rfl
  | ok func t =>
    simp only
    cases callAt enter func nresults t with
    | ok _ u => rfl
    | error f u =>
      cases f with
      | panicked p => rfl
      | raised e =>
        simp only [note, truncate, bind_eq, modifySlots_eq]
        cases push (.string e.message) (u.mapSlots (·.take func)) <;> rfl

/-- Once the stack is cut off at the function, the error is told on top. -/
theorem lifts_told (e : Error) :
    Lifts x limit (do
      push (.string e.message)
      modify fun s => { s with lastError := some e }
      return .ofError e : Run E CallStatus) := by
  apply lifts_relative.bind (lifts_relative.push _)
  intro _
  exact lifts_relative.bind (offFrame_modify fun _ _ => rfl).lifts fun _ => lifts_relative.pure _

/-- The function of a call lies as many slots higher as the stack is higher. -/
theorem liftsAt_located (standing : s.Standing x limit) (nargs : Int) {n : Run E α}
    {body : Nat → Run E α}
    (eq : ∀ u, n u = match callPosition nargs u with
      | .ok func t => body func t
      | .error f t => .error f t)
    (lift : ∀ func, s.base ≤ func → LiftsAt x s (body func) (body (x.values.size + func))) :
    LiftsAt x s n n := by
  have here := eq s
  have there := eq (s.atop x)
  rw [callPosition_eq] at here there
  by_cases negative : nargs < 0
  · rw [if_pos negative] at here there
    exact (liftsAt_raise standing (.invalidIndex nargs)).congr here fun _ => there
  · rw [if_neg negative] at here there
    by_cases missing : s.stack.size < s.base + nargs.toNat + 1
    · have missing' : x.values.size + s.stack.size < x.values.size + s.base + nargs.toNat + 1 := by omega
      rw [if_pos missing] at here
      rw [size_atop, base_atop, if_pos missing'] at there
      exact (liftsAt_raise standing .stackUnderflow).congr here fun _ => there
    · have missing' : ¬x.values.size + s.stack.size < x.values.size + s.base + nargs.toNat + 1 := by omega
      have shift : x.values.size + s.stack.size - nargs.toNat - 1 =
        x.values.size + (s.stack.size - nargs.toNat - 1) := by omega
      rw [if_neg missing] at here
      rw [size_atop, base_atop, if_neg missing', shift] at there
      exact (lift (s.stack.size - nargs.toNat - 1) (by omega)).congr here fun _ => there

section Callee
variable {enter : Enter E} (enters : ∀ f, Confined False 0 limit (enter f))
  (lift : ∀ f t, t.Standing x limit → LiftsAt x t (enter f) (enter f))
include enters lift

theorem liftsAt_callAt (standing : s.Standing x limit) {func : Nat} (above : s.base ≤ func)
    (nresults : Int) :
    LiftsAt x s (callAt enter func nresults) (callAt enter (x.values.size + func) nresults) := by
  have found : IsolatedAt False 0 s (callee func) := isolatedAt_callee standing.toAbove above
  apply (liftsAt_callee standing func).bind standing found
  intro f t ran standing'
  have above' : t.base ≤ func := found.base_of_ok f t ran ▸ above
  have inside : func < t.stack.size := inside_of_callee ran
  by_cases deep : t.config.maxCallDepth ≤ t.callDepth
  · apply (liftsAt_raise standing' .stackOverflow).congr
    · simp only [bind_eq, get_eq, if_pos deep, raise_eq]
    · intro _
      have deep' : (t.atop x).config.maxCallDepth ≤ (t.atop x).callDepth := deep
      simp only [bind_eq, get_eq, if_pos deep', raise_eq]
  · have lower : t.base ≤ func + 1 := Nat.le_succ_of_le above'
    have framed : IsolatedAt False 0 t (inFrame (func + 1) (enter f)) :=
      isolatedAt_inFrame standing'.toAbove lower inside (enters f)
    have entered : LiftsAt x t
        (inFrame (func + 1) (enter f) >>= fun n => deliver f func n nresults)
        (inFrame (x.values.size + (func + 1)) (enter f) >>= fun n =>
          deliver f (x.values.size + func) n nresults) := by
      apply (liftsAt_inFrame standing' inside (lift f)).bind standing' framed
      intro returned u left standing''
      have kept : u.base ≤ func := framed.base_of_ok returned u left ▸ above'
      have reaches := frame_le_of_inFrame standing'.toAbove lower inside (enters f) left
      exact liftsAt_deliver standing'' kept reaches f returned nresults
    apply entered.congr
    · simp only [bind_eq, get_eq, if_neg deep]
    · intro _
      have deep' : ¬(t.atop x).config.maxCallDepth ≤ (t.atop x).callDepth := deep
      simp only [bind_eq, get_eq, if_neg deep', Nat.add_assoc]

theorem liftsAt_call (standing : s.Standing x limit) (nargs nresults : Int) :
    LiftsAt x s (call enter nargs nresults) (call enter nargs nresults) := by
  apply liftsAt_located standing nargs (call_eq enter nargs nresults)
  intro func above
  exact liftsAt_orTruncate standing above (isolatedAt_callAt enters standing.toAbove above nresults)
    (liftsAt_callAt enters lift standing above nresults)

theorem liftsAt_pcall (standing : s.Standing x limit) (nargs nresults : Int) :
    LiftsAt x s (pcall enter nargs nresults) (pcall enter nargs nresults) := by
  apply liftsAt_located standing nargs (pcall_noted enter nargs nresults)
  intro func above
  have called := isolatedAt_callAt enters standing.toAbove above nresults
  apply (liftsAt_callAt enters lift standing above nresults).branch standing called
    (f := fun _ => pure .ok) (h := fun _ => pure .ok) (g := note func) (k := note (x.values.size + func))
  · intro u
    cases callAt enter func nresults u with
    | ok x v => rfl
    | error f v => cases f <;> rfl
  · intro u
    cases callAt enter (x.values.size + func) nresults u with
    | ok x v => rfl
    | error f v => cases f <;> rfl
  · intro _ t _ standing'
    exact liftsAt_pure standing' CallStatus.ok
  · intro e t ran standing'
    have kept : t.base ≤ func := called.base_of_raised e t ran ▸ above
    apply (liftsAt_truncate standing' func).bind standing' (isolatedAt_truncate standing'.toAbove kept)
    intro _ u _ standing''
    exact (lifts_told e).lift u standing''

theorem liftsAt_callValue (standing : s.Standing x limit) (f : Value) (args : List Value)
    (nresults : Int) :
    LiftsAt x s (callValue enter f args nresults) (callValue enter f args nresults) := by
  have pushed : IsolatedAt False 0 s (push f) := isolated_push f s standing.toAbove
  have called : LiftsAt x s
      (push f >>= fun _ =>
        orTruncate s.stack.size (pushAll args >>= fun _ => callAt enter s.stack.size nresults) >>=
          fun _ => get >>= fun t => truncate s.stack.size >>= fun _ =>
            pure (t.stack.slots.extract s.stack.size t.stack.size).toList)
      (push f >>= fun _ =>
        orTruncate (x.values.size + s.stack.size)
          (pushAll args >>= fun _ => callAt enter (x.values.size + s.stack.size) nresults) >>=
          fun _ => get >>= fun t => truncate (x.values.size + s.stack.size) >>= fun _ =>
            pure (t.stack.slots.extract (x.values.size + s.stack.size) t.stack.size).toList) := by
    apply (liftsAt_push standing f).bind standing pushed
    intro _ t ran standing'
    have above : t.base ≤ s.stack.size := pushed.base_of_ok _ t ran ▸ standing.framed
    have placed : IsolatedAt False 0 t (pushAll args) := isolated_pushAll args t standing'.toAbove
    have body : IsolatedAt False 0 t
        (pushAll args >>= fun _ => callAt enter s.stack.size nresults) := by
      apply placed.bind standing'.toAbove
      intro _ u given above'
      exact isolatedAt_callAt enters above' (placed.base_of_ok _ u given ▸ above) nresults
    have lifted : LiftsAt x t
        (pushAll args >>= fun _ => callAt enter s.stack.size nresults)
        (pushAll args >>= fun _ => callAt enter (x.values.size + s.stack.size) nresults) := by
      apply (liftsAt_pushAll standing' args).bind standing' placed
      intro _ u given standing''
      exact liftsAt_callAt enters lift standing'' (placed.base_of_ok _ u given ▸ above) nresults
    have tried := isolatedAt_orTruncate standing'.toAbove above body
    apply (liftsAt_orTruncate standing' above body lifted).bind standing' tried
    intro _ u returned standing''
    have kept : u.base ≤ s.stack.size := tried.base_of_ok _ u returned ▸ above
    let results := (u.stack.slots.extract s.stack.size u.stack.size).toList
    have taken : LiftsAt x u (truncate s.stack.size >>= fun _ => pure results)
        (truncate (x.values.size + s.stack.size) >>= fun _ => pure results) := by
      apply (liftsAt_truncate standing'' s.stack.size).bind standing''
        (isolatedAt_truncate standing''.toAbove kept)
      intro _ v _ cut
      exact liftsAt_pure cut results
    refine taken.congr (m := get >>= _) (n := get >>= _) rfl fun _ => ?_
    rw [bind_eq, get_eq]
    simp only [size_atop, extract_atop]
    rfl
  refine called.congr (n := callValue enter f args nresults) rfl fun _ => ?_
  rw [callValue, bind_eq, get_eq]
  simp only [size_atop]

theorem lifts_perform (H : Host E) (o : Op E) (stays : o.StaysAbove True (limit + x.extra)) :
    Lifts x limit (perform enter H o) := by
  have isolated : Isolated False 0 limit (perform enter H o) :=
    isolated_perform enters H o (Op.StaysAbove.keepsOpen stays).staysAbove
  cases o with
  | argument n =>
    refine ⟨isolated, fun s standing => liftsAt_answer standing fun room => argument_atop ?_⟩
    have framed := standing.framed
    have small : n + (limit + x.extra) ≤ 0x10000000000000000 := stays trivial
    omega
  | shareCount o =>
    refine ⟨isolated, fun s standing => liftsAt_answer standing fun _ => ?_⟩
    exact (alike_atop standing).shareCount H o
  | settle vars =>
    refine ⟨isolated, fun s standing => ?_⟩
    refine ((offFrame_assign vars).lifts.lift s standing).bind standing
      ((offFrame_assign vars).isolated s standing.toAbove) fun _ t _ standing' => ?_
    refine (liftsAt_settle H standing' []).bind standing' (isolated_settle H [] t standing'.toAbove)
      fun ended u _ standing'' => (offFrame_unlessPanic ended).lifts.lift u standing''
  | describe => exact (stays trivial).elim
  | close => exact stays.elim
  | call n r => exact ⟨isolated, fun s standing => liftsAt_call enters lift standing n r⟩
  | pcall n r => exact ⟨isolated, fun s standing => liftsAt_pcall enters lift standing n r⟩
  | callValue f args r waiting =>
    exact ⟨isolated, fun s standing => liftsAt_keeping standing waiting fun _ standing' =>
      liftsAt_callValue enters lift standing' f args r⟩
  | _ => exact relative_perform lifts_relative enter H trivial

theorem lifts_action (H : Host E) (a : Action E α)
    (stays : Prog.Uses (F := Op.effect E) (Op.StaysAbove True (limit + x.extra)) a) :
    Lifts x limit (action enter H a) :=
  relative_action lifts_relative (lifts_perform enters lift H) a stays

end Callee

/-! Bodies of functions. -/

theorem liftsAt_catchPanics (name : String) {body : Run E Nat}
    (lift : LiftsAt x s body body) :
    LiftsAt x s (catchPanics name body) (catchPanics name body) := by
  by_cases catches : s.config.catchPanics = true
  · have here := catchPanics_eq name body catches
    have there := catchPanics_eq name body (s := s.atop x) catches
    obtain ⟨rises, lifts⟩ := lift
    unfold final at rises lifts
    cases ran : body s with
    | ok n t =>
      rw [ran] at here rises lifts
      have ended := final_of_ok here
      refine ⟨ended ▸ { rises with }, fun room => ?_⟩
      rw [there, lifts (ended ▸ room), here]
      rfl
    | error f t =>
      rw [ran] at here rises lifts
      cases f with
      | raised e =>
        have ended := final_of_error here
        refine ⟨ended ▸ { rises with }, fun room => ?_⟩
        rw [there, lifts (ended ▸ room), here]
        rfl
      | panicked p =>
        have ended := final_of_error here
        refine ⟨?_, fun room => ?_⟩
        · rw [ended]
          exact { rises with }
        · rw [ended] at room
          rw [there, lifts room, here]
          rfl
  · apply lift.congr
    · simp only [catchPanics, if_neg catches]
    · intro _
      have catches' : ¬(s.atop x).config.catchPanics = true := catches
      simp only [catchPanics, if_neg catches']

/-- By induction on how many more calls may nest. -/
theorem liftsAt_enter {H : Host E} (uses : H.Uses (Op.StaysAbove True (limit + x.extra))) (depth : Nat)
    (f : FunctionId) (standing : s.Standing x limit) :
    LiftsAt x s (enter H depth f) (enter H depth f) := by
  induction depth generalizing f s with
  | zero => exact liftsAt_raise standing _
  | succ depth ih =>
    have confined : ∀ f, Confined False 0 limit (enter H depth f) :=
      confined_enter (uses.mono fun _ h => (Op.StaysAbove.keepsOpen h).staysAbove) depth
    cases known : s.heap.callable? f with
    | none =>
      apply (liftsAt_raise standing (.notCallable .function)).congr
      · simp only [enter, callableOf, bind_eq, get_eq, known, raise_eq]
      · intro _
        simp only [enter, callableOf, bind_eq, get_eq, heap_atop, known, raise_eq]
    | some c =>
      have runs : Lifts x limit (runEntry (perform (enter H depth) H) H c.entry) :=
        relative_runEntry lifts_relative uses _
          (lifts_perform confined (fun f _ above => ih f above) H) c.entry
      apply (liftsAt_catchPanics c.name (runs.lift s standing)).congr
      · simp only [enter, callableOf, bind_eq, get_eq, known, pure_eq]
      · intro _
        simp only [enter, callableOf, bind_eq, get_eq, heap_atop, known, pure_eq]

end Run
end HostBridge
