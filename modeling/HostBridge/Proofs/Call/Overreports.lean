import HostBridge.Proofs.Call.Unwinding
import HostBridge.Proofs.Heap.Release
/-!
Callees that report more results than their frames hold. Each is put on record with the call depth
of its caller. The caller ends in a panic, which no protected call stops; where panics are caught, it
goes as far as the function that made the call and ends as an error of that one.
-/
namespace HostBridge
namespace State
variable {E : Embedding} {s t u : State E}

/-- The same function runs as before, and nothing new is on record. -/
structure Quiet (s t : State E) : Prop where
  callDepth : t.callDepth = s.callDepth
  catches : t.config.catchPanics = s.config.catchPanics
  overreports : t.overreports = s.overreports

theorem Quiet.trans (first : Quiet s t) (second : Quiet t u) : Quiet s u where
  callDepth := second.callDepth.trans first.callDepth
  catches := second.catches.trans first.catches
  overreports := second.overreports.trans first.overreports

end State

namespace Run
open State
variable {E : Embedding} {α β : Type} {s t : State E} {func : Nat}

/-- The run ends in the panic about a callee that reported too many results. -/
def Overreported (m : Run E α) (s : State E) : Prop :=
  ∃ name returned available t, available < returned ∧
    m s = .error (.panicked (overreport name returned available)) t

/-- The run ends in the error of a function that made such a call. -/
def Faulted (m : Run E α) (s : State E) : Prop :=
  ∃ host name returned available t, available < returned ∧
    m s = .error (.raised (.hostCallableFault host (overreport name returned available).message)) t

/-- Every call that the run puts on record, by its depth `d`, was made by the running function or
deeper down, and `P d` holds. -/
def Logs (P : Nat → Prop) (m : Run E α) (s : State E) : Prop :=
  ∃ ds, (m.final s).overreports = ds ++ s.overreports ∧ ∀ d ∈ ds, s.callDepth ≤ d ∧ P d

/-- A call that the running function itself makes ends the run in a panic, and so does one further
down where panics are not caught. -/
def Tells (m : Run E α) (s : State E) : Prop :=
  Logs (fun d => s.config.catchPanics = false ∨ d = s.callDepth → Overreported m s) m s

/-- What a function shows of its calls to its caller: where panics are caught, one that it makes
itself ends it in an error. -/
def Discloses (m : Run E Nat) (s : State E) : Prop :=
  Logs (fun d => (s.config.catchPanics = false → Overreported m s) ∧
    (s.config.catchPanics = true → d = s.callDepth → Faulted m s)) m s

theorem Logs.of_silent {P : Nat → Prop} {m : Run E α}
    (silent : (m.final s).overreports = s.overreports) : Logs P m s :=
  ⟨[], silent, nofun⟩

theorem tells_of_silent {m : Run E α} (silent : (m.final s).overreports = s.overreports) :
    Tells m s :=
  .of_silent silent

/-- A run that puts the same on record and panics when the other one does. -/
theorem Tells.pass {m : Run E α} {n : Run E β} (tells : Tells m s)
    (record : (n.final s).overreports = (m.final s).overreports)
    (panics : ∀ p t, m s = .error (.panicked p) t → ∃ u, n s = .error (.panicked p) u) :
    Tells n s := by
  obtain ⟨ds, recorded, calls⟩ := tells
  refine ⟨ds, record.trans recorded, fun d listed => ⟨(calls d listed).1, fun cause => ?_⟩⟩
  obtain ⟨name, returned, available, t, less, ran⟩ := (calls d listed).2 cause
  obtain ⟨u, ran⟩ := panics _ t ran
  exact ⟨name, returned, available, u, less, ran⟩

theorem Tells.congr {m n : Run E α} (tells : Tells m s) (same : n s = m s) : Tells n s :=
  tells.pass (by rw [final, final, same]) fun _ t ran => ⟨t, same.trans ran⟩

/-- A run that goes on in `t` after a first part, which has ended with nothing to tell. -/
theorem Tells.after {m : Run E α} {n k : Run E β} (first : Tells m s) (leaves : Leaves m s t)
    (depth : t.callDepth = s.callDepth) (catches : t.config.catchPanics = s.config.catchPanics)
    (later : Tells n t) (same : k s = n t) : Tells k s := by
  obtain ⟨ds, recorded, calls⟩ := first
  obtain ⟨es, recorded', calls'⟩ := later
  have calm : ¬Overreported m s := by
    rintro ⟨name, returned, available, u, -, ran⟩
    rcases leaves with ⟨a, left⟩ | ⟨e, left⟩
    · rw [ran] at left
      contradiction
    · rw [ran] at left
      cases left
  refine ⟨es ++ ds, ?_, fun d listed => ?_⟩
  · rw [leaves.final.1] at recorded
    rw [final, same, ← final, recorded', recorded, List.append_assoc]
  · rcases List.mem_append.mp listed with late | early
    · obtain ⟨deep, told⟩ := calls' d late
      refine ⟨depth ▸ deep, fun cause => ?_⟩
      obtain ⟨name, returned, available, u, less, ran⟩ := told (by rwa [depth, catches])
      exact ⟨name, returned, available, u, less, same.trans ran⟩
    · exact ⟨(calls d early).1, fun cause => absurd ((calls d early).2 cause) calm⟩

theorem tells_bind {m : Run E α} {f : α → Run E β} (first : Tells m s)
    (kept : ∀ a t, m s = .ok a t →
      t.callDepth = s.callDepth ∧ t.config.catchPanics = s.config.catchPanics)
    (rest : ∀ a t, m s = .ok a t → Tells (f a) t) : Tells (m >>= f) s := by
  cases ran : m s with
  | ok a t =>
    obtain ⟨depth, catches⟩ := kept a t ran
    exact first.after (.inl ⟨a, ran⟩) depth catches (rest a t ran) (by rw [bind_eq, ran])
  | error e t =>
    apply first.pass
    · rw [final, final, bind_eq, ran]
    · intro p u panics
      exact ⟨u, by rw [bind_eq, panics]⟩

theorem tells_proceed {m : Run E α} {next : Except Error α → Run E β} (unwound : Unwound m)
    (first : ∀ s, Tells m s) (rest : ∀ r s, Tells (next r) s) (s : State E) :
    Tells (proceed m next) s := by
  have goes {r : Except Error α} {t : State E} (leaves : Leaves m s t)
      (same : proceed m next s = next r t) : Tells (proceed m next) s := by
    obtain ⟨ds, unwinds⟩ := unwound.leaves leaves
    exact (first s).after leaves unwinds.callDepth unwinds.catches (rest r t) same
  cases ran : m s with
  | ok a t => exact goes (.inl ⟨a, ran⟩) (by rw [proceed, ran])
  | error f t =>
    cases f with
    | raised e => exact goes (.inr ⟨e, ran⟩) (by rw [proceed, ran])
    | panicked p =>
      have same : proceed m next s = .error (.panicked p) t := by rw [proceed, ran]
      apply (first s).pass
      · rw [final_of_error same, final_of_error ran]
      · intro q u panics
        rw [ran] at panics
        cases panics
        exact ⟨t, same⟩

theorem tells_rethrow {body : Run E α} (g : Heap E → Heap E) (h : ∀ s, Tells body s)
    (s : State E) : Tells (tryCatch body fun f => modifyHeap g >>= fun _ => throw f) s := by
  apply (h s).pass
  · cases ran : body s with
    | ok a t => rw [final_of_ok ran, final_of_ok (rethrow_of_ok ran g)]
    | error f t => rw [final_of_error ran, final_of_error (rethrow_of_error ran g)]
  · intro p t ran
    exact ⟨_, rethrow_of_error ran g⟩

/-! Steps that call nothing. -/

theorem quiet_framewise : Framewise (E := E) Quiet where
  refl _ := ⟨rfl, rfl, rfl⟩
  trans _ _ _ := Quiet.trans
  slots _ _ := ⟨rfl, rfl, rfl⟩

theorem tells_quiet {m : Run E α} (quiet : Respects Quiet m) (s : State E) : Tells m s :=
  tells_of_silent (quiet s).overreports

theorem tells_quiet_bind {m : Run E α} {f : α → Run E β} (quiet : Respects Quiet m)
    (rest : ∀ a t, Tells (f a) t) (s : State E) : Tells (m >>= f) s := by
  refine tells_bind (tells_quiet quiet s) (fun a t ran => ?_) fun a t _ => rest a t
  have kept := quiet s
  rw [final_of_ok ran] at kept
  exact ⟨kept.callDepth, kept.catches⟩

theorem tells_tame {m : Run E α} (tame : Tame m) (s : State E) : Tells m s :=
  tells_of_silent (tame.same s).overreports

/-! Calls. -/

theorem tells_inFrame (frame : Nat) {m : Run E Nat} (discloses : Discloses m (s.descend frame)) :
    Tells (inFrame frame m) s := by
  obtain ⟨ds, recorded, calls⟩ := discloses
  have record : ((inFrame frame m).final s).overreports =
      (m.final (s.descend frame)).overreports := by
    rw [final, final, inFrame_eq]
    cases m (s.descend frame) with
    | ok x t => rfl
    | error f t => cases f <;> rfl
  refine ⟨ds, record.trans recorded, fun d listed => ?_⟩
  obtain ⟨deep, uncaught, -⟩ := calls d listed
  refine ⟨Nat.le_of_succ_le deep, fun cause => ?_⟩
  -- The callee was one call deeper, so only the lack of catching is left as a cause.
  have deeper : d ≠ s.callDepth := Nat.ne_of_gt deep
  obtain ⟨name, returned, available, t, less, ran⟩ := uncaught (cause.resolve_right deeper)
  exact ⟨name, returned, available, t, less, by rw [inFrame_eq, ran]⟩

theorem tells_deliver (f : FunctionId) (func returned : Nat) (nresults : Int) (s : State E) :
    Tells (deliver f func returned nresults) s := by
  by_cases excess : s.stack.size - (func + 1) < returned
  · have ran : deliver f func returned nresults s = .error (.panicked (overreport
        (s.heap.functionName f) returned (s.stack.size - (func + 1)))) s.withOverreport := by
      rw [deliver_eq, if_pos excess]
    refine ⟨[s.callDepth], by rw [final_of_error ran]; rfl, fun d listed => ?_⟩
    cases List.mem_singleton.mp listed
    exact ⟨Nat.le_refl _, fun _ => ⟨_, _, _, _, excess, ran⟩⟩
  · have placed (vs : List Value) : Respects Quiet (truncate func >>= fun _ => pushAll vs : Run E Unit) :=
      quiet_framewise.bind (quiet_framewise.modifySlots _) fun _ => quiet_framewise.pushAll vs
    apply (tells_quiet (placed _) s).congr
    rw [deliver_eq, if_neg excess]
    rfl

section Callee
variable {enter : Enter E} (enters : ∀ f, Unwound (enter f) ∧ ∀ s, Discloses (enter f) s)
include enters

theorem tells_callAt (func : Nat) (nresults : Int) (s : State E) :
    Tells (callAt enter func nresults) s := by
  refine tells_quiet_bind (quiet_framewise.callee func) (fun f t => ?_) s
  have entered : Tells (inFrame (func + 1) (enter f) >>= fun n => deliver f func n nresults) t := by
    refine tells_bind (tells_inFrame _ ((enters f).2 _)) (fun n u ran => ?_)
      fun n u _ => tells_deliver f func n nresults u
    rw [inFrame_eq] at ran
    cases left : enter f (t.descend (func + 1)) with
    | ok x v =>
      rw [left] at ran
      cases ran
      obtain ⟨ds, unwinds⟩ := (enters f).1.leaves (.inl ⟨n, left⟩)
      exact ⟨congrArg (· - 1) unwinds.callDepth, unwinds.catches⟩
    | error e v =>
      rw [left] at ran
      cases e <;> contradiction
  by_cases deep : t.config.maxCallDepth ≤ t.callDepth
  · apply (tells_tame (tame_raise .stackOverflow) t).congr
    simp only [bind_eq, get_eq, if_pos deep, raise_eq]
  · apply entered.congr
    simp only [bind_eq, get_eq, if_neg deep]

theorem tells_call (nargs nresults : Int) (s : State E) : Tells (call enter nargs nresults) s := by
  by_cases operands : HasOperands s nargs
  · apply (tells_callAt enters (functionSlot s nargs) nresults s).pass
    · rw [final, final, call_of_operands enter operands]
      cases callAt enter (functionSlot s nargs) nresults s with
      | ok x t => rfl
      | error f t => cases f <;> rfl
    · intro p t ran
      exact ⟨t, by rw [call_of_operands enter operands, ran]⟩
  · obtain ⟨e, eq⟩ := callPosition_of_missing operands
    apply tells_of_silent
    rw [final, call_eq, eq]

theorem tells_pcall (nargs nresults : Int) (s : State E) : Tells (pcall enter nargs nresults) s := by
  by_cases operands : HasOperands s nargs
  · apply (tells_callAt enters (functionSlot s nargs) nresults s).pass
    · rw [final, final, pcall_eq, callPosition_of_operands operands]
      dsimp only
      cases callAt enter (functionSlot s nargs) nresults s with
      | ok x t => rfl
      | error f t =>
        cases f with
        | panicked p => rfl
        | raised e =>
          simp only [push_eq]
          cases (t.mapSlots (·.take (functionSlot s nargs))).stack.isFull <;> rfl
    · intro p t ran
      refine ⟨t, ?_⟩
      rw [pcall_eq, callPosition_of_operands operands]
      simp only [ran]
  · obtain ⟨e, eq⟩ := callPosition_of_missing operands
    apply tells_of_silent
    rw [final, pcall_eq, eq]

theorem tells_callValue (f : Value) (args : List Value) (nresults : Int) (s : State E) :
    Tells (callValue enter f args nresults) s := by
  have called : Tells (push f >>= fun _ => pushAll args >>= fun _ =>
      callAt enter s.stack.size nresults) s := by
    refine tells_quiet_bind (quiet_framewise.push f) (fun _ => ?_) s
    refine tells_quiet_bind (quiet_framewise.pushAll args) fun _ => ?_
    exact tells_callAt enters _ nresults
  have placed : (push f >>= fun _ => pushAll args >>= fun _ =>
      callAt enter s.stack.size nresults) s = if s.stack.isFull then .error (.raised .stackOverflow) s
      else (pushAll args >>= fun _ => callAt enter s.stack.size nresults)
        (s.mapSlots (·.push f)) := by
    rw [bind_eq, push_eq]
    cases s.stack.isFull <;> rfl
  apply called.pass
  · rw [final, final, placed, callValue_eq]
    cases s.stack.isFull with
    | true => rfl
    | false =>
      simp only [Bool.false_eq_true, if_false]
      cases (pushAll args >>= fun _ => callAt enter s.stack.size nresults)
          (s.mapSlots (·.push f)) with
      | ok x t => rfl
      | error e t => cases e <;> rfl
  · intro p t ran
    rw [placed] at ran
    rw [callValue_eq]
    cases full : s.stack.isFull with
    | true =>
      rw [full] at ran
      cases ran
    | false =>
      simp only [full, Bool.false_eq_true, if_false] at ran ⊢
      rw [ran]
      exact ⟨t, rfl⟩

end Callee

/-- A function ends as its body does, unless a panic of the body is caught. -/
theorem discloses_entered (f : FunctionId) {body : Callable E → Run E Nat}
    (bodies : ∀ c s, Tells (body c) s) (s : State E) :
    Discloses (callableOf f >>= fun c => catchPanics c.name (body c)) s := by
  rcases callableOf_cases f s with ⟨c, found⟩ | ⟨e, missing⟩
  · obtain ⟨ds, recorded, calls⟩ := bodies c s
    have same : (callableOf f >>= fun c => catchPanics c.name (body c)) s =
        catchPanics c.name (body c) s := by rw [bind_eq, found]
    cases catches : s.config.catchPanics with
    | false =>
      have plain : catchPanics c.name (body c) s = body c s := by
        rw [catchPanics, catches]
        rfl
      refine ⟨ds, ?_, fun d listed => ⟨(calls d listed).1, fun _ => ?_, fun on => ?_⟩⟩
      · rw [final, same, plain]
        exact recorded
      · obtain ⟨name, returned, available, t, less, ran⟩ := (calls d listed).2 (.inl catches)
        exact ⟨name, returned, available, t, less, by rw [same, plain, ran]⟩
      · rw [catches] at on
        contradiction
    | true =>
      refine ⟨ds, ?_, fun d listed => ⟨(calls d listed).1, fun off => ?_, fun _ own => ?_⟩⟩
      · rw [final, same, catchPanics_eq _ _ catches, ← recorded, final]
        cases body c s with
        | ok n t => rfl
        | error f t => cases f <;> rfl
      · rw [catches] at off
        contradiction
      · obtain ⟨name, returned, available, t, less, ran⟩ := (calls d listed).2 (.inr own)
        refine ⟨c.name, name, returned, available,
          { t with heap := t.heap.restoreBorrows s.heap.objects }, less, ?_⟩
        rw [same, catchPanics_eq _ _ catches, ran]
  · apply Logs.of_silent
    rw [final, bind_eq, missing]

theorem tells_keeping (vs : List Value) {m : Run E α} (tells : ∀ s, Tells m s) (s : State E) :
    Tells (keeping vs m) s := by
  cases vs with
  | nil => exact tells s
  | cons v vs =>
    obtain ⟨ds, recorded, calls⟩ := tells (s.awaiting (v :: vs ++ s.waiting))
    refine ⟨ds, ?_, fun d listed => ⟨(calls d listed).1, fun cause => ?_⟩⟩
    · rw [final_keeping]
      exact recorded
    · obtain ⟨name, returned, available, t, less, ran⟩ := (calls d listed).2 cause
      exact ⟨name, returned, available, _, less, by rw [keeping_cons, ran]⟩

theorem overreports_composes :
    Composes (E := E) fun _ m => Unwound m ∧ ∀ s, Tells m s where
  tame tame := ⟨unwound_tame tame, tells_tame tame⟩
  bind first rest := by
    refine ⟨unwound_bind first.1 fun a => (rest a).1, ?_⟩
    rw [bind_eq_proceed]
    refine tells_proceed first.1 first.2 fun r s => ?_
    cases r with
    | ok a => exact (rest a).2 s
    | error e => exact tells_tame (tame_raise e) s
  get_bind rest := ⟨unwound_composes.get_bind fun s => (rest s).1, fun s => (rest s).2 s⟩
  panic p := ⟨unwound_composes.panic p, fun _ => tells_of_silent rfl⟩
  proceed first rest := ⟨unwound_proceed first.1 fun r => (rest r).1,
    tells_proceed first.1 first.2 fun r => (rest r).2⟩
  rethrow g h := ⟨unwound_rethrow g h.1, tells_rethrow g h.2⟩
  push v := ⟨unwound_composes.push v, tells_quiet (quiet_framewise.push v)⟩
  setTop i := ⟨unwound_composes.setTop i, tells_quiet (quiet_framewise.setTop i)⟩
  remove i := ⟨unwound_composes.remove i, tells_quiet (quiet_framewise.remove i)⟩

theorem overreports_carries : Carries (E := E) (fun _ => True)
    (fun m => Unwound m ∧ ∀ s, Discloses m s) fun _ m => Unwound m ∧ ∀ s, Tells m s where
  toComposes := overreports_composes
  pop := ⟨unwound_carries.pop, tells_quiet quiet_framewise.pop⟩
  drop n := ⟨unwound_carries.drop n, tells_quiet (quiet_framewise.drop n)⟩
  insert i := ⟨unwound_carries.insert i, tells_quiet (quiet_framewise.insert i)⟩
  replace i := ⟨unwound_carries.replace i, tells_quiet (quiet_framewise.replace i)⟩
  close _ := ⟨unwound_carries.close trivial, fun _ => tells_of_silent rfl⟩
  call enters calm n r :=
    ⟨unwound_carries.call (fun f => (enters f).1) calm n r, tells_call enters n r⟩
  pcall enters calm n r :=
    ⟨unwound_carries.pcall (fun f => (enters f).1) calm n r, tells_pcall enters n r⟩
  callValue enters calm f args r :=
    ⟨unwound_carries.callValue (fun f => (enters f).1) calm f args r, tells_callValue enters f args r⟩
  keeping vs _ h := ⟨unwound_carries.keeping vs h.1, tells_keeping vs h.2⟩
  refused := ⟨unwound_carries.refused, fun _ => .of_silent rfl⟩
  entered f _ bodies := ⟨unwound_carries.entered f fun c => (bodies c).1,
    discloses_entered f fun c => (bodies c).2⟩

theorem discloses_enter (H : Host E) (depth : Nat) (f : FunctionId) (s : State E) :
    Discloses (enter H depth f) s :=
  (carried_enter overreports_carries (Host.uses_all H) depth f).2 s

theorem tells_exec (H : Host E) (a : Action E α) (s : State E) : Tells (exec H a) s := by
  have enters := fun f =>
    carried_enter overreports_carries (Host.uses_all H) s.depthLeft f
  have ran : Tells (runAction H a) s :=
    (carried_action overreports_carries enters (calm_enter H s.depthLeft) H a (Prog.uses_all a)).2 s
  apply ran.pass
  · rw [exec_final]
    exact (sameFrame_settle H _ _).overreports
  · intro p t panics
    rw [exec, panics]
    exact ⟨_, rfl⟩

/-- A callee that reports more results than its frame holds, however deep, ends what the embedding
program runs in a panic if it is called by that itself or panics are not caught; calls in protected
mode on the way do not matter. Where panics are caught, the function that called it ends in an
error. -/
theorem overreports_end_caller (H : Host E) (s : State E) :
    (∀ (α : Type) (a : Action E α), ∃ ds,
      ((exec H a).final s).overreports = ds ++ s.overreports ∧ ∀ d ∈ ds, s.callDepth ≤ d ∧
        (s.config.catchPanics = false ∨ d = s.callDepth →
          ∃ name returned available t, available < returned ∧
            exec H a s = .error (.panicked (overreport name returned available)) t)) ∧
    ∀ depth f, s.config.catchPanics = true → ∃ ds,
      ((enter H depth f).final s).overreports = ds ++ s.overreports ∧ ∀ d ∈ ds, s.callDepth ≤ d ∧
        (d = s.callDepth → ∃ host name returned available t, available < returned ∧
          enter H depth f s = .error (.raised (.hostCallableFault host
            (overreport name returned available).message)) t) := by
  refine ⟨fun α a => tells_exec H a s, fun depth f catches => ?_⟩
  obtain ⟨ds, recorded, calls⟩ := discloses_enter H depth f s
  exact ⟨ds, recorded, fun d listed => ⟨(calls d listed).1, (calls d listed).2.2 catches⟩⟩

/-- Without catching of panics, the protected calls of the embedding program and of the function in
between let the panic through. -/
theorem overreports_end_caller_uncaught :
    let H := Host.running do
      if (← Action.callDepth) = 1 then
        Action.push (.function ⟨0⟩)
        let _ ← Action.pcall 0 0
        return 0
      else return 5
    let plain := State.plain #[.function ⟨0⟩]
    let s := { plain with config := { plain.config with catchPanics := false } }
    ∃ name returned available t, available < returned ∧
      exec H (Action.pcall 0 0) s = .error (.panicked (overreport name returned available)) t := by
  intro H plain s
  obtain ⟨ds, recorded, calls⟩ := (overreports_end_caller H s).1 _ (Action.pcall 0 0)
  have listed : ((exec H (Action.pcall 0 0)).final s).overreports = [1] := by decide +kernel
  have one : ds = [1] := by
    rw [listed] at recorded
    exact (List.append_nil ds).symm.trans recorded.symm
  exact (calls 1 (one ▸ List.mem_singleton.mpr rfl)).2 (.inl rfl)

/-- The function in between makes an error of the panic, and a protected call returns. -/
theorem overreport_recovered :
    let H := Host.running do
      if (← Action.callDepth) = 1 then
        Action.push (.function ⟨0⟩)
        Action.call 0 0
        return 0
      else return 5
    let s := State.plain #[.function ⟨0⟩]
    ((exec H (Action.pcall 0 0)).final s).overreports = [1] ∧
    (exec H (Action.pcall 0 0)).returned? s = some .runtimeError ∧
    (exec H (Action.call 0 0)).raised? s = some (.hostCallableFault "plain"
      "native function 'plain' reported 5 results but its frame holds 0") := by
  decide +kernel

end Run
end HostBridge
