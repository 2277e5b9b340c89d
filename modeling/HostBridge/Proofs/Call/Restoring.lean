import HostBridge.Proofs.Call.Protected

namespace HostBridge
namespace State
variable {E : Embedding}

structure SameStack (s t : State E) : Prop where
  stack : t.stack = s.stack
  base : t.base = s.base
  callDepth : t.callDepth = s.callDepth

theorem Upto.sameStack {s t : State E} (upto : Upto s.stack.size s t) :
    s.SameStack (t.mapSlots (·.take s.stack.size)) where
  stack := by
    have slots : t.stack.slots.take s.stack.size = s.stack.slots := by
      rw [upto.take]
      exact Array.extract_size
    have limit := upto.within.maxDepth
    rw [mapSlots, slots]
    cases stack : s.stack
    rw [stack] at limit
    simp only [limit]
  base := upto.within.base
  callDepth := upto.within.callDepth

end State

namespace Run
open State
variable {E : Embedding} {H : Host E} {α : Type}

theorem action_attempt (enter : Enter E) (H : Host E) (a : Action E α) :
    action enter H (Prog.attempt a) = proceed (action enter H a) pure := by
  funext s
  induction a generalizing s with
  | done r => cases r <;> rfl
  | abort p => rfl
  | perform o next ih =>
    have steps : action enter H (Prog.attempt (Prog.perform o next)) =
        proceed (perform enter H o) fun r => action enter H (Prog.attempt (next r)) :=
      action_proceed enter H o fun r => Prog.attempt (next r)
    rw [steps, action_proceed, proceed, proceed, proceed]
    cases perform enter H o s with
    | ok x t => exact ih (.ok x) t
    | error f t =>
      cases f with
      | raised e => exact ih (.error e) t
      | panicked p => rfl

theorem setTop_cut {s t : State E} (framed : s.base ≤ s.stack.size) (base : t.base = s.base)
    (grown : s.stack.size < t.stack.size) :
    setTop s.top t = .ok () (t.mapSlots (·.take s.stack.size)) := by
  have top : s.top = (s.stack.size : Int) - s.base := rfl
  have size : t.base + s.top.toNat = s.stack.size := by
    rw [base]
    omega
  rw [setTop_eq, if_pos (by omega), size, resize_eq, if_pos grown]

theorem setTop_back {s t : State E} (framed : s.base ≤ s.stack.size)
    (upto : Upto s.stack.size s t) :
    setTop s.top t = .ok () (t.mapSlots (·.take s.stack.size)) := by
  by_cases grown : s.stack.size < t.stack.size
  · exact setTop_cut framed upto.within.base grown
  · have top : s.top = (s.stack.size : Int) - s.base := rfl
    have base := upto.within.base
    have bounded := upto.fits.size_le_maxDepth
    have same : s.stack.size = t.stack.slots.size :=
      Nat.le_antisymm upto.reaches (Nat.le_of_not_lt grown)
    have size : t.base + s.top.toNat = s.stack.size := by
      rw [base]
      omega
    have reaches := upto.reaches
    rw [setTop_eq, if_pos (by omega), size, resize_eq, if_neg grown, if_neg (by omega)]
    congr 1
    apply mapSlots_congr
    simp [same]

/-- Whatever the body comes to, the size of the frame is set back before it is told; a panic is not
held up. -/
theorem runAction_restoring_eq (body : Action E α) (s : State E) :
    runAction H (ScriptFunction.restoring body) s =
      match runAction H body s with
      | .ok a t => (setTop s.top >>= fun _ => pure a) t
      | .error (.raised e) t => (setTop s.top >>= fun _ => raise e) t
      | .error (.panicked p) t => .error (.panicked p) t := by
  unfold runAction
  simp only [ScriptFunction.restoring, action_bind, bind_eq, action_top, action_attempt, proceed]
  cases action (enter H s.depthLeft) H body s with
  | ok a t =>
    simp only [pure_eq, action_setTop]
    rfl
  | error f t =>
    cases f with
    | raised e =>
      simp only [pure_eq, action_setTop]
      rfl
    | panicked p => rfl

/-- What is left above the values of `s` goes, and the outcome stays. -/
theorem runAction_restoring {body : Action E α} {s t : State E} (framed : s.base ≤ s.stack.size)
    {r : Except Error α} (ran : runAction H body s = ofExcept r t) (upto : Upto s.stack.size s t) :
    runAction H (ScriptFunction.restoring body) s =
      ofExcept r (t.mapSlots (·.take s.stack.size)) := by
  have back := setTop_back framed upto
  rw [runAction_restoring_eq, ran]
  cases r with
  | ok a => simp only [ofExcept_ok, pure_eq, bind_eq, back]
  | error e => simp only [ofExcept_error, raise_eq, bind_eq, back]

theorem runAction_bind_of_ok {β : Type} {a : Action E α} {g : α → Action E β} {x : α}
    {s t : State E} (ran : runAction H a s = .ok x t) (depth : t.depthLeft = s.depthLeft) :
    runAction H (a >>= g) s = runAction H (g x) t := by
  unfold runAction at ran ⊢
  rw [action_after ran, depth]

theorem runAction_bind_of_error {β : Type} {a : Action E α} {g : α → Action E β} {f : Fault}
    {s t : State E} (ran : runAction H a s = .error f t) :
    runAction H (a >>= g) s = .error f t := by
  unfold runAction at ran ⊢
  rw [action_bind, bind_eq, ran]

section Place
variable (f : ScriptFunction) (args : List (Shape E.Tag)) (xs : Tuple E args)

theorem action_place (enter : Enter E) (H : Host E) :
    action enter H (f.place args xs) =
      push f.value >>= fun _ => encodeAll H args xs >>= fun _ => pure args.length := by
  rw [ScriptFunction.place, action_bind, action_pushList, action_push]

theorem pushes_place (enter : Enter E) (H : Host E) :
    Pushes (args.length + 1) (action enter H (f.place args xs)) := by
  have arguments := pushes_bind (pushes_encodeAll H args xs) fun _ => (tame_pure args.length).pushes
  rw [action_place, Nat.add_comm]
  exact pushes_bind (pushes_push f.value) fun _ => arguments

theorem count_of_place {enter : Enter E} {s u : State E} {n : Nat}
    (ran : action enter H (f.place args xs) s = .ok n u) : n = args.length := by
  rw [action_place, bind_eq] at ran
  cases pushed : push f.value s with
  | error e t =>
    rw [pushed] at ran
    contradiction
  | ok x t =>
    rw [pushed] at ran
    simp only [bind_eq] at ran
    cases encoded : encodeAll H args xs t with
    | error e v =>
      rw [encoded] at ran
      contradiction
    | ok y v =>
      rw [encoded] at ran
      cases ran
      rfl

end Place

/-- The message of an error goes with what else is cut off, and only the pending error is left to tell
a protected call from a plain one. -/
theorem withMessage_cut {s t : State E} (fits : s.Fits) (catches : s.config.catchPanics = true)
    {func : Nat} (upto : Upto func s t) (cut : t.stack.size = func) (inside : func < s.stack.size)
    (e : Error) :
    let u := { withMessage e t with lastError := none }
    Upto func s u ∧ u.mapSlots (·.take func) = { t.mapSlots (·.take func) with lastError := none } := by
  intro u
  have room : t.stack.isFull = false := by
    have bounded := fits.size_le_maxDepth
    have limit := upto.within.maxDepth
    exact Stack.free_iff.mpr (by omega)
  have pushed := upto_push upto.fits (upto.within.catches.trans catches) room (.string e.message)
  rw [cut] at pushed
  refine ⟨(upto.trans pushed).same ⟨rfl, rfl, rfl, rfl, rfl, rfl, rfl, rfl, rfl⟩, ?_⟩
  have size : t.stack.slots.size = func := cut
  have slots : (t.stack.slots.push (.string e.message)).take func = t.stack.slots.take func := by
    simp [← size]
  have recorded : func + 1 ≤ t.peak.size :=
    Nat.le_trans inside (Nat.le_trans fits.size_le upto.within.peak_size)
  simp only [u, withMessage, mapSlots, slots, Array.size_push, size, Nat.max_eq_left recorded]

section Placed
variable {s u v : State E} (fits : s.Fits) (catches : s.config.catchPanics = true)
  {f : ScriptFunction} {args : List (Shape E.Tag)} {xs : Tuple E args} {n : Nat}
include fits catches

theorem upto_place : Upto s.stack.size s ((runAction H (f.place args xs)).final s) :=
  (pushes_place f args xs (enter H s.depthLeft) H).upto fits catches

variable (placed : runAction H (f.place args xs) s = .ok n u)
include placed

theorem upto_of_place : Upto s.stack.size s u := by
  rw [← final_of_ok placed]
  exact upto_place fits catches

/-- The function lies where the stack ended, and its arguments above it. -/
theorem operands_of_place : HasOperands u n ∧ functionSlot u n = s.stack.size := by
  have size : u.stack.size = s.stack.size + (args.length + 1) :=
    (pushes_place f args xs (enter H s.depthLeft) H).size placed
  have base := (upto_of_place fits catches placed).within.base
  have framed := fits.framed
  obtain rfl : n = args.length := count_of_place f args xs placed
  rw [functionSlot, HasOperands, Int.toNat_natCast]
  omega

variable (uses : H.Uses Op.KeepsOpen) (results : List (Shape E.Tag))
  (held : ReportsHeld (enter H u.depthLeft) s.stack.size u)
include uses held

theorem calls_of_return (ended : runAction H (Action.call n results.length) u = .ok () v) :
    ∃ t, s.SameStack t ∧
      runAction H (f.call args results xs) s = ofExcept (v.decodeTop results) t ∧
      runAction H (f.callProtected args results xs) s = ofExcept (v.decodeTop results) t := by
  have upto := upto_of_place fits catches placed
  have catches' : u.config.catchPanics = true := upto.within.catches.trans catches
  obtain ⟨operands, func⟩ := operands_of_place fits catches placed
  have agrees := pcall_agrees_with_call uses u upto.fits catches' operands results.length
    (func ▸ held)
  have called := upto_runAction_call uses upto.fits catches' operands results.length
  rw [ended] at agrees
  rw [func, final_of_ok ended] at called
  have depth : u.depthLeft = s.depthLeft := upto.within.depthLeft
  have depth' : v.depthLeft = u.depthLeft := called.within.depthLeft
  have read : runAction H (Action.readList results) v = ofExcept (v.decodeTop results) v :=
    action_readList _ H results v
  have whole := upto.trans called
  refine ⟨_, whole.sameStack, runAction_restoring fits.framed ?_ whole,
    runAction_restoring fits.framed ?_ whole⟩
  · rw [runAction_bind_of_ok placed depth, runAction_bind_of_ok ended depth', read]
  · rw [runAction_bind_of_ok placed depth, runAction_bind_of_ok agrees depth', read]

/-- The protected call takes the pending error and fails with its message. -/
theorem calls_of_raise {e : Error}
    (ended : runAction H (Action.call n results.length) u = .error (.raised e) v) :
    ∃ t, s.SameStack t ∧ runAction H (f.call args results xs) s = .error (.raised e) t ∧
      runAction H (f.callProtected args results xs) s =
        .error (.raised (.runtime e.message)) { t with lastError := none } := by
  have upto := upto_of_place fits catches placed
  have catches' : u.config.catchPanics = true := upto.within.catches.trans catches
  obtain ⟨operands, func⟩ := operands_of_place fits catches placed
  have above : s.stack.size < u.stack.size := func ▸ (functionSlot_bounds operands).2
  have agrees := pcall_agrees_with_call uses u upto.fits catches' operands results.length
    (func ▸ held)
  have called := upto_runAction_call uses upto.fits catches' operands results.length
  have outcome := call_outcome uses u upto.fits catches' n results.length
  rw [ended] at agrees outcome
  rw [func, final_of_error ended] at called
  obtain ⟨_, caught, rfl, -⟩ := agrees
  have depth : u.depthLeft = s.depthLeft := upto.within.depthLeft
  have depth' : v.depthLeft = u.depthLeft := called.within.depthLeft
  have whole := upto.trans called
  refine ⟨_, whole.sameStack, runAction_restoring fits.framed (r := .error e) ?_ whole, ?_⟩
  · rw [runAction_bind_of_ok placed depth, runAction_bind_of_error ended]
    rfl
  · have slots : v.stack.slots = u.stack.slots.take s.stack.size := func ▸ outcome.2.1 operands
    have cut : v.stack.size = s.stack.size := by
      rw [Stack.size, slots]
      exact size_take (Nat.le_of_lt above)
    obtain ⟨further, same⟩ := withMessage_cut upto.fits catches' called cut above e
    rw [← same]
    refine runAction_restoring fits.framed (r := .error (.runtime e.message)) ?_
      (upto.trans further)
    have taken := runAction_takeError H (withMessage e v)
    rw [runAction_bind_of_ok placed depth, runAction_bind_of_ok caught depth']
    by_cases full : e = .stackOverflow
    · rw [if_pos full]
      exact runAction_bind_of_ok taken rfl
    · rw [if_neg full]
      exact runAction_bind_of_ok taken rfl

end Placed

/-- A script function called plainly and in protected mode from one state. Whatever happens, the
stack is as before; the outcomes are the same unless the callee raises an error, which the protected
call replaces by its message, with no error left pending. -/
theorem script_calls_agree {H : Host E} (uses : H.Uses Op.KeepsOpen) {s : State E} (fits : s.Fits)
    (catches : s.config.catchPanics = true) (f : ScriptFunction) (args results : List (Shape E.Tag))
    (xs : Tuple E args)
    (held : ∀ n u, runAction H (f.place args xs) s = .ok n u →
      ReportsHeld (enter H u.depthLeft) s.stack.size u) :
    ∃ t, s.SameStack t ∧
      let plain := runAction H (f.call args results xs) s
      let guarded := runAction H (f.callProtected args results xs) s
      match runAction H (f.place args xs) s with
      | .error (.panicked _) _ => False
      | .error (.raised e) _ => plain = .error (.raised e) t ∧ guarded = .error (.raised e) t
      | .ok n u => match runAction H (Action.call n results.length) u with
        | .error (.panicked _) _ => False
        | .error (.raised e) _ => plain = .error (.raised e) t ∧
            guarded = .error (.raised (.runtime e.message)) { t with lastError := none }
        | .ok _ v => plain = ofExcept (v.decodeTop results) t ∧
            guarded = ofExcept (v.decodeTop results) t := by
  cases placed : runAction H (f.place args xs) s with
  | error fault u =>
    have upto : Upto s.stack.size s ((runAction H (f.place args xs)).final s) :=
      upto_place fits catches
    rw [final_of_error placed] at upto
    obtain ⟨e, rfl⟩ := (pushes_place f args xs (enter H s.depthLeft) H).raised placed
    have stopped {rest : Nat → Action E (Tuple E results)} :=
      runAction_restoring fits.framed (r := .error e) (runAction_bind_of_error (g := rest) placed)
        upto
    exact ⟨_, upto.sameStack, stopped, stopped⟩
  | ok n u =>
    dsimp only
    cases ended : runAction H (Action.call n results.length) u with
    | ok x v => exact calls_of_return fits catches placed uses results (held n u placed) ended
    | error fault v =>
      cases fault with
      | raised e => exact calls_of_raise fits catches placed uses results (held n u placed) ended
      | panicked p =>
        have upto := upto_of_place fits catches placed
        obtain ⟨operands, func⟩ := operands_of_place fits catches placed
        have agrees := pcall_agrees_with_call uses u upto.fits
          (upto.within.catches.trans catches) operands results.length (func ▸ held n u placed)
        rw [ended] at agrees
        exact agrees.elim

theorem script_calls_agree_raising :
    let H := Host.running do
      Action.push (.light 1)
      throw .stackUnderflow
    let s := State.plain #[.light 7]
    let f : ScriptFunction := ⟨⟨0⟩⟩
    ∃ t, s.SameStack t ∧
      runAction H (f.call [.boolean] [] (true, ())) s = .error (.raised .stackUnderflow) t ∧
      runAction H (f.callProtected [.boolean] [] (true, ())) s =
        .error (.raised (.runtime "stack underflow")) { t with lastError := none } := by
  intro H s f
  have uses : H.Uses Op.KeepsOpen := by
    apply Host.uses_running
    exact Prog.Uses.bind (Prog.uses_op trivial) fun _ => trivial
  have fits : s.Fits := State.plain_fits (by decide)
  have placed := run_of_returned? (m := runAction H (f.place [.boolean] (true, ()))) (s := s)
    (a := 1) (by decide +kernel)
  let u := (runAction H (f.place [.boolean] (true, ()))).final s
  have found := run_of_returned? (m := callee 1) (s := u) (a := ⟨0⟩) (by decide +kernel)
  have raises := run_of_raised? (m := enter H u.depthLeft ⟨0⟩)
    (s := ((callee 1).final u).descend 2) (e := .stackUnderflow) (by decide +kernel)
  have held : ∀ n w, runAction H (f.place [.boolean] (true, ())) s = .ok n w →
      ReportsHeld (enter H w.depthLeft) s.stack.size w := by
    intro n w ran k v ⟨g, x, called, entered⟩
    rw [placed] at ran
    cases ran
    obtain ⟨rfl, rfl⟩ := EStateM.Result.ok.inj (found.symm.trans called)
    have ended := raises.symm.trans entered
    contradiction
  have ended := run_of_raised? (s := u) (e := .stackUnderflow)
    (m := runAction H (Action.call (1 : Nat) ([] : List (Shape Empty)).length)) (by decide +kernel)
  have agree := script_calls_agree uses fits rfl f [.boolean] [] (true, ()) held
  simp only [placed] at agree
  simp only [u] at ended
  rw [ended] at agree
  exact agree

end Run
end HostBridge
