import HostBridge.Proofs.Call.Outcome

namespace HostBridge
namespace Run
open State
variable {E : Embedding}

theorem ofError_eq (e : Error) :
    CallStatus.ofError e = if e = .stackOverflow then .memoryError else .runtimeError := by
  cases e <;> rfl

theorem runAction_takeError (H : Host E) (s : State E) :
    runAction H Action.takeError s = .ok s.lastError { s with lastError := none } :=
  runAction_perform H .takeError s

/-- A callee that reports no more results than its frame holds. -/
def ReportsHeld (enter : Enter E) (func : Nat) (s : State E) : Prop :=
  ∀ n v, Reports enter func s n v → n ≤ v.stack.size - v.base

theorem Reports.entered {enter : Enter E} {func n : Nat} {s v : State E} {f : FunctionId}
    (reports : Reports enter func s n v) (called : callee func s = .ok f s) :
    enter f (s.descend (func + 1)) = .ok n v := by
  obtain ⟨g, u, found, ran⟩ := reports
  rw [called] at found
  cases found
  exact ran

theorem callAt_not_panicked {enter : Enter E} (enters : ∀ f, Respects Guards (enter f))
    (calm : Calm enter) {s : State E} (fits : s.Fits) (catches : s.config.catchPanics = true)
    {func : Nat} (above : s.base ≤ func) (inside : func < s.stack.size) (nresults : Int)
    (held : ReportsHeld enter func s) (p : Panic) (t : State E) :
    callAt enter func nresults s ≠ .error (.panicked p) t := by
  intro ran
  rcases callAt_cases enters calm fits catches above inside nresults with
    ⟨e, u, raised⟩ | ⟨n, v, reports, -, ⟨u, returned, -⟩ | ⟨q, u, -, excess⟩⟩
  · rw [ran] at raised
    cases raised
  · rw [ran] at returned
    contradiction
  · exact absurd (held n v reports) (Nat.not_le_of_lt excess)

/-- A protected call of operands in the frame never fails. It ends like the plain call where that
returns, and otherwise has the message of the error, for which there is always room, on top of what
the plain call leaves; the error can be taken once. -/
theorem pcall_agrees_with_call {H : Host E} (uses : H.Uses Op.KeepsOpen) (s : State E)
    (fits : s.Fits) (catches : s.config.catchPanics = true) {nargs : Int}
    (operands : HasOperands s nargs) (nresults : Int)
    (held : ReportsHeld (enter H s.depthLeft) (functionSlot s nargs) s) :
    match runAction H (Action.call nargs nresults) s with
    | .ok _ t => runAction H (Action.pcall nargs nresults) s = .ok .ok t
    | .error (.raised e) t =>
      ∃ t', runAction H (Action.pcall nargs nresults) s =
          .ok (if e = .stackOverflow then .memoryError else .runtimeError) t' ∧
        t' = withMessage e t ∧
        ∃ t'', runAction H Action.takeError t' = .ok (some e) t'' ∧
          runAction H Action.takeError t'' = .ok none t''
    | .error (.panicked _) _ => False := by
  have enters := guards_enter uses s.depthLeft
  have calm := calm_enter H s.depthLeft
  obtain ⟨above, inside⟩ := functionSlot_bounds operands
  have upto := upto_callAt enters fits catches above inside nresults calm
  rw [runAction_call, runAction_pcall, call_of_operands _ operands,
    pcall_of_operands _ fits operands upto]
  cases ran : callAt (enter H s.depthLeft) (functionSlot s nargs) nresults s with
  | ok x t => rfl
  | error f t =>
    cases f with
    | panicked p =>
      exact callAt_not_panicked enters calm fits catches above inside nresults held p t ran
    | raised e =>
      simp only [ofError_eq]
      refine ⟨_, rfl, rfl, _, runAction_takeError H _, ?_⟩
      exact runAction_takeError H _

theorem pcall_agrees_with_call_failing :
    let H := Host.running do
      Action.push (.light 1)
      throw (.runtime "broken")
    let s := State.plain #[.light 7, .function ⟨0⟩, .light 8]
    ∃ t u, runAction H (Action.call 1 0) s = .error (.raised (.runtime "broken")) t ∧
      t.stack.slots = #[.light 7] ∧
      runAction H (Action.pcall 1 0) s = .ok .runtimeError (withMessage (.runtime "broken") t) ∧
      runAction H Action.takeError (withMessage (.runtime "broken") t) =
        .ok (some (.runtime "broken")) u ∧
      runAction H Action.takeError u = .ok none u := by
  intro H s
  have uses : H.Uses Op.KeepsOpen := by
    apply Host.uses_running
    exact Prog.Uses.bind (Prog.uses_op trivial) fun _ => trivial
  have fits : s.Fits := State.plain_fits (by decide)
  have operands : HasOperands s 1 := by
    constructor <;> decide
  have raises := run_of_raised? (m := enter H s.depthLeft ⟨0⟩) (s := s.descend 2)
    (e := .runtime "broken") (by decide +kernel)
  have held : ReportsHeld (enter H s.depthLeft) (functionSlot s 1) s := by
    intro n v reports
    have called : callee (functionSlot s 1) s = .ok ⟨0⟩ s := rfl
    have ran : enter H s.depthLeft ⟨0⟩ (s.descend 2) = .ok n v := reports.entered called
    rw [raises] at ran
    contradiction
  have ran := run_of_raised? (m := runAction H (Action.call 1 0)) (s := s)
    (e := .runtime "broken") (by decide +kernel)
  have agrees := pcall_agrees_with_call uses s fits rfl operands 0 held
  rw [ran] at agrees
  obtain ⟨t', caught, rfl, u, taken, again⟩ := agrees
  exact ⟨_, u, ran, by decide +kernel, caught, taken, again⟩

end Run
end HostBridge
