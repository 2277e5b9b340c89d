import HostBridge.Action.Functions
import HostBridge.Proofs.Call.Actions

namespace HostBridge

/-- No host types and no data; all functions run one program. -/
@[reducible] def Embedding.plain : Embedding where
  Tag := Empty
  tagName := Empty.elim
  Payload := Empty.elim
  Native := Unit
  Closure := Empty
  params := Empty.elim
  results := Empty.elim
  World := Unit

def Host.running (body : Action .plain Nat) : Host .plain where
  native _ := body
  closure code := code.elim
  members t := t.elim
  values _ := []
  handles _ := []

theorem Host.uses_running {P : Op .plain → Prop} {body : Action .plain Nat}
    (allowed : Prog.Uses (F := Op.effect .plain) P body) : (Host.running body).Uses P where
  native _ := allowed
  closure code := code.elim
  method t := t.elim
  operator t := t.elim

def State.plain (slots : Array Value) : State .plain :=
  { State.new .standard () with
    stack := ⟨slots, Config.standard.maxStackDepth⟩
    heap := { callables := #[⟨"plain", .native ()⟩] }
    peak := { size := slots.size } }

theorem State.plain_fits {slots : Array Value}
    (le : slots.size ≤ Config.standard.maxStackDepth) : (State.plain slots).Fits :=
  ⟨rfl, Nat.zero_le _, Nat.le_refl _, le, Nat.le_refl 0, Nat.zero_le _⟩

namespace Run
open State
variable {E : Embedding} {α : Type}

/-- The callee of the value at position `func` ran in a frame of its own, reported `n` results and
left the state `v`. -/
def Reports (enter : Enter E) (func : Nat) (s : State E) (n : Nat) (v : State E) : Prop :=
  ∃ f u, callee func s = .ok f u ∧ enter f (u.descend (func + 1)) = .ok n v

def reported (v : State E) (n : Nat) : List Value :=
  (v.stack.slots.extract (v.stack.size - n) v.stack.size).toList

theorem length_reported {v : State E} {n : Nat} (enough : n ≤ v.stack.size) :
    (reported v n).length = n := by
  have enough : n ≤ v.stack.slots.size := enough
  simp only [reported, Stack.size, Array.length_toList, Array.size_extract]
  omega

@[simp] theorem action_call (enter : Enter E) (H : Host E) (nargs nresults : Int) :
    action enter H (Action.call nargs nresults) = call enter nargs nresults :=
  action_op enter H (.call nargs nresults)

@[simp] theorem action_pcall (enter : Enter E) (H : Host E) (nargs nresults : Int) :
    action enter H (Action.pcall nargs nresults) = pcall enter nargs nresults :=
  action_op enter H (.pcall nargs nresults)

theorem runAction_perform (H : Host E) (o : Op E) (s : State E) :
    runAction H (Action.perform o) s = perform (enter H s.depthLeft) H o s :=
  congrFun (action_op (enter H s.depthLeft) H o) s

theorem runAction_call (H : Host E) (nargs nresults : Int) (s : State E) :
    runAction H (Action.call nargs nresults) s = call (enter H s.depthLeft) nargs nresults s :=
  runAction_perform H (.call nargs nresults) s

theorem runAction_pcall (H : Host E) (nargs nresults : Int) (s : State E) :
    runAction H (Action.pcall nargs nresults) s = pcall (enter H s.depthLeft) nargs nresults s :=
  runAction_perform H (.pcall nargs nresults) s

theorem upto_runAction_call {H : Host E} (uses : H.Uses Op.KeepsOpen) {s : State E} (fits : s.Fits)
    (catches : s.config.catchPanics = true) {nargs : Int} (operands : HasOperands s nargs)
    (nresults : Int) :
    Upto (functionSlot s nargs) s ((runAction H (Action.call nargs nresults)).final s) := by
  rw [final, runAction_call]
  exact upto_call (guards_enter uses s.depthLeft) (calm_enter H s.depthLeft) fits catches operands
    nresults

theorem deliver_cases (f : FunctionId) (func n : Nat) (nresults : Int) (v : State E) :
    (∃ t, deliver f func n nresults v = .ok () t ∧ n ≤ v.stack.size - (func + 1) ∧
      t.stack.slots = v.stack.slots.take func ++ (adjust (reported v n) nresults).toArray) ∨
    (∃ e t, deliver f func n nresults v = .error (.raised e) t) ∨
    ∃ p t, deliver f func n nresults v = .error (.panicked p) t ∧
      v.stack.size - (func + 1) < n := by
  rw [deliver_eq]
  by_cases excess : v.stack.size - (func + 1) < n
  · exact .inr (.inr ⟨_, _, if_pos excess, excess⟩)
  · rw [if_neg excess]
    rcases pushAll_cases (adjust (reported v n) nresults) (v.mapSlots (·.take func)) with
      ⟨t, eq, slots⟩ | ⟨t, k, eq, -⟩
    · exact .inl ⟨t, eq, Nat.le_of_not_lt excess, slots⟩
    · exact .inr (.inl ⟨_, t, eq⟩)

section Callee
variable {enter : Enter E} (enters : ∀ f, Respects Guards (enter f)) (calm : Calm enter)
include enters calm

/-- A call that does not raise ran its callee to the end: the results are delivered, or the callee
reported more than its frame held. -/
theorem callAt_cases {s : State E} (fits : s.Fits) (catches : s.config.catchPanics = true)
    {func : Nat} (above : s.base ≤ func) (inside : func < s.stack.size) (nresults : Int) :
    (∃ e t, callAt enter func nresults s = .error (.raised e) t) ∨
    ∃ n v, Reports enter func s n v ∧ v.base = func + 1 ∧
      ((∃ t, callAt enter func nresults s = .ok () t ∧ n ≤ v.stack.size - v.base ∧
        t.stack.slots = s.stack.slots.take func ++ (adjust (reported v n) nresults).toArray) ∨
      ∃ p t, callAt enter func nresults s = .error (.panicked p) t ∧ v.stack.size - v.base < n) := by
  rw [callAt_eq]
  cases found : callee func s with
  | error f t =>
    obtain ⟨-, e, rfl⟩ := callee_error found
    exact .inl ⟨e, t, rfl⟩
  | ok f u =>
    obtain ⟨upto, inside'⟩ := upto_callee fits catches above inside found
    have catches' : u.config.catchPanics = true := upto.within.catches.trans catches
    have above' : u.base ≤ func := upto.within.base ▸ above
    by_cases deep : u.config.maxCallDepth ≤ u.callDepth
    · exact .inl ⟨.stackOverflow, u, if_pos deep⟩
    · simp only [if_neg deep]
      cases ran : enter f (u.descend (func + 1)) with
      | error e v =>
        cases e with
        | raised e => exact .inl ⟨e, _, rfl⟩
        | panicked p => exact absurd ran (calm f _ p v catches')
      | ok n v =>
        have room := Nat.lt_of_not_le deep
        have base : v.base = func + 1 :=
          ((enters f).of_ok ran (upto.fits.descend inside' room) catches').2.base
        -- The values below the function slot have come through the lookup and the run of the callee.
        have entered := upto_entered enters upto.fits catches' above' inside' room f
        rw [final_of_ok ran] at entered
        have kept : v.stack.slots.take func = s.stack.slots.take func := (upto.trans entered).take
        have reports : Reports enter func s n v := ⟨f, u, found, ran⟩
        have delivered := deliver_cases f func n nresults (v.ascend u.base)
        rw [← base] at delivered
        rcases delivered with ⟨t, eq, enough, slots⟩ | ⟨e, t, eq⟩ | ⟨p, t, eq, excess⟩
        · exact .inr ⟨n, v, reports, base, .inl ⟨t, eq, enough, kept ▸ slots⟩⟩
        · exact .inl ⟨e, t, eq⟩
        · exact .inr ⟨n, v, reports, base, .inr ⟨p, t, eq, excess⟩⟩

end Callee

/-- Whenever a call returns, base and call depth are those of the caller, the slots below the
function are untouched, and the stack ends there on an error; otherwise the values that the callee
reported follow, cut or padded to the number that was asked for. Neither the stack nor the nesting
of calls ever went beyond its limit, as their peaks tell. The one way not to return is a callee that
reports more values than its frame holds. -/
theorem call_outcome {H : Host E} (uses : H.Uses Op.KeepsOpen) (s : State E) (fits : s.Fits)
    (catches : s.config.catchPanics = true) (nargs nresults : Int) :
    let func := functionSlot s nargs
    let Restored (t : State E) := t.base = s.base ∧ t.callDepth = s.callDepth ∧
      t.peak.size ≤ s.config.maxStackDepth ∧ t.peak.depth ≤ s.config.maxCallDepth
    match runAction H (Action.call nargs nresults) s with
    | .ok _ t => Restored t ∧ HasOperands s nargs ∧
        ∃ n v, Reports (enter H s.depthLeft) func s n v ∧
          v.base = func + 1 ∧ n ≤ v.stack.size - v.base ∧
          t.stack.slots = s.stack.slots.take func ++
            (if nresults < 0 then reported v n
              else (reported v n).take nresults.toNat ++
                List.replicate (nresults.toNat - n) Value.nil).toArray
    | .error (.raised _) t => Restored t ∧
        (HasOperands s nargs → t.stack.slots = s.stack.slots.take func) ∧
        (¬HasOperands s nargs → t = s)
    | .error (.panicked _) t => Restored t ∧ HasOperands s nargs ∧
        ∃ n v, Reports (enter H s.depthLeft) func s n v ∧ v.stack.size - v.base < n := by
  intro func Restored
  have enters := guards_enter uses s.depthLeft
  have calm := calm_enter H s.depthLeft
  have kept := guards_call enters calm nargs nresults
  have restored : ∀ t, s.Guards t → Restored t := by
    intro t guards
    obtain ⟨fits', within⟩ := guards fits catches
    refine ⟨within.base, within.callDepth, ?_, ?_⟩
    · exact within.stackLimit ▸ fits'.peak_size_le
    · exact within.callLimit ▸ fits'.peak_depth_le
  rw [runAction_call]
  by_cases operands : HasOperands s nargs
  · obtain ⟨above, inside⟩ := functionSlot_bounds operands
    have upto := upto_callAt enters fits catches above inside nresults calm
    have outcome := callAt_cases enters calm fits catches above inside nresults
    rcases outcome with ⟨e, t, ran⟩ |
      ⟨n, v, reports, base, ⟨t, ran, enough, slots⟩ | ⟨p, t, ran, excess⟩⟩
    · have called : call (enter H s.depthLeft) nargs nresults s =
          .error (.raised e) (t.mapSlots (·.take func)) := by
        rw [call_of_operands _ operands, ran]
      rw [final_of_error ran] at upto
      rw [called]
      refine ⟨restored _ (kept.of_error called), fun _ => upto.take, fun missing => ?_⟩
      exact absurd operands missing
    · have called : call (enter H s.depthLeft) nargs nresults s = .ok () t := by
        rw [call_of_operands _ operands, ran]
      rw [called]
      refine ⟨restored _ (kept.of_ok called), operands, n, v, reports, base, enough, ?_⟩
      have length : (reported v n).length = n := length_reported (by omega)
      rw [slots, adjust, length]
    · have called : call (enter H s.depthLeft) nargs nresults s = .error (.panicked p) t := by
        rw [call_of_operands _ operands, ran]
      rw [called]
      exact ⟨restored _ (kept.of_error called), operands, n, v, reports, excess⟩
  · obtain ⟨e, missing⟩ := callPosition_of_missing operands
    have called : call (enter H s.depthLeft) nargs nresults s = .error (.raised e) s := by
      rw [call_eq, missing]
    rw [called]
    refine ⟨restored _ (kept.of_error called), fun present => ?_, fun _ => rfl⟩
    exact absurd present operands

theorem call_outcome_padded :
    let H := Host.running do
      Action.push (.light 1)
      Action.push (.light 2)
      return 2
    let s := State.plain #[.light 7, .function ⟨0⟩, .light 8]
    ∃ t, runAction H (Action.call 1 3) s = .ok () t ∧
      t.stack.slots = #[.light 7, .light 1, .light 2, .nil] ∧
      t.base = s.base ∧ t.callDepth = s.callDepth ∧
      t.peak.size ≤ s.config.maxStackDepth ∧ t.peak.depth ≤ s.config.maxCallDepth := by
  intro H s
  have uses : H.Uses Op.KeepsOpen := by
    apply Host.uses_running
    apply Prog.Uses.bind (Prog.uses_op trivial)
    intro _
    exact Prog.Uses.bind (Prog.uses_op trivial) fun _ => trivial
  have fits : s.Fits := State.plain_fits (by decide)
  have ran := run_of_returned? (m := runAction H (Action.call 1 3)) (s := s) (a := ()) (by
    decide +kernel)
  have outcome := call_outcome uses s fits rfl 1 3
  rw [ran] at outcome
  exact ⟨_, ran, by decide +kernel, outcome.1⟩

end Run
end HostBridge
