import HostBridge.Proofs.Call.Outcome

namespace HostBridge
namespace State
variable {E : Embedding}

def rebase (s : State E) (base : Nat) : State E := { s with base := base }

/-- No limit has been exceeded so far. The frame may begin anywhere: a callee that closes the state
leaves its caller a frame that begins beyond the end of the stack. -/
def Bounded (s : State E) : Prop := (s.rebase 0).Fits

@[simp] theorem stack_rebase (s : State E) (base : Nat) : (s.rebase base).stack = s.stack := rfl
@[simp] theorem heap_rebase (s : State E) (base : Nat) : (s.rebase base).heap = s.heap := rfl
@[simp] theorem config_rebase (s : State E) (base : Nat) : (s.rebase base).config = s.config := rfl
@[simp] theorem base_rebase (s : State E) (base : Nat) : (s.rebase base).base = base := rfl
@[simp] theorem descend_rebase (s : State E) (base func : Nat) :
    (s.rebase base).descend func = s.descend func := rfl
@[simp] theorem rebase_rebase (s : State E) (base other : Nat) :
    (s.rebase base).rebase other = s.rebase other := rfl
@[simp] theorem rebase_base (s : State E) : s.rebase s.base = s := rfl
@[simp] theorem rebase_mapSlots (s : State E) (base : Nat) (f : Array Value → Array Value) :
    (s.rebase base).mapSlots f = (s.mapSlots f).rebase base := rfl

theorem Fits.rebase {s : State E} (fits : s.Fits) {base : Nat} (inside : base ≤ s.stack.size) :
    (s.rebase base).Fits :=
  { fits with framed := inside }

theorem Fits.bounded {s : State E} (fits : s.Fits) : s.Bounded := fits.rebase (Nat.zero_le _)

theorem Bounded.size_le_maxDepth {s : State E} (bounded : s.Bounded) :
    s.stack.size ≤ s.stack.maxDepth :=
  Fits.size_le_maxDepth (s := s.rebase 0) bounded

theorem Bounded.mapSlots {s : State E} (bounded : s.Bounded) {f : Array Value → Array Value}
    (room : (f s.stack.slots).size ≤ s.stack.maxDepth) : (s.mapSlots f).Bounded :=
  Fits.mapSlots (s := s.rebase 0) bounded room (Nat.zero_le _)

theorem SameFrame.bounded {s t : State E} (same : s.SameFrame t) (bounded : s.Bounded) :
    t.Bounded :=
  SameFrame.fits (s := s.rebase 0) (t := t.rebase 0) { same with base := rfl } bounded

end State

namespace Run
open State
variable {E : Embedding} {α β : Type}

/-- The outcome of a run in a state whose frame begins at `base`. -/
def rebased (base : Nat) : EStateM.Result Fault (State E) α → EStateM.Result Fault (State E) α
  | .ok a t => .ok a (t.rebase base)
  | .error f t => .error f (t.rebase base)

theorem push_rebase (v : Value) (s : State E) (base : Nat) :
    push v (s.rebase base) = rebased base (push v s) := by
  rw [push_eq, push_eq]
  cases full : s.stack.isFull <;> simp [full, rebased]

theorem pushAll_rebase (vs : List Value) (s : State E) (base : Nat) :
    pushAll vs (s.rebase base) = rebased base (pushAll vs s) := by
  induction vs generalizing s with
  | nil => rfl
  | cons v vs ih =>
    rw [pushAll, bind_eq, bind_eq, push_rebase]
    cases push v s with
    | ok a t => exact ih t
    | error f t => rfl

theorem insertHandler_rebase (func : Nat) (v : Value) (s : State E) (base : Nat) :
    insertHandler func v (s.rebase base) = rebased base (insertHandler func v s) := by
  simp only [insertHandler, bind_eq, get_eq, heap_rebase, stack_rebase]
  cases s.heap.metafield v .call with
  | function f => by_cases full : s.stack.isFull = true <;> simp [full, rebased]
  | _ => rfl

theorem callee_rebase (func : Nat) (s : State E) (base : Nat) :
    callee func (s.rebase base) = rebased base (callee func s) := by
  simp only [callee, bind_eq, read_eq, stack_rebase]
  cases s.stack.get func with
  | error e => rfl
  | ok v =>
    cases v with
    | function f => rfl
    | _ => exact insertHandler_rebase func _ s base

theorem deliver_rebase (f : FunctionId) (func returned : Nat) (nresults : Int) (s : State E)
    (base : Nat) :
    deliver f func returned nresults (s.rebase base) =
      rebased base (deliver f func returned nresults s) := by
  rw [deliver_eq, deliver_eq]
  by_cases excess : s.stack.size - (func + 1) < returned
  · rw [if_pos excess]
    exact if_pos excess
  · rw [if_neg excess, ← pushAll_rebase]
    exact if_neg excess

def Overreports (enter : Enter E) : Prop :=
  ∃ f s n t, enter f s = .ok n t ∧ t.stack.size - t.base < n

/-- How a run from `s` ends that takes `popped` values off the stack and leaves `pushed` values
instead. What lies below them stays, and so does the frame. An error comes before anything is
pushed; a panic can only come from a body that reports more than it has. -/
def Replaces (enter : Enter E) (popped pushed : Nat) (s : State E) :
    EStateM.Result Fault (State E) α → Prop
  | .ok _ t => t.Bounded ∧ Within (s.stack.size - popped) s t ∧
      t.stack.size = s.stack.size - popped + pushed
  | .error (.raised _) t => t.Bounded ∧ Within (s.stack.size - popped) s t ∧
      t.stack.size = s.stack.size - popped
  | .error (.panicked _) t => Within (s.stack.size - popped) s t ∧ Overreports enter

theorem Replaces.rebase {enter : Enter E} {popped pushed : Nat} {s : State E}
    {r : EStateM.Result Fault (State E) α} (effect : Replaces enter popped pushed s r)
    (base : Nat) :
    Replaces enter popped pushed (s.rebase base) (rebased base r) := by
  cases r with
  | ok a t =>
    obtain ⟨bounded, within, size⟩ := effect
    exact ⟨bounded, { within with base := rfl }, size⟩
  | error f t =>
    cases f with
    | raised e =>
      obtain ⟨bounded, within, size⟩ := effect
      exact ⟨bounded, { within with base := rfl }, size⟩
    | panicked p =>
      obtain ⟨within, excess⟩ := effect
      exact ⟨{ within with base := rfl }, excess⟩

theorem cut_to_size {s t : State E} (fits : s.Fits) (catches : s.config.catchPanics = true)
    (upto : Upto s.stack.size s t) :
    (t.mapSlots (·.take s.stack.size)).Bounded ∧
      Within s.stack.size s (t.mapSlots (·.take s.stack.size)) ∧
      (t.mapSlots (·.take s.stack.size)).stack.size = s.stack.size := by
  have cut := upto.cut catches fits.framed
  exact ⟨cut.fits.bounded, cut.within, size_take upto.reaches⟩

section Callee
variable {enter : Enter E} (calm : Calm enter)
include calm

/-- A call does not look at where the frame of its caller begins, and puts it back there. -/
theorem callAt_rebase {s : State E} (catches : s.config.catchPanics = true) (func : Nat)
    (nresults : Int) (base : Nat) :
    callAt enter func nresults (s.rebase base) = rebased base (callAt enter func nresults s) := by
  rw [callAt_eq, callAt_eq, callee_rebase]
  cases found : callee func s with
  | error f t => rfl
  | ok f t =>
    have catches' : t.config.catchPanics = true := by
      rcases callee_cases func s with ⟨g, eq⟩ | ⟨g, -, eq⟩ | ⟨e, eq⟩ <;> rw [eq] at found <;>
        cases found <;> exact catches
    simp only [rebased]
    by_cases deep : t.config.maxCallDepth ≤ t.callDepth
    · have deep' : (t.rebase base).config.maxCallDepth ≤ (t.rebase base).callDepth := deep
      simp only [if_pos deep, if_pos deep']
    · have deep' : ¬(t.rebase base).config.maxCallDepth ≤ (t.rebase base).callDepth := deep
      simp only [if_neg deep, if_neg deep', descend_rebase]
      cases ran : enter f (t.descend (func + 1)) with
      | ok n v => exact deliver_rebase f func n nresults (v.ascend t.base) base
      | error e v =>
        cases e with
        | raised e => rfl
        | panicked p => exact absurd ran (calm f _ p v catches')

theorem callValue_rebase {s : State E} (fits : s.Fits) (catches : s.config.catchPanics = true)
    (f : Value) (args : List Value) (nresults : Int) (base : Nat) :
    callValue enter f args nresults (s.rebase base) =
      rebased base (callValue enter f args nresults s) := by
  rw [callValue_eq, callValue_eq, stack_rebase, rebase_mapSlots, bind_eq, bind_eq, pushAll_rebase]
  cases room : s.stack.isFull with
  | true => rfl
  | false =>
    simp only [Bool.false_eq_true, if_false]
    obtain ⟨fits', within⟩ := fits.guards_push room f fits catches
    have catches' : (s.mapSlots (·.push f)).config.catchPanics = true := catches
    have pushed := (pushes_pushAll args).upto fits' catches'
    cases placed : pushAll args (s.mapSlots (·.push f)) with
    | error e t => cases e <;> rfl
    | ok x t =>
      rw [final_of_ok placed] at pushed
      simp only [rebased]
      rw [callAt_rebase calm (pushed.within.catches.trans catches')]
      cases callAt enter s.stack.size nresults t with
      | ok y u => rfl
      | error e u => cases e <;> rfl

variable (enters : ∀ f, Respects Guards (enter f))
include enters

theorem overreports_of_panic {s : State E} (fits : s.Fits) (catches : s.config.catchPanics = true)
    {func : Nat} (above : s.base ≤ func) (inside : func < s.stack.size) {nresults : Int}
    {p : Panic} {t : State E} (ran : callAt enter func nresults s = .error (.panicked p) t) :
    Overreports enter := by
  rcases callAt_cases enters calm fits catches above inside nresults with
    ⟨e, u, raised⟩ | ⟨n, v, ⟨f, u, -, entered⟩, -, ⟨w, returned, -⟩ | ⟨q, w, -, excess⟩⟩
  · rw [ran] at raised
    cases raised
  · rw [ran] at returned
    contradiction
  · exact ⟨f, _, n, v, entered, excess⟩

/-- The same for a callee that has been put on the stack together with its arguments. -/
theorem overreports_of_placed {s : State E} (fits : s.Fits)
    (catches : s.config.catchPanics = true) (room : s.stack.isFull = false) {f : Value}
    {args : List Value} {nresults : Int} {p : Panic} {t : State E}
    (ran : (pushAll args >>= fun _ => callAt enter s.stack.size nresults)
      (s.mapSlots (·.push f)) = .error (.panicked p) t) : Overreports enter := by
  have size : (s.mapSlots (·.push f)).stack.size = s.stack.size + 1 := Array.size_push f
  obtain ⟨fits', -⟩ := fits.guards_push room f fits catches
  have pushed := (pushes_pushAll args).upto (s := s.mapSlots (·.push f)) fits' catches
  rw [bind_eq] at ran
  rcases pushAll_cases args (s.mapSlots (·.push f)) with ⟨u, given, -⟩ | ⟨u, k, given, -⟩
  · rw [final_of_ok given] at pushed
    rw [given] at ran
    have above : u.base ≤ s.stack.size := pushed.within.base ▸ fits.framed
    have inside : s.stack.size < u.stack.size := by
      have := pushed.reaches
      omega
    have catches' : u.config.catchPanics = true := pushed.within.catches.trans catches
    exact overreports_of_panic calm enters pushed.fits catches' above inside ran
  · rw [given] at ran
    cases ran

theorem callValue_effect {s : State E} (bounded : s.Bounded) (catches : s.config.catchPanics = true)
    (f : Value) (args : List Value) (nresults : Int) :
    Replaces enter 0 0 s (callValue enter f args nresults s) := by
  -- The frame may begin above the stack; it plays no part, so let it begin at the bottom.
  suffices framed : ∀ u : State E, u.Fits → u.config.catchPanics = true →
      Replaces enter 0 0 u (callValue enter f args nresults u) by
    have effect := (framed _ bounded catches).rebase s.base
    rwa [← callValue_rebase calm bounded catches] at effect
  clear bounded catches s
  intro s fits catches
  rw [callValue_eq]
  cases room : s.stack.isFull with
  | true => exact ⟨fits.bounded, .refl _ s, rfl⟩
  | false =>
    simp only [Bool.false_eq_true, if_false]
    have placed := upto_placed enters calm fits catches room f args nresults
    unfold final at placed
    cases ran : (pushAll args >>= fun _ => callAt enter s.stack.size nresults)
        (s.mapSlots (·.push f)) with
    | ok x t =>
      rw [ran] at placed
      exact cut_to_size fits catches placed
    | error e t =>
      rw [ran] at placed
      cases e with
      | raised e => exact cut_to_size fits catches placed
      | panicked p => exact ⟨placed.within, overreports_of_placed calm enters fits catches room ran⟩

end Callee

end Run
end HostBridge
