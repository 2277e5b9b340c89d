import HostBridge.Action.Operators
import HostBridge.Catalog.Types
import HostBridge.Proofs.Call.Guarded
import HostBridge.Proofs.Call.Holding
/-!
Who gets at an object that the host holds. As long as one holds it for writing it is closed to all
others, and as long as anybody holds it nobody can write; this goes for the host and its handles as
for scripts and their userdata, whatever the way on which they come to a member.
-/
namespace HostBridge

def Access.Beside (held : List Access) : Access → Prop
  | shared => .exclusive ∉ held
  | exclusive => held = []

namespace Heap
variable {E : Embedding} {t : E.Tag} {h h' : Heap E} {held : ObjectId → List Access}

/-- The handle is to an object of its type that is not in use. -/
structure Free (h : Heap E) (r : HostRef E t) : Prop where
  backs : h.Backs r
  unused : h.borrow r.object = {}

theorem Lent.admits (lent : h.Lent held h') {r : HostRef E t} (free : h.Free r) (a : Access) :
    (h'.borrow r.object).admits a = true ↔ a.Beside (held r.object) := by
  obtain ⟨x, found, -⟩ := free.backs
  rw [lent.borrow r.object (object?_lt found), free.unused]
  have decides := Borrow.admits_adding_free (held r.object)
  cases a with
  | shared => exact decides.1
  | exclusive => exact decides.2

/-- The handler for an event of two operands, the first one's before the second one's. -/
def handler (h : Heap E) (a b : Value) (e : Event) : Value :=
  if (h.metafield a e).isNil then h.metafield b e else h.metafield a e

end Heap

namespace State
open Run
variable {E : Embedding}

/-- What host code does with an object through a handle to it, or a userdata. -/
inductive HostAccess (s : State E) {t : E.Tag} (r : HostRef E t) :
    {α : Type} → Access → Action E α → Prop
  | read : HostAccess s r .shared r.read
  | copy {u : UserdataId} (found : s.heap.refOf t u = .ok r) :
      HostAccess s r .shared (Action.decode (.object t) (.userdata u))
  | write (x : E.Payload t) : HostAccess s r .exclusive (r.write x)
  | update (f : E.Payload t → E.Payload t) : HostAccess s r .exclusive (r.update f)
  | acquire (a : Access) : HostAccess s r a (Action.perform (.acquire t r a))

/-- An action that begins at `start` comes to call the function `g` with `args`, by itself, as a
handler or from the stack. It does so in state `s`, and `func` is the place of `g` on the stack. -/
inductive Calls (H : Host E) (d : Nat) (g : FunctionId) (args : List Value) (func : Nat)
    (s : State E) : {α : Type} → Action E α → State E → Prop
  | value {k : Int} {waiting : List Value} (place : func = s.stack.size)
      (room : ¬Refuses s args) :
      Calls H d g args func s (Action.callValue (.function g) args k waiting) s
  | index {u : UserdataId} {key : Value} (place : func = s.stack.size) (room : ¬Refuses s args)
      (given : args = [.userdata u, key])
      (handled : s.heap.metafield (.userdata u) .index = .function g) :
      Calls H d g args func s (Action.index (.userdata u) key) s
  | newIndex {u : UserdataId} {key v : Value} (place : func = s.stack.size)
      (room : ¬Refuses s args) (given : args = [.userdata u, key, v])
      (handled : s.heap.metafield (.userdata u) .newIndex = .function g) :
      Calls H d g args func s (Action.newIndex (.userdata u) key v) s
  | arith {op : Arith} {a b : Value} (place : func = s.stack.size) (room : ¬Refuses s args)
      (given : args = [a, b]) (other : a.kind ≠ .number ∨ b.kind ≠ .number)
      (handled : s.heap.handler a b op.event = .function g) :
      Calls H d g args func s (Action.arithValues op a b) s
  | concat {a b : Value} {waiting : List Value} (place : func = s.stack.size)
      (room : ¬Refuses s args) (given : args = [a, b])
      (other : a.concatText? = none ∨ b.concatText? = none)
      (handled : s.heap.handler a b .concat = .function g) :
      Calls H d g args func s (Action.concatPair a b waiting) s
  | compare {op : Comparison} {a b : Value} (place : func = s.stack.size)
      (room : ¬Refuses s args) (given : args = [a, b]) (undecided : op.decided? a b = none)
      (handled : s.heap.handler a b op.event = .function g) :
      Calls H d g args func s (Action.compareValues a b op) s
  | length {v : Value} (place : func = s.stack.size) (room : ¬Refuses s args)
      (given : args = [v, v]) (other : v.kind ≠ .string)
      (handled : s.heap.metafield v .len = .function g) :
      Calls H d g args func s (Action.lengthOf v) s
  | placed {low : Array Value} {k : Int} (place : func = low.size)
      (slots : s.stack.slots = low.push (.function g) ++ args.toArray)
      (framed : s.base ≤ low.size) (shallow : s.callDepth < s.config.maxCallDepth) :
      Calls H d g args func s (Action.call args.length k) s
  | first {α β : Type} {m : Action E α} {next : α → Action E β} {start : State E}
      (calls : Calls H d g args func s m start) : Calls H d g args func s (m >>= next) start
  | after {α β : Type} {m : Action E α} {next : α → Action E β} {start mid : State E} {x : α}
      (ran : action (enter H d) H m start = .ok x mid)
      (calls : Calls H d g args func s (next x) mid) : Calls H d g args func s (m >>= next) start

end State

namespace Run
open State
variable {E : Embedding} {H : Host E} {α β : Type}

section Host
variable {t : E.Tag} {s : State E} {r : HostRef E t} {enter : Enter E}

theorem decode_object {u : UserdataId} (found : s.heap.refOf t u = .ok r) (backs : s.heap.Backs r) :
    ∃ x, s.decode (.object t) (.userdata u) =
      if (s.heap.borrow r.object).admits .shared then .ok x
      else .error (.instanceBorrowed (E.tagName t)) := by
  obtain ⟨x, held⟩ := Heap.payload_of_backs backs
  refine ⟨x, ?_⟩
  have unfolded : s.decode (.object t) (.userdata u) =
      (s.heap.refOf t u >>= fun r => s.heap.admits r .shared >>= fun _ => s.heap.payload r) := rfl
  rw [unfolded, found]
  change (s.heap.admits r .shared >>= fun _ => s.heap.payload r) = _
  rw [Heap.admits_eq, held]
  split <;> rfl

theorem action_read {x : E.Payload t} (held : s.heap.payload r = .ok x) :
    action enter H r.read s =
      if (s.heap.borrow r.object).admits .shared then .ok x s
      else .error (.raised (.instanceBorrowed (E.tagName t))) s := by
  refine (congrFun (action_op enter H (.read t r)) s).trans ?_
  simp only [perform, bind_eq, read_eq, Heap.admits_eq]
  cases (s.heap.borrow r.object).admits .shared with
  | false => rfl
  | true => simp only [if_true, ofExcept_ok, pure_eq, held]

theorem action_write {x : E.Payload t} :
    action enter H (r.write x) s =
      if (s.heap.borrow r.object).admits .exclusive then
        .ok () { s with heap := s.heap.setPayload r x }
      else .error (.raised (.instanceBorrowed (E.tagName t))) s := by
  refine (congrFun (action_op enter H (.write t r x)) s).trans ?_
  simp only [perform, bind_eq, read_eq, Heap.admits_eq]
  cases (s.heap.borrow r.object).admits .exclusive <;> rfl

theorem hostAccess_outcome {a : Access} {m : Action E α} (access : HostAccess s r a m)
    (backs : s.heap.Backs r) :
    ((s.heap.borrow r.object).admits a = true → ∃ x s', action enter H m s = .ok x s') ∧
      ((s.heap.borrow r.object).admits a = false →
        action enter H m s = .error (.raised (.instanceBorrowed (E.tagName t))) s) := by
  obtain ⟨x, held⟩ := Heap.payload_of_backs backs
  cases access with
  | read =>
    rw [action_read held]
    exact ⟨fun admitted => ⟨x, s, if_pos admitted⟩, fun busy => if_neg (Bool.eq_false_iff.mp busy)⟩
  | @copy u found =>
    obtain ⟨y, decodes⟩ := decode_object found backs
    have ran : action enter H (Action.decode (.object t) (.userdata u)) s =
        read (·.decode (.object t) (.userdata u)) s :=
      congrFun (action_op enter H (.decode (.object t) (.userdata u))) s
    rw [ran, read_eq, decodes]
    refine ⟨fun admitted => ⟨y, s, ?_⟩, fun busy => ?_⟩
    · rw [if_pos admitted]
      rfl
    · rw [if_neg (Bool.eq_false_iff.mp busy)]
      rfl
  | write y =>
    rw [action_write]
    exact ⟨fun admitted => ⟨(), _, if_pos admitted⟩, fun busy => if_neg (Bool.eq_false_iff.mp busy)⟩
  | update f =>
    rw [HostRef.update, action_bind, bind_eq, action_read held]
    refine ⟨fun admitted => ?_, fun busy => ?_⟩
    · have readable : (s.heap.borrow r.object).admits .shared = true := by
        simp only [Borrow.admits, Bool.and_eq_true] at admitted ⊢
        exact admitted.1
      rw [if_pos readable]
      exact ⟨(), _, action_write.trans (if_pos admitted)⟩
    · cases (s.heap.borrow r.object).admits .shared with
      | false => rfl
      | true =>
        rw [if_pos rfl]
        exact action_write.trans (if_neg (Bool.eq_false_iff.mp busy))
  | acquire a =>
    have ran := (congrFun (action_op enter H (.acquire t r a)) s).trans (perform_acquire H r a s)
    rw [show action enter H (Action.perform (.acquire t r a)) s = _ from ran]
    exact ⟨fun admitted => ⟨(), _, if_pos admitted⟩, fun busy => if_neg (Bool.eq_false_iff.mp busy)⟩

end Host

/-- How the body `n` of a function goes from `y` on decides how the run goes that calls it from `s`:
its failure is a failure of the run, and what it puts on record stays there. -/
structure Passes (n : Run E β) (y : State E) (m : Run E α) (start s : State E) : Prop where
  refused : ∀ e, Refused e n y y → Refused e m start s
  records : ∀ member, Records member n y y → Records member m start s

namespace Passes
variable {γ : Type} {n : Run E β} {y start start' s : State E} {m : Run E α} {m' : Run E α}

theorem bind (passes : Passes n y m start s) {f : α → Run E γ}
    (rest : ∀ x, Respects (Evolves H) (f x)) : Passes n y (m >>= f) start s where
  refused e refused := (passes.refused e refused).bind
  records member records := (passes.records member records).bind rest

theorem congr (same : m start = m' start') (passes : Passes n y m' start' s) :
    Passes n y m start s where
  refused e refused := (passes.refused e refused).congr same
  records member records := (passes.records member records).congr same

theorem guarded {t : E.Tag} {asked : List (HostRef E t)} {a : Access} {member : MemberRun E}
    (passes : Passes n y m start s) (heap : y.heap = s.heap)
    (guarded : Guarded asked a member n y y) : Guarded asked a member m start s where
  through admitted := passes.records member (guarded.through (heap ▸ admitted))
  refused r listed busy := passes.refused _ (guarded.refused r listed (heap ▸ busy))

end Passes

/-- The state in which the body of a function begins that lies in place `func`. -/
def Begins (s : State E) (func : Nat) (args : List Value) (y : State E) : Prop :=
  ∃ (low : Array Value) (peak : Peak) (waiting : List Value), low.size = func + 1 ∧
    y = ((s.awaiting waiting).holding (low ++ args.toArray) peak).descend (func + 1)

section Calling
variable {s : State E} {d : Nat} {g : FunctionId} {args : List Value}

theorem passes_callAt {low : Array Value}
    (slots : s.stack.slots = low.push (.function g) ++ args.toArray)
    (shallow : s.callDepth < s.config.maxCallDepth) (k : Int) :
    Passes (enter H d g) (s.descend (low.size + 1)) (callAt (enter H d) low.size k) s s := by
  have called := callAt_of_placed slots (enter H d) k
  rw [if_neg (Nat.not_le_of_lt shallow)] at called
  refine ⟨fun e ⟨u, untouched, failed⟩ => ?_, fun member ⟨later, recorded, listed⟩ => ?_⟩
  · rw [failed] at called
    obtain ⟨held, peak, rfl⟩ := untouched
    exact ⟨_, ⟨held, peak, rfl⟩, called⟩
  · have goesOn : ∃ more, ((callAt (enter H d) low.size k).final s).memberRuns =
        more ++ ((enter H d g).final (s.descend (low.size + 1))).memberRuns := by
      unfold final
      rw [called]
      cases enter H d g (s.descend (low.size + 1)) with
      | ok n v => exact (evolves_deliver (H := H) g low.size n k (v.ascend s.base)).changes.memberRuns_append
      | error e v => cases e <;> exact ⟨[], rfl⟩
    obtain ⟨more, after⟩ := goesOn
    refine ⟨more ++ later, ?_, List.mem_append_right _ listed⟩
    rw [after, recorded, List.append_assoc]
    rfl

theorem Passes.of_untouched {n : Run E β} {y start s' : State E} {m : Run E α}
    (same : s.Untouched s') (passes : Passes n y m start s') : Passes n y m start s where
  refused e refused := (passes.refused e refused).of_untouched same
  records member records := by
    obtain ⟨later, recorded, listed⟩ := passes.records member records
    exact ⟨later, same.memberRuns ▸ recorded, listed⟩

theorem Passes.orTruncate {n : Run E β} {y start : State E} {m : Run E α}
    (passes : Passes n y m start s) (func : Nat) : Passes n y (orTruncate func m) start s where
  refused e refused := by
    obtain ⟨u, untouched, failed⟩ := passes.refused e refused
    refine ⟨_, untouched.trans (untouched_mapSlots u (·.take func)), ?_⟩
    rw [orTruncate_eq, failed]
  records member records := by
    obtain ⟨later, recorded, listed⟩ := passes.records member records
    refine ⟨later, ?_, listed⟩
    rw [← recorded]
    unfold final
    rw [orTruncate_eq]
    cases m start with
    | ok x u => rfl
    | error e u => cases e <;> rfl

theorem passes_call {low : Array Value} (slots : s.stack.slots = low.push (.function g) ++ args.toArray)
    (framed : s.base ≤ low.size) (shallow : s.callDepth < s.config.maxCallDepth) (k : Int) :
    Passes (enter H d g) (s.descend (low.size + 1)) (call (enter H d) args.length k) s s := by
  have operands := operands_of_placed slots framed
  have called : call (enter H d) args.length k s =
      orTruncate low.size (callAt (enter H d) low.size k) s := by
    rw [call_of_operands _ operands, functionSlot_of_placed slots, orTruncate_eq]
    cases callAt (enter H d) low.size k s with
    | ok x t => rfl
    | error e t => cases e <;> rfl
  exact Passes.congr called ((passes_callAt slots shallow k).orTruncate low.size)

theorem passes_callValue (room : ¬Refuses s args) (k : Int) : ∃ y, Begins s s.stack.size args y ∧
    Passes (enter H d g) y (callValue (enter H d) (.function g) args k) s s := by
  obtain ⟨fits, shallow⟩ := not_or.mp room
  have fits : s.stack.size + 1 + args.length ≤ s.stack.maxDepth := Nat.le_of_not_lt fits
  have shallow : s.callDepth < s.config.maxCallDepth := Nat.lt_of_not_le shallow
  have free : s.stack.isFull = false := Stack.free_iff.mpr (by
    rw [Stack.size] at fits
    omega)
  let pushed := s.mapSlots (·.push (.function g))
  have size : pushed.stack.size = s.stack.size + 1 := Array.size_push _
  obtain ⟨peak, placed⟩ : ∃ peak, pushAll args pushed = .ok () (pushed.holding _ peak) :=
    pushAll_of_room (size ▸ fits)
  let low := s.stack.slots.push (.function g)
  let u := s.holding (low ++ args.toArray) peak
  have ends : callValue (enter H d) (.function g) args k s =
      (orTruncate s.stack.size (callAt (enter H d) s.stack.size k) >>= fun _ => get >>= fun t =>
        truncate s.stack.size >>= fun _ =>
          pure (t.stack.slots.extract s.stack.size t.stack.size).toList) u := by
    have placed : pushAll args (s.mapSlots (·.push (.function g))) = .ok () u := placed
    simp only [callValue_eq, free, Bool.false_eq_true, if_false, bind_eq, placed, orTruncate_eq]
    cases callAt (enter H d) s.stack.size k u with
    | ok x t => rfl
    | error e t => cases e <;> rfl
  have called : Passes (enter H d g) (u.descend (s.stack.size + 1))
      (callAt (enter H d) s.stack.size k) u u :=
    passes_callAt (show u.stack.slots = s.stack.slots.push (.function g) ++ _ from rfl) shallow k
  have truncated := (called.orTruncate s.stack.size).bind (H := H)
    (f := fun _ => get >>= fun t => truncate s.stack.size >>= fun _ =>
      pure (t.stack.slots.extract s.stack.size t.stack.size).toList)
    fun _ => evolves_get_bind fun t => evolves_bind (evolves_truncate _) fun _ => evolves_pure _
  have untouched : s.Untouched u := ⟨_, _, rfl⟩
  exact ⟨u.descend (s.stack.size + 1), ⟨low, peak, s.waiting, Array.size_push _, rfl⟩,
    Passes.congr ends (truncated.of_untouched untouched)⟩

theorem passes_keeping (room : ¬Refuses s args) (k : Int) (waiting : List Value) :
    ∃ y, Begins s s.stack.size args y ∧
      Passes (enter H d g) y (keeping waiting (callValue (enter H d) (.function g) args k)) s s := by
  cases waiting with
  | nil => exact passes_callValue room k
  | cons v vs =>
    let ws := v :: vs ++ s.waiting
    have room : ¬Refuses (s.awaiting ws) args := room
    obtain ⟨y, begins, passes⟩ := passes_callValue (H := H) (d := d) (g := g) room k
    refine ⟨y, begins, fun e refused => ?_, fun member records => ?_⟩
    · obtain ⟨u, ⟨held, peak, rfl⟩, failed⟩ := passes.refused e refused
      refine ⟨s.holding held peak, ⟨held, peak, rfl⟩, ?_⟩
      rw [keeping_cons, failed]
      rfl
    · obtain ⟨later, recorded, listed⟩ := passes.records member records
      refine ⟨later, ?_, listed⟩
      rw [final_keeping]
      exact recorded

section Handled
variable {enter : Enter E}

theorem action_callForOne (f : Value) (args waiting : List Value) :
    action enter H (Action.callForOne f args waiting) =
      keeping waiting (callValue enter f args 1) >>= fun vs => pure (vs.getLastD .nil) := by
  funext s
  simp only [Action.callForOne, action_bind, action_callValue, action_pure, bind_eq]

theorem action_handlerOf (a b : Value) (e : Event) (s : State E) :
    action enter H (Action.handlerOf a b e) s = .ok (s.heap.handler a b e) s := by
  simp only [Action.handlerOf, action_bind, bind_eq, action_metafield, Heap.handler]
  cases (s.heap.metafield a e).isNil with
  | true => exact action_metafield b e s
  | false => rfl

variable {a b : Value}

theorem action_arithValues_handled {op : Arith} (other : a.kind ≠ .number ∨ b.kind ≠ .number)
    (handled : s.heap.handler a b op.event = .function g) :
    action enter H (Action.arithValues op a b) s =
      (keeping [a, b] (callValue enter (.function g) [a, b] 1) >>= fun vs =>
        pure (vs.getLastD .nil)) s := by
  have asks : Action.arithValues (E := E) op a b = (do
      let h ← Action.handlerOf a b op.event
      if h.isNil then
        throw (.arithmeticOperand op.operation (if a.kind = .number then b.kind else a.kind))
      Action.callForOne h [a, b] [a, b]) := by
    unfold Action.arithValues
    split
    · exact absurd other (by simp [Value.kind])
    · rfl
  rw [asks, action_bind, bind_eq, action_handlerOf, handled]
  exact congrFun (action_callForOne _ _ _) s

theorem action_concatPair_handled {waiting : List Value}
    (other : a.concatText? = none ∨ b.concatText? = none)
    (handled : s.heap.handler a b .concat = .function g) :
    action enter H (Action.concatPair a b waiting) s =
      (keeping waiting (callValue enter (.function g) [a, b] 1) >>= fun vs =>
        pure (vs.getLastD .nil)) s := by
  unfold Action.concatPair
  split
  · rename_i x y first second
    rw [first, second] at other
    rcases other with none | none <;> cases none
  · rw [action_bind, bind_eq, action_handlerOf, handled]
    exact congrFun (action_callForOne _ _ _) s

theorem action_compareValues_handled {op : Comparison} (undecided : op.decided? a b = none)
    (handled : s.heap.handler a b op.event = .function g) :
    action enter H (Action.compareValues a b op) s =
      (callValue enter (.function g) [a, b] 1 >>= fun vs => pure (vs.headD .nil).isTruthy) s := by
  simp only [Action.compareValues, undecided, action_bind, bind_eq, action_handlerOf, handled,
    Value.isNil, Bool.false_eq_true, if_false, action_callValue, keeping_nil, action_pure]

theorem action_lengthOf_handled {v : Value} (other : v.kind ≠ .string)
    (handled : s.heap.metafield v .len = .function g) :
    action enter H (Action.lengthOf v) s =
      (callValue enter (.function g) [v, v] 1 >>= fun vs => pure (vs.getLastD .nil)) s := by
  unfold Action.lengthOf
  split
  · exact absurd rfl other
  · rw [action_bind, bind_eq, action_metafield, handled]
    simp only [Value.isNil, Bool.not_false, if_true, bind_eq, action_callForOne, keeping_nil]

end Handled

theorem passes_of_calls {func : Nat} {m : Action E α} {start : State E}
    (calls : Calls H d g args func s m start) : ∃ y, Begins s func args y ∧
      Passes (enter H d g) y (action (enter H d) H m) start s := by
  have goes {α : Type} (m : Action E α) : Respects (Evolves H) (action (enter H d) H m) :=
    evolves_action (evolves_enter d) m
  have value {α : Type} {m : Action E α} {k : Int} (waiting : List Value) (next : List Value → α)
      (place : func = s.stack.size) (room : ¬Refuses s args)
      (same : action (enter H d) H m s =
        (keeping waiting (callValue (enter H d) (.function g) args k) >>= fun vs =>
          pure (next vs)) s) :
      ∃ y, Begins s func args y ∧ Passes (enter H d g) y (action (enter H d) H m) s s := by
    subst place
    obtain ⟨y, begins, passes⟩ := passes_keeping (H := H) (d := d) (g := g) room k waiting
    exact ⟨y, begins, Passes.congr same (passes.bind (H := H) fun vs => evolves_pure _)⟩
  induction calls with
  | @value k waiting place room =>
    refine value (k := k) waiting id place room ?_
    rw [action_callValue]
    exact (congrFun (bind_pure _) s).symm
  | index place room given handled =>
    subst given
    refine value (k := 1) [] (·.getLastD .nil) place room ?_
    rw [action_index_userdata handled, bind_eq, keeping_nil]
    cases callValue (enter H d) (.function g) _ 1 s <;> rfl
  | @newIndex u key v place room given handled =>
    subst given
    have empty : s.heap.held key (.userdata u) = .nil := rfl
    exact value [] (fun _ => ()) place room (newIndexChain_function v empty handled)
  | arith place room given other handled =>
    subst given
    exact value _ (·.getLastD .nil) place room (action_arithValues_handled other handled)
  | concat place room given other handled =>
    subst given
    exact value _ (·.getLastD .nil) place room (action_concatPair_handled other handled)
  | compare place room given undecided handled =>
    subst given
    exact value [] (fun vs => (vs.headD .nil).isTruthy) place room
      (action_compareValues_handled undecided handled)
  | length place room given other handled =>
    subst given
    exact value [] (·.getLastD .nil) place room (action_lengthOf_handled other handled)
  | @placed low k place slots framed shallow =>
    subst place
    refine ⟨_, ⟨low.push (.function g), s.peak, s.waiting, Array.size_push _, ?_⟩,
      Passes.congr (congrFun (action_op _ H (.call args.length k)) s)
        (passes_call slots framed shallow k)⟩
    rw [← slots]
    rfl
  | first calls ih =>
    obtain ⟨y, begins, passes⟩ := ih
    refine ⟨y, begins, ?_⟩
    rw [action_bind]
    exact passes.bind (H := H) fun x => goes _
  | after ran calls ih =>
    obtain ⟨y, begins, passes⟩ := ih
    refine ⟨y, begins, Passes.congr ?_ passes⟩
    rw [action_bind, bind_eq, ran]

variable {func : Nat}

theorem Begins.same {y : State E} (begins : Begins s func args y) :
    y.heap = s.heap ∧ y.config = s.config ∧ y.stack.maxDepth = s.stack.maxDepth ∧
      ∃ low : Array Value, low.size = func + 1 ∧ y.base = low.size ∧
        y.stack.slots = low ++ args.toArray := by
  obtain ⟨low, peak, waiting, size, rfl⟩ := begins
  exact ⟨rfl, rfl, rfl, low, size, size.symm, rfl⟩

variable {name : String} {entry : Entry E} {m : Action E α} {start : State E}
  (known : s.heap.callable? g = some ⟨name, entry⟩)
  (calls : Calls H (d + 1) g args func s m start)
include known calls

theorem guarded_of_calls {t : E.Tag} {asked : List (HostRef E t)} {a : Access}
    {member : MemberRun E} (asks : Asks H s (func + 1) args entry asked a member)
    (backs : ∀ r ∈ asked, s.heap.Backs r) :
    Guarded asked a member (action (enter H (d + 1)) H m) start s := by
  obtain ⟨y, begins, passes⟩ := passes_of_calls calls
  obtain ⟨heap, config, limit, low, size, base, slots⟩ := begins.same
  have known' : y.heap.callable? g = some ⟨name, entry⟩ := heap ▸ known
  have asks' := asks.congr heap config limit
  rw [← size] at asks'
  exact passes.guarded heap (guarded_enter base slots known' asks' (heap ▸ backs) d)

theorem refused_of_calls {e : Error} (misgives : Misgives H s (func + 1) args entry e) :
    Refused e (action (enter H (d + 1)) H m) start s := by
  obtain ⟨y, begins, passes⟩ := passes_of_calls calls
  obtain ⟨heap, config, limit, low, size, base, slots⟩ := begins.same
  have known' : y.heap.callable? g = some ⟨name, entry⟩ := heap ▸ known
  have misgives' := misgives.congr heap config limit
  rw [← size] at misgives'
  exact passes.refused e (enter_misgiven base slots known' misgives' d)

end Calling

/-- While the host holds borrows of an object through its handles, in any number and order, the
object is open to those that go with what is held: to readers if nobody holds it for writing, and to
writers if nobody holds it. This is so for what the host does with handles and userdata, and for any
action by which a script comes to a member, in whatever state `s` of the run it does: the code of the
member runs if each object that the member borrows is open to it. An access that is shut out fails
with `instanceBorrowed`, and leaves all but the stack as it was; arguments that cannot be decoded are
reported before anything is borrowed. The code that the host supplies is taken to end the borrows that
it begins. -/
theorem borrows_exclude {H : Host E} (balanced : H.Balanced) {s₀ s : State E}
    {held : ObjectId → List Access} (holding : Holding H s₀ s held) :
    (∀ {t : E.Tag} (r : HostRef E t), s₀.heap.Free r →
      (∀ {α : Type} {a : Access} {m : Action E α}, HostAccess s r a m →
        (a.Beside (held r.object) → ∃ x s', runAction H m s = .ok x s') ∧
        (¬a.Beside (held r.object) →
          runAction H m s = .error (.raised (.instanceBorrowed (E.tagName t))) s)) ∧
      ∀ u, s.heap.refOf t u = .ok r →
        (.exclusive ∉ held r.object → ∃ x, s.decode (.object t) (.userdata u) = .ok x) ∧
        (.exclusive ∈ held r.object →
          s.decode (.object t) (.userdata u) = .error (.instanceBorrowed (E.tagName t)))) ∧
    ∀ {α : Type} {m : Action E α} {start : State E} {d func : Nat} {g : FunctionId}
      {args : List Value} {name : String} {entry : Entry E},
      s.heap.callable? g = some ⟨name, entry⟩ → Calls H (d + 1) g args func s m start →
      (∀ {t : E.Tag} {asked : List (HostRef E t)} {a : Access} {member : MemberRun E},
        Asks H s (func + 1) args entry asked a member → (∀ r ∈ asked, s₀.heap.Free r) →
        ((∀ r ∈ asked, a.Beside (held r.object)) →
          Records member (action (enter H (d + 1)) H m) start s) ∧
        ((∃ r ∈ asked, ¬a.Beside (held r.object)) →
          Refused (.instanceBorrowed (E.tagName t)) (action (enter H (d + 1)) H m) start s)) ∧
      ∀ {e : Error}, Misgives H s (func + 1) args entry e →
        Refused e (action (enter H (d + 1)) H m) start s := by
  have lent := holding.lent balanced
  have shut {t : E.Tag} {r : HostRef E t} (free : s₀.heap.Free r) {a : Access}
      (beside : ¬a.Beside (held r.object)) : (s.heap.borrow r.object).admits a = false :=
    Bool.eq_false_iff.mpr fun admitted => beside ((lent.admits free a).mp admitted)
  refine ⟨fun r free => ⟨fun {α a m} access => ?_, fun u found => ?_⟩,
    fun known calls => ⟨fun {t asked a member} asks free => ?_,
      fun misgives => refused_of_calls known calls misgives⟩⟩
  · have backs := holding.changes.backs free.backs
    have outcome : (_ → ∃ x s', runAction H m s = .ok x s') ∧ (_ → runAction H m s = _) :=
      hostAccess_outcome access backs
    exact ⟨fun beside => outcome.1 ((lent.admits free a).mpr beside),
      fun beside => outcome.2 (shut free beside)⟩
  · obtain ⟨x, decodes⟩ := decode_object found (holding.changes.backs free.backs)
    rw [decodes]
    refine ⟨fun beside => ⟨x, if_pos ((lent.admits free .shared).mpr beside)⟩, fun closed => if_neg ?_⟩
    exact fun admitted => (lent.admits free .shared).mp admitted closed
  · have guarded := guarded_of_calls known calls asks
      fun r listed => holding.changes.backs (free r listed).backs
    refine ⟨fun beside => guarded.through fun r listed =>
      (lent.admits (free r listed) a).mpr (beside r listed), ?_⟩
    rintro ⟨r, listed, beside⟩
    exact guarded.refused r listed (shut (free r listed) beside)

end Run

def Host.measuring : Host (Catalog.embedding Empty Unit) where
  native := nofun
  closure := fun _ _ => Prog.abort ⟨none⟩
  members := fun
    | .vec3 => [Catalog.readOnly "x" .number (·.x)]
    | _ => []
  values := fun _ => []
  handles := fun _ => []

theorem Host.balanced_measuring : Host.measuring.Balanced where
  native := nofun
  closure _ _ := .abort _ _
  method t b bound m listed := by
    cases t <;> (cases bound; cases listed)
  operator t b bound o listed := by
    cases t <;> (cases bound; exact absurd (List.mem_mergeSort.mp listed) List.not_mem_nil)

def State.measuring : State (Catalog.embedding Empty Unit) :=
  { State.new .standard () with
    heap := {
      tables := #[.empty, .empty, Table.empty.setStr "__index" (.function ⟨0⟩)]
      callables := #[⟨"Vec3.__index", .hook .vec3 .index⟩]
      userdata := #[⟨.vec3, ⟨0⟩, some ⟨2⟩, true, false⟩]
      objects := #[⟨.vec3, Catalog.Vec3.origin, {}⟩] } }

namespace Run
open State

/-- A script reads a field, and does not while the host holds the object for writing. -/
theorem borrows_exclude_reader :
    let H := Host.measuring
    let r : HostRef (Catalog.embedding Empty Unit) Catalog.Tag.vec3 := ⟨⟨0⟩⟩
    let reads : Run _ Value := runAction H (Action.index (.userdata ⟨0⟩) (.string "x"))
    ∃ s, runAction H (Action.perform (.acquire _ r .exclusive)) .measuring = .ok () s ∧
      Records ⟨Catalog.Tag.vec3, .getter, [⟨0⟩]⟩ reads .measuring .measuring ∧
      Refused (.instanceBorrowed "Vec3") reads s s := by
  intro H r reads
  let f : Field (Catalog.embedding Empty Unit) .vec3 := ⟨"x", .number, some fun p => .ok p.x, none⟩
  have bound : H.binding .vec3 = .ok { name := "Vec3", fields := [f] } := by
    simp [H, f, Host.measuring, Host.binding, Binding.build, Catalog.readOnly, Binding.declare,
      Binding.repeated?, Binding.operatorFault?, Catalog.embedding, Catalog.Tag.name]
  have free : ∀ q ∈ [r], State.measuring.heap.Free q := by
    intro q listed
    rw [List.mem_singleton.mp listed]
    exact ⟨⟨_, rfl, rfl⟩, rfl⟩
  have known : State.measuring.heap.callable? ⟨0⟩ = some ⟨"Vec3.__index", .hook .vec3 .index⟩ := rfl
  have handled : State.measuring.heap.metafield (.userdata ⟨0⟩) .index = .function ⟨0⟩ := by
    have found := Table.Valid.empty.getStr_setStr "__index" "__index" (.function ⟨0⟩)
    exact found.trans (if_pos rfl)
  have field : Binding.field? { name := "Vec3", fields := [f] } "x" = some f :=
    List.find?_cons_of_pos (beq_self_eq_true "x")
  let args : List Value := [.userdata ⟨0⟩, .string "x"]
  let taken := State.measuring.modifyBorrow ⟨0⟩ (·.add .exclusive)
  have before : Holding H .measuring .measuring _ := .start
  have acquired : runAction H (Action.perform (.acquire _ r .exclusive)) .measuring =
      .ok () taken :=
    (congrFun (action_op _ H (.acquire _ r .exclusive)) State.measuring).trans
      ((perform_acquire H r .exclusive State.measuring).trans (if_pos rfl))
  have held := before.acquire r .exclusive acquired
  refine ⟨taken, acquired, ?_, ?_⟩
  · have room : ¬Refuses State.measuring args := by decide
    have calls : Calls H (199 + 1) ⟨0⟩ args 0 .measuring _ _ := .index rfl room rfl handled
    have asks : Asks H .measuring 1 args _ [r] .shared _ := .getter bound field rfl rfl rfl
    have goes := (((borrows_exclude Host.balanced_measuring before).2 known calls).1 asks free).1
    exact goes fun _ _ => List.not_mem_nil
  · have room : ¬Refuses taken args := by decide
    have calls : Calls H (199 + 1) ⟨0⟩ args 0 taken _ _ := .index rfl room rfl handled
    have asks : Asks H taken 1 args _ [r] .shared _ := .getter bound field rfl rfl rfl
    have shut := (((borrows_exclude Host.balanced_measuring held).2 known calls).1 asks free).2
    exact shut ⟨r, .head _, fun beside => beside (.head _)⟩

end Run
end HostBridge
