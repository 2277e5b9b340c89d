import HostBridge.Proofs.Access.Handover
import HostBridge.Proofs.Run.Errors

namespace HostBridge
namespace State
variable {E : Embedding}

def withPolicy (s : State E) (p : MissingMember) : State E :=
  { s with config := { s.config with missingMember := p } }

end State

namespace Run
open State
variable {E : Embedding} {H : Host E} {α : Type} {s : State E} {p : MissingMember}

theorem apart_withPolicy (p : MissingMember) : Apart (E := E) (·.withPolicy p) where
  heap _ := rfl
  registry _ := rfl
  compiled _ := rfl
  typeMetatables _ := rfl
  thunks _ := rfl
  conversions _ := rfl
  onHeap _ _ := rfl
  onCompiled _ _ := rfl
  onTypeMetatables _ _ := rfl
  onThunks _ _ := rfl
  onMemberRuns _ _ := rfl

theorem commutes_push (v : Value) : Commutes (E := E) (·.withPolicy p) (push v) := by
  intro s
  have same : (s.withPolicy p).stack.isFull = s.stack.isFull := rfl
  rw [push_eq, push_eq, same]
  cases s.stack.isFull <;> rfl

theorem commutes_pushAll (vs : List Value) : Commutes (E := E) (·.withPolicy p) (pushAll vs) := by
  induction vs with
  | nil => exact commutes_pure ()
  | cons v vs ih => exact commutes_bind (commutes_push v) fun _ => ih

theorem commutes_deliver (f : FunctionId) (func n : Nat) (k : Int) :
    Commutes (E := E) (·.withPolicy p) (deliver f func n k) := by
  intro s
  have same : (s.withPolicy p).stack = s.stack := rfl
  rw [deliver_eq, deliver_eq, same]
  by_cases excess : s.stack.size - (func + 1) < n
  · rw [if_pos excess, if_pos excess]
    rfl
  · rw [if_neg excess, if_neg excess]
    exact commutes_pushAll _ (s.mapSlots (·.take func))

theorem present_pushAll (vs : List Value) : Present (pushAll vs : Run E Unit) := by
  induction vs with
  | nil => exact present_pure ()
  | cons v vs ih => exact present_bind (present_push v) fun _ => ih

theorem present_deliver (f : FunctionId) (func n : Nat) (k : Int) :
    Present (deliver f func n k : Run E Unit) := by
  intro s
  rw [deliver_eq]
  split
  · exact unmissed_panicked _ _
  · exact present_pushAll _ _

/-- A run that has nothing to do with the policy: it commutes with a change of it, and does not fail
for a missing member. -/
structure OffPolicy (m : Run E α) : Prop where
  commutes p : Commutes (·.withPolicy p) m
  present : Present m

theorem offPolicy_pure (a : α) : OffPolicy (pure a : Run E α) :=
  ⟨fun _ => commutes_pure a, present_pure a⟩

theorem offPolicy_allocCallable (c : Callable E) : OffPolicy (allocCallable c) :=
  ⟨fun p => commutes_allocCallable (apart_withPolicy p) c, present_modifyGet _⟩

theorem offPolicy_readField {t : E.Tag} (f : Field E t) (g : Getter E t f.shape)
    (i : Instance E t) : OffPolicy (readField H f g i) :=
  ⟨fun p => commutes_readField (apart_withPolicy p) H f g i, present_readField H f g i⟩

theorem offPolicy_writeField {t : E.Tag} (f : Field E t)
    (g : Setter E t f.shape) (i : Instance E t) (v : Value) :
    OffPolicy (writeField f g i v) :=
  ⟨fun p => commutes_writeField (apart_withPolicy p) f g i v, present_writeField f g i v⟩

theorem offPolicy_push_one (v : Value) : OffPolicy (push v >>= fun _ => pure 1 : Run E Nat) where
  commutes _ := commutes_bind (commutes_push v) fun _ => commutes_pure 1
  present := present_bind (present_push v) fun _ => present_pure 1

theorem OffPolicy.bind {β : Type} {m : Run E α} {f : α → Run E β} (first : OffPolicy m)
    (rest : ∀ a, OffPolicy (f a)) : OffPolicy (m >>= f) where
  commutes p := commutes_bind (first.commutes p) fun a => (rest a).commutes p
  present := present_bind first.present fun a => (rest a).present

theorem catchPanics_body (name : String) {body body' : Run E Nat} (same : body s = body' s) :
    catchPanics name body s = catchPanics name body' s := by
  simp only [catchPanics, same]

theorem OffPolicy.catchPanics {m : Run E Nat} (off : OffPolicy m) (name : String) :
    OffPolicy (catchPanics name m) where
  commutes p := by
    intro s
    have catches : (s.withPolicy p).config.catchPanics = s.config.catchPanics := rfl
    simp only [Run.catchPanics, catches, off.commutes p s]
    cases s.config.catchPanics with
    | false => rfl
    | true =>
      cases m s with
      | ok n t => rfl
      | error f t => cases f <;> rfl
  present := by
    intro s
    have ended := off.present s
    unfold Run.catchPanics
    cases s.config.catchPanics with
    | false => exact ended
    | true =>
      simp only [if_true]
      cases ran : m s with
      | ok n t => exact unmissed_ok n t
      | error f t =>
        rw [ran] at ended
        cases f with
        | raised e => exact ended.error t
        | panicked q => exact unmissed_raised rfl _

section Calls
variable (go : Enter E) (f : FunctionId) {args : List Value} (k : Int)

/-- A function is not called by value for want of room. -/
def Refuses (s : State E) (args : List Value) : Prop :=
  s.stack.maxDepth < s.stack.size + 1 + args.length ∨ s.config.maxCallDepth ≤ s.callDepth

theorem pushAll_overflow (vs : List Value) (fits : s.stack.size ≤ s.stack.maxDepth)
    (limit : s.stack.maxDepth < s.stack.size + vs.length) :
    ∃ k peak, pushAll vs s =
      .error (.raised .stackOverflow) (s.holding (s.stack.slots ++ (vs.take k).toArray) peak) := by
  induction vs generalizing s with
  | nil => exact absurd limit (Nat.not_lt.mpr fits)
  | cons v vs ih =>
    rw [pushAll, bind_eq, push_eq]
    cases full : s.stack.isFull with
    | true => exact ⟨0, s.peak, by simp [holding]⟩
    | false =>
      have room : s.stack.size < s.stack.maxDepth := Stack.free_iff.mp full
      have size : (s.mapSlots (·.push v)).stack.size = s.stack.size + 1 := Array.size_push v
      have fits' : (s.mapSlots (·.push v)).stack.size ≤ s.stack.maxDepth := size ▸ room
      have limit' : s.stack.maxDepth < (s.mapSlots (·.push v)).stack.size + vs.length := by
        rw [size]
        simp only [List.length_cons] at limit
        omega
      obtain ⟨k, peak, ran⟩ := ih fits' limit'
      refine ⟨k + 1, peak, ?_⟩
      simp only [Bool.false_eq_true, if_false, ran]
      simp [holding, mapSlots]

/-- What lies above the slots of the caller is gone when a call has ended. -/
theorem take_holding (more : Array Value) (peak : Peak) :
    ∃ peak', (s.holding (s.stack.slots ++ more) peak).mapSlots (·.take s.stack.size) =
      { s with peak := peak' } := by
  have rest : (s.stack.slots ++ more).take s.stack.size = s.stack.slots := by simp [Stack.size]
  obtain ⟨peak', cut⟩ := mapSlots_of_eq (s := s.holding (s.stack.slots ++ more) peak)
    (f := (·.take s.stack.size)) rest
  exact ⟨peak', cut⟩

theorem leave_entering (args : List Value) (peak : Peak) :
    ∃ peak', ((s.entering f args peak).ascend s.base).mapSlots (·.take s.stack.size) =
      { s with peak := peak' } := by
  obtain ⟨peak', cut⟩ :=
    take_holding (s := s) (#[.function f] ++ args.toArray) (s.entering f args peak).peak
  refine ⟨peak', ?_⟩
  rw [← cut]
  simp [entering, descend, ascend, holding, mapSlots]

theorem callValue_refused (refuses : Refuses s args) : ∃ peak, ∀ p,
    callValue go (.function f) args k (s.withPolicy p) =
      .error (.raised .stackOverflow) { s.withPolicy p with peak := peak } := by
  let u := s.mapSlots (·.push (.function f))
  have size : u.stack.size = s.stack.size + 1 := Array.size_push _
  have placed p : (s.withPolicy p).mapSlots (·.push (.function f)) = u.withPolicy p := rfl
  have same p : (s.withPolicy p).stack = s.stack := rfl
  simp only [callValue_eq, same, placed, bind_eq]
  cases full : s.stack.isFull with
  | true => exact ⟨s.peak, fun p => rfl⟩
  | false =>
    have fits : s.stack.size + 1 ≤ s.stack.maxDepth :=
      Stack.free_iff.mp full
    simp only [Bool.false_eq_true, if_false]
    by_cases room : s.stack.size + 1 + args.length ≤ s.stack.maxDepth
    · have deep := refuses.resolve_left (Nat.not_lt.mpr room)
      obtain ⟨peak, pushed⟩ : ∃ peak, pushAll args u = .ok () (u.holding _ peak) :=
        pushAll_of_room (size ▸ room)
      obtain ⟨peak', cut⟩ := take_holding (s := s) (#[.function f] ++ args.toArray) peak
      refine ⟨peak', fun p => ?_⟩
      let w := (s.holding (s.stack.slots.push (.function f) ++ args.toArray) peak).withPolicy p
      have slots : w.stack.slots = s.stack.slots.push (.function f) ++ args.toArray := rfl
      have called : callAt go s.stack.size k w = _ := callAt_of_placed slots go k
      rw [if_pos (show w.config.maxCallDepth ≤ w.callDepth from deep)] at called
      have pushed : pushAll args (u.withPolicy p) = .ok () w :=
        (commutes_pushAll args u).trans (congrArg (mapState (·.withPolicy p)) pushed)
      simp only [pushed, called]
      have cut := congrArg (·.withPolicy p) cut
      simpa [w, holding, mapSlots, withPolicy] using cut
    · obtain ⟨n, peak, pushed⟩ : ∃ n peak, pushAll args u =
          .error (.raised .stackOverflow) (u.holding (u.stack.slots ++ (args.take n).toArray) peak) :=
        pushAll_overflow args (size ▸ fits) (size ▸ Nat.lt_of_not_le room)
      obtain ⟨peak', cut⟩ := take_holding (s := s) (#[.function f] ++ (args.take n).toArray) peak
      refine ⟨peak', fun p => ?_⟩
      have pushed := (commutes_pushAll (p := p) args u).trans
        (congrArg (mapState (·.withPolicy p)) pushed)
      simp only [pushed, mapState]
      have cut := congrArg (·.withPolicy p) cut
      simpa [u, holding, mapSlots, withPolicy] using cut

theorem callValue_entered (room : ¬Refuses s args) : ∃ peak, ∀ p,
    callValue go (.function f) args k (s.withPolicy p) =
      match go f ((s.entering f args peak).withPolicy p) with
      | .ok n v => match deliver f s.stack.size n k (v.ascend s.base) with
        | .ok _ t => .ok (t.stack.slots.extract s.stack.size t.stack.size).toList
            (t.mapSlots (·.take s.stack.size))
        | .error (.raised e) t => .error (.raised e) (t.mapSlots (·.take s.stack.size))
        | .error (.panicked p) t => .error (.panicked p) t
      | .error (.raised e) v =>
        .error (.raised e) ((v.ascend s.base).mapSlots (·.take s.stack.size))
      | .error (.panicked p) v => .error (.panicked p) v := by
  obtain ⟨fits, shallow⟩ := not_or.mp room
  have fits : s.stack.size + 1 + args.length ≤ s.stack.maxDepth := Nat.le_of_not_lt fits
  let u := s.mapSlots (·.push (.function f))
  have size : u.stack.size = s.stack.size + 1 := Array.size_push _
  obtain ⟨peak, pushed⟩ : ∃ peak, pushAll args u = .ok () (u.holding _ peak) :=
    pushAll_of_room (size ▸ fits)
  refine ⟨peak, fun p => ?_⟩
  have pushed' := commutes_pushAll (p := p) args u
  rw [pushed] at pushed'
  have free : (s.withPolicy p).stack.isFull = false :=
    Stack.free_iff.mpr (Nat.lt_of_lt_of_le (Nat.lt_succ_self _)
      (Nat.le_trans (Nat.le_add_right _ _) fits))
  let w := (s.holding (s.stack.slots.push (.function f) ++ args.toArray) peak).withPolicy p
  have placed : w.stack.slots = s.stack.slots.push (.function f) ++ args.toArray := rfl
  have called : callAt go s.stack.size k w = _ := callAt_of_placed placed go k
  rw [if_neg (show ¬w.config.maxCallDepth ≤ w.callDepth from shallow)] at called
  have entering : w.descend (s.stack.slots.size + 1) = (s.entering f args peak).withPolicy p := rfl
  rw [entering] at called
  rw [callValue_eq, free]
  simp only [Bool.false_eq_true, if_false, bind_eq]
  rw [show (s.withPolicy p).mapSlots (·.push (.function f)) = u.withPolicy p from rfl, pushed']
  change (match callAt go s.stack.size k w with
    | .ok _ t => _
    | .error (.raised e) t => _
    | .error (.panicked p) t => _) = _
  rw [called]
  cases go f ((s.entering f args peak).withPolicy p) with
  | ok n v => rfl
  | error e v => cases e <;> rfl

variable (room : ¬Refuses s args)
include room

/-- A call by value has nothing to do with the policy if its body has not. -/
theorem callValue_offPolicy {q : MissingMember}
    (runs : ∀ peak, ∃ m, OffPolicy m ∧ ∀ p,
      go f ((s.entering f args peak).withPolicy p) = m ((s.entering f args peak).withPolicy p)) :
    callValue go (.function f) args k (s.withPolicy p) =
        mapState (·.withPolicy p) (callValue go (.function f) args k (s.withPolicy q)) ∧
      Unmissed (callValue go (.function f) args k (s.withPolicy q)) := by
  obtain ⟨peak, called⟩ := callValue_entered go f k room
  obtain ⟨m, off, same⟩ := runs peak
  have commutes : m ((s.entering f args peak).withPolicy p) =
      mapState (·.withPolicy p) (m ((s.entering f args peak).withPolicy q)) :=
    off.commutes p ((s.entering f args peak).withPolicy q)
  have present := off.present ((s.entering f args peak).withPolicy q)
  rw [called, called, same, same, commutes]
  cases ran : m ((s.entering f args peak).withPolicy q) with
  | error e v =>
    rw [ran] at present
    cases e with
    | raised e => exact ⟨rfl, present.error _⟩
    | panicked p => exact ⟨rfl, unmissed_panicked p _⟩
  | ok n v =>
    have delivered := commutes_deliver (p := p) f s.stack.size n k (v.ascend s.base)
    have ascended : (v.withPolicy p).ascend s.base = (v.ascend s.base).withPolicy p := rfl
    simp only [mapState, ascended]
    rw [delivered]
    have present := present_deliver f s.stack.size n k (v.ascend s.base)
    cases ran : deliver f s.stack.size n k (v.ascend s.base) with
    | ok x t => exact ⟨rfl, unmissed_ok _ _⟩
    | error e t =>
      rw [ran] at present
      cases e with
      | raised e => exact ⟨rfl, present.error _⟩
      | panicked p => exact ⟨rfl, unmissed_panicked p _⟩

/-- The frame of a function that fails without a change is gone, and nothing else has happened. -/
theorem callValue_failed {e : Error}
    (failed : ∀ peak, let x := (s.entering f args peak).withPolicy p
      go f x = .error (.raised e) x) :
    ∃ peak, callValue go (.function f) args k (s.withPolicy p) =
      .error (.raised e) { s.withPolicy p with peak := peak } := by
  obtain ⟨peak, called⟩ := callValue_entered go f k room
  obtain ⟨peak', left⟩ := leave_entering (s := s.withPolicy p) f args peak
  refine ⟨peak', ?_⟩
  rw [called, failed, ← left]
  rfl

/-- Neither has anything happened when a function reports no results and none are asked for. -/
theorem callValue_silent (silent : ∀ peak, let x := (s.entering f args peak).withPolicy p
      go f x = .ok 0 x) :
    ∃ peak, callValue go (.function f) args 0 (s.withPolicy p) =
      .ok [] { s.withPolicy p with peak := peak } := by
  obtain ⟨peak, called⟩ := callValue_entered go f 0 room
  obtain ⟨peak', left⟩ := leave_entering (s := s.withPolicy p) f args peak
  let t := { s.withPolicy p with peak := peak' }
  have delivered : deliver f s.stack.size 0 0
      (((s.entering f args peak).withPolicy p).ascend s.base) = .ok () t := by
    rw [deliver_eq, if_neg (Nat.not_lt_zero _)]
    have none (vs : List Value) : adjust vs 0 = [] := by simp [adjust]
    rw [none]
    exact congrArg (EStateM.Result.ok ()) left
  have all : t.stack.slots.take s.stack.size = s.stack.slots := by simp [t, withPolicy, Stack.size]
  obtain ⟨last, cut⟩ := mapSlots_of_eq (s := t) (f := (·.take s.stack.size)) all
  refine ⟨last, ?_⟩
  rw [called, silent]
  simp only [delivered]
  rw [cut]
  simp [t, withPolicy, holding, Stack.size]

end Calls

end Run
end HostBridge
