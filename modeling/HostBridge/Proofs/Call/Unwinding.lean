import HostBridge.Proofs.Call.Confined
/-!
Closing a state while functions run. It empties the stack under all of them and lets the frame of
the running one begin at the bottom. A call that ends puts the frame of its caller back to where it
was, whether or not the stack still reaches there.
-/
namespace HostBridge
namespace State
variable {E : Embedding} {s t u : State E} {ds es : List Nat} {func floor : Nat}

/-- `t` is a later moment of the function that runs in `s`. In between the state was closed at the
call depths `ds`, the latest first, none of them less than `floor`. -/
structure Closes (floor : Nat) (ds : List Nat) (s t : State E) : Prop where
  callDepth : t.callDepth = s.callDepth
  catches : t.config.catchPanics = s.config.catchPanics
  closings : t.closings = ds ++ s.closings
  deep : ∀ d ∈ ds, floor ≤ d

/-- The base is the bottom if the function was running when the state was closed. If nothing closed
it, the frame lies within the stack as it did before. -/
structure Unwinds (ds : List Nat) (s t : State E) : Prop extends Closes s.callDepth ds s t where
  base : t.base = if s.callDepth ∈ ds then 0 else s.base
  framed : ds = [] → s.base ≤ s.stack.size → t.base ≤ t.stack.size

/-- `t` is what a call of the value at `func` makes of `s`. Only deeper functions were running when
the state was closed; if none closed it, the stack still reaches as far as the function. -/
structure Returns (ds : List Nat) (func : Nat) (s t : State E) : Prop extends
    Closes (s.callDepth + 1) ds s t where
  base : t.base = s.base
  reaches : ds = [] → func ≤ t.stack.size

theorem Closes.trans (first : Closes floor ds s t) (second : Closes floor es t u) :
    Closes floor (es ++ ds) s u where
  callDepth := second.callDepth.trans first.callDepth
  catches := second.catches.trans first.catches
  closings := by rw [second.closings, first.closings, List.append_assoc]
  deep d listed := (List.mem_append.mp listed).elim (second.deep d) (first.deep d)

theorem SameFrame.unwinds (same : s.SameFrame t) : Unwinds [] s t where
  callDepth := same.callDepth
  catches := same.catches
  closings := same.closings
  deep := nofun
  base := same.base
  framed _ framed := by rwa [same.base, same.stack]

theorem Unwinds.trans (first : Unwinds ds s t) (second : Unwinds es t u) :
    Unwinds (es ++ ds) s u where
  toCloses := first.toCloses.trans (first.callDepth ▸ second.toCloses)
  base := by
    rw [second.base, first.base, first.callDepth]
    by_cases later : s.callDepth ∈ es
    · rw [if_pos later, if_pos (List.mem_append_left _ later)]
    · simp only [List.mem_append, later, false_or, if_false]
  framed none framed := by
    obtain ⟨later, earlier⟩ := List.append_eq_nil_iff.mp none
    exact second.framed later (first.framed earlier framed)

/-- A step that only touches the stack, and leaves the frame within it. -/
theorem unwinds_mapSlots {f : Array Value → Array Value}
    (framed : s.base ≤ s.stack.size → s.base ≤ (f s.stack.slots).size) :
    Unwinds [] s (s.mapSlots f) :=
  ⟨⟨rfl, rfl, rfl, nofun⟩, rfl, fun _ => framed⟩

theorem unwinds_close (s : State E) : Unwinds [s.callDepth] s s.close where
  callDepth := rfl
  catches := rfl
  closings := rfl
  deep _ listed := Nat.le_of_eq (List.mem_singleton.mp listed).symm
  base := (if_pos List.mem_cons_self).symm
  framed := nofun

/-- Only what a function calls takes the stack away from under its frame, and not from one that
begins at the bottom. -/
theorem Unwinds.base_le (unwinds : Unwinds ds s t) (framed : s.base ≤ s.stack.size)
    (kept : ds = [] ∨ s.callDepth ∈ ds ∨ s.base = 0) : t.base ≤ t.stack.size := by
  rcases kept with none | own | bottom
  · exact unwinds.framed none framed
  · rw [unwinds.base, if_pos own]
    exact Nat.zero_le _
  · rw [unwinds.base, bottom, ite_self]
    exact Nat.zero_le _

theorem Returns.refl (reaches : func ≤ s.stack.size) : Returns [] func s s :=
  ⟨⟨rfl, rfl, rfl, nofun⟩, rfl, fun _ => reaches⟩

theorem Returns.trans (first : Returns ds func s t) (second : Returns es func t u) :
    Returns (es ++ ds) func s u where
  toCloses := first.toCloses.trans (first.callDepth ▸ second.toCloses)
  base := second.base.trans first.base
  reaches none := second.reaches (List.append_eq_nil_iff.mp none).1

theorem Returns.mapSlots (returns : Returns ds func s t) {f : Array Value → Array Value}
    (reaches : func ≤ t.stack.size → func ≤ (f t.stack.slots).size) :
    Returns ds func s (t.mapSlots f) :=
  { returns with reaches := fun none => reaches (returns.reaches none) }

theorem Returns.cut (returns : Returns ds func s t) :
    Returns ds func s (t.mapSlots (·.take func)) :=
  returns.mapSlots fun reaches => Nat.le_of_eq (size_take reaches).symm

theorem Returns.unwinds (returns : Returns ds func s t)
    (above : s.base ≤ s.stack.size → s.base ≤ func) : Unwinds ds s t where
  callDepth := returns.callDepth
  catches := returns.catches
  closings := returns.closings
  deep d listed := Nat.le_of_lt (returns.deep d listed)
  base := by
    rw [returns.base, if_neg]
    exact fun own => Nat.lt_irrefl _ (returns.deep _ own)
  framed none framed := by
    rw [returns.base]
    exact Nat.le_trans (above framed) (returns.reaches none)

theorem Unwinds.ascend (inside : func < s.stack.size)
    (unwinds : Unwinds ds (s.descend (func + 1)) t) : Returns ds func s (t.ascend s.base) where
  callDepth := by
    have depth : t.callDepth = s.callDepth + 1 := unwinds.callDepth
    exact congrArg (· - 1) depth
  catches := unwinds.catches
  closings := unwinds.closings
  deep := unwinds.deep
  base := rfl
  reaches none := by
    subst none
    have base : t.base = func + 1 := unwinds.base
    have framed : t.base ≤ t.stack.size := unwinds.framed rfl inside
    rw [base] at framed
    exact Nat.le_of_succ_le framed

end State

namespace Run
open State
variable {E : Embedding} {α β : Type} {s t : State E} {ds : List Nat} {func : Nat}

def Escapes (m : Run E α) (s : State E) : Prop :=
  s.config.catchPanics = false ∧ ∃ p t, m s = .error (.panicked p) t

/-- Unless a panic escapes, the run ends at a later moment of the running function. -/
def Unwound (m : Run E α) : Prop :=
  ∀ s, Escapes m s ∨ ∃ ds, Unwinds ds s (m.final s)

theorem unwound_tame {m : Run E α} (tame : Tame m) : Unwound m :=
  fun s => .inr ⟨[], (tame.same s).unwinds⟩

theorem unwound_proceed {m : Run E α} {next : Except Error α → Run E β} (first : Unwound m)
    (rest : ∀ r, Unwound (next r)) : Unwound (proceed m next) := by
  intro s
  rcases first s with ⟨off, p, t, ran⟩ | ⟨ds, unwinds⟩
  · exact .inl ⟨off, p, t, by rw [proceed, ran]⟩
  -- What follows starts from the state that the first run ended in.
  have further {r : Except Error α} {t : State E} (unwinds : Unwinds ds s t)
      (same : proceed m next s = next r t) :
      Escapes (proceed m next) s ∨ ∃ es, Unwinds es s ((proceed m next).final s) := by
    rw [Escapes, final, same]
    rcases rest r t with ⟨off, escaped⟩ | ⟨es, later⟩
    · exact .inl ⟨unwinds.catches ▸ off, escaped⟩
    · exact .inr ⟨es ++ ds, unwinds.trans later⟩
  cases ran : m s with
  | ok a t =>
    rw [final_of_ok ran] at unwinds
    exact further unwinds (by rw [proceed, ran])
  | error f t =>
    rw [final_of_error ran] at unwinds
    cases f with
    | raised e => exact further unwinds (by rw [proceed, ran])
    | panicked p =>
      have same : proceed m next s = .error (.panicked p) t := by rw [proceed, ran]
      exact .inr ⟨ds, final_of_error same ▸ unwinds⟩

theorem bind_eq_proceed (m : Run E α) (f : α → Run E β) :
    m >>= f = proceed m fun r => ofExcept r >>= f := by
  funext s
  rw [bind_eq, proceed]
  cases m s with
  | ok a t => rfl
  | error e t => cases e <;> rfl

theorem unwound_bind {m : Run E α} {f : α → Run E β} (first : Unwound m)
    (rest : ∀ a, Unwound (f a)) : Unwound (m >>= f) := by
  rw [bind_eq_proceed]
  refine unwound_proceed first fun r => ?_
  cases r with
  | ok a => exact rest a
  | error e => exact unwound_tame (tame_raise e)

theorem unwound_rethrow {body : Run E α} (g : Heap E → Heap E) (h : Unwound body) :
    Unwound (tryCatch body fun f => modifyHeap g >>= fun _ => throw f) := by
  intro s
  have changed (t : State E) : t.SameFrame { t with heap := g t.heap } :=
    ⟨rfl, rfl, rfl, rfl, rfl, rfl, rfl, rfl, rfl⟩
  rcases h s with ⟨off, p, t, ran⟩ | ⟨ds, unwinds⟩
  · exact .inl ⟨off, p, _, by rw [tryCatch_eq, ran]; rfl⟩
  · refine .inr ⟨ds, ?_⟩
    rw [final, tryCatch_eq]
    cases ran : body s with
    | ok a t =>
      rw [final_of_ok ran] at unwinds
      exact unwinds
    | error f t =>
      rw [final_of_error ran] at unwinds
      exact unwinds.trans (changed t).unwinds

theorem unwound_keeping (vs : List Value) {m : Run E α} (h : Unwound m) :
    Unwound (keeping vs m) := by
  cases vs with
  | nil => exact h
  | cons v vs =>
    intro s
    have started := (sameFrame_awaiting s (v :: vs ++ s.waiting)).unwinds
    rcases h (s.awaiting (v :: vs ++ s.waiting)) with ⟨off, p, t, ran⟩ | ⟨ds, unwinds⟩
    · exact .inl ⟨off, p, _, by rw [keeping_cons, ran]⟩
    · refine .inr ⟨[] ++ (ds ++ []), ?_⟩
      rw [final_keeping]
      exact (started.trans unwinds).trans (sameFrame_awaiting _ s.waiting).unwinds

section Frame

theorem unwinds_push (v : Value) (s : State E) : Unwinds [] s ((push v).final s) := by
  rw [final, push_eq]
  cases s.stack.isFull with
  | true => exact (SameFrame.refl s).unwinds
  | false =>
    refine unwinds_mapSlots fun framed => ?_
    rw [Array.size_push]
    exact Nat.le_succ_of_le framed

theorem unwinds_pop (s : State E) : Unwinds [] s (pop.final s) := by
  rw [final, pop_eq]
  by_cases empty : s.stack.size ≤ s.base
  · rw [if_pos empty]
    exact (SameFrame.refl s).unwinds
  · rw [if_neg empty]
    cases s.stack.top? with
    | none => exact (SameFrame.refl s).unwinds
    | some v =>
      refine unwinds_mapSlots fun _ => ?_
      rw [Array.size_pop]
      exact Nat.le_sub_one_of_lt (Nat.lt_of_not_le empty)

theorem unwinds_drop (n : Nat) (s : State E) : Unwinds [] s ((drop n).final s) := by
  have top : s.top = (s.stack.size : Int) - s.base := rfl
  rw [final, drop_eq]
  by_cases short : Stack.wrapped s.top < n
  · rw [if_pos short]
    exact (SameFrame.refl s).unwinds
  · rw [if_neg short]
    by_cases enough : n ≤ s.stack.size
    · rw [if_pos enough]
      refine unwinds_mapSlots fun framed => ?_
      have size : (s.stack.slots.take (s.stack.size - n)).size = s.stack.size - n :=
        size_take (Nat.sub_le _ _)
      rw [wrapped_of_nonneg (by omega)] at short
      omega
    · rw [if_neg enough]
      exact (SameFrame.refl s).unwinds

theorem unwinds_resize (s : State E) {n : Nat} (above : s.base ≤ s.stack.size → s.base ≤ n) :
    Unwinds [] s ((resize n).final s) := by
  rw [final, resize_eq]
  by_cases shorter : n < s.stack.size
  · rw [if_pos shorter]
    refine unwinds_mapSlots fun framed => ?_
    rw [size_take (Nat.le_of_lt shorter)]
    exact above framed
  · rw [if_neg shorter]
    by_cases excess : s.stack.maxDepth < n
    · rw [if_pos excess]
      exact (SameFrame.refl s).unwinds
    · rw [if_neg excess]
      refine unwinds_mapSlots fun framed => ?_
      rw [Array.size_append]
      exact Nat.le_add_right_of_le framed

theorem unwinds_setTop (index : Int) (s : State E) : Unwinds [] s ((setTop index).final s) := by
  rw [final, setTop_eq]
  by_cases forward : 0 ≤ index
  · rw [if_pos forward]
    exact unwinds_resize s fun _ => Nat.le_add_right _ _
  · rw [if_neg forward]
    cases position : s.position index with
    | error e => exact (SameFrame.refl s).unwinds
    | ok p =>
      refine unwinds_resize s fun framed => ?_
      rw [if_neg (show ¬s.top < 0 by unfold State.top; omega)]
      exact Nat.le_succ_of_le (position_bounds framed position).1

theorem unwinds_remove (index : Int) (s : State E) : Unwinds [] s ((remove index).final s) := by
  rw [final, remove_eq]
  cases position : s.position index with
  | error e => exact (SameFrame.refl s).unwinds
  | ok p =>
    simp only
    by_cases beyond : s.stack.size ≤ p
    · rw [if_pos beyond]
      exact (SameFrame.refl s).unwinds
    · rw [if_neg beyond]
      refine unwinds_mapSlots fun framed => ?_
      have bounds := position_bounds framed position
      have size : (s.stack.slots.eraseIdxIfInBounds p).size = s.stack.size - 1 :=
        size_erase bounds.2
      omega

theorem unwinds_insert (index : Int) (s : State E) : Unwinds [] s ((insert index).final s) := by
  rw [final, insert_eq]
  cases s.position index with
  | error e => exact (SameFrame.refl s).unwinds
  | ok p =>
    have popped := unwinds_pop s
    unfold final at popped
    simp only
    cases ran : pop s with
    | error e t =>
      rw [ran] at popped
      exact popped
    | ok v t =>
      rw [ran] at popped
      by_cases beyond : t.stack.size < p
      · simp only [if_pos beyond]
        exact popped
      · cases full : t.stack.isFull with
        | true =>
          simp only [if_neg beyond, full, if_true]
          exact popped
        | false =>
          simp only [if_neg beyond, full, Bool.false_eq_true, if_false]
          have inserted : Unwinds [] t (t.mapSlots (·.insertIdxIfInBounds p v)) :=
            unwinds_mapSlots fun framed => Nat.le_trans framed (le_size_insert _ _ _)
          exact popped.trans inserted

theorem unwinds_replace (index : Int) (s : State E) : Unwinds [] s ((replace index).final s) := by
  rw [final, replace_eq]
  cases s.position index with
  | error e => exact (SameFrame.refl s).unwinds
  | ok p =>
    have popped := unwinds_pop s
    unfold final at popped
    simp only
    cases ran : pop s with
    | error e t =>
      rw [ran] at popped
      exact popped
    | ok v t =>
      rw [ran] at popped
      by_cases beyond : t.stack.size ≤ p
      · simp only [if_pos beyond]
        exact popped.trans (unwinds_push v t)
      · simp only [if_neg beyond]
        have written : Unwinds [] t (t.mapSlots (·.setIfInBounds p v)) := by
          refine unwinds_mapSlots fun framed => ?_
          rw [Array.size_setIfInBounds]
          exact framed
        exact popped.trans written

end Frame

section Calls

/-- A run that is a call of a value in the frame, or fails before the callee is entered. -/
def Called (m : Run E α) : Prop :=
  ∀ s, Escapes m s ∨ ∃ ds func, (s.base ≤ s.stack.size → s.base ≤ func) ∧
    Returns ds func s (m.final s)

theorem Called.unwound {m : Run E α} (h : Called m) : Unwound m := by
  intro s
  rcases h s with escapes | ⟨ds, func, above, returns⟩
  · exact .inl escapes
  · exact .inr ⟨ds, returns.unwinds above⟩

theorem returns_push (returns : Returns ds func s t) (v : Value) :
    Returns ds func s (t.mapSlots (·.push v)) := by
  refine returns.mapSlots fun reaches => ?_
  rw [Array.size_push]
  exact Nat.le_succ_of_le reaches

theorem returns_pushAll (vs : List Value) (returns : Returns ds func s t) :
    Returns ds func s ((pushAll vs).final t) := by
  induction vs generalizing t with
  | nil => exact returns
  | cons v vs ih =>
    rw [final, pushAll, bind_eq, push_eq]
    cases t.stack.isFull with
    | true => exact returns
    | false => exact ih (returns_push returns v)

theorem returns_callee (inside : func < s.stack.size) {f : FunctionId}
    (found : callee func s = .ok f t) : Returns [] func s t ∧ func < t.stack.size := by
  rcases callee_cases func s with ⟨g, eq⟩ | ⟨g, -, eq⟩ | ⟨e, eq⟩
  · rw [eq] at found
    cases found
    exact ⟨.refl (Nat.le_of_lt inside), inside⟩
  · rw [eq] at found
    cases found
    have larger := le_size_insert s.stack.slots func (.function f)
    refine ⟨(Returns.refl (Nat.le_of_lt inside)).mapSlots fun reaches => ?_, ?_⟩
    · exact Nat.le_trans reaches larger
    · exact Nat.lt_of_lt_of_le inside larger
  · rw [eq] at found
    contradiction

theorem returns_deliver (returns : Returns ds func s t) (f : FunctionId) (n : Nat)
    (nresults : Int) : Returns ds func s ((deliver f func n nresults).final t) := by
  rw [final, deliver_eq]
  by_cases excess : t.stack.size - (func + 1) < n
  · rw [if_pos excess]
    exact { returns with }
  · rw [if_neg excess]
    exact returns_pushAll _ returns.cut

variable {enter : Enter E} (enters : ∀ f, Unwound (enter f)) (calm : Calm enter)
include enters calm

theorem returns_callAt (inside : func < s.stack.size) (nresults : Int) :
    Escapes (callAt enter func nresults) s ∨
      ∃ ds, Returns ds func s ((callAt enter func nresults).final s) := by
  rw [Escapes, final, callAt_eq]
  cases found : callee func s with
  | error e t =>
    obtain ⟨rfl, -⟩ := callee_error found
    exact .inr ⟨[], .refl (Nat.le_of_lt inside)⟩
  | ok f u =>
    obtain ⟨located, inside'⟩ := returns_callee inside found
    by_cases deep : u.config.maxCallDepth ≤ u.callDepth
    · simp only [if_pos deep]
      exact .inr ⟨[], located⟩
    · simp only [if_neg deep]
      rcases enters f (u.descend (func + 1)) with ⟨off, p, v, ran⟩ | ⟨ds, unwinds⟩
      · rw [ran]
        exact .inl ⟨located.catches ▸ off, p, v, rfl⟩
      have back := located.trans (unwinds.ascend inside')
      cases ran : enter f (u.descend (func + 1)) with
      | ok n v =>
        rw [final_of_ok ran] at back
        exact .inr ⟨_, returns_deliver back f n nresults⟩
      | error e v =>
        rw [final_of_error ran] at back
        cases e with
        | raised e => exact .inr ⟨_, back⟩
        | panicked p =>
          cases catches : s.config.catchPanics with
          | true => exact absurd ran (calm f _ p v (located.catches.trans catches))
          | false => exact .inl ⟨rfl, p, v, rfl⟩

theorem called_call (nargs nresults : Int) : Called (call enter nargs nresults) := by
  intro s
  by_cases operands : HasOperands s nargs
  · obtain ⟨above, inside⟩ := functionSlot_bounds operands
    rw [Escapes, final, call_of_operands enter operands]
    rcases returns_callAt enters calm inside nresults with ⟨off, p, t, ran⟩ | ⟨ds, returns⟩
    · rw [ran]
      exact .inl ⟨off, p, t, rfl⟩
    · refine .inr ⟨ds, functionSlot s nargs, fun _ => above, ?_⟩
      cases ran : callAt enter (functionSlot s nargs) nresults s with
      | ok x t =>
        rw [final_of_ok ran] at returns
        exact returns
      | error f t =>
        rw [final_of_error ran] at returns
        cases f with
        | raised e => exact returns.cut
        | panicked p => exact returns
  · obtain ⟨e, eq⟩ := callPosition_of_missing operands
    rw [Escapes, final, call_eq, eq]
    exact .inr ⟨[], s.stack.size, id, .refl (Nat.le_refl _)⟩

theorem called_pcall (nargs nresults : Int) : Called (pcall enter nargs nresults) := by
  intro s
  rw [Escapes, final, pcall_eq]
  by_cases operands : HasOperands s nargs
  · obtain ⟨above, inside⟩ := functionSlot_bounds operands
    rw [callPosition_of_operands operands]
    dsimp only
    rcases returns_callAt enters calm inside nresults with ⟨off, p, t, ran⟩ | ⟨ds, returns⟩
    · rw [ran]
      exact .inl ⟨off, p, t, rfl⟩
    · refine .inr ⟨ds, functionSlot s nargs, fun _ => above, ?_⟩
      cases ran : callAt enter (functionSlot s nargs) nresults s with
      | ok x t =>
        rw [final_of_ok ran] at returns
        exact returns
      | error f t =>
        rw [final_of_error ran] at returns
        cases f with
        | panicked p => exact returns
        | raised e =>
          simp only [push_eq]
          cases (t.mapSlots (·.take (functionSlot s nargs))).stack.isFull with
          | true => exact returns.cut
          | false =>
            have told := returns_push returns.cut (.string e.message)
            exact { told with }
  · obtain ⟨e, eq⟩ := callPosition_of_missing operands
    rw [eq]
    exact .inr ⟨[], s.stack.size, id, .refl (Nat.le_refl _)⟩

theorem returns_pushAll_callAt (inside : func < s.stack.size) (args : List Value)
    (nresults : Int) :
    Escapes (pushAll args >>= fun _ => callAt enter func nresults) s ∨
      ∃ ds, Returns ds func s ((pushAll args >>= fun _ => callAt enter func nresults).final s) := by
  have pushed := returns_pushAll args (Returns.refl (Nat.le_of_lt inside))
  rw [Escapes, final, bind_eq]
  rcases pushAll_cases args s with ⟨t, eq, slots⟩ | ⟨t, k, eq, -⟩
  · rw [final_of_ok eq] at pushed
    have inside' : func < t.stack.size := by
      rw [Stack.size, slots, Array.size_append]
      exact Nat.lt_add_right _ inside
    rw [eq]
    rcases returns_callAt enters calm inside' nresults with ⟨off, escaped⟩ | ⟨ds, returns⟩
    · exact .inl ⟨pushed.catches ▸ off, escaped⟩
    · exact .inr ⟨ds ++ [], pushed.trans returns⟩
  · rw [final_of_error eq] at pushed
    rw [eq]
    exact .inr ⟨[], pushed⟩

theorem called_callValue (f : Value) (args : List Value) (nresults : Int) :
    Called (callValue enter f args nresults) := by
  intro s
  rw [Escapes, final, callValue_eq]
  cases s.stack.isFull with
  | true => exact .inr ⟨[], s.stack.size, id, .refl (Nat.le_refl _)⟩
  | false =>
    simp only [Bool.false_eq_true, if_false]
    have placed := returns_push (Returns.refl (Nat.le_refl s.stack.size)) f
    have inside : s.stack.size < (s.mapSlots (·.push f)).stack.size := by
      rw [Stack.size, Stack.size, slots_mapSlots, Array.size_push]
      exact Nat.lt_succ_self _
    rcases returns_pushAll_callAt enters calm inside args nresults with
      ⟨off, p, t, ran⟩ | ⟨ds, called⟩
    · rw [ran]
      exact .inl ⟨off, p, t, rfl⟩
    · have returns := placed.trans called
      refine .inr ⟨ds ++ [], s.stack.size, id, ?_⟩
      cases ran : (pushAll args >>= fun _ => callAt enter s.stack.size nresults)
          (s.mapSlots (·.push f)) with
      | ok x t =>
        rw [final_of_ok ran] at returns
        exact returns.cut
      | error e t =>
        rw [final_of_error ran] at returns
        cases e with
        | raised e => exact returns.cut
        | panicked p => exact returns

end Calls

theorem unwound_catchPanics (name : String) {body : Run E Nat} (h : Unwound body) :
    Unwound (catchPanics name body) := by
  intro s
  cases catches : s.config.catchPanics with
  | false =>
    have same : catchPanics name body s = body s := by
      rw [catchPanics, catches]
      cases body s <;> rfl
    rw [Escapes, final, same]
    exact h s
  | true =>
    rcases h s with ⟨off, -⟩ | ⟨ds, unwinds⟩
    · rw [catches] at off
      contradiction
    · refine .inr ⟨ds, ?_⟩
      rw [final, catchPanics_eq name body catches]
      cases ran : body s with
      | ok n t =>
        rw [final_of_ok ran] at unwinds
        exact unwinds
      | error f t =>
        rw [final_of_error ran] at unwinds
        cases f with
        | raised e => exact unwinds
        | panicked p => exact { unwinds with }

theorem unwound_composes : Composes (E := E) fun _ => Unwound where
  tame := unwound_tame
  bind := unwound_bind
  get_bind rest s := rest s s
  panic _ s := .inr ⟨[], (SameFrame.refl s).unwinds⟩
  proceed := unwound_proceed
  rethrow := unwound_rethrow
  push v s := .inr ⟨[], unwinds_push v s⟩
  setTop index s := .inr ⟨[], unwinds_setTop index s⟩
  remove index s := .inr ⟨[], unwinds_remove index s⟩

theorem unwound_carries : Carries (E := E) (fun _ => True) Unwound fun _ => Unwound where
  toComposes := unwound_composes
  pop s := .inr ⟨[], unwinds_pop s⟩
  drop n s := .inr ⟨[], unwinds_drop n s⟩
  insert index s := .inr ⟨[], unwinds_insert index s⟩
  replace index s := .inr ⟨[], unwinds_replace index s⟩
  close _ s := .inr ⟨[s.callDepth], unwinds_close s⟩
  call enters calm nargs nresults := (called_call enters calm nargs nresults).unwound
  pcall enters calm nargs nresults := (called_pcall enters calm nargs nresults).unwound
  callValue enters calm f args nresults := (called_callValue enters calm f args nresults).unwound
  keeping := unwound_keeping
  refused := unwound_tame (tame_raise _)
  entered f _ bodies :=
    unwound_bind (unwound_tame (tame_callableOf f)) fun c => unwound_catchPanics c.name (bodies c)

section Outcome

/-- `m` returned or raised an error, and left the state `t`. -/
def Leaves (m : Run E α) (s t : State E) : Prop :=
  (∃ a, m s = .ok a t) ∨ ∃ e, m s = .error (.raised e) t

theorem Leaves.final {m : Run E α} (leaves : Leaves m s t) : m.final s = t ∧ ¬Escapes m s := by
  obtain ⟨a, ran⟩ | ⟨e, ran⟩ := leaves
  · refine ⟨final_of_ok ran, fun ⟨_, p, u, escaped⟩ => ?_⟩
    rw [ran] at escaped
    contradiction
  · refine ⟨final_of_error ran, fun ⟨_, p, u, escaped⟩ => ?_⟩
    rw [ran] at escaped
    cases escaped

theorem Unwound.leaves {m : Run E α} (h : Unwound m) (leaves : Leaves m s t) :
    ∃ ds, Unwinds ds s t := by
  obtain ⟨ended, no⟩ := leaves.final
  exact ended ▸ (h s).resolve_left no

theorem Called.leaves {m : Run E α} (h : Called m) (leaves : Leaves m s t) :
    t.callDepth = s.callDepth ∧ t.base = s.base := by
  obtain ⟨ended, no⟩ := leaves.final
  obtain ⟨ds, func, -, returns⟩ := (h s).resolve_left no
  exact ended ▸ ⟨returns.callDepth, returns.base⟩

theorem unwound_enter (H : Host E) (depth : Nat) (f : FunctionId) : Unwound (enter H depth f) :=
  carried_enter unwound_carries (Host.uses_all H) depth f

theorem unwound_runAction (H : Host E) (a : Action E α) : Unwound (runAction H a) := fun s =>
  carried_action unwound_carries (unwound_enter H s.depthLeft) (calm_enter H s.depthLeft) H a
    (Prog.uses_all a) s

/-- Closing the state while calls are active. A program, any part of a function's body included,
ends at the call depth where it began. Its base stays, or is the bottom of the stack if the state
was closed at that depth. The frame lies within the stack, unless something that the program calls
closed the state and the base is not the bottom; on a frame within the stack the operations do what
they should. Calls and protected calls give the caller its base back in any case, and what they call
begins in a frame within the stack. -/
theorem close_unwinds (H : Host E) (s : State E) :
    (∀ (α : Type) (a : Action E α) (t : State E), Leaves (runAction H a) s t →
      ∃ ds, t.closings = ds ++ s.closings ∧ (∀ d ∈ ds, s.callDepth ≤ d) ∧
        t.callDepth = s.callDepth ∧ t.base = (if s.callDepth ∈ ds then 0 else s.base) ∧
        (s.base ≤ s.stack.size → ds = [] ∨ s.callDepth ∈ ds ∨ s.base = 0 →
          t.base ≤ t.stack.size)) ∧
    (∀ nargs nresults t, Leaves (runAction H (Action.call nargs nresults)) s t ∨
        Leaves (runAction H (Action.pcall nargs nresults)) s t →
      t.callDepth = s.callDepth ∧ t.base = s.base) ∧
    (∀ nargs f u, HasOperands s nargs → callee (functionSlot s nargs) s = .ok f u →
      (u.descend (functionSlot s nargs + 1)).base ≤ u.stack.size) ∧
    (s.base ≤ s.stack.size → Confines H s) := by
  have enters := unwound_enter H s.depthLeft
  have calm := calm_enter H s.depthLeft
  refine ⟨fun α a t leaves => ?_, fun nargs nresults t leaves => ?_,
    fun nargs f u operands found => ?_, confines H⟩
  · obtain ⟨ds, unwinds⟩ := (unwound_runAction H a).leaves leaves
    exact ⟨ds, unwinds.closings, unwinds.deep, unwinds.callDepth, unwinds.base, unwinds.base_le⟩
  · rw [Leaves, Leaves, runAction_call, runAction_pcall] at leaves
    rcases leaves with plain | guarded
    · exact (called_call enters calm nargs nresults).leaves plain
    · exact (called_pcall enters calm nargs nresults).leaves guarded
  · exact (returns_callee (functionSlot_bounds operands).2 found).2

theorem close_unwinds_nested :
    let H := Host.running do
      if (← Action.callDepth) = 1 then
        Action.push (.function ⟨0⟩)
        Action.call 0 0
      else Action.perform .close
      return 0
    let s := State.plain #[.function ⟨0⟩]
    ∃ t, runAction H (Action.call 0 0) s = .ok () t ∧ t.closings = [2] ∧
      t.callDepth = s.callDepth ∧ t.base = s.base ∧ t.base ≤ t.stack.size := by
  intro H s
  have ran := run_of_returned? (m := runAction H (Action.call 0 0)) (s := s) (a := ()) (by
    decide +kernel)
  have closed : ((runAction H (Action.call 0 0)).final s).closings = [2] := by decide +kernel
  obtain ⟨programs, calls, -, -⟩ := close_unwinds H s
  obtain ⟨depth, base⟩ := calls 0 0 _ (.inl (.inl ⟨(), ran⟩))
  obtain ⟨ds, -, -, -, -, framed⟩ := programs _ _ _ (.inl ⟨(), ran⟩)
  exact ⟨_, ran, closed, depth, base, framed (Nat.zero_le _) (.inr (.inr rfl))⟩

/-- A function whose callee closes the state goes on with a base above the top of the stack. What it
pushes then lies below its frame, and cannot be popped. -/
theorem nested_close_takes_frame :
    let H := Host.running do
      if (← Action.callDepth) = 1 then
        Action.push (.function ⟨0⟩)
        Action.call 0 0
        Action.push (.light 1)
        let _ ← Action.pop
      else Action.perform .close
      return 0
    let s := State.plain #[.function ⟨0⟩]
    let before := do
      Action.push (.function ⟨0⟩)
      Action.call 0 0
      Action.top
    (runAction H before).returned? (s.descend 1) = some (-1) ∧
      ((runAction H before).final (s.descend 1)).stack.size <
        ((runAction H before).final (s.descend 1)).base ∧
      (runAction H (Action.call 0 0)).raised? s = some .stackUnderflow := by
  decide +kernel

-- The one value in the frame of a function that closed the state is too much for its caller, which
-- neither returns nor raises an error.
example :
    let H := Host.running do
      Action.perform .close
      Action.push (.light 1)
      return 1
    let s := State.plain #[.function ⟨0⟩]
    (runAction H (Action.call 0 1)).returned? s = none ∧
      (runAction H (Action.call 0 1)).raised? s = none := by
  decide +kernel

end Outcome

end Run
end HostBridge
