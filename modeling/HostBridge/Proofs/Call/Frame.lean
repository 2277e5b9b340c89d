import HostBridge.Proofs.Run.Bodies

namespace HostBridge
namespace State
variable {E : Embedding}

/-- `t` is as `s` below position `func`, and its stack reaches that far. -/
structure Upto (func : Nat) (s t : State E) : Prop where
  fits : t.Fits
  within : Within func s t
  reaches : func ≤ t.stack.size

theorem Upto.trans {func : Nat} {s t u : State E} (first : Upto func s t)
    (second : Upto func t u) : Upto func s u :=
  ⟨second.fits, first.within.trans second.within, second.reaches⟩

theorem Upto.lower {func lower : Nat} {s t : State E} (upto : Upto func s t)
    (le : lower ≤ func) : Upto lower s t :=
  ⟨upto.fits, upto.within.lower le, Nat.le_trans le upto.reaches⟩

theorem Upto.guards {func : Nat} {s t : State E} (upto : Upto func s t) (above : s.base ≤ func) :
    s.Guards t :=
  fun _ _ => ⟨upto.fits, upto.within.lower above⟩

theorem Upto.take {func : Nat} {s t : State E} (upto : Upto func s t) :
    t.stack.slots.take func = s.stack.slots.take func := by
  have reaches : func ≤ t.stack.slots.size := upto.reaches
  apply Array.ext_getElem?
  intro i
  by_cases before : i < func
  · have same := upto.within.below i before
    have inside : i < t.stack.slots.size := Nat.lt_of_lt_of_le before reaches
    have inside' : i < s.stack.slots.size := by
      rw [Array.getElem?_eq_getElem inside] at same
      exact (Array.getElem?_eq_some_iff.mp same.symm).1
    simp only [Array.take_eq_extract, Array.getElem?_extract, Nat.zero_add, Nat.sub_zero]
    rw [if_pos (Nat.lt_min.mpr ⟨before, inside⟩), if_pos (Nat.lt_min.mpr ⟨before, inside'⟩)]
    exact same
  · simp only [Array.take_eq_extract, Array.getElem?_extract, Nat.sub_zero]
    rw [if_neg fun h => before (Nat.lt_min.mp h).1, if_neg fun h => before (Nat.lt_min.mp h).1]

theorem upto_truncate {s : State E} (fits : s.Fits) (catches : s.config.catchPanics = true)
    {func : Nat} (above : s.base ≤ func) (reaches : func ≤ s.stack.size) :
    Upto func s (s.mapSlots (·.take func)) where
  fits := (fits.guards_truncate above fits catches).1
  within := by
    have reaches : func ≤ s.stack.slots.size := reaches
    refine within_mapSlots fun i before => ?_
    rw [Array.take_eq_extract, Array.getElem?_extract, if_pos (by omega), Nat.zero_add]
  reaches := Nat.le_of_eq (size_take reaches).symm

theorem Upto.cut {func : Nat} {s t : State E} (upto : Upto func s t)
    (catches : s.config.catchPanics = true) (above : s.base ≤ func) :
    Upto func s (t.mapSlots (·.take func)) :=
  upto.trans (upto_truncate upto.fits (upto.within.catches.trans catches)
    (upto.within.base ▸ above) upto.reaches)

theorem Upto.same {func : Nat} {s t u : State E} (upto : Upto func s t) (same : t.SameFrame u) :
    Upto func s u :=
  ⟨same.fits upto.fits, upto.within.trans (same.within func), same.stack ▸ upto.reaches⟩

theorem upto_push {s : State E} (fits : s.Fits) (catches : s.config.catchPanics = true)
    (room : s.stack.isFull = false) (v : Value) :
    Upto s.stack.size s (s.mapSlots (·.push v)) where
  fits := (fits.guards_push room v fits catches).1
  within := by
    refine within_mapSlots fun i before => ?_
    rw [Array.getElem?_push, if_neg]
    exact Nat.ne_of_lt before
  reaches := by
    rw [Stack.size, Stack.size, slots_mapSlots, Array.size_push]
    exact Nat.le_succ _

theorem Fits.descend {s : State E} (fits : s.Fits) {frame : Nat} (inside : frame ≤ s.stack.size)
    (room : s.callDepth < s.config.maxCallDepth) : (s.descend frame).Fits where
  limit := fits.limit
  framed := inside
  size_le := fits.size_le
  peak_size_le := fits.peak_size_le
  depth_le := Nat.le_max_right _ _
  peak_depth_le := Nat.max_le.mpr ⟨fits.peak_depth_le, room⟩

theorem upto_ascend {s v : State E} {func : Nat} (above : s.base ≤ func) (fits : v.Fits)
    (within : Within (func + 1) (s.descend (func + 1)) v) : Upto func s (v.ascend s.base) := by
  have frame : v.base = func + 1 := within.base
  have reaches : func + 1 ≤ v.stack.size := frame ▸ fits.framed
  have depth : v.callDepth = s.callDepth + 1 := within.callDepth
  refine ⟨?_, ?_, Nat.le_of_succ_le reaches⟩
  · refine ⟨fits.limit, ?_, fits.size_le, fits.peak_size_le, ?_, fits.peak_depth_le⟩
    · exact Nat.le_trans above (Nat.le_of_succ_le reaches)
    · exact Nat.le_trans (Nat.sub_le _ _) fits.depth_le
  · refine ⟨rfl, ?_, within.maxDepth, within.stackLimit, within.callLimit, within.catches,
      within.peak_size, ?_, fun i before => within.below i (Nat.lt_succ_of_lt before)⟩
    · change v.callDepth - 1 = s.callDepth
      omega
    · exact Nat.le_trans (Nat.le_max_left _ _) within.peak_depth

end State

namespace Run
open State
variable {E : Embedding} {α : Type}

theorem pushAll_cases (vs : List Value) (s : State E) :
    (∃ t, pushAll vs s = .ok () t ∧ t.stack.slots = s.stack.slots ++ vs.toArray) ∨
    ∃ t k, pushAll vs s = .error (.raised .stackOverflow) t ∧
      t.stack.slots = s.stack.slots ++ (vs.take k).toArray := by
  induction vs generalizing s with
  | nil => exact .inl ⟨s, rfl, by simp⟩
  | cons v vs ih =>
    rw [pushAll, bind_eq, push_eq]
    cases full : s.stack.isFull with
    | true => exact .inr ⟨s, 0, rfl, by simp⟩
    | false =>
      simp only [Bool.false_eq_true, if_false]
      rcases ih (s.mapSlots (·.push v)) with ⟨t, eq, slots⟩ | ⟨t, k, eq, slots⟩
      · refine .inl ⟨t, eq, ?_⟩
        rw [slots, slots_mapSlots]
        simp
      · refine .inr ⟨t, k + 1, eq, ?_⟩
        rw [slots, slots_mapSlots]
        simp

/-- A run that does no more to the frame than push `n` values, and does not panic. -/
structure Pushes (n : Nat) (m : Run E α) : Prop where
  upto {s : State E} : s.Fits → s.config.catchPanics = true → Upto s.stack.size s (m.final s)
  raised {s t f} : m s = .error f t → ∃ e, f = .raised e
  size {s t a} : m s = .ok a t → t.stack.size = s.stack.size + n

theorem Tame.pushes {m : Run E α} (h : Tame m) : Pushes 0 m where
  upto {s} fits _ := by
    have same := h.same s
    exact ⟨same.fits fits, same.within _, Nat.le_of_eq (by rw [same.stack])⟩
  raised := h.raised
  size ran := by rw [(h.same.of_ok ran).stack, Nat.add_zero]

theorem pushes_bind {β : Type} {n k : Nat} {m : Run E α} {f : α → Run E β} (first : Pushes n m)
    (rest : ∀ a, Pushes k (f a)) : Pushes (n + k) (m >>= f) where
  upto {s} fits catches := by
    have upto := first.upto fits catches
    unfold final at upto ⊢
    rw [bind_eq]
    cases ran : m s with
    | ok a t =>
      rw [ran] at upto
      have further := (rest a).upto upto.fits (upto.within.catches.trans catches)
      exact upto.trans (further.lower upto.reaches)
    | error e t =>
      rw [ran] at upto
      exact upto
  raised {s t fault} failed := by
    rw [bind_eq] at failed
    cases ran : m s with
    | ok a u =>
      rw [ran] at failed
      exact (rest a).raised failed
    | error e u =>
      rw [ran] at failed
      cases failed
      exact first.raised ran
  size {s t b} ended := by
    rw [bind_eq] at ended
    cases ran : m s with
    | ok a u =>
      rw [ran] at ended
      rw [(rest a).size ended, first.size ran, Nat.add_assoc]
    | error e u =>
      rw [ran] at ended
      contradiction

theorem pushes_push (v : Value) : Pushes 1 (push v : Run E Unit) where
  upto {s} fits catches := by
    rw [final, push_eq]
    cases room : s.stack.isFull with
    | true => exact ⟨fits, .refl _ s, Nat.le_refl _⟩
    | false => exact upto_push fits catches room v
  raised {s t fault} failed := by
    rw [push_eq] at failed
    cases full : s.stack.isFull with
    | true =>
      rw [full] at failed
      cases failed
      exact ⟨_, rfl⟩
    | false =>
      rw [full] at failed
      contradiction
  size {s t a} ran := by
    rw [push_eq] at ran
    cases full : s.stack.isFull with
    | true =>
      rw [full] at ran
      contradiction
    | false =>
      rw [full] at ran
      cases ran
      exact Array.size_push v

theorem pushes_pushAll (vs : List Value) : Pushes vs.length (pushAll vs : Run E Unit) := by
  induction vs with
  | nil => exact (tame_pure ()).pushes
  | cons v vs ih =>
    rw [List.length_cons, Nat.add_comm]
    exact pushes_bind (pushes_push v) fun _ => ih

theorem pushes_encodeAll (H : Host E) (ss : List (Shape E.Tag)) (xs : Tuple E ss) :
    Pushes ss.length (encodeAll H ss xs) := by
  induction ss with
  | nil => exact (tame_pure ()).pushes
  | cons s ss ih =>
    rw [List.length_cons, Nat.add_comm]
    have rest (v : Value) := pushes_bind (pushes_push v) fun _ => ih xs.2
    have all := pushes_bind (tame_encode H s xs.1).pushes rest
    rwa [Nat.zero_add] at all

theorem insertHandler_cases (func : Nat) (v : Value) (s : State E) :
    (∃ f, s.stack.isFull = false ∧
      insertHandler func v s = .ok f (s.mapSlots (·.insertIdxIfInBounds func (.function f)))) ∨
    ∃ e, insertHandler func v s = .error (.raised e) s := by
  rw [insertHandler, bind_eq, get_eq]
  simp only
  cases s.heap.metafield v .call with
  | function f =>
    cases full : s.stack.isFull with
    | true => exact .inr ⟨.stackOverflow, rfl⟩
    | false => exact .inl ⟨f, rfl, rfl⟩
  | _ => exact .inr ⟨_, rfl⟩

/-- Finding the callee raises an error or goes on with the stack as it is, or with a handler put
below the value that is called. -/
theorem callee_cases (func : Nat) (s : State E) :
    (∃ f, callee func s = .ok f s) ∨
    (∃ f, s.stack.isFull = false ∧
      callee func s = .ok f (s.mapSlots (·.insertIdxIfInBounds func (.function f)))) ∨
    ∃ e, callee func s = .error (.raised e) s := by
  rw [callee, bind_eq, read_eq]
  cases s.stack.get func with
  | error e => exact .inr (.inr ⟨e, rfl⟩)
  | ok v =>
    cases v with
    | function f => exact .inl ⟨f, rfl⟩
    | _ => exact .inr (insertHandler_cases func _ s)

theorem callee_error {func : Nat} {s t : State E} {f : Fault} (failed : callee func s = .error f t) :
    t = s ∧ ∃ e, f = .raised e := by
  rcases callee_cases func s with ⟨g, eq⟩ | ⟨g, -, eq⟩ | ⟨e, eq⟩
  · rw [eq] at failed
    contradiction
  · rw [eq] at failed
    contradiction
  · rw [eq] at failed
    cases failed
    exact ⟨rfl, e, rfl⟩

theorem inFrame_eq (frame : Nat) (body : Run E α) (s : State E) :
    inFrame frame body s = match body (s.descend frame) with
      | .ok x t => .ok x (t.ascend s.base)
      | .error (.raised e) t => .error (.raised e) (t.ascend s.base)
      | .error (.panicked p) t => .error (.panicked p) t := by
  simp only [inFrame, bind_eq, get_eq, modify_eq, tryCatch_eq]
  cases body (s.descend frame) with
  | ok x t => rfl
  | error f t => cases f <;> rfl

theorem deliver_eq (f : FunctionId) (func returned : Nat) (nresults : Int) (s : State E) :
    deliver f func returned nresults s =
      if s.stack.size - (func + 1) < returned then
        .error (.panicked (overreport (s.heap.functionName f) returned
          (s.stack.size - (func + 1)))) s.withOverreport
      else
        pushAll (adjust (s.stack.slots.extract (s.stack.size - returned) s.stack.size).toList
          nresults) (s.mapSlots (·.take func)) := by
  by_cases excess : s.stack.size - (func + 1) < returned <;> simp [deliver, excess, truncate]

theorem callAt_eq (enter : Enter E) (func : Nat) (nresults : Int) (s : State E) :
    callAt enter func nresults s = match callee func s with
      | .error e t => .error e t
      | .ok f t =>
        if t.config.maxCallDepth ≤ t.callDepth then .error (.raised .stackOverflow) t
        else match enter f (t.descend (func + 1)) with
          | .ok n v => deliver f func n nresults (v.ascend t.base)
          | .error (.raised e) v => .error (.raised e) (v.ascend t.base)
          | .error (.panicked p) v => .error (.panicked p) v := by
  rw [callAt, bind_eq]
  cases callee func s with
  | error e t => rfl
  | ok f t =>
    by_cases deep : t.config.maxCallDepth ≤ t.callDepth
    · simp [deep]
    · simp only [bind_eq, get_eq, if_neg deep, inFrame_eq]
      cases enter f (t.descend (func + 1)) with
      | ok n v => rfl
      | error e v => cases e <;> rfl

theorem upto_callee {s : State E} (fits : s.Fits) (catches : s.config.catchPanics = true)
    {func : Nat} (above : s.base ≤ func) (inside : func < s.stack.size) {f : FunctionId}
    {u : State E} (found : callee func s = .ok f u) :
    Upto func s u ∧ func < u.stack.size := by
  rcases callee_cases func s with ⟨g, eq⟩ | ⟨g, room, eq⟩ | ⟨e, eq⟩
  · rw [eq] at found
    cases found
    exact ⟨⟨fits, .refl func s, Nat.le_of_lt inside⟩, inside⟩
  · rw [eq] at found
    cases found
    -- The handler goes in at `func` itself, so the slots below stay where they are.
    have below : func ≤ s.stack.slots.size := Nat.le_of_lt inside
    have inserted : s.stack.slots.insertIdxIfInBounds func (.function f) =
        s.stack.slots.insertIdx func (.function f) below := dif_pos below
    have size : (s.mapSlots (·.insertIdxIfInBounds func (.function f))).stack.size =
        s.stack.size + 1 := size_insertIdxIfInBounds below _
    refine ⟨⟨(fits.guards_insert room above _ fits catches).1, ?_, by omega⟩, by omega⟩
    refine within_mapSlots fun i before => ?_
    rw [inserted]
    exact Array.getElem?_insertIdx_of_lt below before
  · rw [eq] at found
    contradiction

theorem upto_deliver {s : State E} (fits : s.Fits) (catches : s.config.catchPanics = true)
    {func : Nat} (above : s.base ≤ func) (reaches : func ≤ s.stack.size) (f : FunctionId)
    (returned : Nat) (nresults : Int) :
    Upto func s ((deliver f func returned nresults).final s) := by
  rw [final, deliver_eq]
  by_cases excess : s.stack.size - (func + 1) < returned
  · rw [if_pos excess]
    exact ⟨{ fits with }, { Within.refl func s with }, reaches⟩
  · rw [if_neg excess]
    have cut := upto_truncate fits catches above reaches
    have size : (s.mapSlots (·.take func)).stack.size = func := size_take reaches
    let results := (s.stack.slots.extract (s.stack.size - returned) s.stack.size).toList
    have pushed := (pushes_pushAll (adjust results nresults)).upto cut.fits
      (cut.within.catches.trans catches)
    rw [size] at pushed
    exact cut.trans pushed

/-- A way of running callees that turns their panics into errors. -/
def Calm (enter : Enter E) : Prop :=
  ∀ f s p t, s.config.catchPanics = true → enter f s ≠ .error (.panicked p) t

section Callee
variable {enter : Enter E} (enters : ∀ f, Respects Guards (enter f))
include enters

theorem upto_entered {s : State E} (fits : s.Fits) (catches : s.config.catchPanics = true)
    {func : Nat} (above : s.base ≤ func) (inside : func < s.stack.size)
    (room : s.callDepth < s.config.maxCallDepth) (f : FunctionId) :
    Upto func s (((enter f).final (s.descend (func + 1))).ascend s.base) := by
  obtain ⟨fits', within⟩ := enters f _ (fits.descend inside room) catches
  exact upto_ascend above fits' within

/-- Whatever the callee does, everything below the function slot stays. -/
theorem upto_callAt {s : State E} (fits : s.Fits) (catches : s.config.catchPanics = true)
    {func : Nat} (above : s.base ≤ func) (inside : func < s.stack.size) (nresults : Int)
    (calm : Calm enter) :
    Upto func s ((callAt enter func nresults).final s) := by
  rw [final, callAt_eq]
  cases found : callee func s with
  | error e t =>
    obtain ⟨rfl, -⟩ := callee_error found
    exact ⟨fits, .refl func t, Nat.le_of_lt inside⟩
  | ok f u =>
    obtain ⟨upto, inside'⟩ := upto_callee fits catches above inside found
    have catches' : u.config.catchPanics = true := upto.within.catches.trans catches
    by_cases deep : u.config.maxCallDepth ≤ u.callDepth
    · simp only [if_pos deep]
      exact upto
    · have above' : u.base ≤ func := upto.within.base ▸ above
      have entered := upto_entered enters upto.fits catches' above' inside'
        (Nat.lt_of_not_le deep) f
      simp only [if_neg deep]
      cases ran : enter f (u.descend (func + 1)) with
      | ok n v =>
        rw [final_of_ok ran] at entered
        have back := upto.trans entered
        apply back.trans
        have base : (v.ascend u.base).base ≤ func := above'
        exact upto_deliver back.fits (back.within.catches.trans catches) base back.reaches f n
          nresults
      | error e v =>
        rw [final_of_error ran] at entered
        cases e with
        | raised e => exact upto.trans entered
        | panicked p => exact absurd ran (calm f _ p v catches')

end Callee

end Run
end HostBridge
