import HostBridge.Proofs.Container.Topped
import HostBridge.Proofs.Table.Answers

namespace HostBridge

namespace Heap
variable {E : Embedding}

/-- The heap after changes that the host makes one after the other. -/
def changed (h : Heap E) (changes : List (Heap E → Heap E)) : Heap E :=
  changes.foldl (fun h f => f h) h

def versions (h : Heap E) (x : TableId) : List (Heap E → Heap E) → List Table
  | [] => []
  | f :: fs => (f h).table x :: (f h).versions x fs

theorem length_versions (h : Heap E) (x : TableId) (changes : List (Heap E → Heap E)) :
    (h.versions x changes).length = changes.length := by
  induction changes generalizing h with
  | nil => rfl
  | cons f fs ih => exact congrArg (· + 1) (ih (f h))

end Heap

namespace Pairs
open State
variable {E : Embedding}

/-- Steps of an enumeration, with a change of the heap before each of them. -/
def session (H : Host E) :
    Pairs → List (Heap E → Heap E) → Run E (List (Option (Except Error (Value × Value))) × Pairs)
  | p, [] => pure ([], p)
  | p, f :: fs => do
    Run.modifyHeap f
    let (a, p) ← runAction H p.step
    let (as, p) ← session H p fs
    return (a :: as, p)

/-- Answers that agree with others up to an error for want of stack, and end there. -/
def CutShort (as bs : List (Option (Except Error (Value × Value)))) : Prop :=
  ∃ n k, as = bs.take n ++ some (.error .stackOverflow) :: List.replicate k none ∧
    as.length = bs.length

variable {as bs : List (Option (Except Error (Value × Value)))}

theorem CutShort.cons (short : CutShort as bs) (a : Option (Except Error (Value × Value))) :
    CutShort (a :: as) (a :: bs) := by
  obtain ⟨n, k, rfl, length⟩ := short
  exact ⟨n + 1, k, rfl, congrArg (· + 1) length⟩

theorem CutShort.at_once {k : Nat} (length : bs.length = k + 1) :
    CutShort (some (.error .stackOverflow) :: List.replicate k none) bs :=
  ⟨0, k, rfl, by simp [length]⟩

end Pairs

/-- An enumeration of `x` from `s` gives the answers `as` when the host makes `changes`, one before
each step. Between the steps the table lies on the frame, with `vs` above it; all of this goes when
the enumeration is given up, and then nothing but the heap has changed. -/
def View.Enumerated {E : Embedding} (H : Host E) (x : View) (s : State E)
    (changes : List (Heap E → Heap E)) (as : List (Option (Except Error (Value × Value))))
    (vs : List Value) : Prop :=
  ∃ p q peak peak', State.runAction H (Pairs.start x) s = .ok p (s.mapSlots (·.push x.value)) ∧
    p.session H changes (s.mapSlots (·.push x.value)) =
      .ok (as, q) { s.holding (s.stack.slots ++ (x.value :: vs).toArray) peak with
        heap := s.heap.changed changes } ∧
    State.runAction H q.finish { s.holding (s.stack.slots ++ (x.value :: vs).toArray) peak with
        heap := s.heap.changed changes } =
      .ok () { s.atPeak peak' with heap := s.heap.changed changes }

namespace Run
open State
variable {E : Embedding} {H : Host E} {enter : Enter E} {s t : State E} {p : Pairs} {x : TableId}

section Step

theorem action_takePair (framed : s.base ≤ s.stack.size) {k v : Value}
    (topped : s.Topped [k, v] t) :
    action enter H (do
      let k ← Action.value (-2)
      let v ← Action.value (-1)
      Action.drop 2
      return some (k, v)) t = .ok (some (k, v)) (t.mapSlots (·.take s.stack.size)) := by
  obtain ⟨second, first⟩ := Topped.slots_pair [] topped framed
  have dropped : drop 2 t = .ok () (t.mapSlots (·.take s.stack.size)) := drop_topped framed topped
  simp only [action_bind, bind_eq, action_value, read_eq, second, first, ofExcept_ok, pure_eq,
    action_drop, dropped, action_pure]

variable (framed : s.base ≤ s.stack.size) (base : p.base = s.top)

include framed base in
/-- A step that asks with `key` answers what `next` does, and leaves the stack as it was. It can only
fail besides when less than three slots were free. -/
theorem pairAfter_cases (topped : s.Topped [.table x] t) (key : Value) :
    (∃ peak, action enter H (p.pairAfter key) t =
      ofExcept ((t.heap.table x).next key) (t.atPeak peak)) ∨
    t.stack.maxDepth < s.stack.size + 3 ∧ ∃ vs peak, action enter H (p.pairAfter key) t =
      .error (.raised .stackOverflow)
        (t.holding (s.stack.slots ++ (.table x :: vs).toArray) peak) := by
  rw [Pairs.pairAfter, base]
  simp only [action_bind, bind_eq, action_push, push_eq]
  cases full : t.stack.isFull with
  | true =>
    rw [topped.isFull] at full
    right
    refine ⟨Nat.lt_of_le_of_lt (of_decide_eq_true full) (Nat.le_succ _), [], t.peak, ?_⟩
    rw [← topped.slots]
    rfl
  | false =>
    have taken : (t.mapSlots (·.push key)).stack.slots.pop = t.stack.slots := Array.pop_push
    obtain ⟨peak, back⟩ : ∃ peak, (t.mapSlots (·.push key)).mapSlots (·.pop) = t.atPeak peak :=
      mapSlots_of_eq (f := (·.pop)) taken
    have pushed : s.Topped [.table x, key] (t.mapSlots (·.push key)) := topped.push key
    have heap : (t.mapSlots (·.push key)).heap = t.heap := rfl
    simp only [Bool.false_eq_true, if_false, next_topped framed pushed, heap, back]
    cases (t.heap.table x).next key with
    | error e => exact .inl ⟨peak, rfl⟩
    | ok r =>
      cases r with
      | none => exact .inl ⟨peak, rfl⟩
      | some q =>
        have room : (t.atPeak peak).stack.isFull = false := full
        simp only [pushPair_eq room]
        cases full' : ((t.atPeak peak).mapSlots (·.push q.1)).stack.isFull with
        | true =>
          rw [((topped.atPeak peak).push q.1).isFull] at full'
          obtain ⟨peak', left⟩ := (topped.atPeak peak).push_eq q.1
          right
          refine ⟨Nat.lt_succ_of_le (of_decide_eq_true full'), [q.1], peak', ?_⟩
          rw [if_pos rfl, left]
          rfl
        | false =>
          have own := (topped.atPeak peak).framed framed
          have shown : (t.atPeak peak).Topped [q.1, q.2]
              (((t.atPeak peak).mapSlots (·.push q.1)).mapSlots (·.push q.2)) :=
            ((Topped.refl _).push q.1).push q.2
          obtain ⟨peak', left⟩ := shown.cut_eq
          left
          refine ⟨peak', ?_⟩
          rw [if_neg Bool.false_ne_true]
          simp only [if_true, action_takePair own shown]
          exact congrArg (EStateM.Result.ok (some q)) left

include framed base in
/-- A step answers what `next` does, or ends the enumeration for want of stack. -/
theorem step_cases (topped : s.Topped [.table x] t) :
    (∃ peak, runAction H p.step t =
      .ok (((t.heap.table x).answer p.key).1, { p with key := ((t.heap.table x).answer p.key).2 })
        (t.atPeak peak)) ∨
    t.stack.maxDepth < s.stack.size + 3 ∧ ∃ vs peak, runAction H p.step t =
      .ok (some (.error .stackOverflow), { p with key := none })
        (t.holding (s.stack.slots ++ (.table x :: vs).toArray) peak) := by
  rw [Pairs.step]
  cases asked : p.key with
  | none =>
    left
    refine ⟨t.peak, ?_⟩
    cases p
    subst asked
    rfl
  | some key =>
    have tried := @pairAfter_cases E H (enter H t.depthLeft) s t p x framed base topped key
    simp only [runAction, action_bind, bind_eq, action_attempt, proceed]
    rcases tried with ⟨peak, ran⟩ | ⟨little, vs, peak, ran⟩
    · left
      refine ⟨peak, ?_⟩
      rw [ran, Table.answer]
      cases (t.heap.table x).next key with
      | error e => rfl
      | ok r => cases r <;> rfl
    · right
      refine ⟨little, vs, peak, ?_⟩
      rw [ran]
      rfl

end Step

section Session

theorem action_tryCatch_of_ok {α : Type} {a : Action E α} {h : Error → Action E α} {r : α}
    {t : State E} (ran : action enter H a s = .ok r t) :
    action enter H (tryCatch a h) s = .ok r t := by
  induction a generalizing s with
  | done r => cases r <;> first | exact ran | contradiction
  | abort p => contradiction
  | perform o next ih =>
    change action enter H (Prog.perform o fun x => tryCatch (next x) h) s = _
    rw [action_proceed, proceed] at ran ⊢
    cases done : perform enter H o s with
    | ok x u =>
      rw [done] at ran
      exact ih (.ok x) ran
    | error f u =>
      rw [done] at ran
      cases f with
      | raised e => exact ih (.error e) ran
      | panicked p => contradiction

theorem session_cons (p : Pairs) (f : Heap E → Heap E) (fs : List (Heap E → Heap E))
    (t : State E) :
    p.session H (f :: fs) t =
      match runAction H p.step { t with heap := f t.heap } with
      | .error e u => .error e u
      | .ok (a, q) u => match q.session H fs u with
        | .error e v => .error e v
        | .ok (as, q) v => .ok (a :: as, q) v := by
  have changed : modifyHeap f t = .ok () { t with heap := f t.heap } := rfl
  rw [Pairs.session]
  simp only [bind_eq, changed]
  cases runAction H p.step { t with heap := f t.heap } with
  | error e u => rfl
  | ok r u =>
    simp only
    cases r.2.session H fs u <;> rfl

/-- Once an enumeration has ended, its steps answer nothing and do nothing. -/
theorem session_of_ended (ended : p.key = none) (fs : List (Heap E → Heap E)) (t : State E) :
    p.session H fs t =
      .ok (List.replicate fs.length none, p) { t with heap := t.heap.changed fs } := by
  induction fs generalizing t with
  | nil => rfl
  | cons f fs ih =>
    have stays : runAction H p.step { t with heap := f t.heap } =
        .ok (none, p) { t with heap := f t.heap } := by
      rw [Pairs.step, ended]
      rfl
    simp only [session_cons, stays, ih]
    rfl

/-- Between any two steps the table alone lies on the frame, whatever the host does to the heap. -/
theorem session_cases (framed : s.base ≤ s.stack.size) (base : p.base = s.top)
    (topped : s.Topped [.table x] t) (fs : List (Heap E → Heap E)) :
    (∃ q peak, q.base = s.top ∧ p.session H fs t =
      .ok (Table.answers p.key (t.heap.versions x fs), q)
        { t.atPeak peak with heap := t.heap.changed fs }) ∨
    t.stack.maxDepth < s.stack.size + 3 ∧ ∃ as q vs peak, q.base = s.top ∧
      Pairs.CutShort as (Table.answers p.key (t.heap.versions x fs)) ∧ p.session H fs t =
        .ok (as, q) { t.holding (s.stack.slots ++ (.table x :: vs).toArray) peak with
          heap := t.heap.changed fs } := by
  induction fs generalizing p t with
  | nil => exact .inl ⟨p, t.peak, base, rfl⟩
  | cons f fs ih =>
    let u := { t with heap := f t.heap }
    have topped' : s.Topped [.table x] u := ⟨topped.slots, topped.base⟩
    have first := @step_cases E H s u p x framed base topped'
    rcases first with ⟨peak, ran⟩ | ⟨little, vs, peak, ran⟩
    · have rest := ih (p := { p with key := ((u.heap.table x).answer p.key).2 }) base
        (topped'.atPeak peak)
      rcases rest with ⟨q, peak', based, later⟩ | ⟨little, as, q, vs, peak', based, short, later⟩
      · left
        refine ⟨q, peak', based, ?_⟩
        simp only [session_cons, ran, u, later]
        rfl
      · right
        refine ⟨little, _ :: as, q, vs, peak', based, short.cons _, ?_⟩
        simp only [session_cons, ran, u, later]
        rfl
    · have length : (Table.answers p.key (t.heap.versions x (f :: fs))).length = fs.length + 1 := by
        rw [Table.length_answers, Heap.length_versions]
        rfl
      right
      refine ⟨little, _, { p with key := none }, vs, peak, base, .at_once length, ?_⟩
      simp only [session_cons, ran, u, session_of_ended]
      rfl

theorem finish_topped (framed : s.base ≤ s.stack.size) (base : p.base = s.top) {vs : List Value}
    {v : Value} (topped : s.Topped (v :: vs) t) :
    runAction H p.finish t = .ok () (t.mapSlots (·.take s.stack.size)) := by
  have higher : s.top < t.top := by
    rw [topped.top_eq, List.length_cons]
    omega
  have kept : action (enter H t.depthLeft) H
      (Action.setTop s.top >>= fun r => ExceptT.run (pure r) : Action E (Except Unit Unit)) t =
      .ok (.ok ()) (t.mapSlots (·.take s.stack.size)) := by
    rw [action_bind, bind_eq, action_setTop, setTop_topped framed topped]
    rfl
  rw [Pairs.finish, base]
  unfold runAction
  simp only [action_bind, bind_eq, action_top, if_pos higher]
  rw [action_tryCatch_of_ok kept]
  rfl

theorem runAction_start (x : View) (s : State E) : runAction H (Pairs.start x) s =
    if s.stack.isFull then .error (.raised .stackOverflow) s
    else .ok ⟨s.top, some .nil⟩ (s.mapSlots (·.push x.value)) := by
  unfold runAction
  rw [Pairs.start]
  simp only [action_bind, bind_eq, action_top, action_push, push_eq]
  cases s.stack.isFull <;> rfl

/-- A session that leaves values above the table ends with the frame that it began on. -/
theorem enumerated_of_session (framed : s.base ≤ s.stack.size) (x : View)
    (room : s.stack.isFull = false) {changes : List (Heap E → Heap E)}
    {as : List (Option (Except Error (Value × Value)))} {q : Pairs} {vs : List Value} {peak : Peak}
    (based : q.base = s.top)
    (ran : Pairs.session H ⟨s.top, some .nil⟩ changes (s.mapSlots (·.push x.value)) =
      .ok (as, q) { s.holding (s.stack.slots ++ (x.value :: vs).toArray) peak with
        heap := s.heap.changed changes }) : x.Enumerated H s changes as vs := by
  have started := runAction_start (H := H) x s
  rw [room, if_neg Bool.false_ne_true] at started
  have topped : s.Topped (x.value :: vs) { s.holding (s.stack.slots ++ (x.value :: vs).toArray)
      peak with heap := s.heap.changed changes } := ⟨rfl, rfl⟩
  obtain ⟨peak', cut⟩ := topped.cut_eq
  refine ⟨_, q, peak, peak', started, ran, ?_⟩
  rw [finish_topped framed based topped, cut]
  rfl

/-- An enumeration answers what `next` does, whatever the host changes between the steps, unless
there is too little room: then it may fail to start, or end early for want of stack. -/
theorem enumerated_cases (framed : s.base ≤ s.stack.size) (x : View) :
    (∀ changes, x.Enumerated H s changes
      (Table.answers (some .nil) (s.heap.versions x.table changes)) []) ∨
    s.stack.maxDepth < s.stack.size + 3 ∧
      (runAction H (Pairs.start x) s = .error (.raised .stackOverflow) s ∨
        ∀ changes, ∃ as vs, x.Enumerated H s changes as vs ∧
          (as = Table.answers (some .nil) (s.heap.versions x.table changes) ∨
            Pairs.CutShort as (Table.answers (some .nil) (s.heap.versions x.table changes)))) := by
  cases full : s.stack.isFull with
  | true =>
    have limit : s.stack.maxDepth ≤ s.stack.size := Stack.isFull_iff.mp full
    have refused := runAction_start (H := H) x s
    rw [full, if_pos rfl] at refused
    exact .inr ⟨by omega, .inl refused⟩
  | false =>
    let t := s.mapSlots (·.push x.value)
    have topped : s.Topped [x.value] t := (Topped.refl s).push x.value
    have session (changes) := session_cases (H := H) (p := ⟨s.top, some .nil⟩) framed rfl topped
      changes
    -- The table alone lies on the frame as long as the answers are those of `next`.
    have alone (peak : Peak) :
        t.atPeak peak = s.holding (s.stack.slots ++ [x.value].toArray) peak := by
      simp [t, atPeak, mapSlots, holding]
    by_cases room : s.stack.size + 3 ≤ s.stack.maxDepth
    · left
      intro changes
      rcases session changes with ⟨q, peak, based, ran⟩ | ⟨little, -⟩
      · rw [alone] at ran
        exact enumerated_of_session framed x full based ran
      · exact absurd little (Nat.not_lt.mpr room)
    · right
      refine ⟨Nat.lt_of_not_le room, .inr fun changes => ?_⟩
      rcases session changes with ⟨q, peak, based, ran⟩ | ⟨-, as, q, vs, peak, based, short, ran⟩
      · rw [alone] at ran
        exact ⟨_, [], enumerated_of_session framed x full based ran, .inl rfl⟩
      · exact ⟨as, vs, enumerated_of_session framed x full based ran, .inr short⟩

end Session
end Run
end HostBridge
