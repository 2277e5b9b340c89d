import HostBridge.Proofs.Access.Handover
import HostBridge.Proofs.Container.Iterator

namespace HostBridge
namespace State
variable {E : Embedding} {s t : State E} {key : Value} {x : TableId} {p : Value × Value}

/-- `t` with a pair in place of the key on top of its frame. -/
def showing (t : State E) (p : Value × Value) : State E :=
  t.mapSlots fun slots => slots.pop ++ #[p.1, p.2]

theorem Topped.showing (topped : s.Topped [.table x, key] t) (p : Value × Value) :
    s.Topped [.table x, p.1, p.2] (t.showing p) where
  slots := by simp [State.showing, topped.slots]
  base := topped.base

theorem showing_eq (t : State E) (p : Value × Value) :
    ((t.mapSlots (·.pop)).mapSlots (·.push p.1)).mapSlots (·.push p.2) = t.showing p := by
  have first : (t.mapSlots (·.pop)).mapSlots (·.push p.1) = t.mapSlots fun a => a.pop.push p.1 :=
    mapSlots_mapSlots (by rw [Array.size_push]; omega)
  have second : (t.mapSlots fun a => a.pop.push p.1).mapSlots (·.push p.2) =
      t.mapSlots fun a => (a.pop.push p.1).push p.2 :=
    mapSlots_mapSlots (by simp only [Array.size_push]; omega)
  rw [first, second]
  apply mapSlots_congr
  apply Array.toList_inj.mp
  simp

/-- Unless it panicked, a run left the frame of `s` in place and a table on it. -/
def Laden (s : State E) (x : TableId) : EStateM.Result Fault (State E) Unit → Prop
  | .ok _ t => ∃ vs, s.Topped (.table x :: vs) t
  | .error (.raised _) t => ∃ vs, s.Topped (.table x :: vs) t
  | .error (.panicked _) _ => True

def walking (s : State E) (x : View) : State E :=
  (s.mapSlots (·.push x.value)).mapSlots (·.push .nil)

end State

/-- How a walk of `x` goes on from `key`, which lies on top of the frame of `t`: the pairs that
`visit` is shown, and how the walk ends. The pair is on top of the frame whenever `visit` runs, in
place of the key before it. A visit leaves the values that it finds in place. It may fail, and the
walk panics where it leaves more and does not fail. -/
inductive Shown {E : Embedding} (x : TableId) (visit : Run E Unit) :
    Value → State E → List (Value × Value) → EStateM.Result Fault (State E) Unit → Prop
  | done {key : Value} {t : State E} (last : (t.heap.table x).next key = .ok none) :
    Shown x visit key t [] (.ok () (t.mapSlots (·.pop)))
  | stray {key : Value} {t : State E} {e : Error} (refused : (t.heap.table x).next key = .error e) :
    Shown x visit key t [] (.error (.raised e) (t.mapSlots (·.pop)))
  | failed {key : Value} {t u : State E} {p : Value × Value} {e : Error} {vs : List Value}
    (next : (t.heap.table x).next key = .ok (some p))
    (ran : visit (t.showing p) = .error (.raised e) u) (kept : (t.showing p).Topped vs u) :
    Shown x visit key t [p] (.error (.raised e) u)
  | panicked {key : Value} {t u : State E} {p : Value × Value} {q : Panic}
    (next : (t.heap.table x).next key = .ok (some p))
    (ran : visit (t.showing p) = .error (.panicked q) u) :
    Shown x visit key t [p] (.error (.panicked q) u)
  | grown {key : Value} {t u : State E} {p : Value × Value} {vs : List Value}
    (next : (t.heap.table x).next key = .ok (some p))
    (ran : visit (t.showing p) = .ok () u) (kept : (t.showing p).Topped vs u) (more : vs ≠ []) :
    Shown x visit key t [p]
      (.error (.panicked ⟨some "table walk callback changed the stack depth"⟩) u)
  | visited {key : Value} {t u : State E} {p : Value × Value} {ps : List (Value × Value)}
    {r : EStateM.Result Fault (State E) Unit} (next : (t.heap.table x).next key = .ok (some p))
    (ran : visit (t.showing p) = .ok () u) (kept : (t.showing p).Topped [] u)
    (rest : Shown x visit p.1 (u.mapSlots (·.pop)) ps r) : Shown x visit key t (p :: ps) r

/-- Unless it panics, a walk ends with the frame in place and the table on it. -/
theorem Shown.laden {E : Embedding} {s t : State E} {x : TableId} {key : Value}
    {ps : List (Value × Value)} {m : Run E Unit} {r : EStateM.Result Fault (State E) Unit}
    (shown : Shown x m key t ps r) (topped : s.Topped [.table x, key] t) : s.Laden x r := by
  induction shown with
  | done => exact ⟨[], State.Topped.pop [.table x] topped⟩
  | stray => exact ⟨[], State.Topped.pop [.table x] topped⟩
  | failed _ _ kept => exact ⟨_, (topped.showing _).trans kept⟩
  | panicked => trivial
  | grown => trivial
  | @visited key t u p ps r _ _ kept _ ih =>
    have left : s.Topped [.table x, p.1, p.2] u := (topped.showing p).trans kept
    exact ih (State.Topped.pop [.table x, p.1] left)

namespace Run
open State
variable {E : Embedding} {H : Host E} {enter : Enter E} {s t : State E} {x : TableId} {key : Value}
  {visit : Action E Unit}

section Round
variable (framed : s.base ≤ s.stack.size) (topped : s.Topped [.table x, key] t)
include framed topped

theorem walkFrom_of_pair (room : s.stack.size + 3 ≤ t.stack.maxDepth) {p : Value × Value}
    (next : (t.heap.table x).next key = .ok (some p)) (limit : Nat) :
    action enter H (View.walkFrom (s.top + 1) visit (limit + 1)) t =
      match action enter H visit (t.showing p) with
      | .error f u => .error f u
      | .ok _ u =>
        if u.top ≠ (t.showing p).top then
          .error (.panicked ⟨some "table walk callback changed the stack depth"⟩) u
        else (drop 1 >>= fun _ => action enter H (View.walkFrom (s.top + 1) visit limit)) u := by
  have popped : s.Topped [.table x] (t.mapSlots (·.pop)) := Topped.pop [.table x] topped
  have free : (t.mapSlots (·.pop)).stack.isFull = false :=
    popped.isFull.trans (decide_eq_false (Nat.not_le.mpr (Nat.lt_of_succ_lt room)))
  have free' : ((t.mapSlots (·.pop)).mapSlots (·.push p.1)).stack.isFull = false :=
    (popped.push p.1).isFull.trans (decide_eq_false (Nat.not_le.mpr room))
  have more : action enter H (Action.next (s.top + 1)) t = .ok true (t.showing p) := by
    rw [next_topped framed topped, next, ← showing_eq]
    simp only [pushPair_eq free, free', Bool.false_eq_true, if_false]
  rw [View.walkFrom]
  simp only [action_bind, bind_eq, more, if_true, action_top]
  cases action enter H visit (t.showing p) with
  | error f u => rfl
  | ok a u =>
    by_cases grown : u.top ≠ (t.showing p).top
    · simp only [if_pos grown]
      rfl
    · simp only [if_neg grown, action_bind, bind_eq, action_drop]

theorem walkFrom_of_last (last : (t.heap.table x).next key = .ok none) (limit : Nat) :
    action enter H (View.walkFrom (s.top + 1) visit (limit + 1)) t =
      .ok () (t.mapSlots (·.pop)) := by
  have ended : action enter H (Action.next (s.top + 1)) t = .ok false (t.mapSlots (·.pop)) := by
    rw [next_topped framed topped, last]
  rw [View.walkFrom]
  simp only [action_bind, bind_eq, ended, Bool.false_eq_true, if_false, action_pure, pure_eq]

end Round

theorem walkFrom_of_error {i : Int} {e : Error} {u : State E}
    (failed : action enter H (Action.next i) t = .error (.raised e) u) (limit : Nat) :
    action enter H (View.walkFrom i visit (limit + 1)) t = .error (.raised e) u := by
  rw [View.walkFrom]
  simp only [action_bind, bind_eq, failed]

/-- A walk makes the visits that follow from `next`, and ends as they do. -/
theorem walkFrom_shown (framed : s.base ≤ s.stack.size) {depth limit : Nat}
    {ps : List (Value × Value)} {r : EStateM.Result Fault (State E) Unit}
    (shown : Shown x (action (Run.enter H depth) H visit) key t ps r)
    (topped : s.Topped [.table x, key] t) (room : s.stack.size + 3 ≤ t.stack.maxDepth)
    (enough : ps.length ≤ limit) :
    action (Run.enter H depth) H (View.walkFrom (s.top + 1) visit (limit + 1)) t = r := by
  induction shown generalizing limit with
  | @done key t last => exact walkFrom_of_last framed topped last limit
  | @stray key t e refused =>
    have failed : action (Run.enter H depth) H (Action.next (s.top + 1)) t =
        .error (.raised e) (t.mapSlots (·.pop)) := by
      rw [next_topped framed topped, refused]
    exact walkFrom_of_error failed limit
  | @failed key t u p e vs next ran kept => rw [walkFrom_of_pair framed topped room next, ran]
  | @panicked key t u p q next ran => rw [walkFrom_of_pair framed topped room next, ran]
  | @grown key t u p vs next ran kept more =>
    have higher : u.top ≠ (t.showing p).top := by
      rw [kept.top_eq]
      have := List.length_pos_iff.mpr more
      omega
    rw [walkFrom_of_pair framed topped room next, ran]
    simp only [if_pos higher]
  | @visited key t u p ps r next ran kept rest ih =>
    obtain ⟨limit, rfl⟩ := Nat.exists_eq_succ_of_ne_zero (Nat.ne_of_gt (Nat.zero_lt_of_lt enough))
    have left : s.Topped [.table x, p.1, p.2] u := (topped.showing p).trans kept
    have level : ¬u.top ≠ (t.showing p).top := by
      rw [kept.top_eq, List.length_nil]
      omega
    have inside : u.base < u.stack.size := by
      rw [left.base, left.size]
      exact Nat.lt_of_le_of_lt framed (Nat.lt_add_of_pos_right (Nat.succ_pos _))
    have changes := ((evolves_action (evolves_enter (H := H) depth) visit).of_ok ran).changes
    have limits : u.stack.maxDepth = t.stack.maxDepth := changes.maxDepth
    have popped : s.Topped [.table x, p.1] (u.mapSlots (·.pop)) :=
      Topped.pop [.table x, p.1] left
    rw [walkFrom_of_pair framed topped room next, ran]
    simp only [if_neg level, bind_eq, drop_one inside]
    exact ih popped (limits ▸ room) (Nat.le_of_succ_le_succ enough)

/-- The end of a run, with the stack cut to `n` values unless it panicked. -/
def cutTo (n : Nat) {α : Type} :
    EStateM.Result Fault (State E) α → EStateM.Result Fault (State E) α
  | .ok a t => .ok a (t.mapSlots (·.take n))
  | .error (.raised e) t => .error (.raised e) (t.mapSlots (·.take n))
  | .error (.panicked p) t => .error (.panicked p) t

theorem topped_walking (s : State E) (x : View) : s.Topped [.table x.table, .nil] (s.walking x) :=
  ((Topped.refl s).push x.value).push .nil

def walkBody (x : View) (limit : Nat) (visit : Action E Unit) : Action E Unit := do
  Action.push x.value
  let slot ← Action.top
  Action.push .nil
  View.walkFrom slot visit limit

section Restored
variable (framed : s.base ≤ s.stack.size) (x : View) (visit : Action E Unit)
include framed

theorem walk_of_body {r : EStateM.Result Fault (State E) Unit} (laden : s.Laden x.table r)
    {limit : Nat} (ran : runAction H (walkBody x limit visit) s = r) :
    runAction H (x.walk limit visit) s = cutTo s.stack.size r := by
  have body : x.walk limit visit = ScriptFunction.restoring (walkBody x limit visit) := rfl
  rw [body, runAction_restoring_eq, ran]
  cases r with
  | ok a t =>
    obtain ⟨vs, topped⟩ := laden
    simp only [bind_eq, setTop_topped framed topped]
    rfl
  | error f t =>
    cases f with
    | raised e =>
      obtain ⟨vs, topped⟩ := laden
      simp only [bind_eq, setTop_topped framed topped]
      rfl
    | panicked p => rfl

omit framed in
theorem walkBody_of_room (room : s.stack.size + 2 ≤ s.stack.maxDepth) (limit : Nat) :
    runAction H (walkBody x limit visit) s =
      action (Run.enter H s.depthLeft) H (View.walkFrom (s.top + 1) visit limit) (s.walking x) := by
  have pushed : s.Topped [x.value] (s.mapSlots (·.push x.value)) := (Topped.refl s).push x.value
  have free : s.stack.isFull = false := decide_eq_false (Nat.not_le.mpr (Nat.lt_of_succ_lt room))
  have free' : (s.mapSlots (·.push x.value)).stack.isFull = false :=
    pushed.isFull.trans (decide_eq_false (Nat.not_le.mpr room))
  have top : (s.mapSlots (·.push x.value)).top = s.top + 1 := pushed.top_eq
  unfold runAction
  rw [walkBody]
  simp only [action_bind, bind_eq, action_push, action_top, push_eq, free, free', top,
    Bool.false_eq_true, if_false]
  rfl

/-- A walk on a stack with room for a pair makes the visits that follow from `next`; whatever is on
the frame in the end goes. -/
theorem walk_shown (room : s.stack.size + 3 ≤ s.stack.maxDepth) {limit : Nat}
    {ps : List (Value × Value)} {r : EStateM.Result Fault (State E) Unit}
    (shown : Shown x.table (action (Run.enter H s.depthLeft) H visit) .nil (s.walking x) ps r)
    (enough : ps.length < limit) :
    runAction H (x.walk limit visit) s = cutTo s.stack.size r := by
  have topped := topped_walking s x
  obtain ⟨limit, rfl⟩ := Nat.exists_eq_succ_of_ne_zero (Nat.ne_of_gt (Nat.zero_lt_of_lt enough))
  apply walk_of_body framed x visit (shown.laden topped)
  rw [walkBody_of_room x visit (Nat.le_of_succ_le room)]
  exact walkFrom_shown framed shown topped room (Nat.le_of_lt_succ enough)

omit framed in
/-- The frame is as before after a walk, unless it panicked. -/
theorem walk_sameStack {limit : Nat} {r : EStateM.Result Fault (State E) Unit}
    (laden : s.Laden x.table r) (ran : runAction H (x.walk limit visit) s = cutTo s.stack.size r)
    {t : State E} (leaves : Leaves (runAction H (x.walk limit visit)) s t) : s.SameStack t := by
  have topped : s.Topped [] t := by
    rw [Leaves, ran] at leaves
    cases r with
    | ok a u =>
      obtain ⟨vs, topped⟩ := laden
      rcases leaves with ⟨_, ended⟩ | ⟨e, ended⟩
      · cases ended
        exact topped.cut
      · contradiction
    | error f u =>
      cases f with
      | raised e =>
        obtain ⟨vs, topped⟩ := laden
        rcases leaves with ⟨_, ended⟩ | ⟨e, ended⟩
        · contradiction
        · cases ended
          exact topped.cut
      | panicked p => rcases leaves with ⟨_, ended⟩ | ⟨e, ended⟩ <;> cases ended
  obtain ⟨ds, unwinds⟩ := (unwound_runAction H (x.walk limit visit)).leaves leaves
  have changes := changes_runAction (H := H) (x.walk limit visit) s
  rw [leaves.final.1] at changes
  exact topped.sameStack changes.maxDepth unwinds.callDepth

theorem setTop_self : ∃ peak, setTop s.top s = .ok () (s.atPeak peak) ∨
    setTop s.top s = .error (.raised .stackOverflow) s := by
  have size : s.base + s.top.toNat = s.stack.size := by
    simp only [State.top]
    omega
  rw [setTop_eq, if_pos (by simp only [State.top]; omega), size, resize_eq, if_neg (by omega)]
  by_cases excess : s.stack.maxDepth < s.stack.size
  · exact ⟨s.peak, .inr (if_pos excess)⟩
  · have none : s.stack.slots ++ Array.replicate (s.stack.size - s.stack.slots.size) .nil =
        s.stack.slots := by simp [Stack.size]
    obtain ⟨peak, same⟩ := mapSlots_of_eq
      (f := fun a => a ++ Array.replicate (s.stack.size - a.size) .nil) none
    refine ⟨peak, .inl ?_⟩
    rw [if_neg excess, same]
    rfl

omit framed in
/-- Where there is room for a key only, the first pair does not fit. -/
theorem next_cramped (framed : s.base ≤ s.stack.size)
    (room : s.stack.size + 2 ≤ s.stack.maxDepth) (little : s.stack.maxDepth < s.stack.size + 3)
    {p : Value × Value} (found : (s.heap.table x.table).next .nil = .ok (some p)) :
    action enter H (Action.next (s.top + 1)) (s.walking x) =
      .error (.raised .stackOverflow) (((s.walking x).mapSlots (·.pop)).mapSlots (·.push p.1)) := by
  have topped := topped_walking s x
  have popped : s.Topped [x.value] ((s.walking x).mapSlots (·.pop)) :=
    Topped.pop [x.value] topped
  have free : ((s.walking x).mapSlots (·.pop)).stack.isFull = false :=
    popped.isFull.trans (decide_eq_false (Nat.not_le.mpr room))
  have full : (((s.walking x).mapSlots (·.pop)).mapSlots (·.push p.1)).stack.isFull = true :=
    (popped.push p.1).isFull.trans (decide_eq_true (Nat.le_of_lt_succ little))
  have same : (s.walking x).heap = s.heap := rfl
  rw [next_topped framed topped, same, found]
  simp only [pushPair_eq free, full, if_true]

/-- A walk that has touched nothing but the stack leaves all as it was. -/
theorem walk_of_untouched {r : Except Error Unit} {t : State E} {vs : List Value}
    (topped : s.Topped (x.value :: vs) t)
    (same : ∀ peak, t.holding s.stack.slots peak = s.atPeak peak) {limit : Nat}
    (ran : runAction H (walkBody x limit visit) s = ofExcept r t) :
    ∃ peak, runAction H (x.walk limit visit) s = ofExcept r (s.atPeak peak) := by
  have laden : s.Laden x.table (ofExcept r t) := by
    cases r <;> exact ⟨vs, topped⟩
  obtain ⟨peak, cut⟩ := topped.cut_eq
  refine ⟨peak, ?_⟩
  rw [walk_of_body framed x visit laden ran, ← same, ← cut]
  cases r <;> rfl

/-- Where the table and nil fit but no pair does, a walk ends at its first pair. -/
theorem walk_narrow (room : s.stack.size + 2 ≤ s.stack.maxDepth)
    (little : s.stack.maxDepth < s.stack.size + 3) (limit : Nat) : ∃ peak,
    runAction H (x.walk limit visit) s = .error (.raised .stackOverflow) (s.atPeak peak) ∨
    runAction H (x.walk limit visit) s = .ok () (s.atPeak peak) ∧
      (0 < limit → (s.heap.table x.table).next .nil = .ok none) := by
  have topped := topped_walking s x
  have body := walkBody_of_room (H := H) x visit room limit
  cases limit with
  | zero =>
    obtain ⟨peak, ended⟩ :=
      walk_of_untouched framed x visit (r := .ok ()) topped (fun _ => rfl) body
    exact ⟨peak, .inr ⟨ended, nofun⟩⟩
  | succ limit =>
    have start : (s.walking x).heap = s.heap := rfl
    cases found : (s.heap.table x.table).next .nil with
    | error e => cases found
    | ok r =>
      cases r with
      | none =>
        rw [walkFrom_of_last framed topped (start ▸ found)] at body
        obtain ⟨peak, ended⟩ := walk_of_untouched framed x visit (r := .ok ())
          (Topped.pop [x.value] topped) (fun _ => rfl) body
        exact ⟨peak, .inr ⟨ended, fun _ => rfl⟩⟩
      | some p =>
        rw [walkFrom_of_error (next_cramped x framed room little found)] at body
        obtain ⟨peak, ended⟩ := walk_of_untouched framed x visit (r := .error .stackOverflow)
          ((Topped.pop [x.value] topped).push p.1) (fun _ => rfl) body
        exact ⟨peak, .inl ended⟩

/-- On a stack with less room a walk of a table with pairs fails before it makes a visit. -/
theorem walk_cramped (little : s.stack.maxDepth < s.stack.size + 3) (limit : Nat) : ∃ peak,
    runAction H (x.walk limit visit) s = .error (.raised .stackOverflow) (s.atPeak peak) ∨
    runAction H (x.walk limit visit) s = .ok () (s.atPeak peak) ∧
      (0 < limit → (s.heap.table x.table).next .nil = .ok none) := by
  cases full : s.stack.isFull with
  | true =>
    have ran : runAction H (walkBody x limit visit) s = .error (.raised .stackOverflow) s := by
      unfold runAction
      rw [walkBody]
      simp only [action_bind, bind_eq, action_push, push_eq, full, if_true]
    have body : x.walk limit visit = ScriptFunction.restoring (walkBody x limit visit) := rfl
    rw [body, runAction_restoring_eq, ran]
    obtain ⟨peak, back | back⟩ := setTop_self framed
    · exact ⟨peak, .inl (by simp only [bind_eq, back]; rfl)⟩
    · exact ⟨s.peak, .inl (by simp only [bind_eq, back]; rfl)⟩
  | false =>
    cases full' : (s.mapSlots (·.push x.value)).stack.isFull with
    | true =>
      have ran : runAction H (walkBody x limit visit) s =
          .error (.raised .stackOverflow) (s.mapSlots (·.push x.value)) := by
        unfold runAction
        rw [walkBody]
        simp only [action_bind, bind_eq, action_push, action_top, push_eq, full, full',
          Bool.false_eq_true, if_false, if_true]
      obtain ⟨peak, ended⟩ := walk_of_untouched framed x visit (r := .error .stackOverflow)
        ((Topped.refl s).push x.value) (fun _ => rfl) ran
      exact ⟨peak, .inl ended⟩
    | false =>
      have room : s.stack.size + 2 ≤ s.stack.maxDepth := by
        rw [((Topped.refl s).push x.value).isFull] at full'
        exact Nat.lt_of_not_le (of_decide_eq_false full')
      exact walk_narrow framed x visit room little limit

end Restored

end Run
end HostBridge
