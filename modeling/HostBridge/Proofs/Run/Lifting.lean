import HostBridge.Proofs.Run.Isolated
/-!
Runs on a higher stack. A run that finds its way by its frame does the same when more values lie
below the frame, as long as the stack does not end too soon: it comes to the same outcome, does the
same to everything else and leaves the values below it alone. How many more values the stack has
room for shows in the height that it reaches without them. Values that do not lie there wait off the
stack instead, so that what they own has its owners in either case.
-/
namespace HostBridge

/-- What a stack is put on: the values below it, how high the whole has been before, and by how much
the limit of the whole is higher, which is not more than there are values. The values are among those
of `aside`, which wait where they do not lie below the stack; where they do, those of `still` do. -/
structure Footing where
  values : Array Value
  reached : Nat
  extra : Nat
  extra_le : extra ≤ values.size
  aside : List Value
  still : List Value
  aside_perm : aside.Perm (values.toList ++ still)

namespace State
variable {E : Embedding} {limit : Nat} {s t : State E} {x : Footing}

def atop (s : State E) (x : Footing) : State E :=
  { s with
    stack := { slots := x.values ++ s.stack.slots, maxDepth := s.stack.maxDepth + x.extra }
    base := x.values.size + s.base
    peak := { s.peak with size := max x.reached (x.values.size + s.peak.size) }
    waiting := s.waiting.take (s.waiting.length - x.aside.length) ++ x.still }

@[simp] theorem heap_atop : (s.atop x).heap = s.heap := rfl
@[simp] theorem base_atop : (s.atop x).base = x.values.size + s.base := rfl
@[simp] theorem maxDepth_atop : (s.atop x).stack.maxDepth = s.stack.maxDepth + x.extra := rfl
@[simp] theorem slots_atop : (s.atop x).stack.slots = x.values ++ s.stack.slots := rfl

@[simp] theorem size_atop : (s.atop x).stack.size = x.values.size + s.stack.size :=
  Array.size_append

@[simp] theorem top_atop : (s.atop x).top = s.top := by
  simp only [top, size_atop, base_atop]
  omega

theorem get_atop (p : Nat) : (s.atop x).stack.get (x.values.size + p) = s.stack.get p := by
  simp only [Stack.get, slots_atop, Array.getElem?_append_right (Nat.le_add_right _ _),
    Nat.add_sub_cancel_left]

theorem mapSlots_atop {f g : Array Value → Array Value}
    (commutes : g (x.values ++ s.stack.slots) = x.values ++ f s.stack.slots) :
    (s.atop x).mapSlots g = (s.mapSlots f).atop x := by
  simp only [mapSlots, atop, commutes, Array.size_append, Nat.max_assoc, Nat.add_max_add_left]

theorem awaiting_atop (ws : List Value) :
    (s.awaiting ws).atop x = (s.atop x).awaiting (ws.take (ws.length - x.aside.length) ++ x.still) :=
  rfl

/-- What begins to wait does so whether or not the values of `x` wait too. -/
theorem atop_awaiting (aside : x.aside <:+ s.waiting) (vs : List Value) :
    (s.atop x).awaiting (vs ++ (s.atop x).waiting) = (s.awaiting (vs ++ s.waiting)).atop x := by
  have le : x.aside.length ≤ s.waiting.length := aside.length_le
  have split : (vs ++ s.waiting).length - x.aside.length =
      vs.length + (s.waiting.length - x.aside.length) := by
    rw [List.length_append]
    omega
  rw [awaiting_atop, split, List.take_length_add_append, List.append_assoc]
  rfl

theorem framed_atop (framed : s.base ≤ s.stack.size) : (s.atop x).base ≤ (s.atop x).stack.size := by
  rw [size_atop, base_atop]
  exact Nat.add_le_add_left framed _

theorem position_atop (framed : s.base ≤ s.stack.size) (index : Int) :
    (s.atop x).position index = (s.position index).map (x.values.size + ·) := by
  have top : s.top = (s.stack.size : Int) - s.base := rfl
  rw [position_of_framed framed, position_of_framed (framed_atop framed)]
  simp only [size_atop, base_atop, top_atop]
  by_cases forward : 0 < index
  · simp only [if_pos forward]
    have shift : x.values.size + s.base + index.toNat - 1 =
        x.values.size + (s.base + index.toNat - 1) := by omega
    by_cases inside : s.base + index.toNat - 1 < s.stack.size
    · rw [shift, if_pos inside, if_pos (Nat.add_lt_add_left inside _)]
      rfl
    · rw [shift, if_neg inside, if_neg fun h => inside (Nat.lt_of_add_lt_add_left h)]
      rfl
  · simp only [if_neg forward]
    by_cases inside : index < 0 ∧ -index ≤ s.top
    · have shift : x.values.size + s.stack.size - index.natAbs =
          x.values.size + (s.stack.size - index.natAbs) := by omega
      rw [if_pos inside, if_pos inside, shift]
      rfl
    · rw [if_neg inside, if_neg inside]
      rfl

theorem resembles_atop (framed : s.base ≤ s.stack.size) : (s.atop x).Resembles s where
  heap := rfl
  config := rfl
  callDepth := rfl
  top := top_atop
  slot index := by
    simp only [slot, position_atop framed]
    cases s.position index with
    | error e => rfl
    | ok p => exact get_atop p
  absolute index := by
    rw [absolute_of_framed framed, absolute_of_framed (framed_atop framed), position_atop framed,
      base_atop]
    cases s.position index with
    | error e => rfl
    | ok p =>
      refine congrArg Except.ok ?_
      change ((x.values.size + p : Nat) : Int) - (x.values.size + s.base : Nat) + 1 = (p : Int) - s.base + 1
      omega

/-- Arguments are in the frame, as long as their positions do not wrap around. -/
theorem argument_atop {n : Nat} (small : x.values.size + s.base + n ≤ 0x10000000000000000) :
    (s.atop x).argument n = s.argument n := by
  unfold argument
  by_cases none : n = 0
  · rw [if_pos none, if_pos none]
  · have exact : (x.values.size + s.base + n - 1) % 0x10000000000000000 =
        x.values.size + (s.base + n - 1) := by omega
    have exact' : (s.base + n - 1) % 0x10000000000000000 = s.base + n - 1 :=
      Nat.mod_eq_of_lt (by omega)
    rw [if_neg none, if_neg none, base_atop, exact, exact']
    simp only [Array.getD_eq_getD_getElem?, slots_atop,
      Array.getElem?_append_right (Nat.le_add_right _ _), Nat.add_sub_cancel_left]

/-- A frame within a stack of at most `limit` slots, whose height is on record. What is to be put
below it waits. -/
structure Standing (x : Footing) (limit : Nat) (s : State E) : Prop extends s.Above 0 limit where
  measured : s.stack.size ≤ s.peak.size
  capped : s.peak.size ≤ s.stack.maxDepth
  aside : x.aside <:+ s.waiting

/-- `t` is a later moment of the run that began in `s`, whose height is on record. -/
structure Rises (s t : State E) : Prop where
  grows : s.peak.size ≤ t.peak.size
  measured : t.stack.size ≤ t.peak.size
  capped : t.peak.size ≤ s.stack.maxDepth
  waiting : t.waiting = s.waiting

theorem Rises.trans {u : State E} (first : s.Rises t) (limits : t.stack.maxDepth = s.stack.maxDepth)
    (second : t.Rises u) : s.Rises u where
  grows := Nat.le_trans first.grows second.grows
  measured := second.measured
  capped := limits ▸ second.capped
  waiting := second.waiting.trans first.waiting

theorem Standing.rises (standing : s.Standing x limit) : s.Rises s :=
  ⟨Nat.le_refl _, standing.measured, standing.capped, rfl⟩

end State

namespace Run
open State
variable {E : Embedding} {α β : Type} {x : Footing} {limit : Nat} {s : State E}

/-- What `m` does from `s` on, `n` does on top of the values of `x`, unless `m` makes the stack so
high that these have no room. -/
structure LiftsAt (x : Footing) (s : State E) (m n : Run E α) : Prop where
  rises : s.Rises (m.final s)
  lifts : x.values.size + (m.final s).peak.size ≤ s.stack.maxDepth + x.extra →
    n (s.atop x) = mapState (·.atop x) (m s)

structure Lifts (x : Footing) (limit : Nat) (m : Run E α) : Prop where
  isolated : Isolated False 0 limit m
  lift : ∀ s, s.Standing x limit → LiftsAt x s m m

theorem LiftsAt.congr {m n m' n' : Run E α} (lift : LiftsAt x s m' n') (here : m s = m' s)
    (there : x.values.size + (m'.final s).peak.size ≤ s.stack.maxDepth + x.extra →
      n (s.atop x) = n' (s.atop x)) : LiftsAt x s m n := by
  have final : m.final s = m'.final s := by rw [Run.final, Run.final, here]
  refine ⟨final ▸ lift.rises, fun room => ?_⟩
  rw [final] at room
  rw [here, there room, lift.lifts room]

theorem OffFrame.lifts {m : Run E α} (off : OffFrame m) : Lifts x limit m where
  isolated := off.isolated
  lift s standing := by
    refine ⟨?_, fun _ => ?_⟩
    · rw [off.final_eq s]
      exact { standing.rises with }
    · have here := off s s
      have there := off s (s.atop x)
      rw [inFrameOf_self] at here
      change m (s.atop x) = _ at there
      rw [there, here]
      cases m s <;> rfl

theorem liftsAt_throw (standing : s.Standing x limit) (f : Fault) :
    LiftsAt x s (throw f : Run E α) (throw f) :=
  (offFrame_throw f).lifts.lift s standing

theorem liftsAt_raise (standing : s.Standing x limit) (e : Error) :
    LiftsAt x s (raise e : Run E α) (raise e) :=
  liftsAt_throw standing (.raised e)

theorem liftsAt_pure (standing : s.Standing x limit) (a : α) :
    LiftsAt x s (pure a : Run E α) (pure a) :=
  (offFrame_pure a).lifts.lift s standing

theorem liftsAt_mapSlots (standing : s.Standing x limit) (a : α) {f g : Array Value → Array Value}
    (bounded : (f s.stack.slots).size ≤ s.stack.maxDepth)
    (commutes : g (x.values ++ s.stack.slots) = x.values ++ f s.stack.slots) :
    LiftsAt x s (fun s => .ok a (s.mapSlots f)) (fun s => .ok a (s.mapSlots g)) where
  rises := ⟨Nat.le_max_left _ _, Nat.le_max_right _ _, Nat.max_le.mpr ⟨standing.capped, bounded⟩, rfl⟩
  lifts _ := congrArg (EStateM.Result.ok a) (mapSlots_atop commutes)

theorem LiftsAt.standing {m n : Run E α} {t : State E} (standing : s.Standing x limit)
    (isolated : IsolatedAt False 0 s m) (lift : LiftsAt x s m n) (ended : m.final s = t)
    (base : t.base = s.base) : t.Standing x limit := by
  have covers : s.Covers t := ended ▸ isolated.covers
  have rises : s.Rises t := ended ▸ lift.rises
  refine ⟨standing.toAbove.of_covers covers base, rises.measured, ?_, ?_⟩
  · rw [covers.maxDepth]
    exact rises.capped
  · rw [rises.waiting]
    exact standing.aside

/-- A run that goes on after an answer and after an error; a panic ends it where it arose. -/
theorem LiftsAt.branch {m m' : Run E α} {f h : α → Run E β} {g k : Error → Run E β}
    {n n' : Run E β} (standing : s.Standing x limit) (isolated : IsolatedAt False 0 s m)
    (first : LiftsAt x s m m')
    (steps : ∀ u, n u = match m u with
      | .ok a t => f a t
      | .error (.raised e) t => g e t
      | .error (.panicked p) t => .error (.panicked p) t)
    (steps' : ∀ u, n' u = match m' u with
      | .ok a t => h a t
      | .error (.raised e) t => k e t
      | .error (.panicked p) t => .error (.panicked p) t)
    (returned : ∀ a t, m s = .ok a t → t.Standing x limit → LiftsAt x t (f a) (h a))
    (raised : ∀ e t, m s = .error (.raised e) t → t.Standing x limit →
      LiftsAt x t (g e) (k e)) : LiftsAt x s n n' := by
  have goes {r : Run E β} {r' : Run E β} {t : State E} (ended : m.final s = t)
      (later : LiftsAt x t r r') (here : n s = r t) (standing' : t.Standing x limit)
      (there : x.values.size + t.peak.size ≤ s.stack.maxDepth + x.extra →
        n' (s.atop x) = r' (t.atop x)) : LiftsAt x s n n' := by
    have final : n.final s = r.final t := by rw [Run.final, Run.final, here]
    have rises : s.Rises t := ended ▸ first.rises
    have limits : t.stack.maxDepth = s.stack.maxDepth := standing'.limit.trans standing.limit.symm
    refine ⟨final ▸ rises.trans limits later.rises, fun room => ?_⟩
    rw [final] at room
    rw [here, there (Nat.le_trans (Nat.add_le_add_left later.rises.grows _) room),
      later.lifts (limits ▸ room)]
  cases ran : m s with
  | ok a t =>
    have ended := final_of_ok ran
    have standing' := LiftsAt.standing standing isolated first ended (isolated.base_of_ok a t ran)
    apply goes ended (returned a t ran standing') (by rw [steps, ran]) standing'
    intro room
    rw [steps', first.lifts (ended ▸ room), ran]
    rfl
  | error fault t =>
    have ended := final_of_error ran
    cases fault with
    | raised e =>
      have standing' :=
        LiftsAt.standing standing isolated first ended (isolated.base_of_raised e t ran)
      apply goes ended (raised e t ran standing') (by rw [steps, ran]) standing'
      intro room
      rw [steps', first.lifts (ended ▸ room), ran]
      rfl
    | panicked p =>
      have here : n s = .error (.panicked p) t := by rw [steps, ran]
      have final : n.final s = m.final s := by rw [final_of_error here, ended]
      refine ⟨final ▸ first.rises, fun room => ?_⟩
      rw [final] at room
      rw [here, steps', first.lifts room, ran]
      rfl

theorem LiftsAt.bind {m m' : Run E α} {f h : α → Run E β} (standing : s.Standing x limit)
    (isolated : IsolatedAt False 0 s m) (first : LiftsAt x s m m')
    (rest : ∀ a t, m s = .ok a t → t.Standing x limit → LiftsAt x t (f a) (h a)) :
    LiftsAt x s (m >>= f) (m' >>= h) := by
  apply first.branch standing isolated (g := raise) (k := raise) _ _ rest
  · intro e t _ standing'
    exact liftsAt_raise standing' e
  · intro u
    rw [bind_eq]
    cases m u with
    | ok a t => rfl
    | error fault t => cases fault <;> rfl
  · intro u
    rw [bind_eq]
    cases m' u with
    | ok a t => rfl
    | error fault t => cases fault <;> rfl

theorem liftsAt_answer (standing : s.Standing x limit) {f : State E → α}
    (blind : x.values.size + s.stack.size ≤ limit + x.extra → f (s.atop x) = f s) :
    LiftsAt x s (get >>= fun s => pure (f s)) (get >>= fun s => pure (f s)) := by
  refine ⟨standing.rises, fun room => ?_⟩
  have measured := standing.measured
  have limits := standing.limit
  have room : x.values.size + s.peak.size ≤ s.stack.maxDepth + x.extra := room
  exact congrArg (EStateM.Result.ok · (s.atop x)) (blind (by omega))

/-! The operations on the frame. -/

theorem isFull_atop (room : x.values.size + s.stack.size < s.stack.maxDepth + x.extra) :
    (s.atop x).stack.isFull = false := by
  rw [Stack.free_iff, size_atop, maxDepth_atop]
  exact room

theorem isFull_atop_of_full (full : s.stack.isFull = true) :
    (s.atop x).stack.isFull = true := by
  have extra := x.extra_le
  rw [Stack.isFull_iff] at full ⊢
  rw [size_atop, maxDepth_atop]
  omega

theorem liftsAt_push (standing : s.Standing x limit) (v : Value) :
    LiftsAt x s (push v) (push v) := by
  cases full : s.stack.isFull with
  | true =>
    apply (liftsAt_raise standing .stackOverflow).congr
    · rw [push_eq, full]
      rfl
    · intro _
      rw [push_eq, isFull_atop_of_full full]
      rfl
  | false =>
    have below : s.stack.slots.size < s.stack.maxDepth :=
      Stack.free_iff.mp full
    have bounded : (s.stack.slots.push v).size ≤ s.stack.maxDepth := by
      rw [Array.size_push]
      exact below
    apply (liftsAt_mapSlots (f := (·.push v)) (g := (·.push v)) standing () bounded
      Array.push_append).congr
    · rw [push_eq, full]
      rfl
    · intro room
      have reached : (s.stack.slots.push v).size ≤ _ := Nat.le_max_right s.peak.size _
      have room : x.values.size + max s.peak.size (s.stack.slots.push v).size ≤
        s.stack.maxDepth + x.extra := room
      rw [Array.size_push] at reached room
      have free : x.values.size + s.stack.slots.size < s.stack.maxDepth + x.extra := by omega
      rw [push_eq, isFull_atop free]
      rfl

theorem liftsAt_pop (standing : s.Standing x limit) : LiftsAt x s pop pop := by
  have framed := standing.framed
  by_cases empty : s.stack.size ≤ s.base
  · apply (liftsAt_raise standing .stackUnderflow).congr
    · rw [pop_eq, if_pos empty]
      rfl
    · intro _
      rw [pop_eq, size_atop, base_atop, if_pos (Nat.add_le_add_left empty _)]
      rfl
  · have nonempty : s.stack.slots ≠ #[] := by
      intro none
      have zero : s.stack.size = 0 := congrArg Array.size none
      omega
    obtain ⟨v, top⟩ := top?_isSome (Nat.lt_of_not_le empty)
    have top' : (s.atop x).stack.top? = some v := by
      have top : s.stack.slots.back? = some v := top
      rw [Stack.top?, slots_atop, Array.back?_append, top]
      rfl
    have bounded : s.stack.slots.pop.size ≤ s.stack.maxDepth := by
      rw [Array.size_pop]
      exact Nat.le_trans (Nat.sub_le _ _) standing.bounded
    apply (liftsAt_mapSlots standing v bounded (Array.pop_append_of_ne_empty nonempty)).congr
    · rw [pop_eq, if_neg empty, top]
    · intro _
      rw [pop_eq, size_atop, base_atop, if_neg fun h => empty (Nat.le_of_add_le_add_left h), top']

theorem liftsAt_truncate (standing : s.Standing x limit) (n : Nat) :
    LiftsAt x s (truncate n) (truncate (x.values.size + n)) := by
  have bounded : s.stack.slots.size ≤ s.stack.maxDepth := standing.bounded
  refine liftsAt_mapSlots standing _ ?_ (append_take _ _ n)
  rw [Array.take_eq_extract, Array.size_extract]
  omega

theorem liftsAt_drop (standing : s.Standing x limit) (n : Nat) :
    LiftsAt x s (drop n) (drop n) := by
  have framed := standing.framed
  have top : s.top = (s.stack.size : Int) - s.base := rfl
  have framed' : (s.atop x).base ≤ (s.atop x).stack.size := framed_atop framed
  by_cases short : s.top < n
  · apply (liftsAt_raise standing .stackUnderflow).congr
    · rw [drop_of_framed framed, if_pos short]
      rfl
    · intro _
      rw [drop_of_framed framed', top_atop, if_pos short]
      rfl
  · have shift : x.values.size + s.stack.size - n = x.values.size + (s.stack.size - n) := by omega
    apply (liftsAt_truncate standing (s.stack.size - n)).congr
    · rw [drop_of_framed framed, if_neg short]
      rfl
    · intro _
      rw [drop_of_framed framed', top_atop, if_neg short, size_atop, shift]
      rfl

theorem liftsAt_resize (standing : s.Standing x limit) (n : Nat) :
    LiftsAt x s (resize n) (resize (x.values.size + n)) := by
  by_cases shorter : n < s.stack.size
  · apply (liftsAt_truncate standing n).congr
    · rw [resize_eq, if_pos shorter]
      rfl
    · intro _
      rw [resize_eq, size_atop, if_pos (Nat.add_lt_add_left shorter _)]
      rfl
  · have longer : ¬x.values.size + n < x.values.size + s.stack.size := by omega
    by_cases excess : s.stack.maxDepth < n
    · apply (liftsAt_raise standing .stackOverflow).congr
      · rw [resize_eq, if_neg shorter, if_pos excess]
        rfl
      · intro _
        have extra := x.extra_le
        rw [resize_eq, size_atop, if_neg longer, maxDepth_atop, if_pos (by omega)]
        rfl
    · have filled : LiftsAt x s
          (fun s => .ok () (s.mapSlots fun a => a ++ Array.replicate (n - a.size) .nil))
          (fun s => .ok () (s.mapSlots fun a =>
            a ++ Array.replicate (x.values.size + n - a.size) .nil)) := by
        apply liftsAt_mapSlots standing
        · have le : s.stack.slots.size ≤ n := Nat.le_of_not_lt shorter
          rw [Array.size_append, Array.size_replicate]
          omega
        · rw [Array.size_append, Nat.add_sub_add_left, Array.append_assoc]
      apply filled.congr
      · rw [resize_eq, if_neg shorter, if_neg excess]
      · intro room
        have reached : x.values.size + max s.peak.size
            (s.stack.slots ++ Array.replicate (n - s.stack.slots.size) Value.nil).size ≤
              s.stack.maxDepth + x.extra := room
        rw [Array.size_append, Array.size_replicate] at reached
        rw [resize_eq, size_atop, if_neg longer, maxDepth_atop, if_neg (by omega)]

theorem liftsAt_setTop (standing : s.Standing x limit) (index : Int) :
    LiftsAt x s (setTop index) (setTop index) := by
  have framed := standing.framed
  have framed' : (s.atop x).base ≤ (s.atop x).stack.size := framed_atop framed
  by_cases forward : 0 ≤ index
  · apply (liftsAt_resize standing (s.base + index.toNat)).congr
    · rw [setTop_of_framed framed, if_pos forward]
    · intro _
      rw [setTop_of_framed framed', if_pos forward, base_atop, Nat.add_assoc]
  · have there := position_atop (x := x) framed index
    cases found : s.position index with
    | error e =>
      rw [found] at there
      apply (liftsAt_raise standing e).congr
      · rw [setTop_of_framed framed, if_neg forward, found]
        rfl
      · intro _
        rw [setTop_of_framed framed', if_neg forward, there]
        rfl
    | ok p =>
      rw [found] at there
      apply (liftsAt_resize standing (p + 1)).congr
      · rw [setTop_of_framed framed, if_neg forward, found]
      · intro _
        rw [setTop_of_framed framed', if_neg forward, there]
        rfl

/-- A value that is put in at a position of the frame or right above it, where the stack is not full. -/
theorem liftsAt_inserted (standing : s.Standing x limit) (a : α) {p : Nat}
    (inside : p ≤ s.stack.size) (free : s.stack.isFull = false) (v : Value) :
    LiftsAt x s (fun t => .ok a (t.mapSlots (·.insertIdxIfInBounds p v)))
      (fun t => if t.stack.isFull then .error (.raised .stackOverflow) t
        else .ok a (t.mapSlots (·.insertIdxIfInBounds (x.values.size + p) v))) := by
  have le : p ≤ s.stack.slots.size := inside
  have below : s.stack.slots.size < s.stack.maxDepth := Stack.free_iff.mp free
  have size := size_insertIdxIfInBounds le v
  apply (liftsAt_mapSlots (f := (·.insertIdxIfInBounds p v))
    (g := (·.insertIdxIfInBounds (x.values.size + p) v)) standing a (size ▸ below)
    (append_insert _ _ v)).congr rfl
  intro room
  have room : x.values.size + max s.peak.size (s.stack.slots.insertIdxIfInBounds p v).size ≤
    s.stack.maxDepth + x.extra := room
  rw [size] at room
  have higher : x.values.size + s.stack.slots.size < s.stack.maxDepth + x.extra := by omega
  rw [isFull_atop higher]
  rfl

theorem liftsAt_insertAt (standing : s.Standing x limit) (p : Nat) (v : Value) :
    LiftsAt x s
      (fun t => if t.stack.size < p then .error (.raised .stackUnderflow) t
        else if t.stack.isFull then .error (.raised .stackOverflow) t
        else .ok () (t.mapSlots (·.insertIdxIfInBounds p v)))
      (fun t => if t.stack.size < x.values.size + p then .error (.raised .stackUnderflow) t
        else if t.stack.isFull then .error (.raised .stackOverflow) t
        else .ok () (t.mapSlots (·.insertIdxIfInBounds (x.values.size + p) v))) := by
  by_cases beyond : s.stack.size < p
  · apply (liftsAt_raise standing .stackUnderflow).congr
    · rw [if_pos beyond]
      rfl
    · intro _
      rw [size_atop, if_pos (Nat.add_lt_add_left beyond _)]
      rfl
  · have beyond' : ¬x.values.size + s.stack.size < x.values.size + p := by omega
    cases full : s.stack.isFull with
    | true =>
      apply (liftsAt_raise standing .stackOverflow).congr
      · rw [if_neg beyond, full]
        rfl
      · intro _
        rw [size_atop, if_neg beyond', isFull_atop_of_full full]
        rfl
    | false =>
      apply (liftsAt_inserted standing () (Nat.le_of_not_lt beyond) full v).congr
      · rw [if_neg beyond, full]
        rfl
      · intro _
        rw [size_atop, if_neg beyond']

theorem liftsAt_insert (standing : s.Standing x limit) (index : Int) :
    LiftsAt x s (insert index) (insert index) := by
  have there := position_atop (x := x) standing.framed index
  cases found : s.position index with
  | error e =>
    rw [found] at there
    apply (liftsAt_raise standing e).congr
    · rw [insert_eq, found]
      rfl
    · intro _
      rw [insert_eq, there]
      rfl
  | ok p =>
    rw [found] at there
    have moved := (liftsAt_pop (x := x) standing).bind standing
      (isolated_pop s standing.toAbove) fun v t _ standing' => liftsAt_insertAt standing' p v
    apply moved.congr
    · refine Eq.trans ?_ (bind_eq pop _ s).symm
      rw [insert_eq, found]
      cases pop s <;> rfl
    · intro _
      refine Eq.trans ?_ (bind_eq pop _ (s.atop x)).symm
      rw [insert_eq, there]
      cases pop (s.atop x) <;> rfl

theorem liftsAt_remove (standing : s.Standing x limit) (index : Int) :
    LiftsAt x s (remove index) (remove index) := by
  have there := position_atop (x := x) standing.framed index
  cases found : s.position index with
  | error e =>
    rw [found] at there
    apply (liftsAt_raise standing e).congr
    · rw [remove_eq, found]
      rfl
    · intro _
      rw [remove_eq, there]
      rfl
  | ok p =>
    rw [found] at there
    have inside : p < s.stack.slots.size := (position_bounds standing.framed found).2
    have bounded : (s.stack.slots.eraseIdxIfInBounds p).size ≤ s.stack.maxDepth := by
      rw [← Array.eraseIdx_eq_eraseIdxIfInBounds inside, Array.size_eraseIdx]
      exact Nat.le_trans (Nat.sub_le _ _) standing.bounded
    apply (liftsAt_mapSlots (f := (·.eraseIdxIfInBounds p))
      (g := (·.eraseIdxIfInBounds (x.values.size + p))) standing () bounded
      (append_erase inside)).congr
    · have inside : ¬s.stack.size ≤ p := Nat.not_le_of_lt inside
      simp only [remove_eq, found, if_neg inside]
    · intro _
      have inside' : ¬x.values.size + s.stack.size ≤ x.values.size + p :=
        fun h => Nat.not_le_of_lt inside (Nat.le_of_add_le_add_left h)
      simp only [remove_eq, there, Except.map, size_atop, if_neg inside']

theorem liftsAt_storeAt (standing : s.Standing x limit) (p : Nat) (v : Value) :
    LiftsAt x s
      (fun t => if t.stack.size ≤ p then push v t else .ok () (t.mapSlots (·.setIfInBounds p v)))
      (fun t => if t.stack.size ≤ x.values.size + p then push v t
        else .ok () (t.mapSlots (·.setIfInBounds (x.values.size + p) v))) := by
  by_cases beyond : s.stack.size ≤ p
  · apply (liftsAt_push standing v).congr
    · rw [if_pos beyond]
    · intro _
      rw [size_atop, if_pos (Nat.add_le_add_left beyond _)]
  · have beyond' : ¬x.values.size + s.stack.size ≤ x.values.size + p := by omega
    have commutes : (x.values ++ s.stack.slots).setIfInBounds (x.values.size + p) v =
        x.values ++ s.stack.slots.setIfInBounds p v := by
      rw [Array.setIfInBounds_append, if_neg (by omega), Nat.add_sub_cancel_left]
    have bounded : (s.stack.slots.setIfInBounds p v).size ≤ s.stack.maxDepth := by
      rw [Array.size_setIfInBounds]
      exact standing.bounded
    apply (liftsAt_mapSlots (f := (·.setIfInBounds p v))
      (g := (·.setIfInBounds (x.values.size + p) v)) standing () bounded commutes).congr
    · rw [if_neg beyond]
    · intro _
      rw [size_atop, if_neg beyond']

theorem liftsAt_replace (standing : s.Standing x limit) (index : Int) :
    LiftsAt x s (replace index) (replace index) := by
  have there := position_atop (x := x) standing.framed index
  cases found : s.position index with
  | error e =>
    rw [found] at there
    apply (liftsAt_raise standing e).congr
    · rw [replace_eq, found]
      rfl
    · intro _
      rw [replace_eq, there]
      rfl
  | ok p =>
    rw [found] at there
    have moved := (liftsAt_pop (x := x) standing).bind standing
      (isolated_pop s standing.toAbove) fun v t _ standing' => liftsAt_storeAt standing' p v
    apply moved.congr
    · refine Eq.trans ?_ (bind_eq pop _ s).symm
      rw [replace_eq, found]
      cases pop s <;> rfl
    · intro _
      refine Eq.trans ?_ (bind_eq pop _ (s.atop x)).symm
      rw [replace_eq, there]
      cases pop (s.atop x) <;> rfl

theorem liftsAt_pushAll (standing : s.Standing x limit) (vs : List Value) :
    LiftsAt x s (pushAll vs) (pushAll vs) := by
  induction vs generalizing s with
  | nil => exact liftsAt_pure standing ()
  | cons v vs ih =>
    exact (liftsAt_push standing v).bind standing (isolated_push v s standing.toAbove)
      fun _ t _ standing' => ih standing'

theorem liftsAt_keeping {m : Run E α} (standing : s.Standing x limit) (vs : List Value)
    (lift : ∀ t, t.Standing x limit → LiftsAt x t m m) :
    LiftsAt x s (keeping vs m) (keeping vs m) := by
  cases vs with
  | nil => exact lift s standing
  | cons v vs =>
    have waits : (s.awaiting (v :: vs ++ s.waiting)).Standing x limit :=
      { standing with aside := standing.aside.trans (List.suffix_append _ _) }
    obtain ⟨rises, lifts⟩ := lift _ waits
    refine ⟨?_, fun room => ?_⟩
    · rw [final_keeping]
      exact { rises with waiting := rfl }
    · rw [final_keeping] at room
      rw [keeping_cons, keeping_cons, atop_awaiting standing.aside, lifts room]
      cases m (s.awaiting (v :: vs ++ s.waiting)) <;> rfl

/-- Values have as many mentions where they lie below the stack as where they wait. -/
theorem alike_atop (standing : s.Standing x limit) : s.Alike (s.atop x) := by
  refine ⟨rfl, rfl, rfl, rfl, fun e _ => ?_⟩
  obtain ⟨ws, waiting⟩ := standing.aside
  have kept : (s.atop x).waiting = ws ++ x.still := by
    simp only [atop, ← waiting, List.length_append, Nat.add_sub_cancel, List.take_left']
  have moved := (x.aside_perm.map Entity.value).count_eq e
  simp only [keeps, own, List.map_append, List.count_append, slots_atop, kept, ← waiting,
    Array.toList_append] at moved ⊢
  have own : (s.atop x).globals = s.globals ∧ (s.atop x).registry = s.registry ∧
    (s.atop x).typeMetatables = s.typeMetatables ∧ (s.atop x).locals = s.locals :=
    ⟨rfl, rfl, rfl, rfl⟩
  simp only [own]
  omega

theorem liftsAt_settle (H : Host E) (standing : s.Standing x limit) (before : List Value) :
    LiftsAt x s
      (modifyGet fun s => ((s.settle H before).finalized, s.settle H before))
      (modifyGet fun s => ((s.settle H before).finalized, s.settle H before)) := by
  obtain ⟨released, world, finalized, settled⟩ := s.settle_frame H before
  have rises := standing.rises
  refine ⟨?_, fun _ => ?_⟩
  · change s.Rises (s.settle H before)
    rw [settled]
    exact { rises with }
  · change EStateM.Result.ok _ ((s.atop x).settle H before) = _
    rw [Alike.settle_comm (g := (·.atop x)) (alike_atop standing) H before fun _ _ _ => rfl]
    rfl

theorem liftsAt_rethrow {m : Run E α} (lift : LiftsAt x s m m) (g : Heap E → Heap E) :
    LiftsAt x s (tryCatch m fun f => modifyHeap g >>= fun _ => throw f)
      (tryCatch m fun f => modifyHeap g >>= fun _ => throw f) := by
  obtain ⟨rises, lifts⟩ := lift
  unfold final at rises lifts
  cases ran : m s with
  | ok a t =>
    rw [ran] at rises lifts
    have ended : final (tryCatch m fun f => modifyHeap g >>= fun _ => throw f) s = t :=
      final_of_ok (rethrow_of_ok ran g)
    refine ⟨ended ▸ rises, fun room => ?_⟩
    rw [rethrow_of_ok ran, rethrow_of_ok (lifts (ended ▸ room))]
    rfl
  | error f t =>
    rw [ran] at rises lifts
    have ended : final (tryCatch m fun f => modifyHeap g >>= fun _ => throw f) s =
        { t with heap := g t.heap } := final_of_error (rethrow_of_error ran g)
    refine ⟨?_, fun room => ?_⟩
    · rw [ended]
      exact { rises with }
    · rw [ended] at room
      rw [rethrow_of_error ran, rethrow_of_error (lifts room)]
      rfl

theorem lifts_relative : Relative (E := E) fun _ => Lifts x limit where
  offFrame := OffFrame.lifts
  get_bind {_ f} blind rest := by
    constructor
    · exact isolated_relative.get_bind blind fun s => (rest s).isolated
    · intro s standing
      refine ((rest s).lift s standing).congr (m := get >>= f) rfl fun _ => ?_
      exact congrFun (blind _ _ (resembles_atop standing.framed)) _
  resume steps first returned raised := by
    constructor
    · exact isolated_relative.resume steps first.isolated (fun a => (returned a).isolated)
        fun e => (raised e).isolated
    · intro s standing
      exact (first.lift s standing).branch standing (first.isolated s standing.toAbove) steps steps
        (fun a t _ standing' => (returned a).lift t standing')
        fun e t _ standing' => (raised e).lift t standing'
  rethrow g h := ⟨isolated_tryCatch_rethrow h.isolated g, fun s standing =>
    liftsAt_rethrow (h.lift s standing) g⟩
  push v := ⟨isolated_push v, fun _ standing => liftsAt_push standing v⟩
  pop := ⟨isolated_pop, fun _ => liftsAt_pop⟩
  drop n := ⟨isolated_drop n, fun _ standing => liftsAt_drop standing n⟩
  setTop index := ⟨isolated_setTop index, fun _ standing => liftsAt_setTop standing index⟩
  insert index := ⟨isolated_insert index, fun _ standing => liftsAt_insert standing index⟩
  remove index := ⟨isolated_remove index, fun _ standing => liftsAt_remove standing index⟩
  replace index := ⟨isolated_replace index, fun _ standing => liftsAt_replace standing index⟩

end Run
end HostBridge
