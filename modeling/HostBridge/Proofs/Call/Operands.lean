import HostBridge.Action.Operators
import HostBridge.Proofs.Call.Handlers

namespace HostBridge
namespace Run
open State
variable {E : Embedding} {α β : Type}

section Effects
variable {enter : Enter E} {s t : State E} {popped pushed : Nat}

theorem effect_pure (bounded : s.Bounded) (a : α) :
    Replaces enter 0 0 s ((pure a : Run E α) s) :=
  ⟨bounded, .refl _ s, rfl⟩

theorem effect_raise (bounded : s.Bounded) (e : Error) :
    Replaces enter 0 pushed s ((raise e : Run E α) s) :=
  ⟨bounded, .refl _ s, rfl⟩

theorem effect_push (bounded : s.Bounded) (v : Value) : Replaces enter 0 1 s (push v s) := by
  rw [push_eq]
  cases full : s.stack.isFull with
  | true => exact ⟨bounded, .refl _ s, rfl⟩
  | false =>
    have size : (s.stack.slots.push v).size = s.stack.size + 1 := Array.size_push v
    have room : s.stack.size < s.stack.maxDepth := Stack.free_iff.mp full
    refine ⟨bounded.mapSlots (by omega), within_mapSlots fun i before => ?_, size⟩
    rw [Array.getElem?_push, if_neg]
    exact Nat.ne_of_lt before

theorem effect_bind {m : Run E α} {f : α → Run E β} (catches : s.config.catchPanics = true)
    (first : Replaces enter 0 0 s (m s))
    (rest : ∀ a t, t.Bounded → t.config.catchPanics = true → Replaces enter 0 pushed t (f a t)) :
    Replaces enter 0 pushed s ((m >>= f) s) := by
  rw [bind_eq]
  cases ran : m s with
  | error e t =>
    rw [ran] at first
    cases e <;> exact first
  | ok a t =>
    rw [ran] at first
    obtain ⟨bounded, within, size⟩ := first
    have size : t.stack.size = s.stack.size := size
    have second := rest a t bounded (within.catches.trans catches)
    simp only
    revert second
    cases f a t with
    | ok b u =>
      rintro ⟨bounded', within', size'⟩
      exact ⟨bounded', within.trans (size ▸ within'), size ▸ size'⟩
    | error e u =>
      cases e with
      | raised e =>
        rintro ⟨bounded', within', size'⟩
        exact ⟨bounded', within.trans (size ▸ within'), size ▸ size'⟩
      | panicked p =>
        rintro ⟨within', excess⟩
        exact ⟨within.trans (size ▸ within'), excess⟩

/-- A run that is known to take `taken` values off the stack, and then another one. -/
theorem effect_after {m : Run E α} {f : α → Run E β} {a : α} {taken : Nat} (ran : m s = .ok a t)
    (within : Within (s.stack.size - taken) s t) (size : t.stack.size = s.stack.size - taken)
    (rest : Replaces enter popped pushed t (f a t)) :
    Replaces enter (popped + taken) pushed s ((m >>= f) s) := by
  have floor : t.stack.size - popped = s.stack.size - (popped + taken) := by omega
  have lower : Within (s.stack.size - (popped + taken)) s t := within.lower (by omega)
  rw [bind_eq, ran]
  simp only
  unfold Replaces at rest ⊢
  rw [floor] at rest
  revert rest
  cases f a t with
  | ok b u =>
    rintro ⟨bounded, within', size'⟩
    exact ⟨bounded, lower.trans within', size'⟩
  | error e u =>
    cases e with
    | raised e =>
      rintro ⟨bounded, within', size'⟩
      exact ⟨bounded, lower.trans within', size'⟩
    | panicked p =>
      rintro ⟨within', excess⟩
      exact ⟨lower.trans within', excess⟩

theorem effect_map {m : Run E α} (f : α → β) (effect : Replaces enter popped pushed s (m s)) :
    Replaces enter popped pushed s ((m >>= fun a => pure (f a)) s) := by
  rw [bind_eq]
  cases ran : m s with
  | ok a t =>
    rw [ran] at effect
    exact effect
  | error e t =>
    rw [ran] at effect
    cases e <;> exact effect

theorem effect_read {m : Run E α} {f : α → Run E β} {a : α} (ran : m s = .ok a s)
    (rest : Replaces enter popped pushed s (f a s)) :
    Replaces enter popped pushed s ((m >>= f) s) := by
  rw [bind_eq, ran]
  exact rest

theorem effect_pop {f : Value → Run E β} (bounded : s.Bounded) (present : s.base < s.stack.size)
    (rest : ∀ v, (s.mapSlots (·.pop)).Bounded →
      Replaces enter popped pushed (s.mapSlots (·.pop)) (f v (s.mapSlots (·.pop)))) :
    Replaces enter (popped + 1) pushed s ((pop >>= f) s) := by
  obtain ⟨v, top⟩ := top?_isSome present
  have size : (s.mapSlots (·.pop)).stack.size = s.stack.size - 1 := Array.size_pop
  have limit := bounded.size_le_maxDepth
  have ran : pop s = .ok v (s.mapSlots (·.pop)) := by
    rw [pop_eq, if_neg (Nat.not_le_of_lt present), top]
  refine effect_after ran (within_mapSlots fun i before => ?_) size (rest v (bounded.mapSlots ?_))
  · rw [Array.getElem?_pop, if_pos]
    exact before
  · rw [Array.size_pop]
    exact Nat.le_trans (Nat.sub_le _ _) limit

theorem effect_drop {n : Nat} {f : Unit → Run E β} (bounded : s.Bounded)
    (present : n = 0 ∨ s.base + n ≤ s.stack.size)
    (rest : (s.mapSlots (·.take (s.stack.size - n))).Bounded →
      Replaces enter popped pushed (s.mapSlots (·.take (s.stack.size - n)))
        (f () (s.mapSlots (·.take (s.stack.size - n))))) :
    Replaces enter (popped + n) pushed s ((drop n >>= f) s) := by
  have limit := bounded.size_le_maxDepth
  have top : s.top = (s.stack.size : Int) - s.base := rfl
  have size : (s.mapSlots (·.take (s.stack.size - n))).stack.size = s.stack.size - n :=
    size_take (Nat.sub_le _ _)
  have ran : drop n s = .ok () (s.mapSlots (·.take (s.stack.size - n))) := by
    rcases present with rfl | filled
    · rw [drop_eq, if_neg (Nat.not_lt_zero _), if_pos (Nat.zero_le _)]
    · rw [drop_of_framed (by omega), if_neg (by omega)]
  refine effect_after ran (within_mapSlots fun i before => ?_) size (rest (bounded.mapSlots ?_))
  · have inside : i < s.stack.slots.size := Nat.lt_of_lt_of_le before (Nat.sub_le _ _)
    rw [Array.take_eq_extract, Array.getElem?_extract, if_pos (by omega), Nat.zero_add]
  · exact Nat.le_trans (Nat.le_of_eq size) (by omega)

theorem effect_keeping {m : Run E α}
    (effect : ∀ ws, Replaces enter popped pushed (s.awaiting ws) (m (s.awaiting ws)))
    (vs : List Value) : Replaces enter popped pushed s (keeping vs m s) := by
  cases vs with
  | nil => exact effect s.waiting
  | cons v vs =>
    have around {n : Nat} {ws : List Value} {t : State E} (within : Within n (s.awaiting ws) t) :
        Within n s (t.awaiting s.waiting) :=
      ((sameFrame_awaiting s ws).within n).trans
        (within.trans ((sameFrame_awaiting t s.waiting).within n))
    have effect := effect (v :: vs ++ s.waiting)
    rw [keeping_cons]
    revert effect
    cases m (s.awaiting (v :: vs ++ s.waiting)) with
    | ok a t =>
      rintro ⟨bounded, within, size⟩
      exact ⟨(sameFrame_awaiting t s.waiting).bounded bounded, around within, size⟩
    | error f t =>
      cases f with
      | raised e =>
        rintro ⟨bounded, within, size⟩
        exact ⟨(sameFrame_awaiting t s.waiting).bounded bounded, around within, size⟩
      | panicked p =>
        rintro ⟨within, excess⟩
        exact ⟨around within, excess⟩

end Effects

/-- Actions that put the stack back, however they end. -/
def Restores (enter : Enter E) (H : Host E) (a : Action E α) : Prop :=
  ∀ s : State E, s.Bounded → s.config.catchPanics = true →
    Replaces enter 0 0 s (action enter H a s)

section Values
variable {enter : Enter E} {H : Host E}

theorem restores_pure (a : α) : Restores enter H (pure a) :=
  fun _ bounded _ => effect_pure bounded a

theorem restores_throw (e : Error) : Restores enter H (throw e : Action E α) :=
  fun _ bounded _ => effect_raise bounded e

theorem restores_ofExcept (r : Except Error α) : Restores enter H (Prog.ofExcept r) := by
  cases r with
  | ok a => exact restores_pure a
  | error e => exact restores_throw e

theorem restores_bind {a : Action E α} {f : α → Action E β} (first : Restores enter H a)
    (rest : ∀ x, Restores enter H (f x)) : Restores enter H (a >>= f) := by
  intro s bounded catches
  rw [action_bind]
  exact effect_bind catches (first s bounded catches) fun x t => rest x t

theorem restores_table (t : TableId) : Restores enter H (Action.table t) := by
  intro s bounded _
  rw [Action.table, action_op]
  exact effect_pure bounded _

theorem restores_metatable (v : Value) : Restores enter H (Action.metatable v) := by
  intro s bounded _
  rw [Action.metatable, action_op]
  exact effect_pure bounded _

theorem restores_globals : Restores enter H Action.globals := by
  apply restores_bind
  · intro s bounded _
    rw [action_op]
    exact effect_pure bounded _
  · exact fun t => restores_pure _

theorem restores_display (v : Value) : Restores enter H (Action.display v) := by
  intro s bounded _
  rw [Action.display, action_op]
  exact effect_pure bounded _

theorem restores_setRaw (t : TableId) (key v : Value) :
    Restores enter H (Action.setRaw t key v) := by
  intro s bounded _
  rw [Action.setRaw, action_op]
  change Replaces enter 0 0 s (setRaw t key v s)
  unfold setRaw
  cases Table.keyFault? key with
  | some e => exact effect_raise bounded e
  | none =>
    have same : ∀ h, s.SameFrame { s with heap := h } :=
      fun _ => ⟨rfl, rfl, rfl, rfl, rfl, rfl, rfl, rfl, rfl⟩
    exact ⟨(same _).bounded bounded, (same _).within _, rfl⟩

theorem restores_metafield (v : Value) (e : Event) :
    Restores enter H (Action.metafield v e) := by
  refine restores_bind (restores_metatable v) fun m => ?_
  cases m with
  | some m => exact restores_bind (restores_table m) fun x => restores_pure _
  | none => exact restores_pure _

theorem restores_rawAt (target key : Value) : Restores enter H (Action.rawAt target key) := by
  cases target with
  | table t => exact restores_bind (restores_table t) fun x => restores_pure _
  | _ => exact restores_pure _

theorem restores_handlerOf (a b : Value) (e : Event) :
    Restores enter H (Action.handlerOf a b e) := by
  refine restores_bind (restores_metafield a e) fun h => ?_
  split
  · exact restores_metafield b e
  · exact restores_pure h

theorem restores_newIndexDirect (key v target : Value) :
    Restores enter H (match target with
      | .table t => Action.setRaw t key v
      | target => throw (.notIndexable target.kind)) := by
  cases target with
  | table t => exact restores_setRaw t key v
  | _ => exact restores_throw _

variable (enters : ∀ f, Respects Guards (enter f)) (calm : Calm enter)
include enters calm

theorem restores_callValue (f : Value) (args : List Value) (nresults : Int)
    (waiting : List Value) : Restores enter H (Action.callValue f args nresults waiting) := by
  intro s bounded catches
  rw [Action.callValue, action_op]
  refine effect_keeping (fun ws => ?_) waiting
  exact callValue_effect calm enters ((sameFrame_awaiting s ws).bounded bounded) catches f args
    nresults

theorem restores_callForOne (f : Value) (args waiting : List Value) :
    Restores enter H (Action.callForOne f args waiting) :=
  restores_bind (restores_callValue enters calm f args 1 waiting) fun _ => restores_pure _

/-- Reading along a chain of handlers, by induction on the links that are left. -/
theorem restores_indexChain (key : Value) (fuel : Nat) (target : Value) :
    Restores enter H (Action.indexChain key fuel target) := by
  induction fuel generalizing target with
  | zero => exact restores_throw _
  | succ fuel ih =>
    refine restores_bind (restores_rawAt target key) fun raw => ?_
    split
    · exact restores_pure raw
    · refine restores_bind (restores_metafield target .index) fun handler => ?_
      cases handler with
      | nil =>
        simp only
        split
        · exact restores_pure _
        · exact restores_throw _
      | function f => exact restores_callForOne enters calm _ _ _
      | _ => exact ih _

/-- Writing along a chain of handlers, by induction on the links that are left. -/
theorem restores_newIndexChain (key v : Value) (fuel : Nat) (target : Value) :
    Restores enter H (Action.newIndexChain key v fuel target) := by
  induction fuel generalizing target with
  | zero => exact restores_throw _
  | succ fuel ih =>
    have unhandled : Restores enter H _ := restores_newIndexDirect key v target
    refine restores_bind (restores_rawAt target key) fun raw => ?_
    dsimp only
    split
    · refine restores_bind (restores_metafield target .newIndex) fun handler => ?_
      cases handler with
      | nil => cases target <;> exact unhandled
      | function f =>
        exact restores_bind (restores_callValue enters calm _ _ _ _) fun _ => restores_pure _
      | _ => exact ih _
    · cases target <;> exact unhandled

theorem restores_arithValues (op : Arith) (a b : Value) :
    Restores enter H (Action.arithValues op a b) := by
  unfold Action.arithValues
  split
  · exact restores_bind (restores_ofExcept _) fun n => restores_pure _
  · refine restores_bind (restores_handlerOf a b op.event) fun h => ?_
    split
    · exact restores_throw _
    · exact restores_callForOne enters calm h _ _

theorem restores_concatPair (a b : Value) (waiting : List Value) :
    Restores enter H (Action.concatPair a b waiting) := by
  unfold Action.concatPair
  split
  · exact restores_pure _
  · refine restores_bind (restores_handlerOf a b .concat) fun h => ?_
    split
    · exact restores_throw _
    · exact restores_callForOne enters calm h _ _

theorem restores_concatValues (waiting vs : List Value) :
    Restores enter H (Action.concatValues waiting vs) := by
  induction vs generalizing waiting with
  | nil => exact restores_pure _
  | cons v vs ih =>
    cases vs with
    | nil => exact restores_pure v
    | cons w ws => exact restores_bind (ih _) fun x => restores_concatPair enters calm v x waiting

theorem restores_compareValues (a b : Value) (op : Comparison) :
    Restores enter H (Action.compareValues a b op) := by
  unfold Action.compareValues
  split
  · exact restores_pure _
  · refine restores_bind (restores_handlerOf a b op.event) fun h => ?_
    split
    · split
      · exact restores_pure false
      · exact restores_throw _
    · exact restores_bind (restores_callValue enters calm h _ 1 _) fun _ => restores_pure _

theorem restores_lengthOf (v : Value) : Restores enter H (Action.lengthOf v) := by
  unfold Action.lengthOf
  split
  · exact restores_pure _
  · refine restores_bind (restores_metafield _ .len) fun h => ?_
    split
    · exact restores_callForOne enters calm h _ _
    · split
      · exact restores_bind (restores_table _) fun x => restores_pure _
      · exact restores_throw _

end Values

end Run

/-- What a host asks of a frame where metatables have a say in the answer. -/
inductive FrameOp where
  | getField (index : Int) (name : String)
  | getIndex (index n : Int)
  | getGlobal (name : String)
  | getTable (index : Int)
  | setField (index : Int) (name : String)
  | setIndex (index n : Int)
  | setGlobal (name : String)
  | setTable (index : Int)
  | arith (op : Arith)
  | concat (n : Nat)
  | compare (left right : Int) (op : Comparison)
  | len (index : Int)
  | toText (index : Int)

namespace FrameOp
variable {E : Embedding}

@[reducible] def Answer : FrameOp → Type
  | getField .. | getIndex .. | getGlobal _ | getTable _ => Kind
  | compare .. => Bool
  | toText _ => String
  | _ => Unit

def action : (o : FrameOp) → Action E o.Answer
  | getField i name => Action.getField i name
  | getIndex i n => Action.getIndex i n
  | getGlobal name => Action.getGlobal name
  | getTable i => Action.getTable i
  | setField i name => Action.setField i name
  | setIndex i n => Action.setIndex i n
  | setGlobal name => Action.setGlobal name
  | setTable i => Action.setTable i
  | arith op => Action.arith op
  | concat n => Action.concat n
  | compare i j op => Action.compare i j op
  | len i => Action.len i
  | toText i => Action.toText i

def slots : FrameOp → List Int
  | getField i _ | getIndex i _ | getTable i | setField i _ | setIndex i _ | setTable i => [i]
  | len i | toText i => [i]
  | compare i j _ => [i, j]
  | _ => []

def popped : FrameOp → Nat
  | getTable _ | setField .. | setIndex .. | setGlobal _ => 1
  | setTable _ => 2
  | arith op => if op.isUnary then 1 else 2
  | concat n => n
  | _ => 0

def pushed : FrameOp → Nat
  | getField .. | getIndex .. | getGlobal _ | getTable _ | arith _ | concat _ | len _ => 1
  | _ => 0

def growth : FrameOp → Int
  | getField .. | getIndex .. | getGlobal _ | len _ => 1
  | getTable _ | compare .. | toText _ => 0
  | setField .. | setIndex .. | setGlobal _ => -1
  | setTable _ => -2
  | arith op => if op.isUnary then 0 else -1
  | concat n => 1 - n

theorem growth_eq (o : FrameOp) : o.growth = o.pushed - o.popped := by
  cases o with
  | arith op => cases unary : op.isUnary <;> simp [growth, pushed, popped, unary]
  | _ => simp [growth, pushed, popped]

/-- The operands are there: the slots hold values, and the frame those to be taken off it. -/
structure Present (o : FrameOp) (s : State E) : Prop where
  slots : ∀ i ∈ o.slots, ∃ v, s.slot i = .ok v
  popped : o.popped = 0 ∨ s.base + o.popped ≤ s.stack.size

end FrameOp

namespace Run
open State
variable {E : Embedding} {α β : Type} {enter : Enter E} {H : Host E}

section Concat
variable {s : State E} {n : Nat}

/-- Where the frame holds what is joined, it does not matter where the frame begins. -/
theorem action_concat_of_held (held : n = 0 ∨ n ≤ s.top) :
    action enter H (Action.concat n) s = action enter H (Action.joinTop n) s := by
  have all : ¬Stack.wrapped s.top < n := by
    rcases held with rfl | held
    · exact Nat.not_lt_zero _
    · rw [wrapped_of_nonneg (by omega)]
      omega
  rw [Action.concat, action_bind, bind_eq, action_top]
  simp only [if_neg all, if_neg (show ¬(s.top < 0 ∧ 0 < n) by omega)]

theorem action_concat_of_short (framed : s.base ≤ s.stack.size) (short : s.top < n) :
    action enter H (Action.concat n) s = .error (.raised .stackUnderflow) s := by
  have top : s.top = (s.stack.size : Int) - s.base := rfl
  have few : Stack.wrapped s.top < n := by
    rw [wrapped_of_nonneg (by omega)]
    omega
  rw [Action.concat, action_bind, bind_eq, action_top]
  simp only [if_pos few]
  rfl

end Concat

theorem slot_of_depth {s : State E} {k : Nat} (positive : 0 < k)
    (inside : s.base + k ≤ s.stack.size) : ∃ v, s.slot (-(k : Int)) = .ok v := by
  have top : s.top = (s.stack.size : Int) - s.base := rfl
  have position : s.position (-(k : Int)) = .ok (s.stack.size - k) := by
    rw [position_of_framed (by omega), if_neg (by omega), if_pos (by omega), Int.natAbs_neg,
      Int.natAbs_natCast]
  have below : s.stack.size - k < s.stack.slots.size := by
    change s.stack.size - k < s.stack.size
    omega
  refine ⟨s.stack.slots[s.stack.size - k], ?_⟩
  rw [State.slot, position]
  change s.stack.get (s.stack.size - k) = _
  rw [Stack.get, Array.getElem?_eq_getElem below]

theorem effect_value {s : State E} {popped pushed : Nat} {i : Int} {v : Value}
    (present : s.slot i = .ok v) {f : Value → Action E β}
    (rest : Replaces enter popped pushed s (action enter H (f v) s)) :
    Replaces enter popped pushed s (action enter H (Action.value i >>= f) s) := by
  rw [action_bind, action_value]
  refine effect_read (a := v) ?_ rest
  rw [read_eq, present]
  rfl

theorem effect_top {s : State E} {popped pushed : Nat} {f : Int → Action E β}
    (rest : Replaces enter popped pushed s (action enter H (f s.top) s)) :
    Replaces enter popped pushed s (action enter H (Action.top >>= f) s) := by
  rw [action_bind, Action.top, action_op]
  exact effect_read (a := s.top) rfl rest

theorem effect_popValue {s : State E} {popped pushed : Nat} (bounded : s.Bounded)
    (present : s.base < s.stack.size) {f : Value → Action E β}
    (rest : ∀ v, (s.mapSlots (·.pop)).Bounded → Replaces enter popped pushed (s.mapSlots (·.pop))
      (action enter H (f v) (s.mapSlots (·.pop)))) :
    Replaces enter (popped + 1) pushed s (action enter H (Action.pop >>= f) s) := by
  rw [action_bind, action_pop]
  exact effect_pop bounded present rest

theorem effect_answer {s : State E} (bounded : s.Bounded) (catches : s.config.catchPanics = true)
    {a : Action E Value} (restores : Restores enter H a) :
    Replaces enter 0 1 s (action enter H (a >>= Action.push) s) := by
  rw [action_bind]
  refine effect_bind catches (restores s bounded catches) fun v t bounded' _ => ?_
  rw [action_push]
  exact effect_push bounded' v

theorem effect_answerKind {s : State E} (bounded : s.Bounded)
    (catches : s.config.catchPanics = true) {a : Action E Value} (restores : Restores enter H a) :
    Replaces enter 0 1 s (action enter H (a >>= Action.pushKind) s) := by
  rw [action_bind]
  refine effect_bind catches (restores s bounded catches) fun v t bounded' _ => ?_
  rw [Action.pushKind, action_bind, action_push]
  exact effect_map _ (effect_push bounded' v)

theorem effect_values {s : State E} {popped pushed : Nat} {slot : α → Int} {xs : List α}
    (present : ∀ x ∈ xs, ∃ v, s.slot (slot x) = .ok v) {f : List Value → Action E β}
    (rest : ∀ vs, Replaces enter popped pushed s (action enter H (f vs) s)) :
    Replaces enter popped pushed s
      (action enter H (xs.mapM (fun x => Action.value (slot x)) >>= f) s) := by
  induction xs generalizing f with
  | nil =>
    rw [List.mapM_nil, pure_bind]
    exact rest []
  | cons x xs ih =>
    obtain ⟨v, here⟩ := present x List.mem_cons_self
    rw [List.mapM_cons, bind_assoc]
    refine effect_value here ?_
    rw [bind_assoc]
    refine ih (fun y mem => present y (List.mem_cons_of_mem x mem)) fun vs => ?_
    rw [pure_bind]
    exact rest (v :: vs)

section Operations
variable (enters : ∀ f, Respects Guards (enter f)) (calm : Calm enter) {s : State E}
  (bounded : s.Bounded) (catches : s.config.catchPanics = true)
include enters calm bounded catches

theorem effect_getKey {i : Int} {target : Value} (present : s.slot i = .ok target) (key : Value) :
    Replaces enter 0 1 s (action enter H (Action.getKey i key) s) := by
  refine effect_value present ?_
  exact effect_answerKind bounded catches (restores_indexChain enters calm key _ target)

theorem effect_setKey {i : Int} {target : Value} (present : s.slot i = .ok target)
    (filled : s.base < s.stack.size) (key : Value) :
    Replaces enter 1 0 s (action enter H (Action.setKey i key) s) := by
  refine effect_value present (effect_popValue bounded filled fun v bounded' => ?_)
  exact restores_newIndexChain enters calm key v _ target _ bounded' catches

theorem effect_getTable {i : Int} {target : Value} (present : s.slot i = .ok target)
    (filled : s.base < s.stack.size) :
    Replaces enter 1 1 s (action enter H (Action.getTable i) s) := by
  refine effect_value present (effect_popValue bounded filled fun key bounded' => ?_)
  exact effect_answerKind bounded' catches (restores_indexChain enters calm key _ target)

theorem effect_setTable {i : Int} {target : Value} (present : s.slot i = .ok target)
    (filled : s.base + 2 ≤ s.stack.size) :
    Replaces enter 2 0 s (action enter H (Action.setTable i) s) := by
  have size : (s.mapSlots (·.pop)).stack.size = s.stack.size - 1 := Array.size_pop
  refine effect_value present (effect_popValue bounded (by omega) fun v bounded' => ?_)
  have filled' : (s.mapSlots (·.pop)).base < (s.mapSlots (·.pop)).stack.size := by
    change s.base < _
    omega
  refine effect_popValue bounded' filled' fun key bounded'' => ?_
  exact restores_newIndexChain enters calm key v _ target _ bounded'' catches

theorem effect_getGlobal (name : String) :
    Replaces enter 0 1 s (action enter H (Action.getGlobal name) s) := by
  rw [Action.getGlobal, action_bind]
  refine effect_bind catches (restores_globals s bounded catches) fun target t bounded' catches' => ?_
  exact effect_answerKind bounded' catches' (restores_indexChain enters calm _ _ target)

theorem effect_setGlobal (filled : s.base < s.stack.size) (name : String) :
    Replaces enter 1 0 s (action enter H (Action.setGlobal name) s) := by
  refine effect_popValue bounded filled fun v bounded' => ?_
  refine restores_bind restores_globals (fun target => ?_) _ bounded' catches
  exact restores_newIndexChain enters calm _ v _ target

theorem effect_unary (filled : s.base < s.stack.size) {op : Arith} (unary : op.isUnary = true) :
    Replaces enter 1 1 s (action enter H (Action.arith op) s) := by
  rw [Action.arith, if_pos unary]
  refine effect_popValue bounded filled fun a bounded' => ?_
  exact effect_answer bounded' catches (restores_arithValues enters calm op a a)

theorem effect_binary (filled : s.base + 2 ≤ s.stack.size) {op : Arith}
    (binary : op.isUnary = false) :
    Replaces enter 2 1 s (action enter H (Action.arith op) s) := by
  have top : s.top = (s.stack.size : Int) - s.base := rfl
  have size : (s.mapSlots (·.pop)).stack.size = s.stack.size - 1 := Array.size_pop
  have filled' : (s.mapSlots (·.pop)).base < (s.mapSlots (·.pop)).stack.size := by
    change s.base < _
    omega
  rw [Action.arith, if_neg (by simp [binary])]
  refine effect_top ?_
  rw [if_neg (by omega)]
  refine effect_popValue bounded (by omega) fun b bounded' => ?_
  refine effect_popValue bounded' filled' fun a bounded'' => ?_
  exact effect_answer bounded'' catches (restores_arithValues enters calm op a b)

theorem effect_concat {n : Nat} (filled : n = 0 ∨ s.base + n ≤ s.stack.size) :
    Replaces enter n 1 s (action enter H (Action.concat n) s) := by
  have top : s.top = (s.stack.size : Int) - s.base := rfl
  have present : ∀ i ∈ List.range n, ∃ v, s.slot (-(n - i : Nat)) = .ok v := by
    intro i below
    have below := List.mem_range.mp below
    exact slot_of_depth (by omega) (by omega)
  rw [action_concat_of_held (by omega)]
  refine effect_values present fun vs => ?_
  rw [action_bind, action_drop]
  have whole := effect_drop (f := fun _ => action enter H (Action.concatValues [] vs >>= Action.push))
    bounded filled fun bounded' =>
      effect_answer bounded' catches (restores_concatValues enters calm [] vs)
  rwa [Nat.zero_add] at whole

theorem effect_compare {i j : Int} {a b : Value} (left : s.slot i = .ok a)
    (right : s.slot j = .ok b) (op : Comparison) :
    Replaces enter 0 0 s (action enter H (Action.compare i j op) s) := by
  refine effect_value left (effect_value right ?_)
  exact restores_compareValues enters calm a b op s bounded catches

theorem effect_len {i : Int} {v : Value} (present : s.slot i = .ok v) :
    Replaces enter 0 1 s (action enter H (Action.len i) s) := by
  refine effect_value present ?_
  exact effect_answer bounded catches (restores_lengthOf enters calm v)

theorem effect_toText {i : Int} {v : Value} (present : s.slot i = .ok v) :
    Replaces enter 0 0 s (action enter H (Action.toText i) s) := by
  refine effect_value present ?_
  refine restores_bind (restores_metafield v .toText) (fun h => ?_) s bounded catches
  split
  · exact restores_display v
  · refine restores_bind (restores_callValue enters calm h _ 1 _) fun results => ?_
    split
    · exact restores_pure _
    · exact restores_throw _

theorem frameOp_effect (o : FrameOp) (present : o.Present s) :
    Replaces enter o.popped o.pushed s (action enter H o.action s) := by
  obtain ⟨slots, popped⟩ := present
  cases o with
  | getField i name | getIndex i n =>
    obtain ⟨v, here⟩ := slots i (by simp [FrameOp.slots])
    exact effect_getKey enters calm bounded catches here _
  | getGlobal name => exact effect_getGlobal enters calm bounded catches name
  | getTable i =>
    obtain ⟨v, here⟩ := slots i (by simp [FrameOp.slots])
    simp only [FrameOp.popped] at popped
    exact effect_getTable enters calm bounded catches here (by omega)
  | setField i name | setIndex i n =>
    obtain ⟨v, here⟩ := slots i (by simp [FrameOp.slots])
    simp only [FrameOp.popped] at popped
    exact effect_setKey enters calm bounded catches here (by omega) _
  | setGlobal name =>
    simp only [FrameOp.popped] at popped
    exact effect_setGlobal enters calm bounded catches (by omega) name
  | setTable i =>
    obtain ⟨v, here⟩ := slots i (by simp [FrameOp.slots])
    simp only [FrameOp.popped] at popped
    exact effect_setTable enters calm bounded catches here (by omega)
  | arith op =>
    cases unary : op.isUnary with
    | true =>
      simp only [FrameOp.popped, unary, if_true] at popped ⊢
      exact effect_unary enters calm bounded catches (by omega) unary
    | false =>
      simp only [FrameOp.popped, unary, Bool.false_eq_true, if_false] at popped ⊢
      exact effect_binary enters calm bounded catches (by omega) unary
  | concat n => exact effect_concat enters calm bounded catches popped
  | compare i j op =>
    obtain ⟨a, left⟩ := slots i (by simp [FrameOp.slots])
    obtain ⟨b, right⟩ := slots j (by simp [FrameOp.slots])
    exact effect_compare enters calm bounded catches left right op
  | len i =>
    obtain ⟨v, here⟩ := slots i (by simp [FrameOp.slots])
    exact effect_len enters calm bounded catches here
  | toText i =>
    obtain ⟨v, here⟩ := slots i (by simp [FrameOp.slots])
    exact effect_toText enters calm bounded catches here

end Operations
end Run

namespace Run
open State
variable {E : Embedding}

/-- An operation whose operands are there touches nothing but them, whatever the handlers do that
metatables name for it: base, call depth and every slot below the values that it takes are as
before. On success the frame has grown by what belongs to the operation; on an error the values that
were taken are gone and nothing has come instead. The one other ending is a body that reports more
results than its frame holds. -/
theorem frame_changes_by_operands {H : Host E} (uses : H.Uses Op.KeepsOpen) (o : FrameOp)
    (s : State E) (bounded : s.Bounded) (catches : s.config.catchPanics = true)
    (present : o.Present s) :
    let Kept (t : State E) := t.base = s.base ∧ t.callDepth = s.callDepth ∧
      ∀ i, i < s.stack.size - o.popped → t.stack.slots[i]? = s.stack.slots[i]?
    match runAction H o.action s with
    | .ok _ t => Kept t ∧ t.top = s.top + o.growth
    | .error (.raised _) t => Kept t ∧ t.top = s.top - o.popped
    | .error (.panicked _) t => Kept t ∧ Overreports (enter H s.depthLeft) := by
  intro Kept
  have effect := frameOp_effect (H := H) (guards_enter uses s.depthLeft) (calm_enter H s.depthLeft)
    bounded catches o present
  have kept : ∀ t, Within (s.stack.size - o.popped) s t → Kept t :=
    fun t within => ⟨within.base, within.callDepth, within.below⟩
  have enough : o.popped ≤ s.stack.size := by
    have popped := present.popped
    omega
  have top : ∀ {t : State E} {k : Nat}, t.base = s.base →
      t.stack.size = s.stack.size - o.popped + k → t.top = s.top + (k - o.popped) := by
    intro t k base size
    simp only [State.top, base, size]
    omega
  unfold runAction
  revert effect
  cases action (enter H s.depthLeft) H o.action s with
  | ok a t =>
    rintro ⟨-, within, size⟩
    exact ⟨kept t within, by rw [top within.base size, o.growth_eq]⟩
  | error f t =>
    cases f with
    | raised e =>
      rintro ⟨-, within, size⟩
      have shrunk := top (k := 0) within.base size
      exact ⟨kept t within, by omega⟩
    | panicked p =>
      rintro ⟨within, excess⟩
      exact ⟨kept t within, excess⟩

/-- The two strings are joined before the third operand turns out to have no text. -/
theorem frame_changes_by_operands_failing :
    let H := Host.running (pure 0)
    let s := (State.plain #[.light 7, .light 8, .light 1, .string "a", .string "b"]).rebase 1
    ∃ t, runAction H (Action.concat 3) s =
        .error (.raised (.arithmeticOperand .concatenation .light)) t ∧
      t.base = 1 ∧ t.top = s.top - 3 ∧ t.stack.slots[0]? = some (.light 7) ∧
      t.stack.slots[1]? = some (.light 8) := by
  intro H s
  have uses : H.Uses Op.KeepsOpen := Host.uses_running trivial
  have bounded : s.Bounded :=
    Fits.bounded (s := State.plain _) (State.plain_fits (by decide))
  have present : (FrameOp.concat 3).Present s := ⟨nofun, .inr (by decide)⟩
  have ran := run_of_raised? (m := runAction H (Action.concat 3)) (s := s)
    (e := .arithmeticOperand .concatenation .light) (by decide +kernel)
  have changes := frame_changes_by_operands uses (.concat 3) s bounded rfl present
  simp only [FrameOp.action] at changes
  rw [ran] at changes
  obtain ⟨⟨base, -, below⟩, top⟩ := changes
  exact ⟨_, ran, base, top, below 0 (by decide), below 1 (by decide)⟩

end Run
end HostBridge
