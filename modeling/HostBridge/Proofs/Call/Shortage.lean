import HostBridge.Proofs.Call.Requests
import HostBridge.Proofs.Run.Raising

namespace HostBridge

/-- The errors for an index without a slot and for operands that are not there. -/
def Error.isShortage : Error → Bool
  | stackUnderflow | invalidIndex _ => true
  | _ => false

theorem Error.isShortage_of_conversion (e : Error) (conversion : e.ofConversion = true) :
    e.isShortage = false := by
  cases e <;> first | rfl | cases conversion

namespace Run
open State
variable {E : Embedding} {α β : Type} {enter : Enter E} {H : Host E} {s : State E}

/-- The run does not fail for want of a slot or of operands. -/
def Supplied (m : Run E α) : Prop := Raises (fun e => e.isShortage = false) m

def SuppliedAt (m : Run E α) (s : State E) : Prop :=
  ∀ e t, m s = .error (.raised e) t → e.isShortage = false

theorem suppliedAt_bind {m : Run E α} {f : α → Run E β} (first : SuppliedAt m s)
    (rest : ∀ a, Supplied (f a)) : SuppliedAt (m >>= f) s := by
  intro e t failed
  rw [bind_eq] at failed
  cases ran : m s with
  | ok a u =>
    rw [ran] at failed
    exact rest a u e t failed
  | error fault u =>
    rw [ran] at failed
    cases failed
    exact first e _ ran

theorem suppliedAt_after {m : Run E α} {f : α → Run E β} {a : α} {t : State E}
    (ran : m s = .ok a t) (rest : SuppliedAt (f a) t) : SuppliedAt (m >>= f) s := by
  intro e u failed
  rw [bind_eq, ran] at failed
  exact rest e u failed

theorem supplied_push (v : Value) : Supplied (push v : Run E Unit) :=
  raises_push (P := fun e => e.isShortage = false) rfl v

theorem supplied_pushAll (vs : List Value) : Supplied (pushAll vs : Run E Unit) := by
  induction vs with
  | nil => exact raises_pure ()
  | cons v vs ih => exact raises_bind (supplied_push v) fun _ => ih

theorem supplied_deliver (f : FunctionId) (func n : Nat) (k : Int) :
    Supplied (deliver f func n k : Run E Unit) := by
  intro s e t failed
  rw [deliver_eq] at failed
  split at failed
  · cases failed
  · exact supplied_pushAll _ _ e t failed

theorem supplied_insertHandler (func : Nat) (v : Value) :
    Supplied (insertHandler func v : Run E FunctionId) := by
  refine raises_get_bind fun s => ?_
  cases s.heap.metafield v .call with
  | function f =>
    cases s.stack.isFull with
    | true => exact raises_raise rfl
    | false => exact raises_bind (raises_modifyGet _) fun _ => raises_pure f
  | _ => exact raises_raise rfl

theorem supplied_inFrame (frame : Nat) {body : Run E α} (h : Supplied body) :
    Supplied (inFrame frame body) := by
  intro s e t failed
  rw [inFrame_eq] at failed
  cases ran : body (s.descend frame) with
  | ok x u =>
    rw [ran] at failed
    cases failed
  | error f u =>
    rw [ran] at failed
    cases f <;> cases failed
    exact h _ e u ran

theorem suppliedAt_orTruncate (func : Nat) {body : Run E α} (h : SuppliedAt body s) :
    SuppliedAt (orTruncate func body) s := by
  intro e t failed
  rw [orTruncate_eq] at failed
  cases ran : body s with
  | ok x u =>
    rw [ran] at failed
    cases failed
  | error f u =>
    rw [ran] at failed
    cases f <;> cases failed
    exact h e u ran

section Calls
variable (enters : ∀ f, Supplied (enter f))
include enters

theorem suppliedAt_callAt {func : Nat} (inside : func < s.stack.size) (k : Int) :
    SuppliedAt (callAt enter func k) s := by
  have found : SuppliedAt (callee func) s := by
    have held : read (·.stack.get func) s = .ok s.stack.slots[func] s := by
      rw [read_eq, Stack.get, Array.getElem?_eq_getElem inside]
      rfl
    refine suppliedAt_after held ?_
    cases s.stack.slots[func] with
    | function f => exact raises_pure f s
    | _ => exact supplied_insertHandler func _ s
  refine suppliedAt_bind found fun f => raises_get_bind fun t => ?_
  have rest := raises_bind (supplied_inFrame (func + 1) (enters f)) fun n =>
    supplied_deliver f func n k
  by_cases deep : t.config.maxCallDepth ≤ t.callDepth
  · simp only [if_pos deep]
    exact raises_bind (raises_raise rfl) fun _ => rest
  · simp only [if_neg deep]
    exact rest

theorem suppliedAt_call {n : Int} (operands : HasOperands s n) (k : Int) :
    SuppliedAt (call enter n k) s ∧ SuppliedAt (pcall enter n k) s := by
  have position := callPosition_of_operands operands
  have inside := (functionSlot_bounds operands).2
  have called := suppliedAt_callAt enters inside k
  refine ⟨suppliedAt_after position (suppliedAt_orTruncate _ called), fun e t failed => ?_⟩
  rw [pcall_eq, position] at failed
  simp only at failed
  cases ran : callAt enter (functionSlot s n) k s with
  | ok x u =>
    rw [ran] at failed
    cases failed
  | error f u =>
    rw [ran] at failed
    cases f with
    | panicked p => cases failed
    | raised e' =>
      simp only at failed
      cases pushed : push (.string e'.message) (u.mapSlots (·.take (functionSlot s n))) with
      | ok x v =>
        rw [pushed] at failed
        cases failed
      | error f v =>
        rw [pushed] at failed
        cases failed
        exact supplied_push _ _ e _ pushed

theorem supplied_callValue (f : Value) (args : List Value) (k : Int) :
    Supplied (callValue enter f args k) := by
  intro s e t failed
  have body : SuppliedAt (pushAll args >>= fun _ => callAt enter s.stack.size k)
      (s.mapSlots (·.push f)) := by
    have size : (s.mapSlots (·.push f)).stack.size = s.stack.size + 1 := Array.size_push f
    cases pushed : pushAll args (s.mapSlots (·.push f)) with
    | ok x u =>
      have grown := (pushes_pushAll args).size pushed
      exact suppliedAt_after pushed (suppliedAt_callAt enters (by omega) k)
    | error fault u =>
      intro e t failed
      rw [bind_eq, pushed] at failed
      cases failed
      exact supplied_pushAll args _ e _ pushed
  rw [callValue_eq] at failed
  split at failed
  · cases failed
    rfl
  · cases ran : (pushAll args >>= fun _ => callAt enter s.stack.size k) (s.mapSlots (·.push f)) with
    | ok x u =>
      rw [ran] at failed
      cases failed
    | error f u =>
      rw [ran] at failed
      cases f <;> cases failed
      exact body e u ran

end Calls

theorem supplied_of_ok {m : Run E α} (total : ∀ s, ∃ a t, m s = .ok a t) : Supplied m := by
  intro s e t failed
  obtain ⟨a, u, ran⟩ := total s
  rw [ran] at failed
  cases failed

section Values

theorem supplied_bind {a : Action E α} {f : α → Action E β} (first : Supplied (action enter H a))
    (rest : ∀ x, Supplied (action enter H (f x))) : Supplied (action enter H (a >>= f)) := by
  rw [action_bind]
  exact raises_bind first rest

theorem supplied_pure (a : α) : Supplied (action enter H (pure a)) := raises_pure a

theorem supplied_throw {e : Error} (other : e.isShortage = false) :
    Supplied (action enter H (throw e : Action E α)) := raises_raise other

theorem supplied_metafield (v : Value) (e : Event) :
    Supplied (action enter H (Action.metafield v e)) :=
  supplied_of_ok fun s => ⟨_, s, action_metafield v e s⟩

theorem supplied_table (t : TableId) : Supplied (action enter H (Action.table t)) :=
  supplied_of_ok fun s => ⟨_, s, by rw [action_table, table_eq]⟩

theorem supplied_rawAt (target key : Value) :
    Supplied (action enter H (Action.rawAt target key)) :=
  supplied_of_ok fun s => ⟨_, s, action_rawAt target key s⟩

theorem fails_next (x : Table) (key : Value) :
    Fails (fun e => e.isShortage = false) (x.next key) := by
  unfold Table.next
  split
  · exact fails_ok _
  · split
    · exact fails_ok _
    · split
      · exact fails_ok _
      · exact fails_error rfl

theorem supplied_setRaw (t : TableId) (key v : Value) :
    Supplied (action enter H (Action.setRaw t key v)) := by
  rw [action_setRaw]
  unfold setRaw
  cases fault : Table.keyFault? key with
  | none => exact raises_modifyGet _
  | some e =>
    have set : Table.empty.set key v = .error e := by rw [Table.set, fault]
    exact raises_raise (fails_set Error.isShortage_of_conversion Table.empty key v e set)

theorem supplied_assignMetatable (v : Value) (m : Option TableId) :
    Supplied (action enter H (Action.assignMetatable v m)) := by
  rw [Action.assignMetatable, action_op]
  refine raises_get_bind fun s => raises_bind (raises_ofExcept ?_) fun h => raises_modifyGet _
  cases v <;> first | exact fails_ok _ | exact fails_error rfl

theorem supplied_pushAction (v : Value) : Supplied (action enter H (Action.push v)) := by
  rw [action_push]
  exact supplied_push v

theorem supplied_pushKind (v : Value) : Supplied (action enter H (Action.pushKind v)) :=
  supplied_bind (supplied_pushAction v) fun _ => supplied_pure v.kind

theorem supplied_handlerOf (a b : Value) (e : Event) :
    Supplied (action enter H (Action.handlerOf a b e)) := by
  refine supplied_bind (supplied_metafield a e) fun h => ?_
  split
  · exact supplied_metafield b e
  · exact supplied_pure h

theorem supplied_onNumbers (op : Arith) (x y : Number) :
    Supplied (action enter H (Prog.ofExcept (op.onNumbers x y))) := by
  have integers : ∀ f a b, Fails (fun e => e.isShortage = false) (Arith.onIntegers f a b) := by
    intro f a b
    unfold Arith.onIntegers
    split
    · exact fails_ok _
    · exact fails_error rfl
  refine raises_ofExcept ?_
  cases op <;> first | exact fails_ok _ | exact integers _ _ _

variable (enters : ∀ f, Supplied (enter f))
include enters

theorem supplied_called (f : Value) (args : List Value) (k : Int) (waiting : List Value) :
    Supplied (action enter H (Action.callValue f args k waiting)) := by
  rw [action_callValue]
  exact raises_keeping waiting (supplied_callValue enters f args k)

theorem supplied_callForOne (f : Value) (args waiting : List Value) :
    Supplied (action enter H (Action.callForOne f args waiting)) :=
  supplied_bind (supplied_called enters f args 1 waiting) fun _ => supplied_pure _

/-- Reading along a chain of handlers, by induction on the links that are left. -/
theorem supplied_indexChain (key : Value) (fuel : Nat) (target : Value) :
    Supplied (action enter H (Action.indexChain key fuel target)) := by
  induction fuel generalizing target with
  | zero => exact supplied_throw rfl
  | succ fuel ih =>
    refine supplied_bind (supplied_rawAt target key) fun raw => ?_
    split
    · exact supplied_pure raw
    · refine supplied_bind (supplied_metafield target .index) fun handler => ?_
      cases handler with
      | nil =>
        simp only
        split
        · exact supplied_pure _
        · exact supplied_throw rfl
      | function f => exact supplied_callForOne enters _ _ _
      | _ => exact ih _

/-- Writing along a chain of handlers, by induction on the links that are left. -/
theorem supplied_newIndexChain (key v : Value) (fuel : Nat) (target : Value) :
    Supplied (action enter H (Action.newIndexChain key v fuel target)) := by
  induction fuel generalizing target with
  | zero => exact supplied_throw rfl
  | succ fuel ih =>
    refine supplied_bind (supplied_rawAt target key) fun raw => ?_
    dsimp only
    split
    · refine supplied_bind (supplied_metafield target .newIndex) fun handler => ?_
      cases handler with
      | nil =>
        cases target with
        | table t => exact supplied_setRaw t key v
        | _ => exact supplied_throw rfl
      | function f => exact supplied_bind (supplied_called enters _ _ _ _) fun _ => supplied_pure _
      | _ => exact ih _
    · cases target with
      | table t => exact supplied_setRaw t key v
      | _ => exact supplied_throw rfl

theorem supplied_arithValues (op : Arith) (a b : Value) :
    Supplied (action enter H (Action.arithValues op a b)) := by
  unfold Action.arithValues
  split
  · exact supplied_bind (supplied_onNumbers op _ _) fun n => supplied_pure _
  · refine supplied_bind (supplied_handlerOf a b op.event) fun h => ?_
    split
    · exact supplied_throw rfl
    · exact supplied_callForOne enters h _ _

theorem supplied_concatPair (a b : Value) (waiting : List Value) :
    Supplied (action enter H (Action.concatPair a b waiting)) := by
  unfold Action.concatPair
  split
  · exact supplied_pure _
  · refine supplied_bind (supplied_handlerOf a b .concat) fun h => ?_
    split
    · exact supplied_throw rfl
    · exact supplied_callForOne enters h _ _

theorem supplied_concatValues (waiting vs : List Value) :
    Supplied (action enter H (Action.concatValues waiting vs)) := by
  induction vs generalizing waiting with
  | nil => exact supplied_pure _
  | cons v vs ih =>
    cases vs with
    | nil => exact supplied_pure v
    | cons w ws => exact supplied_bind (ih _) fun x => supplied_concatPair enters v x waiting

theorem supplied_compareValues (a b : Value) (op : Comparison) :
    Supplied (action enter H (Action.compareValues a b op)) := by
  unfold Action.compareValues
  split
  · exact supplied_pure _
  · refine supplied_bind (supplied_handlerOf a b op.event) fun h => ?_
    split
    · split
      · exact supplied_pure false
      · exact supplied_throw rfl
    · exact supplied_bind (supplied_called enters h _ 1 _) fun _ => supplied_pure _

theorem supplied_lengthOf (v : Value) : Supplied (action enter H (Action.lengthOf v)) := by
  unfold Action.lengthOf
  split
  · exact supplied_pure _
  · refine supplied_bind (supplied_metafield _ .len) fun h => ?_
    split
    · exact supplied_callForOne enters h _ _
    · split
      · exact supplied_bind (supplied_table _) fun x => supplied_pure _
      · exact supplied_throw rfl

end Values

section Present
variable {i : Int}

theorem suppliedAt_value (addressed : s.Addresses i) {f : Value → Action E β}
    (rest : ∀ v, s.slot i = .ok v → SuppliedAt (action enter H (f v)) s) :
    SuppliedAt (action enter H (Action.value i >>= f)) s := by
  obtain ⟨v, held⟩ := slot_of_addresses addressed
  have looked : action enter H (Action.value i) s = .ok v s := by
    rw [action_value, read_eq, held]
    rfl
  rw [action_bind]
  exact suppliedAt_after looked (rest v held)

theorem suppliedAt_tableAt (addressed : s.Addresses i) {f : TableId → Action E β}
    (rest : ∀ t, s.slot i = .ok (.table t) → SuppliedAt (action enter H (f t)) s) :
    SuppliedAt (action enter H (Action.tableAt i >>= f)) s := by
  obtain ⟨v, held⟩ := slot_of_addresses addressed
  rw [action_bind]
  cases v with
  | table t => exact suppliedAt_after (action_tableAt held) (rest t held)
  | _ =>
    intro e t failed
    rw [bind_eq, Action.tableAt, action_bind, bind_eq, action_value, read_eq, held] at failed
    cases failed
    rfl

theorem suppliedAt_pop (one : 1 ≤ s.top) {f : Value → Action E β}
    (rest : ∀ v, SuppliedAt (action enter H (f v)) (s.mapSlots (·.pop))) :
    SuppliedAt (action enter H (Action.pop >>= f)) s := by
  obtain ⟨v, popped⟩ := popped_of_top one
  rw [action_bind, action_pop]
  exact suppliedAt_after popped (rest v)

theorem suppliedAt_pop_pop (two : 2 ≤ s.top)
    {f : Value → Value → Action E β} (rest : ∀ v w, Supplied (action enter H (f v w))) :
    SuppliedAt (action enter H (do let v ← Action.pop; let w ← Action.pop; f v w)) s := by
  have top : s.top = (s.stack.size : Int) - s.base := rfl
  have size : (s.mapSlots (·.pop)).stack.size = s.stack.size - 1 := Array.size_pop
  have below : (s.mapSlots (·.pop)).base = s.base := rfl
  have height : (s.mapSlots (·.pop)).top = s.top - 1 := by
    rw [State.top, size, below]
    omega
  exact suppliedAt_pop (by omega) fun v => suppliedAt_pop (by omega) fun w => rest v w _

theorem supplied_resize (n : Nat) : Supplied (resize n : Run E Unit) := by
  intro s e t failed
  rw [resize_eq] at failed
  split at failed
  · cases failed
  · split at failed
    · cases failed
      rfl
    · cases failed

theorem suppliedAt_operation {o : Op E} (h : SuppliedAt (perform enter H o) s) :
    SuppliedAt (action enter H (Action.perform o)) s := by
  rwa [action_op]

theorem suppliedAt_setTop (addressed : i < 0 → s.Addresses i) : SuppliedAt (setTop i) s := by
  intro e t failed
  rw [setTop_eq] at failed
  by_cases forward : 0 ≤ i
  · rw [if_pos forward] at failed
    exact supplied_resize _ s e t failed
  · obtain ⟨p, position, inside⟩ := position_of_addresses (addressed (by omega))
    rw [if_neg forward, position] at failed
    exact supplied_resize _ s e t failed

theorem popped_of_addresses (addressed : s.Addresses i) :
    ∃ p v, s.position i = .ok p ∧ p ≤ s.stack.size - 1 ∧ pop s = .ok v (s.mapSlots (·.pop)) := by
  have top : s.top = (s.stack.size : Int) - s.base := rfl
  obtain ⟨p, position, inside⟩ := position_of_addresses addressed
  obtain ⟨other, within⟩ := addressed
  obtain ⟨v, popped⟩ := popped_of_top (s := s) (by omega)
  exact ⟨p, v, position, by omega, popped⟩

theorem suppliedAt_insert (addressed : s.Addresses i) : SuppliedAt (insert i) s := by
  have size : (s.mapSlots (·.pop)).stack.size = s.stack.size - 1 := Array.size_pop
  obtain ⟨p, v, position, inside, popped⟩ := popped_of_addresses addressed
  intro e t failed
  rw [insert_eq, position, popped] at failed
  simp only [if_neg (show ¬(s.mapSlots (·.pop)).stack.size < p by omega)] at failed
  split at failed
  · cases failed
    rfl
  · cases failed

theorem suppliedAt_remove (addressed : s.Addresses i) : SuppliedAt (remove i) s := by
  obtain ⟨p, position, inside⟩ := position_of_addresses addressed
  intro e t failed
  rw [remove_eq, position] at failed
  simp only [if_neg (Nat.not_le_of_lt inside)] at failed
  cases failed

theorem suppliedAt_replace (addressed : s.Addresses i) : SuppliedAt (replace i) s := by
  obtain ⟨p, v, position, inside, popped⟩ := popped_of_addresses addressed
  intro e t failed
  rw [replace_eq, position, popped] at failed
  simp only at failed
  split at failed
  · exact supplied_push v _ e t failed
  · cases failed

theorem suppliedAt_drop {n : Nat} (enough : n ≤ s.top) : SuppliedAt (drop n) s := by
  intro e t failed
  rw [drop_eq, if_neg] at failed
  · split at failed <;> cases failed
  · rw [wrapped_of_nonneg (by omega)]
    omega

end Present

theorem suppliedAt_values {g : Nat → Int} {is : List Nat} (addressed : ∀ i ∈ is, s.Addresses (g i))
    {f : List Value → Action E β} (rest : ∀ vs, SuppliedAt (action enter H (f vs)) s) :
    SuppliedAt (action enter H ((is.mapM fun i => Action.value (g i)) >>= f)) s := by
  induction is generalizing f with
  | nil => exact rest []
  | cons i is ih =>
    obtain ⟨here, later⟩ := List.forall_mem_cons.mp addressed
    rw [List.mapM_cons, bind_assoc]
    refine suppliedAt_value here fun v _ => ?_
    rw [bind_assoc]
    exact ih later fun vs => rest (v :: vs)

/-- The function goes below its arguments, if there is room for it. -/
theorem placeBelow_cases (f : ScriptFunction) {n : Int} (positive : 0 ≤ n) (enough : n ≤ s.top) :
    action enter H (f.placeBelow n) s = .error (.raised .stackOverflow) s ∨
      ∃ t, action enter H (f.placeBelow n) s = .ok () t ∧ HasOperands t n := by
  have top : s.top = (s.stack.size : Int) - s.base := rfl
  rw [placeBelow_eq, if_neg (by omega)]
  cases s.stack.isFull with
  | true => exact .inl rfl
  | false =>
    refine .inr ⟨_, rfl, positive, ?_⟩
    rw [size_calling]
    change s.base + n.toNat + 1 ≤ _
    omega

theorem suppliedAt_placeBelow {f : ScriptFunction} {n : Int} (positive : 0 ≤ n)
    (enough : n ≤ s.top) {g : Unit → Action E β}
    (rest : ∀ t, HasOperands t n → SuppliedAt (action enter H (g ())) t) :
    SuppliedAt (action enter H (f.placeBelow n >>= g)) s := by
  rw [action_bind]
  rcases placeBelow_cases f positive enough with full | ⟨t, placed, operands⟩
  · intro e u failed
    rw [bind_eq, full] at failed
    cases failed
    rfl
  · exact suppliedAt_after placed (rest t operands)

/-- Where an operation consults metatables, those are looked at when the operands are there. -/
theorem suppliedAt_handled (enters : ∀ f, Supplied (enter f)) {o : FrameOp}
    (addressed : ∀ i ∈ o.slots, s.Addresses i) (enough : o.popped ≤ s.top) :
    SuppliedAt (action enter H o.action) s := by
  have height := action_top enter H s
  have read {i : Int} (key : Value) (listed : s.Addresses i) :
      SuppliedAt (action enter H (Action.getKey i key)) s :=
    suppliedAt_value listed fun v _ =>
      supplied_bind (supplied_indexChain enters key _ v) (fun x => supplied_pushKind x) s
  have assign {i : Int} (key : Value) (listed : s.Addresses i) (one : 1 ≤ s.top) :
      SuppliedAt (action enter H (Action.setKey i key)) s :=
    suppliedAt_value listed fun v _ => suppliedAt_pop one fun x =>
      supplied_newIndexChain enters key x _ v _
  have globals : Supplied (action enter H Action.globals) :=
    supplied_of_ok fun s => ⟨_, s, action_globals s⟩
  cases o with
  | getField i name => exact read _ (addressed i (List.mem_singleton_self i))
  | getIndex i n => exact read _ (addressed i (List.mem_singleton_self i))
  | setField i name => exact assign _ (addressed i (List.mem_singleton_self i)) enough
  | setIndex i n => exact assign _ (addressed i (List.mem_singleton_self i)) enough
  | getGlobal name =>
    exact supplied_bind globals (fun v =>
      supplied_bind (supplied_indexChain enters _ _ v) fun x => supplied_pushKind x) s
  | setGlobal name =>
    exact suppliedAt_pop enough fun x =>
      supplied_bind globals (fun v => supplied_newIndexChain enters _ x _ v) _
  | getTable i =>
    exact suppliedAt_value (addressed i (List.mem_singleton_self i)) fun v _ =>
      suppliedAt_pop enough fun key =>
        supplied_bind (supplied_indexChain enters key _ v) (fun x => supplied_pushKind x) _
  | setTable i =>
    exact suppliedAt_value (addressed i (List.mem_singleton_self i)) fun v _ =>
      suppliedAt_pop_pop enough fun x key => supplied_newIndexChain enters key x _ v
  | compare i j op =>
    refine suppliedAt_value (addressed i (by simp [FrameOp.slots])) fun a _ => ?_
    refine suppliedAt_value (addressed j (by simp [FrameOp.slots])) fun b _ => ?_
    exact supplied_compareValues enters a b op s
  | len i =>
    exact suppliedAt_value (addressed i (List.mem_singleton_self i)) fun v _ =>
      supplied_bind (supplied_lengthOf enters v) (fun x => supplied_pushAction x) s
  | toText i =>
    refine suppliedAt_value (addressed i (List.mem_singleton_self i)) fun v _ => ?_
    refine supplied_bind (supplied_metafield v .toText) (fun h => ?_) s
    split
    · exact supplied_of_ok fun s => ⟨_, s, congrFun (action_op enter H (.display v)) s⟩
    · refine supplied_bind (supplied_called enters h _ 1 _) fun answers => ?_
      split
      · exact supplied_pure _
      · exact supplied_throw rfl
  | arith op =>
    unfold FrameOp.action Action.arith
    cases unary : op.isUnary with
    | true =>
      simp only [FrameOp.popped, unary, if_true] at enough ⊢
      exact suppliedAt_pop enough fun a =>
        supplied_bind (supplied_arithValues enters op a a) (fun x => supplied_pushAction x) _
    | false =>
      simp only [FrameOp.popped, unary, Bool.false_eq_true, if_false] at enough ⊢
      rw [action_bind]
      refine suppliedAt_after height ?_
      rw [if_neg (show ¬s.top < 2 from Int.not_lt.mpr enough)]
      exact suppliedAt_pop_pop enough fun b a =>
        supplied_bind (supplied_arithValues enters op a b) fun x => supplied_pushAction x
  | concat n =>
    have enough : (n : Int) ≤ s.top := enough
    rw [FrameOp.action, SuppliedAt, action_concat_of_held (.inr enough)]
    refine suppliedAt_values (fun i among => ?_) fun vs => ?_
    · have before := List.mem_range.mp among
      exact ⟨by omega, by omega⟩
    · rw [action_bind]
      refine suppliedAt_bind (suppliedAt_operation (suppliedAt_drop enough)) fun _ => ?_
      exact supplied_bind (supplied_concatValues enters [] vs) fun x => supplied_pushAction x

theorem suppliedAt_request (enters : ∀ f, Supplied (enter f)) {r : FrameRequest E}
    (accepted : r.refused? = none) (addressed : ∀ i ∈ r.slots, s.Addresses i)
    (enough : s.holdsTable r.tableSlot? = true → r.operands ≤ s.top) :
    SuppliedAt (action enter H r.action) s := by
  have top : s.top = (s.stack.size : Int) - s.base := rfl
  have positive {n : Int} {e : Error} (accepted : (if n < 0 then some e else none) = none) :
      0 ≤ n := by
    by_contra below
    rw [if_pos (by omega)] at accepted
    cases accepted
  have held {i : Int} {t : TableId} (table : s.slot i = .ok (.table t)) :
      s.holdsTable (some i) = true := by
    simp only [holdsTable, table]
  cases r with
  | setTop i =>
    refine suppliedAt_operation (suppliedAt_setTop fun negative => addressed i ?_)
    rw [FrameRequest.slots, if_pos negative]
    exact List.mem_singleton_self i
  | absolute i =>
    obtain ⟨p, position, -⟩ := position_of_addresses (addressed i (List.mem_singleton_self i))
    refine suppliedAt_operation fun e t failed => ?_
    rw [perform, read_eq, State.absolute, position] at failed
    cases failed
  | kind i =>
    exact suppliedAt_value (addressed i (List.mem_singleton_self i)) fun v _ => supplied_pure _ s
  | value i =>
    obtain ⟨v, held⟩ := slot_of_addresses (addressed i (List.mem_singleton_self i))
    intro e t failed
    rw [FrameRequest.action, action_value, read_eq, held] at failed
    cases failed
  | read shape i =>
    refine suppliedAt_value (addressed i (List.mem_singleton_self i)) fun v _ => ?_
    rw [action_decode]
    exact raises_read (fun s => s.heap.fails_decode Error.isShortage_of_conversion _ shape v) s
  | drop n =>
    exact suppliedAt_operation (suppliedAt_drop (enough rfl))
  | pop =>
    obtain ⟨v, popped⟩ := popped_of_top (enough rfl)
    intro e t failed
    rw [FrameRequest.action, action_pop, popped] at failed
    cases failed
  | pushCopy i =>
    exact suppliedAt_value (addressed i (List.mem_singleton_self i)) fun v _ =>
      supplied_pushAction v s
  | insert i =>
    exact suppliedAt_operation (suppliedAt_insert (addressed i (List.mem_singleton_self i)))
  | remove i =>
    exact suppliedAt_operation (suppliedAt_remove (addressed i (List.mem_singleton_self i)))
  | replace i =>
    exact suppliedAt_operation (suppliedAt_replace (addressed i (List.mem_singleton_self i)))
  | tableAt i =>
    have tabled : SuppliedAt (action enter H (Action.tableAt i >>= fun t => pure t)) s :=
      suppliedAt_tableAt (addressed i (List.mem_singleton_self i)) fun t _ => supplied_pure t s
    rwa [bind_pure] at tabled
  | rawGet i =>
    refine suppliedAt_tableAt (addressed i (List.mem_singleton_self i)) fun t table => ?_
    refine suppliedAt_pop (enough (held table)) fun key => ?_
    exact supplied_bind (supplied_table t) (fun x => supplied_pushKind _) _
  | rawSet i =>
    refine suppliedAt_tableAt (addressed i (List.mem_singleton_self i)) fun t table => ?_
    exact suppliedAt_pop_pop (enough (held table)) fun v key => supplied_setRaw t key v
  | rawGetIndex i n =>
    refine suppliedAt_tableAt (addressed i (List.mem_singleton_self i)) fun t table => ?_
    exact supplied_bind (supplied_table t) (fun x => supplied_pushKind _) s
  | rawSetIndex i n =>
    refine suppliedAt_tableAt (addressed i (List.mem_singleton_self i)) fun t table => ?_
    exact suppliedAt_pop (enough (held table)) fun v => supplied_setRaw t _ v _
  | next i =>
    refine suppliedAt_tableAt (addressed i (List.mem_singleton_self i)) fun t table => ?_
    refine suppliedAt_pop (enough (held table)) fun key => ?_
    refine supplied_bind (supplied_table t) (fun x => ?_) _
    refine supplied_bind (raises_ofExcept (fails_next x key)) fun found => ?_
    split
    · exact supplied_bind (supplied_pushAction _) fun _ =>
        supplied_bind (supplied_pushAction _) fun _ => supplied_pure true
    · exact supplied_pure false
  | setNamedMetatable i name =>
    refine suppliedAt_value (addressed i (List.mem_singleton_self i)) fun v _ => ?_
    refine supplied_bind (supplied_of_ok fun s => ⟨_, s, action_registered name s⟩) (fun m => ?_) s
    split
    · exact supplied_assignMetatable v _
    · exact supplied_throw rfl
  | setMetatable i =>
    refine suppliedAt_value (addressed i (List.mem_singleton_self i)) fun v _ => ?_
    refine suppliedAt_pop (enough rfl) fun m => ?_
    split
    · exact supplied_assignMetatable v _ _
    · exact supplied_assignMetatable v _ _
    · exact supplied_throw rfl _
  | getMetatable i =>
    refine suppliedAt_value (addressed i (List.mem_singleton_self i)) fun v _ => ?_
    refine supplied_bind (supplied_of_ok fun s => ⟨_, s, action_metatable v s⟩) (fun m => ?_) s
    split
    · exact supplied_bind (supplied_pushAction _) fun _ => supplied_pure true
    · exact supplied_pure false
  | rawEqual i j =>
    refine suppliedAt_value (addressed i (by simp [FrameRequest.slots])) fun a _ => ?_
    refine suppliedAt_value (addressed j (by simp [FrameRequest.slots])) fun b _ => ?_
    exact supplied_pure _ s
  | rawLen i =>
    refine suppliedAt_value (addressed i (List.mem_singleton_self i)) fun v _ => ?_
    split
    · exact supplied_pure _ s
    · exact supplied_bind (supplied_table _) (fun x => supplied_pure _) s
    · exact supplied_pure _ s
  | call n k =>
    have positive := positive accepted
    have enough : n + 1 ≤ s.top := enough rfl
    exact suppliedAt_operation (suppliedAt_call enters ⟨positive, by omega⟩ k).1
  | pcall n k =>
    have positive := positive accepted
    have enough : n + 1 ≤ s.top := enough rfl
    exact suppliedAt_operation (suppliedAt_call enters ⟨positive, by omega⟩ k).2
  | invoke f n k =>
    exact suppliedAt_placeBelow (positive accepted) (enough rfl) fun t operands =>
      suppliedAt_operation (suppliedAt_call enters operands k).1
  | invokeProtected f n k =>
    exact suppliedAt_placeBelow (positive accepted) (enough rfl) fun t operands =>
      suppliedAt_operation (suppliedAt_call enters operands k).2
  | handled o => exact suppliedAt_handled enters addressed (enough rfl)

theorem suppliedAt_of_no_shortage (enters : ∀ f, Supplied (enter f)) {r : FrameRequest E}
    (none : s.shortage? r = none) : SuppliedAt (action enter H r.action) s := by
  unfold shortage? at none
  cases accepted : r.refused? with
  | some e =>
    rw [accepted] at none
    cases none
  | none =>
    rw [accepted] at none
    simp only at none
    cases found : r.slots.find? fun i => ¬s.Addresses i with
    | some i =>
      rw [found] at none
      cases none
    | none =>
      rw [found] at none
      simp only at none
      have addressed : ∀ i ∈ r.slots, s.Addresses i := fun i listed => by
        simpa using List.find?_eq_none.mp found i listed
      refine suppliedAt_request enters accepted addressed fun table => ?_
      by_contra short
      rw [if_pos ⟨Int.not_le.mp short, table⟩] at none
      cases none

/-- On a frame within the stack. What lacks a slot or operands fails with the state as it was, apart
from the two operations that have taken their value by then; what lacks neither fails so only where
a function that it calls does. Making an error of the top value answers for an empty frame, and every
argument number has an answer. -/
theorem shortage_keeps_state (H : Host E) {s : State E} (framed : s.base ≤ s.stack.size) :
    (∀ (r : FrameRequest E) e, s.shortage? r = some e →
      runAction H r.action s = .error (.raised e)
        (if r.TakesValueFirst ∧ e = .stackUnderflow then s.mapSlots (·.pop) else s)) ∧
    (∀ r : FrameRequest E, s.shortage? r = none → ∀ enter, (∀ f, Supplied (enter f)) →
      ∀ e t, action enter H r.action s = .error (.raised e) t → e.isShortage = false) ∧
    (s.top < 1 → runAction H Action.raising s = .ok .stackUnderflow s) ∧
    ∀ n, runAction H (Action.argument n) s = .ok (s.argument n) s := by
  refine ⟨fun r e short => fails_of_shortage framed short,
    fun r none enter enters => suppliedAt_of_no_shortage enters none, fun empty => ?_,
    fun n => congrFun (action_op (enter H s.depthLeft) H (.argument n)) s⟩
  have top : s.top = (s.stack.size : Int) - s.base := rfl
  have popped : perform (enter H s.depthLeft) H .pop s = .error (.raised .stackUnderflow) s :=
    (pop_eq s).trans (if_pos (by omega))
  refine (congrFun (action_proceed (enter H s.depthLeft) H .pop _) s).trans ?_
  rw [proceed, popped]
  rfl

/-- Comparing with a slot that is not there, and with one operand for two. -/
theorem shortage_keeps_state_compare :
    let H := Host.running (pure 0)
    let s := State.plain #[.light 7]
    runAction H (Action.compare 1 2 .lt) s = .error (.raised (.invalidIndex 2)) s ∧
      runAction H (Action.arith .add) s = .error (.raised .stackUnderflow) s := by
  intro H s
  obtain ⟨fails, -⟩ := shortage_keeps_state H (s := s) (by decide)
  exact ⟨fails (.handled (.compare 1 2 .lt)) _ (by decide),
    fails (.handled (.arith .add)) _ (by decide)⟩

/-- The value to be assigned is gone when the key is missed. -/
theorem setTable_loses_value :
    let H := Host.running (pure 0)
    let s := (State.new .standard () : State .plain).mapSlots fun _ => #[.light 7]
    s.Reachable H ∧ s.shortage? (.handled (.setTable 1)) = some .stackUnderflow ∧
      ∃ t, runAction H (Action.setTable 1) s = .error (.raised .stackUnderflow) t ∧
        t.stack.slots = #[] := by
  intro H s
  have lost : runAction H (Action.setTable 1) s = .error (.raised .stackUnderflow) _ :=
    fails_for_operands (r := .handled (.setTable 1)) (by decide) rfl (by decide) (by decide) rfl
  exact ⟨(Reachable.new H _ ()).changes (Change.slots _).changes, by decide, _, lost, rfl⟩

end Run
end HostBridge
