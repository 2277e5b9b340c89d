import HostBridge.Action.Frame
import HostBridge.Proofs.Call.Frame
import HostBridge.Proofs.Heap.Release

namespace HostBridge

def Op.KeepsOpen {E : Embedding} : Op E → Prop
  | .close => False
  | _ => True

namespace Run
open State
variable {E : Embedding} {α : Type}

theorem callPosition_eq (nargs : Int) (s : State E) :
    callPosition nargs s =
      if nargs < 0 then .error (.raised (.invalidIndex nargs)) s
      else if s.stack.size < s.base + nargs.toNat + 1 then .error (.raised .stackUnderflow) s
      else .ok (s.stack.size - nargs.toNat - 1) s := by
  unfold callPosition
  by_cases negative : nargs < 0
  · rw [if_pos negative, if_pos negative]
    rfl
  · by_cases missing : s.stack.size < s.base + nargs.toNat + 1
    · simp only [if_neg negative, bind_eq, get_eq, if_pos missing, raise_eq]
    · simp only [if_neg negative, bind_eq, pure_eq, get_eq, if_neg missing]

theorem orTruncate_eq (func : Nat) (body : Run E α) (s : State E) :
    orTruncate func body s = match body s with
      | .ok x t => .ok x t
      | .error (.raised e) t => .error (.raised e) (t.mapSlots (·.take func))
      | .error (.panicked p) t => .error (.panicked p) t := by
  rw [orTruncate, tryCatch_eq]
  cases body s with
  | ok x t => rfl
  | error f t => cases f <;> rfl

theorem call_eq (enter : Enter E) (nargs nresults : Int) (s : State E) :
    call enter nargs nresults s = match callPosition nargs s with
      | .ok func t => orTruncate func (callAt enter func nresults) t
      | .error f t => .error f t := by
  rw [call, bind_eq]
  cases callPosition nargs s <;> rfl

theorem pcall_eq (enter : Enter E) (nargs nresults : Int) (s : State E) :
    pcall enter nargs nresults s = match callPosition nargs s with
      | .error f t => .error f t
      | .ok func t => match callAt enter func nresults t with
        | .ok _ u => .ok .ok u
        | .error (.panicked p) u => .error (.panicked p) u
        | .error (.raised e) u =>
          match push (.string e.message) (u.mapSlots (·.take func)) with
          | .ok _ v => .ok (.ofError e) { v with lastError := some e }
          | .error f v => .error f v := by
  rw [pcall, bind_eq]
  cases callPosition nargs s with
  | error f t => rfl
  | ok func t =>
    simp only [tryCatch_eq, bind_eq]
    cases callAt enter func nresults t with
    | ok x u => rfl
    | error f u =>
      cases f with
      | panicked p => rfl
      | raised e =>
        simp only [truncate, bind_eq, modifySlots_eq]
        cases push (.string e.message) (u.mapSlots (·.take func)) <;> rfl

def HasOperands (s : State E) (nargs : Int) : Prop :=
  0 ≤ nargs ∧ s.base + nargs.toNat + 1 ≤ s.stack.size

def functionSlot (s : State E) (nargs : Int) : Nat := s.stack.size - nargs.toNat - 1

theorem functionSlot_bounds {s : State E} {nargs : Int} (operands : HasOperands s nargs) :
    s.base ≤ functionSlot s nargs ∧ functionSlot s nargs < s.stack.size := by
  obtain ⟨positive, enough⟩ := operands
  unfold functionSlot
  omega

theorem callPosition_of_operands {s : State E} {nargs : Int} (operands : HasOperands s nargs) :
    callPosition nargs s = .ok (functionSlot s nargs) s := by
  obtain ⟨positive, enough⟩ := operands
  rw [callPosition_eq, if_neg (Int.not_lt.mpr positive), if_neg (Nat.not_lt.mpr enough)]
  rfl

theorem callPosition_of_missing {s : State E} {nargs : Int} (missing : ¬HasOperands s nargs) :
    ∃ e, callPosition nargs s = .error (.raised e) s := by
  rw [callPosition_eq]
  by_cases negative : nargs < 0
  · exact ⟨_, if_pos negative⟩
  · have short : s.stack.size < s.base + nargs.toNat + 1 :=
      Nat.lt_of_not_le fun enough => missing ⟨Int.not_lt.mp negative, enough⟩
    rw [if_neg negative, if_pos short]
    exact ⟨_, rfl⟩

theorem upto_orTruncate {s : State E} (catches : s.config.catchPanics = true) {func : Nat}
    (above : s.base ≤ func) {body : Run E α} (upto : Upto func s (body.final s)) :
    Upto func s ((orTruncate func body).final s) := by
  rw [final, orTruncate_eq]
  unfold final at upto
  cases ran : body s with
  | ok x t =>
    rw [ran] at upto
    exact upto
  | error f t =>
    rw [ran] at upto
    cases f with
    | panicked p => exact upto
    | raised e => exact upto.cut catches above

/-- The room below the function slot is enough for the message of a failed call. -/
theorem isFull_truncate {s u : State E} (fits : s.Fits) {func : Nat} (inside : func < s.stack.size)
    (upto : Upto func s u) : (u.mapSlots (·.take func)).stack.isFull = false := by
  have size : (u.stack.slots.take func).size = func := size_take upto.reaches
  have limit : u.stack.maxDepth = s.stack.maxDepth := upto.within.maxDepth
  have bounded := fits.size_le_maxDepth
  refine Stack.free_iff.mpr ?_
  change (u.stack.slots.take func).size < u.stack.maxDepth
  omega

theorem call_of_operands (enter : Enter E) {s : State E} {nargs : Int}
    (operands : HasOperands s nargs) (nresults : Int) :
    call enter nargs nresults s = match callAt enter (functionSlot s nargs) nresults s with
      | .ok x t => .ok x t
      | .error (.raised e) t => .error (.raised e) (t.mapSlots (·.take (functionSlot s nargs)))
      | .error (.panicked p) t => .error (.panicked p) t := by
  rw [call_eq, callPosition_of_operands operands]
  cases ran : callAt enter (functionSlot s nargs) nresults s with
  | ok x t => simp only [orTruncate_eq, ran]
  | error f t => cases f <;> simp only [orTruncate_eq, ran]

/-- `t` with the message of `e` on top of its stack and `e` as its last error. -/
def withMessage (e : Error) (t : State E) : State E :=
  { t.mapSlots (·.push (.string e.message)) with lastError := some e }

theorem pcall_of_operands (enter : Enter E) {s : State E} (fits : s.Fits) {nargs : Int}
    (operands : HasOperands s nargs) {nresults : Int}
    (upto : Upto (functionSlot s nargs) s
      ((callAt enter (functionSlot s nargs) nresults).final s)) :
    pcall enter nargs nresults s = match callAt enter (functionSlot s nargs) nresults s with
      | .ok _ t => .ok .ok t
      | .error (.raised e) t =>
        .ok (.ofError e) (withMessage e (t.mapSlots (·.take (functionSlot s nargs))))
      | .error (.panicked p) t => .error (.panicked p) t := by
  unfold final at upto
  rw [pcall_eq, callPosition_of_operands operands]
  simp only
  cases ran : callAt enter (functionSlot s nargs) nresults s with
  | ok x t => rfl
  | error f t =>
    cases f with
    | panicked p => rfl
    | raised e =>
      rw [ran] at upto
      have room := isFull_truncate fits (functionSlot_bounds operands).2 upto
      simp only [push_eq, room, Bool.false_eq_true, if_false]
      rfl

theorem callValue_eq (enter : Enter E) (f : Value) (args : List Value) (nresults : Int)
    (s : State E) :
    callValue enter f args nresults s =
      if s.stack.isFull then .error (.raised .stackOverflow) s
      else match (pushAll args >>= fun _ => callAt enter s.stack.size nresults)
          (s.mapSlots (·.push f)) with
        | .ok _ t => .ok (t.stack.slots.extract s.stack.size t.stack.size).toList
            (t.mapSlots (·.take s.stack.size))
        | .error (.raised e) t => .error (.raised e) (t.mapSlots (·.take s.stack.size))
        | .error (.panicked p) t => .error (.panicked p) t := by
  cases full : s.stack.isFull with
  | true => simp [callValue, push_eq, full]
  | false =>
    simp only [callValue, bind_eq, get_eq, push_eq, full, Bool.false_eq_true, if_false,
      orTruncate_eq, truncate, modifySlots_eq, pure_eq]
    cases pushAll args (s.mapSlots (·.push f)) with
    | ok x t =>
      simp only
      cases callAt enter s.stack.size nresults t with
      | ok y u => rfl
      | error e u => cases e <;> rfl
    | error e t => cases e <;> rfl

theorem action_proceed (enter : Enter E) (H : Host E) (o : (Op.effect E).Op)
    (next : Except Error ((Op.effect E).Answer o) → Action E α) :
    action enter H (Prog.perform o next) =
      proceed (perform enter H o) fun r => action enter H (next r) := rfl

theorem action_perform (enter : Enter E) (H : Host E) (o : (Op.effect E).Op)
    (next : Except Error ((Op.effect E).Answer o) → Action E α) (s : State E) :
    action enter H (Prog.perform o next) s =
      match perform enter H o s with
      | .ok a t => action enter H (next (.ok a)) t
      | .error (.raised e) t => action enter H (next (.error e)) t
      | .error (.panicked p) t => .error (.panicked p) t := by
  rw [action_proceed, proceed]
  cases perform enter H o s with
  | ok a t => rfl
  | error f t => cases f <;> rfl

section Meaning
variable (enter : Enter E) (H : Host E) {β : Type}

@[simp] theorem action_pure (a : α) : action enter H (pure a : Action E α) = pure a := rfl

@[simp] theorem action_throw (e : Error) :
    action enter H (throw e : Action E α) = raise e := rfl

@[simp] theorem action_op (o : Op E) : action enter H (Action.perform o) = perform enter H o := by
  funext s
  apply (action_perform enter H o Prog.done s).trans
  cases perform enter H o s with
  | ok a t => rfl
  | error f t => cases f <;> rfl

@[simp] theorem action_bind (a : Action E α) (f : α → Action E β) :
    action enter H (a >>= f) = action enter H a >>= fun x => action enter H (f x) := by
  change action enter H (Prog.bind a f) = _
  funext s
  induction a generalizing s with
  | done r => cases r <;> rfl
  | abort p => rfl
  | perform o next ih =>
    rw [Prog.bind, bind_eq, action_perform, action_perform]
    cases perform enter H o s with
    | ok x t =>
      simpa only [bind_eq] using ih (.ok x) t
    | error e t =>
      cases e with
      | raised e =>
        simpa only [bind_eq] using ih (.error e) t
      | panicked p => rfl

@[simp] theorem action_value (i : Int) :
    action enter H (Action.value i) = read (·.slot i) := action_op enter H (.slot i)

@[simp] theorem action_push (v : Value) : action enter H (Action.push v) = push v :=
  action_op enter H (.push v)

@[simp] theorem action_pop : action enter H (Action.pop : Action E Value) = pop :=
  action_op enter H .pop

@[simp] theorem action_top (s : State E) : action enter H Action.top s = .ok s.top s :=
  congrFun (action_op enter H .top) s

@[simp] theorem action_absolute (i : Int) :
    action enter H (Action.absolute i) = read (·.absolute i) := action_op enter H (.absolute i)

@[simp] theorem action_setTop (i : Int) : action enter H (Action.setTop i) = setTop i :=
  action_op enter H (.setTop i)

@[simp] theorem action_drop (n : Nat) : action enter H (Action.drop n) = drop n :=
  action_op enter H (.drop n)

@[simp] theorem action_insert (i : Int) : action enter H (Action.insert i) = insert i :=
  action_op enter H (.insert i)

@[simp] theorem action_remove (i : Int) : action enter H (Action.remove i) = remove i :=
  action_op enter H (.remove i)

@[simp] theorem action_replace (i : Int) : action enter H (Action.replace i) = replace i :=
  action_op enter H (.replace i)

@[simp] theorem action_encode (shape : Shape E.Tag) (x : shape.Carrier E) :
    action enter H (Action.encode shape x) = encode H shape x :=
  action_op enter H (.encode shape x)

@[simp] theorem action_decode (shape : Shape E.Tag) (v : Value) :
    action enter H (Action.decode shape v) = read (·.decode shape v) :=
  action_op enter H (.decode shape v)

theorem action_readAs (shape : Shape E.Tag) (i : Int) (s : State E) :
    action enter H (Action.readAs shape i) s = ofExcept (s.decodeSlot shape i) s := by
  rw [Action.readAs, action_bind, action_value, bind_eq]
  simp only [read_eq, decodeSlot]
  cases s.slot i with
  | error e => rfl
  | ok v => exact congrFun (action_op enter H (.decode shape v)) s

theorem action_readList (ss : List (Shape E.Tag)) (s : State E) :
    action enter H (Action.readList ss) s = ofExcept (s.decodeTop ss) s := by
  induction ss with
  | nil => rfl
  | cons shape ss ih =>
    rw [Action.readList, action_bind, bind_eq, action_readAs, decodeTop]
    cases s.decodeSlot shape (-(ss.length + 1)) with
    | error e => rfl
    | ok x =>
      simp only [ofExcept_ok, pure_eq, action_bind, bind_eq, ih]
      cases s.decodeTop ss with
      | error e => rfl
      | ok xs => rfl

theorem action_pushAs (shape : Shape E.Tag) (x : shape.Carrier E) :
    action enter H (Action.pushAs shape x) = encode H shape x >>= push := by
  rw [Action.pushAs, action_bind, Action.encode, action_op]
  funext s
  simp only [bind_eq, perform]
  cases encode H shape x s with
  | error f t => rfl
  | ok v t => exact congrFun (action_op enter H (.push v)) t

theorem action_pushList (ss : List (Shape E.Tag)) (xs : Tuple E ss) :
    action enter H (Action.pushList ss xs) = encodeAll H ss xs >>= fun _ => pure ss.length := by
  induction ss with
  | nil => rfl
  | cons shape ss ih =>
    obtain ⟨x, xs⟩ := xs
    simp only [Action.pushList, encodeAll, action_bind, action_pushAs, ih, action_pure, bind_assoc,
      pure_bind, List.length_cons]

end Meaning

theorem callableOf_cases (f : FunctionId) (s : State E) :
    (∃ c, callableOf f s = .ok c s) ∨ ∃ e, callableOf f s = .error (.raised e) s := by
  rw [callableOf, bind_eq, get_eq]
  simp only
  cases s.heap.callable? f with
  | some c => exact .inl ⟨c, rfl⟩
  | none => exact .inr ⟨_, rfl⟩

theorem catchPanics_eq (name : String) (body : Run E Nat) {s : State E}
    (catches : s.config.catchPanics = true) :
    catchPanics name body s = match body s with
      | .error (.panicked p) t => .error (.raised (.hostCallableFault name p.message))
          { t with heap := t.heap.restoreBorrows s.heap.objects }
      | r => r := by
  cases ran : body s with
  | ok n t => simp only [catchPanics, if_pos catches, ran]
  | error f t => cases f <;> simp only [catchPanics, if_pos catches, ran]

theorem catchPanics_of_ok (name : String) {body : Run E Nat} {s t : State E} {n : Nat}
    (ran : body s = .ok n t) : catchPanics name body s = .ok n t := by
  unfold catchPanics
  cases s.config.catchPanics <;> simp [ran]

theorem catchPanics_of_raised (name : String) {body : Run E Nat} {s t : State E} {e : Error}
    (ran : body s = .error (.raised e) t) : catchPanics name body s = .error (.raised e) t := by
  unfold catchPanics
  cases s.config.catchPanics <;> simp [ran]

theorem calm_enter (H : Host E) (depth : Nat) : Calm (enter H depth) := by
  intro f s p t catches ran
  cases depth with
  | zero => cases ran
  | succ depth =>
    rw [enter, bind_eq] at ran
    rcases callableOf_cases f s with ⟨c, eq⟩ | ⟨e, eq⟩
    · -- The body runs inside of `catchPanics`, whose other outcomes are no panics.
      rw [eq] at ran
      simp only [catchPanics_eq _ _ catches] at ran
      split at ran
      · cases ran
      · rename_i other
        exact other p t ran
    · rw [eq] at ran
      cases ran

theorem sameFrame_settle (H : Host E) (before : List Value) (s : State E) :
    s.SameFrame (s.settle H before) := by
  obtain ⟨released, world, finalized, settled⟩ := s.settle_frame H before
  rw [settled]
  exact ⟨rfl, rfl, rfl, rfl, rfl, rfl, rfl, rfl, rfl⟩

theorem endStatement_eq (H : Host E) (before : List Value) (s : State E) :
    endStatement H before s = match (s.settle H before).finalized with
      | .ok () => .ok () (s.settle H before)
      | .error p => .error (.panicked p) (s.settle H before) := by
  change unlessPanic (s.settle H before).finalized (s.settle H before) = _
  cases (s.settle H before).finalized <;> rfl

theorem action_after {β : Type} {enter : Enter E} {H : Host E} {a : Action E α}
    {f : α → Action E β} {s t : State E} {x : α} (ran : action enter H a s = .ok x t) :
    action enter H (a >>= f) s = action enter H (f x) t := by
  rw [action_bind, bind_eq, ran]

theorem settle_final (enter : Enter E) (H : Host E) (vars : List Entity) (s : State E) :
    (perform enter H (.settle vars)).final s = (s.assign vars).settle H [] := by
  change (endStatement H []).final (s.assign vars) = _
  unfold final
  rw [endStatement_eq]
  cases ((s.assign vars).settle H []).finalized <;> rfl

theorem final_runAction (H : Host E) (a : Action E α) (s : State E) :
    (runAction H a).final s = (action (enter H s.depthLeft) H a).final s := rfl

theorem exec_final (H : Host E) (a : Action E α) (s : State E) :
    (State.exec H a).final s = ((runAction H a).final s).settle H
      (if s.heap.userdata.isEmpty then [] else s.stack.slots.toList) := by
  unfold final State.exec
  cases runAction H a s with
  | ok x t =>
    simp only [bind_eq, endStatement_eq]
    cases (t.settle H _).finalized <;> rfl
  | error f t =>
    cases f with
    | raised e =>
      simp only [bind_eq, endStatement_eq]
      cases (t.settle H _).finalized <;> rfl
    | panicked p => rfl

/-- A property `J` of runs that passes from the operations of a state to all programs over those that
`P` admits, and by way of a property `I` of functions to calls: `I` holds of a function whose body has
`J`, and `J` of calls of functions that have `I`. -/
structure Carries (P : Op E → Prop) (I : Run E Nat → Prop) (J : (α : Type) → Run E α → Prop) :
    Prop extends Composes J where
  pop : J Value pop
  drop (n : Nat) : J Unit (drop n)
  insert (index : Int) : J Unit (insert index)
  replace (index : Int) : J Unit (replace index)
  close : P .close → J Unit (modify State.close)
  call {enter : Enter E} : (∀ f, I (enter f)) → Calm enter → ∀ nargs nresults,
    J Unit (call enter nargs nresults)
  pcall {enter : Enter E} : (∀ f, I (enter f)) → Calm enter → ∀ nargs nresults,
    J CallStatus (pcall enter nargs nresults)
  callValue {enter : Enter E} : (∀ f, I (enter f)) → Calm enter → ∀ f args nresults,
    J (List Value) (callValue enter f args nresults)
  keeping {α : Type} (vs : List Value) {m : Run E α} : J α m → J α (keeping vs m)
  refused : I (raise .stackOverflow)
  entered (f : FunctionId) {body : Callable E → Run E Nat} : (∀ c, J Nat (body c)) →
    I (callableOf f >>= fun c => catchPanics c.name (body c))

section Programs
variable {P : Op E → Prop} {I : Run E Nat → Prop} {J : (α : Type) → Run E α → Prop}
  (laws : Carries P I J)
include laws

section Callee
variable {enter : Enter E} (enters : ∀ f, I (enter f)) (calm : Calm enter)
include enters calm

theorem carried_perform (H : Host E) (o : Op E) (allowed : P o) : J _ (perform enter H o) := by
  cases o with
  | top => exact laws.get_bind fun s => laws.pure _
  | slot i => exact laws.read _
  | argument n => exact laws.get_bind fun s => laws.pure _
  | absolute i => exact laws.read _
  | setTop i => exact laws.setTop i
  | push v => exact laws.push v
  | pop => exact laws.pop
  | drop n => exact laws.drop n
  | insert i => exact laws.insert i
  | remove i => exact laws.remove i
  | replace i => exact laws.replace i
  | newTable => exact laws.tame (tame_allocTable _)
  | table t => exact laws.get_bind fun s => laws.pure _
  | setRaw t k v => exact laws.tame (tame_setRaw t k v)
  | metatable v => exact laws.get_bind fun s => laws.pure _
  | assignMetatable v m => exact laws.tame (tame_assignMetatable v m)
  | globals => exact laws.get_bind fun s => laws.pure _
  | registry => exact laws.get_bind fun s => laws.pure _
  | newNative name code => exact laws.tame (tame_newCallable ⟨name, .native code⟩)
  | newClosure name code => exact laws.tame (tame_newCallable ⟨name, .closure code⟩)
  | newForeign name expected => exact laws.tame (tame_newCallable ⟨name, .foreign expected⟩)
  | functionName f => exact laws.bind (laws.tame (tame_callableOf f)) fun c => laws.pure _
  | signature f => exact laws.bind (laws.tame (tame_callableOf f)) fun c => laws.pure _
  | thunkCount => exact laws.get_bind fun s => laws.pure _
  | call n r => exact laws.call enters calm n r
  | pcall n r => exact laws.pcall enters calm n r
  | callValue f args r waiting => exact laws.keeping waiting (laws.callValue enters calm f args r)
  | takeError =>
    exact laws.tame (tame_modifyGet fun s => ⟨rfl, rfl, rfl, rfl, rfl, rfl, rfl, rfl, rfl⟩)
  | callDepth => exact laws.get_bind fun s => laws.pure _
  | newObject t x => exact laws.tame (tame_allocObject t x)
  | reflect t r => exact laws.tame (tame_reflect H t r)
  | carry t r => exact laws.tame (tame_carry t r)
  | tagOf u => exact laws.tame (tame_tagOf u)
  | read t r => exact laws.bind (laws.read _) fun _ => laws.read _
  | write t r x => exact laws.bind (laws.read _) fun _ => laws.modifyHeap _
  | acquire t r a => exact laws.bind (laws.read _) fun _ => laws.modifyHeap _
  | release t r a => exact laws.modifyHeap (·.modifyBorrow r.object (·.drop a))
  | shareCount o => exact laws.get_bind fun s => laws.pure _
  | settle vars =>
    refine laws.bind (laws.tame (tame_modify fun s => ⟨rfl, rfl, rfl, rfl, rfl, rfl, rfl, rfl, rfl⟩))
      fun _ => ?_
    exact laws.bind (laws.tame (tame_modifyGet (sameFrame_settle H []))) laws.unlessPanic
  | registerType t =>
    refine laws.bind (laws.tame (tame_bindingFor H t)) fun b => ?_
    exact laws.bind (laws.tame (tame_install H t)) fun _ => laws.pure _
  | isRegistered t => exact laws.get_bind fun s => laws.pure _
  | encode s x => exact laws.tame (tame_encode H s x)
  | decode s v => exact laws.read _
  | config => exact laws.get_bind fun s => laws.pure _
  | setPolicy p =>
    exact laws.tame (tame_modify fun s => ⟨rfl, rfl, rfl, rfl, rfl, rfl, rfl, rfl, rfl⟩)
  | display v => exact laws.get_bind fun s => laws.pure _
  | listing v => exact laws.get_bind fun s => laws.pure _
  | describe => exact laws.get_bind fun s => laws.pure _
  | world => exact laws.get_bind fun s => laws.pure _
  | setWorld w =>
    exact laws.tame (tame_modify fun s => ⟨rfl, rfl, rfl, rfl, rfl, rfl, rfl, rfl, rfl⟩)
  | close => exact laws.close allowed

theorem carried_action (H : Host E) (a : Action E α) (allowed : Prog.Uses (F := Op.effect E) P a) :
    J _ (action enter H a) :=
  laws.program (carried_perform laws enters calm H) allowed

end Callee

/-- What is carried holds of the bodies of all functions, by induction on how many more calls may
nest. -/
theorem carried_enter {H : Host E} (uses : H.Uses P) (depth : Nat) (f : FunctionId) :
    I (enter H depth f) := by
  induction depth generalizing f with
  | zero => exact laws.refused
  | succ depth ih =>
    refine laws.entered f fun c => ?_
    exact composed_runEntry laws.toComposes uses _ (carried_perform laws ih (calm_enter H depth) H) c.entry

end Programs

section Callee
variable {enter : Enter E} (enters : ∀ f, Respects Guards (enter f)) (calm : Calm enter)
include enters calm

theorem upto_call {s : State E} (fits : s.Fits) (catches : s.config.catchPanics = true)
    {nargs : Int} (operands : HasOperands s nargs) (nresults : Int) :
    Upto (functionSlot s nargs) s ((call enter nargs nresults).final s) := by
  obtain ⟨above, inside⟩ := functionSlot_bounds operands
  rw [final, call_eq, callPosition_of_operands operands]
  exact upto_orTruncate catches above (upto_callAt enters fits catches above inside nresults calm)

theorem guards_call (nargs nresults : Int) : Respects Guards (call enter nargs nresults) := by
  intro s fits catches
  by_cases operands : HasOperands s nargs
  · have upto := upto_call enters calm fits catches operands nresults
    exact upto.guards (functionSlot_bounds operands).1 fits catches
  · obtain ⟨e, eq⟩ := callPosition_of_missing operands
    rw [final, call_eq, eq]
    exact Guards.refl s fits catches

theorem upto_pcall {s : State E} (fits : s.Fits) (catches : s.config.catchPanics = true)
    {nargs : Int} (operands : HasOperands s nargs) (nresults : Int) :
    Upto (functionSlot s nargs) s ((pcall enter nargs nresults).final s) := by
  obtain ⟨above, inside⟩ := functionSlot_bounds operands
  have upto := upto_callAt enters fits catches above inside nresults calm
  rw [final, pcall_of_operands enter fits operands upto]
  unfold final at upto
  cases ran : callAt enter (functionSlot s nargs) nresults s with
  | ok x t =>
    rw [ran] at upto
    exact upto
  | error f t =>
    rw [ran] at upto
    cases f with
    | panicked p => exact upto
    | raised e =>
      have room := isFull_truncate fits inside upto
      have cut := upto.cut catches above
      have pushed := upto_push cut.fits (cut.within.catches.trans catches) room (.string e.message)
      have upto' := cut.trans (pushed.lower cut.reaches)
      exact upto'.same ⟨rfl, rfl, rfl, rfl, rfl, rfl, rfl, rfl, rfl⟩

theorem guards_pcall (nargs nresults : Int) : Respects Guards (pcall enter nargs nresults) := by
  intro s fits catches
  by_cases operands : HasOperands s nargs
  · have upto := upto_pcall enters calm fits catches operands nresults
    exact upto.guards (functionSlot_bounds operands).1 fits catches
  · obtain ⟨e, eq⟩ := callPosition_of_missing operands
    rw [final, pcall_eq, eq]
    exact Guards.refl s fits catches

theorem upto_pushAll_callAt {s : State E} (fits : s.Fits) (catches : s.config.catchPanics = true)
    {func : Nat} (above : s.base ≤ func) (inside : func < s.stack.size) (args : List Value)
    (nresults : Int) :
    Upto func s ((pushAll args >>= fun _ => callAt enter func nresults).final s) := by
  have pushed := (pushes_pushAll args).upto fits catches
  unfold final at pushed ⊢
  rw [bind_eq]
  cases ran : pushAll args s with
  | ok x t =>
    rw [ran] at pushed
    have inside' : func < t.stack.size := Nat.lt_of_lt_of_le inside pushed.reaches
    have called := upto_callAt enters pushed.fits (pushed.within.catches.trans catches)
      (pushed.within.base ▸ above) inside' nresults calm
    exact (pushed.lower (Nat.le_of_lt inside)).trans called
  | error f t =>
    rw [ran] at pushed
    exact pushed.lower (Nat.le_of_lt inside)

/-- A function that is called by value lies on top of the stack as long as it runs. -/
theorem upto_placed {s : State E} (fits : s.Fits) (catches : s.config.catchPanics = true)
    (room : s.stack.isFull = false) (f : Value) (args : List Value) (nresults : Int) :
    Upto s.stack.size s ((pushAll args >>= fun _ => callAt enter s.stack.size nresults).final
      (s.mapSlots (·.push f))) := by
  have size : (s.mapSlots (·.push f)).stack.size = s.stack.size + 1 := Array.size_push f
  have above : (s.mapSlots (·.push f)).base ≤ s.stack.size := fits.framed
  have pushed := upto_push fits catches room f
  have called := upto_pushAll_callAt enters calm pushed.fits catches above (by omega) args nresults
  exact pushed.trans called

theorem guards_callValue (f : Value) (args : List Value) (nresults : Int) :
    Respects Guards (callValue enter f args nresults) := by
  intro s fits catches
  rw [final, callValue_eq]
  cases room : s.stack.isFull with
  | true => exact Guards.refl s fits catches
  | false =>
    have placed := upto_placed enters calm fits catches room f args nresults
    unfold final at placed
    simp only [Bool.false_eq_true, if_false]
    -- Unless the call panics, what is left above the place of the function goes.
    have cut : ∀ t, Upto s.stack.size s t → s.Guards (t.mapSlots (·.take s.stack.size)) :=
      fun t upto => (upto.cut catches fits.framed).guards fits.framed
    cases ran : (pushAll args >>= fun _ => callAt enter s.stack.size nresults)
        (s.mapSlots (·.push f)) with
    | ok x t =>
      rw [ran] at placed
      exact cut t placed fits catches
    | error e t =>
      rw [ran] at placed
      cases e with
      | raised e => exact cut t placed fits catches
      | panicked p => exact placed.guards fits.framed fits catches

end Callee

theorem guards_catchPanics (name : String) {body : Run E Nat} (h : Respects Guards body) :
    Respects Guards (catchPanics name body) := by
  intro s fits catches
  have step := h s fits catches
  unfold final at step ⊢
  rw [catchPanics_eq name body catches]
  cases ran : body s with
  | ok n t =>
    rw [ran] at step
    exact step
  | error f t =>
    rw [ran] at step
    cases f with
    | raised e => exact step
    | panicked p =>
      have same : t.SameFrame { t with heap := t.heap.restoreBorrows s.heap.objects } :=
        ⟨rfl, rfl, rfl, rfl, rfl, rfl, rfl, rfl, rfl⟩
      exact ⟨same.fits step.1, step.2.trans (same.within _)⟩

theorem guards_carries :
    Carries (E := E) Op.KeepsOpen (Respects Guards) fun _ => Respects Guards where
  toComposes := guards_composes
  pop := pop_guards
  drop := drop_guards
  insert := insert_guards
  replace := replace_guards
  close allowed := allowed.elim
  call := guards_call
  pcall := guards_pcall
  callValue := guards_callValue
  keeping := respects_keeping (fun _ _ _ => Guards.trans) fun s ws => (sameFrame_awaiting s ws).guards
  refused := guards_composes.raise _
  entered f _ bodies :=
    guards_composes.bind (guards_composes.tame (tame_callableOf f)) fun c =>
      guards_catchPanics c.name (bodies c)

theorem guards_enter {H : Host E} (uses : H.Uses Op.KeepsOpen) (depth : Nat) (f : FunctionId) :
    Respects Guards (enter H depth f) :=
  carried_enter guards_carries uses depth f

end Run
end HostBridge
