import HostBridge.Proofs.Run.OffFrame
import HostBridge.Proofs.Run.Bodies

namespace HostBridge

/-- Every operation but those that look past the frame, and the calls, which begin one. -/
def Op.Relative {E : Embedding} : Op E → Prop
  | .argument _ | .shareCount _ | .settle _ | .describe | .close => False
  | .call .. | .pcall .. | .callValue .. => False
  | _ => True

namespace State
variable {E : Embedding}

/-- No index tells the frame of `s` from the frame of `t`. -/
structure Resembles (s t : State E) : Prop where
  heap : s.heap = t.heap
  config : s.config = t.config
  callDepth : s.callDepth = t.callDepth
  top : s.top = t.top
  slot : ∀ index, s.slot index = t.slot index
  absolute : ∀ index, s.absolute index = t.absolute index

theorem Resembles.decodeTop {s t : State E} (same : s.Resembles t) (ss : List (Shape E.Tag)) :
    s.decodeTop ss = t.decodeTop ss := by
  induction ss with
  | nil => rfl
  | cons shape ss ih =>
    have first : ∀ i, s.decodeSlot shape i = t.decodeSlot shape i := by
      intro i
      simp only [decodeSlot, State.decode, same.slot, same.heap, same.config]
    simp only [State.decodeTop, first, ih]

end State

namespace Run
open State
variable {E : Embedding} {α β : Type}

/-- A property of runs that passes from the parts of a body to the whole of it, where the parts make
no difference between states that resemble each other. -/
structure Relative (J : (α : Type) → Run E α → Prop) : Prop where
  offFrame {α : Type} {m : Run E α} : OffFrame m → J α m
  get_bind {α : Type} {f : State E → Run E α} :
    (∀ s t : State E, s.Resembles t → f s = f t) → (∀ s, J α (f s)) → J α (get >>= f)
  resume {α β : Type} {m : Run E α} {f : α → Run E β} {g : Error → Run E β} {n : Run E β} :
    (∀ s, n s = match m s with
      | .ok a t => f a t
      | .error (.raised e) t => g e t
      | .error (.panicked p) t => .error (.panicked p) t) →
    J α m → (∀ a, J β (f a)) → (∀ e, J β (g e)) → J β n
  rethrow {α : Type} {body : Run E α} (g : Heap E → Heap E) : J α body →
    J α (tryCatch body fun f => modifyHeap g >>= fun _ => throw f)
  push (v : Value) : J Unit (push v)
  pop : J Value pop
  drop (n : Nat) : J Unit (drop n)
  setTop (index : Int) : J Unit (setTop index)
  insert (index : Int) : J Unit (insert index)
  remove (index : Int) : J Unit (remove index)
  replace (index : Int) : J Unit (replace index)

section Parts
variable {J : (α : Type) → Run E α → Prop} (laws : Relative J)
include laws

theorem Relative.bind {m : Run E α} {f : α → Run E β} (first : J α m) (rest : ∀ a, J β (f a)) :
    J β (m >>= f) := by
  refine laws.resume (g := raise) ?_ first rest fun e => laws.offFrame (offFrame_raise e)
  intro s
  rw [bind_eq]
  cases m s with
  | ok a t => rfl
  | error fault t => cases fault <;> rfl

theorem Relative.pure (a : α) : J α (pure a) := laws.offFrame (offFrame_pure a)

theorem Relative.raise (e : Error) : J α (raise e) := laws.offFrame (offFrame_raise e)

theorem Relative.ofExcept (r : Except Error α) : J α (ofExcept r) :=
  laws.offFrame (offFrame_ofExcept r)

theorem Relative.modifyHeap (g : Heap E → Heap E) : J Unit (modifyHeap g) :=
  laws.offFrame (offFrame_modifyHeap g)

theorem Relative.read {f : State E → Except Error α}
    (blind : ∀ s t : State E, s.Resembles t → f s = f t) : J α (read f) :=
  laws.get_bind (fun s t same => congrArg Run.ofExcept (blind s t same)) fun s => laws.ofExcept (f s)

theorem Relative.readHeap (f : Heap E → Except Error α) : J α (Run.read fun s => f s.heap) :=
  laws.read fun _ _ same => congrArg f same.heap

theorem Relative.answer {f : State E → α} (blind : ∀ s t : State E, s.Resembles t → f s = f t) :
    J α (get >>= fun s => Pure.pure (f s)) :=
  laws.get_bind (fun s t same => congrArg Pure.pure (blind s t same)) fun s => laws.pure (f s)

theorem Relative.program {F : Effect} {P : F.Op → Prop} {step : (o : F.Op) → Run E (F.Answer o)}
    (performs : ∀ o, P o → J _ (step o)) {p : Prog F α} (uses : p.Uses P) :
    J α (program step p) := by
  induction p with
  | done r => exact laws.ofExcept r
  | abort p => exact laws.offFrame (offFrame_throw (.panicked p))
  | perform o next ih =>
    refine laws.resume ?_ (performs o uses.1) (fun x => ih (.ok x) (uses.2 _)) fun e =>
      ih (.error e) (uses.2 _)
    intro s
    cases ran : step o s with
    | ok x t => simp only [Run.program, proceed, ran]
    | error f t => cases f <;> simp only [Run.program, proceed, ran]

theorem relative_encodeAll (H : Host E) (ss : List (Shape E.Tag)) (xs : Tuple E ss) :
    J _ (encodeAll H ss xs) := by
  induction ss with
  | nil => exact laws.pure ()
  | cons s ss ih =>
    apply laws.bind (laws.offFrame (offFrame_encode H s xs.1))
    intro v
    exact laws.bind (laws.push v) fun _ => ih xs.2

/-! The handlers of host types. -/

theorem relative_instanceAt (t : E.Tag) (binding : String) (index : Int) :
    J _ (instanceAt t binding index : Run E (Instance E t)) := by
  apply laws.get_bind
  · intro s t same
    simp only [same.slot, same.heap]
  · intro s
    apply laws.bind (laws.ofExcept _)
    intro v
    cases v with
    | userdata u =>
      simp only
      cases s.heap.refOf t u with
      | ok r => exact laws.pure (Instance.mk u r)
      | error e => exact laws.raise _
    | _ => exact laws.raise _

theorem relative_missingRead (member : String) : J _ (missingRead member : Run E Nat) := by
  apply laws.get_bind
  · intro s t same
    simp only [same.config]
  · intro s
    cases s.config.missingMember with
    | nil => exact laws.bind (laws.push .nil) fun _ => laws.pure 1
    | raise => exact laws.raise _

theorem relative_refuseWrite (e : Error) : J _ (refuseWrite e : Run E Nat) := by
  apply laws.get_bind
  · intro s t same
    simp only [same.config]
  · intro s
    cases s.config.missingMember with
    | nil => exact laws.pure 0
    | raise => exact laws.raise e

theorem relative_readMember (H : Host E) (t : E.Tag) (b : Binding E t) :
    J _ (readMember H t b) := by
  apply laws.bind (relative_instanceAt laws t b.name 1)
  intro i
  apply laws.get_bind
  · intro s t same
    simp only [same.slot, same.heap]
  · intro s
    apply laws.bind (laws.ofExcept _)
    intro key
    cases key.asString? with
    | none => exact relative_missingRead laws _
    | some name =>
      simp only
      split
      · apply laws.bind (laws.offFrame (offFrame_readField H _ _ i))
        intro v
        exact laws.bind (laws.push v) fun _ => laws.pure 1
      · split
        · apply laws.bind (laws.offFrame (offFrame_allocCallable _))
          intro f
          exact laws.bind (laws.push _) fun _ => laws.pure 1
        · exact relative_missingRead laws name

theorem relative_writeMember (t : E.Tag) (b : Binding E t) :
    J _ (writeMember t b : Run E Nat) := by
  apply laws.bind (relative_instanceAt laws t b.name 1)
  intro i
  apply laws.get_bind
  · intro s t same
    simp only [same.slot, same.heap]
  · intro s
    apply laws.bind (laws.ofExcept _)
    intro key
    apply laws.bind (laws.ofExcept _)
    intro value
    cases key.asString? with
    | none => exact relative_refuseWrite laws _
    | some name =>
      simp only
      cases b.field? name with
      | none => exact relative_refuseWrite laws _
      | some f =>
        simp only
        cases f.setter with
        | none => exact relative_refuseWrite laws _
        | some g =>
          exact laws.bind (laws.offFrame (offFrame_writeField f g i value)) fun _ => laws.pure 0

theorem relative_rightOperand {t : E.Tag} (b : Binding E t) (e : Event) (left : Instance E t) :
    J _ (rightOperand b e left) := by
  unfold rightOperand
  split
  · exact laws.pure left
  · exact relative_instanceAt laws t b.name 2

theorem relative_dropReceiver {t : E.Tag} (m : Method E t) (u : UserdataId) :
    J _ (dropReceiver m u) := by
  apply laws.get_bind
  · intro s t same
    simp only [same.top, same.slot]
  · intro s
    by_cases receiver : mayHoldReceiver m s.top = true
    · simp only [if_pos receiver]
      apply laws.bind (laws.ofExcept _)
      intro v
      split
      · exact laws.remove 1
      · exact laws.pure ()
    · simp only [if_neg receiver]
      exact laws.pure ()

theorem relative_borrowing {t : E.Tag} (r : HostRef E t) (a : Access) {body : Run E α}
    (h : J _ body) : J _ (borrowing r a body) := by
  apply laws.bind (laws.readHeap (·.admits r a))
  intro _
  apply laws.bind (laws.modifyHeap _)
  intro _
  apply laws.rethrow
  apply laws.bind h
  intro x
  exact laws.bind (laws.modifyHeap _) fun _ => laws.pure x

section Bodies
variable {P : Op E → Prop} {H : Host E} (uses : H.Uses P) (go : Runner E)
  (runs : ∀ o, P o → J _ (go o))
include runs

theorem relative_act {a : Action E α} (allowed : Prog.Uses (F := Op.effect E) P a) :
    J α (act go a) :=
  laws.program runs allowed

theorem relative_runOperator {t : E.Tag} {result : Shape E.Tag} (left right : Instance E t)
    (body : OperatorBody E t result) (allowed : body.Uses P) :
    J _ (runOperator go left right body) := by
  cases body with
  | binary f =>
    apply relative_borrowing laws left.ref .shared
    apply relative_borrowing laws right.ref .shared
    apply laws.bind (laws.readHeap (·.payload left.ref))
    intro x
    apply laws.bind (laws.readHeap (·.payload right.ref))
    intro y
    exact laws.bind (laws.offFrame (offFrame_noteRun _)) fun _ => relative_act laws go runs (allowed x y)
  | unary f =>
    apply relative_borrowing laws left.ref .shared
    apply laws.bind (laws.readHeap (·.payload left.ref))
    intro x
    exact laws.bind (laws.offFrame (offFrame_noteRun _)) fun _ => relative_act laws go runs (allowed x)

theorem relative_instanceStep {t : E.Tag} (r : HostRef E t) (o : InstanceOp E t)
    (allowed : o.Satisfies P) : J _ (instanceStep go r o) := by
  cases o with
  | act o => exact runs o allowed
  | get => exact laws.readHeap (·.payload r)
  | set x => exact laws.modifyHeap (·.setPayload r x)

theorem relative_mutate {t : E.Tag} (i : Instance E t) {body : Mutation E t α}
    (allowed : Prog.Uses (F := Mutation.effect E t) (InstanceOp.Satisfies P) body) :
    J _ (mutate go i body) :=
  laws.bind (laws.offFrame (offFrame_noteRun _)) fun _ =>
    laws.program (relative_instanceStep laws go runs i.ref) allowed

theorem relative_runBody {t : E.Tag} {params results : List (Shape E.Tag)} (i : Instance E t)
    (xs : Tuple E params) (body : MethodBody E t params results) (allowed : body.Uses P) :
    J _ (runBody go i xs body) := by
  cases body with
  | receiver f =>
    apply relative_borrowing laws i.ref .shared
    apply laws.bind (laws.readHeap (·.payload i.ref))
    intro x
    exact laws.bind (laws.offFrame (offFrame_noteRun _)) fun _ => relative_act laws go runs (allowed x xs)
  | mutReceiver f =>
    apply relative_borrowing laws i.ref .exclusive
    exact relative_mutate laws go runs i (allowed xs)
  | function f =>
    exact laws.bind (laws.offFrame (offFrame_noteRun _)) fun _ => relative_act laws go runs (allowed xs)

theorem relative_runMethod (H : Host E) {t : E.Tag} (m : Method E t) (allowed : m.body.Uses P)
    (i : Instance E t) : J _ (runMethod go H m i) := by
  apply laws.bind (laws.setTop _)
  intro _
  apply laws.bind (laws.read fun _ _ same => same.decodeTop _)
  intro xs
  apply laws.bind (relative_runBody laws go runs i xs m.body allowed)
  intro results
  exact laws.bind (relative_encodeAll laws H _ results) fun _ => laws.pure _

include uses

theorem relative_operate {t : E.Tag} {b : Binding E t} (found : H.binding t = .ok b) (e : Event) :
    J _ (operate go H t b e) := by
  unfold operate
  cases declared : b.operator? e with
  | none => exact laws.raise _
  | some o =>
    have allowed := uses.operator t b found o (List.mem_of_find?_eq_some declared)
    apply laws.bind (relative_instanceAt laws t b.name 1)
    intro left
    apply laws.bind (relative_rightOperand laws b e left)
    intro right
    apply laws.bind (relative_runOperator laws go runs left right o.body allowed)
    intro x
    apply laws.bind (laws.offFrame (offFrame_encode H o.result x))
    intro v
    exact laws.bind (laws.push v) fun _ => laws.pure 1

theorem relative_handle (t : E.Tag) (e : Event) : J _ (handle go H t e) := by
  unfold handle
  cases found : H.binding t with
  | error fault => exact laws.raise fault
  | ok b =>
    rw [ofExcept_ok, pure_bind]
    cases e with
    | index => exact relative_readMember laws H t b
    | newIndex => exact relative_writeMember laws t b
    | _ => exact relative_operate laws uses go runs found _

theorem relative_callMethod (t : E.Tag) (index : Nat) (u : UserdataId) :
    J _ (callMethod go H t index u) := by
  unfold callMethod
  cases found : H.binding t with
  | error fault => exact laws.raise fault
  | ok b =>
    rw [ofExcept_ok, pure_bind]
    cases declared : b.methods[index]? with
    | none => exact laws.raise _
    | some m =>
      have allowed := uses.method t b found m (List.mem_of_getElem? declared)
      apply laws.bind (relative_dropReceiver laws m u)
      intro _
      apply laws.bind (laws.readHeap (·.refOf t u))
      intro r
      exact relative_runMethod laws go runs H m allowed ⟨u, r⟩

theorem relative_runClosure (code : E.Closure) : J _ (runClosure go H code) := by
  apply laws.bind (laws.setTop _)
  intro _
  apply laws.bind (laws.read fun _ _ same => same.decodeTop _)
  intro xs
  apply laws.bind (relative_act laws go runs (uses.closure code xs))
  intro results
  exact laws.bind (relative_encodeAll laws H _ results) fun _ => laws.pure _

theorem relative_runEntry (entry : Entry E) : J _ (runEntry go H entry) := by
  cases entry with
  | native code => exact relative_act laws go runs (uses.native code)
  | closure code => exact relative_runClosure laws uses go runs code
  | hook t e => exact relative_handle laws uses go runs t e
  | method t i u => exact relative_callMethod laws uses go runs t i u
  | foreign expected => exact laws.raise _

end Bodies

/-! Actions. -/

theorem relative_perform (enter : Enter E) (H : Host E) {o : Op E} (relative : o.Relative) :
    J _ (perform enter H o) := by
  cases o with
  | top => exact laws.answer fun _ _ same => same.top
  | slot i => exact laws.read fun _ _ same => same.slot i
  | absolute i => exact laws.read fun _ _ same => same.absolute i
  | callDepth => exact laws.answer fun _ _ same => same.callDepth
  | setTop i => exact laws.setTop i
  | push v => exact laws.push v
  | pop => exact laws.pop
  | drop n => exact laws.drop n
  | insert i => exact laws.insert i
  | remove i => exact laws.remove i
  | replace i => exact laws.replace i
  | newTable => exact laws.offFrame (offFrame_allocTable _)
  | table t => exact laws.offFrame (offFrame_table t)
  | setRaw t k v => exact laws.offFrame (offFrame_setRaw t k v)
  | assignMetatable v m => exact laws.offFrame (offFrame_assignMetatable v m)
  | newNative name code => exact laws.offFrame (offFrame_newCallable ⟨name, .native code⟩)
  | newClosure name code => exact laws.offFrame (offFrame_newCallable ⟨name, .closure code⟩)
  | newForeign name expected =>
    exact laws.offFrame (offFrame_newCallable ⟨name, .foreign expected⟩)
  | functionName f =>
    exact laws.offFrame (offFrame_bind (offFrame_callableOf f) fun c => offFrame_pure _)
  | signature f =>
    exact laws.offFrame (offFrame_bind (offFrame_callableOf f) fun c => offFrame_pure _)
  | metatable | globals | registry | thunkCount | isRegistered | config | display | listing | world
  | takeError =>
    exact laws.offFrame fun _ _ => rfl
  | newObject t x => exact laws.offFrame (offFrame_allocObject t x)
  | reflect t r => exact laws.offFrame (offFrame_reflect H t r)
  | carry t r => exact laws.offFrame (offFrame_carry t r)
  | tagOf u => exact laws.offFrame (offFrame_tagOf u)
  | read t r =>
    exact laws.bind (laws.readHeap (·.admits r .shared)) fun _ => laws.readHeap (·.payload r)
  | write t r x =>
    exact laws.bind (laws.readHeap (·.admits r .exclusive)) fun _ => laws.modifyHeap _
  | acquire t r a => exact laws.bind (laws.readHeap (·.admits r a)) fun _ => laws.modifyHeap _
  | release t r a => exact laws.modifyHeap (·.modifyBorrow r.object (·.drop a))
  | registerType t =>
    refine laws.offFrame (offFrame_bind (offFrame_bindingFor H t) fun b => ?_)
    exact offFrame_bind (offFrame_install H t) fun _ => offFrame_pure b
  | encode s x => exact laws.offFrame (offFrame_encode H s x)
  | decode s v => exact laws.read fun _ _ same => by simp only [State.decode, same.heap, same.config]
  | setPolicy p => exact laws.offFrame (offFrame_modify fun _ _ => rfl)
  | setWorld w => exact laws.offFrame (offFrame_modify fun _ _ => rfl)
  | argument | shareCount | settle | describe | close | call | pcall | callValue =>
    exact relative.elim

theorem relative_action {P : Op E → Prop} {enter : Enter E} {H : Host E}
    (performs : ∀ o, P o → J _ (perform enter H o)) (a : Action E α)
    (allowed : Prog.Uses (F := Op.effect E) P a) : J α (action enter H a) :=
  laws.program performs allowed

end Parts

end Run
end HostBridge
