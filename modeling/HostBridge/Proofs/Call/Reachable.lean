import HostBridge.Proofs.Run.Operations
import HostBridge.Proofs.Call.Actions
/-!
Every run is a sequence of steps, whatever the host supplies and however the run ends. So every
state that a run passes through is sound.

Code of a host type runs on instances that were checked before. From the check on their tags stay
what they are, so what follows it is a sequence of steps too.
-/
namespace HostBridge
namespace State
variable {E : Embedding}

/-- A sequence of steps, if `us` are instances of `t` before them. -/
def EvolvesOf (H : Host E) (t : E.Tag) (us : List UserdataId) (s s' : State E) : Prop :=
  s.Tagged t us → s.Evolves H s'

theorem EvolvesOf.trans {H : Host E} {t : E.Tag} {us : List UserdataId} {s s' s'' : State E}
    (first : s.EvolvesOf H t us s') (second : s'.EvolvesOf H t us s'') : s.EvolvesOf H t us s'' := by
  intro tagged
  have evolves := first tagged
  exact evolves.trans (second (evolves.tagged tagged))

variable {H : Host E}

theorem evolves_release (s : State E) (e : Entity) : s.Evolves H (s.release H e) := by
  rw [release_eq]
  have world : s.Evolves H { s with world := s.worldWithout H e } :=
    Change.Aside.evolves ⟨.world _, rfl, rfl, rfl⟩
  have finalized : Evolves H { s with world := s.worldWithout H e }
      { s with world := s.worldWithout H e, finalized := s.finalizedWithout H e } :=
    Change.Aside.evolves ⟨.finalized _, rfl, rfl, rfl⟩
  exact (world.trans finalized).trans (Change.Aside.evolves ⟨.release e, rfl, rfl, rfl⟩)

theorem evolves_releaseAll (fuel : Nat) (s : State E) (refs : References) (es : List Entity) :
    s.Evolves H (s.releaseAll H refs fuel es) := by
  induction fuel generalizing s refs es with
  | zero => exact .refl s
  | succ fuel ih =>
    cases es with
    | nil => exact .refl s
    | cons e es =>
      unfold releaseAll
      split
      · exact (evolves_release s e).trans (ih _ _ _)
      · exact ih s refs es

theorem evolves_settle (before : List Value) (s : State E) :
    s.Evolves H (s.settle H before) := by
  have settling : s.Evolves H s.settling := Change.Aside.evolves ⟨.settling, rfl, rfl, rfl⟩
  unfold settle
  split
  · exact settling
  · exact settling.trans (evolves_releaseAll _ _ _ _)

end State

namespace Run
open State
variable {E : Embedding} {H : Host E} {α β : Type} {t : E.Tag} {us : List UserdataId}

theorem Respects.given {m : Run E α} (h : Respects (Evolves H) m) :
    Respects (EvolvesOf H t us) m := fun s _ => h s

theorem evolvesOf_bind {m : Run E α} {f : α → Run E β} (first : Respects (EvolvesOf H t us) m)
    (rest : ∀ a, Respects (EvolvesOf H t us) (f a)) : Respects (EvolvesOf H t us) (m >>= f) :=
  respects_bind (R := EvolvesOf H t us) (fun _ _ _ => EvolvesOf.trans) first rest

theorem evolvesOf_tryCatch {m : Run E α} {f : Fault → Run E α}
    (body : Respects (EvolvesOf H t us) m) (handler : ∀ e, Respects (EvolvesOf H t us) (f e)) :
    Respects (EvolvesOf H t us) (tryCatch m f) :=
  respects_tryCatch (R := EvolvesOf H t us) (fun _ _ _ => EvolvesOf.trans) body handler

theorem evolvesOf_get_bind {f : State E → Run E α}
    (rest : ∀ s, Respects (EvolvesOf H t us) (f s)) : Respects (EvolvesOf H t us) (get >>= f) :=
  respects_get_bind fun s => rest s s

theorem evolvesOf_noteRun {m : Run E α} {code : MemberCode} (operands : us.length = code.operands)
    (h : Respects (EvolvesOf H t us) m) :
    Respects (EvolvesOf H t us) (noteRun ⟨t, code, us⟩ >>= fun _ => m) :=
  evolvesOf_bind (fun _ tagged => Change.Aside.evolves
    ⟨.memberRun ⟨t, code, us⟩ operands tagged, rfl, rfl, rfl⟩) fun _ => h

theorem evolvesOf_borrowing (r : HostRef E t) (a : Access) {body : Run E α}
    (h : Respects (EvolvesOf H t us) body) : Respects (EvolvesOf H t us) (borrowing r a body) := by
  refine evolvesOf_bind (evolves_read _).given fun _ => ?_
  refine evolvesOf_bind (evolves_modifyBorrow _ _).given fun _ => ?_
  refine evolvesOf_tryCatch ?_ fun f => ?_
  · refine evolvesOf_bind h fun x => ?_
    exact evolvesOf_bind (evolves_modifyBorrow _ _).given fun _ => (evolves_pure x).given
  · exact evolvesOf_bind (evolves_modifyBorrow _ _).given fun _ => (evolves_throw f).given

theorem instanceAt_eq (t : E.Tag) (binding : String) (index : Int) (s : State E) :
    instanceAt t binding index s = match s.slot index with
      | .error e => .error (.raised e) s
      | .ok (.userdata u) => match s.heap.refOf t u with
        | .ok r => .ok ⟨u, r⟩ s
        | .error _ => .error (.raised (.userdataTypeMismatch binding (s.heap.typeName u))) s
      | .ok v => .error (.raised (.userdataTypeMismatch binding v.kind.name)) s := by
  rw [instanceAt, bind_eq, get_eq]
  simp only [bind_eq]
  cases s.slot index with
  | error e => rfl
  | ok v =>
    rw [ofExcept_ok]
    cases v with
    | userdata u =>
      simp only [pure_eq]
      cases s.heap.refOf t u <;> rfl
    | _ => rfl

theorem instanceAt_ok {binding : String} {index : Int} {s s' : State E} {i : Instance E t}
    (ran : instanceAt t binding index s = .ok i s') : s' = s ∧ s.Tagged t [i.userdata] := by
  rw [instanceAt_eq] at ran
  cases held : s.slot index with
  | error e =>
    rw [held] at ran
    cases ran
  | ok v =>
    rw [held] at ran
    cases v with
    | userdata u =>
      simp only at ran
      cases found : s.heap.refOf t u with
      | ok r =>
        rw [found] at ran
        cases ran
        refine ⟨rfl, fun w listed => ?_⟩
        rw [List.mem_singleton.mp listed]
        exact Heap.refOf_ok found
      | error e =>
        rw [found] at ran
        cases ran
    | _ => cases ran

theorem evolves_instanceAt (binding : String) (index : Int) :
    Respects (Evolves H) (instanceAt t binding index) := by
  refine evolves_get_bind fun s => evolves_bind (evolves_ofExcept _) fun v => ?_
  cases v with
  | userdata u =>
    simp only
    cases s.heap.refOf t u with
    | ok r => exact evolves_pure _
    | error e => exact evolves_raise _
  | _ => exact evolves_raise _

theorem evolves_instanceAt_bind {binding : String} {index : Int} {f : Instance E t → Run E β}
    (rest : ∀ i, Respects (EvolvesOf H t [i.userdata]) (f i)) :
    Respects (Evolves H) (instanceAt t binding index >>= f) := by
  refine evolves_bind_of_ok (evolves_instanceAt binding index) fun s i s' ran => ?_
  obtain ⟨rfl, tagged⟩ := instanceAt_ok ran
  exact rest i _ tagged

theorem evolvesOf_readField (f : Field E t) (g : Getter E t f.shape)
    (i : Instance E t) : Respects (EvolvesOf H t [i.userdata]) (readField H f g i) := by
  refine evolvesOf_bind (evolvesOf_borrowing i.ref .shared ?_)
    fun x => (evolves_encode f.shape x).given
  refine evolvesOf_bind (evolves_read _).given fun p => ?_
  exact evolvesOf_noteRun rfl (evolves_unlessPanic (g p)).given

theorem evolvesOf_writeField (f : Field E t)
    (g : Setter E t f.shape) (i : Instance E t) (v : Value) :
    Respects (EvolvesOf H t [i.userdata]) (writeField f g i v) := by
  refine evolvesOf_bind (evolves_read _).given fun x => evolvesOf_borrowing i.ref .exclusive ?_
  refine evolvesOf_bind (evolves_read _).given fun p => ?_
  refine evolvesOf_noteRun rfl (evolves_bind (evolves_setPayload _ _) fun _ => ?_).given
  exact evolves_unlessPanic _

theorem evolves_missingRead (member : String) :
    Respects (Evolves H) (missingRead member : Run E Nat) := by
  refine evolves_get_bind fun s => ?_
  cases s.config.missingMember with
  | nil => exact evolves_bind (evolves_push .nil) fun _ => evolves_pure 1
  | raise => exact evolves_raise _

theorem evolves_refuseWrite (e : Error) : Respects (Evolves H) (refuseWrite e : Run E Nat) := by
  refine evolves_get_bind fun s => ?_
  cases s.config.missingMember with
  | nil => exact evolves_pure 0
  | raise => exact evolves_raise e

theorem evolves_readMember (b : Binding E t) : Respects (Evolves H) (readMember H t b) := by
  refine evolves_instanceAt_bind fun i => evolvesOf_get_bind fun s => ?_
  refine evolvesOf_bind (evolves_ofExcept _).given fun key => ?_
  cases key.asString? with
  | none => exact (evolves_missingRead _).given
  | some name =>
    simp only
    split
    · refine evolvesOf_bind (evolvesOf_readField _ _ i) fun v => ?_
      exact (evolves_bind (evolves_push v) fun _ => evolves_pure 1).given
    · split
      · refine evolvesOf_bind (fun s tagged => evolves_allocCallable tagged) fun f => ?_
        exact (evolves_bind (evolves_push _) fun _ => evolves_pure 1).given
      · exact (evolves_missingRead name).given

theorem evolves_writeMember (b : Binding E t) :
    Respects (Evolves H) (writeMember t b : Run E Nat) := by
  refine evolves_instanceAt_bind fun i => evolvesOf_get_bind fun s => ?_
  refine evolvesOf_bind (evolves_ofExcept _).given fun key => ?_
  refine evolvesOf_bind (evolves_ofExcept _).given fun value => ?_
  cases key.asString? with
  | none => exact (evolves_refuseWrite _).given
  | some name =>
    simp only
    cases b.field? name with
    | none => exact (evolves_refuseWrite _).given
    | some f =>
      simp only
      cases f.setter with
      | none => exact (evolves_refuseWrite _).given
      | some g =>
        exact evolvesOf_bind (evolvesOf_writeField f g i value) fun _ => (evolves_pure 0).given

theorem evolves_dropReceiver (m : Method E t) (u : UserdataId) :
    Respects (Evolves H) (dropReceiver m u) := by
  refine evolves_get_bind fun s => ?_
  split
  · refine evolves_bind (evolves_ofExcept _) fun v => ?_
    split
    · exact evolves_framewise.remove 1
    · exact evolves_pure ()
  · exact evolves_pure ()

theorem evolvesOf_rightOperand_bind {b : Binding E t} {e : Event} {left : Instance E t}
    {f : Instance E t → Run E β}
    (rest : ∀ right, Respects (EvolvesOf H t [left.userdata, right.userdata]) (f right)) :
    Respects (EvolvesOf H t [left.userdata]) (rightOperand b e left >>= f) := by
  unfold rightOperand
  split
  · rw [pure_bind]
    intro s tagged
    exact rest left s (List.forall_mem_cons.mpr ⟨tagged _ List.mem_cons_self, tagged⟩)
  · refine respects_bind_of_ok (R := EvolvesOf H t _) (fun _ _ _ => EvolvesOf.trans)
      (evolves_instanceAt b.name 2).given fun s right s' ran tagged => ?_
    obtain ⟨rfl, tagged'⟩ := instanceAt_ok ran
    exact rest right _ (List.forall_mem_cons.mpr ⟨tagged _ List.mem_cons_self, tagged'⟩)

section Bodies
variable (go : Runner E) (runs : ∀ o, Respects (Evolves H) (go o))
include runs

theorem evolves_act (a : Action E α) : Respects (Evolves H) (act go a) := evolves_program runs a

theorem evolvesOf_runOperator {result : Shape E.Tag} (left right : Instance E t)
    (body : OperatorBody E t result) :
    Respects (EvolvesOf H t [left.userdata, right.userdata]) (runOperator go left right body) := by
  cases body with
  | binary f =>
    refine evolvesOf_borrowing left.ref .shared (evolvesOf_borrowing right.ref .shared ?_)
    refine evolvesOf_bind (evolves_read _).given fun x => ?_
    refine evolvesOf_bind (evolves_read _).given fun y => ?_
    exact evolvesOf_noteRun rfl (evolves_act go runs _).given
  | unary f =>
    refine evolvesOf_borrowing left.ref .shared ?_
    refine evolvesOf_bind (evolves_read _).given fun x => fun s tagged => ?_
    have left_tagged : s.Tagged t [left.userdata] := fun u listed =>
      tagged u (List.mem_cons.mpr (.inl (List.mem_singleton.mp listed)))
    exact evolvesOf_noteRun rfl (evolves_act go runs (f x)).given s left_tagged

theorem evolves_operate (b : Binding E t) (e : Event) :
    Respects (Evolves H) (operate go H t b e) := by
  unfold operate
  cases b.operator? e with
  | none => exact evolves_raise _
  | some o =>
    refine evolves_instanceAt_bind fun left => evolvesOf_rightOperand_bind fun right => ?_
    refine evolvesOf_bind (evolvesOf_runOperator go runs left right o.body) fun x => ?_
    refine (evolves_bind (evolves_encode o.result x) fun v => ?_).given
    exact evolves_bind (evolves_push v) fun _ => evolves_pure 1

theorem evolves_handle (t : E.Tag) (e : Event) : Respects (Evolves H) (handle go H t e) := by
  refine evolves_bind (evolves_ofExcept _) fun b => ?_
  cases e with
  | index => exact evolves_readMember b
  | newIndex => exact evolves_writeMember b
  | _ => exact evolves_operate go runs b _

theorem evolves_instanceStep (r : HostRef E t) (o : InstanceOp E t) :
    Respects (Evolves H) (instanceStep go r o) := by
  cases o with
  | act o => exact runs o
  | get => exact evolves_read _
  | set x => exact evolves_setPayload r x

theorem evolvesOf_mutate (i : Instance E t) (body : Mutation E t α) :
    Respects (EvolvesOf H t [i.userdata]) (mutate go i body) :=
  evolvesOf_noteRun rfl (evolves_program (evolves_instanceStep go runs i.ref) body).given

theorem evolvesOf_runBody {params results : List (Shape E.Tag)} (i : Instance E t)
    (xs : Tuple E params) (body : MethodBody E t params results) :
    Respects (EvolvesOf H t [i.userdata]) (runBody go i xs body) := by
  cases body with
  | receiver f =>
    refine evolvesOf_borrowing i.ref .shared (evolvesOf_bind (evolves_read _).given fun x => ?_)
    exact evolvesOf_noteRun rfl (evolves_act go runs _).given
  | mutReceiver f => exact evolvesOf_borrowing i.ref .exclusive (evolvesOf_mutate go runs i _)
  | function f => exact evolvesOf_noteRun rfl (evolves_act go runs _).given

theorem evolvesOf_runMethod (m : Method E t) (i : Instance E t) :
    Respects (EvolvesOf H t [i.userdata]) (runMethod go H m i) := by
  refine evolvesOf_bind (evolves_setTop _).given fun _ => ?_
  refine evolvesOf_bind (evolves_read _).given fun xs => ?_
  refine evolvesOf_bind (evolvesOf_runBody go runs i xs m.body) fun results => ?_
  exact (evolves_bind (evolves_encodeAll _ results) fun _ => evolves_pure _).given

theorem evolves_callMethod (t : E.Tag) (index : Nat) (u : UserdataId) :
    Respects (Evolves H) (callMethod go H t index u) := by
  refine evolves_bind (evolves_ofExcept _) fun b => ?_
  cases b.methods[index]? with
  | none => exact evolves_raise _
  | some m =>
    refine evolves_bind (evolves_dropReceiver m u) fun _ => ?_
    refine evolves_bind_of_ok (evolves_read _) fun s r s' ran => ?_
    obtain ⟨found, rfl⟩ := read_ok ran
    refine evolvesOf_runMethod go runs m ⟨u, r⟩ _ fun w listed => ?_
    rw [List.mem_singleton.mp listed]
    exact Heap.refOf_ok found

theorem evolves_runClosure (code : E.Closure) : Respects (Evolves H) (runClosure go H code) := by
  refine evolves_bind (evolves_setTop _) fun _ => ?_
  refine evolves_bind (evolves_read _) fun xs => ?_
  refine evolves_bind (evolves_act go runs _) fun results => ?_
  exact evolves_bind (evolves_encodeAll _ results) fun _ => evolves_pure _

theorem evolves_runEntry (entry : Entry E) : Respects (Evolves H) (runEntry go H entry) := by
  cases entry with
  | native code => exact evolves_act go runs _
  | closure code => exact evolves_runClosure go runs code
  | hook t e => exact evolves_handle go runs t e
  | method t i u => exact evolves_callMethod go runs t i u
  | foreign expected => exact evolves_raise _

end Bodies

theorem evolves_inFrame (frame : Nat) {body : Run E α} (h : Respects (Evolves H) body) :
    Respects (Evolves H) (inFrame frame body) := by
  refine evolves_get_bind fun s => ?_
  refine evolves_bind (evolves_modify fun _ => ⟨.descend frame, rfl, rfl, rfl⟩) fun _ => ?_
  refine evolves_tryCatch ?_ fun f => ?_
  · refine evolves_bind h fun x => ?_
    exact evolves_bind (evolves_modify fun _ => ⟨.ascend _, rfl, rfl, rfl⟩) fun _ => evolves_pure x
  · cases f with
    | raised e =>
      refine evolves_bind (evolves_modify fun _ => ⟨.ascend _, rfl, rfl, rfl⟩) fun _ => ?_
      exact evolves_raise e
    | panicked p => exact evolves_throw _

theorem evolves_deliver (f : FunctionId) (func returned : Nat) (nresults : Int) :
    Respects (Evolves H) (deliver f func returned nresults : Run E Unit) := by
  refine evolves_get_bind fun s => ?_
  simp only
  split
  · refine evolves_bind (evolves_modify fun _ => ⟨.overreport, rfl, rfl, rfl⟩) fun _ => ?_
    exact evolves_bind (evolves_throw _) fun _ =>
      evolves_bind (evolves_truncate func) fun _ => evolves_pushAll _
  · exact evolves_bind (evolves_truncate func) fun _ => evolves_pushAll _

theorem evolves_callPosition (nargs : Int) :
    Respects (Evolves H) (callPosition nargs : Run E Nat) :=
  evolves_check (evolves_get_bind fun _ => evolves_check (evolves_pure _))

theorem evolves_orTruncate (func : Nat) {body : Run E α} (h : Respects (Evolves H) body) :
    Respects (Evolves H) (orTruncate func body) := by
  refine evolves_tryCatch h fun f => ?_
  cases f with
  | raised e => exact evolves_bind (evolves_truncate func) fun _ => evolves_raise e
  | panicked p => exact evolves_throw _

section Callee
variable {enter : Enter E} (enters : ∀ f, Respects (Evolves H) (enter f))
include enters

theorem evolves_callAt (func : Nat) (nresults : Int) :
    Respects (Evolves H) (callAt enter func nresults) := by
  refine evolves_bind (evolves_framewise.callee func) fun f => ?_
  refine evolves_get_bind fun s => evolves_check ?_
  refine evolves_bind (evolves_inFrame (func + 1) (enters f)) fun returned => ?_
  exact evolves_deliver f func returned nresults

theorem evolves_call (nargs nresults : Int) : Respects (Evolves H) (call enter nargs nresults) :=
  evolves_bind (evolves_callPosition nargs) fun func =>
    evolves_orTruncate func (evolves_callAt enters func nresults)

theorem evolves_pcall (nargs nresults : Int) :
    Respects (Evolves H) (pcall enter nargs nresults) := by
  refine evolves_bind (evolves_callPosition nargs) fun func => ?_
  refine evolves_bind (evolves_tryCatch ?_ fun f => ?_) fun r => ?_
  · exact evolves_bind (evolves_callAt enters func nresults) fun _ => evolves_pure _
  · cases f with
    | raised e =>
      refine evolves_bind (evolves_truncate func) fun _ => evolves_bind (evolves_push _) fun _ => ?_
      refine evolves_bind (evolves_modify fun _ => ⟨.lastError _, rfl, rfl, rfl⟩) fun _ => ?_
      exact evolves_pure _
    | panicked p => exact evolves_bind (evolves_throw _) fun _ => evolves_pure _
  · cases r <;> exact evolves_pure _

theorem evolves_callValue (f : Value) (args : List Value) (nresults : Int) :
    Respects (Evolves H) (callValue enter f args nresults) := by
  refine evolves_get_bind fun s => evolves_bind (evolves_push f) fun _ => ?_
  refine evolves_bind (evolves_orTruncate _ ?_) fun _ => ?_
  · exact evolves_bind (evolves_pushAll args) fun _ => evolves_callAt enters _ nresults
  · refine evolves_get_bind fun s => ?_
    exact evolves_bind (evolves_truncate _) fun _ => evolves_pure _

theorem evolves_perform (o : Op E) : Respects (Evolves H) (perform enter H o) := by
  cases o with
  | setTop i => exact evolves_setTop i
  | push v => exact evolves_push v
  | pop => exact evolves_framewise.pop
  | drop n => exact evolves_framewise.drop n
  | insert i => exact evolves_framewise.insert i
  | remove i => exact evolves_framewise.remove i
  | replace i => exact evolves_framewise.replace i
  | newTable => exact evolves_allocTable .empty
  | setRaw t k v => exact evolves_setRaw t k v
  | assignMetatable v m => exact evolves_assignMetatable v m
  | newNative name code => exact evolves_newCallable (c := ⟨name, .native code⟩) fun _ => trivial
  | newClosure name code => exact evolves_newCallable (c := ⟨name, .closure code⟩) fun _ => trivial
  | newForeign name expected =>
    exact evolves_newCallable (c := ⟨name, .foreign expected⟩) fun _ => trivial
  | functionName f => exact evolves_bind (evolves_callableOf f) fun c => evolves_pure _
  | signature f => exact evolves_bind (evolves_callableOf f) fun c => evolves_pure _
  | call n r => exact evolves_call enters n r
  | pcall n r => exact evolves_pcall enters n r
  | callValue f args r waiting =>
    exact evolves_keeping waiting (evolves_callValue enters f args r)
  | takeError => exact evolves_modifyGet fun _ => ⟨.lastError none, rfl, rfl, rfl⟩
  | newObject t x => exact evolves_allocObject t x
  | reflect t r => exact evolves_reflect t r
  | carry t r => exact evolves_carry t r
  | tagOf u => exact evolves_tagOf u
  | read t r => exact evolves_bind (evolves_read _) fun _ => evolves_read _
  | write t r x => exact evolves_bind (evolves_read _) fun _ => evolves_setPayload r x
  | acquire t r a => exact evolves_bind (evolves_read _) fun _ => evolves_modifyBorrow _ _
  | release t r a => exact evolves_modifyBorrow _ _
  | settle vars =>
    refine evolves_bind (evolves_modify fun s => ⟨.assign vars, rfl, rfl, rfl⟩) fun _ => ?_
    refine evolves_bind (respects_modifyGet fun s => evolves_settle [] s) fun r => ?_
    exact evolves_unlessPanic r
  | registerType t =>
    refine evolves_bind (evolves_bindingFor t) fun b => ?_
    exact evolves_bind (evolves_install t) fun _ => evolves_pure _
  | encode s x => exact evolves_encode s x
  | setPolicy p => exact evolves_modify fun _ => ⟨.policy p, rfl, rfl, rfl⟩
  | setWorld w => exact evolves_modify fun _ => ⟨.world w, rfl, rfl, rfl⟩
  | close => exact respects_modify fun _ => Advance.close.evolves
  | slot i => exact evolves_read _
  | absolute i => exact evolves_read _
  | decode s v => exact evolves_read _
  | _ => exact evolves_get_bind fun _ => evolves_pure _

theorem evolves_action (a : Action E α) : Respects (Evolves H) (action enter H a) :=
  evolves_program (evolves_perform enters) a

end Callee

theorem evolves_catchPanics (name : String) {body : Run E Nat} (h : Respects (Evolves H) body) :
    Respects (Evolves H) (catchPanics name body) := by
  intro s
  have step := h s
  unfold final catchPanics at *
  cases s.config.catchPanics with
  | false => exact step
  | true =>
    cases ran : body s with
    | ok n t =>
      rw [ran] at step
      exact step
    | error f t =>
      rw [ran] at step
      cases f with
      | raised e => exact step
      | panicked p => exact step.trans (Change.Aside.evolves ⟨.unborrow _, rfl, rfl, rfl⟩)

theorem evolves_enter (depth : Nat) (f : FunctionId) : Respects (Evolves H) (enter H depth f) := by
  induction depth generalizing f with
  | zero => exact evolves_raise _
  | succ depth ih =>
    refine evolves_bind (evolves_callableOf f) fun c => evolves_catchPanics c.name ?_
    exact evolves_runEntry _ (evolves_perform ih) c.entry

theorem evolves_runAction (a : Action E α) : Respects (Evolves H) (runAction H a) := fun s =>
  evolves_action (evolves_enter s.depthLeft) a s

theorem changes_runAction (a : Action E α) : Respects (Changes H) (runAction H a) :=
  (evolves_runAction a).mono fun _ _ => Evolves.changes

end Run

namespace State
variable {E : Embedding} {H : Host E} {α : Type}

theorem changes_settle (before : List Value) (s : State E) : s.Changes H (s.settle H before) :=
  (evolves_settle before s).changes

theorem evolves_exec (a : Action E α) : Run.Respects (Evolves H) (exec H a) := fun s => by
  rw [Run.exec_final]
  exact (Run.evolves_runAction a s).trans (evolves_settle _ _)

/-- The states that a run can pass through, at its end or on the way. -/
def Reachable (H : Host E) (s : State E) : Prop :=
  ∃ config world, (State.new config world).Changes H s

theorem Reachable.new (H : Host E) (config : Config) (world : E.World) :
    (State.new config world).Reachable H :=
  ⟨config, world, .refl _⟩

theorem Reachable.changes {s t : State E} (reachable : s.Reachable H) (changes : s.Changes H t) :
    t.Reachable H := by
  obtain ⟨config, world, before⟩ := reachable
  exact ⟨config, world, before.trans changes⟩

theorem Reachable.exec {s : State E} (reachable : s.Reachable H) (a : Action E α) :
    ((State.exec H a).final s).Reachable H :=
  reachable.changes (evolves_exec a s).changes

theorem Reachable.recorded {s : State E} (reachable : s.Reachable H) :
    s.stack.size ≤ s.peak.size := by
  obtain ⟨config, world, changes⟩ := reachable
  exact changes.keep (P := fun s => s.stack.size ≤ s.peak.size) (fun _ _ change => change.recorded)
    (Nat.le_refl 0)

theorem Reachable.sound {s : State E} (reachable : s.Reachable H) : s.Sound H := by
  obtain ⟨config, world, changes⟩ := reachable
  exact changes.sound (.new H config world)

end State
end HostBridge
