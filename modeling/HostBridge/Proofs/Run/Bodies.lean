import HostBridge.Proofs.Run.Codec

namespace HostBridge

/-- Every operation that a program can come to perform satisfies `P`. -/
def Prog.Uses {F : Effect} {α : Type} (P : F.Op → Prop) : Prog F α → Prop
  | .done _ => True
  | .abort _ => True
  | .perform o next => P o ∧ ∀ r, (next r).Uses P

theorem Prog.uses_op {F : Effect} {P : F.Op → Prop} {o : F.Op} (allowed : P o) :
    (Prog.op o).Uses P :=
  ⟨allowed, fun _ => trivial⟩

theorem Prog.Uses.bind {F : Effect} {α β : Type} {P : F.Op → Prop} {p : Prog F α}
    {f : α → Prog F β} (first : p.Uses P) (rest : ∀ a, (f a).Uses P) : (p >>= f).Uses P := by
  induction p with
  | done r =>
    cases r with
    | ok a => exact rest a
    | error e => trivial
  | abort q => trivial
  | perform o next ih => exact ⟨first.1, fun r => ih r (first.2 r)⟩

theorem Prog.uses_mapM {F : Effect} {α β : Type} {P : F.Op → Prop} {f : α → Prog F β}
    (each : ∀ a, (f a).Uses P) (as : List α) : (as.mapM f).Uses P := by
  induction as with
  | nil => trivial
  | cons a as ih =>
    rw [List.mapM_cons]
    exact Prog.Uses.bind (each a) fun _ => Prog.Uses.bind ih fun _ => trivial

theorem Prog.Uses.mono {F : Effect} {α : Type} {P Q : F.Op → Prop} {p : Prog F α}
    (uses : p.Uses P) (weaker : ∀ o, P o → Q o) : p.Uses Q := by
  induction p with
  | done r => trivial
  | abort q => trivial
  | perform o next ih => exact ⟨weaker o uses.1, fun r => ih r (uses.2 r)⟩

theorem Prog.uses_all {F : Effect} {α : Type} (p : Prog F α) : p.Uses fun _ => True := by
  induction p with
  | done r => trivial
  | abort q => trivial
  | perform o next ih => exact ⟨trivial, ih⟩

section
variable {E : Embedding} {t : E.Tag}

/-- The operations among the steps of a method that changes its instance satisfy `P`. -/
def InstanceOp.Satisfies (P : Op E → Prop) : InstanceOp E t → Prop
  | .act o => P o
  | _ => True

theorem InstanceOp.Satisfies.mono {P Q : Op E → Prop} (weaker : ∀ o, P o → Q o) (o : InstanceOp E t)
    (satisfies : o.Satisfies P) : o.Satisfies Q := by
  cases o with
  | act o => exact weaker o satisfies
  | get | set x => trivial

def MethodBody.Uses {args results : List (Shape E.Tag)} (P : Op E → Prop) :
    MethodBody E t args results → Prop
  | .receiver f => ∀ x xs, Prog.Uses (F := Op.effect E) P (f x xs)
  | .mutReceiver f => ∀ xs, Prog.Uses (F := Mutation.effect E t) (InstanceOp.Satisfies P) (f xs)
  | .function f => ∀ xs, Prog.Uses (F := Op.effect E) P (f xs)

def OperatorBody.Uses {result : Shape E.Tag} (P : Op E → Prop) : OperatorBody E t result → Prop
  | .binary f => ∀ x y, Prog.Uses (F := Op.effect E) P (f x y)
  | .unary f => ∀ x, Prog.Uses (F := Op.effect E) P (f x)

/-- Every body that a host supplies performs only operations that satisfy `P`. -/
structure Host.Uses (P : Op E → Prop) (H : Host E) : Prop where
  native : ∀ code, Prog.Uses (F := Op.effect E) P (H.native code)
  closure : ∀ code xs, Prog.Uses (F := Op.effect E) P (H.closure code xs)
  method : ∀ t b, H.binding t = .ok b → ∀ m ∈ b.methods, m.body.Uses P
  operator : ∀ t b, H.binding t = .ok b → ∀ o ∈ b.operators, o.body.Uses P

theorem MethodBody.Uses.mono {args results : List (Shape E.Tag)} {P Q : Op E → Prop}
    {body : MethodBody E t args results} (uses : body.Uses P) (weaker : ∀ o, P o → Q o) :
    body.Uses Q := by
  cases body with
  | receiver f => exact fun x xs => Prog.Uses.mono (uses x xs) weaker
  | mutReceiver f => exact fun xs => Prog.Uses.mono (uses xs) (InstanceOp.Satisfies.mono weaker)
  | function f => exact fun xs => Prog.Uses.mono (uses xs) weaker

theorem OperatorBody.Uses.mono {result : Shape E.Tag} {P Q : Op E → Prop}
    {body : OperatorBody E t result} (uses : body.Uses P) (weaker : ∀ o, P o → Q o) :
    body.Uses Q := by
  cases body with
  | binary f => exact fun x y => Prog.Uses.mono (uses x y) weaker
  | unary f => exact fun x => Prog.Uses.mono (uses x) weaker

theorem Host.Uses.mono {P Q : Op E → Prop} {H : Host E} (uses : H.Uses P)
    (weaker : ∀ o, P o → Q o) : H.Uses Q where
  native code := (uses.native code).mono weaker
  closure code xs := (uses.closure code xs).mono weaker
  method t b found m listed := (uses.method t b found m listed).mono weaker
  operator t b found o listed := (uses.operator t b found o listed).mono weaker

theorem Host.uses_all (H : Host E) : H.Uses fun _ => True where
  native code := Prog.uses_all _
  closure code xs := Prog.uses_all _
  method t b found m listed := by
    cases m.body with
    | receiver f => exact fun x xs => Prog.uses_all _
    | mutReceiver f =>
      exact fun xs => Prog.Uses.mono (Prog.uses_all _) fun o _ => by cases o <;> trivial
    | function f => exact fun xs => Prog.uses_all _
  operator t b found o listed := by
    cases o.body with
    | binary f => exact fun x y => Prog.uses_all _
    | unary f => exact fun x => Prog.uses_all _

end

namespace Run
open State
variable {E : Embedding} {α β : Type}

/-- A property of runs that passes from the parts of a body to the whole of it: it holds of what
leaves the frame alone, of pushing, resizing and removing, and of what is made of runs it holds of.
A fault may be held up by a change of the heap. -/
structure Composes (J : (α : Type) → Run E α → Prop) : Prop where
  tame {α : Type} {m : Run E α} : Tame m → J α m
  bind {α β : Type} {m : Run E α} {f : α → Run E β} : J α m → (∀ a, J β (f a)) → J β (m >>= f)
  get_bind {α : Type} {f : State E → Run E α} : (∀ s, J α (f s)) → J α (get >>= f)
  panic {α : Type} (p : Panic) : J α (throw (.panicked p))
  proceed {α β : Type} {m : Run E α} {next : Except Error α → Run E β} : J α m →
    (∀ r, J β (next r)) → J β (proceed m next)
  rethrow {α : Type} {body : Run E α} (g : Heap E → Heap E) : J α body →
    J α (tryCatch body fun f => modifyHeap g >>= fun _ => throw f)
  push (v : Value) : J Unit (push v)
  setTop (index : Int) : J Unit (setTop index)
  remove (index : Int) : J Unit (remove index)

section Parts
variable {J : (α : Type) → Run E α → Prop} (laws : Composes J)
include laws

theorem Composes.pure (a : α) : J α (pure a) := laws.tame (tame_pure a)

theorem Composes.raise (e : Error) : J α (raise e) := laws.tame (tame_raise e)

theorem Composes.ofExcept (r : Except Error α) : J α (ofExcept r) := laws.tame (tame_ofExcept r)

theorem Composes.read (f : State E → Except Error α) : J α (read f) := laws.tame (tame_read f)

theorem Composes.modifyHeap (f : Heap E → Heap E) : J Unit (modifyHeap f) :=
  laws.tame (tame_modifyHeap f)

theorem Composes.unlessPanic (r : Except Panic α) : J α (unlessPanic r) := by
  cases r with
  | ok a => exact laws.pure a
  | error p => exact laws.panic p

theorem Composes.program {F : Effect} {P : F.Op → Prop} {step : (o : F.Op) → Run E (F.Answer o)}
    (performs : ∀ o, P o → J _ (step o)) {p : Prog F α} (uses : p.Uses P) : J α (program step p) := by
  induction p with
  | done r => exact laws.ofExcept r
  | abort p => exact laws.panic p
  | perform o next ih => exact laws.proceed (performs o uses.1) fun r => ih r (uses.2 r)

theorem composed_borrowing {t : E.Tag} (r : HostRef E t) (a : Access) {body : Run E α}
    (h : J _ body) : J _ (borrowing r a body) := by
  refine laws.bind (laws.read _) fun _ => ?_
  refine laws.bind (laws.modifyHeap _) fun _ => ?_
  refine laws.rethrow _ (laws.bind h fun x => ?_)
  exact laws.bind (laws.modifyHeap _) fun _ => laws.pure x

theorem composed_encodeAll (H : Host E) (ss : List (Shape E.Tag)) (xs : Tuple E ss) :
    J _ (encodeAll H ss xs) := by
  induction ss with
  | nil => exact laws.pure ()
  | cons s ss ih =>
    obtain ⟨x, xs⟩ := xs
    refine laws.bind (laws.tame (tame_encode H s x)) fun v => ?_
    exact laws.bind (laws.push v) fun _ => ih xs

theorem composed_noteRun (r : MemberRun E) : J _ (noteRun r) :=
  laws.tame (tame_modify fun _ => ⟨rfl, rfl, rfl, rfl, rfl, rfl, rfl, rfl, rfl⟩)

theorem composed_instanceAt (t : E.Tag) (binding : String) (index : Int) :
    J _ (instanceAt t binding index : Run E (Instance E t)) := by
  refine laws.get_bind fun s => ?_
  refine laws.bind (laws.ofExcept _) fun v => ?_
  cases v with
  | userdata u =>
    simp only
    cases s.heap.refOf t u with
    | ok r => exact laws.pure (Instance.mk u r)
    | error e => exact laws.raise _
  | _ => exact laws.raise _

theorem composed_readField (H : Host E) {t : E.Tag} (f : Field E t)
    (g : Getter E t f.shape) (i : Instance E t) :
    J _ (readField H f g i) := by
  have encodes x := laws.tame (tame_encode H f.shape x)
  refine laws.bind (composed_borrowing laws i.ref .shared ?_) encodes
  refine laws.bind (laws.read _) fun p => ?_
  exact laws.bind (composed_noteRun laws _) fun _ => laws.unlessPanic (g p)

theorem composed_writeField {t : E.Tag} (f : Field E t)
    (g : Setter E t f.shape) (i : Instance E t) (v : Value) :
    J _ (writeField f g i v) := by
  refine laws.bind (laws.read _) fun x => composed_borrowing laws i.ref .exclusive ?_
  refine laws.bind (laws.read _) fun p => ?_
  refine laws.bind (composed_noteRun laws _) fun _ => ?_
  exact laws.bind (laws.modifyHeap _) fun _ => laws.unlessPanic _

theorem composed_missingRead (member : String) :
    J _ (missingRead member : Run E Nat) := by
  refine laws.get_bind fun s => ?_
  cases s.config.missingMember with
  | nil => exact laws.bind (laws.push .nil) fun _ => laws.pure 1
  | raise => exact laws.raise _

theorem composed_refuseWrite (e : Error) : J _ (refuseWrite e : Run E Nat) := by
  refine laws.get_bind fun s => ?_
  cases s.config.missingMember with
  | nil => exact laws.pure 0
  | raise => exact laws.raise e

theorem composed_readMember (H : Host E) (t : E.Tag) (b : Binding E t) :
    J _ (readMember H t b) := by
  refine laws.bind (composed_instanceAt laws t b.name 1) fun i => ?_
  refine laws.get_bind fun s => ?_
  refine laws.bind (laws.ofExcept _) fun key => ?_
  cases key.asString? with
  | none => exact composed_missingRead laws _
  | some name =>
    simp only
    split
    · refine laws.bind (composed_readField laws H _ _ i) fun v => ?_
      exact laws.bind (laws.push v) fun _ => laws.pure 1
    · split
      · refine laws.bind (laws.tame (tame_allocCallable _)) fun f => ?_
        exact laws.bind (laws.push _) fun _ => laws.pure 1
      · exact composed_missingRead laws name

theorem composed_writeMember (t : E.Tag) (b : Binding E t) :
    J _ (writeMember t b : Run E Nat) := by
  refine laws.bind (composed_instanceAt laws t b.name 1) fun i => ?_
  refine laws.get_bind fun s => ?_
  refine laws.bind (laws.ofExcept _) fun key => ?_
  refine laws.bind (laws.ofExcept _) fun value => ?_
  cases key.asString? with
  | none => exact composed_refuseWrite laws _
  | some name =>
    simp only
    cases b.field? name with
    | none => exact composed_refuseWrite laws _
    | some f =>
      simp only
      cases f.setter with
      | none => exact composed_refuseWrite laws _
      | some g => exact laws.bind (composed_writeField laws f g i value) fun _ => laws.pure 0

theorem composed_rightOperand {t : E.Tag} (b : Binding E t) (e : Event) (left : Instance E t) :
    J _ (rightOperand b e left) := by
  unfold rightOperand
  split
  · exact laws.pure left
  · exact composed_instanceAt laws t b.name 2

theorem composed_dropReceiver {t : E.Tag} (m : Method E t) (u : UserdataId) :
    J _ (dropReceiver m u) := by
  refine laws.get_bind fun s => ?_
  split
  · refine laws.bind (laws.ofExcept _) fun v => ?_
    split
    · exact laws.remove 1
    · exact laws.pure ()
  · exact laws.pure ()

section Bodies
variable {P : Op E → Prop} {H : Host E} (uses : H.Uses P) (go : Runner E)
  (runs : ∀ o, P o → J _ (go o))
include runs

theorem composed_act {a : Action E α} (allowed : Prog.Uses (F := Op.effect E) P a) :
    J α (act go a) :=
  laws.program runs allowed

theorem composed_runOperator {t : E.Tag} {result : Shape E.Tag} (left right : Instance E t)
    (body : OperatorBody E t result) (allowed : body.Uses P) :
    J _ (runOperator go left right body) := by
  cases body with
  | binary f =>
    refine composed_borrowing laws left.ref .shared (composed_borrowing laws right.ref .shared ?_)
    refine laws.bind (laws.read _) fun x => ?_
    refine laws.bind (laws.read _) fun y => ?_
    exact laws.bind (composed_noteRun laws _) fun _ => composed_act laws go runs (allowed x y)
  | unary f =>
    apply composed_borrowing laws left.ref .shared
    refine laws.bind (laws.read _) fun x => ?_
    exact laws.bind (composed_noteRun laws _) fun _ => composed_act laws go runs (allowed x)

theorem composed_instanceStep {t : E.Tag} (r : HostRef E t) (o : InstanceOp E t)
    (allowed : o.Satisfies P) : J _ (instanceStep go r o) := by
  cases o with
  | act o => exact runs o allowed
  | get => exact laws.read _
  | set x => exact laws.modifyHeap (·.setPayload r x)

theorem composed_mutate {t : E.Tag} (i : Instance E t) {body : Mutation E t α}
    (allowed : Prog.Uses (F := Mutation.effect E t) (InstanceOp.Satisfies P) body) :
    J _ (mutate go i body) := by
  refine laws.bind (composed_noteRun laws _) fun _ => ?_
  exact laws.program (composed_instanceStep laws go runs i.ref) allowed

theorem composed_runBody {t : E.Tag} {params results : List (Shape E.Tag)} (i : Instance E t)
    (xs : Tuple E params) (body : MethodBody E t params results) (allowed : body.Uses P) :
    J _ (runBody go i xs body) := by
  cases body with
  | receiver f =>
    apply composed_borrowing laws i.ref .shared
    refine laws.bind (laws.read _) fun x => ?_
    exact laws.bind (composed_noteRun laws _) fun _ => composed_act laws go runs (allowed x xs)
  | mutReceiver f =>
    exact composed_borrowing laws i.ref .exclusive (composed_mutate laws go runs i (allowed xs))
  | function f => exact laws.bind (composed_noteRun laws _) fun _ => composed_act laws go runs (allowed xs)

theorem composed_runMethod (H : Host E) {t : E.Tag} (m : Method E t) (allowed : m.body.Uses P)
    (i : Instance E t) : J _ (runMethod go H m i) := by
  refine laws.bind (laws.setTop _) fun _ => ?_
  refine laws.bind (laws.read _) fun xs => ?_
  refine laws.bind (composed_runBody laws go runs i xs m.body allowed) fun results => ?_
  exact laws.bind (composed_encodeAll laws H _ results) fun _ => laws.pure _

include uses

theorem composed_operate {t : E.Tag} {b : Binding E t} (found : H.binding t = .ok b) (e : Event) :
    J _ (operate go H t b e) := by
  unfold operate
  cases declared : b.operator? e with
  | none => exact laws.raise _
  | some o =>
    have allowed := uses.operator t b found o (List.mem_of_find?_eq_some declared)
    refine laws.bind (composed_instanceAt laws t b.name 1) fun left => ?_
    refine laws.bind (composed_rightOperand laws b e left) fun right => ?_
    refine laws.bind (composed_runOperator laws go runs left right o.body allowed) fun x => ?_
    refine laws.bind (laws.tame (tame_encode H o.result x)) fun v => ?_
    exact laws.bind (laws.push v) fun _ => laws.pure 1

theorem composed_handle (t : E.Tag) (e : Event) : J _ (handle go H t e) := by
  unfold handle
  cases found : H.binding t with
  | error fault => exact laws.raise fault
  | ok b =>
    rw [ofExcept_ok, pure_bind]
    cases e with
    | index => exact composed_readMember laws H t b
    | newIndex => exact composed_writeMember laws t b
    | _ => exact composed_operate laws uses go runs found _

theorem composed_callMethod (t : E.Tag) (index : Nat) (u : UserdataId) :
    J _ (callMethod go H t index u) := by
  unfold callMethod
  cases found : H.binding t with
  | error fault => exact laws.raise fault
  | ok b =>
    rw [ofExcept_ok, pure_bind]
    cases declared : b.methods[index]? with
    | none => exact laws.raise _
    | some m =>
      have allowed := uses.method t b found m (List.mem_of_getElem? declared)
      refine laws.bind (composed_dropReceiver laws m u) fun _ => ?_
      exact laws.bind (laws.read _) fun r => composed_runMethod laws go runs H m allowed ⟨u, r⟩

theorem composed_runClosure (code : E.Closure) : J _ (runClosure go H code) := by
  refine laws.bind (laws.setTop _) fun _ => ?_
  refine laws.bind (laws.read _) fun xs => ?_
  refine laws.bind (composed_act laws go runs (uses.closure code xs)) fun results => ?_
  exact laws.bind (composed_encodeAll laws H _ results) fun _ => laws.pure _

theorem composed_runEntry (entry : Entry E) : J _ (runEntry go H entry) := by
  cases entry with
  | native code => exact composed_act laws go runs (uses.native code)
  | closure code => exact composed_runClosure laws uses go runs code
  | hook t e => exact composed_handle laws uses go runs t e
  | method t i u => exact composed_callMethod laws uses go runs t i u
  | foreign expected => exact laws.raise _

end Bodies

end Parts

theorem guards_composes : Composes (E := E) fun _ => Respects Guards where
  tame h := h.same.mono fun _ _ => SameFrame.guards
  bind := respects_bind (R := Guards) fun _ _ _ => Guards.trans
  get_bind rest := respects_get_bind fun s => rest s s
  panic p := respects_throw .refl (.panicked p)
  proceed := respects_proceed (R := Guards) fun _ _ _ => Guards.trans
  rethrow g h := by
    refine respects_tryCatch (R := Guards) (fun _ _ _ => Guards.trans) h fun f => ?_
    have changed := (tame_modifyHeap g).same.mono fun _ _ => SameFrame.guards
    exact respects_bind (R := Guards) (fun _ _ _ => Guards.trans) changed fun _ =>
      respects_throw .refl f
  push := push_guards
  setTop := setTop_guards
  remove := remove_guards

end Run
end HostBridge
