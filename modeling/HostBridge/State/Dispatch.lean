import HostBridge.State.Codec
/-!
The handlers of host types. The metatable of a type finds fields before methods and sends operators
to the type's own; every handler first checks that it was handed instances of its type.

Bodies of members are programs; `go` says how an operation is performed.
-/
namespace HostBridge
namespace Run
variable {E : Embedding}

abbrev Runner (E : Embedding) := (o : Op E) → Run E o.Answer

def act (go : Runner E) {α : Type} (a : Action E α) : Run E α := program (F := Op.effect E) go a

/-- A userdata of a host type, and the object that it stands for. -/
structure Instance (E : Embedding) (t : E.Tag) where
  userdata : UserdataId
  ref : HostRef E t

/-- Puts a run of member code on record. Nothing depends on the record. -/
def noteRun (r : MemberRun E) : Run E Unit :=
  modify fun s => { s with memberRuns := r :: s.memberRuns }

def instanceAt (t : E.Tag) (binding : String) (index : Int) : Run E (Instance E t) := do
  let s ← get
  match ← ofExcept (s.slot index) with
  | .userdata u =>
    match s.heap.refOf t u with
    | .ok r => return ⟨u, r⟩
    | .error _ => raise (.userdataTypeMismatch binding (s.heap.typeName u))
  | v => raise (.userdataTypeMismatch binding v.kind.name)

def readField (H : Host E) {t : E.Tag} (f : Field E t) (g : Getter E t f.shape)
    (i : Instance E t) : Run E Value := do
  let x ← borrowing i.ref .shared do
    let p ← read (·.heap.payload i.ref)
    noteRun ⟨t, .getter, [i.userdata]⟩
    unlessPanic (g p)
  encode H f.shape x

/-- What a setter makes of the instance stays, also if it panics. -/
def writeField {t : E.Tag} (f : Field E t) (g : Setter E t f.shape) (i : Instance E t) (v : Value) :
    Run E Unit := do
  let x ← read (·.decode f.shape v)
  borrowing i.ref .exclusive do
    let p ← read (·.heap.payload i.ref)
    noteRun ⟨t, .setter, [i.userdata]⟩
    modifyHeap (·.setPayload i.ref (g p x).1)
    unlessPanic (g p x).2

def missingRead (member : String) : Run E Nat := do
  match (← get).config.missingMember with
  | .nil =>
    push .nil
    return 1
  | .raise => raise (.memberNotFound member)

def refuseWrite (e : Error) : Run E Nat := do
  match (← get).config.missingMember with
  | .nil => return 0
  | .raise => raise e

def methodName {t : E.Tag} (b : Binding E t) (m : Method E t) : String := b.name ++ "." ++ m.name

def readMember (H : Host E) (t : E.Tag) (b : Binding E t) : Run E Nat := do
  let i ← instanceAt t b.name 1
  let s ← get
  let key ← ofExcept (s.slot 2)
  match key.asString? with
  | none => missingRead (s.heap.display key)
  | some name =>
    match (b.field? name).bind fun f =>
      f.getter.map (Sigma.mk (β := fun f : Field E t => Getter E t f.shape) f) with
    | some ⟨f, g⟩ =>
      push (← readField H f g i)
      return 1
    | none =>
      match b.methodIndex? name, b.method? name with
      | some k, some m =>
        let entry : Entry E := .method t k i.userdata
        push (.function (← allocCallable { name := methodName b m, entry := entry }))
        return 1
      | _, _ => missingRead name

def writeMember (t : E.Tag) (b : Binding E t) : Run E Nat := do
  let i ← instanceAt t b.name 1
  let s ← get
  let key ← ofExcept (s.slot 2)
  let value ← ofExcept (s.slot 3)
  match key.asString? with
  | none => refuseWrite (.memberNotFound (s.heap.display key))
  | some name =>
    match b.field? name with
    | none => refuseWrite (.memberNotFound name)
    | some f =>
      match f.setter with
      | none => refuseWrite (.readOnlyMember name b.name)
      | some g =>
        writeField f g i value
        return 0

def rightOperand {t : E.Tag} (b : Binding E t) (e : Event) (left : Instance E t) :
    Run E (Instance E t) :=
  if e.isUnary then pure left else instanceAt t b.name 2

def runOperator (go : Runner E) {t : E.Tag} {result : Shape E.Tag} (left right : Instance E t) :
    OperatorBody E t result → Run E (result.Carrier E)
  | .binary f => borrowing left.ref .shared (borrowing right.ref .shared do
      let x ← read (·.heap.payload left.ref)
      let y ← read (·.heap.payload right.ref)
      noteRun ⟨t, .binaryOperator, [left.userdata, right.userdata]⟩
      act go (f x y))
  | .unary f => borrowing left.ref .shared do
      let x ← read (·.heap.payload left.ref)
      noteRun ⟨t, .unaryOperator, [left.userdata]⟩
      act go (f x)

def operate (go : Runner E) (H : Host E) (t : E.Tag) (b : Binding E t) (e : Event) : Run E Nat := do
  match b.operator? e with
  | none => raise (.noOverload e b.name)
  | some o =>
    let left ← instanceAt t b.name 1
    let right ← rightOperand b e left
    let x ← runOperator go left right o.body
    push (← encode H o.result x)
    return 1

def handle (go : Runner E) (H : Host E) (t : E.Tag) (e : Event) : Run E Nat := do
  let b ← ofExcept (H.binding t)
  match e with
  | .index => readMember H t b
  | .newIndex => writeMember t b
  | e => operate go H t b e

/-- What the body of a method does to its instance is done at once. -/
def instanceStep (go : Runner E) {t : E.Tag} (r : HostRef E t) : (o : InstanceOp E t) → Run E o.Answer
  | .act o => go o
  | .get => read (·.heap.payload r)
  | .set x => modifyHeap (·.setPayload r x)

def mutate (go : Runner E) {t : E.Tag} {α : Type} (i : Instance E t) (body : Mutation E t α) :
    Run E α := do
  noteRun ⟨t, .method, [i.userdata]⟩
  program (F := Mutation.effect E t) (instanceStep go i.ref) body

def runBody (go : Runner E) {t : E.Tag} {params results : List (Shape E.Tag)} (i : Instance E t)
    (args : Tuple E params) : MethodBody E t params results → Run E (Tuple E results)
  | .receiver f => borrowing i.ref .shared do
      let p ← read (·.heap.payload i.ref)
      noteRun ⟨t, .method, [i.userdata]⟩
      act go (f p args)
  | .mutReceiver f => borrowing i.ref .exclusive (mutate go i (f args))
  | .function f => do
      noteRun ⟨t, .method, [i.userdata]⟩
      act go (f args)

/-- Runs a method on the values of the frame, of which it takes as many as it declares. -/
def runMethod (go : Runner E) (H : Host E) {t : E.Tag} (m : Method E t) (i : Instance E t) :
    Run E Nat := do
  setTop m.params.count
  let args ← read (·.decodeTop m.params.shapes)
  let results ← runBody go i args m.body
  encodeAll H m.results.shapes results
  return m.results.count

/-- Whether the first value of a frame of `top` values may be the receiver of the method: the call
carries one value more than declared, or the first parameter takes no userdata. -/
def mayHoldReceiver {t : E.Tag} (m : Method E t) (top : Int) : Bool :=
  0 < top && (top == m.params.count + 1 || !m.params.firstAcceptsUserdata)

/-- Drops a leading value that is the instance itself, where it may be the receiver. -/
def dropReceiver {t : E.Tag} (m : Method E t) (u : UserdataId) : Run E Unit := do
  let s ← get
  if mayHoldReceiver m s.top then
    if (← ofExcept (s.slot 1)) = .userdata u then remove 1

def callMethod (go : Runner E) (H : Host E) (t : E.Tag) (index : Nat) (u : UserdataId) :
    Run E Nat := do
  let b ← ofExcept (H.binding t)
  match b.methods[index]? with
  | none => raise (.noMethod index b.name)
  | some m =>
    dropReceiver m u
    let r ← read (·.heap.refOf t u)
    runMethod go H m ⟨u, r⟩

end Run
end HostBridge
