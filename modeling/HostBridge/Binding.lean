import HostBridge.Op

namespace HostBridge

/-- What the body of a method that changes its instance is made of: the operations of actions, and
access to the instance. -/
inductive InstanceOp (E : Embedding) (t : E.Tag) where
  | act (o : Op E)
  | get
  | set (x : E.Payload t)

@[reducible] def InstanceOp.Answer {E : Embedding} {t : E.Tag} : InstanceOp E t → Type
  | .act o => o.Answer
  | .get => E.Payload t
  | .set _ => Unit

def Mutation.effect (E : Embedding) (t : E.Tag) : Effect := ⟨InstanceOp E t, InstanceOp.Answer⟩

abbrev Mutation (E : Embedding) (t : E.Tag) := Prog (Mutation.effect E t)

namespace Mutation
variable {E : Embedding} {t : E.Tag} {α : Type}

def perform (o : InstanceOp E t) : Mutation E t o.Answer := Prog.op (F := effect E t) o

def ofAction : Action E α → Mutation E t α
  | Prog.done r => Prog.done r
  | Prog.abort p => Prog.abort p
  | Prog.perform o next => Prog.perform (.act o) fun r => ofAction (next r)

instance : MonadLift (Action E) (Mutation E t) := ⟨ofAction⟩

instance : MonadStateOf (E.Payload t) (Mutation E t) where
  get := perform .get
  set x := perform (.set x)
  modifyGet f := do
    let (a, x) := f (← perform .get)
    perform (.set x)
    return a

end Mutation

/-- How a field is read: what it holds, or a panic. -/
abbrev Getter (E : Embedding) (t : E.Tag) (s : Shape E.Tag) := E.Payload t → Except Panic (s.Carrier E)

/-- How a field is written. Also a panic leaves an instance behind. -/
abbrev Setter (E : Embedding) (t : E.Tag) (s : Shape E.Tag) :=
  E.Payload t → s.Carrier E → E.Payload t × Except Panic Unit

/-- What runs when an object loses its last owner. Also a panic leaves a world behind. -/
abbrev Finalizer (E : Embedding) (t : E.Tag) := E.Payload t → E.World → E.World × Except Panic Unit

structure Field (E : Embedding) (t : E.Tag) where
  name : String
  shape : Shape E.Tag
  getter : Option (Getter E t shape)
  setter : Option (Setter E t shape)

inductive MethodBody (E : Embedding) (t : E.Tag) (args results : List (Shape E.Tag)) where
  | receiver (f : E.Payload t → Tuple E args → Action E (Tuple E results))
  | mutReceiver (f : Tuple E args → Mutation E t (Tuple E results))
  | function (f : Tuple E args → Action E (Tuple E results))

def MethodBody.kind {E : Embedding} {t : E.Tag} {args results : List (Shape E.Tag)} :
    MethodBody E t args results → MethodKind
  | receiver _ => .receiver
  | mutReceiver _ => .mutReceiver
  | function _ => .function

structure Method (E : Embedding) (t : E.Tag) where
  name : String
  params : Params E.Tag
  results : Params E.Tag
  body : MethodBody E t params.shapes results.shapes

inductive OperatorBody (E : Embedding) (t : E.Tag) (result : Shape E.Tag) where
  | binary (f : E.Payload t → E.Payload t → Action E (result.Carrier E))
  | unary (f : E.Payload t → Action E (result.Carrier E))

structure Operator (E : Embedding) (t : E.Tag) where
  event : Event
  result : Shape E.Tag
  body : OperatorBody E t result

inductive Member (E : Embedding) (t : E.Tag) where
  | named (name : String)
  | field (f : Field E t)
  | method (m : Method E t)
  | operator (o : Operator E t)
  | finalizer (f : Finalizer E t)

/-- The members of a host type, by sort and in the order of declaration; operators in the order of
events. -/
structure Binding (E : Embedding) (t : E.Tag) where
  name : String
  fields : List (Field E t) := []
  methods : List (Method E t) := []
  operators : List (Operator E t) := []
  finalizer : Option (Finalizer E t) := none

namespace Binding
variable {E : Embedding} {t : E.Tag}

def declare (b : Binding E t) : Member E t → Binding E t
  | .named s => { b with name := s }
  | .field f => { b with fields := b.fields ++ [f] }
  | .method m => { b with methods := b.methods ++ [m] }
  | .operator o => { b with operators := b.operators ++ [o] }
  | .finalizer f => { b with finalizer := some f }

def repeated? : List String → List String → Option String
  | _, [] => none
  | seen, n :: ns => if n ∈ seen then some n else repeated? (n :: seen) ns

def operatorFault? (type : String) : List Event → List (Operator E t) → Option Error
  | _, [] => none
  | seen, o :: os =>
    if !o.event.isBinary && !o.event.isUnary then some (.notOperator o.event type)
    else if o.event ∈ seen then some (.operatorTwice o.event type)
    else operatorFault? type (o.event :: seen) os

def build (tagName : String) (members : List (Member E t)) : Except Error (Binding E t) :=
  let b := members.foldl declare { name := tagName }
  match repeated? [] (b.fields.map Field.name ++ b.methods.map Method.name) with
  | some n => .error (.duplicateMember n b.name)
  | none =>
    match operatorFault? b.name [] b.operators with
    | some e => .error e
    | none => .ok { b with operators := b.operators.mergeSort fun o p => o.event.rank ≤ p.event.rank }

def field? (b : Binding E t) (name : String) : Option (Field E t) :=
  b.fields.find? (·.name == name)

def methodIndex? (b : Binding E t) (name : String) : Option Nat :=
  b.methods.findIdx? (·.name == name)

def method? (b : Binding E t) (name : String) : Option (Method E t) :=
  (b.methodIndex? name).bind (b.methods[·]?)

def operator? (b : Binding E t) (e : Event) : Option (Operator E t) :=
  b.operators.find? (·.event == e)

end Binding

namespace Field
variable {E : Embedding} {t : E.Tag}

def outline (f : Field E t) : FieldOutline :=
  ⟨f.name, f.getter.isSome, f.setter.isSome, f.shape.typeName E.tagName⟩

end Field

namespace Method
variable {E : Embedding} {t : E.Tag}

def outline (m : Method E t) : MethodOutline :=
  ⟨m.name, m.body.kind, m.params.typeName E.tagName, m.results.typeName E.tagName, m.params.count⟩

end Method

def Operator.outline {E : Embedding} {t : E.Tag} (o : Operator E t) : OperatorOutline :=
  ⟨o.event, o.result.typeName E.tagName⟩

def Binding.outline {E : Embedding} {t : E.Tag} (b : Binding E t) : Outline :=
  ⟨b.name, E.tagName t, b.fields.map Field.outline, b.methods.map Method.outline,
    b.operators.map Operator.outline, b.finalizer.isSome⟩

/-- What an embedding program does: the bodies of its functions, the members of its host types and
what its own data refers to. -/
structure Host (E : Embedding) where
  native : E.Native → Action E Nat
  closure : (c : E.Closure) → Tuple E (E.params c).shapes → Action E (Tuple E (E.results c).shapes)
  members : (t : E.Tag) → List (Member E t)
  values : E.World → List Value
  handles : E.World → List ObjectId

def Host.binding {E : Embedding} (H : Host E) (t : E.Tag) : Except Error (Binding E t) :=
  Binding.build (E.tagName t) (H.members t)

end HostBridge
