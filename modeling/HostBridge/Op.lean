import HostBridge.Prog
import HostBridge.Embedding
import HostBridge.Table.Basic
import HostBridge.Config
/-!
The operations on a state. `Action E` is a program over them: everything that host code does to a
state, the bodies of its functions included, is an action.
-/
namespace HostBridge

inductive MethodKind where
  | receiver | mutReceiver | function
  deriving DecidableEq, Repr, Inhabited

def MethodKind.title : MethodKind → String
  | receiver => "Receiver" | mutReceiver => "MutReceiver" | function => "Function"

structure FieldOutline where
  name : String
  readable : Bool
  writable : Bool
  type : String
  deriving DecidableEq, Repr, Inhabited

structure MethodOutline where
  name : String
  kind : MethodKind
  params : String
  results : String
  arity : Nat
  deriving DecidableEq, Repr, Inhabited

structure OperatorOutline where
  event : Event
  results : String
  deriving DecidableEq, Repr, Inhabited

structure Outline where
  name : String
  tagName : String
  fields : List FieldOutline
  methods : List MethodOutline
  operators : List OperatorOutline
  finalizer : Bool
  deriving DecidableEq, Repr, Inhabited

def Outline.describe (o : Outline) : String :=
  let list (xs : List String) := "[" ++ ", ".intercalate xs ++ "]"
  "ReflectedBinding \x7b name: " ++ Text.quoted o.name ++
    ", fields: " ++ list (o.fields.map fun f => Text.quoted f.name) ++
    ", methods: " ++ list (o.methods.map fun m => Text.quoted m.name) ++
    ", operators: " ++ list (o.operators.map fun p => p.event.title) ++ " \x7d"

/-- A compiled binding as programs share it. Two are the same object iff their numbers are equal. -/
structure SharedBinding where
  number : Nat
  outline : Outline
  deriving DecidableEq, Repr, Inhabited

inductive Access where
  | shared | exclusive
  deriving DecidableEq, Repr, Inhabited

inductive CallStatus where
  | ok | runtimeError | memoryError
  deriving DecidableEq, Repr, Inhabited

def CallStatus.title : CallStatus → String
  | ok => "Ok" | runtimeError => "RuntimeError" | memoryError => "MemoryError"

def CallStatus.ofError (e : Error) : CallStatus := if e.isMemory then memoryError else runtimeError

inductive Op (E : Embedding) where
  -- the frame
  | top
  | slot (index : Int)
  | argument (n : Nat)
  | absolute (index : Int)
  | setTop (index : Int)
  | push (v : Value)
  | pop
  | drop (n : Nat)
  | insert (index : Int)
  | remove (index : Int)
  | replace (index : Int)
  -- tables and metatables
  | newTable
  | table (t : TableId)
  | setRaw (t : TableId) (key value : Value)
  | metatable (v : Value)
  | assignMetatable (v : Value) (m : Option TableId)
  | globals
  | registry
  -- functions and calls
  | newNative (name : String) (code : E.Native)
  | newClosure (name : String) (code : E.Closure)
  | newForeign (name expected : String)
  | functionName (f : FunctionId)
  | signature (f : FunctionId)
  | thunkCount
  | call (nargs nresults : Int)
  | pcall (nargs nresults : Int)
  | callValue (f : Value) (args : List Value) (nresults : Int) (waiting : List Value)
  | takeError
  | callDepth
  -- host objects
  | newObject (t : E.Tag) (x : E.Payload t)
  | reflect (t : E.Tag) (r : HostRef E t)
  | carry (t : E.Tag) (r : HostRef E t)
  | tagOf (u : UserdataId)
  | read (t : E.Tag) (r : HostRef E t)
  | write (t : E.Tag) (r : HostRef E t) (x : E.Payload t)
  | acquire (t : E.Tag) (r : HostRef E t) (a : Access)
  | release (t : E.Tag) (r : HostRef E t) (a : Access)
  | shareCount (o : ObjectId)
  | settle (vars : List Entity)
  | registerType (t : E.Tag)
  | isRegistered (t : E.Tag)
  -- conversions
  | encode (s : Shape E.Tag) (x : s.Carrier E)
  | decode (s : Shape E.Tag) (v : Value)
  -- the state as a whole
  | config
  | setPolicy (p : MissingMember)
  | display (v : Value)
  | listing (v : Value)
  | describe
  | world
  | setWorld (w : E.World)
  | close

@[reducible] def Op.Answer {E : Embedding} : Op E → Type
  | .top => Int
  | .slot _ => Value
  | .argument _ => Value
  | .absolute _ => Int
  | .setTop _ | .push _ | .drop _ | .insert _ | .remove _ | .replace _ => Unit
  | .pop => Value
  | .newTable => TableId
  | .table _ => Table
  | .setRaw .. => Unit
  | .metatable _ => Option TableId
  | .assignMetatable .. => Unit
  | .globals | .registry => TableId
  | .newNative .. | .newClosure .. | .newForeign .. => FunctionId
  | .functionName _ => String
  | .signature _ => Signature
  | .thunkCount => Nat
  | .call .. => Unit
  | .pcall .. => CallStatus
  | .callValue .. => List Value
  | .takeError => Option Error
  | .callDepth => Nat
  | .newObject t _ => HostRef E t
  | .reflect .. | .carry .. => UserdataId
  | .tagOf _ => E.Tag
  | .read t _ => E.Payload t
  | .write .. | .acquire .. | .release .. => Unit
  | .shareCount _ => Nat
  | .settle _ => Unit
  | .registerType _ => SharedBinding
  | .isRegistered _ => Bool
  | .encode .. => Value
  | .decode s _ => s.Carrier E
  | .config => Config
  | .setPolicy _ => Unit
  | .display _ | .listing _ | .describe => String
  | .world => E.World
  | .setWorld _ => Unit
  | .close => Unit

def Op.effect (E : Embedding) : Effect := ⟨Op E, Op.Answer⟩

abbrev Action (E : Embedding) := Prog (Op.effect E)

namespace Action
variable {E : Embedding}

def perform (o : Op E) : Action E o.Answer := Prog.op (F := Op.effect E) o

def panic {α : Type} (message : String) : Action E α := Prog.abort ⟨some message⟩

end Action
end HostBridge
