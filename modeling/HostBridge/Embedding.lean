import HostBridge.Shape
/-!
What an embedding program brings along, as types: host types with their tags, the code of its
functions and its own data. `Shape.Carrier` gives each shape its Lean type.
-/
namespace HostBridge

structure ObjectId where
  index : Nat
  deriving DecidableEq, Hashable, Repr, Inhabited

/-- What something can refer to: a value, or the object that a handle is to. -/
inductive Entity where
  | value (v : Value)
  | object (o : ObjectId)
  deriving DecidableEq, Hashable, Repr, Inhabited

instance : Coe Value Entity := ⟨.value⟩

def Entity.isReference : Entity → Bool
  | value v => v.isReference
  | object _ => true

structure Embedding where
  Tag : Type
  [tagEq : DecidableEq Tag]
  tagName : Tag → String
  Payload : Tag → Type
  /-- What a payload refers to. -/
  contents : (t : Tag) → Payload t → List Entity := fun _ _ => []
  /-- Code of functions that work on the stack by themselves. -/
  Native : Type
  /-- Code of functions with typed arguments and results. -/
  Closure : Type
  params : Closure → Params Tag
  results : Closure → Params Tag
  /-- The program's own data, which a state carries along. -/
  World : Type

instance (E : Embedding) : DecidableEq E.Tag := E.tagEq

/-- A handle to an object of host type `t`. Handles to one object share it. -/
structure HostRef (E : Embedding) (t : E.Tag) where
  object : ObjectId
  deriving DecidableEq

structure View where
  table : TableId
  deriving DecidableEq, Inhabited

structure ScriptFunction where
  id : FunctionId
  deriving DecidableEq, Inhabited

@[reducible] def Shape.Carrier (E : Embedding) : Shape E.Tag → Type
  | .boolean => Bool
  | .number => Number
  | .single => Single
  | .int w => w.Range
  | .string => String
  | .sharedString => String
  | .light => Nat
  | .value => Value
  | .hostValue => HostValue
  | .hostMap => HostMap
  | .table => TableId
  | .view => View
  | .function => ScriptFunction
  | .userdata => UserdataId
  | .object t => E.Payload t
  | .ref t => HostRef E t
  | .option s => Option (s.Carrier E)
  | .list s => List (s.Carrier E)

@[reducible] def Tuple (E : Embedding) : List (Shape E.Tag) → Type
  | [] => Unit
  | s :: ss => s.Carrier E × Tuple E ss

structure Signature where
  params : String
  results : String
  arity : Nat
  resultCount : Nat
  deriving DecidableEq, Repr, Inhabited

namespace Signature

/-- The signature of functions that work on the stack by themselves. -/
def native : Signature := ⟨"...", "...", 0, 0⟩

def of (E : Embedding) (params results : Params E.Tag) : Signature :=
  ⟨params.typeName E.tagName, results.typeName E.tagName, params.count, results.count⟩

def display (s : Signature) : String := "fn(" ++ s.params ++ ") -> " ++ s.results

def describe (s : Signature) : String :=
  "Signature \x7b params: " ++ Text.quoted s.params ++ ", results: " ++ Text.quoted s.results ++
    ", arity: " ++ toString s.arity ++ ", result_count: " ++ toString s.resultCount ++ " \x7d"

end Signature
end HostBridge
