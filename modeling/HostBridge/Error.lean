import HostBridge.Event

namespace HostBridge

inductive Kind where
  | nil | boolean | light | number | string | table | function | userdata | thread
  deriving DecidableEq, Repr, Inhabited

def Kind.name : Kind → String
  | nil => "nil" | boolean => "boolean" | light => "light userdata" | number => "number"
  | string => "string" | table => "table" | function => "function" | userdata => "userdata"
  | thread => "thread"

def Kind.all : List Kind := [nil, boolean, light, number, string, table, function, userdata, thread]

def Kind.ofName? (s : String) : Option Kind := all.find? (·.name == s)

/-- What an operand without a meaning for an operator was asked for. -/
inductive Operation where
  | arithmetic | bitwise | concatenation | length
  deriving DecidableEq, Repr, Inhabited

def Operation.verb : Operation → String
  | arithmetic => "perform arithmetic on"
  | bitwise => "perform bitwise operation on"
  | concatenation => "concatenate"
  | length => "get length of"

inductive Error where
  | typeMismatch (expected found : Kind)
  | stackOverflow
  | stackUnderflow
  | invalidIndex (index : Int)
  | userdataTypeMismatch (expected found : String)
  | memberNotFound (member : String)
  | readOnlyMember (member typeName : String)
  | instanceBorrowed (typeName : String)
  | hostCallableFault (name message : String)
  | runtime (message : String)
  | notCallable (kind : Kind)
  | notIndexable (kind : Kind)
  | invalidKey (reason : String)
  | arithmeticOperand (operation : Operation) (kind : Kind)
  | compareOperands (left right : Kind)
  deriving DecidableEq, Repr, Inhabited

namespace Error

def title : Error → String
  | typeMismatch .. => "TypeMismatch" | stackOverflow => "StackOverflow"
  | stackUnderflow => "StackUnderflow" | invalidIndex _ => "InvalidIndex"
  | userdataTypeMismatch .. => "UserdataTypeMismatch" | memberNotFound _ => "MemberNotFound"
  | readOnlyMember .. => "ReadOnlyMember" | instanceBorrowed _ => "InstanceBorrowed"
  | hostCallableFault .. => "HostCallableFault" | runtime _ => "Runtime"
  | notCallable _ => "NotCallable" | notIndexable _ => "NotIndexable"
  | invalidKey _ => "InvalidKey" | arithmeticOperand .. => "ArithmeticOperand"
  | compareOperands .. => "CompareOperands"

def message : Error → String
  | typeMismatch e f => "type mismatch: expected " ++ e.name ++ ", found " ++ f.name
  | stackOverflow => "stack overflow"
  | stackUnderflow => "stack underflow"
  | invalidIndex i => "invalid stack index " ++ toString i
  | userdataTypeMismatch e f => "userdata type mismatch: expected " ++ e ++ ", found " ++ f
  | memberNotFound m => "attempt to index " ++ m ++ " on a userdata value"
  | readOnlyMember m t => "attempt to assign read-only field " ++ m ++ " of " ++ t
  | instanceBorrowed t => "userdata of type " ++ t ++ " is already in use"
  | hostCallableFault n m => "host function '" ++ n ++ "' failed: " ++ m
  | runtime m => m
  | notCallable k => "attempt to call a " ++ k.name ++ " value"
  | notIndexable k => "attempt to index a " ++ k.name ++ " value"
  | invalidKey r => "invalid table key: " ++ r
  | arithmeticOperand o k => "attempt to " ++ o.verb ++ " a " ++ k.name ++ " value"
  | compareOperands l r => "attempt to compare " ++ l.name ++ " with " ++ r.name

/-- Errors that a protected call reports as a memory error. -/
def isMemory : Error → Bool
  | stackOverflow => true
  | _ => false

def isUserdata : Error → Bool
  | userdataTypeMismatch .. | memberNotFound .. | readOnlyMember .. | instanceBorrowed .. => true
  | _ => false

def nilKey : Error := invalidKey "index is nil"
def nanKey : Error := invalidKey "index is NaN"
def strayKey : Error := invalidKey "invalid key to 'next'"

def chainTooLong (e : Event) : Error := runtime ("'" ++ e.key ++ "' chain too long; possible loop")
def noMetatable (name : String) : Error := runtime ("no metatable named '" ++ name ++ "'")
def fixedMetatable (k : Kind) : Error := runtime ("cannot set the metatable of a " ++ k.name ++ " value")
def notIntegral : Error := runtime "number has no integer representation"
def textExpected : Error := runtime "'__tostring' must return a string"
def foreignState (expected : String) : Error := runtime ("callable state is not a " ++ expected)
def noOverload (e : Event) (type : String) : Error := runtime ("no '" ++ e.key ++ "' overload in " ++ type)
def noMethod (i : Nat) (type : String) : Error := runtime ("no method #" ++ toString i ++ " in " ++ type)

def duplicateMember (member type : String) : Error :=
  runtime ("duplicate member '" ++ member ++ "' in binding for " ++ type)
def notOperator (e : Event) (type : String) : Error :=
  runtime ("'" ++ e.key ++ "' is not an overloadable operator (binding for " ++ type ++ ")")
def operatorTwice (e : Event) (type : String) : Error :=
  runtime ("operator '" ++ e.key ++ "' declared twice in binding for " ++ type)

end Error

/-- An abrupt end of host code that is no error, with its text if it has one. -/
structure Panic where
  text : Option String
  deriving DecidableEq, Repr, Inhabited

def Panic.message (p : Panic) : String := p.text.getD "panic with a non-string payload"

end HostBridge
