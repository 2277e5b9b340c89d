import HostBridge.HostValue
import HostBridge.Number.Single
/-!
Shapes: codes for the host types that cross into a state. An argument or result list is `unit`, a
single shape or a tuple; a single shape and the tuple of it move the same slots but are different
types.
-/
namespace HostBridge

inductive IntType where
  | int8 | int16 | int32 | int64 | intWord
  | uint8 | uint16 | uint32 | uint64 | uintWord
  deriving DecidableEq, Repr, Inhabited

namespace IntType

def typeName : IntType → String
  | int8 => "i8" | int16 => "i16" | int32 => "i32" | int64 => "i64" | intWord => "isize"
  | uint8 => "u8" | uint16 => "u16" | uint32 => "u32" | uint64 => "u64" | uintWord => "usize"

def all : List IntType :=
  [int8, int16, int32, int64, intWord, uint8, uint16, uint32, uint64, uintWord]

def ofName? (s : String) : Option IntType := all.find? (·.typeName == s)

def lo : IntType → Int
  | int8 => -0x80 | int16 => -0x8000 | int32 => -0x80000000
  | int64 | intWord => -0x8000000000000000
  | _ => 0

def hi : IntType → Int
  | int8 => 0x7F | int16 => 0x7FFF | int32 => 0x7FFFFFFF
  | int64 | intWord => 0x7FFFFFFFFFFFFFFF
  | uint8 => 0xFF | uint16 => 0xFFFF | uint32 => 0xFFFFFFFF
  | uint64 | uintWord => 0xFFFFFFFFFFFFFFFF

theorem lo_le_hi (w : IntType) : w.lo ≤ w.hi := by cases w <;> decide

structure Range (w : IntType) where
  val : Int
  lo_le : w.lo ≤ val
  le_hi : val ≤ w.hi

def Range.ofNumber (w : IntType) (n : Number) : w.Range :=
  ⟨n.clamp w.lo w.hi, n.le_clamp w.lo_le_hi, n.clamp_le w.lo_le_hi⟩

def Range.ofInt (w : IntType) (i : Int) : w.Range :=
  ⟨max w.lo (min w.hi i), by omega, by have := w.lo_le_hi; omega⟩

end IntType

/-- Codes of host types. `object t` is an object of host type `t` that is copied, `ref t` a handle
that shares it. -/
inductive Shape (Tag : Type) where
  | boolean
  | number
  | single
  | int (w : IntType)
  | string
  | sharedString
  | light
  | value
  | hostValue
  | hostMap
  | table
  | view
  | function
  | userdata
  | object (t : Tag)
  | ref (t : Tag)
  | option (s : Shape Tag)
  | list (s : Shape Tag)
  deriving DecidableEq, Inhabited

namespace Shape
variable {Tag : Type}

/-- Whether a userdata slot can decode into the type. -/
def acceptsUserdata : Shape Tag → Bool
  | value | hostValue | userdata | object _ | ref _ => true
  | option s => s.acceptsUserdata
  | _ => false

def typeName (tagName : Tag → String) : Shape Tag → String
  | boolean => "bool" | number => "f64" | single => "f32" | int w => w.typeName
  | string => "String" | sharedString => "SharedString" | light => "LightUserdata"
  | value => "Value" | hostValue => "HostValue" | hostMap => "HostMap"
  | table => "Table" | view => "View" | function => "ScriptFunction" | userdata => "Userdata"
  | object t => "Object<" ++ tagName t ++ ">"
  | ref t => "HostRef<" ++ tagName t ++ ">"
  | option s => "Option<" ++ s.typeName tagName ++ ">"
  | list s => "List<" ++ s.typeName tagName ++ ">"

end Shape

inductive Params (Tag : Type) where
  | unit
  | one (s : Shape Tag)
  | tuple (ss : List (Shape Tag))
  deriving DecidableEq, Inhabited

namespace Params
variable {Tag : Type}

@[reducible] def shapes : Params Tag → List (Shape Tag)
  | unit => []
  | one s => [s]
  | tuple ss => ss

def count (p : Params Tag) : Nat := p.shapes.length

def firstAcceptsUserdata (p : Params Tag) : Bool :=
  match p.shapes with
  | s :: _ => s.acceptsUserdata
  | [] => false

def typeName (tagName : Tag → String) : Params Tag → String
  | unit => "()"
  | one s => s.typeName tagName
  | tuple [s] => "(" ++ s.typeName tagName ++ ",)"
  | tuple ss => "(" ++ ", ".intercalate (ss.map (Shape.typeName tagName)) ++ ")"

end Params
end HostBridge
