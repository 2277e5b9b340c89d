import HostBridge.Number.Arith
import HostBridge.Number.Text
import HostBridge.Error
import HostBridge.Text.Quoted
/-!
Values of stack slots and tables. Tables, functions and userdata are references into the heap of a
state; two references are equal iff they name the same object. Each object has an address. Tables
know an object by its address alone, and so take a light userdata that carries it for the same key.
-/
namespace HostBridge

@[ext] structure TableId where
  index : Nat
  deriving DecidableEq, Hashable, Repr, Inhabited

@[ext] structure FunctionId where
  index : Nat
  deriving DecidableEq, Hashable, Repr, Inhabited

@[ext] structure UserdataId where
  index : Nat
  deriving DecidableEq, Hashable, Repr, Inhabited

inductive Value where
  | nil
  | boolean (b : Bool)
  | number (n : Number)
  | string (s : String)
  | table (t : TableId)
  | function (f : FunctionId)
  | userdata (u : UserdataId)
  | light (address : Nat)
  deriving DecidableEq, Hashable, Repr, Inhabited

namespace Value

def kind : Value → Kind
  | nil => .nil | boolean _ => .boolean | number _ => .number | string _ => .string
  | table _ => .table | function _ => .function | userdata _ => .userdata | light _ => .light

def isNil : Value → Bool
  | nil => true
  | _ => false

def isTruthy : Value → Bool
  | nil | boolean false => false
  | _ => true

def asNumber? : Value → Option Number
  | number n => some n
  | _ => none

def asString? : Value → Option String
  | string s => some s
  | _ => none

def asTable? : Value → Option TableId
  | table t => some t
  | _ => none

def ofInt (i : Int) : Value := number (Number.ofInt i)

/-- Equality without metamethods: numbers by value, references by identity. -/
def rawEquals : Value → Value → Bool
  | number a, number b => a.eqv b
  | a, b => a == b

def isReference : Value → Bool
  | table _ | function _ | userdata _ => true
  | _ => false

def concatText? : Value → Option String
  | string s => some s
  | number n => some n.text
  | _ => none

def heapStart : Nat := 0x7F0000000000

/-- Objects lie side by side, each with a place of its own. -/
def address : Value → Nat
  | table t => heapStart + 64 * t.index + 16
  | function f => heapStart + 64 * f.index + 32
  | userdata u => heapStart + 64 * u.index + 48
  | light a => a
  | _ => 0

/-- What a table knows a key by: a number by its value, an object or a light userdata by the
address. -/
def normal : Value → Value
  | number n => number n.canonical
  | table t => light (table t).address
  | function f => light (function f).address
  | userdata u => light (userdata u).address
  | v => v

/-- Whether a table takes two values for one key. -/
def sameKey (a b : Value) : Bool := a.normal == b.normal

def addressText (v : Value) : String := "0x" ++ Text.hexDigits v.address

/-- The text of a value, given the name of the host type of each userdata. -/
def display (typeName : UserdataId → String) : Value → String
  | nil => "nil"
  | boolean b => if b then "true" else "false"
  | number n => n.text
  | string s => s
  | v@(table _) => "table: " ++ v.addressText
  | v@(function _) => "function: " ++ v.addressText
  | v@(userdata u) => typeName u ++ ": " ++ v.addressText
  | v@(light _) => "userdata: " ++ v.addressText

/-- The text of a value in listings: strings quoted, functions by name. -/
def listing (typeName : UserdataId → String) (functionName : FunctionId → String) : Value → String
  | string s => Text.quoted s
  | function f => "function<" ++ functionName f ++ ">"
  | v => v.display typeName

end Value
end HostBridge
