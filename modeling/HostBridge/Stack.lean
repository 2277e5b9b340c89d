import HostBridge.Value
/-!
The bounded value stack. Positions count from the bottom, from zero. Overflow is the one way in
which a push fails; an operation that fails leaves the stack as it was.
-/
namespace HostBridge

structure Stack where
  slots : Array Value := #[]
  maxDepth : Nat
  deriving Inhabited

namespace Stack

/-- A difference of positions as the 64-bit word that it is: below zero it wraps around. -/
def wrapped (i : Int) : Nat := (if i < 0 then i + 0x10000000000000000 else i).toNat

def size (s : Stack) : Nat := s.slots.size
def isEmpty (s : Stack) : Bool := s.slots.isEmpty
def isFull (s : Stack) : Bool := s.maxDepth ≤ s.slots.size

def push (s : Stack) (v : Value) : Except Error Stack :=
  if s.isFull then .error .stackOverflow else .ok { s with slots := s.slots.push v }

def top? (s : Stack) : Option Value := s.slots.back?

def peek (s : Stack) : Except Error Value :=
  match s.top? with
  | some v => .ok v
  | none => .error .stackUnderflow

def pop (s : Stack) : Except Error (Value × Stack) :=
  match s.top? with
  | some v => .ok (v, { s with slots := s.slots.pop })
  | none => .error .stackUnderflow

/-- Pops the top value if `read` accepts it, and leaves it in place otherwise. -/
def popAs {α : Type} (expected : Kind) (read : Value → Option α) (s : Stack) :
    Except Error (α × Stack) :=
  match s.top? with
  | none => .error .stackUnderflow
  | some v =>
    match read v with
    | some a => .ok (a, { s with slots := s.slots.pop })
    | none => .error (.typeMismatch expected v.kind)

def popNumber (s : Stack) : Except Error (Number × Stack) := s.popAs .number Value.asNumber?
def popString (s : Stack) : Except Error (String × Stack) := s.popAs .string Value.asString?

def popBoolean (s : Stack) : Except Error (Bool × Stack) :=
  s.popAs .boolean fun | .boolean b => some b | _ => none

def get (s : Stack) (i : Nat) : Except Error Value :=
  match s.slots[i]? with
  | some v => .ok v
  | none => .error .stackUnderflow

def set (s : Stack) (i : Nat) (v : Value) : Except Error Stack :=
  if i < s.size then .ok { s with slots := s.slots.setIfInBounds i v } else .error .stackUnderflow

def insert (s : Stack) (i : Nat) (v : Value) : Except Error Stack :=
  if s.size < i then .error .stackUnderflow
  else if s.isFull then .error .stackOverflow
  else .ok { s with slots := s.slots.insertIdxIfInBounds i v }

def remove (s : Stack) (i : Nat) : Except Error (Value × Stack) :=
  match s.slots[i]? with
  | some v => .ok (v, { s with slots := s.slots.eraseIdxIfInBounds i })
  | none => .error .stackUnderflow

def truncate (s : Stack) (n : Nat) : Stack := { s with slots := s.slots.take n }

def splitOff (s : Stack) (n : Nat) : Array Value × Stack :=
  (s.slots.extract n s.slots.size, s.truncate n)

/-- Makes the stack `n` values high, with nils for the values it lacks. -/
def resize (s : Stack) (n : Nat) : Except Error Stack :=
  if s.maxDepth < n then .error .stackOverflow
  else if n ≤ s.size then .ok (s.truncate n)
  else .ok { s with slots := s.slots ++ Array.replicate (n - s.size) .nil }

def clear (s : Stack) : Stack := { s with slots := #[] }

def display (s : Stack) (listing : Value → String) : String :=
  "[" ++ ", ".intercalate (s.slots.toList.map listing) ++ "]"

def describe (s : Stack) (listing : Value → String) : String :=
  "ValueStack(depth=" ++ toString s.size ++ ", max=" ++ toString s.maxDepth ++ ") " ++ s.display listing

end Stack
end HostBridge
