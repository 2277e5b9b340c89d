namespace HostBridge

/-- Metatable events in their listing order. -/
inductive Event where
  | index | newIndex | gc | mode | len | eq
  | add | sub | mul | mod | pow | div | idiv
  | band | bor | bxor | shl | shr | unm | bnot
  | lt | le | concat | call | close | toText | name
  deriving DecidableEq, Repr, Inhabited

namespace Event

def all : List Event :=
  [index, newIndex, gc, mode, len, eq, add, sub, mul, mod, pow, div, idiv, band, bor, bxor, shl, shr,
    unm, bnot, lt, le, concat, call, close, toText, name]

def rank (e : Event) : Nat := e.ctorIdx

def key : Event → String
  | index => "__index" | newIndex => "__newindex" | gc => "__gc" | mode => "__mode"
  | len => "__len" | eq => "__eq" | add => "__add" | sub => "__sub" | mul => "__mul"
  | mod => "__mod" | pow => "__pow" | div => "__div" | idiv => "__idiv" | band => "__band"
  | bor => "__bor" | bxor => "__bxor" | shl => "__shl" | shr => "__shr" | unm => "__unm"
  | bnot => "__bnot" | lt => "__lt" | le => "__le" | concat => "__concat" | call => "__call"
  | close => "__close" | toText => "__tostring" | name => "__name"

def title : Event → String
  | index => "Index" | newIndex => "NewIndex" | gc => "Gc" | mode => "Mode"
  | len => "Len" | eq => "Eq" | add => "Add" | sub => "Sub" | mul => "Mul"
  | mod => "Mod" | pow => "Pow" | div => "Div" | idiv => "IDiv" | band => "BAnd"
  | bor => "BOr" | bxor => "BXor" | shl => "Shl" | shr => "Shr" | unm => "Unm"
  | bnot => "BNot" | lt => "Lt" | le => "Le" | concat => "Concat" | call => "Call"
  | close => "Close" | toText => "ToString" | name => "Name"

def ofKey? (s : String) : Option Event := all.find? (·.key == s)

def isBinary : Event → Bool
  | add | sub | mul | mod | pow | div | idiv | band | bor | bxor | shl | shr | concat | eq | lt | le =>
    true
  | _ => false

def isUnary : Event → Bool
  | unm | bnot | len => true
  | _ => false

end Event

inductive Arith where
  | add | sub | mul | mod | pow | div | idiv | band | bor | bxor | shl | shr | unm | bnot
  deriving DecidableEq, Repr, Inhabited

namespace Arith

def all : List Arith :=
  [add, sub, mul, mod, pow, div, idiv, band, bor, bxor, shl, shr, unm, bnot]

def event : Arith → Event
  | add => .add | sub => .sub | mul => .mul | mod => .mod | pow => .pow | div => .div
  | idiv => .idiv | band => .band | bor => .bor | bxor => .bxor | shl => .shl | shr => .shr
  | unm => .unm | bnot => .bnot

def ofTitle? (s : String) : Option Arith := all.find? fun o => o.event.title == s

def isUnary : Arith → Bool
  | unm | bnot => true
  | _ => false

def isBitwise : Arith → Bool
  | band | bor | bxor | shl | shr | bnot => true
  | _ => false

end Arith

inductive Comparison where
  | eq | lt | le
  deriving DecidableEq, Repr, Inhabited

namespace Comparison

def event : Comparison → Event
  | eq => .eq | lt => .lt | le => .le

def ofTitle? (s : String) : Option Comparison := [eq, lt, le].find? fun c => c.event.title == s

end Comparison
end HostBridge
