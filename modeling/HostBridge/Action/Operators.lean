import HostBridge.Action.Access
import HostBridge.Stack

namespace HostBridge

def Arith.onIntegers (f : Int64 → Int64 → Int64) (a b : Number) : Except Error Number :=
  match a.toInt64?, b.toInt64? with
  | some x, some y => .ok (.ofInt64 (f x y))
  | _, _ => .error .notIntegral

/-- The result of an operator on numbers; a unary operator gets its operand twice. -/
def Arith.onNumbers : Arith → Number → Number → Except Error Number
  | .add, a, b => .ok (a.add b)
  | .sub, a, b => .ok (a.sub b)
  | .mul, a, b => .ok (a.mul b)
  | .mod, a, b => .ok (a.floorRem b)
  | .pow, a, b => .ok (a.pow b)
  | .div, a, b => .ok (a.div b)
  | .idiv, a, b => .ok (a.floorDiv b)
  | .band, a, b => onIntegers (· &&& ·) a b
  | .bor, a, b => onIntegers (· ||| ·) a b
  | .bxor, a, b => onIntegers (· ^^^ ·) a b
  | .shl, a, b => onIntegers Word.shiftLeft a b
  | .shr, a, b => onIntegers Word.shiftRight a b
  | .unm, a, _ => .ok a.neg
  | .bnot, a, _ => onIntegers (fun x _ => ~~~x) a a

def Arith.operation (op : Arith) : Operation := if op.isBitwise then .bitwise else .arithmetic

/-- Order of strings by their bytes, which is their order by code points. -/
def stringLe (a b : String) : Bool := !decide (b < a)

namespace Comparison

def decided? : Comparison → Value → Value → Option Bool
  | .eq, a, b =>
    if a.rawEquals b then some true
    else if a.kind = b.kind ∧ (a.kind = .table ∨ a.kind = .userdata) then none
    else some false
  | .lt, .number a, .number b => some (a.lt b)
  | .lt, .string a, .string b => some (decide (a < b))
  | .le, .number a, .number b => some (a.le b)
  | .le, .string a, .string b => some (stringLe a b)
  | _, _, _ => none

end Comparison

namespace Action
variable {E : Embedding}

/-- The handler for an event of one of two operands, the left one's first; nil if there is none. -/
def handlerOf (a b : Value) (e : Event) : Action E Value := do
  let h ← metafield a e
  if h.isNil then metafield b e else return h

/-- The operands have left the stack, so that they wait while their handler runs. -/
def arithValues (op : Arith) (a b : Value) : Action E Value :=
  match a, b with
  | .number x, .number y => return .number (← Prog.ofExcept (op.onNumbers x y))
  | a, b => do
    let h ← handlerOf a b op.event
    if h.isNil then
      throw (.arithmeticOperand op.operation (if a.kind = .number then b.kind else a.kind))
    callForOne h [a, b] [a, b]

/-- Replaces the operands on top of the frame by the result of an operator. -/
def arith (op : Arith) : Action E Unit := do
  if op.isUnary then
    let a ← pop
    push (← arithValues op a a)
  else
    if (← top) < 2 then throw .stackUnderflow
    let b ← pop
    let a ← pop
    push (← arithValues op a b)

def concatPair (a b : Value) (waiting : List Value := []) : Action E Value :=
  match a.concatText?, b.concatText? with
  | some x, some y => return .string (x ++ y)
  | x, _ => do
    let h ← handlerOf a b .concat
    if h.isNil then
      throw (.arithmeticOperand .concatenation (if x.isSome then b.kind else a.kind))
    callForOne h [a, b] waiting

/-- Joins values from the right. Those that are not joined yet wait, beside the values of `waiting`. -/
def concatValues (waiting : List Value) : List Value → Action E Value
  | [] => return .string ""
  | [v] => return v
  | v :: vs => do concatPair v (← concatValues (v :: waiting) vs) waiting

def joinTop (n : Nat) : Action E Unit := do
  let vs ← (List.range n).mapM fun i => value (-(n - i : Nat))
  drop n
  push (← concatValues [] vs)

/-- Joins the top `n` values. In a frame that begins above the top of the stack those are values from
below it, and none where the stack holds fewer. -/
def concat (n : Nat) : Action E Unit := do
  let size ← top
  if Stack.wrapped size < n then throw .stackUnderflow
  else if size < 0 ∧ 0 < n then
    match ← (value (-n)).attempt with
    | .ok _ => joinTop n
    | .error _ => push .nil
  else joinTop n

def compareValues (a b : Value) (op : Comparison) : Action E Bool :=
  match op.decided? a b with
  | some r => return r
  | none => do
    let h ← handlerOf a b op.event
    if h.isNil then
      if op = .eq then return false
      throw (.compareOperands a.kind b.kind)
    return ((← callValue h [a, b] 1).headD .nil).isTruthy

def compare (i j : Int) (op : Comparison) : Action E Bool := do
  let a ← value i
  let b ← value j
  compareValues a b op

def rawEqual (i j : Int) : Action E Bool := do
  let a ← value i
  let b ← value j
  return a.rawEquals b

def lengthOf (v : Value) : Action E Value :=
  match v with
  | .string s => return .ofInt s.utf8ByteSize
  | v => do
    let h ← metafield v .len
    if !h.isNil then return ← callForOne h [v, v]
    match v with
    | .table t => return .ofInt (← table t).border
    | v => throw (.arithmeticOperand .length v.kind)

def len (i : Int) : Action E Unit := do
  let v ← value i
  push (← lengthOf v)

/-- The length of the value in a slot, without handlers; zero for what has none. -/
def rawLen (i : Int) : Action E Nat := do
  match ← value i with
  | .string s => return s.utf8ByteSize
  | .table t => return (← table t).border
  | _ => return 0

def toText (i : Int) : Action E String := do
  let v ← value i
  let h ← metafield v .toText
  if h.isNil then return ← display v
  match (← callValue h [v] 1).headD .nil with
  | .string s => return s
  | _ => throw .textExpected

end Action
end HostBridge
