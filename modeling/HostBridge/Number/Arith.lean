import HostBridge.Number.Basic
/-!
Arithmetic of numbers. A NaN operand is handed on with its sign, the left one first; an operation
that makes a NaN of other data gives `Number.invalid`. Remainder and floor are exact; the shifts
act on the 64-bit words of integral operands.
-/
namespace HostBridge
namespace Number

def lift (f : Float → Float → Float) (a b : Number) : Number :=
  if a.isNaN then a.quiet
  else if b.isNaN then b.quiet
  else
    let r := f a.toFloat b.toFloat
    if r.isNaN then invalid else ofFloat r

def add : Number → Number → Number := lift (· + ·)
def sub : Number → Number → Number := lift (· - ·)
def mul : Number → Number → Number := lift (· * ·)
def div : Number → Number → Number := lift (· / ·)

/-- Anything to the power zero and one to any power are one, even for a NaN. -/
def pow (a b : Number) : Number :=
  if b.magnitude = 0 || a == one then one else lift Float.pow a b

def floor (n : Number) : Number :=
  if n.isNaN then n.quiet
  else if n.isInfinite || n.isIntegral then n
  else if n.negative then ofInt (n.truncated - 1)
  else ofInt n.truncated

/-- The remainder of the division that truncates; it has the sign of the dividend. -/
def rem (a b : Number) : Number :=
  if a.isNaN then a.quiet
  else if b.isNaN then b.quiet
  else if a.isInfinite || b.magnitude = 0 then invalid
  else if b.isInfinite then a
  else
    let (m, e) := Binary.double.decode a.magnitude
    let (n, f) := Binary.double.decode b.magnitude
    let low := min e f
    let r := (m <<< (e - low).toNat) % (n <<< (f - low).toNat)
    ofMagnitude a.negative (Binary.double.encode r low)

/-- The remainder of the division that rounds down; it has the sign of the divisor. -/
def floorRem (a b : Number) : Number :=
  let m := rem a b
  if !m.eqv zero && m.lt zero != b.lt zero then m.add b else m

def floorDiv (a b : Number) : Number := (a.div b).floor

def toInt64? (n : Number) : Option Int64 :=
  match n.toInt? with
  | some i =>
    if -0x8000000000000000 ≤ i ∧ i < 0x8000000000000000 then some (Int64.ofInt i) else none
  | none => none

def ofInt64 (i : Int64) : Number := ofInt i.toInt

end Number

namespace Word

/-- Shift of the 64-bit vector of `x` by `y` places, to the left for positive and to the right for
negative counts; zeros come in at either end, so a count of 64 or more leaves nothing. -/
def shift (x y : Int64) : Int64 :=
  if y ≤ -64 ∨ 64 ≤ y then 0
  else if 0 ≤ y then (x.toUInt64 <<< y.toUInt64).toInt64
  else (x.toUInt64 >>> (-y).toUInt64).toInt64

/-- Negation that gives the greatest integer for the least one. -/
def opposite (y : Int64) : Int64 := if y = Int64.minValue then Int64.maxValue else -y

def shiftLeft (x y : Int64) : Int64 := shift x y
def shiftRight (x y : Int64) : Int64 := shift x (opposite y)

end Word
end HostBridge
