import HostBridge.Number.Binary
/-!
Numbers: double-precision data kept as their 64 bits, so that equality of two numbers as data, the
sign of a NaN and the two zeros are all visible. Order and equality as values are `lt`, `le` and
`eqv`; conversions from and to the integers are exact arithmetic on the bits.
-/
namespace HostBridge

structure Number where
  bits : UInt64
  deriving DecidableEq, Hashable, Inhabited, Repr

namespace Number

def signBit : UInt64 := 0x8000000000000000

def negative (n : Number) : Bool := n.bits &&& signBit != 0
def magnitude (n : Number) : Nat := (n.bits &&& 0x7FFFFFFFFFFFFFFF).toNat

def ofMagnitude (neg : Bool) (w : Nat) : Number :=
  ⟨(if neg then signBit else 0) ||| w.toUInt64⟩

def isNaN (n : Number) : Bool := Binary.double.infinity < n.magnitude
def isInfinite (n : Number) : Bool := n.magnitude = Binary.double.infinity
def isFinite (n : Number) : Bool := n.magnitude < Binary.double.infinity

def zero : Number := ⟨0⟩
def one : Number := ⟨0x3FF0000000000000⟩
def nan : Number := ⟨0x7FF8000000000000⟩
def infinite (neg : Bool) : Number := ofMagnitude neg Binary.double.infinity

/-- The NaN that an operation without a NaN operand produces; its sign bit is set. -/
def invalid : Number := ⟨0xFFF8000000000000⟩

def quiet (n : Number) : Number := ⟨n.bits ||| 0x0008000000000000⟩

/-- A monotone image of the numbers that are no NaN; both zeros go to zero. -/
def rank (n : Number) : Int := if n.negative then -n.magnitude else n.magnitude

def eqv (a b : Number) : Bool := !a.isNaN && !b.isNaN && a.rank == b.rank
def lt (a b : Number) : Bool := !a.isNaN && !b.isNaN && decide (a.rank < b.rank)
def le (a b : Number) : Bool := !a.isNaN && !b.isNaN && decide (a.rank ≤ b.rank)

/-- The datum that stands for all numbers of the same value: the positive zero for both zeros. -/
def canonical (n : Number) : Number :=
  if n.magnitude = 0 then zero else if n.isNaN then n.quiet else n

/-- The double nearest to an integer, ties to even. -/
def ofInt (i : Int) : Number := ofMagnitude (i < 0) (Binary.double.encode i.natAbs 0)

def ofNat (n : Nat) : Number := ofInt n

def wholePart (n : Number) : Nat :=
  let (m, e) := Binary.double.decode n.magnitude
  if 0 ≤ e then m <<< e.toNat else m >>> (-e).toNat

def truncated (n : Number) : Int := if n.negative then -n.wholePart else n.wholePart

def isIntegral (n : Number) : Bool :=
  n.isFinite &&
    let (m, e) := Binary.double.decode n.magnitude
    0 ≤ e || m % Nat.pow 2 (-e).toNat = 0

def toInt? (n : Number) : Option Int := if n.isIntegral then some n.truncated else none

/-- Conversion to an integer type with the given bounds: the fraction is dropped, a number beyond
a bound gives the bound, and a NaN gives zero (which every integer type contains). -/
def clamp (lo hi : Int) (n : Number) : Int :=
  if n.isNaN then max lo (min hi 0)
  else if n.isInfinite then (if n.negative then lo else hi)
  else max lo (min hi n.truncated)

theorem clamp_le {lo hi : Int} (h : lo ≤ hi) (n : Number) : n.clamp lo hi ≤ hi := by
  unfold clamp; split
  · omega
  · split
    · split <;> omega
    · omega

theorem le_clamp {lo hi : Int} (h : lo ≤ hi) (n : Number) : lo ≤ n.clamp lo hi := by
  unfold clamp; split
  · omega
  · split
    · split <;> omega
    · omega

def neg (n : Number) : Number := ⟨n.bits ^^^ signBit⟩

def toFloat (n : Number) : Float := Float.ofBits n.bits
def ofFloat (f : Float) : Number := ⟨f.toBits⟩

end Number
end HostBridge
