import HostBridge.Number.Basic
/-!
The text of a number. An integral number below 10^15 is written as an integer; any other finite
number by the fewest decimal digits that read back as the same number, the nearest such digits, and
always positionally.
-/
namespace HostBridge
namespace Number

/-- The reals that read back as one number: every real between `value - below` and `value + above`,
all three over `unit`; the ends belong to it iff `closed`. -/
structure Interval where
  value : Nat
  below : Nat
  above : Nat
  unit : Nat
  closed : Bool

/-- The interval of a nonzero finite number's magnitude. Below a power of two the numbers are twice
as dense as above it. -/
def interval (n : Number) : Interval :=
  let (m, e) := Binary.double.decode n.magnitude
  let half : Nat := if m = 0x10000000000000 ∧ Binary.double.lowest < e then 1 else 2
  let up := Nat.pow 2 e.toNat
  ⟨4 * m * up, half * up, 2 * up, 4 * Nat.pow 2 (-e).toNat, m % 2 = 0⟩

namespace Interval

def scale (i : Interval) (k : Int) : Interval :=
  let f := Nat.pow 10 (-k).toNat
  { i with
    value := i.value * f
    below := i.below * f
    above := i.above * f
    unit := i.unit * Nat.pow 10 k.toNat }

/-- The natural number in the interval that is nearest to its value, the greater of two. -/
def nearest? (i : Interval) : Option Nat :=
  let d := i.value / i.unit
  let r := i.value % i.unit
  let down := 0 < d && (r < i.below || i.closed && r = i.below)
  let up := i.unit - r < i.above || i.closed && i.unit - r = i.above
  if down && up then some (if 2 * r < i.unit then d else d + 1)
  else if down then some d
  else if up then some (d + 1)
  else none

/-- The number of zeros after the point of a value below one, as far as `fuel` goes. -/
def leadingZeros (value unit : Nat) : Nat → Nat
  | 0 => 0
  | fuel + 1 => if unit ≤ 10 * value then 0 else leadingZeros (10 * value) unit fuel + 1

/-- The `k` with `10 ^ (k - 1) ≤ value < 10 ^ k`. -/
def decimals (i : Interval) : Int :=
  if i.unit ≤ i.value then (Nat.toDigits 10 (i.value / i.unit)).length
  else -leadingZeros i.value i.unit 400

/-- The first grid that meets the interval, from `count` digits before the exponent `k` on, and the
`fuel - 1` finer ones: the digits and the power of ten they count. With no digits there is only the
power `10 ^ k` itself, the end of the decade of the value. -/
def search (i : Interval) (k : Int) (count : Nat) : Nat → Nat × Int
  | 0 => ((i.scale (k - count)).value / (i.scale (k - count)).unit, k - count)
  | fuel + 1 =>
    match (i.scale (k - count)).nearest? with
    | some d => (d, k - count)
    | none => search i k (count + 1) fuel

end Interval

def shortest (n : Number) : Nat × Int :=
  let i := n.interval
  i.search i.decimals 0 18

def positional (d : Nat) (k : Int) : String :=
  let digits := Nat.toDigits 10 d
  if 0 ≤ k then String.ofList (digits ++ List.replicate k.toNat '0')
  else
    let places := (-k).toNat
    if digits.length ≤ places then
      "0." ++ String.ofList (List.replicate (places - digits.length) '0' ++ digits)
    else
      String.ofList (digits.take (digits.length - places)) ++ "." ++
        String.ofList (digits.drop (digits.length - places))

def limit : Number := ofInt 1000000000000000

def text (n : Number) : String :=
  if n.isIntegral && n.magnitude < limit.magnitude then toString n.truncated
  else
    let sign := if n.negative then "-" else ""
    if n.isNaN then sign ++ "nan"
    else if n.isInfinite then sign ++ "inf"
    else
      let (d, k) := n.shortest
      sign ++ positional d k

end Number
end HostBridge
