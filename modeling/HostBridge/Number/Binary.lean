/-!
Binary floating formats read as natural numbers. A magnitude word of a format is the word of a
datum without its sign; below `infinity` it stands for `m * 2 ^ e` with `(m, e) = decode w`, and
`encode` gives the word nearest to a binary fraction, ties to the even word.
-/
namespace HostBridge

/-- A format by the width of its fraction field, the exponent of its smallest subnormal and the
exponent field that is reserved for infinities and NaNs. -/
structure Binary where
  fraction : Nat
  lowest : Int
  reserved : Nat

namespace Binary

def double : Binary := ⟨52, -1074, 2047⟩
def single : Binary := ⟨23, -149, 255⟩

def infinity (b : Binary) : Nat := b.reserved * Nat.pow 2 b.fraction

def decode (b : Binary) (w : Nat) : Nat × Int :=
  let field := w / Nat.pow 2 b.fraction
  let m := w % Nat.pow 2 b.fraction
  if field = 0 then (m, b.lowest) else (m + Nat.pow 2 b.fraction, b.lowest + (field - 1))

/-- The natural number nearest to `m / 2 ^ s`, ties to even. -/
def halfEven (m s : Nat) : Nat :=
  if s = 0 then m
  else
    let q := m >>> s
    let r := m % Nat.pow 2 s
    let half := Nat.pow 2 (s - 1)
    if half < r ∨ (r = half ∧ q % 2 = 1) then q + 1 else q

/-- The exponent of the last place of the word that holds `m * 2 ^ e`. -/
def place (b : Binary) (m : Nat) (e : Int) : Int :=
  max b.lowest (e + m.log2 - b.fraction)

/-- A significand that rounds up to the next power of two carries into the exponent field by the
addition itself. -/
def encode (b : Binary) (m : Nat) (e : Int) : Nat :=
  if m = 0 then 0
  else
    let k := b.place m e
    let q := if k ≤ e then m <<< (e - k).toNat else halfEven m (k - e).toNat
    min b.infinity ((k - b.lowest).toNat * Nat.pow 2 b.fraction + q)

end Binary
end HostBridge
