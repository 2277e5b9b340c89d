import HostBridge.Number.Basic

namespace HostBridge

structure Single where
  bits : UInt32
  deriving DecidableEq, Inhabited, Repr

namespace Single

def negative (s : Single) : Bool := s.bits &&& 0x80000000 != 0
def magnitude (s : Single) : Nat := (s.bits &&& 0x7FFFFFFF).toNat
def isNaN (s : Single) : Bool := Binary.single.infinity < s.magnitude

def ofMagnitude (neg : Bool) (w : Nat) : Single :=
  ⟨(if neg then 0x80000000 else 0) ||| w.toUInt32⟩

def nan : Single := ⟨0x7FC00000⟩

def widen (s : Single) : Number :=
  if s.isNaN then
    let sign : UInt64 := if s.negative then Number.signBit else 0
    let payload : UInt64 := (s.bits &&& 0x003FFFFF).toUInt64 <<< 29
    ⟨sign ||| Number.nan.bits ||| payload⟩
  else if s.magnitude = Binary.single.infinity then Number.infinite s.negative
  else
    let (m, e) := Binary.single.decode s.magnitude
    Number.ofMagnitude s.negative (Binary.double.encode m e)

def ofNumber (n : Number) : Single :=
  if n.isNaN then
    let sign : UInt32 := if n.negative then 0x80000000 else 0
    let payload : UInt32 := (n.bits >>> 29).toUInt32 &&& 0x003FFFFF
    ⟨sign ||| nan.bits ||| payload⟩
  else if n.isInfinite then ofMagnitude n.negative Binary.single.infinity
  else
    let (m, e) := Binary.double.decode n.magnitude
    ofMagnitude n.negative (Binary.single.encode m e)

end Single
end HostBridge
