import HostBridge.Value

namespace HostBridge

/-- Keys of host maps: the values that mean the same on both sides. -/
inductive HostKey where
  | boolean (b : Bool)
  | number (n : Number)
  | string (s : String)
  deriving DecidableEq, Repr, Inhabited

namespace HostKey

/-- The key that stands for all keys equal to it; the two zeros are equal. -/
def normal : HostKey → HostKey
  | number n => number n.canonical
  | k => k

def eqv (a b : HostKey) : Bool := a.normal == b.normal

def ofValue : Value → Except Error HostKey
  | .boolean b => .ok (boolean b)
  | .number n => .ok (number n)
  | .string s => .ok (string s)
  | v => .error (.typeMismatch .string v.kind)

def toValue : HostKey → Value
  | boolean b => .boolean b
  | number n => .number n
  | string s => .string s

/-- The order of keys: booleans before numbers before strings, NaN after all other numbers. -/
def le : HostKey → HostKey → Bool
  | boolean a, boolean b => !a || b
  | boolean _, _ => true
  | number a, number b => b.isNaN || (!a.isNaN && a.le b)
  | number _, string _ => true
  | string a, string b => !decide (b < a)
  | _, _ => false

def display : HostKey → String
  | boolean b => if b then "true" else "false"
  | number n => n.text
  | string s => s

end HostKey

mutual

inductive HostValue where
  | nil
  | boolean (b : Bool)
  | number (n : Number)
  | string (s : String)
  | map (m : HostMap)
  | function (f : FunctionId)
  | userdata (u : UserdataId)
  | light (address : Nat)

inductive HostMap where
  | empty
  | pair (key : HostKey) (value : HostValue) (rest : HostMap)

end

instance : Inhabited HostValue := ⟨.nil⟩
instance : Inhabited HostMap := ⟨.empty⟩

namespace HostMap

def toList : HostMap → List (HostKey × HostValue)
  | empty => []
  | pair k v r => (k, v) :: r.toList

def size : HostMap → Nat
  | empty => 0
  | pair _ _ r => r.size + 1

def find? : HostMap → HostKey → Option HostValue
  | empty, _ => none
  | pair k v r, key => if k.eqv key then some v else r.find? key

/-- Stores a value; a key equal to one in the map replaces the value and leaves the key. -/
def insert : HostMap → HostKey → HostValue → HostMap
  | empty, key, value => pair key value empty
  | pair k v r, key, value => if k.eqv key then pair k value r else pair k v (r.insert key value)

def ofList (ps : List (HostKey × HostValue)) : HostMap :=
  ps.foldl (fun m p => m.insert p.1 p.2) empty

def sorted (m : HostMap) : List (HostKey × HostValue) := m.toList.mergeSort fun p q => p.1.le q.1

end HostMap

namespace HostValue

def kind : HostValue → Kind
  | nil => .nil | boolean _ => .boolean | number _ => .number | string _ => .string
  | map _ => .table | function _ => .function | userdata _ => .userdata | light _ => .light

def asMap? : HostValue → Option HostMap
  | map m => some m
  | _ => none

def asNumber? : HostValue → Option Number
  | number n => some n
  | _ => none

def asString? : HostValue → Option String
  | string s => some s
  | _ => none

mutual

/-- Equality: numbers by value, references by identity, maps as finite maps. -/
def eqv : HostValue → HostValue → Bool
  | nil, nil => true
  | boolean a, boolean b => a == b
  | number a, number b => a.eqv b
  | string a, string b => a == b
  | map a, map b => a.size == b.size && within a b
  | function a, function b => a == b
  | userdata a, userdata b => a == b
  | light a, light b => a == b
  | _, _ => false

/-- Whether a map holds an equal value for every key of another. -/
def within : HostMap → HostMap → Bool
  | .empty, _ => true
  | .pair k v r, b =>
    (match b.find? k with
      | some w => eqv v w
      | none => false) && within r b

end

end HostValue

def HostMap.eqv (a b : HostMap) : Bool := (HostValue.map a).eqv (.map b)

end HostBridge
