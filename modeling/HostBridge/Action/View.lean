import HostBridge.Action.Functions
import HostBridge.Action.Operators
/-!
Tables as containers of the host: views, which read and write a table in place, and two ways of
enumerating its pairs. Both keep the traversal on the stack and leave the stack as it was.
-/
namespace HostBridge
open HostBridge.Action
namespace View
variable {E : Embedding}

def value (x : View) : Value := .table x.table

def create : Action E View := return ⟨← newTable⟩

/-- A view of a fresh table that holds a list from key 1 on, on top of the frame. -/
def ofList (s : Shape E.Tag) (xs : List (s.Carrier E)) : Action E View := do
  let v ← encode (.list s) xs
  push v
  return ⟨← decode .table v⟩

/-- A view of a fresh table that holds a host map without its nil entries, on top of the frame. -/
def ofHostMap (m : HostMap) : Action E View := do
  let v ← encode .hostMap m
  push v
  return ⟨← decode .table v⟩

def ofSlot (i : Int) : Action E View := readAs .view i
def ofTop : Action E View := ofSlot (-1)

def get (x : View) (k s : Shape E.Tag) (key : k.Carrier E) : Action E (s.Carrier E) := do
  let key ← encode k key
  decode s (← index x.value key)

def set (x : View) (k s : Shape E.Tag) (key : k.Carrier E) (v : s.Carrier E) : Action E Unit := do
  let key ← encode k key
  let v ← encode s v
  newIndex x.value key v

def getIndex (x : View) (s : Shape E.Tag) (i : Int) : Action E (s.Carrier E) :=
  x.get .number s (Number.ofInt i)

def setIndex (x : View) (s : Shape E.Tag) (i : Int) (v : s.Carrier E) : Action E Unit :=
  x.set .number s (Number.ofInt i) v

def rawGet (x : View) (k s : Shape E.Tag) (key : k.Carrier E) : Action E (s.Carrier E) := do
  let key ← encode k key
  decode s ((← Action.table x.table).get key)

def rawSet (x : View) (k s : Shape E.Tag) (key : k.Carrier E) (v : s.Carrier E) : Action E Unit := do
  let key ← encode k key
  let v ← encode s v
  setRaw x.table key v

/-- The length of the table, as a count: a negative length is none, and NaN is none either. -/
def count (x : View) : Action E Nat := do
  match ← lengthOf x.value with
  | .number n => return (if Number.zero.le n then (n.clamp 0 0xFFFFFFFFFFFFFFFF).toNat else 0)
  | v => throw (.typeMismatch .number v.kind)

def toHostMap (x : View) : Action E HostMap := decode .hostMap x.value
def toList (x : View) (s : Shape E.Tag) : Action E (List (s.Carrier E)) := decode (.list s) x.value

def setMetatable (x : View) (m : Option View) : Action E Unit :=
  assignMetatable x.value (m.map View.table)

def metatable? (x : View) : Action E (Option View) :=
  return (← Action.metatable x.value).map View.mk

def push (x : View) : Action E Unit := Action.push x.value

/-- Visits the pairs that follow the key on top of the frame, at most `limit` of them, with the key
and the value on top during each visit. A visit has to leave the size of the frame as it is. -/
def walkFrom (slot : Int) (visit : Action E Unit) : Nat → Action E Unit
  | 0 => return ()
  | limit + 1 => do
    if ← next slot then
      let depth ← top
      visit
      if (← top) ≠ depth then Action.panic "table walk callback changed the stack depth"
      drop 1
      walkFrom slot visit limit

def walk (x : View) (limit : Nat) (visit : Action E Unit) : Action E Unit :=
  ScriptFunction.restoring do
    Action.push x.value
    let slot ← top
    Action.push .nil
    walkFrom slot visit limit

end View

/-- An enumeration of the pairs of a table, which lies on the stack above `base` values meanwhile.
Between the steps the size of the frame is the same. -/
structure Pairs where
  base : Int
  key : Option Value

namespace Pairs
variable {E : Embedding}

def start (x : View) : Action E Pairs := do
  let base ← top
  Action.push x.value
  return ⟨base, some .nil⟩

def pairAfter (p : Pairs) (key : Value) : Action E (Option (Value × Value)) := do
  Action.push key
  if ← next (p.base + 1) then
    let k ← value (-2)
    let v ← value (-1)
    drop 2
    return some (k, v)
  else return none

/-- The next pair or the error that ends the enumeration; nothing once it has ended. -/
def step (p : Pairs) : Action E (Option (Except Error (Value × Value)) × Pairs) := do
  match p.key with
  | none => return (none, p)
  | some key =>
    match ← (p.pairAfter key).attempt with
    | .ok (some (k, v)) => return (some (.ok (k, v)), { p with key := some k })
    | .ok none => return (none, { p with key := none })
    | .error e => return (some (.error e), { p with key := none })

def finish (p : Pairs) : Action E Unit := do
  if p.base < (← top) then
    try setTop p.base
    catch _ => return ()

end Pairs
end HostBridge
