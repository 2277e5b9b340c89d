import HostBridge.Action.Frame
/-!
Access to tables and to whatever answers like a table. Reading follows the `__index` entries of
metatables from value to value, writing the `__newindex` entries, for at most `chainLimit` links; a
function among them ends the chain and is called. The raw operations look at one table only.
-/
namespace HostBridge.Action
variable {E : Embedding}

def chainLimit : Nat := 100

def table (t : TableId) : Action E Table := perform (.table t)
def setRaw (t : TableId) (key v : Value) : Action E Unit := perform (.setRaw t key v)
def metatable (v : Value) : Action E (Option TableId) := perform (.metatable v)

def metafield (v : Value) (e : Event) : Action E Value := do
  match ← metatable v with
  | some m => return (← table m).getStr e.key
  | none => return .nil

/-- Calls a value while the values of `waiting` wait off the stack. -/
def callValue (f : Value) (args : List Value) (nresults : Int) (waiting : List Value := []) :
    Action E (List Value) :=
  perform (.callValue f args nresults waiting)

def callForOne (f : Value) (args : List Value) (waiting : List Value := []) : Action E Value :=
  return (← callValue f args 1 waiting).getLastD .nil

def rawAt (target key : Value) : Action E Value :=
  match target with
  | .table t => return (← table t).get key
  | _ => return .nil

/-- Reads `target[key]` along at most `fuel` links. -/
def indexChain (key : Value) : Nat → Value → Action E Value
  | 0, _ => throw (.chainTooLong .index)
  | fuel + 1, target => do
    let raw ← rawAt target key
    if !raw.isNil then return raw
    match ← metafield target .index with
    | .nil => if target.kind = .table then return .nil else throw (.notIndexable target.kind)
    | .function f => callForOne (.function f) [target, key]
    | handler => indexChain key fuel handler

def index (target key : Value) : Action E Value := indexChain key chainLimit target

/-- Assigns `target[key]` along at most `fuel` links. -/
def newIndexChain (key v : Value) : Nat → Value → Action E Unit
  | 0, _ => throw (.chainTooLong .newIndex)
  | fuel + 1, target => do
    let raw ← rawAt target key
    let handler ← if raw.isNil then metafield target .newIndex else pure .nil
    match handler, target with
    | .nil, .table t => setRaw t key v
    | .nil, target => throw (.notIndexable target.kind)
    | .function f, target =>
      let _ ← callValue (.function f) [target, key, v] 0
    | handler, _ => newIndexChain key v fuel handler

def newIndex (target key v : Value) : Action E Unit := newIndexChain key v chainLimit target

def pushKind (v : Value) : Action E Kind := do
  push v
  return v.kind

def newTable : Action E TableId := do
  let t ← perform .newTable
  push (.table t)
  return t

def tableAt (i : Int) : Action E TableId := do
  match ← value i with
  | .table t => return t
  | v => throw (.typeMismatch .table v.kind)

def getKey (i : Int) (key : Value) : Action E Kind := do
  let target ← value i
  pushKind (← index target key)

/-- Pops a value and assigns it to `t[key]` for the value `t` in a slot. -/
def setKey (i : Int) (key : Value) : Action E Unit := do
  let target ← value i
  let v ← pop
  newIndex target key v

def getField (i : Int) (name : String) : Action E Kind := getKey i (.string name)
def setField (i : Int) (name : String) : Action E Unit := setKey i (.string name)
def getIndex (i n : Int) : Action E Kind := getKey i (.ofInt n)
def setIndex (i n : Int) : Action E Unit := setKey i (.ofInt n)

def getTable (i : Int) : Action E Kind := do
  let target ← value i
  let key ← pop
  pushKind (← index target key)

/-- Pops a value and then a key, and assigns `t[key]` for the value `t` in a slot. -/
def setTable (i : Int) : Action E Unit := do
  let target ← value i
  let v ← pop
  let key ← pop
  newIndex target key v

def rawGet (i : Int) : Action E Kind := do
  let t ← tableAt i
  let key ← pop
  pushKind ((← table t).get key)

def rawSet (i : Int) : Action E Unit := do
  let t ← tableAt i
  let v ← pop
  let key ← pop
  setRaw t key v

def rawGetIndex (i n : Int) : Action E Kind := do
  let t ← tableAt i
  pushKind ((← table t).getInt n)

def rawSetIndex (i n : Int) : Action E Unit := do
  let t ← tableAt i
  let v ← pop
  setRaw t (.ofInt n) v

/-- Pops a key and pushes the next pair of the table in a slot; pushes nothing after the last. -/
def next (i : Int) : Action E Bool := do
  let t ← tableAt i
  let key ← pop
  match ← Prog.ofExcept ((← table t).next key) with
  | some (key, v) =>
    push key
    push v
    return true
  | none => return false

def globals : Action E Value := return .table (← perform .globals)
def registry : Action E TableId := perform .registry

def getGlobal (name : String) : Action E Kind := do
  pushKind (← index (← globals) (.string name))

def setGlobal (name : String) : Action E Unit := do
  let v ← pop
  newIndex (← globals) (.string name) v

def registered (name : String) : Action E Value := return (← table (← registry)).getStr name

/-- Pushes the registered metatable of a name, and makes it if there is none; tells whether it did.
-/
def newMetatable (name : String) : Action E Bool := do
  match ← registered name with
  | .table t =>
    push (.table t)
    return false
  | _ =>
    let t ← perform .newTable
    setRaw t (.string Event.name.key) (.string name)
    setRaw (← registry) (.string name) (.table t)
    push (.table t)
    return true

def getNamedMetatable (name : String) : Action E Kind := do pushKind (← registered name)

def assignMetatable (v : Value) (m : Option TableId) : Action E Unit := perform (.assignMetatable v m)

def setNamedMetatable (i : Int) (name : String) : Action E Unit := do
  let target ← value i
  match ← registered name with
  | .table t => assignMetatable target (some t)
  | _ => throw (.noMetatable name)

/-- Pops a table or nil and makes it the metatable of the value in a slot. -/
def setMetatable (i : Int) : Action E Unit := do
  let target ← value i
  match ← pop with
  | .nil => assignMetatable target none
  | .table t => assignMetatable target (some t)
  | v => throw (.typeMismatch .table v.kind)

def getMetatable (i : Int) : Action E Bool := do
  match ← metatable (← value i) with
  | some t =>
    push (.table t)
    return true
  | none => return false

end HostBridge.Action
