import HostBridge.State.Basic
/-!
Conversions between values and the carriers of shapes. Decoding only reads the heap; encoding makes
the tables and userdata that it needs. A table turns into a host map as long as the tables nested
in it are at most as deep as `room`, which also ends the conversion of a table that contains itself.
-/
namespace HostBridge

namespace Heap
variable {E : Embedding}

def hostValueWith (nested : TableId → Except Error HostMap) : Value → Except Error HostValue
  | .nil => .ok .nil
  | .boolean b => .ok (.boolean b)
  | .number n => .ok (.number n)
  | .string s => .ok (.string s)
  | .table t => return .map (← nested t)
  | .function f => .ok (.function f)
  | .userdata u => .ok (.userdata u)
  | .light a => .ok (.light a)

def hostMap (h : Heap E) : Nat → TableId → Except Error HostMap
  | 0, _ => .error .stackOverflow
  | room + 1, t =>
    (h.table t).pairs.foldlM (fun m p => do
      let key ← HostKey.ofValue p.1
      let value ← hostValueWith (hostMap h room) p.2
      return m.insert key value) HostMap.empty

def hostValue (h : Heap E) (room : Nat) : Value → Except Error HostValue :=
  hostValueWith (h.hostMap room)

def sequence (h : Heap E) (t : TableId) : List Value :=
  let x := h.table t
  (List.range x.border).map fun i : Nat => x.getInt (i + 1)

def decode (h : Heap E) (room : Nat) : (s : Shape E.Tag) → Value → Except Error (s.Carrier E)
  | .boolean, v => match v with
    | .boolean b => .ok b
    | v => .error (.typeMismatch .boolean v.kind)
  | .number, v => match v with
    | .number n => .ok n
    | v => .error (.typeMismatch .number v.kind)
  | .single, v => match v with
    | .number n => .ok (Single.ofNumber n)
    | v => .error (.typeMismatch .number v.kind)
  | .int w, v => match v with
    | .number n => .ok (.ofNumber w n)
    | v => .error (.typeMismatch .number v.kind)
  | .string, v | .sharedString, v => match v with
    | .string s => .ok s
    | v => .error (.typeMismatch .string v.kind)
  | .light, v => match v with
    | .light a => .ok a
    | v => .error (.typeMismatch .light v.kind)
  | .value, v => .ok v
  | .hostValue, v => h.hostValue room v
  | .hostMap, v => match v with
    | .table t => h.hostMap room t
    | v => .error (.typeMismatch .table v.kind)
  | .table, v => match v with
    | .table t => .ok t
    | v => .error (.typeMismatch .table v.kind)
  | .view, v => match v with
    | .table t => .ok ⟨t⟩
    | v => .error (.typeMismatch .table v.kind)
  | .function, v => match v with
    | .function f => .ok ⟨f⟩
    | v => .error (.typeMismatch .function v.kind)
  | .userdata, v => match v with
    | .userdata u => .ok u
    | v => .error (.typeMismatch .userdata v.kind)
  | .object t, v => match v with
    | .userdata u => do
      let r ← h.refOf t u
      h.admits r .shared
      h.payload r
    | v => .error (.typeMismatch .userdata v.kind)
  | .ref t, v => match v with
    | .userdata u => h.refOf t u
    | v => .error (.typeMismatch .userdata v.kind)
  | .option s, v => match v with
    | .nil => .ok none
    | v => return some (← decode h room s v)
  | .list s, v => match v with
    | .table t => (h.sequence t).mapM (decode h room s)
    | v => .error (.typeMismatch .table v.kind)

end Heap

namespace State
variable {E : Embedding}

def decode (st : State E) (s : Shape E.Tag) (v : Value) : Except Error (s.Carrier E) :=
  st.heap.decode st.config.maxConversionDepth s v

def decodeSlot (st : State E) (s : Shape E.Tag) (index : Int) : Except Error (s.Carrier E) := do
  st.decode s (← st.slot index)

/-- A compiled binding, which is known by its place among those of the process. -/
def sharedBinding (st : State E) {t : E.Tag} (b : Binding E t) : SharedBinding :=
  ⟨st.compiled.idxOf t, b.outline⟩

def decodeTop (st : State E) : (ss : List (Shape E.Tag)) → Except Error (Tuple E ss)
  | [] => .ok ()
  | s :: ss => do
    let x ← st.decodeSlot s (-(ss.length + 1))
    let xs ← st.decodeTop ss
    return (x, xs)

end State

namespace Run
variable {E : Embedding}

/-- The binding of a host type, which is compiled on first use and shared from then on. A binding that
is refused is not kept. -/
def bindingFor (H : Host E) (t : E.Tag) : Run E SharedBinding := do
  let b ← ofExcept (H.binding t)
  modify (·.compile t)
  return (← get).sharedBinding b

def hookName (b : String) (e : Event) : String := b ++ "." ++ e.key

def addHooks (t : E.Tag) (name : String) : List Event → Table → Run E Table
  | [], x => pure x
  | e :: es, x => do
    let f ← allocCallable { name := hookName name e, entry := .hook t e }
    addHooks t name es (x.setStr e.key (.function f))

/-- The metatable of a host type, made and published under the name of the type on first use. -/
def install (H : Host E) (t : E.Tag) : Run E TableId := do
  match (← get).typeMetatable? t with
  | some m => return m
  | none =>
    let b ← ofExcept (H.binding t)
    let events := [Event.index, Event.newIndex] ++ b.operators.map Operator.event
    let m ← allocTable (← addHooks t b.name events (Table.empty.setStr Event.name.key (.string b.name)))
    setStr (← get).registry b.name (.table m)
    modify fun s => { s with typeMetatables := s.typeMetatables ++ [(t, m)] }
    return m

/-- A userdata through which scripts reach the members of an object. -/
def reflect (H : Host E) (t : E.Tag) (r : HostRef E t) : Run E UserdataId := do
  let _ ← bindingFor H t
  let m ← install H t
  allocUserdata { tag := t, object := r.object, metatable := some m, reflected := true }

def carry (t : E.Tag) (r : HostRef E t) : Run E UserdataId :=
  allocUserdata { tag := t, object := r.object, metatable := none, reflected := false }

mutual

def encodeHostValue : HostValue → Run E Value
  | .nil => pure .nil
  | .boolean b => pure (.boolean b)
  | .number n => pure (.number n)
  | .string s => pure (.string s)
  | .map m => do
    let x ← encodeHostMap m .empty
    return .table (← allocTable x)
  | .function f => pure (.function f)
  | .userdata u => pure (.userdata u)
  | .light a => pure (.light a)

/-- Adds the pairs of a host map to a table that is not on the heap yet; nil values are left out. -/
def encodeHostMap : HostMap → Table → Run E Table
  | .empty, x => pure x
  | .pair k v r, x => do
    let value ← encodeHostValue v
    if value.isNil then encodeHostMap r x
    else encodeHostMap r (← ofExcept (x.set k.toValue value))

end

def sequenceTable (vs : List Value) : Table :=
  (vs.foldl (fun (x, i) v => (x.setInt i v, i + 1)) (Table.empty, (1 : Int))).1

def encode (H : Host E) : (s : Shape E.Tag) → s.Carrier E → Run E Value
  | .boolean, b => pure (.boolean b)
  | .number, n => pure (.number n)
  | .single, x => pure (.number x.widen)
  | .int _, i => pure (.ofInt i.val)
  | .string, s | .sharedString, s => pure (.string s)
  | .light, a => pure (.light a)
  | .value, v => pure v
  | .hostValue, x => encodeHostValue x
  | .hostMap, m => do return .table (← allocTable (← encodeHostMap m .empty))
  | .table, t => pure (.table t)
  | .view, x => pure (.table x.table)
  | .function, f => pure (.function f.id)
  | .userdata, u => pure (.userdata u)
  | .object t, x => do
    let _ ← bindingFor H t
    return .userdata (← reflect H t (← allocObject t x))
  | .ref t, r => return .userdata (← carry t r)
  | .option s, x => match x with
    | some x => encode H s x
    | none => pure .nil
  | .list s, xs => do
    let vs ← xs.mapM (encode H s)
    return .table (← allocTable (sequenceTable vs))

def encodeAll (H : Host E) : (ss : List (Shape E.Tag)) → Tuple E ss → Run E Unit
  | [], _ => pure ()
  | s :: ss, (x, xs) => do
    push (← encode H s x)
    encodeAll H ss xs

end Run
end HostBridge
