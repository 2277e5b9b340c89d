import HostBridge.Binding
import Std.Data.HashSet
/-!
The heap: every table, function, userdata and host object that a state made, by number. Numbers are
never used again. An object that nothing refers to any more is `released`.
-/
namespace HostBridge

inductive Entry (E : Embedding) where
  | native (code : E.Native)
  | closure (code : E.Closure)
  /-- The handler that a host type's metatable stores under an event. -/
  | hook (t : E.Tag) (event : Event)
  /-- A method taken from an instance. -/
  | method (t : E.Tag) (index : Nat) (receiver : UserdataId)
  /-- An entry point whose state is none of its own. -/
  | foreign (expected : String)

structure Callable (E : Embedding) where
  name : String
  entry : Entry E

def Callable.signature {E : Embedding} (c : Callable E) : Signature :=
  match c.entry with
  | .closure code => Signature.of E (E.params code) (E.results code)
  | _ => Signature.native

/-- Who uses an object: any number of readers, or one writer. -/
structure Borrow where
  readers : Nat := 0
  writer : Bool := false
  deriving DecidableEq, Repr, Inhabited

namespace Borrow

def admits (b : Borrow) : Access → Bool
  | .shared => !b.writer
  | .exclusive => !b.writer && b.readers == 0

def add (b : Borrow) : Access → Borrow
  | .shared => { b with readers := b.readers + 1 }
  | .exclusive => { b with writer := true }

def drop (b : Borrow) : Access → Borrow
  | .shared => { b with readers := b.readers - 1 }
  | .exclusive => { b with writer := false }

end Borrow

structure Object (E : Embedding) where
  tag : E.Tag
  payload : E.Payload tag
  borrow : Borrow := {}

def Object.as? {E : Embedding} (o : Object E) (t : E.Tag) : Option (E.Payload t) :=
  if h : o.tag = t then some (h ▸ o.payload) else none

def Object.contents {E : Embedding} (o : Object E) : List Entity := E.contents o.tag o.payload

/-- A value that stands for a host object. Those made by `reflect` are reflected: they carry the
finalizer of their type. -/
structure Userdata (E : Embedding) where
  tag : E.Tag
  object : ObjectId
  metatable : Option TableId
  reflected : Bool
  /-- Whether the metatable was set after the userdata was made. Nothing depends on it. -/
  reassigned : Bool := false

def Userdata.contents {E : Embedding} (d : Userdata E) : List Entity :=
  .object d.object :: (d.metatable.map fun m => Entity.value (.table m)).toList

def Userdata.withMetatable {E : Embedding} (d : Userdata E) (m : Option TableId) : Userdata E :=
  { d with metatable := m, reassigned := true }

structure Heap (E : Embedding) where
  tables : Array Table := #[]
  callables : Array (Callable E) := #[]
  userdata : Array (Userdata E) := #[]
  objects : Array (Object E) := #[]
  released : Std.HashSet Entity := ∅

namespace Heap
variable {E : Embedding}

def table (h : Heap E) (t : TableId) : Table := h.tables.getD t.index .empty

def modifyTable (h : Heap E) (t : TableId) (f : Table → Table) : Heap E :=
  { h with tables := h.tables.modify t.index f }

def allocTable (h : Heap E) (t : Table) : TableId × Heap E :=
  (⟨h.tables.size⟩, { h with tables := h.tables.push t })

def allocCallable (h : Heap E) (c : Callable E) : FunctionId × Heap E :=
  (⟨h.callables.size⟩, { h with callables := h.callables.push c })

def allocUserdata (h : Heap E) (u : Userdata E) : UserdataId × Heap E :=
  (⟨h.userdata.size⟩, { h with userdata := h.userdata.push u })

def allocObject (h : Heap E) (o : Object E) : ObjectId × Heap E :=
  (⟨h.objects.size⟩, { h with objects := h.objects.push o })

def userdata? (h : Heap E) (u : UserdataId) : Option (Userdata E) := h.userdata[u.index]?
def callable? (h : Heap E) (f : FunctionId) : Option (Callable E) := h.callables[f.index]?
def object? (h : Heap E) (o : ObjectId) : Option (Object E) := h.objects[o.index]?

def typeName (h : Heap E) (u : UserdataId) : String :=
  match h.userdata? u with
  | some d => E.tagName d.tag
  | none => ""

def functionName (h : Heap E) (f : FunctionId) : String :=
  match h.callable? f with
  | some c => c.name
  | none => ""

def display (h : Heap E) (v : Value) : String := v.display h.typeName
def listing (h : Heap E) (v : Value) : String := v.listing h.typeName h.functionName

def metatable (h : Heap E) : Value → Option TableId
  | .table t => (h.table t).metatable
  | .userdata u => (h.userdata? u).bind Userdata.metatable
  | _ => none

/-- The handler for an event in the metatable of a value, or nil. -/
def metafield (h : Heap E) (v : Value) (e : Event) : Value :=
  match h.metatable v with
  | some m => (h.table m).getStr e.key
  | none => .nil

def setMetatable (h : Heap E) (v : Value) (m : Option TableId) : Except Error (Heap E) :=
  match v with
  | .table t => .ok (h.modifyTable t fun x => { x with metatable := m })
  | .userdata u => .ok { h with userdata := h.userdata.modify u.index (·.withMetatable m) }
  | v => .error (.fixedMetatable v.kind)

def refOf (h : Heap E) (t : E.Tag) (u : UserdataId) : Except Error (HostRef E t) :=
  match h.userdata? u with
  | some d =>
    if d.tag = t then .ok ⟨d.object⟩
    else .error (.userdataTypeMismatch (E.tagName t) (E.tagName d.tag))
  | none => .error (.userdataTypeMismatch (E.tagName t) "")

/-- The payload behind a handle, whoever uses it. -/
def payload (h : Heap E) {t : E.Tag} (r : HostRef E t) : Except Error (E.Payload t) :=
  match (h.object? r.object).bind (·.as? t) with
  | some x => .ok x
  | none => .error (.userdataTypeMismatch (E.tagName t) "")

def admits (h : Heap E) {t : E.Tag} (r : HostRef E t) (a : Access) : Except Error Unit :=
  match h.object? r.object with
  | some o => if o.borrow.admits a then .ok () else .error (.instanceBorrowed (E.tagName t))
  | none => .ok ()

def modifyBorrow (h : Heap E) (o : ObjectId) (f : Borrow → Borrow) : Heap E :=
  { h with objects := h.objects.modify o.index fun x => { x with borrow := f x.borrow } }

def setPayload (h : Heap E) {t : E.Tag} (r : HostRef E t) (x : E.Payload t) : Heap E :=
  { h with objects := h.objects.modify r.object.index fun o =>
      if o.tag = t then { tag := t, payload := x, borrow := o.borrow } else o }

/-- Gives the objects the borrows of an earlier list of them; those it lacks are free. -/
def restoreBorrows (h : Heap E) (old : Array (Object E)) : Heap E :=
  { h with objects := h.objects.mapIdx fun i o =>
      { o with borrow := match old[i]? with
          | some p => p.borrow
          | none => {} } }

def children (h : Heap E) : Entity → List Entity
  | .value (.table t) => (h.table t).contents.map .value
  | .value (.function f) =>
    match h.callable? f with
    | some ⟨_, .method _ _ u⟩ => [.value (.userdata u)]
    | _ => []
  | .value (.userdata u) => (h.userdata? u).elim [] Userdata.contents
  | .value _ => []
  | .object o => (h.object? o).elim [] Object.contents

end Heap
end HostBridge
