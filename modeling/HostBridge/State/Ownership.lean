import HostBridge.State.Basic
import HostBridge.Table.Basic
/-!
Release of objects. An object of the heap lives as long as something refers to it: a slot, a value
that waits off the stack, a table of the state, a variable of a running function, the embedding
program's data or an object that lives itself, so objects that only refer to each other live on.
`settle` releases what nothing refers to any more. A reflected userdata that is the only owner of its
host object when it is released runs the finalizer of its type.
-/
namespace HostBridge

def Heap.living {E : Embedding} (h : Heap E) : List Entity :=
  ((List.range h.userdata.size).map fun i => Entity.value (.userdata ⟨i⟩)) ++
    ((List.range h.callables.size).map fun i => Entity.value (.function ⟨i⟩)) ++
    ((List.range h.tables.size).map fun i => Entity.value (.table ⟨i⟩)) ++
    ((List.range h.objects.size).map fun i => Entity.object ⟨i⟩) |>.filter (!h.released.contains ·)

namespace State
variable {E : Embedding}

def own (s : State E) : List Value :=
  s.stack.slots.toList ++ [.table s.globals, .table s.registry] ++
    s.typeMetatables.map fun p => .table p.2

/-- What the state itself refers to, also for the functions that it runs. -/
def keeps (s : State E) : List Entity :=
  (s.own ++ s.waiting).map Entity.value ++ s.locals.flatten

/-- What the embedding program's data refers to. -/
def holdings (H : Host E) (w : E.World) : List Entity :=
  (H.values w).map Entity.value ++ (H.handles w).map Entity.object

def roots (H : Host E) (s : State E) : List Entity := s.keeps ++ holdings H s.world

/-- Every mention of something by the state, the embedding program's data or what lives. -/
def mentions (H : Host E) (s : State E) : List Entity :=
  s.roots H ++ s.heap.living.flatMap s.heap.children

abbrev References := Std.HashMap Entity Nat

def countUp (m : References) (es : List Entity) : References :=
  es.foldl (fun m e => if e.isReference then m.insert e (m.getD e 0 + 1) else m) m

def countDown (m : References) (es : List Entity) : References :=
  es.foldl (fun m e => if e.isReference then m.insert e (m.getD e 0 - 1) else m) m

/-- Runs the finalizer of a userdata that is about to be released, unless its object has another
owner or is in use. The first panic is the one that is kept. -/
def finalize (H : Host E) (s : State E) (u : UserdataId) : State E :=
  match s.heap.userdata? u with
  | none => s
  | some d =>
    if d.reflected && (s.mentions H).count (.object d.object) == 1 then
      match H.binding d.tag, s.heap.payload (t := d.tag) ⟨d.object⟩,
          s.heap.admits (t := d.tag) ⟨d.object⟩ .exclusive with
      | .ok b, .ok x, .ok () =>
        match b.finalizer with
        | some f =>
          { s with world := (f x s.world).1, finalized := s.finalized *> (f x s.world).2 }
        | none => s
      | _, _, _ => s
    else s

def release (H : Host E) (s : State E) (e : Entity) : State E :=
  let s := match e with
    | .value (.userdata u) => s.finalize H u
    | _ => s
  { s with heap := { s.heap with released := s.heap.released.insert e } }

/-- Releases what is listed and has no reference, and after each what it alone referred to. -/
def releaseAll (H : Host E) (s : State E) (refs : References) : Nat → List Entity → State E
  | 0, _ => s
  | _, [] => s
  | fuel + 1, e :: es =>
    if e.isReference && !s.heap.released.contains e && refs.getD e 0 == 0 then
      let cs := s.heap.children e
      releaseAll H (s.release H e) (countDown refs cs) fuel (cs ++ es)
    else releaseAll H s refs fuel es

def settling (s : State E) : State E := { s with dropped := [], finalized := .ok () }

/-- Releases what nothing refers to: first the values of `before`, in order, then the rest. Without
userdata there is nothing to finalize and objects are left alone. -/
def settle (H : Host E) (before : List Value) (s : State E) : State E :=
  if s.heap.userdata.isEmpty then s.settling
  else
    let work := (s.dropped ++ before).map Entity.value ++ s.heap.living
    let fuel := work.length + (s.heap.living.flatMap s.heap.children).length
    s.settling.releaseAll H (countUp ∅ (s.mentions H)) fuel work

/-- How many handles and userdata share an object. -/
def shareCount (H : Host E) (s : State E) (o : ObjectId) : Nat :=
  ((s.settle H []).mentions H).count (.object o)

/-- How many values `close` has to look at, at most. -/
def volume (s : State E) (pending : List Value) : Nat :=
  2 * (pending.length + (s.heap.tables.toList.flatMap Table.contents).length)

/-- Empties the tables that are reachable from `pending`, and lists what was reachable in the order
in which it was let go. -/
def emptyReachable (h : Heap E) : Nat → List Value → List Value → Heap E × List Value
  | 0, _, done => (h, done.reverse)
  | _, [], done => (h, done.reverse)
  | fuel + 1, v :: pending, done =>
    match v with
    | .table t =>
      emptyReachable (h.modifyTable t fun _ => .empty) fuel ((h.table t).contents.reverse ++ pending)
        (v :: done)
    | .userdata u =>
      emptyReachable h fuel (((h.metatable (.userdata u)).map Value.table).toList ++ pending)
        (v :: done)
    | _ => emptyReachable h fuel pending (v :: done)

/-- Lets go of everything: clears the stack and the caches, and empties every table that was
reachable from the stack, the globals, the registry or a host type's metatable. -/
def close (s : State E) : State E :=
  let pending := s.own.reverse
  let (h, dropped) := emptyReachable s.heap (s.volume pending) pending []
  { s with
    stack := s.stack.clear
    base := 0
    typeMetatables := []
    thunks := []
    lastError := none
    heap := h
    dropped := s.dropped ++ dropped
    closings := s.callDepth :: s.closings }

end State
end HostBridge
