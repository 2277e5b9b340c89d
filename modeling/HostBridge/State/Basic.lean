import HostBridge.State.Heap
import HostBridge.Stack
/-!
A state and its frame. The frame of the running function is the part of the stack above `base`; its
slots are numbered from one, or from the top by negative indices.
-/
namespace HostBridge

/-- How high a stack and how deep a nesting of calls have been so far. -/
structure Peak where
  size : Nat := 0
  depth : Nat := 0
  deriving DecidableEq, Repr, Inhabited

/-- The code that a host type declares for its members, by sort. -/
inductive MemberCode where
  | getter | setter | method | unaryOperator | binaryOperator
  deriving DecidableEq, Repr, Inhabited

def MemberCode.operands : MemberCode → Nat
  | binaryOperator => 2
  | _ => 1

/-- A run of code that host type `tag` declares, with the instances it was handed. -/
structure MemberRun (E : Embedding) where
  tag : E.Tag
  code : MemberCode
  instances : List UserdataId

structure State (E : Embedding) where
  stack : Stack
  base : Nat := 0
  callDepth : Nat := 0
  globals : TableId
  registry : TableId
  /-- The host types whose bindings are compiled, in that order. The process keeps them for good, and
  a state begins with those that it finds. -/
  compiled : List E.Tag := []
  /-- The metatable of each host type that has one in this state. -/
  typeMetatables : List (E.Tag × TableId) := []
  /-- The argument and result types of the closures made so far. -/
  thunks : List (Params E.Tag × Params E.Tag) := []
  lastError : Option Error := none
  config : Config
  heap : Heap E
  world : E.World
  /-- What `close` took from the stack and out of tables, in the order in which it let go of it. -/
  dropped : List Value := []
  /-- What operations keep off the stack while the handlers run that they have called. -/
  waiting : List Value := []
  /-- What the variables of the running functions refer to, those of the innermost first. -/
  locals : List (List Entity) := []
  /-- How the finalizers have ended that ran when the state settled last. -/
  finalized : Except Panic Unit := .ok ()
  /-- Every change of the stack and every call is taken into account here. -/
  peak : Peak := {}
  /-- Every run of member code is put on record here, the latest first. -/
  memberRuns : List (MemberRun E) := []
  /-- The call depth at each `close` is put on record here, the latest first. -/
  closings : List Nat := []
  /-- Every call whose callee reported more results than its frame held is put on record here, the
  latest first, by the call depth that it was made at. -/
  overreports : List Nat := []

inductive Fault where
  | raised (e : Error)
  | panicked (p : Panic)
  deriving Inhabited

/-- Runs against a state. A fault keeps the state that it arose in. -/
abbrev Run (E : Embedding) := EStateM Fault (State E)

namespace State
variable {E : Embedding}

/-- The key under which a globals table refers to itself, and the registry to it. -/
def globalsKey : String := "_G"

def new (config : Config) (world : E.World) (compiled : List E.Tag := []) : State E :=
  let globals : TableId := ⟨0⟩
  let own := Table.empty.setStr globalsKey (.table globals)
  { stack := { maxDepth := config.maxStackDepth }
    globals := globals
    registry := ⟨1⟩
    compiled := compiled
    config := config
    heap := { tables := #[own, own] }
    world := world }

def mapSlots (s : State E) (f : Array Value → Array Value) : State E :=
  let slots := f s.stack.slots
  { s with
    stack := { s.stack with slots := slots }
    peak := { s.peak with size := max s.peak.size slots.size } }

/-- One call deeper, on the frame that begins at `frame`. -/
def descend (s : State E) (frame : Nat) : State E :=
  { s with
    base := frame
    callDepth := s.callDepth + 1
    locals := [] :: s.locals
    peak := { s.peak with depth := max s.peak.depth (s.callDepth + 1) } }

def ascend (s : State E) (base : Nat) : State E :=
  { s with base := base, callDepth := s.callDepth - 1, locals := s.locals.tail }

def awaiting (s : State E) (vs : List Value) : State E := { s with waiting := vs }

/-- `s` once the variables of the running function refer to `vars`. -/
def assign (s : State E) (vars : List Entity) : State E :=
  { s with locals := vars :: s.locals.tail }

/-- On record that the callee of the running function reported more results than it left. -/
def withOverreport (s : State E) : State E :=
  { s with overreports := s.callDepth :: s.overreports }

/-- The size of the frame; negative when the stack ends below the base. -/
def top (s : State E) : Int := s.stack.size - s.base

/-- The stack position of a slot. The frame that a nested `close` leaves behind begins above the top of
the stack. There negative indices still count from the top, and those past the bottom wrap around. -/
def position (s : State E) (index : Int) : Except Error Nat :=
  if 0 < index then
    let p := s.base + index.toNat - 1
    if p < s.stack.size then .ok p else .error (.invalidIndex index)
  else if index < 0 ∧ index.natAbs ≤ Stack.wrapped s.top then
    .ok (Stack.wrapped (s.stack.size - index.natAbs))
  else .error (.invalidIndex index)

def slot (s : State E) (index : Int) : Except Error Value := do
  let p ← s.position index
  s.stack.get p

def absolute (s : State E) (index : Int) : Except Error Int := do
  let p ← s.position index
  let i : Int := p - s.base + 1
  return if s.top < 0 then i.bmod 0x100000000 else i

/-- The argument with number `n`, or nil if it was not passed. Positions are 64-bit words, so a number
near the end of their range wraps around to a slot below the frame. -/
def argument (s : State E) (n : Nat) : Value :=
  if n = 0 then .nil else s.stack.slots.getD ((s.base + n - 1) % 0x10000000000000000) .nil

/-- A binding that is compiled already stays where it is. -/
def compile (s : State E) (t : E.Tag) : State E :=
  { s with compiled := if t ∈ s.compiled then s.compiled else s.compiled ++ [t] }

def typeMetatable? (s : State E) (t : E.Tag) : Option TableId :=
  (s.typeMetatables.find? (·.1 = t)).map Prod.snd

def describe (s : State E) : String :=
  "State \x7b base: " ++ toString s.base ++ ", call_depth: " ++ toString s.callDepth ++
    ", stack: " ++ s.stack.describe s.heap.listing ++
    ", type_metatables: " ++ toString s.typeMetatables.length ++
    ", thunks: " ++ toString s.thunks.length ++ " \x7d"

end State

namespace Run
variable {E : Embedding} {α : Type}

def raise (e : Error) : Run E α := throw (.raised e)

def ofExcept : Except Error α → Run E α
  | .ok a => pure a
  | .error e => raise e

def read (f : State E → Except Error α) : Run E α := do ofExcept (f (← get))

/-- Goes on with the answer or the error of a run; a panic ends it. -/
def proceed {β : Type} (m : Run E α) (next : Except Error α → Run E β) : Run E β := fun s =>
  match m s with
  | .ok a t => next (.ok a) t
  | .error (.raised e) t => next (.error e) t
  | .error (.panicked p) t => .error (.panicked p) t

def program {F : Effect} (step : (o : F.Op) → Run E (F.Answer o)) : Prog F α → Run E α
  | .done r => ofExcept r
  | .abort p => throw (.panicked p)
  | .perform o next => proceed (step o) fun r => program step (next r)

def unlessPanic : Except Panic α → Run E α
  | .ok a => pure a
  | .error p => throw (.panicked p)

def modifyHeap (f : Heap E → Heap E) : Run E Unit := modify fun s => { s with heap := f s.heap }

def modifySlots (f : Array Value → Array Value) : Run E Unit :=
  modify fun s => s.mapSlots f

def push (v : Value) : Run E Unit := do
  if (← get).stack.isFull then raise .stackOverflow
  modifySlots (·.push v)

def pushAll : List Value → Run E Unit
  | [] => pure ()
  | v :: vs => do
    push v
    pushAll vs

def truncate (n : Nat) : Run E Unit := modifySlots (·.take n)

def pop : Run E Value := do
  let s ← get
  if s.stack.size ≤ s.base then raise .stackUnderflow
  match s.stack.top? with
  | some v =>
    modifySlots (·.pop)
    return v
  | none => raise .stackUnderflow

def drop (n : Nat) : Run E Unit := do
  let s ← get
  if Stack.wrapped s.top < n then raise .stackUnderflow
  if n ≤ s.stack.size then truncate (s.stack.size - n)

def resize (n : Nat) : Run E Unit := do
  let s ← get
  if n < s.stack.size then truncate n
  else if s.stack.maxDepth < n then raise .stackOverflow
  else modifySlots fun a => a ++ Array.replicate (n - a.size) .nil

/-- Sets the size of the frame; a negative index names the new top slot. -/
def setTop (index : Int) : Run E Unit := do
  let s ← get
  if 0 ≤ index then resize (s.base + index.toNat)
  else do
    let p ← ofExcept (s.position index)
    resize (if s.top < 0 then (p + 1) % 0x10000000000000000 else p + 1)

/-- Moves the top value to a slot and the values from there on one up. -/
def insert (index : Int) : Run E Unit := do
  let p ← read (·.position index)
  let v ← pop
  let s ← get
  if s.stack.size < p then raise .stackUnderflow
  if s.stack.isFull then raise .stackOverflow
  modifySlots (·.insertIdxIfInBounds p v)

def remove (index : Int) : Run E Unit := do
  let p ← read (·.position index)
  if (← get).stack.size ≤ p then raise .stackUnderflow
  modifySlots (·.eraseIdxIfInBounds p)

/-- Pops the top value and stores it in a slot; the top slot keeps its own value. -/
def replace (index : Int) : Run E Unit := do
  let p ← read (·.position index)
  let v ← pop
  if (← get).stack.size ≤ p then push v
  else modifySlots (·.setIfInBounds p v)

def table (t : TableId) : Run E Table := return (← get).heap.table t

def allocTable (t : Table) : Run E TableId :=
  modifyGet fun s =>
    let (id, h) := s.heap.allocTable t
    (id, { s with heap := h })

def allocCallable (c : Callable E) : Run E FunctionId :=
  modifyGet fun s =>
    let (id, h) := s.heap.allocCallable c
    (id, { s with heap := h })

def allocUserdata (u : Userdata E) : Run E UserdataId :=
  modifyGet fun s =>
    let (id, h) := s.heap.allocUserdata u
    (id, { s with heap := h })

def allocObject (t : E.Tag) (x : E.Payload t) : Run E (HostRef E t) :=
  modifyGet fun s =>
    let (id, h) := s.heap.allocObject { tag := t, payload := x }
    (⟨id⟩, { s with heap := h })

def setRaw (t : TableId) (key value : Value) : Run E Unit :=
  match Table.keyFault? key with
  | some e => raise e
  | none => modifyHeap fun h => h.modifyTable t fun x => x.put key value

def setStr (t : TableId) (key : String) (value : Value) : Run E Unit :=
  modifyHeap fun h => h.modifyTable t fun x => x.setStr key value

def assignMetatable (v : Value) (m : Option TableId) : Run E Unit := do
  let h ← ofExcept ((← get).heap.setMetatable v m)
  modifyHeap fun _ => h

def borrowing {t : E.Tag} (r : HostRef E t) (a : Access) (body : Run E α) : Run E α := do
  read (·.heap.admits r a)
  modifyHeap (·.modifyBorrow r.object (·.add a))
  try
    let x ← body
    modifyHeap (·.modifyBorrow r.object (·.drop a))
    pure x
  catch f =>
    modifyHeap (·.modifyBorrow r.object (·.drop a))
    throw f

end Run
end HostBridge
