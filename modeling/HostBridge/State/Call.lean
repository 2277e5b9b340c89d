import HostBridge.State.Dispatch
import HostBridge.State.Ownership
/-!
Calls, and the meaning of actions. A call puts the frame above the function slot, runs the callee
and puts the reported results in place of function and arguments. How deep calls may nest is bounded
by the configuration, and `enter` recurses on what is left of that bound.

`enter` in the arguments of a definition runs the body of a function on the current frame.
-/
namespace HostBridge
namespace Run
variable {E : Embedding}

/-- A way of running the body of a function, which reports how many results it left. -/
abbrev Enter (E : Embedding) := FunctionId → Run E Nat

def insertHandler (func : Nat) (v : Value) : Run E FunctionId := do
  let s ← get
  match s.heap.metafield v .call with
  | .function f =>
    if s.stack.isFull then raise .stackOverflow
    modifySlots (·.insertIdxIfInBounds func (.function f))
    return f
  | _ => raise (.notCallable v.kind)

/-- The function that a call of the value at position `func` runs. A value with a handler for calls
becomes the first argument of that handler. -/
def callee (func : Nat) : Run E FunctionId := do
  match ← read (·.stack.get func) with
  | .function f => return f
  | v => insertHandler func v

/-- The results of a call, adjusted to the number that was asked for; a negative number asks for
all. -/
def adjust (results : List Value) (nresults : Int) : List Value :=
  if nresults < 0 then results
  else results.take nresults.toNat ++ List.replicate (nresults.toNat - results.length) .nil

def overreport (name : String) (returned available : Nat) : Panic :=
  ⟨some ("native function '" ++ name ++ "' reported " ++ toString returned ++
    " results but its frame holds " ++ toString available)⟩

def inFrame {α : Type} (frame : Nat) (body : Run E α) : Run E α := do
  let base := (← get).base
  modify (·.descend frame)
  try
    let x ← body
    modify (·.ascend base)
    pure x
  catch
    | .raised e =>
      modify (·.ascend base)
      raise e
    | .panicked p => throw (.panicked p)

/-- Puts the top `returned` values of the callee's frame in place of function and arguments. -/
def deliver (f : FunctionId) (func returned : Nat) (nresults : Int) : Run E Unit := do
  let s ← get
  let available := s.stack.size - (func + 1)
  if available < returned then
    modify (·.withOverreport)
    throw (.panicked (overreport (s.heap.functionName f) returned available))
  let results := (s.stack.slots.extract (s.stack.size - returned) s.stack.size).toList
  truncate func
  pushAll (adjust results nresults)

def callAt (enter : Enter E) (func : Nat) (nresults : Int) : Run E Unit := do
  let f ← callee func
  let s ← get
  if s.config.maxCallDepth ≤ s.callDepth then raise .stackOverflow
  let returned ← inFrame (func + 1) (enter f)
  deliver f func returned nresults

/-- The stack position below the top `nargs` values of the frame. -/
def callPosition (nargs : Int) : Run E Nat := do
  if nargs < 0 then raise (.invalidIndex nargs)
  let s ← get
  if s.stack.size < s.base + nargs.toNat + 1 then raise .stackUnderflow
  return s.stack.size - nargs.toNat - 1

def orTruncate {α : Type} (func : Nat) (body : Run E α) : Run E α :=
  try body
  catch
    | .raised e => do
      truncate func
      raise e
    | .panicked p => throw (.panicked p)

def call (enter : Enter E) (nargs nresults : Int) : Run E Unit := do
  let func ← callPosition nargs
  orTruncate func (callAt enter func nresults)

def pcall (enter : Enter E) (nargs nresults : Int) : Run E CallStatus := do
  let func ← callPosition nargs
  try
    callAt enter func nresults
    pure .ok
  catch
    | .raised e => do
      truncate func
      push (.string e.message)
      modify fun s => { s with lastError := some e }
      return .ofError e
    | .panicked p => throw (.panicked p)

def callValue (enter : Enter E) (f : Value) (args : List Value) (nresults : Int) :
    Run E (List Value) := do
  let func := (← get).stack.size
  push f
  orTruncate func do
    pushAll args
    callAt enter func nresults
  let s ← get
  let results := (s.stack.slots.extract func s.stack.size).toList
  truncate func
  return results

/-- Runs `body` while the values of `vs` wait. They are let go of however it ends. -/
def keeping {α : Type} : List Value → Run E α → Run E α
  | [], body => body
  | vs, body => fun s =>
    match body (s.awaiting (vs ++ s.waiting)) with
    | .ok x t => .ok x (t.awaiting s.waiting)
    | .error f t => .error f (t.awaiting s.waiting)

def newCallable (c : Callable E) : Run E FunctionId := do
  match c.entry with
  | .closure code =>
    modify fun s =>
      let key := (E.params code, E.results code)
      if key ∈ s.thunks then s else { s with thunks := s.thunks ++ [key] }
  | _ => pure ()
  allocCallable c

def callableOf (f : FunctionId) : Run E (Callable E) := do
  match (← get).heap.callable? f with
  | some c => return c
  | none => raise (.notCallable .function)

def tagOf (u : UserdataId) : Run E E.Tag := do
  match (← get).heap.userdata? u with
  | some d => return d.tag
  | none => raise (.typeMismatch .userdata .nil)

/-- Ends a statement: what nothing refers to any more is released, first the values of `before`. -/
def endStatement (H : Host E) (before : List Value) : Run E Unit := do
  unlessPanic (← modifyGet fun s =>
    let t := s.settle H before
    (t.finalized, t))

def perform (enter : Enter E) (H : Host E) : (o : Op E) → Run E o.Answer
  | .top => return (← get).top
  | .slot i => read (·.slot i)
  | .argument n => return (← get).argument n
  | .absolute i => read (·.absolute i)
  | .setTop i => setTop i
  | .push v => push v
  | .pop => pop
  | .drop n => drop n
  | .insert i => insert i
  | .remove i => remove i
  | .replace i => replace i
  | .newTable => allocTable .empty
  | .table t => table t
  | .setRaw t k v => setRaw t k v
  | .metatable v => return (← get).heap.metatable v
  | .assignMetatable v m => assignMetatable v m
  | .globals => return (← get).globals
  | .registry => return (← get).registry
  | .newNative name code => newCallable { name := name, entry := .native code }
  | .newClosure name code => newCallable { name := name, entry := .closure code }
  | .newForeign name expected => newCallable { name := name, entry := .foreign expected }
  | .functionName f => return (← callableOf f).name
  | .signature f => return (← callableOf f).signature
  | .thunkCount => return (← get).thunks.length
  | .call n r => call enter n r
  | .pcall n r => pcall enter n r
  | .callValue f args r waiting => keeping waiting (callValue enter f args r)
  | .takeError => modifyGet fun s => (s.lastError, { s with lastError := none })
  | .callDepth => return (← get).callDepth
  | .newObject t x => allocObject t x
  | .reflect t r => reflect H t r
  | .carry t r => carry t r
  | .tagOf u => tagOf u
  | .read _ r => do
    read (·.heap.admits r .shared)
    read (·.heap.payload r)
  | .write _ r x => do
    read (·.heap.admits r .exclusive)
    modifyHeap (·.setPayload r x)
  | .acquire _ r a => do
    read (·.heap.admits r a)
    modifyHeap (·.modifyBorrow r.object (·.add a))
  | .release _ r a => modifyHeap (·.modifyBorrow r.object (·.drop a))
  | .shareCount o => return (← get).shareCount H o
  | .settle vars => do
    modify (·.assign vars)
    endStatement H []
  | .registerType t => do
    let b ← bindingFor H t
    let _ ← install H t
    return b
  | .isRegistered t => return (← get).compiled.contains t
  | .encode s x => encode H s x
  | .decode s v => read (·.decode s v)
  | .config => return (← get).config
  | .setPolicy p => modify fun s => { s with config := { s.config with missingMember := p } }
  | .display v => return (← get).heap.display v
  | .listing v => return (← get).heap.listing v
  | .describe => return (← get).describe
  | .world => return (← get).world
  | .setWorld w => modify fun s => { s with world := w }
  | .close => modify State.close

def action (enter : Enter E) (H : Host E) {α : Type} (a : Action E α) : Run E α :=
  act (perform enter H) a

/-- Runs a closure on the values of the frame, of which it takes as many as it declares, and leaves
its results on top. -/
def runClosure (go : Runner E) (H : Host E) (code : E.Closure) : Run E Nat := do
  setTop (E.params code).count
  let args ← read (·.decodeTop (E.params code).shapes)
  let results ← act go (H.closure code args)
  encodeAll H (E.results code).shapes results
  return (E.results code).count

def runEntry (go : Runner E) (H : Host E) : Entry E → Run E Nat
  | .native code => act go (H.native code)
  | .closure code => runClosure go H code
  | .hook t e => handle go H t e
  | .method t i u => callMethod go H t i u
  | .foreign expected => raise (.foreignState expected)

/-- Turns a panic into an error if the configuration asks for it. Borrows that were taken on the way
to the panic end with it. -/
def catchPanics (name : String) (body : Run E Nat) : Run E Nat := fun s =>
  if s.config.catchPanics then
    let objects := s.heap.objects
    match body s with
    | .error (.panicked p) s =>
      .error (.raised (.hostCallableFault name p.message))
        { s with heap := s.heap.restoreBorrows objects }
    | r => r
  else body s

/-- Runs the body of a function, at most `depth` calls deep. -/
def enter (H : Host E) : Nat → Enter E
  | 0, _ => raise .stackOverflow
  | depth + 1, f => do
    let c ← callableOf f
    catchPanics c.name (runEntry (perform (enter H depth) H) H c.entry)

end Run

namespace State
variable {E : Embedding} {α : Type}

def depthLeft (s : State E) : Nat := s.config.maxCallDepth - s.callDepth

def runAction (H : Host E) (a : Action E α) : Run E α := fun s =>
  Run.action (Run.enter H s.depthLeft) H a s

/-- Runs an action from outside of the state, as a statement. A panic of the action comes before one
of a finalizer. -/
def exec (H : Host E) (a : Action E α) : Run E α := fun s =>
  let before := if s.heap.userdata.isEmpty then [] else s.stack.slots.toList
  match runAction H a s with
  | .ok x s => (Run.endStatement H before >>= fun _ => pure x) s
  | .error (.raised e) s => (Run.endStatement H before >>= fun _ => Run.raise e) s
  | .error (.panicked p) s => .error (.panicked p) (s.settle H before)

end State
end HostBridge
