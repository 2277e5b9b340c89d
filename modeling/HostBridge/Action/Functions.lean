import HostBridge.Action.Access

namespace HostBridge
namespace Action
variable {E : Embedding}

def call (nargs nresults : Int) : Action E Unit := perform (.call nargs nresults)

/-- Calls a value in protected mode: a failure leaves its message in place of the results. -/
def pcall (nargs nresults : Int) : Action E CallStatus := perform (.pcall nargs nresults)

def takeError : Action E (Option Error) := perform .takeError

def callDepth : Action E Nat := perform .callDepth
def thunkCount : Action E Nat := perform .thunkCount

def pushNative (name : String) (code : E.Native) : Action E Unit := do
  push (.function (← perform (.newNative name code)))

def registerNative (name : String) (code : E.Native) : Action E Unit := do
  pushNative name code
  setGlobal name

def createFunction (name : String) (code : E.Closure) : Action E ScriptFunction :=
  return ⟨← perform (.newClosure name code)⟩

def pushFunction (name : String) (code : E.Closure) : Action E Unit := do
  push (.function (← createFunction name code).id)

def register (name : String) (code : E.Closure) : Action E Unit := do
  pushFunction name code
  setGlobal name

end Action

open HostBridge.Action
namespace ScriptFunction
variable {E : Embedding}

def value (f : ScriptFunction) : Value := .function f.id

/-- Pushes the function and its arguments, and counts the arguments. -/
def place (f : ScriptFunction) (args : List (Shape E.Tag)) (xs : Tuple E args) : Action E Nat := do
  push f.value
  pushList args xs

/-- Sets the frame back to `top` values after `body`, whose outcome it keeps. -/
def restoring {α : Type} (body : Action E α) : Action E α := do
  let top ← top
  let outcome ← body.attempt
  setTop top
  Prog.ofExcept outcome

def call (f : ScriptFunction) (args results : List (Shape E.Tag)) (xs : Tuple E args) :
    Action E (Tuple E results) :=
  restoring do
    let n ← f.place args xs
    Action.call n results.length
    readList results

/-- Calls the function in protected mode; its failure comes back as its message. -/
def callProtected (f : ScriptFunction) (args results : List (Shape E.Tag)) (xs : Tuple E args) :
    Action E (Tuple E results) :=
  restoring do
    let n ← f.place args xs
    match ← Action.pcall n results.length with
    | .ok => readList results
    | _ =>
      match ← takeError with
      | some e => throw (.runtime e.message)
      | none => throw (.runtime (← readAs .string (-1)))

def placeBelow (f : ScriptFunction) (nargs : Int) : Action E Unit := do
  if nargs < 0 ∨ (← top) < nargs then throw .stackUnderflow
  push f.value
  insert (-(nargs + 1))

def invoke (f : ScriptFunction) (nargs nresults : Int) : Action E Unit := do
  f.placeBelow nargs
  Action.call nargs nresults

def invokeProtected (f : ScriptFunction) (nargs nresults : Int) : Action E CallStatus := do
  f.placeBelow nargs
  Action.pcall nargs nresults

end ScriptFunction
end HostBridge
