import HostBridge.Op

namespace HostBridge.Action
variable {E : Embedding}

def top : Action E Int := perform .top

def value (index : Int) : Action E Value := perform (.slot index)

def argument (n : Nat) : Action E Value := perform (.argument n)

def absolute (index : Int) : Action E Int := perform (.absolute index)

def kind (index : Int) : Action E Kind := return (← value index).kind

def setTop (index : Int) : Action E Unit := perform (.setTop index)

def push (v : Value) : Action E Unit := perform (.push v)
def pop : Action E Value := perform .pop

def drop (n : Nat) : Action E Unit := perform (.drop n)

def pushCopy (index : Int) : Action E Unit := do push (← value index)

def insert (index : Int) : Action E Unit := perform (.insert index)

def remove (index : Int) : Action E Unit := perform (.remove index)

def replace (index : Int) : Action E Unit := perform (.replace index)

def encode (s : Shape E.Tag) (x : s.Carrier E) : Action E Value := perform (.encode s x)
def decode (s : Shape E.Tag) (v : Value) : Action E (s.Carrier E) := perform (.decode s v)

def pushAs (s : Shape E.Tag) (x : s.Carrier E) : Action E Unit := do push (← encode s x)

def readAs (s : Shape E.Tag) (index : Int) : Action E (s.Carrier E) := do decode s (← value index)

def pushList : (ss : List (Shape E.Tag)) → Tuple E ss → Action E Nat
  | [], _ => return 0
  | s :: ss, (x, xs) => do
    pushAs s x
    return (← pushList ss xs) + 1

def readList : (ss : List (Shape E.Tag)) → Action E (Tuple E ss)
  | [] => return ()
  | s :: ss => do
    let x ← readAs s (-(ss.length + 1))
    let xs ← readList ss
    return (x, xs)

def display (v : Value) : Action E String := perform (.display v)

/-- Pops a value and makes an error of its text; an empty frame gives its own error. -/
def raising : Action E Error :=
  try
    let v ← pop
    return .runtime (← display v)
  catch e => return e

end HostBridge.Action
