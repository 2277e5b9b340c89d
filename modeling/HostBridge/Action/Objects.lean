import HostBridge.Action.Frame

namespace HostBridge
open HostBridge.Action
namespace HostRef
variable {E : Embedding} {t : E.Tag}

def new (t : E.Tag) (x : E.Payload t) : Action E (HostRef E t) := perform (.newObject t x)

/-- The object, unless somebody changes it. -/
def read (r : HostRef E t) : Action E (E.Payload t) := perform (.read t r)

/-- Changes the object, unless somebody uses it. -/
def write (r : HostRef E t) (x : E.Payload t) : Action E Unit := perform (.write t r x)

def update (r : HostRef E t) (f : E.Payload t → E.Payload t) : Action E Unit := do
  r.write (f (← r.read))

def borrowing {α : Type} (r : HostRef E t) (a : Access) (body : Action E α) : Action E α := do
  perform (.acquire t r a)
  let outcome ← body.attempt
  perform (.release t r a)
  Prog.ofExcept outcome

def shareCount (r : HostRef E t) : Action E Nat := perform (.shareCount r.object)

end HostRef

namespace Action
variable {E : Embedding}

/-- Ends a statement, after which the variables of the running function refer to `vars`. What nothing
refers to any more is released. -/
def settle (vars : List Entity) : Action E Unit := perform (.settle vars)

def registerType (t : E.Tag) : Action E SharedBinding := perform (.registerType t)

def isRegistered (t : E.Tag) : Action E Bool := perform (.isRegistered t)

def pushShared {t : E.Tag} (r : HostRef E t) : Action E UserdataId := do
  let u ← perform (.reflect t r)
  push (.userdata u)
  return u

def newInstance (t : E.Tag) (x : E.Payload t) : Action E UserdataId := do pushShared (← HostRef.new t x)

def newUserdata (t : E.Tag) (x : E.Payload t) : Action E UserdataId := do
  let u ← perform (.carry t (← HostRef.new t x))
  push (.userdata u)
  return u

def hostRef (t : E.Tag) (u : UserdataId) : Action E (HostRef E t) := decode (.ref t) (.userdata u)

def tagOf (u : UserdataId) : Action E E.Tag := perform (.tagOf u)

end Action
end HostBridge
