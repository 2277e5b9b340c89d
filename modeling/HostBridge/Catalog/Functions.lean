import HostBridge.Catalog.Types
import HostBridge.Action.View

namespace HostBridge.Catalog
variable {Native World : Type}

def Closure.names : List (String × Closure) :=
  [ ("add", add), ("sub", sub), ("mul", mul), ("inc", inc), ("half", half), ("noop", noop),
    ("triple", triple), ("three", three), ("not", not), ("join", join), ("opts", opts),
    ("echo", echo), ("echo4", echo4), ("echo5", echo5), ("echo6", echo6), ("echo7", echo7),
    ("echo8", echo8), ("one", one), ("signed", signed), ("unsigned", unsigned), ("single", single),
    ("sum", sum), ("reverse", reverse), ("map_size", mapSize), ("host_echo", hostEcho),
    ("light", light), ("raise", raise), ("bad_key", badKey), ("overflow", overflow),
    ("boom", boom), ("boom_fmt", boomText), ("boom_any", boomAny), ("norm2", norm2),
    ("make", make), ("scale", scale), ("tick", tick), ("depth", depth), ("junk", junk),
    ("apply", apply), ("fold", fold), ("protect", protect), ("fact", fact) ]

def Closure.ofName? (s : String) : Option Closure := names.lookup s

/-- Pushes a new object: reflected, unless its type is only handed around. -/
def pushNew (t : Tag) (x : t.Payload) : Action (embedding Native World) UserdataId :=
  if t.isOpaque then Action.newUserdata t x else Action.newInstance t x

def number (i : Int) : Number := .ofInt i

def call2 (f : ScriptFunction) (a b : Number) : Action (embedding Native World) Number :=
  return (← f.call [.number, .number] [.number] (a, b, ())).1

def closure : (c : Closure) → Tuple (embedding Native World) c.params.shapes →
    Action (embedding Native World) (Tuple (embedding Native World) c.results.shapes)
  | .add, (a, b, _) => return (a.add b, ())
  | .sub, (a, b, _) => return (a.sub b, ())
  | .mul, (a, b, _) => return (a.mul b, ())
  | .inc, (a, _) => return (a.add .one, ())
  | .half, (a, _) => return (a.div (number 2), ())
  | .noop, _ => return ()
  | .triple, _ => return (.one, number 2, (number (-5)).div (number 2), ())
  | .three, (a, _) => return (a, a, a, ())
  | .not, (b, _) => return (!b, ())
  | .join, (a, b, _) => return (a ++ b, ())
  | .opts, xs | .echo, xs | .echo4, xs | .echo5, xs | .echo6, xs | .echo7, xs | .echo8, xs
  | .one, xs | .signed, xs | .unsigned, xs | .single, xs | .hostEcho, xs => return xs
  | .sum, (xs, _) => return (xs.foldl Number.add .zero, ())
  | .reverse, (xs, _) => return (xs.reverse, ())
  | .mapSize, (m, _) => return (.ofInt _ m.size, ())
  | .light, (a, _) => return (a, .ofNat a, ())
  | .raise, (s, _) => runtimeError s
  | .badKey, _ => throw (Error.invalidKey "nope")
  | .overflow, _ => throw Error.stackOverflow
  | .boom, _ => Action.panic "kaboom"
  | .boomText, (i, _) => Action.panic ("kaboom " ++ toString i.val)
  | .boomAny, _ => Prog.abort ⟨none⟩
  | .norm2, (v, _) => return (v.dot v, ())
  | .make, (x, y, z, _) => return (⟨x, y, z⟩, ())
  | .scale, (v, k, _) => return (v.scale k, ())
  | .tick, (r, _) => do
    r.update fun c => { c with count := c.count.add .one }
    return ((← r.read).count, ())
  | .depth, _ => do
    let d ← Action.callDepth
    let top ← Action.top
    return (.ofNat d, .ofInt _ top, ())
  | .junk, (x, _) => do
    Action.push (.string "junk")
    Action.push (.boolean true)
    return (x.add (Number.one.div (number 2)), ())
  | .apply, (f, x, _) => return ((← call2 f x (number 2)).add .one, ())
  | .fold, (f, xs, seed, _) => return (← xs.foldlM (call2 f) seed, ())
  | .protect, (f, v, _) =>
    try
      let (r, _) ← f.callProtected [.value] [.value] (v, ())
      return (true, r, ())
    catch e => return (false, .string e.message, ())
  | .fact, (n, _) => do
    if n.le .one then return (.one, ())
    let _ ← Action.getGlobal "fact"
    let f : ScriptFunction ← Action.readAs .function (-1)
    let (m, _) ← f.call [.number] [.number] (n.sub .one, ())
    return (n.mul m, ())

inductive Builtin where
  | count | dup | recurse | overreport | fail | explode
  deriving DecidableEq, Repr, Inhabited

namespace Builtin

def names : List (String × Builtin) :=
  [ ("count", count), ("dup", dup), ("recurse", recurse), ("overreport", overreport),
    ("fail", fail), ("explode", explode) ]

def ofName? (s : String) : Option Builtin := names.lookup s

def body {E : Embedding} : Builtin → Action E Nat
  | count => do
    Action.push (.ofInt (← Action.top))
    return 1
  | dup => do
    let n ← Action.readAs .number 1
    Action.push (.number n)
    Action.push (.number (n.mul (number 2)))
    return 2
  | recurse => do
    let _ ← Action.getGlobal "recurse"
    Action.call 0 0
    return 0
  | overreport => do
    Action.push (.number .one)
    return 5
  | fail => runtimeError "failed on purpose"
  | explode => Action.panic "host exploded"

end Builtin
end HostBridge.Catalog
