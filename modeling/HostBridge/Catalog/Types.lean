import HostBridge.Binding
import HostBridge.Action.Objects
/-!
A catalog of host types: vectors, counters and small types that bind badly, share a name or are
never bound. An embedding takes from its program the code of functions and the data it carries.
-/
namespace HostBridge.Catalog

structure Vec3 where
  x : Number
  y : Number
  z : Number
  deriving DecidableEq, Repr, Inhabited

namespace Vec3

def add (a b : Vec3) : Vec3 := ⟨a.x.add b.x, a.y.add b.y, a.z.add b.z⟩
def sub (a b : Vec3) : Vec3 := ⟨a.x.sub b.x, a.y.sub b.y, a.z.sub b.z⟩
def neg (a : Vec3) : Vec3 := ⟨a.x.neg, a.y.neg, a.z.neg⟩
def scale (a : Vec3) (k : Number) : Vec3 := ⟨a.x.mul k, a.y.mul k, a.z.mul k⟩
def dot (a b : Vec3) : Number := ((a.x.mul b.x).add (a.y.mul b.y)).add (a.z.mul b.z)
def eqv (a b : Vec3) : Bool := a.x.eqv b.x && a.y.eqv b.y && a.z.eqv b.z
def origin : Vec3 := ⟨.zero, .zero, .zero⟩

end Vec3

structure Counter where
  count : Number
  label : String
  note : Option String
  deriving DecidableEq, Repr, Inhabited

inductive Tag where
  | vec3 | counter | empty | broken | impostor | handle | text | bytes | probe
  deriving DecidableEq, Repr, Inhabited

def Tag.name : Tag → String
  | vec3 => "Vec3" | counter => "Counter" | empty => "Empty" | broken => "Broken"
  | impostor => "Impostor" | handle => "Handle" | text => "String"
  | bytes => "Vec<core::option::Option<u8>>" | probe => "Probe"

def Tag.all : List Tag := [vec3, counter, empty, broken, impostor, handle, text, bytes, probe]

def Tag.ofName? (s : String) : Option Tag := all.find? fun t => (t.name.splitOn "<").headD "" == s

def Tag.isOpaque : Tag → Bool
  | handle | text | bytes => true
  | _ => false

@[reducible] def Tag.Payload : Tag → Type
  | vec3 => Vec3
  | counter => Counter
  | handle => Int
  | text => String
  | probe => Number
  | empty | broken | impostor | bytes => Unit

inductive Closure where
  | add | sub | mul | inc | half | noop | triple | three | not | join | opts
  | echo | echo4 | echo5 | echo6 | echo7 | echo8 | one | signed | unsigned | single
  | sum | reverse | mapSize | hostEcho | light | raise | badKey | overflow
  | boom | boomText | boomAny | norm2 | make | scale | tick
  | depth | junk | apply | fold | protect | fact
  deriving DecidableEq, Repr, Inhabited

namespace Closure

def values (n : Nat) : Params Tag := .tuple (List.replicate n .value)

@[reducible] def optional : Params Tag := .tuple [.option .number, .option .boolean, .option .string]

@[reducible] def signedInts : Params Tag :=
  .tuple [.int .int8, .int .int16, .int .int32, .int .int64, .int .intWord]

@[reducible] def unsignedInts : Params Tag :=
  .tuple [.int .uint8, .int .uint16, .int .uint32, .int .uint64, .int .uintWord]

@[reducible] def params : Closure → Params Tag
  | add | sub | mul => .tuple [.number, .number]
  | inc | half | three | junk | fact => .one .number
  | noop | triple | badKey | overflow | boom | boomAny | depth => .unit
  | not => .one .boolean
  | join => .tuple [.string, .string]
  | opts => optional
  | echo => .one .value
  | echo4 => .tuple [.value, .value, .value, .value]
  | echo5 => .tuple [.value, .value, .value, .value, .value]
  | echo6 => .tuple [.value, .value, .value, .value, .value, .value]
  | echo7 => .tuple [.value, .value, .value, .value, .value, .value, .value]
  | echo8 => .tuple [.value, .value, .value, .value, .value, .value, .value, .value]
  | one => .tuple [.value]
  | signed => signedInts
  | unsigned => unsignedInts
  | single => .one .single
  | sum => .one (.list .number)
  | reverse => .one (.list .value)
  | mapSize => .one .hostMap
  | hostEcho => .one .hostValue
  | light => .one .light
  | raise => .one .string
  | boomText => .one (.int .int32)
  | norm2 => .one (.object .vec3)
  | make => .tuple [.number, .number, .number]
  | scale => .tuple [.object .vec3, .number]
  | tick => .one (.ref .counter)
  | apply => .tuple [.function, .number]
  | fold => .tuple [.function, .list .number, .number]
  | protect => .tuple [.function, .value]

@[reducible] def results : Closure → Params Tag
  | add | sub | mul | inc | half | sum | norm2 | tick | junk | apply | fold | fact => .one .number
  | noop | raise | badKey | overflow | boom | boomText | boomAny => .unit
  | triple | three => .tuple [.number, .number, .number]
  | not => .one .boolean
  | join => .one .string
  | opts => optional
  | echo => .one .value
  | echo4 => .tuple [.value, .value, .value, .value]
  | echo5 => .tuple [.value, .value, .value, .value, .value]
  | echo6 => .tuple [.value, .value, .value, .value, .value, .value]
  | echo7 => .tuple [.value, .value, .value, .value, .value, .value, .value]
  | echo8 => .tuple [.value, .value, .value, .value, .value, .value, .value, .value]
  | one => .tuple [.value]
  | signed => signedInts
  | unsigned => unsignedInts
  | single => .one .single
  | reverse => .one (.list .value)
  | mapSize => .one (.int .uintWord)
  | hostEcho => .one .hostValue
  | light => .tuple [.light, .number]
  | make | scale => .one (.object .vec3)
  | depth => .tuple [.number, .int .int32]
  | protect => .tuple [.boolean, .value]

end Closure

@[reducible] def embedding (Native World : Type) : Embedding where
  Tag := Tag
  tagName := Tag.name
  Payload := Tag.Payload
  Native := Native
  Closure := Closure
  params := Closure.params
  results := Closure.results
  World := World

variable {Native World : Type}

def runtimeError {E : Embedding} {α : Type} (message : String) : Action E α :=
  throw (Error.runtime message)

def field {t : Tag} (name : String) (s : Shape Tag) (get : t.Payload → s.Carrier (embedding Native World))
    (set : t.Payload → s.Carrier (embedding Native World) → t.Payload) :
    Member (embedding Native World) t :=
  .field ⟨name, s, some fun p => .ok (get p), some fun p x => (set p x, .ok ())⟩

def readOnly {t : Tag} (name : String) (s : Shape Tag)
    (get : t.Payload → s.Carrier (embedding Native World)) : Member (embedding Native World) t :=
  .field ⟨name, s, some fun p => .ok (get p), none⟩

def writeOnly {t : Tag} (name : String) (s : Shape Tag)
    (set : t.Payload → s.Carrier (embedding Native World) → t.Payload) :
    Member (embedding Native World) t :=
  .field ⟨name, s, none, some fun p x => (set p x, .ok ())⟩

def method {t : Tag} (name : String) (params results : Params Tag)
    (f : t.Payload → Tuple (embedding Native World) params.shapes →
      Action (embedding Native World) (Tuple (embedding Native World) results.shapes)) :
    Member (embedding Native World) t :=
  .method ⟨name, params, results, .receiver f⟩

def mutMethod {t : Tag} (name : String) (params results : Params Tag)
    (f : Tuple (embedding Native World) params.shapes →
      Mutation (embedding Native World) t (Tuple (embedding Native World) results.shapes)) :
    Member (embedding Native World) t :=
  .method ⟨name, params, results, .mutReceiver f⟩

def function {t : Tag} (name : String) (params results : Params Tag)
    (f : Tuple (embedding Native World) params.shapes →
      Action (embedding Native World) (Tuple (embedding Native World) results.shapes)) :
    Member (embedding Native World) t :=
  .method ⟨name, params, results, .function f⟩

def binary {t : Tag} (e : Event) (s : Shape Tag)
    (f : t.Payload → t.Payload → Action (embedding Native World) (s.Carrier (embedding Native World))) :
    Member (embedding Native World) t :=
  .operator ⟨e, s, .binary f⟩

def unary {t : Tag} (e : Event) (s : Shape Tag)
    (f : t.Payload → Action (embedding Native World) (s.Carrier (embedding Native World))) :
    Member (embedding Native World) t :=
  .operator ⟨e, s, .unary f⟩

def kindOrNone : Option Value → String
  | some v => v.kind.name
  | none => "none"

def vec3Members : List (Member (embedding Native World) Tag.vec3) :=
  [ field "x" .number (fun v => v.x) (fun v x => { v with x := x }),
    field "y" .number (fun v => v.y) (fun v y => { v with y := y }),
    readOnly "z" .number (fun v => v.z),
    writeOnly "w" .number (fun v z => { v with z := z }),
    method "dot" (.one (.object .vec3)) (.one .number) (fun v (o, _) => return (v.dot o, ())),
    method "offset" (.tuple [.number, .option .number]) (.one .number)
      (fun v (dx, dy, _) => return ((v.x.add dx).add (dy.getD .zero), ())),
    method "parts" .unit (.tuple [.number, .number, .number]) (fun v _ => return (v.x, v.y, v.z, ())),
    method "kinds" (.tuple [.option .value, .option .value]) (.tuple [.string, .string])
      (fun _ (a, b, _) => return (kindOrNone a, kindOrNone b, ())),
    method "same" (.one .value) (.one .value) (fun _ (v, _) => return (v, ())),
    method "fail" .unit .unit (fun _ _ => runtimeError "vec3 failed"),
    method "boom" .unit .unit (fun _ _ => Action.panic "vec3 boom"),
    mutMethod "scale" (.one .number) .unit (fun (k, _) => modify (·.scale k)),
    mutMethod "absorb" (.one (.ref .vec3)) (.one .number) (fun (r, _) => do
      let o ← (r.read : Action _ _)
      modify (·.add o)
      return ((← get).x, ())),
    function "origin" .unit (.one (.object .vec3)) (fun _ => return (Vec3.origin, ())),
    function "make" (.tuple [.number, .number, .number]) (.one (.object .vec3))
      (fun (x, y, z, _) => return (⟨x, y, z⟩, ())),
    function "first" (.one (.option (.object .vec3))) (.one (.option .number))
      (fun (v, _) => return (v.map Vec3.x, ())),
    binary .add (.object .vec3) (fun a b => return a.add b),
    binary .sub (.object .vec3) (fun a b => return a.sub b),
    binary .mul .number (fun a b => return a.dot b),
    binary .div .number (fun _ _ => runtimeError "no division"),
    binary .pow .number (fun _ _ => Action.panic "no power"),
    binary .band .boolean (fun a b => return a.eqv b),
    binary .concat (.list .number) (fun a b => return [a.x, b.x]),
    binary .eq .boolean (fun a b => return a.eqv b),
    binary .lt .boolean (fun a b => return a.x.lt b.x),
    binary .le (.option .number) (fun a b => return if a.x.le b.x then some .zero else none),
    unary .unm (.object .vec3) (fun a => return a.neg),
    unary .bnot .number (fun a => return a.x),
    unary .len .number (fun _ => return .ofNat 3) ]

/-- Members of counters. `report` tells the program that a counter with the given label is gone. -/
def counterMembers (report : String → World → World) :
    List (Member (embedding Native World) Tag.counter) :=
  [ .named "Tally",
    field "count" .number (fun c => c.count) (fun c n => { c with count := n }),
    readOnly "label" .string (fun c => c.label),
    field "note" (.option .string) (fun c => c.note) (fun c s => { c with note := s }),
    field "int" (.int .int32) (fun c => .ofNumber .int32 c.count)
      (fun c i => { c with count := .ofInt i.val }),
    writeOnly "reset" .boolean (fun c _ => { c with count := .zero }),
    method "get" .unit (.one .number) (fun c _ => return (c.count, ())),
    mutMethod "bump" (.one (.option .number)) (.one .number) (fun (n, _) => do
      modify fun c => { c with count := c.count.add (n.getD .one) }
      return ((← get).count, ())),
    function "zero" .unit (.one .number) (fun _ => return (.zero, ())),
    binary .add .number (fun a b => return a.count.add b.count),
    unary .len .string (fun c => return c.label),
    .finalizer fun c w => (report c.label w, .ok ()) ]

def members (report : String → World → World) :
    (t : Tag) → List (Member (embedding Native World) t)
  | .vec3 => vec3Members
  | .counter => counterMembers report
  | .broken =>
    [ function "twice" .unit .unit (fun _ => return ()),
      function "twice" .unit .unit (fun _ => return ()) ]
  | .impostor => [.named "Vec3", readOnly "x" .string (fun _ => "impostor")]
  | _ => []

end HostBridge.Catalog
