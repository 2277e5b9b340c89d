import Std.Data.HashMap
import HostBridge.Value
/-!
Tables. The array part holds the values of the keys `1 .. n`; every other key has a slot in the
entry list, in the order of first insertion. Two indexes find the slot of a key: one for strings and
one for all other keys, by normal form. Storing nil empties a slot but keeps it, so that a traversal
may remove keys as it goes; empty slots are dropped when a new key arrives and they outnumber the
others. A key moves to the array part as soon as it is next to it.
-/
namespace HostBridge

structure Table where
  array : Array Value := #[]
  entries : Array (Value × Value) := #[]
  /-- The slot of each string key of the entry list. -/
  strings : Std.HashMap String Nat := ∅
  /-- The slot of each other key of the entry list, by normal form. -/
  others : Std.HashMap Value Nat := ∅
  /-- How many entries hold nil. -/
  dead : Nat := 0
  metatable : Option TableId := none
  deriving Inhabited

namespace Table

def empty : Table := {}

def position? : Value → Option Nat
  | .number n => if Number.one.le n then n.toInt?.map Int.toNat else none
  | _ => none

def arraySlot? (t : Table) (key : Value) : Option Nat :=
  match position? key with
  | some i => if i ≤ t.array.size then some (i - 1) else none
  | none => none

def entrySlot? (t : Table) (key : Value) : Option Nat :=
  match key with
  | .nil => none
  | .string s => t.strings[s]?
  | key => t.others[key.normal]?

def entryValue (t : Table) (slot : Nat) : Value := (t.entries.getD slot (.nil, .nil)).2

def get (t : Table) (key : Value) : Value :=
  match t.arraySlot? key with
  | some i => t.array.getD i .nil
  | none =>
    match t.entrySlot? key with
    | some slot => t.entryValue slot
    | none => .nil

/-- A string key is never in the array part. -/
def getStr (t : Table) (key : String) : Value :=
  match t.strings[key]? with
  | some slot => t.entryValue slot
  | none => .nil

/-- An index within the array part needs no conversion to a number. -/
def getInt (t : Table) (i : Int) : Value :=
  if 1 ≤ i ∧ i ≤ t.array.size then t.array.getD (i.toNat - 1) .nil else t.get (.ofInt i)

def store (t : Table) (slot : Nat) (value : Value) : Table :=
  let wasNil := (t.entryValue slot).isNil
  let dead :=
    if wasNil then (if value.isNil then t.dead else t.dead - 1)
    else (if value.isNil then t.dead + 1 else t.dead)
  { t with entries := t.entries.modify slot fun e => (e.1, value), dead := dead }

def enterKey (t : Table) (key : Value) (slot : Nat) : Table :=
  match key with
  | .nil => t
  | .string s => { t with strings := t.strings.insert s slot }
  | key => { t with others := t.others.insert key.normal slot }

/-- Enters the keys of entries that follow each other from a slot on. -/
def enterKeys (t : Table) : List (Value × Value) → Nat → Table
  | [], _ => t
  | e :: es, slot => enterKeys (t.enterKey e.1 slot) es (slot + 1)

/-- Drops the empty slots once they outnumber the others. -/
def reclaim (t : Table) : Table :=
  if t.dead = 0 ∨ t.dead ≤ t.entries.size - t.dead then t
  else
    let live := t.entries.filter fun e => !e.2.isNil
    enterKeys { t with entries := live, strings := ∅, others := ∅, dead := 0 } live.toList 0

def append (t : Table) (key value : Value) : Table :=
  let t := t.enterKey key t.entries.size
  { t with entries := t.entries.push (key, value) }

def setEntry (t : Table) (key value : Value) : Table :=
  match t.entrySlot? key with
  | some slot => t.store slot value
  | none => if value.isNil then t else t.reclaim.append key value

def removeEntry (t : Table) (key : Value) : Table :=
  match t.entrySlot? key with
  | some slot => t.store slot .nil
  | none => t

/-- Moves the values of the keys that follow the array part out of the entry list; `fuel` bounds how
many. -/
def migrate (t : Table) : Nat → Table
  | 0 => t
  | fuel + 1 =>
    match t.entrySlot? (.ofInt (t.array.size + 1)) with
    | none => t
    | some slot =>
      let value := t.entryValue slot
      if value.isNil then t
      else
        let t := t.store slot .nil
        migrate { t with array := t.array.push value } fuel

/-- The next value of the array part. Whatever the entry list holds under the same key is dropped,
and the values that follow move over. -/
def extend (t : Table) (value : Value) : Table :=
  let t := t.removeEntry (.ofInt (t.array.size + 1))
  migrate { t with array := t.array.push value } t.entries.size

/-- Stores a value under a key that is neither nil nor NaN. -/
def put (t : Table) (key value : Value) : Table :=
  match position? key with
  | some i =>
    if i ≤ t.array.size then { t with array := t.array.setIfInBounds (i - 1) value }
    else if i = t.array.size + 1 ∧ !value.isNil then t.extend value
    else t.setEntry key value
  | none => t.setEntry key value

def keyFault? : Value → Option Error
  | .nil => some Error.nilKey
  | .number n => if n.isNaN then some Error.nanKey else none
  | _ => none

def set (t : Table) (key value : Value) : Except Error Table :=
  match keyFault? key with
  | some e => .error e
  | none => .ok (t.put key value)

def setStr (t : Table) (key : String) (value : Value) : Table := t.setEntry (.string key) value

/-- An integer is never a key that is refused. -/
def setInt (t : Table) (i : Int) (value : Value) : Table :=
  match t.set (.ofInt i) value with
  | .ok t => t
  | .error _ => t

/-- The end of a run of keys that begins after `n`; `fuel` bounds its length. -/
def runEnd (t : Table) (n : Nat) : Nat → Nat
  | 0 => n
  | fuel + 1 => if (t.getInt (n + 1)).isNil then n else runEnd t (n + 1) fuel

def trimmed (a : Array Value) : Nat → Nat
  | 0 => 0
  | n + 1 => if (a.getD n .nil).isNil then trimmed a n else n + 1

/-- A key `n` that holds a value while `n + 1` holds none, or zero if `1` holds none. -/
def border (t : Table) : Nat :=
  let live := trimmed t.array t.array.size
  if live < t.array.size then live else t.runEnd live t.entries.size

def arrayPairs (t : Table) (start : Nat) : List (Value × Value) :=
  (t.array.toList.drop start).zipIdx.filterMap fun (v, i) =>
    if v.isNil then none else some (.ofInt (start + i + 1), v)

def entryPairs (t : Table) (start : Nat) : List (Value × Value) :=
  (t.entries.toList.drop start).filter fun e => !e.2.isNil

def pairs (t : Table) : List (Value × Value) := t.arrayPairs 0 ++ t.entryPairs 0

def pairCount (t : Table) : Nat :=
  t.array.countP (fun v => !v.isNil) + t.entries.countP (fun e => !e.2.isNil)

def arrayNext? (t : Table) (i : Nat) : Option (Value × Value) :=
  if h : i < t.array.size then
    if t.array[i].isNil then arrayNext? t (i + 1) else some (.ofInt (i + 1), t.array[i])
  else none
termination_by t.array.size - i

def entryNext? (t : Table) (i : Nat) : Option (Value × Value) :=
  if h : i < t.entries.size then
    if t.entries[i].2.isNil then entryNext? t (i + 1) else some t.entries[i]
  else none
termination_by t.entries.size - i

/-- The pair after `key` in traversal order; nil asks for the first pair, and a key without a slot
is refused. -/
def next (t : Table) (key : Value) : Except Error (Option (Value × Value)) :=
  if key.isNil then .ok (t.arrayNext? 0 <|> t.entryNext? 0)
  else
    match t.arraySlot? key with
    | some i => .ok (t.arrayNext? (i + 1) <|> t.entryNext? 0)
    | none =>
      match t.entrySlot? key with
      | some i => .ok (t.entryNext? (i + 1))
      | none => .error Error.strayKey

/-- Every value a table refers to: the array part, keys and values of the entries, the metatable. -/
def contents (t : Table) : List Value :=
  t.array.toList ++ t.entries.toList.flatMap (fun e => [e.1, e.2]) ++
    (t.metatable.map Value.table).toList

end Table
end HostBridge
