import HostBridge.Proofs.Call.Closure
import HostBridge.Proofs.Copy.RoundTrip
import HostBridge.Proofs.Table.Sequence

namespace HostBridge

namespace Shape

/-- Types of which no value becomes nil: a list ends before the first nil. -/
def isSolid {Tag : Type} : Shape Tag → Bool
  | boolean | number | int _ | string | light => true
  | list s => s.isSolid
  | _ => false

def isPlain {Tag : Type} : Shape Tag → Bool
  | option s => s.isSolid
  | s => s.isSolid

variable {E : Embedding}

/-- The integers in a value, and the numbers of elements of its lists, are among those that no two
of share a number. -/
def Exact : (s : Shape E.Tag) → s.Carrier E → Prop
  | .int _, i => i.val.natAbs ≤ 2 ^ 53
  | .option s, x => ∀ y, x = some y → s.Exact y
  | .list s, xs => xs.length ≤ 2 ^ 53 ∧ ∀ x ∈ xs, s.Exact x
  | _, _ => True

end Shape

def Tuple.Exact {E : Embedding} : (ss : List (Shape E.Tag)) → Tuple E ss → Prop
  | [], _ => True
  | s :: ss, (x, xs) => s.Exact x ∧ Exact ss xs

namespace Heap
variable {E : Embedding}

/-- The kinds that a plain type asks for, in the order in which it comes to them, each with the kind
that the value has in that position. -/
def demands (h : Heap E) : Shape E.Tag → Value → List (Kind × Kind)
  | .boolean, v => [(.boolean, v.kind)]
  | .number, v | .int _, v => [(.number, v.kind)]
  | .string, v => [(.string, v.kind)]
  | .light, v => [(.light, v.kind)]
  | .option s, v => if v.isNil then [] else demands h s v
  | .list s, v => (.table, v.kind) :: match v with
    | .table t => (h.sequence t).flatMap (demands h s)
    | _ => []
  | _, _ => []

def demandsAll (h : Heap E) (ss : List (Shape E.Tag)) (vs : List Value) : List (Kind × Kind) :=
  (ss.zip vs).flatMap fun (s, v) => h.demands s v

def Decodes (h : Heap E) (room : Nat) : (ss : List (Shape E.Tag)) → Tuple E ss → List Value → Prop
  | [], _, _ => True
  | s :: ss, (x, xs), v :: vs => h.decode room s v = .ok x ∧ Decodes h room ss xs vs
  | _ :: _, _, [] => False

def offence? (demands : List (Kind × Kind)) : Option (Kind × Kind) :=
  demands.find? fun d => d.1 ≠ d.2

/-- The result is there, or the first demand that is not met is its error. -/
def Meets {α : Type} (demands : List (Kind × Kind)) (r : Except Error α) : Prop :=
  match offence? demands with
  | none => ∃ x, r = .ok x
  | some (expected, found) => r = .error (.typeMismatch expected found)

theorem Meets.append {α β : Type} {ds es : List (Kind × Kind)} {r : Except Error α}
    {f : α → Except Error β} (first : Meets ds r) (rest : ∀ x, r = .ok x → Meets es (f x)) :
    Meets (ds ++ es) (r >>= f) := by
  have both : offence? (ds ++ es) = (offence? ds).or (offence? es) := List.find?_append
  unfold Meets at first ⊢
  rw [both]
  cases refused : offence? ds with
  | none =>
    rw [refused] at first
    obtain ⟨x, rfl⟩ := first
    exact rest x rfl
  | some d =>
    rw [refused] at first
    simp only at first
    rw [first]
    rfl

theorem Meets.of_ok {α : Type} (x : α) : Meets [] (.ok x) := ⟨x, rfl⟩

theorem Meets.runs {ds : List (Kind × Kind)} {α : Type} {r : Except Error α} (meets : Meets ds r)
    (s : State E) :
    match offence? ds with
    | none => ∃ x, Run.ofExcept r s = .ok x s
    | some (expected, found) => Run.ofExcept r s =
        .error (.raised (.typeMismatch expected found)) s := by
  unfold Meets at meets
  split at meets
  · obtain ⟨x, rfl⟩ := meets
    exact ⟨x, rfl⟩
  · rw [meets]
    rfl

theorem Meets.bind_ok {α β : Type} {ds : List (Kind × Kind)} {r : Except Error α} (meets : Meets ds r)
    (f : α → β) : Meets ds (r >>= fun x => .ok (f x)) := by
  have last : ∀ x, r = .ok x → Meets [] (.ok (f x)) := fun x _ => .of_ok (f x)
  have both := meets.append last
  rwa [List.append_nil] at both

variable {h : Heap E} {room : Nat}

theorem meets_mapM {s : Shape E.Tag} (each : ∀ v, Meets (h.demands s v) (h.decode room s v))
    (vs : List Value) : Meets (vs.flatMap (h.demands s)) (vs.mapM (h.decode room s)) := by
  induction vs with
  | nil => exact .of_ok []
  | cons v vs ih =>
    rw [List.mapM_cons, List.flatMap_cons]
    exact (each v).append fun x _ => ih.bind_ok (x :: ·)

theorem meets_of_solid {s : Shape E.Tag} (solid : s.isSolid) (v : Value) :
    Meets (h.demands s v) (h.decode room s v) := by
  induction s generalizing v with
  | boolean | number | int | string | light => cases v <;> first | exact ⟨_, rfl⟩ | rfl
  | list s ih =>
    cases v with
    | table t =>
      have elements := meets_mapM (ih solid) (h.sequence t)
      exact elements
    | _ => rfl
  | _ => cases solid

theorem decode_option {s : Shape E.Tag} {v : Value} (live : v.isNil = false) :
    h.decode room (.option s) v = (h.decode room s v).map some := by
  cases v with
  | nil => cases live
  | _ => rfl

theorem meets_decode {s : Shape E.Tag} (plain : s.isPlain) (v : Value) :
    Meets (h.demands s v) (h.decode room s v) := by
  cases s with
  | option s =>
    cases v with
    | nil => exact .of_ok none
    | _ => exact (meets_of_solid plain _).bind_ok some
  | _ => exact meets_of_solid plain v

end Heap

namespace State
variable {E : Embedding} {s : State E}

theorem meets_decodeTop {ss : List (Shape E.Tag)} (plain : ∀ shape ∈ ss, shape.isPlain)
    {below : Array Value} {vs : List Value} (length : vs.length = ss.length)
    (slots : s.stack.slots = below ++ vs.toArray) (framed : s.base ≤ below.size) :
    Heap.Meets (s.heap.demandsAll ss vs) (s.decodeTop ss) := by
  induction ss generalizing below vs with
  | nil => exact .of_ok ()
  | cons shape ss ih =>
    obtain ⟨first, rest⟩ := List.forall_mem_cons.mp plain
    cases vs with
    | nil => contradiction
    | cons v vs =>
      have length : vs.length = ss.length := Nat.succ.inj length
      obtain ⟨read, slots', framed'⟩ := decodeSlot_first shape length slots framed
      rw [decodeTop, read, Heap.demandsAll, List.zip_cons_cons, List.flatMap_cons]
      refine (Heap.meets_decode first v).append fun x _ => ?_
      exact (ih rest length slots' framed').bind_ok (x, ·)

theorem decodeTop_of_decodes {ss : List (Shape E.Tag)} {xs : Tuple E ss} {below : Array Value}
    {vs : List Value} (length : vs.length = ss.length)
    (slots : s.stack.slots = below ++ vs.toArray) (framed : s.base ≤ below.size)
    (decodes : s.heap.Decodes s.config.maxConversionDepth ss xs vs) : s.decodeTop ss = .ok xs := by
  induction ss generalizing below vs with
  | nil => rfl
  | cons shape ss ih =>
    cases vs with
    | nil => contradiction
    | cons v vs =>
      obtain ⟨first, rest⟩ := decodes
      have length : vs.length = ss.length := Nat.succ.inj length
      obtain ⟨read, slots', framed'⟩ := decodeSlot_first shape length slots framed
      rw [decodeTop, read, decode, first]
      change (s.decodeTop ss >>= fun ys => pure (xs.1, ys)) = _
      rw [ih length slots' framed' rest]
      rfl

end State

namespace Run
open State
variable {E : Embedding} {H : Host E}

/-- The value becomes one that decodes to it from now on, and all that happens is that the heap
grows. -/
def Holds (H : Host E) (s : Shape E.Tag) (x : s.Carrier E) : Prop :=
  ∀ st : State E, ∃ v h, encode H s x st = .ok v { st with heap := h } ∧ st.heap.Grows h ∧
    (s.isSolid → v.isNil = false) ∧ ∀ h' room, h.Grows h' → h'.decode room s v = .ok x

theorem holds_of_scalar {s : Shape E.Tag} {x : s.Carrier E} {v : Value}
    (encoded : ∀ st, encode H s x st = .ok v st) (live : v.isNil = false)
    (decoded : ∀ (h : Heap E) room, h.decode room s v = .ok x) : Holds H s x := fun st =>
  ⟨v, st.heap, encoded st, .refl _, fun _ => live, fun h _ _ => decoded h _⟩

theorem ofNumber_ofInt {w : IntType} {i : w.Range} (small : i.val.natAbs ≤ 2 ^ 53) :
    IntType.Range.ofNumber w (.ofInt i.val) = i := by
  have same := Number.clamp_ofInt small i.lo_le i.le_hi
  cases i
  simp only [IntType.Range.ofNumber, same]

theorem mapM_holds {s : Shape E.Tag} (solid : s.isSolid) {xs : List (s.Carrier E)}
    (each : ∀ x ∈ xs, Holds H s x) (st : State E) :
    ∃ vs h, xs.mapM (encode H s) st = .ok vs { st with heap := h } ∧ st.heap.Grows h ∧
      vs.length = xs.length ∧ (∀ v ∈ vs, v.isNil = false) ∧
      ∀ h' room, h.Grows h' → vs.mapM (h'.decode room s) = .ok xs := by
  induction xs generalizing st with
  | nil => exact ⟨[], st.heap, rfl, .refl _, rfl, nofun, fun _ _ _ => rfl⟩
  | cons x xs ih =>
    obtain ⟨first, rest⟩ := List.forall_mem_cons.mp each
    obtain ⟨v, h, encoded, grows, live, decoded⟩ := first st
    obtain ⟨vs, h', encoded', grows', length, lives, decoded'⟩ := ih rest { st with heap := h }
    refine ⟨v :: vs, h', ?_, grows.trans grows', congrArg Nat.succ length, ?_, ?_⟩
    · simp only [List.mapM_cons, bind_eq, encoded, encoded', pure_eq]
    · exact List.forall_mem_cons.mpr ⟨live solid, lives⟩
    · intro h'' room later
      rw [List.mapM_cons, decoded h'' room (grows'.trans later), decoded' h'' room later]
      rfl

theorem holds_of_solid {s : Shape E.Tag} (solid : s.isSolid) {x : s.Carrier E}
    (exact : s.Exact x) : Holds H s x := by
  induction s with
  | boolean | number | string | light =>
    exact holds_of_scalar (fun _ => rfl) rfl fun _ _ => rfl
  | int w =>
    refine holds_of_scalar (fun _ => rfl) rfl fun _ _ => ?_
    exact congrArg Except.ok (ofNumber_ofInt exact)
  | list s ih =>
    intro st
    obtain ⟨short, elements⟩ := exact
    obtain ⟨vs, h, encoded, grows, length, lives, decoded⟩ :=
      mapM_holds (s := s) solid (fun y listed => ih solid (elements y listed)) st
    refine ⟨.table ⟨h.tables.size⟩, (h.allocTable (sequenceTable vs)).2, ?_,
      grows.trans (h.grows_allocTable _), fun _ => rfl, fun h' room later => ?_⟩
    · simp only [encode, bind_eq, encoded]
      rfl
    · have stored := later.table_allocTable
      rw [sequenceTable_eq lives (length ▸ short)] at stored
      have read : h'.decode room (.list s) (.table ⟨h.tables.size⟩) =
          (h'.sequence ⟨h.tables.size⟩).mapM (h'.decode room s) := rfl
      rw [read, Heap.sequence_of_ofArray lives stored]
      exact decoded h' room ((h.grows_allocTable _).trans later)
  | _ => cases solid

theorem holds_of_plain {s : Shape E.Tag} (plain : s.isPlain) {x : s.Carrier E}
    (exact : s.Exact x) : Holds H s x := by
  cases s with
  | option s =>
    cases x with
    | none => exact fun st => ⟨.nil, st.heap, rfl, .refl _, nofun, fun _ _ _ => rfl⟩
    | some x =>
      intro st
      obtain ⟨v, h, encoded, grows, live, decoded⟩ := holds_of_solid (H := H) plain (exact x rfl) st
      refine ⟨v, h, encoded, grows, nofun, fun h' room later => ?_⟩
      rw [Heap.decode_option (live plain), decoded h' room later]
      rfl
  | _ => exact holds_of_solid plain exact

theorem encodings_plain {ss : List (Shape E.Tag)} (plain : ∀ shape ∈ ss, shape.isPlain)
    {xs : Tuple E ss} (exact : Tuple.Exact ss xs) (st : State E) :
    ∃ vs h, encodings H ss xs st = .ok vs { st with heap := h } ∧ st.heap.Grows h ∧
      ∀ h' room, h.Grows h' → h'.Decodes room ss xs vs := by
  induction ss generalizing st with
  | nil => exact ⟨[], st.heap, rfl, .refl _, fun _ _ _ => trivial⟩
  | cons shape ss ih =>
    obtain ⟨first, rest⟩ := List.forall_mem_cons.mp plain
    obtain ⟨v, h, encoded, grows, -, decoded⟩ := holds_of_plain (H := H) first exact.1 st
    obtain ⟨vs, h', encoded', grows', decoded'⟩ := ih rest exact.2 { st with heap := h }
    refine ⟨v :: vs, h', ?_, grows.trans grows', fun h'' room later => ?_⟩
    · simp only [encodings, bind_eq, encoded, encoded', pure_eq]
    · exact ⟨decoded h'' room (grows'.trans later), decoded' h'' room later⟩

/-- The host values of plain types are on the stack as their encodings, from which they come back. -/
theorem pushList_plain {ss : List (Shape E.Tag)} (plain : ∀ shape ∈ ss, shape.isPlain)
    {xs : Tuple E ss} (exact : Tuple.Exact ss xs) {s : State E} (framed : s.base ≤ s.stack.size)
    (room : s.stack.size + ss.length ≤ s.stack.maxDepth) :
    ∃ s', runAction H (Action.pushList ss xs) s = .ok ss.length s' ∧
      s'.decodeTop ss = .ok xs := by
  obtain ⟨vs, h, encoded, grows, decoded⟩ := encodings_plain (H := H) plain exact s
  have pushed := encodeAll_cases H ss xs room
  rw [encoded] at pushed
  obtain ⟨peak, all⟩ := pushed
  let s' := State.holding { s with heap := h } (s.stack.slots ++ vs.toArray) peak
  have pushes : runAction H (Action.pushList ss xs) s = .ok ss.length s' := by
    rw [runAction, action_pushList, bind_eq, all]
    rfl
  have decodes : s'.heap.Decodes s'.config.maxConversionDepth ss xs vs := decoded h _ (.refl h)
  exact ⟨s', pushes, decodeTop_of_decodes (length_of_encodings encoded) rfl framed decodes⟩

/-- Values of plain types, one alone or a list of them, come back from the stack as they were pushed.
Slots with other values are refused: the error names the first kind that a type asks for and does
not find, and the kind that is there instead. -/
theorem plain_round_trip {H : Host E} (s : State E) (framed : s.base ≤ s.stack.size) :
    (∀ shape : Shape E.Tag, shape.isPlain →
      (∀ x : shape.Carrier E, shape.Exact x → s.stack.isFull = false →
        ∃ s', runAction H (Action.pushAs shape x) s = .ok () s' ∧
          runAction H (Action.readAs shape (-1)) s' = .ok x s') ∧
      ∀ i v, s.slot i = .ok v →
        match Heap.offence? (s.heap.demands shape v) with
        | none => ∃ x, runAction H (Action.readAs shape i) s = .ok x s
        | some (expected, found) => runAction H (Action.readAs shape i) s =
            .error (.raised (.typeMismatch expected found)) s) ∧
    ∀ ss : List (Shape E.Tag), (∀ shape ∈ ss, shape.isPlain) →
      (∀ xs : Tuple E ss, Tuple.Exact ss xs → s.stack.size + ss.length ≤ s.stack.maxDepth →
        ∃ s', runAction H (Action.pushList ss xs) s = .ok ss.length s' ∧
          runAction H (Action.readList ss) s' = .ok xs s') ∧
      ∀ (below : Array Value) (vs : List Value), s.stack.slots = below ++ vs.toArray →
        s.base ≤ below.size → vs.length = ss.length →
        match Heap.offence? (s.heap.demandsAll ss vs) with
        | none => ∃ xs, runAction H (Action.readList ss) s = .ok xs s
        | some (expected, found) => runAction H (Action.readList ss) s =
            .error (.raised (.typeMismatch expected found)) s := by
  refine ⟨fun shape plain => ⟨fun x exact room => ?_, fun i v slot => ?_⟩,
    fun ss plain => ⟨fun xs exact room => ?_, fun below vs slots above length => ?_⟩⟩
  · obtain ⟨v, h, encoded, -, -, decoded⟩ := holds_of_plain (H := H) plain exact s
    let s' := State.mapSlots { s with heap := h } (·.push v)
    have pushes : runAction H (Action.pushAs shape x) s = .ok () s' := by
      rw [runAction, action_pushAs, bind_eq, encoded]
      exact (push_eq v _).trans (if_neg (Bool.eq_false_iff.mp room))
    have read := readAs_eq (H := H) shape (slot_push (s := { s with heap := h }) framed v)
    have back : s'.decode shape v = .ok x := decoded h _ (.refl h)
    rw [back] at read
    exact ⟨s', pushes, read⟩
  · rw [readAs_eq shape slot]
    exact (Heap.meets_decode plain v).runs s
  · obtain ⟨s', pushed, decoded⟩ := pushList_plain (H := H) plain exact framed room
    refine ⟨s', pushed, ?_⟩
    rw [runAction, action_readList, decoded]
    rfl
  · rw [runAction, action_readList]
    exact (meets_decodeTop plain length slots above).runs s

/-- A number that is missing, and a list of lists of integers. -/
theorem plain_round_trip_nested :
    let H := Host.running (pure 0)
    let s := State.plain #[]
    let i : IntType.int32.Range := ⟨-7, by decide, by decide⟩
    let ss : List (Shape Empty) := [.option .number, .list (.list (.int .int32))]
    ∃ s', runAction H (Action.pushList ss (none, [[i], [], [i, i]], ())) s = .ok 2 s' ∧
      runAction H (Action.readList ss) s' = .ok (none, [[i], [], [i, i]], ()) s' := by
  intro H s i ss
  have plain : ∀ shape ∈ ss, shape.isPlain := by decide
  have small : Shape.Exact (E := .plain) (.int .int32) i := by
    change Int.natAbs (-7) ≤ 2 ^ 53
    decide
  have rows : Shape.Exact (E := .plain) (.list (.list (.int .int32))) [[i], [], [i, i]] := by
    simp only [Shape.Exact, List.forall_mem_cons, List.length_cons, List.length_nil] at small ⊢
    have none {p : IntType.int32.Range → Prop} : ∀ j ∈ [], p j := List.forall_mem_nil p
    refine ⟨by decide, ⟨by decide, small, none⟩, ⟨by decide, none⟩, ?_, List.forall_mem_nil _⟩
    exact ⟨by decide, small, small, none⟩
  have missing : Shape.Exact (E := .plain) (.option .number) none := nofun
  have exact : Tuple.Exact (E := .plain) ss (none, [[i], [], [i, i]], ()) := ⟨missing, rows, trivial⟩
  exact ((plain_round_trip (H := H) s (by decide)).2 ss plain).1 _ exact (by decide)

end Run
end HostBridge
