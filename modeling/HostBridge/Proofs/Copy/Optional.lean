import HostBridge.Proofs.Access.Overflow
import HostBridge.Proofs.Copy.Typed
import HostBridge.Proofs.Table.Holes

namespace HostBridge

namespace State
variable {E : Embedding}

/-- What a value stands for in a list of optional elements: nil for a missing one, any other value
for an element like the one that it reads as. -/
def StandsFor (s : State E) (shape : Shape E.Tag)
    (like : shape.Carrier E → shape.Carrier E → Prop) : Option (shape.Carrier E) → Value → Prop
  | none, v => v = .nil
  | some x, v => v.isNil = false ∧ ∃ y, s.decode shape v = .ok y ∧ like x y

variable {s : State E} {shape : Shape E.Tag} {like : shape.Carrier E → shape.Carrier E → Prop}
  {xs : List (Option (shape.Carrier E))} {vs : List Value}

theorem StandsFor.isNil {x : Option (shape.Carrier E)} {v : Value}
    (stands : s.StandsFor shape like x v) : v.isNil = x.isNone := by
  cases x with
  | none =>
    cases stands
    rfl
  | some x => exact stands.1

theorem standsFor_leading (stand : List.Forall₂ (s.StandsFor shape like) xs vs) :
    List.Forall₂ (s.StandsFor shape like) (xs.takeWhile Option.isSome) (Run.leading vs) := by
  induction stand with
  | nil => exact .nil
  | @cons x v xs vs first rest ih =>
    have isNil := first.isNil
    cases x with
    | none =>
      rw [Run.leading, List.takeWhile_cons_of_neg (by simp), List.takeWhile_cons_of_neg]
      · exact .nil
      · simp [isNil]
    | some x =>
      rw [Run.leading, List.takeWhile_cons_of_pos (by simp), List.takeWhile_cons_of_pos]
      · exact .cons first ih
      · simp [isNil]

theorem decode_standsFor (stand : List.Forall₂ (s.StandsFor shape like) xs vs) :
    ∃ ys, vs.mapM (s.decode (.option shape)) = .ok ys ∧ List.Forall₂ (Option.Rel like) xs ys := by
  induction stand with
  | nil => exact ⟨[], rfl, .nil⟩
  | @cons x v xs vs first rest ih =>
    obtain ⟨ys, decoded, alike⟩ := ih
    cases x with
    | none =>
      cases first
      exact ⟨none :: ys, by rw [List.mapM_cons, decoded]; rfl, .cons .none alike⟩
    | some x =>
      obtain ⟨live, y, read, same⟩ := first
      have element : s.decode (.option shape) v = .ok (some y) := by
        rw [decode] at read ⊢
        rw [Heap.decode_option live, read]
        rfl
      exact ⟨some y :: ys, by rw [List.mapM_cons, element, decoded]; rfl, .cons (.some same) alike⟩

end State

namespace Run
open State
variable {E : Embedding} {H : Host E} {s t : State E} {shape : Shape E.Tag}
  {like : shape.Carrier E → shape.Carrier E → Prop} {xs : List (Option (shape.Carrier E))}

/-- From `s` on, the host value becomes a value other than nil, which reads as one like it whatever
is added to the state afterwards. -/
def ComesBack (H : Host E) (s : State E) (shape : Shape E.Tag)
    (like : shape.Carrier E → shape.Carrier E → Prop) (x : shape.Carrier E) : Prop :=
  ∀ t, s.Later t → ∃ v u, encode H shape x t = .ok v u ∧ v.isNil = false ∧
    ∀ w, u.Later w → ∃ y, w.decode shape v = .ok y ∧ like x y

theorem comesBack_of_pure {x : shape.Carrier E} {v : Value}
    (encoded : ∀ t, encode H shape x t = .ok v t) (live : v.isNil = false)
    (decoded : ∀ w : State E, w.decode shape v = .ok x) : ComesBack H s shape Eq x := fun t _ =>
  ⟨v, t, encoded t, live, fun w _ => ⟨x, decoded w, rfl⟩⟩

theorem encode_standsFor {x : Option (shape.Carrier E)}
    (back : ∀ y, x = some y → ComesBack H s shape like y) (later : s.Later t) :
    ∃ v u, encode H (.option shape) x t = .ok v u ∧ t.Later u ∧
      ∀ w, u.Later w → w.StandsFor shape like x v := by
  cases x with
  | none => exact ⟨.nil, t, rfl, .refl t, fun _ _ => rfl⟩
  | some y =>
    obtain ⟨v, u, encoded, live, reads⟩ := back y rfl t later
    exact ⟨v, u, encoded, (adds_encode H shape y).of_ok encoded, fun w since => ⟨live, reads w since⟩⟩

theorem mapM_standsFor (back : ∀ y, some y ∈ xs → ComesBack H s shape like y) (later : s.Later t) :
    ∃ vs u, xs.mapM (encode H (.option shape)) t = .ok vs u ∧ t.Later u ∧
      ∀ w, u.Later w → List.Forall₂ (w.StandsFor shape like) xs vs := by
  induction xs generalizing t with
  | nil => exact ⟨[], t, rfl, .refl t, fun _ _ => .nil⟩
  | cons x xs ih =>
    obtain ⟨v, u, encoded, grown, stands⟩ := encode_standsFor (H := H) (x := x)
      (fun y this => back y (List.mem_cons.mpr (.inl this.symm))) later
    obtain ⟨vs, u', encoded', grown', stand⟩ :=
      ih (fun y listed => back y (List.mem_cons_of_mem x listed)) (later.trans grown)
    refine ⟨v :: vs, u', ?_, grown.trans grown', fun w since => ?_⟩
    · simp only [List.mapM_cons, bind_eq, encoded, encoded', pure_eq]
    · exact .cons (stands w (grown'.trans since)) (stand w since)

/-- The new table holds what stands for the elements, for good. -/
theorem encode_optional_list (registered : s.registry.index < s.heap.tables.size)
    (back : ∀ y, some y ∈ xs → ComesBack H s shape like y) :
    ∃ vs t u, encode H (.list (.option shape)) xs s = .ok (.table t) u ∧ u.stack = s.stack ∧
      u.base = s.base ∧ ∀ w, u.Later w → w.heap.table t = sequenceTable vs ∧
        List.Forall₂ (w.StandsFor shape like) xs vs := by
  obtain ⟨vs, u, encoded, grown, stand⟩ := mapM_standsFor (H := H) back (.refl s)
  let u' : State E := { u with heap := (u.heap.allocTable (sequenceTable vs)).2 }
  have made : encode H (.list (.option shape)) xs s = .ok (.table ⟨u.heap.tables.size⟩) u' := by
    rw [encode, bind_eq, encoded]
    rfl
  have frame := (tame_encode H (.list (.option shape)) xs).same s
  rw [final_of_ok made] at frame
  refine ⟨vs, ⟨u.heap.tables.size⟩, u', made, frame.stack, frame.base, fun w since => ⟨?_, ?_⟩⟩
  · exact since.table_new (grown.registered registered)
  · exact stand w ((later_allocTable u _).trans since)

theorem runAction_rawGetIndex {i n : Int} {x : TableId} (placed : s.slot i = .ok (.table x)) :
    runAction H (Action.rawGetIndex i n) s =
      if s.stack.isFull then .error (.raised .stackOverflow) s
      else .ok ((s.heap.table x).getInt n).kind
        (s.mapSlots (·.push ((s.heap.table x).getInt n))) := by
  simp only [runAction, Action.rawGetIndex, Action.pushKind, action_bind, bind_eq,
    action_tableAt placed, action_table, table_eq, action_push, push_eq]
  cases s.stack.isFull <;> rfl

theorem runAction_rawGet {x : TableId} (k : Number) :
    runAction H (View.rawGet ⟨x⟩ .number shape k) s =
      ofExcept (s.decode shape ((s.heap.table x).get (.number k))) s := by
  simp only [runAction, View.rawGet, action_bind, bind_eq, action_encode, encode, pure_eq,
    action_table, table_eq, action_decode, read_eq]

/-- A list of optional elements comes back as its longest prefix without a missing one, and that is the
length of its table. The elements behind it are still in the table, each under its own index. -/
theorem optional_list_round_trip (reachable : s.Reachable H) (small : xs.length ≤ 2 ^ 53)
    (room : s.stack.isFull = false) (back : ∀ x, some x ∈ xs → ComesBack H s shape like x) :
    ∃ t s', runAction H (Action.pushAs (.list (.option shape)) xs) s = .ok () s' ∧
      runAction H (View.ofList (.option shape) xs) s = .ok ⟨t⟩ s' ∧
      s'.stack.slots = s.stack.slots.push (.table t) ∧
      (s.base ≤ s.stack.size → s'.slot (-1) = .ok (.table t)) ∧
      (∃ ys, List.Forall₂ (Option.Rel like) (xs.takeWhile Option.isSome) ys ∧
        runAction H (View.toList ⟨t⟩ (.option shape)) s' = .ok ys s' ∧
        ∀ i, s'.slot i = .ok (.table t) →
          runAction H (Action.readAs (.list (.option shape)) i) s' = .ok ys s') ∧
      (∀ i, s'.slot i = .ok (.table t) →
        runAction H (Action.rawLen i) s' = .ok (xs.takeWhile Option.isSome).length s') ∧
      ∀ (n : Nat) x, xs[n]? = some (some x) → ∃ v y, v.isNil = false ∧
        s'.decode shape v = .ok y ∧ like x y ∧
        runAction H (View.rawGet ⟨t⟩ .number shape (.ofInt (n + 1))) s' = .ok y s' ∧
        ∀ i, s'.slot i = .ok (.table t) → s'.stack.isFull = false →
          runAction H (Action.rawGetIndex i (n + 1)) s' =
            .ok v.kind (s'.mapSlots (·.push v)) := by
  obtain ⟨vs, t, u, encoded, stack, base, since⟩ :=
    encode_optional_list (H := H) reachable.registered back
  let s' := u.mapSlots (·.push (.table t))
  have pushed : push (.table t) u = .ok () s' := by
    rw [push_eq, stack, room]
    rfl
  have top : s.base ≤ s.stack.size → s'.slot (-1) = .ok (.table t) := fun framed =>
    slot_push (s := u) (by rw [base, stack]; exact framed) _
  obtain ⟨stored, stand⟩ := since s' (later_inFrameOf u s')
  have small' : vs.length ≤ 2 ^ 53 := stand.length_eq ▸ small
  have prefixes := standsFor_leading stand
  obtain ⟨ys, decoded, alike⟩ := decode_standsFor prefixes
  have reads : s'.decode (.list (.option shape)) (.table t) = .ok ys := by
    rw [← decoded, ← Heap.sequence_of_sequenceTable small' stored]
    rfl
  refine ⟨t, s', ?_, ?_, congrArg (Array.push · _) (congrArg Stack.slots stack), top,
    ⟨ys, alike, ?_, fun i placed => ?_⟩, fun i placed => ?_, fun n x listed => ?_⟩
  · rw [runAction, action_pushAs, bind_eq, encoded]
    exact pushed
  · simp only [runAction, View.ofList, action_bind, bind_eq, action_encode, encoded, action_push,
      pushed]
    rfl
  · rw [runAction, View.toList, action_decode, read_eq, View.value, reads]
    rfl
  · rw [readAs_eq _ placed, reads]
    rfl
  · rw [runAction_rawLen placed, stored, border_sequenceTable small', prefixes.length_eq]
  · obtain ⟨inside, here⟩ := List.getElem?_eq_some_iff.mp listed
    have inside' : n < vs.length := stand.length_eq ▸ inside
    have stands : s'.StandsFor shape like xs[n] vs[n] := stand.get inside inside'
    rw [here] at stands
    obtain ⟨live, y, read, same⟩ := stands
    have found : (s'.heap.table t).getInt (n + 1) = vs[n] :=
      stored ▸ getInt_sequenceTable small' (List.getElem?_eq_getElem inside')
    have valid : (s'.heap.table t).Valid := stored ▸ valid_sequenceTable vs
    refine ⟨vs[n], y, live, read, same, ?_, fun i placed free => ?_⟩
    · have key : (s'.heap.table t).get (.number (.ofInt (n + 1))) = vs[n] :=
        (Table.getInt_eq valid.small _).symm.trans found
      rw [runAction_rawGet, key, read]
      rfl
    · rw [runAction_rawGetIndex placed, found, free]
      rfl

/-- A missing element between two numbers. -/
theorem optional_list_round_trip_hole :
    let H := Host.running (pure 0)
    let s : State .plain := State.new .standard ()
    let five : Number := .ofInt 5
    let seven : Number := .ofInt 7
    s.Reachable H ∧ s.stack.isFull = false ∧
      ∃ t s', runAction H (Action.pushAs (.list (.option .number)) [some five, none, some seven]) s =
          .ok () s' ∧
        runAction H (View.toList ⟨t⟩ (.option .number)) s' = .ok [some five] s' ∧
        runAction H (View.rawGet ⟨t⟩ .number .number (.ofInt 3)) s' = .ok seven s' := by
  intro H s five seven
  have reachable : s.Reachable H := .new H .standard ()
  have small : [some five, none, some seven].length ≤ 2 ^ 53 := by decide
  have back : ∀ x, ComesBack H s .number Eq x := fun x =>
    comesBack_of_pure (v := .number x) (fun _ => rfl) rfl fun _ => rfl
  obtain ⟨t, s', pushed, -, -, -, ⟨ys, alike, listed, -⟩, -, found⟩ :=
    optional_list_round_trip reachable small rfl fun x _ => back x
  obtain ⟨-, y, -, -, same, read, -⟩ := found 2 seven rfl
  have leads : [some five, none, some seven].takeWhile Option.isSome = [some five] := rfl
  rw [leads] at alike
  refine ⟨reachable, rfl, t, s', pushed, ?_, same ▸ read⟩
  obtain ⟨z, zs, first, rest, rfl⟩ := List.forall₂_cons_left_iff.mp alike
  cases rest
  cases first with
  | some equal => exact equal ▸ listed

end Run
end HostBridge
