import HostBridge.Proofs.Access.Chain
import HostBridge.Proofs.Table.Contents

namespace HostBridge
namespace Heap
variable {E : Embedding}

/-- One table has got a new value under one key, and nothing else has changed. -/
structure Assigned (h : Heap E) (t : TableId) (key v : Value) (h' : Heap E) : Prop where
  value : ∀ k, (h'.table t).get k = if key.sameKey k then v else (h.table t).get k
  metatable : (h'.table t).metatable = (h.table t).metatable
  others : ∀ u, u ≠ t → h'.table u = h.table u
  rest : h' = { h with tables := h'.tables }
  size : h'.tables.size = h.tables.size

theorem assigned_put {h : Heap E} {t : TableId} (valid : (h.table t).Valid)
    (made : t.index < h.tables.size) {key : Value} (isKey : key.isKey = true) (v : Value) :
    h.Assigned t key v (h.modifyTable t fun x => x.put key v) := by
  have changed : (h.modifyTable t fun x => x.put key v).table t = (h.table t).put key v := by
    rw [table_modifyTable, if_pos ⟨rfl, made⟩]
  refine ⟨fun k => ?_, ?_, fun u other => ?_, rfl, Array.size_modify⟩
  · rw [changed, Table.get_put valid isKey]
    simp only [Value.sameKey_iff, eq_comm (a := k.normal) (b := key.normal)]
  · rw [changed, Table.metatable_put]
  · rw [table_modifyTable, if_neg fun same => other (congrArg TableId.mk same.1.symm)]

/-- An assignment under the key ends at `v`, without a call. -/
def Takes (h : Heap E) (key v : Value) : Prop :=
  h.held key v ≠ .nil ∨ h.metafield v .newIndex = .nil

variable {h : Heap E} {key v : Value}

theorem held_eq_nil (other : v.kind ≠ .table) : h.held key v = .nil := by
  cases v with
  | table t => exact absurd rfl other
  | _ => rfl

theorem takes_or_calls (stops : ¬h.Relays .newIndex key v) :
    h.Takes key v ∨ h.held key v = .nil ∧ ∃ f, h.metafield v .newIndex = .function f := by
  rcases ends_of_not_relays stops with held | ⟨-, unhandled⟩ | calls
  · exact .inl (.inl held)
  · exact .inl (.inr unhandled)
  · exact .inr calls

theorem table_or_unhandled (takes : h.Takes key v) :
    (∃ t, v = .table t) ∨ v.kind ≠ .table ∧ h.metafield v .newIndex = .nil := by
  cases v with
  | table t => exact .inl ⟨t, rfl⟩
  | _ => exact .inr ⟨nofun, takes.resolve_left fun held => held rfl⟩

end Heap

namespace Run
open State
variable {E : Embedding} {H : Host E} {enter : Enter E}

theorem setRaw_eq (t : TableId) (key v : Value) (s : State E) :
    setRaw t key v s = match Table.keyFault? key with
      | some e => .error (.raised e) s
      | none => .ok () { s with heap := s.heap.modifyTable t fun x => x.put key v } := by
  unfold setRaw
  cases Table.keyFault? key <;> rfl

section Link
variable {s : State E} {key w : Value} {k : Nat}

theorem newIndexChain_takes {t : TableId} (v : Value) (takes : s.heap.Takes key (.table t)) :
    action enter H (Action.newIndexChain key v (k + 1) (.table t)) s = setRaw t key v s := by
  rw [Action.newIndexChain, action_bind, bind_eq, action_rawAt]
  cases filled : (s.heap.held key (.table t)).isNil with
  | false =>
    simp only [filled, Bool.false_eq_true, if_false, action_bind, bind_eq, action_pure, pure_eq,
      action_setRaw]
  | true =>
    have unhandled := takes.resolve_left fun held => held (Value.isNil_iff.mp filled)
    simp only [filled, if_true, action_bind, bind_eq, action_metafield, unhandled, action_setRaw]

/-- A link that holds nothing under the key leaves the value to its handler. -/
theorem newIndexChain_empty (v : Value) (empty : s.heap.held key w = .nil) :
    action enter H (Action.newIndexChain key v (k + 1) w) s =
      match s.heap.metafield w .newIndex, w with
      | .nil, .table t => setRaw t key v s
      | .nil, w => .error (.raised (.notIndexable w.kind)) s
      | .function f, w => (callValue enter (.function f) [w, key, v] 0 >>= fun _ => pure ()) s
      | handler, _ => action enter H (Action.newIndexChain key v k handler) s := by
  rw [Action.newIndexChain, action_bind, bind_eq, action_rawAt, empty]
  simp only [Value.isNil, if_true, action_bind, bind_eq, action_metafield]
  cases s.heap.metafield w .newIndex with
  | nil =>
    cases w with
    | table t => simp only [action_setRaw]
    | _ => rfl
  | function f => simp only [action_bind, bind_eq, action_callValue, keeping_nil, action_pure]
  | _ => rfl

theorem newIndexChain_refuses (v : Value) (other : w.kind ≠ .table)
    (unhandled : s.heap.metafield w .newIndex = .nil) :
    action enter H (Action.newIndexChain key v (k + 1) w) s =
      .error (.raised (.notIndexable w.kind)) s := by
  rw [newIndexChain_empty v (Heap.held_eq_nil other), unhandled]
  cases w with
  | table t => exact absurd rfl other
  | _ => rfl

theorem newIndexChain_function (v : Value) {f : FunctionId} (empty : s.heap.held key w = .nil)
    (handled : s.heap.metafield w .newIndex = .function f) :
    action enter H (Action.newIndexChain key v (k + 1) w) s =
      (callValue enter (.function f) [w, key, v] 0 >>= fun _ => pure ()) s := by
  rw [newIndexChain_empty v empty, handled]

theorem newIndexChain_relays (v : Value) (relays : s.heap.Relays .newIndex key w) (k : Nat) :
    action enter H (Action.newIndexChain key v (k + 1) w) s =
      action enter H (Action.newIndexChain key v k (s.heap.metafield w .newIndex)) s := by
  rw [newIndexChain_empty v relays.empty]
  cases handled : s.heap.metafield w .newIndex with
  | nil => exact absurd handled relays.handled
  | function f => exact absurd handled (relays.value f)
  | _ => rfl

end Link

section Assigning
variable {s : State E} {target key v : Value}

/-- An assignment begins anew at any link that all links before it relay to. -/
theorem runAction_newIndex_at (v : Value) {n : Nat} (within : n < 100)
    (arrives : ∀ m < n, s.heap.Relays .newIndex key (s.heap.link .newIndex target m)) :
    ∃ k, runAction H (Action.newIndex target key v) s =
      action (Run.enter H s.depthLeft) H
        (Action.newIndexChain key v (k + 1) (s.heap.link .newIndex target n)) s := by
  refine ⟨99 - n, ?_⟩
  have rest := Heap.walk_to_link
    (fun k w => action (Run.enter H s.depthLeft) H (Action.newIndexChain key v k w) s)
    (fun k w relays => newIndexChain_relays v relays k) arrives (99 - n + 1)
  rw [← rest, show n + (99 - n + 1) = 100 by omega]
  rfl

theorem setRaw_outcome (sound : s.Sound H) {t : TableId} (made : t.index < s.heap.tables.size)
    (key v : Value) :
    if key = .nil then setRaw t key v s = .error (.raised .nilKey) s
    else if key.isNaN then setRaw t key v s = .error (.raised .nanKey) s
    else ∃ h, s.heap.Assigned t key v h ∧ setRaw t key v s = .ok () { s with heap := h } := by
  rw [setRaw_eq, Table.keyFault?_eq]
  by_cases nil : key = .nil
  · simp only [if_pos nil]
  · by_cases notNumber : key.isNaN = true
    · simp only [if_neg nil, if_pos notNumber]
    · have fault : Table.keyFault? key = none := by
        rw [Table.keyFault?_eq, if_neg nil, if_neg notNumber]
      have isKey := Table.keyFault?_eq_none_iff.mp fault
      simp only [if_neg nil, if_neg notNumber]
      exact ⟨_, Heap.assigned_put (sound.tables t) made isKey v, rfl⟩

/-- An assignment follows the handlers from link to link, through any cycle of metatables. The first
link that holds the key or has no handler takes the value, if it is a table; a link that is none
fails, and so do a key that is nil or NaN and a chain of more than a hundred links. What fails
changes nothing, and what succeeds changes nothing but the value of the key in that one table. A
handler that is a function is called once, and all that changes then is up to the function. -/
theorem assign_along_chain (reachable : s.Reachable H) (target key v : Value)
    (made : ∀ n t, s.heap.link .newIndex target n = .table t → t.index < s.heap.tables.size) :
    let link := s.heap.link .newIndex target
    let Arrives (n : Nat) := n < 100 ∧ ∀ m < n, s.heap.Relays .newIndex key (link m)
    let Calls (n : Nat) (f : FunctionId) := Arrives n ∧ s.heap.held key (link n) = .nil ∧
      s.heap.metafield (link n) .newIndex = .function f
    let write := runAction H (Action.newIndex target key v) s
    (∀ n t, Arrives n → link n = .table t → s.heap.Takes key (link n) →
      if key = .nil then write = .error (.raised .nilKey) s
      else if key.isNaN then write = .error (.raised .nanKey) s
      else ∃ h, s.heap.Assigned t key v h ∧ write = .ok () { s with heap := h }) ∧
    (∀ n, Arrives n → (link n).kind ≠ .table → s.heap.metafield (link n) .newIndex = .nil →
      write = .error (.raised (.notIndexable (link n).kind)) s) ∧
    (∀ n f, Calls n f → HandsOver H f [link n, key, v] (fun _ => ()) s write) ∧
    ((∀ n < 100, s.heap.Relays .newIndex key (link n)) →
      write = .error (.raised (.chainTooLong .newIndex)) s) ∧
    ((∀ n f, ¬Calls n f) →
      (∃ n t h, Arrives n ∧ link n = .table t ∧ s.heap.Takes key (link n) ∧
        s.heap.Assigned t key v h ∧ write = .ok () { s with heap := h }) ∨
      ∃ e, write = .error (.raised e) s ∧ (e = .nilKey ∨ e = .nanKey ∨
        (∃ k, e = .notIndexable k) ∨ e = .chainTooLong .newIndex)) := by
  intro link Arrives Calls write
  have taken : ∀ n t, Arrives n → link n = .table t → s.heap.Takes key (link n) →
      if key = .nil then write = .error (.raised .nilKey) s
      else if key.isNaN then write = .error (.raised .nanKey) s
      else ∃ h, s.heap.Assigned t key v h ∧ write = .ok () { s with heap := h } := by
    intro n t ⟨within, arrives⟩ isTable takes
    obtain ⟨k, runs⟩ := runAction_newIndex_at (H := H) v within arrives
    have placed : s.heap.link .newIndex target n = .table t := isTable
    rw [placed] at runs
    rw [isTable] at takes
    have ran : write = setRaw t key v s := runs.trans (newIndexChain_takes v takes)
    rw [ran]
    exact setRaw_outcome reachable.sound (made n t isTable) key v
  have refused : ∀ n, Arrives n → (link n).kind ≠ .table →
      s.heap.metafield (link n) .newIndex = .nil →
      write = .error (.raised (.notIndexable (link n).kind)) s := by
    intro n ⟨within, arrives⟩ other unhandled
    obtain ⟨k, runs⟩ := runAction_newIndex_at (H := H) v within arrives
    exact runs.trans (newIndexChain_refuses v other unhandled)
  have tooLong : (∀ n < 100, s.heap.Relays .newIndex key (link n)) →
      write = .error (.raised (.chainTooLong .newIndex)) s := by
    intro all
    exact Heap.walk_to_link
      (fun k w => action (Run.enter H s.depthLeft) H (Action.newIndexChain key v k w) s)
      (fun k w relays => newIndexChain_relays v relays k) all 0
  refine ⟨taken, refused, ?_, tooLong, fun noCall => ?_⟩
  · intro n f ⟨⟨within, arrives⟩, empty, handled⟩
    obtain ⟨k, runs⟩ := runAction_newIndex_at (H := H) v within arrives
    change HandsOver H f [link n, key, v] _ s (runAction H (Action.newIndex target key v) s)
    rw [runs, newIndexChain_function v empty handled]
    exact handsOver_callValue (by decide) (by decide) (fun _ => rfl) rfl
  · rcases s.heap.relays_or_stops .newIndex key target 100 with all | ⟨n, within, before, stops⟩
    · exact .inr ⟨_, tooLong all, .inr (.inr (.inr rfl))⟩
    · have arrives : Arrives n := ⟨within, before⟩
      rcases Heap.takes_or_calls stops with takes | ⟨empty, f, handled⟩
      · rcases Heap.table_or_unhandled takes with ⟨t, isTable⟩ | ⟨other, unhandled⟩
        · have outcome := taken n t arrives isTable takes
          split at outcome
          · exact .inr ⟨_, outcome, .inl rfl⟩
          · split at outcome
            · exact .inr ⟨_, outcome, .inr (.inl rfl)⟩
            · obtain ⟨h, assigned, ran⟩ := outcome
              exact .inl ⟨n, t, h, arrives, isTable, takes, assigned, ran⟩
        · exact .inr ⟨_, refused n arrives other unhandled, .inr (.inr (.inl ⟨_, rfl⟩))⟩
      · exact absurd ⟨arrives, empty, handled⟩ (noCall n f)

/-- A table whose metatable is the table itself, and whose handler is the registry. -/
theorem assign_along_chain_forwarded :
    let H := Host.running (pure 0)
    let forwards : Table :=
      { Table.empty.setStr Event.newIndex.key (.table ⟨1⟩) with metatable := some ⟨2⟩ }
    let start : State .plain := State.new .standard ()
    let s : State .plain := { start with heap := (start.heap.allocTable forwards).2 }
    s.Reachable H ∧
    (∀ n t, s.heap.link .newIndex (.table ⟨2⟩) n = .table t → t.index < s.heap.tables.size) ∧
    ∃ h, s.heap.Assigned ⟨1⟩ (.string "x") (.light 7) h ∧
      runAction H (Action.newIndex (.table ⟨2⟩) (.string "x") (.light 7)) s =
        .ok () { s with heap := h } := by
  intro H forwards start s
  have valid : forwards.Valid := (Table.Valid.empty.setStr _ _).withMetatable _
  have reachable : s.Reachable H :=
    (Reachable.new H .standard ()).changes (Change.newTable forwards valid).changes
  have handler : s.heap.metafield (.table ⟨2⟩) .newIndex = .table ⟨1⟩ := by
    change (Table.empty.setStr Event.newIndex.key (.table ⟨1⟩)).getStr Event.newIndex.key = _
    rw [Table.Valid.empty.getStr_setStr, if_pos rfl]
  have empty : s.heap.held (.string "x") (.table ⟨2⟩) = .nil := by
    change (Table.empty.setStr Event.newIndex.key (.table ⟨1⟩)).getStr "x" = _
    rw [Table.Valid.empty.getStr_setStr, if_neg (by decide), Table.getStr_eq, Table.get_empty]
  have unhandled : s.heap.metafield (.table ⟨1⟩) .newIndex = .nil := by
    have none : s.heap.metatable (.table ⟨1⟩) = none := Table.metatable_setEntry _ _ _
    rw [Heap.metafield, none]
  have second : s.heap.link .newIndex (.table ⟨2⟩) 1 = .table ⟨1⟩ := handler
  have made : ∀ n t, s.heap.link .newIndex (.table ⟨2⟩) n = .table t →
      t.index < s.heap.tables.size := by
    intro n t isTable
    rcases n with _ | _ | n
    · cases isTable
      decide
    · cases second.symm.trans isTable
      decide
    · rw [Heap.link_succ, handler, Heap.link_succ, unhandled, Heap.link_nil] at isTable
      contradiction
  refine ⟨reachable, made, ?_⟩
  have arrives : ∀ m < 1, s.heap.Relays .newIndex (.string "x")
      (s.heap.link .newIndex (.table ⟨2⟩) m) := by
    intro m before
    obtain rfl : m = 0 := by omega
    refine ⟨empty, fun none => ?_, fun f calls => ?_⟩
    · cases handler.symm.trans none
    · cases handler.symm.trans calls
  exact (assign_along_chain reachable (.table ⟨2⟩) (.string "x") (.light 7) made).1 1 ⟨1⟩
    ⟨by decide, arrives⟩ second (.inr (second ▸ unhandled))

end Assigning
end Run
end HostBridge
