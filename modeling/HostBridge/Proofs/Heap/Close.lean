import HostBridge.Proofs.Heap.Sweep
import HostBridge.Proofs.Heap.Release
import HostBridge.Proofs.Table.Contents
import HostBridge.Proofs.Call.Outcome
/-!
What closing a state leaves: an empty stack and no pairs in any table that was reachable from the
state itself. A table keeps the key of a removed pair until it drops the slot, so a table that was
only ever such a key is reachable too. All other tables stay as they are.
-/
namespace HostBridge
namespace Heap
variable {E : Embedding}

/-- What a reader of the heap gets from a value: the keys and values of the pairs that a table
holds, its metatable, and the metatable of a userdata. -/
def shown (h : Heap E) : Value → List Value
  | .table t =>
    (h.table t).pairs.flatMap (fun p => [p.1, p.2]) ++
      ((h.table t).metatable.map Value.table).toList
  | v => h.onward v

/-- A reader that has the first value gets to the second. -/
def Shows (h : Heap E) : Value → Value → Prop :=
  Relation.ReflTransGen fun v w => w ∈ h.shown v

theorem onward_of_shown {h : Heap E} {v w : Value} (next : w ∈ h.shown v) :
    w ∈ h.onward v ∨ ∃ n, w = .number n := by
  cases v with
  | table t =>
    rcases List.mem_append.mp next with held | own
    · obtain ⟨e, pair, side⟩ := List.mem_flatMap.mp held
      rw [List.mem_cons, List.mem_singleton] at side
      rcases List.mem_append.mp pair with slot | entry
      · obtain ⟨i, found, -, key⟩ := Table.mem_arrayPairs.mp slot
        rcases side with rfl | rfl
        · exact .inr ⟨_, key⟩
        · exact .inl (List.mem_append_left _ (List.mem_append_left _
            (Array.mem_toList_iff.mpr (Array.mem_of_getElem? found))))
      · have listed := Array.mem_toList_iff.mpr (Table.mem_entryPairs.mp entry).1
        exact .inl (List.mem_append_left _ (List.mem_append_right _
          (List.mem_flatMap.mpr ⟨e, listed, by simpa using side⟩)))
    · exact .inl (List.mem_append_right _ own)
  | _ => exact .inl next

/-- A sweep comes to every table that a reader gets to. -/
theorem Shows.leads {h : Heap E} {v : Value} {t : TableId} (shows : h.Shows v (.table t)) :
    h.Leads v (.table t) := by
  induction shows using Relation.ReflTransGen.head_induction_on with
  | refl => exact .refl
  | head first rest ih =>
    rcases onward_of_shown first with next | ⟨n, rfl⟩
    · exact .head next ih
    · -- A number shows nothing, so it is not on the way to a table.
      rcases rest.cases_head with same | ⟨w, none, -⟩
      · contradiction
      · exact absurd none List.not_mem_nil

end Heap

namespace State
variable {E : Embedding}

/-- The run ends in `t`, unless a finalizer panics there. -/
def EndsIn (H : Host E) (m : Run E Unit) (s t : State E) : Prop :=
  m s = .ok () t ∨ ∃ p, m s = .error (.panicked p) t ∧ H.FinalizerPanics p

theorem exec_close (H : Host E) (s : State E) :
    ∃ t, EndsIn H (State.exec H (Action.perform .close)) s t ∧
      ∃ released world finalized, t = { s.close with
        heap := { s.close.heap with released := released }
        world := world
        dropped := []
        finalized := finalized } := by
  let before := if s.heap.userdata.isEmpty then [] else s.stack.slots.toList
  refine ⟨s.close.settle H before, ?_, s.close.settle_frame H before⟩
  have ran : State.exec H (Action.perform .close) s =
      (Run.endStatement H before >>= fun _ => pure ()) s.close := rfl
  rw [EndsIn, ran, Run.bind_eq, Run.endStatement_eq]
  cases ended : (s.close.settle H before).finalized with
  | ok _ => exact .inl rfl
  | error p => exact .inr ⟨p, rfl, finalized_settle ended⟩

/-- Closing ends, with nothing pending; only a finalizer of what is released may panic. It empties
the stack and every table that was reachable from a stack slot, the globals, the registry or the
metatable of a host type, by way of what tables held in their slots, of their metatables and of
those of userdata. Every other table stays as it is. -/
theorem close_empties_reachable (H : Host E) (s : State E) :
    ∃ t, EndsIn H (State.exec H (Action.perform .close)) s t ∧ t.stack.slots = #[] ∧
      s.heap.Sweeps s.own.reverse s.close.heap ∧ t.heap.tables = s.close.heap.tables ∧
      ∀ id : TableId,
        (s.heap.Due s.own id →
          (t.heap.table id).pairs = [] ∧ (t.heap.table id).metatable = none) ∧
        (¬s.heap.Due s.own id → t.heap.table id = s.heap.table id) := by
  obtain ⟨t, ends, released, world, finalized, rfl⟩ := s.exec_close H
  have sweeps := s.sweeps_close
  have own (id : TableId) : s.heap.Due s.own.reverse id ↔ s.heap.Due s.own id := by
    simp only [Heap.Due, List.mem_reverse]
  refine ⟨_, ends, rfl, sweeps, rfl, fun id => ⟨fun due => ?_, fun free => ?_⟩⟩
  · have empty : s.close.heap.table id = .empty := sweeps.empty_of_due ((own id).mpr due)
    change (s.close.heap.table id).pairs = [] ∧ (s.close.heap.table id).metatable = none
    rw [empty]
    exact ⟨rfl, rfl⟩
  · exact sweeps.same_of_not_due (mt (own id).mp free)

/-- A removed pair leaves its key behind. -/
theorem contents_put_remove {key value : Value} (isKey : key.isKey = true)
    (apart : Table.position? key = none) (present : value.isNil = false) :
    let t := (Table.empty.put key value).put key .nil
    t.pairs = [] ∧ t.metatable = none ∧ key ∈ t.contents := by
  intro t
  have fresh : Table.empty.entrySlot? key = none := by
    cases key <;> simp [Table.entrySlot?, Table.empty]
  have put (t : Table) (v : Value) : t.put key v = t.setEntry key v := by rw [Table.put, apart]
  have stored : Table.empty.put key value = Table.empty.append key value := by
    rw [put, Table.setEntry, fresh]
    simp [present, Table.reclaim, Table.empty]
  have slot : (Table.empty.append key value).entrySlot? key = some 0 := by
    rw [Table.entrySlot?_append _ isKey, if_pos rfl]
    rfl
  have removed : t = (Table.empty.append key value).store 0 .nil := by
    change (Table.empty.put key value).put key .nil = _
    rw [put, stored, Table.setEntry, slot]
  have entries : t.entries = #[(key, .nil)] := by
    simp [removed, Table.store, Table.entries_append, Table.empty]
  have array : t.array = #[] := by
    simp [removed, Table.store, Table.empty]
  have metatable : t.metatable = none := by
    simp [removed, Table.store, Table.append, Table.empty]
  refine ⟨?_, metatable, ?_⟩
  · simp [Table.pairs, Table.arrayPairs, Table.entryPairs, array, entries, Value.isNil]
  · simp [Table.contents, entries]

/-- Closing empties a table that no reader could get to: the key of a removed pair. -/
theorem close_empties_removed_key :
    let key : Value := .table ⟨3⟩
    let holder := (Table.empty.put key (.boolean true)).put key .nil
    let s : State .plain :=
      { State.plain #[.table ⟨2⟩] with
        heap := { tables := #[.empty, .empty, holder, { array := #[.boolean true] }] } }
    (∀ v ∈ s.own, ¬s.heap.Shows v key) ∧
      ∃ t, State.exec (Host.running (pure 0)) (Action.perform .close) s = .ok () t ∧
        (s.heap.table ⟨3⟩).pairs ≠ [] ∧ t.heap.table ⟨3⟩ = .empty := by
  intro key holder s
  obtain ⟨unpaired, plain, left⟩ :
    holder.pairs = [] ∧ holder.metatable = none ∧ key ∈ holder.contents :=
    contents_put_remove rfl rfl rfl
  clear_value holder
  have held : s.heap.table ⟨2⟩ = holder := rfl
  have blank (v : Value) (own : v ∈ s.own) : v ≠ key ∧ s.heap.shown v = [] := by
    have three : v = .table ⟨2⟩ ∨ v = .table ⟨0⟩ ∨ v = .table ⟨1⟩ := by
      simpa [State.own, s, State.plain, State.new] using own
    rcases three with rfl | rfl | rfl
    · refine ⟨by decide, ?_⟩
      rw [Heap.shown, held, unpaired, plain]
      rfl
    · exact ⟨by decide, rfl⟩
    · exact ⟨by decide, rfl⟩
  refine ⟨fun v own shows => ?_, ?_⟩
  · obtain ⟨other, none⟩ := blank v own
    rcases shows.cases_head with same | ⟨w, first, -⟩
    · exact other same
    · rw [none] at first
      contradiction
  · obtain ⟨t, ends, released, world, finalized, rfl⟩ := s.exec_close (Host.running (pure 0))
    have ran := ends.resolve_right fun ⟨p, _, t, _⟩ => t.elim
    have next : key ∈ s.heap.onward (.table ⟨2⟩) := by
      rw [Heap.onward, held]
      exact left
    have due : s.heap.Due s.own.reverse ⟨3⟩ :=
      ⟨.table ⟨2⟩, by simp [State.own, s, State.plain], .single next⟩
    refine ⟨_, ran, ?_, s.sweeps_close.empty_of_due due⟩
    change ({ array := #[.boolean true] } : Table).pairs ≠ []
    decide

end State
end HostBridge
