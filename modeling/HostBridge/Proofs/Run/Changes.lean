import HostBridge.Proofs.Run.Respects
import HostBridge.Proofs.Table.FiniteMap
import Mathlib.Logic.Relation
/-!
The changes of a state that a run is made of. Whatever the host supplies, all that a run does to its
state is a sequence of these; what each of them keeps therefore holds in every state that a run
passes through.
-/
namespace HostBridge

def Binding.events {E : Embedding} {t : E.Tag} (b : Binding E t) : List Event :=
  [.index, .newIndex] ++ b.operators.map Operator.event

namespace State
variable {E : Embedding}

def Tagged (s : State E) (t : E.Tag) (us : List UserdataId) : Prop :=
  ∀ u ∈ us, ∃ d, s.heap.userdata? u = some d ∧ d.tag = t

/-- What an entry point relies on: a hook answers for an event that its host type declares, a method
belongs to an instance of its own host type. -/
def Founded (H : Host E) (s : State E) : Entry E → Prop
  | .hook t e => ∃ b, H.binding t = .ok b ∧ e ∈ b.events
  | .method t _ u => s.Tagged t [u]
  | _ => True

inductive Change (H : Host E) (s : State E) : State E → Prop
  -- the frame
  | slots (f : Array Value → Array Value) : Change H s (s.mapSlots f)
  | descend (frame : Nat) : Change H s (s.descend frame)
  | ascend (base : Nat) : Change H s (s.ascend base)
  -- the heap
  | newTable (x : Table) (valid : x.Valid) :
      Change H s { s with heap := (s.heap.allocTable x).2 }
  | put (t : TableId) (key value : Value) (isKey : key.isKey = true) :
      Change H s { s with heap := s.heap.modifyTable t fun x => x.put key value }
  | metatable (v : Value) (m : Option TableId) (h : Heap E) (set : s.heap.setMetatable v m = .ok h) :
      Change H s { s with heap := h }
  | newCallable (c : Callable E) (founded : s.Founded H c.entry) :
      Change H s { s with heap := (s.heap.allocCallable c).2 }
  | newUserdata (u : Userdata E) : Change H s { s with heap := (s.heap.allocUserdata u).2 }
  | newObject (o : Object E) : Change H s { s with heap := (s.heap.allocObject o).2 }
  | payload {t : E.Tag} (r : HostRef E t) (x : E.Payload t) :
      Change H s { s with heap := s.heap.setPayload r x }
  | borrow (o : ObjectId) (f : Borrow → Borrow) :
      Change H s { s with heap := s.heap.modifyBorrow o f }
  | unborrow (old : Array (Object E)) : Change H s { s with heap := s.heap.restoreBorrows old }
  | release (e : Entity) :
      Change H s { s with heap := { s.heap with released := s.heap.released.insert e } }
  -- what a state holds beside frame and heap
  | compile (t : E.Tag) : Change H s (s.compile t)
  | typeMetatable (t : E.Tag) (m : TableId) :
      Change H s { s with typeMetatables := s.typeMetatables ++ [(t, m)] }
  | thunk (key : Params E.Tag × Params E.Tag) : Change H s { s with thunks := s.thunks ++ [key] }
  | lastError (e : Option Error) : Change H s { s with lastError := e }
  | policy (p : MissingMember) : Change H s { s with config := { s.config with missingMember := p } }
  | world (w : E.World) : Change H s { s with world := w }
  | memberRun (r : MemberRun E) (operands : r.instances.length = r.code.operands)
      (tagged : s.Tagged r.tag r.instances) :
      Change H s { s with memberRuns := r :: s.memberRuns }
  | overreport : Change H s s.withOverreport
  | waiting (vs : List Value) : Change H s (s.awaiting vs)
  | assign (vars : List Entity) : Change H s (s.assign vars)
  | finalized (r : Except Panic Unit) : Change H s { s with finalized := r }
  | settling : Change H s s.settling
  | close : Change H s s.close

def Changes (H : Host E) : State E → State E → Prop := Relation.ReflTransGen (Change H)

theorem Changes.refl {H : Host E} (s : State E) : s.Changes H s := Relation.ReflTransGen.refl

theorem Changes.trans {H : Host E} {s t u : State E} (first : s.Changes H t)
    (second : t.Changes H u) : s.Changes H u :=
  Relation.ReflTransGen.trans first second

theorem Change.changes {H : Host E} {s t : State E} (one : Change H s t) : s.Changes H t :=
  Relation.ReflTransGen.single one

/-- What every change keeps, a sequence of changes keeps. -/
theorem Changes.keep {H : Host E} {P : State E → Prop}
    (keeps : ∀ s t, Change H s t → P s → P t) {s t : State E} (changes : s.Changes H t)
    (before : P s) : P t := by
  induction changes with
  | refl => exact before
  | tail _ last ih => exact keeps _ _ last ih

end State

namespace Heap
variable {E : Embedding}

theorem setMetatable_cases {h h' : Heap E} {v : Value} {m : Option TableId}
    (set : h.setMetatable v m = .ok h') :
    (∃ t, v = .table t ∧ h' = h.modifyTable t fun x => { x with metatable := m }) ∨
    (∃ u : UserdataId, v = .userdata u ∧
      h' = { h with userdata := h.userdata.modify u.index (·.withMetatable m) }) := by
  cases v with
  | table t => exact .inl ⟨t, rfl, (Except.ok.inj set).symm⟩
  | userdata u => exact .inr ⟨u, rfl, (Except.ok.inj set).symm⟩
  | _ => cases set

theorem refOf_ok {h : Heap E} {t : E.Tag} {u : UserdataId} {r : HostRef E t}
    (found : h.refOf t u = .ok r) : ∃ d, h.userdata? u = some d ∧ d.tag = t := by
  unfold refOf at found
  cases known : h.userdata? u with
  | none =>
    rw [known] at found
    cases found
  | some d =>
    rw [known] at found
    by_cases same : d.tag = t
    · exact ⟨d, rfl, same⟩
    · simp only [if_neg same] at found
      cases found

end Heap

namespace State
variable {E : Embedding}

theorem emptyReachable_heap (fuel : Nat) (h : Heap E) (pending done : List Value) :
    ∃ tables, (emptyReachable h fuel pending done).1 = { h with tables := tables } := by
  induction fuel generalizing h pending done with
  | zero => exact ⟨h.tables, rfl⟩
  | succ fuel ih =>
    cases pending with
    | nil => exact ⟨h.tables, rfl⟩
    | cons v pending =>
      cases v with
      | table t => exact ih (h.modifyTable t fun _ => .empty) _ _
      | _ => exact ih h _ _

theorem close_heap (s : State E) : ∃ tables, s.close.heap = { s.heap with tables := tables } :=
  emptyReachable_heap _ _ _ _

/-- A userdata stands for an object of the same host type for ever. -/
theorem Change.userdata_tag {H : Host E} {s s' : State E} (change : Change H s s') {u : UserdataId}
    {d : Userdata E} (known : s.heap.userdata? u = some d) :
    ∃ d', s'.heap.userdata? u = some d' ∧ d'.tag = d.tag := by
  unfold Heap.userdata? at known ⊢
  cases change with
  | metatable v m h set =>
    rcases Heap.setMetatable_cases set with ⟨t, rfl, rfl⟩ | ⟨w, rfl, rfl⟩
    · exact ⟨d, known, rfl⟩
    · refine ⟨if w.index = u.index then d.withMetatable m else d, ?_, ?_⟩
      · rw [Array.getElem?_modify, known]
        split <;> rfl
      · split <;> rfl
  | newUserdata w =>
    refine ⟨d, ?_, rfl⟩
    have below := (Array.getElem?_eq_some_iff.mp known).1
    change (s.heap.userdata.push w)[u.index]? = some d
    rw [Array.getElem?_push, if_neg (Nat.ne_of_lt below), known]
  | close =>
    obtain ⟨tables, eq⟩ := s.close_heap
    rw [eq]
    exact ⟨d, known, rfl⟩
  | _ => exact ⟨d, known, rfl⟩

theorem Change.tagged {H : Host E} {s s' : State E} (change : Change H s s') {t : E.Tag}
    {us : List UserdataId} (tagged : s.Tagged t us) : s'.Tagged t us := by
  intro u listed
  obtain ⟨d, known, tag⟩ := tagged u listed
  obtain ⟨d', known', same⟩ := change.userdata_tag known
  exact ⟨d', known', same.trans tag⟩

theorem Changes.tagged {H : Host E} {s s' : State E} (changes : s.Changes H s') {t : E.Tag}
    {us : List UserdataId} (tagged : s.Tagged t us) : s'.Tagged t us :=
  changes.keep (P := fun s => s.Tagged t us) (fun _ _ change => change.tagged) tagged

theorem Change.founded {H : Host E} {s s' : State E} (change : Change H s s') {entry : Entry E}
    (founded : s.Founded H entry) : s'.Founded H entry := by
  cases entry with
  | method t i u => exact change.tagged founded
  | _ => exact founded

/-- What holds of a state at every point of a run. -/
structure Sound (H : Host E) (s : State E) : Prop where
  tables : ∀ t, (s.heap.table t).Valid
  entries : ∀ f c, s.heap.callable? f = some c → s.Founded H c.entry
  memberRuns : ∀ r ∈ s.memberRuns,
    r.instances.length = r.code.operands ∧ s.Tagged r.tag r.instances

end State

theorem Table.Valid.withMetatable {t : Table} (valid : t.Valid) (m : Option TableId) :
    Table.Valid { t with metatable := m } where
  toIndexed := valid.toIndexed.of_entries rfl rfl rfl rfl
  small := valid.small
  behind := valid.behind
  ahead := valid.ahead

theorem Table.Valid.setStr {t : Table} (valid : t.Valid) (key : String) (value : Value) :
    (t.setStr key value).Valid := by
  have isKey : (Value.string key).isKey = true := rfl
  exact valid.put isKey value

theorem Table.Valid.of_set {x y : Table} (valid : x.Valid) {key value : Value}
    (stored : x.set key value = .ok y) : y.Valid := by
  unfold Table.set at stored
  cases fault : Table.keyFault? key with
  | some e =>
    rw [fault] at stored
    cases stored
  | none =>
    rw [fault] at stored
    exact Except.ok.inj stored ▸ valid.put (Table.keyFault?_eq_none_iff.mp fault) value

namespace Heap
variable {E : Embedding} {h : Heap E}

theorem table_modifyTable (h : Heap E) (t : TableId) (f : Table → Table) (u : TableId) :
    (h.modifyTable t f).table u =
      if t.index = u.index ∧ u.index < h.tables.size then f (h.table u) else h.table u := by
  unfold table modifyTable
  simp only [Array.getD_eq_getD_getElem?, Array.getElem?_modify]
  by_cases here : t.index = u.index
  · by_cases below : u.index < h.tables.size
    · simp [here, below]
    · simp [here, below]
  · simp [here]

theorem table_allocTable (h : Heap E) (x : Table) (u : TableId) :
    (h.allocTable x).2.table u = if u.index = h.tables.size then x else h.table u := by
  unfold table allocTable
  simp only [Array.getD_eq_getD_getElem?, Array.getElem?_push]
  split <;> rfl

theorem callable?_allocCallable (h : Heap E) (c : Callable E) (f : FunctionId) :
    (h.allocCallable c).2.callable? f =
      if f.index = h.callables.size then some c else h.callable? f := by
  unfold callable? allocCallable
  exact Array.getElem?_push

theorem callable?_of_allocCallable {f : FunctionId} {c : Callable E}
    (known : h.callable? f = some c) (made : Callable E) :
    (h.allocCallable made).2.callable? f = some c := by
  have below : f.index < h.callables.size := (Array.getElem?_eq_some_iff.mp known).1
  rw [callable?_allocCallable, if_neg (Nat.ne_of_lt below), known]

theorem valid_modifyTable (valid : ∀ u, (h.table u).Valid) (t : TableId) {f : Table → Table}
    (keeps : ∀ x : Table, x.Valid → (f x).Valid) (u : TableId) :
    ((h.modifyTable t f).table u).Valid := by
  rw [table_modifyTable]
  split
  · exact keeps _ (valid u)
  · exact valid u

theorem valid_emptyReachable (fuel : Nat) (valid : ∀ u, (h.table u).Valid)
    (pending done : List Value) (u : TableId) :
    ((State.emptyReachable h fuel pending done).1.table u).Valid := by
  induction fuel generalizing h pending done with
  | zero => exact valid u
  | succ fuel ih =>
    cases pending with
    | nil => exact valid u
    | cons v pending =>
      cases v with
      | table t => exact ih (valid_modifyTable valid t fun _ _ => .empty) _ _
      | _ => exact ih valid _ _

end Heap

namespace State
variable {E : Embedding} {H : Host E} {s s' : State E}

theorem Change.valid_tables (change : Change H s s') (valid : ∀ t, (s.heap.table t).Valid)
    (t : TableId) : (s'.heap.table t).Valid := by
  cases change with
  | newTable x made =>
    rw [Heap.table_allocTable]
    split
    · exact made
    · exact valid t
  | put t key value isKey => exact Heap.valid_modifyTable valid t (fun _ v => v.put isKey value) _
  | metatable v m h set =>
    rcases Heap.setMetatable_cases set with ⟨t, rfl, rfl⟩ | ⟨w, rfl, rfl⟩
    · exact Heap.valid_modifyTable valid t (fun _ v => v.withMetatable m) _
    · exact valid t
  | close => exact Heap.valid_emptyReachable _ valid _ _ t
  | _ => exact valid t

theorem Change.callable? (change : Change H s s') {f : FunctionId} {c : Callable E}
    (found : s'.heap.callable? f = some c) :
    s.heap.callable? f = some c ∨ s.Founded H c.entry := by
  cases change with
  | newCallable made founded =>
    rw [Heap.callable?_allocCallable] at found
    split at found
    · exact .inr (Option.some.inj found ▸ founded)
    · exact .inl found
  | metatable v m h set =>
    rcases Heap.setMetatable_cases set with ⟨t, rfl, rfl⟩ | ⟨w, rfl, rfl⟩
    · exact .inl found
    · exact .inl found
  | close =>
    obtain ⟨tables, eq⟩ := s.close_heap
    rw [eq] at found
    exact .inl found
  | _ => exact .inl found

theorem Change.keeps_callable (change : Change H s s') {f : FunctionId} {c : Callable E}
    (known : s.heap.callable? f = some c) : s'.heap.callable? f = some c := by
  cases change with
  | newCallable made founded => exact Heap.callable?_of_allocCallable known made
  | metatable v m h set =>
    rcases Heap.setMetatable_cases set with ⟨t, rfl, rfl⟩ | ⟨w, rfl, rfl⟩
    · exact known
    · exact known
  | close =>
    obtain ⟨tables, eq⟩ := s.close_heap
    rw [eq]
    exact known
  | _ => exact known

theorem Changes.keep_callable (changes : s.Changes H s') {f : FunctionId} {c : Callable E}
    (known : s.heap.callable? f = some c) : s'.heap.callable? f = some c :=
  changes.keep (P := fun s => s.heap.callable? f = some c) (fun _ _ change => change.keeps_callable)
    known

/-- The stack has never been higher than what is on record. -/
theorem Change.recorded (change : Change H s s') (recorded : s.stack.size ≤ s.peak.size) :
    s'.stack.size ≤ s'.peak.size := by
  cases change with
  | slots f => exact Nat.le_max_right _ _
  | close => exact Nat.zero_le _
  | _ => exact recorded

theorem Change.memberRuns (change : Change H s s') {r : MemberRun E} (listed : r ∈ s'.memberRuns) :
    r ∈ s.memberRuns ∨ r.instances.length = r.code.operands ∧ s.Tagged r.tag r.instances := by
  cases change with
  | memberRun r operands tagged =>
    rcases List.mem_cons.mp listed with rfl | before
    · exact .inr ⟨operands, tagged⟩
    · exact .inl before
  | _ => exact .inl listed

theorem Change.sound (change : Change H s s') (sound : s.Sound H) : s'.Sound H where
  tables := change.valid_tables sound.tables
  entries f c found := by
    refine change.founded ?_
    rcases change.callable? found with before | founded
    · exact sound.entries f c before
    · exact founded
  memberRuns r listed := by
    rcases change.memberRuns listed with before | ⟨operands, tagged⟩
    · obtain ⟨operands, tagged⟩ := sound.memberRuns r before
      exact ⟨operands, change.tagged tagged⟩
    · exact ⟨operands, change.tagged tagged⟩

theorem Changes.sound (changes : s.Changes H s') (sound : s.Sound H) : s'.Sound H :=
  changes.keep (fun _ _ change => change.sound) sound

theorem Sound.new (H : Host E) (config : Config) (world : E.World) :
    (State.new config world).Sound H where
  tables t := by
    have own : (Table.empty.setStr globalsKey (.table ⟨0⟩)).Valid := Table.Valid.empty.setStr _ _
    rcases t with ⟨_ | _ | n⟩
    · exact own
    · exact own
    · exact .empty
  entries f c found := by cases found
  memberRuns r listed := by cases listed

end State
end HostBridge
