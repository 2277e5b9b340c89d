import HostBridge.Proofs.Run.Changes
/-!
The sweep over a heap that closing a state makes. One step takes a value from the front of what is
pending, empties it if it is a table, and puts in front what the value led to. Every step makes the
work that is left smaller, so the sweep ends; and a table that anything pending led to before a step
is empty after it or something pending still leads to it.
-/
namespace HostBridge
namespace Heap
variable {E : Embedding}

/-- The values that a sweep goes on to from a value: what a table holds in its array and in its
entries, those of removed pairs included, its metatable, and the metatable of a userdata. -/
def onward (h : Heap E) : Value → List Value
  | .table t => (h.table t).contents
  | .userdata u => ((h.metatable (.userdata u)).map Value.table).toList
  | _ => []

/-- A sweep that comes to the first value comes to the second. -/
def Leads (h : Heap E) : Value → Value → Prop :=
  Relation.ReflTransGen fun v w => w ∈ h.onward v

def emptied (h : Heap E) : Value → Heap E
  | .table t => h.modifyTable t fun _ => .empty
  | _ => h

def front (h : Heap E) : Value → List Value
  | .table t => (h.table t).contents.reverse
  | v => h.onward v

theorem mem_front {h : Heap E} {v w : Value} : w ∈ h.front v ↔ w ∈ h.onward v := by
  cases v with
  | table t => exact List.mem_reverse
  | _ => exact Iff.rfl

theorem table_emptied (h : Heap E) (v : Value) (t : TableId) :
    (h.emptied v).table t = if v = .table t then .empty else h.table t := by
  cases v with
  | table u =>
    change (h.modifyTable u fun _ => .empty).table t = _
    rw [table_modifyTable]
    by_cases same : u = t
    · subst same
      rw [if_pos rfl]
      by_cases inside : u.index < h.tables.size
      · rw [if_pos ⟨rfl, inside⟩]
      · rw [if_neg fun both => inside both.2]
        have none : h.tables[u.index]? = none :=
          Array.getElem?_eq_none (Nat.le_of_not_lt inside)
        rw [table, Array.getD_eq_getD_getElem?, none]
        rfl
    · have other : ¬(u.index = t.index ∧ t.index < h.tables.size) := fun both =>
        same (congrArg TableId.mk both.1)
      have other' : Value.table u ≠ Value.table t := fun eq => same (Value.table.inj eq)
      rw [if_neg other, if_neg other']
  | _ => rfl

theorem metatable_emptied (h : Heap E) (v : Value) (u : UserdataId) :
    (h.emptied v).metatable (.userdata u) = h.metatable (.userdata u) := by
  cases v <;> rfl

theorem contents_empty : Table.empty.contents = [] := rfl

/-- Emptying a table cuts it off from what it led to, and leaves everything else alone. -/
theorem onward_emptied (h : Heap E) (v w : Value) :
    (h.emptied v).onward w = h.onward w ∨ v = w ∧ (h.emptied v).onward w = [] := by
  cases w with
  | table t =>
    change ((h.emptied v).table t).contents = (h.table t).contents ∨ _ ∧
      ((h.emptied v).table t).contents = []
    rw [table_emptied]
    by_cases same : v = .table t
    · rw [if_pos same]
      exact .inr ⟨same, rfl⟩
    · rw [if_neg same]
      exact .inl rfl
  | userdata u =>
    change ((((h.emptied v).metatable (.userdata u)).map Value.table).toList = _) ∨ _
    rw [metatable_emptied]
    exact .inl rfl
  | _ => exact .inl rfl

/-- Whatever a value led to, it still leads to after a step, or what the step put in front does. -/
theorem Leads.step {h : Heap E} {u x : Value} (leads : h.Leads u x) (v : Value) :
    (h.emptied v).Leads u x ∨ ∃ w ∈ h.front v, (h.emptied v).Leads w x := by
  induction leads using Relation.ReflTransGen.head_induction_on with
  | refl => exact .inl .refl
  | @head u w first _ ih =>
    rcases ih with later | other
    · rcases h.onward_emptied v u with same | ⟨rfl, -⟩
      · rw [← same] at first
        exact .inl (.head first later)
      · exact .inr ⟨w, mem_front.mpr first, later⟩
    · exact .inr other

/-- Some pending value leads to the table. -/
def Due (h : Heap E) (pending : List Value) (t : TableId) : Prop :=
  ∃ v ∈ pending, h.Leads v (.table t)

/-- After a step a table that was due is empty or due again. -/
theorem Due.step {h : Heap E} {v : Value} {pending : List Value} {t : TableId}
    (due : h.Due (v :: pending) t) :
    (h.emptied v).table t = .empty ∨ (h.emptied v).Due (h.front v ++ pending) t := by
  obtain ⟨u, listed, leads⟩ := due
  rcases leads.step v with still | ⟨w, front, later⟩
  · rcases List.mem_cons.mp listed with rfl | waiting
    · -- The value that was taken leads nowhere any more, unless it is no table.
      rcases still.cases_head with rfl | ⟨w, first, rest⟩
      · exact .inl (by rw [table_emptied, if_pos rfl])
      · rcases h.onward_emptied u u with same | ⟨-, none⟩
        · rw [same] at first
          exact .inr ⟨w, List.mem_append_left _ (mem_front.mpr first), rest⟩
        · rw [none] at first
          contradiction
    · exact .inr ⟨u, List.mem_append_right _ waiting, still⟩
  · exact .inr ⟨w, List.mem_append_left _ front, later⟩

/-- A step makes nothing lead anywhere that it did not lead to before. -/
theorem Leads.of_emptied {h : Heap E} {v u x : Value} (leads : (h.emptied v).Leads u x) :
    h.Leads u x := by
  refine Relation.ReflTransGen.mono (fun u w next => ?_) _ _ leads
  rcases h.onward_emptied v u with same | ⟨-, none⟩
  · rwa [same] at next
  · rw [none] at next
    contradiction

theorem Due.of_step {h : Heap E} {v : Value} {pending : List Value} {t : TableId}
    (due : (h.emptied v).Due (h.front v ++ pending) t) : h.Due (v :: pending) t := by
  obtain ⟨u, listed, leads⟩ := due
  rcases List.mem_append.mp listed with front | waiting
  · exact ⟨v, List.mem_cons_self, .head (mem_front.mp front) leads.of_emptied⟩
  · exact ⟨u, List.mem_cons_of_mem _ waiting, leads.of_emptied⟩

/-- A whole sweep: it begins with `h` and `pending` and ends with the last heap when nothing is
pending any more. -/
inductive Sweeps : Heap E → List Value → Heap E → Prop where
  | done (h : Heap E) : Sweeps h [] h
  | take {h last : Heap E} {v : Value} {pending : List Value}
      (rest : Sweeps (h.emptied v) (h.front v ++ pending) last) : Sweeps h (v :: pending) last

theorem Sweeps.size {h last : Heap E} {pending : List Value} (sweeps : h.Sweeps pending last) :
    last.tables.size = h.tables.size := by
  induction sweeps with
  | done h => rfl
  | @take h last v pending _ ih =>
    rw [ih]
    cases v with
    | table t => exact Array.size_modify
    | _ => rfl

theorem Sweeps.empty {h last : Heap E} {pending : List Value} (sweeps : Sweeps h pending last)
    {t : TableId} (empty : h.table t = .empty) : last.table t = .empty := by
  induction sweeps with
  | done h => exact empty
  | @take h last v pending _ ih =>
    apply ih
    rw [table_emptied, empty, ite_self]

theorem Sweeps.empty_of_due {h last : Heap E} {pending : List Value}
    (sweeps : Sweeps h pending last) {t : TableId} (due : h.Due pending t) :
    last.table t = .empty := by
  induction sweeps with
  | done h =>
    obtain ⟨v, listed, -⟩ := due
    contradiction
  | take rest ih =>
    rcases due.step with empty | later
    · exact rest.empty empty
    · exact ih later

theorem Sweeps.same_of_not_due {h last : Heap E} {pending : List Value}
    (sweeps : Sweeps h pending last) {t : TableId} (free : ¬h.Due pending t) :
    last.table t = h.table t := by
  induction sweeps with
  | done h => rfl
  | @take h last v pending _ ih =>
    have other : v ≠ .table t := by
      rintro rfl
      exact free ⟨_, List.mem_cons_self, .refl⟩
    rw [ih fun due => free due.of_step, table_emptied, if_neg other]

/-! Every sweep ends. A userdata counts twice, as it leads to a table that counts once. -/

def weight : Value → Nat
  | .userdata _ => 2
  | _ => 1

theorem weight_le_two (v : Value) : weight v ≤ 2 := by cases v <;> simp [weight]

def weights (vs : List Value) : Nat := (vs.map weight).sum

@[simp] theorem weights_nil : weights [] = 0 := rfl
@[simp] theorem weights_cons (v : Value) (vs : List Value) :
    weights (v :: vs) = weight v + weights vs := rfl
@[simp] theorem weights_append (vs ws : List Value) :
    weights (vs ++ ws) = weights vs + weights ws := by
  simp [weights]
@[simp] theorem weights_reverse (vs : List Value) : weights vs.reverse = weights vs := by
  simp [weights]

theorem weights_le (vs : List Value) : weights vs ≤ 2 * vs.length := by
  induction vs with
  | nil => exact Nat.le_refl 0
  | cons v vs ih =>
    have one := weight_le_two v
    rw [weights_cons, List.length_cons]
    omega

def load (h : Heap E) (pending : List Value) : Nat :=
  weights (h.tables.toList.flatMap Table.contents) + weights pending

theorem weights_modify (tables : List Table) (i : Nat) :
    weights ((tables.modify i fun _ => .empty).flatMap Table.contents) +
      weights ((tables[i]?.getD .empty).contents) =
      weights (tables.flatMap Table.contents) := by
  induction tables generalizing i with
  | nil => simp [contents_empty]
  | cons x tables ih =>
    cases i with
    | zero => simp [contents_empty, Nat.add_comm]
    | succ i =>
      have rest := ih i
      simp only [List.modify_succ_cons, List.flatMap_cons, weights_append, List.getElem?_cons_succ]
      omega

theorem load_step (h : Heap E) (v : Value) (pending : List Value) :
    (h.emptied v).load (h.front v ++ pending) < h.load (v :: pending) := by
  unfold load
  rw [weights_append, weights_cons]
  cases v with
  | table t =>
    have moved := weights_modify h.tables.toList t.index
    simp only [emptied, modifyTable, front, weights_reverse, table, weight, Array.toList_modify,
      Array.getD_eq_getD_getElem?] at moved ⊢
    rw [Array.getElem?_toList] at moved
    omega
  | userdata u =>
    simp only [emptied, front, onward, weight]
    cases h.metatable (.userdata u) with
    | none => simp
    | some m => simp [weight]
  | _ => simp [emptied, front, onward, weight]

end Heap

namespace State
variable {E : Embedding}

/-- With enough fuel the emptying of what is reachable is a sweep to its end. -/
theorem sweeps_emptyReachable {fuel : Nat} {h : Heap E} {pending : List Value}
    (enough : h.load pending ≤ fuel) (done : List Value) :
    h.Sweeps pending (emptyReachable h fuel pending done).1 := by
  induction fuel generalizing h pending done with
  | zero =>
    cases pending with
    | nil => exact .done h
    | cons v pending =>
      have less := h.load_step v pending
      omega
  | succ fuel ih =>
    cases pending with
    | nil => exact .done h
    | cons v pending =>
      have less := h.load_step v pending
      have enough' : (h.emptied v).load (h.front v ++ pending) ≤ fuel := by omega
      have rest := ih enough' (v :: done)
      apply Heap.Sweeps.take
      cases v <;> exact rest

theorem load_le_volume (s : State E) (pending : List Value) :
    s.heap.load pending ≤ s.volume pending := by
  have held := Heap.weights_le (s.heap.tables.toList.flatMap Table.contents)
  have waiting := Heap.weights_le pending
  unfold Heap.load volume
  omega

theorem sweeps_close (s : State E) : s.heap.Sweeps s.own.reverse s.close.heap :=
  sweeps_emptyReachable (s.load_le_volume _) []

variable {H : Host E} {s t : State E}

theorem Change.tables_size (change : Change H s t) : s.heap.tables.size ≤ t.heap.tables.size := by
  cases change with
  | newTable x valid => exact Array.size_push x ▸ Nat.le_succ _
  | put t key value isKey => exact Nat.le_of_eq Array.size_modify.symm
  | metatable v m h set =>
    rcases Heap.setMetatable_cases set with ⟨t, rfl, rfl⟩ | ⟨u, rfl, rfl⟩
    · exact Nat.le_of_eq Array.size_modify.symm
    · exact Nat.le_refl _
  | close => exact Nat.le_of_eq s.sweeps_close.size.symm
  | _ => exact Nat.le_refl _

theorem Change.registry (change : Change H s t) : t.registry = s.registry := by
  cases change <;> rfl

end State
end HostBridge
