import HostBridge.Action.View
import HostBridge.Proofs.Access.Chain

namespace HostBridge

namespace State
variable {E : Embedding} {s : State E}

theorem slot_ne_overflow {i : Int} : s.slot i ≠ .error .stackOverflow := by
  have inStack : ∀ p, s.stack.get p ≠ .error .stackOverflow := by
    intro p
    unfold Stack.get
    split <;> exact nofun
  unfold slot position
  dsimp only
  split
  · split
    · exact inStack _
    · exact nofun
  · split
    · exact inStack _
    · exact nofun

end State

namespace Run
open State
variable {E : Embedding} {α β : Type} {H : Host E} {enter : Enter E} {s t : State E}

/-- A run that only reads at `s`, and asks for no stack. -/
structure Reads (m : Run E α) (s : State E) : Prop where
  same : m.final s = s
  other : ∀ t, m s ≠ .error (.raised .stackOverflow) t

/-- A run that fails at `s` has not touched it, and if it fails for want of stack, the stack is full.
-/
def Unmoved (m : Run E α) (s : State E) : Prop :=
  ∀ f t, m s = .error f t → t = s ∧ (f = .raised .stackOverflow → s.stack.isFull = true)

theorem reads_of_ok {m : Run E α} {a : α} (ran : m s = .ok a s) : Reads m s :=
  ⟨final_of_ok ran, fun _ failed => nomatch ran.symm.trans failed⟩

theorem reads_of_error {m : Run E α} {e : Error} (ran : m s = .error (.raised e) s)
    (other : e ≠ .stackOverflow) : Reads m s := by
  refine ⟨final_of_error ran, fun t failed => ?_⟩
  cases ran.symm.trans failed
  exact other rfl

theorem reads_read {f : State E → Except Error α} (other : f s ≠ .error .stackOverflow) :
    Reads (read f) s := by
  cases found : f s with
  | ok a => exact reads_of_ok (by rw [read_eq, found]; rfl)
  | error e =>
    exact reads_of_error (by rw [read_eq, found]; rfl) fun same => other (same ▸ found)

theorem unmoved_of_reads {m : Run E α} (reads : Reads m s) : Unmoved m s := by
  intro f t failed
  refine ⟨(final_of_error failed).symm.trans reads.same, ?_⟩
  rintro rfl
  exact absurd failed (reads.other t)

theorem unmoved_bind {m : Run E α} {f : α → Run E β} (reads : Reads m s)
    (rest : ∀ a, m s = .ok a s → Unmoved (f a) s) : Unmoved (m >>= f) s := by
  intro e t failed
  rw [bind_eq] at failed
  cases ran : m s with
  | ok a u =>
    obtain rfl := (final_of_ok ran).symm.trans reads.same
    rw [ran] at failed
    exact rest a ran e t failed
  | error e' u =>
    rw [ran] at failed
    cases failed
    exact unmoved_of_reads reads e t ran

theorem error_of_map {m : Run E α} {g : α → β} {f : Fault}
    (failed : (m >>= fun a => pure (g a)) s = .error f t) : m s = .error f t := by
  rw [bind_eq] at failed
  cases ran : m s with
  | ok a u =>
    rw [ran] at failed
    contradiction
  | error e u =>
    rw [ran] at failed
    cases failed
    rfl

theorem unmoved_map {m : Run E α} (g : α → β) (unmoved : Unmoved m s) :
    Unmoved (m >>= fun a => pure (g a)) s :=
  fun f t failed => unmoved f t (error_of_map failed)

theorem unmoved_push (v : Value) : Unmoved (push v : Run E Unit) s := by
  intro e t failed
  rw [push_eq] at failed
  split at failed
  · rename_i full
    cases failed
    exact ⟨rfl, fun _ => full⟩
  · contradiction

section Readers

theorem action_tableAt {i : Int} {x : TableId} (placed : s.slot i = .ok (.table x)) :
    action enter H (Action.tableAt i) s = .ok x s := by
  simp only [Action.tableAt, action_bind, action_value, bind_eq, read_eq, placed]
  rfl

theorem tableAt_cases (i : Int) :
    (∃ x, s.slot i = .ok (.table x)) ∨
    ∃ e, action enter H (Action.tableAt i) s = .error (.raised e) s ∧ e ≠ .stackOverflow := by
  simp only [Action.tableAt, action_bind, action_value, bind_eq, read_eq]
  cases placed : s.slot i with
  | error e => exact .inr ⟨e, rfl, fun same => slot_ne_overflow (same ▸ placed)⟩
  | ok v =>
    cases v with
    | table x => exact .inl ⟨x, rfl⟩
    | _ => exact .inr ⟨_, rfl, Error.noConfusion⟩

theorem unmoved_answer {a : Action E α} (g : α → β) (unmoved : Unmoved (action enter H a) s) :
    Unmoved (action enter H (do return g (← a))) s := by
  rw [action_bind]
  exact unmoved_map g unmoved

theorem error_of_answer {a : Action E α} {g : α → β} {f : Fault}
    (failed : action enter H (do return g (← a)) s = .error f t) :
    action enter H a s = .error f t := by
  rw [action_bind] at failed
  exact error_of_map failed

theorem action_answer_of_ok {a : Action E α} (g : α → β) {x : α}
    (ran : action enter H a s = .ok x t) : action enter H (do return g (← a)) s = .ok (g x) t := by
  rw [action_bind, bind_eq, ran]
  rfl

theorem action_answer_of_error {a : Action E α} {g : α → β} {f : Fault}
    (ran : action enter H a s = .error f t) :
    action enter H (do return g (← a)) s = .error f t := by
  rw [action_bind, bind_eq, ran]

theorem unmoved_pushCopy (i : Int) : Unmoved (action enter H (Action.pushCopy i)) s := by
  rw [Action.pushCopy, action_bind, action_value]
  refine unmoved_bind (reads_read slot_ne_overflow) fun v _ => ?_
  rw [action_push]
  exact unmoved_push v

theorem unmoved_pushKind (v : Value) : Unmoved (action enter H (Action.pushKind v)) s := by
  rw [Action.pushKind, action_bind, action_push]
  exact unmoved_map _ (unmoved_push v)

theorem reads_index {key v : Value} (uncalled : s.heap.Uncalled .index key v) :
    Reads (action (Run.enter H s.depthLeft) H (Action.index v key)) s := by
  rcases read_of_uncalled (H := H) uncalled with ⟨w, ran⟩ | ⟨e, ran, other⟩
  · exact reads_of_ok ran
  · exact reads_of_error ran other

theorem unmoved_getKey (i : Int) {key : Value}
    (uncalled : ∀ v, s.slot i = .ok v → s.heap.Uncalled .index key v) :
    Unmoved (action (Run.enter H s.depthLeft) H (Action.getKey i key)) s := by
  simp only [Action.getKey, action_bind, action_value]
  refine unmoved_bind (reads_read slot_ne_overflow) fun v ran => ?_
  have placed : s.slot i = .ok v := (read_ok ran).1
  exact unmoved_bind (reads_index (uncalled v placed)) fun w _ => unmoved_pushKind w

theorem reads_tableAt (i : Int) : Reads (action enter H (Action.tableAt i)) s := by
  rcases tableAt_cases (H := H) (s := s) i with ⟨x, placed⟩ | ⟨e, ran, other⟩
  · exact reads_of_ok (action_tableAt placed)
  · exact reads_of_error ran other

theorem unmoved_rawGetIndex (i n : Int) :
    Unmoved (action enter H (Action.rawGetIndex i n)) s := by
  rw [Action.rawGetIndex, action_bind]
  refine unmoved_bind (reads_tableAt i) fun t _ => ?_
  rw [action_bind, action_table]
  exact unmoved_bind (reads_of_ok rfl) fun x _ => unmoved_pushKind _

theorem action_globals (s : State E) :
    action enter H Action.globals s = .ok (.table s.globals) s := by
  have looked : action enter H (Action.perform .globals) s = .ok s.globals s :=
    congrFun (action_op enter H .globals) s
  rw [Action.globals, action_bind, bind_eq, looked]
  rfl

theorem unmoved_getGlobal {name : String}
    (uncalled : s.heap.Uncalled .index (.string name) (.table s.globals)) :
    Unmoved (action (Run.enter H s.depthLeft) H (Action.getGlobal name)) s := by
  have found : action (Run.enter H s.depthLeft) H Action.globals s = .ok (.table s.globals) s :=
    action_globals s
  rw [Action.getGlobal, action_bind]
  refine unmoved_bind (reads_of_ok found) fun v ran => ?_
  cases found.symm.trans ran
  rw [action_bind]
  exact unmoved_bind (reads_index uncalled) fun w _ => unmoved_pushKind w

theorem action_registry (s : State E) :
    action enter H Action.registry s = .ok s.registry s :=
  congrFun (action_op enter H .registry) s

theorem action_registered (name : String) (s : State E) :
    action enter H (Action.registered name) s = .ok ((s.heap.table s.registry).getStr name) s := by
  rw [Action.registered, action_bind, bind_eq, action_registry]
  simp only [action_bind, bind_eq, action_table, table_eq, action_pure, pure_eq]

theorem unmoved_getNamedMetatable (name : String) :
    Unmoved (action enter H (Action.getNamedMetatable name)) s := by
  rw [Action.getNamedMetatable, action_bind]
  exact unmoved_bind (reads_of_ok (action_registered name s)) fun v _ => unmoved_pushKind v

theorem unmoved_getMetatable (i : Int) :
    Unmoved (action enter H (Action.getMetatable i)) s := by
  rw [Action.getMetatable, action_bind, action_value]
  refine unmoved_bind (reads_read slot_ne_overflow) fun v _ => ?_
  rw [action_bind]
  refine unmoved_bind (reads_of_ok (action_metatable v s)) fun m _ => ?_
  cases m with
  | none => exact unmoved_of_reads (reads_of_ok rfl)
  | some m =>
    rw [action_bind, action_push]
    exact unmoved_map _ (unmoved_push _)

theorem reads_lengthOf {v : Value} (plain : s.heap.metafield v .len = .nil) :
    Reads (action enter H (Action.lengthOf v)) s := by
  cases v with
  | string x => exact reads_of_ok rfl
  | table t =>
    refine reads_of_ok (a := .ofInt (s.heap.table t).border) ?_
    simp only [Action.lengthOf, action_bind, bind_eq, action_metafield, plain]
    rfl
  | _ =>
    apply reads_of_error
    · simp only [Action.lengthOf, action_bind, bind_eq, action_metafield, plain]
      rfl
    · exact Error.noConfusion

theorem unmoved_len {i : Int} (plain : ∀ v, s.slot i = .ok v → s.heap.metafield v .len = .nil) :
    Unmoved (action enter H (Action.len i)) s := by
  rw [Action.len, action_bind, action_value]
  refine unmoved_bind (reads_read slot_ne_overflow) fun v ran => ?_
  rw [action_bind]
  refine unmoved_bind (reads_lengthOf (plain v (read_ok ran).1)) fun w _ => ?_
  rw [action_push]
  exact unmoved_push w

end Readers

end Run
end HostBridge
