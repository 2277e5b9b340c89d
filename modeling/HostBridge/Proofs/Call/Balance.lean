import HostBridge.Proofs.Call.Reachable
import HostBridge.Proofs.Call.Restoring
import HostBridge.Proofs.Run.Balance

namespace HostBridge
namespace Run
open State
variable {E : Embedding} {α β : Type}

section Calls

theorem balances_inFrame (frame : Nat) {body : Run E α} (h : Balances body) :
    Balances (inFrame frame body) := by
  refine balances_get_bind fun s => balances_bind (balances_apart fun _ => rfl) fun _ => ?_
  refine balances_catch ?_ (fun e => ?_) fun p => rfl
  · exact balances_bind h fun x => balances_bind (balances_apart fun _ => rfl) fun _ => balances_pure x
  · exact balances_bind (balances_apart fun _ => rfl) fun _ => balances_raise e

theorem balances_deliver (f : FunctionId) (func returned : Nat) (nresults : Int) :
    Balances (deliver f func returned nresults : Run E Unit) := by
  refine balances_get_bind fun s => ?_
  have placed (vs : List Value) : Balances (truncate func >>= fun _ => pushAll vs : Run E Unit) :=
    balances_bind (balances_truncate func) fun _ => balances_pushAll vs
  refine balances_if (balances_bind (balances_apart fun _ => rfl) fun _ => ?_) (placed _)
  exact balances_bind (balances_panic _) fun _ => placed _

theorem balances_callPosition (nargs : Int) : Balances (callPosition nargs : Run E Nat) :=
  balances_check (balances_get_bind fun _ => balances_check (balances_pure _))

theorem balances_orTruncate (func : Nat) {body : Run E α} (h : Balances body) :
    Balances (orTruncate func body) :=
  balances_catch h (fun e => balances_bind (balances_truncate func) fun _ => balances_raise e)
    fun _ => rfl

variable {enter : Enter E} (enters : ∀ f, Balances (enter f))
include enters

theorem balances_callAt (func : Nat) (nresults : Int) : Balances (callAt enter func nresults) :=
  balances_bind (balances_callee func) fun f => balances_get_bind fun _ => balances_check
    (balances_bind (balances_inFrame (func + 1) (enters f)) fun n => balances_deliver f func n nresults)

theorem balances_call (nargs nresults : Int) : Balances (call enter nargs nresults) :=
  balances_bind (balances_callPosition nargs) fun func =>
    balances_orTruncate func (balances_callAt enters func nresults)

theorem balances_pcall (nargs nresults : Int) : Balances (pcall enter nargs nresults) := by
  refine balances_bind (balances_callPosition nargs) fun func => ?_
  refine balances_bind (balances_catch ?_ (fun e => ?_) fun p => rfl) fun r => ?_
  · exact balances_bind (balances_callAt enters func nresults) fun _ => balances_pure _
  · refine balances_bind (balances_truncate func) fun _ => balances_bind (balances_push _) fun _ => ?_
    exact balances_bind (balances_apart fun _ => rfl) fun _ => balances_pure _
  · cases r <;> exact balances_pure _

theorem balances_callValue (f : Value) (args : List Value) (nresults : Int) :
    Balances (callValue enter f args nresults) := by
  refine balances_get_bind fun s => balances_bind (balances_push f) fun _ => ?_
  refine balances_bind (balances_orTruncate _ ?_) fun _ => ?_
  · exact balances_bind (balances_pushAll args) fun _ => balances_callAt enters _ nresults
  · exact balances_get_bind fun s => balances_bind (balances_truncate _) fun _ => balances_pure _

theorem balances_perform (H : Host E) (o : Op E) (apart : o.lending = .none) :
    Balances (perform enter H o) := by
  cases o with
  | setTop i => exact balances_setTop i
  | push v => exact balances_push v
  | pop => exact balances_pop
  | drop n => exact balances_drop n
  | insert i => exact balances_insert i
  | remove i => exact balances_remove i
  | replace i => exact balances_replace i
  | newTable => exact balances_modifyGet fun _ => .of_objects rfl
  | setRaw t k v => exact balances_setRaw t k v
  | assignMetatable v m => exact balances_assignMetatable v m
  | newNative name code => exact balances_newCallable ⟨name, .native code⟩
  | newClosure name code => exact balances_newCallable ⟨name, .closure code⟩
  | newForeign name expected => exact balances_newCallable ⟨name, .foreign expected⟩
  | functionName f => exact balances_bind (balances_callableOf f) fun c => balances_pure _
  | signature f => exact balances_bind (balances_callableOf f) fun c => balances_pure _
  | call n r => exact balances_call enters n r
  | pcall n r => exact balances_pcall enters n r
  | callValue f args r waiting =>
    exact balances_keeping waiting (balances_callValue enters f args r)
  | takeError => exact balances_modifyGet fun _ => .of_objects rfl
  | newObject t x => exact balances_allocObject t x
  | reflect t r => exact converted_reflect (balances_converts H) t r
  | carry t r => exact balances_modifyGet fun _ => .of_objects rfl
  | tagOf u => exact balances_tagOf u
  | read t r => exact balances_bind (balances_read _) fun _ => balances_read _
  | write t r x => exact balances_bind (balances_read _) fun _ => balances_setPayload r x
  | acquire t r a | release t r a => cases apart
  | settle vars =>
    refine balances_bind (balances_apart fun _ => rfl) fun _ => ?_
    refine balances_bind (balances_modifyGet fun s => .of_objects (s.objects_settle H [])) fun r => ?_
    exact balances_unlessPanic r
  | registerType t =>
    refine balances_bind (balances_bindingFor H t) fun b => ?_
    exact balances_bind (balances_install H t) fun _ => balances_pure _
  | encode s x => exact balances_encode H s x
  | setPolicy p => exact balances_apart fun _ => rfl
  | setWorld w => exact balances_apart fun _ => rfl
  | close =>
    refine balances_apart fun s => ?_
    obtain ⟨tables, heap⟩ := s.close_heap
    rw [heap]
  | slot i => exact balances_read _
  | absolute i => exact balances_read _
  | decode s v => exact balances_read _
  | _ => exact balances_get_bind fun _ => balances_pure _

omit enters in
theorem perform_acquire (H : Host E) {t : E.Tag} (r : HostRef E t) (a : Access) (s : State E) :
    perform enter H (.acquire t r a) s =
      if (s.heap.borrow r.object).admits a then .ok () (s.modifyBorrow r.object (·.add a))
      else .error (.raised (.instanceBorrowed (E.tagName t))) s := by
  rw [perform, bind_eq, read_eq, s.heap.admits_eq r a]
  cases (s.heap.borrow r.object).admits a <;> rfl

theorem lends_perform (H : Host E) : Lends (F := Op.effect E) Op.lending (perform enter H) where
  balances apart := balances_perform enters H _ apart
  takes {o} _ _ took s := by
    cases o <;> cases took
    rw [perform_acquire]
    split
    · rename_i admitted
      exact .inl ⟨admitted, (), rfl⟩
    · exact .inr ⟨_, rfl⟩
  gives {o} _ _ gave s := by
    cases o <;> cases gave
    exact ⟨(), rfl⟩

/-- A program that ends its borrows leaves the objects borrowed as they were. -/
theorem balances_action (H : Host E) {m : Action E α} (balanced : m.Balanced) :
    Balances (action enter H m) :=
  balances_act _ (lends_perform enters H) balanced

end Calls

section Whole
variable {H : Host E}

/-- Where a panic is caught, the objects are borrowed as before, those made meanwhile not at all. -/
theorem balances_catchPanics (name : String) {body : Run E Nat} (h : Balances body)
    (evolves : Respects (Evolves H) body) : Balances (catchPanics name body) := by
  intro s
  have ended := h s
  unfold catchPanics
  cases s.config.catchPanics with
  | false => exact ended
  | true =>
    cases ran : body s with
    | ok n t =>
      rw [ran] at ended
      simpa [ran] using ended
    | error f t =>
      rw [ran] at ended
      cases f with
      | raised e => simpa [ran] using ended
      | panicked p =>
        simp only [if_true]
        exact Heap.SameUse.restoreBorrows (evolves.of_error ran).changes.objects_size

variable (balanced : H.Balanced)
include balanced

/-- The bodies of all functions give back what they borrow, by induction on how many more calls may
nest. -/
theorem balances_enter (depth : Nat) (f : FunctionId) : Balances (enter H depth f) := by
  induction depth generalizing f with
  | zero => exact balances_raise _
  | succ depth ih =>
    refine balances_bind (balances_callableOf f) fun c => balances_catchPanics (H := H) c.name ?_ ?_
    · exact balances_runEntry _ (lends_perform ih H) balanced c.entry
    · exact evolves_runEntry _ (evolves_perform (evolves_enter depth)) c.entry

theorem balances_runAction {a : Action E α} (such : a.Balanced) : Balances (runAction H a) :=
  fun s => balances_action (balances_enter balanced s.depthLeft) H such s

end Whole

end Run
end HostBridge
