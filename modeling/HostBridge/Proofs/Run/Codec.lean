import HostBridge.Proofs.Run.Conversion
import HostBridge.Proofs.Run.Frame

namespace HostBridge
namespace Run
open State
variable {E : Embedding} {α β : Type}

/-- A run that leaves the frame alone, and does not panic. -/
structure Tame (m : Run E α) : Prop where
  same : Respects SameFrame m
  raised : ∀ {s t f}, m s = .error f t → ∃ e, f = .raised e

theorem tame_bind {m : Run E α} {f : α → Run E β} (first : Tame m) (rest : ∀ a, Tame (f a)) :
    Tame (m >>= f) where
  same := by
    refine respects_bind (R := SameFrame) (fun _ _ _ => SameFrame.trans) first.same fun a => ?_
    exact (rest a).same
  raised {s t fault} failed := by
    rw [bind_eq] at failed
    cases ran : m s with
    | ok a u =>
      rw [ran] at failed
      exact (rest a).raised failed
    | error e u =>
      rw [ran] at failed
      cases failed
      exact first.raised ran

theorem tame_get_bind {f : State E → Run E α} (rest : ∀ s, Tame (f s)) : Tame (get >>= f) where
  same := respects_get_bind fun s => (rest s).same s
  raised {s _ _} failed := (rest s).raised failed

theorem tame_pure (a : α) : Tame (pure a : Run E α) where
  same := respects_pure .refl a
  raised failed := by cases failed

theorem tame_raise (e : Error) : Tame (raise e : Run E α) where
  same := respects_raise .refl e
  raised failed := by
    cases failed
    exact ⟨e, rfl⟩

theorem tame_ofExcept (r : Except Error α) : Tame (ofExcept r : Run E α) := by
  cases r with
  | ok a => exact tame_pure a
  | error e => exact tame_raise e

theorem tame_read (f : State E → Except Error α) : Tame (read f) :=
  tame_get_bind fun s => tame_ofExcept (f s)

theorem tame_modifyGet {f : State E → α × State E} (same : ∀ s : State E, s.SameFrame (f s).2) :
    Tame (modifyGet f : Run E α) where
  same := respects_modifyGet same
  raised failed := by cases failed

theorem tame_modify {f : State E → State E} (same : ∀ s : State E, s.SameFrame (f s)) :
    Tame (modify f : Run E PUnit) := tame_modifyGet same

theorem tame_modifyHeap (f : Heap E → Heap E) : Tame (modifyHeap f) :=
  tame_modify fun _ => ⟨rfl, rfl, rfl, rfl, rfl, rfl, rfl, rfl, rfl⟩

theorem tame_allocTable (t : Table) : Tame (allocTable t : Run E TableId) :=
  tame_modifyGet fun _ => ⟨rfl, rfl, rfl, rfl, rfl, rfl, rfl, rfl, rfl⟩

theorem tame_allocCallable (c : Callable E) : Tame (allocCallable c) :=
  tame_modifyGet fun _ => ⟨rfl, rfl, rfl, rfl, rfl, rfl, rfl, rfl, rfl⟩

theorem tame_allocUserdata (u : Userdata E) : Tame (allocUserdata u) :=
  tame_modifyGet fun _ => ⟨rfl, rfl, rfl, rfl, rfl, rfl, rfl, rfl, rfl⟩

theorem tame_allocObject (t : E.Tag) (x : E.Payload t) : Tame (allocObject t x) :=
  tame_modifyGet fun _ => ⟨rfl, rfl, rfl, rfl, rfl, rfl, rfl, rfl, rfl⟩

theorem tame_setRaw (t : TableId) (key value : Value) :
    Tame (setRaw t key value : Run E Unit) := by
  unfold setRaw
  split
  · exact tame_raise _
  · exact tame_modifyHeap _

theorem tame_assignMetatable (v : Value) (m : Option TableId) :
    Tame (assignMetatable v m : Run E Unit) := by
  refine tame_get_bind fun s => ?_
  exact tame_bind (tame_ofExcept _) fun _ => tame_modifyHeap _

theorem tame_newCallable (c : Callable E) : Tame (newCallable c) := by
  rw [newCallable]
  split
  · refine tame_bind (tame_modify fun s => ?_) fun _ => tame_allocCallable c
    simp only
    split
    · exact .refl s
    · exact ⟨rfl, rfl, rfl, rfl, rfl, rfl, rfl, rfl, rfl⟩
  · exact tame_allocCallable c

theorem tame_callableOf (f : FunctionId) : Tame (callableOf f : Run E (Callable E)) := by
  refine tame_get_bind fun s => ?_
  cases s.heap.callable? f with
  | some c => exact tame_pure c
  | none => exact tame_raise _

theorem tame_tagOf (u : UserdataId) : Tame (tagOf u : Run E E.Tag) := by
  refine tame_get_bind fun s => ?_
  cases s.heap.userdata? u with
  | some d => exact tame_pure d.tag
  | none => exact tame_raise _

theorem tame_addHooks (t : E.Tag) (name : String) (es : List Event) (x : Table) :
    Tame (addHooks t name es x : Run E Table) := by
  induction es generalizing x with
  | nil => exact tame_pure x
  | cons e es ih => exact tame_bind (tame_allocCallable _) fun f => ih _

theorem tame_bindingFor (H : Host E) (t : E.Tag) : Tame (bindingFor H t) := by
  refine tame_bind (tame_ofExcept _) fun b => ?_
  refine tame_bind (tame_modify fun _ => ?_) fun _ => tame_get_bind fun _ => tame_pure _
  exact ⟨rfl, rfl, rfl, rfl, rfl, rfl, rfl, rfl, rfl⟩

theorem tame_install (H : Host E) (t : E.Tag) : Tame (install H t) := by
  refine tame_get_bind fun s => ?_
  cases s.typeMetatable? t with
  | some m => exact tame_pure m
  | none =>
    refine tame_bind (tame_ofExcept _) fun b => ?_
    refine tame_bind (tame_addHooks _ _ _ _) fun x => ?_
    refine tame_bind (tame_allocTable x) fun m => ?_
    refine tame_get_bind fun s => ?_
    refine tame_bind (tame_modifyHeap _) fun _ => ?_
    refine tame_bind (tame_modify fun _ => ?_) fun _ => tame_pure m
    exact ⟨rfl, rfl, rfl, rfl, rfl, rfl, rfl, rfl, rfl⟩

theorem tame_converts (H : Host E) : Converts (E := E) H fun _ => Tame where
  pure := tame_pure
  bind := tame_bind
  set _ _ _ := tame_ofExcept _
  binding := tame_bindingFor H
  install := tame_install H
  allocTable := tame_allocTable
  allocObject := tame_allocObject
  allocUserdata := tame_allocUserdata

theorem tame_reflect (H : Host E) (t : E.Tag) (r : HostRef E t) : Tame (reflect H t r) :=
  converted_reflect (tame_converts H) t r

theorem tame_carry (t : E.Tag) (r : HostRef E t) : Tame (carry t r) := tame_allocUserdata _

theorem tame_encode (H : Host E) (s : Shape E.Tag) (x : s.Carrier E) : Tame (encode H s x) :=
  converted_encode (tame_converts H) s x

end Run
end HostBridge
