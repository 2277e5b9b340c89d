import HostBridge.Proofs.Run.Commuting

namespace HostBridge
namespace State
variable {E : Embedding}

def inFrameOf (s t : State E) : State E :=
  { s with
    stack := t.stack
    base := t.base
    callDepth := t.callDepth
    peak := t.peak
    waiting := t.waiting }

@[simp] theorem heap_inFrameOf (s t : State E) : (s.inFrameOf t).heap = s.heap := rfl
@[simp] theorem stack_inFrameOf (s t : State E) : (s.inFrameOf t).stack = t.stack := rfl
@[simp] theorem base_inFrameOf (s t : State E) : (s.inFrameOf t).base = t.base := rfl
@[simp] theorem peak_inFrameOf (s t : State E) : (s.inFrameOf t).peak = t.peak := rfl
@[simp] theorem inFrameOf_self (s : State E) : s.inFrameOf s = s := rfl

end State

namespace Run
open State
variable {E : Embedding} {α β : Type}

/-- The run is the same in every frame, and leaves the frame alone. -/
def OffFrame (m : Run E α) : Prop :=
  ∀ s t, m (s.inFrameOf t) = mapState (·.inFrameOf t) (m s)

theorem offFrame_of_commutes {m : Run E α} (commutes : ∀ t, Commutes (·.inFrameOf t) m) :
    OffFrame m := fun s t => commutes t s

theorem OffFrame.commutes {m : Run E α} (off : OffFrame m) (t : State E) :
    Commutes (·.inFrameOf t) m := fun s => off s t

theorem apart_inFrameOf (t : State E) : Apart (·.inFrameOf t) where
  heap _ := rfl
  registry _ := rfl
  compiled _ := rfl
  typeMetatables _ := rfl
  thunks _ := rfl
  conversions _ := rfl
  onHeap _ _ := rfl
  onCompiled _ _ := rfl
  onTypeMetatables _ _ := rfl
  onThunks _ _ := rfl
  onMemberRuns _ _ := rfl

theorem OffFrame.final_eq {m : Run E α} (off : OffFrame m) (s : State E) :
    m.final s = (m.final s).inFrameOf s := by
  have same := final_mapState (off s s)
  rwa [inFrameOf_self] at same

theorem OffFrame.stack_of_ok {m : Run E α} (off : OffFrame m) {s t : State E} {a : α}
    (ran : m s = .ok a t) : t.stack = s.stack := by
  have kept := off.final_eq s
  rw [final_of_ok ran] at kept
  exact (congrArg State.stack kept).trans (stack_inFrameOf t s)

theorem OffFrame.stack_of_error {m : Run E α} (off : OffFrame m) {s t : State E} {f : Fault}
    (ran : m s = .error f t) : t.stack = s.stack := by
  have kept := off.final_eq s
  rw [final_of_error ran] at kept
  exact (congrArg State.stack kept).trans (stack_inFrameOf t s)

theorem offFrame_pure (a : α) : OffFrame (pure a : Run E α) :=
  offFrame_of_commutes fun _ => commutes_pure a

theorem offFrame_throw (f : Fault) : OffFrame (throw f : Run E α) :=
  offFrame_of_commutes fun _ => commutes_throw f

theorem offFrame_raise (e : Error) : OffFrame (raise e : Run E α) :=
  offFrame_of_commutes fun _ => commutes_raise e

theorem offFrame_ofExcept (r : Except Error α) : OffFrame (ofExcept r : Run E α) :=
  offFrame_of_commutes fun _ => commutes_ofExcept r

theorem offFrame_bind {m : Run E α} {f : α → Run E β} (first : OffFrame m)
    (rest : ∀ a, OffFrame (f a)) : OffFrame (m >>= f) :=
  offFrame_of_commutes fun t => commutes_bind (first.commutes t) fun a => (rest a).commutes t

theorem offFrame_modify {g : State E → State E}
    (blind : ∀ s t, g (s.inFrameOf t) = (g s).inFrameOf t) :
    OffFrame (modify g : Run E PUnit) :=
  offFrame_of_commutes fun t => commutes_modify fun s => blind s t

theorem offFrame_modifyHeap (g : Heap E → Heap E) : OffFrame (modifyHeap g) :=
  offFrame_of_commutes fun t => commutes_modifyHeap (apart_inFrameOf t) g

theorem offFrame_table (t : TableId) : OffFrame (table t : Run E Table) :=
  offFrame_of_commutes fun f => commutes_table (apart_inFrameOf f) t

theorem offFrame_allocTable (x : Table) : OffFrame (allocTable x : Run E TableId) :=
  offFrame_of_commutes fun f => commutes_allocTable (apart_inFrameOf f) x

theorem offFrame_allocCallable (c : Callable E) : OffFrame (allocCallable c) :=
  offFrame_of_commutes fun f => commutes_allocCallable (apart_inFrameOf f) c

theorem offFrame_allocUserdata (u : Userdata E) : OffFrame (allocUserdata u) :=
  offFrame_of_commutes fun f => commutes_allocUserdata (apart_inFrameOf f) u

theorem offFrame_allocObject (t : E.Tag) (x : E.Payload t) : OffFrame (allocObject t x) :=
  offFrame_of_commutes fun f => commutes_allocObject (apart_inFrameOf f) t x

theorem offFrame_setRaw (t : TableId) (key value : Value) :
    OffFrame (setRaw t key value : Run E Unit) :=
  offFrame_of_commutes fun f => commutes_setRaw (apart_inFrameOf f) t key value

theorem offFrame_assignMetatable (v : Value) (m : Option TableId) :
    OffFrame (assignMetatable v m : Run E Unit) :=
  offFrame_of_commutes fun f => commutes_assignMetatable (apart_inFrameOf f) v m

theorem offFrame_newCallable (c : Callable E) : OffFrame (newCallable c) :=
  offFrame_of_commutes fun f => commutes_newCallable (apart_inFrameOf f) c

theorem offFrame_callableOf (f : FunctionId) : OffFrame (callableOf f : Run E (Callable E)) :=
  offFrame_of_commutes fun t => commutes_callableOf (apart_inFrameOf t) f

theorem offFrame_tagOf (u : UserdataId) : OffFrame (tagOf u : Run E E.Tag) :=
  offFrame_of_commutes fun f => commutes_tagOf (apart_inFrameOf f) u

theorem offFrame_assign (vars : List Entity) : OffFrame (modify (·.assign vars) : Run E Unit) :=
  offFrame_modify fun _ _ => rfl

theorem offFrame_unlessPanic (r : Except Panic α) : OffFrame (unlessPanic r : Run E α) :=
  offFrame_of_commutes fun _ => commutes_unlessPanic r

theorem offFrame_noteRun (r : MemberRun E) : OffFrame (noteRun r) :=
  offFrame_of_commutes fun f => commutes_noteRun (apart_inFrameOf f) r

/-! Metatables of host types, and conversions. -/

theorem offFrame_bindingFor (H : Host E) (t : E.Tag) : OffFrame (bindingFor H t) :=
  offFrame_of_commutes fun f => commutes_bindingFor (apart_inFrameOf f) H t

theorem offFrame_install (H : Host E) (t : E.Tag) : OffFrame (install H t) :=
  offFrame_of_commutes fun f => commutes_install (apart_inFrameOf f) H t

theorem offFrame_converts (H : Host E) : Converts (E := E) H fun _ => OffFrame where
  pure := offFrame_pure
  bind := offFrame_bind
  set _ _ _ := offFrame_ofExcept _
  binding := offFrame_bindingFor H
  install := offFrame_install H
  allocTable := offFrame_allocTable
  allocObject := offFrame_allocObject
  allocUserdata := offFrame_allocUserdata

theorem offFrame_reflect (H : Host E) (t : E.Tag) (r : HostRef E t) : OffFrame (reflect H t r) :=
  offFrame_of_commutes fun f => commutes_reflect (apart_inFrameOf f) H t r

theorem offFrame_carry (t : E.Tag) (r : HostRef E t) : OffFrame (carry t r) :=
  offFrame_of_commutes fun f => commutes_carry (apart_inFrameOf f) t r

theorem offFrame_encode (H : Host E) (s : Shape E.Tag) (x : s.Carrier E) :
    OffFrame (encode H s x) :=
  offFrame_of_commutes fun f => commutes_encode (apart_inFrameOf f) H s x

/-! Fields of instances. -/

theorem offFrame_readField (H : Host E) {t : E.Tag} (f : Field E t)
    (g : Getter E t f.shape) (i : Instance E t) :
    OffFrame (readField H f g i) :=
  offFrame_of_commutes fun u => commutes_readField (apart_inFrameOf u) H f g i

theorem offFrame_writeField {t : E.Tag} (f : Field E t)
    (g : Setter E t f.shape) (i : Instance E t) (v : Value) :
    OffFrame (writeField f g i v) :=
  offFrame_of_commutes fun u => commutes_writeField (apart_inFrameOf u) f g i v

end Run
end HostBridge
