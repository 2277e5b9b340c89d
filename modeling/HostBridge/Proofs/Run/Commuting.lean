import HostBridge.Proofs.Run.Conversion
import HostBridge.Proofs.Run.Respects
/-!
Runs that commute with a change of the state: they do the same before and after it. Conversions,
allocations and accesses to the heap commute with every change that leaves alone what they look at,
such as a change of the frame or of the policy for missing members.
-/
namespace HostBridge
namespace Run
variable {E : Embedding} {α β : Type}

def mapState (g : State E → State E) :
    EStateM.Result Fault (State E) α → EStateM.Result Fault (State E) α
  | .ok a t => .ok a (g t)
  | .error f t => .error f (g t)

def Commutes (g : State E → State E) (m : Run E α) : Prop := ∀ s, m (g s) = mapState g (m s)

theorem final_mapState {m n : Run E α} {g : State E → State E} {s t : State E}
    (h : n t = mapState g (m s)) : n.final t = g (m.final s) := by
  unfold final
  rw [h]
  cases m s <;> rfl

/-- A change that neither touches what conversions and accesses to the heap look at nor comes in the
way of what they change. -/
structure Apart (g : State E → State E) : Prop where
  heap s : (g s).heap = s.heap
  registry s : (g s).registry = s.registry
  compiled s : (g s).compiled = s.compiled
  typeMetatables s : (g s).typeMetatables = s.typeMetatables
  thunks s : (g s).thunks = s.thunks
  conversions s : (g s).config.maxConversionDepth = s.config.maxConversionDepth
  onHeap s (f : Heap E → Heap E) :
    { g s with heap := f (g s).heap } = g { s with heap := f s.heap }
  onCompiled s (f : List E.Tag → List E.Tag) :
    { g s with compiled := f (g s).compiled } = g { s with compiled := f s.compiled }
  onTypeMetatables s (f : List (E.Tag × TableId) → List (E.Tag × TableId)) :
    { g s with typeMetatables := f (g s).typeMetatables } =
      g { s with typeMetatables := f s.typeMetatables }
  onThunks s (f : List (Params E.Tag × Params E.Tag) → List (Params E.Tag × Params E.Tag)) :
    { g s with thunks := f (g s).thunks } = g { s with thunks := f s.thunks }
  onMemberRuns s (f : List (MemberRun E) → List (MemberRun E)) :
    { g s with memberRuns := f (g s).memberRuns } = g { s with memberRuns := f s.memberRuns }

section Steps
variable {g : State E → State E}

theorem commutes_pure (a : α) : Commutes g (pure a : Run E α) := fun _ => rfl

theorem commutes_throw (f : Fault) : Commutes g (throw f : Run E α) := fun _ => rfl

theorem commutes_unlessPanic (r : Except Panic α) : Commutes g (unlessPanic r : Run E α) := by
  cases r with
  | ok a => exact commutes_pure a
  | error p => exact commutes_throw _

theorem commutes_raise (e : Error) : Commutes g (raise e : Run E α) := fun _ => rfl

theorem commutes_ofExcept (r : Except Error α) : Commutes g (ofExcept r : Run E α) := by
  cases r with
  | ok a => exact commutes_pure a
  | error e => exact commutes_raise e

theorem commutes_bind {m : Run E α} {f : α → Run E β} (first : Commutes g m)
    (rest : ∀ a, Commutes g (f a)) : Commutes g (m >>= f) := by
  intro s
  rw [bind_eq, bind_eq, first s]
  cases m s with
  | ok a t => exact rest a t
  | error e t => rfl

theorem commutes_tryCatch {m : Run E α} {f : Fault → Run E α} (body : Commutes g m)
    (handler : ∀ e, Commutes g (f e)) : Commutes g (tryCatch m f) := by
  intro s
  rw [tryCatch_eq, tryCatch_eq, body s]
  cases m s with
  | ok a t => rfl
  | error e t => exact handler e t

theorem commutes_get_bind {f : State E → Run E α} (blind : ∀ s, f (g s) = f s)
    (rest : ∀ s, Commutes g (f s)) : Commutes g (get >>= f) := by
  intro s
  change f (g s) (g s) = _
  rw [blind]
  exact rest s s

theorem commutes_read {f : State E → Except Error α} (blind : ∀ s, f (g s) = f s) :
    Commutes g (read f) :=
  commutes_get_bind (fun s => congrArg ofExcept (blind s)) fun s => commutes_ofExcept (f s)

theorem commutes_modify {f : State E → State E} (blind : ∀ s, f (g s) = g (f s)) :
    Commutes g (modify f : Run E PUnit) := by
  intro s
  rw [modify_eq, modify_eq, blind]
  rfl

end Steps

variable {g : State E → State E} (apart : Apart g)
include apart

theorem commutes_readHeap (f : Heap E → Except Error α) :
    Commutes g (read fun s => f s.heap) :=
  commutes_read fun s => congrArg f (apart.heap s)

theorem commutes_modifyHeap (f : Heap E → Heap E) : Commutes g (modifyHeap f) :=
  commutes_modify fun s => apart.onHeap s f

/-- An allocation: a step that changes the heap and tells something about the change. -/
theorem commutes_alloc (f : Heap E → α × Heap E) :
    Commutes g (modifyGet fun s => ((f s.heap).1, { s with heap := (f s.heap).2 })) := by
  intro s
  change EStateM.Result.ok (f (g s).heap).1 { g s with heap := (f (g s).heap).2 } =
    .ok (f s.heap).1 (g { s with heap := (f s.heap).2 })
  rw [apart.onHeap s fun h => (f h).2, apart.heap]

theorem commutes_table (t : TableId) : Commutes g (table t : Run E Table) :=
  commutes_get_bind (fun s => by rw [apart.heap]) fun _ => commutes_pure _

theorem commutes_allocTable (x : Table) : Commutes g (allocTable x : Run E TableId) :=
  commutes_alloc apart (·.allocTable x)

theorem commutes_allocCallable (c : Callable E) : Commutes g (allocCallable c) :=
  commutes_alloc apart (·.allocCallable c)

theorem commutes_allocUserdata (u : Userdata E) : Commutes g (allocUserdata u) :=
  commutes_alloc apart (·.allocUserdata u)

theorem commutes_allocObject (t : E.Tag) (x : E.Payload t) : Commutes g (allocObject t x) :=
  commutes_alloc apart fun h =>
    let made := h.allocObject { tag := t, payload := x }
    ((⟨made.1⟩ : HostRef E t), made.2)

theorem commutes_setRaw (t : TableId) (key value : Value) :
    Commutes g (setRaw t key value : Run E Unit) := by
  unfold setRaw
  split
  · exact commutes_raise _
  · exact commutes_modifyHeap apart _

theorem commutes_assignMetatable (v : Value) (m : Option TableId) :
    Commutes g (assignMetatable v m : Run E Unit) := by
  refine commutes_get_bind (fun s => by rw [apart.heap]) fun s => ?_
  exact commutes_bind (commutes_ofExcept _) fun _ => commutes_modifyHeap apart _

theorem commutes_newCallable (c : Callable E) : Commutes g (newCallable c) := by
  rw [newCallable]
  split
  · rename_i code _
    apply commutes_bind
    · apply commutes_modify
      intro s
      by_cases cached : (E.params code, E.results code) ∈ s.thunks
      · rw [if_pos (apart.thunks s ▸ cached), if_pos cached]
      · rw [if_neg (apart.thunks s ▸ cached), if_neg cached]
        exact apart.onThunks s (· ++ [(E.params code, E.results code)])
    · exact fun _ => commutes_allocCallable apart c
  · exact commutes_allocCallable apart c

theorem commutes_callableOf (f : FunctionId) :
    Commutes g (callableOf f : Run E (Callable E)) := by
  refine commutes_get_bind (fun s => by rw [apart.heap]) fun s => ?_
  cases s.heap.callable? f with
  | some c => exact commutes_pure c
  | none => exact commutes_raise _

theorem commutes_tagOf (u : UserdataId) : Commutes g (tagOf u : Run E E.Tag) := by
  refine commutes_get_bind (fun s => by rw [apart.heap]) fun s => ?_
  cases s.heap.userdata? u with
  | some d => exact commutes_pure d.tag
  | none => exact commutes_raise _

theorem commutes_borrowing {t : E.Tag} (r : HostRef E t) (a : Access) {body : Run E α}
    (h : Commutes g body) : Commutes g (borrowing r a body) := by
  refine commutes_bind (commutes_readHeap apart (·.admits r a)) fun _ => ?_
  refine commutes_bind (commutes_modifyHeap apart _) fun _ => ?_
  apply commutes_tryCatch
  · refine commutes_bind h fun x => ?_
    exact commutes_bind (commutes_modifyHeap apart _) fun _ => commutes_pure x
  · intro f
    exact commutes_bind (commutes_modifyHeap apart _) fun _ => commutes_throw f

theorem commutes_noteRun (r : MemberRun E) : Commutes g (noteRun r) :=
  commutes_modify fun s => apart.onMemberRuns s (r :: ·)

/-! Metatables of host types, and conversions. -/

theorem commutes_addHooks (t : E.Tag) (name : String) (es : List Event) (x : Table) :
    Commutes g (addHooks t name es x : Run E Table) := by
  induction es generalizing x with
  | nil => exact commutes_pure x
  | cons e es ih => exact commutes_bind (commutes_allocCallable apart _) fun f => ih _

theorem commutes_bindingFor (H : Host E) (t : E.Tag) : Commutes g (bindingFor H t) := by
  refine commutes_bind (commutes_ofExcept _) fun b => ?_
  refine commutes_bind (commutes_modify fun s => ?_) fun _ => ?_
  · exact apart.onCompiled s fun ts => if t ∈ ts then ts else ts ++ [t]
  · refine commutes_get_bind (fun s => ?_) fun _ => commutes_pure _
    rw [State.sharedBinding, apart.compiled, State.sharedBinding]

theorem commutes_install (H : Host E) (t : E.Tag) : Commutes g (install H t) := by
  have known (s : State E) : (g s).typeMetatable? t = s.typeMetatable? t := by
    rw [State.typeMetatable?, apart.typeMetatables]
    rfl
  refine commutes_get_bind (fun s => by rw [known]) fun s => ?_
  cases s.typeMetatable? t with
  | some m => exact commutes_pure m
  | none =>
    refine commutes_bind (commutes_ofExcept _) fun b => ?_
    refine commutes_bind (commutes_addHooks apart _ _ _ _) fun x => ?_
    refine commutes_bind (commutes_allocTable apart x) fun m => ?_
    refine commutes_get_bind (fun s => by rw [apart.registry]) fun s => ?_
    refine commutes_bind (commutes_modifyHeap apart _) fun _ => ?_
    refine commutes_bind (commutes_modify fun s => ?_) fun _ => commutes_pure m
    exact apart.onTypeMetatables s (· ++ [(t, m)])

theorem commutes_converts (H : Host E) : Converts (E := E) H fun _ => Commutes g where
  pure := commutes_pure
  bind := commutes_bind
  set _ _ _ := commutes_ofExcept _
  binding := commutes_bindingFor apart H
  install := commutes_install apart H
  allocTable := commutes_allocTable apart
  allocObject := commutes_allocObject apart
  allocUserdata := commutes_allocUserdata apart

theorem commutes_reflect (H : Host E) (t : E.Tag) (r : HostRef E t) :
    Commutes g (reflect H t r) :=
  converted_reflect (commutes_converts apart H) t r

theorem commutes_carry (t : E.Tag) (r : HostRef E t) : Commutes g (carry t r) :=
  commutes_allocUserdata apart _

theorem commutes_encode (H : Host E) (s : Shape E.Tag) (x : s.Carrier E) :
    Commutes g (encode H s x) :=
  converted_encode (commutes_converts apart H) s x

/-! Fields of instances. -/

theorem commutes_readField (H : Host E) {t : E.Tag} (f : Field E t)
    (read : Getter E t f.shape) (i : Instance E t) :
    Commutes g (readField H f read i) := by
  apply commutes_bind
  · apply commutes_borrowing apart
    refine commutes_bind (commutes_readHeap apart (·.payload i.ref)) fun p => ?_
    exact commutes_bind (commutes_noteRun apart _) fun _ => commutes_unlessPanic (read p)
  · exact fun x => commutes_encode apart H f.shape x

theorem commutes_writeField {t : E.Tag} (f : Field E t)
    (write : Setter E t f.shape) (i : Instance E t) (v : Value) :
    Commutes g (writeField f write i v) := by
  have decoded (s : State E) : (g s).decode f.shape v = s.decode f.shape v := by
    rw [State.decode, apart.heap, apart.conversions]
    rfl
  refine commutes_bind (commutes_read decoded) fun x => ?_
  apply commutes_borrowing apart
  refine commutes_bind (commutes_readHeap apart (·.payload i.ref)) fun p => ?_
  refine commutes_bind (commutes_noteRun apart _) fun _ => ?_
  exact commutes_bind (commutes_modifyHeap apart _) fun _ => commutes_unlessPanic _

end Run
end HostBridge
