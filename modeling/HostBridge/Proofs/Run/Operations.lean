import HostBridge.Proofs.Run.Evolution

namespace HostBridge
namespace Run
open State
variable {E : Embedding} {H : Host E} {α β : Type}

theorem evolves_bind {m : Run E α} {f : α → Run E β} (first : Respects (Evolves H) m)
    (rest : ∀ a, Respects (Evolves H) (f a)) : Respects (Evolves H) (m >>= f) :=
  respects_bind (R := Evolves H) (fun _ _ _ => Evolves.trans) first rest

theorem evolves_bind_of_ok {m : Run E α} {f : α → Run E β} (first : Respects (Evolves H) m)
    (rest : ∀ s a t, m s = .ok a t → t.Evolves H ((f a).final t)) :
    Respects (Evolves H) (m >>= f) :=
  respects_bind_of_ok (R := Evolves H) (fun _ _ _ => Evolves.trans) first rest

theorem evolves_tryCatch {m : Run E α} {f : Fault → Run E α} (body : Respects (Evolves H) m)
    (handler : ∀ e, Respects (Evolves H) (f e)) : Respects (Evolves H) (tryCatch m f) :=
  respects_tryCatch (R := Evolves H) (fun _ _ _ => Evolves.trans) body handler

theorem evolves_keeping (vs : List Value) {m : Run E α} (h : Respects (Evolves H) m) :
    Respects (Evolves H) (keeping vs m) :=
  respects_keeping (R := Evolves H) (fun _ _ _ => Evolves.trans)
    (fun _ ws => Change.Aside.evolves ⟨.waiting ws, rfl, rfl, rfl⟩) vs h

theorem evolves_get_bind {f : State E → Run E α} (rest : ∀ s, Respects (Evolves H) (f s)) :
    Respects (Evolves H) (get >>= f) :=
  respects_get_bind fun s => rest s s

theorem evolves_pure (a : α) : Respects (Evolves H) (pure a : Run E α) := respects_pure .refl a

theorem evolves_raise (e : Error) : Respects (Evolves H) (raise e : Run E α) :=
  respects_raise .refl e

theorem evolves_throw (f : Fault) : Respects (Evolves H) (throw f : Run E α) :=
  respects_throw .refl f

theorem evolves_unlessPanic (r : Except Panic α) :
    Respects (Evolves H) (unlessPanic r : Run E α) :=
  respects_unlessPanic .refl r

theorem evolves_program {F : Effect} {step : (o : F.Op) → Run E (F.Answer o)}
    (steps : ∀ o, Respects (Evolves H) (step o)) (p : Prog F α) :
    Respects (Evolves H) (program step p) :=
  respects_program (R := Evolves H) (fun _ _ _ => Evolves.trans) .refl steps p

theorem evolves_ofExcept (r : Except Error α) : Respects (Evolves H) (ofExcept r : Run E α) :=
  respects_ofExcept .refl r

theorem evolves_read (f : State E → Except Error α) : Respects (Evolves H) (read f) :=
  respects_read .refl f

theorem evolves_modify {f : State E → State E} (one : ∀ s, Change.Aside H s (f s)) :
    Respects (Evolves H) (modify f : Run E PUnit) :=
  respects_modify fun s => (one s).evolves

theorem evolves_modifyGet {f : State E → α × State E} (one : ∀ s, Change.Aside H s (f s).2) :
    Respects (Evolves H) (modifyGet f : Run E α) :=
  respects_modifyGet fun s => (one s).evolves

/-! The frame. -/

theorem evolves_framewise : Framewise (Evolves H) where
  refl := .refl
  trans _ _ _ := .trans
  slots _ f := Change.Aside.evolves ⟨.slots f, rfl, rfl, rfl⟩

theorem evolves_check {c : Prop} [Decidable c] {e : Error} {m : Run E α}
    (h : Respects (Evolves H) m) :
    Respects (Evolves H) (if c then (raise e : Run E PUnit) >>= fun _ => m else m) :=
  evolves_framewise.check h

theorem evolves_push (v : Value) : Respects (Evolves H) (push v : Run E Unit) :=
  evolves_framewise.push v

theorem evolves_pushAll (vs : List Value) : Respects (Evolves H) (pushAll vs : Run E Unit) :=
  evolves_framewise.pushAll vs

theorem evolves_truncate (n : Nat) : Respects (Evolves H) (truncate n : Run E Unit) :=
  evolves_framewise.modifySlots _

theorem evolves_setTop (index : Int) : Respects (Evolves H) (setTop index : Run E Unit) :=
  evolves_framewise.setTop index

/-! Objects of the heap. -/

theorem evolves_allocTable {x : Table} (valid : x.Valid) :
    Respects (Evolves H) (allocTable x : Run E TableId) :=
  evolves_modifyGet fun _ => ⟨.newTable x valid, rfl, rfl, rfl⟩

theorem evolves_allocObject (t : E.Tag) (x : E.Payload t) :
    Respects (Evolves H) (allocObject t x) :=
  evolves_modifyGet fun _ => ⟨.newObject ⟨t, x, {}⟩, rfl, rfl, rfl⟩

theorem evolves_setRaw (t : TableId) (key value : Value) :
    Respects (Evolves H) (setRaw t key value : Run E Unit) := by
  unfold setRaw
  cases fault : Table.keyFault? key with
  | some e => exact evolves_raise e
  | none =>
    have isKey := Table.keyFault?_eq_none_iff.mp fault
    exact evolves_modify fun _ => ⟨.put t key value isKey, rfl, rfl, rfl⟩

theorem evolves_assignMetatable (v : Value) (m : Option TableId) :
    Respects (Evolves H) (assignMetatable v m : Run E Unit) := by
  refine respects_get_bind fun s => ?_
  cases set : s.heap.setMetatable v m with
  | ok h => exact (Advance.metatable v m h set).evolves
  | error e => exact .refl s

theorem evolves_modifyBorrow (o : ObjectId) (f : Borrow → Borrow) :
    Respects (Evolves H) (modifyHeap (·.modifyBorrow o f) : Run E Unit) :=
  evolves_modify fun _ => ⟨.borrow o f, rfl, rfl, rfl⟩

theorem evolves_setPayload {t : E.Tag} (r : HostRef E t) (x : E.Payload t) :
    Respects (Evolves H) (modifyHeap (·.setPayload r x)) :=
  evolves_modify fun _ => ⟨.payload r x, rfl, rfl, rfl⟩

theorem evolves_allocCallable {c : Callable E} {s : State E} (founded : s.Founded H c.entry) :
    s.Evolves H ((allocCallable c).final s) :=
  Change.Aside.evolves ⟨.newCallable c founded, rfl, rfl, rfl⟩

theorem evolves_newCallable {c : Callable E} (founded : ∀ s : State E, s.Founded H c.entry) :
    Respects (Evolves H) (newCallable c) := by
  have allocated : Respects (Evolves H) (allocCallable c) := fun s =>
    evolves_allocCallable (founded s)
  rw [newCallable]
  split
  · refine evolves_bind (respects_modify fun s => ?_) fun _ => allocated
    simp only
    split
    · exact .refl s
    · exact Change.Aside.evolves ⟨.thunk _, rfl, rfl, rfl⟩
  · exact allocated

theorem evolves_callableOf (f : FunctionId) :
    Respects (Evolves H) (callableOf f : Run E (Callable E)) := by
  refine evolves_get_bind fun s => ?_
  cases s.heap.callable? f with
  | some c => exact evolves_pure c
  | none => exact evolves_raise _

theorem evolves_tagOf (u : UserdataId) : Respects (Evolves H) (tagOf u : Run E E.Tag) := by
  refine evolves_get_bind fun s => ?_
  cases s.heap.userdata? u with
  | some d => exact evolves_pure d.tag
  | none => exact evolves_raise _

/-! Conversions, and metatables of host types. -/

section Shared
variable {t : E.Tag} {b : Binding E t}

theorem bindingFor_of_bound (bound : H.binding t = .ok b) (s : State E) :
    bindingFor H t s = .ok ((s.compile t).sharedBinding b) (s.compile t) := by
  simp only [bindingFor, bind_eq, bound, ofExcept_ok, pure_eq]
  rfl

theorem bindingFor_of_refused {e : Error} (refused : H.binding t = .error e) (s : State E) :
    bindingFor H t s = .error (.raised e) s := by
  simp only [bindingFor, bind_eq, refused, ofExcept_error, raise_eq]

end Shared

theorem evolves_bindingFor (t : E.Tag) : Respects (Evolves H) (bindingFor H t) := by
  intro s
  cases bound : H.binding t with
  | ok b =>
    rw [final_of_ok (bindingFor_of_bound bound s)]
    exact Change.Aside.evolves ⟨.compile t, rfl, rfl, rfl⟩
  | error e =>
    rw [final_of_error (bindingFor_of_refused bound s)]
    exact .refl s

theorem evolves_addHooks {t : E.Tag} {b : Binding E t} (found : H.binding t = .ok b)
    {es : List Event} (declared : ∀ e ∈ es, e ∈ b.events) (x : Table) :
    Respects (Evolves H) (addHooks t b.name es x : Run E Table) := by
  induction es generalizing x with
  | nil => exact evolves_pure x
  | cons e es ih =>
    have ⟨head, tail⟩ := List.forall_mem_cons.mp declared
    refine evolves_bind (fun s => evolves_allocCallable ⟨b, found, head⟩) fun f => ?_
    exact ih tail _

theorem valid_addHooks {t : E.Tag} {name : String} {es : List Event} {x : Table} (valid : x.Valid)
    {s s' : State E} {y : Table} (ran : addHooks t name es x s = .ok y s') : y.Valid := by
  induction es generalizing x s with
  | nil =>
    cases ran
    exact valid
  | cons e es ih => exact ih (valid.setStr _ _) ran

section Types
variable {t : E.Tag} {s s' : State E}

theorem addHooks_heap {name : String} {es : List Event} {x y : Table}
    (ran : addHooks t name es x s = .ok y s') : ∃ h, s' = { s with heap := h } := by
  induction es generalizing x s with
  | nil =>
    cases ran
    exact ⟨_, rfl⟩
  | cons e es ih =>
    let c : Callable E := ⟨hookName name e, .hook t e⟩
    have rest : addHooks t name es (x.setStr e.key (.function ⟨s.heap.callables.size⟩))
        { s with heap := (s.heap.allocCallable c).2 } = .ok y s' := ran
    obtain ⟨h, rfl⟩ := ih rest
    exact ⟨h, rfl⟩

theorem addHooks_total (t : E.Tag) (name : String) (es : List Event) (x : Table) (s : State E) :
    ∃ y s', addHooks t name es x s = .ok y s' := by
  induction es generalizing x s with
  | nil => exact ⟨x, s, rfl⟩
  | cons e es ih => exact ih _ _

theorem install_of_known {m : TableId} (known : s.typeMetatable? t = some m) :
    install H t s = .ok m s := by
  simp only [install, bind_eq, get_eq, known, pure_eq]

/-- Once the handlers of a host type are made, it gets its metatable in one step. -/
theorem install_of_new {b : Binding E t} (bound : H.binding t = .ok b)
    (new : s.typeMetatable? t = none) :
    ∃ x h,
      addHooks t b.name b.events (Table.empty.setStr Event.name.key (.string b.name)) s =
        .ok x { s with heap := h } ∧
      install H t s = .ok ⟨h.tables.size⟩ (State.publish { s with heap := h } t b.name x) := by
  obtain ⟨x, u, hooked⟩ := addHooks_total t b.name b.events
    (Table.empty.setStr Event.name.key (.string b.name)) s
  obtain ⟨h, rfl⟩ := addHooks_heap hooked
  refine ⟨x, h, hooked, ?_⟩
  rw [Binding.events] at hooked
  simp only [install, bind_eq, get_eq, new, bound, ofExcept_ok, pure_eq, hooked]
  rfl

theorem install_cases {m : TableId} (ran : install H t s = .ok m s') :
    s.typeMetatable? t = some m ∧ s' = s ∨
    ∃ name x h, State.typeMetatable? { s with heap := h } t = none ∧ m = ⟨h.tables.size⟩ ∧
      s' = State.publish { s with heap := h } t name x := by
  cases known : s.typeMetatable? t with
  | some m' =>
    cases (install_of_known (H := H) known).symm.trans ran
    exact .inl ⟨rfl, rfl⟩
  | none =>
    cases bound : H.binding t with
    | error e =>
      simp only [install, bind_eq, get_eq, known, bound] at ran
      contradiction
    | ok b =>
      obtain ⟨x, h, -, installed⟩ := install_of_new bound known
      cases installed.symm.trans ran
      exact .inr ⟨b.name, x, h, known, rfl, rfl⟩

theorem known_of_install {m : TableId} (ran : install H t s = .ok m s') :
    s'.typeMetatable? t = some m := by
  rcases install_cases ran with ⟨known, rfl⟩ | ⟨name, x, h, new, rfl, rfl⟩
  · exact known
  · exact (typeMetatable?_publish new name x t).trans (if_pos rfl)

theorem install_total {b : Binding E t} (bound : H.binding t = .ok b) (s : State E) :
    ∃ m s', install H t s = .ok m s' := by
  cases known : s.typeMetatable? t with
  | some m => exact ⟨m, s, install_of_known known⟩
  | none =>
    obtain ⟨x, h, -, installed⟩ := install_of_new bound known
    exact ⟨_, _, installed⟩

end Types

theorem evolves_install (t : E.Tag) : Respects (Evolves H) (install H t) := by
  intro s
  cases known : s.typeMetatable? t with
  | some m =>
    rw [final_of_ok (install_of_known known)]
    exact .refl s
  | none =>
    cases bound : H.binding t with
    | error e =>
      have failed : install H t s = .error (.raised e) s := by
        simp only [install, bind_eq, get_eq, known, bound, ofExcept_error, raise_eq]
      rw [final_of_error failed]
      exact .refl s
    | ok b =>
      obtain ⟨x, h, hooked, installed⟩ := install_of_new bound known
      have valid : x.Valid := valid_addHooks (Table.Valid.empty.setStr _ _) hooked
      have none : State.typeMetatable? { s with heap := h } t = none := known
      rw [final_of_ok installed]
      exact ((evolves_addHooks bound (fun _ h => h) _).of_ok hooked).trans
        (Advance.publish t b.name x valid none).evolves

theorem evolves_carry (t : E.Tag) (r : HostRef E t) : Respects (Evolves H) (carry t r) :=
  respects_modifyGet fun _ => (Advance.carry t r.object).evolves

theorem evolves_reflect (t : E.Tag) (r : HostRef E t) : Respects (Evolves H) (reflect H t r) := by
  refine evolves_bind (evolves_bindingFor t) fun _ => ?_
  refine evolves_bind_of_ok (evolves_install t) fun _ m s installed => ?_
  exact (Advance.reflect t r.object m (known_of_install installed)).evolves

theorem changes_reflect (t : E.Tag) (r : HostRef E t) : Respects (Changes H) (reflect H t r) :=
  (evolves_reflect t r).mono fun _ _ => Evolves.changes

theorem encodeHostMap_pair (k : HostKey) (v : HostValue) (r : HostMap) (x : Table) (s : State E) :
    encodeHostMap (.pair k v r) x s = match encodeHostValue v s with
      | .error f t => .error f t
      | .ok value t =>
        if value.isNil then encodeHostMap r x t
        else match x.set k.toValue value with
          | .ok y => encodeHostMap r y t
          | .error e => .error (.raised e) t := by
  rw [encodeHostMap, bind_eq]
  cases encodeHostValue v s with
  | error f t => rfl
  | ok value t =>
    cases isNil : value.isNil with
    | true => simp [isNil]
    | false => cases stored : x.set k.toValue value <;> simp [isNil, stored]

theorem valid_encodeHostMap (m : HostMap) {x y : Table} (valid : x.Valid) {s s' : State E}
    (ran : encodeHostMap m x s = .ok y s') : y.Valid := by
  cases m with
  | empty =>
    rw [encodeHostMap] at ran
    cases ran
    exact valid
  | pair k v r =>
    rw [encodeHostMap_pair] at ran
    split at ran
    · contradiction
    · split at ran
      · exact valid_encodeHostMap r valid ran
      · split at ran
        · rename_i stored
          exact valid_encodeHostMap r (valid.of_set stored) ran
        · contradiction

mutual

theorem evolves_encodeHostValue (x : HostValue) :
    Respects (Evolves H) (encodeHostValue x : Run E Value) := by
  cases x with
  | map m =>
    unfold encodeHostValue
    refine evolves_bind_of_ok (evolves_encodeHostMap m .empty) fun s t u ran => ?_
    have valid : t.Valid := valid_encodeHostMap _ .empty ran
    exact evolves_bind (evolves_allocTable valid) (fun _ => evolves_pure _) u
  | _ =>
    unfold encodeHostValue
    exact evolves_pure _

theorem evolves_encodeHostMap (m : HostMap) (t : Table) :
    Respects (Evolves H) (encodeHostMap m t : Run E Table) := by
  cases m with
  | empty =>
    unfold encodeHostMap
    exact evolves_pure t
  | pair k v r =>
    unfold encodeHostMap
    refine evolves_bind (evolves_encodeHostValue v) fun value => ?_
    split
    · exact evolves_encodeHostMap r t
    · exact evolves_bind (evolves_ofExcept _) fun u => evolves_encodeHostMap r u

end

theorem evolves_mapM {f : α → Run E β} (each : ∀ a, Respects (Evolves H) (f a)) (xs : List α) :
    Respects (Evolves H) (xs.mapM f) := by
  induction xs with
  | nil =>
    rw [List.mapM_nil]
    exact evolves_pure []
  | cons x xs ih =>
    rw [List.mapM_cons]
    refine evolves_bind (each x) fun b => ?_
    exact evolves_bind ih fun bs => evolves_pure (b :: bs)

theorem valid_foldl_setInt (vs : List Value) {x : Table} (valid : x.Valid) (i : Int) :
    (vs.foldl (fun (x, i) v => (x.setInt i v, i + 1)) (x, i)).1.Valid := by
  induction vs generalizing x i with
  | nil => exact valid
  | cons v vs ih =>
    apply ih
    rw [x.setInt_eq_put]
    exact valid.put (Value.isKey_ofInt i) v

theorem valid_sequenceTable (vs : List Value) : (sequenceTable vs).Valid :=
  valid_foldl_setInt vs .empty 1

theorem evolves_encode (s : Shape E.Tag) (x : s.Carrier E) :
    Respects (Evolves H) (encode H s x) := by
  induction s with
  | hostValue => exact evolves_encodeHostValue x
  | hostMap =>
    refine evolves_bind_of_ok (evolves_encodeHostMap x .empty) fun s t u ran => ?_
    have valid : t.Valid := valid_encodeHostMap _ .empty ran
    exact evolves_bind (evolves_allocTable valid) (fun _ => evolves_pure _) u
  | object t =>
    refine evolves_bind (evolves_bindingFor t) fun _ => ?_
    refine evolves_bind (evolves_allocObject t x) fun r => ?_
    exact evolves_bind (evolves_reflect t r) fun _ => evolves_pure _
  | ref t => exact evolves_bind (evolves_carry t x) fun _ => evolves_pure _
  | option s ih =>
    cases x with
    | none => exact evolves_pure Value.nil
    | some x => exact ih x
  | list s ih =>
    refine evolves_bind (evolves_mapM ih x) fun vs => ?_
    exact evolves_bind (evolves_allocTable (valid_sequenceTable vs)) fun _ => evolves_pure _
  | _ => exact evolves_pure _

theorem evolves_encodeAll (ss : List (Shape E.Tag)) (xs : Tuple E ss) :
    Respects (Evolves H) (encodeAll H ss xs) := by
  induction ss with
  | nil => exact evolves_pure ()
  | cons s ss ih =>
    obtain ⟨x, xs⟩ := xs
    refine evolves_bind (evolves_encode s x) fun v => ?_
    exact evolves_bind (evolves_push v) fun _ => ih xs

end Run
end HostBridge
