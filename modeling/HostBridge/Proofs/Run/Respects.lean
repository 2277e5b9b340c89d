import HostBridge.State.Call
/-!
What a run does to its state whatever its outcome. A run respects a relation when the state that it
starts in is related to the state that it ends in, or fails in; a reflexive and transitive relation
is respected by a composed run if it is respected by its parts.
-/
namespace HostBridge
namespace Run
variable {E : Embedding} {α β : Type} {R S : State E → State E → Prop}

def final (m : Run E α) (s : State E) : State E :=
  match m s with
  | .ok _ t => t
  | .error _ t => t

def returned? (m : Run E α) (s : State E) : Option α :=
  match m s with
  | .ok a _ => some a
  | .error _ _ => none

def raised? (m : Run E α) (s : State E) : Option Error :=
  match m s with
  | .error (.raised e) _ => some e
  | _ => none

def Respects (R : State E → State E → Prop) (m : Run E α) : Prop := ∀ s, R s (m.final s)

theorem final_of_ok {m : Run E α} {s t : State E} {a : α} (h : m s = .ok a t) : m.final s = t := by
  rw [final, h]

theorem final_of_error {m : Run E α} {s t : State E} {f : Fault} (h : m s = .error f t) :
    m.final s = t := by
  rw [final, h]

theorem run_of_returned? {m : Run E α} {s : State E} {a : α} (h : m.returned? s = some a) :
    m s = .ok a (m.final s) := by
  unfold returned? at h
  unfold final
  cases ran : m s with
  | ok b t =>
    rw [ran] at h
    rw [Option.some.inj h]
  | error f t =>
    rw [ran] at h
    contradiction

theorem run_of_raised? {m : Run E α} {s : State E} {e : Error} (h : m.raised? s = some e) :
    m s = .error (.raised e) (m.final s) := by
  unfold raised? at h
  unfold final
  cases ran : m s with
  | ok b t =>
    rw [ran] at h
    contradiction
  | error f t =>
    rw [ran] at h
    cases f with
    | raised e' => rw [Option.some.inj h]
    | panicked p => contradiction

theorem Respects.of_ok {m : Run E α} (h : Respects R m) {s t : State E} {a : α}
    (ran : m s = .ok a t) : R s t := by
  rw [← final_of_ok ran]
  exact h s

theorem Respects.of_error {m : Run E α} (h : Respects R m) {s t : State E} {f : Fault}
    (ran : m s = .error f t) : R s t := by
  rw [← final_of_error ran]
  exact h s

theorem Respects.mono {m : Run E α} (h : Respects R m) (weaker : ∀ s t, R s t → S s t) :
    Respects S m := fun s => weaker _ _ (h s)

@[simp] theorem bind_eq (m : Run E α) (f : α → Run E β) (s : State E) :
    (m >>= f) s = match m s with
      | .ok a t => f a t
      | .error e t => .error e t := by
  change EStateM.bind m f s = _
  rw [EStateM.bind]
  cases m s <;> rfl

@[simp] theorem tryCatch_eq (m : Run E α) (f : Fault → Run E α) (s : State E) :
    (tryCatch m f) s = match m s with
      | .ok a t => .ok a t
      | .error e t => f e t := by
  change EStateM.tryCatch m f s = _
  delta EStateM.tryCatch
  dsimp only
  cases m s <;> rfl

@[simp] theorem get_eq (s : State E) : (get : Run E (State E)) s = .ok s s := rfl
@[simp] theorem pure_eq (a : α) (s : State E) : (pure a : Run E α) s = .ok a s := rfl
@[simp] theorem throw_eq (f : Fault) (s : State E) : (throw f : Run E α) s = .error f s := rfl
@[simp] theorem modify_eq (f : State E → State E) (s : State E) :
    (modify f : Run E PUnit) s = .ok ⟨⟩ (f s) := rfl
@[simp] theorem modifySlots_eq (f : Array Value → Array Value) (s : State E) :
    modifySlots f s = .ok ⟨⟩ (s.mapSlots f) := rfl
@[simp] theorem raise_eq (e : Error) (s : State E) :
    (raise e : Run E α) s = .error (.raised e) s := rfl
@[simp] theorem ofExcept_ok (a : α) : (ofExcept (.ok a) : Run E α) = pure a := rfl
@[simp] theorem ofExcept_error (e : Error) : (ofExcept (.error e) : Run E α) = raise e := rfl
@[simp] theorem read_eq (f : State E → Except Error α) (s : State E) :
    read f s = ofExcept (f s) s := rfl

@[simp] theorem keeping_nil (m : Run E α) : keeping [] m = m := rfl

theorem keeping_cons (v : Value) (vs : List Value) (m : Run E α) (s : State E) :
    keeping (v :: vs) m s = match m (s.awaiting (v :: vs ++ s.waiting)) with
      | .ok a t => .ok a (t.awaiting s.waiting)
      | .error f t => .error f (t.awaiting s.waiting) := rfl

theorem final_keeping (v : Value) (vs : List Value) (m : Run E α) (s : State E) :
    (keeping (v :: vs) m).final s =
      (m.final (s.awaiting (v :: vs ++ s.waiting))).awaiting s.waiting := by
  rw [final, final, keeping_cons]
  cases m (s.awaiting (v :: vs ++ s.waiting)) <;> rfl

theorem of_keeping_ok {v : Value} {vs : List Value} {m : Run E α} {s t : State E} {a : α}
    (ran : keeping (v :: vs) m s = .ok a t) :
    ∃ u, m (s.awaiting (v :: vs ++ s.waiting)) = .ok a u ∧ t = u.awaiting s.waiting := by
  rw [keeping_cons] at ran
  split at ran
  · cases ran
    exact ⟨_, ‹_›, rfl⟩
  · contradiction

theorem of_keeping_error {v : Value} {vs : List Value} {m : Run E α} {s t : State E} {f : Fault}
    (ran : keeping (v :: vs) m s = .error f t) :
    ∃ u, m (s.awaiting (v :: vs ++ s.waiting)) = .error f u ∧ t = u.awaiting s.waiting := by
  rw [keeping_cons] at ran
  split at ran
  · contradiction
  · cases ran
    exact ⟨_, ‹_›, rfl⟩

theorem keeping_pure (vs : List Value) (a : α) (s : State E) :
    keeping vs (pure a) s = .ok a s := by
  cases vs <;> rfl

theorem keeping_throw (vs : List Value) (f : Fault) (s : State E) :
    keeping vs (throw f : Run E α) s = .error f s := by
  cases vs <;> rfl

/-- What is kept and where it is put back decide, not what waits when a run begins. -/
theorem keeping_congr {vs : List Value} {m n : Run E α} {s t : State E}
    (same : m (t.awaiting (vs ++ s.waiting)) = n (s.awaiting (vs ++ s.waiting))) :
    keeping vs m (t.awaiting s.waiting) = keeping vs n s := by
  cases vs with
  | nil => exact same
  | cons v vs =>
    change (match m (t.awaiting (v :: vs ++ s.waiting)) with
      | .ok a u => .ok a (u.awaiting s.waiting)
      | .error f u => .error f (u.awaiting s.waiting)) = keeping (v :: vs) n s
    rw [same, keeping_cons]

theorem keeping_map (vs : List Value) (m : Run E α) (f : α → β) (s : State E) :
    keeping vs (m >>= fun a => pure (f a)) s = (keeping vs m >>= fun a => pure (f a)) s := by
  cases vs with
  | nil => rfl
  | cons v vs =>
    rw [keeping_cons, bind_eq, bind_eq, keeping_cons]
    cases m (s.awaiting (v :: vs ++ s.waiting)) <;> rfl

section Rethrow
variable {m : Run E α} {s t : State E}

/-! A fault that is held up by a change of the heap. -/

theorem rethrow_of_ok {a : α} (ran : m s = .ok a t) (g : Heap E → Heap E) :
    (tryCatch m fun f => modifyHeap g >>= fun _ => throw f) s = .ok a t := by
  rw [tryCatch_eq, ran]

theorem rethrow_of_error {f : Fault} (ran : m s = .error f t) (g : Heap E → Heap E) :
    (tryCatch m fun f => modifyHeap g >>= fun _ => throw f) s =
      .error f { t with heap := g t.heap } := by
  rw [tryCatch_eq, ran]
  rfl

end Rethrow

theorem read_ok {f : State E → Except Error α} {s t : State E} {a : α}
    (ran : read f s = .ok a t) : f s = .ok a ∧ t = s := by
  rw [read_eq] at ran
  cases found : f s with
  | ok b =>
    rw [found] at ran
    cases ran
    exact ⟨rfl, rfl⟩
  | error e =>
    rw [found] at ran
    cases ran

theorem respects_get_bind {f : State E → Run E α} (h : ∀ s, R s ((f s).final s)) :
    Respects R (get >>= f) := h

theorem respects_modify {f : State E → State E} (h : ∀ s, R s (f s)) :
    Respects R (modify f : Run E PUnit) := h

theorem respects_modifyGet {f : State E → α × State E} (h : ∀ s, R s (f s).2) :
    Respects R (modifyGet f : Run E α) := h

section Reflexive
variable (refl : ∀ s, R s s)
include refl

theorem respects_pure (a : α) : Respects R (pure a : Run E α) := refl

theorem respects_throw (f : Fault) : Respects R (throw f : Run E α) := refl

theorem respects_unlessPanic (r : Except Panic α) : Respects R (unlessPanic r : Run E α) := by
  cases r with
  | ok a => exact refl
  | error p => exact refl

theorem respects_raise (e : Error) : Respects R (raise e : Run E α) := refl

theorem respects_ofExcept (r : Except Error α) : Respects R (ofExcept r : Run E α) := by
  cases r with
  | ok a => exact refl
  | error e => exact refl

theorem respects_read (f : State E → Except Error α) : Respects R (read f) := fun s =>
  respects_ofExcept refl (f s) s

end Reflexive

section Transitive
variable (trans : ∀ s t u, R s t → R t u → R s u)
include trans

theorem respects_bind_of_ok {m : Run E α} {f : α → Run E β} (first : Respects R m)
    (rest : ∀ s a t, m s = .ok a t → R t ((f a).final t)) : Respects R (m >>= f) := by
  intro s
  have before := first s
  unfold final at before ⊢
  rw [bind_eq]
  cases ran : m s with
  | ok a t =>
    rw [ran] at before
    exact trans _ _ _ before (rest s a t ran)
  | error e t =>
    rw [ran] at before
    exact before

theorem respects_bind {m : Run E α} {f : α → Run E β} (first : Respects R m)
    (rest : ∀ a, Respects R (f a)) : Respects R (m >>= f) :=
  respects_bind_of_ok trans first fun _ a t _ => rest a t

theorem respects_tryCatch {m : Run E α} {f : Fault → Run E α} (body : Respects R m)
    (handler : ∀ e, Respects R (f e)) : Respects R (tryCatch m f) := by
  intro s
  have before := body s
  unfold final at before ⊢
  rw [tryCatch_eq]
  cases ran : m s with
  | ok a t =>
    rw [ran] at before
    exact before
  | error e t =>
    rw [ran] at before
    exact trans _ _ _ before (handler e t)

theorem respects_proceed {m : Run E α} {next : Except Error α → Run E β} (first : Respects R m)
    (rest : ∀ r, Respects R (next r)) : Respects R (proceed m next) := by
  intro s
  have before := first s
  unfold final at before ⊢
  rw [proceed]
  cases ran : m s with
  | ok a t =>
    rw [ran] at before
    exact trans _ _ _ before (rest (.ok a) t)
  | error f t =>
    rw [ran] at before
    cases f with
    | raised e => exact trans _ _ _ before (rest (.error e) t)
    | panicked p => exact before

theorem respects_program (refl : ∀ s, R s s) {F : Effect} {step : (o : F.Op) → Run E (F.Answer o)}
    (steps : ∀ o, Respects R (step o)) (p : Prog F α) : Respects R (program step p) := by
  induction p with
  | done r => exact respects_ofExcept refl r
  | abort p => exact respects_throw refl (.panicked p)
  | perform o next ih => exact respects_proceed trans (steps o) ih

/-- What waits meanwhile makes no difference to a relation that does not look at it. -/
theorem respects_keeping (blind : ∀ s ws, R s (s.awaiting ws)) (vs : List Value) {m : Run E α}
    (h : Respects R m) : Respects R (keeping vs m) := by
  cases vs with
  | nil => exact h
  | cons v vs =>
    intro s
    have started := blind s (v :: vs ++ s.waiting)
    have ended := h (s.awaiting (v :: vs ++ s.waiting))
    rw [final_keeping]
    exact trans _ _ _ started (trans _ _ _ ended (blind _ s.waiting))

end Transitive

/-- A relation that steps compose to, and that a change of the slots of the stack is part of. -/
structure Framewise (R : State E → State E → Prop) : Prop where
  refl (s : State E) : R s s
  trans (s t u : State E) : R s t → R t u → R s u
  slots (s : State E) (f : Array Value → Array Value) : R s (s.mapSlots f)

namespace Framewise
variable (laws : Framewise R)
include laws

theorem bind {m : Run E α} {f : α → Run E β} (first : Respects R m)
    (rest : ∀ a, Respects R (f a)) : Respects R (m >>= f) :=
  respects_bind laws.trans first rest

/-- A check before a step, which raises an error or lets the step happen. -/
theorem check {c : Prop} [Decidable c] {e : Error} {m : Run E α} (h : Respects R m) :
    Respects R (if c then (raise e : Run E PUnit) >>= fun _ => m else m) := by
  split
  · exact laws.bind (respects_raise laws.refl e) fun _ => h
  · exact h

theorem modifySlots (f : Array Value → Array Value) : Respects R (modifySlots f : Run E Unit) :=
  fun s => laws.slots s f

theorem push (v : Value) : Respects R (push v : Run E Unit) :=
  respects_get_bind fun s => laws.check (laws.modifySlots _) s

theorem pushAll (vs : List Value) : Respects R (pushAll vs : Run E Unit) := by
  induction vs with
  | nil => exact respects_pure laws.refl ()
  | cons v vs ih => exact laws.bind (laws.push v) fun _ => ih

theorem pop : Respects R (pop : Run E Value) := by
  refine respects_get_bind fun s => laws.check ?_ s
  cases s.stack.top? with
  | some v => exact laws.bind (laws.modifySlots _) fun _ => respects_pure laws.refl v
  | none => exact respects_raise laws.refl _

theorem drop (n : Nat) : Respects R (drop n : Run E Unit) := by
  refine respects_get_bind fun s => laws.check ?_ s
  split
  · exact laws.modifySlots _
  · exact respects_pure laws.refl ()

theorem resize (n : Nat) : Respects R (resize n : Run E Unit) := by
  refine respects_get_bind fun s => ?_
  split
  · exact laws.modifySlots _ s
  · split
    · exact laws.refl s
    · exact laws.modifySlots _ s

theorem setTop (index : Int) : Respects R (setTop index : Run E Unit) := by
  refine respects_get_bind fun s => ?_
  split
  · exact laws.resize _ s
  · exact laws.bind (respects_ofExcept laws.refl _) (fun p => laws.resize _) s

theorem insert (index : Int) : Respects R (insert index : Run E Unit) := by
  refine laws.bind (respects_read laws.refl _) fun p => laws.bind laws.pop fun v => ?_
  exact respects_get_bind fun s => laws.check (laws.check (laws.modifySlots _)) s

theorem remove (index : Int) : Respects R (remove index : Run E Unit) := by
  refine laws.bind (respects_read laws.refl _) fun p => ?_
  exact respects_get_bind fun s => laws.check (laws.modifySlots _) s

theorem replace (index : Int) : Respects R (replace index : Run E Unit) := by
  refine laws.bind (respects_read laws.refl _) fun p => laws.bind laws.pop fun v => ?_
  refine respects_get_bind fun s => ?_
  split
  · exact laws.push v s
  · exact laws.modifySlots _ s

theorem insertHandler (func : Nat) (v : Value) :
    Respects R (insertHandler func v : Run E FunctionId) := by
  refine respects_get_bind fun s => ?_
  cases s.heap.metafield v .call with
  | function f =>
    exact laws.check (laws.bind (laws.modifySlots _) fun _ => respects_pure laws.refl f) s
  | _ => exact laws.refl s

theorem callee (func : Nat) : Respects R (callee func : Run E FunctionId) := by
  refine laws.bind (respects_read laws.refl _) fun v => ?_
  cases v with
  | function f => exact respects_pure laws.refl f
  | _ => exact laws.insertHandler func _

end Framewise

end Run
end HostBridge
