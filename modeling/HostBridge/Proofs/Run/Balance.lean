import HostBridge.Proofs.Heap.Borrows
import HostBridge.Proofs.Run.Bodies
import HostBridge.Proofs.Run.Conversion

namespace HostBridge

def State.modifyBorrow {E : Embedding} (s : State E) (o : ObjectId) (f : Borrow → Borrow) : State E :=
  { s with heap := s.heap.modifyBorrow o f }

section
variable {E : Embedding}

/-- What an operation does to the borrows that go on after it. -/
inductive Lending where
  | none
  | takes (o : ObjectId) (a : Access)
  | gives (o : ObjectId) (a : Access)

def Op.lending : Op E → Lending
  | .acquire _ r a => .takes r.object a
  | .release _ r a => .gives r.object a
  | _ => .none

def InstanceOp.lending {t : E.Tag} : InstanceOp E t → Lending
  | .act o => o.lending
  | _ => .none

/-- A program that has ended all borrows when it ends: those that it begins, and those that it is
said to hold where it begins. -/
inductive Prog.Returns {F : Effect} (lends : F.Op → Lending) :
    {α : Type} → (ObjectId → List Access) → Prog F α → Prop
  | done {α : Type} (r : Except Error α) : Returns lends (fun _ => []) (.done r)
  | abort {α : Type} (held : ObjectId → List Access) (p : Panic) :
      Returns lends held (.abort p : Prog F α)
  | perform {α : Type} {held : ObjectId → List Access} {o : F.Op}
      {next : Except Error (F.Answer o) → Prog F α} (apart : lends o = .none)
      (rest : ∀ r, Returns lends held (next r)) : Returns lends held (.perform o next)
  | takes {α : Type} {held : ObjectId → List Access} {o : F.Op}
      {next : Except Error (F.Answer o) → Prog F α} {i : ObjectId} {a : Access}
      (lent : lends o = .takes i a)
      (taken : ∀ x, Returns lends (Function.update held i (a :: held i)) (next (.ok x)))
      (refused : ∀ e, Returns lends held (next (.error e))) : Returns lends held (.perform o next)
  | gives {α : Type} {held : ObjectId → List Access} {o : F.Op}
      {next : Except Error (F.Answer o) → Prog F α} {i : ObjectId} {a : Access}
      (lent : lends o = .gives i a) (listed : a ∈ held i)
      (rest : ∀ x, Returns lends (Function.update held i ((held i).erase a)) (next x)) :
      Returns lends held (.perform o next)

/-- A program that ends the borrows that it begins, in any order. -/
def Action.Balanced {α : Type} (m : Action E α) : Prop :=
  Prog.Returns (F := Op.effect E) Op.lending (fun _ => []) m

def Mutation.Balanced {t : E.Tag} {α : Type} (m : Mutation E t α) : Prop :=
  Prog.Returns (F := Mutation.effect E t) InstanceOp.lending (fun _ => []) m

def MethodBody.Balanced {t : E.Tag} {args results : List (Shape E.Tag)} :
    MethodBody E t args results → Prop
  | .receiver f => ∀ x xs, Action.Balanced (f x xs)
  | .mutReceiver f => ∀ xs, Mutation.Balanced (f xs)
  | .function f => ∀ xs, Action.Balanced (f xs)

def OperatorBody.Balanced {t : E.Tag} {result : Shape E.Tag} : OperatorBody E t result → Prop
  | .binary f => ∀ x y, Action.Balanced (f x y)
  | .unary f => ∀ x, Action.Balanced (f x)

structure Host.Balanced (H : Host E) : Prop where
  native : ∀ code, Action.Balanced (H.native code)
  closure : ∀ code xs, Action.Balanced (H.closure code xs)
  method : ∀ t b, H.binding t = .ok b → ∀ m ∈ b.methods, m.body.Balanced
  operator : ∀ t b, H.binding t = .ok b → ∀ o ∈ b.operators, o.body.Balanced

end

namespace Run
open State
variable {E : Embedding} {α β : Type}

/-- Unless it panics, the run leaves every object borrowed as it was. -/
def Balances (m : Run E α) : Prop := ∀ s, match m s with
  | .ok _ t => s.heap.SameUse t.heap
  | .error (.raised _) t => s.heap.SameUse t.heap
  | .error (.panicked _) _ => True

section Steps

theorem balances_pure (a : α) : Balances (pure a : Run E α) := fun s => .refl s.heap

theorem balances_raise (e : Error) : Balances (raise e : Run E α) := fun s => .refl s.heap

theorem balances_panic (p : Panic) : Balances (throw (.panicked p) : Run E α) := fun _ => trivial

theorem balances_unlessPanic (r : Except Panic α) : Balances (unlessPanic r : Run E α) := by
  cases r with
  | ok a => exact balances_pure a
  | error p => exact balances_panic p

theorem balances_ofExcept (r : Except Error α) : Balances (ofExcept r : Run E α) := by
  cases r with
  | ok a => exact balances_pure a
  | error e => exact balances_raise e

theorem balances_get_bind {f : State E → Run E α} (rest : ∀ s, Balances (f s)) :
    Balances (get >>= f) := fun s => rest s s

theorem balances_read (f : State E → Except Error α) : Balances (read f) :=
  balances_get_bind fun s => balances_ofExcept (f s)

theorem balances_bind {m : Run E α} {f : α → Run E β} (first : Balances m)
    (rest : ∀ a, Balances (f a)) : Balances (m >>= f) := by
  intro s
  have before := first s
  rw [bind_eq]
  cases ran : m s with
  | ok a t =>
    rw [ran] at before
    have after := rest a t
    simp only
    revert after
    cases f a t with
    | ok b u => exact before.trans
    | error e u =>
      cases e with
      | raised e => exact before.trans
      | panicked p => exact fun _ => trivial
  | error e t =>
    rw [ran] at before
    cases e <;> exact before

/-- What goes on after an error, but not after a panic. -/
theorem balances_keeping (vs : List Value) {m : Run E α} (h : Balances m) :
    Balances (keeping vs m) := by
  cases vs with
  | nil => exact h
  | cons v vs =>
    intro s
    have same := h (s.awaiting (v :: vs ++ s.waiting))
    rw [keeping_cons]
    revert same
    cases m (s.awaiting (v :: vs ++ s.waiting)) with
    | ok a t => exact id
    | error f t => cases f <;> exact id

theorem balances_catch {m : Run E α} {f : Fault → Run E α} (body : Balances m)
    (raised : ∀ e, Balances (f (.raised e))) (panicked : ∀ p, f (.panicked p) = throw (.panicked p)) :
    Balances (tryCatch m f) := by
  intro s
  have before := body s
  rw [tryCatch_eq]
  cases ran : m s with
  | ok a t =>
    rw [ran] at before
    exact before
  | error e t =>
    rw [ran] at before
    cases e with
    | raised e =>
      have after := raised e t
      simp only
      revert after
      cases f (.raised e) t with
      | ok b u => exact before.trans
      | error e u =>
        cases e with
        | raised e => exact before.trans
        | panicked p => exact fun _ => trivial
    | panicked p =>
      simp only [panicked]
      trivial

theorem balances_modifyGet {f : State E → α × State E}
    (same : ∀ s : State E, s.heap.SameUse (f s).2.heap) : Balances (modifyGet f : Run E α) := same

theorem balances_modify {f : State E → State E} (same : ∀ s : State E, s.heap.SameUse (f s).heap) :
    Balances (modify f : Run E PUnit) := same

theorem balances_apart {f : State E → State E}
    (apart : ∀ s, (f s).heap.objects = s.heap.objects) : Balances (modify f : Run E PUnit) :=
  balances_modify fun s => .of_objects (apart s)

theorem balances_modifySlots (f : Array Value → Array Value) :
    Balances (modifySlots f : Run E Unit) :=
  balances_apart fun _ => rfl

theorem balances_if {c : Prop} [Decidable c] {m n : Run E α} (yes : Balances m) (no : Balances n) :
    Balances (if c then m else n) := by
  split
  · exact yes
  · exact no

/-- A check before a step, which raises an error or lets the step happen. -/
theorem balances_check {c : Prop} [Decidable c] {e : Error} {m : Run E α} (h : Balances m) :
    Balances (if c then (raise e : Run E PUnit) >>= fun _ => m else m) :=
  balances_if (balances_bind (balances_raise e) fun _ => h) h

theorem borrowing_eq {t : E.Tag} (r : HostRef E t) (a : Access) (body : Run E α) (s : State E) :
    borrowing r a body s =
      if (s.heap.borrow r.object).admits a then
        match body (s.modifyBorrow r.object (·.add a)) with
        | .ok x u => .ok x (u.modifyBorrow r.object (·.drop a))
        | .error f u => .error f (u.modifyBorrow r.object (·.drop a))
      else .error (.raised (.instanceBorrowed (E.tagName t))) s := by
  simp only [borrowing, bind_eq, read_eq, s.heap.admits_eq r a]
  cases (s.heap.borrow r.object).admits a with
  | false => rfl
  | true =>
    simp only [if_true, ofExcept_ok, pure_eq, tryCatch_eq, bind_eq]
    have taken : modifyHeap (·.modifyBorrow r.object (·.add a)) s =
        .ok () (s.modifyBorrow r.object (·.add a)) := rfl
    simp only [taken]
    cases body (s.modifyBorrow r.object (·.add a)) <;> rfl

/-- A borrow is given back when the body ends, and with whatever outcome. -/
theorem balances_borrowing {t : E.Tag} (r : HostRef E t) (a : Access) {body : Run E α}
    (h : Balances body) : Balances (borrowing r a body) := by
  intro s
  rw [borrowing_eq]
  by_cases admitted : (s.heap.borrow r.object).admits a = true
  · have between := h (s.modifyBorrow r.object (·.add a))
    rw [if_pos admitted]
    revert between
    cases body (s.modifyBorrow r.object (·.add a)) with
    | ok x u => exact .around admitted
    | error f u =>
      cases f with
      | raised e => exact .around admitted
      | panicked p => exact fun _ => trivial
  · rw [if_neg admitted]
    exact .refl s.heap

end Steps

section Frame

theorem balances_of_respects {m : Run E α}
    (keeps : Respects (fun s t => s.heap.SameUse t.heap) m) : Balances m := by
  intro s
  have kept := keeps s
  unfold final at kept
  cases ran : m s with
  | ok a t =>
    rw [ran] at kept
    exact kept
  | error f t =>
    rw [ran] at kept
    cases f with
    | raised e => exact kept
    | panicked p => trivial

theorem sameUse_framewise : Framewise fun s t : State E => s.heap.SameUse t.heap where
  refl s := .refl s.heap
  trans _ _ _ := Heap.SameUse.trans
  slots _ _ := .of_objects rfl

theorem balances_push (v : Value) : Balances (push v : Run E Unit) :=
  balances_of_respects (sameUse_framewise.push v)

theorem balances_pushAll (vs : List Value) : Balances (pushAll vs : Run E Unit) :=
  balances_of_respects (sameUse_framewise.pushAll vs)

theorem balances_truncate (n : Nat) : Balances (truncate n : Run E Unit) := balances_modifySlots _

theorem balances_pop : Balances (pop : Run E Value) := balances_of_respects sameUse_framewise.pop

theorem balances_drop (n : Nat) : Balances (drop n : Run E Unit) :=
  balances_of_respects (sameUse_framewise.drop n)

theorem balances_setTop (index : Int) : Balances (setTop index : Run E Unit) :=
  balances_of_respects (sameUse_framewise.setTop index)

theorem balances_insert (index : Int) : Balances (insert index : Run E Unit) :=
  balances_of_respects (sameUse_framewise.insert index)

theorem balances_remove (index : Int) : Balances (remove index : Run E Unit) :=
  balances_of_respects (sameUse_framewise.remove index)

theorem balances_replace (index : Int) : Balances (replace index : Run E Unit) :=
  balances_of_respects (sameUse_framewise.replace index)

theorem balances_callee (func : Nat) : Balances (callee func : Run E FunctionId) :=
  balances_of_respects (sameUse_framewise.callee func)

end Frame

section Heap

theorem balances_allocCallable (c : Callable E) : Balances (allocCallable c) :=
  balances_modifyGet fun _ => .of_objects rfl

theorem balances_newCallable (c : Callable E) : Balances (newCallable c) := by
  unfold newCallable
  split
  · refine balances_bind (balances_apart fun s => ?_) fun _ => balances_allocCallable c
    dsimp only
    split <;> rfl
  · exact balances_allocCallable c

theorem balances_setRaw (t : TableId) (key v : Value) : Balances (setRaw t key v : Run E Unit) := by
  unfold setRaw
  cases Table.keyFault? key with
  | some e => exact balances_raise e
  | none => exact balances_apart fun _ => rfl

theorem balances_assignMetatable (v : Value) (m : Option TableId) :
    Balances (assignMetatable v m : Run E Unit) := by
  intro s
  simp only [assignMetatable, bind_eq, get_eq]
  cases set : s.heap.setMetatable v m with
  | error e => exact Heap.SameUse.refl s.heap
  | ok h =>
    have same : h.objects = s.heap.objects := by
      rcases Heap.setMetatable_cases set with ⟨x, -, rfl⟩ | ⟨x, -, rfl⟩ <;> rfl
    exact Heap.SameUse.of_objects same

theorem balances_callableOf (f : FunctionId) : Balances (callableOf f : Run E (Callable E)) := by
  refine balances_get_bind fun s => ?_
  cases s.heap.callable? f with
  | some c => exact balances_pure c
  | none => exact balances_raise _

theorem balances_tagOf (u : UserdataId) : Balances (tagOf u : Run E E.Tag) := by
  refine balances_get_bind fun s => ?_
  cases s.heap.userdata? u with
  | some d => exact balances_pure d.tag
  | none => exact balances_raise _

theorem balances_addHooks (t : E.Tag) (name : String) (es : List Event) (x : Table) :
    Balances (addHooks t name es x : Run E Table) := by
  induction es generalizing x with
  | nil => exact balances_pure x
  | cons e es ih => exact balances_bind (balances_allocCallable _) fun f => ih _

theorem balances_bindingFor (H : Host E) (t : E.Tag) : Balances (bindingFor H t) := by
  refine balances_bind (balances_ofExcept _) fun b => ?_
  exact balances_bind (balances_apart fun _ => rfl) fun _ => balances_get_bind fun _ => balances_pure _

theorem balances_install (H : Host E) (t : E.Tag) : Balances (install H t) := by
  refine balances_get_bind fun s => ?_
  cases s.typeMetatable? t with
  | some m => exact balances_pure m
  | none =>
    refine balances_bind (balances_ofExcept _) fun b => ?_
    refine balances_bind (balances_addHooks _ _ _ _) fun x => ?_
    refine balances_bind (balances_modifyGet fun _ => .of_objects rfl) fun m => ?_
    refine balances_get_bind fun s => ?_
    refine balances_bind (balances_apart fun _ => rfl) fun _ => ?_
    exact balances_bind (balances_apart fun _ => rfl) fun _ => balances_pure m

theorem balances_allocObject (t : E.Tag) (x : E.Payload t) : Balances (allocObject t x) :=
  balances_modifyGet fun s => .allocObject s.heap ⟨t, x, {}⟩

theorem balances_converts (H : Host E) : Converts (E := E) H fun _ => Balances where
  pure := balances_pure
  bind := balances_bind
  set _ _ _ := balances_ofExcept _
  binding := balances_bindingFor H
  install := balances_install H
  allocTable _ := balances_modifyGet fun _ => .of_objects rfl
  allocObject := balances_allocObject
  allocUserdata _ := balances_modifyGet fun _ => .of_objects rfl

theorem balances_encode (H : Host E) (s : Shape E.Tag) (x : s.Carrier E) :
    Balances (encode H s x) :=
  converted_encode (balances_converts H) s x

theorem balances_encodeAll (H : Host E) (ss : List (Shape E.Tag)) (xs : Tuple E ss) :
    Balances (encodeAll H ss xs) := by
  induction ss with
  | nil => exact balances_pure ()
  | cons s ss ih =>
    exact balances_bind (balances_encode H s xs.1) fun v =>
      balances_bind (balances_push v) fun _ => ih xs.2

theorem balances_setPayload {t : E.Tag} (r : HostRef E t) (x : E.Payload t) :
    Balances (modifyHeap (·.setPayload r x) : Run E Unit) :=
  balances_modify fun s => .setPayload s.heap r x

theorem balances_noteRun (r : MemberRun E) : Balances (noteRun r) := balances_apart fun _ => rfl

end Heap

section Handlers
variable {t : E.Tag}

theorem balances_instanceAt (binding : String) (index : Int) :
    Balances (instanceAt t binding index : Run E (Instance E t)) := by
  refine balances_get_bind fun s => balances_bind (balances_ofExcept _) fun v => ?_
  cases v with
  | userdata u =>
    simp only
    cases s.heap.refOf t u with
    | ok r => exact balances_pure _
    | error e => exact balances_raise _
  | _ => exact balances_raise _

theorem balances_readField (H : Host E) (f : Field E t) (g : Getter E t f.shape)
    (i : Instance E t) : Balances (readField H f g i) := by
  refine balances_bind (balances_borrowing i.ref .shared ?_) fun x => balances_encode H f.shape x
  exact balances_bind (balances_read _) fun p =>
    balances_bind (balances_noteRun _) fun _ => balances_unlessPanic (g p)

theorem balances_writeField (f : Field E t) (g : Setter E t f.shape)
    (i : Instance E t) (v : Value) : Balances (writeField f g i v) := by
  refine balances_bind (balances_read _) fun x => balances_borrowing i.ref .exclusive ?_
  refine balances_bind (balances_read _) fun p => balances_bind (balances_noteRun _) fun _ => ?_
  exact balances_bind (balances_setPayload _ _) fun _ => balances_unlessPanic _

theorem balances_missingRead (member : String) : Balances (missingRead member : Run E Nat) := by
  refine balances_get_bind fun s => ?_
  cases s.config.missingMember with
  | nil => exact balances_bind (balances_push .nil) fun _ => balances_pure 1
  | raise => exact balances_raise _

theorem balances_refuseWrite (e : Error) : Balances (refuseWrite e : Run E Nat) := by
  refine balances_get_bind fun s => ?_
  cases s.config.missingMember with
  | nil => exact balances_pure 0
  | raise => exact balances_raise e

theorem balances_readMember (H : Host E) (b : Binding E t) : Balances (readMember H t b) := by
  refine balances_bind (balances_instanceAt _ _) fun i => balances_get_bind fun s => ?_
  refine balances_bind (balances_ofExcept _) fun key => ?_
  have pushed (v : Value) : Balances (push v >>= fun _ => pure 1 : Run E Nat) :=
    balances_bind (balances_push v) fun _ => balances_pure 1
  cases key.asString? with
  | none => exact balances_missingRead _
  | some name =>
    simp only
    split
    · exact balances_bind (balances_readField H _ _ i) pushed
    · split
      · exact balances_bind (balances_allocCallable _) fun f => pushed (.function f)
      · exact balances_missingRead name

theorem balances_writeMember (b : Binding E t) : Balances (writeMember t b : Run E Nat) := by
  refine balances_bind (balances_instanceAt _ _) fun i => balances_get_bind fun s => ?_
  refine balances_bind (balances_ofExcept _) fun key => ?_
  refine balances_bind (balances_ofExcept _) fun value => ?_
  cases key.asString? with
  | none => exact balances_refuseWrite _
  | some name =>
    simp only
    cases b.field? name with
    | none => exact balances_refuseWrite _
    | some f =>
      simp only
      cases f.setter with
      | none => exact balances_refuseWrite _
      | some g => exact balances_bind (balances_writeField f g i value) fun _ => balances_pure 0

theorem balances_dropReceiver (m : Method E t) (u : UserdataId) : Balances (dropReceiver m u) :=
  balances_get_bind fun _ => balances_if
    (balances_bind (balances_ofExcept _) fun _ => balances_if (balances_remove 1) (balances_pure ()))
    (balances_pure ())

/-- The operations take and give what they say, and leave other borrows alone. -/
structure Lends {F : Effect} (lends : F.Op → Lending) (step : (o : F.Op) → Run E (F.Answer o)) :
    Prop where
  balances {o : F.Op} : lends o = .none → Balances (step o)
  takes {o : F.Op} {i : ObjectId} {a : Access} : lends o = .takes i a → ∀ s,
    ((s.heap.borrow i).admits a = true ∧ ∃ x, step o s = .ok x (s.modifyBorrow i (·.add a))) ∨
      ∃ e, step o s = .error (.raised e) s
  gives {o : F.Op} {i : ObjectId} {a : Access} : lends o = .gives i a → ∀ s, ∃ x,
    step o s = .ok x (s.modifyBorrow i (·.drop a))

/-- By induction on the program, which holds the more, the later it is in what it borrows. -/
theorem returns_program {F : Effect} {lends : F.Op → Lending} {step : (o : F.Op) → Run E (F.Answer o)}
    (steps : Lends lends step) {p : Prog F α} {held : ObjectId → List Access}
    (returns : p.Returns lends held) {h : Heap E} {s : State E} (lent : h.Lent held s.heap) :
    match program step p s with
    | .ok _ t => h.SameUse t.heap
    | .error (.raised _) t => h.SameUse t.heap
    | .error (.panicked _) _ => True := by
  induction returns generalizing s with
  | done r => cases r <;> exact lent.sameUse
  | abort held p => trivial
  | @perform held o next apart _ rest =>
    have ended := steps.balances apart s
    rw [program, proceed]
    revert ended
    cases step o s with
    | ok a u => exact fun same => rest (.ok a) (lent.after same)
    | error e u =>
      cases e with
      | raised e => exact fun same => rest (.error e) (lent.after same)
      | panicked p => exact fun _ => trivial
  | @takes held o next i a took _ _ taken refused =>
    rw [program, proceed]
    rcases steps.takes took s with ⟨admitted, x, ran⟩ | ⟨e, ran⟩
    · rw [ran]
      exact taken x (lent.acquire admitted)
    · rw [ran]
      exact refused e lent
  | @gives held o next i a gave listed _ rest =>
    obtain ⟨x, ran⟩ := steps.gives gave s
    rw [program, proceed, ran]
    exact rest (.ok x) (lent.release listed)

section Bodies
variable (go : Runner E) (runs : Lends (F := Op.effect E) Op.lending go)
include runs

/-- A program that ends its borrows leaves the objects borrowed as they were. -/
theorem balances_act {a : Action E α} (balanced : a.Balanced) : Balances (act go a) :=
  fun _ => returns_program runs balanced (.of_sameUse (.refl _))

theorem lends_instanceStep (r : HostRef E t) :
    Lends (F := Mutation.effect E t) InstanceOp.lending (instanceStep go r) where
  balances {o} apart := by
    cases o with
    | act o => exact runs.balances apart
    | get => exact balances_read _
    | set x => exact balances_setPayload r x
  takes {o} _ _ took s := by
    cases o with
    | act o => exact runs.takes took s
    | get | set x => cases took
  gives {o} _ _ gave s := by
    cases o with
    | act o => exact runs.gives gave s
    | get | set x => cases gave

theorem balances_runOperator {result : Shape E.Tag} (left right : Instance E t)
    (body : OperatorBody E t result) (balanced : body.Balanced) :
    Balances (runOperator go left right body) := by
  cases body with
  | binary f =>
    refine balances_borrowing left.ref .shared (balances_borrowing right.ref .shared ?_)
    refine balances_bind (balances_read _) fun x => balances_bind (balances_read _) fun y => ?_
    exact balances_bind (balances_noteRun _) fun _ => balances_act go runs (balanced x y)
  | unary f =>
    refine balances_borrowing left.ref .shared (balances_bind (balances_read _) fun x => ?_)
    exact balances_bind (balances_noteRun _) fun _ => balances_act go runs (balanced x)

theorem balances_mutate (i : Instance E t) {body : Mutation E t α} (balanced : body.Balanced) :
    Balances (mutate go i body) := by
  refine balances_bind (balances_noteRun _) fun _ s => ?_
  exact returns_program (lends_instanceStep go runs i.ref) balanced (.of_sameUse (.refl _))

theorem balances_runBody {params results : List (Shape E.Tag)} (i : Instance E t)
    (xs : Tuple E params) (body : MethodBody E t params results) (balanced : body.Balanced) :
    Balances (runBody go i xs body) := by
  cases body with
  | receiver f =>
    refine balances_borrowing i.ref .shared (balances_bind (balances_read _) fun x => ?_)
    exact balances_bind (balances_noteRun _) fun _ => balances_act go runs (balanced x xs)
  | mutReceiver f =>
    exact balances_borrowing i.ref .exclusive (balances_mutate go runs i (balanced xs))
  | function f => exact balances_bind (balances_noteRun _) fun _ => balances_act go runs (balanced xs)

theorem balances_runMethod (H : Host E) (m : Method E t) (balanced : m.body.Balanced)
    (i : Instance E t) : Balances (runMethod go H m i) := by
  refine balances_bind (balances_setTop _) fun _ => balances_bind (balances_read _) fun xs => ?_
  refine balances_bind (balances_runBody go runs i xs m.body balanced) fun results => ?_
  exact balances_bind (balances_encodeAll H _ results) fun _ => balances_pure _

variable {H : Host E} (balanced : H.Balanced)
include balanced

theorem balances_operate {b : Binding E t} (bound : H.binding t = .ok b) (e : Event) :
    Balances (operate go H t b e) := by
  unfold operate
  cases declared : b.operator? e with
  | none => exact balances_raise _
  | some o =>
    have such := balanced.operator t b bound o (List.mem_of_find?_eq_some declared)
    refine balances_bind (balances_instanceAt _ _) fun left => ?_
    refine balances_bind (balances_if (balances_pure left) (balances_instanceAt _ _)) fun right => ?_
    refine balances_bind (balances_runOperator go runs left right o.body such) fun x => ?_
    exact balances_bind (balances_encode H o.result x) fun v =>
      balances_bind (balances_push v) fun _ => balances_pure 1

theorem balances_handle (t : E.Tag) (e : Event) : Balances (handle go H t e) := by
  unfold handle
  cases bound : H.binding t with
  | error fault => exact balances_raise fault
  | ok b =>
    rw [ofExcept_ok, pure_bind]
    cases e with
    | index => exact balances_readMember H b
    | newIndex => exact balances_writeMember b
    | _ => exact balances_operate go runs balanced bound _

theorem balances_callMethod (t : E.Tag) (index : Nat) (u : UserdataId) :
    Balances (callMethod go H t index u) := by
  unfold callMethod
  cases bound : H.binding t with
  | error fault => exact balances_raise fault
  | ok b =>
    rw [ofExcept_ok, pure_bind]
    cases declared : b.methods[index]? with
    | none => exact balances_raise _
    | some m =>
      have such := balanced.method t b bound m (List.mem_of_getElem? declared)
      exact balances_bind (balances_dropReceiver m u) fun _ =>
        balances_bind (balances_read _) fun r => balances_runMethod go runs H m such ⟨u, r⟩

theorem balances_runClosure (code : E.Closure) : Balances (runClosure go H code) := by
  refine balances_bind (balances_setTop _) fun _ => balances_bind (balances_read _) fun xs => ?_
  refine balances_bind (balances_act go runs (balanced.closure code xs)) fun results => ?_
  exact balances_bind (balances_encodeAll H _ results) fun _ => balances_pure _

theorem balances_runEntry (entry : Entry E) : Balances (runEntry go H entry) := by
  cases entry with
  | native code => exact balances_act go runs (balanced.native code)
  | closure code => exact balances_runClosure go runs balanced code
  | hook t e => exact balances_handle go runs balanced t e
  | method t i u => exact balances_callMethod go runs balanced t i u
  | foreign expected => exact balances_raise _

end Bodies

end Handlers

end Run
end HostBridge
