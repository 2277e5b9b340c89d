import HostBridge.Proofs.Access.Policy
import HostBridge.Proofs.Call.Arguments
import HostBridge.Proofs.Call.Balance

namespace HostBridge

theorem Borrow.drop_add {b : Borrow} {a : Access} (admitted : b.admits a = true) :
    (b.add a).drop a = b := by
  obtain ⟨readers, writer⟩ := b
  cases a with
  | shared => rfl
  | exclusive =>
    simp only [admits, Bool.and_eq_true, Bool.not_eq_true'] at admitted
    simp only [add, drop, admitted.1]

theorem Heap.drop_add {E : Embedding} {h : Heap E} {o : ObjectId} {a : Access}
    (admitted : (h.borrow o).admits a = true) :
    (h.modifyBorrow o (·.add a)).modifyBorrow o (·.drop a) = h := by
  have objects : ((h.modifyBorrow o (·.add a)).modifyBorrow o (·.drop a)).objects = h.objects := by
    refine Array.ext_getElem? fun i => ?_
    simp only [modifyBorrow, Array.getElem?_modify]
    by_cases here : o.index = i
    · subst here
      simp only [if_true, borrow, object?] at admitted ⊢
      cases found : h.objects[o.index]? with
      | none => rfl
      | some x =>
        rw [found] at admitted
        simp [Borrow.drop_add admitted]
    · simp [here]
  calc (h.modifyBorrow o (·.add a)).modifyBorrow o (·.drop a)
      = { h with objects := ((h.modifyBorrow o (·.add a)).modifyBorrow o (·.drop a)).objects } := rfl
    _ = h := by rw [objects]

namespace State
variable {E : Embedding} {H : Host E} {s t u : State E}

/-- The state is the same but for what lies on the stack. -/
def Untouched (s t : State E) : Prop := ∃ slots peak, t = s.holding slots peak

theorem Untouched.refl (s : State E) : s.Untouched s := ⟨s.stack.slots, s.peak, rfl⟩

theorem Untouched.trans (first : s.Untouched t) (second : t.Untouched u) : s.Untouched u := by
  obtain ⟨_, _, rfl⟩ := first
  obtain ⟨slots, peak, rfl⟩ := second
  exact ⟨slots, peak, rfl⟩

theorem untouched_mapSlots (s : State E) (f : Array Value → Array Value) :
    s.Untouched (s.mapSlots f) := ⟨_, _, rfl⟩

theorem Untouched.heap (same : s.Untouched t) : t.heap = s.heap := by
  obtain ⟨_, _, rfl⟩ := same
  rfl

theorem Untouched.memberRuns (same : s.Untouched t) : t.memberRuns = s.memberRuns := by
  obtain ⟨_, _, rfl⟩ := same
  rfl

theorem Change.memberRuns_append (change : Change H s t) :
    ∃ later, t.memberRuns = later ++ s.memberRuns := by
  cases change with
  | memberRun r operands tagged => exact ⟨[r], rfl⟩
  | _ => exact ⟨[], rfl⟩

theorem Changes.memberRuns_append (changes : s.Changes H t) :
    ∃ later, t.memberRuns = later ++ s.memberRuns := by
  refine changes.keep (P := fun t => ∃ later, t.memberRuns = later ++ s.memberRuns) ?_ ⟨[], rfl⟩
  rintro t u change ⟨earlier, before⟩
  obtain ⟨later, after⟩ := change.memberRuns_append
  exact ⟨later ++ earlier, by rw [after, before, List.append_assoc]⟩

end State

namespace Run
open State
variable {E : Embedding} {H : Host E} {α β : Type} {t : E.Tag}

/-- When the run that begins at `start` has ended, a run of member code is on record that `s` does
not know. -/
def Records (member : MemberRun E) (m : Run E α) (start s : State E) : Prop :=
  ∃ later, (m.final start).memberRuns = later ++ s.memberRuns ∧ member ∈ later

/-- The run that begins at `start` fails, and where it ends, nothing has changed since `s`. -/
def Refused (e : Error) (m : Run E α) (start s : State E) : Prop :=
  ∃ u, s.Untouched u ∧ m start = .error (.raised e) u

/-- A run that borrows the objects behind `asked`, seen from `s` where it does: if all of them admit
the access then it runs the code of a member, and otherwise it fails. -/
structure Guarded (asked : List (HostRef E t)) (a : Access) (member : MemberRun E) (m : Run E α)
    (start s : State E) : Prop where
  through : (∀ r ∈ asked, (s.heap.borrow r.object).admits a = true) → Records member m start s
  refused : ∀ r ∈ asked, (s.heap.borrow r.object).admits a = false →
    Refused (.instanceBorrowed (E.tagName t)) m start s

section Rules
variable {member : MemberRun E} {asked : List (HostRef E t)} {a : Access} {e : Error}
  {start start' s s' : State E} {m m' : Run E α} {f : α → Run E β}

theorem Records.bind (records : Records member m start s)
    (rest : ∀ x, Respects (Evolves H) (f x)) : Records member (m >>= f) start s := by
  obtain ⟨later, recorded, listed⟩ := records
  cases ran : m start with
  | error e u =>
    have same : (m >>= f).final start = m.final start := by simp only [final, bind_eq, ran]
    exact ⟨later, same ▸ recorded, listed⟩
  | ok x u =>
    have goesOn : (m >>= f).final start = (f x).final u := by simp only [final, bind_eq, ran]
    obtain ⟨more, after⟩ := (rest x u).changes.memberRuns_append
    refine ⟨more ++ later, ?_, List.mem_append_right _ listed⟩
    rw [goesOn, after, ← final_of_ok ran, recorded, List.append_assoc]

theorem Records.congr (same : m start = m' start') (records : Records member m' start' s) :
    Records member m start s := by
  obtain ⟨later, recorded, listed⟩ := records
  exact ⟨later, by rwa [final, same], listed⟩

theorem Records.catchPanics {m : Run E Nat} (records : Records member m start s) (name : String) :
    Records member (catchPanics name m) start s := by
  obtain ⟨later, recorded, listed⟩ := records
  refine ⟨later, ?_, listed⟩
  rw [← recorded]
  simp only [final, Run.catchPanics]
  cases start.config.catchPanics with
  | false => rfl
  | true =>
    cases m start with
    | ok n u => rfl
    | error e u => cases e <;> rfl

theorem read_bind_of_ok {g : State E → Except Error α} {x : α} (found : g s = .ok x) :
    (read g >>= f) s = f x s := by
  rw [bind_eq, read_eq, found]
  rfl

theorem records_noteRun (member : MemberRun E) (s : State E) :
    Records member (noteRun member) s s := ⟨[member], rfl, .head _⟩

theorem records_on_payload {r : HostRef E t} (backs : start.heap.Backs r)
    {code : E.Payload t → Run E β} (records : ∀ x, Records member (code x) start s) :
    Records member (read (·.heap.payload r) >>= code) start s := by
  obtain ⟨x, found⟩ := Heap.payload_of_backs backs
  exact (records x).congr (read_bind_of_ok found)

theorem Refused.bind (refused : Refused e m start s) : Refused e (m >>= f) start s := by
  obtain ⟨u, same, ran⟩ := refused
  exact ⟨u, same, by rw [bind_eq, ran]⟩

theorem Refused.congr (same : m start = m' start') (refused : Refused e m' start' s) :
    Refused e m start s := by
  obtain ⟨u, untouched, ran⟩ := refused
  exact ⟨u, untouched, same.trans ran⟩

theorem Refused.catchPanics {m : Run E Nat} (refused : Refused e m start s) (name : String) :
    Refused e (catchPanics name m) start s := by
  obtain ⟨u, same, ran⟩ := refused
  exact ⟨u, same, catchPanics_of_raised name ran⟩

theorem Refused.of_untouched (same : s.Untouched s') (refused : Refused e m start s') :
    Refused e m start s := by
  obtain ⟨u, after, ran⟩ := refused
  exact ⟨u, same.trans after, ran⟩

theorem Guarded.bind (guarded : Guarded asked a member m start s)
    (rest : ∀ x, Respects (Evolves H) (f x)) : Guarded asked a member (m >>= f) start s where
  through admitted := (guarded.through admitted).bind rest
  refused r listed busy := (guarded.refused r listed busy).bind

theorem Guarded.congr (same : m start = m' start') (guarded : Guarded asked a member m' start' s) :
    Guarded asked a member m start s where
  through admitted := (guarded.through admitted).congr same
  refused r listed busy := (guarded.refused r listed busy).congr same

theorem Guarded.catchPanics {m : Run E Nat} (guarded : Guarded asked a member m start s)
    (name : String) : Guarded asked a member (catchPanics name m) start s where
  through admitted := (guarded.through admitted).catchPanics name
  refused r listed busy := (guarded.refused r listed busy).catchPanics name

/-- What lies on the stack where the objects are borrowed makes no difference. -/
theorem Guarded.of_untouched (same : s.Untouched s') (guarded : Guarded asked a member m start s') :
    Guarded asked a member m start s where
  through admitted := by
    obtain ⟨later, recorded, listed⟩ := guarded.through (same.heap ▸ admitted)
    exact ⟨later, same.memberRuns ▸ recorded, listed⟩
  refused r listed busy := (guarded.refused r listed (same.heap ▸ busy)).of_untouched same

theorem guarded_nothing (a : Access) (records : Records member m s s) :
    Guarded ([] : List (HostRef E t)) a member m s s where
  through _ := records
  refused _ := nofun

theorem final_borrowing (r : HostRef E t) (m : Run E α)
    (admitted : (s.heap.borrow r.object).admits a = true) :
    (borrowing r a m).final s =
      (m.final (s.modifyBorrow r.object (·.add a))).modifyBorrow r.object (·.drop a) := by
  rw [final, borrowing_eq, if_pos admitted, final]
  cases m (s.modifyBorrow r.object (·.add a)) <;> rfl

theorem guarded_borrowing (r : HostRef E t) (a : Access)
    (records : Records member m (s.modifyBorrow r.object (·.add a)) s) :
    Guarded [r] a member (borrowing r a m) s s where
  through admitted := by
    obtain ⟨later, recorded, listed⟩ := records
    refine ⟨later, ?_, listed⟩
    rw [final_borrowing r m (admitted r (.head _))]
    exact recorded
  refused q listed busy := by
    cases List.mem_singleton.mp listed
    refine ⟨s, .refl s, ?_⟩
    rw [borrowing_eq, if_neg (Bool.eq_false_iff.mp busy)]

/-- Two objects that are read at once, or one twice. The first is given back if the second one is in
use. -/
theorem guarded_borrowing_pair (l r : HostRef E t)
    (records : Records member m ((s.modifyBorrow l.object (·.add .shared)).modifyBorrow r.object
      (·.add .shared)) s) :
    Guarded [l, r] .shared member (borrowing l .shared (borrowing r .shared m)) s s := by
  have other : ((s.modifyBorrow l.object (·.add .shared)).heap.borrow r.object).admits .shared =
      (s.heap.borrow r.object).admits .shared := by
    refine (congrArg (·.admits .shared) (s.heap.borrow_modifyBorrow l.object _ r.object)).trans ?_
    split
    · exact Borrow.admits_add_shared _
    · rfl
  refine ⟨fun admitted => ?_, fun q listed busy => ?_⟩
  · obtain ⟨later, recorded, listed⟩ := records
    refine ⟨later, ?_, listed⟩
    have second := admitted r (.tail _ (.head _))
    rw [final_borrowing l _ (admitted l (.head _)), final_borrowing r m (other.trans second)]
    exact recorded
  · cases first : (s.heap.borrow l.object).admits .shared with
    | false =>
      refine ⟨s, .refl s, ?_⟩
      rw [borrowing_eq, if_neg (Bool.eq_false_iff.mp first)]
    | true =>
      have second : (s.heap.borrow r.object).admits .shared = false := by
        rcases List.mem_pair.mp listed with rfl | rfl
        · rw [first] at busy
          cases busy
        · exact busy
      have given : (s.modifyBorrow l.object (·.add .shared)).modifyBorrow l.object (·.drop .shared) =
          s := by
        unfold State.modifyBorrow
        simp only [Heap.drop_add first]
      refine ⟨s, .refl s, ?_⟩
      rw [borrowing_eq, if_pos first, borrowing_eq, other, second]
      simp only [Bool.false_eq_true, if_false, given]

end Rules

theorem backs_modifyBorrow {H : Host E} {s : State E} {r : HostRef E t} (backs : s.heap.Backs r)
    (o : ObjectId) (f : Borrow → Borrow) : (s.modifyBorrow o f).heap.Backs r :=
  (Change.borrow (H := H) o f).changes.backs backs

section Fields
variable {b : Binding E t} {s : State E} {r : HostRef E t} {f : Field E t} (backs : s.heap.Backs r)
  (u : UserdataId)
include backs

theorem guarded_readField (H : Host E) (g : Getter E t f.shape) :
    Guarded [r] .shared ⟨t, .getter, [u]⟩ (readField H f g ⟨u, r⟩) s s := by
  refine Guarded.bind (H := H) (guarded_borrowing r .shared ?_) fun x => evolves_encode f.shape x
  refine records_on_payload (backs_modifyBorrow (H := H) backs _ _) fun x => ?_
  exact Records.bind (H := H) (records_noteRun _ _) fun _ => evolves_unlessPanic _

theorem guarded_writeField (H : Host E) (g : Setter E t f.shape) {v : Value}
    {x : f.shape.Carrier E} (decodes : s.decode f.shape v = .ok x) :
    Guarded [r] .exclusive ⟨t, .setter, [u]⟩ (writeField f g ⟨u, r⟩ v) s s := by
  refine Guarded.congr (read_bind_of_ok decodes) (guarded_borrowing r .exclusive ?_)
  refine records_on_payload (backs_modifyBorrow (H := H) backs _ _) fun y => ?_
  refine Records.bind (H := H) (records_noteRun _ _) fun _ => ?_
  exact evolves_bind (evolves_setPayload _ _) fun _ => evolves_unlessPanic _

end Fields

section Operators
variable {s : State E} (go : Runner E)
  (goes : ∀ o, Respects (Evolves H) (go o))
include goes

theorem guarded_binary {result : Shape E.Tag}
    (f : E.Payload t → E.Payload t → Action E (result.Carrier E)) {u w : UserdataId}
    {l r : HostRef E t} (left : s.heap.Backs l) (right : s.heap.Backs r) :
    Guarded [l, r] .shared ⟨t, .binaryOperator, [u, w]⟩
      (runOperator go ⟨u, l⟩ ⟨w, r⟩ (.binary f)) s s := by
  refine guarded_borrowing_pair l r ?_
  have lent (q : HostRef E t) (backs : s.heap.Backs q) :=
    backs_modifyBorrow (H := H) (backs_modifyBorrow (H := H) backs l.object (·.add .shared))
      r.object (·.add .shared)
  refine records_on_payload (lent l left) fun x => records_on_payload (lent r right) fun y => ?_
  exact Records.bind (H := H) (records_noteRun _ _) fun _ => evolves_act go goes _

theorem guarded_unary {result : Shape E.Tag} (f : E.Payload t → Action E (result.Carrier E))
    {u : UserdataId} {r : HostRef E t} (right : Instance E t) (backs : s.heap.Backs r) :
    Guarded [r] .shared ⟨t, .unaryOperator, [u]⟩ (runOperator go ⟨u, r⟩ right (.unary f)) s s := by
  refine guarded_borrowing r .shared ?_
  refine records_on_payload (backs_modifyBorrow (H := H) backs _ _) fun x => ?_
  exact Records.bind (H := H) (records_noteRun _ _) fun _ => evolves_act go goes _

end Operators

end Run

def MethodBody.access {E : Embedding} {t : E.Tag} {args results : List (Shape E.Tag)} :
    MethodBody E t args results → Access
  | .mutReceiver _ => .exclusive
  | _ => .shared

/-- The objects that it borrows: a function that belongs to a type does not use its instance. -/
def MethodBody.borrows {E : Embedding} {t : E.Tag} {args results : List (Shape E.Tag)}
    (r : HostRef E t) : MethodBody E t args results → List (HostRef E t)
  | .function _ => []
  | _ => [r]

namespace Run
open State
variable {E : Embedding} {H : Host E} {t : E.Tag}

section Methods
variable {s : State E} (go : Runner E)
  (goes : ∀ o, Respects (Evolves H) (go o))
include goes

theorem guarded_runBody {params results : List (Shape E.Tag)} {u : UserdataId} {r : HostRef E t}
    {body : MethodBody E t params results} (backs : r ∈ body.borrows r → s.heap.Backs r)
    (args : Tuple E params) :
    Guarded (body.borrows r) body.access ⟨t, .method, [u]⟩ (runBody go ⟨u, r⟩ args body) s s := by
  have noted {α : Type} {start : State E} {rest : Run E α} (goesOn : Respects (Evolves H) rest) :
      Records ⟨t, .method, [u]⟩ (noteRun ⟨t, .method, [u]⟩ >>= fun _ => rest) start start :=
    Records.bind (H := H) (records_noteRun _ _) fun _ => goesOn
  cases body with
  | receiver f =>
    refine guarded_borrowing r .shared ?_
    refine records_on_payload (backs_modifyBorrow (H := H) (backs (.head _)) _ _) fun x => ?_
    exact noted (evolves_act go goes _)
  | mutReceiver f =>
    refine guarded_borrowing r .exclusive ?_
    exact noted (evolves_program (evolves_instanceStep go goes r) (f args))
  | function f => exact guarded_nothing _ (noted (evolves_act go goes _))

omit goes in
/-- The values that are left when a receiver in front of them is dropped. -/
def received (m : Method E t) (u : UserdataId) (args : List Value) : List Value :=
  if mayHoldReceiver m args.length ∧ args.head? = some (.userdata u) then args.tail else args

omit goes in
/-- A method works on the values that it is passed, cut or padded to the number that it declares. -/
theorem callMethod_of_passed {m : Method E t} {u : UserdataId} {r : HostRef E t} {b : Binding E t}
    {k : Nat} (bound : H.binding t = .ok b) (declared : b.methods[k]? = some m)
    (found : s.heap.refOf t u = .ok r) {low : Array Value} {args : List Value}
    (base : s.base = low.size) (slots : s.stack.slots = low ++ args.toArray)
    (room : s.base + m.params.count ≤ s.stack.maxDepth) :
    ∃ s', s.Untouched s' ∧
      s'.stack.slots = low ++ (normalized m.params.count (received m u args)).toArray ∧
      callMethod go H t k u s = (read (·.decodeTop m.params.shapes) >>= fun xs =>
        runBody go ⟨u, r⟩ xs m.body >>= fun ys =>
          encodeAll H m.results.shapes ys >>= fun _ => pure m.results.count) s' := by
  obtain ⟨s₁, untouched, slots₁, dropped⟩ : ∃ s₁, s.Untouched s₁ ∧
      s₁.stack.slots = low ++ (received m u args).toArray ∧ dropReceiver m u s = .ok () s₁ := by
    unfold received
    by_cases first : mayHoldReceiver m args.length = true ∧ args.head? = some (.userdata u)
    · obtain ⟨may, head⟩ := first
      obtain ⟨rest, rfl⟩ := List.head?_eq_some_iff.mp head
      rw [if_pos ⟨may, head⟩]
      exact ⟨_, untouched_mapSlots s _, rfl, dropReceiver_of_first base slots may⟩
    · rw [if_neg first]
      exact ⟨s, .refl s, slots, dropReceiver_of_other base slots fun may head => first ⟨may, head⟩⟩
  obtain ⟨held, peak, rfl⟩ := untouched
  have cut := setTop_eq_of_slots slots₁ base room
  let frame := low ++ (normalized m.params.count (received m u args)).toArray
  have kept : s.Untouched ((s.holding held peak).mapSlots fun _ => frame) :=
    Untouched.trans ⟨held, peak, rfl⟩ (untouched_mapSlots _ _)
  refine ⟨_, kept, rfl, ?_⟩
  have found' : (s.holding held peak).heap.refOf t u = .ok r := found
  simp only [callMethod, bind_eq, bound, ofExcept_ok, pure_eq, declared, dropped, read_eq, found']
  simp only [runMethod, bind_eq, cut, read_eq]
  rfl

end Methods

end Run

namespace State
variable {E : Embedding} {t : E.Tag}

/-- The operands that the handler of an operator finds among its arguments; a unary operator has one
operand, which is both. -/
def Operands (e : Event) (args : List Value) (u w : UserdataId) : Prop :=
  args[0]? = some (.userdata u) ∧ if e.isUnary then w = u else args[1]? = some (.userdata w)

/-- A call with `args`, on a frame that begins at `base`, comes to the code of a member: the objects
that it borrows before, for which access, and what it puts on record then. -/
inductive Asks (H : Host E) (s : State E) (base : Nat) (args : List Value) :
    Entry E → List (HostRef E t) → Access → MemberRun E → Prop
  | getter {b : Binding E t} {f : Field E t} {g : Getter E t f.shape} {name : String}
      {u : UserdataId} {r : HostRef E t} (bound : H.binding t = .ok b)
      (field : b.field? name = some f) (getter : f.getter = some g)
      (given : args = [.userdata u, .string name]) (found : s.heap.refOf t u = .ok r) :
      Asks H s base args (.hook t .index) [r] .shared ⟨t, .getter, [u]⟩
  | setter {b : Binding E t} {f : Field E t}
      {g : Setter E t f.shape} {name : String} {u : UserdataId}
      {r : HostRef E t} {v : Value} {x : f.shape.Carrier E} (bound : H.binding t = .ok b)
      (field : b.field? name = some f) (setter : f.setter = some g)
      (given : args = [.userdata u, .string name, v]) (found : s.heap.refOf t u = .ok r)
      (decodes : s.decode f.shape v = .ok x) :
      Asks H s base args (.hook t .newIndex) [r] .exclusive ⟨t, .setter, [u]⟩
  | binary {b : Binding E t} {e : Event} {result : Shape E.Tag}
      {f : E.Payload t → E.Payload t → Action E (result.Carrier E)} {u w : UserdataId}
      {l r : HostRef E t} (bound : H.binding t = .ok b)
      (declared : b.operator? e = some ⟨e, result, .binary f⟩)
      (operator : e ≠ .index ∧ e ≠ .newIndex) (operands : Operands e args u w)
      (left : s.heap.refOf t u = .ok l) (right : s.heap.refOf t w = .ok r) :
      Asks H s base args (.hook t e) [l, r] .shared ⟨t, .binaryOperator, [u, w]⟩
  | unary {b : Binding E t} {e : Event} {result : Shape E.Tag}
      {f : E.Payload t → Action E (result.Carrier E)} {u w : UserdataId} {l r : HostRef E t}
      (bound : H.binding t = .ok b) (declared : b.operator? e = some ⟨e, result, .unary f⟩)
      (operator : e ≠ .index ∧ e ≠ .newIndex) (operands : Operands e args u w)
      (left : s.heap.refOf t u = .ok l) (right : s.heap.refOf t w = .ok r) :
      Asks H s base args (.hook t e) [l] .shared ⟨t, .unaryOperator, [u]⟩
  | method {b : Binding E t} {m : Method E t} {k : Nat} {u : UserdataId} {r : HostRef E t}
      (bound : H.binding t = .ok b) (declared : b.methods[k]? = some m)
      (found : s.heap.refOf t u = .ok r) (room : base + m.params.count ≤ s.stack.maxDepth)
      (decodes : ∀ i, ∀ h : i < m.params.shapes.length, ∃ x : m.params.shapes[i].Carrier E,
        s.decode m.params.shapes[i]
          ((Run.normalized m.params.count (Run.received m u args)).getD i .nil) = .ok x) :
      Asks H s base args (.method t k u) (m.body.borrows r) m.body.access ⟨t, .method, [u]⟩

/-- A call with `args` comes to a member that takes no such arguments: `e` is the error of the first
one that cannot be decoded. -/
inductive Misgives (H : Host E) (s : State E) (base : Nat) (args : List Value) :
    Entry E → Error → Prop
  | setter {t : E.Tag} {b : Binding E t} {f : Field E t}
      {g : Setter E t f.shape} {name : String} {u : UserdataId}
      {r : HostRef E t} {v : Value} {e : Error} (bound : H.binding t = .ok b)
      (field : b.field? name = some f) (setter : f.setter = some g)
      (given : args = [.userdata u, .string name, v]) (found : s.heap.refOf t u = .ok r)
      (fails : s.decode f.shape v = .error e) : Misgives H s base args (.hook t .newIndex) e
  | method {t : E.Tag} {b : Binding E t} {m : Method E t} {k i : Nat} {u : UserdataId}
      {r : HostRef E t} {e : Error} (bound : H.binding t = .ok b)
      (declared : b.methods[k]? = some m) (found : s.heap.refOf t u = .ok r)
      (room : base + m.params.count ≤ s.stack.maxDepth) (h : i < m.params.shapes.length)
      (earlier : ∀ j, ∀ h : j < m.params.shapes.length, j < i → ∃ x : m.params.shapes[j].Carrier E,
        s.decode m.params.shapes[j]
          ((Run.normalized m.params.count (Run.received m u args)).getD j .nil) = .ok x)
      (fails : s.decode m.params.shapes[i]
        ((Run.normalized m.params.count (Run.received m u args)).getD i .nil) = .error e) :
      Misgives H s base args (.method t k u) e

variable {H : Host E} {s s' : State E} {base : Nat} {args : List Value} {entry : Entry E}

/-- Nothing of that depends on what else is on the stack, or on how deep the call is. -/
theorem Asks.congr {asked : List (HostRef E t)} {a : Access} {member : MemberRun E}
    (heap : s'.heap = s.heap) (config : s'.config = s.config)
    (limit : s'.stack.maxDepth = s.stack.maxDepth) (asks : Asks H s base args entry asked a member) :
    Asks H s' base args entry asked a member := by
  have decode : s'.decode = s.decode := by
    funext shape v
    rw [State.decode, State.decode, heap, config]
  cases asks with
  | getter bound field getter given found => exact .getter bound field getter given (heap ▸ found)
  | setter bound field setter given found decodes =>
    exact .setter bound field setter given (heap ▸ found) (decode ▸ decodes)
  | binary bound declared operator operands left right =>
    exact .binary bound declared operator operands (heap ▸ left) (heap ▸ right)
  | unary bound declared operator operands left right =>
    exact .unary bound declared operator operands (heap ▸ left) (heap ▸ right)
  | method bound declared found room decodes =>
    exact .method bound declared (heap ▸ found) (limit ▸ room) (decode ▸ decodes)

theorem Misgives.congr {e : Error} (heap : s'.heap = s.heap) (config : s'.config = s.config)
    (limit : s'.stack.maxDepth = s.stack.maxDepth) (misgives : Misgives H s base args entry e) :
    Misgives H s' base args entry e := by
  have decode : s'.decode = s.decode := by
    funext shape v
    rw [State.decode, State.decode, heap, config]
  cases misgives with
  | setter bound field setter given found fails =>
    exact .setter bound field setter given (heap ▸ found) (decode ▸ fails)
  | method bound declared found room inside earlier fails =>
    exact .method bound declared (heap ▸ found) (limit ▸ room) inside (decode ▸ earlier)
      (decode ▸ fails)

end State

namespace Run
open State
variable {E : Embedding} {H : Host E} {t : E.Tag} {s : State E}

theorem enter_known {g : FunctionId} {name : String} {entry : Entry E}
    (known : s.heap.callable? g = some ⟨name, entry⟩) (d : Nat) :
    enter H (d + 1) g s =
      catchPanics name (runEntry (perform (enter H d) H) H entry) s := by
  have found : callableOf g s = .ok ⟨name, entry⟩ s := by
    simp only [callableOf, bind_eq, get_eq, known, pure_eq]
  rw [enter, bind_eq, found]

theorem handle_operate (go : Runner E) {b : Binding E t} (bound : H.binding t = .ok b) {e : Event}
    (operator : e ≠ .index ∧ e ≠ .newIndex) : handle go H t e = operate go H t b e := by
  rw [handle, bound, ofExcept_ok, pure_bind]
  cases e <;> first | rfl | exact absurd rfl operator.1 | exact absurd rfl operator.2

section Entered
variable {low : Array Value} {args : List Value} (base : s.base = low.size)
  (slots : s.stack.slots = low ++ args.toArray)
include base slots

theorem operands_found (b : Binding E t) {e : Event} {u w : UserdataId} {l r : HostRef E t}
    (operands : Operands e args u w) (left : s.heap.refOf t u = .ok l)
    (right : s.heap.refOf t w = .ok r) :
    instanceAt t b.name 1 s = .ok ⟨u, l⟩ s ∧ rightOperand b e ⟨u, l⟩ s = .ok ⟨w, r⟩ s := by
  obtain ⟨first, second⟩ := operands
  have one : s.slot 1 = .ok (.userdata u) := slot_of_frame slots base first rfl
  refine ⟨by simp only [instanceAt_eq, one, left], ?_⟩
  unfold rightOperand
  cases unary : e.isUnary with
  | true =>
    rw [unary, if_pos rfl] at second
    subst second
    rw [left] at right
    cases right
    rfl
  | false =>
    rw [unary] at second
    have two : s.slot 2 = .ok (.userdata w) := slot_of_frame slots base second rfl
    simp only [Bool.false_eq_true, if_false, instanceAt_eq, two, right]

theorem operate_eq (go : Runner E) {b : Binding E t} {e : Event} {o : Operator E t}
    (declared : b.operator? e = some o) {u w : UserdataId} {l r : HostRef E t}
    (operands : Operands e args u w) (left : s.heap.refOf t u = .ok l)
    (right : s.heap.refOf t w = .ok r) :
    operate go H t b e s = (runOperator go ⟨u, l⟩ ⟨w, r⟩ o.body >>= fun x =>
      encode H o.result x >>= fun v => push v >>= fun _ => pure 1) s := by
  obtain ⟨first, second⟩ := operands_found base slots b operands left right
  simp only [operate, declared, bind_eq, first, second]

theorem enter_misgiven {g : FunctionId} {name : String} {entry : Entry E}
    (known : s.heap.callable? g = some ⟨name, entry⟩) {e : Error}
    (misgives : Misgives H s low.size args entry e) (d : Nat) :
    Refused e (enter H (d + 1) g) s s := by
  refine Refused.congr (enter_known known d) (Refused.catchPanics ?_ name)
  cases misgives with
  | @setter t b f g field u r v e bound found setter given own fails =>
    subst given
    have writes := writeMember_field base slots rfl found setter own
    refine Refused.congr ((congrFun (handle_newIndex (perform (enter H d) H) bound) s).trans writes) ?_
    refine Refused.bind ⟨s, .refl s, ?_⟩
    rw [writeField, bind_eq, read_eq, fails]
    rfl
  | @method t b m k i u r e bound declared own room inside earlier fails =>
    obtain ⟨s', untouched, slots', runs⟩ := callMethod_of_passed (perform (enter H d) H) bound
      declared own base slots (base ▸ room)
    refine Refused.congr runs (Refused.bind ?_)
    obtain ⟨held, peak, rfl⟩ := untouched
    refine ⟨s.holding held peak, ⟨held, peak, rfl⟩, ?_⟩
    rcases decodeTop_cases m.params.shapes (length_normalized _ _) slots' (Nat.le_of_eq base) with
      ⟨j, within, e', fails', before, failed⟩ | ⟨xs, decoded, -⟩
    · -- The first error is the first error, however it is found.
      have same : i = j := by
        rcases Nat.lt_trichotomy i j with less | same | more
        · obtain ⟨x, fine⟩ := before i inside less
          cases fails.symm.trans fine
        · exact same
        · obtain ⟨x, fine⟩ := earlier j within more
          cases fails'.symm.trans fine
      subst same
      cases fails.symm.trans fails'
      rw [read_eq, failed]
      rfl
    · cases fails.symm.trans (decoded i inside)

/-- The function behind the entry point, on a frame with its arguments. -/
theorem guarded_enter {g : FunctionId} {name : String} {entry : Entry E}
    (known : s.heap.callable? g = some ⟨name, entry⟩) {asked : List (HostRef E t)} {a : Access}
    {member : MemberRun E} (asks : Asks H s low.size args entry asked a member)
    (backs : ∀ r ∈ asked, s.heap.Backs r) (d : Nat) :
    Guarded asked a member (enter H (d + 1) g) s s := by
  have goes : ∀ o, Respects (Evolves H) (perform (enter H d) H o) := evolves_perform (evolves_enter d)
  refine Guarded.congr (enter_known known d) (Guarded.catchPanics ?_ name)
  have answers (v : Value) : Respects (Evolves H) (push v >>= fun _ => pure 1 : Run E Nat) :=
    evolves_bind (evolves_push v) fun _ => evolves_pure 1
  cases asks with
  | @getter b f g field u r bound found getter given own =>
    subst given
    have reads := readMember_field (H := H) base slots rfl found getter own
    refine Guarded.congr ((congrFun (handle_index (perform (enter H d) H) bound) s).trans reads) ?_
    exact (guarded_readField (backs r (.head _)) u H g).bind (H := H) answers
  | @setter b f g field u r v x bound found setter given own decodes =>
    subst given
    have writes := writeMember_field base slots rfl found setter own
    refine Guarded.congr ((congrFun (handle_newIndex (perform (enter H d) H) bound) s).trans writes) ?_
    exact (guarded_writeField (backs r (.head _)) u H g decodes).bind (H := H)
      fun _ => evolves_pure 0
  | @binary b e result f u w l r bound declared operator operands left right =>
    have runs := operate_eq base slots (H := H) (perform (enter H d) H) declared operands left right
    have handles := congrFun (handle_operate (perform (enter H d) H) bound operator) s
    refine Guarded.congr (handles.trans runs) ?_
    refine (guarded_binary _ goes f (backs l (.head _)) (backs r (.tail _ (.head _)))).bind (H := H)
      fun x => evolves_bind (evolves_encode result x) answers
  | @unary b e result f u w l r bound declared operator operands left right =>
    have runs := operate_eq base slots (H := H) (perform (enter H d) H) declared operands left right
    have handles := congrFun (handle_operate (perform (enter H d) H) bound operator) s
    refine Guarded.congr (handles.trans runs) ?_
    refine (guarded_unary _ goes f ⟨w, r⟩ (backs l (.head _))).bind (H := H)
      fun x => evolves_bind (evolves_encode result x) answers
  | @method b m k u r bound declared found room decodes =>
    obtain ⟨s', untouched, slots', runs⟩ := callMethod_of_passed (perform (enter H d) H) bound
      declared found base slots (base ▸ room)
    obtain ⟨held, peak, rfl⟩ := untouched
    obtain ⟨xs, decoded⟩ : ∃ xs, (s.holding held peak).decodeTop m.params.shapes = .ok xs := by
      rcases decodeTop_cases m.params.shapes (length_normalized _ _) slots' (Nat.le_of_eq base) with
        ⟨i, inside, e, fails, -, -⟩ | ⟨xs, -, decoded⟩
      · obtain ⟨x, fine⟩ := decodes i inside
        cases fails.symm.trans fine
      · exact ⟨xs, decoded⟩
    refine Guarded.congr (runs.trans (read_bind_of_ok decoded)) (Guarded.of_untouched ⟨held, peak, rfl⟩ ?_)
    have backs' (body : r ∈ m.body.borrows r) : (s.holding held peak).heap.Backs r := backs r body
    refine Guarded.bind (H := H) (guarded_runBody _ goes backs' xs) ?_
    exact fun ys => evolves_bind (evolves_encodeAll _ ys) fun _ => evolves_pure _

end Entered

end Run
end HostBridge
