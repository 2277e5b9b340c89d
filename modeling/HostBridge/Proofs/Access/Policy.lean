import HostBridge.Proofs.Access.Assignment
import HostBridge.Proofs.Access.OffPolicy

namespace HostBridge

namespace Binding
variable {E : Embedding} {t : E.Tag}

/-- A read of the key finds a field with a getter, or a method. -/
def Readable (b : Binding E t) (key : Value) : Prop :=
  ∃ name, key = .string name ∧
    ((∃ f g, b.field? name = some f ∧ f.getter = some g) ∨ ∃ m, b.method? name = some m)

/-- An assignment to the key finds a field with a setter. -/
def Writable (b : Binding E t) (key : Value) : Prop :=
  ∃ name f g, key = .string name ∧ b.field? name = some f ∧ f.setter = some g

def writeFault (b : Binding E t) (h : Heap E) : Value → Error
  | .string name => if (b.field? name).isSome then .readOnlyMember name b.name else .memberNotFound name
  | key => .memberNotFound (h.display key)

theorem isMissing_writeFault (b : Binding E t) (h : Heap E) (key : Value) :
    (b.writeFault h key).isMissing = true := by
  unfold writeFault
  split
  · split <;> rfl
  · rfl

end Binding

namespace Run
open State
variable {E : Embedding} {H : Host E} {α : Type} {s : State E} {p : MissingMember}

section Handlers
variable {t : E.Tag} {b : Binding E t} {low : Array Value} {u : UserdataId} {key v : Value}
  (base : s.base = low.size)

section Reading
variable (slots : s.stack.slots = low ++ [.userdata u, key].toArray)
include base slots

theorem readMember_field {name : String} (named : key = .string name) {f : Field E t}
    {g : Getter E t f.shape} (field : b.field? name = some f)
    (getter : f.getter = some g) {r : HostRef E t} (found : s.heap.refOf t u = .ok r) :
    readMember H t b s =
      (readField H f g ⟨u, r⟩ >>= fun w => push w >>= fun _ => pure 1) s := by
  subst named
  have first : s.slot 1 = .ok (.userdata u) := slot_of_frame slots base (i := 0) rfl rfl
  have second : s.slot 2 = .ok (.string name) := slot_of_frame slots base (i := 1) rfl rfl
  simp only [readMember, bind_eq, instanceAt_eq, first, found, get_eq, ofExcept_ok, pure_eq, second,
    Value.asString?, field, Option.bind_some, getter, Option.map_some]

theorem readMember_method {name : String} (named : key = .string name)
    (hidden : ∀ f g, b.field? name = some f → f.getter ≠ some g) {k : Nat} {m : Method E t}
    (index : b.methodIndex? name = some k) (method : b.method? name = some m) {r : HostRef E t}
    (found : s.heap.refOf t u = .ok r) :
    readMember H t b s =
      (allocCallable ⟨methodName b m, .method t k u⟩ >>= fun f =>
        push (.function f) >>= fun _ => pure 1) s := by
  subst named
  have first : s.slot 1 = .ok (.userdata u) := slot_of_frame slots base (i := 0) rfl rfl
  have second : s.slot 2 = .ok (.string name) := slot_of_frame slots base (i := 1) rfl rfl
  simp only [readMember, bind_eq, instanceAt_eq, first, found, get_eq, ofExcept_ok, pure_eq, second,
    Value.asString?]
  cases field : b.field? name with
  | none => simp only [Option.bind_none, index, method, bind_eq, pure_eq]
  | some f =>
    have none : f.getter = none := Option.eq_none_iff_forall_ne_some.mpr fun g => hidden f g field
    simp only [Option.bind_some, none, Option.map_none, index, method, bind_eq, pure_eq]

variable (own : s.Tagged t [u])
include own

/-- A read that finds its member has nothing to do with the policy. -/
theorem readMember_found (readable : b.Readable key) : ∃ m : Run E Nat, OffPolicy m ∧
    ∀ p, readMember H t b (s.withPolicy p) = m (s.withPolicy p) := by
  obtain ⟨name, named, exposed⟩ := readable
  obtain ⟨r, found⟩ := refOf_of_tagged own
  by_cases field : ∃ f g, b.field? name = some f ∧ f.getter = some g
  · obtain ⟨f, g, field, getter⟩ := field
    refine ⟨_, ?_, fun p =>
      readMember_field (s := s.withPolicy p) base slots named field getter found⟩
    exact OffPolicy.bind (offPolicy_readField f g ⟨u, r⟩) fun w => offPolicy_push_one w
  · obtain ⟨m, method⟩ := exposed.resolve_left field
    have hidden : ∀ f g, b.field? name = some f → f.getter ≠ some g :=
      fun f g found getter => field ⟨f, g, found, getter⟩
    obtain ⟨k, index, -⟩ := Option.bind_eq_some_iff.mp method
    refine ⟨_, ?_, fun p =>
      readMember_method (s := s.withPolicy p) base slots named hidden index method found⟩
    exact OffPolicy.bind (offPolicy_allocCallable _) fun f => offPolicy_push_one (.function f)

theorem readMember_missing (missing : ¬b.Readable key) :
    readMember H t b s = missingRead (s.heap.display key) s := by
  have first : s.slot 1 = .ok (.userdata u) := slot_of_frame slots base (i := 0) rfl rfl
  have second : s.slot 2 = .ok key := slot_of_frame slots base (i := 1) rfl rfl
  obtain ⟨r, found⟩ := refOf_of_tagged own
  simp only [readMember, bind_eq, instanceAt_eq, first, found, get_eq, ofExcept_ok, pure_eq, second]
  cases key with
  | string name =>
    have noMethod : b.method? name = none := Option.eq_none_iff_forall_ne_some.mpr fun m method =>
      missing ⟨name, rfl, .inr ⟨m, method⟩⟩
    have noGetter f (field : b.field? name = some f) : f.getter = none :=
      Option.eq_none_iff_forall_ne_some.mpr fun g getter =>
        missing ⟨name, rfl, .inl ⟨f, g, field, getter⟩⟩
    simp only [Value.asString?, noMethod]
    cases field : b.field? name with
    | none =>
      simp only [Option.bind_none]
      cases b.methodIndex? name <;> rfl
    | some f =>
      simp only [Option.bind_some, noGetter f field, Option.map_none]
      cases b.methodIndex? name <;> rfl
  | _ => rfl

end Reading

section Writing
variable (slots : s.stack.slots = low ++ [.userdata u, key, v].toArray)
include base slots

theorem writeMember_field {name : String} (named : key = .string name) {f : Field E t}
    {g : Setter E t f.shape} (field : b.field? name = some f)
    (setter : f.setter = some g) {r : HostRef E t} (found : s.heap.refOf t u = .ok r) :
    writeMember t b s = (writeField f g ⟨u, r⟩ v >>= fun _ => pure 0) s := by
  subst named
  have first : s.slot 1 = .ok (.userdata u) := slot_of_frame slots base (i := 0) rfl rfl
  have second : s.slot 2 = .ok (.string name) := slot_of_frame slots base (i := 1) rfl rfl
  have third : s.slot 3 = .ok v := slot_of_frame slots base (i := 2) rfl rfl
  simp only [writeMember, bind_eq, instanceAt_eq, first, found, get_eq, ofExcept_ok, pure_eq, second,
    third, Value.asString?, field, setter]

variable (own : s.Tagged t [u])
include own

theorem writeMember_found (writable : b.Writable key) : ∃ m : Run E Nat, OffPolicy m ∧
    ∀ p, writeMember t b (s.withPolicy p) = m (s.withPolicy p) := by
  obtain ⟨name, f, g, named, field, setter⟩ := writable
  obtain ⟨r, found⟩ := refOf_of_tagged own
  refine ⟨_, ?_, fun p =>
    writeMember_field (s := s.withPolicy p) base slots named field setter found⟩
  exact OffPolicy.bind (offPolicy_writeField f g ⟨u, r⟩ v) fun _ => offPolicy_pure 0

theorem writeMember_missing (missing : ¬b.Writable key) :
    writeMember t b s = refuseWrite (b.writeFault s.heap key) s := by
  have first : s.slot 1 = .ok (.userdata u) := slot_of_frame slots base (i := 0) rfl rfl
  have second : s.slot 2 = .ok key := slot_of_frame slots base (i := 1) rfl rfl
  have third : s.slot 3 = .ok v := slot_of_frame slots base (i := 2) rfl rfl
  obtain ⟨r, found⟩ := refOf_of_tagged own
  simp only [writeMember, bind_eq, instanceAt_eq, first, found, get_eq, ofExcept_ok, pure_eq, second,
    third]
  cases key with
  | string name =>
    simp only [Value.asString?, Binding.writeFault]
    cases field : b.field? name with
    | none => rfl
    | some f =>
      have none : f.setter = none := Option.eq_none_iff_forall_ne_some.mpr fun g setter =>
        missing ⟨name, f, g, rfl, field, setter⟩
      simp only [none]
      rfl
  | _ => rfl

end Writing

end Handlers

section Handled
variable {t : E.Tag} {g : FunctionId} {name : String}

theorem enter_handler {e : Event} (known : s.heap.callable? g = some ⟨name, .hook t e⟩) (d : Nat) :
    enter H (d + 1) g s = catchPanics name (handle (perform (enter H d) H) H t e) s := by
  have found : callableOf g s = .ok ⟨name, .hook t e⟩ s := by
    simp only [callableOf, bind_eq, get_eq, known, pure_eq]
  rw [enter, bind_eq, found]
  rfl

theorem enter_entering {e : Event} (known : s.heap.callable? g = some ⟨name, .hook t e⟩)
    {body : Run E Nat} (code : ∀ go : Runner E, handle go H t e = body) {args : List Value}
    (room : ¬Refuses s args) (p : MissingMember) (peak : Peak) :
    enter H s.depthLeft g ((s.entering g args peak).withPolicy p) =
      catchPanics name body ((s.entering g args peak).withPolicy p) := by
  have depth : s.depthLeft - 1 + 1 = s.depthLeft := by
    have shallow := (not_or.mp room).2
    unfold depthLeft
    omega
  have entered := enter_handler (H := H) (s := (s.entering g args peak).withPolicy p) known
    (s.depthLeft - 1)
  rwa [depth, code] at entered

variable (go : Runner E) {b : Binding E t} (bound : H.binding t = .ok b)
include bound

theorem handle_index : handle go H t .index = readMember H t b := by
  funext x
  simp only [handle, bind_eq, bound, ofExcept_ok, pure_eq]

theorem handle_newIndex : handle go H t .newIndex = writeMember t b := by
  funext x
  simp only [handle, bind_eq, bound, ofExcept_ok, pure_eq]

end Handled

section Answer
variable (go : Enter E) (g : FunctionId) {args : List Value} (room : ¬Refuses s args) {name : String}
  {body : Run E Nat}
  (runs : ∀ peak, go g ((s.entering g args peak).withPolicy p) =
    catchPanics name body ((s.entering g args peak).withPolicy p))
include room runs

/-- A function that does nothing but answer a value needs a slot for it. -/
theorem callValue_answering {v : Value}
    (answers : ∀ peak, let x := (s.entering g args peak).withPolicy p
      body x = (push v >>= fun _ => pure 1) x) :
    ∃ peak, callValue go (.function g) args 1 (s.withPolicy p) =
      if s.stack.size + 1 + args.length + 1 ≤ s.stack.maxDepth then
        .ok [v] { s.withPolicy p with peak := peak }
      else .error (.raised .stackOverflow) { s.withPolicy p with peak := peak } := by
  let x (peak : Peak) := (s.entering g args peak).withPolicy p
  have placed peak : (x peak).stack.slots = s.stack.slots.push (.function g) ++ args.toArray := rfl
  have size peak : (x peak).stack.size = s.stack.size + 1 + args.length :=
    size_of_placed (placed peak)
  by_cases fits : s.stack.size + 1 + args.length + 1 ≤ s.stack.maxDepth
  · have answered peak : go g (x peak) = .ok 1 ((x peak).mapSlots (·.push v)) := by
      rw [runs]
      apply catchPanics_of_ok
      have room' : (x peak).stack.size < (x peak).stack.maxDepth := size peak ▸ fits
      rw [answers, bind_eq, push_of_room room']
      rfl
    have shallow := Nat.lt_of_not_le (not_or.mp room).2
    have fits' : s.stack.size + args.length + 2 ≤ s.stack.maxDepth := by omega
    obtain ⟨peak, ended⟩ := callValue_of_answer (s := s.withPolicy p) shallow fits' answered
    refine ⟨peak, ?_⟩
    rw [if_pos fits]
    exact ended
  · have failed peak : go g (x peak) = .error (.raised .stackOverflow) (x peak) := by
      rw [runs]
      apply catchPanics_of_raised
      have full : (x peak).stack.maxDepth ≤ (x peak).stack.size :=
        size peak ▸ Nat.le_of_lt_succ (Nat.lt_of_not_le fits)
      rw [answers, bind_eq, push_eq, if_pos (Stack.isFull_iff.mpr full)]
    obtain ⟨peak, ended⟩ := callValue_failed go g 1 room failed
    refine ⟨peak, ?_⟩
    rw [if_neg fits]
    exact ended

end Answer

instance (s : State E) (args : List Value) : Decidable (Refuses s args) :=
  inferInstanceAs (Decidable (_ ∨ _))

/-- How an access ends under the two policies, strictly and leniently. Its handler gets `args` and
has `answers` results. -/
structure PolicyEffect (s : State E) (args : List Value) (answers : Nat) (exposed : Prop)
    (fault : Error) (ignored : α) (strict lenient : EStateM.Result Fault (State E) α) : Prop where
  found : exposed → Unmissed strict
  unmissed : Unmissed strict → lenient = mapState (·.withPolicy .nil) strict
  missing : ¬exposed → ∃ peak peak',
    if Refuses s args then
      strict = .error (.raised .stackOverflow) { s.withPolicy .raise with peak := peak } ∧
      lenient = .error (.raised .stackOverflow) { s.withPolicy .nil with peak := peak' }
    else
      strict = .error (.raised fault) { s.withPolicy .raise with peak := peak } ∧
      lenient =
        if s.stack.size + 1 + args.length + answers ≤ s.stack.maxDepth then
          .ok ignored { s.withPolicy .nil with peak := peak' }
        else .error (.raised .stackOverflow) { s.withPolicy .nil with peak := peak' }

section Effect
variable {t : E.Tag} {e : Event} {g : FunctionId} {name : String}
  (known : s.heap.callable? g = some ⟨name, .hook t e⟩) {body : Run E Nat}
  (code : ∀ go : Runner E, handle go H t e = body) {args : List Value} {k : Int} {answers : Nat}
  {exposed : Prop} {fault : Error} {pick : List Value → α} {ignored : α}
include known code

/-- An access that calls a handler by value, from what the handler does in its frame. -/
theorem policyEffect_of_handler {access : State E → EStateM.Result Fault (State E) α}
    (calls : ∀ p, access (s.withPolicy p) =
      (callValue (enter H s.depthLeft) (.function g) args k >>= fun vs => pure (pick vs))
        (s.withPolicy p))
    (isMissing : fault.isMissing = true)
    (found : exposed → ∀ peak, ∃ m, OffPolicy m ∧ ∀ p,
      body ((s.entering g args peak).withPolicy p) = m ((s.entering g args peak).withPolicy p))
    (strict : ¬exposed → ∀ peak, let x := (s.entering g args peak).withPolicy .raise
      body x = .error (.raised fault) x)
    (lenient : ¬exposed → ¬Refuses s args → ∃ peak, access (s.withPolicy .nil) =
      if s.stack.size + 1 + args.length + answers ≤ s.stack.maxDepth then
        .ok ignored { s.withPolicy .nil with peak := peak }
      else .error (.raised .stackOverflow) { s.withPolicy .nil with peak := peak }) :
    PolicyEffect s args answers exposed fault ignored (access (s.withPolicy .raise))
      (access (s.withPolicy .nil)) := by
  let go := enter H s.depthLeft
  by_cases refuses : Refuses s args
  · obtain ⟨peak, refused⟩ := callValue_refused go g k refuses
    have ended p : access (s.withPolicy p) =
        .error (.raised .stackOverflow) { s.withPolicy p with peak := peak } := by
      rw [calls, bind_eq, refused]
    rw [ended, ended]
    refine ⟨fun _ => unmissed_raised rfl _, fun _ => rfl, fun _ => ⟨peak, peak, ?_⟩⟩
    rw [if_pos refuses]
    exact ⟨rfl, rfl⟩
  · have entered p peak := enter_entering known code refuses p peak
    by_cases exposed : exposed
    · have runs peak : ∃ m, OffPolicy m ∧ ∀ p,
          go g ((s.entering g args peak).withPolicy p) =
            m ((s.entering g args peak).withPolicy p) := by
        obtain ⟨m, off, same⟩ := found exposed peak
        exact ⟨_, off.catchPanics name, fun p =>
          (entered p peak).trans (catchPanics_body name (same p))⟩
      obtain ⟨same, present⟩ := callValue_offPolicy (p := .nil) (q := .raise) go g k refuses runs
      have again : access (s.withPolicy .nil) =
          mapState (·.withPolicy .nil) (access (s.withPolicy .raise)) := by
        rw [calls, calls, bind_eq, bind_eq, same]
        cases callValue go (.function g) args k (s.withPolicy .raise) <;> rfl
      have unmissed : Unmissed (access (s.withPolicy .raise)) := by
        rw [calls, bind_eq]
        cases ran : callValue go (.function g) args k (s.withPolicy .raise) with
        | ok vs t => exact unmissed_ok _ t
        | error f t =>
          rw [ran] at present
          exact present.error t
      exact ⟨fun _ => unmissed, fun _ => again, fun hidden => absurd exposed hidden⟩
    · have fails peak := catchPanics_of_raised name (strict exposed peak)
      obtain ⟨peak, failed⟩ := callValue_failed go g k refuses fun peak =>
        (entered .raise peak).trans (fails peak)
      obtain ⟨peak', ended⟩ := lenient exposed refuses
      have raised : access (s.withPolicy .raise) =
          .error (.raised fault) { s.withPolicy .raise with peak := peak } := by
        rw [calls, bind_eq, failed]
      refine ⟨fun found => absurd found exposed, fun other => ?_, fun _ => ⟨peak, peak', ?_⟩⟩
      · rw [raised] at other
        exact absurd isMissing (Bool.eq_false_iff.mp (other _ _ rfl))
      · rw [if_neg refuses]
        exact ⟨raised, ended⟩

end Effect

section Access
variable {t : E.Tag} {b : Binding E t} (bound : H.binding t = .ok b) {u : UserdataId}
  (own : s.Tagged t [u]) (key v : Value)
include bound own

theorem policyEffect_index (handled : s.Handles t .index (s.heap.metafield (.userdata u) .index)) :
    PolicyEffect s [.userdata u, key] 1 (b.Readable key) (.memberNotFound (s.heap.display key)) .nil
      (runAction H (Action.index (.userdata u) key) (s.withPolicy .raise))
      (runAction H (Action.index (.userdata u) key) (s.withPolicy .nil)) := by
  obtain ⟨g, name, handler, hook⟩ := handled
  let args := [Value.userdata u, key]
  let x (p : MissingMember) (peak : Peak) := (s.entering g args peak).withPolicy p
  have code (go : Runner E) := handle_index (H := H) go bound
  have calls p : runAction H (Action.index (.userdata u) key) (s.withPolicy p) =
      (callValue (enter H s.depthLeft) (.function g) args 1 >>= fun vs =>
        pure (vs.getLastD .nil)) (s.withPolicy p) :=
    indexChain_function rfl handler
  have base p peak : (x p peak).base = (s.stack.slots.push (.function g)).size :=
    (Array.size_push _).symm
  apply policyEffect_of_handler hook code calls rfl
  · exact fun readable peak => readMember_found (base .nil peak) rfl own readable
  · exact fun missing peak => readMember_missing (base .raise peak) rfl own missing
  · intro missing room
    obtain ⟨peak, ended⟩ := callValue_answering _ g room (enter_entering hook code room .nil)
      fun peak => readMember_missing (base .nil peak) rfl own missing
    refine ⟨peak, ?_⟩
    rw [calls, bind_eq, ended]
    by_cases fits : s.stack.size + 1 + args.length + 1 ≤ s.stack.maxDepth
    · rw [if_pos fits, if_pos fits]
      rfl
    · rw [if_neg fits, if_neg fits]

theorem policyEffect_newIndex
    (handled : s.Handles t .newIndex (s.heap.metafield (.userdata u) .newIndex)) :
    PolicyEffect s [.userdata u, key, v] 0 (b.Writable key) (b.writeFault s.heap key) ()
      (runAction H (Action.newIndex (.userdata u) key v) (s.withPolicy .raise))
      (runAction H (Action.newIndex (.userdata u) key v) (s.withPolicy .nil)) := by
  obtain ⟨g, name, handler, hook⟩ := handled
  let args := [Value.userdata u, key, v]
  let x (p : MissingMember) (peak : Peak) := (s.entering g args peak).withPolicy p
  have code (go : Runner E) := handle_newIndex (H := H) go bound
  have calls p : runAction H (Action.newIndex (.userdata u) key v) (s.withPolicy p) =
      (callValue (enter H s.depthLeft) (.function g) args 0 >>= fun _ => pure ())
        (s.withPolicy p) :=
    newIndexChain_function v rfl handler
  have base p peak : (x p peak).base = (s.stack.slots.push (.function g)).size :=
    (Array.size_push _).symm
  apply policyEffect_of_handler hook code calls (b.isMissing_writeFault s.heap key)
  · exact fun writable peak => writeMember_found (base .nil peak) rfl own writable
  · exact fun missing peak => writeMember_missing (base .raise peak) rfl own missing
  · intro missing room
    have fits : s.stack.size + 1 + args.length + 0 ≤ s.stack.maxDepth :=
      Nat.le_of_not_lt (not_or.mp room).1
    have silent peak := catchPanics_of_ok name
      (writeMember_missing (base .nil peak) rfl own missing)
    obtain ⟨peak, ended⟩ := callValue_silent _ g room fun peak =>
      (enter_entering hook code room .nil peak).trans (silent peak)
    refine ⟨peak, ?_⟩
    rw [if_pos fits, calls, bind_eq, ended]
    rfl

end Access

/-- Two states that differ in the policy only. A read or an assignment that does not fail for a
missing member under the strict policy has the same result and the same effects under the lenient
one, and one that finds its member never fails so. Any other is refused in both states if the stack
is full or calls are nested too deep, and else fails strictly and does nothing leniently, with the
state as it was; a nil that is read needs a slot of its own. -/
theorem policies_differ_in_missing {t : E.Tag} {b : Binding E t} (bound : H.binding t = .ok b)
    {u : UserdataId} (reads : s.Reflects t u)
    (assigns : s.Handles t .newIndex (s.heap.metafield (.userdata u) .newIndex)) (key v : Value) :
    PolicyEffect s [.userdata u, key] 1 (b.Readable key) (.memberNotFound (s.heap.display key)) .nil
        (runAction H (Action.index (.userdata u) key) (s.withPolicy .raise))
        (runAction H (Action.index (.userdata u) key) (s.withPolicy .nil)) ∧
      PolicyEffect s [.userdata u, key, v] 0 (b.Writable key) (b.writeFault s.heap key) ()
        (runAction H (Action.newIndex (.userdata u) key v) (s.withPolicy .raise))
        (runAction H (Action.newIndex (.userdata u) key v) (s.withPolicy .nil)) :=
  ⟨policyEffect_index bound reads.own key reads.handled,
    policyEffect_newIndex bound reads.own key v assigns⟩

end Run

def Host.bare : Host (Catalog.embedding Empty Unit) where
  native := nofun
  closure := fun _ _ => Prog.abort ⟨none⟩
  members := fun _ => []
  values := fun _ => []
  handles := fun _ => []

theorem Host.binding_bare : Host.bare.binding .vec3 = .ok ⟨"Vec3", [], [], [], none⟩ := by
  simp [Host.bare, Host.binding, Binding.build, Binding.repeated?, Binding.operatorFault?,
    Catalog.embedding, Catalog.Tag.name]

namespace Run
open State

theorem not_readable_bare (key : Value) :
    ¬(⟨"Vec3", [], [], [], none⟩ : Binding (Catalog.embedding Empty Unit) .vec3).Readable key := by
  rintro ⟨name, -, ⟨f, g, found, -⟩ | ⟨m, found⟩⟩
  · cases found
  · cases found

/-- Where the handler takes the last slot, a missing member cannot be read as nil. -/
theorem missing_read_overflows :
    let object := (allocObject (E := Catalog.embedding Empty Unit) .vec3 Catalog.Vec3.origin).final
      (State.new { maxStackDepth := 4 } ())
    ∃ u s, reflect Host.bare .vec3 ⟨⟨0⟩⟩ object = .ok u s ∧
      let full := s.mapSlots fun _ => #[.userdata u]
      let read p := runAction Host.bare (Action.index (.userdata u) (.string "q"))
        (full.withPolicy p)
      (∃ t, read .raise = .error (.raised (.memberNotFound "q")) t) ∧
        ∃ t, read .nil = .error (.raised .stackOverflow) t := by
  intro object
  obtain ⟨u, s, made, own, handled, -, frame⟩ :=
    reflect_new Host.binding_bare { maxStackDepth := 4 } () Catalog.Vec3.origin
  let full := s.mapSlots fun _ => #[.userdata u]
  have depth : full.stack.maxDepth = 4 := congrArg Stack.maxDepth frame.stack
  have limit : full.config.maxCallDepth = 200 := frame.callLimit
  have calls : full.callDepth = 0 := frame.callDepth
  have effect := policyEffect_index (s := full) Host.binding_bare own (.string "q")
    (handled .index (by decide))
  obtain ⟨peak, peak', outcome⟩ := effect.missing (not_readable_bare _)
  have room : ¬Refuses full [.userdata u, .string "q"] := by
    rw [Refuses, depth, limit, calls]
    change ¬(4 < 1 + 1 + 2 ∨ 200 ≤ 0)
    decide
  rw [if_neg room, depth] at outcome
  exact ⟨u, s, made, ⟨_, outcome.1⟩, _, outcome.2⟩

/-- A member that its type does not have, read and assigned. -/
theorem policies_differ_in_missing_bare :
    let object := (allocObject (E := Catalog.embedding Empty Unit) .vec3 Catalog.Vec3.origin).final
      (State.new {} ())
    ∃ u s, reflect Host.bare .vec3 ⟨⟨0⟩⟩ object = .ok u s ∧
      let read p := runAction Host.bare (Action.index (.userdata u) (.string "q")) (s.withPolicy p)
      (∃ t, read .raise = .error (.raised (.memberNotFound "q")) t) ∧
        ∃ peak, read .nil = .ok .nil { s.withPolicy .nil with peak := peak } := by
  intro object
  obtain ⟨u, s, made, own, handled, -, frame⟩ :=
    reflect_new Host.binding_bare {} () Catalog.Vec3.origin
  have stack : s.stack = object.stack := frame.stack
  have limit : s.config.maxCallDepth = 200 := frame.callLimit
  have calls : s.callDepth = 0 := frame.callDepth
  obtain ⟨reads, -⟩ := policies_differ_in_missing Host.binding_bare
    ⟨own, handled .index (by decide)⟩ (handled .newIndex (by decide)) (.string "q") .nil
  obtain ⟨peak, peak', outcome⟩ := reads.missing (not_readable_bare _)
  have room : ¬Refuses s [.userdata u, .string "q"] := by
    rw [Refuses, stack, limit, calls]
    change ¬(1000000 < 0 + 1 + 2 ∨ 200 ≤ 0)
    decide
  rw [if_neg room, stack] at outcome
  exact ⟨u, s, made, ⟨_, outcome.1⟩, peak', outcome.2⟩

end Run
end HostBridge
