import HostBridge.Proofs.Access.Members
import HostBridge.Proofs.Call.Closure
import HostBridge.Proofs.Call.Receivers

namespace HostBridge

namespace State
variable {E : Embedding}

def Handles (s : State E) (t : E.Tag) (e : Event) (v : Value) : Prop :=
  ∃ g name, v = .function g ∧ s.heap.callable? g = some ⟨name, .hook t e⟩

/-- `u` is an instance of `t`, and reads of its members go to the handler of `t`. -/
structure Reflects (s : State E) (t : E.Tag) (u : UserdataId) : Prop where
  own : s.Tagged t [u]
  handled : s.Handles t .index (s.heap.metafield (.userdata u) .index)

end State

namespace Run
open State
variable {E : Embedding} {H : Host E} {s : State E} {t : E.Tag}

theorem slot_of_frame {low : Array Value} {vs : List Value}
    (slots : s.stack.slots = low ++ vs.toArray) (base : s.base = low.size) {i : Nat} {v : Value}
    (held : vs[i]? = some v) {index : Int} (number : index = i + 1) : s.slot index = .ok v := by
  have inside : i < vs.length := (List.getElem?_eq_some_iff.mp held).1
  have size : s.stack.size = low.size + vs.length := by
    rw [Stack.size, slots]
    simp
  have position : s.position index = .ok (low.size + i) := by
    have here : s.base + index.toNat - 1 = low.size + i := by omega
    rw [State.position, if_pos (by omega)]
    simp only [here]
    rw [if_pos (by omega)]
  rw [slot, position]
  change s.stack.get (low.size + i) = _
  rw [Stack.get, slots, Array.getElem?_append_right (Nat.le_add_right _ _), Nat.add_sub_cancel_left]
  simp only [List.getElem?_toArray, held]

theorem allocCallable_eq (c : Callable E) (s : State E) :
    allocCallable c s = .ok ⟨s.heap.callables.size⟩ { s with heap := (s.heap.allocCallable c).2 } :=
  rfl

theorem Event.key_inj {e e' : Event} (same : e.key = e'.key) : e = e' := by
  have back : ∀ e : Event, Event.ofKey? e.key = some e := by
    intro e
    cases e <;> decide
  exact Option.some.inj ((back e).symm.trans ((congrArg Event.ofKey? same).trans (back e')))

section Reflecting

/-- The handlers of a host type are in its metatable, each under the key of its event. -/
theorem addHooks_handles (name : String) {es : List Event} {x : Table} (valid : x.Valid)
    {e : Event} (handled : s.Handles t e (x.getStr e.key) ∨ e ∈ es) :
    ∃ y callables, addHooks t name es x s =
        .ok y { s with heap := { s.heap with callables := callables } } ∧
      State.Handles { s with heap := { s.heap with callables := callables } } t e
        (y.getStr e.key) := by
  induction es generalizing x s with
  | nil =>
    refine ⟨x, s.heap.callables, rfl, ?_⟩
    exact handled.resolve_right List.not_mem_nil
  | cons e' es ih =>
    let c : Callable E := ⟨hookName name e', .hook t e'⟩
    let s' : State E := { s with heap := (s.heap.allocCallable c).2 }
    let x' := x.setStr e'.key (.function ⟨s.heap.callables.size⟩)
    have handled' : s'.Handles t e (x'.getStr e.key) ∨ e ∈ es := by
      rw [valid.getStr_setStr]
      by_cases same : e.key = e'.key
      · left
        cases Event.key_inj same
        have made : s'.heap.callable? ⟨s.heap.callables.size⟩ = some c := by
          rw [Heap.callable?_allocCallable, if_pos rfl]
        rw [if_pos rfl]
        exact ⟨_, _, rfl, made⟩
      · rw [if_neg same]
        rcases handled with ⟨g, n, held, known⟩ | listed
        · exact .inl ⟨g, n, held, Heap.callable?_of_allocCallable known c⟩
        · exact .inr (List.mem_of_ne_of_mem (fun eq => same (eq ▸ rfl)) listed)
    obtain ⟨y, callables, ran, there⟩ := ih (s := s') (valid.setStr _ _) handled'
    exact ⟨y, callables, ran, there⟩

variable {b : Binding E t} (bound : H.binding t = .ok b)
  (registered : s.registry.index < s.heap.tables.size)

section Event
variable {e : Event} (handled : e ∈ b.events)
  (installed : ∀ m, s.typeMetatable? t = some m → s.Handles t e ((s.heap.table m).getStr e.key))
include bound registered handled installed

theorem install_handles : ∃ m s', install H t s = .ok m s' ∧
    s'.Handles t e ((s'.heap.table m).getStr e.key) := by
  cases known : s.typeMetatable? t with
  | some m =>
    refine ⟨m, s, ?_, installed m known⟩
    simp only [install, bind_eq, get_eq, known, pure_eq]
  | none =>
    have valid : (Table.empty.setStr Event.name.key (.string b.name)).Valid :=
      Table.Valid.empty.setStr _ _
    obtain ⟨y, callables, ran, there⟩ := addHooks_handles (s := s) (t := t) b.name valid (.inr handled)
    let h : Heap E := ({ s.heap with callables := callables }.allocTable y).2
    let h' := h.modifyTable s.registry fun x => x.setStr b.name (.table ⟨s.heap.tables.size⟩)
    have table : h'.table ⟨s.heap.tables.size⟩ = y := by
      rw [Heap.table_modifyTable, if_neg fun here => Nat.ne_of_lt registered here.1,
        Heap.table_allocTable]
      exact if_pos rfl
    refine ⟨⟨s.heap.tables.size⟩, { s with
      heap := h', typeMetatables := s.typeMetatables ++ [(t, ⟨s.heap.tables.size⟩)] }, ?_, ?_⟩
    · simp only [install, bind_eq, get_eq, known, bound, ofExcept_ok, pure_eq]
      rw [show [Event.index, .newIndex] ++ b.operators.map Operator.event = b.events from rfl]
      simp only [ran]
      rfl
    · change State.Handles _ t e ((h'.table ⟨s.heap.tables.size⟩).getStr _)
      rw [table]
      exact there

/-- What is reflected is handled, if the metatable that its type may have already handles it. -/
theorem reflect_handles (r : HostRef E t) :
    ∃ u s', reflect H t r s = .ok u s' ∧ s'.Tagged t [u] ∧
      s'.Handles t e (s'.heap.metafield (.userdata u) e) := by
  obtain ⟨m, s', ran, there⟩ :=
    install_handles (s := s.compile t) bound registered handled installed
  let d : Userdata E := ⟨t, r.object, some m, true, false⟩
  let s'' : State E := { s' with heap := (s'.heap.allocUserdata d).2 }
  have known : s''.heap.userdata? ⟨s'.heap.userdata.size⟩ = some d := Array.getElem?_push_size
  have read : s''.heap.metafield (.userdata ⟨s'.heap.userdata.size⟩) e =
      (s'.heap.table m).getStr e.key := by
    rw [Heap.metafield, Heap.metatable, known]
    rfl
  refine ⟨⟨s'.heap.userdata.size⟩, s'', ?_, fun u listed => ?_, ?_⟩
  · simp only [reflect, bind_eq, bindingFor_of_bound bound, ran]
    rfl
  · rw [List.mem_singleton.mp listed]
    exact ⟨d, known, rfl⟩
  · rw [read]
    exact there

end Event

variable (installed : ∀ m, s.typeMetatable? t = some m →
  s.Handles t .index ((s.heap.table m).getStr Event.index.key))
include bound registered installed

/-- What is reflected reflects, if the metatable that its type may have already still does. -/
theorem reflect_reflects (r : HostRef E t) :
    ∃ u s', reflect H t r s = .ok u s' ∧ s'.Reflects t u := by
  have handled : Event.index ∈ b.events := List.mem_append_left _ List.mem_cons_self
  obtain ⟨u, s', made, own, there⟩ := reflect_handles bound registered handled installed r
  exact ⟨u, s', made, own, there⟩

end Reflecting

theorem reflect_new {b : Binding E t} (bound : H.binding t = .ok b) (config : Config) (w : E.World)
    (x : E.Payload t) :
    let object := (allocObject t x).final (State.new config w)
    ∃ u s, reflect H t ⟨⟨0⟩⟩ object = .ok u s ∧ s.Tagged t [u] ∧
      (∀ e ∈ b.events, s.Handles t e (s.heap.metafield (.userdata u) e)) ∧
      s.Reachable H ∧ object.SameFrame s := by
  intro object
  have registered : object.registry.index < object.heap.tables.size := Nat.lt_succ_self 1
  have first : (State.new config w).Changes H object := (Change.newObject ⟨t, x, {}⟩).changes
  have listed : Event.index ∈ b.events := List.mem_append_left _ List.mem_cons_self
  obtain ⟨u, s, made, own, -⟩ := reflect_handles bound registered listed nofun ⟨⟨0⟩⟩
  have later : object.Changes H s := (changes_reflect t ⟨⟨0⟩⟩).of_ok made
  refine ⟨u, s, made, own, fun e listed => ?_, ?_, (tame_reflect H t ⟨⟨0⟩⟩).same.of_ok made⟩
  · obtain ⟨u', s', again, -, there⟩ := reflect_handles bound registered listed nofun ⟨⟨0⟩⟩
    cases made.symm.trans again
    exact there
  · exact ((Reachable.new H config w).changes first).changes later

section Reading
variable {enter : Enter E}

theorem action_metafield (v : Value) (e : Event) (s : State E) :
    action enter H (Action.metafield v e) s = .ok (s.heap.metafield v e) s := by
  rw [Action.metafield, action_bind, Action.metatable, action_op, bind_eq]
  simp only [perform, bind_eq, get_eq, pure_eq, Heap.metafield]
  cases s.heap.metatable v with
  | none => rfl
  | some m =>
    have looked : action enter H (Action.table m) s = .ok (s.heap.table m) s :=
      congrFun (action_op enter H (.table m)) s
    simp only [action_bind, bind_eq, looked, action_pure, pure_eq]

/-- A read from a userdata calls the function that its metatable names. -/
theorem action_index_userdata {u : UserdataId} {g : FunctionId}
    (handler : s.heap.metafield (.userdata u) .index = .function g) (key : Value) :
    action enter H (Action.index (.userdata u) key) s =
      match callValue enter (.function g) [.userdata u, key] 1 s with
      | .ok vs t => .ok (vs.getLastD .nil) t
      | .error f t => .error f t := by
  have chain : Action.index (E := E) (.userdata u) key =
      Action.indexChain key (99 + 1) (.userdata u) := rfl
  rw [chain, Action.indexChain]
  simp only [Action.rawAt, pure_bind, Value.isNil, Bool.not_true, Bool.false_eq_true, if_false,
    action_bind, bind_eq, action_metafield, handler, Action.callForOne]
  have called : action enter H (Action.callValue (.function g) [.userdata u, key] 1) s =
      callValue enter (.function g) [.userdata u, key] 1 s :=
    congrFun (action_op enter H (.callValue (.function g) [.userdata u, key] 1 [])) s
  simp only [called, action_pure, pure_eq]
  cases callValue enter (.function g) [.userdata u, key] 1 s <;> rfl

/-- The one result that a function pushes takes the place of the function and its arguments. -/
theorem callAt_of_answer {low : Array Value} {g : FunctionId} {args : List Value} {h : Heap E}
    {w : Value} (slots : s.stack.slots = low.push (.function g) ++ args.toArray)
    (shallow : s.callDepth < s.config.maxCallDepth) (room : s.stack.size < s.stack.maxDepth)
    (answers : let x := s.descend (low.size + 1)
      enter g x = .ok 1 (State.mapSlots { x with heap := h } (·.push w))) :
    ∃ peak, callAt enter low.size 1 s =
      .ok () ({ s with heap := h }.holding (low ++ [w].toArray) peak) := by
  let v := (State.mapSlots { s.descend (low.size + 1) with heap := h } (·.push w)).ascend s.base
  have results : v.stack.slots = s.stack.slots ++ [w].toArray := rfl
  have size : s.stack.slots.size = low.size + 1 + args.length := size_of_placed slots
  have below : ∀ i, i < low.size → s.stack.slots[i]? = low[i]? :=
    fun i before => below_of_placed slots before
  have room' : v.stack.size ≤ v.stack.maxDepth := by
    rw [Stack.size, results, Array.size_append]
    exact room
  have one : adjust [w] 1 = [w] := rfl
  obtain ⟨peak, delivered⟩ := deliver_of_results results (by omega) below room' g one
  have placed := callAt_of_placed slots enter 1
  rw [if_neg (Nat.not_le_of_lt shallow), answers] at placed
  exact ⟨peak, placed.trans delivered⟩

/-- A function called by value that does nothing but push its one result. -/
theorem callValue_of_answer {g : FunctionId} {args : List Value} {h : Heap E} {w : Value}
    (shallow : s.callDepth < s.config.maxCallDepth)
    (room : s.stack.size + args.length + 2 ≤ s.stack.maxDepth)
    (answers : ∀ peak,
      let x := (s.holding (s.stack.slots.push (.function g) ++ args.toArray) peak).descend
        (s.stack.slots.size + 1)
      enter g x = .ok 1 (State.mapSlots { x with heap := h } (·.push w))) :
    ∃ peak, callValue enter (.function g) args 1 s =
      .ok [w] { s with heap := h, peak := peak } := by
  have free : s.stack.isFull = false := Stack.free_iff.mpr (by omega)
  have size : (s.mapSlots (·.push (.function g))).stack.size = s.stack.size + 1 := Array.size_push _
  have above : (s.mapSlots (·.push (.function g))).stack.size + args.length ≤
      s.stack.maxDepth := by omega
  obtain ⟨peak, pushed⟩ := pushAll_of_room (s := s.mapSlots (·.push (.function g))) above
  let x := s.holding (s.stack.slots.push (.function g) ++ args.toArray) peak
  have slots : x.stack.slots = s.stack.slots.push (.function g) ++ args.toArray := rfl
  have room' : x.stack.size < s.stack.maxDepth := by
    rw [size_of_placed slots]
    simp only [Stack.size] at room
    omega
  obtain ⟨peak', called⟩ := callAt_of_answer slots shallow room' (answers peak)
  let z := { x with heap := h }.holding (s.stack.slots ++ [w].toArray) peak'
  have ran : (pushAll args >>= fun _ => callAt enter s.stack.size 1)
      (s.mapSlots (·.push (.function g))) = .ok () z := by
    rw [bind_eq, pushed]
    exact called
  have rest : z.stack.slots.take s.stack.size = s.stack.slots := by
    simp [z, holding, Stack.size]
  obtain ⟨last, cut⟩ := mapSlots_of_eq (f := (·.take s.stack.size)) rest
  rw [callValue_eq, if_neg (Bool.eq_false_iff.mp free), ran]
  refine ⟨last, ?_⟩
  simp only [cut]
  simp [z, x, holding, Stack.size]

end Reading

section Fetch
variable {b : Binding E t} (bound : H.binding t = .ok b) {k : Nat} {m : Method E t}
  (declared : b.methods[k]? = some m) {u : UserdataId}
include bound declared

theorem enter_index {low : Array Value} {g : FunctionId} {name : String} (depth : Nat)
    (slots : s.stack.slots = low ++ [.userdata u, .string m.name].toArray)
    (base : s.base = low.size) (own : s.Tagged t [u])
    (hook : s.heap.callable? g = some ⟨name, .hook t .index⟩) (room : s.stack.isFull = false) :
    enter H (depth + 1) g s = .ok 1 (State.mapSlots
      { s with heap := (s.heap.allocCallable ⟨methodName b m, .method t k u⟩).2 }
      (·.push (.function ⟨s.heap.callables.size⟩))) := by
  have first : s.slot 1 = .ok (.userdata u) := slot_of_frame slots base (i := 0) rfl rfl
  have second : s.slot 2 = .ok (.string m.name) := slot_of_frame slots base (i := 1) rfl rfl
  have nodup := Binding.built_names bound
  have noField := Binding.field?_of_method nodup declared
  have index := Binding.methodIndex?_of_method nodup declared
  have method := Binding.method?_of_method nodup declared
  obtain ⟨r, found⟩ := refOf_of_tagged own
  have known : callableOf g s = .ok ⟨name, .hook t .index⟩ s := by
    simp only [callableOf, bind_eq, get_eq, hook, pure_eq]
  rw [enter, bind_eq, known]
  apply catchPanics_of_ok
  simp only [runEntry, handle, bound, ofExcept_ok, readMember, bind_eq, instanceAt_eq,
    first, found, get_eq, second, pure_eq, Value.asString?, noField, Option.bind_none, index, method,
    allocCallable_eq, push_eq]
  rw [if_neg (Bool.eq_false_iff.mp room)]

/-- Reading a method of an instance gives a new function, and changes nothing else. -/
theorem index_method (reflects : s.Reflects t u) (shallow : s.callDepth < s.config.maxCallDepth)
    (room : s.stack.size + 4 ≤ s.stack.maxDepth) :
    ∃ peak, runAction H (Action.index (.userdata u) (.string m.name)) s =
      .ok (.function ⟨s.heap.callables.size⟩)
        { s with
          heap := (s.heap.allocCallable ⟨methodName b m, .method t k u⟩).2
          peak := peak } := by
  obtain ⟨own, g, name, handler, hook⟩ := reflects
  have depth : s.depthLeft - 1 + 1 = s.depthLeft := by
    unfold depthLeft
    omega
  let low := s.stack.slots.push (.function g)
  let frame : List Value := [.userdata u, .string m.name]
  let h := (s.heap.allocCallable ⟨methodName b m, .method t k u⟩).2
  have answers : ∀ peak,
      let x := (s.holding (low ++ frame.toArray) peak).descend (s.stack.slots.size + 1)
      enter H s.depthLeft g x = .ok 1
        (State.mapSlots { x with heap := h } (·.push (.function ⟨s.heap.callables.size⟩))) := by
    intro peak x
    have bottom : x.base = low.size := (Array.size_push _).symm
    have size : x.stack.slots.size = s.stack.slots.size + 3 := by
      change (low ++ frame.toArray).size = _
      rw [Array.size_append, Array.size_push]
      rfl
    have free : x.stack.isFull = false := Stack.free_iff.mpr (by rw [Stack.size, size]; exact room)
    rw [← depth]
    exact enter_index bound declared (s.depthLeft - 1) rfl bottom own hook free
  have room' : s.stack.size + frame.length + 2 ≤ s.stack.maxDepth := room
  obtain ⟨peak, called⟩ := callValue_of_answer shallow room' answers
  refine ⟨peak, ?_⟩
  rw [runAction, action_index_userdata handler, called]
  rfl

end Fetch

section Receiver
variable {m : Method E t} {u : UserdataId} {low : Array Value} {args : List Value}
  (base : s.base = low.size)
include base

theorem top_of_frame {vs : List Value} (slots : s.stack.slots = low ++ vs.toArray) :
    s.top = vs.length := by
  have size : s.stack.size = low.size + vs.length := by
    rw [Stack.size, slots]
    simp
  rw [State.top, size, base]
  omega

theorem remove_first {v : Value} (slots : s.stack.slots = low ++ (v :: args).toArray) :
    remove 1 s = .ok () (s.mapSlots fun _ => low ++ args.toArray) := by
  have size : s.stack.size = low.size + (args.length + 1) := by
    rw [Stack.size, slots]
    simp
  have position : s.position 1 = .ok low.size := by
    rw [State.position, if_pos (by decide)]
    simp only [base]
    rw [if_pos (by omega)]
    rfl
  have erased : s.stack.slots.eraseIdxIfInBounds low.size = low ++ args.toArray := by
    have inside : low.size < (low ++ (v :: args).toArray).size := by simp
    rw [slots, ← Array.eraseIdx_eq_eraseIdxIfInBounds inside]
    apply Array.toList_inj.mp
    have length : low.toList.length ≤ low.size := Nat.le_refl _
    rw [Array.toList_eraseIdx, Array.toList_append, List.eraseIdx_append_of_length_le length]
    simp
  rw [remove_eq, position]
  simp only
  rw [if_neg (by omega)]
  congr 1
  exact mapSlots_congr erased

theorem dropReceiver_of_first (slots : s.stack.slots = low ++ (.userdata u :: args).toArray)
    (may : mayHoldReceiver m (args.length + 1 : Nat) = true) :
    dropReceiver m u s = .ok () (s.mapSlots fun _ => low ++ args.toArray) := by
  have top : s.top = (args.length + 1 : Nat) := top_of_frame base slots
  have first : s.slot 1 = .ok (.userdata u) := slot_of_frame slots base (i := 0) rfl rfl
  rw [dropReceiver, bind_eq, get_eq]
  simp only [top]
  rw [if_pos may, first, ofExcept_ok, pure_bind, if_pos rfl]
  exact remove_first base slots

theorem dropReceiver_of_other (slots : s.stack.slots = low ++ args.toArray)
    (other : mayHoldReceiver m args.length = true → args.head? ≠ some (.userdata u)) :
    dropReceiver m u s = .ok () s := by
  have top := top_of_frame base slots
  rw [dropReceiver, bind_eq, get_eq]
  simp only [top]
  by_cases may : mayHoldReceiver m args.length = true
  · have differs := other may
    cases args with
    | nil => cases may
    | cons v args =>
      have first : s.slot 1 = .ok v := slot_of_frame slots base (i := 0) rfl rfl
      have differ : v ≠ .userdata u := fun same => differs (same ▸ rfl)
      rw [if_pos may, first, ofExcept_ok, pure_bind, if_neg differ]
      rfl
  · rw [if_neg may]
    rfl

end Receiver

/-- The arguments can be told from a receiver in front of them: by their number, where the first of
them may be a userdata as well, and else by not beginning with the instance. -/
def Distinct (m : Method E t) (u : UserdataId) (args : List Value) : Prop :=
  if m.params.firstAcceptsUserdata then args.length = m.params.count
  else args.head? ≠ some (.userdata u)

theorem Distinct.may_of_receiver {m : Method E t} {u : UserdataId} {args : List Value}
    (distinct : Distinct m u args) : mayHoldReceiver m (args.length + 1 : Nat) = true := by
  unfold Distinct at distinct
  unfold mayHoldReceiver
  split at distinct
  · simp [distinct]
  · simp_all

theorem Distinct.other {m : Method E t} {u : UserdataId} {args : List Value}
    (distinct : Distinct m u args) (may : mayHoldReceiver m args.length = true) :
    args.head? ≠ some (.userdata u) := by
  unfold Distinct at distinct
  unfold mayHoldReceiver at may
  split at distinct
  · simp_all
  · exact distinct

theorem catchPanics_congr (name : String) {body : Run E Nat} {s' : State E}
    (config : s.config = s'.config) (heap : s.heap = s'.heap) (same : body s = body s') :
    catchPanics name body s = catchPanics name body s' := by
  simp only [catchPanics, config, heap, same]

section Placed
variable {f : FunctionId} {below : Array Value} {vs ws : List Value} {peak : Peak}

theorem cut_of_holding (lower : below.size ≤ peak.size) :
    (s.holding (below.push (.function f) ++ ws.toArray) peak).mapSlots (·.take below.size) =
      s.holding below peak := by
  have rest : (below.push (.function f) ++ ws.toArray).take below.size = below := by simp
  exact mapSlots_of_le rest lower

/-- Two calls of one function end the same if its body does, where they may go so deep, and if not,
if they leave the same below the function. -/
theorem call_eq_of_entered (slots : s.stack.slots = below.push (.function f) ++ vs.toArray)
    (framed : s.base ≤ below.size) {s' : State E}
    (other : s' = s.holding (below.push (.function f) ++ ws.toArray) peak)
    (refused : s.config.maxCallDepth ≤ s.callDepth →
      s.mapSlots (·.take below.size) = s'.mapSlots (·.take below.size))
    (entered : s.callDepth < s.config.maxCallDepth →
      enter H s.depthLeft f (s.descend (below.size + 1)) =
        enter H s.depthLeft f (s'.descend (below.size + 1))) (nresults : Int) :
    runAction H (Action.call vs.length nresults) s =
        runAction H (Action.call ws.length nresults) s' ∧
      runAction H (Action.pcall vs.length nresults) s =
        runAction H (Action.pcall ws.length nresults) s' := by
  subst other
  let s' := s.holding (below.push (.function f) ++ ws.toArray) peak
  have depth : s'.depthLeft = s.depthLeft := rfl
  have slots' : s'.stack.slots = below.push (.function f) ++ ws.toArray := rfl
  have call := call_of_placed (H := H) slots framed nresults
  have call' := call_of_placed (H := H) slots' framed nresults
  have pcall := pcall_of_placed (H := H) slots framed nresults
  have pcall' := pcall_of_placed (H := H) slots' framed nresults
  have run := callAt_of_placed slots (enter H s.depthLeft) nresults
  have run' := callAt_of_placed slots' (enter H s.depthLeft) nresults
  rw [depth] at call' pcall'
  by_cases deep : s.config.maxCallDepth ≤ s.callDepth
  · -- Too deep to call anything: the error is the same, and both calls leave what lies below.
    rw [if_pos deep] at run
    have run' := run'.trans (if_pos deep)
    rw [run] at call pcall
    rw [run'] at call' pcall'
    simp only [refused deep] at call pcall
    exact ⟨call.trans call'.symm, pcall.trans pcall'.symm⟩
  · rw [if_neg deep, entered (Nat.lt_of_not_le deep)] at run
    have run' := run'.trans (if_neg deep)
    have same : callAt (enter H s.depthLeft) below.size nresults s =
        callAt (enter H s.depthLeft) below.size nresults s' := run.trans run'.symm
    rw [same] at call pcall
    exact ⟨call.trans call'.symm, pcall.trans pcall'.symm⟩

end Placed

section Forms
variable {m : Method E t} {k : Nat} {u : UserdataId} {b : Binding E t}
  (bound : H.binding t = .ok b) (declared : b.methods[k]? = some m) {args : List Value}
  (distinct : Distinct m u args)
include bound declared distinct

/-- Once the receiver is dropped, the method sees the same state in both forms. -/
theorem enter_method_eq {f : FunctionId} {name : String}
    (known : s.heap.callable? f = some ⟨name, .method t k u⟩) {low : Array Value}
    (slots : s.stack.slots = low ++ (.userdata u :: args).toArray) (base : s.base = low.size)
    (recorded : s.stack.size ≤ s.peak.size) (depth : Nat) :
    enter H (depth + 1) f s = enter H (depth + 1) f (s.holding (low ++ args.toArray) s.peak) := by
  let s' := s.holding (low ++ args.toArray) s.peak
  have dropped : dropReceiver m u s = .ok () s' := by
    have lower : (low ++ args.toArray).size ≤ s.peak.size := by
      refine Nat.le_trans ?_ recorded
      rw [Stack.size, slots]
      simp
    rw [dropReceiver_of_first base slots distinct.may_of_receiver]
    exact congrArg (EStateM.Result.ok ()) (mapSlots_of_le rfl lower)
  have kept : dropReceiver m u s' = .ok () s' := dropReceiver_of_other base rfl distinct.other
  have body : callMethod (perform (enter H depth) H) H t k u s =
      callMethod (perform (enter H depth) H) H t k u s' := by
    simp only [callMethod, bound, ofExcept_ok, declared, bind_eq, pure_eq, dropped, kept]
  have found : callableOf f s = .ok ⟨name, .method t k u⟩ s := by
    simp only [callableOf, bind_eq, get_eq, known, pure_eq]
  have found' : callableOf f s' = .ok ⟨name, .method t k u⟩ s' := by
    simp only [callableOf, bind_eq, get_eq, show s'.heap.callable? f = _ from known, pure_eq]
  rw [enter, bind_eq, bind_eq, found, found']
  exact catchPanics_congr name rfl rfl body

/-- With the instance in front of the arguments and without, a call of the method ends the same. -/
theorem call_method_eq {f : FunctionId} {name : String}
    (known : s.heap.callable? f = some ⟨name, .method t k u⟩) {below : Array Value}
    (slots : s.stack.slots = below.push (.function f) ++ (.userdata u :: args).toArray)
    (framed : s.base ≤ below.size) (recorded : s.stack.size ≤ s.peak.size) (nresults : Int) :
    let s' := s.holding (below.push (.function f) ++ args.toArray) s.peak
    runAction H (Action.call (args.length + 1 : Nat) nresults) s =
        runAction H (Action.call args.length nresults) s' ∧
      runAction H (Action.pcall (args.length + 1 : Nat) nresults) s =
        runAction H (Action.pcall args.length nresults) s' := by
  apply call_eq_of_entered slots framed rfl
  · intro deep
    have lower : below.size ≤ s.peak.size := by
      have size := size_of_placed slots
      omega
    exact (cut_of_placed slots recorded).trans (cut_of_holding lower).symm
  · intro shallow
    have depth : s.depthLeft - 1 + 1 = s.depthLeft := by
      unfold depthLeft
      omega
    have bottom : (below.push (.function f)).size = below.size + 1 := Array.size_push _
    have same := enter_method_eq bound declared distinct (s := s.descend (below.size + 1)) known
      slots bottom.symm recorded (s.depthLeft - 1)
    rw [depth] at same
    exact same

end Forms

/-- Reading a method of an instance gives a function, and however the state goes on, a call of that
function ends the same whether the instance is passed in front of the arguments or not: with the
same results or error, and in the same state. The arguments must be told from the instance by their
number if the method begins with a parameter for a userdata, and by their first value otherwise. -/
theorem method_forms_agree {s₀ : State E} (reachable : s₀.Reachable H) {b : Binding E t}
    (bound : H.binding t = .ok b) {k : Nat} {m : Method E t} (declared : b.methods[k]? = some m)
    {u : UserdataId} (reflects : s₀.Reflects t u) (shallow : s₀.callDepth < s₀.config.maxCallDepth)
    (room : s₀.stack.size + 4 ≤ s₀.stack.maxDepth) :
    ∃ f h peak, let s₁ := { s₀ with heap := h, peak := peak }
      runAction H (Action.index (.userdata u) (.string m.name)) s₀ = .ok (.function f) s₁ ∧
      ∀ s, s₁.Changes H s → ∀ (below : Array Value) (args : List Value),
        s.stack.slots = below.push (.function f) ++ (.userdata u :: args).toArray →
        s.base ≤ below.size → Distinct m u args → ∀ nresults : Int,
          let s' := s.holding (below.push (.function f) ++ args.toArray) s.peak
          runAction H (Action.call (args.length + 1 : Nat) nresults) s =
              runAction H (Action.call args.length nresults) s' ∧
            runAction H (Action.pcall (args.length + 1 : Nat) nresults) s =
              runAction H (Action.pcall args.length nresults) s' := by
  obtain ⟨peak, read⟩ := index_method bound declared reflects shallow room
  refine ⟨_, _, peak, read, fun s later below args slots framed distinct nresults => ?_⟩
  have first : s₀.Changes H _ :=
    (changes_runAction (Action.index (.userdata u) (.string m.name))).of_ok read
  have known : (s₀.heap.allocCallable ⟨methodName b m, .method t k u⟩).2.callable?
      ⟨s₀.heap.callables.size⟩ = some ⟨methodName b m, .method t k u⟩ := by
    rw [Heap.callable?_allocCallable, if_pos rfl]
  have recorded := ((reachable.changes first).changes later).recorded
  exact call_method_eq bound declared distinct (later.keep_callable known) slots framed recorded
    nresults

/-- A method that takes any value, called on an instance with that instance as its argument. -/
theorem method_forms_agree_on_itself :
    let H : Host (Catalog.embedding Empty Unit) :=
      { native := nofun
        closure := fun _ _ => Prog.abort ⟨none⟩
        members := fun
          | .vec3 => [Catalog.method "same" (.one .value) (.one .value) fun _ (v, _) => return (v, ())]
          | _ => []
        values := fun _ => []
        handles := fun _ => [] }
    let object := (allocObject (E := Catalog.embedding Empty Unit) .vec3 Catalog.Vec3.origin).final
      (State.new {} ())
    ∃ u s₀ f s₁, reflect H .vec3 ⟨⟨0⟩⟩ object = .ok u s₀ ∧
      runAction H (Action.index (.userdata u) (.string "same")) s₀ = .ok (.function f) s₁ ∧
      let s := s₁.mapSlots fun _ => #[.function f, .userdata u, .userdata u]
      runAction H (Action.call 2 1) s =
        runAction H (Action.call 1 1) (s.holding #[.function f, .userdata u] s.peak) := by
  intro H object
  let m : Method (Catalog.embedding Empty Unit) .vec3 :=
    ⟨"same", .one .value, .one .value, .receiver fun _ (v, _) => return (v, ())⟩
  have bound : H.binding .vec3 = .ok ⟨"Vec3", [], [m], [], none⟩ := by
    simp [H, Host.binding, Binding.build, Catalog.method, Binding.declare, Binding.repeated?,
      Binding.operatorFault?, Catalog.embedding, Catalog.Tag.name, m]
  have fresh : object.typeMetatable? .vec3 = none := rfl
  obtain ⟨u, s₀, made, reflects⟩ := reflect_reflects (s := object) bound (by decide)
    (fun m known => by rw [fresh] at known; cases known) ⟨⟨0⟩⟩
  have reachable : s₀.Reachable H := by
    have first : (State.new {} ()).Changes H object :=
      (Change.newObject (E := Catalog.embedding Empty Unit) ⟨.vec3, Catalog.Vec3.origin, {}⟩).changes
    exact ((Reachable.new H {} ()).changes first).changes
      ((changes_reflect (E := Catalog.embedding Empty Unit) .vec3 ⟨⟨0⟩⟩).of_ok made)
  have frame : object.SameFrame s₀ :=
    (tame_reflect (E := Catalog.embedding Empty Unit) H .vec3 ⟨⟨0⟩⟩).same.of_ok made
  have shallow : s₀.callDepth < s₀.config.maxCallDepth := by
    rw [frame.callDepth, frame.callLimit]
    decide
  have room : s₀.stack.size + 4 ≤ s₀.stack.maxDepth := by
    rw [frame.stack]
    decide
  obtain ⟨f, h, peak, read, agree⟩ :=
    method_forms_agree reachable bound (k := 0) (m := m) rfl reflects shallow room
  have placed := (Change.slots (H := H) (s := { s₀ with heap := h, peak := peak }) fun _ =>
    #[.function f, .userdata u, .userdata u]).changes
  have framed : s₀.base ≤ 0 := Nat.le_of_eq frame.base
  exact ⟨u, s₀, f, _, made, read, (agree _ placed #[] [.userdata u] rfl framed rfl 1).1⟩

end Run
end HostBridge
