import HostBridge.Proofs.Call.Methods
/-!
How many values a method takes, whatever number of them a call passes. A method whose first
parameter may be a userdata cannot tell an instance in front of the arguments from its first
argument, and goes by their number: the instance is a receiver if there is one value more than
declared. With any other number it is the first argument.
-/
namespace HostBridge
namespace Run
open State
variable {E : Embedding} {H : Host E} {s : State E} {t : E.Tag} {m : Method E t} {u : UserdataId}

/-- What a method with a first parameter for a userdata takes from the values that are passed. -/
def taken (m : Method E t) (u : UserdataId) (vs : List Value) : List Value :=
  if vs.length = m.params.count + 1 ∧ vs.head? = some (.userdata u) then vs.tail
  else normalized m.params.count vs

theorem normalized_of_length {n : Nat} {vs : List Value} (length : vs.length = n) :
    normalized n vs = vs := by
  simp [normalized_eq, ← length]

theorem length_taken (vs : List Value) : (taken m u vs).length = m.params.count := by
  unfold taken
  split
  · rename_i first
    simp [first.1]
  · exact length_normalized _ vs

/-- With as many arguments as declared, an instance in front of them is dropped. -/
theorem taken_of_declared {args : List Value} (length : args.length = m.params.count) :
    taken m u (.userdata u :: args) = args ∧ taken m u args = args := by
  constructor
  · simp [taken, length]
  · simp [taken, length, normalized_of_length length]

/-- With fewer or more it is the first argument, and those that are given come one place late. -/
theorem taken_of_receiver (accepts : m.params.firstAcceptsUserdata = true) {args : List Value}
    (other : args.length ≠ m.params.count) :
    taken m u (.userdata u :: args) = .userdata u :: normalized (m.params.count - 1) args := by
  have positive : 0 < m.params.count := by
    unfold Params.firstAcceptsUserdata at accepts
    unfold Params.count
    cases declared : m.params.shapes with
    | nil => simp [declared] at accepts
    | cons s ss => exact Nat.zero_lt_succ _
  have count : m.params.count = m.params.count - 1 + 1 := by omega
  have own : ¬((Value.userdata u :: args).length = m.params.count + 1 ∧
      (Value.userdata u :: args).head? = some (.userdata u)) :=
    fun first => other (Nat.succ.inj first.1)
  rw [taken, if_neg own, normalized_eq, normalized_eq, count]
  simp

theorem taken_of_other {args : List Value}
    (other : args.length = m.params.count + 1 → args.head? ≠ some (.userdata u)) :
    taken m u args = normalized m.params.count args :=
  if_neg fun first => other first.1 first.2

theorem taken_taken (vs : List Value) : taken m u (taken m u vs) = taken m u vs := by
  have length := length_taken (m := m) (u := u) vs
  exact (taken_of_declared length).2

section Frame
variable (accepts : m.params.firstAcceptsUserdata = true) {low : Array Value} {vs : List Value}
  (slots : s.stack.slots = low ++ vs.toArray) (base : s.base = low.size)
  (recorded : s.stack.size ≤ s.peak.size)
include accepts slots base recorded

/-- What is left when the receiver is dropped, cut or padded, is what the method takes. -/
theorem dropReceiver_of_frame : ∃ rest : List Value,
    dropReceiver m u s = .ok () (s.mapSlots fun _ => low ++ rest.toArray) ∧
    rest.length ≤ vs.length ∧ normalized m.params.count rest = taken m u vs := by
  by_cases first : vs.length = m.params.count + 1 ∧ vs.head? = some (.userdata u)
  · obtain ⟨length, head⟩ := first
    obtain ⟨args, rfl⟩ := List.head?_eq_some_iff.mp head
    have declared : args.length = m.params.count := Nat.succ.inj length
    have may : mayHoldReceiver m (args.length + 1 : Nat) = true := by
      simp [mayHoldReceiver, declared]
    refine ⟨args, dropReceiver_of_first base slots may, Nat.le_succ _, ?_⟩
    rw [normalized_of_length declared, (taken_of_declared declared).1]
  · have other : mayHoldReceiver m vs.length = true → vs.head? ≠ some (.userdata u) := by
      intro may head
      simp [mayHoldReceiver, accepts] at may
      exact first ⟨by omega, head⟩
    refine ⟨vs, ?_, Nat.le_refl _, (if_neg first).symm⟩
    rw [mapSlots_self recorded slots]
    exact dropReceiver_of_other base slots other

variable (room : s.base + m.params.count ≤ s.stack.maxDepth) {b : Binding E t}
  (bound : H.binding t = .ok b) {k : Nat} (declared : b.methods[k]? = some m)
include room bound declared

theorem callMethod_of_frame (go : Runner E) {r : HostRef E t} (found : s.heap.refOf t u = .ok r) :
    callMethod go H t k u s =
      runMethod go H m ⟨u, r⟩ (s.mapSlots fun _ => low ++ (taken m u vs).toArray) := by
  let start := s.mapSlots fun _ => low ++ (taken m u vs).toArray
  have set : setTop m.params.count start = .ok () start := by
    have held : start.stack.slots = low ++ (taken m u vs).toArray := rfl
    have keep := mapSlots_self (s := start) (Nat.le_max_right _ _) held
    have cut := setTop_eq_of_slots (s := start) (n := m.params.count) held base room
    rw [cut, normalized_of_length (length_taken vs), keep]
  obtain ⟨rest, dropped, shorter, normal⟩ :=
    dropReceiver_of_frame (u := u) accepts slots base recorded
  let left := s.mapSlots fun _ => low ++ rest.toArray
  have cut : setTop m.params.count left = .ok () start := by
    have le : (low ++ rest.toArray).size ≤ s.peak.size := by
      rw [Stack.size, slots] at recorded
      simp only [Array.size_append, List.size_toArray] at recorded ⊢
      omega
    have held : left.stack.slots = low ++ rest.toArray := rfl
    have cut := setTop_eq_of_slots (s := left) (n := m.params.count) held base room
    rw [cut, normal, mapSlots_mapSlots (Nat.le_trans le (Nat.le_max_left _ _))]
  have found' : left.heap.refOf t u = .ok r := found
  simp only [callMethod, bind_eq, bound, ofExcept_ok, pure_eq, declared, dropped, read_eq]
  rw [found', ofExcept_ok, pure_eq]
  simp only [runMethod, bind_eq]
  rw [cut, set]

/-- A call with the values that are taken runs the method as a call with all that are passed. -/
theorem enter_of_frame {f : FunctionId} {name : String} (own : s.Tagged t [u])
    (known : s.heap.callable? f = some ⟨name, .method t k u⟩) (depth : Nat) :
    enter H (depth + 1) f s =
      enter H (depth + 1) f (s.mapSlots fun _ => low ++ (taken m u vs).toArray) := by
  let start := s.mapSlots fun _ => low ++ (taken m u vs).toArray
  obtain ⟨r, found⟩ := refOf_of_tagged own
  have high : start.stack.size ≤ start.peak.size := Nat.le_max_right _ _
  have body := callMethod_of_frame accepts slots base recorded room bound declared
    (perform (enter H depth) H) found
  have held : start.stack.slots = low ++ (taken m u vs).toArray := rfl
  have body' := callMethod_of_frame (s := start) accepts held base high room bound declared
    (perform (enter H depth) H) found
  rw [taken_taken, mapSlots_self high held] at body'
  have callable : callableOf f s = .ok ⟨name, .method t k u⟩ s := by
    simp only [callableOf, bind_eq, get_eq, known, pure_eq]
  have callable' : callableOf f start = .ok ⟨name, .method t k u⟩ start := by
    simp only [callableOf, bind_eq, get_eq, show start.heap.callable? f = _ from known, pure_eq]
  rw [enter, bind_eq, bind_eq, callable, callable']
  exact catchPanics_congr name rfl rfl (body.trans body'.symm)

end Frame

section Placed
variable (accepts : m.params.firstAcceptsUserdata = true) {b : Binding E t}
  (bound : H.binding t = .ok b) {k : Nat} (declared : b.methods[k]? = some m)
include accepts bound declared

theorem call_taken_eq {f : FunctionId} {name : String} (own : s.Tagged t [u])
    (known : s.heap.callable? f = some ⟨name, .method t k u⟩) {below : Array Value}
    {vs : List Value} (slots : s.stack.slots = below.push (.function f) ++ vs.toArray)
    (framed : s.base ≤ below.size) (recorded : s.stack.size ≤ s.peak.size)
    (room : below.size + 1 + m.params.count ≤ s.stack.maxDepth) (nresults : Int) :
    ∃ peak, let s' := s.holding (below.push (.function f) ++ (taken m u vs).toArray) peak
      runAction H (Action.call vs.length nresults) s =
          runAction H (Action.call m.params.count nresults) s' ∧
        runAction H (Action.pcall vs.length nresults) s =
          runAction H (Action.pcall m.params.count nresults) s' := by
  have lower : below.size ≤ s.peak.size := by
    have size := size_of_placed slots
    omega
  rw [← length_taken (m := m) (u := u) vs]
  by_cases deep : s.config.maxCallDepth ≤ s.callDepth
  · refine ⟨s.peak, call_eq_of_entered slots framed rfl (fun _ => ?_) (fun shallow => ?_) nresults⟩
    · exact (cut_of_placed slots recorded).trans (cut_of_holding lower).symm
    · exact absurd deep (Nat.not_le_of_lt shallow)
  · refine ⟨(s.mapSlots fun _ => below.push (.function f) ++ (taken m u vs).toArray).peak,
      call_eq_of_entered slots framed rfl (fun again => absurd again deep) (fun _ => ?_) nresults⟩
    have depth : s.depthLeft - 1 + 1 = s.depthLeft := by
      unfold depthLeft
      omega
    have bottom : below.size + 1 = (below.push (.function f)).size := (Array.size_push _).symm
    have same := enter_of_frame (s := s.descend (below.size + 1)) accepts slots bottom recorded room
      bound declared own known (s.depthLeft - 1)
    rw [depth] at same
    exact same

end Placed

/-- Reading a method whose first parameter may be a userdata gives a function, and however the state
goes on, a call of it with any number of values is the call with as many as are declared: missing
ones are nil, others too many. An instance in front of the declared number of arguments is dropped;
in front of fewer or more it is the first argument itself. -/
theorem method_takes_declared {s₀ : State E} (reachable : s₀.Reachable H) {b : Binding E t}
    (bound : H.binding t = .ok b) {k : Nat} (declared : b.methods[k]? = some m)
    (accepts : m.params.firstAcceptsUserdata = true) (reflects : s₀.Reflects t u)
    (shallow : s₀.callDepth < s₀.config.maxCallDepth)
    (room : s₀.stack.size + 4 ≤ s₀.stack.maxDepth) :
    (∃ f h peak, let s₁ := { s₀ with heap := h, peak := peak }
      runAction H (Action.index (.userdata u) (.string m.name)) s₀ = .ok (.function f) s₁ ∧
      ∀ s, s₁.Changes H s → ∀ (below : Array Value) (vs : List Value),
        s.stack.slots = below.push (.function f) ++ vs.toArray → s.base ≤ below.size →
        below.size + 1 + m.params.count ≤ s.stack.maxDepth → ∀ nresults : Int,
          ∃ peak, let s' := s.holding (below.push (.function f) ++ (taken m u vs).toArray) peak
            runAction H (Action.call vs.length nresults) s =
                runAction H (Action.call m.params.count nresults) s' ∧
              runAction H (Action.pcall vs.length nresults) s =
                runAction H (Action.pcall m.params.count nresults) s') ∧
    ∀ args : List Value,
      (args.length = m.params.count →
        taken m u (.userdata u :: args) = args ∧ taken m u args = args) ∧
      (args.length ≠ m.params.count →
        taken m u (.userdata u :: args) = .userdata u :: normalized (m.params.count - 1) args) ∧
      ((args.length = m.params.count + 1 → args.head? ≠ some (.userdata u)) →
        taken m u args = normalized m.params.count args) := by
  constructor
  · obtain ⟨peak, read⟩ := index_method bound declared reflects shallow room
    refine ⟨_, _, peak, read, fun s later below vs slots framed fits nresults => ?_⟩
    have first : s₀.Changes H _ :=
      (changes_runAction (Action.index (.userdata u) (.string m.name))).of_ok read
    have known : (s₀.heap.allocCallable ⟨methodName b m, .method t k u⟩).2.callable?
        ⟨s₀.heap.callables.size⟩ = some ⟨methodName b m, .method t k u⟩ := by
      rw [Heap.callable?_allocCallable, if_pos rfl]
    have recorded := ((reachable.changes first).changes later).recorded
    have own := (first.trans later).tagged reflects.own
    exact call_taken_eq accepts bound declared own (later.keep_callable known) slots framed recorded
      fits nresults
  · intro args
    exact ⟨taken_of_declared, taken_of_receiver accepts, taken_of_other⟩

end Run

/-- A host type with a method that gives its optional argument back. -/
def Host.echoing : Host (Catalog.embedding Empty Unit) where
  native := nofun
  closure := fun _ _ => Prog.abort ⟨none⟩
  members := fun
    | .vec3 => [Catalog.method "echo" (.one (.option .value)) (.one (.option .value))
        fun _ (v, _) => return (v, ())]
    | _ => []
  values := fun _ => []
  handles := fun _ => []

def State.echoing (vs : List Value) : State (Catalog.embedding Empty Unit) :=
  { State.new .standard () with
    stack := ⟨#[.function ⟨0⟩] ++ vs.toArray, Config.standard.maxStackDepth⟩
    heap := {
      callables := #[⟨"Vec3.echo", .method .vec3 0 ⟨0⟩⟩]
      userdata := #[⟨.vec3, ⟨0⟩, none, true, false⟩]
      objects := #[⟨.vec3, Catalog.Vec3.origin, {}⟩] } }

/-- With no argument and with two, the method takes its receiver for the argument. -/
theorem Run.receiver_taken_for_argument :
    let u := Value.userdata ⟨0⟩
    let answer vs := ((State.runAction Host.echoing (Action.call (List.length vs) 1)).final
      (State.echoing vs)).stack.slots
    answer [u] = #[u] ∧ answer [] = #[.nil] ∧
      answer [u, .light 5, .light 6] = #[u] ∧ answer [.light 5, .light 6] = #[.light 5] := by
  decide +kernel

/-- Read from an instance and called with three values, it is called with the first of them. -/
theorem Run.method_takes_declared_first :
    let H := Host.echoing
    let object := (allocObject (E := Catalog.embedding Empty Unit) .vec3 Catalog.Vec3.origin).final
      (State.new {} ())
    ∃ u s₀ f s₁ peak, reflect H .vec3 ⟨⟨0⟩⟩ object = .ok u s₀ ∧
      State.runAction H (Action.index (.userdata u) (.string "echo")) s₀ = .ok (.function f) s₁ ∧
      let s := s₁.mapSlots fun _ => #[.function f, .userdata u, .light 5, .light 6]
      State.runAction H (Action.call 3 1) s =
        State.runAction H (Action.call 1 1) (s.holding #[.function f, .userdata u] peak) := by
  intro H object
  let m : Method (Catalog.embedding Empty Unit) .vec3 :=
    ⟨"echo", .one (.option .value), .one (.option .value), .receiver fun _ (v, _) => return (v, ())⟩
  have bound : H.binding .vec3 = .ok ⟨"Vec3", [], [m], [], none⟩ := by
    simp [H, Host.echoing, Host.binding, Binding.build, Catalog.method, Binding.declare,
      Binding.repeated?, Binding.operatorFault?, Catalog.embedding, Catalog.Tag.name, m]
  obtain ⟨u, s₀, made, own, handled, reachable, frame⟩ :=
    reflect_new bound {} () Catalog.Vec3.origin
  have reflects : s₀.Reflects .vec3 u := ⟨own, handled .index (by decide)⟩
  have shallow : s₀.callDepth < s₀.config.maxCallDepth := by
    rw [frame.callDepth, frame.callLimit]
    decide
  have room : s₀.stack.size + 4 ≤ s₀.stack.maxDepth := by
    rw [frame.stack]
    decide
  obtain ⟨⟨f, h, peak, read, calls⟩, -⟩ :=
    method_takes_declared reachable bound (k := 0) (m := m) rfl rfl reflects shallow room
  have placed := (State.Change.slots (H := H) (s := { s₀ with heap := h, peak := peak }) fun _ =>
    #[.function f, .userdata u, .light 5, .light 6]).changes
  have framed : s₀.base ≤ 0 := Nat.le_of_eq frame.base
  have fits : 2 ≤ s₀.stack.maxDepth := Nat.le_trans (Nat.le_of_lt (Nat.lt_of_lt_of_le
    (by decide) (Nat.le_add_left 4 s₀.stack.size))) room
  obtain ⟨peak', same, -⟩ := calls _ placed #[] [.userdata u, .light 5, .light 6] rfl framed fits 1
  exact ⟨u, s₀, f, _, peak', made, read, same⟩

end HostBridge
