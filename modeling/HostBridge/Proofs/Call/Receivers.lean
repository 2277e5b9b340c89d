import HostBridge.Proofs.Call.Reachable
import HostBridge.Catalog.Types
/-!
The handlers of a host type and their receivers. Scripts can put any metatable on any object, fetch
handlers out of it and call them with whatever they like. A handler looks at the host types of what
it was handed before it does anything else, and code that a host type declares runs on instances of
that type only.
-/
namespace HostBridge

/-- The slots in which the handler for an event finds the instances that it works on. -/
def Event.operands : Event → List Int
  | .index | .newIndex => [1]
  | e => if e.isUnary then [1] else [1, 2]

theorem Event.one_mem_operands (e : Event) : 1 ∈ e.operands := by
  cases e <;> decide

theorem Event.operands_cases (e : Event) (i : Int) (operand : i ∈ e.operands) : i = 1 ∨ i = 2 := by
  cases e <;> simp_all [operands, isUnary]

namespace State
variable {E : Embedding}

def HasInstance (s : State E) (t : E.Tag) (i : Int) : Prop :=
  ∃ u, s.slot i = .ok (.userdata u) ∧ s.Tagged t [u]

/-- What a handler says of a slot that holds no instance of its type. -/
def refusal (s : State E) (binding : String) (i : Int) : Error :=
  match s.slot i with
  | .error _ => .invalidIndex i
  | .ok (.userdata u) => .userdataTypeMismatch binding (s.heap.typeName u)
  | .ok v => .userdataTypeMismatch binding v.kind.name

end State

namespace Run
open State
variable {E : Embedding} {H : Host E} {t : E.Tag}

/-- A slot counted from the bottom of the frame is missing for one reason only. -/
theorem slot_error {s : State E} {i : Int} (positive : 0 < i) {e : Error}
    (missing : s.slot i = .error e) : e = .invalidIndex i := by
  unfold slot at missing
  cases position : s.position i with
  | error e' =>
    rw [position] at missing
    unfold State.position at position
    simp only [if_pos positive] at position
    split at position
    · contradiction
    · rw [← Except.error.inj missing, ← Except.error.inj position]
  | ok p =>
    rw [position] at missing
    have below : p < s.stack.slots.size := by
      unfold State.position at position
      simp only [if_pos positive] at position
      split at position
      · exact Except.ok.inj position ▸ ‹_›
      · contradiction
    change s.stack.get p = .error e at missing
    rw [Stack.get, Array.getElem?_eq_getElem below] at missing
    contradiction

theorem refOf_of_tagged {s : State E} {u : UserdataId} (tagged : s.Tagged t [u]) :
    ∃ r, s.heap.refOf t u = .ok r := by
  obtain ⟨d, known, tag⟩ := tagged u List.mem_cons_self
  rw [Heap.refOf, known]
  exact ⟨_, if_pos tag⟩

theorem instanceAt_of_hasInstance {s : State E} {i : Int} (own : s.HasInstance t i)
    (binding : String) : ∃ x, instanceAt t binding i s = .ok x s := by
  obtain ⟨u, held, tagged⟩ := own
  obtain ⟨r, found⟩ := refOf_of_tagged tagged
  exact ⟨⟨u, r⟩, by simp only [instanceAt_eq, held, found]⟩

theorem instanceAt_of_other {s : State E} {i : Int} (positive : 0 < i)
    (other : ¬s.HasInstance t i) (binding : String) :
    instanceAt t binding i s = .error (.raised (s.refusal binding i)) s := by
  rw [instanceAt_eq, refusal]
  cases held : s.slot i with
  | error e => rw [slot_error positive held]
  | ok v =>
    cases v with
    | userdata u =>
      simp only
      cases found : s.heap.refOf t u with
      | error e => rfl
      | ok r =>
        refine absurd ⟨u, held, fun w listed => ?_⟩ other
        rw [List.mem_singleton.mp listed]
        exact Heap.refOf_ok found
    | _ => rfl

theorem operator?_of_declared {b : Binding E t} {e : Event} (declared : e ∈ b.events)
    (reads : e ≠ .index) (writes : e ≠ .newIndex) : ∃ o, b.operator? e = some o := by
  unfold Binding.events at declared
  have declared' : e ∈ b.operators.map Operator.event := by
    rcases List.mem_append.mp declared with special | operator
    · simp [reads, writes] at special
    · exact operator
  obtain ⟨o, listed, event⟩ := List.mem_map.mp declared'
  exact Option.isSome_iff_exists.mp (List.find?_isSome.mpr ⟨o, listed, by simp [event]⟩)

theorem handle_operator (go : Runner E) {b : Binding E t} (found : H.binding t = .ok b) {e : Event}
    (declared : e ∈ b.events) (reads : e ≠ .index) (writes : e ≠ .newIndex) :
    ∃ rest : Instance E t → Instance E t → Run E Nat,
      handle go H t e = instanceAt t b.name 1 >>= fun left => rightOperand b e left >>= rest left := by
  obtain ⟨o, operator⟩ := operator?_of_declared declared reads writes
  have operates : handle go H t e = operate go H t b e := by
    rw [handle, found, ofExcept_ok, pure_bind]
    cases e <;> first | contradiction | rfl
  rw [operates, operate, operator]
  exact ⟨_, rfl⟩

/-- Every handler looks at its first operand before it does anything else. -/
theorem handle_first (go : Runner E) {b : Binding E t} (found : H.binding t = .ok b) {e : Event}
    (declared : e ∈ b.events) :
    ∃ rest, handle go H t e = instanceAt t b.name 1 >>= rest := by
  by_cases reads : e = .index
  · subst reads
    rw [handle, found]
    exact ⟨_, rfl⟩
  · by_cases writes : e = .newIndex
    · subst writes
      rw [handle, found]
      exact ⟨_, rfl⟩
    · obtain ⟨rest, eq⟩ := handle_operator go found declared reads writes
      exact ⟨_, eq⟩

theorem handle_second (go : Runner E) {b : Binding E t} (found : H.binding t = .ok b) {e : Event}
    (declared : e ∈ b.events) (two : 2 ∈ e.operands) :
    ∃ rest : Instance E t → Instance E t → Run E Nat, handle go H t e =
      instanceAt t b.name 1 >>= fun left => instanceAt t b.name 2 >>= rest left := by
  have reads : e ≠ .index := by
    rintro rfl
    contradiction
  have writes : e ≠ .newIndex := by
    rintro rfl
    contradiction
  have binary : e.isUnary = false := by
    cases e <;> first | rfl | contradiction
  obtain ⟨rest, eq⟩ := handle_operator go found declared reads writes
  simp only [rightOperand, binary, Bool.false_eq_true, if_false] at eq
  exact ⟨rest, eq⟩

/-- A handler refuses the first operand that is no instance of its type. -/
theorem handle_of_other (go : Runner E) {b : Binding E t} (found : H.binding t = .ok b) {e : Event}
    (declared : e ∈ b.events) {s : State E} {i : Int} (operand : i ∈ e.operands)
    (other : ¬s.HasInstance t i) :
    ∃ j ∈ e.operands, ¬s.HasInstance t j ∧
      handle go H t e s = .error (.raised (s.refusal b.name j)) s := by
  by_cases own : s.HasInstance t 1
  · have two : i = 2 := by
      rcases e.operands_cases i operand with rfl | two
      · contradiction
      · exact two
    subst two
    obtain ⟨rest, eq⟩ := handle_second go found declared operand
    obtain ⟨x, first⟩ := instanceAt_of_hasInstance own b.name
    refine ⟨2, operand, other, ?_⟩
    simp only [eq, bind_eq, first, instanceAt_of_other (by decide) other b.name]
  · obtain ⟨rest, eq⟩ := handle_first go found declared
    refine ⟨1, e.one_mem_operands, own, ?_⟩
    simp only [eq, bind_eq, instanceAt_of_other (by decide) own b.name]

/-- Whatever is run, the code that a host type declares runs on instances of that type only: on two
of them for a binary operator, on one else. A method belongs to an instance of its own type. A
handler that is handed anything else fails on account of the first such operand, and nothing has
changed by then. -/
theorem member_code_runs_on_own_instances {s : State E} (reachable : s.Reachable H) :
    (∀ (α : Type) (a : Action E α), ∀ r ∈ ((exec H a).final s).memberRuns,
      r.instances.length = r.code.operands ∧
        ((exec H a).final s).Tagged r.tag r.instances) ∧
    ∀ f c, s.heap.callable? f = some c →
      (∀ t k u, c.entry = .method t k u → s.Tagged t [u]) ∧
      ∀ t e, c.entry = .hook t e → ∃ b, H.binding t = .ok b ∧ e ∈ b.events ∧
        ∀ depth, ∀ i ∈ e.operands, ¬s.HasInstance t i →
          ∃ j ∈ e.operands, ¬s.HasInstance t j ∧
            enter H (depth + 1) f s = .error (.raised (s.refusal b.name j)) s := by
  have sound := reachable.sound
  refine ⟨fun α a => (reachable.exec a).sound.memberRuns,
    fun f c known => ⟨fun t k u method => ?_, fun t e hook => ?_⟩⟩
  · have founded := sound.entries f c known
    rw [method] at founded
    exact founded
  · have founded := sound.entries f c known
    rw [hook] at founded
    obtain ⟨b, found, declared⟩ := founded
    refine ⟨b, found, declared, fun depth i operand other => ?_⟩
    obtain ⟨j, operand', other', refused⟩ :=
      handle_of_other (perform (enter H depth) H) found declared operand other
    have called : callableOf f s = .ok c s := by
      rw [callableOf, bind_eq, get_eq]
      simp only [known, pure_eq]
    refine ⟨j, operand', other', ?_⟩
    rw [enter, bind_eq, called]
    apply catchPanics_of_raised
    rw [hook]
    exact refused

instance (entry : Entry E) (t : E.Tag) (e : Event) : Decidable (entry = .hook t e) :=
  match entry with
  | .hook t' e' => decidable_of_iff (t' = t ∧ e' = e) (by simp only [Entry.hook.injEq])
  | .native _ => isFalse nofun
  | .closure _ => isFalse nofun
  | .method .. => isFalse nofun
  | .foreign _ => isFalse nofun

/-- Two host types are called "Vec3". The operator of one refuses an instance of the other as its
right operand. -/
theorem member_code_runs_on_own_instances_namesake :
    let H : Host (Catalog.embedding Empty Unit) :=
      { native := nofun
        closure := fun _ _ => Prog.abort ⟨none⟩
        members := fun
          | .vec3 => [Catalog.binary .add .number fun a b => return a.dot b]
          | .impostor => [.named "Vec3"]
          | _ => []
        values := fun _ => []
        handles := fun _ => [] }
    let s := (runAction H (do
      let _ ← Action.newInstance .vec3 Catalog.Vec3.origin
      let _ ← Action.newInstance .impostor ()
      return ())).final (State.new {} ())
    enter H 3 ⟨2⟩ s = .error (.raised (.userdataTypeMismatch "Vec3" "Impostor")) s := by
  intro H s
  have reachable : s.Reachable H := (Reachable.new H {} ()).changes (changes_runAction _ _)
  obtain ⟨-, handlers⟩ := member_code_runs_on_own_instances reachable
  have hook : ∃ c ∈ s.heap.callable? ⟨2⟩, c.entry = .hook .vec3 .add := by decide +kernel
  obtain ⟨c, known, entry⟩ := hook
  obtain ⟨b, found, -, refuses⟩ := (handlers ⟨2⟩ c known).2 _ _ entry
  have name : (H.binding .vec3).map Binding.name = .ok "Vec3" := by decide +kernel
  rw [found] at name
  have own : s.HasInstance .vec3 1 := by
    have tag : ∃ d ∈ s.heap.userdata? ⟨0⟩, d.tag = .vec3 := by decide +kernel
    refine ⟨⟨0⟩, by decide +kernel, fun u listed => ?_⟩
    rw [List.mem_singleton.mp listed]
    exact tag
  have other : ¬s.HasInstance .vec3 2 := by
    have slot : s.slot 2 = .ok (.userdata ⟨1⟩) := by decide +kernel
    have tag : ∀ d ∈ s.heap.userdata? ⟨1⟩, d.tag ≠ .vec3 := by decide +kernel
    rintro ⟨u, held, tagged⟩
    cases held.symm.trans slot
    obtain ⟨d, known, same⟩ := tagged _ List.mem_cons_self
    exact tag d known same
  obtain ⟨j, operand, other', refused⟩ := refuses 2 2 (by decide) other
  have right : j = 2 := by
    rcases Event.operands_cases _ j operand with rfl | right
    · contradiction
    · exact right
  rw [refused, right, Except.ok.inj name]
  have refusal : s.refusal "Vec3" 2 = .userdataTypeMismatch "Vec3" "Impostor" := by decide +kernel
  rw [refusal]

end Run
end HostBridge
