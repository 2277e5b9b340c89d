import HostBridge.Proofs.Heap.Programs
import HostBridge.Action.Access

namespace HostBridge
namespace Run
open State
variable {E : Embedding} {H : Host E} {α β : Type} {s : State E} {enter : Enter E}

theorem backed_bind {a : Action E α} {f : α → Action E β} (first : Action.Backed enter H a s)
    (rest : ∀ x t, action enter H a s = .ok x t → Action.Backed enter H (f x) t) :
    Action.Backed enter H (a >>= f) s := by
  change Action.Backed enter H (Prog.bind a f) s
  induction a generalizing s with
  | done r =>
    cases r with
    | ok x => exact rest x s rfl
    | error e => trivial
  | abort p => trivial
  | perform o next ih =>
    unfold Action.Backed at first
    obtain ⟨backed, next'⟩ := first
    rw [Prog.bind]
    unfold Action.Backed
    refine ⟨backed, ?_⟩
    cases ran : perform enter H o s with
    | ok x t =>
      rw [ran] at next'
      refine ih (.ok x) next' fun y u ends => rest y u ?_
      rw [action_perform, ran]
      exact ends
    | error e t =>
      rw [ran] at next'
      cases e with
      | raised e =>
        refine ih (.error e) next' fun y u ends => rest y u ?_
        rw [action_perform, ran]
        exact ends
      | panicked p => trivial

theorem backed_op {o : Op E} (backed : o.Backed H s) :
    Action.Backed enter H (Action.perform o) s := by
  change Action.Backed enter H (Prog.perform o Prog.done) s
  unfold Action.Backed
  refine ⟨backed, ?_⟩
  cases perform enter H o s with
  | ok x t => trivial
  | error e t => cases e <;> trivial

/-- The action is backed, and what it returns satisfies `Q` in the state that it ends in. -/
structure Upheld (enter : Enter E) (H : Host E) (a : Action E α) (s : State E)
    (Q : α → State E → Prop) : Prop where
  backed : Action.Backed enter H a s
  upholds : Upholds H (action enter H a) s Q

theorem Upheld.bind {a : Action E α} {f : α → Action E β} {Q : α → State E → Prop}
    {R : β → State E → Prop} (first : Upheld enter H a s Q)
    (rest : ∀ x t, s.Step H t → Q x t → Upheld enter H (f x) t R) :
        Upheld enter H (a >>= f) s R where
  backed := backed_bind first.backed fun x t ran => by
    obtain ⟨step, found⟩ := first.upholds.of_ok ran
    exact (rest x t step found).backed
  upholds := by
    rw [action_bind]
    exact first.upholds.bind fun x t step found => (rest x t step found).upholds

theorem upheld_perform {o : Op E} {Q : o.Answer → State E → Prop} (backed : o.Backed H s)
    (upholds : Upholds H (perform enter H o) s Q) : Upheld enter H (Action.perform o) s Q where
  backed := backed_op backed
  upholds := by
    rw [action_op]
    exact upholds

variable (intact : s.Intact H)
include intact

theorem upheld_pure {x : α} {Q : α → State E → Prop} (found : Q x s) :
    Upheld enter H (pure x) s Q :=
  ⟨trivial, upholds_pure intact found⟩

theorem upheld_throw (e : Error) {Q : α → State E → Prop} :
    Upheld enter H (throw e : Action E α) s Q :=
  ⟨trivial, upholds_raise intact e⟩

/-! The frame. -/

theorem upheld_push {v : Value} (has : s.heap.Has v) :
    Upheld enter H (Action.push v) s fun _ _ => True :=
  upheld_perform has (upholds_push intact has)

theorem upheld_pop : Upheld enter H Action.pop s fun v t =>
    t.heap.Has v ∧ t.heap = s.heap ∧ t.globals = s.globals :=
  upheld_perform trivial (upholds_pop intact)

theorem has_slotAt {index : Int} {v : Value} (found : s.slot index = .ok v) : s.heap.Has v := by
  unfold State.slot at found
  cases position : s.position index with
  | error e =>
    rw [position] at found
    contradiction
  | ok p =>
    rw [position] at found
    change s.stack.get p = .ok v at found
    unfold Stack.get at found
    cases slot : s.stack.slots[p]? with
    | none =>
      rw [slot] at found
      contradiction
    | some w =>
      rw [slot] at found
      cases found
      exact intact.has_slot (Array.mem_of_getElem? slot)

theorem upheld_value (index : Int) :
    Upheld enter H (Action.value index) s fun v t => t.heap.Has v :=
  upheld_perform trivial (upholds_read intact fun _ found => has_slotAt intact found)

theorem upheld_pushCopy (index : Int) :
    Upheld enter H (Action.pushCopy index) s fun _ _ => True :=
  (upheld_value intact index).bind fun _ _ step has => upheld_push step.intact has

theorem upheld_pushAs (sh : Shape E.Tag) {x : sh.Carrier E} (supported : s.heap.Supports sh x) :
    Upheld enter H (Action.pushAs sh x) s fun _ _ => True :=
  (upheld_perform (o := .encode sh x) supported (upholds_encode intact sh supported)).bind
    fun _ _ step has => upheld_push step.intact has

/-! Host objects. -/

theorem upheld_pushUserdata {u : UserdataId} (has : s.heap.Has (Value.userdata u)) :
    Upheld enter H (Action.push (.userdata u) >>= fun _ => pure u) s fun u z =>
      z.heap.Has (Value.userdata u) :=
  (upheld_push intact has).bind fun _ _ step _ => upheld_pure step.intact (step.lasts.has has)

theorem upheld_pushShared {t : E.Tag} {r : HostRef E t} (present : s.heap.Present t r.object) :
    Upheld enter H (Action.pushShared r) s fun u z => z.heap.Has (Value.userdata u) :=
  (upheld_perform (o := .reflect t r) present (upholds_reflect intact present)).bind
    fun _ _ step has => upheld_pushUserdata step.intact has

theorem upheld_newObject (t : E.Tag) {x : E.Payload t}
    (given : ∀ e ∈ E.contents t x, s.heap.Has e) :
    Upheld enter H (HostRef.new t x) s fun r y => y.heap.Present t r.object :=
  upheld_perform given (upholds_allocObject intact t given)

theorem upheld_newInstance (t : E.Tag) {x : E.Payload t}
    (given : ∀ e ∈ E.contents t x, s.heap.Has e) :
    Upheld enter H (Action.newInstance t x) s fun u z => z.heap.Has (Value.userdata u) :=
  (upheld_newObject intact t given).bind
    fun _ _ step present => upheld_pushShared step.intact present

theorem upheld_newUserdata (t : E.Tag) {x : E.Payload t}
    (given : ∀ e ∈ E.contents t x, s.heap.Has e) :
    Upheld enter H (Action.newUserdata t x) s fun u z => z.heap.Has (Value.userdata u) :=
  (upheld_newObject intact t given).bind fun r _ step present =>
    (upheld_perform (o := .carry t r) present (upholds_carry step.intact present)).bind
      fun _ _ step' has => upheld_pushUserdata step'.intact has

theorem upheld_hostRef {t : E.Tag} {u : UserdataId} (has : s.heap.Has (Value.userdata u)) :
    Upheld enter H (Action.hostRef t u) s fun r y => y.heap.Present t r.object := by
  refine upheld_perform trivial (upholds_read intact fun r found => ?_)
  change s.heap.refOf t u = .ok r at found
  unfold Heap.refOf at found
  split at found
  · rename_i d known
    split at found
    · rename_i same
      cases found
      obtain ⟨x, there, tag⟩ := intact.heap.typed u d known
      have kept := intact.heap.held _ (has rfl)
      simp only [Heap.children, known, Option.elim_some] at kept
      exact ⟨⟨x, there, tag.trans same⟩, (Heap.has_contents.mp kept).1⟩
    · contradiction
  · contradiction

theorem upheld_update {t : E.Tag} (r : HostRef E t) {x : E.Payload t}
    (given : ∀ e ∈ E.contents t x, s.heap.Has e) : Upheld enter H (r.write x) s fun _ _ => True :=
  upheld_perform given (upholds_perform enter intact (o := .write t r x) given trivial)

/-! Tables. -/

theorem upheld_table (m : TableId) :
    Upheld enter H (Action.table m) s fun x t => t = s ∧ x = s.heap.table m :=
  upheld_perform trivial (upholds_get_bind (upholds_pure intact ⟨rfl, rfl⟩))

theorem upheld_newTable :
    Upheld enter H Action.newTable s fun m t => t.heap.Has (Value.table m) :=
  (upheld_perform (o := .newTable) trivial (upholds_allocTable intact Heap.has_of_mem_empty)).bind
    fun _ _ step has => (upheld_push step.intact has).bind
      fun _ _ step' _ => upheld_pure step'.intact (step'.lasts.has has)

theorem upheld_tableAt (i : Int) :
    Upheld enter H (Action.tableAt i) s fun m t => t.heap.Has (Value.table m) := by
  refine (upheld_value intact i).bind fun v t step has => ?_
  cases v with
  | table m => exact upheld_pure step.intact has
  | _ => exact upheld_throw step.intact _

theorem has_get {m : TableId} (has : s.heap.Has (Value.table m)) (key : Value) :
    s.heap.Has ((s.heap.table m).get key) := by
  rcases (s.heap.table m).get_mem key with held | nil
  · exact Heap.has_children_table.mp (intact.heap.held _ (has rfl)) _ held
  · rw [nil]
    exact Heap.has_of_scalar rfl

theorem upheld_pushKind {v : Value} (has : s.heap.Has v) :
    Upheld enter H (Action.pushKind v) s fun _ _ => True :=
  (upheld_push intact has).bind fun _ _ step _ => upheld_pure step.intact trivial

theorem upheld_rawGet (i : Int) : Upheld enter H (Action.rawGet i) s fun _ _ => True := by
  refine (upheld_tableAt intact i).bind fun m t step has => ?_
  refine (upheld_pop step.intact).bind fun key u step' _ => ?_
  refine (upheld_table step'.intact m).bind fun x y _ same => ?_
  obtain ⟨rfl, rfl⟩ := same
  exact upheld_pushKind step'.intact (has_get step'.intact (step'.lasts.has has) key)

theorem upheld_rawSet (i : Int) : Upheld enter H (Action.rawSet i) s fun _ _ => True := by
  refine (upheld_tableAt intact i).bind fun m t step _ => ?_
  refine (upheld_pop step.intact).bind fun v u step' ⟨hasValue, _⟩ => ?_
  refine (upheld_pop step'.intact).bind fun key w step'' ⟨hasKey, _⟩ => ?_
  have hasValue' : w.heap.Has v := step''.lasts.has hasValue
  exact upheld_perform ⟨hasKey, hasValue'⟩ (upholds_setRaw step''.intact m hasKey hasValue')

theorem upheld_rawAt (m : TableId) (key : Value) :
    Upheld enter H (Action.rawAt (.table m) key) s fun v t =>
      t = s ∧ v = (s.heap.table m).get key :=
  (upheld_table intact m).bind fun x t _ ⟨same, held⟩ => by
    subst same
    subst held
    exact upheld_pure intact ⟨rfl, rfl⟩

theorem upheld_metafield {m : TableId} (plain : (s.heap.table m).metatable = none) (e : Event) :
    Upheld enter H (Action.metafield (.table m) e) s fun v t => t = s ∧ v = .nil :=
  (upheld_perform (o := .metatable (.table m)) (Q := fun x t => t = s ∧ x = none) trivial
    (upholds_get_bind (upholds_pure intact ⟨rfl, plain⟩))).bind fun x t _ ⟨same, absent⟩ => by
    subst same
    subst absent
    exact upheld_pure intact ⟨rfl, rfl⟩

theorem upheld_index {m : TableId} (plain : (s.heap.table m).metatable = none) (key : Value) :
    Upheld enter H (Action.index (.table m) key) s fun v t =>
      t = s ∧ v = (s.heap.table m).get key := by
  refine (upheld_rawAt intact m key).bind fun raw t _ ⟨same, held⟩ => ?_
  subst same
  subst held
  dsimp only
  split
  · exact upheld_pure intact ⟨rfl, rfl⟩
  · rename_i absent
    refine (upheld_metafield intact plain .index).bind fun v t _ ⟨same, noHandler⟩ => ?_
    subst same
    subst noHandler
    refine upheld_pure intact ⟨rfl, ?_⟩
    rw [Bool.not_eq_true, Bool.not_eq_false'] at absent
    exact (Value.isNil_iff.mp absent).symm

theorem upheld_newIndex {m : TableId} (plain : (s.heap.table m).metatable = none) {key v : Value}
    (hasKey : s.heap.Has key) (hasValue : s.heap.Has v) :
    Upheld enter H (Action.newIndex (.table m) key v) s fun _ _ => True := by
  refine (upheld_rawAt intact m key).bind fun raw t _ ⟨same, held⟩ => ?_
  subst same
  dsimp only
  have stored : Upheld enter H (Action.setRaw m key v) t fun _ _ => True :=
    upheld_perform ⟨hasKey, hasValue⟩ (upholds_setRaw intact m hasKey hasValue)
  split
  · refine (upheld_metafield intact plain .newIndex).bind fun h u _ ⟨same, noHandler⟩ => ?_
    subst same
    subst noHandler
    exact stored
  · exact stored

theorem upheld_globals :
    Upheld enter H Action.globals s fun v t => t = s ∧ v = .table s.globals :=
  (upheld_perform (o := .globals) (Q := fun g t => t = s ∧ g = s.globals) trivial
    (upholds_get_bind (upholds_pure intact ⟨rfl, rfl⟩))).bind fun g t _ ⟨same, own⟩ => by
    subst same
    subst own
    exact upheld_pure intact ⟨rfl, rfl⟩

/-- Globals are stored and fetched as long as the globals table has no metatable. -/
theorem upheld_setGlobal (plain : (s.heap.table s.globals).metatable = none) (name : String) :
    Upheld enter H (Action.setGlobal name) s fun _ _ => True := by
  refine (upheld_pop intact).bind fun v t step ⟨has, heap, globals⟩ => ?_
  refine (upheld_globals step.intact).bind fun g u _ ⟨same, own⟩ => ?_
  subst same
  subst own
  rw [← heap, ← globals] at plain
  exact upheld_newIndex step.intact plain (Heap.has_of_scalar rfl) has

theorem upheld_getGlobal (plain : (s.heap.table s.globals).metatable = none) (name : String) :
    Upheld enter H (Action.getGlobal name) s fun _ _ => True := by
  refine (upheld_globals intact).bind fun g u _ ⟨same, own⟩ => ?_
  subst same
  subst own
  refine (upheld_index intact plain _).bind fun v t _ ⟨same, held⟩ => ?_
  subst same
  subst held
  have own : Value.table t.globals ∈ t.own := by simp [State.own]
  exact upheld_pushKind intact (has_get intact (intact.own own) _)

end Run

namespace State
variable {E : Embedding}

/-- What a program may do with references to host objects: make objects, push what it holds, move
values on the stack and in tables and globals, take handles and let go of them, and close the state.
What it holds after a statement it says at the end of that. -/
inductive Handling (H : Host E) (s : State E) : {α : Type} → Action E α → Prop
  | newInstance (t : E.Tag) {x : E.Payload t} (given : ∀ e ∈ E.contents t x, s.heap.Has e) :
      Handling H s (Action.newInstance t x)
  | newUserdata (t : E.Tag) {x : E.Payload t} (given : ∀ e ∈ E.contents t x, s.heap.Has e) :
      Handling H s (Action.newUserdata t x)
  | pushAs (sh : Shape E.Tag) {x : sh.Carrier E} (supported : s.heap.Supports sh x) :
      Handling H s (Action.pushAs sh x)
  | pushShared {t : E.Tag} {r : HostRef E t} (present : s.heap.Present t r.object) :
      Handling H s (Action.pushShared r)
  | newHandle (t : E.Tag) {x : E.Payload t} (given : ∀ e ∈ E.contents t x, s.heap.Has e) :
      Handling H s (HostRef.new t x)
  | hostRef (t : E.Tag) {u : UserdataId} (has : s.heap.Has (Value.userdata u)) :
      Handling H s (Action.hostRef t u)
  | write {t : E.Tag} (r : HostRef E t) {x : E.Payload t}
      (given : ∀ e ∈ E.contents t x, s.heap.Has e) : Handling H s (r.write x)
  | keep {w : E.World} (given : ∀ e ∈ holdings H w, s.heap.Has e) :
      Handling H s (Action.perform (.setWorld w))
  | settle {vars : List Entity} (given : ∀ e ∈ vars, s.heap.Has e) :
      Handling H s (Action.settle vars)
  | pushCopy (i : Int) : Handling H s (Action.pushCopy i)
  | pop : Handling H s Action.pop
  | drop (n : Nat) : Handling H s (Action.drop n)
  | setTop (i : Int) : Handling H s (Action.setTop i)
  | insert (i : Int) : Handling H s (Action.insert i)
  | remove (i : Int) : Handling H s (Action.remove i)
  | replace (i : Int) : Handling H s (Action.replace i)
  | newTable : Handling H s Action.newTable
  | rawGet (i : Int) : Handling H s (Action.rawGet i)
  | rawSet (i : Int) : Handling H s (Action.rawSet i)
  | getGlobal (plain : (s.heap.table s.globals).metatable = none) (name : String) :
      Handling H s (Action.getGlobal name)
  | setGlobal (plain : (s.heap.table s.globals).metatable = none) (name : String) :
      Handling H s (Action.setGlobal name)
  | close : Handling H s (Action.perform .close)

theorem Handling.backed {H : Host E} {s : State E} {α : Type} {a : Action E α}
    (handling : s.Handling H a) (intact : s.Intact H) (enter : Run.Enter E) :
    Action.Backed enter H a s := by
  cases handling with
  | newInstance t given => exact (Run.upheld_newInstance intact t given).backed
  | newUserdata t given => exact (Run.upheld_newUserdata intact t given).backed
  | pushAs sh supported => exact (Run.upheld_pushAs intact sh supported).backed
  | pushShared present => exact (Run.upheld_pushShared intact present).backed
  | newHandle t given => exact (Run.upheld_newObject intact t given).backed
  | hostRef t has => exact (Run.upheld_hostRef intact has).backed
  | write r given => exact (Run.upheld_update intact r given).backed
  | keep given | settle given => exact Run.backed_op given
  | pushCopy i => exact (Run.upheld_pushCopy intact i).backed
  | newTable => exact (Run.upheld_newTable intact).backed
  | rawGet i => exact (Run.upheld_rawGet intact i).backed
  | rawSet i => exact (Run.upheld_rawSet intact i).backed
  | getGlobal plain name => exact (Run.upheld_getGlobal intact plain name).backed
  | setGlobal plain name => exact (Run.upheld_setGlobal intact plain name).backed
  | pop | drop n | setTop i | insert i | remove i | replace i | close =>
    exact Run.backed_op trivial

end State
end HostBridge
