import HostBridge.Proofs.Access.Assignment
import HostBridge.Proofs.Access.Reading
import HostBridge.Proofs.Copy.Again
import HostBridge.Proofs.Heap.Sweep
import HostBridge.Proofs.Table.Sequence

namespace HostBridge

inductive Producer (E : Embedding) where
  | pushCopy (i : Int)
  | getField (i : Int) (name : String)
  | getIndex (i n : Int)
  | rawGetIndex (i n : Int)
  | getGlobal (name : String)
  | getMetatable (i : Int)
  | getNamedMetatable (name : String)
  | len (i : Int)
  | newTable
  | ofList (s : Shape E.Tag) (xs : List (s.Carrier E))
  | ofHostMap (m : HostMap)
  | next (i : Int)
  | newMetatable (name : String)

namespace Producer
variable {E : Embedding}

/-- What an operation answers beside the values on the stack. A new table is one of these values. -/
inductive Answer where
  | none
  | kind (k : Kind)
  | flag (b : Bool)

def action : Producer E → Action E Answer
  | pushCopy i => do
    Action.pushCopy i
    return .none
  | getField i name => return .kind (← Action.getField i name)
  | getIndex i n => return .kind (← Action.getIndex i n)
  | rawGetIndex i n => return .kind (← Action.rawGetIndex i n)
  | getGlobal name => return .kind (← Action.getGlobal name)
  | getMetatable i => return .flag (← Action.getMetatable i)
  | getNamedMetatable name => return .kind (← Action.getNamedMetatable name)
  | len i => do
    Action.len i
    return .none
  | newTable => do
    let _ ← Action.newTable
    return .none
  | ofList s xs => do
    let _ ← View.ofList s xs
    return .none
  | ofHostMap m => do
    let _ ← View.ofHostMap m
    return .none
  | next i => return .flag (← Action.next i)
  | newMetatable name => return .flag (← Action.newMetatable name)

/-- The operation comes to no handler of a metatable. -/
def Uncalled (s : State E) : Producer E → Prop
  | getField i name => ∀ v, s.slot i = .ok v → s.heap.Uncalled .index (.string name) v
  | getIndex i n => ∀ v, s.slot i = .ok v → s.heap.Uncalled .index (.ofInt n) v
  | getGlobal name => s.heap.Uncalled .index (.string name) (.table s.globals)
  | len i => ∀ v, s.slot i = .ok v → s.heap.metafield v .len = .nil
  | _ => True

/-- The operation pushes all of its result at once, after anything that it writes. -/
def Repeatable (s : State E) : Producer E → Prop
  | next _ => False
  | newMetatable name => ∃ m, (s.heap.table s.registry).getStr name = .table m
  | _ => True

end Producer

namespace State
variable {E : Embedding} {H : Host E} {s t : State E}

theorem Change.registered (change : Change H s t)
    (registered : s.registry.index < s.heap.tables.size) :
    t.registry.index < t.heap.tables.size :=
  change.registry ▸ Nat.lt_of_lt_of_le registered change.tables_size

theorem Reachable.registered (reachable : s.Reachable H) :
    s.registry.index < s.heap.tables.size := by
  obtain ⟨config, world, changes⟩ := reachable
  exact changes.keep (P := fun s => s.registry.index < s.heap.tables.size)
    (fun _ _ change => change.registered) Nat.one_lt_two

end State

namespace Heap
variable {E : Embedding} {h : Heap E}

def Enrolled (h : Heap E) (registry : TableId) (name : String) (h' : Heap E) : Prop :=
  ∃ g, (h.allocTable .empty).2.Assigned ⟨h.tables.size⟩ (.string Event.name.key) (.string name) g ∧
    g.Assigned registry (.string name) (.table ⟨h.tables.size⟩) h'

theorem Enrolled.known {registry : TableId} {name : String} {h' : Heap E}
    (enrolled : h.Enrolled registry name h') :
    (h'.table registry).getStr name = .table ⟨h.tables.size⟩ := by
  obtain ⟨g, -, entered⟩ := enrolled
  rw [Table.getStr_eq, entered.value, if_pos (Value.sameKey_iff.mpr rfl)]

theorem enrolled_put {registry : TableId} (valid : (h.table registry).Valid)
    (registered : registry.index < h.tables.size) (name : String) :
    h.Enrolled registry name
      (((h.allocTable .empty).2.modifyTable ⟨h.tables.size⟩ fun x =>
          x.put (.string Event.name.key) (.string name)).modifyTable registry fun x =>
        x.put (.string name) (.table ⟨h.tables.size⟩)) := by
  have size : (h.allocTable .empty).2.tables.size = h.tables.size + 1 := Array.size_push _
  have empty : ((h.allocTable .empty).2.table ⟨h.tables.size⟩).Valid := by
    rw [table_allocTable, if_pos rfl]
    exact .empty
  have isKey : (Value.string Event.name.key).isKey = true := rfl
  have named := assigned_put (t := ⟨h.tables.size⟩) empty (size ▸ Nat.lt_succ_self _) isKey
    (.string name)
  have other : registry ≠ ⟨h.tables.size⟩ := fun same =>
    Nat.ne_of_lt registered (congrArg TableId.index same)
  refine ⟨_, named, assigned_put ?_ ?_ rfl _⟩
  · rw [named.others registry other, table_allocTable, if_neg (Nat.ne_of_lt registered)]
    exact valid
  · rw [named.size, size]
    exact Nat.lt_succ_of_lt registered

end Heap

namespace Table

theorem next_ne_overflow {x : Table} {key : Value} : x.next key ≠ .error .stackOverflow := by
  unfold next
  split
  · exact nofun
  · split
    · exact nofun
    · split <;> exact nofun

end Table

namespace Run
open State
variable {E : Embedding} {α β : Type} {H : Host E} {enter : Enter E} {s t : State E}

/-- Two runs with the same answer, or the same error. What they leave on top of the stack may be two
values that cannot be told apart, where the second run knows all that the first one knows. -/
inductive SameResult :
    EStateM.Result Fault (State E) α → EStateM.Result Fault (State E) α → Prop
  | same (r : EStateM.Result Fault (State E) α) : SameResult r r
  | failed (f : Fault) (s t : State E) : SameResult (.error f s) (.error f t)
  | pushed (a : α) {s t : State E} (slots : Array Value) {v w : Value} (later : s.Later t)
      (first : s.stack.slots = slots.push v) (second : t.stack.slots = slots.push w)
      (alike : t.heap.Alike v w) : SameResult (.ok a s) (.ok a t)

/-- A run that went from `s` to `t` and failed for want of stack: the stack was full, all has been
left in place, and the run may be done again. -/
structure Kept (m : Run E α) (s t : State E) : Prop where
  full : s.stack.isFull = true
  later : s.Later t
  frame : t = t.inFrameOf s
  again : ∀ slots peak, SameResult (m (s.holding slots peak)) (m (t.holding slots peak))

theorem Unmoved.kept {m : Run E α} (unmoved : Unmoved m s)
    (failed : m s = .error (.raised .stackOverflow) t) : Kept m s t := by
  obtain ⟨rfl, full⟩ := unmoved _ t failed
  exact ⟨full rfl, .refl t, rfl, fun _ _ => .same _⟩

section Makers

def Makes (m : Run E Value) (a : α) (r : Run E α) : Prop :=
  ∀ s, r s = (m >>= fun v => push v >>= fun _ => pure a) s

variable {m : Run E Value} {a : α} {r : Run E α}

theorem Makes.result (makes : Makes m a r) {v : Value} (ran : m s = .ok v t) :
    r s = if t.stack.isFull then .error (.raised .stackOverflow) t
      else .ok a (t.mapSlots (·.push v)) := by
  rw [makes, bind_eq, ran]
  simp only [bind_eq, push_eq]
  cases t.stack.isFull <;> rfl

theorem Makes.overflow (makes : Makes m a r) (adds : Adds m)
    (failed : r s = .error (.raised .stackOverflow) t) :
    ∃ v, m s = .ok v t ∧ t.stack.isFull = true := by
  cases ran : m s with
  | error f u =>
    rw [makes, bind_eq, ran] at failed
    cases failed
    exact absurd rfl (adds.of_error ran)
  | ok v u =>
    rw [makes.result ran] at failed
    split at failed
    · rename_i full
      cases failed
      exact ⟨v, rfl, full⟩
    · contradiction

theorem Makes.kept (makes : Makes m a r) (off : OffFrame m) (adds : Adds m)
    (again : Again Heap.Alike m) (registered : s.registry.index < s.heap.tables.size)
    (failed : r s = .error (.raised .stackOverflow) t) : Kept r s t := by
  obtain ⟨v, ran, full⟩ := makes.overflow adds failed
  rw [off.stack_of_ok ran] at full
  have frame := off.final_eq s
  rw [final_of_ok ran] at frame
  refine ⟨full, adds.of_ok ran, frame, fun slots peak => ?_⟩
  -- With other slots the first run makes the same value, and the second one makes it once more.
  have first : m (s.holding slots peak) = .ok v (t.holding slots peak) := by
    rw [off.holding, ran]
    rfl
  obtain ⟨w, u, second, alike⟩ := again s v t registered ran (t.holding slots peak)
    (later_inFrameOf t (t.holding slots peak))
  have stack := off.stack_of_ok second
  rw [makes.result first, makes.result second, stack]
  cases (t.holding slots peak).stack.isFull with
  | true => exact .failed _ _ _
  | false =>
    have after : Later u (u.mapSlots (·.push w)) := later_inFrameOf u (u.mapSlots (·.push w))
    refine .pushed a slots (v := v) (w := w) ?_ rfl ?_ (alike _ after)
    · have before := later_inFrameOf ((t.holding slots peak).mapSlots (·.push v))
        (t.holding slots peak)
      exact before.trans ((adds.of_ok second).trans after)
    · exact congrArg (fun x : Stack => x.slots.push w) stack

theorem table_of_fresh {β : Type} {m : Run E β} (f : β → Table) {v : Value}
    (ran : (do return .table (← allocTable (f (← m))) : Run E Value) s = .ok v t) :
    ∃ x, v = .table x := by
  rw [bind_eq] at ran
  cases first : m s with
  | error f u =>
    rw [first] at ran
    contradiction
  | ok x u =>
    rw [first] at ran
    cases ran
    exact ⟨_, rfl⟩

/-- A conversion that makes a table makes a view of it, on top of the frame. -/
theorem makes_view {shape : Shape E.Tag} {x : shape.Carrier E}
    (tables : ∀ s v t, encode H shape x s = .ok v t → ∃ u, v = .table u) :
    Makes (encode H shape x) Producer.Answer.none (action enter H do
      let _ ← (do
        let v ← Action.encode shape x
        Action.push v
        return ⟨← Action.decode .table v⟩ : Action E View)
      return .none) := by
  intro s
  simp only [action_bind, action_encode, bind_eq]
  cases ran : encode H shape x s with
  | error f t => rfl
  | ok v t =>
    obtain ⟨u, rfl⟩ := tables s v t ran
    simp only [action_push, push_eq]
    cases t.stack.isFull <;> rfl

theorem makes_newTable :
    Makes (do return .table (← allocTable (← pure .empty))) Producer.Answer.none
      (action enter H Producer.newTable.action) := by
  intro s
  have made : action enter H (Action.perform .newTable) = allocTable .empty :=
    action_op enter H .newTable
  simp only [Producer.action, Action.newTable, action_bind, made, action_push, pure_bind,
    bind_assoc, action_pure]

theorem makes_ofList (shape : Shape E.Tag) (xs : List (shape.Carrier E)) :
    Makes (encode H (.list shape) xs) Producer.Answer.none
      (action enter H (Producer.ofList shape xs).action) :=
  makes_view fun _ _ _ ran => table_of_fresh sequenceTable ran

theorem makes_ofHostMap (x : HostMap) :
    Makes (encode H .hostMap x) Producer.Answer.none
      (action enter H (Producer.ofHostMap x).action) :=
  @makes_view E H enter .hostMap x fun _ _ _ ran => table_of_fresh id ran

end Makers

section Halves

theorem action_next {i : Int} {x : TableId} {k : Value} (placed : s.slot i = .ok (.table x))
    (inside : s.base < s.stack.size) (top : s.stack.top? = some k) :
    action enter H (Action.next i) s =
      match (s.heap.table x).next k with
      | .error e => .error (.raised e) (s.mapSlots (·.pop))
      | .ok none => .ok false (s.mapSlots (·.pop))
      | .ok (some (k', v)) =>
        (push k' >>= fun _ => push v >>= fun _ => pure true) (s.mapSlots (·.pop)) := by
  have popped : pop s = .ok k (s.mapSlots (·.pop)) := by
    rw [pop_eq, if_neg (Nat.not_le.mpr inside), top]
  have same : (s.mapSlots (·.pop)).heap = s.heap := rfl
  simp only [Action.next, action_bind, bind_eq, action_tableAt placed, action_pop, popped,
    action_table, table_eq, same]
  cases (s.heap.table x).next k with
  | error e => rfl
  | ok pair =>
    cases pair with
    | none => rfl
    | some p =>
      change action enter H (do
        Action.push p.1
        Action.push p.2
        return true) (s.mapSlots (·.pop)) = _
      simp only [action_bind, bind_eq, action_push, action_pure]

/-- Two values are pushed one by one, and the first stays when there is no room for the second. -/
theorem pushPair_overflow {k v : Value} {a : α}
    (failed : (push k >>= fun _ => push v >>= fun _ => pure a) s =
      .error (.raised .stackOverflow) t) :
    s.stack.maxDepth ≤ s.stack.size + 1 ∧
      (s.stack.isFull = false → t = s.mapSlots (·.push k)) := by
  rw [bind_eq, push_eq] at failed
  cases full : s.stack.isFull with
  | true => exact ⟨Nat.le_succ_of_le (Stack.isFull_iff.mp full), nofun⟩
  | false =>
    rw [full] at failed
    obtain ⟨left, full⟩ := unmoved_map _ (unmoved_push v) _ t failed
    refine ⟨?_, fun _ => left⟩
    have above : s.stack.maxDepth ≤ (s.stack.slots.push k).size := Stack.isFull_iff.mp (full rfl)
    exact Array.size_push k ▸ above

/-- The key is gone and the next key is in its place when there is no room for the value. -/
theorem next_overflow {i : Int} (recorded : s.stack.size ≤ s.peak.size)
    (failed : action enter H (Action.next i) s = .error (.raised .stackOverflow) t) :
    s.stack.isFull = true ∧
    ∃ x key k v, s.slot i = .ok (.table x) ∧ s.stack.top? = some key ∧
      (s.heap.table x).next key = .ok (some (k, v)) ∧
      (s.stack.size ≤ s.stack.maxDepth → t = s.holding (s.stack.slots.pop.push k) s.peak) := by
  rcases @tableAt_cases E H enter s i with ⟨x, placed⟩ | ⟨e, ran, other⟩
  · have inside : s.base < s.stack.size := by
      by_contra outside
      have popped : pop s = .error (.raised .stackUnderflow) s := by
        rw [pop_eq, if_pos (Nat.not_lt.mp outside)]
      simp only [Action.next, action_bind, bind_eq, action_tableAt placed, action_pop, popped]
        at failed
      cases failed
    obtain ⟨key, top⟩ := top?_isSome inside
    rw [action_next placed inside top] at failed
    split at failed
    · rename_i e found
      cases failed
      exact absurd found Table.next_ne_overflow
    · contradiction
    · rename_i k v found
      have size : s.stack.slots.pop.size + 1 = s.stack.slots.size := by
        rw [Array.size_pop]
        exact Nat.sub_add_cancel (Nat.zero_lt_of_lt inside)
      obtain ⟨full, left⟩ := pushPair_overflow failed
      have full : s.stack.maxDepth ≤ s.stack.slots.pop.size + 1 := full
      refine ⟨decide_eq_true (size ▸ full), x, key, k, v, placed, top, found, fun bounded => ?_⟩
      have room : s.stack.slots.pop.size < s.stack.maxDepth :=
        Nat.lt_of_succ_le (Nat.le_trans (Nat.le_of_eq size) bounded)
      have recorded : s.stack.slots.size ≤ s.peak.size := recorded
      have popped : s.mapSlots (·.pop) = s.holding s.stack.slots.pop s.peak :=
        mapSlots_of_le rfl (by omega)
      rw [left (Stack.free_iff.mpr room), popped]
      exact mapSlots_of_le rfl (Nat.le_trans (by rw [Array.size_push]; exact Nat.le_of_eq size)
        recorded)
  · rw [Action.next, action_bind, bind_eq, ran] at failed
    cases failed
    exact absurd rfl other

theorem newMetatable_known {name : String} {m : TableId}
    (known : (s.heap.table s.registry).getStr name = .table m) :
    action enter H (Action.newMetatable name) s =
      (push (.table m) >>= fun _ => pure false) s := by
  rw [Action.newMetatable, action_bind, bind_eq, action_registered, known]
  simp only [action_bind, action_push, action_pure]

theorem newMetatable_fresh {name : String} (valid : (s.heap.table s.registry).Valid)
    (registered : s.registry.index < s.heap.tables.size)
    (unknown : ∀ m, (s.heap.table s.registry).getStr name ≠ .table m) :
    ∃ h, s.heap.Enrolled s.registry name h ∧
      action enter H (Action.newMetatable name) s =
        (push (.table ⟨s.heap.tables.size⟩) >>= fun _ => pure true) { s with heap := h } := by
  refine ⟨_, Heap.enrolled_put valid registered name, ?_⟩
  have made : action enter H (Action.perform .newTable) s =
      .ok ⟨s.heap.tables.size⟩ { s with heap := (s.heap.allocTable .empty).2 } :=
    congrFun (action_op enter H .newTable) s
  rw [Action.newMetatable, action_bind, bind_eq, action_registered]
  cases found : (s.heap.table s.registry).getStr name with
  | table m => exact absurd found (unknown m)
  | _ =>
    simp only [action_bind, bind_eq, made, action_registry, action_setRaw, setRaw_eq,
      Table.keyFault?, action_push, action_pure]

theorem newMetatable_answers {name : String} {v : Value} {b : Bool}
    (ran : action enter H (Action.newMetatable name) s = (push v >>= fun _ => pure b) t)
    (room : t.stack.isFull = false) :
    ∃ u, action enter H (Producer.newMetatable name).action s = .ok (.flag b) u := by
  refine ⟨t.mapSlots (·.push v), ?_⟩
  apply action_answer_of_ok
  rw [ran, bind_eq, push_eq, room]
  rfl

end Halves

theorem kept_of_repeatable {p : Producer E} (registered : s.registry.index < s.heap.tables.size)
    (uncalled : p.Uncalled s) (repeatable : p.Repeatable s)
    (failed : runAction H p.action s = .error (.raised .stackOverflow) t) :
    Kept (runAction H p.action) s t := by
  have unmoved (same : Unmoved (action (Run.enter H s.depthLeft) H p.action) s) :
      Kept (runAction H p.action) s t := Unmoved.kept same failed
  cases p with
  | pushCopy i => exact unmoved (unmoved_answer _ (unmoved_pushCopy i))
  | getField i name => exact unmoved (unmoved_answer _ (unmoved_getKey i uncalled))
  | getIndex i n => exact unmoved (unmoved_answer _ (unmoved_getKey i uncalled))
  | rawGetIndex i n => exact unmoved (unmoved_answer _ (unmoved_rawGetIndex i n))
  | getGlobal name => exact unmoved (unmoved_answer _ (unmoved_getGlobal uncalled))
  | getMetatable i => exact unmoved (unmoved_answer _ (unmoved_getMetatable i))
  | getNamedMetatable name => exact unmoved (unmoved_answer _ (unmoved_getNamedMetatable name))
  | len i => exact unmoved (unmoved_answer _ (unmoved_len uncalled))
  | newTable =>
    have makes : Makes _ _ (runAction H Producer.newTable.action) := fun s => makes_newTable s
    exact makes.kept (converted_newTable (offFrame_converts H) (offFrame_pure _))
      (converted_newTable (adds_converts H) (adds_pure _))
      (again_newTable (adds_pure _) (again_pure Heap.AlikeTables.refl _)) registered failed
  | ofList shape xs =>
    have makes : Makes _ _ (runAction H (Producer.ofList shape xs).action) := fun s =>
      makes_ofList shape xs s
    exact makes.kept (offFrame_encode H (.list shape) xs) (adds_encode H (.list shape) xs)
      (again_encode H (.list shape) xs) registered failed
  | ofHostMap x =>
    have makes : Makes _ _ (runAction H (Producer.ofHostMap x).action) := fun s =>
      makes_ofHostMap x s
    exact makes.kept (offFrame_encode H .hostMap x) (adds_encode H .hostMap x)
      (again_encode H .hostMap x) registered failed
  | next i => exact repeatable.elim
  | newMetatable name =>
    obtain ⟨m, known⟩ := repeatable
    refine unmoved (unmoved_answer _ fun f t failed => ?_)
    rw [newMetatable_known known] at failed
    exact unmoved_map _ (unmoved_push _) f t failed

/-- An operation without handlers that fails for want of stack has found the stack full. It has left
the frame and everything else in place, but for new objects and for the metatables of the host types
among them, and gives the same result when it is done again with other slots. Two operations write
in between. `next` has taken the key by then and put the next key in its place. A new metatable is
in the registry already, so that the operation finds it there when it is done again, and tells that
it was not made. -/
theorem overflow_keeps_state {p : Producer E} (reachable : s.Reachable H) (uncalled : p.Uncalled s)
    (failed : runAction H p.action s = .error (.raised .stackOverflow) t) :
    (p.Repeatable s → Kept (runAction H p.action) s t) ∧
    (∀ i, p = .next i → s.stack.isFull = true ∧
      ∃ x key k v, s.slot i = .ok (.table x) ∧ s.stack.top? = some key ∧
        (s.heap.table x).next key = .ok (some (k, v)) ∧
        (s.stack.size ≤ s.stack.maxDepth → t = s.holding (s.stack.slots.pop.push k) s.peak)) ∧
    (∀ name, p = .newMetatable name → ¬p.Repeatable s → s.stack.isFull = true ∧
      (∃ h, s.heap.Enrolled s.registry name h ∧ t = { s with heap := h }) ∧
      ∀ slots peak, slots.size < s.stack.maxDepth →
        (∃ u, runAction H p.action (s.holding slots peak) = .ok (.flag true) u) ∧
        ∃ u, runAction H p.action (t.holding slots peak) = .ok (.flag false) u) := by
  refine ⟨fun repeatable => kept_of_repeatable reachable.registered uncalled repeatable failed,
    ?_, ?_⟩
  · rintro i rfl
    exact next_overflow reachable.recorded (error_of_answer failed)
  · rintro name rfl unknown
    have unknown : ∀ m, (s.heap.table s.registry).getStr name ≠ .table m := fun m known =>
      unknown ⟨m, known⟩
    have valid := reachable.sound.tables s.registry
    obtain ⟨h, enrolled, ran⟩ := newMetatable_fresh valid reachable.registered unknown
    have failed := error_of_answer failed
    rw [ran] at failed
    obtain ⟨left, full⟩ := unmoved_map _ (unmoved_push _) _ _ failed
    refine ⟨full rfl, ⟨h, enrolled, left⟩, fun slots peak room => ⟨?_, ?_⟩⟩
    · obtain ⟨h', -, ran⟩ := newMetatable_fresh (s := s.holding slots peak) valid
        reachable.registered unknown
      exact newMetatable_answers ran (Stack.free_iff.mpr room)
    · have known : ((t.holding slots peak).heap.table (t.holding slots peak).registry).getStr name =
          .table ⟨s.heap.tables.size⟩ := left ▸ enrolled.known
      have room : (t.holding slots peak).stack.isFull = false :=
        left ▸ Stack.free_iff.mpr room
      exact newMetatable_answers (newMetatable_known known) room

/-- A full stack that holds a table of one pair between other values. -/
def crowded : State .plain :=
  let start := State.new { Config.standard with maxStackDepth := 3 } ()
  { start with heap := (start.heap.allocTable (Table.replay [.setInt 1 (.light 10)])).2 }.mapSlots
    fun _ => #[.light 7, .table ⟨2⟩, .nil]

theorem reachable_crowded : crowded.Reachable (Host.running (pure 0)) := by
  unfold crowded
  have start := Reachable.new (Host.running (pure 0)) { Config.standard with maxStackDepth := 3 } ()
  have filled := start.changes
    (Change.newTable _ (Table.Valid.replay [.setInt 1 (.light 10)])).changes
  exact filled.changes (Change.slots _).changes

/-- A table that is made and finds no room leaves the values and the table on the stack in place. -/
theorem overflow_keeps_state_newTable :
    let H := Host.running (pure 0)
    crowded.stack.isFull = true ∧
    ∃ t, runAction H Producer.newTable.action crowded = .error (.raised .stackOverflow) t ∧
      Kept (runAction H Producer.newTable.action) crowded t ∧
      t.stack.slots = #[.light 7, .table ⟨2⟩, .nil] ∧
      t.heap.table ⟨2⟩ = crowded.heap.table ⟨2⟩ := by
  intro H
  have makes : Makes _ _ (runAction H Producer.newTable.action) := fun s => makes_newTable s
  have failed : runAction H Producer.newTable.action crowded =
      .error (.raised .stackOverflow)
        { crowded with heap := (crowded.heap.allocTable .empty).2 } :=
    (makes.result rfl).trans (if_pos rfl)
  have kept := overflow_keeps_state (p := .newTable) reachable_crowded trivial failed
  exact ⟨rfl, _, failed, kept.1 trivial, rfl, rfl⟩

/-- A traversal that is cut off between the key and the value misses the pair when it goes on, even
with room for both. -/
theorem overflow_loses_pair :
    let H := Host.running (pure 0)
    let start : State .plain := State.new { Config.standard with maxStackDepth := 3 } ()
    let x := Table.replay [.setInt 1 (.light 10)]
    let s := { start with heap := (start.heap.allocTable x).2 }.mapSlots
      fun _ => #[.light 7, .table ⟨2⟩, .nil]
    s.Reachable H ∧ (Producer.next 2).Uncalled s ∧
    ∃ t, runAction H (Producer.next 2).action s = .error (.raised .stackOverflow) t ∧
      t.stack.slots = #[.light 7, .table ⟨2⟩, .ofInt 1] ∧
      (∃ u, runAction H (Producer.next 1).action (s.holding #[.table ⟨2⟩, .nil] s.peak) =
        .ok (.flag true) u) ∧
      ∃ u, runAction H (Producer.next 1).action (t.holding #[.table ⟨2⟩, .ofInt 1] s.peak) =
        .ok (.flag false) u := by
  intro H start x s
  have only : x = .ofArray #[.light 10] := by
    change Table.empty.setInt 1 (.light 10) = _
    exact Table.setInt_ofArray (a := #[]) (by decide) rfl
  have first (u : State .plain) (same : u.heap = s.heap) :
      (u.heap.table ⟨2⟩).next .nil = .ok (some (.ofInt 1, .light 10)) := by
    rw [same]
    change x.next .nil = _
    simp [only, Table.next, Value.isNil, Table.arrayNext?, Table.ofArray]
  have last (u : State .plain) (same : u.heap = s.heap) :
      (u.heap.table ⟨2⟩).next (.ofInt 1) = .ok none := by
    have slot : (Table.ofArray #[.light 10]).arraySlot? (.ofInt 1) = some 0 :=
      Table.arraySlot?_ofInt (i := 1) (by decide) (by decide) (by decide)
    rw [same]
    change x.next (.ofInt 1) = _
    rw [only, Table.next, if_neg (by decide), slot]
    simp [Table.arrayNext?, Table.entryNext?, Table.ofArray, Table.empty]
  let t := (s.mapSlots (·.pop)).mapSlots (·.push (.ofInt 1))
  refine ⟨reachable_crowded, trivial, t, ?_, rfl, ?_, ?_⟩
  · apply action_answer_of_error
    rw [action_next (x := ⟨2⟩) (k := .nil) rfl (by decide) rfl, first s rfl]
    rfl
  · let u := s.holding #[.table ⟨2⟩, .nil] s.peak
    refine ⟨((u.mapSlots (·.pop)).mapSlots (·.push (.ofInt 1))).mapSlots (·.push (.light 10)),
      action_answer_of_ok Producer.Answer.flag ?_⟩
    rw [action_next (x := ⟨2⟩) (k := .nil) rfl (by decide) rfl, first u rfl]
    rfl
  · let u := t.holding #[.table ⟨2⟩, .ofInt 1] s.peak
    refine ⟨u.mapSlots (·.pop), action_answer_of_ok Producer.Answer.flag ?_⟩
    rw [action_next (x := ⟨2⟩) (k := .ofInt 1) rfl (by decide) rfl, last u rfl]

end Run
end HostBridge
