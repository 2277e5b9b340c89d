import HostBridge.Proofs.Heap.Operations
import HostBridge.Proofs.Heap.Close
import HostBridge.Action.Objects
/-!
Programs that refer only to what lives. Each operation is checked in the state that it is performed
in: what it hands to the state lives, and so do the objects of the handles that it uses. Between the
ends of its statements such a program takes intact states to intact states, and nothing is released.
-/
namespace HostBridge

mutual

def HostValue.All (P : Value → Prop) : HostValue → Prop
  | .function f => P (.function f)
  | .userdata u => P (.userdata u)
  | .map m => m.All P
  | _ => True

def HostMap.All (P : Value → Prop) : HostMap → Prop
  | .empty => True
  | .pair _ v r => v.All P ∧ r.All P

end

namespace Heap
variable {E : Embedding}

/-- What a program hands over in the form of a shape lives. -/
def Supports (h : Heap E) : (sh : Shape E.Tag) → sh.Carrier E → Prop
  | .value, v => h.Has v
  | .hostValue, x => x.All fun v => h.Has v
  | .hostMap, m => m.All fun v => h.Has v
  | .table, t => h.Has (Value.table t)
  | .view, x => h.Has (Value.table x.table)
  | .function, f => h.Has (Value.function f.id)
  | .userdata, u => h.Has (Value.userdata u)
  | .object t, x => ∀ e ∈ E.contents t x, h.Has e
  | .ref t, r => h.Present t r.object
  | .option sh, x => ∀ y, x = some y → h.Supports sh y
  | .list sh, xs => ∀ y ∈ xs, h.Supports sh y
  | _, _ => True

mutual

theorem all_lasts {h h' : Heap E} (lasts : h.Lasts h') (x : HostValue) (all : x.All fun v => h.Has v) :
    x.All fun v => h'.Has v := by
  cases x with
  | function f | userdata u =>
    unfold HostValue.All at all ⊢
    exact lasts.has all
  | map m =>
    unfold HostValue.All at all ⊢
    exact allMap_lasts lasts m all
  | _ =>
    unfold HostValue.All
    trivial

theorem allMap_lasts {h h' : Heap E} (lasts : h.Lasts h') (m : HostMap)
    (all : m.All fun v => h.Has v) : m.All fun v => h'.Has v := by
  cases m with
  | empty =>
    unfold HostMap.All
    trivial
  | pair k v r =>
    unfold HostMap.All at all ⊢
    exact ⟨all_lasts lasts v all.1, allMap_lasts lasts r all.2⟩

end

theorem Lasts.supports {h h' : Heap E} (lasts : h.Lasts h') {sh : Shape E.Tag} {x : sh.Carrier E}
    (supported : h.Supports sh x) : h'.Supports sh x := by
  induction sh with
  | value | table | view | function | userdata => exact lasts.has supported
  | hostValue => exact all_lasts lasts x supported
  | hostMap => exact allMap_lasts lasts x supported
  | object t => exact fun e listed => lasts.has (supported e listed)
  | ref tag => exact lasts.present supported
  | option sh ih => exact fun y some => ih (supported y some)
  | list sh ih => exact fun y listed => ih (supported y listed)
  | _ => trivial

end Heap

namespace Run
open State
variable {E : Embedding} {H : Host E} {α β : Type} {s : State E}

theorem isReference_toValue (k : HostKey) : k.toValue.isReference = false := by cases k <;> rfl

mutual

theorem upholds_encodeHostValue {s : State E} (intact : s.Intact H) (x : HostValue)
    (all : x.All fun v => s.heap.Has v) :
    Upholds H (encodeHostValue x : Run E Value) s fun v t => t.heap.Has v := by
  cases x with
  | map m =>
    unfold HostValue.All at all
    unfold encodeHostValue
    refine (upholds_encodeHostMap intact m all .empty Heap.has_of_mem_empty).bind
      fun y t step held => ?_
    exact (upholds_allocTable step.intact held).bind fun m u step' has =>
      upholds_pure step'.intact has
  | function f | userdata u =>
    unfold HostValue.All at all
    unfold encodeHostValue
    exact upholds_pure intact all
  | _ =>
    unfold encodeHostValue
    exact upholds_pure intact (Heap.has_of_scalar rfl)

theorem upholds_encodeHostMap {s : State E} (intact : s.Intact H) (m : HostMap)
    (all : m.All fun v => s.heap.Has v) (x : Table) (given : ∀ v ∈ x.contents, s.heap.Has v) :
    Upholds H (encodeHostMap m x : Run E Table) s fun y t => ∀ v ∈ y.contents, t.heap.Has v := by
  cases m with
  | empty =>
    unfold encodeHostMap
    exact upholds_pure intact given
  | pair k v r =>
    unfold HostMap.All at all
    unfold encodeHostMap
    refine (upholds_encodeHostValue intact v all.1).bind fun value t step has => ?_
    have rest := Heap.allMap_lasts step.lasts r all.2
    have given' : ∀ v ∈ x.contents, t.heap.Has v := fun v held => step.lasts.has (given v held)
    split
    · exact upholds_encodeHostMap step.intact r rest x given'
    · refine (upholds_ofExcept
        (Q := fun (y : Table) u => u = t ∧ ∀ v ∈ y.contents, t.heap.Has v) step.intact
        fun y stored => ⟨rfl, ?_⟩).bind fun y u _ ⟨same, held⟩ => ?_
      · unfold Table.set at stored
        split at stored
        · contradiction
        · cases stored
          exact Heap.has_put (Heap.has_of_scalar (isReference_toValue k)) has given'
      · subst same
        exact upholds_encodeHostMap step.intact r rest y held

end

theorem upholds_mapM {f : α → Run E β} {P : α → Heap E → Prop} {Q : β → Heap E → Prop}
    (stable : ∀ a h h', h.Lasts h' → P a h → P a h')
    (lasts : ∀ b h h', h.Lasts h' → Q b h → Q b h')
    (each : ∀ a s, s.Intact H → P a s.heap → Upholds H (f a) s fun b t => Q b t.heap)
    (intact : s.Intact H) (xs : List α) (given : ∀ a ∈ xs, P a s.heap) :
    Upholds H (xs.mapM f) s fun bs t => ∀ b ∈ bs, Q b t.heap := by
  induction xs generalizing s with
  | nil =>
    rw [List.mapM_nil]
    exact upholds_pure intact fun _ none => absurd none List.not_mem_nil
  | cons x xs ih =>
    rw [List.mapM_cons]
    refine (each x s intact (given x List.mem_cons_self)).bind fun b t step found => ?_
    -- What the other elements hand over outlasts the step of the first.
    refine (ih step.intact fun a listed => stable a _ _ step.lasts
      (given a (List.mem_cons_of_mem _ listed))).bind fun bs u step' all => ?_
    exact upholds_pure step'.intact (List.forall_mem_cons.mpr ⟨lasts b _ _ step'.lasts found, all⟩)

theorem has_sequenceTable {h : Heap E} (vs : List Value) (given : ∀ v ∈ vs, h.Has v) :
    ∀ v ∈ (sequenceTable vs).contents, h.Has v := by
  have filled (p : Table × Int) (held : ∀ v ∈ p.1.contents, h.Has v) :
      ∀ v ∈ (vs.foldl (fun p v => (p.1.setInt p.2 v, p.2 + 1)) p).1.contents, h.Has v := by
    induction vs generalizing p with
    | nil => exact held
    | cons v vs ih =>
      have ⟨first, rest⟩ := List.forall_mem_cons.mp given
      apply ih rest
      dsimp only
      rw [p.1.setInt_eq_put]
      exact Heap.has_put (Heap.has_of_scalar rfl) first held
  exact filled (.empty, 1) Heap.has_of_mem_empty

theorem upholds_encode (intact : s.Intact H) (sh : Shape E.Tag) {x : sh.Carrier E}
    (supported : s.heap.Supports sh x) : Upholds H (encode H sh x) s fun v t => t.heap.Has v := by
  induction sh generalizing s with
  | value | table | view | function | userdata => exact upholds_pure intact supported
  | hostValue => exact upholds_encodeHostValue intact x supported
  | hostMap =>
    refine (upholds_encodeHostMap intact x supported .empty Heap.has_of_mem_empty).bind
      fun y t step held => ?_
    exact (upholds_allocTable step.intact held).bind fun m u step' has =>
      upholds_pure step'.intact has
  | object t =>
    refine (upholds_bindingFor intact t).bind fun b u step same => ?_
    have given : ∀ e ∈ E.contents t x, u.heap.Has e := by rwa [same]
    refine (upholds_allocObject step.intact t given).bind fun r v step' present => ?_
    exact (upholds_reflect step'.intact present).bind fun d w step'' has =>
      upholds_pure step''.intact has
  | ref t =>
    exact (upholds_carry intact supported).bind fun d w step found => upholds_pure step.intact found
  | option sh ih =>
    cases x with
    | none => exact upholds_pure intact (Heap.has_of_scalar rfl)
    | some x => exact ih intact (supported x rfl)
  | list sh ih =>
    refine (upholds_mapM (P := fun a h => h.Supports sh a) (Q := fun (v : Value) h => h.Has v)
      (fun a _ _ lasts => lasts.supports) (fun b _ _ lasts => lasts.has)
      (fun a s intact supported => ih intact supported) intact x supported).bind fun vs t step all => ?_
    exact (upholds_allocTable step.intact (has_sequenceTable vs all)).bind
      fun m u step' has => upholds_pure step'.intact has
  | _ => exact upholds_pure intact (Heap.has_of_scalar rfl)

end Run

/-- Every operation but the end of a statement, which alone releases. -/
def Op.Lasting {E : Embedding} : Op E → Prop
  | .settle _ => False
  | _ => True

/-- What an operation hands over lives. Operations that run other programs, and borrows that go on
after their operation, are left out. -/
def Op.Backed {E : Embedding} (H : Host E) (s : State E) : Op E → Prop
  | .push v => s.heap.Has v
  | .setRaw _ key value => s.heap.Has key ∧ s.heap.Has value
  | .assignMetatable _ m => ∀ t, m = some t → s.heap.Has (Value.table t)
  | .newObject t x | .write t _ x => ∀ e ∈ E.contents t x, s.heap.Has e
  | .reflect t r | .carry t r => s.heap.Present t r.object
  | .encode sh x => s.heap.Supports sh x
  | .setWorld w => ∀ e ∈ State.holdings H w, s.heap.Has e
  | .settle vars => ∀ e ∈ vars, s.heap.Has e
  | .call .. | .pcall .. | .callValue .. | .acquire .. | .release .. => False
  | _ => True

/-- Every operation that the program comes to perform is backed by the state that it is performed
in. -/
def Action.Backed {E : Embedding} {α : Type} (enter : Run.Enter E) (H : Host E) :
    Action E α → State E → Prop
  | Prog.done _, _ => True
  | Prog.abort _, _ => True
  | Prog.perform o next, s => Op.Backed H s o ∧
    match Run.perform enter H o s with
    | .ok a t => Backed enter H (next (.ok a)) t
    | .error (.raised e) t => Backed enter H (next (.error e)) t
    | .error (.panicked _) _ => True

namespace State
variable {E : Embedding} {H : Host E} {s : State E}

/-- What closing lets go of lives. -/
theorem has_emptyReachable {fuel : Nat} {h : Heap E} (intact : h.Intact) {pending done : List Value}
    (waiting : ∀ v ∈ pending, h.Has v) (gone : ∀ v ∈ done, h.Has v) :
    ∀ v ∈ (emptyReachable h fuel pending done).2, h.Has v := by
  induction fuel generalizing h pending done with
  | zero => exact fun v listed => gone v (List.mem_reverse.mp listed)
  | succ fuel ih =>
    cases pending with
    | nil => exact fun v listed => gone v (List.mem_reverse.mp listed)
    | cons v pending =>
      have ⟨first, rest⟩ := List.forall_mem_cons.mp waiting
      have gone' : ∀ w ∈ v :: done, h.Has w := List.forall_mem_cons.mpr ⟨first, gone⟩
      cases v with
      | table t =>
        -- Emptying a table takes nothing from what lives, so the rest of the list stays as it is.
        have step := intact.modifyTable (f := fun _ => .empty) t fun _ => Heap.has_of_mem_empty
        have same : (h.modifyTable t fun _ => .empty).Has = h.Has := by
          funext e
          simp only [Heap.Has, Heap.mem_living, h.made_modifyTable]
          rfl
        have waiting' : ∀ w ∈ (h.table t).contents.reverse ++ pending, h.Has w := fun w listed => by
          rcases List.mem_append.mp listed with held | later
          · exact Heap.has_children_table.mp (intact.held _ (first rfl)) w (List.mem_reverse.mp held)
          · exact rest w later
        have last := ih step.intact (same ▸ waiting') (same ▸ gone')
        rw [same] at last
        exact last
      | userdata u =>
        refine ih intact (fun w listed => ?_) gone'
        rcases List.mem_append.mp listed with held | later
        · have kept := intact.held _ (first rfl)
          simp only [Heap.children] at kept
          cases known : h.userdata? u with
          | none => simp [Heap.metatable, known] at held
          | some d =>
            rw [known] at kept
            simp only [Heap.metatable, known, Option.bind_some, Option.mem_toList,
              Option.map_eq_some_iff] at held
            obtain ⟨m, own, rfl⟩ := held
            exact (Heap.has_contents.mp kept).2 m own
        · exact rest w later
      | _ => exact ih intact rest gone'

theorem Intact.close (intact : s.Intact H) : s.Step H s.close := by
  have heap := intact.heap.sweep s.sweeps_close s.close_heap
  refine ⟨⟨heap.intact, fun e root => heap.lasts.has ?_, fun v listed counts => heap.lasts.made _ ?_⟩,
    heap.lasts⟩
  · rcases mem_roots.mp root with ⟨v, mine | waits, rfl⟩ | rest
    · have kept : v = .table s.globals ∨ v = .table s.registry := by
        simpa [State.own, State.close, Stack.clear] using mine
      apply intact.own
      simp only [State.own, List.mem_append, List.mem_cons, List.not_mem_nil, or_false]
      exact .inl (.inr kept)
    · exact intact.roots v (mem_roots.mpr (.inl ⟨v, .inr waits, rfl⟩))
    · exact intact.roots e (mem_roots.mpr (.inr rest))
  · rcases List.mem_append.mp listed with before | new
    · exact intact.dropped v before counts
    · have has :=
        has_emptyReachable intact.heap (fun v listed => intact.own (List.mem_reverse.mp listed))
        (fun _ none => absurd none List.not_mem_nil) v new
      exact (Heap.mem_living.mp (has counts)).1

end State

namespace Run
open State
variable {E : Embedding} {H : Host E} {α : Type} {s : State E}

theorem upholds_callableOf (intact : s.Intact H) (f : FunctionId) :
    Upholds H (callableOf f : Run E (Callable E)) s fun _ _ => True := by
  refine upholds_get_bind ?_
  cases s.heap.callable? f with
  | some c => exact upholds_pure intact trivial
  | none => exact upholds_raise intact _

theorem upholds_perform (enter : Enter E) (intact : s.Intact H) {o : Op E} (backed : o.Backed H s)
    (lasting : o.Lasting) : Upholds H (perform enter H o) s fun _ _ => True := by
  have answered {β : Type} {f : State E → β} :
      Upholds H (get >>= fun s => pure (f s) : Run E β) s fun _ _ => True :=
    upholds_get_bind (upholds_pure intact trivial)
  have looked {β : Type} {f : State E → Except Error β} : Upholds H (read f) s fun _ _ => True :=
    upholds_read intact fun _ _ => trivial
  have done {β : Type} {m : Run E β} {Q : β → State E → Prop} (upholds : Upholds H m s Q) :
      Upholds H m s fun _ _ => True := upholds.mono fun _ _ _ _ => trivial
  cases o with
  | top | argument | table | metatable | globals | registry | thunkCount | callDepth | shareCount
  | isRegistered | config | display | listing | describe | world => exact answered
  | slot i | absolute i | decode sh v => exact looked
  | setTop i => exact upholds_setTop intact i
  | push v => exact upholds_push intact backed
  | pop => exact done (upholds_pop intact)
  | drop n => exact upholds_drop intact n
  | insert i => exact upholds_insert intact i
  | remove i => exact upholds_remove intact i
  | replace i => exact upholds_replace intact i
  | newTable => exact done (upholds_allocTable intact Heap.has_of_mem_empty)
  | setRaw t k v => exact upholds_setRaw intact t backed.1 backed.2
  | assignMetatable v m => exact upholds_assignMetatable intact v backed
  | newNative name code => exact upholds_newCallable intact (c := ⟨name, .native code⟩) nofun
  | newClosure name code => exact upholds_newCallable intact (c := ⟨name, .closure code⟩) nofun
  | newForeign name expected =>
    exact upholds_newCallable intact (c := ⟨name, .foreign expected⟩) nofun
  | functionName f | signature f =>
    exact (upholds_callableOf intact f).bind fun c t step _ => upholds_pure step.intact trivial
  | takeError | setPolicy => exact ⟨intact.framed rfl rfl fun _ => .inl, trivial⟩
  | newObject t x => exact done (upholds_allocObject intact t backed)
  | reflect t r => exact done (upholds_reflect intact backed)
  | carry t r => exact done (upholds_carry intact backed)
  | tagOf u =>
    refine upholds_get_bind ?_
    cases s.heap.userdata? u with
    | some d => exact upholds_pure intact trivial
    | none => exact upholds_raise intact _
  | read t r => exact looked.bind fun _ u step _ => upholds_read step.intact fun _ _ => trivial
  | write t r x =>
    refine (upholds_read (Q := fun _ u => u = s) intact fun _ _ => rfl).bind fun _ u _ same => ?_
    subst same
    exact upholds_modifyHeap intact (intact.heap.setPayload r backed)
  | registerType t =>
    refine (upholds_bindingFor intact t).bind fun b u step _ => ?_
    exact (upholds_install step.intact t).bind fun m u step _ => upholds_pure step.intact trivial
  | encode sh x => exact done (upholds_encode intact sh backed)
  | setWorld w => exact ⟨intact.setWorld backed, trivial⟩
  | close => exact ⟨intact.close, trivial⟩
  | settle => exact lasting.elim
  | call | pcall | callValue | acquire | release => exact backed.elim

end Run
end HostBridge
