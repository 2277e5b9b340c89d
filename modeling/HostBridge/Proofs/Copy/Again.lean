import HostBridge.Proofs.Run.OffFrame
import HostBridge.Proofs.Run.Operations
import HostBridge.Proofs.Table.Contents
import HostBridge.Proofs.Table.FiniteMap

namespace HostBridge

namespace Table

theorem keyFault?_ne_overflow {key : Value} : keyFault? key ≠ some .stackOverflow := by
  rw [keyFault?_eq]
  split
  · exact nofun
  · split <;> exact nofun

end Table

namespace State
variable {E : Embedding}

/-- A registry that has got the metatables of host types, each under the name of its type. -/
def withTypes (x : Table) (new : List (E.Tag × String × TableId)) : Table :=
  new.foldl (fun x e => x.setStr e.2.1 (.table e.2.2)) x

/-- `t` has all that `s` has, and maybe more. Their frames are not compared, and the registry may
have got the metatables of host types, but nothing else. -/
structure Later (s t : State E) : Prop where
  rest : t = { s.inFrameOf t with
    heap := t.heap, compiled := t.compiled, typeMetatables := t.typeMetatables }
  types : ∃ new : List (E.Tag × String × TableId),
    t.typeMetatables = s.typeMetatables ++ new.map (fun e => (e.1, e.2.2)) ∧
    (s.registry.index < s.heap.tables.size →
      t.heap.table s.registry = withTypes (s.heap.table s.registry) new)
  size : s.heap.tables.size ≤ t.heap.tables.size
  table : ∀ u : TableId, u.index < s.heap.tables.size → u ≠ s.registry →
    t.heap.table u = s.heap.table u
  callable : ∀ f c, s.heap.callable? f = some c → t.heap.callable? f = some c
  userdata : ∀ u d, s.heap.userdata? u = some d → t.heap.userdata? u = some d
  object : ∀ i o, s.heap.object? i = some o → t.heap.object? i = some o

variable {s t u : State E}

theorem later_inFrameOf (s t : State E) : s.Later (s.inFrameOf t) :=
  ⟨rfl, ⟨[], (List.append_nil _).symm, fun _ => rfl⟩, Nat.le_refl _, fun _ _ _ => rfl,
    fun _ _ => id, fun _ _ => id, fun _ _ => id⟩

theorem Later.refl (s : State E) : s.Later s := later_inFrameOf s s

theorem Later.registry (later : s.Later t) : t.registry = s.registry := by
  have same := congrArg State.registry later.rest
  exact same

theorem Later.registered (later : s.Later t) (registered : s.registry.index < s.heap.tables.size) :
    t.registry.index < t.heap.tables.size :=
  later.registry ▸ Nat.lt_of_lt_of_le registered later.size

theorem Later.trans (first : s.Later t) (second : t.Later u) : s.Later u where
  rest := second.rest.trans (congrArg (fun x : State E =>
    { x.inFrameOf u with
      heap := u.heap, compiled := u.compiled, typeMetatables := u.typeMetatables }) first.rest)
  types := by
    obtain ⟨new, types, filled⟩ := first.types
    obtain ⟨new', types', filled'⟩ := second.types
    refine ⟨new ++ new', ?_, fun registered => ?_⟩
    · rw [types', types, List.map_append, List.append_assoc]
    · have later := filled' (first.registered registered)
      rw [first.registry, filled registered] at later
      exact later.trans List.foldl_append.symm
  size := Nat.le_trans first.size second.size
  table x below other :=
    (second.table x (Nat.lt_of_lt_of_le below first.size) (first.registry ▸ other)).trans
      (first.table x below other)
  callable f c known := second.callable f c (first.callable f c known)
  userdata x d known := second.userdata x d (first.userdata x d known)
  object i o known := second.object i o (first.object i o known)

theorem Later.typeMetatable? (later : s.Later t) {tag : E.Tag} {m : TableId}
    (known : s.typeMetatable? tag = some m) : t.typeMetatable? tag = some m := by
  obtain ⟨new, types, -⟩ := later.types
  unfold State.typeMetatable? at *
  rw [types, List.find?_append]
  cases found : s.typeMetatables.find? (·.1 = tag) with
  | none =>
    rw [found] at known
    contradiction
  | some p =>
    rw [found] at known
    exact known

theorem later_withHeap {s : State E} {h : Heap E} (size : s.heap.tables.size ≤ h.tables.size)
    (table : ∀ u : TableId, u.index < s.heap.tables.size → h.table u = s.heap.table u)
    (callable : ∀ f c, s.heap.callable? f = some c → h.callable? f = some c)
    (userdata : ∀ u d, s.heap.userdata? u = some d → h.userdata? u = some d)
    (object : ∀ i o, s.heap.object? i = some o → h.object? i = some o) :
    s.Later { s with heap := h } :=
  ⟨rfl, ⟨[], (List.append_nil _).symm, table s.registry⟩, size, fun u below _ => table u below,
    callable, userdata, object⟩

theorem later_compile (s : State E) (t : E.Tag) : s.Later (s.compile t) :=
  ⟨rfl, ⟨[], (List.append_nil _).symm, fun _ => rfl⟩, Nat.le_refl _, fun _ _ _ => rfl,
    fun _ _ => id, fun _ _ => id, fun _ _ => id⟩

theorem later_allocTable (s : State E) (x : Table) :
    s.Later { s with heap := (s.heap.allocTable x).2 } := by
  refine later_withHeap ?_ (fun u below => ?_) (fun _ _ => id) (fun _ _ => id) fun _ _ => id
  · rw [Heap.allocTable, Array.size_push]
    exact Nat.le_succ _
  · rw [Heap.table_allocTable, if_neg (Nat.ne_of_lt below)]

theorem getElem?_push_of_some {α : Type} {a : Array α} {i : Nat} {x : α} (known : a[i]? = some x)
    (y : α) : (a.push y)[i]? = some x := by
  rw [Array.getElem?_push, if_neg (Nat.ne_of_lt (Array.getElem?_eq_some_iff.mp known).1), known]

theorem Later.table_new {s w : State E} {x : Table}
    (registered : s.registry.index < s.heap.tables.size)
    (later : Later { s with heap := (s.heap.allocTable x).2 } w) :
    w.heap.table ⟨s.heap.tables.size⟩ = x := by
  have below : s.heap.tables.size < (s.heap.allocTable x).2.tables.size := by
    rw [Heap.allocTable, Array.size_push]
    exact Nat.lt_succ_self _
  have kept := later.table ⟨s.heap.tables.size⟩ below fun isRegistry =>
    Nat.ne_of_gt registered (congrArg TableId.index isRegistry)
  rw [kept, Heap.table_allocTable, if_pos rfl]

theorem later_allocCallable (s : State E) (c : Callable E) :
    s.Later { s with heap := (s.heap.allocCallable c).2 } :=
  later_withHeap (Nat.le_refl _) (fun _ _ => rfl)
    (fun _ _ known => getElem?_push_of_some known c) (fun _ _ => id) fun _ _ => id

theorem later_allocUserdata (s : State E) (d : Userdata E) :
    s.Later { s with heap := (s.heap.allocUserdata d).2 } :=
  later_withHeap (Nat.le_refl _) (fun _ _ => rfl) (fun _ _ => id)
    (fun _ _ known => getElem?_push_of_some known d) fun _ _ => id

theorem later_allocObject (s : State E) (o : Object E) :
    s.Later { s with heap := (s.heap.allocObject o).2 } :=
  later_withHeap (Nat.le_refl _) (fun _ _ => rfl) (fun _ _ => id) (fun _ _ => id)
    fun _ _ known => getElem?_push_of_some known o

end State

namespace Heap
variable {E : Embedding}

/-- The two values cannot be told apart but by the numbers of objects: tables hold like values under
the same keys, and userdata share an object or have two equal ones. -/
inductive Alike (h : Heap E) : Value → Value → Prop
  | same (v : Value) : Alike h v v
  | tables {t t' : TableId} (metatable : (h.table t).metatable = (h.table t').metatable)
      (contents : ∀ key, Alike h ((h.table t).get key) ((h.table t').get key)) :
      Alike h (.table t) (.table t')
  | userdata {u u' : UserdataId} {d : Userdata E} {o : ObjectId} (known : h.userdata? u = some d)
      (known' : h.userdata? u' = some { d with object := o })
      (object : h.object? d.object = h.object? o) : Alike h (.userdata u) (.userdata u')

structure AlikeTables (h : Heap E) (x x' : Table) : Prop where
  metatable : x.metatable = x'.metatable
  contents : ∀ key, h.Alike (x.get key) (x'.get key)

theorem AlikeTables.refl (h : Heap E) (x : Table) : h.AlikeTables x x :=
  ⟨rfl, fun _ => .same _⟩

theorem AlikeTables.put {h : Heap E} {x x' : Table} (alike : h.AlikeTables x x') (valid : x.Valid)
    (valid' : x'.Valid) {key v v' : Value} (isKey : key.isKey = true) (values : h.Alike v v') :
    h.AlikeTables (x.put key v) (x'.put key v') where
  metatable := by
    rw [Table.metatable_put, Table.metatable_put]
    exact alike.metatable
  contents k := by
    rw [Table.get_put valid isKey, Table.get_put valid' isKey]
    split
    · exact values
    · exact alike.contents k

theorem Alike.isNil {h : Heap E} {v v' : Value} (alike : h.Alike v v') : v.isNil = v'.isNil := by
  cases alike <;> rfl

end Heap

namespace Run
open State
variable {E : Embedding} {α β : Type} {H : Host E}

/-- The run only adds to the state, and never fails for want of stack. -/
def Adds (m : Run E α) : Prop :=
  ∀ s, match m s with
    | .ok _ t => s.Later t
    | .error f _ => f ≠ .raised .stackOverflow

theorem Adds.of_ok {m : Run E α} (adds : Adds m) {s t : State E} {a : α} (ran : m s = .ok a t) :
    s.Later t := by
  have added := adds s
  rw [ran] at added
  exact added

theorem Adds.of_error {m : Run E α} (adds : Adds m) {s t : State E} {f : Fault}
    (ran : m s = .error f t) : f ≠ .raised .stackOverflow := by
  have added := adds s
  rw [ran] at added
  exact added

theorem adds_pure (a : α) : Adds (pure a : Run E α) := .refl

theorem adds_ofExcept {r : Except Error α} (other : r ≠ .error .stackOverflow) :
    Adds (ofExcept r : Run E α) := by
  cases r with
  | ok a => exact adds_pure a
  | error e => exact fun s same => other (congrArg Except.error (Fault.raised.inj same))

theorem adds_bind {m : Run E α} {f : α → Run E β} (first : Adds m) (rest : ∀ a, Adds (f a)) :
    Adds (m >>= f) := by
  intro s
  rw [bind_eq]
  cases ran : m s with
  | ok a t =>
    have later := first.of_ok ran
    have added := rest a t
    simp only
    cases ran' : f a t with
    | ok b u =>
      rw [ran'] at added
      exact later.trans added
    | error e u =>
      rw [ran'] at added
      exact added
  | error e t => exact first.of_error ran

theorem adds_get_bind {f : State E → Run E α} (rest : ∀ s, Adds (f s)) : Adds (get >>= f) :=
  fun s => rest s s

theorem adds_allocTable (x : Table) : Adds (allocTable x : Run E TableId) :=
  fun s => later_allocTable s x

theorem adds_allocCallable (c : Callable E) : Adds (allocCallable c) :=
  fun s => later_allocCallable s c

theorem adds_allocUserdata (d : Userdata E) : Adds (allocUserdata d) :=
  fun s => later_allocUserdata s d

theorem adds_allocObject (t : E.Tag) (x : E.Payload t) : Adds (allocObject t x) :=
  fun s => later_allocObject s _

theorem adds_addHooks (t : E.Tag) (name : String) (es : List Event) (x : Table) :
    Adds (addHooks t name es x : Run E Table) := by
  induction es generalizing x with
  | nil => exact adds_pure x
  | cons e es ih => exact adds_bind (adds_allocCallable _) fun f => ih _

theorem operatorFault?_ne_overflow {t : E.Tag} {type : String} {seen : List Event}
    {os : List (Operator E t)} :
    Binding.operatorFault? type seen os ≠ some .stackOverflow := by
  induction os generalizing seen with
  | nil => exact nofun
  | cons o os ih =>
    rw [Binding.operatorFault?]
    split
    · exact nofun
    · split
      · exact nofun
      · exact ih

/-- What a host type declares may be refused, but never for want of stack. -/
theorem binding_ne_overflow (H : Host E) (t : E.Tag) :
    H.binding t ≠ .error .stackOverflow := by
  unfold Host.binding Binding.build
  simp only
  intro same
  split at same
  · cases same
  · split at same
    · rename_i e fault
      exact operatorFault?_ne_overflow (Except.error.inj same ▸ fault)
    · cases same

/-- A metatable and its entry in the registry make a type an installed one. -/
def publish (t : E.Tag) (name : String) (m : TableId) : Run E TableId := do
  setStr (← get).registry name (.table m)
  modify fun s => { s with typeMetatables := s.typeMetatables ++ [(t, m)] }
  return m

theorem adds_publish (t : E.Tag) (name : String) (m : TableId) : Adds (publish t name m) := by
  refine fun s => ⟨rfl, ⟨[(t, name, m)], rfl, fun registered => ?_⟩, ?_, fun u below other => ?_,
    fun _ _ => id, fun _ _ => id, fun _ _ => id⟩
  · exact (Heap.table_modifyTable _ _ _ _).trans (if_pos ⟨rfl, registered⟩)
  · exact Nat.le_of_eq Array.size_modify.symm
  · exact (Heap.table_modifyTable _ _ _ _).trans (if_neg fun here =>
      other (congrArg TableId.mk here.1).symm)

theorem adds_bindingFor (H : Host E) (t : E.Tag) : Adds (bindingFor H t) := by
  refine adds_bind (adds_ofExcept (binding_ne_overflow H t)) fun b => ?_
  exact adds_bind (fun s => later_compile s t) fun _ => adds_get_bind fun _ => adds_pure _

theorem adds_install (H : Host E) (t : E.Tag) : Adds (install H t) := by
  refine adds_get_bind fun s => ?_
  cases s.typeMetatable? t with
  | some m => exact adds_pure m
  | none =>
    refine adds_bind (adds_ofExcept (binding_ne_overflow H t)) fun b => ?_
    refine adds_bind (adds_addHooks _ _ _ _) fun x => ?_
    exact adds_bind (adds_allocTable x) fun m => adds_publish t b.name m

theorem adds_set (x : Table) (key v : Value) : Adds (ofExcept (x.set key v) : Run E Table) := by
  apply adds_ofExcept
  unfold Table.set
  cases fault : Table.keyFault? key with
  | none => exact nofun
  | some e => exact fun same => Table.keyFault?_ne_overflow (Except.error.inj same ▸ fault)

theorem adds_converts (H : Host E) : Converts (E := E) H fun _ => Adds where
  pure := adds_pure
  bind := adds_bind
  set := adds_set
  binding := adds_bindingFor H
  install := adds_install H
  allocTable := adds_allocTable
  allocObject := adds_allocObject
  allocUserdata := adds_allocUserdata

theorem adds_encode (H : Host E) (s : Shape E.Tag) (x : s.Carrier E) : Adds (encode H s x) :=
  converted_encode (adds_converts H) s x

/-- When the run has given an answer, it will give an answer again, related to the first. -/
def Again (R : Heap E → α → α → Prop) (m : Run E α) : Prop :=
  ∀ s a t, s.registry.index < s.heap.tables.size → m s = .ok a t → ∀ t', t.Later t' →
    ∃ a' u, m t' = .ok a' u ∧ ∀ w, u.Later w → R w.heap a a'

theorem again_pure {R : Heap E → α → α → Prop} (refl : ∀ h a, R h a a) (a : α) :
    Again R (pure a : Run E α) := by
  intro s b t _ ran t' _
  cases ran
  exact ⟨a, t', rfl, fun w _ => refl w.heap a⟩

theorem again_newTable {m : Run E Table} (adds : Adds m) (again : Again Heap.AlikeTables m) :
    Again Heap.Alike (do return .table (← allocTable (← m)) : Run E Value) := by
  intro s v t registered ran t' later
  rw [bind_eq] at ran
  cases first : m s with
  | error e s₁ =>
    rw [first] at ran
    contradiction
  | ok x s₁ =>
    rw [first] at ran
    cases ran
    have before := adds.of_ok first
    have registered₁ := before.registered registered
    have since := (later_allocTable s₁ x).trans later
    obtain ⟨x', u, second, alike⟩ := again s x s₁ registered first t' since
    have after := adds.of_ok second
    have registered' := (since.trans after).registered registered₁
    refine ⟨.table ⟨u.heap.tables.size⟩, { u with heap := (u.heap.allocTable x').2 }, ?_, ?_⟩
    · rw [bind_eq, second]
      rfl
    · intro w last
      have last' := (later_allocTable u x').trans last
      have old := Later.table_new registered₁ ((later.trans after).trans last')
      have new := Later.table_new registered' last
      have contents := alike w last'
      exact .tables (old ▸ new ▸ contents.metatable) (old ▸ new ▸ contents.contents)

theorem again_mapM (H : Host E) {f : β → Run E Value} (adds : ∀ x, Adds (f x))
    (each : ∀ x, Again Heap.Alike (f x)) (xs : List β) :
    Again (fun h => List.Forall₂ h.Alike) (xs.mapM f) := by
  induction xs with
  | nil =>
    rw [List.mapM_nil]
    intro s vs t _ ran t' _
    cases ran
    exact ⟨[], t', rfl, fun _ _ => .nil⟩
  | cons x xs ih =>
    intro s vs t registered ran t' later
    rw [List.mapM_cons, bind_eq] at ran ⊢
    cases first : f x s with
    | error e s₁ =>
      rw [first] at ran
      contradiction
    | ok v s₁ =>
      rw [first] at ran
      simp only [bind_eq] at ran
      cases rest : xs.mapM f s₁ with
      | error e s₂ =>
        rw [rest] at ran
        contradiction
      | ok ws s₂ =>
        rw [rest] at ran
        cases ran
        have before := (adds x).of_ok first
        have between := (converted_mapM (adds_converts H) adds xs).of_ok rest
        obtain ⟨v', u₁, first', alike⟩ := each x s v s₁ registered first t' (between.trans later)
        have after := (adds x).of_ok first'
        obtain ⟨ws', u, rest', alikes⟩ := ih s₁ ws _ (before.registered registered) rest u₁
          (later.trans after)
        refine ⟨v' :: ws', u, ?_, fun w since => .cons (alike w ?_) (alikes w since)⟩
        · simp only [first', bind_eq, rest']
          rfl
        · exact ((converted_mapM (adds_converts H) adds xs).of_ok rest').trans since

theorem alikeTables_foldl {h : Heap E} {vs vs' : List Value} (alikes : List.Forall₂ h.Alike vs vs')
    {x x' : Table} (alike : h.AlikeTables x x') (valid : x.Valid) (valid' : x'.Valid) (i : Int) :
    h.AlikeTables (vs.foldl (fun (x, i) v => (x.setInt i v, i + 1)) (x, i)).1
      (vs'.foldl (fun (x, i) v => (x.setInt i v, i + 1)) (x', i)).1 := by
  induction alikes generalizing x x' i with
  | nil => exact alike
  | @cons v v' _ _ values _ ih =>
    have isKey := Value.isKey_ofInt i
    have stored := alike.put valid valid' isKey values
    have valid := valid.put isKey v
    have valid' := valid'.put isKey v'
    rw [← Table.setInt_eq_put] at stored valid valid'
    rw [← Table.setInt_eq_put] at stored
    exact ih stored valid valid' (i + 1)

theorem again_sequence {m : Run E (List Value)} (adds : Adds m)
    (again : Again (fun h => List.Forall₂ h.Alike) m) :
    Again Heap.Alike (do
      let vs ← m
      return .table (← allocTable (sequenceTable vs)) : Run E Value) := by
  have filled : Again Heap.AlikeTables (sequenceTable <$> m) := by
    intro s x t registered ran t' later
    rw [map_eq_pure_bind, bind_eq] at ran ⊢
    cases first : m s with
    | error e s₁ =>
      rw [first] at ran
      contradiction
    | ok vs s₁ =>
      rw [first] at ran
      cases ran
      obtain ⟨vs', u, second, alikes⟩ := again s vs _ registered first t' later
      refine ⟨sequenceTable vs', u, by rw [second]; rfl, fun w since => ?_⟩
      exact alikeTables_foldl (alikes w since) (.refl _ _) .empty .empty 1
  have adds' : Adds (sequenceTable <$> m) := by
    rw [map_eq_pure_bind]
    exact adds_bind adds fun vs => adds_pure _
  have table := again_newTable adds' filled
  simpa only [map_eq_pure_bind, bind_assoc, pure_bind] using table

mutual

theorem again_encodeHostValue (H : Host E) (x : HostValue) :
    Again Heap.Alike (encodeHostValue x : Run E Value) := by
  cases x with
  | map m =>
    unfold encodeHostValue
    refine again_newTable (converted_encodeHostMap (adds_converts H) m .empty) ?_
    intro s x t registered ran t' later
    obtain ⟨x', u, ran', alike⟩ := again_encodeHostMap H m registered ran later .empty .empty
    exact ⟨x', u, ran', fun w since => alike w since (.refl _ _)⟩
  | _ =>
    unfold encodeHostValue
    exact again_pure (fun _ => .same) _

theorem again_encodeHostMap (H : Host E) (m : HostMap) {s t t' : State E} {x x' y : Table}
    (registered : s.registry.index < s.heap.tables.size) (ran : encodeHostMap m x s = .ok y t)
    (later : t.Later t') (valid : x.Valid) (valid' : x'.Valid) :
    ∃ y' u, encodeHostMap m x' t' = .ok y' u ∧
      ∀ w, u.Later w → w.heap.AlikeTables x x' → w.heap.AlikeTables y y' := by
  cases m with
  | empty =>
    rw [encodeHostMap] at ran ⊢
    cases ran
    exact ⟨x', t', rfl, fun _ _ => id⟩
  | pair k v r =>
    rw [encodeHostMap_pair] at ran ⊢
    cases first : encodeHostValue v s with
    | error e s₁ =>
      rw [first] at ran
      contradiction
    | ok value s₁ =>
      have registered₁ := ((converted_encodeHostValue (adds_converts H) v).of_ok first).registered
        registered
      have rest : ∀ z, encodeHostMap r z s₁ = .ok y t → s₁.Later t' := fun z ran =>
        ((converted_encodeHostMap (adds_converts H) r z).of_ok ran).trans later
      rw [first] at ran
      simp only at ran
      have since : s₁.Later t' := by
        split at ran
        · exact rest _ ran
        · split at ran
          · exact rest _ ran
          · contradiction
      obtain ⟨value', u₁, first', alike⟩ := again_encodeHostValue H v s value s₁ registered first t'
        since
      have after := (converted_encodeHostValue (adds_converts H) v).of_ok first'
      have isNil := (alike u₁ (.refl u₁)).isNil
      simp only [first', ← isNil]
      cases empty : value.isNil with
      | true =>
        simp only [empty, if_true] at ran ⊢
        exact again_encodeHostMap H r registered₁ ran (later.trans after) valid valid'
      | false =>
        simp only [empty, Bool.false_eq_true, if_false] at ran ⊢
        cases fault : Table.keyFault? k.toValue with
        | some e =>
          simp only [Table.set, fault] at ran
          contradiction
        | none =>
          have isKey := Table.keyFault?_eq_none_iff.mp fault
          simp only [Table.set, fault] at ran ⊢
          obtain ⟨y', u, rest', alikes⟩ := again_encodeHostMap H r registered₁ ran
            (later.trans after) (valid.put isKey value) (valid'.put isKey value')
          have last := (converted_encodeHostMap (adds_converts H) r _).of_ok rest'
          exact ⟨y', u, rest', fun w since tables =>
            alikes w since (tables.put valid valid' isKey (alike w (last.trans since)))⟩

end

theorem again_encodeHostMap_empty (H : Host E) (m : HostMap) :
    Again Heap.AlikeTables (encodeHostMap m .empty : Run E Table) := by
  intro s x t registered ran t' later
  obtain ⟨x', u, ran', alike⟩ := again_encodeHostMap H m registered ran later .empty .empty
  exact ⟨x', u, ran', fun w since => alike w since (.refl _ _)⟩

section Reflected
variable {t : E.Tag} {r : HostRef E t} {s s' : State E}

def reflected (r : HostRef E t) (m : TableId) : Userdata E := ⟨t, r.object, some m, true, false⟩

theorem reflect_of_install {b : Binding E t} (bound : H.binding t = .ok b) {m : TableId}
    (installed : install H t (s.compile t) = .ok m s') :
    reflect H t r s = .ok ⟨s'.heap.userdata.size⟩
      { s' with heap := (s'.heap.allocUserdata (reflected r m)).2 } := by
  simp only [reflect, bind_eq, bindingFor_of_bound bound, installed]
  rfl

theorem reflect_of_known {b : Binding E t} (bound : H.binding t = .ok b) {m : TableId}
    (known : s.typeMetatable? t = some m) :
    reflect H t r s = .ok ⟨s.heap.userdata.size⟩
      { s.compile t with heap := (s.heap.allocUserdata (reflected r m)).2 } :=
  reflect_of_install bound (install_of_known known)

theorem reflect_cases {u : UserdataId} (ran : reflect H t r s = .ok u s') :
    ∃ b m s₁, H.binding t = .ok b ∧ install H t (s.compile t) = .ok m s₁ ∧
      u = ⟨s₁.heap.userdata.size⟩ ∧ s' = { s₁ with heap := (s₁.heap.allocUserdata (reflected r m)).2 } := by
  cases bound : H.binding t with
  | error e =>
    simp only [reflect, bind_eq, bindingFor_of_refused bound] at ran
    contradiction
  | ok b =>
    simp only [reflect, bind_eq, bindingFor_of_bound bound] at ran
    cases installed : install H t (s.compile t) with
    | error e s₁ =>
      rw [installed] at ran
      contradiction
    | ok m s₁ =>
      rw [installed] at ran
      cases ran
      exact ⟨b, m, s₁, rfl, rfl, rfl, rfl⟩

theorem encode_object (x : E.Payload t) (s : State E) :
    encode H (.object t) x s = match H.binding t with
      | .error e => .error (.raised e) s
      | .ok _ => match reflect H t ⟨⟨s.heap.objects.size⟩⟩
          { s.compile t with heap := (s.heap.allocObject ⟨t, x, {}⟩).2 } with
        | .ok u s' => .ok (.userdata u) s'
        | .error f s' => .error f s' := by
  have made : allocObject t x (s.compile t) = .ok ⟨⟨s.heap.objects.size⟩⟩
      { s.compile t with heap := (s.heap.allocObject ⟨t, x, {}⟩).2 } := rfl
  rw [encode, bind_eq]
  cases bound : H.binding t with
  | error e => rw [bindingFor_of_refused bound]
  | ok b =>
    simp only [bindingFor_of_bound bound, bind_eq, made]
    cases reflect H t ⟨⟨s.heap.objects.size⟩⟩
      { s.compile t with heap := (s.heap.allocObject ⟨t, x, {}⟩).2 } <;> rfl

theorem again_object (x : E.Payload t) : Again Heap.Alike (encode H (.object t) x) := by
  intro s v s' _ ran t' later
  rw [encode_object] at ran
  cases reflects : reflect H t ⟨⟨s.heap.objects.size⟩⟩
      { s.compile t with heap := (s.heap.allocObject ⟨t, x, {}⟩).2 } with
  | error f s₁ =>
    rw [reflects] at ran
    split at ran <;> contradiction
  | ok u s₁ =>
    obtain ⟨b, m, s₂, bound, installed, rfl, rfl⟩ := reflect_cases reflects
    rw [bound, reflects] at ran
    cases ran
    -- From here on the type is installed, so that the next object gets the same metatable.
    let d : Userdata E := reflected (t := t) ⟨⟨s.heap.objects.size⟩⟩ m
    have made := later_allocUserdata s₂ d
    have known := made.typeMetatable? (known_of_install installed)
    have again := reflect_of_known (r := ⟨⟨t'.heap.objects.size⟩⟩)
      (s := { t'.compile t with heap := (t'.heap.allocObject ⟨t, x, {}⟩).2 }) bound
      (later.typeMetatable? known)
    refine ⟨.userdata ⟨t'.heap.userdata.size⟩, _, by rw [encode_object, bound, again]; rfl,
      fun w since => ?_⟩
    have since' := (later_allocUserdata _ _).trans since
    have last := (later_compile t' t).trans <|
      (later_allocObject _ ⟨t, x, {}⟩).trans ((later_compile _ t).trans since')
    have mine := (later.trans last).userdata ⟨s₂.heap.userdata.size⟩ _ Array.getElem?_push_size
    have new := since.userdata ⟨t'.heap.userdata.size⟩ _ Array.getElem?_push_size
    refine .userdata mine new ?_
    have object := ((((adds_install H t).of_ok installed).trans made).trans
      (later.trans last)).object ⟨s.heap.objects.size⟩ _ Array.getElem?_push_size
    have object' := since'.object ⟨t'.heap.objects.size⟩ _ Array.getElem?_push_size
    exact object.trans object'.symm

theorem again_ref (r : HostRef E t) : Again Heap.Alike (encode H (.ref t) r) := by
  intro s v s' _ ran t' later
  cases ran
  refine ⟨.userdata ⟨t'.heap.userdata.size⟩, _, rfl, fun w since => ?_⟩
  have first := ((later.trans (later_allocUserdata t' _)).trans since).userdata
    ⟨s.heap.userdata.size⟩ _ Array.getElem?_push_size
  have again := since.userdata ⟨t'.heap.userdata.size⟩ _ Array.getElem?_push_size
  exact .userdata first again rfl

end Reflected

theorem again_encode (H : Host E) (s : Shape E.Tag) (x : s.Carrier E) :
    Again Heap.Alike (encode H s x) := by
  induction s with
  | hostValue => exact again_encodeHostValue H x
  | hostMap =>
    exact again_newTable (converted_encodeHostMap (adds_converts H) x .empty)
      (again_encodeHostMap_empty H x)
  | object t => exact again_object x
  | ref t => exact again_ref x
  | option s ih =>
    cases x with
    | none => exact again_pure (fun _ => .same) Value.nil
    | some x => exact ih x
  | list s ih =>
    have adds := converted_mapM (adds_converts H) (adds_encode H s) x
    exact again_sequence adds (again_mapM H (adds_encode H s) ih x)
  | _ => exact again_pure (fun _ => .same) _

end Run
end HostBridge
