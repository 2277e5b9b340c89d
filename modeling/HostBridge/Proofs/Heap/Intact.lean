import HostBridge.Proofs.Heap.Release
import HostBridge.Proofs.Heap.Sweep
import HostBridge.Proofs.Table.Contents
/-!
Heaps in which all that lives refers to what lives. Every object that is made and every write keeps
this, if what is written lives; none of them brings a released object back.
-/
namespace HostBridge
namespace Heap
variable {E : Embedding}

def Has (h : Heap E) (e : Entity) : Prop := e.isReference = true → e ∈ h.living

structure Intact (h : Heap E) : Prop where
  held : ∀ e ∈ h.living, ∀ d ∈ h.children e, h.Has d
  released : ∀ e, h.released.contains e = true → h.Made e
  typed : ∀ u d, h.userdata? u = some d → ∃ o, h.object? d.object = some o ∧ o.tag = d.tag
  free : ∀ i o, h.object? i = some o → o.borrow = {}

/-- What a heap becomes without releases: objects keep their types. -/
structure Lasts (h h' : Heap E) : Prop where
  made : ∀ e, h.Made e → h'.Made e
  released : h'.released = h.released
  objects : ∀ i o, h.object? i = some o → ∃ o', h'.object? i = some o' ∧ o'.tag = o.tag

structure Step (h h' : Heap E) : Prop where
  intact : h'.Intact
  lasts : h.Lasts h'

theorem Lasts.refl (h : Heap E) : h.Lasts h where
  made _ := id
  released := rfl
  objects _ o found := ⟨o, found, rfl⟩

theorem Lasts.trans {h h' h'' : Heap E} (first : h.Lasts h') (second : h'.Lasts h'') :
    h.Lasts h'' where
  made e := second.made e ∘ first.made e
  released := second.released.trans first.released
  objects i o found := by
    obtain ⟨o', found', tag'⟩ := first.objects i o found
    obtain ⟨o'', found'', tag''⟩ := second.objects i o' found'
    exact ⟨o'', found'', tag''.trans tag'⟩

theorem Lasts.living {h h' : Heap E} (lasts : h.Lasts h') {e : Entity} (living : e ∈ h.living) :
    e ∈ h'.living := by
  rw [mem_living] at living ⊢
  rw [lasts.released]
  exact ⟨lasts.made e living.1, living.2⟩

theorem Lasts.has {h h' : Heap E} (lasts : h.Lasts h') {e : Entity} (has : h.Has e) :
    h'.Has e :=
  fun counts => lasts.living (has counts)

theorem has_of_scalar {h : Heap E} {v : Value} (scalar : v.isReference = false) : h.Has v :=
  fun counts => absurd (counts.symm.trans scalar) (by decide)

theorem Has.of_draws {h : Heap E} {vs : List Value} {t u : Table} (draws : t.Draws vs u)
    (given : ∀ v ∈ vs, h.Has v) (held : ∀ v ∈ t.contents, h.Has v) : ∀ v ∈ u.contents, h.Has v :=
  fun v listed => (draws v listed).elim (held v) (given v)

theorem has_of_mem_empty {h : Heap E} : ∀ v ∈ Table.empty.contents, h.Has v :=
  fun _ none => absurd none List.not_mem_nil

theorem has_children_table {h h' : Heap E} {t : TableId} :
    (∀ d ∈ h'.children (Value.table t), h.Has d) ↔ ∀ v ∈ (h'.table t).contents, h.Has v :=
  List.forall_mem_map

/-- A heap with the same things in it, of which those that live refer to what lives. -/
theorem Intact.rewrite {h h' : Heap E} (intact : h.Intact) (made : h'.Made = h.Made)
    (released : h'.released = h.released)
    (held : ∀ e ∈ h.living, (∀ d ∈ h.children e, h.Has d) → ∀ d ∈ h'.children e, h.Has d)
    (objects : ∀ i, (h'.object? i).map (fun o => (o.tag, o.borrow)) =
      (h.object? i).map fun o => (o.tag, o.borrow))
    (typed : ∀ u d, h'.userdata? u = some d →
      ∃ c, h.userdata? u = some c ∧ c.object = d.object ∧ c.tag = d.tag) : h.Step h' := by
  have living (e : Entity) : e ∈ h'.living ↔ e ∈ h.living := by
    rw [mem_living, mem_living, made, released]
  have kept (i : ObjectId) (o : Object E) (found : h.object? i = some o) :
      ∃ o', h'.object? i = some o' ∧ o'.tag = o.tag := by
    have same := objects i
    rw [found] at same
    obtain ⟨o', found', eq⟩ := Option.map_eq_some_iff.mp same
    exact ⟨o', found', congrArg Prod.fst eq⟩
  refine ⟨⟨fun e lives d child counts => ?_, ?_, fun u d found => ?_, fun i o found => ?_⟩,
    fun _ => made ▸ id, released, kept⟩
  · have before := (living e).mp lives
    exact (living d).mpr (held e before (intact.held e before) d child counts)
  · rw [made, released]
    exact intact.released
  · obtain ⟨c, known, object, tag⟩ := typed u d found
    obtain ⟨o, there, same⟩ := intact.typed u c known
    obtain ⟨o', there', same'⟩ := kept _ _ there
    exact ⟨o', object ▸ there', same'.trans (same.trans tag)⟩
  · have same := objects i
    rw [found] at same
    obtain ⟨p, old, eq⟩ := Option.map_eq_some_iff.mp same.symm
    exact (congrArg Prod.snd eq).symm.trans (intact.free i p old)

/-! Writes to tables and metatables. -/

theorem made_modifyTable (h : Heap E) (t : TableId) (f : Table → Table) :
    (h.modifyTable t f).Made = h.Made := by
  funext e
  cases e with
  | object o => rfl
  | value v => cases v <;> simp [Made, modifyTable]

/-- A write to a table, if afterwards it refers only to what lives as it did before. -/
theorem Intact.modifyTable {h : Heap E} (intact : h.Intact) (t : TableId) {f : Table → Table}
    (given : (∀ v ∈ (h.table t).contents, h.Has v) → ∀ v ∈ (f (h.table t)).contents, h.Has v) :
    h.Step (h.modifyTable t f) := by
  refine intact.rewrite (h.made_modifyTable t f) rfl (fun e _ before => ?_) (fun _ => rfl)
    fun u d found => ⟨d, found, rfl, rfl⟩
  cases e with
  | object o => exact before
  | value v =>
    cases v with
    | table u =>
      rw [has_children_table] at before ⊢
      rw [table_modifyTable]
      split
      · rename_i same
        obtain rfl : t = u := congrArg TableId.mk same.1
        exact given before
      · exact before
    | _ => exact before

theorem has_put {h : Heap E} {x : Table} {key value : Value} (hasKey : h.Has key)
    (hasValue : h.Has value) (held : ∀ v ∈ x.contents, h.Has v) :
    ∀ v ∈ (x.put key value).contents, h.Has v := by
  refine Has.of_draws (x.draws_put key value) ?_ held
  simp only [List.forall_mem_cons, List.not_mem_nil, false_implies, implies_true, and_true]
  exact ⟨has_of_scalar rfl, hasKey, hasValue⟩

theorem Intact.put {h : Heap E} (intact : h.Intact) (t : TableId) {key value : Value}
    (hasKey : h.Has key) (hasValue : h.Has value) :
    h.Step (h.modifyTable t fun x => x.put key value) :=
  intact.modifyTable t (has_put hasKey hasValue)

theorem has_setStr {h : Heap E} {x : Table} (key : String) {value : Value} (has : h.Has value)
    (held : ∀ v ∈ x.contents, h.Has v) : ∀ v ∈ (x.setStr key value).contents, h.Has v := by
  have draws : x.Draws [.string key, value] (x.setStr key value) :=
    Table.draws_setEntry List.mem_cons_self (List.mem_cons_of_mem _ List.mem_cons_self)
  refine Has.of_draws draws ?_ held
  simp only [List.forall_mem_cons, List.not_mem_nil, false_implies, implies_true, and_true]
  exact ⟨has_of_scalar rfl, has⟩

theorem draws_withMetatable (x : Table) (m : Option TableId) :
    x.Draws (m.map Value.table).toList { x with metatable := m } := by
  intro v listed
  rcases List.mem_append.mp listed with held | own
  · exact .inl (List.mem_append_left _ held)
  · exact .inr own

def modifyUserdata (h : Heap E) (u : UserdataId) (f : Userdata E → Userdata E) : Heap E :=
  { h with userdata := h.userdata.modify u.index f }

theorem userdata?_modifyUserdata (h : Heap E) (u w : UserdataId) (f : Userdata E → Userdata E) :
    (h.modifyUserdata u f).userdata? w =
      if u = w then (h.userdata? w).map f else h.userdata? w := by
  simp only [userdata?, modifyUserdata, Array.getElem?_modify]
  refine if_congr ⟨fun same => ?_, congrArg UserdataId.index⟩ rfl rfl
  cases u
  cases w
  exact congrArg UserdataId.mk same

theorem made_modifyUserdata (h : Heap E) (u : UserdataId) (f : Userdata E → Userdata E) :
    (h.modifyUserdata u f).Made = h.Made := by
  funext e
  cases e with
  | object o => rfl
  | value v => cases v <;> simp [Made, modifyUserdata]

theorem has_contents {h : Heap E} {d : Userdata E} :
    (∀ e ∈ d.contents, h.Has e) ↔
      h.Has (.object d.object) ∧ ∀ m, d.metatable = some m → h.Has (Value.table m) := by
  rw [Userdata.contents, List.forall_mem_cons]
  refine and_congr_right fun _ => ?_
  cases d.metatable <;> simp

theorem Intact.withUserdataMetatable {h : Heap E} (intact : h.Intact) (u : UserdataId)
    {m : Option TableId} (given : ∀ t, m = some t → h.Has (Value.table t)) :
    h.Step (h.modifyUserdata u (·.withMetatable m)) := by
  have known (w : UserdataId) := h.userdata?_modifyUserdata u w (·.withMetatable m)
  refine intact.rewrite (h.made_modifyUserdata u _) rfl (fun e _ before => ?_) (fun _ => rfl)
    fun w d found => ?_
  · cases e with
    | object o => exact before
    | value v =>
      cases v with
      | userdata x =>
        simp only [children, known] at before ⊢
        split
        · cases found : h.userdata? x with
          | none => exact fun _ none => absurd none List.not_mem_nil
          | some d =>
            rw [found] at before
            exact has_contents.mpr ⟨(has_contents.mp before).1, given⟩
        · exact before
      | _ => exact before
  · rw [known] at found
    split at found
    · obtain ⟨d, old, rfl⟩ := Option.map_eq_some_iff.mp found
      exact ⟨d, old, rfl, rfl⟩
    · exact ⟨d, found, rfl, rfl⟩

theorem Intact.setMetatable {h h' : Heap E} (intact : h.Intact) {v : Value} {m : Option TableId}
    (set : h.setMetatable v m = .ok h') (given : ∀ t, m = some t → h.Has (Value.table t)) :
    h.Step h' := by
  rcases setMetatable_cases set with ⟨t, rfl, rfl⟩ | ⟨u, rfl, rfl⟩
  · refine intact.modifyTable t (Has.of_draws (draws_withMetatable _ m) fun w own => ?_)
    obtain ⟨t, same, rfl⟩ := Option.map_eq_some_iff.mp (Option.mem_toList.mp own)
    exact given t same
  · exact intact.withUserdataMetatable u given

/-! New objects of the heap. -/

structure Adds (h h' : Heap E) (new : Entity) : Prop where
  released : h'.released = h.released
  made : ∀ e, h'.Made e ↔ h.Made e ∨ e = new
  fresh : ¬h.Made new
  children : ∀ e, e ≠ new → h'.children e = h.children e

namespace Adds
variable {h h' : Heap E} {new : Entity}

theorem mem_living (adds : h.Adds h' new) (intact : h.Intact) {e : Entity} :
    e ∈ h'.living ↔ e ∈ h.living ∨ e = new := by
  rw [Heap.mem_living, Heap.mem_living, adds.made, adds.released]
  constructor
  · rintro ⟨made | rfl, here⟩
    · exact .inl ⟨made, here⟩
    · exact .inr rfl
  · rintro (⟨made, here⟩ | rfl)
    · exact ⟨.inl made, here⟩
    · exact ⟨.inr rfl, by_contra fun gone => adds.fresh (intact.released _ (by simpa using gone))⟩

theorem has_new (adds : h.Adds h' new) (intact : h.Intact) : h'.Has new :=
  fun _ => (adds.mem_living intact).mpr (.inr rfl)

theorem step (adds : h.Adds h' new) (intact : h.Intact) (given : ∀ d ∈ h'.children new, h.Has d)
    (objects : ∀ i o, h.object? i = some o → h'.object? i = some o)
    (typed : ∀ u d, h'.userdata? u = some d → h.userdata? u = some d ∨
      ∃ o, h.object? d.object = some o ∧ o.tag = d.tag)
    (free : ∀ i o, h'.object? i = some o → h.object? i = some o ∨ o.borrow = {}) : h.Step h' where
  lasts := ⟨fun e before => (adds.made e).mpr (.inl before), adds.released,
    fun i o found => ⟨o, objects i o found, rfl⟩⟩
  intact := by
    refine ⟨fun e lives d child counts => ?_, fun e gone => ?_, fun u d found => ?_,
      fun i o found => ?_⟩
    · refine (adds.mem_living intact).mpr (.inl ?_)
      by_cases same : e = new
      · subst same
        exact given d child counts
      · rw [adds.children e same] at child
        exact intact.held e (((adds.mem_living intact).mp lives).resolve_right same) d child counts
    · rw [adds.released] at gone
      exact (adds.made e).mpr (.inl (intact.released e gone))
    · obtain ⟨o, there, tag⟩ := (typed u d found).elim (intact.typed u d) id
      exact ⟨o, objects _ o there, tag⟩
    · exact (free i o found).elim (intact.free i o) id

end Adds

theorem adds_allocTable (h : Heap E) (x : Table) :
    h.Adds (h.allocTable x).2 (Value.table ⟨h.tables.size⟩) where
  released := rfl
  made e := by
    cases e with
    | object o => exact (or_iff_left Entity.noConfusion).symm
    | value v =>
      cases v with
      | table t =>
        obtain ⟨i⟩ := t
        simp only [Made, Heap.allocTable, Array.size_push, Entity.value.injEq, Value.table.injEq,
          TableId.mk.injEq]
        omega
      | _ => simp [Made, Heap.allocTable]
  fresh := Nat.lt_irrefl _
  children e other := by
    cases e with
    | object o => rfl
    | value v =>
      cases v with
      | table t =>
        change ((h.allocTable x).2.table t).contents.map Entity.value = _
        rw [table_allocTable, if_neg fun same => other (by rw [← same])]
        rfl
      | _ => rfl

theorem Intact.allocTable {h : Heap E} (intact : h.Intact) {x : Table}
    (given : ∀ v ∈ x.contents, h.Has v) :
    h.Step (h.allocTable x).2 ∧ (h.allocTable x).2.Has (Value.table ⟨h.tables.size⟩) := by
  have adds := h.adds_allocTable x
  refine ⟨adds.step intact (has_children_table.mpr ?_) (fun _ _ => id) (fun _ _ => .inl)
    fun _ _ => .inl, adds.has_new intact⟩
  rw [table_allocTable, if_pos rfl]
  exact given

theorem adds_allocCallable (h : Heap E) (c : Callable E) :
    h.Adds (h.allocCallable c).2 (Value.function ⟨h.callables.size⟩) where
  released := rfl
  made e := by
    cases e with
    | object o => exact (or_iff_left Entity.noConfusion).symm
    | value v =>
      cases v with
      | function f =>
        obtain ⟨i⟩ := f
        simp only [Made, Heap.allocCallable, Array.size_push, Entity.value.injEq,
          Value.function.injEq, FunctionId.mk.injEq]
        omega
      | _ => simp [Made, Heap.allocCallable]
  fresh := Nat.lt_irrefl _
  children e other := by
    cases e with
    | object o => rfl
    | value v =>
      cases v with
      | function f =>
        simp only [Heap.children]
        rw [callable?_allocCallable, if_neg fun same => other (by rw [← same])]
      | _ => rfl

theorem Intact.allocCallable {h : Heap E} (intact : h.Intact) {c : Callable E}
    (free : ∀ t i u, c.entry ≠ .method t i u) :
    h.Step (h.allocCallable c).2 ∧
      (h.allocCallable c).2.Has (Value.function ⟨h.callables.size⟩) := by
  have adds := h.adds_allocCallable c
  refine ⟨adds.step intact (fun d child => ?_) (fun _ _ => id) (fun _ _ => .inl) fun _ _ => .inl,
    adds.has_new intact⟩
  simp only [Heap.children] at child
  rw [callable?_allocCallable, if_pos rfl] at child
  obtain ⟨name, entry⟩ := c
  cases entry with
  | method t i u => exact absurd rfl (free t i u)
  | _ => exact absurd child List.not_mem_nil

theorem userdata?_allocUserdata (h : Heap E) (d : Userdata E) (u : UserdataId) :
    (h.allocUserdata d).2.userdata? u =
      if u.index = h.userdata.size then some d else h.userdata? u := by
  unfold userdata? allocUserdata
  exact Array.getElem?_push

theorem adds_allocUserdata (h : Heap E) (d : Userdata E) :
    h.Adds (h.allocUserdata d).2 (Value.userdata ⟨h.userdata.size⟩) where
  released := rfl
  made e := by
    cases e with
    | object o => exact (or_iff_left Entity.noConfusion).symm
    | value v =>
      cases v with
      | userdata u =>
        obtain ⟨i⟩ := u
        simp only [Made, Heap.allocUserdata, Array.size_push, Entity.value.injEq,
          Value.userdata.injEq, UserdataId.mk.injEq]
        omega
      | _ => simp [Made, Heap.allocUserdata]
  fresh := Nat.lt_irrefl _
  children e other := by
    cases e with
    | object o => rfl
    | value v =>
      cases v with
      | userdata u =>
        simp only [Heap.children]
        rw [userdata?_allocUserdata, if_neg fun same => other (by rw [← same])]
      | _ => rfl

theorem Intact.allocUserdata {h : Heap E} (intact : h.Intact) {d : Userdata E}
    (typed : ∃ o, h.object? d.object = some o ∧ o.tag = d.tag) (given : ∀ e ∈ d.contents, h.Has e) :
    h.Step (h.allocUserdata d).2 ∧
      (h.allocUserdata d).2.Has (Value.userdata ⟨h.userdata.size⟩) := by
  have adds := h.adds_allocUserdata d
  have known := h.userdata?_allocUserdata d
  refine ⟨adds.step intact (fun e child => given e ?_) (fun _ _ => id) (fun u e found => ?_)
    fun _ _ => .inl, adds.has_new intact⟩
  · simp only [Heap.children] at child
    rwa [known, if_pos rfl] at child
  · rw [known] at found
    split at found
    · cases found
      exact .inr typed
    · exact .inl found

/-! Host objects. -/

theorem object?_allocObject (h : Heap E) (x : Object E) (o : ObjectId) :
    (h.allocObject x).2.object? o = if o.index = h.objects.size then some x else h.object? o := by
  unfold object? allocObject
  exact Array.getElem?_push

theorem object?_lt {h : Heap E} {o : ObjectId} {x : Object E} (found : h.object? o = some x) :
    o.index < h.objects.size :=
  (Array.getElem?_eq_some_iff.mp found).1

theorem adds_allocObject (h : Heap E) (x : Object E) :
    h.Adds (h.allocObject x).2 (.object ⟨h.objects.size⟩) where
  released := rfl
  made e := by
    cases e with
    | object o =>
      obtain ⟨i⟩ := o
      simp only [Made, Heap.allocObject, Array.size_push, Entity.object.injEq, ObjectId.mk.injEq]
      omega
    | value v => cases v <;> simp [Made, Heap.allocObject]
  fresh := Nat.lt_irrefl _
  children e other := by
    cases e with
    | object o =>
      simp only [Heap.children]
      rw [object?_allocObject, if_neg fun same => other (by rw [← same])]
    | value v => cases v <;> rfl

theorem Intact.allocObject {h : Heap E} (intact : h.Intact) {x : Object E} (free : x.borrow = {})
    (given : ∀ e ∈ x.contents, h.Has e) :
    h.Step (h.allocObject x).2 ∧ (h.allocObject x).2.object? ⟨h.objects.size⟩ = some x ∧
      (h.allocObject x).2.Has (.object ⟨h.objects.size⟩) := by
  have adds := h.adds_allocObject x
  have known := h.object?_allocObject x
  refine ⟨adds.step intact (fun e child => given e ?_) (fun i o found => ?_) (fun _ _ => .inl)
    fun i o found => ?_, (known _).trans (if_pos rfl), adds.has_new intact⟩
  · simp only [Heap.children] at child
    rwa [known, if_pos rfl] at child
  · rw [known, if_neg (Nat.ne_of_lt (object?_lt found)), found]
  · rw [known] at found
    split at found
    · cases found
      exact .inr free
    · exact .inl found

theorem object?_setPayload (h : Heap E) {t : E.Tag} (r : HostRef E t) (x : E.Payload t)
    (i : ObjectId) :
    (h.setPayload r x).object? i = (h.object? i).map fun o =>
      if r.object = i ∧ o.tag = t then ⟨t, x, o.borrow⟩ else o := by
  obtain ⟨⟨j⟩⟩ := r
  obtain ⟨i⟩ := i
  simp only [object?, Heap.setPayload, Array.getElem?_modify, ObjectId.mk.injEq]
  by_cases here : j = i
  · simp [here]
  · simp [here]

theorem made_setPayload (h : Heap E) {t : E.Tag} (r : HostRef E t) (x : E.Payload t) :
    (h.setPayload r x).Made = h.Made := by
  funext e
  cases e with
  | object o => simp [Made, Heap.setPayload]
  | value v => cases v <;> rfl

theorem Intact.setPayload {h : Heap E} (intact : h.Intact) {t : E.Tag} (r : HostRef E t)
    {x : E.Payload t} (given : ∀ e ∈ E.contents t x, h.Has e) : h.Step (h.setPayload r x) := by
  have known := h.object?_setPayload r x
  refine intact.rewrite (h.made_setPayload r x) rfl (fun e _ before => ?_) (fun i => ?_)
    fun u d found => ⟨d, found, rfl, rfl⟩
  · cases e with
    | object o =>
      simp only [children, known] at before ⊢
      cases found : h.object? o with
      | none => exact fun _ none => absurd none List.not_mem_nil
      | some p =>
        rw [found] at before
        simp only [Option.map_some, Option.elim_some]
        split
        · exact given
        · exact before
    | value v => cases v <;> exact before
  · rw [known, Option.map_map]
    congr 1
    funext o
    simp only [Function.comp_apply]
    split
    · rename_i same
      rw [same.2]
    · rfl

/-! Closing, and releases. -/

theorem Intact.sweep {h last : Heap E} (intact : h.Intact) {pending : List Value}
    (sweeps : h.Sweeps pending last) (tables : ∃ ts, last = { h with tables := ts }) :
    h.Step last := by
  have size := sweeps.size
  obtain ⟨ts, rfl⟩ := tables
  have made : { h with tables := ts }.Made = h.Made := by
    funext e
    cases e with
    | object o => rfl
    | value v =>
      cases v with
      | table t => simp only [Made, size]
      | _ => rfl
  refine intact.rewrite made rfl (fun e _ before => ?_) (fun _ => rfl)
    fun u d found => ⟨d, found, rfl, rfl⟩
  cases e with
  | object o => exact before
  | value v =>
    cases v with
    | table t =>
      rw [has_children_table] at before ⊢
      by_cases due : h.Due pending t
      · rw [sweeps.empty_of_due due]
        exact has_of_mem_empty
      · rw [sweeps.same_of_not_due due]
        exact before
    | _ => exact before

end Heap
end HostBridge
