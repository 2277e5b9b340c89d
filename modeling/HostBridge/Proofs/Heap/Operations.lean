import HostBridge.Proofs.Heap.Intact
import HostBridge.Proofs.Call.Actions

namespace HostBridge

/-- A handle to the object may be used: the object is of host type `t` and lives. -/
def Heap.Present {E : Embedding} (h : Heap E) (t : E.Tag) (o : ObjectId) : Prop :=
  (∃ x, h.object? o = some x ∧ x.tag = t) ∧ h.Has (.object o)

theorem Heap.Lasts.present {E : Embedding} {h h' : Heap E} (lasts : h.Lasts h') {t : E.Tag}
    {o : ObjectId} (present : h.Present t o) : h'.Present t o := by
  obtain ⟨⟨x, found, same⟩, has⟩ := present
  obtain ⟨y, found', same'⟩ := lasts.objects o x found
  exact ⟨⟨y, found', same'.trans same⟩, lasts.has has⟩

namespace State
variable {E : Embedding}

/-- What the state and the embedding program hold lives. -/
structure Intact (H : Host E) (s : State E) : Prop where
  heap : s.heap.Intact
  roots : ∀ e ∈ s.roots H, s.heap.Has e
  dropped : ∀ v ∈ s.dropped, v.isReference = true → s.heap.Made v

/-- A state after an operation that releases nothing. -/
structure Step (H : Host E) (s t : State E) : Prop where
  intact : t.Intact H
  lasts : s.heap.Lasts t.heap

variable {H : Host E} {s t u : State E}

theorem Intact.step (intact : s.Intact H) : s.Step H s := ⟨intact, .refl _⟩

theorem Step.trans (first : s.Step H t) (second : t.Step H u) : s.Step H u :=
  ⟨second.intact, first.lasts.trans second.lasts⟩

theorem mem_roots {e : Entity} :
    e ∈ s.roots H ↔ (∃ v, (v ∈ s.own ∨ v ∈ s.waiting) ∧ .value v = e) ∨
      (∃ vars ∈ s.locals, e ∈ vars) ∨ e ∈ holdings H s.world := by
  simp only [State.roots, State.keeps, List.mem_append, List.mem_map, List.mem_flatten, or_assoc]

theorem Intact.own (intact : s.Intact H) {v : Value} (own : v ∈ s.own) : s.heap.Has v :=
  intact.roots v (mem_roots.mpr (.inl ⟨v, .inl own, rfl⟩))

theorem Intact.framed (intact : s.Intact H) (heap : t.heap = s.heap) (dropped : t.dropped = s.dropped)
    (roots : ∀ e ∈ t.roots H, e ∈ s.roots H ∨ s.heap.Has e) : s.Step H t := by
  refine ⟨⟨heap ▸ intact.heap, fun e root => ?_, ?_⟩, heap ▸ .refl _⟩
  · rw [heap]
    exact (roots e root).elim (intact.roots e) id
  · rw [heap, dropped]
    exact intact.dropped

theorem Intact.reframed (intact : s.Intact H) (heap : t.heap = s.heap)
    (dropped : t.dropped = s.dropped) (waiting : t.waiting = s.waiting)
    (assigned : t.locals = s.locals) (world : t.world = s.world)
    (own : ∀ v ∈ t.own, v ∈ s.own ∨ s.heap.Has v) : s.Step H t := by
  refine intact.framed heap dropped fun e root => ?_
  rw [mem_roots, waiting, assigned, world] at root
  rcases root with ⟨v, mine | waits, rfl⟩ | rest
  · exact (own v mine).imp_left fun before => mem_roots.mpr (.inl ⟨v, .inl before, rfl⟩)
  · exact .inl (mem_roots.mpr (.inl ⟨v, .inr waits, rfl⟩))
  · exact .inl (mem_roots.mpr (.inr rest))

theorem Intact.has_slot (intact : s.Intact H) {v : Value} (slot : v ∈ s.stack.slots) :
    s.heap.Has v := by
  apply intact.own
  simp only [State.own, List.mem_append, Array.mem_toList_iff]
  exact .inl (.inl slot)

theorem Intact.mapSlots (intact : s.Intact H) {f : Array Value → Array Value}
    (given : ∀ v ∈ f s.stack.slots, s.heap.Has v) : s.Step H (s.mapSlots f) := by
  refine intact.reframed (t := s.mapSlots f) rfl rfl rfl rfl rfl fun v own => ?_
  simp only [State.own, List.mem_append, Array.mem_toList_iff] at own ⊢
  rcases own with (slot | rest) | rest
  · exact .inr (given v slot)
  · exact .inl (.inl (.inr rest))
  · exact .inl (.inr rest)

theorem Intact.modifyHeap (intact : s.Intact H) {h : Heap E} (step : s.heap.Step h) :
    s.Step H { s with heap := h } where
  intact := {
    heap := step.intact
    roots := fun e root => step.lasts.has (intact.roots e root)
    dropped := fun v listed counts => step.lasts.made v (intact.dropped v listed counts) }
  lasts := step.lasts

/-- The program changes its own data: what it refers to from now on lives. -/
theorem Intact.setWorld (intact : s.Intact H) {w : E.World}
    (given : ∀ e ∈ holdings H w, s.heap.Has e) : s.Step H { s with world := w } := by
  refine intact.framed (t := { s with world := w }) rfl rfl fun e root => ?_
  rcases mem_roots.mp root with own | vars | data
  · exact .inl (mem_roots.mpr (.inl own))
  · exact .inl (mem_roots.mpr (.inr (.inl vars)))
  · exact .inr (given e data)

theorem Intact.assign (intact : s.Intact H) {vars : List Entity}
    (given : ∀ e ∈ vars, s.heap.Has e) : s.Step H (s.assign vars) := by
  refine intact.framed (t := s.assign vars) rfl rfl fun e root => ?_
  rcases mem_roots.mp root with own | ⟨es, listed, mem⟩ | data
  · exact .inl (mem_roots.mpr (.inl own))
  · rcases List.mem_cons.mp listed with rfl | outer
    · exact .inr (given e mem)
    · exact .inl (mem_roots.mpr (.inr (.inl ⟨es, List.mem_of_mem_tail outer, mem⟩)))
  · exact .inl (mem_roots.mpr (.inr (.inr data)))

end State

namespace Run
open State
variable {E : Embedding} {H : Host E} {α β : Type} {s : State E}

/-- The run is a step, and what it returns satisfies `Q` in the state that it ends in. -/
def Upholds (H : Host E) (m : Run E α) (s : State E) (Q : α → State E → Prop) : Prop :=
  match m s with
  | .ok a t => s.Step H t ∧ Q a t
  | .error _ t => s.Step H t

theorem Upholds.of_ok {m : Run E α} {Q : α → State E → Prop} (upholds : Upholds H m s Q) {a : α}
    {t : State E} (ran : m s = .ok a t) : s.Step H t ∧ Q a t := by
  unfold Upholds at upholds
  rwa [ran] at upholds

theorem Upholds.of_error {m : Run E α} {Q : α → State E → Prop} (upholds : Upholds H m s Q)
    {e : Fault} {t : State E} (ran : m s = .error e t) : s.Step H t := by
  unfold Upholds at upholds
  rwa [ran] at upholds

theorem Upholds.step {m : Run E α} {Q : α → State E → Prop} (upholds : Upholds H m s Q) :
    s.Step H (m.final s) := by
  unfold Upholds at upholds
  unfold final
  cases ran : m s with
  | ok a t =>
    rw [ran] at upholds
    exact upholds.1
  | error e t =>
    rw [ran] at upholds
    exact upholds

theorem Upholds.mono {m : Run E α} {Q R : α → State E → Prop} (upholds : Upholds H m s Q)
    (weaker : ∀ a t, s.Step H t → Q a t → R a t) : Upholds H m s R := by
  unfold Upholds
  cases ran : m s with
  | ok a t =>
    obtain ⟨step, found⟩ := upholds.of_ok ran
    exact ⟨step, weaker a t step found⟩
  | error e t => exact upholds.of_error ran

theorem Upholds.bind {m : Run E α} {f : α → Run E β} {Q : α → State E → Prop}
    {R : β → State E → Prop} (first : Upholds H m s Q)
    (rest : ∀ a t, s.Step H t → Q a t → Upholds H (f a) t R) : Upholds H (m >>= f) s R := by
  unfold Upholds
  rw [bind_eq]
  cases ran : m s with
  | error e t => exact first.of_error ran
  | ok a t =>
    obtain ⟨step, found⟩ := first.of_ok ran
    have second := rest a t step found
    dsimp only
    cases ran' : f a t with
    | ok b u =>
      obtain ⟨step', found'⟩ := second.of_ok ran'
      exact ⟨step.trans step', found'⟩
    | error e u => exact step.trans (second.of_error ran')

variable (intact : s.Intact H)
include intact

theorem upholds_pure {a : α} {Q : α → State E → Prop} (found : Q a s) :
    Upholds H (pure a : Run E α) s Q := ⟨intact.step, found⟩

theorem upholds_raise (e : Error) {Q : α → State E → Prop} :
    Upholds H (raise e : Run E α) s Q := intact.step

theorem upholds_ofExcept {r : Except Error α} {Q : α → State E → Prop}
    (found : ∀ a, r = .ok a → Q a s) : Upholds H (ofExcept r : Run E α) s Q := by
  cases r with
  | ok a => exact upholds_pure intact (found a rfl)
  | error e => exact upholds_raise intact e

theorem upholds_read {f : State E → Except Error α} {Q : α → State E → Prop}
    (found : ∀ a, f s = .ok a → Q a s) : Upholds H (read f) s Q :=
  upholds_ofExcept intact found

/-- A check before a step, which raises an error or lets the step happen. -/
theorem upholds_check {c : Prop} [Decidable c] {e : Error} {m : Run E α} {Q : α → State E → Prop}
    (rest : Upholds H m s Q) :
    Upholds H (if c then (raise e : Run E PUnit) >>= fun _ => m else m) s Q := by
  split
  · exact intact.step
  · exact rest

omit intact in
theorem upholds_get_bind {f : State E → Run E α} {Q : α → State E → Prop}
    (rest : Upholds H (f s) s Q) : Upholds H (get >>= f) s Q := rest

omit intact in
theorem upholds_modify {f : State E → State E} {Q : Unit → State E → Prop} (step : s.Step H (f s))
    (found : Q () (f s)) : Upholds H (modify f : Run E Unit) s Q := ⟨step, found⟩

/-- A change of the frame that puts nothing in it but what is there. -/
theorem upholds_modifySlots {f : Array Value → Array Value}
    (given : ∀ v ∈ f s.stack.slots, s.heap.Has v) :
    Upholds H (modifySlots f : Run E Unit) s fun _ _ => True :=
  ⟨intact.mapSlots given, trivial⟩

/-! The frame. -/

omit intact in
theorem mem_of_mem_take {xs : Array Value} {n : Nat} {v : Value} (listed : v ∈ xs.take n) :
    v ∈ xs := by
  obtain ⟨i, inside, rfl⟩ := Array.mem_iff_getElem.mp listed
  simp only [Array.take_eq_extract, Array.getElem_extract]
  exact Array.getElem_mem _

omit intact in
theorem mem_of_mem_pop {xs : Array Value} {v : Value} (listed : v ∈ xs.pop) : v ∈ xs := by
  obtain ⟨i, inside, rfl⟩ := Array.mem_iff_getElem.mp listed
  rw [Array.getElem_pop]
  exact Array.getElem_mem _

theorem upholds_push {v : Value} (has : s.heap.Has v) :
    Upholds H (push v : Run E Unit) s fun _ _ => True := by
  refine upholds_get_bind (upholds_check intact (upholds_modifySlots intact fun w slot => ?_))
  rcases Array.mem_push.mp slot with before | rfl
  · exact intact.has_slot before
  · exact has

theorem upholds_pop : Upholds H (pop : Run E Value) s fun v t =>
    t.heap.Has v ∧ t.heap = s.heap ∧ t.globals = s.globals := by
  refine upholds_get_bind (upholds_check intact ?_)
  cases top : s.stack.top? with
  | none => exact upholds_raise intact _
  | some v =>
    have step := intact.mapSlots (f := (·.pop)) fun w slot => intact.has_slot (mem_of_mem_pop slot)
    exact ⟨step, intact.has_slot (Array.mem_of_back? top), rfl, rfl⟩

theorem upholds_truncate (n : Nat) :
    Upholds H (truncate n : Run E Unit) s fun _ _ => True :=
  upholds_modifySlots intact fun _ slot => intact.has_slot (mem_of_mem_take slot)

theorem upholds_drop (n : Nat) :
    Upholds H (drop n : Run E Unit) s fun _ _ => True := by
  refine upholds_get_bind (upholds_check intact ?_)
  split
  · exact upholds_truncate intact _
  · exact upholds_pure intact trivial

theorem upholds_resize (n : Nat) :
    Upholds H (resize n : Run E Unit) s fun _ _ => True := by
  refine upholds_get_bind ?_
  split
  · exact upholds_truncate intact n
  · split
    · exact upholds_raise intact _
    · refine upholds_modifySlots intact fun w slot => ?_
      rcases Array.mem_append.mp slot with before | nil
      · exact intact.has_slot before
      · rw [(Array.mem_replicate.mp nil).2]
        exact Heap.has_of_scalar rfl

theorem upholds_setTop (index : Int) :
    Upholds H (setTop index : Run E Unit) s fun _ _ => True := by
  refine upholds_get_bind ?_
  split
  · exact (upholds_resize intact _).mono fun _ _ _ _ => trivial
  · refine (upholds_ofExcept (Q := fun _ _ => True) intact fun _ _ => trivial).bind
      fun p t step _ => (upholds_resize step.intact _).mono fun _ _ _ _ => trivial

theorem upholds_insert (index : Int) :
    Upholds H (insert index : Run E Unit) s fun _ _ => True := by
  refine (upholds_read (Q := fun _ _ => True) intact fun _ _ => trivial).bind fun p t step _ => ?_
  refine (upholds_pop step.intact).bind fun v t step ⟨has, _⟩ => ?_
  refine upholds_get_bind (upholds_check step.intact (upholds_check step.intact ?_))
  refine (upholds_modifySlots step.intact fun w slot => ?_).mono fun _ _ _ _ => trivial
  rw [Array.insertIdxIfInBounds] at slot
  split at slot
  · rcases Array.mem_insertIdx.mp slot with rfl | before
    · exact has
    · exact step.intact.has_slot before
  · exact step.intact.has_slot slot

theorem upholds_remove (index : Int) :
    Upholds H (remove index : Run E Unit) s fun _ _ => True := by
  refine (upholds_read (Q := fun _ _ => True) intact fun _ _ => trivial).bind fun p t step _ => ?_
  refine upholds_get_bind (upholds_check step.intact ?_)
  refine (upholds_modifySlots step.intact fun w slot => ?_).mono fun _ _ _ _ => trivial
  rw [Array.eraseIdxIfInBounds] at slot
  split at slot
  · exact step.intact.has_slot (Array.mem_of_mem_eraseIdx slot)
  · exact step.intact.has_slot slot

theorem upholds_replace (index : Int) :
    Upholds H (replace index : Run E Unit) s fun _ _ => True := by
  refine (upholds_read (Q := fun _ _ => True) intact fun _ _ => trivial).bind fun p t step _ => ?_
  refine (upholds_pop step.intact).bind fun v t step ⟨has, _⟩ => upholds_get_bind ?_
  split
  · exact (upholds_push step.intact has).mono fun _ _ _ _ => trivial
  · refine (upholds_modifySlots step.intact fun w slot => ?_).mono fun _ _ _ _ => trivial
    rcases Array.mem_or_eq_of_mem_setIfInBounds slot with before | rfl
    · exact step.intact.has_slot before
    · exact has

/-! Objects of the heap. -/

theorem upholds_modifyHeap {f : Heap E → Heap E} (step : s.heap.Step (f s.heap)) :
    Upholds H (modifyHeap f) s fun _ _ => True :=
  ⟨intact.modifyHeap step, trivial⟩

theorem upholds_allocTable {x : Table} (given : ∀ v ∈ x.contents, s.heap.Has v) :
    Upholds H (allocTable x : Run E TableId) s fun m t => t.heap.Has (Value.table m) := by
  obtain ⟨step, has⟩ := intact.heap.allocTable given
  exact ⟨intact.modifyHeap step, has⟩

theorem upholds_allocCallable {c : Callable E} (free : ∀ t i u, c.entry ≠ .method t i u) :
    Upholds H (allocCallable c) s fun f t => t.heap.Has (Value.function f) := by
  obtain ⟨step, has⟩ := intact.heap.allocCallable free
  exact ⟨intact.modifyHeap step, has⟩

theorem upholds_allocUserdata {d : Userdata E} (present : s.heap.Present d.tag d.object)
    (given : ∀ m, d.metatable = some m → s.heap.Has (Value.table m)) :
    Upholds H (allocUserdata d) s fun u t => t.heap.Has (Value.userdata u) := by
  obtain ⟨step, has⟩ :=
    intact.heap.allocUserdata present.1 (Heap.has_contents.mpr ⟨present.2, given⟩)
  exact ⟨intact.modifyHeap step, has⟩

theorem upholds_allocObject (t : E.Tag) {x : E.Payload t}
    (given : ∀ e ∈ E.contents t x, s.heap.Has e) :
    Upholds H (allocObject t x) s fun r u => u.heap.Present t r.object := by
  obtain ⟨step, found, has⟩ := intact.heap.allocObject (x := ⟨t, x, {}⟩) rfl given
  exact ⟨intact.modifyHeap step, ⟨_, found, rfl⟩, has⟩

theorem upholds_setRaw (m : TableId) {key value : Value} (hasKey : s.heap.Has key)
    (hasValue : s.heap.Has value) :
    Upholds H (setRaw m key value : Run E Unit) s fun _ _ => True := by
  unfold setRaw
  split
  · exact upholds_raise intact _
  · exact upholds_modifyHeap intact (intact.heap.put m hasKey hasValue)

theorem upholds_assignMetatable (v : Value) {m : Option TableId}
    (given : ∀ t, m = some t → s.heap.Has (Value.table t)) :
    Upholds H (assignMetatable v m : Run E Unit) s fun _ _ => True := by
  refine upholds_get_bind ?_
  cases set : s.heap.setMetatable v m with
  | error e => exact upholds_raise intact e
  | ok h => exact ⟨intact.modifyHeap (intact.heap.setMetatable set given), trivial⟩

theorem upholds_newCallable {c : Callable E} (free : ∀ t i u, c.entry ≠ .method t i u) :
    Upholds H (newCallable c) s fun _ _ => True := by
  have allocated {t : State E} (intact : t.Intact H) :
      Upholds H (allocCallable c) t fun _ _ => True :=
    (upholds_allocCallable intact free).mono fun _ _ _ _ => trivial
  rw [newCallable]
  split
  · refine (upholds_modify (Q := fun _ _ => True) ?_ trivial).bind fun _ t step _ =>
      allocated step.intact
    dsimp only
    split
    · exact intact.step
    · exact intact.framed rfl rfl fun _ => .inl
  · exact allocated intact

/-! Metatables of host types. -/

theorem upholds_addHooks (t : E.Tag) (name : String) (es : List Event) {x : Table}
    (given : ∀ v ∈ x.contents, s.heap.Has v) :
    Upholds H (addHooks t name es x) s fun y u => ∀ v ∈ y.contents, u.heap.Has v := by
  induction es generalizing s x with
  | nil => exact upholds_pure intact given
  | cons e es ih =>
    refine (upholds_allocCallable intact fun _ _ _ eq => by cases eq).bind fun f u step has => ?_
    have held : ∀ v ∈ x.contents, u.heap.Has v := fun v listed => step.lasts.has (given v listed)
    exact ih step.intact (Heap.has_setStr e.key has held)

theorem upholds_bindingFor (t : E.Tag) :
    Upholds H (bindingFor H t) s fun _ u => u.heap = s.heap := by
  refine (upholds_ofExcept (Q := fun _ u => u = s) intact fun _ _ => rfl).bind
    fun b u step same => ?_
  subst same
  refine (upholds_modify (Q := fun _ v => v.heap = u.heap)
    (intact.framed rfl rfl fun _ => .inl) rfl).bind fun _ v step same => ?_
  exact upholds_get_bind (upholds_pure step.intact same)

theorem upholds_install (t : E.Tag) :
    Upholds H (install H t) s fun m u => u.heap.Has (Value.table m) := by
  refine upholds_get_bind ?_
  cases cached : s.typeMetatable? t with
  | some m =>
    refine upholds_pure intact (intact.own ?_)
    obtain ⟨p, found, rfl⟩ := Option.map_eq_some_iff.mp cached
    exact List.mem_append_right _ (List.mem_map.mpr ⟨p, List.mem_of_find?_eq_some found, rfl⟩)
  | none =>
    dsimp only
    cases H.binding t with
    | error e => exact upholds_raise intact e
    | ok b =>
      rw [ofExcept_ok, pure_bind]
      have named :
        ∀ v ∈ (Table.empty.setStr Event.name.key (.string b.name)).contents, s.heap.Has v :=
        Heap.has_setStr _ (Heap.has_of_scalar rfl) Heap.has_of_mem_empty
      refine (upholds_addHooks intact t b.name _ named).bind fun x u step held => ?_
      refine (upholds_allocTable step.intact held).bind fun m w step' has => ?_
      refine upholds_get_bind ((upholds_modifyHeap step'.intact
        (step'.intact.heap.modifyTable _ (Heap.has_setStr _ has))).bind fun _ y step'' _ => ?_)
      have has'' : y.heap.Has (Value.table m) := step''.lasts.has has
      refine (upholds_modify (Q := fun _ z => z.heap = y.heap)
        (step''.intact.reframed rfl rfl rfl rfl rfl fun v listed => ?_) rfl).bind
        fun _ z step same => ?_
      · simp only [State.own, List.map_append, List.mem_append, List.map_cons, List.map_nil,
          List.mem_singleton] at listed ⊢
        rcases listed with rest | rest | rfl
        · exact .inl (.inl rest)
        · exact .inl (.inr rest)
        · exact .inr has''
      · exact upholds_pure step.intact (same ▸ has'')

theorem upholds_reflect {t : E.Tag} {r : HostRef E t} (present : s.heap.Present t r.object) :
    Upholds H (reflect H t r) s fun u z => z.heap.Has (Value.userdata u) := by
  refine (upholds_bindingFor intact t).bind fun b u step _ => ?_
  refine (upholds_install step.intact t).bind fun m v step' has => ?_
  have present' := step'.lasts.present (step.lasts.present present)
  exact upholds_allocUserdata step'.intact present' fun n same => by
    cases same
    exact has

theorem upholds_carry {t : E.Tag} {r : HostRef E t} (present : s.heap.Present t r.object) :
    Upholds H (carry t r) s fun u z => z.heap.Has (Value.userdata u) :=
  upholds_allocUserdata intact present nofun

end Run
end HostBridge
