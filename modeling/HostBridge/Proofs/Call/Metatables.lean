import Mathlib.Data.List.Nodup
import HostBridge.Proofs.Call.Reachable
import HostBridge.Proofs.Copy.Again
import HostBridge.Proofs.Heap.Sweep
import HostBridge.Action.Access
import HostBridge.Catalog.Types
/-!
The metatables of host types. A type gets one when it is first needed and keeps it until the state
is closed. It is found by the type and not by its name, so what else the registry holds under the
name makes no difference.
-/
namespace HostBridge
namespace State
variable {E : Embedding} {H : Host E} {s t : State E}

/-- An instance: a reflected userdata whose metatable nobody has set since it was made. -/
def Pristine (s : State E) (u : UserdataId) (d : Userdata E) : Prop :=
  s.heap.userdata? u = some d ∧ d.reflected = true ∧ d.reassigned = false

/-- No two host types share a metatable, and an instance carries the one of its type. -/
structure Sorted (s : State E) : Prop where
  made : ∀ p ∈ s.typeMetatables, p.2.index < s.heap.tables.size
  apart : (s.typeMetatables.map Prod.snd).Nodup
  instances : ∀ u d, s.Pristine u d →
    ∃ m, d.metatable = some m ∧ s.typeMetatable? d.tag = some m

theorem mem_of_typeMetatable? {tag : E.Tag} {m : TableId} (known : s.typeMetatable? tag = some m) :
    (tag, m) ∈ s.typeMetatables := by
  obtain ⟨p, found, rfl⟩ := Option.map_eq_some_iff.mp known
  have same : p.1 = tag := by simpa using List.find?_some found
  exact same ▸ List.mem_of_find?_eq_some found

theorem Sorted.tag_eq (sorted : s.Sorted) {a b : E.Tag} {m : TableId}
    (first : s.typeMetatable? a = some m) (second : s.typeMetatable? b = some m) : a = b := by
  have pairs := List.inj_on_of_nodup_map sorted.apart (mem_of_typeMetatable? first)
    (mem_of_typeMetatable? second) rfl
  exact congrArg Prod.fst pairs

/-- Two instances carry the same metatable iff they are of the same type. -/
theorem Sorted.metatable_eq_iff (sorted : s.Sorted) {u v : UserdataId} {d e : Userdata E}
    (first : s.Pristine u d) (second : s.Pristine v e) :
    d.metatable = e.metatable ↔ d.tag = e.tag := by
  obtain ⟨m, carries, known⟩ := sorted.instances u d first
  obtain ⟨n, carries', known'⟩ := sorted.instances v e second
  rw [carries, carries', Option.some.injEq]
  constructor
  · rintro rfl
    exact sorted.tag_eq known known'
  · intro same
    rw [same, known'] at known
    exact (Option.some.inj known).symm

theorem Sorted.new (config : Config) (world : E.World) (compiled : List E.Tag) :
    (State.new config world compiled).Sorted where
  made _ listed := absurd listed List.not_mem_nil
  apart := List.nodup_nil
  instances _ _ pristine := absurd pristine.1 nofun

theorem mem_compile (s : State E) (tag : E.Tag) : tag ∈ (s.compile tag).compiled := by
  unfold compile
  split
  · assumption
  · exact List.mem_append_right _ List.mem_cons_self

theorem compile_of_mem {tag : E.Tag} (listed : tag ∈ s.compiled) : s.compile tag = s := by
  rw [compile, if_pos listed]

/-- A binding that is compiled stays for good, also when the state is closed. -/
theorem Change.compiled (one : Change H s t) : ∃ new, t.compiled = s.compiled ++ new := by
  cases one with
  | compile tag =>
    by_cases listed : tag ∈ s.compiled
    · exact ⟨[], by rw [compile_of_mem listed, List.append_nil]⟩
    · exact ⟨[tag], if_neg listed⟩
  | _ => exact ⟨[], (List.append_nil _).symm⟩

theorem Evolves.compiled (evolves : s.Evolves H t) : ∃ new, t.compiled = s.compiled ++ new := by
  refine evolves.changes.keep (P := fun u => ∃ new, u.compiled = s.compiled ++ new) ?_
    ⟨[], (List.append_nil _).symm⟩
  rintro u v one ⟨new, before⟩
  obtain ⟨later, after⟩ := one.compiled
  exact ⟨new ++ later, by rw [after, before, List.append_assoc]⟩

theorem sharedBinding_of_grown {tag : E.Tag} {new : List E.Tag} (listed : tag ∈ s.compiled)
    (grown : t.compiled = s.compiled ++ new) (b : Binding E tag) :
    t.sharedBinding b = s.sharedBinding b := by
  rw [sharedBinding, grown, List.idxOf_append_of_mem listed, sharedBinding]

theorem Advance.known (one : Advance H s t) (opened : t.closings = s.closings) {tag : E.Tag}
    {m : TableId} (known : s.typeMetatable? tag = some m) : t.typeMetatable? tag = some m := by
  cases one with
  | aside one =>
    rw [typeMetatable?, one.types]
    exact known
  | publish tag' name x valid first =>
    rw [typeMetatable?_publish first, if_neg]
    · exact known
    · rintro rfl
      rw [first] at known
      contradiction
  | close => exact absurd opened (List.cons_ne_self _ _)
  | _ => exact known

/-- The metatables of host types are those before the step, but for one that is a new table. -/
theorem Advance.types (one : Advance H s t) (opened : t.closings = s.closings) :
    s.heap.tables.size ≤ t.heap.tables.size ∧ t.typeMetatables = s.typeMetatables ∨
    s.heap.tables.size < t.heap.tables.size ∧
      ∃ tag, t.typeMetatables = s.typeMetatables ++ [(tag, ⟨s.heap.tables.size⟩)] := by
  cases one with
  | aside one => exact .inl ⟨one.change.tables_size, one.types⟩
  | publish tag name x valid first =>
    have size : (s.publish tag name x).heap.tables.size = s.heap.tables.size + 1 :=
      Array.size_modify.trans (Array.size_push x)
    exact .inr ⟨size ▸ Nat.lt_succ_self _, tag, rfl⟩
  | metatable v m h set => exact .inl ⟨(Change.metatable (H := H) v m h set).tables_size, rfl⟩
  | close => exact absurd opened (List.cons_ne_self _ _)
  | _ => exact .inl ⟨Nat.le_refl _, rfl⟩

theorem Pristine.of_push {u : UserdataId} {d new : Userdata E}
    (pristine : Pristine { s with heap := (s.heap.allocUserdata new).2 } u d) :
    s.Pristine u d ∨ d = new := by
  obtain ⟨held, made, kept⟩ := pristine
  change (s.heap.userdata.push new)[u.index]? = some d at held
  rw [Array.getElem?_push] at held
  split at held
  · exact .inr (Option.some.inj held).symm
  · exact .inl ⟨held, made, kept⟩

theorem Pristine.of_withMetatable {u w : UserdataId} {m : Option TableId} {d : Userdata E}
    (pristine : Pristine { s with heap := { s.heap with
      userdata := s.heap.userdata.modify w.index (·.withMetatable m) } } u d) :
    s.Pristine u d := by
  obtain ⟨held, made, kept⟩ := pristine
  rw [Heap.userdata?, Array.getElem?_modify] at held
  split at held
  · obtain ⟨old, -, rfl⟩ := Option.map_eq_some_iff.mp held
    exact absurd kept nofun
  · exact ⟨held, made, kept⟩

/-- An instance is there before the step, or it is made in it with the metatable of its type. -/
theorem Advance.pristine (one : Advance H s t) (opened : t.closings = s.closings) {u : UserdataId}
    {d : Userdata E} (pristine : t.Pristine u d) :
    s.Pristine u d ∨ ∃ m, d.metatable = some m ∧ s.typeMetatable? d.tag = some m := by
  cases one with
  | aside one =>
    rw [Pristine, Heap.userdata?, one.userdata] at pristine
    exact .inl pristine
  | publish tag name x valid first => exact .inl pristine
  | reflect tag o m known =>
    rcases pristine.of_push with before | rfl
    · exact .inl before
    · exact .inr ⟨m, rfl, known⟩
  | carry tag o =>
    rcases pristine.of_push with before | rfl
    · exact .inl before
    · exact absurd pristine.2.1 nofun
  | metatable v m h set =>
    rcases Heap.setMetatable_cases set with ⟨x, rfl, rfl⟩ | ⟨w, rfl, rfl⟩
    · exact .inl pristine
    · exact .inl pristine.of_withMetatable
  | close => exact absurd opened (List.cons_ne_self _ _)

theorem Advance.sorted (one : Advance H s t) (opened : t.closings = s.closings)
    (sorted : s.Sorted) : t.Sorted := by
  refine ⟨fun p listed => ?_, ?_, fun u d pristine => ?_⟩
  · rcases one.types opened with ⟨grown, types⟩ | ⟨grown, tag, types⟩
    · exact Nat.lt_of_lt_of_le (sorted.made p (types ▸ listed)) grown
    · rcases List.mem_append.mp (types ▸ listed) with before | new
      · exact Nat.lt_trans (sorted.made p before) grown
      · rw [List.mem_singleton.mp new]
        exact grown
  · rcases one.types opened with ⟨-, types⟩ | ⟨-, tag, types⟩
    · rw [types]
      exact sorted.apart
    · -- The new metatable has a number that no table had before.
      rw [types, List.map_append]
      refine List.nodup_append.mpr ⟨sorted.apart, List.nodup_singleton _, ?_⟩
      rintro m before n new rfl
      obtain ⟨p, listed, rfl⟩ := List.mem_map.mp before
      have below := sorted.made p listed
      rw [List.mem_singleton.mp new] at below
      exact Nat.lt_irrefl _ below
  · rcases one.pristine opened pristine with before | ⟨m, carries, known⟩
    · obtain ⟨m, carries, known⟩ := sorted.instances u d before
      exact ⟨m, carries, one.known opened known⟩
    · exact ⟨m, carries, one.known opened known⟩

theorem Evolves.known (evolves : s.Evolves H t) (opened : t.closings = s.closings) {tag : E.Tag}
    {m : TableId} (known : s.typeMetatable? tag = some m) : t.typeMetatable? tag = some m :=
  evolves.keep (P := fun s => s.typeMetatable? tag = some m)
    (fun _ _ one opened => one.known opened) opened known

theorem Evolves.sorted (evolves : s.Evolves H t) (opened : t.closings = s.closings)
    (sorted : s.Sorted) : t.Sorted :=
  evolves.keep (fun _ _ one opened => one.sorted opened) opened sorted

theorem Evolves.was_open (evolves : s.Evolves H t) (opened : t.closings = []) :
    s.closings = [] := by
  obtain ⟨later, all⟩ := evolves.closings
  exact (List.append_eq_nil_iff.mp (all.symm.trans opened)).2

end State

/-- The ways in which a host pushes an instance: of a new object, of one that it shares, and as the
conversion of a host value. -/
inductive InstancePush (E : Embedding) (t : E.Tag)
  | new (x : E.Payload t)
  | shared (r : HostRef E t)
  | wrapped (x : E.Payload t)

def InstancePush.action {E : Embedding} {t : E.Tag} : InstancePush E t → Action E Unit
  | new x => do
    let _ ← Action.newInstance t x
    return ()
  | shared r => do
    let _ ← Action.pushShared r
    return ()
  | wrapped x => Action.pushAs (.object t) x

namespace Run
open State
variable {E : Embedding} {H : Host E} {tag : E.Tag} {s t u v : State E}

theorem types_of_install {m : TableId} (ran : install H tag s = .ok m t) :
    t.typeMetatables = s.typeMetatables ∨
      s.typeMetatable? tag = none ∧ t.typeMetatables = s.typeMetatables ++ [(tag, m)] := by
  rcases install_cases ran with ⟨known, rfl⟩ | ⟨name, x, h, new, rfl, rfl⟩
  · exact .inl rfl
  · exact .inr ⟨new, rfl⟩

theorem action_pushShared (enter : Enter E) (H : Host E) (r : HostRef E tag) :
    action enter H (Action.pushShared r) =
      (reflect H tag r >>= fun u => push (.userdata u) >>= fun _ => pure u) := by
  have made : action enter H (Action.perform (.reflect tag r)) = reflect H tag r :=
    action_op enter H (.reflect tag r)
  rw [Action.pushShared, action_bind, made]
  simp only [action_bind, action_push, action_pure]

theorem action_newInstance (enter : Enter E) (H : Host E) (x : E.Payload tag) :
    action enter H (Action.newInstance tag x) =
      (allocObject tag x >>= fun r => action enter H (Action.pushShared r)) := by
  have made : action enter H (HostRef.new tag x) = allocObject tag x :=
    action_op enter H (.newObject tag x)
  rw [Action.newInstance, action_bind, made]

/-- All ways end alike: a userdata is made for some object and pushed. -/
theorem runAction_instancePush (p : InstancePush E tag) (s : State E) :
    ∃ compiled objects r, runAction H p.action s =
      (reflect H tag r >>= fun u => push (.userdata u))
        { s with compiled := compiled, heap := { s.heap with objects := objects } } := by
  cases p with
  | new x =>
    refine ⟨s.compiled, s.heap.objects.push ⟨tag, x, {}⟩, ⟨⟨s.heap.objects.size⟩⟩, ?_⟩
    simp only [runAction, InstancePush.action, action_bind, action_newInstance, action_pushShared,
      action_pure, bind_assoc, pure_bind, bind_pure_unit]
    rfl
  | shared r =>
    refine ⟨s.compiled, s.heap.objects, r, ?_⟩
    simp only [runAction, InstancePush.action, action_bind, action_pushShared, action_pure,
      bind_assoc, pure_bind, bind_pure_unit]
  | wrapped x =>
    simp only [runAction, InstancePush.action, action_pushAs]
    cases bound : H.binding tag with
    | error e =>
      refine ⟨s.compiled, s.heap.objects, ⟨⟨s.heap.objects.size⟩⟩, ?_⟩
      simp only [reflect, bind_eq, encode_object, bound, bindingFor_of_refused bound]
    | ok b =>
      refine ⟨(s.compile tag).compiled, s.heap.objects.push ⟨tag, x, {}⟩, ⟨⟨s.heap.objects.size⟩⟩, ?_⟩
      change _ = (reflect H tag ⟨⟨s.heap.objects.size⟩⟩ >>= fun u => push (.userdata u))
        { s.compile tag with heap := (s.heap.allocObject ⟨tag, x, {}⟩).2 }
      rw [bind_eq, bind_eq, encode_object, bound]
      dsimp only
      cases reflect H tag ⟨⟨s.heap.objects.size⟩⟩
        { s.compile tag with heap := (s.heap.allocObject ⟨tag, x, {}⟩).2 } <;> rfl

/-- A push of an instance is refused with the members of its type, before the state has changed
but for the object. Otherwise the instance is made, and all that can fail then is to push it. -/
theorem instancePush_cases (H : Host E) (p : InstancePush E tag) (s : State E) :
    (∃ e t, H.binding tag = .error e ∧ runAction H p.action s = .error (.raised e) t ∧
      t.typeMetatables = s.typeMetatables ∧ t.closings = s.closings) ∨
    ∃ m t u d, runAction H p.action s = push (.userdata u) t ∧ t.stack = s.stack ∧
      t.closings = s.closings ∧ t.typeMetatable? tag = some m ∧
      (t.typeMetatables = s.typeMetatables ∨
        s.typeMetatable? tag = none ∧ t.typeMetatables = s.typeMetatables ++ [(tag, m)]) ∧
      t.Pristine u d ∧ d.tag = tag := by
  obtain ⟨compiled, objects, r, ran⟩ := runAction_instancePush (H := H) p s
  let s' : State E :=
    { s with compiled := compiled, heap := { s.heap with objects := objects } }
  cases bound : H.binding tag with
  | error e =>
    refine .inl ⟨e, s', rfl, ?_, rfl, rfl⟩
    rw [ran]
    simp only [reflect, bind_eq, bindingFor_of_refused bound, s']
  | ok b =>
    obtain ⟨m, t, installed⟩ := install_total bound (s'.compile tag)
    have frame : (s'.compile tag).SameFrame t := (tame_install H tag).same.of_ok installed
    have types := types_of_install installed
    have known := known_of_install installed
    have made := reflect_of_install (r := r) bound installed
    refine .inr ⟨m, { t with heap := (t.heap.allocUserdata (reflected r m)).2 },
      ⟨t.heap.userdata.size⟩, reflected r m, ?_, frame.stack, frame.closings, known,
      types, ⟨Array.getElem?_push_size, rfl, rfl⟩, rfl⟩
    rw [ran, bind_eq, made]

theorem runAction_registerType (H : Host E) (tag : E.Tag) (s : State E) :
    runAction H (Action.registerType tag) s = (do
      let b ← bindingFor H tag
      let _ ← install H tag
      return b : Run E SharedBinding) s :=
  congrFun (action_op (enter H s.depthLeft) H (.registerType tag)) s

theorem runAction_isRegistered (H : Host E) (tag : E.Tag) (s : State E) :
    runAction H (Action.isRegistered tag) s = .ok (s.compiled.contains tag) s :=
  congrFun (action_op (enter H s.depthLeft) H (.isRegistered tag)) s

theorem registerType_of_bound {b : Binding E tag} (bound : H.binding tag = .ok b) (s : State E) :
    ∃ m t, install H tag (s.compile tag) = .ok m t ∧
      runAction H (Action.registerType tag) s = .ok ((s.compile tag).sharedBinding b) t := by
  obtain ⟨m, t, installed⟩ := install_total bound (s.compile tag)
  refine ⟨m, t, installed, ?_⟩
  rw [runAction_registerType]
  simp only [bind_eq, bindingFor_of_bound bound, installed, pure_eq]

theorem registerType_of_refused {e : Error} (refused : H.binding tag = .error e) (s : State E) :
    runAction H (Action.registerType tag) s = .error (.raised e) s := by
  rw [runAction_registerType]
  simp only [bind_eq, bindingFor_of_refused refused]

/-- What registering a type has answered, and what it has left in the state. -/
theorem registerType_cases {shared : SharedBinding}
    (ran : runAction H (Action.registerType tag) s = .ok shared t) :
    ∃ b m, H.binding tag = .ok b ∧ shared = t.sharedBinding b ∧ tag ∈ t.compiled ∧
      t.typeMetatable? tag = some m := by
  cases bound : H.binding tag with
  | error e =>
    rw [registerType_of_refused bound] at ran
    contradiction
  | ok b =>
    obtain ⟨m, u, installed, answered⟩ := registerType_of_bound bound s
    cases answered.symm.trans ran
    obtain ⟨new, grown⟩ := ((evolves_install tag).of_ok installed).compiled
    have listed := s.mem_compile tag
    refine ⟨b, m, rfl, (sharedBinding_of_grown listed grown b).symm, ?_, known_of_install installed⟩
    rw [grown]
    exact List.mem_append_left _ listed

/-- Registering a type that has been registered before does nothing, and answers the same. -/
theorem registerType_again {shared : SharedBinding}
    (ran : runAction H (Action.registerType tag) s = .ok shared t) (later : t.Evolves H u)
    (opened : u.closings = t.closings) :
    runAction H (Action.registerType tag) u = .ok shared u := by
  obtain ⟨b, m, bound, rfl, listed, known⟩ := registerType_cases ran
  obtain ⟨new, grown⟩ := later.compiled
  have compiled : u.compile tag = u := compile_of_mem (grown ▸ List.mem_append_left _ listed)
  rw [runAction_registerType]
  simp only [bind_eq, bindingFor_of_bound bound, compiled,
    install_of_known (later.known opened known), pure_eq, sharedBinding_of_grown listed grown b]

theorem registerType_apart {other : E.Tag} {first second : SharedBinding}
    (ran : runAction H (Action.registerType tag) s = .ok first t) (later : t.Evolves H u)
    (ran' : runAction H (Action.registerType other) u = .ok second v)
    (same : first.number = second.number) : tag = other := by
  obtain ⟨b, m, -, rfl, listed, -⟩ := registerType_cases ran
  obtain ⟨b', m', -, rfl, listed', -⟩ := registerType_cases ran'
  obtain ⟨new, grown⟩ := (later.trans ((evolves_runAction _).of_ok ran')).compiled
  have place : v.compiled.idxOf tag = v.compiled.idxOf other := by
    rw [grown, List.idxOf_append_of_mem listed, ← grown]
    exact same
  exact (List.idxOf_inj (grown ▸ List.mem_append_left _ listed)).mp place

/-- Instances have the same metatable iff they are of the same host type, whatever the types are
called and whatever else is published under their names. A type that has a metatable keeps it, so
that all later instances get it, too. A push of an instance may give its type a metatable, also when
it fails, but it never takes one away or changes that of another type. Once a type is registered,
registering it again answers the same binding, which no other type shares, and leaves everything as
it is.

All this holds of all that programs do before the state is closed, of instances whose metatable
nobody has set. -/
theorem metatables_follow_types {config : Config} {world : E.World} {compiled : List E.Tag}
    (evolves : (State.new config world compiled).Evolves H s) (opened : s.closings = []) :
    (∀ u d v e, s.Pristine u d → s.Pristine v e → (d.metatable = e.metatable ↔ d.tag = e.tag)) ∧
    (∀ u d, s.Pristine u d → ∃ m, d.metatable = some m ∧ s.typeMetatable? d.tag = some m) ∧
    (∀ {α : Type} (a : Action E α),
      s.Evolves H ((runAction H a).final s) ∧ s.Evolves H ((exec H a).final s)) ∧
    (∀ t, s.Evolves H t → t.closings = [] → ∀ tag m, s.typeMetatable? tag = some m →
      t.typeMetatable? tag = some m ∧
      ∀ u d, t.Pristine u d → d.tag = tag → d.metatable = some m) ∧
    (∀ tag (p : InstancePush E tag), let t := (runAction H p.action).final s
      t.closings = [] ∧
      (t.typeMetatables = s.typeMetatables ∨ s.typeMetatable? tag = none ∧
        ∃ m, t.typeMetatables = s.typeMetatables ++ [(tag, m)]) ∧
      ∀ b, H.binding tag = .ok b → (∃ m, t.typeMetatable? tag = some m) ∧
        (s.stack.isFull = false → ∃ u d, runAction H p.action s = .ok () t ∧
          t.stack.slots = s.stack.slots.push (.userdata u) ∧ t.Pristine u d ∧ d.tag = tag)) ∧
    ∀ tag, (∀ b, H.binding tag = .ok b →
        ∃ shared t, runAction H (Action.registerType tag) s = .ok shared t ∧
          shared.outline = b.outline ∧ t.closings = []) ∧
      ∀ shared t, runAction H (Action.registerType tag) s = .ok shared t →
        ∀ u, t.Evolves H u →
          (u.closings = [] → runAction H (Action.registerType tag) u = .ok shared u) ∧
          runAction H (Action.isRegistered tag) u = .ok true u ∧
          ∀ other shared' v, runAction H (Action.registerType other) u = .ok shared' v →
            shared.number = shared'.number → tag = other := by
  have sorted : s.Sorted := evolves.sorted opened (.new config world compiled)
  refine ⟨fun u d v e => sorted.metatable_eq_iff, sorted.instances,
    fun a => ⟨evolves_runAction a s, evolves_exec a s⟩,
    fun t later open' tag m known => ?_, fun tag p => ?_, fun tag => ⟨fun b bound => ?_, ?_⟩⟩
  · have same : t.closings = s.closings := open'.trans opened.symm
    have known' := later.known same known
    refine ⟨known', fun u d pristine own => ?_⟩
    obtain ⟨n, carries, found⟩ := (later.sorted same sorted).instances u d pristine
    rw [own, known'] at found
    rw [carries, found]
  · rcases instancePush_cases H p s with ⟨e, t, bound, ran, types, closings⟩ |
      ⟨m, t, u, d, ran, stack, closings, known, types, made, own⟩
    · rw [final_of_error ran]
      refine ⟨closings.trans opened, .inl types, fun b bound' => ?_⟩
      exact absurd (bound.symm.trans bound') nofun
    · have types' : t.typeMetatables = s.typeMetatables ∨ s.typeMetatable? tag = none ∧
          ∃ m, t.typeMetatables = s.typeMetatables ++ [(tag, m)] :=
        types.imp_right fun ⟨new, added⟩ => ⟨new, m, added⟩
      rw [push_eq, stack] at ran
      cases full : s.stack.isFull with
      | true =>
        rw [full] at ran
        rw [final_of_error ran]
        exact ⟨closings.trans opened, types', fun b _ => ⟨⟨m, known⟩, nofun⟩⟩
      | false =>
        rw [full] at ran
        rw [final_of_ok ran]
        refine ⟨closings.trans opened, types', fun b _ => ⟨⟨m, known⟩, fun _ => ?_⟩⟩
        exact ⟨u, d, ran, congrArg (fun x : Stack => x.slots.push _) stack, made, own⟩
  · obtain ⟨m, t, installed, ran⟩ := registerType_of_bound bound s
    have same := ((tame_install H tag).same.of_ok installed).closings
    exact ⟨_, t, ran, rfl, same.trans opened⟩
  · intro shared t ran u later
    refine ⟨fun open' => ?_, ?_, fun other shared' v => registerType_apart ran later⟩
    · exact registerType_again ran later (open'.trans (later.was_open open').symm)
    · obtain ⟨b, m, -, -, listed, -⟩ := registerType_cases ran
      obtain ⟨new, grown⟩ := later.compiled
      have listed' : tag ∈ u.compiled := grown ▸ List.mem_append_left _ listed
      rw [runAction_isRegistered, List.contains_iff_mem.mpr listed']

/-- Two host types are called "Vec3", and a table that is no metatable of either was published under
this name before. Instances of the two have different metatables all the same. -/
theorem metatables_follow_types_namesake :
    let H : Host (Catalog.embedding Empty Unit) :=
      { native := nofun
        closure := fun _ _ => Prog.abort ⟨none⟩
        members := fun
          | .impostor => [.named "Vec3"]
          | _ => []
        values := fun _ => []
        handles := fun _ => [] }
    let s := (runAction H (do
      Action.setRaw (← Action.registry) (.string "Vec3") (.table (← Action.newTable))
      let _ ← Action.newInstance .vec3 Catalog.Vec3.origin
      let _ ← Action.newInstance .impostor ()
      Action.pushAs (.object .vec3) Catalog.Vec3.origin)).final (State.new {} ())
    ∃ d ∈ s.heap.userdata? ⟨0⟩, ∃ e ∈ s.heap.userdata? ⟨1⟩, ∃ f ∈ s.heap.userdata? ⟨2⟩,
      d.metatable ≠ e.metatable ∧ d.metatable = f.metatable := by
  intro H s
  have evolves : (State.new {} ()).Evolves H s := evolves_runAction _ _
  obtain ⟨same, -⟩ := metatables_follow_types evolves (by decide +kernel)
  have first : ∃ d ∈ s.heap.userdata? ⟨0⟩, d.reflected = true ∧ d.reassigned = false ∧
    d.tag = .vec3 := by decide +kernel
  have second : ∃ e ∈ s.heap.userdata? ⟨1⟩, e.reflected = true ∧ e.reassigned = false ∧
    e.tag = .impostor := by decide +kernel
  have third : ∃ f ∈ s.heap.userdata? ⟨2⟩, f.reflected = true ∧ f.reassigned = false ∧
    f.tag = .vec3 := by decide +kernel
  obtain ⟨d, made, reflected, kept, own⟩ := first
  obtain ⟨e, made', reflected', kept', own'⟩ := second
  obtain ⟨f, made'', reflected'', kept'', own''⟩ := third
  refine ⟨d, made, e, made', f, made'', ?_, ?_⟩
  · rw [Ne, same _ _ _ _ ⟨made, reflected, kept⟩ ⟨made', reflected', kept'⟩, own, own']
    decide
  · exact (same _ _ _ _ ⟨made, reflected, kept⟩ ⟨made'', reflected'', kept''⟩).mpr
      (own.trans own''.symm)

end Run
end HostBridge
