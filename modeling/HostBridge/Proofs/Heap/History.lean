import HostBridge.Proofs.Heap.Finalizer
/-!
Histories. A program says at the end of a statement what its variables refer to, and the state
settles. Up to then nothing is released, and no object that was finalized comes back.
-/
namespace HostBridge
namespace State
variable {E : Embedding} {H : Host E} {s t : State E}

/-- The life of a state up to now, as the releases in it. Operations of a program come one after the
other, and variables of its functions are assigned; in between the state settles by releases. -/
inductive History (H : Host E) : List (Release E) → State E → Prop
  | start {s : State E} (intact : s.Intact H) : History H [] s
  | perform {s : State E} {rs : List (Release E)} (before : History H rs s) (enter : Run.Enter E)
      {o : Op E} (backed : o.Backed H s) (lasting : o.Lasting) :
      History H rs ((Run.perform enter H o).final s)
  | assign {s : State E} {rs : List (Release E)} (before : History H rs s) (vars : List Entity)
      (given : ∀ e ∈ vars, s.heap.Has e) : History H rs (s.assign vars)
  | settle {s : State E} {rs rs' : List (Release E)} (before : History H rs s) {first : List Value}
      (made : ∀ v ∈ first, v.isReference = true → s.heap.Made v)
      (releases : s.settling.Releases H rs' (s.settle H first)) :
      History H (rs ++ rs') (s.settle H first)

structure Recorded (H : Host E) (rs : List (Release E)) (s : State E) : Prop where
  intact : s.Intact H
  states : ∀ r ∈ rs, r.state.Intact H
  unmentioned : ∀ r ∈ rs, r.entity ∈ r.state.heap.living ∧ r.entity ∉ r.state.mentions H
  released : ∀ r ∈ rs, ∀ o, r.Finalizes H o → s.heap.released.contains (.object o) = true
  once : rs.Pairwise fun r r' => ∀ o, r.Finalizes H o → ¬r'.Finalizes H o

theorem Recorded.step {rs : List (Release E)} (recorded : s.Recorded H rs) (step : s.Step H t) :
    t.Recorded H rs :=
  { recorded with
    intact := step.intact
    released := fun r listed o runs => step.lasts.released ▸ recorded.released r listed o runs }

/-- What was finalized before the releases began is not finalized by them. -/
theorem Releases.spares (discreet : H.Discreet) {rs : List (Release E)}
    (releases : s.Releases H rs t) (intact : s.Intact H) {o : ObjectId}
    (gone : s.heap.released.contains (.object o) = true) : ∀ r ∈ rs, ¬r.Finalizes H o := by
  induction releases with
  | done s => exact fun _ none => absurd none List.not_mem_nil
  | @release s t e rs living unmentioned _ ih =>
    refine List.forall_mem_cons.mpr ⟨?_, ih (intact.release discreet living unmentioned) ?_⟩
    · exact Release.not_finalizes_of_released (r := ⟨s, e⟩) intact living gone
    · rw [release_eq]
      simp only [Heap.without, Std.HashSet.contains_insert, gone, Bool.or_true]

theorem Recorded.settle (discreet : H.Discreet) {rs rs' : List (Release E)}
    (recorded : s.Recorded H rs) {first : List Value}
    (made : ∀ v ∈ first, v.isReference = true → s.heap.Made v)
    (releases : s.settling.Releases H rs' (s.settle H first)) :
    (s.settle H first).Recorded H (rs ++ rs') := by
  have settling := recorded.intact.settling
  obtain ⟨last, states⟩ := releases.intact discreet settling
  refine ⟨last, List.forall_mem_append.mpr ⟨recorded.states, states⟩,
    List.forall_mem_append.mpr ⟨recorded.unmentioned, releases.unmentioned⟩,
    List.forall_mem_append.mpr ⟨fun r listed o runs => ?_, ?_⟩,
    List.pairwise_append.mpr ⟨recorded.once, (releases.once discreet).2,
      fun r listed r' listed' o runs => ?_⟩⟩
  · exact releases.released (recorded.released r listed o runs)
  · have settled := (recorded.intact.settles discreet first made).2
    exact releases.finalized_released discreet settling settled
  · exact releases.spares discreet settling (recorded.released r listed o runs) r' listed'

theorem History.recorded (discreet : H.Discreet) {rs : List (Release E)}
    (history : History H rs s) : s.Recorded H rs := by
  induction history with
  | start intact =>
    exact ⟨intact, fun _ none => absurd none List.not_mem_nil,
      fun _ none => absurd none List.not_mem_nil, fun _ none => absurd none List.not_mem_nil, .nil⟩
  | perform _ enter backed lasting ih =>
    exact ih.step (Run.upholds_perform enter ih.intact backed lasting).step
  | assign _ vars given ih => exact ih.step (ih.intact.assign given)
  | settle _ made releases ih => exact ih.settle discreet made releases

theorem made_nil : ∀ v ∈ ([] : List Value), v.isReference = true → s.heap.Made v :=
  fun _ none => absurd none List.not_mem_nil

theorem History.settles (discreet : H.Discreet) {rs : List (Release E)} (history : History H rs s)
    (first : List Value) (made : ∀ v ∈ first, v.isReference = true → s.heap.Made v) :
    (∃ rs', History H (rs ++ rs') (s.settle H first)) ∧ (s.settle H first).Settled H := by
  have intact := (history.recorded discreet).intact
  obtain ⟨⟨rs', releases⟩, settled⟩ := intact.settles discreet first made
  exact ⟨⟨rs', history.settle made releases⟩, settled⟩

/-- A history that goes on in `t`, where nothing is gone that has ever been made. -/
def Continues (H : Host E) (rs : List (Release E)) (s t : State E) : Prop :=
  (∃ rs', History H (rs ++ rs') t) ∧ ∀ e, s.heap.Made e → t.heap.Made e

theorem History.continues {rs : List (Release E)} (history : History H rs s) :
    Continues H rs s s :=
  ⟨⟨[], (List.append_nil rs).symm ▸ history⟩, fun _ => id⟩

/-- One operation adds to a history, the end of a statement included. -/
theorem History.operation (discreet : H.Discreet) {rs : List (Release E)} (history : History H rs s)
    (enter : Run.Enter E) {o : Op E} (backed : o.Backed H s) :
    Continues H rs s ((Run.perform enter H o).final s) := by
  by_cases lasting : o.Lasting
  · have next := history.perform enter backed lasting
    have step := Run.upholds_perform enter (history.recorded discreet).intact backed lasting
    exact ⟨next.continues.1, step.step.lasts.made⟩
  · cases o with
    | settle vars =>
      rw [Run.settle_final]
      obtain ⟨more, -⟩ := (history.assign vars backed).settles discreet [] made_nil
      obtain ⟨released, world, finalized, settled⟩ := (s.assign vars).settle_frame H []
      refine ⟨more, fun e made => ?_⟩
      rw [settled]
      exact made
    | _ => exact absurd trivial lasting

theorem History.program (discreet : H.Discreet) {α : Type} {rs : List (Release E)}
    (history : History H rs s) {enter : Run.Enter E} {a : Action E α}
    (backed : Action.Backed enter H a s) :
    Continues H rs s ((Run.action enter H a).final s) := by
  induction a generalizing s rs with
  | done r => cases r <;> exact history.continues
  | abort p => exact history.continues
  | perform o next ih =>
    unfold Action.Backed at backed
    obtain ⟨first, rest⟩ := backed
    obtain ⟨⟨rs', between⟩, made⟩ := history.operation discreet enter first
    -- What the rest of the program adds comes after what its first operation adds.
    have onward {t u : State E} (same : (Run.perform enter H o).final s = t)
        (later : Continues H (rs ++ rs') t u) : Continues H rs s u := by
      obtain ⟨⟨rs'', after⟩, made'⟩ := later
      subst same
      exact ⟨⟨rs' ++ rs'', List.append_assoc rs rs' rs'' ▸ after⟩, fun e => made' e ∘ made e⟩
    have action := Run.action_perform enter H o next s
    cases ran : Run.perform enter H o s with
    | ok x t =>
      have ended := Run.final_of_ok ran
      rw [ended] at between
      rw [ran] at action rest
      rw [Run.final, action]
      exact onward ended (ih (.ok x) between rest)
    | error f t =>
      have ended := Run.final_of_error ran
      rw [ended] at between
      rw [ran] at action rest
      rw [Run.final, action]
      cases f with
      | panicked p => exact onward ended between.continues
      | raised e => exact onward ended (ih (.error e) between rest)

theorem History.ran (discreet : H.Discreet) {α : Type} {rs : List (Release E)}
    (history : History H rs s) {enter : Run.Enter E} {a : Action E α}
    (backed : Action.Backed enter H a s) {x : α} (ran : Run.action enter H a s = .ok x t) :
    ∃ rs', History H rs' t := by
  obtain ⟨⟨rs', more⟩, -⟩ := history.program discreet backed
  rw [Run.final_of_ok ran] at more
  exact ⟨_, more⟩

/-- A program that is run from outside of the state leaves it settled. -/
theorem History.exec (discreet : H.Discreet) {α : Type} {rs : List (Release E)}
    (history : History H rs s) {a : Action E α}
    (backed : Action.Backed (Run.enter H s.depthLeft) H a s) :
    (∃ rs', History H (rs ++ rs') ((State.exec H a).final s)) ∧
      ((State.exec H a).final s).Settled H := by
  obtain ⟨⟨rs', between⟩, made⟩ := history.program discreet backed
  rw [Run.exec_final, Run.final_runAction]
  have first (v : Value) (listed : v ∈ if s.heap.userdata.isEmpty then [] else s.stack.slots.toList)
      (counts : v.isReference = true) :
      ((Run.action (Run.enter H s.depthLeft) H a).final s).heap.Made v := by
    have slot : v ∈ s.stack.slots := by
      split at listed
      · contradiction
      · exact Array.mem_toList_iff.mp listed
    have living := (history.recorded discreet).intact.has_slot slot counts
    exact made _ (Heap.mem_living.mp living).1
  obtain ⟨⟨rs'', after⟩, settled⟩ := between.settles discreet _ first
  exact ⟨⟨rs' ++ rs'', List.append_assoc rs rs' rs'' ▸ after⟩, settled⟩

/-- A new state is intact if the program's data refers to nothing. -/
theorem Intact.new (config : Config) {world : E.World} (nothing : holdings H world = []) :
    (State.new config world).Intact H := by
  have lives (t : TableId) (inside : t.index < 2) :
      .value (.table t) ∈ (State.new config world).heap.living :=
    Heap.mem_living.mpr ⟨inside, Std.HashSet.contains_empty⟩
  have own : ∀ v ∈ (Table.empty.setStr globalsKey (.table ⟨0⟩)).contents,
      (State.new config world).heap.Has v :=
    Heap.has_setStr globalsKey (fun _ => lives ⟨0⟩ Nat.zero_lt_two) Heap.has_of_mem_empty
  refine ⟨⟨fun e living d child => ?_, fun e gone => ?_, fun u d found => ?_, fun i o found => ?_⟩,
    fun e root => ?_, fun _ none => absurd none List.not_mem_nil⟩
  · have made := (Heap.mem_living.mp living).1
    cases e with
    | object o => exact absurd made (Nat.not_lt_zero _)
    | value v =>
      cases v with
      | table t =>
        obtain ⟨i⟩ := t
        match i, made with
        | 0, _ | 1, _ => exact List.forall_mem_map.mpr own d child
      | function f | userdata u => exact absurd made (Nat.not_lt_zero _)
      | _ => exact made.elim
  · change (∅ : Std.HashSet Entity).contains e = true at gone
    rw [Std.HashSet.contains_empty] at gone
    contradiction
  · contradiction
  · contradiction
  · have root' : e = Value.table ⟨0⟩ ∨ e = Value.table ⟨1⟩ := by
      simpa [State.roots, State.keeps, State.own, State.new, nothing] using root
    rcases root' with rfl | rfl
    · exact fun _ => lives ⟨0⟩ Nat.zero_lt_two
    · exact fun _ => lives ⟨1⟩ Nat.one_lt_two

end State

/-- One host type, with numbers for payloads. -/
@[reducible] def Embedding.resource : Embedding where
  Tag := Unit
  tagName _ := "Resource"
  Payload _ := Nat
  Native := Empty
  Closure := Empty
  params := Empty.elim
  results := Empty.elim
  World := List Nat

def Host.recording : Host .resource where
  native code := code.elim
  closure code := code.elim
  members _ := [.finalizer fun x seen => (x :: seen, .ok ())]
  values _ := []
  handles _ := []

def Binding.resource : Binding .resource () :=
  { name := "Resource", finalizer := some fun x seen => (x :: seen, .ok ()) }

theorem Host.binding_recording : Host.recording.binding () = .ok Binding.resource := by
  simp [Host.binding, Host.recording, Binding.build, Binding.declare, Binding.repeated?,
    Binding.operatorFault?, Binding.resource]

theorem Host.discreet_recording : Host.recording.Discreet := fun _ _ _ _ _ _ _ => ⟨rfl, rfl⟩

namespace State

/-- A new state, while a variable holds the first object. -/
def withHost : State .resource :=
  { State.new .standard [] with
    heap := {
      tables := (State.new .standard [] : State .resource).heap.tables
      objects := #[⟨(), (7 : Nat), {}⟩] }
    locals := [[.object ⟨0⟩]] }

def equipped : State .resource :=
  { withHost.compile () with
    typeMetatables := [((), ⟨2⟩)]
    heap := { withHost.heap with
      tables :=
        let own := Table.empty.setStr globalsKey (.table ⟨0⟩)
        #[own, own.setStr "Resource" (.table ⟨2⟩),
          ((Table.empty.setStr "__name" (.string "Resource")).setStr "__index"
            (.function ⟨0⟩)).setStr "__newindex" (.function ⟨1⟩)]
      callables := #[⟨"Resource.__index", .hook () .index⟩,
        ⟨"Resource.__newindex", .hook () .newIndex⟩] } }

/-- A later state of the program, in which only this is another. -/
def stage (userdata : Array (Userdata .resource)) (objects : Array (Object .resource))
    (slots : Array Value) (vars : List Entity) (released : Std.HashSet Entity) (seen : List Nat)
    (finalized : Except Panic Unit) : State .resource :=
  { equipped with
    stack := { equipped.stack with slots := slots }
    heap := { equipped.heap with userdata := userdata, objects := objects, released := released }
    locals := [vars]
    peak := { equipped.peak with size := 1 }
    world := seen
    finalized := finalized }

variable (enter : Run.Enter .resource)

theorem install_withHost :
    Run.install Host.recording () (withHost.compile ()) = .ok ⟨2⟩ equipped := by
  have absent : (withHost.compile ()).typeMetatable? () = none := rfl
  simp only [Run.install, Run.bind_eq, Run.get_eq, absent, Host.binding_recording]
  rfl

def owner (object : Nat) : Userdata .resource := ⟨(), ⟨object⟩, some ⟨2⟩, true, false⟩

def resource (x : Nat) : Object .resource := ⟨(), x, {}⟩

section Statements
variable {rs : List (Release .resource)} {userdata : Array (Userdata .resource)}
  {objects : Array (Object .resource)} {slots : Array Value} {vars : List Entity}
  {released : Std.HashSet Entity} {seen : List Nat} {finalized : Except Panic Unit}

theorem history_withHost : ∃ rs, History Host.recording rs withHost := by
  have start : (State.new .standard [] : State .resource).Intact Host.recording :=
    .new .standard rfl
  have made := (History.start start).perform (fun _ => pure 0) (o := .newObject () (7 : Nat))
    (fun _ none => absurd none List.not_mem_nil) trivial
  have present := ((Run.upholds_allocObject start () (x := (7 : Nat)) fun _ none =>
    absurd none List.not_mem_nil).of_ok rfl).2
  have assigned := made.assign [.object ⟨0⟩] fun e listed => by
    rw [List.mem_singleton] at listed
    exact listed ▸ present.2
  obtain ⟨⟨rs, settled⟩, -⟩ := assigned.settles Host.discreet_recording [] made_nil
  exact ⟨_, settled⟩

theorem intact_equipped : equipped.Intact Host.recording := by
  obtain ⟨rs, history⟩ := history_withHost
  have intact := (history.recorded Host.discreet_recording).intact
  have compiled : (withHost.compile ()).Intact Host.recording :=
    (intact.framed (t := withHost.compile ()) rfl rfl fun _ => .inl).intact
  exact ((Run.upholds_install compiled ()).of_ok install_withHost).1.intact

/-- Tables and functions refer to no host objects, and userdata refer to their own. -/
theorem children_stage {e d : Entity}
    (living : e ∈ (stage userdata objects slots vars released seen finalized).heap.living)
    (child : d ∈ (stage userdata objects slots vars released seen finalized).heap.children e) :
    (∀ u, d ≠ Value.userdata u) ∧ ∀ o, d = .object o →
      ∃ u c, e = Value.userdata u ∧ userdata[u.index]? = some c ∧ c.object = o := by
  have made := (Heap.mem_living.mp living).1
  -- Before there was any userdata, nothing could refer to one.
  have before (kept : equipped.heap.Made e) (child : d ∈ equipped.heap.children e) :
      ∀ u, d ≠ Value.userdata u := by
    rintro u rfl
    have lives : e ∈ equipped.heap.living := Heap.mem_living.mpr ⟨kept, Std.HashSet.contains_empty⟩
    have has := intact_equipped.heap.held e lives _ child rfl
    exact Nat.not_lt_zero _ (Heap.mem_living.mp has).1
  cases e with
  | object o =>
    simp only [Heap.children] at child
    cases found : (stage userdata objects slots vars released seen finalized).heap.object? o with
    | none | some x =>
      rw [found] at child
      exact absurd child List.not_mem_nil
  | value v =>
    cases v with
    | userdata w =>
      change d ∈ userdata[w.index]?.elim [] Userdata.contents at child
      cases known : userdata[w.index]? with
      | none =>
        rw [known] at child
        contradiction
      | some c =>
        rw [known] at child
        rcases List.mem_cons.mp child with rfl | own
        · exact ⟨fun _ => Entity.noConfusion, fun o same => ⟨w, c, rfl, known, by simpa using same⟩⟩
        · obtain ⟨m, -, rfl⟩ := Option.map_eq_some_iff.mp (Option.mem_toList.mp own)
          exact ⟨fun _ => by simp, fun _ => Entity.noConfusion⟩
    | table m =>
      refine ⟨before made child, ?_⟩
      rintro o rfl
      obtain ⟨v, -, same⟩ := List.mem_map.mp child
      contradiction
    | function f =>
      refine ⟨before made child, ?_⟩
      rintro o rfl
      simp only [Heap.children] at child
      split at child
      · simp at child
      · contradiction
    | _ => exact made.elim

theorem mem_roots_stage {e : Entity} :
    e ∈ (stage userdata objects slots vars released seen finalized).roots Host.recording ↔
      e ∈ slots.toList.map Entity.value ∨
        e ∈ [0, 1, 2].map (fun i => Entity.value (.table ⟨i⟩)) ∨ e ∈ vars := by
  have roots : (stage userdata objects slots vars released seen finalized).roots Host.recording =
      ((slots.toList ++ [0, 1, 2].map fun i => Value.table ⟨i⟩) ++ []).map Entity.value ++
        [vars].flatten ++ [] := by
    simp only [State.roots, State.keeps, State.own, List.append_assoc]
    rfl
  rw [roots]
  simp only [List.append_nil, List.map_append, List.map_map, List.flatten_singleton,
    List.mem_append, or_assoc]
  rfl

/-- A userdata that lives when the state has settled lies on the stack or in a variable. -/
theorem Settled.kept {u : UserdataId}
    (settled : (stage userdata objects slots vars released seen finalized).Settled Host.recording)
    (living : .value (.userdata u) ∈
      (stage userdata objects slots vars released seen finalized).heap.living) :
    .userdata u ∈ slots.toList ∨ .value (.userdata u) ∈ vars := by
  rcases List.mem_append.mp (settled.mentioned living) with root | child
  · rcases mem_roots_stage.mp root with slot | table | var
    · exact .inl (by simpa using slot)
    · simp at table
    · exact .inr var
  · obtain ⟨e, lives, child⟩ := List.mem_flatMap.mp child
    exact absurd rfl ((children_stage lives child).1 u)

end Statements

abbrev popped (vars : List Entity) (released : Std.HashSet Entity) (seen : List Nat)
    (finalized : Except Panic Unit) : State .resource :=
  stage #[owner 0, owner 1] #[resource 7, resource 8] #[] vars released seen finalized

end State
end HostBridge
