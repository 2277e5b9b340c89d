import HostBridge.Proofs.Heap.Instances
/-!
When finalizers run. A history is what a program does to a state, one operation after the other, and
the releases at the ends of its statements. The finalizer of a host type runs when a reflected
userdata is released that has the only mention of its object. Nothing mentions the object from then
on, so that it is released too before the statement has ended, and is not finalized again.
-/
namespace HostBridge
namespace State
variable {E : Embedding} {H : Host E} {s t : State E}

/-- Nothing but the userdata refers to the object: no handle in a variable, in the program's data or
in a payload, and no other userdata. -/
def SoleOwner (H : Host E) (s : State E) (u : UserdataId) (o : ObjectId) : Prop :=
  .object o ∉ s.roots H ∧
    ∀ e ∈ s.heap.living, .object o ∈ s.heap.children e → e = Value.userdata u

theorem count_contents (d : Userdata E) : d.contents.count (.object d.object) = 1 := by
  rw [Userdata.contents, List.count_cons_self, List.count_eq_zero.mpr]
  simp

/-- A living userdata is the sole owner of its object iff the object is mentioned once. -/
theorem count_mentions_eq_one_iff {u : UserdataId} {d : Userdata E}
    (living : .value (.userdata u) ∈ s.heap.living) (known : s.heap.userdata? u = some d) :
    (s.mentions H).count (.object d.object) = 1 ↔ s.SoleOwner H u d.object := by
  have own : s.heap.children (Value.userdata u) = d.contents := by simp [Heap.children, known]
  have front : (s.heap.living.flatMap s.heap.children).Perm
      (d.contents ++ (s.heap.living.erase (.value (.userdata u))).flatMap s.heap.children) :=
    own ▸ (List.perm_cons_erase living).flatMap_right s.heap.children
  have total : (s.mentions H).count (.object d.object) = (s.roots H).count (.object d.object) +
      (1 + ((s.heap.living.erase (.value (.userdata u))).flatMap s.heap.children).count
        (.object d.object)) := by
    rw [mentions, List.count_append, front.count_eq, List.count_append, count_contents]
  have alone : (s.mentions H).count (.object d.object) = 1 ↔
      (s.roots H).count (.object d.object) = 0 ∧
        ((s.heap.living.erase (.value (.userdata u))).flatMap s.heap.children).count
          (.object d.object) = 0 := by omega
  rw [alone, List.count_eq_zero, List.count_eq_zero, SoleOwner]
  simp only [List.mem_flatMap, s.heap.nodup_living.mem_erase_iff, not_exists, not_and]
  refine and_congr_right fun _ => forall_congr' fun e => ?_
  constructor
  · intro free lives child
    by_contra other
    exact free ⟨other, lives⟩ child
  · rintro sole ⟨other, lives⟩ child
    exact other (sole lives child)

/-! Releases. -/

theorem Intact.release (discreet : H.Discreet) (intact : s.Intact H) {e : Entity}
    (living : e ∈ s.heap.living) (unmentioned : e ∉ s.mentions H) : (s.release H e).Intact H := by
  have has {d : Entity} (mentioned : d ∈ s.mentions H) (has : s.heap.Has d) :
      (s.heap.without e).Has d := by
    intro counts
    refine Heap.mem_living_without.mpr ⟨?_, has counts⟩
    rintro rfl
    exact unmentioned mentioned
  have roots := roots_release discreet s e
  rw [release_eq] at roots ⊢
  refine ⟨⟨fun x lives d child => ?_, fun d gone => ?_, intact.heap.typed, intact.heap.free⟩,
    fun d root => ?_, intact.dropped⟩
  · have before := (Heap.mem_living_without.mp lives).2
    exact has (List.mem_append_right _ (List.mem_flatMap.mpr ⟨x, before, child⟩))
      (intact.heap.held x before d child)
  · simp only [Heap.without, Std.HashSet.contains_insert, Bool.or_eq_true, beq_iff_eq] at gone
    rcases gone with rfl | before
    · exact (Heap.mem_living.mp living).1
    · exact intact.heap.released d before
  · rw [roots] at root
    exact has (List.mem_append_left _ root) (intact.roots d root)

theorem Releases.intact (discreet : H.Discreet) {rs : List (Release E)}
    (releases : s.Releases H rs t) (intact : s.Intact H) :
    t.Intact H ∧ ∀ r ∈ rs, r.state.Intact H := by
  induction releases with
  | done s => exact ⟨intact, fun _ none => absurd none List.not_mem_nil⟩
  | release living unmentioned _ ih =>
    obtain ⟨last, each⟩ := ih (intact.release discreet living unmentioned)
    exact ⟨last, List.forall_mem_cons.mpr ⟨intact, each⟩⟩

/-- Each release lets go of something that lives and that nothing mentions. -/
theorem Releases.unmentioned {rs : List (Release E)} (releases : s.Releases H rs t) :
    ∀ r ∈ rs, r.entity ∈ r.state.heap.living ∧ r.entity ∉ r.state.mentions H := by
  induction releases with
  | done s => exact fun _ none => absurd none List.not_mem_nil
  | release living unmentioned _ ih => exact List.forall_mem_cons.mpr ⟨⟨living, unmentioned⟩, ih⟩

/-- What nothing mentions is not mentioned again. -/
theorem Releases.stays_unmentioned (discreet : H.Discreet) {rs : List (Release E)}
    (releases : s.Releases H rs t) {e : Entity} (unmentioned : e ∉ s.mentions H) :
    e ∉ t.mentions H ∧ ∀ r ∈ rs, e ∉ r.state.mentions H := by
  induction releases with
  | done s => exact ⟨unmentioned, fun _ none => absurd none List.not_mem_nil⟩
  | release living _ _ ih =>
    have less := (mentions_release discreet living).mem_iff.not.mp unmentioned
    obtain ⟨last, each⟩ := ih fun mentioned => less (List.mem_append_right _ mentioned)
    exact ⟨last, List.forall_mem_cons.mpr ⟨unmentioned, each⟩⟩

theorem Releases.same {rs : List (Release E)} (releases : s.Releases H rs t) :
    t.heap.userdata = s.heap.userdata ∧ t.heap.objects = s.heap.objects ∧
      ∀ r ∈ rs, r.state.heap.userdata = s.heap.userdata ∧
        r.state.heap.objects = s.heap.objects := by
  induction releases with
  | done s => exact ⟨rfl, rfl, fun _ none => absurd none List.not_mem_nil⟩
  | release _ _ _ ih =>
    rw [release_eq] at ih
    exact ⟨ih.1, ih.2.1, List.forall_mem_cons.mpr ⟨⟨rfl, rfl⟩, ih.2.2⟩⟩

theorem Releases.released {rs : List (Release E)} (releases : s.Releases H rs t) {e : Entity}
    (gone : s.heap.released.contains e = true) : t.heap.released.contains e = true := by
  induction releases with
  | done s => exact gone
  | release _ _ _ ih =>
    apply ih
    rw [release_eq]
    simp only [Heap.without, Std.HashSet.contains_insert, gone, Bool.or_true]

/-- Releases that all leave the program's data alone leave it alone together. -/
theorem Releases.quiet {rs : List (Release E)} (releases : s.Releases H rs t)
    (quiet : ∀ r ∈ rs, (r.state.release H r.entity).world = r.state.world ∧
      (r.state.release H r.entity).finalized = r.state.finalized) :
    t.world = s.world ∧ t.finalized = s.finalized := by
  induction releases with
  | done s => exact ⟨rfl, rfl⟩
  | release _ _ _ ih =>
    obtain ⟨⟨world, finalized⟩, rest⟩ := List.forall_mem_cons.mp quiet
    obtain ⟨world', finalized'⟩ := ih rest
    exact ⟨world'.trans world, finalized'.trans finalized⟩

end State

/-- The release runs a finalizer, on the object `o`. -/
def Release.Finalizes {E : Embedding} (H : Host E) (r : Release E) (o : ObjectId) : Prop :=
  (r.state.finalizer? H r.entity).isSome = true ∧
    ∃ u d, r.entity = Value.userdata u ∧ r.state.heap.userdata? u = some d ∧ d.object = o

namespace Release
variable {E : Embedding} {H : Host E} {r : Release E} {o : ObjectId}

theorem Finalizes.sole_owner (runs : r.Finalizes H o) (living : r.entity ∈ r.state.heap.living) :
    ∃ u, r.entity = Value.userdata u ∧ r.state.SoleOwner H u o := by
  obtain ⟨due, u, d, value, known, rfl⟩ := runs
  obtain ⟨g, due⟩ := Option.isSome_iff_exists.mp due
  obtain ⟨w, c, value', known', ⟨-, only⟩, -⟩ := State.finalizer?_eq_some_iff.mp due
  obtain rfl : u = w := by simpa using value.symm.trans value'
  obtain rfl : d = c := Option.some.inj (known.symm.trans known')
  rw [value] at living
  exact ⟨u, value, (State.count_mentions_eq_one_iff living known).mp only⟩

theorem Finalizes.mentioned (runs : r.Finalizes H o) (living : r.entity ∈ r.state.heap.living) :
    .object o ∈ r.state.mentions H := by
  obtain ⟨-, u, d, value, known, rfl⟩ := runs
  refine List.mem_append_right _ (List.mem_flatMap.mpr ⟨r.entity, living, ?_⟩)
  rw [value]
  simp [Heap.children, known, Userdata.contents]

theorem Finalizes.unmentioned (discreet : H.Discreet) (runs : r.Finalizes H o)
    (living : r.entity ∈ r.state.heap.living) :
    .object o ∉ (r.state.release H r.entity).mentions H := by
  obtain ⟨u, value, unheld, sole⟩ := runs.sole_owner living
  have roots := State.roots_release discreet r.state r.entity
  intro mentioned
  rcases List.mem_append.mp mentioned with root | child
  · exact unheld (roots ▸ root)
  · obtain ⟨e, lives, child⟩ := List.mem_flatMap.mp child
    rw [State.release_eq] at lives child
    obtain ⟨other, before⟩ := Heap.mem_living_without.mp lives
    exact other ((sole e before child).trans value.symm)

theorem not_finalizes_of_released (intact : r.state.Intact H)
    (living : r.entity ∈ r.state.heap.living)
    (gone : r.state.heap.released.contains (.object o) = true) : ¬r.Finalizes H o := by
  rintro ⟨-, u, d, value, known, rfl⟩
  have held : ∀ e ∈ d.contents, r.state.heap.Has e := by
    have kept := intact.heap.held _ living
    rw [value] at kept
    simpa [Heap.children, known] using kept
  have lives := (Heap.has_contents.mp held).1 rfl
  rw [(Heap.mem_living.mp lives).2] at gone
  contradiction

end Release

namespace State
variable {E : Embedding} {H : Host E} {s t : State E}

/-- Among the releases of one settling, an object is finalized once. Nothing mentions it at the end. -/
theorem Releases.once (discreet : H.Discreet) {rs : List (Release E)}
    (releases : s.Releases H rs t) :
    (∀ r ∈ rs, ∀ o, r.Finalizes H o → .object o ∉ t.mentions H) ∧
      rs.Pairwise fun r r' => ∀ o, r.Finalizes H o → ¬r'.Finalizes H o := by
  induction releases with
  | done s => exact ⟨fun _ none => absurd none List.not_mem_nil, .nil⟩
  | @release s t e rs living _ rest ih =>
    obtain ⟨each, once⟩ := ih
    -- What the first release finalizes is unmentioned before the others begin.
    have after (o : ObjectId) (runs : Release.Finalizes H ⟨s, e⟩ o) :
        .object o ∉ t.mentions H ∧ ∀ r ∈ rs, .object o ∉ r.state.mentions H := by
      have unmentioned : .object o ∉ (s.release H e).mentions H :=
        Release.Finalizes.unmentioned (r := ⟨s, e⟩) discreet runs living
      exact rest.stays_unmentioned discreet unmentioned
    refine ⟨List.forall_mem_cons.mpr ⟨fun o runs => (after o runs).1, each⟩,
      List.pairwise_cons.mpr ⟨fun r listed o runs again => ?_, once⟩⟩
    exact (after o runs).2 r listed (again.mentioned (rest.unmentioned r listed).1)

/-- All that lives is mentioned, unless there is no userdata at all. -/
def Settled (H : Host E) (s : State E) : Prop :=
  s.heap.userdata.isEmpty = true ∨ ∀ e ∈ s.heap.living, e ∈ s.mentions H

theorem Settled.mentioned (settled : s.Settled H) {u : UserdataId}
    (living : .value (.userdata u) ∈ s.heap.living) : .value (.userdata u) ∈ s.mentions H := by
  rcases settled with none | all
  · have made : u.index < s.heap.userdata.size := (Heap.mem_living.mp living).1
    rw [Array.isEmpty_iff_size_eq_zero] at none
    omega
  · exact all _ living

theorem Intact.settling (intact : s.Intact H) : s.settling.Intact H :=
  ⟨intact.heap, intact.roots, fun _ none => absurd none List.not_mem_nil⟩

theorem Intact.settles (discreet : H.Discreet) (intact : s.Intact H) (first : List Value)
    (made : ∀ v ∈ first, v.isReference = true → s.heap.Made v) :
    (∃ rs, s.settling.Releases H rs (s.settle H first)) ∧ (s.settle H first).Settled H := by
  obtain ⟨rs, releases, settled⟩ := settle_releases discreet intact.dropped made
    fun e living d child counts => (Heap.mem_living.mp (intact.heap.held e living d child counts)).1
  exact ⟨⟨rs, releases⟩, settled⟩

/-- What is finalized on the way to a settled state is released there. -/
theorem Releases.finalized_released (discreet : H.Discreet) {rs : List (Release E)}
    (releases : s.Releases H rs t) (intact : s.Intact H) (settled : t.Settled H) :
    ∀ r ∈ rs, ∀ o, r.Finalizes H o → t.heap.released.contains (.object o) = true := by
  intro r listed o runs
  obtain ⟨userdata, objects, each⟩ := releases.same
  obtain ⟨-, u, d, -, known, rfl⟩ := id runs
  obtain ⟨sameUserdata, sameObjects⟩ := each r listed
  obtain ⟨x, found, -⟩ := ((releases.intact discreet intact).2 r listed).heap.typed u d known
  have inside : t.heap.Made (.object d.object) := by
    have lt := Heap.object?_lt found
    rwa [sameObjects, ← objects] at lt
  have some : u.index < t.heap.userdata.size := by
    have lt := (Array.getElem?_eq_some_iff.mp known).1
    rwa [sameUserdata, ← userdata] at lt
  -- The object is there and not mentioned at the end, so it does not live.
  by_contra here
  rw [Bool.not_eq_true] at here
  rcases settled with none | all
  · rw [Array.isEmpty_iff_size_eq_zero] at none
    omega
  · exact (releases.once discreet).1 r listed _ runs (all _ (Heap.mem_living.mpr ⟨inside, here⟩))

end State
end HostBridge
