import HostBridge.State.Ownership
import Mathlib.Data.List.Nodup
import Mathlib.Data.Nat.SuccPred
/-!
What is released when a state settles. Something is mentioned by the state, the embedding program's
data and by what lives. Settling counts the mentions once and keeps the counts up to date, so that it
releases what nothing mentions, and goes on until nothing of the kind is left.
-/
namespace HostBridge
namespace Heap
variable {E : Embedding}

/-- The heap has something of this sort and number. -/
def Made (h : Heap E) : Entity → Prop
  | .value (.table t) => t.index < h.tables.size
  | .value (.function f) => f.index < h.callables.size
  | .value (.userdata u) => u.index < h.userdata.size
  | .value _ => False
  | .object o => o.index < h.objects.size

theorem mem_living {h : Heap E} {e : Entity} :
    e ∈ h.living ↔ h.Made e ∧ h.released.contains e = false := by
  unfold living
  rw [List.mem_filter, Bool.not_eq_true']
  refine and_congr_left fun _ => ?_
  cases e with
  | object o => obtain ⟨i⟩ := o; simp [Made]
  | value v =>
    cases v with
    | table t => obtain ⟨i⟩ := t; simp [Made]
    | function f => obtain ⟨i⟩ := f; simp [Made]
    | userdata u => obtain ⟨i⟩ := u; simp [Made]
    | _ => simp [Made]

theorem nodup_living (h : Heap E) : h.living.Nodup := by
  have distinct {f : Nat → Entity} (inj : Function.Injective f) (n : Nat) :
      ((List.range n).map f).Nodup := List.nodup_range.map inj
  apply List.Nodup.filter
  refine List.Nodup.append (List.Nodup.append (List.Nodup.append ?_ ?_ ?_) ?_ ?_) ?_ ?_
  -- The four sorts are numbered each on its own, and apart from each other.
  · exact distinct (fun i j eq => by simpa using eq) _
  · exact distinct (fun i j eq => by simpa using eq) _
  · intro e left right
    simp only [List.mem_map] at left right
    obtain ⟨i, -, rfl⟩ := left
    simp at right
  · exact distinct (fun i j eq => by simpa using eq) _
  · intro e left right
    simp only [List.mem_map] at right
    obtain ⟨i, -, rfl⟩ := right
    simp at left
  · exact distinct (fun i j eq => by simpa using eq) _
  · intro e left right
    simp only [List.mem_map] at right
    obtain ⟨i, -, rfl⟩ := right
    simp at left

theorem isReference_of_mem_living {h : Heap E} {e : Entity} (living : e ∈ h.living) :
    e.isReference = true := by
  have made := (mem_living.mp living).1
  cases e with
  | object o => rfl
  | value v =>
    cases v with
    | table _ | function _ | userdata _ => rfl
    | _ => exact made.elim

def without (h : Heap E) (e : Entity) : Heap E := { h with released := h.released.insert e }

theorem living_without (h : Heap E) (e : Entity) : (h.without e).living = h.living.erase e := by
  have kept : (h.without e).living = h.living.filter fun d => d != e := by
    unfold living
    rw [List.filter_filter]
    apply List.filter_congr
    intro d _
    simp only [without, Std.HashSet.contains_insert]
    cases h.released.contains d <;> simp [bne, BEq.comm]
  rw [kept, h.nodup_living.erase_eq_filter]

theorem mem_living_without {h : Heap E} {e d : Entity} :
    d ∈ (h.without e).living ↔ d ≠ e ∧ d ∈ h.living := by
  rw [living_without, h.nodup_living.mem_erase_iff]

theorem children_without (h : Heap E) (e : Entity) : (h.without e).children = h.children := rfl

end Heap

namespace State
variable {E : Embedding}

/-! Counts. -/

theorem getD_tally (g : Nat → Nat) (m : References) (es : List Entity) {d : Entity}
    (counts : d.isReference = true) :
    (es.foldl (fun m e => if e.isReference then m.insert e (g (m.getD e 0)) else m) m).getD d 0 =
      g^[es.count d] (m.getD d 0) := by
  induction es generalizing m with
  | nil => rfl
  | cons e es ih =>
    rw [List.foldl_cons, ih, List.count_cons]
    by_cases same : e = d
    · subst same
      rw [if_pos counts, Std.HashMap.getD_insert_self, beq_self_eq_true, if_pos rfl,
        Function.iterate_succ_apply]
    · rw [beq_false_of_ne same, if_neg Bool.false_ne_true, Nat.add_zero]
      split
      · rw [Std.HashMap.getD_insert, beq_false_of_ne same, if_neg Bool.false_ne_true]
      · rfl

theorem getD_countUp (m : References) (es : List Entity) {d : Entity}
    (counts : d.isReference = true) : (countUp m es).getD d 0 = m.getD d 0 + es.count d :=
  (getD_tally Nat.succ m es counts).trans (Nat.succ_iterate _ _)

theorem getD_countDown (m : References) (es : List Entity) {d : Entity}
    (counts : d.isReference = true) : (countDown m es).getD d 0 = m.getD d 0 - es.count d :=
  (getD_tally Nat.pred m es counts).trans (Nat.pred_iterate _ _)

/-- The counts say how often everything is mentioned. -/
def Counted (H : Host E) (s : State E) (refs : References) : Prop :=
  ∀ e, e.isReference = true → refs.getD e 0 = (s.mentions H).count e

theorem counted_mentions (H : Host E) (s : State E) : s.Counted H (countUp ∅ (s.mentions H)) := by
  intro e counts
  rw [getD_countUp _ _ counts, Std.HashMap.getD_empty, Nat.zero_add]

/-! One release. -/

/-- What the finalizer does that runs when something is released: it is a reflected userdata and has
the only mention of its object, nobody uses the object, and its host type declares a finalizer. -/
def finalizer? (H : Host E) (s : State E) : Entity → Option (E.World → E.World × Except Panic Unit)
  | .value (.userdata u) =>
    match s.heap.userdata? u with
    | none => none
    | some d =>
      if d.reflected && (s.mentions H).count (.object d.object) == 1 then
        match H.binding d.tag, s.heap.payload (t := d.tag) ⟨d.object⟩,
            s.heap.admits (t := d.tag) ⟨d.object⟩ .exclusive with
        | .ok b, .ok x, .ok () => b.finalizer.map fun f => f x
        | _, _, _ => none
      else none
  | _ => none

def worldWithout (H : Host E) (s : State E) (e : Entity) : E.World :=
  match s.finalizer? H e with
  | some f => (f s.world).1
  | none => s.world

def finalizedWithout (H : Host E) (s : State E) (e : Entity) : Except Panic Unit :=
  match s.finalizer? H e with
  | some f => s.finalized *> (f s.world).2
  | none => s.finalized

theorem finalize_eq (H : Host E) (s : State E) (u : UserdataId) :
    s.finalize H u = { s with
      world := s.worldWithout H (.value (.userdata u))
      finalized := s.finalizedWithout H (.value (.userdata u)) } := by
  simp only [finalize, worldWithout, finalizedWithout, finalizer?]
  cases s.heap.userdata? u with
  | none => rfl
  | some d =>
    dsimp only
    split
    · cases H.binding d.tag with
      | error e => rfl
      | ok b =>
        cases s.heap.payload (t := d.tag) ⟨d.object⟩ with
        | error e => rfl
        | ok x =>
          cases s.heap.admits (t := d.tag) ⟨d.object⟩ .exclusive with
          | error e => rfl
          | ok _ => cases declared : b.finalizer <;> simp only [declared] <;> rfl
    · rfl

theorem finalizer?_eq_some_iff {H : Host E} {s : State E} {e : Entity}
    {g : E.World → E.World × Except Panic Unit} :
    s.finalizer? H e = some g ↔ ∃ u d, e = .value (.userdata u) ∧ s.heap.userdata? u = some d ∧
      (d.reflected = true ∧ (s.mentions H).count (.object d.object) = 1) ∧
      ∃ b f x, H.binding d.tag = .ok b ∧ b.finalizer = some f ∧
        s.heap.payload (t := d.tag) ⟨d.object⟩ = .ok x ∧
        s.heap.admits (t := d.tag) ⟨d.object⟩ .exclusive = .ok () ∧ f x = g := by
  constructor
  · intro due
    unfold finalizer? at due
    split at due
    · rename_i u
      cases known : s.heap.userdata? u with
      | none =>
        rw [known] at due
        contradiction
      | some d =>
        rw [known] at due
        simp only at due
        split at due
        · rename_i owner
          simp only [Bool.and_eq_true, beq_iff_eq] at owner
          split at due
          · rename_i b x found paid free
            obtain ⟨f, declared, rfl⟩ := Option.map_eq_some_iff.mp due
            exact ⟨u, d, rfl, known, owner, b, f, x, found, declared, paid, free, rfl⟩
          · contradiction
        · contradiction
    · contradiction
  · rintro ⟨u, d, rfl, known, ⟨reflected, only⟩, b, f, x, found, declared, paid, free, rfl⟩
    simp only [finalizer?, known, reflected, only, found, paid, free, declared]
    rfl

theorem release_eq (H : Host E) (s : State E) (e : Entity) :
    s.release H e = { s with
      world := s.worldWithout H e
      finalized := s.finalizedWithout H e
      heap := s.heap.without e } := by
  cases e with
  | object o => rfl
  | value v =>
    cases v with
    | userdata u =>
      rw [release, finalize_eq]
      rfl
    | _ => rfl

end State

/-- Finalizers see the payload that they are given. What the embedding program itself holds on to
stays as it is. -/
def Host.Discreet {E : Embedding} (H : Host E) : Prop :=
  ∀ (t : E.Tag) (b : Binding E t) (f : Finalizer E t), H.binding t = .ok b →
    b.finalizer = some f → ∀ x w, H.values (f x w).1 = H.values w ∧ H.handles (f x w).1 = H.handles w

def Host.FinalizerPanics {E : Embedding} (H : Host E) (p : Panic) : Prop :=
  ∃ (t : E.Tag) (b : Binding E t) (f : Finalizer E t) (x : E.Payload t) (w : E.World),
    H.binding t = .ok b ∧ b.finalizer = some f ∧ (f x w).2 = .error p

namespace State
variable {E : Embedding} {H : Host E}

theorem finalized_release {s : State E} {e : Entity} {p : Panic}
    (ended : (s.release H e).finalized = .error p) :
    s.finalized = .error p ∨ H.FinalizerPanics p := by
  rw [release_eq] at ended
  simp only [finalizedWithout] at ended
  cases due : s.finalizer? H e with
  | none =>
    rw [due] at ended
    exact .inl ended
  | some g =>
    obtain ⟨u, d, -, -, -, b, f, x, found, declared, -, -, rfl⟩ := finalizer?_eq_some_iff.mp due
    rw [due] at ended
    cases before : s.finalized with
    | error q =>
      rw [before] at ended
      exact .inl ended
    | ok _ =>
      rw [before] at ended
      exact .inr ⟨d.tag, b, f, x, s.world, found, declared, ended⟩

theorem finalized_releaseAll {fuel : Nat} {s : State E} {refs : References} {work : List Entity}
    {p : Panic} (ended : (s.releaseAll H refs fuel work).finalized = .error p) :
    s.finalized = .error p ∨ H.FinalizerPanics p := by
  induction fuel generalizing s refs work with
  | zero => exact .inl ended
  | succ fuel ih =>
    cases work with
    | nil => exact .inl ended
    | cons e work =>
      unfold releaseAll at ended
      split at ended
      · exact (ih ended).elim finalized_release .inr
      · exact ih ended

/-- A state that settles ends with no panic but that of a finalizer. -/
theorem finalized_settle {s : State E} {before : List Value} {p : Panic}
    (ended : (s.settle H before).finalized = .error p) : H.FinalizerPanics p := by
  unfold settle at ended
  split at ended
  · contradiction
  · exact (finalized_releaseAll ended).resolve_left nofun

theorem holdings_worldWithout (discreet : H.Discreet) (s : State E) (e : Entity) :
    holdings H (s.worldWithout H e) = holdings H s.world := by
  unfold worldWithout
  cases due : s.finalizer? H e with
  | none => rfl
  | some g =>
    obtain ⟨u, d, -, -, -, b, f, x, found, declared, -, -, rfl⟩ := finalizer?_eq_some_iff.mp due
    obtain ⟨values, handles⟩ := discreet d.tag b f found declared x s.world
    simp only [holdings, values, handles]

theorem roots_release (discreet : H.Discreet) (s : State E) (e : Entity) :
    (s.release H e).roots H = s.roots H := by
  rw [release_eq, State.roots, State.roots]
  simp only [holdings_worldWithout discreet s e]
  rfl

/-- A release takes away what the released object mentioned, and nothing else. -/
theorem mentions_release (discreet : H.Discreet) {s : State E} {e : Entity}
    (living : e ∈ s.heap.living) :
    (s.mentions H).Perm (s.heap.children e ++ (s.release H e).mentions H) := by
  have rest : (s.release H e).heap.living.flatMap (s.release H e).heap.children =
      (s.heap.living.erase e).flatMap s.heap.children := by
    rw [release_eq, Heap.living_without, Heap.children_without]
  rw [mentions, mentions, roots_release discreet, rest]
  have front : (s.heap.living.flatMap s.heap.children).Perm
      (s.heap.children e ++ (s.heap.living.erase e).flatMap s.heap.children) :=
    (List.perm_cons_erase living).flatMap_right s.heap.children
  exact (front.append_left _).trans (by grind [List.perm_append_comm_assoc])

theorem Counted.release (discreet : H.Discreet) {s : State E} {refs : References}
    (counted : s.Counted H refs) {e : Entity} (living : e ∈ s.heap.living) :
    (s.release H e).Counted H (countDown refs (s.heap.children e)) := by
  intro d counts
  rw [getD_countDown _ _ counts, counted d counts, (mentions_release discreet living).count_eq,
    List.count_append, Nat.add_sub_cancel_left]

end State

structure Release (E : Embedding) where
  state : State E
  entity : Entity

namespace State
variable {E : Embedding} {H : Host E}

/-- From the first state to the last by releases of what lives and nothing mentions. -/
inductive Releases (H : Host E) : State E → List (Release E) → State E → Prop
  | done (s : State E) : Releases H s [] s
  | release {s t : State E} {e : Entity} {rs : List (Release E)} (living : e ∈ s.heap.living)
      (unmentioned : e ∉ s.mentions H) (rest : Releases H (s.release H e) rs t) :
      Releases H s (⟨s, e⟩ :: rs) t

/-- How much work there is at most: what is listed, and what the living objects will add to it. -/
def backlog (s : State E) (work : List Entity) : Nat :=
  work.length + (s.heap.living.flatMap s.heap.children).length

theorem backlog_release (s : State E) {e : Entity} (living : e ∈ s.heap.living)
    (work : List Entity) :
    (s.release H e).backlog (s.heap.children e ++ work) + 1 = s.backlog (e :: work) := by
  have front : (s.heap.living.flatMap s.heap.children).Perm
      (s.heap.children e ++ (s.heap.living.erase e).flatMap s.heap.children) :=
    (List.perm_cons_erase living).flatMap_right s.heap.children
  have length := front.length_eq
  unfold backlog
  rw [release_eq, Heap.living_without, Heap.children_without]
  simp only [List.length_append, List.length_cons] at length ⊢
  omega

/-- What settling keeps true while `work` is left to look at: the counts are exact, what may have to
be released is there, and what nothing mentions is listed. -/
structure Unsettled (H : Host E) (s : State E) (refs : References) (work : List Entity) : Prop where
  counted : s.Counted H refs
  made : ∀ e ∈ work, e.isReference = true → s.heap.Made e
  held : ∀ e ∈ s.heap.living, ∀ d ∈ s.heap.children e, d.isReference = true → s.heap.Made d
  listed : ∀ e ∈ s.heap.living, e ∉ s.mentions H → e ∈ work

namespace Unsettled
variable {s : State E} {refs : References} {e : Entity} {work : List Entity}

/-- The test of a settling state finds what nothing mentions. -/
theorem due_iff (unsettled : s.Unsettled H refs (e :: work)) :
    (e.isReference && !s.heap.released.contains e && refs.getD e 0 == 0) = true ↔
      e ∈ s.heap.living ∧ e ∉ s.mentions H := by
  simp only [Bool.and_eq_true, Bool.not_eq_true', beq_iff_eq]
  constructor
  · rintro ⟨⟨counts, here⟩, zero⟩
    rw [unsettled.counted e counts] at zero
    exact ⟨Heap.mem_living.mpr ⟨unsettled.made e List.mem_cons_self counts, here⟩,
      List.count_eq_zero.mp zero⟩
  · rintro ⟨living, unmentioned⟩
    have counts := Heap.isReference_of_mem_living living
    rw [unsettled.counted e counts]
    exact ⟨⟨counts, (Heap.mem_living.mp living).2⟩, List.count_eq_zero.mpr unmentioned⟩

theorem skip (unsettled : s.Unsettled H refs (e :: work))
    (kept : ¬(e ∈ s.heap.living ∧ e ∉ s.mentions H)) : s.Unsettled H refs work where
  counted := unsettled.counted
  made d later := unsettled.made d (List.mem_cons_of_mem _ later)
  held := unsettled.held
  listed d living unmentioned := by
    rcases List.mem_cons.mp (unsettled.listed d living unmentioned) with rfl | later
    · exact absurd ⟨living, unmentioned⟩ kept
    · exact later

theorem release (discreet : H.Discreet) (unsettled : s.Unsettled H refs (e :: work))
    (living : e ∈ s.heap.living) :
    (s.release H e).Unsettled H (countDown refs (s.heap.children e))
      (s.heap.children e ++ work) := by
  have perm := mentions_release discreet living
  have heap : (s.release H e).heap = s.heap.without e := by rw [release_eq]
  constructor
  · exact unsettled.counted.release discreet living
  · intro d waiting counts
    rw [heap]
    rcases List.mem_append.mp waiting with child | later
    · exact unsettled.held e living d child counts
    · exact unsettled.made d (List.mem_cons_of_mem _ later) counts
  · rw [heap]
    intro x still
    exact unsettled.held x (Heap.mem_living_without.mp still).2
  · rw [heap]
    intro d still unmentioned
    obtain ⟨other, living⟩ := Heap.mem_living_without.mp still
    -- What was mentioned before the release and is not any more, the released object mentioned.
    by_cases mentioned : d ∈ s.mentions H
    · rcases List.mem_append.mp (perm.mem_iff.mp mentioned) with child | rest
      · exact List.mem_append_left _ child
      · exact absurd rest unmentioned
    · rcases List.mem_cons.mp (unsettled.listed d living mentioned) with same | later
      · exact absurd same other
      · exact List.mem_append_right _ later

theorem all_mentioned (unsettled : s.Unsettled H refs []) :
    ∀ e ∈ s.heap.living, e ∈ s.mentions H := by
  intro e living
  by_contra unmentioned
  exact absurd (unsettled.listed e living unmentioned) List.not_mem_nil

end Unsettled

/-- With enough fuel all that nothing mentions is released, and nothing else. -/
theorem releaseAll_releases (discreet : H.Discreet) {fuel : Nat} {s : State E} {refs : References}
    {work : List Entity} (unsettled : s.Unsettled H refs work) (enough : s.backlog work ≤ fuel) :
    ∃ rs, s.Releases H rs (s.releaseAll H refs fuel work) ∧
      ∀ e ∈ (s.releaseAll H refs fuel work).heap.living,
        e ∈ (s.releaseAll H refs fuel work).mentions H := by
  -- By induction on the fuel: everything that is looked at takes one off the backlog.
  induction fuel generalizing s refs work with
  | zero =>
    have empty : work = [] := List.length_eq_zero_iff.mp (by unfold backlog at enough; omega)
    subst empty
    exact ⟨[], .done s, unsettled.all_mentioned⟩
  | succ fuel ih =>
    cases work with
    | nil => exact ⟨[], .done s, unsettled.all_mentioned⟩
    | cons e work =>
      unfold releaseAll
      split
      · rename_i due
        obtain ⟨living, unmentioned⟩ := unsettled.due_iff.mp due
        have less := s.backlog_release (H := H) living work
        obtain ⟨rs, releases, settled⟩ := ih (unsettled.release discreet living) (by omega)
        exact ⟨⟨s, e⟩ :: rs, .release living unmentioned releases, settled⟩
      · rename_i kept
        apply ih (unsettled.skip (mt unsettled.due_iff.mpr kept))
        unfold backlog at enough ⊢
        rw [List.length_cons] at enough
        omega

/-! Settling. -/

/-- Releases change nothing but the record of what is released, the program's own data and how its
finalizers have ended. -/
theorem releaseAll_frame (H : Host E) (s : State E) (refs : References) (fuel : Nat)
    (work : List Entity) :
    ∃ released world finalized, s.releaseAll H refs fuel work =
      { s with heap := { s.heap with released := released }, world := world, finalized := finalized } := by
  induction fuel generalizing s refs work with
  | zero => exact ⟨s.heap.released, s.world, s.finalized, rfl⟩
  | succ fuel ih =>
    cases work with
    | nil => exact ⟨s.heap.released, s.world, s.finalized, rfl⟩
    | cons e work =>
      unfold releaseAll
      split
      · obtain ⟨released, world, finalized, same⟩ :=
          ih (s.release H e) (countDown refs (s.heap.children e)) (s.heap.children e ++ work)
        rw [release_eq] at same
        exact ⟨released, world, finalized, by rw [release_eq]; exact same⟩
      · exact ih s refs work

theorem settle_frame (H : Host E) (s : State E) (before : List Value) :
    ∃ released world finalized, s.settle H before =
      { s with
        heap := { s.heap with released := released }
        world := world
        dropped := []
        finalized := finalized } := by
  unfold settle
  split
  · exact ⟨s.heap.released, s.world, .ok (), rfl⟩
  · exact releaseAll_frame H s.settling _ _ _

theorem objects_settle (H : Host E) (s : State E) (before : List Value) :
    (s.settle H before).heap.objects = s.heap.objects := by
  obtain ⟨released, world, finalized, settled⟩ := s.settle_frame H before
  rw [settled]

/-- A state settles by releases, and then all that lives is mentioned unless there is no userdata at
all. -/
theorem settle_releases (discreet : H.Discreet) {s : State E} {before : List Value}
    (dropped : ∀ v ∈ s.dropped, v.isReference = true → s.heap.Made (.value v))
    (made : ∀ v ∈ before, v.isReference = true → s.heap.Made (.value v))
    (held : ∀ e ∈ s.heap.living, ∀ d ∈ s.heap.children e, d.isReference = true → s.heap.Made d) :
    ∃ rs, s.settling.Releases H rs (s.settle H before) ∧
      ((s.settle H before).heap.userdata.isEmpty = true ∨
        ∀ e ∈ (s.settle H before).heap.living, e ∈ (s.settle H before).mentions H) := by
  unfold settle
  split
  · rename_i none
    exact ⟨[], .done _, .inl none⟩
  · have unsettled : s.settling.Unsettled H
        (countUp ∅ (s.mentions H)) ((s.dropped ++ before).map Entity.value ++ s.heap.living) := by
      constructor
      · exact s.counted_mentions H
      · intro e listed counts
        rcases List.mem_append.mp listed with outside | living
        · obtain ⟨v, source, rfl⟩ := List.mem_map.mp outside
          rcases List.mem_append.mp source with first | slot
          · exact dropped v first counts
          · exact made v slot counts
        · exact (Heap.mem_living.mp living).1
      · exact held
      · exact fun e living _ => List.mem_append_right _ living
    obtain ⟨rs, releases, settled⟩ := releaseAll_releases discreet unsettled (Nat.le_refl _)
    exact ⟨rs, releases, .inr settled⟩

/-! What is released shows in the heap, the program's data and the counts. -/

/-- Two states that have the same heap and data and refer to everything equally often. -/
structure Alike (s t : State E) : Prop where
  heap : t.heap = s.heap
  world : t.world = s.world
  dropped : t.dropped = s.dropped
  finalized : t.finalized = s.finalized
  keeps : ∀ e : Entity, e.isReference = true → t.keeps.count e = s.keeps.count e

namespace Alike
variable {s t : State E}

theorem mentions (alike : s.Alike t) (H : Host E) {e : Entity} (counts : e.isReference = true) :
    (t.mentions H).count e = (s.mentions H).count e := by
  simp only [State.mentions, State.roots, List.count_append, alike.keeps e counts, alike.heap,
    alike.world]

theorem release (alike : s.Alike t) (H : Host E) (e : Entity) :
    (s.release H e).Alike (t.release H e) := by
  have due : t.finalizer? H e = s.finalizer? H e := by
    simp only [finalizer?, alike.heap, fun o => alike.mentions H (e := .object o) rfl]
  rw [release_eq, release_eq]
  refine ⟨?_, ?_, alike.dropped, ?_, alike.keeps⟩
  · simp only [alike.heap]
  · simp only [worldWithout, due, alike.world]
  · simp only [finalizedWithout, due, alike.world, alike.finalized]

theorem releaseAll (alike : s.Alike t) (H : Host E) {refs refs' : References}
    (same : ∀ e : Entity, e.isReference = true → refs'.getD e 0 = refs.getD e 0) (fuel : Nat)
    (work : List Entity) :
    (s.releaseAll H refs fuel work).Alike (t.releaseAll H refs' fuel work) := by
  induction fuel generalizing s t refs refs' work with
  | zero => exact alike
  | succ fuel ih =>
    cases work with
    | nil => exact alike
    | cons e work =>
      have due : (e.isReference && !t.heap.released.contains e && refs'.getD e 0 == 0) =
          (e.isReference && !s.heap.released.contains e && refs.getD e 0 == 0) := by
        cases counts : e.isReference with
        | true => rw [alike.heap, same e counts]
        | false => rfl
      rw [State.releaseAll, State.releaseAll, due]
      split
      · rw [alike.heap]
        refine ih (alike.release H e) (fun d counts => ?_) _
        rw [getD_countDown _ _ counts, getD_countDown _ _ counts, same d counts]
      · exact ih alike same work

theorem settle (alike : s.Alike t) (H : Host E) (before : List Value) :
    (s.settle H before).Alike (t.settle H before) := by
  unfold State.settle
  rw [alike.heap, alike.dropped]
  have start : s.settling.Alike t.settling := ⟨alike.heap, alike.world, rfl, rfl, alike.keeps⟩
  split
  · exact start
  · refine start.releaseAll H (fun e counts => ?_) _ _
    rw [getD_countUp _ _ counts, getD_countUp _ _ counts, alike.mentions H counts]

/-- A change of the state that releases do not see may as well be made after them. -/
theorem settle_comm {g : State E → State E} (alike : s.Alike (g s)) (H : Host E)
    (before : List Value)
    (commutes : ∀ released world finalized,
      g { s with
          heap := { s.heap with released := released }, world := world, dropped := [],
          finalized := finalized } =
        { g s with
          heap := { (g s).heap with released := released }, world := world, dropped := [],
          finalized := finalized }) :
    (g s).settle H before = g (s.settle H before) := by
  obtain ⟨released, world, finalized, here⟩ := s.settle_frame H before
  obtain ⟨released', world', finalized', there⟩ := (g s).settle_frame H before
  have same := alike.settle H before
  have gone : released' = released := by
    have heap := congrArg Heap.released same.heap
    rwa [here, there] at heap
  have data : world' = world := by
    have world := same.world
    rwa [here, there] at world
  have ended : finalized' = finalized := by
    have finalized := same.finalized
    rwa [here, there] at finalized
  rw [here, there, commutes, gone, data, ended]

/-- Who shares an object depends on nothing else. -/
theorem shareCount (alike : s.Alike t) (H : Host E) (o : ObjectId) :
    t.shareCount H o = s.shareCount H o :=
  (alike.settle H []).mentions H rfl

end Alike
end State
end HostBridge
