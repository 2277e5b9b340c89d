import HostBridge.Proofs.Run.Changes
/-!
The steps of a run, where several changes that belong together are one step: a host type gets its
metatable and the name of it at once, and an instance is made with the metatable that its type has
then. All other changes leave the metatables of host types and the userdata as they are.
-/
namespace HostBridge
namespace State
variable {E : Embedding}

/-- The state in which a host type has the new metatable `x`, which is published under a name. -/
def publish (s : State E) (t : E.Tag) (name : String) (x : Table) : State E :=
  let m : TableId := ⟨s.heap.tables.size⟩
  { s with
    heap := (s.heap.allocTable x).2.modifyTable s.registry (·.setStr name (.table m))
    typeMetatables := s.typeMetatables ++ [(t, m)] }

theorem typeMetatable?_publish {s : State E} {t : E.Tag} (first : s.typeMetatable? t = none)
    (name : String) (x : Table) (other : E.Tag) :
    (s.publish t name x).typeMetatable? other =
      if other = t then some ⟨s.heap.tables.size⟩ else s.typeMetatable? other := by
  unfold typeMetatable? publish at *
  rw [List.find?_append]
  split
  · rename_i same
    rw [same, Option.map_eq_none_iff.mp first]
    simp
  · rename_i differ
    simp [Ne.symm differ]

structure Change.Aside (H : Host E) (s s' : State E) : Prop where
  change : Change H s s'
  types : s'.typeMetatables = s.typeMetatables
  userdata : s'.heap.userdata = s.heap.userdata
  closings : s'.closings = s.closings

inductive Advance (H : Host E) (s : State E) : State E → Prop
  | aside {s' : State E} (change : Change.Aside H s s') : Advance H s s'
  | publish (t : E.Tag) (name : String) (x : Table) (valid : x.Valid)
      (first : s.typeMetatable? t = none) : Advance H s (s.publish t name x)
  | reflect (t : E.Tag) (o : ObjectId) (m : TableId) (known : s.typeMetatable? t = some m) :
      Advance H s { s with heap := (s.heap.allocUserdata
        { tag := t, object := o, metatable := some m, reflected := true }).2 }
  | carry (t : E.Tag) (o : ObjectId) : Advance H s { s with heap := (s.heap.allocUserdata
      { tag := t, object := o, metatable := none, reflected := false }).2 }
  | metatable (v : Value) (m : Option TableId) (h : Heap E) (set : s.heap.setMetatable v m = .ok h) :
      Advance H s { s with heap := h }
  | close : Advance H s s.close

def Evolves (H : Host E) : State E → State E → Prop := Relation.ReflTransGen (Advance H)

variable {H : Host E} {s t u : State E}

theorem Evolves.refl (s : State E) : s.Evolves H s := Relation.ReflTransGen.refl

theorem Evolves.trans (first : s.Evolves H t) (second : t.Evolves H u) : s.Evolves H u :=
  Relation.ReflTransGen.trans first second

theorem Advance.evolves (one : Advance H s t) : s.Evolves H t := Relation.ReflTransGen.single one

theorem Change.Aside.evolves (one : Change.Aside H s t) : s.Evolves H t :=
  (Advance.aside one).evolves

theorem changes_publish (s : State E) (t : E.Tag) (name : String) {x : Table} (valid : x.Valid) :
    s.Changes H (s.publish t name x) :=
  (Change.newTable x valid).changes.trans <|
    (Change.put s.registry (.string name) (.table ⟨s.heap.tables.size⟩) rfl).changes.trans
      (Change.typeMetatable t ⟨s.heap.tables.size⟩).changes

theorem Advance.changes (one : Advance H s t) : s.Changes H t := by
  cases one with
  | aside one => exact one.change.changes
  | publish t name x valid first => exact changes_publish s t name valid
  | reflect t o m known => exact (Change.newUserdata _).changes
  | carry t o => exact (Change.newUserdata _).changes
  | metatable v m h set => exact (Change.metatable v m h set).changes
  | close => exact Change.close.changes

theorem Evolves.changes (evolves : s.Evolves H t) : s.Changes H t := by
  induction evolves with
  | refl => exact .refl s
  | tail _ last ih => exact ih.trans last.changes

theorem Evolves.tagged (evolves : s.Evolves H t) {tag : E.Tag} {us : List UserdataId}
    (tagged : s.Tagged tag us) : t.Tagged tag us :=
  evolves.changes.tagged tagged

/-- Every `close` stays on record. -/
theorem Advance.closings (one : Advance H s t) : ∃ later, t.closings = later ++ s.closings := by
  cases one with
  | aside one => exact ⟨[], one.closings⟩
  | close => exact ⟨[s.callDepth], rfl⟩
  | _ => exact ⟨[], rfl⟩

theorem Evolves.closings (evolves : s.Evolves H t) : ∃ later, t.closings = later ++ s.closings := by
  induction evolves with
  | refl => exact ⟨[], rfl⟩
  | tail _ last ih =>
    obtain ⟨earlier, before⟩ := ih
    obtain ⟨later, after⟩ := last.closings
    exact ⟨later ++ earlier, by rw [after, before, List.append_assoc]⟩

/-- What every step but `close` keeps, an evolution without `close` keeps. -/
theorem Evolves.keep {P : State E → Prop}
    (keeps : ∀ s t, Advance H s t → t.closings = s.closings → P s → P t)
    (evolves : s.Evolves H t) (opened : t.closings = s.closings) (before : P s) : P t := by
  induction evolves with
  | refl => exact before
  | @tail u v first last ih =>
    obtain ⟨earlier, most⟩ := Evolves.closings first
    obtain ⟨later, all⟩ := last.closings
    -- Both lists of records in between are empty.
    have none : (later ++ earlier).length = 0 := by
      have length := congrArg List.length (opened.symm.trans (all.trans (congrArg _ most)))
      simp only [List.length_append] at length ⊢
      omega
    obtain ⟨rfl, rfl⟩ := List.append_eq_nil_iff.mp (List.eq_nil_of_length_eq_zero none)
    exact keeps u v last all (ih most)

end State
end HostBridge
