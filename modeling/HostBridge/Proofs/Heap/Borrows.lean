import HostBridge.Proofs.Heap.Intact
import Mathlib.Logic.Function.Basic

namespace HostBridge

namespace Borrow

/-- The borrow when, in addition, all of these accesses go on. -/
def adding (b : Borrow) (held : List Access) : Borrow where
  readers := b.readers + held.count .shared
  writer := b.writer || held.contains .exclusive

theorem admits_free (a : Access) : ({} : Borrow).admits a = true := by
  cases a <;> rfl

theorem admits_add_shared (b : Borrow) : (b.add .shared).admits .shared = b.admits .shared := rfl

@[simp] theorem adding_nil (b : Borrow) : b.adding [] = b := by
  simp [adding]

theorem adding_cons (b : Borrow) (a : Access) (held : List Access) :
    b.adding (a :: held) = (b.adding held).add a := by
  cases a <;> simp [adding, add, Nat.add_assoc]

/-- What is held is as it was admitted: readers alone, or one writer alone. -/
def Fits (b : Borrow) (held : List Access) : Prop :=
  .exclusive ∈ held → held = [.exclusive] ∧ b = {}

theorem Fits.cons {b : Borrow} {held : List Access} (fits : b.Fits held) {a : Access}
    (admitted : (b.adding held).admits a = true) : b.Fits (a :: held) := by
  intro listed
  cases a with
  | shared =>
    have among : .exclusive ∈ held := List.mem_of_ne_of_mem (by decide) listed
    obtain ⟨rfl, rfl⟩ := fits among
    cases admitted
  | exclusive =>
    obtain ⟨readers, writer⟩ := b
    simp only [admits, adding, Bool.and_eq_true, Bool.not_eq_true', Bool.or_eq_false_iff,
      beq_iff_eq, Nat.add_eq_zero_iff, List.count_eq_zero] at admitted
    obtain ⟨⟨rfl, alone⟩, rfl, unread⟩ := admitted
    have none : held = [] := List.eq_nil_iff_forall_not_mem.mpr fun a among => by
      cases a with
      | shared => exact unread among
      | exclusive => simp [among] at alone
    exact ⟨none ▸ rfl, rfl⟩

theorem adding_erase {b : Borrow} {held : List Access} (fits : b.Fits held) {a : Access}
    (listed : a ∈ held) : (b.adding held).drop a = b.adding (held.erase a) := by
  cases a with
  | shared =>
    have some : 0 < held.count .shared := List.count_pos_iff.mpr listed
    have other : .exclusive ∈ held.erase .shared ↔ .exclusive ∈ held :=
      List.mem_erase_of_ne (by decide)
    simp only [adding, drop, List.count_erase_self, List.contains_eq_mem, other, mk.injEq, and_true]
    omega
  | exclusive =>
    obtain ⟨rfl, rfl⟩ := fits listed
    rfl

theorem Fits.erase {b : Borrow} {held : List Access} (fits : b.Fits held) (a : Access) :
    b.Fits (held.erase a) := by
  intro listed
  obtain ⟨rfl, rfl⟩ := fits (List.mem_of_mem_erase listed)
  cases a with
  | shared => exact ⟨rfl, rfl⟩
  | exclusive => cases listed

theorem admits_adding_free (held : List Access) :
    ((({} : Borrow).adding held).admits .shared = true ↔ .exclusive ∉ held) ∧
      ((({} : Borrow).adding held).admits .exclusive = true ↔ held = []) := by
  have shared : (({} : Borrow).adding held).admits .shared = true ↔ .exclusive ∉ held := by
    simp [admits, adding]
  refine ⟨shared, fun admitted => ?_, fun none => none ▸ rfl⟩
  simp only [admits, adding, Bool.and_eq_true, Bool.not_eq_true', Bool.or_eq_false_iff,
    beq_iff_eq, Nat.zero_add, List.count_eq_zero] at admitted
  obtain ⟨⟨-, alone⟩, unread⟩ := admitted
  refine List.eq_nil_iff_forall_not_mem.mpr fun a among => ?_
  cases a with
  | shared => exact unread among
  | exclusive => simp [among] at alone

end Borrow

namespace Heap
variable {E : Embedding}

def borrow (h : Heap E) (o : ObjectId) : Borrow :=
  match h.object? o with
  | some x => x.borrow
  | none => {}

theorem admits_eq (h : Heap E) {t : E.Tag} (r : HostRef E t) (a : Access) :
    h.admits r a = if (h.borrow r.object).admits a then .ok ()
      else .error (.instanceBorrowed (E.tagName t)) := by
  unfold admits borrow
  cases h.object? r.object with
  | none => rw [if_pos (Borrow.admits_free a)]
  | some x => rfl

theorem borrow_modifyBorrow (h : Heap E) (o : ObjectId) (f : Borrow → Borrow) (i : ObjectId) :
    (h.modifyBorrow o f).borrow i =
      if o.index = i.index ∧ i.index < h.objects.size then f (h.borrow i) else h.borrow i := by
  unfold borrow object? modifyBorrow
  simp only [Array.getElem?_modify]
  by_cases here : o.index = i.index
  · by_cases below : i.index < h.objects.size
    · simp [here, below]
    · simp [here, below]
  · simp [here]

theorem borrow_of_objects {h h' : Heap E} (same : h'.objects = h.objects) (o : ObjectId) :
    h'.borrow o = h.borrow o := by
  simp only [borrow, object?, same]

/-- A later heap, in which every object that was there is borrowed as it was. -/
structure SameUse (h h' : Heap E) : Prop where
  size : h.objects.size ≤ h'.objects.size
  borrow : ∀ o, o.index < h.objects.size → h'.borrow o = h.borrow o

namespace SameUse

theorem of_objects {h h' : Heap E} (same : h'.objects = h.objects) : h.SameUse h' where
  size := Nat.le_of_eq (congrArg Array.size same.symm)
  borrow o _ := borrow_of_objects same o

theorem refl (h : Heap E) : h.SameUse h := of_objects rfl

theorem trans {h h' h'' : Heap E} (first : h.SameUse h') (second : h'.SameUse h'') :
    h.SameUse h'' where
  size := Nat.le_trans first.size second.size
  borrow o there :=
    (second.borrow o (Nat.lt_of_lt_of_le there first.size)).trans (first.borrow o there)

theorem allocObject (h : Heap E) (x : Object E) : h.SameUse (h.allocObject x).2 where
  size := by
    change _ ≤ (h.objects.push _).size
    rw [Array.size_push]
    exact Nat.le_succ _
  borrow o there := by
    rw [Heap.borrow, object?_allocObject, if_neg (Nat.ne_of_lt there)]
    rfl

theorem setPayload (h : Heap E) {t : E.Tag} (r : HostRef E t) (x : E.Payload t) :
    h.SameUse (h.setPayload r x) where
  size := by
    change _ ≤ (h.objects.modify _ _).size
    rw [Array.size_modify]
  borrow o _ := by
    unfold Heap.borrow
    rw [object?_setPayload]
    cases h.object? o with
    | none => rfl
    | some y =>
      simp only [Option.map_some]
      split <;> rfl

theorem restoreBorrows {h h' : Heap E} (size : h.objects.size ≤ h'.objects.size) :
    h.SameUse (h'.restoreBorrows h.objects) where
  size := by
    change _ ≤ (h'.objects.mapIdx _).size
    rwa [Array.size_mapIdx]
  borrow o there := by
    have there' : o.index < h'.objects.size := Nat.lt_of_lt_of_le there size
    simp only [Heap.borrow, object?, Heap.restoreBorrows, Array.getElem?_mapIdx,
      Array.getElem?_eq_getElem there, Array.getElem?_eq_getElem there', Option.map_some]

end SameUse

/-- A later heap, in which every object that was there is borrowed as it was, and by what is held of
it besides. -/
structure Lent (h : Heap E) (held : ObjectId → List Access) (h' : Heap E) : Prop where
  size : h.objects.size ≤ h'.objects.size
  borrow : ∀ o, o.index < h.objects.size → h'.borrow o = (h.borrow o).adding (held o)
  fits : ∀ o, o.index < h.objects.size → (h.borrow o).Fits (held o)

namespace Lent
variable {h h' h'' : Heap E} {held : ObjectId → List Access}

theorem of_sameUse (same : h.SameUse h') : h.Lent (fun _ => []) h' where
  size := same.size
  borrow o there := (same.borrow o there).trans (Borrow.adding_nil _).symm
  fits _ _ := nofun

theorem sameUse (lent : h.Lent (fun _ => []) h') : h.SameUse h' where
  size := lent.size
  borrow o there := (lent.borrow o there).trans (Borrow.adding_nil _)

theorem after (lent : h.Lent held h') (same : h'.SameUse h'') : h.Lent held h'' where
  size := Nat.le_trans lent.size same.size
  borrow o there :=
    (same.borrow o (Nat.lt_of_lt_of_le there lent.size)).trans (lent.borrow o there)
  fits := lent.fits

theorem update (lent : h.Lent held h') (o : ObjectId) {as : List Access} {f : Borrow → Borrow}
    (here : o.index < h.objects.size → f (h'.borrow o) = (h.borrow o).adding as ∧
      (h.borrow o).Fits as) : h.Lent (Function.update held o as) (h'.modifyBorrow o f) where
  size := by
    change _ ≤ (h'.objects.modify _ _).size
    rw [Array.size_modify]
    exact lent.size
  borrow i there := by
    rw [borrow_modifyBorrow]
    by_cases same : i = o
    · subst same
      rw [if_pos ⟨rfl, Nat.lt_of_lt_of_le there lent.size⟩, Function.update_self]
      exact (here there).1
    · have other : o.index ≠ i.index := fun eq => same (congrArg ObjectId.mk eq.symm)
      rw [if_neg fun both => other both.1, Function.update_of_ne same]
      exact lent.borrow i there
  fits i there := by
    by_cases same : i = o
    · subst same
      rw [Function.update_self]
      exact (here there).2
    · rw [Function.update_of_ne same]
      exact lent.fits i there

theorem acquire (lent : h.Lent held h') {o : ObjectId} {a : Access}
    (admitted : (h'.borrow o).admits a = true) :
    h.Lent (Function.update held o (a :: held o)) (h'.modifyBorrow o (·.add a)) :=
  lent.update o fun there => by
    rw [lent.borrow o there] at admitted ⊢
    exact ⟨(Borrow.adding_cons _ a _).symm, (lent.fits o there).cons admitted⟩

theorem release (lent : h.Lent held h') {o : ObjectId} {a : Access} (listed : a ∈ held o) :
    h.Lent (Function.update held o ((held o).erase a)) (h'.modifyBorrow o (·.drop a)) :=
  lent.update o fun there => by
    rw [lent.borrow o there]
    exact ⟨Borrow.adding_erase (lent.fits o there) listed, (lent.fits o there).erase a⟩

end Lent

theorem SameUse.around {h h' : Heap E} {o : ObjectId} {a : Access}
    (admitted : (h.borrow o).admits a = true)
    (between : (h.modifyBorrow o (·.add a)).SameUse h') :
    h.SameUse (h'.modifyBorrow o (·.drop a)) := by
  have taken := ((Lent.of_sameUse (.refl h)).acquire admitted).after between
  have given := taken.release (o := o) (a := a) (by rw [Function.update_self]; exact .head _)
  rw [Function.update_idem, Function.update_self, List.erase_cons_head,
    Function.update_eq_self] at given
  exact given.sameUse

def Backs (h : Heap E) {t : E.Tag} (r : HostRef E t) : Prop :=
  ∃ x, h.object? r.object = some x ∧ x.tag = t

theorem payload_of_backs {h : Heap E} {t : E.Tag} {r : HostRef E t} (backs : h.Backs r) :
    ∃ x, h.payload r = .ok x := by
  obtain ⟨x, found, rfl⟩ := backs
  exact ⟨x.payload, by simp [payload, found, Object.as?]⟩

end Heap

namespace State
variable {E : Embedding} {H : Host E} {s t : State E} {o : ObjectId}

theorem Change.object? (change : Change H s t) {x : Object E} (found : s.heap.object? o = some x) :
    ∃ y, t.heap.object? o = some y ∧ y.tag = x.tag := by
  have modified (i : Nat) (f : Object E → Object E) (tag : ∀ z, (f z).tag = z.tag) :
      ∃ y, (s.heap.objects.modify i f)[o.index]? = some y ∧ y.tag = x.tag := by
    rw [Array.getElem?_modify, show s.heap.objects[o.index]? = some x from found]
    split
    · exact ⟨f x, rfl, tag x⟩
    · exact ⟨x, rfl, rfl⟩
  have setMetatable (v : Value) (m : Option TableId) (h : Heap E)
      (set : s.heap.setMetatable v m = .ok h) : h.objects = s.heap.objects := by
    rcases Heap.setMetatable_cases set with ⟨x, -, rfl⟩ | ⟨x, -, rfl⟩ <;> rfl
  cases change with
  | newObject made =>
    refine ⟨x, ?_, rfl⟩
    rw [Heap.object?_allocObject, if_neg (Nat.ne_of_lt (Heap.object?_lt found)), found]
  | payload r p =>
    refine modified r.object.index _ fun z => ?_
    split
    · rename_i same
      exact same.symm
    · rfl
  | borrow i f => exact modified i.index _ fun _ => rfl
  | unborrow old =>
    have mapped : (s.heap.restoreBorrows old).object? o = some { x with borrow :=
        match old[o.index]? with
        | some p => p.borrow
        | none => {} } := by
      unfold Heap.object? Heap.restoreBorrows
      rw [Array.getElem?_mapIdx, show s.heap.objects[o.index]? = some x from found]
      rfl
    exact ⟨_, mapped, rfl⟩
  | metatable v m h set =>
    refine ⟨x, ?_, rfl⟩
    change h.objects[o.index]? = _
    rw [setMetatable v m h set]
    exact found
  | close =>
    obtain ⟨tables, heap⟩ := close_heap s
    rw [heap]
    exact ⟨x, found, rfl⟩
  | _ => exact ⟨x, found, rfl⟩

theorem Changes.object? (changes : s.Changes H t) {x : Object E}
    (found : s.heap.object? o = some x) : ∃ y, t.heap.object? o = some y ∧ y.tag = x.tag := by
  refine changes.keep (P := fun t => ∃ y, t.heap.object? o = some y ∧ y.tag = x.tag) ?_
    ⟨x, found, rfl⟩
  rintro t u change ⟨y, found, tag⟩
  obtain ⟨z, found', tag'⟩ := change.object? found
  exact ⟨z, found', tag'.trans tag⟩

theorem Changes.backs (changes : s.Changes H t) {tag : E.Tag} {r : HostRef E tag}
    (backs : s.heap.Backs r) : t.heap.Backs r := by
  obtain ⟨x, found, same⟩ := backs
  obtain ⟨y, found', same'⟩ := changes.object? found
  exact ⟨y, found', same'.trans same⟩

theorem Changes.objects_size (changes : s.Changes H t) :
    s.heap.objects.size ≤ t.heap.objects.size := by
  by_contra fewer
  have inside : t.heap.objects.size < s.heap.objects.size := Nat.lt_of_not_le fewer
  obtain ⟨y, found, -⟩ := changes.object? (o := ⟨t.heap.objects.size⟩)
    (Array.getElem?_eq_getElem inside)
  exact Nat.lt_irrefl _ (Heap.object?_lt found)

end State
end HostBridge
