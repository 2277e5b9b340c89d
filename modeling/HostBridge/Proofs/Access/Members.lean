import HostBridge.Catalog.Probe
import Mathlib.Data.List.Nodup
/-!
The members of a host type as its binding finds them. A binding is built from declarations in any
order. It refuses a name or an event that is declared twice and an event without an operator, and
finds everything else again by its name or its event.
-/
namespace HostBridge
variable {E : Embedding} {t : E.Tag}

namespace Member

def field? : Member E t → Option (Field E t)
  | field f => some f
  | _ => none

def method? : Member E t → Option (Method E t)
  | method m => some m
  | _ => none

def operator? : Member E t → Option (Operator E t)
  | operator o => some o
  | _ => none

/-- The name under which a field, a method or a function is declared. -/
def memberName? : Member E t → Option String
  | field f => some f.name
  | method m => some m.name
  | _ => none

def event? : Member E t → Option Event
  | operator o => some o.event
  | _ => none

theorem field?_eq_some_iff {x : Member E t} {f : Field E t} : x.field? = some f ↔ x = .field f := by
  cases x <;> simp [field?]

theorem method?_eq_some_iff {x : Member E t} {m : Method E t} :
    x.method? = some m ↔ x = .method m := by
  cases x <;> simp [method?]

theorem operator?_eq_some_iff {x : Member E t} {o : Operator E t} :
    x.operator? = some o ↔ x = .operator o := by
  cases x <;> simp [operator?]

end Member

/-- Where keys do not repeat, the first element with a key is the only one. -/
theorem find?_key_iff {α κ : Type} [BEq κ] [LawfulBEq κ] {key : α → κ} {xs : List α}
    (nodup : (xs.map key).Nodup) (k : κ) (x : α) :
    xs.find? (key · == k) = some x ↔ x ∈ xs ∧ key x = k := by
  constructor
  · intro found
    have same := List.find?_some found
    exact ⟨List.mem_of_find?_eq_some found, beq_iff_eq.mp same⟩
  · rintro ⟨listed, rfl⟩
    cases found : xs.find? (key · == key x) with
    | none =>
      have other := List.find?_eq_none.mp found x listed
      exact absurd (beq_self_eq_true _) other
    | some y =>
      have same := List.find?_some found
      rw [List.inj_on_of_nodup_map nodup (List.mem_of_find?_eq_some found) listed (beq_iff_eq.mp same)]

def Operator.fits (o : Operator E t) : Bool :=
  match o.body with
  | .binary _ => o.event.isBinary
  | .unary _ => o.event.isUnary

namespace Binding

/-! What the declarations add up to. -/

section Declared

/-- A part of a binding that each declaration puts in what it has for it. -/
theorem foldl_declare {α : Type} {part : Binding E t → List α} {pick : Member E t → Option α}
    (step : ∀ b x, part (declare b x) = part b ++ (pick x).toList) (members : List (Member E t))
    (b : Binding E t) : part (members.foldl declare b) = part b ++ members.filterMap pick := by
  induction members generalizing b with
  | nil => exact (List.append_nil _).symm
  | cons x members ih =>
    rw [List.foldl_cons, ih, step, List.append_assoc]
    cases picked : pick x <;> simp [picked]

theorem declared (tagName : String) (members : List (Member E t)) :
    (members.foldl declare { name := tagName }).fields = members.filterMap Member.field? ∧
    (members.foldl declare { name := tagName }).methods = members.filterMap Member.method? ∧
    (members.foldl declare { name := tagName }).operators = members.filterMap Member.operator? := by
  refine ⟨foldl_declare ?_ members _, foldl_declare ?_ members _, foldl_declare ?_ members _⟩
  all_goals
    intro b x
    cases x <;> simp [declare, Member.field?, Member.method?, Member.operator?]

/-- Fields come before methods in a binding; otherwise the names are those of the declarations. -/
theorem names_perm (members : List (Member E t)) :
    ((members.filterMap Member.field?).map Field.name ++
      (members.filterMap Member.method?).map Method.name).Perm
        (members.filterMap Member.memberName?) := by
  induction members with
  | nil => exact .nil
  | cons x members ih =>
    cases x with
    | field f => exact ih.cons f.name
    | method m => exact List.perm_middle.trans (ih.cons m.name)
    | _ => exact ih

theorem events_eq (members : List (Member E t)) :
    (members.filterMap Member.operator?).map Operator.event = members.filterMap Member.event? := by
  induction members with
  | nil => rfl
  | cons x members ih =>
    cases x with
    | operator o => exact congrArg (o.event :: ·) ih
    | _ => exact ih

end Declared

/-! What is refused. -/

section Refused

/-- No key comes twice, and none has been seen before. -/
def Fresh {κ : Type} (seen keys : List κ) : Prop := keys.Nodup ∧ ∀ k ∈ keys, k ∉ seen

theorem fresh_cons_iff {κ : Type} {seen keys : List κ} {k : κ} :
    Fresh seen (k :: keys) ↔ k ∉ seen ∧ Fresh (k :: seen) keys := by
  constructor
  · rintro ⟨nodup, unseen⟩
    obtain ⟨once, nodup⟩ := List.nodup_cons.mp nodup
    refine ⟨unseen k List.mem_cons_self, nodup, fun l later before => ?_⟩
    rcases List.mem_cons.mp before with rfl | before
    · exact once later
    · exact unseen l (List.mem_cons_of_mem k later) before
  · rintro ⟨unseen, nodup, apart⟩
    refine ⟨List.nodup_cons.mpr ⟨fun again => apart k again List.mem_cons_self, nodup⟩, ?_⟩
    intro l listed before
    rcases List.mem_cons.mp listed with rfl | later
    · exact unseen before
    · exact apart l later (List.mem_cons_of_mem k before)

theorem fresh_nil_iff {κ : Type} {keys : List κ} : Fresh [] keys ↔ keys.Nodup :=
  and_iff_left fun _ _ => List.not_mem_nil

theorem repeated?_eq_none_iff {seen names : List String} :
    repeated? seen names = none ↔ Fresh seen names := by
  induction names generalizing seen with
  | nil => simp [repeated?, Fresh]
  | cons n ns ih =>
    rw [repeated?, fresh_cons_iff, ← ih]
    by_cases known : n ∈ seen <;> simp [known]

theorem operatorFault?_eq_none_iff {type : String} {seen : List Event} {os : List (Operator E t)} :
    operatorFault? type seen os = none ↔
      (∀ e ∈ os.map Operator.event, e.isBinary ∨ e.isUnary) ∧
        Fresh seen (os.map Operator.event) := by
  induction os generalizing seen with
  | nil => simp [operatorFault?, Fresh]
  | cons o os ih =>
    rw [operatorFault?, List.map_cons, fresh_cons_iff, List.forall_mem_cons, and_assoc,
      and_left_comm (a := ∀ e ∈ _, _), ← ih]
    by_cases operator : o.event.isBinary ∨ o.event.isUnary
    · have overloads : ¬((!o.event.isBinary && !o.event.isUnary) = true) := by
        simpa using fun other => operator.resolve_left (by simp [other])
      by_cases known : o.event ∈ seen <;> simp [overloads, operator, known]
    · have other : (!o.event.isBinary && !o.event.isUnary) = true := by
        simpa using operator
      simp [other, operator]

end Refused

/-- A binding is built from declarations that do not clash and keeps their order, but for operators,
which are put in the order of events. -/
theorem build_eq_ok_iff {tagName : String} {members : List (Member E t)} {b : Binding E t} :
    build tagName members = .ok b ↔
      ((members.filterMap Member.memberName?).Nodup ∧ (members.filterMap Member.event?).Nodup ∧
        ∀ e ∈ members.filterMap Member.event?, e.isBinary ∨ e.isUnary) ∧
      b = { members.foldl declare { name := tagName } with
        operators := (members.filterMap Member.operator?).mergeSort
          fun o p => o.event.rank ≤ p.event.rank } := by
  obtain ⟨fields, methods, operators⟩ := declared tagName members
  have names : repeated? [] ((members.filterMap Member.field?).map Field.name ++
      (members.filterMap Member.method?).map Method.name) = none ↔
        (members.filterMap Member.memberName?).Nodup := by
    rw [repeated?_eq_none_iff, fresh_nil_iff, (names_perm members).nodup_iff]
  have events (type : String) : operatorFault? type [] (members.filterMap Member.operator?) = none ↔
      (∀ e ∈ members.filterMap Member.event?, e.isBinary ∨ e.isUnary) ∧
        (members.filterMap Member.event?).Nodup := by
    rw [operatorFault?_eq_none_iff, fresh_nil_iff, events_eq]
  unfold build
  simp only [fields, methods, operators]
  split
  · rename_i n repeats
    have clash : ¬(members.filterMap Member.memberName?).Nodup := by
      rw [← names, repeats]
      nofun
    simp [clash]
  · rename_i none
    have apart := names.mp none
    split
    · rename_i e fault
      have clash := (events _).not.mp (by rw [fault]; nofun)
      constructor
      · intro built
        cases built
      · rintro ⟨⟨-, nodup, overloads⟩, -⟩
        exact absurd ⟨overloads, nodup⟩ clash
    · rename_i none
      obtain ⟨overloads, nodup⟩ := (events _).mp none
      rw [Except.ok.injEq, eq_comm]
      exact (and_iff_right ⟨apart, nodup, overloads⟩).symm

theorem mem_filterMap_iff {α : Type} {members : List (Member E t)} {pick : Member E t → Option α}
    {put : α → Member E t} (picks : ∀ x a, pick x = some a ↔ x = put a) (a : α) :
    a ∈ members.filterMap pick ↔ put a ∈ members := by
  rw [List.mem_filterMap]
  constructor
  · rintro ⟨x, listed, picked⟩
    exact (picks x a).mp picked ▸ listed
  · intro listed
    exact ⟨put a, listed, (picks _ a).mpr rfl⟩

section Built
variable {tagName : String} {members : List (Member E t)} {b : Binding E t}
  (built : build tagName members = .ok b)
include built

theorem apart_of_built :
    (members.filterMap Member.memberName?).Nodup ∧ (members.filterMap Member.event?).Nodup ∧
      ∀ e ∈ members.filterMap Member.event?, e.isBinary ∨ e.isUnary := by
  rw [build_eq_ok_iff] at built
  exact built.1

theorem eq_of_built : b = { members.foldl declare { name := tagName } with
    operators := (members.filterMap Member.operator?).mergeSort
      fun o p => o.event.rank ≤ p.event.rank } := by
  rw [build_eq_ok_iff] at built
  exact built.2

theorem built_names : (b.fields.map Field.name ++ b.methods.map Method.name).Nodup := by
  obtain ⟨names, -⟩ := apart_of_built built
  obtain rfl := eq_of_built built
  obtain ⟨fields, methods, -⟩ := declared tagName members
  simp only [fields, methods]
  exact (names_perm members).nodup_iff.mpr names

theorem built_events : (b.operators.map Operator.event).Nodup := by
  obtain ⟨-, events, -⟩ := apart_of_built built
  obtain rfl := eq_of_built built
  rw [← events_eq] at events
  exact ((List.mergeSort_perm _ _).map Operator.event).nodup_iff.mpr events

theorem mem_fields_iff (f : Field E t) : f ∈ b.fields ↔ .field f ∈ members := by
  obtain rfl := eq_of_built built
  simp only [(declared tagName members).1]
  exact mem_filterMap_iff (fun _ _ => Member.field?_eq_some_iff) f

theorem mem_methods_iff (m : Method E t) : m ∈ b.methods ↔ .method m ∈ members := by
  obtain rfl := eq_of_built built
  simp only [(declared tagName members).2.1]
  exact mem_filterMap_iff (fun _ _ => Member.method?_eq_some_iff) m

theorem mem_operators_iff (o : Operator E t) : o ∈ b.operators ↔ .operator o ∈ members := by
  obtain rfl := eq_of_built built
  rw [(List.mergeSort_perm _ _).mem_iff]
  exact mem_filterMap_iff (fun _ _ => Member.operator?_eq_some_iff) o

theorem operator?_iff (e : Event) (o : Operator E t) :
    b.operator? e = some o ↔ .operator o ∈ members ∧ o.event = e := by
  rw [← mem_operators_iff built]
  exact find?_key_iff (built_events built) e o

end Built

section Lookup
variable {b : Binding E t} (nodup : (b.fields.map Field.name ++ b.methods.map Method.name).Nodup)
include nodup

theorem field?_iff (name : String) (f : Field E t) :
    b.field? name = some f ↔ f ∈ b.fields ∧ f.name = name :=
  find?_key_iff (List.nodup_append.mp nodup).1 name f

theorem method?_iff (name : String) (m : Method E t) :
    b.method? name = some m ↔ m ∈ b.methods ∧ m.name = name := by
  have first : b.method? name = b.methods.find? (·.name == name) :=
    List.find?_eq_bind_findIdx?_getElem?.symm
  rw [first]
  exact find?_key_iff (List.nodup_append.mp nodup).2.1 name m

theorem field?_or_method? (name : String) : b.field? name = none ∨ b.method? name = none := by
  cases field : b.field? name with
  | none => exact .inl rfl
  | some f =>
    cases method : b.method? name with
    | none => exact .inr rfl
    | some m =>
      obtain ⟨listed, rfl⟩ := (field?_iff nodup name f).mp field
      obtain ⟨listed', same⟩ := (method?_iff nodup _ m).mp method
      have apart := (List.nodup_append.mp nodup).2.2
      exact absurd same.symm (apart _ (List.mem_map_of_mem listed) _ (List.mem_map_of_mem listed'))

variable {k : Nat} {m : Method E t} (declared : b.methods[k]? = some m)
include declared

theorem method?_of_method : b.method? m.name = some m :=
  (method?_iff nodup m.name m).mpr ⟨List.mem_of_getElem? declared, rfl⟩

theorem field?_of_method : b.field? m.name = none := by
  refine (field?_or_method? nodup m.name).resolve_right ?_
  rw [method?_of_method nodup declared]
  nofun

theorem methodIndex?_of_method : b.methodIndex? m.name = some k := by
  have unique := (List.nodup_append.mp nodup).2.1
  obtain ⟨inside, here⟩ := List.getElem?_eq_some_iff.mp declared
  rw [methodIndex?, List.findIdx?_eq_some_iff_getElem]
  refine ⟨inside, by simp [here], fun j before same => ?_⟩
  have differ := List.pairwise_iff_getElem.mp unique j k (by simp; omega) (by simpa using inside) before
  rw [List.getElem_map, List.getElem_map, here] at differ
  exact differ (beq_iff_eq.mp same)

end Lookup

/-- A binding is built exactly when no name and no event is declared twice and every event is one
with an operator, of whichever number of operands. It then finds under each name the one field, or
the one method or function, that is declared under it, and for each event the one operator. -/
theorem build_exact (tagName : String) (members : List (Member E t)) :
    ((∃ b, build tagName members = .ok b) ↔
      (members.filterMap Member.memberName?).Nodup ∧ (members.filterMap Member.event?).Nodup ∧
        ∀ e ∈ members.filterMap Member.event?, e.isBinary ∨ e.isUnary) ∧
    ∀ b, build tagName members = .ok b →
      (∀ name f, b.field? name = some f ↔ .field f ∈ members ∧ f.name = name) ∧
      (∀ name m, b.method? name = some m ↔ .method m ∈ members ∧ m.name = name) ∧
      (∀ e o, b.operator? e = some o ↔ .operator o ∈ members ∧ o.event = e) ∧
      ∀ name, b.field? name = none ∨ b.method? name = none := by
  refine ⟨⟨fun ⟨b, built⟩ => apart_of_built built,
    fun apart => ⟨_, build_eq_ok_iff.mpr ⟨apart, rfl⟩⟩⟩, fun b built => ?_⟩
  have names := built_names built
  refine ⟨fun name f => ?_, fun name m => ?_, operator?_iff built, field?_or_method? names⟩
  · rw [field?_iff names, mem_fields_iff built]
  · rw [method?_iff names, mem_methods_iff built]

theorem build_exact_probe :
    let members : List (Member (Catalog.embedding Unit Unit) .probe) :=
      ["x", "y"].filterMap (Catalog.probeMember? "field")
    ∃ b f, build "Probe" members = .ok b ∧ b.field? "y" = some f ∧ b.method? "y" = none := by
  intro members
  obtain ⟨succeeds, finds⟩ := build_exact "Probe" members
  obtain ⟨b, built⟩ := succeeds.mpr (by decide +kernel)
  obtain ⟨fields, -, -, apart⟩ := finds b built
  have found := (fields "y" _).mpr ⟨List.mem_cons_of_mem _ List.mem_cons_self, rfl⟩
  refine ⟨b, _, built, found, (apart "y").resolve_left ?_⟩
  rw [found]
  nofun

/-- An operator with two operands is accepted for an event with one, and found there. -/
theorem unfit_operator_built :
    ∃ o : Operator (Catalog.embedding Unit Unit) .probe,
      Catalog.probeMember? "operator" "__len" = some (.operator o) ∧ o.fits = false ∧
      ∃ b, build "Probe" [.operator o] = .ok b ∧ b.operator? .len = some o := by
  refine ⟨_, rfl, rfl, _, build_eq_ok_iff.mpr ⟨by decide, rfl⟩, ?_⟩
  exact (operator?_iff (build_eq_ok_iff.mpr ⟨by decide, rfl⟩) .len _).mpr ⟨List.mem_cons_self, rfl⟩

end Binding

end HostBridge
