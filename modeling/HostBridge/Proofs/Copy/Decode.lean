import HostBridge.Action.View
import HostBridge.Proofs.Call.Outcome
import HostBridge.Proofs.Table.FiniteMap
/-!
Copies of tables on the host side. Tables may share and contain each other and themselves; what a
copy follows is the tree of the tables below the one it starts at, level by level. The copy exists if
the tree has no more levels than allowed and every key in it means something to the host.
-/
namespace HostBridge

mutual

/-- The host value is a copy of a value. The pairs of a table may come in any order. -/
def HostValue.Copies {E : Embedding} (h : Heap E) : HostValue → Value → Prop
  | .nil, v => v = .nil
  | .boolean b, v => v = .boolean b
  | .number n, v => v = .number n
  | .string s, v => v = .string s
  | .map m, v => ∃ t ps, v = .table t ∧ (h.table t).Valid ∧ ps.Perm (h.table t).pairs ∧ m.Lists h ps
  | .function f, v => v = .function f
  | .userdata u, v => v = .userdata u
  | .light a, v => v = .light a

/-- The pairs of the host map are copies of the given ones, in the same order. -/
def HostMap.Lists {E : Embedding} (h : Heap E) : HostMap → List (Value × Value) → Prop
  | .empty, ps => ps = []
  | .pair k x r, ps => ∃ v rest, ps = (k.toValue, v) :: rest ∧ x.Copies h v ∧ r.Lists h rest

end

namespace Heap
variable {E : Embedding}

/-- Table `u` is on level `n` of the tree of tables below `t`, which itself is on level 1. -/
inductive Nested (h : Heap E) : TableId → Nat → TableId → Prop
  | self (t : TableId) : Nested h t 1 t
  | deeper {t v u : TableId} {key : Value} {n : Nat} (held : (h.table t).get key = .table v)
      (nested : Nested h v n u) : Nested h t (n + 1) u

/-- The tree below `t` has at most `levels` levels. -/
def Shallow (h : Heap E) (levels : Nat) (t : TableId) : Prop :=
  ∀ n u, h.Nested t n u → n ≤ levels

/-- Every live key in the tree below `t` is a boolean, a number or a string. -/
def Plain (h : Heap E) (t : TableId) : Prop :=
  ∀ n u key, h.Nested t n u → (h.table u).get key ≠ .nil → ∃ k : HostKey, key = k.toValue

end Heap

theorem exists_of_forall₂ {α β : Type} {R : α → β → Prop} {xs : List α} {ys : List β}
    (all : List.Forall₂ R xs ys) {x : α} (listed : x ∈ xs) : ∃ y ∈ ys, R x y := by
  induction all with
  | nil => cases listed
  | cons first rest ih =>
    cases listed with
    | head => exact ⟨_, List.mem_cons_self, first⟩
    | tail _ listed =>
      obtain ⟨y, later, related⟩ := ih listed
      exact ⟨y, List.mem_cons_of_mem _ later, related⟩

namespace HostKey

theorem ofValue_ok {v : Value} {k : HostKey} (ok : ofValue v = .ok k) : v = k.toValue := by
  cases v <;> cases ok <;> rfl

theorem ofValue_error {v : Value} {e : Error} (error : ofValue v = .error e) :
    e = .typeMismatch .string v.kind ∧ ∀ k : HostKey, v ≠ k.toValue := by
  cases v <;> cases error <;> exact ⟨rfl, fun k => by cases k <;> nofun⟩

theorem normal_toValue (k : HostKey) : k.toValue.normal = k.normal.toValue := by
  cases k <;> rfl

theorem toValue_inj {j k : HostKey} (same : j.toValue = k.toValue) : j = k := by
  cases j <;> cases k <;> cases same <;> rfl

theorem eqv_iff {j k : HostKey} : j.eqv k = true ↔ j.toValue.normal = k.toValue.normal := by
  rw [eqv, beq_iff_eq, normal_toValue, normal_toValue]
  exact ⟨fun same => by rw [same], toValue_inj⟩

theorem exists_of_normal_eq {v : Value} {k : HostKey} (same : v.normal = k.toValue.normal) :
    ∃ j : HostKey, v = j.toValue := by
  cases v with
  | boolean b => exact ⟨.boolean b, rfl⟩
  | number n => exact ⟨.number n, rfl⟩
  | string s => exact ⟨.string s, rfl⟩
  | _ => cases k <;> cases same

end HostKey

namespace HostMap

theorem toList_insert_of_absent {m : HostMap} {key : HostKey} {x : HostValue}
    (absent : ∀ p ∈ m.toList, p.1.eqv key = false) :
    (m.insert key x).toList = m.toList ++ [(key, x)] := by
  induction m using toList.induct with
  | case1 => rfl
  | case2 k v r ih =>
    have ⟨first, rest⟩ := List.forall_mem_cons.mp absent
    simp only at first
    rw [insert, first, if_neg Bool.false_ne_true, toList, toList, ih rest, List.cons_append]

end HostMap

namespace Heap
variable {E : Embedding} {h : Heap E}

def addPair (nested : TableId → Except Error HostMap) (m : HostMap) (p : Value × Value) :
    Except Error HostMap := do
  let key ← HostKey.ofValue p.1
  let value ← hostValueWith nested p.2
  return m.insert key value

theorem hostMap_succ (h : Heap E) (room : Nat) (t : TableId) :
    h.hostMap (room + 1) t = (h.table t).pairs.foldlM (addPair (h.hostMap room)) .empty := rfl

def Converts (nested : TableId → Except Error HostMap) (p : Value × Value)
    (e : HostKey × HostValue) : Prop :=
  p.1 = e.1.toValue ∧ hostValueWith nested p.2 = .ok e.2

variable {nested : TableId → Except Error HostMap}

theorem addPair_ok {m m' : HostMap} {p : Value × Value} (ok : addPair nested m p = .ok m') :
    ∃ e, Converts nested p e ∧ m' = m.insert e.1 e.2 := by
  unfold addPair at ok
  cases key : HostKey.ofValue p.1 with
  | error e =>
    rw [key] at ok
    cases ok
  | ok k =>
    cases value : hostValueWith nested p.2 with
    | error e =>
      rw [key, value] at ok
      cases ok
    | ok x =>
      rw [key, value] at ok
      cases ok
      exact ⟨(k, x), ⟨HostKey.ofValue_ok key, value⟩, rfl⟩

theorem addPair_error {m : HostMap} {p : Value × Value} {e : Error}
    (error : addPair nested m p = .error e) :
    HostKey.ofValue p.1 = .error e ∨ hostValueWith nested p.2 = .error e := by
  unfold addPair at error
  cases key : HostKey.ofValue p.1 with
  | error e' =>
    rw [key] at error
    cases error
    exact .inl rfl
  | ok k =>
    cases value : hostValueWith nested p.2 with
    | error e' =>
      rw [key, value] at error
      cases error
      exact .inr rfl
    | ok x =>
      rw [key, value] at error
      cases error

theorem addPairs_ok {ps : List (Value × Value)} {m m' : HostMap}
    (distinct : ps.Pairwise fun a b => a.1.normal ≠ b.1.normal)
    (apart : ∀ e ∈ m.toList, ∀ p ∈ ps, e.1.toValue.normal ≠ p.1.normal)
    (ok : ps.foldlM (addPair nested) m = .ok m') :
    ∃ es, m'.toList = m.toList ++ es ∧ List.Forall₂ (Converts nested) ps es := by
  induction ps generalizing m with
  | nil =>
    cases ok
    exact ⟨[], by simp, .nil⟩
  | cons p ps ih =>
    rw [List.foldlM_cons] at ok
    cases added : addPair nested m p with
    | error e =>
      rw [added] at ok
      cases ok
    | ok n =>
      rw [added] at ok
      obtain ⟨e, converts, rfl⟩ := addPair_ok added
      obtain ⟨first, rest⟩ := List.pairwise_cons.mp distinct
      have absent : ∀ q ∈ m.toList, q.1.eqv e.1 = false := by
        intro q listed
        refine Bool.eq_false_iff.mpr fun same => ?_
        rw [HostKey.eqv_iff, ← converts.1] at same
        exact apart q listed p List.mem_cons_self same
      have appended := HostMap.toList_insert_of_absent (x := e.2) absent
      obtain ⟨es, toList, all⟩ := ih rest (fun q listed p' listed' => by
        rw [appended] at listed
        rcases List.mem_append.mp listed with before | last
        · exact apart q before p' (List.mem_cons_of_mem _ listed')
        · rw [List.mem_singleton.mp last]
          simp only
          rw [← converts.1]
          exact first p' listed') ok
      exact ⟨e :: es, by rw [toList, appended, List.append_assoc]; rfl, .cons converts all⟩

theorem addPairs_error {ps : List (Value × Value)} {m : HostMap} {e : Error}
    (error : ps.foldlM (addPair nested) m = .error e) :
    ∃ p ∈ ps, HostKey.ofValue p.1 = .error e ∨ hostValueWith nested p.2 = .error e := by
  induction ps generalizing m with
  | nil => cases error
  | cons p ps ih =>
    rw [List.foldlM_cons] at error
    cases added : addPair nested m p with
    | error e' =>
      rw [added] at error
      cases error
      exact ⟨p, List.mem_cons_self, addPair_error added⟩
    | ok n =>
      rw [added] at error
      obtain ⟨q, listed, cause⟩ := ih error
      exact ⟨q, List.mem_cons_of_mem _ listed, cause⟩

theorem hostValueWith_error {v : Value} {e : Error} (error : hostValueWith nested v = .error e) :
    ∃ u, v = .table u ∧ nested u = .error e := by
  cases v with
  | table u =>
    cases inner : nested u with
    | error e' =>
      rw [hostValueWith, inner] at error
      cases error
      exact ⟨u, rfl, inner⟩
    | ok m =>
      rw [hostValueWith, inner] at error
      cases error
  | _ => cases error

theorem hostValueWith_table {u : TableId} {x : HostValue}
    (ok : hostValueWith nested (.table u) = .ok x) : ∃ m, x = .map m ∧ nested u = .ok m := by
  cases inner : nested u with
  | error e =>
    rw [hostValueWith, inner] at ok
    cases ok
  | ok m =>
    rw [hostValueWith, inner] at ok
    cases ok
    exact ⟨m, rfl, rfl⟩

theorem copies_of_hostValueWith {v : Value} {x : HostValue} (ok : hostValueWith nested v = .ok x)
    (tables : ∀ u m, v = .table u → nested u = .ok m → (HostValue.map m).Copies h v) :
    x.Copies h v := by
  cases v with
  | table u =>
    obtain ⟨m, rfl, inner⟩ := hostValueWith_table ok
    exact tables u m rfl inner
  | _ =>
    cases ok
    rw [HostValue.Copies]

theorem lists_of_converts {ps : List (Value × Value)} {m : HostMap}
    (converts : List.Forall₂ (Converts nested) ps m.toList)
    (tables : ∀ p ∈ ps, ∀ u m', p.2 = .table u → nested u = .ok m' →
      (HostValue.map m').Copies h p.2) : m.Lists h ps := by
  induction m using HostMap.toList.induct generalizing ps with
  | case1 =>
    cases converts
    rw [HostMap.Lists]
  | case2 k x r ih =>
    cases converts with
    | @cons p _ ps _ first rest =>
      rw [HostMap.Lists]
      refine ⟨p.2, ps, by rw [← first.1], ?_, ?_⟩
      · exact copies_of_hostValueWith first.2 (tables p List.mem_cons_self)
      · exact ih rest fun q listed => tables q (List.mem_cons_of_mem _ listed)

/-- The pair under which a table holds another one leads one level down. -/
theorem nested_of_pair {t u : TableId} (valid : (h.table t).Valid) {p : Value × Value}
    (listed : p ∈ (h.table t).pairs) (table : p.2 = .table u) {n : Nat} {v : TableId}
    (nested : h.Nested u n v) : h.Nested t (n + 1) v :=
  .deeper ((valid.get_of_mem_pairs listed).2.1.trans table) nested

theorem exists_pair_of_get {t : TableId} (valid : (h.table t).Valid) {key v : Value}
    (held : (h.table t).get key = v) (live : v ≠ .nil) :
    ∃ p ∈ (h.table t).pairs, p.1.normal = key.normal ∧ p.2 = v := by
  subst held
  obtain ⟨p, listed, same⟩ := valid.exists_pair live
  refine ⟨p, listed, same, ?_⟩
  rw [← (valid.get_of_mem_pairs listed).2.1]
  exact Table.get_congr _ same

theorem hostMap_ok {room : Nat} {t : TableId} {m : HostMap}
    (valid : ∀ n u, h.Nested t n u → (h.table u).Valid) (ok : h.hostMap room t = .ok m) :
    (HostValue.map m).Copies h (.table t) ∧ h.Shallow room t ∧ h.Plain t := by
  induction room generalizing t m with
  | zero => cases ok
  | succ room ih =>
    rw [hostMap_succ] at ok
    have own : (h.table t).Valid := valid 1 t (.self t)
    obtain ⟨es, appended, converts⟩ := addPairs_ok own.pairs_distinct (by nofun) ok
    have listed : m.toList = es := appended
    rw [← listed] at converts
    have inner : ∀ p ∈ (h.table t).pairs, ∀ u m', p.2 = .table u → h.hostMap room u = .ok m' →
        (HostValue.map m').Copies h (.table u) ∧ h.Shallow room u ∧ h.Plain u := by
      intro p listed u m' table ok
      exact ih (fun n w nested => valid _ w (nested_of_pair own listed table nested)) ok
    have below : ∀ {key : Value} {u : TableId}, (h.table t).get key = .table u →
        h.Shallow room u ∧ h.Plain u := by
      intro key u held
      obtain ⟨p, listed, -, value⟩ := exists_pair_of_get own held nofun
      obtain ⟨e, -, -, converted⟩ := exists_of_forall₂ converts listed
      rw [value] at converted
      obtain ⟨m', -, ok⟩ := hostValueWith_table converted
      exact (inner p listed u m' value ok).2
    refine ⟨?_, ?_, ?_⟩
    · rw [HostValue.Copies]
      refine ⟨t, _, rfl, own, .refl _, lists_of_converts converts ?_⟩
      intro p listed u m' table ok
      rw [table]
      exact (inner p listed u m' table ok).1
    · intro n u nested
      cases nested with
      | self => exact Nat.succ_pos room
      | deeper held nested => exact Nat.succ_le_succ ((below held).1 _ _ nested)
    · intro n u key nested live
      cases nested with
      | self =>
        obtain ⟨p, listed, same⟩ := own.exists_pair live
        obtain ⟨e, -, hostKey, -⟩ := exists_of_forall₂ converts listed
        rw [hostKey] at same
        exact HostKey.exists_of_normal_eq same.symm
      | deeper held nested => exact (below held).2 _ _ _ nested live

theorem hostMap_error {room : Nat} {t : TableId} {e : Error}
    (valid : ∀ n u, h.Nested t n u → (h.table u).Valid) (error : h.hostMap room t = .error e) :
    (e = .stackOverflow ∧ ¬h.Shallow room t) ∨
      (∃ k, e = .typeMismatch .string k) ∧ ¬h.Plain t := by
  induction room generalizing t e with
  | zero =>
    cases error
    exact .inl ⟨rfl, fun shallow => absurd (shallow 1 t (.self t)) (by decide)⟩
  | succ room ih =>
    rw [hostMap_succ] at error
    have own : (h.table t).Valid := valid 1 t (.self t)
    obtain ⟨p, listed, cause⟩ := addPairs_error error
    rcases cause with key | value
    · obtain ⟨mismatch, refused⟩ := HostKey.ofValue_error key
      refine .inr ⟨⟨_, mismatch⟩, fun plain => ?_⟩
      obtain ⟨k, hostKey⟩ := plain 1 t p.1 (.self t) (own.get_ne_nil listed)
      exact refused k hostKey
    · obtain ⟨u, table, inner⟩ := hostValueWith_error value
      have deeper : ∀ {n v}, h.Nested u n v → h.Nested t (n + 1) v :=
        nested_of_pair own listed table
      rcases ih (fun n v nested => valid _ v (deeper nested)) inner with deep | odd
      · refine .inl ⟨deep.1, fun shallow => deep.2 fun n v nested => ?_⟩
        exact Nat.le_of_succ_le_succ (shallow _ v (deeper nested))
      · refine .inr ⟨odd.1, fun plain => odd.2 fun n v key nested live => ?_⟩
        exact plain _ v key (deeper nested) live

end Heap

namespace HostMap
variable {E : Embedding} {h : Heap E}

theorem Lists.size_eq {m : HostMap} {ps : List (Value × Value)} (lists : m.Lists h ps) :
    m.size = ps.length := by
  induction m using toList.induct generalizing ps with
  | case1 =>
    rw [Lists] at lists
    rw [lists]
    rfl
  | case2 k x r ih =>
    rw [Lists] at lists
    obtain ⟨v, rest, rfl, -, others⟩ := lists
    rw [size, ih others, List.length_cons]

/-- What a host map has under a key, and what the pairs have under it. -/
theorem Lists.find? {m : HostMap} {ps : List (Value × Value)} (lists : m.Lists h ps)
    (key : HostKey) : match m.find? key with
      | some x => ∃ p ∈ ps, p.1.normal = key.toValue.normal ∧ x.Copies h p.2
      | none => ∀ p ∈ ps, p.1.normal ≠ key.toValue.normal := by
  induction m using toList.induct generalizing ps with
  | case1 =>
    rw [Lists] at lists
    rw [lists]
    nofun
  | case2 k x r ih =>
    rw [Lists] at lists
    obtain ⟨v, rest, rfl, first, others⟩ := lists
    have found := ih others
    rw [HostMap.find?]
    cases same : k.eqv key with
    | true => exact ⟨_, List.mem_cons_self, HostKey.eqv_iff.mp same, first⟩
    | false =>
      have apart : k.toValue.normal ≠ key.toValue.normal :=
        mt HostKey.eqv_iff.mpr (Bool.eq_false_iff.mp same)
      simp only [Bool.false_eq_true, if_false]
      cases later : r.find? key with
      | some y =>
        rw [later] at found
        obtain ⟨p, listed, rest⟩ := found
        exact ⟨p, List.mem_cons_of_mem _ listed, rest⟩
      | none =>
        rw [later] at found
        exact List.forall_mem_cons.mpr ⟨apart, found⟩

/-- A copy of a table has an entry for every live pair and no others, and the entry for a key is a
copy of what the table holds under it. -/
theorem entries_of_copies {m : HostMap} {t : TableId}
    (copies : (HostValue.map m).Copies h (.table t)) :
    m.size = (h.table t).pairCount ∧ ∀ key : HostKey, match m.find? key with
      | some x => (h.table t).get key.toValue ≠ .nil ∧ x.Copies h ((h.table t).get key.toValue)
      | none => (h.table t).get key.toValue = .nil := by
  rw [HostValue.Copies] at copies
  obtain ⟨t, ps, ⟨⟩, valid, perm, lists⟩ := copies
  refine ⟨by rw [lists.size_eq, perm.length_eq, Table.length_pairs], fun key => ?_⟩
  have found := lists.find? key
  cases entry : m.find? key with
  | some x =>
    rw [entry] at found
    obtain ⟨p, listed, same, copies⟩ := found
    have pair := perm.mem_iff.mp listed
    rw [← Table.get_congr _ same]
    refine ⟨valid.get_ne_nil pair, ?_⟩
    rw [(valid.get_of_mem_pairs pair).2.1]
    exact copies
  | none =>
    rw [entry] at found
    by_contra live
    obtain ⟨p, listed, same⟩ := valid.exists_pair live
    exact found p (perm.mem_iff.mpr listed) same

end HostMap

namespace Run
open State
variable {E : Embedding} {H : Host E}

theorem toHostMap_eq (t : TableId) (s : State E) :
    runAction H (View.toHostMap ⟨t⟩) s =
      ofExcept (s.heap.hostMap s.config.maxConversionDepth t) s := by
  rw [runAction, View.toHostMap, Action.decode, action_op]
  rfl

/-- Copying a table to the host changes nothing. It succeeds if and only if the tree of tables is
shallow enough and all its keys are plain; the error names a cause that is there. -/
theorem toHostMap_copies_tree (s : State E) (valid : ∀ u, (s.heap.table u).Valid) (t : TableId) :
    match runAction H (View.toHostMap ⟨t⟩) s with
    | .ok m s' => s' = s ∧ s.heap.Shallow s.config.maxConversionDepth t ∧ s.heap.Plain t ∧
        m.size = (s.heap.table t).pairCount ∧ ∀ key : HostKey, match m.find? key with
          | some x => (s.heap.table t).get key.toValue ≠ .nil ∧
              x.Copies s.heap ((s.heap.table t).get key.toValue)
          | none => (s.heap.table t).get key.toValue = .nil
    | .error (.raised e) s' => s' = s ∧
        ((e = .stackOverflow ∧ ¬s.heap.Shallow s.config.maxConversionDepth t) ∨
          (∃ k, e = .typeMismatch .string k) ∧ ¬s.heap.Plain t)
    | .error (.panicked _) _ => False := by
  rw [toHostMap_eq]
  cases copied : s.heap.hostMap s.config.maxConversionDepth t with
  | ok m =>
    obtain ⟨copies, shallow, plain⟩ := Heap.hostMap_ok (fun _ u _ => valid u) copied
    exact ⟨rfl, shallow, plain, HostMap.entries_of_copies copies⟩
  | error e => exact ⟨rfl, Heap.hostMap_error (fun _ u _ => valid u) copied⟩

/-- A table that holds itself has no copy, however deep copies may go. -/
theorem toHostMap_copies_tree_self_reference :
    let own := Table.empty.put (.ofInt 1) (.table ⟨0⟩)
    let s := { State.plain #[] with heap := { tables := #[own] } }
    runAction (Host.running (pure 0)) (View.toHostMap ⟨⟨0⟩⟩) s =
      .error (.raised .stackOverflow) s := by
  intro own s
  have isKey : (Value.ofInt 1).isKey = true := rfl
  have get : ∀ key, own.get key = if key.normal = (Value.ofInt 1).normal then .table ⟨0⟩ else .nil := by
    intro key
    rw [Table.get_put .empty isKey, Table.get_empty]
  have own_valid : own.Valid := Table.Valid.empty.put isKey _
  have valid : ∀ u, (s.heap.table u).Valid := by
    rintro ⟨_ | n⟩
    · exact own_valid
    · exact .empty
  have deep : ∀ n, s.heap.Nested ⟨0⟩ (n + 1) ⟨0⟩ := by
    intro n
    induction n with
    | zero => exact .self _
    | succ n ih => exact .deeper (get (.ofInt 1)) ih
  have alone : ∀ {t n u}, s.heap.Nested t n u → t = ⟨0⟩ → u = ⟨0⟩ := by
    intro t n u nested
    induction nested with
    | self t => exact id
    | @deeper t v u key n held nested ih =>
      rintro rfl
      have held : own.get key = .table v := held
      rw [get] at held
      split at held
      · exact ih (Value.table.inj held).symm
      · contradiction
  have plain : s.heap.Plain ⟨0⟩ := by
    intro n u key nested live
    rw [alone nested rfl] at live
    have live : own.get key ≠ .nil := live
    rw [get] at live
    split at live
    · exact HostKey.exists_of_normal_eq (k := .number (.ofInt 1)) ‹_›
    · contradiction
  have outcome := toHostMap_copies_tree (H := Host.running (pure 0)) s valid ⟨0⟩
  revert outcome
  cases runAction (Host.running (pure 0)) (View.toHostMap ⟨⟨0⟩⟩) s with
  | ok m s' =>
    rintro ⟨-, shallow, -⟩
    exact absurd (shallow _ _ (deep s.config.maxConversionDepth)) (Nat.not_succ_le_self _)
  | error f s' =>
    cases f with
    | panicked p => exact False.elim
    | raised e =>
      rintro ⟨rfl, ⟨rfl, -⟩ | ⟨-, odd⟩⟩
      · rfl
      · exact absurd plain odd

end Run
end HostBridge
