import HostBridge.Proofs.Copy.Decode
import HostBridge.Proofs.Run.Operations
import HostBridge.Proofs.Table.Filled
import Mathlib.Data.List.Perm.Basic

namespace HostBridge

def HostValue.isNil : HostValue → Bool
  | .nil => true
  | _ => false

mutual

def HostValue.pruned : HostValue → HostValue
  | .map m => .map m.pruned
  | x => x

def HostMap.pruned : HostMap → HostMap
  | .empty => .empty
  | .pair k x r => if x.isNil then r.pruned else .pair k x.pruned r.pruned

end

mutual

def HostValue.depth : HostValue → Nat
  | .map m => m.depth
  | _ => 0

def HostMap.depth : HostMap → Nat
  | .empty => 1
  | .pair _ x r => max (x.depth + 1) r.depth

end

mutual

def HostValue.Proper : HostValue → Prop
  | .map m => m.Proper
  | _ => True

/-- On every level the keys are different from each other, and none is NaN. -/
def HostMap.Proper : HostMap → Prop
  | .empty => True
  | .pair k x r => k.toValue.isNaN = false ∧ (∀ p ∈ r.toList, k.eqv p.1 = false) ∧ x.Proper ∧ r.Proper

end

mutual

/-- The same value: numbers by their bits, references by identity, maps in any order. -/
def HostValue.Same : HostValue → HostValue → Prop
  | .map m, y => ∃ n l, y = .map n ∧ l.Perm n.toList ∧ m.SameList l
  | x, y => y = x

def HostMap.SameList : HostMap → List (HostKey × HostValue) → Prop
  | .empty, l => l = []
  | .pair k x r, l => ∃ y rest, l = (k, y) :: rest ∧ x.Same y ∧ r.SameList rest

end

def HostMap.Same (m n : HostMap) : Prop := (HostValue.map m).Same (.map n)

section Copies
variable {E : Embedding} {h : Heap E}

def Heap.Stands (h : Heap E) (p : Value × Value) (e : HostKey × HostValue) : Prop :=
  p.1 = e.1.toValue ∧ e.2.Copies h p.2

theorem HostMap.Lists.stands {m : HostMap} {ps : List (Value × Value)} (lists : m.Lists h ps) :
    List.Forall₂ h.Stands ps m.toList := by
  induction m using HostMap.toList.induct generalizing ps with
  | case1 =>
    rw [HostMap.Lists] at lists
    rw [lists]
    exact .nil
  | case2 k x r ih =>
    rw [HostMap.Lists] at lists
    obtain ⟨v, rest, rfl, copies, others⟩ := lists
    exact .cons ⟨rfl, copies⟩ (ih others)

theorem HostValue.Copies.of_no_table {x : HostValue} {v : Value} (copies : x.Copies h v)
    (leaf : ∀ t, v ≠ .table t) (nested : TableId → Except Error HostMap) :
    Heap.hostValueWith nested v = .ok x := by
  cases x with
  | map m =>
    rw [HostValue.Copies] at copies
    obtain ⟨t, ps, rfl, -⟩ := copies
    exact absurd rfl (leaf t)
  | _ =>
    rw [HostValue.Copies] at copies
    subst copies
    rfl

mutual

theorem HostValue.Copies.same {x y : HostValue} {v : Value} (hx : x.Copies h v)
    (hy : y.Copies h v) : x.Same y := by
  cases x with
  | map m =>
    rw [HostValue.Copies] at hx
    obtain ⟨t, ps, rfl, -, perm, lists⟩ := hx
    cases y with
    | map n =>
      rw [HostValue.Copies] at hy
      obtain ⟨t, qs, ⟨⟩, -, perm', lists'⟩ := hy
      obtain ⟨l, stands, reordered⟩ :=
        List.perm_comp_forall₂ (perm.trans perm'.symm) lists'.stands
      rw [HostValue.Same]
      exact ⟨n, l, rfl, reordered, lists.sameList stands⟩
    | _ =>
      rw [HostValue.Copies] at hy
      cases hy
  | _ =>
    have leaf : ∀ t, v ≠ .table t := by
      rw [HostValue.Copies] at hx
      rw [hx]
      exact nofun
    have equal := (hx.of_no_table leaf fun _ => .error .stackOverflow).symm.trans
      (hy.of_no_table leaf fun _ => .error .stackOverflow)
    rw [HostValue.Same]
    · exact (Except.ok.inj equal).symm
    · exact nofun

theorem HostMap.Lists.sameList {m : HostMap} {ps : List (Value × Value)}
    {l : List (HostKey × HostValue)} (lists : m.Lists h ps)
    (stands : List.Forall₂ h.Stands ps l) : m.SameList l := by
  cases m with
  | empty =>
    rw [HostMap.Lists] at lists
    subst lists
    cases stands
    rw [HostMap.SameList]
  | pair k x r =>
    rw [HostMap.Lists] at lists
    obtain ⟨v, rest, rfl, copies, others⟩ := lists
    cases stands with
    | @cons _ e _ l first stands =>
      rw [HostMap.SameList]
      obtain ⟨key, copies'⟩ := first
      refine ⟨e.2, l, ?_, copies.same copies', others.sameList stands⟩
      rw [← HostKey.toValue_inj key.symm]

end

theorem HostMap.depth_pos (m : HostMap) : 1 ≤ m.depth := by
  induction m using HostMap.toList.induct with
  | case1 => exact Nat.le_refl 1
  | case2 k x r ih =>
    rw [HostMap.depth]
    exact Nat.le_trans ih (Nat.le_max_right _ _)

theorem HostMap.depth_of_mem {m n : HostMap} {k : HostKey} (listed : (k, .map n) ∈ m.toList) :
    n.depth + 1 ≤ m.depth := by
  induction m using HostMap.toList.induct with
  | case1 => cases listed
  | case2 k x r ih =>
    rw [HostMap.depth]
    cases listed with
    | head => exact Nat.le_max_left _ _
    | tail _ later => exact Nat.le_trans (ih later) (Nat.le_max_right _ _)

theorem HostMap.exists_deepest (m : HostMap) :
    m.depth = 1 ∨ ∃ k n, (k, .map n) ∈ m.toList ∧ m.depth = n.depth + 1 := by
  induction m using HostMap.toList.induct with
  | case1 => exact .inl rfl
  | case2 k x r ih =>
    rw [HostMap.depth]
    have positive := r.depth_pos
    by_cases deeper : r.depth < x.depth + 1
    · rw [Nat.max_eq_left (Nat.le_of_lt deeper)]
      cases x with
      | map n => exact .inr ⟨k, n, List.mem_cons_self, rfl⟩
      | _ => exact .inl rfl
    · rw [Nat.max_eq_right (Nat.le_of_not_lt deeper)]
      rcases ih with flat | ⟨k', n, listed, eq⟩
      · exact .inl flat
      · exact .inr ⟨k', n, List.mem_cons_of_mem _ listed, eq⟩

theorem HostValue.Copies.of_table {x : HostValue} {t : TableId} (copies : x.Copies h (.table t)) :
    ∃ m ps, x = .map m ∧ (h.table t).Valid ∧ ps.Perm (h.table t).pairs ∧ m.Lists h ps := by
  cases x with
  | map m =>
    rw [HostValue.Copies] at copies
    obtain ⟨t, ps, ⟨⟩, facts⟩ := copies
    exact ⟨m, ps, rfl, facts⟩
  | _ =>
    rw [HostValue.Copies] at copies
    cases copies

/-- What is copied has no more levels than the copy, and none but plain keys. -/
theorem HostValue.Copies.nested {m : HostMap} {t u : TableId} {n : Nat}
    (copies : (HostValue.map m).Copies h (.table t)) (nested : h.Nested t n u) :
    n ≤ m.depth ∧ (h.table u).Valid ∧
      ∀ key, (h.table u).get key ≠ .nil → ∃ k : HostKey, key = k.toValue := by
  induction nested generalizing m with
  | self t =>
    obtain ⟨_, ps, ⟨⟩, valid, perm, lists⟩ := copies.of_table
    refine ⟨m.depth_pos, valid, fun key live => ?_⟩
    obtain ⟨p, listed, same⟩ := valid.exists_pair live
    obtain ⟨e, -, stands⟩ := exists_of_forall₂ lists.stands (perm.mem_iff.mpr listed)
    rw [stands.1] at same
    exact HostKey.exists_of_normal_eq same.symm
  | @deeper t v u key n held nested ih =>
    obtain ⟨_, ps, ⟨⟩, valid, perm, lists⟩ := copies.of_table
    obtain ⟨p, listed, -, value⟩ := Heap.exists_pair_of_get valid held nofun
    obtain ⟨e, inside, stands⟩ := exists_of_forall₂ lists.stands (perm.mem_iff.mpr listed)
    have copies' := stands.2
    rw [value] at copies'
    obtain ⟨m', -, map, -⟩ := copies'.of_table
    rw [map] at copies'
    obtain ⟨le, facts⟩ := ih copies'
    have below : m'.depth + 1 ≤ m.depth := HostMap.depth_of_mem (k := e.1) (map ▸ inside)
    exact ⟨by omega, facts⟩

theorem HostValue.Copies.exists_nested {m : HostMap} {t : TableId}
    (copies : (HostValue.map m).Copies h (.table t)) : ∃ u, h.Nested t m.depth u := by
  induction depth : m.depth generalizing m t with
  | zero => exact absurd m.depth_pos (by omega)
  | succ n ih =>
    rcases m.exists_deepest with flat | ⟨k, m', inside, eq⟩
    · have first : n = 0 := by omega
      rw [first]
      exact ⟨t, .self t⟩
    · obtain ⟨_, ps, ⟨⟩, valid, perm, lists⟩ := copies.of_table
      obtain ⟨p, listed, -, copies'⟩ := exists_of_forall₂ lists.stands.flip inside
      rw [HostValue.Copies] at copies'
      obtain ⟨v, qs, value, rest⟩ := copies'
      have inner : (HostValue.map m').Copies h (.table v) := by
        rw [HostValue.Copies]
        exact ⟨v, qs, rfl, rest⟩
      obtain ⟨u, nested⟩ := ih inner (by omega)
      exact ⟨u, Heap.nested_of_pair valid (perm.mem_iff.mp listed) value nested⟩

/-- Of a table that has a copy, reading makes the same copy if it goes deep enough, and it stops at
the limit if not. -/
theorem Heap.hostMap_of_copies {m : HostMap} {t : TableId}
    (copies : (HostValue.map m).Copies h (.table t)) (limit : Nat) :
    if m.depth ≤ limit then ∃ a : HostMap, h.hostMap limit t = .ok a ∧ a.Same m
    else h.hostMap limit t = .error .stackOverflow := by
  have valid : ∀ n u, h.Nested t n u → (h.table u).Valid := fun n u nested =>
    (copies.nested nested).2.1
  have plain : h.Plain t := fun n u key nested => (copies.nested nested).2.2 key
  have shallow : m.depth ≤ limit → h.Shallow limit t := fun room n u nested =>
    Nat.le_trans (copies.nested nested).1 room
  have deep : h.Shallow limit t → m.depth ≤ limit := by
    obtain ⟨u, nested⟩ := copies.exists_nested
    exact fun shallow => shallow _ u nested
  cases read : h.hostMap limit t with
  | ok a =>
    obtain ⟨copies', within, -⟩ := hostMap_ok valid read
    rw [if_pos (deep within)]
    exact ⟨a, rfl, copies'.same copies⟩
  | error e =>
    rcases hostMap_error valid read with ⟨rfl, excess⟩ | ⟨-, odd⟩
    · rw [if_neg (mt shallow excess)]
    · exact absurd plain odd

end Copies

namespace Heap
variable {E : Embedding} {h h' h'' : Heap E}

structure Grows (h h' : Heap E) : Prop where
  size : h.tables.size ≤ h'.tables.size
  table : ∀ t : TableId, t.index < h.tables.size → h'.table t = h.table t

theorem Grows.refl (h : Heap E) : h.Grows h := ⟨Nat.le_refl _, fun _ _ => rfl⟩

theorem Grows.trans (first : h.Grows h') (second : h'.Grows h'') : h.Grows h'' where
  size := Nat.le_trans first.size second.size
  table t below :=
    (second.table t (Nat.lt_of_lt_of_le below first.size)).trans (first.table t below)

theorem grows_allocTable (h : Heap E) (x : Table) : h.Grows (h.allocTable x).2 where
  size := by
    rw [allocTable, Array.size_push]
    exact Nat.le_succ _
  table t below := by
    rw [table_allocTable, if_neg (Nat.ne_of_lt below)]

theorem Grows.table_allocTable {x : Table} (grows : (h.allocTable x).2.Grows h') :
    h'.table ⟨h.tables.size⟩ = x := by
  have below : h.tables.size < (h.allocTable x).2.tables.size := by
    rw [allocTable, Array.size_push]
    exact Nat.lt_succ_self _
  have kept := grows.table ⟨h.tables.size⟩ below
  rw [kept, Heap.table_allocTable, if_pos rfl]

end Heap

namespace Run
open State
variable {E : Embedding}

/-- The run gives a value of which the host value, its nil entries left out, is a copy; on the heap
it only adds tables. -/
def Encodes (x : HostValue) (m : Run E Value) : Prop :=
  ∀ s : State E, ∃ v h, m s = .ok v { s with heap := h } ∧ s.heap.Grows h ∧ v.isNil = x.isNil ∧
    ∀ h', h.Grows h' → x.pruned.Copies h' v

/-- The run adds pairs to a table of which the entries of the host map, but for nil ones, are
copies. -/
def Fills (m : HostMap) (x : Table) (run : Run E Table) : Prop :=
  ∀ s : State E, ∃ y h ps, run s = .ok y { s with heap := h } ∧ s.heap.Grows h ∧ y.Filled ∧
    y.pairs.Perm (ps ++ x.pairs) ∧ ∀ h', h.Grows h' → m.pruned.Lists h' ps

theorem encodes_of_fills {m : HostMap} (fills : Fills m .empty (encodeHostMap m .empty : Run E Table)) :
    Encodes (.map m) (do
      let x ← encodeHostMap m .empty
      return .table (← allocTable x) : Run E Value) := by
  intro s
  obtain ⟨y, h, ps, ran, grows, filled, perm, lists⟩ := fills s
  refine ⟨.table ⟨h.tables.size⟩, (h.allocTable y).2, ?_, grows.trans (h.grows_allocTable y), rfl, ?_⟩
  · rw [bind_eq, ran]
    rfl
  · intro h' later
    have stored : h'.table ⟨h.tables.size⟩ = y := later.table_allocTable
    rw [HostValue.pruned, HostValue.Copies]
    refine ⟨_, ps, rfl, ?_, ?_, lists h' ((h.grows_allocTable y).trans later)⟩
    · rw [stored]
      exact filled.toValid
    · rw [stored]
      exact (List.append_nil ps ▸ perm).symm

mutual

theorem encodes_encodeHostValue {x : HostValue} (proper : x.Proper) :
    Encodes x (encodeHostValue x : Run E Value) := by
  cases x with
  | map m =>
    rw [HostValue.Proper] at proper
    rw [encodeHostValue]
    exact encodes_of_fills (fills_encodeHostMap .empty proper fun p listed => Table.get_empty _)
  | _ =>
    rw [encodeHostValue]
    intro s
    refine ⟨_, s.heap, rfl, .refl _, rfl, fun h' _ => ?_⟩
    rw [HostValue.pruned, HostValue.Copies]
    exact nofun

theorem fills_encodeHostMap {m : HostMap} {x : Table} (filled : x.Filled) (proper : m.Proper)
    (absent : ∀ p ∈ m.toList, x.get p.1.toValue = .nil) :
    Fills m x (encodeHostMap m x : Run E Table) := by
  cases m with
  | empty =>
    rw [encodeHostMap]
    intro s
    refine ⟨x, s.heap, [], rfl, .refl _, filled, .refl _, fun h' _ => ?_⟩
    rw [HostMap.pruned, HostMap.Lists]
  | pair k v r =>
    rw [HostMap.Proper] at proper
    obtain ⟨notNaN, apart, proper', others⟩ := proper
    obtain ⟨first, rest⟩ := List.forall_mem_cons.mp absent
    intro s
    obtain ⟨value, h, ran, grows, nil, copies⟩ := encodes_encodeHostValue proper' s
    rw [encodeHostMap_pair, ran, HostMap.pruned]
    cases isNil : v.isNil with
    | true =>
      rw [isNil] at nil
      simp only [nil, if_true]
      obtain ⟨y, h₂, ps, ran₂, grows₂, facts⟩ := fills_encodeHostMap filled others rest
        { s with heap := h }
      exact ⟨y, h₂, ps, ran₂, grows.trans grows₂, facts⟩
    | false =>
      rw [isNil] at nil
      have isKey : k.toValue.isKey = true := by
        rw [Value.isKey, notNaN]
        cases k <;> rfl
      have some : value ≠ .nil := mt Value.isNil_iff.mpr (Bool.eq_false_iff.mp nil)
      have absent' : ∀ p ∈ r.toList, (x.put k.toValue value).get p.1.toValue = .nil := by
        intro p listed
        have differ := mt HostKey.eqv_iff.mpr (Bool.eq_false_iff.mp (apart p listed))
        rw [Table.get_put filled.toValid isKey, if_neg fun same => differ same.symm, rest p listed]
      obtain ⟨y, h₂, ps, ran₂, grows₂, filled₂, perm, lists⟩ :=
        fills_encodeHostMap (filled.put isKey some) others absent' { s with heap := h }
      simp only [nil, Bool.false_eq_true, if_false, x.set_of_isKey isKey]
      refine ⟨y, h₂, (k.toValue, value) :: ps, ran₂, grows.trans grows₂, filled₂, ?_, ?_⟩
      · have added := filled.pairs_put isKey some first
        exact perm.trans ((added.append_left ps).trans List.perm_middle)
      · intro h' later
        rw [HostMap.Lists]
        exact ⟨value, ps, rfl, copies h' (grows₂.trans later), lists h' later⟩

end

variable {H : Host E}

theorem slot_push {s : State E} (framed : s.base ≤ s.stack.size) (v : Value) :
    (s.mapSlots (·.push v)).slot (-1) = .ok v := by
  have size : (s.mapSlots (·.push v)).stack.size = s.stack.size + 1 := Array.size_push v
  have framed' : (s.mapSlots (·.push v)).base ≤ (s.mapSlots (·.push v)).stack.size := by
    rw [size]
    exact Nat.le_succ_of_le framed
  have top : (s.mapSlots (·.push v)).position (-1) = .ok s.stack.size := by
    rw [position_of_framed framed', if_neg (by decide), if_pos, size]
    · rfl
    · rw [State.top, size]
      change _ ∧ _ ≤ ((s.stack.size + 1 : Nat) : Int) - (s.base : Int)
      omega
  rw [slot, top]
  change (s.mapSlots (·.push v)).stack.get s.stack.size = .ok v
  have last : (s.mapSlots (·.push v)).stack.slots[s.stack.size]? = some v :=
    Array.getElem?_push_size
  rw [Stack.get, last]

theorem readAs_eq (shape : Shape E.Tag) {v : Value} {s : State E} {i : Int}
    (slot : s.slot i = .ok v) :
    runAction H (Action.readAs shape i) s = ofExcept (s.decode shape v) s := by
  have decoded := congrFun (action_op (enter H s.depthLeft) H (.decode shape v)) s
  rw [runAction, Action.readAs, action_bind, action_value, bind_eq]
  simp only [read_eq, slot, ofExcept_ok, pure_eq]
  exact decoded

theorem ofHostMap_eq (m : HostMap) {s : State E} {t : TableId} {h : Heap E}
    (room : s.stack.isFull = false)
    (encoded : encode H .hostMap m s = .ok (.table t) { s with heap := h }) :
    runAction H (View.ofHostMap m) s =
      .ok ⟨t⟩ (State.mapSlots { s with heap := h } (·.push (.table t))) := by
  have first : action (enter H s.depthLeft) H (Action.encode .hostMap m) s =
      .ok (.table t) { s with heap := h } :=
    (congrFun (action_op _ H (.encode .hostMap m)) s).trans encoded
  have pushed : action (enter H s.depthLeft) H (Action.push (.table t)) { s with heap := h } =
      .ok () (State.mapSlots { s with heap := h } (·.push (.table t))) := by
    rw [action_push]
    exact (push_eq _ _).trans (if_neg (Bool.eq_false_iff.mp room))
  have last : action (enter H s.depthLeft) H (Action.decode .table (.table t))
      (State.mapSlots { s with heap := h } (·.push (.table t))) = .ok t _ :=
    congrFun (action_op _ H (.decode .table (.table t))) _
  rw [runAction, View.ofHostMap, action_bind, bind_eq, first]
  simp only [action_bind, bind_eq, pushed, last, action_pure, pure_eq]

/-- A host map without NaN keys becomes a table whenever the stack has room for it. Its copies are
the map without its nil entries, through the view as well as through the slot, in both ways of
reading it; if the map is too deep, all three stop at the limit. -/
theorem hostMap_round_trip (s : State E) (room : s.stack.isFull = false) {m : HostMap}
    (proper : m.Proper) :
    ∃ x s', runAction H (View.ofHostMap m) s = .ok x s' ∧
      s'.stack.slots = s.stack.slots.push x.value ∧
      (s.base ≤ s.stack.size → s'.slot (-1) = .ok x.value) ∧
      if m.pruned.depth ≤ s.config.maxConversionDepth then
        ∃ a : HostMap, a.Same m.pruned ∧ runAction H x.toHostMap s' = .ok a s' ∧
          ∀ i, s'.slot i = .ok x.value →
            runAction H (Action.readAs .hostMap i) s' = .ok a s' ∧
            runAction H (Action.readAs .hostValue i) s' = .ok (.map a) s'
      else
        runAction H x.toHostMap s' = .error (.raised .stackOverflow) s' ∧
          ∀ i, s'.slot i = .ok x.value →
            runAction H (Action.readAs .hostMap i) s' = .error (.raised .stackOverflow) s' ∧
            runAction H (Action.readAs .hostValue i) s' = .error (.raised .stackOverflow) s' := by
  have encodes : Encodes (.map m) (encode H .hostMap m) :=
    encodes_of_fills (fills_encodeHostMap .empty proper fun _ _ => Table.get_empty _)
  obtain ⟨v, h, encoded, -, -, copies⟩ := encodes s
  have copies := copies h (.refl h)
  rw [HostValue.pruned, HostValue.Copies] at copies
  obtain ⟨t, ps, rfl, facts⟩ := copies
  have copied : (HostValue.map m.pruned).Copies h (.table t) := by
    rw [HostValue.Copies]
    exact ⟨t, ps, rfl, facts⟩
  refine ⟨_, _, ofHostMap_eq m room encoded, rfl, fun framed => slot_push framed _, ?_⟩
  have read := Heap.hostMap_of_copies copied s.config.maxConversionDepth
  have hostValue : ∀ {r}, h.hostMap s.config.maxConversionDepth t = r →
      h.hostValue s.config.maxConversionDepth (.table t) = r.map HostValue.map := by
    rintro r rfl
    rw [Heap.hostValue, Heap.hostValueWith]
    cases h.hostMap s.config.maxConversionDepth t <;> rfl
  split
  · rename_i shallow
    rw [if_pos shallow] at read
    obtain ⟨a, read, same⟩ := read
    refine ⟨a, same, ?_, fun i slot => ⟨?_, ?_⟩⟩
    · exact (toHostMap_eq t _).trans (congrArg (ofExcept · _) read)
    · exact (readAs_eq .hostMap slot).trans (congrArg (ofExcept · _) read)
    · exact (readAs_eq .hostValue slot).trans (congrArg (ofExcept · _) (hostValue read))
  · rename_i deep
    rw [if_neg deep] at read
    refine ⟨?_, fun i slot => ⟨?_, ?_⟩⟩
    · exact (toHostMap_eq t _).trans (congrArg (ofExcept · _) read)
    · exact (readAs_eq .hostMap slot).trans (congrArg (ofExcept · _) read)
    · exact (readAs_eq .hostValue slot).trans (congrArg (ofExcept · _) (hostValue read))

/-- A nil entry is gone, an empty map is still there. -/
theorem hostMap_round_trip_nested :
    let m : HostMap := .pair (.string "a") (.map (.pair (.boolean true) .nil .empty))
      (.pair (.number .zero) (.number .one) .empty)
    let H := Host.running (pure 0)
    ∃ x s' a, runAction H (View.ofHostMap m) (State.plain #[]) = .ok x s' ∧
      runAction H (Action.readAs .hostMap (-1)) s' = .ok a s' ∧
      a.Same (.pair (.string "a") (.map .empty) (.pair (.number .zero) (.number .one) .empty)) := by
  intro m H
  have proper : m.Proper := by
    simp only [m, HostMap.Proper, HostValue.Proper]
    decide
  obtain ⟨x, s', built, -, top, read⟩ :=
    hostMap_round_trip (H := H) (State.plain #[]) (by decide) proper
  rw [if_pos (by decide)] at read
  obtain ⟨a, same, -, slots⟩ := read
  exact ⟨x, s', a, built, (slots (-1) (top (by decide))).1, same⟩

end Run

end HostBridge
