import HostBridge.Proofs.Table.Border
import HostBridge.Proofs.Table.Filled
import HostBridge.Proofs.Table.Listing
import Mathlib.Data.List.Basic
import Mathlib.Order.Bounds.Basic
import Mathlib.Tactic.IntervalCases
/-!
Tables that are filled with the same pairs in different orders. The way of a pair depends on the
order: it is appended to the array part, or waits in the entry list until the keys before it are
there. In the end the array part holds the run of keys that begins with one, and all other pairs are
entries; only their order remembers how the table was filled.
-/
namespace HostBridge

def Write.pair (w : Write) : Value × Value := (w.key, w.value)

/-- Pairs that a table can hold side by side: no key is refused, no two are the same key, and no value
is nil. -/
structure SideBySide (ps : List (Value × Value)) : Prop where
  isKey : ∀ p ∈ ps, p.1.isKey = true
  held : ∀ p ∈ ps, p.2 ≠ .nil
  distinct : ps.Pairwise fun p q => p.1.sameKey q.1 = false

theorem SideBySide.perm {ps qs : List (Value × Value)} (same : ps.Perm qs) (apart : SideBySide ps) :
    SideBySide qs where
  isKey p listed := apart.isKey p (same.mem_iff.mpr listed)
  held p listed := apart.held p (same.mem_iff.mpr listed)
  distinct := same.pairwise apart.distinct fun {p q} other => by
    rw [Value.sameKey_eq_false_iff] at other ⊢
    exact other.symm

namespace Table

def Dense (t : Table) : Prop := ∀ v ∈ t.array, v.isNil = false

theorem Dense.advance {t : Table} (dense : t.Dense) {value : Value} (live : value.isNil = false) :
    (t.advance value).Dense := by
  intro v listed
  rw [array_advance] at listed
  rcases Array.mem_push.mp listed with before | rfl
  · exact dense v before
  · exact live

theorem Dense.migrate {t : Table} (dense : t.Dense) (fuel : Nat) : (t.migrate fuel).Dense := by
  induction fuel generalizing t with
  | zero => exact dense
  | succ fuel ih =>
    rw [migrate_succ]
    split
    · exact dense
    · rename_i live
      exact ih (dense.advance (Bool.eq_false_iff.mpr live))

theorem Dense.put {t : Table} (dense : t.Dense) (key : Value) {value : Value}
    (live : value.isNil = false) : (t.put key value).Dense := by
  rcases t.put_cases key value with ⟨slot, -, eq⟩ | ⟨-, -, eq⟩ | ⟨-, -, eq⟩
  · intro v listed
    rw [eq] at listed
    rcases Array.mem_or_eq_of_mem_setIfInBounds listed with before | rfl
    · exact dense v before
    · exact live
  · rw [eq, extend_eq]
    exact (dense.advance live).migrate _
  · intro v listed
    rw [eq, array_setEntry] at listed
    exact dense v listed

section Filling
variable {log : List Write} (apart : SideBySide (log.map Write.pair))
include apart

/-- A table that is filled with pairs lists them all, and has no holes. -/
theorem replay_filling : (replay log).Filled ∧ (replay log).Dense ∧
    (replay log).pairs.Perm (log.map Write.pair) := by
  induction log with
  | nil => exact ⟨.empty, fun v listed => absurd listed (Array.not_mem_empty v), .nil⟩
  | cons w log ih =>
    obtain ⟨isKeys, held, distinct⟩ := apart
    simp only [List.map_cons, List.forall_mem_cons, List.pairwise_cons] at isKeys held distinct
    obtain ⟨filled, dense, listed⟩ := ih ⟨isKeys.2, held.2, distinct.2⟩
    have fresh : (replay log).get w.key = .nil := by
      by_contra known
      obtain ⟨e, here, same⟩ := filled.exists_pair known
      have other := distinct.1 e (listed.mem_iff.mp here)
      have equal := Value.sameKey_iff.mpr same.symm
      exact absurd (other.symm.trans equal) nofun
    have live : w.value.isNil = false := Bool.eq_false_iff.mpr (held.1 ∘ Value.isNil_iff.mp)
    have stored : replay (w :: log) = (replay log).put w.key w.value :=
      (replay log).run_of_isKey isKeys.1
    rw [stored]
    refine ⟨filled.put isKeys.1 held.1, dense.put w.key live, ?_⟩
    exact (filled.pairs_put isKeys.1 held.1 fresh).trans (listed.cons w.pair)

variable {ps : List (Value × Value)} (all : (log.map Write.pair).Perm ps)
include all

theorem get_filling {p : Value × Value} (listed : p ∈ ps) {key : Value}
    (same : p.1.sameKey key = true) : (replay log).get key = p.2 := by
  obtain ⟨filled, -, pairs⟩ := replay_filling apart
  have here : p ∈ (replay log).pairs := pairs.mem_iff.mpr (all.mem_iff.mpr listed)
  obtain ⟨-, held, -⟩ := filled.get_of_mem_pairs here
  rw [← held, get_congr _ (Value.sameKey_iff.mp same)]

theorem get_filling_ne_nil {key : Value} :
    (replay log).get key ≠ .nil ↔ ∃ p ∈ ps, p.1.sameKey key = true := by
  obtain ⟨filled, -, pairs⟩ := replay_filling apart
  constructor
  · intro held
    obtain ⟨e, here, same⟩ := filled.exists_pair held
    exact ⟨e, all.mem_iff.mp (pairs.mem_iff.mp here), Value.sameKey_iff.mpr same⟩
  · rintro ⟨p, listed, same⟩
    rw [get_filling apart all listed same]
    exact apart.held p (all.mem_iff.mpr listed)

theorem get_filling_of_absent {key : Value} (absent : ∀ p ∈ ps, p.1.sameKey key = false) :
    (replay log).get key = .nil := by
  by_contra held
  obtain ⟨p, listed, same⟩ := (get_filling_ne_nil apart all).mp held
  exact absurd ((absent p listed).symm.trans same) nofun

theorem get_fillings {log' : List Write} (apart' : SideBySide (log'.map Write.pair))
    (all' : (log'.map Write.pair).Perm ps) (key : Value) :
    (replay log).get key = (replay log').get key := by
  by_cases known : ∃ p ∈ ps, p.1.sameKey key = true
  · obtain ⟨p, listed, equal⟩ := known
    rw [get_filling apart all listed equal, get_filling apart' all' listed equal]
  · simp only [not_exists, not_and, Bool.not_eq_true] at known
    rw [get_filling_of_absent apart all known, get_filling_of_absent apart' all' known]

theorem pairCount_filling : (replay log).pairCount = ps.length := by
  obtain ⟨-, -, pairs⟩ := replay_filling apart
  rw [← length_pairs, (pairs.trans all).length_eq]

end Filling

def Runs (ps : List (Value × Value)) (n : Nat) : Prop :=
  ∀ i : Nat, 1 ≤ i → i ≤ n → ∃ p ∈ ps, p.1.sameKey (.ofInt i) = true

/-- What a table holds under the keys from one to `n`, as pairs in the order of the keys. -/
def firstPairs (t : Table) (n : Nat) : List (Value × Value) :=
  (List.range n).map fun i : Nat => (.ofInt (i + 1), t.get (.ofInt (i + 1)))

theorem Valid.arrayPairs_of_dense {t : Table} (valid : t.Valid) (dense : t.Dense) :
    t.arrayPairs 0 = t.firstPairs t.array.size := by
  have kept : t.arrayPairs 0 =
      t.array.toList.zipIdx.map fun p => (.ofInt ((p.2 : Int) + 1), p.1) := by
    rw [arrayPairs_zero, List.filterMap_eq_map_iff_forall_eq_some]
    rintro ⟨v, i⟩ listed
    have live := dense v (Array.mem_toList_iff.mp (List.fst_mem_of_mem_zipIdx listed))
    simp [live]
  rw [kept]
  refine List.ext_getElem (by simp [firstPairs]) fun i below _ => ?_
  simp only [List.length_map, List.length_zipIdx, Array.length_toList] at below
  simp [firstPairs, get_ofInt_succ valid.small (Array.getElem?_eq_getElem below)]

section Border
variable {ps : List (Value × Value)} {log : List Write} (apart : SideBySide (log.map Write.pair))
  (all : (log.map Write.pair).Perm ps)
include apart all

theorem runs_filling : Runs ps (replay log).array.size := by
  intro i positive inside
  obtain ⟨filled, dense, -⟩ := replay_filling apart
  rw [← get_filling_ne_nil apart all, filled.get_inside positive inside]
  have below : i - 1 < (replay log).array.size := by omega
  have live := dense _ (Array.getElem_mem below)
  intro nil
  simp [Array.getD_eq_getD_getElem?, below] at nil
  simp [nil, Value.isNil] at live

/-- The border is the end of the array part, which takes every key that continues the run. -/
theorem isGreatest_border_filling (gap : ¬Runs ps (2 ^ 53)) :
    (replay log).array.size = (replay log).border ∧
      IsGreatest {n | Runs ps n} (replay log).border := by
  obtain ⟨filled, dense, -⟩ := replay_filling apart
  have reached := runs_filling apart all
  have room : (replay log).array.size < 2 ^ 53 := by
    refine Nat.lt_of_le_of_ne filled.small fun full => gap ?_
    rwa [full] at reached
  have border : (replay log).border = (replay log).array.size := by
    rw [border_eq filled.toValid room, trimmed_of_live dense]
  rw [border]
  refine ⟨rfl, reached, fun n runs => ?_⟩
  by_contra beyond
  have next := runs ((replay log).array.size + 1) (by omega) (by omega)
  exact (get_filling_ne_nil apart all).mpr next (get_seam filled.toValid room)

variable (gap : ¬Runs ps (2 ^ 53))
include gap

theorem pairs_filling : (replay log).pairs =
    (replay log).firstPairs (replay log).border ++ (replay log).entryPairs 0 := by
  obtain ⟨filled, dense, -⟩ := replay_filling apart
  obtain ⟨size, -⟩ := isGreatest_border_filling apart all gap
  rw [Table.pairs, filled.arrayPairs_of_dense dense, size]

theorem entries_outside_run {p : Value × Value} (listed : p ∈ (replay log).entryPairs 0) {i : Nat}
    (positive : 1 ≤ i) (inside : i ≤ (replay log).border) : p.1.sameKey (.ofInt i) = false := by
  obtain ⟨filled, -, -⟩ := replay_filling apart
  have listing := pairs_filling apart all gap
  have distinct := filled.pairs_distinct
  rw [listing] at distinct
  have front : (Value.ofInt i, (replay log).get (.ofInt i)) ∈
      (replay log).firstPairs (replay log).border := by
    refine List.mem_map.mpr ⟨i - 1, List.mem_range.mpr (by omega), ?_⟩
    have number : ((i - 1 : Nat) : Int) + 1 = i := by omega
    simp only [number]
  have differ := (List.pairwise_append.mp distinct).2.2 _ front p listed
  exact Value.sameKey_eq_false_iff.mpr differ.symm

end Border

/-- Tables that were filled with the same pairs, in whichever orders and by whichever entry points,
hold the same under every key. They have one border, which is the end of the run of keys from one
on, and a traversal of either visits that run first; what comes after it are the same pairs, in an
order of its own. Keys tell integers apart up to `2 ^ 53`, so not all of those may be among them. -/
theorem insertion_orders_agree {ps : List (Value × Value)} (apart : SideBySide ps)
    {log log' : List Write} (all : (log.map Write.pair).Perm ps)
    (all' : (log'.map Write.pair).Perm ps) :
    let t := replay log
    let t' := replay log'
    (∀ key, t.get key = t'.get key ∧
      (∀ p ∈ ps, p.1.sameKey key = true → t.get key = p.2) ∧
      ((∀ p ∈ ps, p.1.sameKey key = false) → t.get key = .nil)) ∧
    t.pairCount = ps.length ∧ t'.pairCount = ps.length ∧
    (¬Runs ps (2 ^ 53) → ∃ n, IsGreatest {n | Runs ps n} n ∧ t.border = n ∧ t'.border = n ∧
      ∃ rest rest', t.Follows .nil (t.firstPairs n ++ rest) ∧
        t'.Follows .nil (t.firstPairs n ++ rest') ∧
        rest.Perm rest' ∧ (t.firstPairs n ++ rest).Perm ps ∧
        ∀ p ∈ rest, ∀ i : Nat, 1 ≤ i → i ≤ n → p.1.sameKey (.ofInt i) = false) := by
  intro t t'
  have here := apart.perm all.symm
  have here' := apart.perm all'.symm
  have same : ∀ key, t.get key = t'.get key := get_fillings here all here' all'
  refine ⟨fun key => ⟨same key, fun p listed => get_filling here all listed,
    get_filling_of_absent here all⟩, pairCount_filling here all, pairCount_filling here' all',
    fun gap => ?_⟩
  obtain ⟨filled, -, pairs⟩ := replay_filling here
  obtain ⟨filled', -, pairs'⟩ := replay_filling here'
  obtain ⟨-, greatest⟩ := isGreatest_border_filling here all gap
  obtain ⟨-, greatest'⟩ := isGreatest_border_filling here' all' gap
  have border : t'.border = t.border := greatest'.unique greatest
  have listing : t.pairs = t.firstPairs t.border ++ t.entryPairs 0 := pairs_filling here all gap
  have listing' : t'.pairs = t.firstPairs t.border ++ t'.entryPairs 0 := by
    rw [pairs_filling here' all' gap, border]
    simp only [firstPairs, same]
    rfl
  have total : (t.firstPairs t.border ++ t.entryPairs 0).Perm ps := listing ▸ pairs.trans all
  have total' : (t.firstPairs t.border ++ t'.entryPairs 0).Perm ps := listing' ▸ pairs'.trans all'
  exact ⟨t.border, greatest, rfl, border, t.entryPairs 0, t'.entryPairs 0,
    listing ▸ filled.follows_pairs, listing' ▸ filled'.follows_pairs,
    (List.perm_append_left_iff _).mp (total.trans total'.symm), total,
    fun p listed i positive inside => entries_outside_run here all gap listed positive inside⟩

/-- The second value comes before the first in one order, and the string in between in the other. -/
theorem insertion_orders_agree_late_first :
    let ps : List (Value × Value) :=
      [(.ofInt 1, .light 4), (.ofInt 2, .light 5), (.string "x", .light 6)]
    let log : List Write := [.setInt 1 (.light 4), .setStr "x" (.light 6), .setInt 2 (.light 5)]
    let log' : List Write :=
      [.set (.string "x") (.light 6), .setInt 2 (.light 5), .setInt 1 (.light 4)]
    SideBySide ps ∧ (log.map Write.pair).Perm ps ∧ (log'.map Write.pair).Perm ps ∧
      ¬Runs ps (2 ^ 53) ∧ (replay log).border = 2 ∧ (replay log').border = 2 ∧
      ∃ rest, (replay log).Follows .nil ((replay log).firstPairs 2 ++ rest) := by
  intro ps log log'
  have apart : SideBySide ps := by
    constructor
    · decide
    · decide
    · decide
  have third : ∀ p ∈ ps, p.1.sameKey (.ofInt 3) = false := by decide
  have stops : ∀ n, Runs ps n → n ≤ 2 := by
    intro n runs
    by_contra beyond
    obtain ⟨p, listed, same⟩ := runs 3 (by decide) (by omega)
    exact absurd ((third p listed).symm.trans same) nofun
  have both : Runs ps 2 := by
    intro i positive inside
    interval_cases i
    · exact ⟨_, List.mem_cons_self, by decide⟩
    · exact ⟨_, List.mem_cons_of_mem _ List.mem_cons_self, by decide⟩
  have gap : ¬Runs ps (2 ^ 53) := fun runs => absurd (stops _ runs) (by decide)
  have all : (log.map Write.pair).Perm ps := by decide
  have all' : (log'.map Write.pair).Perm ps := by decide
  obtain ⟨n, greatest, border, border', rest, -, visits, -⟩ :=
    (insertion_orders_agree apart all all').2.2.2 gap
  obtain rfl : n = 2 := greatest.unique ⟨both, stops⟩
  exact ⟨apart, all, all', gap, border, border', rest, visits⟩

end Table
end HostBridge
