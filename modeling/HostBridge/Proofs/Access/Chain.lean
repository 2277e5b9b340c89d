import HostBridge.Proofs.Access.Handover
import HostBridge.Proofs.Call.Methods
/-!
Chains of handlers. An access to a value that has no answer of its own goes on to the handler in its
metatable, which is a value again; the links may repeat, in any arrangement of metatables. Reading
ends at the first link that answers, or after a hundred that do not.
-/
namespace HostBridge
namespace Heap
variable {E : Embedding}

/-- What a value holds under a key by itself; only tables hold anything. -/
def held (h : Heap E) (key : Value) : Value → Value
  | .table t => (h.table t).get key
  | _ => .nil

/-- The chain for an event that starts at `v`: each link is followed by its handler. -/
def link (h : Heap E) (e : Event) (v : Value) : Nat → Value
  | 0 => v
  | n + 1 => h.metafield (h.link e v n) e

/-- An access to `v` under the key goes on to the next link. -/
structure Relays (h : Heap E) (e : Event) (key v : Value) : Prop where
  empty : h.held key v = .nil
  handled : h.metafield v e ≠ .nil
  value : ∀ f, h.metafield v e ≠ .function f

/-- An access to `v` under the key comes to no link that hands it over to a function. -/
def Uncalled (h : Heap E) (e : Event) (key v : Value) : Prop :=
  ∀ n f, n < 100 → (∀ m < n, h.Relays e key (h.link e v m)) → h.held key (h.link e v n) = .nil →
    h.metafield (h.link e v n) e ≠ .function f

variable {h : Heap E} {e : Event} {key v : Value}

theorem link_succ (n : Nat) : h.link e v (n + 1) = h.link e (h.metafield v e) n := by
  induction n with
  | zero => rfl
  | succ n ih => exact congrArg (h.metafield · e) ih

theorem link_nil (n : Nat) : h.link e .nil n = .nil := by
  induction n with
  | zero => rfl
  | succ n ih => rw [link, ih]; rfl

/-- At a link that does not relay, the access ends in one of three ways. -/
theorem ends_of_not_relays (stops : ¬h.Relays e key v) :
    h.held key v ≠ .nil ∨
    h.held key v = .nil ∧ h.metafield v e = .nil ∨
    h.held key v = .nil ∧ ∃ f, h.metafield v e = .function f := by
  by_cases empty : h.held key v = .nil
  · by_cases unhandled : h.metafield v e = .nil
    · exact .inr (.inl ⟨empty, unhandled⟩)
    · by_cases value : ∀ f, h.metafield v e ≠ .function f
      · exact absurd ⟨empty, unhandled, value⟩ stops
      · exact .inr (.inr ⟨empty, by simpa using value⟩)
  · exact .inl empty

theorem relays_or_stops (h : Heap E) (e : Event) (key v : Value) (limit : Nat) :
    (∀ n < limit, h.Relays e key (h.link e v n)) ∨
    ∃ n < limit, (∀ m < n, h.Relays e key (h.link e v m)) ∧ ¬h.Relays e key (h.link e v n) := by
  induction limit with
  | zero => exact .inl fun n before => absurd before (Nat.not_lt_zero n)
  | succ limit ih =>
    rcases ih with all | ⟨n, before, arrives, stops⟩
    · by_cases last : h.Relays e key (h.link e v limit)
      · left
        intro n before
        rcases Nat.lt_succ_iff_lt_or_eq.mp before with earlier | rfl
        · exact all n earlier
        · exact last
      · exact .inr ⟨limit, Nat.lt_succ_self limit, all, last⟩
    · exact .inr ⟨n, Nat.lt_succ_of_lt before, arrives, stops⟩

/-- A walk that takes one step along every link that relays gets to the first one that may not. -/
theorem walk_to_link {α : Type} (go : Nat → Value → α)
    (step : ∀ k v, h.Relays e key v → go (k + 1) v = go k (h.metafield v e)) {n : Nat}
    (arrives : ∀ m < n, h.Relays e key (h.link e v m)) (k : Nat) :
    go (n + k) v = go k (h.link e v n) := by
  induction n generalizing v with
  | zero => rw [Nat.zero_add, link]
  | succ n ih =>
    have first := step (n + k) v (arrives 0 (Nat.succ_pos n))
    have rest : ∀ m < n, h.Relays e key (h.link e (h.metafield v e) m) := fun m before =>
      link_succ (h := h) m ▸ arrives (m + 1) (Nat.succ_lt_succ before)
    rw [link_succ, Nat.add_right_comm, first, ih rest]

end Heap

namespace Run
open State
variable {E : Embedding} {H : Host E} {enter : Enter E}

section Meaning

@[simp] theorem action_table (t : TableId) : action enter H (Action.table t) = table t :=
  action_op enter H (.table t)

@[simp] theorem action_setRaw (t : TableId) (key v : Value) :
    action enter H (Action.setRaw t key v) = setRaw t key v :=
  action_op enter H (.setRaw t key v)

@[simp] theorem action_metatable (v : Value) (s : State E) :
    action enter H (Action.metatable v) s = .ok (s.heap.metatable v) s :=
  congrFun (action_op enter H (.metatable v)) s

@[simp] theorem action_callValue (f : Value) (args : List Value) (k : Int) (waiting : List Value) :
    action enter H (Action.callValue f args k waiting) = keeping waiting (callValue enter f args k) :=
  action_op enter H (.callValue f args k waiting)

@[simp] theorem table_eq (t : TableId) (s : State E) : table t s = .ok (s.heap.table t) s := rfl

theorem action_rawAt (target key : Value) (s : State E) :
    action enter H (Action.rawAt target key) s = .ok (s.heap.held key target) s := by
  cases target with
  | table t =>
    simp only [Action.rawAt, action_bind, bind_eq, action_table, table_eq, action_pure, pure_eq,
      Heap.held]
  | _ => rfl

end Meaning

section Link
variable {s : State E} {key v : Value} {k : Nat}

theorem indexChain_held (held : s.heap.held key v ≠ .nil) :
    action enter H (Action.indexChain key (k + 1) v) s = .ok (s.heap.held key v) s := by
  have filled : (s.heap.held key v).isNil = false :=
    Bool.eq_false_iff.mpr fun nil => held (Value.isNil_iff.mp nil)
  rw [Action.indexChain, action_bind, bind_eq, action_rawAt]
  simp only [filled, Bool.not_false, if_true, action_pure, pure_eq]

variable (empty : s.heap.held key v = .nil)
include empty

/-- A link that holds nothing under the key leaves the answer to its handler. -/
theorem indexChain_empty :
    action enter H (Action.indexChain key (k + 1) v) s =
      match s.heap.metafield v .index with
      | .nil => if v.kind = .table then .ok .nil s else .error (.raised (.notIndexable v.kind)) s
      | .function f => action enter H (Action.callForOne (.function f) [v, key]) s
      | handler => action enter H (Action.indexChain key k handler) s := by
  rw [Action.indexChain, action_bind, bind_eq, action_rawAt, empty]
  simp only [Value.isNil, Bool.not_true, Bool.false_eq_true, if_false, action_bind, bind_eq,
    action_metafield]
  cases s.heap.metafield v .index with
  | nil => by_cases table : v.kind = .table <;> simp [table]
  | _ => rfl

theorem indexChain_unhandled (unhandled : s.heap.metafield v .index = .nil) :
    action enter H (Action.indexChain key (k + 1) v) s =
      if v.kind = .table then .ok .nil s else .error (.raised (.notIndexable v.kind)) s := by
  rw [indexChain_empty empty, unhandled]

theorem indexChain_function {f : FunctionId} (handled : s.heap.metafield v .index = .function f) :
    action enter H (Action.indexChain key (k + 1) v) s =
      (callValue enter (.function f) [v, key] 1 >>= fun vs => pure (vs.getLastD .nil)) s := by
  rw [indexChain_empty empty, handled]
  simp only [Action.callForOne, action_bind, bind_eq, action_callValue, keeping_nil, action_pure]

end Link

theorem indexChain_relays {s : State E} {key v : Value} (k : Nat)
    (relays : s.heap.Relays .index key v) :
    action enter H (Action.indexChain key (k + 1) v) s =
      action enter H (Action.indexChain key k (s.heap.metafield v .index)) s := by
  rw [indexChain_empty relays.empty]
  cases handled : s.heap.metafield v .index with
  | nil => exact absurd handled relays.handled
  | function f => exact absurd handled (relays.value f)
  | _ => rfl

theorem getLastD_adjust_one (vs : List Value) :
    (adjust vs 1).getLastD .nil = vs.headD .nil := by
  cases vs with
  | nil => rfl
  | cons v vs => simp [adjust]

section Reading
variable {s : State E} {target key : Value}

/-- Reading begins anew at any link that all links before it relay to. -/
theorem runAction_index_at {n : Nat} (within : n < 100)
    (arrives : ∀ m < n, s.heap.Relays .index key (s.heap.link .index target m)) :
    ∃ k, runAction H (Action.index target key) s =
      action (Run.enter H s.depthLeft) H
        (Action.indexChain key (k + 1) (s.heap.link .index target n)) s := by
  refine ⟨99 - n, ?_⟩
  have rest := Heap.walk_to_link
    (fun k v => action (Run.enter H s.depthLeft) H (Action.indexChain key k v) s)
    (fun k v relays => indexChain_relays k relays) arrives (99 - n + 1)
  rw [← rest, show n + (99 - n + 1) = 100 by omega]
  rfl

section Arrived
variable {n : Nat} (within : n < 100)
  (arrives : ∀ m < n, s.heap.Relays .index key (s.heap.link .index target m))
include within arrives

theorem read_held (held : s.heap.held key (s.heap.link .index target n) ≠ .nil) :
    runAction H (Action.index target key) s =
      .ok (s.heap.held key (s.heap.link .index target n)) s := by
  obtain ⟨k, runs⟩ := runAction_index_at within arrives
  exact runs.trans (indexChain_held held)

theorem read_unhandled (empty : s.heap.held key (s.heap.link .index target n) = .nil)
    (unhandled : s.heap.metafield (s.heap.link .index target n) .index = .nil) :
    runAction H (Action.index target key) s =
      if (s.heap.link .index target n).kind = .table then .ok .nil s
      else .error (.raised (.notIndexable (s.heap.link .index target n).kind)) s := by
  obtain ⟨k, runs⟩ := runAction_index_at within arrives
  exact runs.trans (indexChain_unhandled empty unhandled)

end Arrived

theorem read_tooLong
    (all : ∀ n < 100, s.heap.Relays .index key (s.heap.link .index target n)) :
    runAction H (Action.index target key) s = .error (.raised (.chainTooLong .index)) s :=
  Heap.walk_to_link (fun k v => action (Run.enter H s.depthLeft) H (Action.indexChain key k v) s)
    (fun k _ relays => indexChain_relays k relays) all 0

/-- A read that calls no handler ends where it began, and needs no stack. -/
theorem read_of_uncalled (uncalled : s.heap.Uncalled .index key target) :
    (∃ v, runAction H (Action.index target key) s = .ok v s) ∨
    ∃ e, runAction H (Action.index target key) s = .error (.raised e) s ∧ e ≠ .stackOverflow := by
  rcases s.heap.relays_or_stops .index key target 100 with all | ⟨n, within, arrives, stops⟩
  · exact .inr ⟨_, read_tooLong all, Error.noConfusion⟩
  · rcases Heap.ends_of_not_relays stops with held | ⟨empty, unhandled⟩ | ⟨empty, f, handled⟩
    · exact .inl ⟨_, read_held within arrives held⟩
    · have ran := read_unhandled (H := H) within arrives empty unhandled
      by_cases table : (s.heap.link .index target n).kind = .table
      · exact .inl ⟨_, ran.trans (if_pos table)⟩
      · exact .inr ⟨_, ran.trans (if_neg table), Error.noConfusion⟩
    · exact absurd handled (uncalled n f within arrives empty)

/-- Reading follows the handlers from link to link, through any cycle of metatables. It answers with
the first value that a link holds, with nil at a table that has no handler, with the first result of
a handler that is a function; it fails at another value without a handler, and when a hundred links
have passed. Unless it calls a function, it changes nothing. -/
theorem read_along_chain (H : Host E) (s : State E) (target key : Value) :
    let link := s.heap.link .index target
    let held (n : Nat) := s.heap.held key (link n)
    let handler (n : Nat) := s.heap.metafield (link n) .index
    let Arrives (n : Nat) := n < 100 ∧ ∀ m < n, s.heap.Relays .index key (link m)
    let read := runAction H (Action.index target key) s
    (∀ n, Arrives n → held n ≠ .nil → read = .ok (held n) s) ∧
    (∀ n, Arrives n → held n = .nil → handler n = .nil →
      read = if (link n).kind = .table then .ok .nil s
        else .error (.raised (.notIndexable (link n).kind)) s) ∧
    (∀ n f, Arrives n → held n = .nil → handler n = .function f →
      HandsOver H f [link n, key] (·.headD .nil) s read) ∧
    ((∀ n < 100, s.heap.Relays .index key (link n)) →
      read = .error (.raised (.chainTooLong .index)) s) ∧
    ((∀ n f, Arrives n → held n = .nil → handler n ≠ .function f) →
      (read = .error (.raised (.chainTooLong .index)) s ↔
        ∀ n < 100, s.heap.Relays .index key (link n)) ∧
      ((∃ v, read = .ok v s) ∨ ∃ e, read = .error (.raised e) s)) := by
  intro link held handler Arrives read
  refine ⟨fun n ⟨within, arrives⟩ => read_held within arrives,
    fun n ⟨within, arrives⟩ => read_unhandled within arrives, ?_, read_tooLong,
    fun noFunction => ?_⟩
  · intro n f ⟨within, arrives⟩ empty handled
    obtain ⟨k, runs⟩ := runAction_index_at within arrives
    change HandsOver H f [link n, key] _ s (runAction H (Action.index target key) s)
    rw [runs, indexChain_function empty handled]
    exact handsOver_callValue (by decide) (by decide) getLastD_adjust_one rfl
  · have ends := read_of_uncalled (H := H) fun n f within arrives =>
      noFunction n f ⟨within, arrives⟩
    refine ⟨⟨fun long => ?_, read_tooLong⟩, ends.imp_right fun ⟨e, failed, _⟩ => ⟨e, failed⟩⟩
    rcases s.heap.relays_or_stops .index key target 100 with all | ⟨n, within, arrives, stops⟩
    · exact all
    · rcases Heap.ends_of_not_relays stops with filled | ⟨empty, none⟩ | ⟨empty, f, handled⟩
      · exact nomatch (read_held within arrives filled).symm.trans long
      · have ran := (read_unhandled within arrives empty none).symm.trans long
        split at ran <;> exact nomatch ran
      · exact absurd handled (noFunction n f ⟨within, arrives⟩ empty)

end Reading
end Run
end HostBridge
