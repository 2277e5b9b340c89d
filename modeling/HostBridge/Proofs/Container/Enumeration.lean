import HostBridge.Proofs.Container.Walk

namespace HostBridge
namespace State
variable {E : Embedding}

/-- A callback for walks of `x` from `s`. It leaves the values that it finds in place, and nothing
more unless it fails. It takes at most the key of the pair that it is shown out of the table. -/
def Sparing (s : State E) (x : TableId) (visit : Run E Unit) : Prop :=
  ∀ (t : State E) (p : Value × Value), s.Topped [.table x, p.1, p.2] t →
    match visit t with
    | .ok _ u => t.Topped [] u ∧ (t.heap.table x).Spares p.1 (u.heap.table x)
    | .error (.raised _) u => ∃ vs, t.Topped vs u
    | .error (.panicked _) _ => True

end State

namespace Run
open State
variable {E : Embedding} {H : Host E} {s t : State E} {x : TableId} {key : Value}

/-- Such a callback is shown the pairs that lie ahead at first, all of them unless it fails. -/
theorem shown_of_sparing {visit : Run E Unit} (sparing : s.Sparing x visit)
    (topped : s.Topped [.table x, key] t) (valid : (t.heap.table x).Valid)
    {ps : List (Value × Value)} (follows : (t.heap.table x).Follows key ps) :
    ∃ shown rest r, ps = shown ++ rest ∧ Shown x visit key t shown r ∧
      ((∃ u, r = .ok () u) ∧ rest = [] ∨ ∃ t f u, visit t = .error f u ∧ r = .error f u) := by
  induction ps generalizing t key with
  | nil =>
    cases follows with
    | done last => exact ⟨[], [], _, rfl, .done last, .inl ⟨⟨_, rfl⟩, rfl⟩⟩
  | cons p ps ih =>
    cases follows with
    | step next rest =>
      have found := topped.showing p
      have kept := sparing _ p found
      have same : (t.showing p).heap = t.heap := rfl
      cases ran : visit (t.showing p) with
      | ok a u =>
        rw [ran] at kept
        obtain ⟨kept, spares⟩ := kept
        have left : s.Topped [.table x, p.1] (u.mapSlots (·.pop)) :=
          Topped.pop [.table x, p.1] (found.trans kept)
        obtain ⟨shown, after, r, rfl, shows, ended⟩ :=
          ih left (spares.valid valid) (spares.follows valid rest)
        exact ⟨p :: shown, after, r, rfl, .visited next ran kept shows, ended⟩
      | error f u =>
        rw [ran] at kept
        cases f with
        | raised e =>
          obtain ⟨vs, kept⟩ := kept
          exact ⟨[p], ps, _, rfl, .failed next ran kept, .inr ⟨_, _, _, ran, rfl⟩⟩
        | panicked q => exact ⟨[p], ps, _, rfl, .panicked next ran, .inr ⟨_, _, _, ran, rfl⟩⟩

/-- On a frame that lies within the stack, with room for the table, a key and a value, both
enumerations follow `next` from nil on. The host may change the heap between the steps of the first,
and the callback of the second may do whatever leaves the values that it finds in place; the pair is
the second value and the first from the top whenever it runs. As long as the table is left alone,
or loses the key of the pair last handed out, the pairs are those that it had at first. With less
room an enumeration may end early for want of stack. In each case, and wherever the enumeration is
given up, the frame is as before. -/
theorem enumerations_follow_next (H : Host E) (x : View) (s : State E)
    (framed : s.base ≤ s.stack.size) :
    (s.stack.size + 3 ≤ s.stack.maxDepth →
      (∀ changes, x.Enumerated H s changes
        (Table.answers (some .nil) (s.heap.versions x.table changes)) []) ∧
      ∀ visit shown r,
        Shown x.table (action (enter H s.depthLeft) H visit) .nil (s.walking x) shown r →
        ∀ limit, shown.length < limit →
          runAction H (x.walk limit visit) s = cutTo s.stack.size r ∧
          ∀ t, Leaves (runAction H (x.walk limit visit)) s t → s.SameStack t) ∧
    (∀ t key p, s.Topped [x.value, key] t →
      (t.showing p).slot (-2) = .ok p.1 ∧ (t.showing p).slot (-1) = .ok p.2) ∧
    ((s.heap.table x.table).Valid →
      (∀ ts, (s.heap.table x.table).SparedBy .nil ts → Table.answers (some .nil) ts =
        (List.range ts.length).map fun n => (s.heap.table x.table).pairs[n]?.map .ok) ∧
      ∀ visit, s.Sparing x.table visit → ∃ shown rest r,
        (s.heap.table x.table).pairs = shown ++ rest ∧
        Shown x.table visit .nil (s.walking x) shown r ∧
        ((∃ u, r = .ok () u) ∧ rest = [] ∨ ∃ t f u, visit t = .error f u ∧ r = .error f u)) ∧
    (s.stack.maxDepth < s.stack.size + 3 →
      (runAction H (Pairs.start x) s = .error (.raised .stackOverflow) s ∨
        ∀ changes, ∃ as vs, x.Enumerated H s changes as vs ∧
          (as = Table.answers (some .nil) (s.heap.versions x.table changes) ∨
            Pairs.CutShort as (Table.answers (some .nil) (s.heap.versions x.table changes)))) ∧
      ∀ limit visit, ∃ peak,
        runAction H (x.walk limit visit) s = .error (.raised .stackOverflow) (s.atPeak peak) ∨
        runAction H (x.walk limit visit) s = .ok () (s.atPeak peak) ∧
          (0 < limit → (s.heap.table x.table).next .nil = .ok none)) := by
  have topped := topped_walking s x
  have iterates := enumerated_cases (H := H) framed x
  refine ⟨fun room => ⟨?_, ?_⟩, ?_, fun valid => ⟨?_, ?_⟩, fun little => ⟨?_, ?_⟩⟩
  · exact iterates.resolve_right fun cramped => Nat.not_lt.mpr room cramped.1
  · intro visit shown r shows limit enough
    have ran := walk_shown framed x visit room shows enough
    exact ⟨ran, fun t => walk_sameStack x visit (shows.laden topped) ran⟩
  · intro t key p placed
    exact Topped.slots_pair [x.value] (placed.showing p) framed
  · exact fun ts => Table.answers_eq_pairs valid
  · exact fun visit sparing => shown_of_sparing sparing topped valid valid.follows_pairs
  · rcases iterates with exact | ⟨-, cramped⟩
    · exact .inr fun changes => ⟨_, [], exact changes, .inl rfl⟩
    · exact cramped
  · exact fun limit visit => walk_cramped framed x visit little limit

/-- The only key is set to nil as soon as it has been handed out. -/
theorem enumerations_follow_next_cleared :
    let H := Host.running (pure 0)
    let start : State .plain := State.new Config.standard ()
    let s := { start with
      heap := (start.heap.allocTable (Table.replay [.setInt 1 (.light 10)])).2 }
    let clear := (Write.set (.ofInt 1) .nil).run
    s.base ≤ s.stack.size ∧ View.Enumerated H ⟨⟨2⟩⟩ s [id, fun h => h.modifyTable ⟨2⟩ clear]
      [some (.ok (.ofInt 1, .light 10)), none] [] := by
  intro H start s clear
  let t := Table.replay [.setInt 1 (.light 10)]
  have only : t = .ofArray #[.light 10] := by
    change Table.empty.setInt 1 (.light 10) = _
    exact Table.setInt_ofArray (a := #[]) (by decide) rfl
  have first : t.next .nil = .ok (some (.ofInt 1, .light 10)) := by
    rw [only]
    simp [Table.next, Value.isNil, Table.arrayNext?, Table.ofArray]
  have pairs : t.pairs = [(.ofInt 1, .light 10)] := by
    rw [only]
    rfl
  have held : s.heap.table ⟨2⟩ = t :=
    (Heap.table_allocTable start.heap t ⟨2⟩).trans (if_pos rfl)
  have cleared : (s.heap.modifyTable ⟨2⟩ clear).table ⟨2⟩ = clear t :=
    (Heap.table_modifyTable s.heap ⟨2⟩ clear ⟨2⟩).trans
      ((if_pos ⟨rfl, Nat.lt_succ_self 2⟩).trans (congrArg clear held))
  have versions : s.heap.versions ⟨2⟩ [id, fun h => h.modifyTable ⟨2⟩ clear] = [t, clear t] := by
    simp only [Heap.versions, id_eq, held, cleared]
  have spared : t.SparedBy .nil [t, clear t] := by
    refine ⟨.inl rfl, fun p next => ⟨.inr ?_, fun _ _ => trivial⟩⟩
    obtain rfl := Option.some.inj (Except.ok.inj (first.symm.trans next))
    rfl
  obtain ⟨iterates, -, same, -⟩ := enumerations_follow_next H ⟨⟨2⟩⟩ s (Nat.zero_le _)
  rw [held] at same
  have answers := (same (Table.Valid.replay _)).1 [t, clear t] spared
  have ran := (iterates (by decide)).1 [id, fun h => h.modifyTable ⟨2⟩ clear]
  rw [versions, answers, pairs] at ran
  exact ⟨Nat.zero_le _, ran⟩

/-- A function that goes on after its callee has closed the state finds its frame to begin above the
stack. An enumeration from there fails at its first step, where `next` does not, and leaves what it
has pushed. -/
theorem enumeration_outside_frame :
    let H := Host.running do
      Action.perform .close
      return 0
    let s := (State.plain #[.light 7, .light 7, .function ⟨0⟩]).descend 3
    let before : Action .plain Unit := do
      Action.push (.function ⟨0⟩)
      Action.call 0 0
      let x ← Action.perform .newTable
      Action.push (.table x)
    let enumerate : Action .plain (Option Error) := do
      let p ← Pairs.start ⟨⟨0⟩⟩
      let (a, p) ← p.step
      p.finish
      match a with
      | some (.error e) => return some e
      | _ => return none
    let t := (runAction H before).final s
    (t.stack.slots = #[.table ⟨0⟩] ∧ t.stack.size + 3 ≤ t.stack.maxDepth) ∧
      (∃ r, (t.heap.table ⟨0⟩).next .nil = .ok r) ∧
      (runAction H enumerate).returned? t = some (some (.invalidIndex (-1))) ∧
      ((runAction H enumerate).final t).stack.slots = #[.table ⟨0⟩, .table ⟨0⟩, .nil] := by
  refine ⟨by decide +kernel, ⟨_, rfl⟩, ?_⟩
  decide +kernel

end Run
end HostBridge
