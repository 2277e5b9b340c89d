import HostBridge.Proofs.Heap.Release
import HostBridge.Proofs.Run.Isolation

namespace HostBridge
namespace State
variable {E : Embedding} {others : Prop} {limit : Nat} {s : State E} {low : Array Value}

/-! Scalars own nothing, so that references are counted as before. -/

theorem filter_of_exchanges {vs ws : List Value} (length : vs.length = ws.length)
    (apart : ∀ (i : Nat) v w, vs[i]? = some v → ws[i]? = some w →
      v = w ∨ v.isReference = false ∧ w.isReference = false) :
    vs.filter Value.isReference = ws.filter Value.isReference := by
  induction vs generalizing ws with
  | nil =>
    cases ws with
    | nil => rfl
    | cons w ws => contradiction
  | cons v vs ih =>
    cases ws with
    | nil => contradiction
    | cons w ws =>
      have rest := ih (Nat.succ.inj length) fun i v' w' hv hw => apart (i + 1) v' w' hv hw
      rcases apart 0 v w rfl rfl with rfl | ⟨scalar, scalar'⟩
      · simp only [List.filter_cons, rest]
      · simp only [List.filter_cons, scalar, scalar', Bool.false_eq_true, if_false, rest]

theorem filter_slots_beneath (le : low.size ≤ s.stack.slots.size) (apart : s.Exchanges others low) :
    (overlay low s.stack.slots).toList.filter Value.isReference =
      s.stack.slots.toList.filter Value.isReference := by
  have size := size_overlay le
  apply filter_of_exchanges
  · rw [Array.length_toList, Array.length_toList, size]
  · intro i v w new old
    rw [Array.getElem?_toList] at new old
    rw [getElem?_overlay] at new
    by_cases below : i < low.size
    · rw [if_pos below] at new
      exact (apart i v w new old).imp_right And.right
    · rw [if_neg below, old] at new
      exact .inl (Option.some.inj new).symm

theorem alike_beneath (above : s.Above low.size limit) (apart : s.Exchanges others low) :
    s.Alike (s.beneath low) := by
  refine ⟨rfl, rfl, rfl, rfl, fun e counts => ?_⟩
  have slots := (filter_slots_beneath above.floor_le apart)
  have here (vs : List Value) :
      (vs.map Entity.value).count e = ((vs.filter Value.isReference).map Entity.value).count e := by
    rw [← List.count_filter counts, List.filter_map]
    rfl
  simp only [keeps, own, List.map_append, List.count_append, slots_beneath]
  rw [here (overlay low _).toList, slots, ← here]
  rfl

theorem settle_beneath (H : Host E) (above : s.Above low.size limit)
    (apart : s.Exchanges others low) (before : List Value) :
    (s.beneath low).settle H before = (s.settle H before).beneath low :=
  Alike.settle_comm (g := (·.beneath low)) (alike_beneath above apart) H before fun _ _ _ => rfl

end State

namespace Run
open State
variable {E : Embedding} {α β : Type} {others : Prop} {floor limit : Nat}

theorem isolated_settle (H : Host E) (before : List Value) :
    Isolated others floor limit
      (modifyGet fun s => ((s.settle H before).finalized, s.settle H before) : Run E _) := by
  intro s above
  obtain ⟨released, world, finalized, settled⟩ := s.settle_frame H before
  have base : (s.settle H before).base = s.base := by rw [settled]
  have stack : (s.settle H before).stack = s.stack := by rw [settled]
  refine ⟨⟨?_, fun low size apart => ?_⟩, fun a t ran => ?_, fun e t ran => ?_⟩
  · have covers := above.covers
    exact ⟨stack ▸ covers.framed, stack ▸ covers.bounded, stack ▸ covers.maxDepth⟩
  · subst size
    change EStateM.Result.ok _ ((s.beneath low).settle H before) = _
    rw [settle_beneath H above apart before]
    rfl
  · cases ran
    exact base
  · contradiction

theorem isolated_push (v : Value) : Isolated others floor limit (push v : Run E Unit) := by
  intro s above
  cases full : s.stack.isFull with
  | true =>
    apply (isolated_raise (α := Unit) .stackOverflow s above).congr above
    rintro low rfl -
    rw [push_eq, isFull_beneath above, full]
    rfl
  | false =>
    have room : s.stack.slots.size < s.stack.maxDepth := Stack.free_iff.mp full
    have framed : s.base ≤ s.stack.slots.size := above.framed
    have pushed : IsolatedAt others floor s (fun s => .ok () (s.mapSlots (·.push v))) := by
      apply isolatedAt_mapSlots above
      · rw [Array.size_push]
        omega
      · rw [Array.size_push]
        omega
      · rintro low rfl
        exact overlay_push above.floor_le v
    apply pushed.congr above
    rintro low rfl -
    rw [push_eq, isFull_beneath above, full]
    rfl

theorem isolated_pop : Isolated others floor limit (pop : Run E Value) := by
  intro s above
  by_cases empty : s.stack.size ≤ s.base
  · apply (isolated_raise (α := Value) .stackUnderflow s above).congr above
    rintro low rfl -
    rw [pop_eq, size_beneath above, base_beneath, if_pos empty]
    rfl
  · have nonempty := Nat.lt_of_not_le empty
    obtain ⟨v, top⟩ := top?_isSome nonempty
    have bounded : s.stack.slots.size ≤ s.stack.maxDepth := above.bounded
    have inside : s.base < s.stack.slots.size := nonempty
    have popped : IsolatedAt others floor s (fun s => .ok v (s.mapSlots (·.pop))) := by
      apply isolatedAt_mapSlots above
      · rw [Array.size_pop]
        omega
      · rw [Array.size_pop]
        omega
      · rintro low rfl
        exact overlay_pop above.floor_le (Nat.lt_of_le_of_lt above.base nonempty)
    apply popped.congr above
    rintro low rfl -
    simp only [pop_eq, size_beneath above, base_beneath, if_neg empty, top?_beneath above nonempty,
      top]

theorem isolatedAt_truncate {s : State E} (above : s.Above floor limit) {n : Nat}
    (frame : s.base ≤ n) : IsolatedAt others floor s (truncate n) := by
  have framed : s.base ≤ s.stack.slots.size := above.framed
  have bounded : s.stack.slots.size ≤ s.stack.maxDepth := above.bounded
  have size : (s.stack.slots.take n).size = min n s.stack.slots.size := by
    simp only [Array.take_eq_extract, Array.size_extract, Nat.sub_zero]
  apply isolatedAt_mapSlots above
  · omega
  · omega
  · rintro low rfl
    exact overlay_take above.floor_le (Nat.le_trans above.base frame)

theorem isolated_drop (n : Nat) : Isolated others floor limit (drop n : Run E Unit) := by
  intro s above
  have framed := above.framed
  have top : s.top = (s.stack.size : Int) - s.base := rfl
  by_cases short : Stack.wrapped s.top < n
  · apply (isolated_raise (α := Unit) .stackUnderflow s above).congr above
    rintro low rfl -
    rw [drop_eq, top_beneath above, if_pos short]
    rfl
  · rw [wrapped_of_nonneg (by omega)] at short
    have enough : n ≤ s.stack.size := by omega
    have cut : IsolatedAt others floor s (truncate (s.stack.size - n)) :=
      isolatedAt_truncate above (by omega)
    apply cut.congr above
    rintro low rfl -
    rw [drop_of_framed, top_beneath above, if_neg (by omega), size_beneath above]
    · rfl
    · rw [size_beneath above]
      exact framed

theorem isolatedAt_resize {s : State E} (above : s.Above floor limit) {n : Nat}
    (frame : s.base ≤ n) : IsolatedAt others floor s (resize n) := by
  have framed : s.base ≤ s.stack.slots.size := above.framed
  by_cases shorter : n < s.stack.size
  · apply (isolatedAt_truncate above frame).congr above
    rintro low rfl -
    rw [resize_eq, size_beneath above, if_pos shorter]
    rfl
  · by_cases excess : s.stack.maxDepth < n
    · apply (isolated_raise (α := Unit) .stackOverflow s above).congr above
      rintro low rfl -
      rw [resize_eq, size_beneath above, maxDepth_beneath, if_neg shorter, if_pos excess]
      rfl
    · have size (slots : Array Value) :
          (slots ++ Array.replicate (n - slots.size) Value.nil).size = max slots.size n := by
        rw [Array.size_append, Array.size_replicate]
        omega
      have longer : s.stack.slots.size ≤ n := Nat.le_of_not_lt shorter
      have filled : IsolatedAt others floor s
          (fun s => .ok () (s.mapSlots fun a => a ++ Array.replicate (n - a.size) .nil)) := by
        apply isolatedAt_mapSlots above
        · rw [size]
          omega
        · rw [size]
          omega
        · rintro low rfl
          rw [size_overlay above.floor_le]
          exact overlay_append above.floor_le _
      apply filled.congr above
      rintro low rfl -
      rw [resize_eq, size_beneath above, maxDepth_beneath, if_neg shorter, if_neg excess]

theorem isolated_setTop (index : Int) :
    Isolated others floor limit (setTop index : Run E Unit) := by
  intro s above
  have within : ¬s.top < 0 := by
    have top : s.top = (s.stack.size : Int) - s.base := rfl
    have framed := above.framed
    omega
  by_cases forward : 0 ≤ index
  · apply (isolatedAt_resize above (Nat.le_add_right s.base index.toNat)).congr above
    rintro low rfl -
    rw [setTop_eq, if_pos forward, base_beneath]
  · cases found : s.position index with
    | error e =>
      apply (isolated_raise (α := Unit) e s above).congr above
      rintro low rfl -
      rw [setTop_eq, if_neg forward, position_beneath above, found]
      rfl
    | ok p =>
      have bounds := position_bounds above.framed found
      apply (isolatedAt_resize above (Nat.le_succ_of_le bounds.1)).congr above
      rintro low rfl -
      simp only [setTop_eq, if_neg forward, position_beneath above, found, top_beneath above,
        if_neg within]

theorem isolated_position (index : Int) :
    Isolated others floor limit (read (·.position index) : Run E Nat) :=
  isolated_read fun _ _ above => position_beneath above index

theorem position_of_read {s t : State E} (above : s.Above floor limit) {index : Int} {p : Nat}
    (found : read (·.position index) s = .ok p t) :
    t = s ∧ s.base ≤ p ∧ p < s.stack.size := by
  rw [read_eq] at found
  cases position : s.position index with
  | error e =>
    rw [position] at found
    contradiction
  | ok q =>
    rw [position] at found
    cases found
    exact ⟨rfl, position_bounds above.framed position⟩

/-- A value that is put in at a position of the frame or right above it. -/
theorem isolatedAt_insertAt {s : State E} (above : s.Above floor limit) (a : α) {p : Nat}
    (frame : s.base ≤ p) (inside : p ≤ s.stack.size) (room : s.stack.isFull = false) (v : Value) :
    IsolatedAt others floor s (fun s => .ok a (s.mapSlots (·.insertIdxIfInBounds p v))) := by
  have framed : s.base ≤ s.stack.slots.size := above.framed
  have free : s.stack.slots.size < s.stack.maxDepth := Stack.free_iff.mp room
  have le : p ≤ s.stack.slots.size := inside
  have size := size_insertIdxIfInBounds le v
  apply isolatedAt_mapSlots above
  · omega
  · omega
  · rintro low rfl
    exact overlay_insert above.floor_le (Nat.le_trans above.base frame) v

theorem isolated_insert (index : Int) :
    Isolated others floor limit (insert index : Run E Unit) := by
  intro s above
  apply (isolated_position index s above).bind above
  intro p u found above'
  obtain ⟨rfl, bounds⟩ := position_of_read above found
  have pops : IsolatedAt others floor u pop := isolated_pop u above
  apply pops.bind above
  intro v t popped above'
  have base : u.base = t.base := (pops.base_of_ok v t popped).symm
  by_cases beyond : t.stack.size < p
  · apply (isolated_raise (α := Unit) .stackUnderflow t above').congr above'
    rintro low rfl -
    simp only [bind_eq, get_eq, size_beneath above', if_pos beyond]
    rfl
  · cases full : t.stack.isFull with
    | true =>
      apply (isolated_raise (α := Unit) .stackOverflow t above').congr above'
      rintro low rfl -
      simp only [bind_eq, get_eq, size_beneath above', if_neg beyond, isFull_beneath above', full,
        if_true]
      rfl
    | false =>
      apply (isolatedAt_insertAt above' () (base ▸ bounds.1) (Nat.le_of_not_lt beyond) full
        v).congr above'
      rintro low rfl -
      simp only [bind_eq, get_eq, size_beneath above', if_neg beyond, isFull_beneath above', full,
        Bool.false_eq_true, if_false, modifySlots_eq]

theorem isolated_remove (index : Int) :
    Isolated others floor limit (remove index : Run E Unit) := by
  intro s above
  apply (isolated_position index s above).bind above
  intro p u found above'
  obtain ⟨rfl, lower, upper⟩ := position_of_read above found
  have inside : p < u.stack.slots.size := upper
  have bounded : u.stack.slots.size ≤ u.stack.maxDepth := above.bounded
  have size : (u.stack.slots.eraseIdxIfInBounds p).size = u.stack.slots.size - 1 := by
    rw [← Array.eraseIdx_eq_eraseIdxIfInBounds inside, Array.size_eraseIdx]
  have removed :
    IsolatedAt others floor u (fun s => .ok () (s.mapSlots (·.eraseIdxIfInBounds p))) := by
    apply isolatedAt_mapSlots above
    · omega
    · omega
    · rintro low rfl
      exact overlay_erase above.floor_le (Nat.le_trans above.base lower) inside
  apply removed.congr above
  rintro low rfl -
  simp only [bind_eq, get_eq, size_beneath above, if_neg (Nat.not_le_of_lt upper), modifySlots_eq]

theorem isolated_replace (index : Int) :
    Isolated others floor limit (replace index : Run E Unit) := by
  intro s above
  apply (isolated_position index s above).bind above
  intro p u found above'
  obtain ⟨rfl, lower, -⟩ := position_of_read above found
  apply (isolated_pop u above).bind above
  intro v t popped above'
  by_cases beyond : t.stack.size ≤ p
  · apply (isolated_push v t above').congr above'
    rintro low rfl -
    simp only [bind_eq, get_eq, size_beneath above', if_pos beyond]
  · have stored :
      IsolatedAt others floor t (fun s => .ok () (s.mapSlots (·.setIfInBounds p v))) := by
      apply isolatedAt_mapSlots above'
      · rw [Array.size_setIfInBounds]
        exact above'.framed
      · rw [Array.size_setIfInBounds]
        exact above'.bounded
      · rintro low rfl
        exact overlay_set above'.floor_le (Nat.le_trans above.base lower) v
    apply stored.congr above'
    rintro low rfl -
    simp only [bind_eq, get_eq, size_beneath above', if_neg beyond, modifySlots_eq]

theorem isolated_pushAll (vs : List Value) :
    Isolated others floor limit (pushAll vs : Run E Unit) := by
  induction vs with
  | nil => exact isolated_pure ()
  | cons v vs ih => exact isolated_bind (isolated_push v) fun _ => ih

/-- The handler may do something to the heap and has to fail on with the same fault. -/
theorem isolated_tryCatch_rethrow {m : Run E α} (h : Isolated others floor limit m)
    (g : Heap E → Heap E) :
    Isolated others floor limit (tryCatch m fun f => modifyHeap g >>= fun _ => throw f) := by
  intro s above
  have inner := h s above
  have covers := inner.covers
  unfold final at covers
  cases ran : m s with
  | ok a t =>
    rw [ran] at covers
    refine ⟨⟨?_, fun low size exchanges => ?_⟩, fun b u ends => ?_, fun e u ends => ?_⟩
    · rw [final, rethrow_of_ok ran]
      exact covers
    · have blind := inner.blind low size exchanges
      rw [ran] at blind
      rw [rethrow_of_ok ran, rethrow_of_ok blind]
      rfl
    · rw [rethrow_of_ok ran] at ends
      cases ends
      exact inner.base_of_ok a t ran
    · rw [rethrow_of_ok ran] at ends
      contradiction
  | error f t =>
    rw [ran] at covers
    refine ⟨⟨?_, fun low size exchanges => ?_⟩, fun b u ends => ?_, fun e u ends => ?_⟩
    · rw [final, rethrow_of_error ran]
      exact ⟨covers.framed, covers.bounded, covers.maxDepth⟩
    · have blind := inner.blind low size exchanges
      rw [ran] at blind
      rw [rethrow_of_error ran, rethrow_of_error blind]
      rfl
    · rw [rethrow_of_error ran] at ends
      contradiction
    · rw [rethrow_of_error ran] at ends
      cases ends
      exact inner.base_of_raised e t ran

/-- What makes no difference to the frame is isolated, and so are the handlers of host types and the
actions that are made of it. -/
theorem isolated_relative :
    Relative (E := E) fun _ => Isolated others floor limit where
  offFrame := OffFrame.isolated
  get_bind blind rest := by
    apply isolated_get_bind
    · intro s above
      exact rest s s above
    · intro s low above _ _
      exact blind _ _ (resembles_beneath above)
  resume steps first returned raised s above :=
    (first s above).branch above steps (fun a t _ above' => returned a t above')
      fun e t _ above' => raised e t above'
  rethrow g h := isolated_tryCatch_rethrow h g
  push := isolated_push
  pop := isolated_pop
  drop := isolated_drop
  setTop := isolated_setTop
  insert := isolated_insert
  remove := isolated_remove
  replace := isolated_replace

end Run
end HostBridge
