import HostBridge.Proofs.Run.Respects
/-!
The frame of the running function. What a function may do to the stack stays above its base: the
slots below the base, the base itself, the call depth and the limits are as before, and the stack
and the nesting of calls stay within the limits all the time.
-/
namespace HostBridge

theorem Stack.isFull_iff {k : Stack} : k.isFull = true ↔ k.maxDepth ≤ k.size := decide_eq_true_iff

theorem Stack.free_iff {k : Stack} : k.isFull = false ↔ k.size < k.maxDepth :=
  decide_eq_false_iff_not.trans Nat.not_le

namespace State
variable {E : Embedding}

/-- The frame begins within the stack, and no limit has been exceeded so far. -/
structure Fits (s : State E) : Prop where
  limit : s.stack.maxDepth = s.config.maxStackDepth
  framed : s.base ≤ s.stack.size
  size_le : s.stack.size ≤ s.peak.size
  peak_size_le : s.peak.size ≤ s.config.maxStackDepth
  depth_le : s.callDepth ≤ s.peak.depth
  peak_depth_le : s.peak.depth ≤ s.config.maxCallDepth

/-- `t` has the frame of `s` and the same slots below `floor`; what was reached before stays
recorded. -/
structure Within (floor : Nat) (s t : State E) : Prop where
  base : t.base = s.base
  callDepth : t.callDepth = s.callDepth
  maxDepth : t.stack.maxDepth = s.stack.maxDepth
  stackLimit : t.config.maxStackDepth = s.config.maxStackDepth
  callLimit : t.config.maxCallDepth = s.config.maxCallDepth
  catches : t.config.catchPanics = s.config.catchPanics
  peak_size : s.peak.size ≤ t.peak.size
  peak_depth : s.peak.depth ≤ t.peak.depth
  below : ∀ i, i < floor → t.stack.slots[i]? = s.stack.slots[i]?

/-- What every step of a run keeps, where panics are caught. -/
def Guards (s t : State E) : Prop :=
  s.Fits → s.config.catchPanics = true → t.Fits ∧ Within s.base s t

theorem Within.refl (floor : Nat) (s : State E) : Within floor s s :=
  ⟨rfl, rfl, rfl, rfl, rfl, rfl, Nat.le_refl _, Nat.le_refl _, fun _ _ => rfl⟩

theorem Within.trans {floor : Nat} {s t u : State E} (first : Within floor s t)
    (second : Within floor t u) : Within floor s u where
  base := second.base.trans first.base
  callDepth := second.callDepth.trans first.callDepth
  maxDepth := second.maxDepth.trans first.maxDepth
  stackLimit := second.stackLimit.trans first.stackLimit
  callLimit := second.callLimit.trans first.callLimit
  catches := second.catches.trans first.catches
  peak_size := Nat.le_trans first.peak_size second.peak_size
  peak_depth := Nat.le_trans first.peak_depth second.peak_depth
  below i before := (second.below i before).trans (first.below i before)

theorem Within.lower {floor lower : Nat} {s t : State E} (h : Within floor s t)
    (le : lower ≤ floor) : Within lower s t :=
  { h with below := fun i before => h.below i (Nat.lt_of_lt_of_le before le) }

theorem Within.depthLeft {floor : Nat} {s t : State E} (within : Within floor s t) :
    t.depthLeft = s.depthLeft := by
  rw [State.depthLeft, State.depthLeft, within.callLimit, within.callDepth]

theorem Guards.refl (s : State E) : s.Guards s := fun fits _ => ⟨fits, .refl _ s⟩

theorem Guards.trans {s t u : State E} (first : s.Guards t) (second : t.Guards u) :
    s.Guards u := by
  intro fits catches
  obtain ⟨fits', within⟩ := first fits catches
  obtain ⟨fits'', within'⟩ := second fits' (within.catches.trans catches)
  exact ⟨fits'', within.trans (within.base ▸ within')⟩

/-- `t` differs from `s` in nothing that has to do with frames. -/
structure SameFrame (s t : State E) : Prop where
  stack : t.stack = s.stack
  base : t.base = s.base
  callDepth : t.callDepth = s.callDepth
  peak : t.peak = s.peak
  stackLimit : t.config.maxStackDepth = s.config.maxStackDepth
  callLimit : t.config.maxCallDepth = s.config.maxCallDepth
  catches : t.config.catchPanics = s.config.catchPanics
  closings : t.closings = s.closings
  overreports : t.overreports = s.overreports

theorem SameFrame.refl (s : State E) : s.SameFrame s := ⟨rfl, rfl, rfl, rfl, rfl, rfl, rfl, rfl, rfl⟩

theorem sameFrame_awaiting (s : State E) (ws : List Value) : s.SameFrame (s.awaiting ws) :=
  ⟨rfl, rfl, rfl, rfl, rfl, rfl, rfl, rfl, rfl⟩

theorem SameFrame.trans {s t u : State E} (first : s.SameFrame t) (second : t.SameFrame u) :
    s.SameFrame u where
  stack := second.stack.trans first.stack
  base := second.base.trans first.base
  callDepth := second.callDepth.trans first.callDepth
  peak := second.peak.trans first.peak
  stackLimit := second.stackLimit.trans first.stackLimit
  callLimit := second.callLimit.trans first.callLimit
  catches := second.catches.trans first.catches
  closings := second.closings.trans first.closings
  overreports := second.overreports.trans first.overreports

theorem SameFrame.fits {s t : State E} (same : s.SameFrame t) (fits : s.Fits) : t.Fits where
  limit := by
    rw [same.stack, same.stackLimit]
    exact fits.limit
  framed := by
    rw [same.base, same.stack]
    exact fits.framed
  size_le := by
    rw [same.stack, same.peak]
    exact fits.size_le
  peak_size_le := by
    rw [same.peak, same.stackLimit]
    exact fits.peak_size_le
  depth_le := by
    rw [same.callDepth, same.peak]
    exact fits.depth_le
  peak_depth_le := by
    rw [same.peak, same.callLimit]
    exact fits.peak_depth_le

theorem SameFrame.within {s t : State E} (same : s.SameFrame t) (floor : Nat) :
    Within floor s t where
  base := same.base
  callDepth := same.callDepth
  maxDepth := by rw [same.stack]
  stackLimit := same.stackLimit
  callLimit := same.callLimit
  catches := same.catches
  peak_size := Nat.le_of_eq (by rw [same.peak])
  peak_depth := Nat.le_of_eq (by rw [same.peak])
  below _ _ := by rw [same.stack]

theorem SameFrame.guards {s t : State E} (same : s.SameFrame t) : s.Guards t :=
  fun fits _ => ⟨same.fits fits, same.within _⟩

@[simp] theorem slots_mapSlots (s : State E) (f : Array Value → Array Value) :
    (s.mapSlots f).stack.slots = f s.stack.slots := rfl

theorem mapSlots_congr {s : State E} {f g : Array Value → Array Value}
    (same : f s.stack.slots = g s.stack.slots) : s.mapSlots f = s.mapSlots g := by
  simp only [mapSlots, same]

theorem mapSlots_self {s : State E} (recorded : s.stack.size ≤ s.peak.size) {slots : Array Value}
    (held : s.stack.slots = slots) : (s.mapSlots fun _ => slots) = s := by
  subst held
  have size : s.stack.slots.size ≤ s.peak.size := recorded
  simp only [mapSlots, Nat.max_eq_left size]

/-- Of two changes of the stack only the second one shows, unless the first went higher. -/
theorem mapSlots_mapSlots {s : State E} {f g : Array Value → Array Value}
    (le : (f s.stack.slots).size ≤ max s.peak.size (g (f s.stack.slots)).size) :
    (s.mapSlots f).mapSlots g = s.mapSlots fun slots => g (f slots) := by
  have peak : max (max s.peak.size (f s.stack.slots).size) (g (f s.stack.slots)).size =
      max s.peak.size (g (f s.stack.slots)).size := by omega
  simp only [mapSlots, peak]

theorem Fits.mapSlots {s : State E} (fits : s.Fits) {f : Array Value → Array Value}
    (room : (f s.stack.slots).size ≤ s.stack.maxDepth)
    (framed : s.base ≤ (f s.stack.slots).size) : (s.mapSlots f).Fits where
  limit := fits.limit
  framed := framed
  size_le := Nat.le_max_right _ _
  peak_size_le := Nat.max_le.mpr ⟨fits.peak_size_le, fits.limit ▸ room⟩
  depth_le := fits.depth_le
  peak_depth_le := fits.peak_depth_le

theorem Fits.size_le_maxDepth {s : State E} (fits : s.Fits) : s.stack.size ≤ s.stack.maxDepth := by
  rw [fits.limit]
  exact Nat.le_trans fits.size_le fits.peak_size_le

theorem within_mapSlots {s : State E} {f : Array Value → Array Value} {floor : Nat}
    (below : ∀ i, i < floor → (f s.stack.slots)[i]? = s.stack.slots[i]?) :
    Within floor s (s.mapSlots f) :=
  ⟨rfl, rfl, rfl, rfl, rfl, rfl, Nat.le_max_left _ _, Nat.le_refl _, below⟩

theorem Fits.guards_mapSlots {s : State E} (fits : s.Fits) {f : Array Value → Array Value}
    (room : (f s.stack.slots).size ≤ s.stack.maxDepth)
    (framed : s.base ≤ (f s.stack.slots).size)
    (below : ∀ i, i < s.base → (f s.stack.slots)[i]? = s.stack.slots[i]?) :
    s.Guards (s.mapSlots f) :=
  fun _ _ => ⟨fits.mapSlots room framed, within_mapSlots below⟩

theorem wrapped_of_nonneg {i : Int} (above : 0 ≤ i) : Stack.wrapped i = i.toNat := by
  rw [Stack.wrapped, if_neg (Int.not_lt.mpr above)]

theorem position_of_framed {s : State E} (framed : s.base ≤ s.stack.size) (index : Int) :
    s.position index =
      if 0 < index then
        let p := s.base + index.toNat - 1
        if p < s.stack.size then .ok p else .error (.invalidIndex index)
      else if index < 0 ∧ -index ≤ s.top then .ok (s.stack.size - index.natAbs)
      else .error (.invalidIndex index) := by
  have top : s.top = (s.stack.size : Int) - s.base := rfl
  have held : Stack.wrapped s.top = s.stack.size - s.base := by
    rw [wrapped_of_nonneg (by omega)]
    omega
  rw [position, held]
  by_cases inside : index < 0 ∧ -index ≤ s.top
  · rw [if_pos (c := index < 0 ∧ _) ⟨inside.1, by omega⟩, if_pos inside, wrapped_of_nonneg (by omega)]
    congr 3
    omega
  · rw [if_neg (c := index < 0 ∧ _) (by omega), if_neg inside]

theorem absolute_of_framed {s : State E} (framed : s.base ≤ s.stack.size) (index : Int) :
    s.absolute index = (s.position index).map fun p => (p : Int) - s.base + 1 := by
  have within : ¬s.top < 0 := by
    have top : s.top = (s.stack.size : Int) - s.base := rfl
    omega
  simp only [absolute, if_neg within]
  cases s.position index <;> rfl

theorem position_bounds {s : State E} (framed : s.base ≤ s.stack.size) {index : Int} {p : Nat}
    (h : s.position index = .ok p) : s.base ≤ p ∧ p < s.stack.size := by
  have top : s.top = (s.stack.size : Int) - s.base := rfl
  rw [position_of_framed framed] at h
  by_cases forward : 0 < index
  · rw [if_pos forward] at h
    simp only at h
    split at h
    · cases h
      omega
    · contradiction
  · rw [if_neg forward] at h
    by_cases inside : index < 0 ∧ -index ≤ s.top
    · rw [if_pos inside] at h
      cases h
      omega
    · rw [if_neg inside] at h
      contradiction

theorem size_take {slots : Array Value} {n : Nat} (le : n ≤ slots.size) :
    (slots.take n).size = n := by
  rw [Array.take_eq_extract, Array.size_extract]
  omega

theorem size_erase {slots : Array Value} {p : Nat} (inside : p < slots.size) :
    (slots.eraseIdxIfInBounds p).size = slots.size - 1 := by
  rw [← Array.eraseIdx_eq_eraseIdxIfInBounds inside]
  exact Array.size_eraseIdx p inside

theorem le_size_insert (slots : Array Value) (p : Nat) (v : Value) :
    slots.size ≤ (slots.insertIdxIfInBounds p v).size := by
  by_cases inside : p ≤ slots.size
  · simp [Array.insertIdxIfInBounds, inside]
  · simp [Array.insertIdxIfInBounds, inside]

theorem Fits.guards_truncate {s : State E} (fits : s.Fits) {n : Nat} (above : s.base ≤ n) :
    s.Guards (s.mapSlots (·.take n)) := by
  have bounded := fits.size_le_maxDepth
  have framed := fits.framed
  have size : (s.stack.slots.take n).size = min n s.stack.size := by simp [Stack.size]
  refine fits.guards_mapSlots (by omega) (by omega) fun i before => ?_
  rw [Array.take_eq_extract, Array.getElem?_extract, if_pos, Nat.zero_add]
  change i < min n s.stack.size - 0
  omega

theorem Fits.guards_push {s : State E} (fits : s.Fits) (room : s.stack.isFull = false)
    (v : Value) : s.Guards (s.mapSlots (·.push v)) := by
  have framed := fits.framed
  have size : (s.stack.slots.push v).size = s.stack.size + 1 := Array.size_push v
  have free : s.stack.size < s.stack.maxDepth := Stack.free_iff.mp room
  refine fits.guards_mapSlots (by omega) (by omega) fun i before => ?_
  rw [Array.getElem?_push, if_neg]
  exact Nat.ne_of_lt (Nat.lt_of_lt_of_le before framed)

theorem Fits.guards_pop {s : State E} (fits : s.Fits) (nonempty : s.base < s.stack.size) :
    s.Guards (s.mapSlots (·.pop)) := by
  have bounded := fits.size_le_maxDepth
  have size : s.stack.slots.pop.size = s.stack.size - 1 := Array.size_pop
  refine fits.guards_mapSlots (by omega) (by omega) fun i before => ?_
  rw [Array.getElem?_pop, if_pos]
  change i < s.stack.size - 1
  omega

/-! Changes of the slots above a prefix. -/

theorem append_take (below slots : Array Value) (n : Nat) :
    (below ++ slots).take (below.size + n) = below ++ slots.take n := by
  have whole : below.toList.take (below.size + n) = below.toList :=
    List.take_of_length_le (Nat.le_add_right _ _)
  apply Array.ext'
  simp [whole]

theorem append_insert (below slots : Array Value) {p : Nat} (v : Value) :
    (below ++ slots).insertIdxIfInBounds (below.size + p) v =
      below ++ slots.insertIdxIfInBounds p v := by
  unfold Array.insertIdxIfInBounds
  by_cases inside : p ≤ slots.size
  · have inside' : below.size + p ≤ (below ++ slots).size := by
      rw [Array.size_append]
      exact Nat.add_le_add_left inside _
    rw [dif_pos inside, dif_pos inside']
    apply Array.ext_getElem?
    intro i
    simp only [Array.getElem?_insertIdx, Array.getElem?_append]
    grind
  · have inside' : ¬below.size + p ≤ (below ++ slots).size := by
      rw [Array.size_append]
      omega
    rw [dif_neg inside, dif_neg inside']

theorem append_erase {below slots : Array Value} {p : Nat} (inside : p < slots.size) :
    (below ++ slots).eraseIdxIfInBounds (below.size + p) =
      below ++ slots.eraseIdxIfInBounds p := by
  have inside' : below.size + p < (below ++ slots).size := by
    rw [Array.size_append]
    exact Nat.add_lt_add_left inside _
  rw [← Array.eraseIdx_eq_eraseIdxIfInBounds inside, ← Array.eraseIdx_eq_eraseIdxIfInBounds inside',
    Array.eraseIdx_append_of_size_le (Nat.le_add_right _ _)]
  simp only [Nat.add_sub_cancel_left]

theorem size_insertIdxIfInBounds {slots : Array Value} {p : Nat} (le : p ≤ slots.size) (v : Value) :
    (slots.insertIdxIfInBounds p v).size = slots.size + 1 := by
  rw [Array.insertIdxIfInBounds, dif_pos le, Array.size_insertIdx]

theorem Fits.guards_insert {s : State E} (fits : s.Fits) (room : s.stack.isFull = false)
    {p : Nat} (above : s.base ≤ p) (v : Value) :
    s.Guards (s.mapSlots (·.insertIdxIfInBounds p v)) := by
  have framed := fits.framed
  have free : s.stack.size < s.stack.maxDepth := Stack.free_iff.mp room
  by_cases inside : p ≤ s.stack.slots.size
  · have size : (s.stack.slots.insertIdxIfInBounds p v).size = s.stack.size + 1 :=
      size_insertIdxIfInBounds inside v
    refine fits.guards_mapSlots (by omega) (by omega) fun i before => ?_
    simp only [Array.insertIdxIfInBounds, inside, dif_pos]
    exact Array.getElem?_insertIdx_of_lt inside (Nat.lt_of_lt_of_le before above)
  · have same : s.stack.slots.insertIdxIfInBounds p v = s.stack.slots := dif_neg inside
    refine fits.guards_mapSlots ?_ ?_ fun i before => ?_
    · rw [same]
      exact Nat.le_of_lt free
    · rw [same]
      exact framed
    · rw [same]

theorem Fits.guards_remove {s : State E} (fits : s.Fits) {p : Nat} (above : s.base ≤ p)
    (inside : p < s.stack.size) : s.Guards (s.mapSlots (·.eraseIdxIfInBounds p)) := by
  have bounded := fits.size_le_maxDepth
  have erased : s.stack.slots.eraseIdxIfInBounds p = s.stack.slots.eraseIdx p inside :=
    (Array.eraseIdx_eq_eraseIdxIfInBounds inside).symm
  have size : (s.stack.slots.eraseIdxIfInBounds p).size = s.stack.size - 1 := size_erase inside
  refine fits.guards_mapSlots (by omega) (by omega) fun i before => ?_
  rw [erased]
  exact Array.getElem?_eraseIdx_of_lt inside (Nat.lt_of_lt_of_le before above)

theorem Fits.guards_set {s : State E} (fits : s.Fits) {p : Nat} (above : s.base ≤ p)
    (v : Value) : s.Guards (s.mapSlots (·.setIfInBounds p v)) := by
  have size : (s.stack.slots.setIfInBounds p v).size = s.stack.size := Array.size_setIfInBounds
  refine fits.guards_mapSlots ?_ ?_ fun i before => ?_
  · rw [size]
    exact fits.size_le_maxDepth
  · rw [size]
    exact fits.framed
  · exact Array.getElem?_setIfInBounds_ne (by omega)

theorem Fits.guards_fill {s : State E} (fits : s.Fits) {n : Nat} (room : n ≤ s.stack.maxDepth)
    (longer : s.stack.size ≤ n) :
    s.Guards (s.mapSlots fun a => a ++ Array.replicate (n - a.size) .nil) := by
  have framed := fits.framed
  have size : (s.stack.slots ++ Array.replicate (n - s.stack.slots.size) Value.nil).size = n := by
    rw [Array.size_append, Array.size_replicate]
    exact Nat.add_sub_of_le longer
  refine fits.guards_mapSlots (by omega) (by omega) fun i before => ?_
  exact Array.getElem?_append_left (Nat.lt_of_lt_of_le before framed)

end State

namespace Run
open State
variable {E : Embedding} {α : Type}

theorem push_eq (v : Value) (s : State E) :
    push v s = if s.stack.isFull then .error (.raised .stackOverflow) s
      else .ok () (s.mapSlots (·.push v)) := by
  cases full : s.stack.isFull <;> simp [push, full]

theorem push_of_room {s : State E} (room : s.stack.size < s.stack.maxDepth) (v : Value) :
    push v s = .ok () (s.mapSlots (·.push v)) := by
  have free : s.stack.isFull = false := Stack.free_iff.mpr room
  rw [push_eq, free]
  rfl

theorem pushAll_cons {s : State E} {v : Value} {vs : List Value}
    (room : s.stack.size + (v :: vs).length ≤ s.stack.maxDepth) :
    pushAll (v :: vs) s = .ok () (s.mapSlots (· ++ (v :: vs).toArray)) := by
  induction vs generalizing v s with
  | nil =>
    rw [pushAll, bind_eq, push_of_room room]
    rfl
  | cons w vs ih =>
    rw [List.length_cons] at room
    have size : (s.mapSlots (·.push v)).stack.size = s.stack.size + 1 := Array.size_push v
    have limit : (s.mapSlots (·.push v)).stack.maxDepth = s.stack.maxDepth := rfl
    rw [pushAll, bind_eq, push_of_room (by omega)]
    refine (ih (by omega)).trans (congrArg _ ?_)
    rw [mapSlots_mapSlots]
    · apply mapSlots_congr
      simp
    · rw [Array.size_append]
      omega

theorem pop_eq (s : State E) :
    pop s = if s.stack.size ≤ s.base then .error (.raised .stackUnderflow) s
      else match s.stack.top? with
      | some v => .ok v (s.mapSlots (·.pop))
      | none => .error (.raised .stackUnderflow) s := by
  rw [pop, bind_eq, get_eq]
  by_cases empty : s.stack.size ≤ s.base
  · simp [empty]
  · cases top : s.stack.top? <;> simp [empty, top]

theorem drop_eq (n : Nat) (s : State E) :
    drop n s = if Stack.wrapped s.top < n then .error (.raised .stackUnderflow) s
      else if n ≤ s.stack.size then .ok () (s.mapSlots (·.take (s.stack.size - n)))
      else .ok () s := by
  by_cases short : Stack.wrapped s.top < n
  · simp [drop, short]
  · by_cases room : n ≤ s.stack.size
    · simp [drop, short, room, truncate]
    · simp [drop, short, room]

theorem drop_of_framed {s : State E} (framed : s.base ≤ s.stack.size) (n : Nat) :
    drop n s = if s.top < n then .error (.raised .stackUnderflow) s
      else .ok () (s.mapSlots (·.take (s.stack.size - n))) := by
  have top : s.top = (s.stack.size : Int) - s.base := rfl
  rw [drop_eq, wrapped_of_nonneg (by omega)]
  by_cases short : s.top < n
  · rw [if_pos (by omega), if_pos short]
  · rw [if_neg (by omega), if_neg short, if_pos (by omega)]

theorem resize_eq (n : Nat) (s : State E) :
    resize n s = if n < s.stack.size then .ok () (s.mapSlots (·.take n))
      else if s.stack.maxDepth < n then .error (.raised .stackOverflow) s
      else .ok () (s.mapSlots fun a => a ++ Array.replicate (n - a.size) .nil) := by
  by_cases shorter : n < s.stack.size
  · simp [resize, shorter, truncate]
  · by_cases excess : s.stack.maxDepth < n
    · simp [resize, shorter, excess]
    · simp [resize, shorter, excess]

theorem setTop_eq (index : Int) (s : State E) :
    setTop index s = if 0 ≤ index then resize (s.base + index.toNat) s
      else match s.position index with
      | .ok p => resize (if s.top < 0 then (p + 1) % 0x10000000000000000 else p + 1) s
      | .error e => .error (.raised e) s := by
  by_cases forward : 0 ≤ index
  · simp [setTop, forward]
  · cases position : s.position index <;> simp [setTop, forward, position]

theorem setTop_of_framed {s : State E} (framed : s.base ≤ s.stack.size) (index : Int) :
    setTop index s = if 0 ≤ index then resize (s.base + index.toNat) s
      else match s.position index with
      | .ok p => resize (p + 1) s
      | .error e => .error (.raised e) s := by
  have within : ¬s.top < 0 := by
    have top : s.top = (s.stack.size : Int) - s.base := rfl
    omega
  simp only [setTop_eq, if_neg within]

theorem insert_eq (index : Int) (s : State E) :
    insert index s = match s.position index with
      | .error e => .error (.raised e) s
      | .ok p => match pop s with
        | .error e t => .error e t
        | .ok v t =>
          if t.stack.size < p then .error (.raised .stackUnderflow) t
          else if t.stack.isFull then .error (.raised .stackOverflow) t
          else .ok () (t.mapSlots (·.insertIdxIfInBounds p v)) := by
  cases position : s.position index with
  | error e => simp [insert, position]
  | ok p =>
    cases popped : pop s with
    | error e t => simp [insert, position, popped]
    | ok v t =>
      by_cases below : t.stack.size < p
      · simp [insert, position, popped, below]
      · cases full : t.stack.isFull <;> simp [insert, position, popped, below, full]

theorem remove_eq (index : Int) (s : State E) :
    remove index s = match s.position index with
      | .error e => .error (.raised e) s
      | .ok p =>
        if s.stack.size ≤ p then .error (.raised .stackUnderflow) s
        else .ok () (s.mapSlots (·.eraseIdxIfInBounds p)) := by
  cases position : s.position index with
  | error e => simp [remove, position]
  | ok p => by_cases beyond : s.stack.size ≤ p <;> simp [remove, position, beyond]

theorem replace_eq (index : Int) (s : State E) :
    replace index s = match s.position index with
      | .error e => .error (.raised e) s
      | .ok p => match pop s with
        | .error e t => .error e t
        | .ok v t =>
          if t.stack.size ≤ p then push v t
          else .ok () (t.mapSlots (·.setIfInBounds p v)) := by
  cases position : s.position index with
  | error e => simp [replace, position]
  | ok p =>
    cases popped : pop s with
    | error e t => simp [replace, position, popped]
    | ok v t => by_cases beyond : t.stack.size ≤ p <;> simp [replace, position, popped, beyond]

theorem push_guards (v : Value) : Respects Guards (push v : Run E Unit) := by
  intro s fits
  rw [final, push_eq]
  cases full : s.stack.isFull with
  | true => exact Guards.refl s fits
  | false => exact fits.guards_push full v fits

theorem top?_isSome {s : State E} (nonempty : s.base < s.stack.size) :
    ∃ v, s.stack.top? = some v := by
  have positive : 0 < s.stack.slots.size := Nat.lt_of_le_of_lt (Nat.zero_le _) nonempty
  refine ⟨s.stack.slots[s.stack.slots.size - 1], ?_⟩
  rw [Stack.top?, Array.back?_eq_getElem?, Array.getElem?_eq_getElem]

theorem pop_guards : Respects Guards (pop : Run E Value) := by
  intro s fits
  rw [final, pop_eq]
  by_cases empty : s.stack.size ≤ s.base
  · rw [if_pos empty]
    exact Guards.refl s fits
  · have nonempty := Nat.lt_of_not_le empty
    obtain ⟨v, top⟩ := top?_isSome nonempty
    rw [if_neg empty, top]
    exact fits.guards_pop nonempty fits

theorem drop_guards (n : Nat) : Respects Guards (drop n : Run E Unit) := by
  intro s fits
  have framed := fits.framed
  have top : s.top = (s.stack.size : Int) - s.base := rfl
  rw [final, drop_of_framed framed]
  by_cases short : s.top < n
  · rw [if_pos short]
    exact Guards.refl s fits
  · rw [if_neg short]
    exact fits.guards_truncate (by omega) fits

theorem resize_final {s : State E} (fits : s.Fits) {n : Nat} (above : s.base ≤ n) :
    s.Guards ((resize n).final s) := by
  rw [final, resize_eq]
  by_cases shorter : n < s.stack.size
  · rw [if_pos shorter]
    exact fits.guards_truncate above
  · by_cases excess : s.stack.maxDepth < n
    · rw [if_neg shorter, if_pos excess]
      exact Guards.refl s
    · rw [if_neg shorter, if_neg excess]
      exact fits.guards_fill (Nat.le_of_not_lt excess) (Nat.le_of_not_lt shorter)

theorem setTop_guards (index : Int) : Respects Guards (setTop index : Run E Unit) := by
  intro s fits
  rw [final, setTop_of_framed fits.framed]
  by_cases forward : 0 ≤ index
  · rw [if_pos forward]
    exact resize_final fits (Nat.le_add_right _ _) fits
  · rw [if_neg forward]
    cases position : s.position index with
    | error e => exact Guards.refl s fits
    | ok p =>
      have bounds := position_bounds fits.framed position
      exact resize_final fits (Nat.le_succ_of_le bounds.1) fits

theorem insert_guards (index : Int) : Respects Guards (insert index : Run E Unit) := by
  intro s fits catches
  rw [final, insert_eq]
  cases position : s.position index with
  | error e => exact Guards.refl s fits catches
  | ok p =>
    have bounds := position_bounds fits.framed position
    simp only
    cases popped : pop s with
    | error e t => exact pop_guards.of_error popped fits catches
    | ok v t =>
      have step := pop_guards.of_ok popped
      obtain ⟨fits', within⟩ := step fits catches
      have above : t.base ≤ p := within.base ▸ bounds.1
      by_cases beyond : t.stack.size < p
      · simp only [if_pos beyond]
        exact ⟨fits', within⟩
      · cases full : t.stack.isFull with
        | true =>
          simp only [if_neg beyond, full, if_true]
          exact ⟨fits', within⟩
        | false =>
          simp only [if_neg beyond, full, Bool.false_eq_true, if_false]
          exact step.trans (fits'.guards_insert full above v) fits catches

theorem remove_guards (index : Int) : Respects Guards (remove index : Run E Unit) := by
  intro s fits
  rw [final, remove_eq]
  cases position : s.position index with
  | error e => exact Guards.refl s fits
  | ok p =>
    have bounds := position_bounds fits.framed position
    simp only [if_neg (Nat.not_le_of_lt bounds.2)]
    exact fits.guards_remove bounds.1 bounds.2 fits

theorem replace_guards (index : Int) : Respects Guards (replace index : Run E Unit) := by
  intro s fits catches
  rw [final, replace_eq]
  cases position : s.position index with
  | error e => exact Guards.refl s fits catches
  | ok p =>
    have bounds := position_bounds fits.framed position
    simp only
    cases popped : pop s with
    | error e t => exact pop_guards.of_error popped fits catches
    | ok v t =>
      have step := pop_guards.of_ok popped
      obtain ⟨fits', within⟩ := step fits catches
      have above : t.base ≤ p := within.base ▸ bounds.1
      by_cases beyond : t.stack.size ≤ p
      · simp only [if_pos beyond]
        exact step.trans (push_guards v t) fits catches
      · simp only [if_neg beyond]
        exact step.trans (fits'.guards_set above v) fits catches

end Run
end HostBridge
