import HostBridge.Proofs.Run.Relative
/-!
Isolation from the slots below a frame. A run is isolated above `floor` if other scalars in the
slots below `floor` make no difference to it: it gives the same answer or error, does the same to
everything else, and leaves those slots alone. Where frames begin at or above `floor`, the
operations on the frame are isolated, and so is what is composed of isolated runs.
-/
namespace HostBridge

/-- `slots` with `low` in place of as many of the lowest ones. -/
def overlay (low slots : Array Value) : Array Value := low ++ slots.extract low.size slots.size

theorem getElem?_overlay (low slots : Array Value) (i : Nat) :
    (overlay low slots)[i]? = if i < low.size then low[i]? else slots[i]? := by
  unfold overlay
  by_cases below : i < low.size
  · rw [if_pos below, Array.getElem?_append_left below]
  · have above : low.size ≤ i := Nat.le_of_not_lt below
    rw [if_neg below, Array.getElem?_append_right above, Array.getElem?_extract]
    by_cases inside : i < slots.size
    · rw [if_pos (by omega), Nat.add_sub_cancel' above]
    · rw [if_neg (by omega), Array.getElem?_eq_none (by omega)]

theorem overlay_eq_of_getElem? {low slots other : Array Value}
    (below : ∀ i, i < low.size → other[i]? = low[i]?)
    (above : ∀ i, low.size ≤ i → other[i]? = slots[i]?) : other = overlay low slots := by
  apply Array.ext_getElem?
  intro i
  rw [getElem?_overlay]
  by_cases h : i < low.size
  · rw [if_pos h, below i h]
  · rw [if_neg h, above i (Nat.le_of_not_lt h)]

section Overlay
variable {low slots : Array Value} (le : low.size ≤ slots.size)
include le

@[simp] theorem size_overlay : (overlay low slots).size = slots.size := by
  simp only [overlay, Array.size_append, Array.size_extract]
  omega

theorem overlay_push (v : Value) : (overlay low slots).push v = overlay low (slots.push v) := by
  apply overlay_eq_of_getElem?
  · intro i below
    rw [Array.getElem?_push, size_overlay le, if_neg (by omega), getElem?_overlay, if_pos below]
  · intro i above
    rw [Array.getElem?_push, size_overlay le, getElem?_overlay, if_neg (Nat.not_lt.mpr above),
      Array.getElem?_push]

theorem overlay_append (vs : Array Value) :
    overlay low slots ++ vs = overlay low (slots ++ vs) := by
  apply overlay_eq_of_getElem?
  · intro i below
    rw [Array.getElem?_append, size_overlay le, if_pos (by omega), getElem?_overlay, if_pos below]
  · intro i above
    rw [Array.getElem?_append, size_overlay le, getElem?_overlay, if_neg (Nat.not_lt.mpr above),
      Array.getElem?_append]

theorem overlay_take {n : Nat} (floor : low.size ≤ n) :
    (overlay low slots).take n = overlay low (slots.take n) := by
  simp only [Array.take_eq_extract]
  apply overlay_eq_of_getElem?
  · intro i below
    rw [Array.getElem?_extract, size_overlay le, if_pos (by omega), Nat.zero_add,
      getElem?_overlay, if_pos below]
  · intro i above
    rw [Array.getElem?_extract, size_overlay le, Nat.zero_add, getElem?_overlay,
      if_neg (Nat.not_lt.mpr above), Array.getElem?_extract, Nat.zero_add]

theorem overlay_extract {start stop : Nat} (above : low.size ≤ start) :
    (overlay low slots).extract start stop = slots.extract start stop := by
  apply Array.ext_getElem?
  intro i
  rw [Array.getElem?_extract, Array.getElem?_extract, size_overlay le, getElem?_overlay,
    if_neg (by omega : ¬start + i < low.size)]

theorem overlay_pop (nonempty : low.size < slots.size) :
    (overlay low slots).pop = overlay low slots.pop := by
  apply overlay_eq_of_getElem?
  · intro i below
    rw [Array.getElem?_pop, size_overlay le, if_pos (by omega), getElem?_overlay, if_pos below]
  · intro i above
    rw [Array.getElem?_pop, size_overlay le, getElem?_overlay, if_neg (Nat.not_lt.mpr above),
      Array.getElem?_pop]

theorem overlay_insert {p : Nat} (floor : low.size ≤ p) (v : Value) :
    (overlay low slots).insertIdxIfInBounds p v = overlay low (slots.insertIdxIfInBounds p v) := by
  unfold Array.insertIdxIfInBounds
  by_cases inside : p ≤ slots.size
  · have inside' : p ≤ (overlay low slots).size := by rwa [size_overlay le]
    rw [dif_pos inside, dif_pos inside']
    apply overlay_eq_of_getElem?
    · intro i below
      rw [Array.getElem?_insertIdx_of_lt inside' (by omega), getElem?_overlay, if_pos below]
    · intro i above
      rw [Array.getElem?_insertIdx, Array.getElem?_insertIdx, size_overlay le, getElem?_overlay,
        getElem?_overlay, if_neg (Nat.not_lt.mpr above)]
      by_cases before : i < p
      · rw [if_pos before, if_pos before]
      · by_cases here : i = p
        · rw [if_neg before, if_neg before, if_pos here, if_pos here]
        · rw [if_neg before, if_neg before, if_neg here, if_neg here, if_neg (by omega)]
  · have inside' : ¬p ≤ (overlay low slots).size := by rwa [size_overlay le]
    rw [dif_neg inside, dif_neg inside']

theorem overlay_erase {p : Nat} (floor : low.size ≤ p) (inside : p < slots.size) :
    (overlay low slots).eraseIdxIfInBounds p = overlay low (slots.eraseIdxIfInBounds p) := by
  have inside' : p < (overlay low slots).size := by rwa [size_overlay le]
  rw [← Array.eraseIdx_eq_eraseIdxIfInBounds inside, ← Array.eraseIdx_eq_eraseIdxIfInBounds inside']
  apply overlay_eq_of_getElem?
  · intro i below
    rw [Array.getElem?_eraseIdx_of_lt inside' (by omega), getElem?_overlay, if_pos below]
  · intro i above
    rw [Array.getElem?_eraseIdx, Array.getElem?_eraseIdx, getElem?_overlay, getElem?_overlay,
      if_neg (Nat.not_lt.mpr above), if_neg (by omega : ¬i + 1 < low.size)]

theorem overlay_set {p : Nat} (floor : low.size ≤ p) (v : Value) :
    (overlay low slots).setIfInBounds p v = overlay low (slots.setIfInBounds p v) := by
  apply overlay_eq_of_getElem?
  · intro i below
    rw [Array.getElem?_setIfInBounds_ne (by omega), getElem?_overlay, if_pos below]
  · intro i above
    rw [Array.getElem?_setIfInBounds, Array.getElem?_setIfInBounds, size_overlay le,
      getElem?_overlay, if_neg (Nat.not_lt.mpr above)]

end Overlay

namespace State
variable {E : Embedding} {others : Prop} {floor limit : Nat} {s t : State E} {low : Array Value}

def beneath (s : State E) (low : Array Value) : State E :=
  { s with stack := { s.stack with slots := overlay low s.stack.slots } }

@[simp] theorem heap_beneath : (s.beneath low).heap = s.heap := rfl
@[simp] theorem base_beneath : (s.beneath low).base = s.base := rfl
@[simp] theorem callDepth_beneath : (s.beneath low).callDepth = s.callDepth := rfl
@[simp] theorem config_beneath : (s.beneath low).config = s.config := rfl
@[simp] theorem world_beneath : (s.beneath low).world = s.world := rfl
@[simp] theorem maxDepth_beneath : (s.beneath low).stack.maxDepth = s.stack.maxDepth := rfl
@[simp] theorem slots_beneath : (s.beneath low).stack.slots = overlay low s.stack.slots := rfl

/-- The frame of `s` begins at `floor` or higher, within a stack of at most `limit` slots. -/
structure Above (floor limit : Nat) (s : State E) : Prop where
  base : floor ≤ s.base
  framed : s.base ≤ s.stack.size
  bounded : s.stack.size ≤ s.stack.maxDepth
  limit : s.stack.maxDepth = limit

/-- Wherever `low` differs from the lowest slots of `s`, both hold scalars. Without `others` it does
not differ at all. -/
def Exchanges (others : Prop) (s : State E) (low : Array Value) : Prop :=
  ∀ (i : Nat) v w, low[i]? = some v → s.stack.slots[i]? = some w →
    v = w ∨ others ∧ v.isReference = false ∧ w.isReference = false

/-- The stack of `t` reaches at least as far as the frame of `s` and stays within the same limit. -/
structure Covers (s t : State E) : Prop where
  framed : s.base ≤ t.stack.size
  bounded : t.stack.size ≤ t.stack.maxDepth
  maxDepth : t.stack.maxDepth = s.stack.maxDepth

theorem Above.covers (above : s.Above floor limit) : s.Covers s :=
  ⟨above.framed, above.bounded, rfl⟩

theorem Above.of_covers (above : s.Above floor limit) (covers : s.Covers t)
    (base : t.base = s.base) : t.Above floor limit where
  base := base ▸ above.base
  framed := base ▸ covers.framed
  bounded := covers.bounded
  limit := covers.maxDepth.trans above.limit

theorem Above.floor_le (above : s.Above floor limit) : floor ≤ s.stack.slots.size :=
  Nat.le_trans above.base above.framed

section Beneath
variable (above : s.Above low.size limit)
include above

@[simp] theorem size_beneath : (s.beneath low).stack.size = s.stack.size :=
  size_overlay above.floor_le

@[simp] theorem isFull_beneath : (s.beneath low).stack.isFull = s.stack.isFull :=
  congrArg (fun n => decide (s.stack.maxDepth ≤ n)) (size_beneath above)

@[simp] theorem top_beneath : (s.beneath low).top = s.top :=
  congrArg (fun n : Nat => (n : Int) - s.base) (size_beneath above)

@[simp] theorem position_beneath (index : Int) :
    (s.beneath low).position index = s.position index := by
  simp only [position, size_beneath above, top_beneath above, base_beneath]

omit above in
theorem get_beneath {i : Nat} (inside : low.size ≤ i) :
    (s.beneath low).stack.get i = s.stack.get i := by
  simp only [Stack.get, slots_beneath, getElem?_overlay, if_neg (Nat.not_lt.mpr inside)]

theorem slot_beneath (index : Int) : (s.beneath low).slot index = s.slot index := by
  simp only [slot, position_beneath above]
  cases found : s.position index with
  | error e => rfl
  | ok p =>
    have bounds := position_bounds above.framed found
    exact get_beneath (Nat.le_trans above.base bounds.1)

theorem absolute_beneath (index : Int) : (s.beneath low).absolute index = s.absolute index := by
  simp only [absolute, position_beneath above, base_beneath, top_beneath above]

theorem top?_beneath (nonempty : s.base < s.stack.size) :
    (s.beneath low).stack.top? = s.stack.top? := by
  have floor : ¬s.stack.slots.size - 1 < low.size := by
    have base := above.base
    have nonempty : s.base < s.stack.slots.size := nonempty
    omega
  simp only [Stack.top?, Array.back?_eq_getElem?, slots_beneath, size_overlay above.floor_le,
    getElem?_overlay, if_neg floor]

theorem extract_beneath {start : Nat} (inside : low.size ≤ start) (stop : Nat) :
    (s.beneath low).stack.slots.extract start stop = s.stack.slots.extract start stop :=
  overlay_extract above.floor_le inside

theorem resembles_beneath : (s.beneath low).Resembles s where
  heap := rfl
  config := rfl
  callDepth := rfl
  top := top_beneath above
  slot := slot_beneath above
  absolute := absolute_beneath above

/-- Arguments are in the frame, as long as their positions do not wrap around. -/
theorem argument_beneath {n : Nat} (small : n + limit ≤ 0x10000000000000000) :
    (s.beneath low).argument n = s.argument n := by
  unfold argument
  by_cases none : n = 0
  · rw [if_pos none, if_pos none]
  · have base := above.base
    have framed := above.framed
    have bounded := above.bounded
    have le := above.limit
    have exact : (s.base + n - 1) % 0x10000000000000000 = s.base + n - 1 :=
      Nat.mod_eq_of_lt (by omega)
    rw [if_neg none, if_neg none, base_beneath, exact]
    simp only [Array.getD_eq_getD_getElem?, slots_beneath, getElem?_overlay]
    rw [if_neg (by omega)]

end Beneath

theorem mapSlots_beneath {f : Array Value → Array Value}
    (keeps : low.size ≤ (f s.stack.slots).size)
    (commutes : f (overlay low s.stack.slots) = overlay low (f s.stack.slots)) :
    (s.beneath low).mapSlots f = (s.mapSlots f).beneath low := by
  simp only [mapSlots, beneath, commutes, size_overlay keeps]

theorem Exchanges.same {others : Prop} (apart : s.Exchanges others low) (none : ¬others) :
    s.Exchanges False low :=
  fun i v w new old => (apart i v w new old).imp_right fun mixed => absurd mixed.1 none

theorem beneath_of_same (le : low.size ≤ s.stack.slots.size) (same : s.Exchanges False low) :
    s.beneath low = s := by
  have slots : overlay low s.stack.slots = s.stack.slots := by
    symm
    apply overlay_eq_of_getElem?
    · intro i below
      have v := Array.getElem?_eq_getElem below
      have w := Array.getElem?_eq_getElem (Nat.lt_of_lt_of_le below le)
      rcases same i _ _ v w with same | ⟨impossible, -⟩
      · rw [v, w, same]
      · exact impossible.elim
    · intro i _
      rfl
  simp only [beneath, slots]

theorem exchanges_take (others : Prop) (s : State E) (floor : Nat) :
    s.Exchanges others (s.stack.slots.take floor) := by
  intro i v w low own
  apply Or.inl
  rw [Array.take_eq_extract, Array.getElem?_extract] at low
  split at low
  · rw [Nat.zero_add, own] at low
    exact (Option.some.inj low).symm
  · contradiction

/-- The lowest slots of a state, put beneath it, make no difference. -/
theorem beneath_take (le : floor ≤ s.stack.slots.size) :
    s.beneath (s.stack.slots.take floor) = s := by
  have size : (s.stack.slots.take floor).size = floor := by
    simp only [Array.take_eq_extract, Array.size_extract]
    omega
  exact beneath_of_same (Nat.le_trans (Nat.le_of_eq size) le) (s.exchanges_take False floor)

end State

namespace Run
open State
variable {E : Embedding} {α β : Type} {others : Prop} {floor limit : Nat} {s : State E}

/-- From `s` on, what the slots below `floor` hold makes no difference to the run. -/
structure ConfinedAt (others : Prop) (floor : Nat) (s : State E) (m : Run E α) : Prop where
  covers : s.Covers (m.final s)
  blind : ∀ low : Array Value, low.size = floor → s.Exchanges others low →
    m (s.beneath low) = mapState (·.beneath low) (m s)

/-- Unless the run panics, it also goes back to the frame that it began in. -/
structure IsolatedAt (others : Prop) (floor : Nat) (s : State E) (m : Run E α) : Prop
    extends ConfinedAt others floor s m where
  base_of_ok : ∀ a t, m s = .ok a t → t.base = s.base
  base_of_raised : ∀ e t, m s = .error (.raised e) t → t.base = s.base

def Isolated (others : Prop) (floor limit : Nat) (m : Run E α) : Prop :=
  ∀ s, s.Above floor limit → IsolatedAt others floor s m

/-- A run that makes no difference between the slots below `floor` does not change them either. -/
theorem ConfinedAt.below {m : Run E α} (confined : ConfinedAt others floor s m)
    (above : s.Above floor limit) {i : Nat} (before : i < floor) :
    (m.final s).stack.slots[i]? = s.stack.slots[i]? := by
  have le := above.floor_le
  have size : (s.stack.slots.take floor).size = floor := size_take le
  have same := confined.blind _ size (s.exchanges_take others floor)
  rw [beneath_take le] at same
  rw [final_mapState (t := s) (g := (·.beneath (s.stack.slots.take floor))) same, slots_beneath,
    getElem?_overlay, if_pos (by omega), Array.take_eq_extract, Array.getElem?_extract,
    if_pos (by omega), Nat.zero_add]

theorem ConfinedAt.exchanges {m : Run E α} (confined : ConfinedAt others floor s m)
    (above : s.Above floor limit) {low : Array Value} (size : low.size = floor)
    (exchanges : s.Exchanges others low) : (m.final s).Exchanges others low := by
  intro i v w new old
  have before : i < floor := size ▸ (Array.getElem?_eq_some_iff.mp new).1
  rw [confined.below above before] at old
  exact exchanges i v w new old

theorem eq_here {m n : Run E α} (above : s.Above floor limit)
    (same : ∀ low : Array Value, low.size = floor → s.Exchanges others low →
      m (s.beneath low) = n (s.beneath low)) : m s = n s := by
  have here := same _ (size_take above.floor_le) (s.exchanges_take others floor)
  rwa [beneath_take above.floor_le] at here

theorem ConfinedAt.congr {m n : Run E α} (confined : ConfinedAt others floor s n)
    (above : s.Above floor limit) (same : ∀ low : Array Value, low.size = floor →
      s.Exchanges others low → m (s.beneath low) = n (s.beneath low)) :
    ConfinedAt others floor s m where
  covers := by
    have covers := confined.covers
    unfold final at covers ⊢
    rwa [eq_here above same]
  blind low size exchanges := by
    rw [eq_here above same, same low size exchanges]
    exact confined.blind low size exchanges

/-- It is enough to look at the states with other values below the floor; the state itself is one of
them. -/
theorem IsolatedAt.congr {m n : Run E α} (isolated : IsolatedAt others floor s n)
    (above : s.Above floor limit) (same : ∀ low : Array Value, low.size = floor →
      s.Exchanges others low → m (s.beneath low) = n (s.beneath low)) :
    IsolatedAt others floor s m where
  toConfinedAt := isolated.toConfinedAt.congr above same
  base_of_ok a t ran := isolated.base_of_ok a t (eq_here above same ▸ ran)
  base_of_raised e t ran := isolated.base_of_raised e t (eq_here above same ▸ ran)

/-! The rules of the judgement. -/

theorem OffFrame.isolated {m : Run E α} (off : OffFrame m) : Isolated others floor limit m := by
  intro s above
  have kept : ∀ t, m.final s = t → t.stack = s.stack ∧ t.base = s.base := by
    intro t ended
    rw [← ended, off.final_eq s]
    exact ⟨rfl, rfl⟩
  constructor
  · constructor
    · obtain ⟨stack, -⟩ := kept _ rfl
      constructor
      · rw [stack]
        exact above.framed
      · rw [stack]
        exact above.bounded
      · rw [stack]
    · intro low size exchanges
      have there := off s (s.beneath low)
      have here := off s s
      rw [inFrameOf_self] at here
      change m (s.beneath low) = _ at there
      rw [there, here]
      cases m s <;> rfl
  · intro a t ran
    exact (kept t (final_of_ok ran)).2
  · intro e t ran
    exact (kept t (final_of_error ran)).2

theorem isolated_keeping (vs : List Value) {m : Run E α} (h : Isolated others floor limit m) :
    Isolated others floor limit (keeping vs m) := by
  cases vs with
  | nil => exact h
  | cons v vs =>
    intro s above
    obtain ⟨⟨covers, blind⟩, returned, raised⟩ := h (s.awaiting (v :: vs ++ s.waiting))
      ⟨above.base, above.framed, above.bounded, above.limit⟩
    refine ⟨⟨?_, fun low size apart => ?_⟩, fun a t ran => ?_, fun e t ran => ?_⟩
    · rw [final_keeping]
      exact ⟨covers.framed, covers.bounded, covers.maxDepth⟩
    · have same : m ((s.beneath low).awaiting (v :: vs ++ s.waiting)) = _ := blind low size apart
      have waiting : (s.beneath low).waiting = s.waiting := rfl
      rw [keeping_cons, keeping_cons, waiting, same]
      cases m (s.awaiting (v :: vs ++ s.waiting)) <;> rfl
    · obtain ⟨u, inner, rfl⟩ := of_keeping_ok ran
      exact returned a u inner
    · obtain ⟨u, inner, rfl⟩ := of_keeping_error ran
      exact raised e u inner

theorem isolated_pure (a : α) : Isolated others floor limit (pure a : Run E α) :=
    (offFrame_pure a).isolated

theorem isolated_raise (e : Error) : Isolated others floor limit (raise e : Run E α) :=
  (offFrame_raise e).isolated

theorem isolated_throw (f : Fault) : Isolated others floor limit (throw f : Run E α) :=
  (offFrame_throw f).isolated

theorem isolated_ofExcept (r : Except Error α) :
    Isolated others floor limit (ofExcept r : Run E α) :=
  (offFrame_ofExcept r).isolated

/-- A run that goes on in `t`, where it has come to without a difference. -/
theorem IsolatedAt.after {t : State E} {m n : Run E α} (later : IsolatedAt others floor t m)
    (covers : s.Covers t) (base : t.base = s.base) (here : n s = m t)
    (there : ∀ low : Array Value, low.size = floor → s.Exchanges others low →
      t.Exchanges others low ∧ n (s.beneath low) = m (t.beneath low)) :
    IsolatedAt others floor s n := by
  constructor
  · constructor
    · have covers' := later.covers
      unfold final at covers' ⊢
      rw [here]
      exact ⟨base ▸ covers'.framed, covers'.bounded, covers'.maxDepth.trans covers.maxDepth⟩
    · intro low size apart
      obtain ⟨apart', same⟩ := there low size apart
      rw [same, here]
      exact later.blind low size apart'
  · intro b u ran
    exact (later.base_of_ok b u (here ▸ ran)).trans base
  · intro e u ran
    exact (later.base_of_raised e u (here ▸ ran)).trans base

/-- A run that goes on after an answer and after an error; a panic ends it where it arose. -/
theorem IsolatedAt.branch {m : Run E α} {f : α → Run E β} {g : Error → Run E β} {n : Run E β}
    (above : s.Above floor limit) (first : IsolatedAt others floor s m)
    (steps : ∀ u, n u = match m u with
      | .ok a t => f a t
      | .error (.raised e) t => g e t
      | .error (.panicked p) t => .error (.panicked p) t)
    (returned : ∀ a t, m s = .ok a t → t.Above floor limit → IsolatedAt others floor t (f a))
    (raised : ∀ e t, m s = .error (.raised e) t → t.Above floor limit →
      IsolatedAt others floor t (g e)) :
    IsolatedAt others floor s n := by
  have covers := first.covers
  have exchanges : ∀ low : Array Value, low.size = floor → s.Exchanges others low →
      (m.final s).Exchanges others low :=
    fun _ size apart => first.toConfinedAt.exchanges above size apart
  have blind := first.blind
  unfold final at covers exchanges
  cases ran : m s with
  | ok a t =>
    simp only [ran] at covers exchanges blind
    have base := first.base_of_ok a t ran
    apply (returned a t ran (above.of_covers covers base)).after covers base
    · rw [steps, ran]
    · intro low size apart
      rw [steps, blind low size apart]
      exact ⟨exchanges low size apart, rfl⟩
  | error fault t =>
    simp only [ran] at covers exchanges blind
    cases fault with
    | raised e =>
      have base := first.base_of_raised e t ran
      apply (raised e t ran (above.of_covers covers base)).after covers base
      · rw [steps, ran]
      · intro low size apart
        rw [steps, blind low size apart]
        exact ⟨exchanges low size apart, rfl⟩
    | panicked p =>
      have ended : n s = .error (.panicked p) t := by rw [steps, ran]
      constructor
      · constructor
        · rw [final_of_error ended]
          exact covers
        · intro low size apart
          rw [ended, steps, blind low size apart]
          rfl
      · intro b u other
        rw [ended] at other
        contradiction
      · intro e u other
        rw [ended] at other
        cases other

theorem IsolatedAt.bind {m : Run E α} {f : α → Run E β} (above : s.Above floor limit)
    (first : IsolatedAt others floor s m)
    (rest : ∀ a t, m s = .ok a t → t.Above floor limit → IsolatedAt others floor t (f a)) :
    IsolatedAt others floor s (m >>= f) := by
  apply first.branch above (g := raise) _ rest
  · intro e t _ above'
    exact (offFrame_raise e).isolated t above'
  · intro u
    rw [bind_eq]
    cases m u with
    | ok a t => rfl
    | error fault t => cases fault <;> rfl

theorem isolated_bind {m : Run E α} {f : α → Run E β} (first : Isolated others floor limit m)
    (rest : ∀ a, Isolated others floor limit (f a)) : Isolated others floor limit (m >>= f) :=
  fun s above => (first s above).bind above fun a t _ above' => rest a t above'

/-- A step may look at everything that the slots below the floor do not show in. -/
theorem IsolatedAt.get_bind {f : State E → Run E α} (isolated : IsolatedAt others floor s (f s))
    (above : s.Above floor limit)
    (blind : ∀ low : Array Value, low.size = floor → s.Exchanges others low →
      f (s.beneath low) = f s) :
    IsolatedAt others floor s (get >>= f) := by
  apply isolated.congr above
  intro low size exchanges
  exact congrFun (blind low size exchanges) _

theorem isolated_get_bind {f : State E → Run E α}
    (rest : ∀ s, s.Above floor limit → IsolatedAt others floor s (f s))
    (blind : ∀ (s : State E) (low : Array Value), s.Above low.size limit → low.size = floor →
      s.Exchanges others low → f (s.beneath low) = f s) :
    Isolated others floor limit (get >>= f) := by
  intro s above
  apply (rest s above).get_bind above
  intro low size exchanges
  exact blind s low (size ▸ above) size exchanges

theorem isolated_answer {f : State E → α}
    (blind : ∀ (s : State E) (low : Array Value), s.Above low.size limit → low.size = floor →
      s.Exchanges others low → f (s.beneath low) = f s) :
    Isolated others floor limit (get >>= fun s => pure (f s)) := by
  apply isolated_get_bind
  · intro s above
    exact isolated_pure (f s) s above
  · intro s low above size exchanges
    exact congrArg pure (blind s low above size exchanges)

theorem isolated_read {f : State E → Except Error α}
    (blind : ∀ (s : State E) (low : Array Value), s.Above low.size limit →
      f (s.beneath low) = f s) : Isolated others floor limit (read f) := by
  apply isolated_get_bind
  · intro s above
    exact isolated_ofExcept (f s) s above
  · intro s low above _ _
    exact congrArg ofExcept (blind s low above)

/-- A change of the slots that is the same whatever the slots below the floor hold. -/
theorem isolatedAt_mapSlots (above : s.Above floor limit) (a : α) {f : Array Value → Array Value}
    (framed : s.base ≤ (f s.stack.slots).size)
    (bounded : (f s.stack.slots).size ≤ s.stack.maxDepth)
    (commutes : ∀ low : Array Value, low.size = floor →
      f (overlay low s.stack.slots) = overlay low (f s.stack.slots)) :
    IsolatedAt others floor s (fun s => .ok a (s.mapSlots f)) := by
  constructor
  · constructor
    · exact ⟨framed, bounded, rfl⟩
    · intro low size _
      have keeps : low.size ≤ (f s.stack.slots).size := by
        rw [size]
        exact Nat.le_trans above.base framed
      simp only [mapSlots_beneath keeps (commutes low size), mapState]
  · intro b t ran
    cases ran
    rfl
  · intro e t ran
    cases ran

end Run
end HostBridge
