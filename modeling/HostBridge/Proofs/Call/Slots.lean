import HostBridge.Proofs.Call.Requests

namespace HostBridge

def locate (l : List Value) (index : Int) : Except Error Nat :=
  if 0 < index then
    if index ≤ l.length then .ok (index.toNat - 1) else .error (.invalidIndex index)
  else if index < 0 ∧ -index ≤ l.length then .ok (l.length - index.natAbs)
  else .error (.invalidIndex index)

theorem locate_lt {l : List Value} {i : Int} {p : Nat} (located : locate l i = .ok p) :
    p < l.length := by
  unfold locate at located
  split at located
  · split at located
    · cases located
      omega
    · cases located
  · split at located
    · cases located
      omega
    · cases located

theorem locate_error {l : List Value} {i : Int} {e : Error} (missing : locate l i = .error e) :
    e = .invalidIndex i := by
  unfold locate at missing
  split at missing
  · split at missing
    · cases missing
    · exact (Except.error.inj missing).symm
  · split at missing
    · cases missing
    · exact (Except.error.inj missing).symm

theorem last_of_located {l : List Value} {i : Int} {p : Nat} (located : locate l i = .ok p) :
    ∃ v, l.getLast? = some v ∧ l.getLastD .nil = v := by
  have some := List.ne_nil_of_length_pos (Nat.zero_lt_of_lt (locate_lt located))
  have last := List.getLast?_eq_some_getLast some
  exact ⟨_, last, by rw [List.getLastD_eq_getLast?, last]; rfl⟩

theorem locate_isOk_iff {l : List Value} {i : Int} :
    (∃ p, locate l i = .ok p) ↔ i ≠ 0 ∧ i.natAbs ≤ l.length := by
  unfold locate
  constructor
  · rintro ⟨p, located⟩
    split at located
    · split at located
      · omega
      · cases located
    · split at located
      · omega
      · cases located
  · rintro ⟨other, inside⟩
    by_cases forward : 0 < i
    · exact ⟨_, by rw [if_pos forward, if_pos (by omega)]⟩
    · exact ⟨_, by rw [if_neg forward, if_pos (by omega)]⟩

theorem locate_from_top {l : List Value} {i : Int} (forward : 0 < i) (inside : i ≤ l.length) :
    locate l (i - l.length - 1) = locate l i := by
  unfold locate
  rw [if_pos forward, if_pos inside, if_neg (by omega), if_pos (by omega)]
  congr 1
  omega

inductive SlotOp where
  | value (index : Int)
  | absolute (index : Int)
  | pushCopy (index : Int)
  | insert (index : Int)
  | remove (index : Int)
  | replace (index : Int)
  | setTop (index : Int)
  | drop (n : Nat)
  | pop

namespace SlotOp
variable {E : Embedding}

@[reducible] def Answer : SlotOp → Type
  | value _ | pop => Value
  | absolute _ => Int
  | _ => Unit

def action : (o : SlotOp) → Action E o.Answer
  | value i => Action.value i
  | absolute i => Action.absolute i
  | pushCopy i => Action.pushCopy i
  | insert i => Action.insert i
  | remove i => Action.remove i
  | replace i => Action.replace i
  | setTop i => Action.setTop i
  | drop n => Action.drop n
  | pop => Action.pop

def run : (o : SlotOp) → Run E o.Answer
  | value i => Run.read (·.slot i)
  | absolute i => Run.read (·.absolute i)
  | pushCopy i => Run.read (·.slot i) >>= Run.push
  | insert i => Run.insert i
  | remove i => Run.remove i
  | replace i => Run.replace i
  | setTop i => Run.setTop i
  | drop n => Run.drop n
  | pop => Run.pop

def onList (room : Nat) : (o : SlotOp) → List Value → Except Error (o.Answer × List Value)
  | value i, l => do
    let p ← locate l i
    return (l.getD p .nil, l)
  | absolute i, l => do
    let p ← locate l i
    return (p + 1, l)
  | pushCopy i, l => do
    let p ← locate l i
    if room ≤ l.length then throw .stackOverflow
    return ((), l ++ [l.getD p .nil])
  | insert i, l => do
    let p ← locate l i
    return ((), l.dropLast.insertIdx p (l.getLastD .nil))
  | remove i, l => do
    let p ← locate l i
    return ((), l.eraseIdx p)
  | replace i, l => do
    let p ← locate l i
    return ((), if p + 1 = l.length then l else l.dropLast.set p (l.getLastD .nil))
  | setTop i, l =>
    if i < 0 then do
      let p ← locate l i
      return ((), l.take (p + 1))
    else if i ≤ l.length then return ((), l.take i.toNat)
    else if room < i then throw .stackOverflow
    else return ((), l ++ List.replicate (i.toNat - l.length) .nil)
  | drop n, l => if l.length < n then throw .stackUnderflow else return ((), l.take (l.length - n))
  | pop, l => match l.getLast? with
    | some v => return (v, l.dropLast)
    | none => throw .stackUnderflow

end SlotOp

namespace State
variable {E : Embedding}

/-- The frame consists of the values `l`, `below` is what lies below it, and the stack keeps to its
limit. -/
structure Frames (s : State E) (below : Array Value) (l : List Value) : Prop where
  slots : s.stack.slots = below ++ l.toArray
  base : s.base = below.size
  bounded : s.stack.size ≤ s.stack.maxDepth

end State

namespace Run
open State
variable {E : Embedding} {α β : Type} {s : State E} {below : Array Value} {l : List Value}
  {room : Nat}

/-- The run does to the frame what is given for its list, and nothing else to the state; an error
leaves everything as it was. -/
def Follows (m : Run E α) (s : State E) (below : Array Value) :
    Except Error (α × List Value) → Prop
  | .ok (a, l) => ∃ peak, m s = .ok a (s.holding (below ++ l.toArray) peak)
  | .error e => m s = .error (.raised e) s

theorem Follows.congr {m n : Run E α} {r : Except Error (α × List Value)}
    (follows : Follows m s below r) (same : n s = m s) : Follows n s below r := by
  cases r with
  | ok r =>
    obtain ⟨peak, ran⟩ := follows
    exact ⟨peak, same.trans ran⟩
  | error e => exact same.trans follows

theorem Follows.ne_overflow {m : Run E α} {i : Int} {f : Nat → α × List Value}
    (follows : Follows m s below (locate l i >>= fun p => .ok (f p))) (t : State E) :
    m s ≠ .error (.raised .stackOverflow) t := by
  intro overflows
  cases located : locate l i with
  | ok p =>
    rw [located] at follows
    obtain ⟨peak, ran⟩ := follows
    rw [ran] at overflows
    contradiction
  | error e =>
    rw [located] at follows
    cases locate_error located
    have ran : m s = .error (.raised (.invalidIndex i)) s := follows
    rw [ran] at overflows
    cases overflows

theorem action_slotOp (enter : Enter E) (H : Host E) (o : SlotOp) :
    action enter H o.action = o.run := by
  cases o <;> simp [SlotOp.action, SlotOp.run, Action.pushCopy]

/-! The slots as one array. -/

section Slots
variable {v : Value}

theorem listed_push : (below ++ l.toArray).push v = below ++ (l ++ [v]).toArray := by
  simp

theorem listed_pop (some : l ≠ []) :
    (below ++ l.toArray).pop = below ++ l.dropLast.toArray := by
  apply Array.toList_inj.mp
  simp [List.dropLast_append_of_ne_nil some]

theorem listed_take (k : Nat) :
    (below ++ l.toArray).take (below.size + k) = below ++ (l.take k).toArray := by
  rw [append_take, List.take_toArray]

theorem listed_set (p : Nat) :
    (below ++ l.toArray).setIfInBounds (below.size + p) v = below ++ (l.set p v).toArray := by
  apply Array.toList_inj.mp
  simp

theorem listed_erase {p : Nat} (inside : p < l.length) :
    (below ++ l.toArray).eraseIdxIfInBounds (below.size + p) = below ++ (l.eraseIdx p).toArray := by
  rw [append_erase inside, List.eraseIdxIfInBounds_toArray]

theorem listed_insert {p : Nat} (le : p ≤ l.length) :
    (below ++ l.toArray).insertIdxIfInBounds (below.size + p) v =
      below ++ (l.insertIdx p v).toArray := by
  have inside : p ≤ l.toArray.size := le
  rw [append_insert, Array.insertIdxIfInBounds, dif_pos inside, List.insertIdx_toArray]

end Slots

theorem mapSlots_twice {f g : Array Value → Array Value} {slots : Array Value}
    (same : g (f s.stack.slots) = slots) :
    ∃ peak, (s.mapSlots f).mapSlots g = s.holding slots peak :=
  ⟨((s.mapSlots f).mapSlots g).peak, by simp only [mapSlots, holding, same]⟩

section Frame
variable (frame : s.Frames below l)
include frame

theorem size_of_frames : s.stack.size = below.size + l.length := by
  rw [Stack.size, frame.slots, Array.size_append]
  rfl

theorem framed_of_frames : s.base ≤ s.stack.size := by
  have size := size_of_frames frame
  have base := frame.base
  omega

theorem position_of_frames (i : Int) : s.position i = (locate l i).map (below.size + ·) := by
  have size := size_of_frames frame
  have top : s.top = l.length := by
    rw [State.top, size, frame.base]
    omega
  rw [position_of_framed (framed_of_frames frame), frame.base, size, locate]
  split
  · by_cases inside : i ≤ l.length
    · have place : below.size + i.toNat - 1 = below.size + (i.toNat - 1) := by omega
      rw [if_pos (by omega), if_pos inside, place]
      rfl
    · rw [if_neg (by omega), if_neg inside]
      rfl
  · rw [top]
    split
    · have place : below.size + l.length - i.natAbs = below.size + (l.length - i.natAbs) := by omega
      rw [place]
      rfl
    · rfl

theorem slot_of_frames {i : Int} {p : Nat} (located : locate l i = .ok p) :
    s.slot i = .ok (l.getD p .nil) := by
  have inside := locate_lt located
  rw [slot, position_of_frames frame, located]
  change s.stack.get (below.size + p) = _
  rw [Stack.get, frame.slots, Array.getElem?_append_right (Nat.le_add_right _ _),
    Nat.add_sub_cancel_left, List.getElem?_toArray, List.getElem?_eq_getElem inside,
    List.getD_eq_getElem _ _ inside]

theorem follows_located {m : Run E α} {i : Int} {f : Nat → Except Error (α × List Value)}
    (missing : ∀ e, s.position i = .error e → m s = .error (.raised e) s)
    (found : ∀ p, locate l i = .ok p → s.position i = .ok (below.size + p) →
      Follows m s below (f p)) : Follows m s below (locate l i >>= f) := by
  have position := position_of_frames frame i
  cases located : locate l i with
  | error e =>
    rw [located] at position
    exact missing e position
  | ok p =>
    rw [located] at position
    exact found p located position

theorem follows_same {m : Run E α} {a : α} (ran : m s = .ok a s) :
    Follows m s below (.ok (a, l)) :=
  ⟨s.peak, ran.trans (by rw [← frame.slots]; rfl)⟩

theorem follows_mapSlots {m : Run E α} {a : α} {f : Array Value → Array Value} {l' : List Value}
    (ran : m s = .ok a (s.mapSlots f)) (same : f (below ++ l.toArray) = below ++ l'.toArray) :
    Follows m s below (.ok (a, l')) := by
  obtain ⟨peak, held⟩ := mapSlots_of_eq (s := s) (f := f) (by rw [frame.slots, same])
  exact ⟨peak, held ▸ ran⟩

theorem pop_of_frames {v : Value} (last : l.getLast? = some v) :
    pop s = .ok v (s.mapSlots (·.pop)) := by
  have size := size_of_frames frame
  have positive : 0 < l.length := List.length_pos_of_ne_nil (by rintro rfl; cases last)
  have top : s.stack.top? = some v := by
    rw [Stack.top?, frame.slots]
    simp [last]
  rw [pop_eq, if_neg (by rw [frame.base]; omega), top]

theorem frames_popped {v : Value} (last : l.getLast? = some v) :
    (s.mapSlots (·.pop)).Frames below l.dropLast ∧
      (s.mapSlots (·.pop)).stack.isFull = false := by
  have some : l ≠ [] := by
    rintro rfl
    cases last
  have size := size_of_frames frame
  have positive := List.length_pos_of_ne_nil some
  have bounded := frame.bounded
  have slots : (s.mapSlots (·.pop)).stack.slots = below ++ l.dropLast.toArray := by
    rw [slots_mapSlots, frame.slots, listed_pop some]
  have size' : (s.mapSlots (·.pop)).stack.size = s.stack.size - 1 := Array.size_pop
  have limit : (s.mapSlots (·.pop)).stack.maxDepth = s.stack.maxDepth := rfl
  exact ⟨⟨slots, frame.base, by omega⟩, Stack.free_iff.mpr (by omega)⟩

theorem follows_popped {m : Run E α} {a : α} {v : Value} (last : l.getLast? = some v)
    {f : Array Value → Array Value} {l' : List Value}
    (ran : m s = .ok a ((s.mapSlots (·.pop)).mapSlots f))
    (same : f (below ++ l.dropLast.toArray) = below ++ l'.toArray) :
    Follows m s below (.ok (a, l')) := by
  have slots := (frames_popped frame last).1.slots
  rw [slots_mapSlots] at slots
  obtain ⟨peak, held⟩ := mapSlots_twice (s := s) (f := (·.pop)) (g := f) (by rw [slots, same])
  exact ⟨peak, held ▸ ran⟩

theorem follows_insert (i : Int) :
    Follows (insert i) s below ((SlotOp.insert i).onList room l) := by
  apply follows_located frame
  · intro e position
    rw [insert_eq, position]
  intro p located position
  have inside := locate_lt located
  obtain ⟨v, last, rfl⟩ := last_of_located located
  obtain ⟨popped, free⟩ := frames_popped frame last
  have size := size_of_frames popped
  rw [List.length_dropLast] at size
  apply follows_popped frame last (f := (·.insertIdxIfInBounds (below.size + p) _))
  · rw [insert_eq, position]
    simp only [pop_of_frames frame last]
    rw [if_neg (by omega), free, if_neg Bool.false_ne_true]
  · exact listed_insert (by rw [List.length_dropLast]; omega)

theorem follows_remove (i : Int) :
    Follows (remove i) s below ((SlotOp.remove i).onList room l) := by
  apply follows_located frame
  · intro e position
    rw [remove_eq, position]
  intro p located position
  have inside := locate_lt located
  have size := size_of_frames frame
  apply follows_mapSlots frame (f := (·.eraseIdxIfInBounds (below.size + p)))
  · rw [remove_eq, position]
    simp only
    rw [if_neg (by omega)]
  · exact listed_erase inside

theorem follows_replace (i : Int) :
    Follows (replace i) s below ((SlotOp.replace i).onList room l) := by
  apply follows_located frame
  · intro e position
    rw [replace_eq, position]
  intro p located position
  have inside := locate_lt located
  obtain ⟨v, last, rfl⟩ := last_of_located located
  obtain ⟨popped, free⟩ := frames_popped frame last
  have size := size_of_frames popped
  rw [List.length_dropLast] at size
  by_cases own : p + 1 = l.length
  · -- The slot is that of the value itself, which is pushed again.
    rw [if_pos own]
    apply follows_popped frame last (f := (·.push _))
    · rw [replace_eq, position]
      simp only [pop_of_frames frame last]
      rw [if_pos (by omega), push_eq, free, if_neg Bool.false_ne_true]
    · rw [listed_push, List.getLastD_eq_getLast?, last]
      exact congrArg (below ++ List.toArray ·) (List.dropLast_append_getLast? _ last)
  · rw [if_neg own]
    apply follows_popped frame last (f := (·.setIfInBounds (below.size + p) _))
    · rw [replace_eq, position]
      simp only [pop_of_frames frame last]
      rw [if_neg (by omega)]
    · exact listed_set p

theorem follows_cut {n : Nat} (le : n ≤ l.length) :
    Follows (resize (below.size + n)) s below (.ok ((), l.take n)) := by
  have size := size_of_frames frame
  have bounded := frame.bounded
  rcases Nat.lt_or_eq_of_le le with shorter | rfl
  · apply follows_mapSlots frame (f := (·.take (below.size + n)))
    · rw [resize_eq, if_pos (by omega)]
    · exact listed_take n
  · -- Nothing is added to a frame that is as large already.
    apply follows_mapSlots frame
    · rw [resize_eq, if_neg (by omega), if_neg (by omega)]
    · simp

theorem follows_pad {n : Nat} (less : l.length < n) :
    Follows (resize (below.size + n)) s below
      (if s.stack.maxDepth - below.size < n then .error .stackOverflow
      else .ok ((), l ++ List.replicate (n - l.length) .nil)) := by
  have size := size_of_frames frame
  have bounded := frame.bounded
  by_cases excess : s.stack.maxDepth - below.size < n
  · rw [if_pos excess]
    exact (resize_eq _ s).trans (by rw [if_neg (by omega), if_pos (by omega)])
  · rw [if_neg excess]
    apply follows_mapSlots frame
    · rw [resize_eq, if_neg (by omega), if_neg (by omega)]
    · have missing : below.size + n - (below ++ l.toArray).size = n - l.length := by
        simp only [Array.size_append, List.size_toArray]
        omega
      rw [missing]
      apply Array.toList_inj.mp
      simp

theorem follows_setTop (i : Int) :
    Follows (setTop i) s below ((SlotOp.setTop i).onList (s.stack.maxDepth - below.size) l) := by
  rw [SlotOp.onList]
  by_cases negative : i < 0
  · rw [if_pos negative]
    apply follows_located frame
    · intro e position
      rw [setTop_of_framed (framed_of_frames frame), if_neg (by omega), position]
    intro p located position
    apply (follows_cut frame (locate_lt located)).congr
    rw [setTop_of_framed (framed_of_frames frame), if_neg (by omega), position]
    rfl
  obtain ⟨n, rfl⟩ := Int.eq_ofNat_of_zero_le (Int.not_lt.mp negative)
  have resized : setTop (n : Int) s = resize (below.size + n) s := by
    rw [setTop_eq, if_pos (Int.natCast_nonneg n), frame.base, Int.toNat_natCast]
  rw [if_neg negative]
  by_cases shorter : n ≤ l.length
  · rw [if_pos (Int.ofNat_le.mpr shorter)]
    exact (follows_cut frame shorter).congr resized
  · rw [if_neg (mt Int.ofNat_le.mp shorter)]
    simp only [Int.ofNat_lt, Int.toNat_natCast]
    exact (follows_pad frame (Nat.lt_of_not_le shorter)).congr resized

theorem follows_drop (n : Nat) :
    Follows (drop n) s below ((SlotOp.drop n).onList room l) := by
  have size := size_of_frames frame
  have top : s.top = (s.stack.size : Int) - s.base := rfl
  have base := frame.base
  rw [SlotOp.onList]
  by_cases short : l.length < n
  · rw [if_pos short]
    exact (drop_of_framed (by omega) n).trans (if_pos (by omega))
  · rw [if_neg short]
    apply follows_mapSlots frame (f := (·.take (below.size + (l.length - n))))
    · have rest : below.size + (l.length - n) = s.stack.size - n := by omega
      rw [drop_of_framed (by omega), if_neg (by omega), rest]
    · exact listed_take _

theorem follows_pop : Follows pop s below (SlotOp.pop.onList room l) := by
  rw [SlotOp.onList]
  cases last : l.getLast? with
  | none =>
    have size := size_of_frames frame
    have empty : l = [] := List.getLast?_eq_none_iff.mp last
    subst empty
    exact (pop_eq s).trans (if_pos (by rw [frame.base]; exact Nat.le_of_eq size))
  | some v =>
    apply follows_mapSlots frame (pop_of_frames frame last)
    exact listed_pop (by rintro rfl; cases last)

theorem follows_value (i : Int) :
    Follows (read (·.slot i)) s below ((SlotOp.value i).onList room l) := by
  apply follows_located frame
  · intro e position
    rw [read_eq, slot, position]
    rfl
  · intro p located _
    apply follows_same frame
    rw [read_eq, slot_of_frames frame located]
    rfl

theorem follows_absolute (i : Int) :
    Follows (read (·.absolute i)) s below ((SlotOp.absolute i).onList room l) := by
  apply follows_located frame
  · intro e position
    rw [read_eq, absolute, position]
    rfl
  · intro p _ position
    have number : ((below.size + p : Nat) : Int) - below.size + 1 = p + 1 := by omega
    apply follows_same frame
    rw [read_eq, absolute_of_framed (framed_of_frames frame), position, frame.base]
    exact congrArg (EStateM.Result.ok · s) number

theorem follows_pushCopy (i : Int) :
    Follows (read (·.slot i) >>= push) s below
      ((SlotOp.pushCopy i).onList (s.stack.maxDepth - below.size) l) := by
  apply follows_located frame
  · intro e position
    rw [bind_eq, read_eq, slot, position]
    rfl
  · intro p located _
    have size := size_of_frames frame
    have bounded := frame.bounded
    have copied : (read (·.slot i) >>= push) s = push (l.getD p .nil) s := by
      rw [bind_eq, read_eq, slot_of_frames frame located]
      rfl
    by_cases full : s.stack.maxDepth - below.size ≤ l.length
    · rw [if_pos full]
      rw [push_eq, if_pos (Stack.isFull_iff.mpr (by omega))] at copied
      exact copied
    · rw [if_neg full]
      apply follows_mapSlots frame (f := (·.push (l.getD p .nil)))
      · rw [copied, push_of_room (by omega)]
      · exact listed_push

theorem follows_run (o : SlotOp) :
    Follows o.run s below (o.onList (s.stack.maxDepth - below.size) l) := by
  cases o with
  | value i => exact follows_value frame i
  | absolute i => exact follows_absolute frame i
  | pushCopy i => exact follows_pushCopy frame i
  | insert i => exact follows_insert frame i
  | remove i => exact follows_remove frame i
  | replace i => exact follows_replace frame i
  | setTop i => exact follows_setTop frame i
  | drop n => exact follows_drop frame n
  | pop => exact follows_pop frame

/-- The operations on the slots of a frame do what they should do to the list of its values, and
nothing to the slots below it. A number and a distance from the top name the same slot, and an index
is accepted if it names one of the values. What only moves values needs no more room. -/
theorem frame_as_list (enter : Enter E) (H : Host E) :
    (∀ o : SlotOp, Follows (action enter H o.action) s below
      (o.onList (s.stack.maxDepth - below.size) l)) ∧
    (∀ i : Int, 0 < i → i ≤ l.length → s.position (i - l.length - 1) = s.position i) ∧
    (∀ i, (∃ p, s.position i = .ok p) ↔ i ≠ 0 ∧ i.natAbs ≤ l.length) ∧
    ∀ i, ∀ o ∈ [SlotOp.insert i, .remove i, .replace i], ∀ t,
      action enter H o.action s ≠ .error (.raised .stackOverflow) t := by
  have follows (o : SlotOp) : Follows (action enter H o.action) s below
      (o.onList (s.stack.maxDepth - below.size) l) := by
    rw [action_slotOp]
    exact follows_run frame o
  refine ⟨follows, fun i forward inside => ?_, fun i => ?_, fun i o moves t overflows => ?_⟩
  · rw [position_of_frames frame, position_of_frames frame, locate_from_top forward inside]
  · rw [← locate_isOk_iff, position_of_frames frame]
    cases locate l i with
    | ok p => exact ⟨fun _ => ⟨p, rfl⟩, fun _ => ⟨_, rfl⟩⟩
    | error e => exact ⟨nofun, nofun⟩
  · have followed := follows o
    simp only [List.mem_cons, List.not_mem_nil, or_false] at moves
    rcases moves with rfl | rfl | rfl
    all_goals exact followed.ne_overflow t overflows

end Frame

/-- The last value goes to the front of a frame that is full, above a slot of the caller. -/
theorem frame_as_list_full :
    let H := Host.running (pure 0)
    let s := { State.plain #[.light 7, .light 1, .light 2, .light 3] with
      stack := ⟨#[.light 7, .light 1, .light 2, .light 3], 4⟩, base := 1 }
    ∃ peak, action (enter H 0) H (Action.insert (-3)) s = .ok ()
      (s.holding #[.light 7, .light 3, .light 1, .light 2] peak) := by
  intro H s
  have frame : s.Frames #[.light 7] [.light 1, .light 2, .light 3] := ⟨rfl, rfl, by decide⟩
  exact (frame_as_list frame (enter H 0) H).1 (.insert (-3))

end Run
end HostBridge
