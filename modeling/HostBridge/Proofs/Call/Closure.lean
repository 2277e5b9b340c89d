import HostBridge.Proofs.Call.Isolation

namespace HostBridge

/-- The element with number `i` of an argument or result list, from zero. -/
def Tuple.get {E : Embedding} : (ss : List (Shape E.Tag)) → Tuple E ss → (i : Nat) →
    (h : i < ss.length) → (ss[i]).Carrier E
  | _ :: _, (x, _), 0, _ => x
  | _ :: ss, (_, xs), i + 1, h => Tuple.get ss xs i (Nat.lt_of_succ_lt_succ h)

namespace State
variable {E : Embedding} {s : State E}

def holding (s : State E) (slots : Array Value) (peak : Peak) : State E :=
  { s with stack := { s.stack with slots := slots }, peak := peak }

theorem slot_deepest {below : Array Value} {v : Value} {vs : List Value}
    (slots : s.stack.slots = below ++ (v :: vs).toArray) (framed : s.base ≤ below.size) :
    s.slot (-(vs.length + 1)) = .ok v := by
  have size : s.stack.size = below.size + (vs.length + 1) := by
    rw [Stack.size, slots]
    simp
  have position : s.position (-(vs.length + 1)) = .ok below.size := by
    have top : s.top = (s.stack.size : Int) - s.base := rfl
    rw [position_of_framed (by omega), if_neg (by omega), if_pos (by omega)]
    congr 1
    omega
  rw [slot, position]
  change s.stack.get below.size = _
  simp only [Stack.get, slots]
  rw [Array.getElem?_append_right (Nat.le_refl _), Nat.sub_self]
  rfl

/-- The first shape decodes from the deepest of the top slots, the others from those above it. -/
theorem decodeSlot_first (shape : Shape E.Tag) {n : Nat} {below : Array Value} {v : Value}
    {vs : List Value} (length : vs.length = n)
    (slots : s.stack.slots = below ++ (v :: vs).toArray) (framed : s.base ≤ below.size) :
    s.decodeSlot shape (-(n + 1)) = s.decode shape v ∧
      s.stack.slots = below.push v ++ vs.toArray ∧ s.base ≤ (below.push v).size := by
  refine ⟨?_, ?_, ?_⟩
  · rw [decodeSlot, ← length, slot_deepest slots framed]
    rfl
  · rw [slots]
    simp
  · rw [Array.size_push]
    exact Nat.le_succ_of_le framed

/-- The shapes decode one by one from the top slots, each from its own. The first that fails to
decode makes the error. -/
theorem decodeTop_cases (ss : List (Shape E.Tag)) {below : Array Value} {vs : List Value}
    (length : vs.length = ss.length) (slots : s.stack.slots = below ++ vs.toArray)
    (framed : s.base ≤ below.size) :
    (∃ i, ∃ h : i < ss.length, ∃ e, s.decode ss[i] (vs.getD i .nil) = .error e ∧
      (∀ j, ∀ h : j < ss.length, j < i →
        ∃ x : ss[j].Carrier E, s.decode ss[j] (vs.getD j .nil) = .ok x) ∧
      s.decodeTop ss = .error e) ∨
    ∃ xs, (∀ i, ∀ h : i < ss.length,
        s.decode ss[i] (vs.getD i .nil) = .ok (Tuple.get ss xs i h)) ∧
      s.decodeTop ss = .ok xs := by
  induction ss generalizing below vs with
  | nil => exact .inr ⟨(), fun i h => absurd h (Nat.not_lt_zero i), rfl⟩
  | cons shape ss ih =>
    cases vs with
    | nil => contradiction
    | cons v vs =>
      have length : vs.length = ss.length := Nat.succ.inj length
      obtain ⟨first, slots', framed'⟩ := decodeSlot_first shape length slots framed
      simp only [decodeTop, first]
      cases decoded : s.decode shape v with
      | error e =>
        refine .inl ⟨0, Nat.zero_lt_succ _, e, decoded, ?_, rfl⟩
        intro j _ before
        exact absurd before (Nat.not_lt_zero j)
      | ok x =>
        rcases ih length slots' framed' with ⟨i, h, e, failed, before, same⟩ | ⟨xs, each, same⟩
        · refine .inl ⟨i + 1, Nat.succ_lt_succ h, e, failed, ?_, ?_⟩
          · intro j inside earlier
            cases j with
            | zero => exact ⟨x, decoded⟩
            | succ j =>
              exact before j (Nat.lt_of_succ_lt_succ inside) (Nat.lt_of_succ_lt_succ earlier)
          · rw [same]
            rfl
        · refine .inr ⟨(x, xs), ?_, ?_⟩
          · intro i h
            cases i with
            | zero => exact decoded
            | succ i => exact each i (Nat.lt_of_succ_lt_succ h)
          · rw [same]
            rfl

end State

namespace Run
open State
variable {E : Embedding} {H : Host E} {s : State E}

def encodings (H : Host E) : (ss : List (Shape E.Tag)) → Tuple E ss → Run E (List Value)
  | [], _ => pure []
  | s :: ss, (x, xs) => do
    let v ← encode H s x
    return v :: (← encodings H ss xs)

theorem offFrame_encodings (H : Host E) (ss : List (Shape E.Tag)) (xs : Tuple E ss) :
    OffFrame (encodings H ss xs) := by
  induction ss with
  | nil => exact offFrame_pure []
  | cons s ss ih =>
    apply offFrame_bind (offFrame_encode H s xs.1)
    intro v
    exact offFrame_bind (ih xs.2) fun vs => offFrame_pure (v :: vs)

theorem OffFrame.holding {α : Type} {m : Run E α} (off : OffFrame m) (slots : Array Value)
    (peak : Peak) : m (s.holding slots peak) = mapState (·.holding slots peak) (m s) := by
  have there := off s (s.holding slots peak)
  have here := off s s
  rw [inFrameOf_self] at here
  change m (s.holding slots peak) = _ at there
  rw [there, here]
  cases m s <;> rfl

theorem length_of_encodings {ss : List (Shape E.Tag)} {xs : Tuple E ss} {ws : List Value}
    {t : State E} (ran : encodings H ss xs s = .ok ws t) : ws.length = ss.length := by
  induction ss generalizing s ws with
  | nil =>
    cases ran
    rfl
  | cons shape ss ih =>
    rw [encodings, bind_eq] at ran
    cases first : encode H shape xs.1 s with
    | error f u =>
      rw [first] at ran
      contradiction
    | ok v u =>
      simp only [first, bind_eq] at ran
      cases rest : encodings H ss xs.2 u with
      | error f w =>
        rw [rest] at ran
        contradiction
      | ok vs w =>
        rw [rest] at ran
        cases ran
        exact congrArg Nat.succ (ih rest)

/-- Where there is room, pushing the encodings as they come is pushing them all at the end. -/
theorem encodeAll_cases (H : Host E) (ss : List (Shape E.Tag)) (xs : Tuple E ss)
    (room : s.stack.size + ss.length ≤ s.stack.maxDepth) :
    match encodings H ss xs s with
    | .ok ws t => ∃ peak,
        encodeAll H ss xs s = .ok () (t.holding (s.stack.slots ++ ws.toArray) peak)
    | .error f t => ∃ (ws : List Value) (peak : Peak),
        encodeAll H ss xs s = .error f (t.holding (s.stack.slots ++ ws.toArray) peak) := by
  induction ss generalizing s with
  | nil => exact ⟨s.peak, by simp [encodeAll, holding]⟩
  | cons shape ss ih =>
    have off := offFrame_encode H shape xs.1
    simp only [encodings, encodeAll, bind_eq]
    cases first : encode H shape xs.1 s with
    | error f u =>
      have stack := off.stack_of_error first
      refine ⟨[], u.peak, ?_⟩
      simp [holding, ← stack]
    | ok v u =>
      have stack := off.stack_of_ok first
      have free : u.stack.size < u.stack.maxDepth := by
        rw [stack]
        simp only [List.length_cons] at room
        omega
      simp only [push_of_room free]
      -- The rest encodes above the pushed value as it would without it.
      have rest := (offFrame_encodings H ss xs.2).holding (s := u) (u.stack.slots.push v)
        (u.mapSlots (·.push v)).peak
      have room' : (u.mapSlots (·.push v)).stack.size + ss.length ≤ u.stack.maxDepth := by
        rw [Stack.size, slots_mapSlots, Array.size_push, stack]
        simp only [Stack.size, List.length_cons] at room
        omega
      have pushed := ih (s := u.mapSlots (·.push v)) xs.2 room'
      have placed : u.mapSlots (·.push v) =
          u.holding (u.stack.slots.push v) (u.mapSlots (·.push v)).peak := rfl
      rw [placed, rest] at pushed
      rw [placed]
      cases ran : encodings H ss xs.2 u with
      | ok ws t =>
        simp only [ran, mapState] at pushed ⊢
        obtain ⟨peak, eq⟩ := pushed
        refine ⟨peak, eq.trans ?_⟩
        simp [holding, stack]
      | error f t =>
        simp only [ran, mapState] at pushed ⊢
        obtain ⟨ws, peak, eq⟩ := pushed
        refine ⟨v :: ws, peak, eq.trans ?_⟩
        simp [holding, stack]

/-- The first `n` of the values, with nils for those that are missing. -/
def normalized (n : Nat) (vs : List Value) : List Value :=
  (List.range n).map fun i => vs.getD i .nil

theorem length_normalized (n : Nat) (vs : List Value) : (normalized n vs).length = n := by
  simp [normalized]

theorem getD_normalized {n i : Nat} (h : i < n) (vs : List Value) :
    (normalized n vs).getD i .nil = vs.getD i .nil := by
  simp [normalized, List.getD_eq_getElem?_getD, h]

theorem normalized_eq (n : Nat) (vs : List Value) :
    normalized n vs = vs.take n ++ List.replicate (n - vs.length) .nil := by
  unfold normalized
  apply List.ext_getElem
  · simp
    omega
  · intro i h _
    simp only [List.getElem_map, List.getElem_range, List.getD_eq_getElem?_getD]
    by_cases passed : i < vs.length
    · rw [List.getElem_append_left (by simp at h ⊢; omega)]
      simp [passed]
    · rw [List.getElem_append_right (by simp; omega)]
      simp [Nat.le_of_not_lt passed]

/-- The frame of a closure holds one value for each parameter, nils for those that are missing. -/
theorem setTop_eq_of_slots {below : Array Value} {vs : List Value} {n : Nat}
    (slots : s.stack.slots = below ++ vs.toArray) (base : s.base = below.size)
    (room : s.base + n ≤ s.stack.maxDepth) :
    setTop n s = .ok () (s.mapSlots fun _ => below ++ (normalized n vs).toArray) := by
  have size : s.stack.slots.size = below.size + vs.length := by
    rw [slots]
    simp
  rw [setTop_eq, if_pos (Int.natCast_nonneg n), Int.toNat_natCast, resize_eq, normalized_eq, base]
  by_cases shorter : below.size + n < s.stack.size
  · have none : n - vs.length = 0 := by
      simp only [Stack.size] at shorter
      omega
    rw [if_pos shorter]
    congr 1
    apply mapSlots_congr
    apply Array.toList_inj.mp
    simp [slots, none, Array.take_eq_extract, List.take_of_length_le]
  · have missing : below.size + n - (below.size + vs.length) = n - vs.length := by omega
    have all : vs.length ≤ n := by
      simp only [Stack.size] at shorter
      omega
    rw [if_neg shorter, if_neg (by omega)]
    congr 1
    apply mapSlots_congr
    apply Array.toList_inj.mp
    simp [slots, List.take_of_length_le all, missing]

theorem mapSlots_of_eq {f : Array Value → Array Value} {slots : Array Value}
    (same : f s.stack.slots = slots) : ∃ peak, s.mapSlots f = s.holding slots peak :=
  ⟨(s.mapSlots f).peak, by simp only [mapSlots, holding, same]⟩

theorem mapSlots_of_le {f : Array Value → Array Value} {slots : Array Value}
    (same : f s.stack.slots = slots) (le : slots.size ≤ s.peak.size) :
    s.mapSlots f = s.holding slots s.peak := by
  simp only [mapSlots, holding, same, Nat.max_eq_left le]

theorem pushAll_of_room {vs : List Value}
    (room : s.stack.size + vs.length ≤ s.stack.maxDepth) :
    ∃ peak, pushAll vs s = .ok () (s.holding (s.stack.slots ++ vs.toArray) peak) := by
  cases vs with
  | nil => exact ⟨s.peak, by simp [pushAll, holding]⟩
  | cons v vs => exact ⟨_, pushAll_cons room⟩

theorem take_of_below {slots below : Array Value} (le : below.size ≤ slots.size)
    (same : ∀ i, i < below.size → slots[i]? = below[i]?) : slots.take below.size = below := by
  apply Array.ext_getElem?
  intro i
  rw [Array.take_eq_extract, Array.getElem?_extract, Nat.zero_add]
  by_cases before : i < below.size
  · rw [if_pos (by omega), same i before]
  · rw [if_neg (by omega), Array.getElem?_eq_none (Nat.le_of_not_lt before)]

/-- The results of a call that lie on top of its frame replace the frame and the function, if as
many as there are were asked for. -/
theorem deliver_of_results {below slots : Array Value} {ws : List Value}
    (held : s.stack.slots = slots ++ ws.toArray) (frame : below.size < slots.size)
    (same : ∀ i, i < below.size → slots[i]? = below[i]?)
    (room : s.stack.size ≤ s.stack.maxDepth) (f : FunctionId) {nresults : Int}
    (all : adjust ws nresults = ws) :
    ∃ peak, deliver f below.size ws.length nresults s =
      .ok () (s.holding (below ++ ws.toArray) peak) := by
  have size : s.stack.slots.size = slots.size + ws.length := by
    rw [held]
    simp
  have reported : (s.stack.slots.extract (s.stack.size - ws.length) s.stack.size).toList = ws := by
    simp [Stack.size, held]
  have cut : s.stack.slots.take below.size = below := by
    apply take_of_below (by omega)
    intro i before
    rw [held, Array.getElem?_append_left (by omega)]
    exact same i before
  have room' : (s.mapSlots (·.take below.size)).stack.size + ws.length ≤ s.stack.maxDepth := by
    rw [Stack.size, slots_mapSlots, cut]
    simp only [Stack.size] at room
    omega
  obtain ⟨peak, pushed⟩ := pushAll_of_room (s := s.mapSlots (·.take below.size)) room'
  refine ⟨peak, ?_⟩
  have enough : ¬s.stack.size - (below.size + 1) < ws.length := by
    simp only [Stack.size]
    omega
  rw [deliver_eq, if_neg enough, reported, all, pushed]
  simp only [holding, mapSlots, cut]

def caught {α : Type} (name : String) (p : Panic) (s t : State E) :
  EStateM.Result Fault (State E) α :=
  if s.config.catchPanics then .error (.raised (.hostCallableFault name p.message)) t
  else .error (.panicked p) t

theorem catchPanics_of_panic (name : String) {body : Run E Nat} {p : Panic} {t : State E}
    (ran : body s = .error (.panicked p) t) : ∃ u, catchPanics name body s = caught name p s u := by
  by_cases catches : s.config.catchPanics = true
  · refine ⟨{ t with heap := t.heap.restoreBorrows s.heap.objects }, ?_⟩
    rw [catchPanics_eq name body catches, ran, caught, if_pos catches]
  · refine ⟨t, ?_⟩
    rw [caught, if_neg catches, catchPanics, if_neg catches, ran]

/-- How a call ends whose body and the encoding of its results ran like that: the encodings take the
place of function and arguments, an error is that of the call, and a panic may be caught. -/
def Ends (name : String) (s : State E) (below : Array Value)
    (called : EStateM.Result Fault (State E) Unit) :
    EStateM.Result Fault (State E) (List Value) → Prop
  | .ok ws t => ∃ peak, called = .ok () ((t.ascend s.base).holding (below ++ ws.toArray) peak)
  | .error (.raised e) t => ∃ peak,
      called = .error (.raised e) ((t.ascend s.base).holding below peak)
  | .error (.panicked p) _ => ∃ t, called = caught name p s t

section Body
variable (go : Runner E) {code : E.Closure} {below : Array Value} {vs : List Value}
  (slots : s.stack.slots = below ++ vs.toArray) (base : s.base = below.size)
  (room : s.base + (E.params code).count ≤ s.stack.maxDepth) {start : State E}
  (normal : start = s.mapSlots fun _ => below ++ (normalized (E.params code).count vs).toArray)
include slots base room normal

theorem runClosure_of_undecoded {e : Error}
    (failed : start.decodeTop (E.params code).shapes = .error e) :
    runClosure go H code s = .error (.raised e) start := by
  subst normal
  simp only [runClosure, bind_eq, setTop_eq_of_slots slots base room, read_eq, failed,
    ofExcept_error, raise_eq]

theorem runClosure_of_decoded {xs : Tuple E (E.params code).shapes}
    (decoded : start.decodeTop (E.params code).shapes = .ok xs) :
    runClosure go H code s = match act go (H.closure code xs) start with
      | .ok ys v => match encodeAll H (E.results code).shapes ys v with
        | .ok _ t => .ok (E.results code).count t
        | .error f t => .error f t
      | .error f v => .error f v := by
  subst normal
  simp only [runClosure, bind_eq, setTop_eq_of_slots slots base room, read_eq, decoded, ofExcept_ok,
    pure_eq]
  cases act go (H.closure code xs) _ with
  | error f v => rfl
  | ok ys v => cases encoded : encodeAll H (E.results code).shapes ys v <;> simp only [encoded]

end Body

section Placed
variable {f : FunctionId} {below : Array Value} {vs : List Value}
  (slots : s.stack.slots = below.push (.function f) ++ vs.toArray)
include slots

theorem size_of_placed : s.stack.size = below.size + 1 + vs.length := by
  rw [Stack.size, slots, Array.size_append, Array.size_push]
  rfl

theorem below_of_placed {i : Nat} (before : i < below.size) :
    s.stack.slots[i]? = below[i]? := by
  rw [slots, Array.getElem?_append_left (by rw [Array.size_push]; omega), Array.getElem?_push,
    if_neg (Nat.ne_of_lt before)]

theorem cut_of_placed (recorded : s.stack.size ≤ s.peak.size) :
    s.mapSlots (·.take below.size) = s.holding below s.peak := by
  have lower : below.size ≤ s.peak.size := by
    have size := size_of_placed slots
    omega
  have rest : s.stack.slots.take below.size = below := by
    rw [slots]
    simp
  exact mapSlots_of_le rest lower

theorem functionSlot_of_placed : functionSlot s vs.length = below.size := by
  have size := size_of_placed slots
  simp only [functionSlot, Int.toNat_natCast]
  omega

theorem operands_of_placed (framed : s.base ≤ below.size) : HasOperands s vs.length := by
  have size := size_of_placed slots
  refine ⟨Int.natCast_nonneg _, ?_⟩
  rw [Int.toNat_natCast]
  omega

theorem callAt_of_placed (enter : Enter E) (nresults : Int) :
    callAt enter below.size nresults s =
      if s.config.maxCallDepth ≤ s.callDepth then .error (.raised .stackOverflow) s
      else match enter f (s.descend (below.size + 1)) with
        | .ok n v => deliver f below.size n nresults (v.ascend s.base)
        | .error (.raised e) v => .error (.raised e) (v.ascend s.base)
        | .error (.panicked p) v => .error (.panicked p) v := by
  have here : s.stack.get below.size = .ok (.function f) := by
    simp [Stack.get, slots]
  have found : callee below.size s = .ok f s := by
    rw [callee, bind_eq, read_eq, here]
    rfl
  have called := callAt_eq enter below.size nresults s
  rw [found] at called
  exact called

theorem call_of_placed (framed : s.base ≤ below.size) (nresults : Int) :
    runAction H (Action.call vs.length nresults) s =
      match callAt (enter H s.depthLeft) below.size nresults s with
      | .ok x t => .ok x t
      | .error (.raised e) t => .error (.raised e) (t.mapSlots (·.take below.size))
      | .error (.panicked p) t => .error (.panicked p) t := by
  have operands := operands_of_placed slots framed
  have called := call_of_operands (enter H s.depthLeft) operands nresults
  rw [functionSlot_of_placed slots] at called
  exact (runAction_call H _ _ s).trans called

theorem pcall_of_placed (framed : s.base ≤ below.size) (nresults : Int) :
    runAction H (Action.pcall vs.length nresults) s =
      match callAt (enter H s.depthLeft) below.size nresults s with
      | .ok _ t => .ok .ok t
      | .error (.raised e) t =>
        match push (.string e.message) (t.mapSlots (·.take below.size)) with
        | .ok _ v => .ok (.ofError e) { v with lastError := some e }
        | .error f v => .error f v
      | .error (.panicked p) t => .error (.panicked p) t := by
  rw [runAction_pcall, pcall_eq, callPosition_of_operands (operands_of_placed slots framed),
    functionSlot_of_placed slots]
  simp only
  cases callAt (enter H s.depthLeft) below.size nresults s with
  | ok x t => rfl
  | error e t => cases e <;> rfl

end Placed

/-- The frame of a closure lies above the function, which lies above the slots of the caller. -/
theorem below_of_entered {below : Array Value} {f : FunctionId} {ws : List Value} {start : State E}
    (normal : start = (s.descend (below.size + 1)).mapSlots fun _ =>
      below.push (.function f) ++ ws.toArray) :
    below.size < start.stack.slots.size ∧
      ∀ i, i < below.size → start.stack.slots[i]? = below[i]? := by
  have held : start.stack.slots = below.push (.function f) ++ ws.toArray := by
    rw [normal]
    rfl
  have size : start.stack.slots.size = below.size + 1 + ws.length := size_of_placed held
  exact ⟨by omega, fun i before => below_of_placed held before⟩

section Called
variable {f : FunctionId} {name : String} {code : E.Closure}
  (bound : s.heap.callable? f = some ⟨name, .closure code⟩)
include bound

theorem enter_closure (depth : Nat) :
    enter H (depth + 1) f s =
      catchPanics name (runClosure (perform (enter H depth) H) H code) s := by
  rw [enter, bind_eq, callableOf, bind_eq, get_eq]
  simp only [bound, pure_eq]
  rfl

/-- A call with all results, as the run of the closure on the frame above the function. -/
theorem call_closure_eq {below : Array Value} {vs : List Value}
    (slots : s.stack.slots = below.push (.function f) ++ vs.toArray)
    (framed : s.base ≤ below.size) :
    runAction H (Action.call vs.length (-1)) s =
      if s.config.maxCallDepth ≤ s.callDepth then
        .error (.raised .stackOverflow) (s.mapSlots (·.take below.size))
      else match catchPanics name (runClosure (perform (enter H (s.depthLeft - 1)) H) H code)
          (s.descend (below.size + 1)) with
        | .ok n v => orTruncate below.size (deliver f below.size n (-1)) (v.ascend s.base)
        | .error (.raised e) v =>
          .error (.raised e) ((v.ascend s.base).mapSlots (·.take below.size))
        | .error (.panicked p) v => .error (.panicked p) v := by
  rw [call_of_placed slots framed, callAt_of_placed slots]
  by_cases deep : s.config.maxCallDepth ≤ s.callDepth
  · simp only [if_pos deep]
  · have depth : s.depthLeft = s.depthLeft - 1 + 1 := by
      unfold depthLeft
      omega
    rw [depth]
    have entered := enter_closure (H := H) (s := s.descend (below.size + 1)) bound (s.depthLeft - 1)
    simp only [if_neg deep, entered, Nat.add_sub_cancel]
    cases catchPanics name (runClosure (perform (enter H (s.depthLeft - 1)) H) H code)
        (s.descend (below.size + 1)) with
    | error e v => cases e <;> rfl
    | ok n v =>
      simp only [orTruncate_eq]
      cases deliver f below.size n (-1) (v.ascend s.base) with
      | ok x t => rfl
      | error e t => cases e <;> rfl

section Outcome
variable {below : Array Value} {vs : List Value}
  (slots : s.stack.slots = below.push (.function f) ++ vs.toArray) (framed : s.base ≤ below.size)
  (shallow : ¬s.config.maxCallDepth ≤ s.callDepth) {v : State E}
include bound slots framed shallow

theorem call_of_raised {e : Error} (cut : v.stack.slots.take below.size = below)
    (ran : runClosure (perform (enter H (s.depthLeft - 1)) H) H code (s.descend (below.size + 1)) =
      .error (.raised e) v) :
    ∃ peak, runAction H (Action.call vs.length (-1)) s =
      .error (.raised e) ((v.ascend s.base).holding below peak) := by
  obtain ⟨peak, same⟩ := mapSlots_of_eq (s := v.ascend s.base) (f := (·.take below.size)) cut
  refine ⟨peak, ?_⟩
  rw [call_closure_eq bound slots framed, if_neg shallow, catchPanics_of_raised name ran]
  simp only [same]

theorem call_of_panic {p : Panic}
    (ran : runClosure (perform (enter H (s.depthLeft - 1)) H) H code (s.descend (below.size + 1)) =
      .error (.panicked p) v) :
    ∃ t, runAction H (Action.call vs.length (-1)) s = caught name p s t := by
  obtain ⟨t, same⟩ := catchPanics_of_panic name ran
  rw [call_closure_eq bound slots framed, if_neg shallow, same]
  unfold caught
  by_cases catches : s.config.catchPanics = true
  · have catches' : (s.descend (below.size + 1)).config.catchPanics = true := catches
    simp only [if_pos catches, if_pos catches']
    exact ⟨_, rfl⟩
  · have catches' : ¬(s.descend (below.size + 1)).config.catchPanics = true := catches
    simp only [if_neg catches, if_neg catches']
    exact ⟨_, rfl⟩

theorem call_of_results {left : Array Value} {ws : List Value}
    (held : v.stack.slots = left ++ ws.toArray) (frame : below.size < left.size)
    (same : ∀ i, i < below.size → left[i]? = below[i]?)
    (room : v.stack.size ≤ v.stack.maxDepth)
    (ran : runClosure (perform (enter H (s.depthLeft - 1)) H) H code (s.descend (below.size + 1)) =
      .ok ws.length v) :
    ∃ peak, runAction H (Action.call vs.length (-1)) s =
      .ok () ((v.ascend s.base).holding (below ++ ws.toArray) peak) := by
  have all : adjust ws (-1) = ws := if_pos (by decide)
  obtain ⟨peak, delivered⟩ :=
    deliver_of_results (s := v.ascend s.base) held frame same room f all
  refine ⟨peak, ?_⟩
  rw [call_closure_eq bound slots framed, if_neg shallow, catchPanics_of_ok name ran]
  simp only [orTruncate_eq, delivered]

/-- Once the body has answered, the encodings of its results take the place of function and
arguments. -/
theorem call_of_answer {ys : Tuple E (E.results code).shapes}
    (frame : below.size < v.stack.slots.size)
    (untouched : ∀ i, i < below.size → v.stack.slots[i]? = below[i]?)
    (room : v.stack.size + (E.results code).count ≤ v.stack.maxDepth)
    (ran : runClosure (perform (enter H (s.depthLeft - 1)) H) H code (s.descend (below.size + 1)) =
      match encodeAll H (E.results code).shapes ys v with
      | .ok _ t => .ok (E.results code).count t
      | .error f t => .error f t) :
    Ends name s below (runAction H (Action.call vs.length (-1)) s)
      (encodings H (E.results code).shapes ys v) := by
  have pushed := encodeAll_cases H (E.results code).shapes ys room
  cases encoded : encodings H (E.results code).shapes ys v with
  | ok ws t =>
    simp only [encoded] at pushed ⊢
    obtain ⟨peak, all⟩ := pushed
    have count : ws.length = (E.results code).count := length_of_encodings encoded
    have stack := (offFrame_encodings H (E.results code).shapes ys).stack_of_ok encoded
    rw [all, ← count] at ran
    have held : (t.holding (v.stack.slots ++ ws.toArray) peak).stack.slots =
        v.stack.slots ++ ws.toArray := rfl
    have fits : (v.stack.slots ++ ws.toArray).size ≤ t.stack.maxDepth := by
      rw [stack, Array.size_append]
      change v.stack.slots.size + ws.length ≤ v.stack.maxDepth
      rw [count]
      exact room
    have outcome := call_of_results bound slots framed shallow held frame untouched fits ran
    exact outcome
  | error fault t =>
    simp only [encoded] at pushed ⊢
    obtain ⟨ws, peak, some⟩ := pushed
    rw [some] at ran
    have cut : (t.holding (v.stack.slots ++ ws.toArray) peak).stack.slots.take below.size =
        below := by
      change (v.stack.slots ++ ws.toArray).take below.size = below
      apply take_of_below
      · rw [Array.size_append]
        omega
      · intro i before
        rw [Array.getElem?_append_left (by omega)]
        exact untouched i before
    cases fault with
    | raised e =>
      have outcome := call_of_raised bound slots framed shallow cut ran
      exact outcome
    | panicked p => exact call_of_panic bound slots framed shallow ran

section Entered
variable (room : below.size + 1 + (E.params code).count ≤ s.stack.maxDepth) {start : State E}
  (normal : start = (s.descend (below.size + 1)).mapSlots fun _ =>
    below.push (.function f) ++ (normalized (E.params code).count vs).toArray)
include room normal

theorem call_of_undecoded {e : Error}
    (failed : start.decodeTop (E.params code).shapes = .error e) :
    runAction H (Action.call vs.length (-1)) s =
      .error (.raised e) (s.holding below start.peak) := by
  have frame : (below.push (.function f)).size = below.size + 1 := Array.size_push _
  have ran := runClosure_of_undecoded (H := H) (s := s.descend (below.size + 1))
    (perform (enter H (s.depthLeft - 1)) H) slots frame.symm room normal failed
  have started := below_of_entered normal
  have cut : (start.ascend s.base).stack.slots.take below.size = below :=
    take_of_below (Nat.le_of_lt started.1) started.2
  have le : below.size ≤ (start.ascend s.base).peak.size := by
    have peak : start.stack.slots.size ≤ start.peak.size := by
      rw [normal]
      exact Nat.le_max_right _ _
    exact Nat.le_trans (Nat.le_of_lt started.1) peak
  have back := mapSlots_of_le (f := (·.take below.size)) cut le
  rw [call_closure_eq bound slots framed, if_neg shallow, catchPanics_of_raised name ran]
  subst normal
  exact congrArg (EStateM.Result.error _) back

theorem call_of_decoded (uses : H.Uses Op.KeepsOpen) {xs : Tuple E (E.params code).shapes}
    (decoded : start.decodeTop (E.params code).shapes = .ok xs) :
    match runAction H (H.closure code xs) start with
    | .ok ys v => v.stack.size + (E.results code).count ≤ v.stack.maxDepth →
        Ends name s below (runAction H (Action.call vs.length (-1)) s)
          (encodings H (E.results code).shapes ys v)
    | .error fault v =>
        Ends name s below (runAction H (Action.call vs.length (-1)) s) (.error fault v) := by
  have frame : (below.push (.function f)).size = below.size + 1 := Array.size_push _
  have ran := runClosure_of_decoded (H := H) (s := s.descend (below.size + 1))
    (perform (enter H (s.depthLeft - 1)) H) slots frame.symm room normal decoded
  have started := below_of_entered normal
  have above : start.Above (below.size + 1) s.stack.maxDepth := by
    subst normal
    refine ⟨Nat.le_refl _, started.1, ?_, rfl⟩
    change (below.push (.function f) ++ (normalized (E.params code).count vs).toArray).size ≤
      s.stack.maxDepth
    have length := length_normalized (E.params code).count vs
    rw [Array.size_append, frame]
    exact Nat.le_trans (Nat.le_of_eq (congrArg (below.size + 1 + ·) length)) room
  -- The body cannot reach the function slot or what lies below it.
  have isolated := isolated_of_keepsOpen uses (H.closure code xs) (uses.closure code xs) start above
  have covers := isolated.covers
  have untouched : ∀ i, i < below.size →
      ((runAction H (H.closure code xs)).final start).stack.slots[i]? = below[i]? := by
    intro i before
    rw [isolated.below above (Nat.lt_succ_of_lt before), started.2 i before]
  have base : start.base = below.size + 1 := by
    rw [normal]
    rfl
  have lower : below.size < ((runAction H (H.closure code xs)).final start).stack.slots.size :=
    Nat.le_trans (Nat.le_of_eq base.symm) covers.framed
  have same : s.depthLeft - 1 = start.depthLeft := by
    subst normal
    rfl
  have go : act (perform (enter H (s.depthLeft - 1)) H) (H.closure code xs) start =
      runAction H (H.closure code xs) start := by
    rw [same]
    rfl
  rw [go] at ran
  unfold final at lower untouched
  cases body : runAction H (H.closure code xs) start with
  | error fault v =>
    rw [body] at ran lower untouched
    have cut := take_of_below (Nat.le_of_lt lower) untouched
    cases fault with
    | raised e => exact call_of_raised bound slots framed shallow cut ran
    | panicked p => exact call_of_panic bound slots framed shallow ran
  | ok ys v =>
    simp only [body] at ran lower untouched ⊢
    intro room'
    exact call_of_answer bound slots framed shallow lower untouched room' ran

end Entered

end Outcome

end Called

/-- The outcome of a call of a closure with any number of values and of parameters, where there is
room for its frame and for its results. The parameters decode from the values in order, those that
are missing from nil. If one fails, its error is that of the call, and nothing has happened but that
function and arguments are gone. Otherwise the body runs on the frame; its results are encoded in
order and take the place of function and arguments, and an error of the body is that of the call. -/
theorem closure_call_outcome {H : Host E} (uses : H.Uses Op.KeepsOpen) {s : State E}
    {f : FunctionId} {name : String} {code : E.Closure}
    (bound : s.heap.callable? f = some ⟨name, .closure code⟩)
    {below : Array Value} {vs : List Value}
    (slots : s.stack.slots = below.push (.function f) ++ vs.toArray) (framed : s.base ≤ below.size)
    (room : below.size + 1 + (E.params code).count ≤ s.stack.maxDepth) :
    let params := (E.params code).shapes
    let results := (E.results code).shapes
    let start := (s.descend (below.size + 1)).mapSlots fun _ =>
      below.push (.function f) ++ (normalized params.length vs).toArray
    let called := runAction H (Action.call vs.length (-1)) s
    if s.config.maxCallDepth ≤ s.callDepth then
      ∃ peak, called = .error (.raised .stackOverflow) (s.holding below peak)
    else
      (∃ i, ∃ h : i < params.length, ∃ e, s.decode params[i] (vs.getD i .nil) = .error e ∧
        (∀ j, ∀ h : j < params.length, j < i →
          ∃ x : params[j].Carrier E, s.decode params[j] (vs.getD j .nil) = .ok x) ∧
        called = .error (.raised e) (s.holding below start.peak)) ∨
      ∃ xs, (∀ i, ∀ h : i < params.length,
          s.decode params[i] (vs.getD i .nil) = .ok (Tuple.get params xs i h)) ∧
        match runAction H (H.closure code xs) start with
        | .ok ys v => v.stack.size + results.length ≤ v.stack.maxDepth →
            Ends name s below called (encodings H results ys v)
        | .error fault v => Ends name s below called (.error fault v) := by
  intro params results start called
  by_cases deep : s.config.maxCallDepth ≤ s.callDepth
  · have cut : s.stack.slots.take below.size = below := by
      rw [slots]
      simp
    obtain ⟨peak, same⟩ := mapSlots_of_eq (f := (·.take below.size)) cut
    rw [if_pos deep]
    refine ⟨peak, ?_⟩
    rw [← same]
    exact (call_closure_eq bound slots framed).trans (if_pos deep)
  · rw [if_neg deep]
    have frame : start.base ≤ (below.push (.function f)).size := by
      rw [Array.size_push]
      exact Nat.le_refl _
    have length := length_normalized params.length vs
    rcases decodeTop_cases (s := start) params length rfl frame with
      ⟨i, h, e, failed, before, same⟩ | ⟨xs, each, same⟩
    · left
      rw [getD_normalized h] at failed
      refine ⟨i, h, e, failed, fun j inside earlier => ?_, ?_⟩
      · rw [← getD_normalized inside]
        exact before j inside earlier
      · exact call_of_undecoded bound slots framed deep room rfl same
    · right
      refine ⟨xs, fun i h => getD_normalized h vs ▸ each i h, ?_⟩
      exact call_of_decoded bound slots framed deep room rfl uses same

end Run

/-- A closure that swaps its arguments, the second of which may be missing. -/
@[reducible] def Embedding.swapping : Embedding where
  Tag := Empty
  tagName := Empty.elim
  Payload := Empty.elim
  Native := Empty
  Closure := Unit
  params _ := .tuple [.light, .option .light]
  results _ := .tuple [.option .light, .light]
  World := Unit

def Host.swapping : Host .swapping where
  native code := code.elim
  closure _ := fun (x, y, ()) => do
    Action.push (.light 9)
    return (y, x, ())
  members t := t.elim
  values _ := []
  handles _ := []

def State.swapping : State .swapping :=
  { State.new .standard () with
    stack := ⟨#[.light 7, .function ⟨0⟩, .light 8], Config.standard.maxStackDepth⟩
    heap := { callables := #[⟨"swap", .closure ()⟩] } }

theorem Run.closure_call_outcome_padded :
    ∃ t, State.runAction Host.swapping (Action.call 1 (-1)) State.swapping = .ok () t ∧
      t.stack.slots = #[.light 7, .nil, .light 8] := by
  have uses : Host.swapping.Uses Op.KeepsOpen := by
    refine ⟨fun code => code.elim, fun _ _ => ?_, fun t => t.elim, fun t => t.elim⟩
    exact Prog.Uses.bind (Prog.uses_op trivial) fun _ => trivial
  have bound : State.swapping.heap.callable? ⟨0⟩ = some ⟨"swap", .closure ()⟩ := rfl
  have slots : State.swapping.stack.slots =
      #[Value.light 7].push (.function ⟨0⟩) ++ [Value.light 8].toArray := rfl
  have outcome := closure_call_outcome uses bound slots (by decide) (by decide)
  rw [if_neg (by decide)] at outcome
  rcases outcome with ⟨i, h, e, failed, -⟩ | ⟨⟨x, y, ⟨⟩⟩, each, outcome⟩
  · match i with
    | 0 => cases failed
    | 1 => cases failed
  · cases each 0 (by decide)
    cases each 1 (by decide)
    have body : ∀ s : State .swapping, s.stack.isFull = false →
        State.runAction Host.swapping (Host.swapping.closure () (8, none, ())) s =
          .ok (none, 8, ()) (s.mapSlots (·.push (.light 9))) := by
      intro s room
      change action (enter Host.swapping s.depthLeft) Host.swapping
        (Action.push (.light 9) >>= fun _ => pure (none, 8, ())) s = _
      rw [action_bind, bind_eq, action_push, push_eq, room]
      rfl
    rw [body _ rfl] at outcome
    obtain ⟨peak, ran⟩ := outcome (by decide)
    exact ⟨_, ran, rfl⟩

/-- The closure closes the state before it swaps its arguments. -/
def Host.closing : Host .swapping where
  native code := code.elim
  closure _ := fun (x, y, ()) => do
    Action.perform .close
    return (y, x, ())
  members t := t.elim
  values _ := []
  handles _ := []

/-- A closure that closes the state takes away the slots below its frame with those of the frame. Its
results are then fewer than the stack lacks, and the call of it does not end with an answer or an
error, although the closure has returned. -/
theorem Run.closing_closure_takes_slots :
    let called := State.runAction Host.closing (Action.call 1 (-1))
    called.returned? State.swapping = none ∧ called.raised? State.swapping = none ∧
      (called.final State.swapping).stack.slots = #[.nil, .light 8] := by
  decide +kernel

end HostBridge
