import HostBridge.Proofs.Call.Closure
import HostBridge.Proofs.Call.Reachable

namespace HostBridge
namespace State
variable {E : Embedding} {H : Host E} {s t : State E}

theorem Change.maxDepth (change : Change H s t) : t.stack.maxDepth = s.stack.maxDepth := by
  cases change <;> rfl

theorem Changes.maxDepth (changes : s.Changes H t) : t.stack.maxDepth = s.stack.maxDepth :=
  changes.keep (P := fun t => t.stack.maxDepth = s.stack.maxDepth)
    (fun _ _ change before => change.maxDepth.trans before) rfl

/-- The state in which the body of a function begins that is called by value. -/
def entering (s : State E) (f : FunctionId) (args : List Value) (peak : Peak) : State E :=
  (s.holding (s.stack.slots.push (.function f) ++ args.toArray) peak).descend (s.stack.size + 1)

end State

namespace Run
open State
variable {E : Embedding} {H : Host E} {α : Type} {s : State E} {f : FunctionId} {args : List Value}

/-- How a run from `s` ends that calls the function `f` with `args`, by value, and makes its answer
of what the function reports. The function is not entered if the stack has no room for it and its
arguments, or calls are nested too deep already. -/
inductive HandsOver (H : Host E) (f : FunctionId) (args : List Value) (answer : List Value → α)
    (s : State E) : EStateM.Result Fault (State E) α → Prop
  | refused {t : State E} (same : t.heap = s.heap)
      (limit : s.stack.maxDepth < s.stack.size + 1 + args.length ∨
        s.config.maxCallDepth ≤ s.callDepth) :
      HandsOver H f args answer s (.error (.raised .stackOverflow) t)
  | failed {t v : State E} {peak : Peak} {e : Fault}
      (ran : enter H s.depthLeft f (s.entering f args peak) = .error e v)
      (same : t.heap = v.heap) : HandsOver H f args answer s (.error e t)
  | overreported {t v : State E} {peak : Peak} {n : Nat} {p : Panic}
      (ran : enter H s.depthLeft f (s.entering f args peak) = .ok n v)
      (same : t.heap = v.heap) (excess : v.stack.size - (s.stack.size + 1) < n) :
      HandsOver H f args answer s (.error (.panicked p) t)
  | returned {t v : State E} {peak : Peak} {n : Nat}
      (ran : enter H s.depthLeft f (s.entering f args peak) = .ok n v)
      (same : t.heap = v.heap) (enough : n ≤ v.stack.size - (s.stack.size + 1)) :
      HandsOver H f args answer s (.ok (answer (reported v n)) t)

theorem pushAll_holding (vs : List Value) (s : State E) :
    (∃ peak, pushAll vs s = .ok () (s.holding (s.stack.slots ++ vs.toArray) peak)) ∨
    ∃ t, pushAll vs s = .error (.raised .stackOverflow) t ∧ t.heap = s.heap ∧
      s.stack.maxDepth < s.stack.size + vs.length := by
  induction vs generalizing s with
  | nil => exact .inl ⟨s.peak, by simp [pushAll, holding]⟩
  | cons v vs ih =>
    rw [pushAll, bind_eq, push_eq]
    cases full : s.stack.isFull with
    | true =>
      have limit : s.stack.maxDepth ≤ s.stack.size := Stack.isFull_iff.mp full
      exact .inr ⟨s, rfl, rfl, by simp only [List.length_cons]; omega⟩
    | false =>
      have size : (s.mapSlots (·.push v)).stack.size = s.stack.size + 1 := Array.size_push v
      rcases ih (s.mapSlots (·.push v)) with ⟨peak, ran⟩ | ⟨t, ran, same, limit⟩
      · refine .inl ⟨peak, ?_⟩
        simp only [Bool.false_eq_true, if_false, ran]
        simp [holding, mapSlots]
      · rw [size] at limit
        have limit : s.stack.maxDepth < s.stack.size + 1 + vs.length := limit
        exact .inr ⟨t, ran, same, by simp only [List.length_cons]; omega⟩

theorem length_adjust (vs : List Value) {k : Int} (wanted : 0 ≤ k) :
    ((adjust vs k).length : Int) = k := by
  rw [adjust, if_neg (Int.not_lt.mpr wanted), List.length_append, List.length_take,
    List.length_replicate]
  omega

/-- Delivering at most one result always succeeds on the stack that the function was pushed on. A
function that closed the state may leave a stack that ends below its place; it can report nothing
then, and nothing lies there afterwards. -/
theorem deliver_few (f : FunctionId) {func n : Nat} {k : Int} {v : State E} (wanted : 0 ≤ k)
    (few : k ≤ 1) (room : func < v.stack.maxDepth) (enough : n ≤ v.stack.size - (func + 1)) :
    ∃ t, deliver f func n k v = .ok () t ∧ t.heap = v.heap ∧
      ((t.stack.slots.extract func t.stack.size).toList = adjust (reported v n) k ∨
        reported v n = [] ∧ (t.stack.slots.extract func t.stack.size).toList = []) := by
  have length := length_adjust (reported v n) wanted
  rw [deliver_eq, if_neg (Nat.not_lt.mpr enough)]
  rcases pushAll_holding (adjust (reported v n) k) (v.mapSlots (·.take func)) with
    ⟨peak, ran⟩ | ⟨t, -, -, limit⟩
  · refine ⟨_, ran, rfl, ?_⟩
    by_cases reaches : func ≤ v.stack.slots.size
    · have size : (v.stack.slots.take func).size = func := size_take reaches
      left
      simp [holding, Stack.size, Array.extract_append, size]
    · have none : n = 0 := by
        simp only [Stack.size] at enough
        omega
      have short : (v.stack.slots.take func ++ (adjust (reported v n) k).toArray).size ≤ func := by
        simp only [Array.take_eq_extract, Array.size_append, Array.size_extract, List.size_toArray]
        omega
      refine .inr ⟨by simp [reported, none], ?_⟩
      apply congrArg Array.toList
      exact Array.extract_eq_empty_of_le (Nat.le_trans (Nat.min_le_right _ _) short)
  · have size : (v.mapSlots (·.take func)).stack.size ≤ func := by
      simp only [Stack.size, slots_mapSlots, Array.take_eq_extract, Array.size_extract]
      omega
    have limit : v.stack.maxDepth < _ := limit
    omega

theorem callValue_function (go : Enter E) (f : FunctionId) (args : List Value) (k : Int)
    (s : State E) :
    (∃ t, callValue go (.function f) args k s = .error (.raised .stackOverflow) t ∧
      t.heap = s.heap ∧ (s.stack.maxDepth < s.stack.size + 1 + args.length ∨
        s.config.maxCallDepth ≤ s.callDepth)) ∨
    s.stack.size < s.stack.maxDepth ∧ ∃ peak, callValue go (.function f) args k s =
      match go f (s.entering f args peak) with
      | .ok n v => match deliver f s.stack.size n k (v.ascend s.base) with
        | .ok _ t => .ok (t.stack.slots.extract s.stack.size t.stack.size).toList
            (t.mapSlots (·.take s.stack.size))
        | .error (.raised e) t => .error (.raised e) (t.mapSlots (·.take s.stack.size))
        | .error (.panicked p) t => .error (.panicked p) t
      | .error (.raised e) v =>
        .error (.raised e) ((v.ascend s.base).mapSlots (·.take s.stack.size))
      | .error (.panicked p) v => .error (.panicked p) v := by
  rw [callValue_eq]
  cases full : s.stack.isFull with
  | true =>
    have limit : s.stack.maxDepth ≤ s.stack.size := Stack.isFull_iff.mp full
    exact .inl ⟨s, rfl, rfl, .inl (by omega)⟩
  | false =>
    have room : s.stack.size < s.stack.maxDepth := Stack.free_iff.mp full
    have size : (s.mapSlots (·.push (.function f))).stack.size = s.stack.size + 1 :=
      Array.size_push _
    simp only [Bool.false_eq_true, if_false, bind_eq]
    rcases pushAll_holding args (s.mapSlots (·.push (.function f))) with
      ⟨peak, pushed⟩ | ⟨t, pushed, same, limit⟩
    · let u := s.holding (s.stack.slots.push (.function f) ++ args.toArray) peak
      have placed : u.stack.slots = s.stack.slots.push (.function f) ++ args.toArray := rfl
      have called : callAt go s.stack.size k u = _ := callAt_of_placed placed go k
      have holds : (s.mapSlots (·.push (.function f))).holding
          ((s.mapSlots (·.push (.function f))).stack.slots ++ args.toArray) peak = u := rfl
      simp only [pushed, holds, called]
      by_cases deep : s.config.maxCallDepth ≤ s.callDepth
      · have deep' : u.config.maxCallDepth ≤ u.callDepth := deep
        rw [if_pos deep']
        exact .inl ⟨_, rfl, rfl, .inr deep⟩
      · have shallow : ¬u.config.maxCallDepth ≤ u.callDepth := deep
        rw [if_neg shallow]
        refine .inr ⟨room, peak, ?_⟩
        have enters : u.descend (s.stack.slots.size + 1) = s.entering f args peak := rfl
        rw [enters]
        cases go f (s.entering f args peak) with
        | ok n v => rfl
        | error e v => cases e <;> rfl
    · simp only [pushed]
      rw [size] at limit
      exact .inl ⟨_, rfl, same, .inl limit⟩

theorem handsOver_callValue {k : Int} (wanted : 0 ≤ k) (few : k ≤ 1)
    {answer pick : List Value → α} (picks : ∀ vs, pick (adjust vs k) = answer vs)
    (none : pick [] = answer []) :
    HandsOver H f args answer s
      ((callValue (enter H s.depthLeft) (.function f) args k >>= fun vs => pure (pick vs)) s) := by
  rw [bind_eq]
  rcases callValue_function (enter H s.depthLeft) f args k s with
    ⟨t, ran, same, limit⟩ | ⟨room, peak, ran⟩
  · rw [ran]
    exact .refused same limit
  · rw [ran]
    have limit : ((enter H s.depthLeft f).final (s.entering f args peak)).stack.maxDepth =
        s.stack.maxDepth := (evolves_enter (H := H) s.depthLeft f _).changes.maxDepth
    cases entered : enter H s.depthLeft f (s.entering f args peak) with
    | error e v =>
      cases e with
      | raised e => exact .failed entered rfl
      | panicked p => exact .failed entered rfl
    | ok n v =>
      rw [final_of_ok entered] at limit
      by_cases excess : v.stack.size - (s.stack.size + 1) < n
      · have excess' : (v.ascend s.base).stack.size - (s.stack.size + 1) < n := excess
        simp only [deliver_eq, if_pos excess']
        exact .overreported entered rfl excess
      · have enough := Nat.le_of_not_lt excess
        obtain ⟨t, delivered, same, results⟩ := deliver_few f (v := v.ascend s.base) wanted few
          (limit ▸ room) enough
        have answers : pick (t.stack.slots.extract s.stack.size t.stack.size).toList =
            answer (reported v n) := by
          rcases results with all | ⟨nothing, empty⟩
          · exact (congrArg pick all).trans (picks _)
          · have nothing : reported v n = [] := nothing
            rw [empty, nothing, none]
        simp only [delivered, pure_eq, answers]
        exact .returned entered same enough

end Run
end HostBridge
