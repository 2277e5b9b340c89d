import HostBridge.Proofs.Call.Balance

namespace HostBridge
namespace State
variable {E : Embedding} {H : Host E}

/-- The states that a host comes to from `s₀` that borrows objects through its handles, and what it
holds of each object there. It gives back in any order, and runs what it likes in between. -/
inductive Holding (H : Host E) (s₀ : State E) : State E → (ObjectId → List Access) → Prop
  | start : Holding H s₀ s₀ fun _ => []
  | acquire {s s' : State E} {held : ObjectId → List Access} {t : E.Tag} (r : HostRef E t)
      (a : Access) : Holding H s₀ s held →
      runAction H (Action.perform (.acquire t r a)) s = .ok () s' →
      Holding H s₀ s' (Function.update held r.object (a :: held r.object))
  | release {s s' : State E} {held : ObjectId → List Access} {t : E.Tag} (r : HostRef E t)
      (a : Access) : Holding H s₀ s held → a ∈ held r.object →
      runAction H (Action.perform (.release t r a)) s = .ok () s' →
      Holding H s₀ s' (Function.update held r.object ((held r.object).erase a))
  | returned {s s' : State E} {held : ObjectId → List Access} {α : Type} {m : Action E α} {x : α} :
      Holding H s₀ s held → m.Balanced → runAction H m s = .ok x s' → Holding H s₀ s' held
  | raised {s s' : State E} {held : ObjectId → List Access} {α : Type} {m : Action E α}
      {e : Error} : Holding H s₀ s held → m.Balanced →
      runAction H m s = .error (.raised e) s' → Holding H s₀ s' held
  | settled {s : State E} {held : ObjectId → List Access} (before : List Value) :
      Holding H s₀ s held → Holding H s₀ (s.settle H before) held

namespace Holding
open Run
variable {s₀ s : State E} {held : ObjectId → List Access}

theorem changes (holding : Holding H s₀ s held) : s₀.Changes H s := by
  induction holding with
  | start => exact .refl s₀
  | acquire r a _ ran ih => exact ih.trans ((changes_runAction _).of_ok ran)
  | release r a _ _ ran ih => exact ih.trans ((changes_runAction _).of_ok ran)
  | returned _ _ ran ih => exact ih.trans ((changes_runAction _).of_ok ran)
  | raised _ _ ran ih => exact ih.trans ((changes_runAction _).of_error ran)
  | settled before _ ih => exact ih.trans (changes_settle before _)

/-- Every object is borrowed as it was at the start, and by what the host holds of it. -/
theorem lent (holding : Holding H s₀ s held) (balanced : H.Balanced) :
    s₀.heap.Lent held s.heap := by
  induction holding with
  | start => exact .of_sameUse (.refl _)
  | @acquire s s' held t r a before ran ih =>
    have ran := (congrFun (action_op _ H (.acquire t r a)) s).symm.trans ran
    rw [perform_acquire] at ran
    by_cases admitted : (s.heap.borrow r.object).admits a = true
    · rw [if_pos admitted] at ran
      cases ran
      exact ih.acquire admitted
    · rw [if_neg admitted] at ran
      cases ran
  | @release s s' held t r a before listed ran ih =>
    have ran := (congrFun (action_op _ H (.release t r a)) s).symm.trans ran
    cases ran
    exact ih.release listed
  | @returned s s' held α m x _ such ran ih =>
    have step := balances_runAction balanced such s
    rw [ran] at step
    exact ih.after step
  | @raised s s' held α m e _ such ran ih =>
    have step := balances_runAction balanced such s
    rw [ran] at step
    exact ih.after step
  | settled before _ ih => exact ih.after (.of_objects (objects_settle H _ before))

end Holding
end State
end HostBridge
