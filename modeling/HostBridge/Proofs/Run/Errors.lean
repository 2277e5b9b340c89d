import HostBridge.Proofs.Run.Raising

namespace HostBridge

/-- Errors for members that a host type does not expose, or not for writing. -/
def Error.isMissing : Error → Bool
  | memberNotFound _ | readOnlyMember .. => true
  | _ => false

theorem Error.isMissing_of_conversion (e : Error) (conversion : e.ofConversion = true) :
    e.isMissing = false := by
  cases e <;> first | rfl | cases conversion

namespace Run
variable {E : Embedding} {α β : Type}

def Unmissed (r : EStateM.Result Fault (State E) α) : Prop :=
  ∀ e t, r = .error (.raised e) t → e.isMissing = false

theorem unmissed_ok (a : α) (t : State E) : Unmissed (.ok a t) := by
  intro e u same
  cases same

theorem unmissed_panicked (p : Panic) (t : State E) :
    Unmissed (.error (.panicked p) t : EStateM.Result Fault (State E) α) := by
  intro e u same
  cases same

theorem unmissed_raised {e : Error} (other : e.isMissing = false) (t : State E) :
    Unmissed (.error (.raised e) t : EStateM.Result Fault (State E) α) := by
  intro e' u same
  cases same
  exact other

theorem Unmissed.error {β : Type} {f : Fault} {t : State E}
    (h : Unmissed (.error f t : EStateM.Result Fault (State E) α)) (u : State E) :
    Unmissed (.error f u : EStateM.Result Fault (State E) β) := by
  intro e v same
  cases same
  exact h e t rfl

def Present (m : Run E α) : Prop := ∀ s, Unmissed (m s)

theorem present_pure (a : α) : Present (pure a : Run E α) := raises_pure a

theorem present_bind {m : Run E α} {f : α → Run E β} (first : Present m)
    (rest : ∀ a, Present (f a)) : Present (m >>= f) := raises_bind first rest

theorem present_modifyGet (f : State E → α × State E) : Present (modifyGet f : Run E α) :=
  raises_modifyGet f

theorem present_push (v : Value) : Present (push v : Run E Unit) :=
  raises_push (P := fun e => e.isMissing = false) rfl v

theorem present_readField (H : Host E) {t : E.Tag} (f : Field E t)
    (g : Getter E t f.shape) (i : Instance E t) : Present (readField H f g i) :=
  raises_readField Error.isMissing_of_conversion H f g i

theorem present_writeField {t : E.Tag} (f : Field E t)
    (g : Setter E t f.shape) (i : Instance E t) (v : Value) :
    Present (writeField f g i v) :=
  raises_writeField Error.isMissing_of_conversion f g i v

end Run
end HostBridge
