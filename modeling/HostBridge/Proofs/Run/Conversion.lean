import HostBridge.State.Codec

namespace HostBridge
namespace Run
variable {E : Embedding} {α β : Type}

/-- A property of runs that passes from the steps of a conversion to the whole of it. -/
structure Converts (H : Host E) (J : (α : Type) → Run E α → Prop) : Prop where
  pure {α : Type} (a : α) : J α (pure a)
  bind {α β : Type} {m : Run E α} {f : α → Run E β} : J α m → (∀ a, J β (f a)) → J β (m >>= f)
  set (x : Table) (key v : Value) : J Table (ofExcept (x.set key v))
  binding (t : E.Tag) : J SharedBinding (bindingFor H t)
  install (t : E.Tag) : J TableId (install H t)
  allocTable (x : Table) : J TableId (allocTable x)
  allocObject (t : E.Tag) (x : E.Payload t) : J (HostRef E t) (allocObject t x)
  allocUserdata (d : Userdata E) : J UserdataId (allocUserdata d)

variable {H : Host E} {J : (α : Type) → Run E α → Prop} (laws : Converts H J)
include laws

theorem converted_newTable {m : Run E Table} (contents : J Table m) :
    J Value (do return .table (← allocTable (← m))) :=
  laws.bind contents fun x => laws.bind (laws.allocTable x) fun _ => laws.pure _

theorem converted_reflect (t : E.Tag) (r : HostRef E t) : J UserdataId (reflect H t r) :=
  laws.bind (laws.binding t) fun _ => laws.bind (laws.install t) fun _ => laws.allocUserdata _

mutual

theorem converted_encodeHostValue (x : HostValue) : J Value (encodeHostValue x) := by
  cases x with
  | map m =>
    unfold encodeHostValue
    exact converted_newTable laws (converted_encodeHostMap m .empty)
  | _ =>
    unfold encodeHostValue
    exact laws.pure _

theorem converted_encodeHostMap (m : HostMap) (x : Table) : J Table (encodeHostMap m x) := by
  cases m with
  | empty =>
    unfold encodeHostMap
    exact laws.pure x
  | pair k v r =>
    unfold encodeHostMap
    refine laws.bind (converted_encodeHostValue v) fun value => ?_
    split
    · exact converted_encodeHostMap r x
    · exact laws.bind (laws.set x k.toValue value) fun y => converted_encodeHostMap r y

end

theorem converted_mapM {f : α → Run E β} (each : ∀ a, J β (f a)) (xs : List α) :
    J (List β) (xs.mapM f) := by
  induction xs with
  | nil =>
    rw [List.mapM_nil]
    exact laws.pure []
  | cons x xs ih =>
    rw [List.mapM_cons]
    exact laws.bind (each x) fun b => laws.bind ih fun bs => laws.pure (b :: bs)

theorem converted_encode (s : Shape E.Tag) (x : s.Carrier E) : J Value (encode H s x) := by
  induction s with
  | hostValue => exact converted_encodeHostValue laws x
  | hostMap => exact converted_newTable laws (converted_encodeHostMap laws x .empty)
  | object t =>
    refine laws.bind (laws.binding t) fun _ => ?_
    refine laws.bind (laws.allocObject t x) fun r => ?_
    exact laws.bind (converted_reflect laws t r) fun _ => laws.pure _
  | ref t => exact laws.bind (laws.allocUserdata _) fun _ => laws.pure _
  | option s ih =>
    cases x with
    | none => exact laws.pure Value.nil
    | some x => exact ih x
  | list s ih =>
    refine laws.bind (converted_mapM laws ih x) fun vs => ?_
    exact laws.bind (laws.allocTable _) fun _ => laws.pure _
  | _ => exact laws.pure _

end Run
end HostBridge
