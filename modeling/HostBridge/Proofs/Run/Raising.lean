import HostBridge.Proofs.Run.Conversion
import HostBridge.Proofs.Run.Respects

namespace HostBridge

/-- Errors of conversions, and of the bindings of host types that they install. -/
def Error.ofConversion : Error → Bool
  | typeMismatch .. | userdataTypeMismatch .. | instanceBorrowed _ | stackOverflow => true
  | invalidKey _ | runtime _ => true
  | _ => false

def Fails {α : Type} (P : Error → Prop) (r : Except Error α) : Prop := ∀ e, r = .error e → P e

section Fails
variable {α β : Type} {P : Error → Prop}

theorem fails_ok (a : α) : Fails P (.ok a) := nofun

theorem fails_error {e : Error} (such : P e) : Fails P (.error e : Except Error α) :=
  fun _ same => Except.error.inj same ▸ such

theorem fails_bind {r : Except Error α} {f : α → Except Error β} (first : Fails P r)
    (rest : ∀ a, Fails P (f a)) : Fails P (r >>= f) := by
  cases r with
  | ok a => exact rest a
  | error e => exact fails_error (first e rfl)

theorem fails_mapM {f : α → Except Error β} (each : ∀ a, Fails P (f a)) (xs : List α) :
    Fails P (xs.mapM f) := by
  induction xs with
  | nil => exact fails_ok []
  | cons x xs ih =>
    rw [List.mapM_cons]
    exact fails_bind (each x) fun y => fails_bind ih fun ys => fails_ok (y :: ys)

theorem fails_foldlM {f : β → α → Except Error β} (each : ∀ b a, Fails P (f b a)) (xs : List α)
    (b : β) : Fails P (xs.foldlM f b) := by
  induction xs generalizing b with
  | nil => exact fails_ok b
  | cons x xs ih =>
    rw [List.foldlM_cons]
    exact fails_bind (each b x) fun b => ih b

end Fails

section Conversions
variable {P : Error → Prop} (conversions : ∀ e, e.ofConversion = true → P e)
include conversions

namespace Heap
variable {E : Embedding} (h : Heap E)

theorem fails_refOf (t : E.Tag) (u : UserdataId) : Fails P (h.refOf t u) := by
  unfold refOf
  split
  · split
    · exact fails_ok _
    · exact fails_error (conversions _ rfl)
  · exact fails_error (conversions _ rfl)

theorem fails_admits {t : E.Tag} (r : HostRef E t) (a : Access) : Fails P (h.admits r a) := by
  unfold admits
  split
  · split
    · exact fails_ok ()
    · exact fails_error (conversions _ rfl)
  · exact fails_ok ()

theorem fails_payload {t : E.Tag} (r : HostRef E t) : Fails P (h.payload r) := by
  unfold payload
  split
  · exact fails_ok _
  · exact fails_error (conversions _ rfl)

omit conversions in
theorem fails_hostValueWith {nested : TableId → Except Error HostMap}
    (each : ∀ t, Fails P (nested t)) (v : Value) : Fails P (hostValueWith nested v) := by
  cases v with
  | table t => exact fails_bind (each t) fun m => fails_ok _
  | _ => exact fails_ok _

theorem fails_hostMap (room : Nat) (t : TableId) : Fails P (h.hostMap room t) := by
  induction room generalizing t with
  | zero => exact fails_error (conversions _ rfl)
  | succ room ih =>
    apply fails_foldlM
    intro m p
    apply fails_bind
    · cases p.1 <;> first | exact fails_ok _ | exact fails_error (conversions _ rfl)
    · exact fun key => fails_bind (fails_hostValueWith ih p.2) fun x => fails_ok _

theorem fails_decode (room : Nat) (s : Shape E.Tag) (v : Value) : Fails P (h.decode room s v) := by
  induction s generalizing v with
  | value => exact fails_ok v
  | hostValue => exact fails_hostValueWith (h.fails_hostMap conversions room) v
  | hostMap =>
    cases v with
    | table t => exact h.fails_hostMap conversions room t
    | _ => exact fails_error (conversions _ rfl)
  | object t =>
    cases v with
    | userdata u =>
      apply fails_bind (h.fails_refOf conversions t u)
      exact fun r => fails_bind (h.fails_admits conversions r .shared) fun _ =>
        h.fails_payload conversions r
    | _ => exact fails_error (conversions _ rfl)
  | ref t =>
    cases v with
    | userdata u => exact h.fails_refOf conversions t u
    | _ => exact fails_error (conversions _ rfl)
  | option s ih =>
    cases v with
    | nil => exact fails_ok none
    | _ => exact fails_bind (ih _) fun x => fails_ok (some x)
  | list s ih =>
    cases v with
    | table t => exact fails_mapM ih _
    | _ => exact fails_error (conversions _ rfl)
  | _ => cases v <;> first | exact fails_ok _ | exact fails_error (conversions _ rfl)

end Heap

namespace Binding
variable {E : Embedding} {t : E.Tag}

theorem fails_operatorFault (type : String) (seen : List Event) (os : List (Operator E t)) :
    ∀ e, operatorFault? type seen os = some e → P e := by
  induction os generalizing seen with
  | nil => exact nofun
  | cons o os ih =>
    intro e fault
    unfold operatorFault? at fault
    split at fault
    · exact Option.some.inj fault ▸ conversions _ rfl
    · split at fault
      · exact Option.some.inj fault ▸ conversions _ rfl
      · exact ih _ e fault

theorem fails_build (name : String) (members : List (Member E t)) :
    Fails P (build name members) := by
  unfold build
  simp only
  split
  · exact fails_error (conversions _ rfl)
  · split
    · rename_i fault
      exact fails_error (fails_operatorFault conversions _ _ _ _ fault)
    · exact fails_ok _

end Binding

theorem fails_set (x : Table) (key v : Value) : Fails P (x.set key v) := by
  unfold Table.set
  cases key with
  | nil => exact fails_error (conversions _ rfl)
  | number n =>
    simp only [Table.keyFault?]
    cases n.isNaN
    · exact fails_ok _
    · exact fails_error (conversions _ rfl)
  | _ => exact fails_ok _

end Conversions

namespace Run
variable {E : Embedding} {α β : Type} {P : Error → Prop}

def Raises (P : Error → Prop) (m : Run E α) : Prop := ∀ s e t, m s = .error (.raised e) t → P e

theorem raises_pure (a : α) : Raises P (pure a : Run E α) := by
  intro s e t failed
  cases failed

theorem raises_unlessPanic (r : Except Panic α) : Raises P (unlessPanic r : Run E α) := by
  intro s e t failed
  cases r <;> cases failed

theorem raises_ofExcept {r : Except Error α} (fails : Fails P r) :
    Raises P (ofExcept r : Run E α) := by
  intro s e t failed
  cases r with
  | ok a => contradiction
  | error e' =>
    cases failed
    exact fails e rfl

theorem raises_raise {e : Error} (such : P e) : Raises P (raise e : Run E α) :=
  raises_ofExcept (fails_error such)

theorem raises_bind {m : Run E α} {f : α → Run E β} (first : Raises P m)
    (rest : ∀ a, Raises P (f a)) : Raises P (m >>= f) := by
  intro s e t failed
  rw [bind_eq] at failed
  cases ran : m s with
  | ok a u =>
    rw [ran] at failed
    exact rest a u e t failed
  | error fault u =>
    rw [ran] at failed
    cases failed
    exact first s e _ ran

theorem raises_keeping (vs : List Value) {m : Run E α} (h : Raises P m) :
    Raises P (keeping vs m) := by
  cases vs with
  | nil => exact h
  | cons v vs =>
    intro s e t failed
    obtain ⟨u, inner, -⟩ := of_keeping_error failed
    exact h _ e u inner

theorem raises_get_bind {f : State E → Run E α} (rest : ∀ s, Raises P (f s)) :
    Raises P (get >>= f) := fun s => rest s s

theorem raises_read {f : State E → Except Error α} (fails : ∀ s, Fails P (f s)) :
    Raises P (read f) :=
  raises_get_bind fun s => raises_ofExcept (fails s)

theorem raises_modifyGet (f : State E → α × State E) : Raises P (modifyGet f : Run E α) := by
  intro s e t failed
  cases failed

theorem raises_push (overflow : P .stackOverflow) (v : Value) :
    Raises P (push v : Run E Unit) := by
  refine raises_get_bind fun s => ?_
  cases s.stack.isFull with
  | true => exact raises_raise overflow
  | false => exact raises_modifyGet _

theorem raises_addHooks (t : E.Tag) (name : String) (es : List Event) (x : Table) :
    Raises P (addHooks t name es x : Run E Table) := by
  induction es generalizing x with
  | nil => exact raises_pure x
  | cons e es ih => exact raises_bind (raises_modifyGet _) fun f => ih _

section Conversions
variable (conversions : ∀ e, e.ofConversion = true → P e)
include conversions

theorem raises_bindingFor (H : Host E) (t : E.Tag) : Raises P (bindingFor H t) := by
  refine raises_bind (raises_ofExcept (Binding.fails_build conversions _ _)) fun b => ?_
  exact raises_bind (raises_modifyGet _) fun _ => raises_get_bind fun _ => raises_pure _

theorem raises_install (H : Host E) (t : E.Tag) : Raises P (install H t) := by
  refine raises_get_bind fun s => ?_
  cases s.typeMetatable? t with
  | some m => exact raises_pure m
  | none =>
    refine raises_bind (raises_ofExcept (Binding.fails_build conversions _ _)) fun b => ?_
    refine raises_bind (raises_addHooks _ _ _ _) fun x => ?_
    refine raises_bind (raises_modifyGet _) fun m => ?_
    refine raises_get_bind fun s => ?_
    refine raises_bind (raises_modifyGet _) fun _ => ?_
    exact raises_bind (raises_modifyGet _) fun _ => raises_pure m

theorem raises_converts (H : Host E) : Converts (E := E) H fun _ => Raises P where
  pure := raises_pure
  bind := raises_bind
  set x key v := raises_ofExcept (fails_set conversions x key v)
  binding := raises_bindingFor conversions H
  install := raises_install conversions H
  allocTable _ := raises_modifyGet _
  allocObject _ _ := raises_modifyGet _
  allocUserdata _ := raises_modifyGet _

theorem raises_encode (H : Host E) (s : Shape E.Tag) (x : s.Carrier E) :
    Raises P (encode H s x) :=
  converted_encode (raises_converts conversions H) s x

theorem raises_borrowing {t : E.Tag} (r : HostRef E t) (a : Access) {body : Run E α}
    (h : Raises P body) : Raises P (borrowing r a body) := by
  refine raises_bind (raises_read fun s => s.heap.fails_admits conversions r a) fun _ => ?_
  refine raises_bind (raises_modifyGet _) fun _ => ?_
  intro s e t failed
  rw [tryCatch_eq, bind_eq] at failed
  cases ran : body s with
  | ok x u =>
    rw [ran] at failed
    contradiction
  | error f u =>
    rw [ran] at failed
    cases failed
    exact h s e u ran

theorem raises_readField (H : Host E) {t : E.Tag} (f : Field E t)
    (g : Getter E t f.shape) (i : Instance E t) :
    Raises P (readField H f g i) := by
  apply raises_bind
  · apply raises_borrowing conversions
    refine raises_bind (raises_read fun s => s.heap.fails_payload conversions i.ref) fun p => ?_
    exact raises_bind (raises_modifyGet _) fun _ => raises_unlessPanic (g p)
  · exact fun x => raises_encode conversions H f.shape x

theorem raises_writeField {t : E.Tag} (f : Field E t)
    (g : Setter E t f.shape) (i : Instance E t) (v : Value) :
    Raises P (writeField f g i v) := by
  refine raises_bind (raises_read fun s => s.heap.fails_decode conversions _ f.shape v) fun x => ?_
  apply raises_borrowing conversions
  refine raises_bind (raises_read fun s => s.heap.fails_payload conversions i.ref) fun p => ?_
  refine raises_bind (raises_modifyGet _) fun _ => ?_
  exact raises_bind (raises_modifyGet _) fun _ => raises_unlessPanic _

end Conversions

end Run
end HostBridge
