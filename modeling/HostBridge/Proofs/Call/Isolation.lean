import HostBridge.Proofs.Run.Isolated
import HostBridge.Proofs.Call.Outcome
/-!
Actions are isolated from the slots below the frame that they run in, nested calls included. A
function gets a frame above the values of its caller, so that what lies below the caller's frame is
below its own frame as well.
-/
namespace HostBridge

/-- Every operation but `close`, which clears the whole stack. Where other scalars may be below the
frame, `describe` is left out as well, which shows them, and the numbers of arguments are so small
that no position above a stack of `limit` slots wraps around. -/
def Op.StaysAbove (others : Prop) (limit : Nat) {E : Embedding} : Op E → Prop
  | .close => False
  | .describe => ¬others
  | .argument n => others → n + limit ≤ 0x10000000000000000
  | _ => True

theorem Op.KeepsOpen.staysAbove {E : Embedding} {limit : Nat} {o : Op E} (open' : o.KeepsOpen) :
    o.StaysAbove False limit := by
  cases o with
  | close => exact open'
  | describe => exact id
  | argument n => exact fun impossible => impossible.elim
  | _ => trivial

theorem Op.StaysAbove.keepsOpen {E : Embedding} {others : Prop} {limit : Nat} {o : Op E}
    (stays : Op.StaysAbove others limit o) : o.KeepsOpen := by
  cases o with
  | close => exact stays
  | _ => trivial

theorem Stack.lt_of_get {s : Stack} {i : Nat} {v : Value} (found : s.get i = .ok v) :
    i < s.size := by
  unfold Stack.get at found
  cases slot : s.slots[i]? with
  | none =>
    rw [slot] at found
    contradiction
  | some w => exact (Array.getElem?_eq_some_iff.mp slot).1

namespace Run
open State
variable {E : Embedding} {α β : Type} {others : Prop} {floor limit : Nat} {s : State E}

def Confined (others : Prop) (floor limit : Nat) (m : Run E α) : Prop :=
  ∀ s, s.Above floor limit → ConfinedAt others floor s m

/-- What a protected call makes of an error of the function at `func`. -/
def note (func : Nat) (e : Error) : Run E CallStatus := do
  truncate func
  push (.string e.message)
  modify fun s => { s with lastError := some e }
  return .ofError e

/-! One call. -/

theorem isolatedAt_insertHandler (above : s.Above floor limit) {func : Nat} (frame : s.base ≤ func)
    (inside : func ≤ s.stack.size) (v : Value) :
        IsolatedAt others floor s (insertHandler func v) := by
  apply IsolatedAt.get_bind _ above
  · rintro low rfl -
    simp only [heap_beneath, isFull_beneath above]
  · cases s.heap.metafield v .call with
    | function f =>
      cases full : s.stack.isFull with
      | true =>
        apply (isolated_raise (α := FunctionId) .stackOverflow s above).congr above
        intro low _ _
        rfl
      | false =>
        apply (isolatedAt_insertAt above f frame inside full (.function f)).congr above
        intro low _ _
        rfl
    | _ => exact isolated_raise _ s above

theorem isolatedAt_callee (above : s.Above floor limit) {func : Nat} (frame : s.base ≤ func) :
    IsolatedAt others floor s (callee func) := by
  cases found : s.stack.get func with
  | error e =>
    apply (isolated_raise (α := FunctionId) e s above).congr above
    rintro low rfl -
    rw [callee, bind_eq, read_eq, get_beneath (Nat.le_trans above.base frame), found]
    rfl
  | ok v =>
    have inside : func < s.stack.size := Stack.lt_of_get found
    have looked : ∀ low : Array Value, low.size = floor →
        read (·.stack.get func) (s.beneath low) = .ok v (s.beneath low) := by
      rintro low rfl
      rw [read_eq, get_beneath (Nat.le_trans above.base frame), found]
      rfl
    cases v with
    | function f =>
      apply (isolated_pure f s above).congr above
      intro low size _
      rw [callee, bind_eq, looked low size]
    | _ =>
      apply (isolatedAt_insertHandler above frame (Nat.le_of_lt inside) _).congr above
      intro low size _
      rw [callee, bind_eq, looked low size]

theorem inside_of_callee {func : Nat} {f : FunctionId} {t : State E}
    (found : callee func s = .ok f t) : func < t.stack.size := by
  have inside : func < s.stack.size := by
    rw [callee, bind_eq, read_eq] at found
    cases slot : s.stack.get func with
    | error e =>
      rw [slot] at found
      contradiction
    | ok v => exact Stack.lt_of_get slot
  rcases callee_cases func s with ⟨g, eq⟩ | ⟨g, -, eq⟩ | ⟨e, eq⟩
  · rw [eq] at found
    cases found
    exact inside
  · rw [eq] at found
    cases found
    have le : func ≤ s.stack.slots.size := Nat.le_of_lt inside
    rw [Stack.size, slots_mapSlots, size_insertIdxIfInBounds le]
    exact Nat.lt_succ_of_lt inside
  · rw [eq] at found
    contradiction

theorem isolatedAt_inFrame (above : s.Above floor limit) {frame : Nat} (lower : s.base ≤ frame)
    (upper : frame ≤ s.stack.size) {body : Run E α} (confined : Confined others floor limit body) :
    IsolatedAt others floor s (inFrame frame body) := by
  have above' : (s.descend frame).Above floor limit :=
    ⟨Nat.le_trans above.base lower, upper, above.bounded, above.limit⟩
  have inner := confined _ above'
  have covers := inner.covers
  unfold final at covers
  constructor
  · constructor
    · rw [final, inFrame_eq]
      cases ran : body (s.descend frame) with
      | ok x t =>
        rw [ran] at covers
        exact ⟨Nat.le_trans lower covers.framed, covers.bounded, covers.maxDepth⟩
      | error f t =>
        rw [ran] at covers
        cases f with
        | raised e => exact ⟨Nat.le_trans lower covers.framed, covers.bounded, covers.maxDepth⟩
        | panicked p => exact ⟨Nat.le_trans lower covers.framed, covers.bounded, covers.maxDepth⟩
    · intro low size apart
      have there : body ((s.beneath low).descend frame) =
          mapState (·.beneath low) (body (s.descend frame)) := inner.blind low size apart
      rw [inFrame_eq, inFrame_eq, there]
      cases body (s.descend frame) with
      | ok x t => rfl
      | error f t => cases f <;> rfl
  · intro a t ran
    rw [inFrame_eq] at ran
    cases left : body (s.descend frame) with
    | ok x u =>
      rw [left] at ran
      cases ran
      rfl
    | error f u =>
      rw [left] at ran
      cases f <;> contradiction
  · intro e t ran
    rw [inFrame_eq] at ran
    cases left : body (s.descend frame) with
    | ok x u =>
      rw [left] at ran
      cases ran
    | error f u =>
      rw [left] at ran
      cases f with
      | raised e' =>
        cases ran
        rfl
      | panicked p => cases ran

/-- The callee leaves the stack at least as high as the beginning of its frame. -/
theorem frame_le_of_inFrame (above : s.Above floor limit) {frame : Nat} (lower : s.base ≤ frame)
    (upper : frame ≤ s.stack.size) {body : Run E α} (confined : Confined others floor limit body)
    {a : α} {t : State E} (ran : inFrame frame body s = .ok a t) : frame ≤ t.stack.size := by
  have above' : (s.descend frame).Above floor limit :=
    ⟨Nat.le_trans above.base lower, upper, above.bounded, above.limit⟩
  have covers := (confined _ above').covers
  unfold final at covers
  rw [inFrame_eq] at ran
  cases left : body (s.descend frame) with
  | ok x u =>
    rw [left] at ran covers
    cases ran
    exact covers.framed
  | error f u =>
    rw [left] at ran
    cases f <;> contradiction

theorem isolatedAt_deliver (above : s.Above floor limit) {func : Nat} (lower : s.base ≤ func)
    (upper : func < s.stack.size) (f : FunctionId) (returned : Nat) (nresults : Int) :
    IsolatedAt others floor s (deliver f func returned nresults) := by
  by_cases excess : s.stack.size - (func + 1) < returned
  · have panics : IsolatedAt others floor s.withOverreport (throw (.panicked
        (overreport (s.heap.functionName f) returned (s.stack.size - (func + 1)))) : Run E Unit) :=
      isolated_throw _ _ { above with }
    apply panics.after { above.covers with } rfl
    · rw [deliver_eq, if_pos excess]
      rfl
    · rintro low rfl apart
      refine ⟨apart, ?_⟩
      rw [deliver_eq, size_beneath above, if_pos excess, heap_beneath]
      rfl
  · have start : floor ≤ s.stack.size - returned := by
      have base := above.base
      omega
    have delivered : IsolatedAt others floor s (truncate func >>= fun _ =>
        pushAll (adjust (s.stack.slots.extract (s.stack.size - returned) s.stack.size).toList
          nresults)) := by
      apply (isolatedAt_truncate above lower).bind above
      intro _ t _ above'
      exact isolated_pushAll _ t above'
    apply delivered.congr above
    rintro low rfl -
    rw [deliver_eq, size_beneath above, if_neg excess, extract_beneath above start]
    rfl

theorem position_of_call {nargs : Int} {func : Nat} {t : State E}
    (found : callPosition nargs s = .ok func t) : t = s ∧ s.base ≤ func := by
  rw [callPosition_eq] at found
  split at found
  · contradiction
  · split at found
    · contradiction
    · cases found
      exact ⟨rfl, by omega⟩

theorem isolated_callPosition (nargs : Int) :
    Isolated others floor limit (callPosition nargs : Run E Nat) := by
  intro s above
  by_cases negative : nargs < 0
  · apply (isolated_raise (α := Nat) (.invalidIndex nargs) s above).congr above
    intro low _ _
    rw [callPosition_eq, if_pos negative]
    rfl
  · by_cases missing : s.stack.size < s.base + nargs.toNat + 1
    · apply (isolated_raise (α := Nat) .stackUnderflow s above).congr above
      rintro low rfl -
      rw [callPosition_eq, if_neg negative, size_beneath above, base_beneath, if_pos missing]
      rfl
    · apply (isolated_pure (s.stack.size - nargs.toNat - 1) s above).congr above
      rintro low rfl -
      rw [callPosition_eq, if_neg negative, size_beneath above, base_beneath, if_neg missing]
      rfl

theorem isolatedAt_orTruncate (above : s.Above floor limit) {func : Nat} (lower : s.base ≤ func)
    {body : Run E α} (isolated : IsolatedAt others floor s body) :
    IsolatedAt others floor s (orTruncate func body) := by
  apply isolated.branch above (f := pure) (g := fun e => truncate func >>= fun _ => raise e)
  · exact orTruncate_eq func body
  · intro a t _ above'
    exact isolated_pure a t above'
  · intro e t ran above'
    apply (isolatedAt_truncate above' (isolated.base_of_raised e t ran ▸ lower)).bind above'
    intro _ u _ above''
    exact isolated_raise e u above''

section Callee
variable {enter : Enter E} (enters : ∀ f, Confined others floor limit (enter f))
include enters

theorem isolatedAt_callAt (above : s.Above floor limit) {func : Nat} (lower : s.base ≤ func)
    (nresults : Int) : IsolatedAt others floor s (callAt enter func nresults) := by
  have found : IsolatedAt others floor s (callee func) := isolatedAt_callee above lower
  apply found.bind above
  intro f t ran above'
  have lower' : t.base ≤ func := found.base_of_ok f t ran ▸ lower
  have inside : func < t.stack.size := inside_of_callee ran
  by_cases deep : t.config.maxCallDepth ≤ t.callDepth
  · apply (isolated_raise (α := Unit) .stackOverflow t above').congr above'
    intro low _ _
    have deep' : (t.beneath low).config.maxCallDepth ≤ (t.beneath low).callDepth := deep
    simp only [bind_eq, get_eq, if_pos deep', raise_eq]
  · have entered : IsolatedAt others floor t (inFrame (func + 1) (enter f) >>= fun returned =>
        deliver f func returned nresults) := by
      have framed := isolatedAt_inFrame above' (Nat.le_succ_of_le lower') inside (enters f)
      apply framed.bind above'
      intro returned u left above''
      have kept : u.base ≤ func := framed.base_of_ok returned u left ▸ lower'
      have reaches := frame_le_of_inFrame above' (Nat.le_succ_of_le lower') inside (enters f) left
      exact isolatedAt_deliver above'' kept reaches f returned nresults
    apply entered.congr above'
    intro low _ _
    have deep' : ¬(t.beneath low).config.maxCallDepth ≤ (t.beneath low).callDepth := deep
    simp only [bind_eq, get_eq, if_neg deep']

theorem isolated_call (nargs nresults : Int) :
    Isolated others floor limit (call enter nargs nresults) := by
  intro s above
  apply (isolated_callPosition nargs s above).bind above
  intro func t found above'
  obtain ⟨rfl, lower⟩ := position_of_call found
  exact isolatedAt_orTruncate above lower (isolatedAt_callAt enters above lower nresults)

theorem isolated_pcall (nargs nresults : Int) :
    Isolated others floor limit (pcall enter nargs nresults) := by
  intro s above
  apply (isolated_callPosition nargs s above).bind above
  intro func t found above'
  obtain ⟨rfl, lower⟩ := position_of_call found
  have called := isolatedAt_callAt enters above lower nresults
  apply called.branch above (f := fun _ => pure CallStatus.ok) (g := note func)
  · intro u
    simp only [tryCatch_eq, bind_eq]
    cases callAt enter func nresults u with
    | ok a v => rfl
    | error f v =>
      cases f with
      | panicked p => rfl
      | raised e =>
        simp only [note, truncate, bind_eq, modifySlots_eq]
        cases push (.string e.message) (v.mapSlots (·.take func)) <;> rfl
  · intro a u _ above'
    exact isolated_pure _ u above'
  · intro e u ran above'
    apply (isolatedAt_truncate above' (called.base_of_raised e u ran ▸ lower)).bind above'
    intro _ v _ cut
    apply isolated_bind (isolated_push _) _ v cut
    intro _
    apply isolated_bind (offFrame_modify fun _ _ => rfl).isolated
    intro _
    exact isolated_pure _

theorem isolated_callValue (f : Value) (args : List Value) (nresults : Int) :
    Isolated others floor limit (callValue enter f args nresults) := by
  intro s above
  have framed := above.framed
  have called : IsolatedAt others floor s (push f >>= fun _ =>
      orTruncate s.stack.size (pushAll args >>= fun _ => callAt enter s.stack.size nresults) >>=
        fun _ => get >>= fun t => truncate s.stack.size >>= fun _ =>
          pure (t.stack.slots.extract s.stack.size t.stack.size).toList) := by
    have pushed : IsolatedAt others floor s (push f) := isolated_push f s above
    apply pushed.bind above
    intro _ t ran above'
    have lower : t.base ≤ s.stack.size := pushed.base_of_ok _ t ran ▸ framed
    have placed : IsolatedAt others floor t (pushAll args) := isolated_pushAll args t above'
    have body :
      IsolatedAt others floor t (pushAll args >>= fun _ => callAt enter s.stack.size nresults) := by
      apply placed.bind above'
      intro _ u given above''
      exact isolatedAt_callAt enters above'' (placed.base_of_ok _ u given ▸ lower) nresults
    have tried := isolatedAt_orTruncate above' lower body
    apply tried.bind above'
    intro _ u returned above''
    have lower' : u.base ≤ s.stack.size := tried.base_of_ok _ u returned ▸ lower
    apply IsolatedAt.get_bind _ above''
    · rintro low rfl -
      have start : low.size ≤ s.stack.size := above.floor_le
      rw [extract_beneath above'' start, size_beneath above'']
    · apply (isolatedAt_truncate above'' lower').bind above''
      intro _ v _ cut
      exact isolated_pure _ v cut
  apply called.congr above
  rintro low rfl -
  rw [callValue, bind_eq, get_eq]
  simp only [size_beneath above]

theorem isolated_perform (H : Host E) (o : Op E) (allowed : o.StaysAbove others limit) :
    Isolated others floor limit (perform enter H o) := by
  cases o with
  | argument n =>
    refine isolated_answer fun s low above _ apart => ?_
    by_cases mixed : others
    · exact argument_beneath above (allowed mixed)
    · rw [beneath_of_same above.floor_le (apart.same mixed)]
  | shareCount o =>
    refine isolated_answer fun _ _ above _ apart => ?_
    exact (alike_beneath above apart).shareCount H o
  | settle vars =>
    refine isolated_bind (offFrame_assign vars).isolated fun _ => ?_
    exact isolated_bind (isolated_settle H []) fun ended => (offFrame_unlessPanic ended).isolated
  | describe =>
    refine isolated_answer fun s low above _ apart => ?_
    rw [beneath_of_same above.floor_le (apart.same allowed)]
  | close => exact allowed.elim
  | call n r => exact isolated_call enters n r
  | pcall n r => exact isolated_pcall enters n r
  | callValue f args r waiting =>
    exact isolated_keeping waiting (isolated_callValue enters f args r)
  | _ => exact relative_perform isolated_relative enter H trivial

theorem isolated_action (H : Host E) (a : Action E α)
    (allowed : Prog.Uses (F := Op.effect E) (Op.StaysAbove others limit) a) :
    Isolated others floor limit (action enter H a) :=
  relative_action isolated_relative (isolated_perform enters H) a allowed

end Callee

/-! Bodies of functions. -/

/-- A caught panic leaves the frame that it arose in, which is the caller's to restore. -/
theorem confined_catchPanics (name : String) {body : Run E Nat}
    (isolated : Isolated others floor limit body) :
        Confined others floor limit (catchPanics name body) := by
  intro s above
  have inner := (isolated s above).toConfinedAt
  by_cases catches : s.config.catchPanics = true
  · have covers := inner.covers
    unfold final at covers
    constructor
    · rw [final, catchPanics_eq name body catches]
      cases ran : body s with
      | ok n t =>
        rw [ran] at covers
        exact covers
      | error f t =>
        rw [ran] at covers
        cases f with
        | raised e => exact covers
        | panicked p => exact ⟨covers.framed, covers.bounded, covers.maxDepth⟩
    · intro low size apart
      have catches' : (s.beneath low).config.catchPanics = true := catches
      rw [catchPanics_eq name body catches, catchPanics_eq name body catches',
        inner.blind low size apart]
      cases body s with
      | ok n t => rfl
      | error f t => cases f <;> rfl
  · apply inner.congr above
    intro low _ _
    have catches' : ¬(s.beneath low).config.catchPanics = true := catches
    simp only [catchPanics, if_neg catches']

/-- By induction on how many more calls may nest. -/
theorem confined_enter {H : Host E} (uses : H.Uses (Op.StaysAbove others limit)) (depth : Nat)
    (f : FunctionId) : Confined others floor limit (enter H depth f) := by
  induction depth generalizing f with
  | zero => exact fun s above => (isolated_raise _ s above).toConfinedAt
  | succ depth ih =>
    intro s above
    cases known : s.heap.callable? f with
    | none =>
      apply (isolated_raise (.notCallable .function) s above).toConfinedAt.congr above
      intro low _ _
      simp only [enter, callableOf, bind_eq, get_eq, heap_beneath, known, raise_eq]
    | some c =>
      have runs : Isolated others floor limit (runEntry (perform (enter H depth) H) H c.entry) :=
        relative_runEntry isolated_relative uses _ (isolated_perform ih H) c.entry
      apply (confined_catchPanics c.name runs s above).congr above
      intro low _ _
      simp only [enter, callableOf, bind_eq, get_eq, heap_beneath, known, pure_eq]

theorem isolated_runAction {H : Host E} (uses : H.Uses (Op.StaysAbove others limit))
    (a : Action E α) (allowed : Prog.Uses (F := Op.effect E) (Op.StaysAbove others limit) a) :
    Isolated others floor limit (runAction H a) := by
  intro s above
  have enters : ∀ f, Confined others floor limit (enter H s.depthLeft f) :=
    confined_enter uses s.depthLeft
  apply (isolated_action enters H a allowed s above).congr above
  intro low _ _
  rfl

/-- Whatever it does, a run that closes nothing leaves the slots below its frame alone. -/
theorem isolated_of_keepsOpen {H : Host E} (uses : H.Uses Op.KeepsOpen) (a : Action E α)
    (allowed : Prog.Uses (F := Op.effect E) Op.KeepsOpen a) :
    Isolated False floor limit (runAction H a) :=
  isolated_runAction (uses.mono fun _ => Op.KeepsOpen.staysAbove) a
    (Prog.Uses.mono allowed fun _ => Op.KeepsOpen.staysAbove)

/-- Two runs of the same operations, from states that differ in scalars below the frame only, have
the same outcome: the same answer, error or panic, and states that again differ in these scalars
only. Neither run changes a slot below the frame. -/
theorem runs_isolated {H : Host E} {s : State E}
    (uses : H.Uses (Op.StaysAbove True s.stack.maxDepth)) (a : Action E α)
    (allowed : Prog.Uses (F := Op.effect E) (Op.StaysAbove True s.stack.maxDepth) a)
    (framed : s.base ≤ s.stack.size) (bounded : s.stack.size ≤ s.stack.maxDepth)
    (low : Array Value) (size : low.size = s.base)
    (scalars : ∀ (i : Nat) v w, low[i]? = some v → s.stack.slots[i]? = some w →
      v = w ∨ v.isReference = false ∧ w.isReference = false) :
    runAction H a (s.beneath low) = mapState (·.beneath low) (runAction H a s) ∧
      ∀ i, i < s.base →
        ((runAction H a).final s).stack.slots[i]? = s.stack.slots[i]? ∧
        ((runAction H a).final (s.beneath low)).stack.slots[i]? =
          (s.beneath low).stack.slots[i]? := by
  have above : s.Above s.base s.stack.maxDepth := ⟨Nat.le_refl _, framed, bounded, rfl⟩
  have isolated := isolated_runAction uses a allowed s above
  have exchanges : s.Exchanges True low := fun i v w new old =>
    (scalars i v w new old).imp_right fun both => ⟨trivial, both⟩
  have same := isolated.blind low size exchanges
  refine ⟨same, fun i before => ⟨isolated.below above before, ?_⟩⟩
  rw [final_mapState (s := s) (g := (·.beneath low)) same, slots_beneath, slots_beneath,
    getElem?_overlay, getElem?_overlay, if_pos (by omega), if_pos (by omega)]

theorem runs_isolated_call :
    let H := Host.running do
      Action.push (← Action.argument 1)
      return 1
    let s : State .plain := { State.plain #[.light 7, .function ⟨0⟩, .light 8] with base := 1 }
    let a : Action .plain Value := do
      Action.call 1 1
      Action.pop
    let low := #[.light 9]
    (runAction H a).returned? s = some (.light 8) ∧
      runAction H a (s.beneath low) = mapState (·.beneath low) (runAction H a s) := by
  intro H s a low
  have small : 1 + s.stack.maxDepth ≤ 0x10000000000000000 := by decide
  have uses : H.Uses (Op.StaysAbove True s.stack.maxDepth) := by
    apply Host.uses_running
    apply Prog.Uses.bind (Prog.uses_op fun _ => small)
    intro v
    exact Prog.Uses.bind (Prog.uses_op trivial) fun _ => trivial
  have allowed : Prog.Uses (F := Op.effect .plain) (Op.StaysAbove True s.stack.maxDepth) a := by
    apply Prog.Uses.bind (Prog.uses_op trivial)
    intro _
    exact Prog.uses_op trivial
  have scalars : ∀ (i : Nat) v w, low[i]? = some v →
      s.stack.slots[i]? = some w → v = w ∨ v.isReference = false ∧ w.isReference = false := by
    intro i v w new old
    obtain ⟨rfl, rfl⟩ : i = 0 ∧ v = .light 9 := by
      cases i with
      | zero => exact ⟨rfl, (Option.some.inj new).symm⟩
      | succ i => contradiction
    exact .inr ⟨rfl, Option.some.inj old ▸ rfl⟩
  refine ⟨by decide +kernel, ?_⟩
  exact (runs_isolated uses a allowed (by decide) (by decide) low rfl scalars).1

/-- The position of the argument with the largest number wraps around to the slot two below the
frame, although nothing was passed. -/
theorem argument_reads_below_frame :
    let H := Host.running (pure 0)
    let s : State .plain := { State.plain #[.light 7, .light 8] with base := 2 }
    let a : Action .plain Value := Action.argument 18446744073709551615
    s.base ≤ s.stack.size ∧ s.stack.size ≤ s.stack.maxDepth ∧
      (runAction H a).returned? s = some (.light 7) ∧
      (runAction H a).returned? (s.beneath #[.light 9, .light 8]) = some (.light 9) := by
  decide +kernel

end Run
end HostBridge
