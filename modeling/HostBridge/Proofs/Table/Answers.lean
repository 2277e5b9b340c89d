import HostBridge.Proofs.Table.Listing

namespace HostBridge
namespace Table

/-- What an enumeration answers that asks with a key, and the key that it asks with next. The end and
an error are final. -/
def answer (t : Table) : Option Value → Option (Except Error (Value × Value)) × Option Value
  | none => (none, none)
  | some key =>
    match t.next key with
    | .ok (some p) => (some (.ok p), some p.1)
    | .ok none => (none, none)
    | .error e => (some (.error e), none)

/-- The answers one by one, where each step finds a table of its own. -/
def answers : Option Value → List Table → List (Option (Except Error (Value × Value)))
  | _, [] => []
  | key, t :: ts => (t.answer key).1 :: answers (t.answer key).2 ts

/-- `u` is `t`, or what is left of `t` when `key` is set to nil. -/
def Spares (t : Table) (key : Value) (u : Table) : Prop :=
  u = t ∨ u = (Write.set key .nil).run t

/-- Each table is spared by what comes before the step that finds it. -/
def SparedBy (t : Table) : Value → List Table → Prop
  | _, [] => True
  | key, u :: us => t.Spares key u ∧ ∀ p, u.next key = .ok (some p) → u.SparedBy p.1 us

variable {t u : Table} {key : Value} {ps qs : List (Value × Value)} {i j : Nat}

theorem answers_none (ts : List Table) : answers none ts = List.replicate ts.length none := by
  induction ts with
  | nil => rfl
  | cons t ts ih => exact congrArg (none :: ·) ih

theorem length_answers (key : Option Value) (ts : List Table) :
    (answers key ts).length = ts.length := by
  induction ts generalizing key with
  | nil => rfl
  | cons t ts ih => exact congrArg (· + 1) (ih _)

theorem Follows.unique (first : t.Follows key ps) (second : t.Follows key qs) : ps = qs := by
  induction first generalizing qs with
  | done last =>
    cases second with
    | done => rfl
    | step next => exact absurd (last.symm.trans next) nofun
  | step next _ ih =>
    cases second with
    | done last => exact absurd (last.symm.trans next) nofun
    | step other rest =>
      obtain rfl := Option.some.inj (Except.ok.inj (next.symm.trans other))
      rw [ih rest]

theorem Follows.cursor? (follows : t.Follows key ps) : ∃ i j, t.cursor? key = some (i, j) := by
  have answered : ∃ r, t.next key = .ok r := by
    cases follows with
    | done last => exact ⟨_, last⟩
    | step next => exact ⟨_, next⟩
  obtain ⟨r, answered⟩ := answered
  by_cases start : key.isNil = true
  · exact ⟨0, 0, if_pos start⟩
  · rw [next, if_neg start] at answered
    rw [Table.cursor?, if_neg start]
    cases here : t.arraySlot? key with
    | some i => exact ⟨i + 1, 0, rfl⟩
    | none =>
      cases found : t.entrySlot? key with
      | some j => exact ⟨t.array.size, j + 1, rfl⟩
      | none =>
        rw [here, found] at answered
        contradiction

theorem Valid.follows_cursor? (valid : t.Valid) (cursor : t.cursor? key = some (i, j)) :
    t.Follows key (t.arrayPairs i ++ t.entryPairs j) := by
  have here := next_of_cursor? cursor
  rw [Table.cursor?] at cursor
  split at cursor
  · cases cursor
    exact valid.follows_arrayPairs here
  · cases slot : t.arraySlot? key with
    | some p =>
      rw [slot] at cursor
      cases cursor
      exact valid.follows_arrayPairs here
    | none =>
      rw [slot] at cursor
      obtain ⟨q, -, eq⟩ := Option.map_eq_some_iff.mp cursor
      cases eq
      have none : t.arrayPairs t.array.size = [] := by
        rw [arrayPairs, List.drop_eq_nil_of_le (Nat.le_of_eq Array.length_toList)]
        rfl
      rw [arrayNext?_size, Option.none_or] at here
      rw [none, List.nil_append]
      exact valid.follows_entryPairs here

/-- The slot of a key lies before its cursor, and setting the key to nil touches no other slot. -/
theorem cleared_ahead (cursor : t.cursor? key = some (i, j)) :
    ((Write.set key .nil).run t).arrayPairs i = t.arrayPairs i ∧
      ((Write.set key .nil).run t).entryPairs j = t.entryPairs j := by
  cases isKey : (Write.set key .nil).key.isKey with
  | false =>
    rw [run_of_not_isKey t isKey]
    exact ⟨rfl, rfl⟩
  | true =>
    have later : ¬key.isNil = true := by
      rintro nil
      obtain rfl := Value.isNil_iff.mp nil
      contradiction
    rw [run_of_isKey t isKey]
    rw [Table.cursor?, if_neg later] at cursor
    rcases t.put_cases key .nil with ⟨slot, here, eq⟩ | ⟨-, held, -⟩ | ⟨outside, -, eq⟩
    · rw [here] at cursor
      cases cursor
      simp only [Write.key, Write.value, eq]
      constructor
      · simp only [arrayPairs, Array.toList_setIfInBounds]
        rw [List.drop_set_of_lt (Nat.lt_succ_self slot)]
      · rfl
    · contradiction
    · rw [outside] at cursor
      obtain ⟨slot, found, same⟩ := Option.map_eq_some_iff.mp cursor
      cases same
      simp only [Write.key, Write.value, eq, setEntry, found]
      constructor
      · rfl
      · simp only [entryPairs, store, Array.toList_modify]
        rw [List.drop_modify_of_lt _ _ _ _ (Nat.lt_succ_self slot)]

theorem Spares.valid (spares : t.Spares key u) (valid : t.Valid) : u.Valid := by
  rcases spares with rfl | rfl
  · exact valid
  · exact valid.run _

/-- What lies ahead stays when the key that was handed out last is set to nil. -/
theorem Spares.follows (spares : t.Spares key u) (valid : t.Valid) (follows : t.Follows key ps) :
    u.Follows key ps := by
  rcases spares with rfl | rfl
  · exact follows
  · obtain ⟨i, j, cursor⟩ := follows.cursor?
    obtain rfl := follows.unique (valid.follows_cursor? cursor)
    have fades := valid.fades (w := .set key .nil) (.inl rfl)
    obtain ⟨array, entries⟩ := cleared_ahead cursor
    rw [← array, ← entries]
    exact (valid.run _).follows_cursor? ((fades.cursor? key).trans cursor)

/-- What is answered are the pairs that lie ahead at first, and nothing once they are through. -/
theorem answers_of_follows {ts : List Table} (valid : t.Valid) (follows : t.Follows key ps)
    (spared : t.SparedBy key ts) :
    answers (some key) ts = (List.range ts.length).map fun n => ps[n]?.map .ok := by
  induction ts generalizing t key ps with
  | nil => rfl
  | cons u us ih =>
    obtain ⟨spares, later⟩ := spared
    have valid' := spares.valid valid
    rw [answers, List.length_cons, List.range_succ_eq_map, List.map_cons, List.map_map]
    cases spares.follows valid follows with
    | done last =>
      have ended : u.answer (some key) = (none, none) := by simp only [answer, last]
      rw [ended, answers_none]
      simp [Function.comp_def, List.map_const']
    | @step _ p ps next rest =>
      have taken : u.answer (some key) = (some (.ok p), some p.1) := by simp only [answer, next]
      rw [taken, ih valid' rest (later _ next)]
      simp [Function.comp_def]

/-- An enumeration from its start, in which a key is set to nil at most while it is the current
one, answers the pairs that the table had at first. -/
theorem answers_eq_pairs {ts : List Table} (valid : t.Valid) (spared : t.SparedBy .nil ts) :
    answers (some .nil) ts = (List.range ts.length).map fun n => t.pairs[n]?.map .ok :=
  answers_of_follows valid valid.follows_pairs spared

end Table
end HostBridge
