import Mathlib.Order.Bounds.Basic
import HostBridge.Proofs.Table.FiniteMap

namespace HostBridge
namespace Table

def live (t : Table) : Nat := t.entries.countP fun e => !e.2.isNil

variable {t : Table}

theorem Indexed.size_eq (sound : t.Indexed) : t.entries.size = t.live + t.dead := by
  have parts : t.entries.size = t.live + t.entries.countP fun e => decide ¬(!e.2.isNil) = true :=
    Array.size_eq_countP_add_countP
  simpa [sound.dead] using parts

theorem Indexed.size_reclaim (sound : t.Indexed) : t.reclaim.entries.size ≤ 2 * t.reclaim.live := by
  rw [sound.reclaim.size_eq]
  have few : t.reclaim.dead ≤ t.reclaim.live := by
    have size := sound.size_eq
    unfold Table.reclaim
    split
    · omega
    · rw [dead_enterKeys]
      exact Nat.zero_le _
  omega

theorem live_append {key value : Value} (held : value.isNil = false) :
    (t.append key value).live = t.live + 1 := by
  rw [live, entries_append]
  exact Array.countP_push_of_pos (by rw [held]; rfl)

theorem Indexed.size_append_reclaim (sound : t.Indexed) (key : Value) {value : Value}
    (held : value.isNil = false) :
    (t.reclaim.append key value).entries.size ≤ 2 * (t.reclaim.append key value).live := by
  have before := sound.size_reclaim
  rw [live_append held, entries_append, Array.size_push]
  omega

theorem size_migrate (t : Table) (fuel : Nat) : (t.migrate fuel).entries.size = t.entries.size := by
  induction fuel generalizing t with
  | zero => rfl
  | succ fuel ih =>
    rw [migrate_succ]
    split
    · rfl
    · rw [ih, size_advance]

/-- A write that makes the entry list longer leaves at least as many values as empty slots. -/
theorem Indexed.size_put (sound : t.Indexed) (key value : Value) :
    (t.put key value).entries.size = t.entries.size ∨
      (t.put key value).entries.size ≤ 2 * (t.put key value).live := by
  rcases t.put_cases key value with ⟨slot, -, eq⟩ | ⟨-, -, eq⟩ | ⟨-, -, eq⟩
  · rw [eq]
    exact .inl rfl
  · rw [eq, extend_eq, size_migrate, size_advance]
    exact .inl rfl
  · rw [eq, Table.setEntry]
    split
    · exact .inl (size_store _ _ _)
    · split
      · exact .inl rfl
      · rename_i held
        exact .inr (sound.size_append_reclaim key (Bool.eq_false_iff.mpr held))

theorem Indexed.size_run (sound : t.Indexed) (w : Write) :
    (w.run t).entries.size = t.entries.size ∨ (w.run t).entries.size ≤ 2 * (w.run t).live := by
  cases isKey : w.key.isKey with
  | true =>
    rw [t.run_of_isKey isKey]
    exact sound.size_put w.key w.value
  | false =>
    rw [t.run_of_not_isKey isKey]
    exact .inl rfl

/-- The largest number of values that the entry list has held in a history of writes, newest write
first. -/
def peakLive : List Write → Nat
  | [] => 0
  | w :: earlier => max (replay (w :: earlier)).live (peakLive earlier)

theorem live_le_peakLive {earlier log : List Write} (part : earlier <:+ log) :
    (replay earlier).live ≤ peakLive log := by
  induction log with
  | nil =>
    cases List.suffix_nil.mp part
    exact Nat.le_refl 0
  | cons w log ih =>
    rcases List.suffix_cons_iff.mp part with rfl | part
    · exact Nat.le_max_left _ _
    · exact Nat.le_trans (ih part) (Nat.le_max_right _ _)

theorem peakLive_mem (log : List Write) :
    ∃ earlier, earlier <:+ log ∧ (replay earlier).live = peakLive log := by
  induction log with
  | nil => exact ⟨[], List.suffix_refl [], rfl⟩
  | cons w log ih =>
    obtain ⟨earlier, part, most⟩ := ih
    rcases Nat.le_total (peakLive log) (replay (w :: log)).live with now | before
    · exact ⟨w :: log, List.suffix_refl _, (Nat.max_eq_left now).symm⟩
    · exact ⟨earlier, part.trans (List.suffix_cons w log), most.trans (Nat.max_eq_right before).symm⟩

theorem size_le_peakLive (log : List Write) : (replay log).entries.size ≤ 2 * peakLive log := by
  induction log with
  | nil => exact Nat.zero_le _
  | cons w log ih =>
    rw [peakLive, replay]
    have now := Nat.le_max_left (w.run (replay log)).live (peakLive log)
    have before := Nat.le_max_right (w.run (replay log)).live (peakLive log)
    rcases (Valid.replay log).size_run w with same | short
    · omega
    · omega

/-- After any writes the entry list is at most twice as long as the number of values that it held
at its fullest; so a table whose keys come and go stays as small as the keys that it has at a
time. -/
theorem replay_occupancy (log : List Write) :
    IsGreatest {n | ∃ earlier, earlier <:+ log ∧ (replay earlier).live = n} (peakLive log) ∧
    (replay log).entries.size ≤ 2 * peakLive log ∧
    ∀ n, (∀ earlier, earlier <:+ log → (replay earlier).live ≤ n) →
      (replay log).entries.size ≤ 2 * n := by
  refine ⟨⟨peakLive_mem log, ?_⟩, size_le_peakLive log, fun n bound => ?_⟩
  · rintro n ⟨earlier, part, rfl⟩
    exact live_le_peakLive part
  · obtain ⟨earlier, part, most⟩ := peakLive_mem log
    have size := size_le_peakLive log
    have peak := bound earlier part
    omega

/-- Two keys, one after the other, leave two slots at most. -/
theorem replay_occupancy_cycle :
    let log : List Write := [.setStr "b" (.light 2), .setStr "a" .nil, .setStr "a" (.light 1)]
    (∀ earlier, earlier <:+ log → (replay earlier).live ≤ 1) ∧ (replay log).entries.size ≤ 2 := by
  intro log
  have one : ∀ earlier, earlier <:+ log → (replay earlier).live ≤ 1 := by
    intro earlier part
    refine Nat.le_trans (live_le_peakLive part) ?_
    simp [log, peakLive, live, replay, Write.run, setStr, setEntry, entrySlot?, entryValue,
      Value.isNil, reclaim, enterKeys, append, enterKey, store, Table.empty]
  exact ⟨one, (replay_occupancy log).2.2 1 one⟩

end Table
end HostBridge
