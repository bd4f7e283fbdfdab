import Mathlib.Data.List.Basic

/-!
# What was used last

A history is a list of what was used, latest first. `recent` lists each thing once, at its latest use, so its first `n` are
the last `n` distinct things used. One more use changes these `n` alone: whatever was used before them does not come back.
-/

namespace Lru

open List

variable {α : Type} [DecidableEq α]

/-- The things of a history in the order of their latest uses. -/
def recent : List α → List α
  | [] => []
  | x :: past => x :: (recent past).erase x

/-- Each thing is listed once. -/
theorem recent_nodup (past : List α) : (recent past).Nodup := by
  induction past with
  | nil => exact nodup_nil
  | cons x past ih => exact nodup_cons.mpr ⟨ih.not_mem_erase, ih.erase x⟩

/-- The last `n` things used, after one more use. -/
theorem take_recent_cons (n : Nat) (x : α) (past : List α) :
    (recent (x :: past)).take (n + 1) = x :: (((recent past).take (n + 1)).erase x).take n := by
  generalize hl : recent past = l
  have hsplit : l = l.take (n + 1) ++ l.drop (n + 1) := (take_append_drop _ _).symm
  simp only [recent, hl, take_succ_cons, cons.injEq, true_and]
  by_cases hx : x ∈ l.take (n + 1)
  · -- the thing leaves its place among the first `n + 1`, and at most `n` are left of these
    have herase : l.erase x = (l.take (n + 1)).erase x ++ l.drop (n + 1) := by
      conv_lhs => rw [hsplit]
      exact erase_append_left _ hx
    have hlen : ((l.take (n + 1)).erase x).length + 1 = (l.take (n + 1)).length := length_erase_add_one hx
    rcases Nat.lt_or_ge n l.length with hlt | hge
    · rw [length_take_of_le hlt] at hlen
      rw [herase, take_append_of_le_length (by omega)]
    · rw [herase, drop_eq_nil_of_le (by omega), append_nil]
  · -- it was not among them, and takes the place of the last
    have herase : l.erase x = l.take (n + 1) ++ (l.drop (n + 1)).erase x := by
      conv_lhs => rw [hsplit]
      exact erase_append_right _ hx
    rw [erase_of_not_mem hx, herase]
    rcases Nat.lt_or_ge n l.length with hlt | hge
    · rw [take_append_of_le_length (by rw [length_take_of_le hlt]; omega)]
    · rw [drop_eq_nil_of_le (by omega), erase_nil, append_nil]

end Lru
