import Mathlib.Data.List.Basic

/-!
# Circular buffers

A ring of `n` cells with a position where the next item is put and one where the oldest item is taken. Both go round. What
the ring holds is a list, the oldest item first: an item put in comes last and the item taken out was the first. A ring with
one free cell is full, so that equal positions always mean an empty ring.
-/

namespace Ring

open List

variable {α : Type} {n head tail : Nat}

/-- A position that has gone round at most once. -/
theorem mod_eq {x : Nat} (hx : x < 2 * n) : x % n = if x < n then x else x - n := by
  split
  · exact Nat.mod_eq_of_lt ‹_›
  · rename_i hge
    rw [Nat.mod_eq_sub_mod (Nat.not_lt.mp hge)]
    exact Nat.mod_eq_of_lt (by omega)

/-- The number of items. -/
def count (n head tail : Nat) : Nat := (head + n - tail) % n

/-- The items, from the one to be taken next to the one that was put in last. -/
def contents (n : Nat) (buf : Nat → α) (head tail : Nat) : List α :=
  (range (count n head tail)).map (fun i => buf ((tail + i) % n))

theorem count_eq (hh : head < n) (ht : tail < n) : count n head tail = if tail ≤ head then head - tail else head + n - tail := by
  rw [count, mod_eq (by omega)]
  split_ifs <;> omega

@[simp] theorem length_contents (buf : Nat → α) : (contents n buf head tail).length = count n head tail := by
  simp [contents]

/-- A ring whose positions are equal is empty. -/
theorem contents_self (buf : Nat → α) (p : Nat) : contents n buf p p = [] := by
  simp [contents, count]

/-- An item is put in where there is room. -/
theorem contents_push (hh : head < n) (ht : tail < n) (hroom : (head + 1) % n ≠ tail) (buf : Nat → α) (x : α) :
    contents n (Function.update buf head x) ((head + 1) % n) tail = contents n buf head tail ++ [x] := by
  have hnext : (head + 1) % n = if head + 1 < n then head + 1 else head + 1 - n := mod_eq (by omega)
  have hcount : count n ((head + 1) % n) tail = count n head tail + 1 := by
    rw [count_eq (Nat.mod_lt _ (by omega)) ht, count_eq hh ht]
    rw [hnext] at hroom ⊢
    split_ifs at hroom ⊢ <;> omega
  have hbound : count n head tail < n := Nat.mod_lt _ (by omega)
  -- the cell at the head is the one behind the last item, and none of the others
  have hcell : ∀ i, i ≤ count n head tail → ((tail + i) % n = head ↔ i = count n head tail) := by
    intro i hi
    rw [mod_eq (by omega)]
    rw [count_eq hh ht] at hi ⊢
    split_ifs at hi ⊢ <;> omega
  unfold contents
  rw [hcount, range_succ, map_append, map_singleton]
  congr 1
  · refine map_congr_left (fun i hi => ?_)
    have hi : i < count n head tail := mem_range.mp hi
    exact Function.update_of_ne (fun he => absurd ((hcell i (by omega)).mp he) (by omega)) ..
  · rw [(hcell _ (Nat.le_refl _)).mpr rfl, Function.update_self]

/-- An item is taken out. -/
theorem contents_pop (hh : head < n) (ht : tail < n) (hne : head ≠ tail) (buf : Nat → α) :
    contents n buf head tail = buf tail :: contents n buf head ((tail + 1) % n) := by
  have hnext : (tail + 1) % n = if tail + 1 < n then tail + 1 else tail + 1 - n := mod_eq (by omega)
  have hcount : count n head tail = count n head ((tail + 1) % n) + 1 := by
    rw [count_eq hh (Nat.mod_lt _ (by omega)), count_eq hh ht, hnext]
    split_ifs <;> omega
  unfold contents
  rw [hcount, range_succ_eq_map, map_cons, map_map]
  congr 1
  · rw [Nat.add_zero, Nat.mod_eq_of_lt ht]
  · refine map_congr_left (fun i _ => ?_)
    rw [Function.comp_apply, Nat.mod_add_mod]
    congr 2
    omega

end Ring
