import Mathlib.Data.List.Basic

/-!
# Loops that may stop

A `for` loop whose body can fail is `List.foldlM` in `Except`. The rules say what a run of such a loop tells about its turns,
and what is kept by a loop whose every turn keeps it, also where a turn stops the loop.
-/

namespace Loop

open List

variable {ε α β : Type}

/-- A computation in two parts ends when both do. -/
theorem bind_eq_ok {x : Except ε α} {f : α → Except ε β} {b : β} : (x >>= f) = .ok b ↔ ∃ a, x = .ok a ∧ f a = .ok b := by
  cases x with
  | error e => exact ⟨fun h => (nomatch h), fun ⟨a, h, _⟩ => (nomatch h)⟩
  | ok a => exact ⟨fun h => ⟨a, rfl, h⟩, fun ⟨a', h, h'⟩ => by cases h; exact h'⟩

/-- A first turn that goes on is followed by the rest of the loop. -/
theorem foldlM_cons_ok {f : α → β → Except ε α} {x : β} {xs : List β} {s t : α} (h : f s x = .ok t) :
    (x :: xs).foldlM f s = xs.foldlM f t := by
  rw [foldlM_cons, h]
  rfl

/-- A first turn that fails is the end of the loop. -/
theorem foldlM_cons_error {f : α → β → Except ε α} {x : β} {xs : List β} {s : α} {e : ε} (h : f s x = .error e) :
    (x :: xs).foldlM f s = .error e := by
  rw [foldlM_cons, h]
  rfl

/-- In a loop that ends, every turn ended. -/
theorem turn_of_foldlM_ok {f : α → β → Except ε α} {xs : List β} {s t : α} (h : xs.foldlM f s = .ok t) :
    ∀ x ∈ xs, ∃ u v, f u x = .ok v := by
  induction xs generalizing s with
  | nil =>
    intro x hx
    cases hx
  | cons y ys ih =>
    cases hy : f s y with
    | error e =>
      rw [foldlM_cons_error hy] at h
      cases h
    | ok u =>
      rw [foldlM_cons_ok hy] at h
      exact forall_mem_cons.mpr ⟨⟨s, u, hy⟩, ih h⟩

/-- A loop whose turns all end ends. -/
theorem foldlM_ok {f : α → β → Except ε α} {xs : List β} (h : ∀ x ∈ xs, ∀ u, ∃ v, f u x = .ok v) (s : α) :
    ∃ t, xs.foldlM f s = .ok t := by
  induction xs generalizing s with
  | nil => exact ⟨s, rfl⟩
  | cons y ys ih =>
    obtain ⟨u, hu⟩ := h y (mem_cons_self) s
    rw [foldlM_cons_ok hu]
    exact ih (fun x hx => h x (mem_cons_of_mem _ hx)) u

/-- A counting loop whose turn `i` leads from state `i` of a sequence to the next one leads to the state of its bound. -/
theorem foldlM_range {f : α → Nat → Except ε α} (s : Nat → α) {n : Nat} (h : ∀ i, i < n → f (s i) i = .ok (s (i + 1))) :
    (range n).foldlM f (s 0) = .ok (s n) := by
  induction n with
  | zero => rfl
  | succ n ih =>
    rw [range_succ, foldlM_append, ih (fun i hi => h i (Nat.lt_succ_of_lt hi))]
    exact foldlM_cons_ok (h n (Nat.lt_succ_self n))

/-- What every turn keeps holds when the loop ends, and `E` of the failures of the turns holds of a failure of the loop. -/
theorem foldlM_keeps {f : α → β → Except ε α} {xs : List β} {I : α → Prop} {E : ε → Prop}
    (hok : ∀ x ∈ xs, ∀ u v, I u → f u x = .ok v → I v) (herr : ∀ x ∈ xs, ∀ u e, I u → f u x = .error e → E e) {s : α} (hs : I s) :
    (∀ t, xs.foldlM f s = .ok t → I t) ∧ ∀ e, xs.foldlM f s = .error e → E e := by
  induction xs generalizing s with
  | nil =>
    constructor
    · intro t ht
      cases ht
      exact hs
    · intro e he
      cases he
  | cons y ys ih =>
    cases hy : f s y with
    | error e =>
      rw [foldlM_cons_error hy]
      constructor
      · intro t ht
        cases ht
      · intro e' he
        cases he
        exact herr y mem_cons_self s e hs hy
    | ok u =>
      rw [foldlM_cons_ok hy]
      exact ih (fun x hx => hok x (mem_cons_of_mem _ hx)) (fun x hx => herr x (mem_cons_of_mem _ hx))
        (hok y mem_cons_self s u hs hy)

end Loop
