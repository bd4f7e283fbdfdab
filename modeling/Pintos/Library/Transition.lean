import Mathlib.Data.List.Basic

/-!
# Transition systems and their runs

A system is a set of first states and a partial step function: an action names which party moves and how, and the step of an
action that is not enabled is `none`. Concurrency is the choice of the actions: a run is any list of them, so a statement
about every run is a statement about every interleaving.

`ReachableIf M G` are the states of the runs whose every step meets the condition `G` on the state before it and the action
taken. The plain reachable states are those of the condition that always holds.
-/

namespace Transition

/-- A system: which states a run may start from, and what an action does where it is enabled. -/
structure System (σ α : Type) where
  init : σ → Prop
  step : σ → α → Option σ

variable {σ α : Type}

/-- The states reached by the runs in which every step meets the condition `G`. -/
inductive System.ReachableIf (M : System σ α) (G : σ → α → Prop) : σ → Prop where
  | init {s : σ} (h : M.init s) : M.ReachableIf G s
  | step {s s' : σ} (a : α) (hr : M.ReachableIf G s) (hg : G s a) (hs : M.step s a = some s') : M.ReachableIf G s'

/-- The states reached by any run. -/
def System.Reachable (M : System σ α) : σ → Prop := M.ReachableIf (fun _ _ => True)

/-- What holds of the first states, and is kept by every step that meets the condition, holds of every state reached. -/
theorem System.ReachableIf.invariant {M : System σ α} {G : σ → α → Prop} {I : σ → Prop} {s : σ} (hr : M.ReachableIf G s)
    (h0 : ∀ s, M.init s → I s) (hs : ∀ s a s', I s → G s a → M.step s a = some s' → I s') : I s := by
  induction hr with
  | init h => exact h0 _ h
  | step a _ hg h ih => exact hs _ a _ ih hg h

/-- What holds of the first states and is kept by every step holds of every reachable state. -/
theorem System.Reachable.invariant {M : System σ α} {I : σ → Prop} {s : σ} (hr : M.Reachable s)
    (h0 : ∀ s, M.init s → I s) (hs : ∀ s a s', I s → M.step s a = some s' → I s') : I s :=
  System.ReachableIf.invariant hr h0 (fun s a s' hi _ h => hs s a s' hi h)

/-- Running a list of actions, one after the other, as long as each is enabled. -/
def System.run (M : System σ α) : σ → List α → Option σ
  | s, [] => some s
  | s, a :: as => (M.step s a).bind (fun s' => M.run s' as)

/-- Every action of a run meets the condition in the state where it is taken. -/
def System.Meets (M : System σ α) (G : σ → α → Prop) : σ → List α → Prop
  | _, [] => True
  | s, a :: as => G s a ∧ ∀ s', M.step s a = some s' → M.Meets G s' as

theorem System.Meets.cons {M : System σ α} {G : σ → α → Prop} {s s1 : σ} {a : α} {as : List α} (hg : G s a)
    (hs : M.step s a = some s1) (hm : M.Meets G s1 as) : M.Meets G s (a :: as) :=
  ⟨hg, fun _ h => Option.some.inj (hs.symm.trans h) ▸ hm⟩

/-- A run that meets the condition, from a state reached under it, ends in a state reached under it. -/
theorem System.ReachableIf.run {M : System σ α} {G : σ → α → Prop} {s s' : σ} (hr : M.ReachableIf G s) (as : List α)
    (hm : M.Meets G s as) (h : M.run s as = some s') : M.ReachableIf G s' := by
  induction as generalizing s with
  | nil =>
    simp only [System.run, Option.some.injEq] at h
    exact h ▸ hr
  | cons a as ih =>
    simp only [System.run, Option.bind_eq_some_iff] at h
    obtain ⟨s1, h1, h2⟩ := h
    exact ih (.step a hr hm.1 h1) (hm.2 s1 h1) h2

/-- Running a list of actions as long as each is enabled and meets a condition that can be decided. -/
def System.runIf (M : System σ α) (G : σ → α → Prop) [∀ s a, Decidable (G s a)] : σ → List α → Option σ
  | s, [] => some s
  | s, a :: as => if G s a then (M.step s a).bind (fun s' => M.runIf G s' as) else none

/-- A run under a condition ends in a state reached under it. -/
theorem System.ReachableIf.runIf {M : System σ α} {G : σ → α → Prop} [∀ s a, Decidable (G s a)] {s s' : σ}
    (hr : M.ReachableIf G s) (as : List α) (h : M.runIf G s as = some s') : M.ReachableIf G s' := by
  induction as generalizing s with
  | nil =>
    simp only [System.runIf, Option.some.injEq] at h
    exact h ▸ hr
  | cons a as ih =>
    simp only [System.runIf] at h
    split at h
    · rename_i hg
      obtain ⟨s1, h1, h2⟩ := Option.bind_eq_some_iff.mp h
      exact ih (.step a hr hg h1) h2
    · cases h

theorem System.Meets.always {M : System σ α} {s : σ} {as : List α} : M.Meets (fun _ _ => True) s as := by
  induction as generalizing s with
  | nil => trivial
  | cons a as ih => exact ⟨trivial, fun _ _ => ih⟩

/-- A run from a first state ends in a reachable state. -/
theorem System.reachable_of_run {M : System σ α} {s s' : σ} (h0 : M.init s) (as : List α) (h : M.run s as = some s') :
    M.Reachable s' :=
  System.ReachableIf.run (.init h0) as .always h

/-- Whether a run comes to a state with a property is decided by running it. -/
instance System.decidableRun {o : Option σ} {P : σ → Prop} [DecidablePred P] : Decidable (∃ s, o = some s ∧ P s) :=
  decidable_of_iff (o.any fun s => P s) (by cases o <;> simp)

/-- A run whose last state has one property by running it, and another since it was reached under the condition. -/
theorem System.exists_run {M : System σ α} {G : σ → α → Prop} {P Q : σ → Prop} {s : σ} {as : List α} (h0 : M.init s)
    (hm : M.Meets G s as) (hQ : ∀ s', M.ReachableIf G s' → Q s') (h : ∃ s', M.run s as = some s' ∧ P s') :
    ∃ s', M.run s as = some s' ∧ Q s' ∧ P s' :=
  h.imp fun s' hs => ⟨hs.1, hQ s' (.run (.init h0) as hm hs.1), hs.2⟩

theorem System.exists_reachable {M : System σ α} {P : σ → Prop} {s : σ} (h0 : M.init s) (as : List α)
    (h : ∃ s', M.run s as = some s' ∧ P s') : ∃ s', M.Reachable s' ∧ P s' :=
  h.imp fun _ hs => ⟨reachable_of_run h0 as hs.1, hs.2⟩

/-- In a system with one action, a property of a state and of the at most `n` that follow it up to the last. -/
def System.holdsAlong (M : System σ Unit) (P : σ → Bool) : Nat → σ → Bool
  | 0, s => P s && (M.step s ()).isNone
  | n + 1, s => P s && (M.step s ()).all (M.holdsAlong P n)

/-- What holds along the run holds in every reachable state. -/
theorem System.Reachable.of_holdsAlong {M : System σ Unit} {P : σ → Bool} {s : σ} (hr : M.Reachable s) (n : Nat)
    (h0 : ∀ s, M.init s → M.holdsAlong P n s = true) : P s = true := by
  obtain ⟨k, hk⟩ : ∃ k, M.holdsAlong P k s = true := by
    refine hr.invariant (I := fun s => ∃ k, M.holdsAlong P k s = true) (fun s h => ⟨n, h0 s h⟩) ?_
    rintro s ⟨⟩ s' ⟨k, hk⟩ hstep
    cases k with
    | zero => simp [System.holdsAlong, hstep] at hk
    | succ k =>
      rw [System.holdsAlong, hstep, Option.all_some, Bool.and_eq_true_iff] at hk
      exact ⟨k, hk.2⟩
  cases k <;> exact (Bool.and_eq_true_iff.mp hk).1

/-- A run that takes the same action at every state comes to one with a property, if the action is enabled until then and a
measure drops at each step. -/
theorem System.exists_run_of_measure {M : System σ α} {I Q : σ → Prop} (μ : σ → Nat) (a : α)
    (hs : ∀ s, I s → Q s ∨ ∃ s', M.step s a = some s' ∧ I s' ∧ μ s' < μ s) {s : σ} (h : I s) :
    ∃ n s', M.run s (List.replicate n a) = some s' ∧ I s' ∧ Q s' := by
  induction hn : μ s using Nat.strongRecOn generalizing s with
  | _ n ih =>
    rcases hs s h with hq | ⟨s1, hstep, h1, hlt⟩
    · exact ⟨0, s, rfl, h, hq⟩
    · obtain ⟨k, s', hrun, hrest⟩ := ih (μ s1) (hn ▸ hlt) h1 rfl
      refine ⟨k + 1, s', ?_, hrest⟩
      rw [List.replicate_succ, System.run, hstep]
      exact hrun

end Transition
