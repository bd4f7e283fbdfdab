import Pintos.Userprog.Execute

/-!
# A started child is not lost, if it lives long enough

`process_execute` looks for the child among the living threads and then uses the child's `struct thread`, and nothing keeps
the child from exiting in between. As long as the child lives until its share is on the parent's list, all is well. If it
does not, the parent looks for it for ever, or uses a page that has been freed.
-/

namespace Pintos

open ExecuteState Transition ExecutePc

/-- What `process_execute` promises, in a state. -/
structure ExecuteOk (n : Nat) (s : ExecuteState) : Prop where
  /-- No `struct thread` is used that has been freed. -/
  safe : s.parent ≠ .badAccess
  /-- From no state does every continuation leave the parent looking for the child. -/
  escapes : s.parent.looping = true → ∃ as s', (executeSystem n).run s as = some s' ∧ s'.parent.looping = false
  /-- When it returns a `tid`, the child's share is on the parent's list. -/
  registered : s.parent = .returned true → s.registered = true

/-- The child exits only after `process_execute` has returned. -/
def ChildOutlives (s : ExecuteState) : ExecuteAction → Prop
  | .childExit => ∃ ok, s.parent = .returned ok
  | _ => True

/-- The state, as long as the child has not exited early. -/
structure ExecuteInv (s : ExecuteState) : Prop where
  safe : s.parent ≠ .badAccess
  alive : s.parent.looping = true ∨ s.parent = .down ∨ s.parent = .push → s.child = .alive
  unborn : s.parent = .create ∨ s.parent = .fault → s.child = .unborn
  setup : s.parent.looping = true ∨ s.parent = .down → s.setup = 1
  registered : s.parent = .returned true → s.registered = true

variable {n : Nat} {s s' : ExecuteState} {a : ExecuteAction}

/-- A step after which the child is there for the parent keeps the invariant. -/
theorem ExecuteInv.step (hi : ExecuteInv s) (hg : ChildOutlives s a) (h : step n s a = some s') : ExecuteInv s' := by
  obtain ⟨h1, h2, h3, h4, h5⟩ := hi
  cases a with
  | create page share =>
    obtain ⟨hp, h⟩ := Option.ite_none_right_eq_some.mp h
    have hun := h3 (.inl hp)
    cases page <;> cases share <;> cases h <;> constructor <;> simp [looping, hun]
  | childExit =>
    obtain ⟨-, h⟩ := Option.ite_none_right_eq_some.mp h
    obtain ⟨ok, hp⟩ := hg
    cases h
    constructor <;> simp_all [looping]
  | go =>
    simp only [step, go] at h
    cases hp : s.parent with
    | walk e =>
      rw [hp] at h
      cases e <;> cases h <;> constructor <;> simp_all [useChild, looping]
    | getThread | yield =>
      rw [hp] at h
      cases h
      constructor <;> simp_all [looping]
    | down =>
      have hal := h2 (.inr (.inl hp))
      have hset := h4 (.inr hp)
      rw [hp] at h
      simp only [hal, hset, useChild, if_true, Nat.one_ne_zero, and_false, if_false] at h
      cases h
      constructor <;> simp_all [looping]
    | push =>
      have hal := h2 (.inr (.inr hp))
      rw [hp] at h
      simp only [hal, useChild, if_true] at h
      cases h
      constructor <;> simp_all [looping]
    | _ =>
      rw [hp] at h
      cases h

theorem walk_finds (hal : s.child = .alive) :
    ∀ k i, n - i = k → s.parent = .walk (.older i) → ∃ as s', (executeSystem n).run s as = some s' ∧ s'.parent = .down := by
  intro k
  induction k generalizing s with
  | zero =>
    intro i hk hp
    have hle : ¬ i < n := by omega
    refine ⟨[.go, .go], { s with parent := .down }, ?_, rfl⟩
    simp [executeSystem, System.run, step, go, next, useChild, hp, hle, hal]
  | succ k ih =>
    intro i hk hp
    have hlt : i < n := by omega
    obtain ⟨as, s', hrun, hs'⟩ := @ih { s with parent := .walk (.older (i + 1)) } hal (i + 1) (by omega) rfl
    refine ⟨.go :: as, s', ?_, hs'⟩
    have hstep : (executeSystem n).step s .go = some { s with parent := .walk (.older (i + 1)) } := by
      simp [executeSystem, step, go, next, hp, hlt]
    rw [System.run, hstep]
    exact hrun

/-- A parent that looks for a living child can find it. -/
theorem loop_escapes (hal : s.child = .alive) (hp : s.parent.looping = true) :
    ∃ as s', (executeSystem n).run s as = some s' ∧ s'.parent = .down := by
  obtain ⟨as, s', hrun, hs'⟩ := walk_finds (n := n) (s := { s with parent := .walk (.older 0) }) hal n 0 (by omega) rfl
  -- the steps to the start of the next walk
  cases hpc : s.parent with
  | getThread =>
    refine ⟨.go :: as, s', ?_, hs'⟩
    rw [System.run, show (executeSystem n).step s .go = some { s with parent := .walk (.older 0) } by
      simp [executeSystem, step, go, hpc]]
    exact hrun
  | yield =>
    refine ⟨.go :: .go :: as, s', ?_, hs'⟩
    simpa [executeSystem, System.run, step, go, hpc] using hrun
  | walk e =>
    cases e with
    | older i => exact walk_finds hal (n - i) i rfl hpc
    | child =>
      refine ⟨[.go], { s with parent := .down }, ?_, rfl⟩
      simp [executeSystem, System.run, step, go, useChild, hpc, hal]
    | tail =>
      refine ⟨.go :: .go :: .go :: as, s', ?_, hs'⟩
      simpa [executeSystem, System.run, step, go, hpc] using hrun
  | _ => simp [hpc, looping] at hp

/-- The parent looks for a child that is no longer on the list. -/
def Searching (s : ExecuteState) : Prop := s.child = .freed ∧ s.parent.looping = true ∧ s.parent ≠ .walk .child

/-- Such a parent goes on looking. -/
theorem Searching.step (h : Searching s) (hs : step n s a = some s') : Searching s' := by
  obtain ⟨hf, hl, hne⟩ := h
  cases a with
  | create page share =>
    obtain ⟨hp, -⟩ := Option.ite_none_right_eq_some.mp hs
    simp [hp, looping] at hl
  | childExit =>
    obtain ⟨hal, -⟩ := Option.ite_none_right_eq_some.mp hs
    rw [hf] at hal
    cases hal
  | go =>
    simp only [step, go] at hs
    cases hp : s.parent with
    | getThread | yield =>
      rw [hp] at hs
      cases hs
      exact ⟨hf, rfl, by simp⟩
    | walk e =>
      rw [hp] at hs
      cases e with
      | older i =>
        cases hs
        refine ⟨hf, rfl, ?_⟩
        simp only [next, hf]
        split <;> simp
      | child => exact absurd hp hne
      | tail =>
        cases hs
        exact ⟨hf, rfl, by simp⟩
    | _ => simp [hp, looping] at hl

/-- It never finds the child. -/
theorem Searching.run (as : List ExecuteAction) (h : Searching s) (hr : (executeSystem n).run s as = some s') : Searching s' := by
  induction as generalizing s with
  | nil => exact Option.some.inj hr ▸ h
  | cons a as ih =>
    obtain ⟨s1, h1, h2⟩ := Option.bind_eq_some_iff.mp hr
    exact ih (h.step h1) h2

/-- The invariant gives what `process_execute` promises. -/
theorem ExecuteInv.ok (hi : ExecuteInv s) : ExecuteOk n s :=
  { hi with
    escapes := by
      intro hl
      obtain ⟨as, s', hrun, hp⟩ := loop_escapes (hi.alive (.inl hl)) hl
      exact ⟨as, s', hrun, by rw [hp]; rfl⟩ }

/-- The invariant in every state reached while the child has not exited early. -/
theorem execute_inv (hr : (executeSystem n).ReachableIf ChildOutlives s) : ExecuteInv s := by
  refine hr.invariant ?_ (fun _ _ _ hi hg h => hi.step hg h)
  rintro _ rfl
  constructor <;> simp [start, looping]

/-- After an early exit of the child the parent looks for it in vain, or is about to use its freed `struct thread`. -/
theorem ExecuteInv.early_exit (hi : ExecuteInv s) (hne : ∀ ok, s.parent ≠ .returned ok)
    (h : ExecuteState.step n s .childExit = some s') :
    Searching s' ∨ ∃ s'', ExecuteState.step n s' .go = some s'' ∧ s''.parent = .badAccess := by
  obtain ⟨hal, h⟩ := Option.ite_none_right_eq_some.mp h
  cases h
  cases hp : s.parent with
  | create => exact absurd (hi.unborn (.inl hp)) (by simp [hal])
  | fault => exact absurd (hi.unborn (.inr hp)) (by simp [hal])
  | badAccess => exact absurd hp hi.safe
  | returned ok => exact absurd hp (hne ok)
  | getThread | yield => exact .inl ⟨rfl, rfl, by simp⟩
  | walk e =>
    cases e with
    | child => exact .inr (by simp [ExecuteState.step, ExecuteState.go, ExecuteState.useChild])
    | older i | tail => exact .inl ⟨rfl, rfl, by simp⟩
  | down | push => exact .inr (by simp [ExecuteState.step, ExecuteState.go, ExecuteState.useChild])

/-- A step that has only good continuations meets the condition. -/
theorem ExecuteInv.necessary (hi : ExecuteInv s)
    (hs : ExecuteState.step n s a = some s') (hok : ∀ as s'', (executeSystem n).run s' as = some s'' → ExecuteOk n s'') :
    ChildOutlives s a := by
  cases a with
  | create page share | go => trivial
  | childExit =>
    by_contra hne
    rcases hi.early_exit (fun ok hp => hne ⟨ok, hp⟩) hs with hsearch | ⟨s'', hgo, hbad⟩
    · obtain ⟨as, t, hrun, hout⟩ := (hok [] s' rfl).escapes hsearch.2.1
      have hin := (hsearch.run as hrun).2.1
      rw [hout] at hin
      cases hin
    · have hrun : (executeSystem n).run s' [.go] = some s'' := by
        rw [System.run, show (executeSystem n).step s' .go = some s'' from hgo]
        rfl
      exact (hok [.go] s'' hrun).safe hbad

/-- In any interleaving of the parent and its child: while the child has not exited before `process_execute` returned,
`process_execute` keeps its promises in every state. And a step that misses the condition has a continuation in which a
promise is broken. -/
theorem execute_ok (n : Nat) (s : ExecuteState) (hr : (executeSystem n).ReachableIf ChildOutlives s) :
    ExecuteOk n s ∧
    ∀ a s', step n s a = some s' →
      (∀ as s'', (executeSystem n).run s' as = some s'' → ExecuteOk n s'') → ChildOutlives s a :=
  ⟨(execute_inv hr).ok, fun _ _ hs hok => (execute_inv hr).necessary hs hok⟩

/-- Two older threads: the parent walks past both, finds the child and returns. -/
theorem execute_ok_found :
    (executeSystem 1).ReachableIf ChildOutlives { parent := .returned true, child := .alive, setup := 0, registered := true } ∧
    ExecuteOk 1 { parent := .returned true, child := .alive, setup := 0, registered := true } := by
  have hr : (executeSystem 1).ReachableIf ChildOutlives { parent := .returned true, child := .alive, setup := 0,
                                                          registered := true } := by
    refine System.ReachableIf.run (.init rfl) [.create true true, .go, .go, .go, .go, .go, .go] ?_ (by decide)
    simp [System.Meets, ChildOutlives]
  exact ⟨hr, (execute_ok 1 _ hr).1⟩

/-- The child exits at once, and the parent looks for it in every continuation; or it exits when the parent has just found
it, and the parent uses the freed `struct thread`. -/
theorem execute_loses_child :
    (∃ s, (executeSystem 0).Reachable s ∧ s.parent.looping = true ∧
      ∀ as s', (executeSystem 0).run s as = some s' → s'.parent.looping = true) ∧
    ∃ s, (executeSystem 0).Reachable s ∧ s.parent = .badAccess := by
  refine ⟨⟨{ parent := .getThread, child := .freed, setup := 1, registered := false }, ?_, rfl, ?_⟩,
    ⟨{ parent := .badAccess, child := .freed, setup := 1, registered := false }, ?_, rfl⟩⟩
  · exact System.reachable_of_run rfl [.create true true, .childExit] (by decide)
  · intro as s' hrun
    have hsearch : Searching { parent := .getThread, child := .freed, setup := 1, registered := false } := ⟨rfl, rfl, by simp⟩
    exact (hsearch.run as hrun).2.1
  · exact System.reachable_of_run rfl [.create true true, .go, .go, .go, .childExit, .go] (by decide)

end Pintos
