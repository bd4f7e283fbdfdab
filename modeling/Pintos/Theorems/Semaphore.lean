import Pintos.Lemmas.Semaphore

/-!
# Semaphores count and lose no wake-up

A woken thread does not own the value it was woken for: it rechecks later, and may find the value taken. What makes this safe
is that the value never exceeds the number of woken threads while anybody sleeps.

The counter is an `unsigned`: a `sema_up` that finds it at its largest value turns it to 0, and the count is lost.
-/

namespace Pintos

/-- What a semaphore initialised to `v` promises, in a state. -/
structure SemaOk (v : UInt32) (s : SemaState) : Prop where
  /-- The value and the completed downs make up the first value and the ups. -/
  counted : s.sema.value.toNat + s.downs = v.toNat + s.ups
  /-- While a thread is on the list of waiters, the value is at most the number of woken threads. -/
  covered : ∀ t ∈ s.sema.waiters, ∃ woken : Finset Thread, (∀ u, u ∈ woken ↔ s.threads u = .woken) ∧
    s.sema.value.toNat ≤ woken.card
  /-- Never is the value positive while a thread sleeps and nobody is on the way to take the value. -/
  noLostWakeUp : ∀ t, s.threads t = .asleep → 0 < s.sema.value.toNat → ∃ u, s.threads u = .woken
  /-- The sleeping threads are those of the list of waiters. -/
  asleep : ∀ t, s.threads t = .asleep ↔ t ∈ s.sema.waiters

/-- The counter has room for one more, where a `sema_up` is about to run. -/
def UpFits (s : SemaState) : SemaAction → Prop
  | .up _ => s.sema.value.toNat < 4294967295
  | _ => True

instance (s : SemaState) (a : SemaAction) : Decidable (UpFits s a) := by
  cases a <;> unfold UpFits <;> infer_instance

/-- In every run in which each `sema_up` finds room in the counter, a semaphore counts exactly and loses no wake-up. -/
theorem semaphores_count (v : UInt32) (s : SemaState) (h : (semaSystem v).ReachableIf UpFits s) : SemaOk v s := by
  have hcount : SemaCount v s := by
    refine h.invariant ?_ ?_
    · rintro s rfl
      rfl
    · intro s a s' hi hg hs
      refine hi.step ?_ hs
      rintro t rfl
      exact Nat.succ_lt_succ hg
  obtain ⟨W, hq⟩ := SemaQueue.reached h
  refine ⟨hcount, fun t ht => ⟨W, hq.mem_woken, hq.value_le (List.ne_nil_of_mem ht)⟩, ?_, fun t => (hq.mem_waiters t).symm⟩
  intro t ht hpos
  have hle := hq.value_le (List.ne_nil_of_mem ((hq.mem_waiters t).mpr ht))
  obtain ⟨u, hu⟩ := Finset.card_pos.mp (Nat.lt_of_lt_of_le hpos hle)
  exact ⟨u, (hq.mem_woken u).mp hu⟩

/-- Two threads queue; the first is woken, is overtaken by a third, and queues again behind the second. -/
def overtakenActions : List SemaAction := [.down 1, .down 2, .up 3, .tryDown 3, .recheck 1]

/-- The run of `overtakenActions` finds room at each `sema_up`, and its last state has two waiters and no value. -/
theorem semaphores_count_overtaken :
    ∃ s, (semaSystem 0).runIf UpFits (SemaState.start 0) overtakenActions = some s ∧ s.sema.waiters = [2, 1] ∧ SemaOk 0 s := by
  obtain ⟨s, hs, hw⟩ : ∃ s, (semaSystem 0).runIf UpFits (SemaState.start 0) overtakenActions = some s ∧
      s.sema.waiters = [2, 1] := by
    decide
  exact ⟨s, hs, hw, semaphores_count 0 s (.runIf (.init rfl) _ hs)⟩

/-- A semaphore initialised to the largest `unsigned` has the value 0 after one `sema_up`, with no down completed. -/
theorem semaphore_wraps :
    ∃ s, (semaSystem 4294967295).run (SemaState.start 4294967295) [.up 0] = some s ∧ s.sema.value = 0 ∧ s.downs = 0 ∧ s.ups = 1 ∧
      ¬ SemaOk 4294967295 s := by
  refine ⟨_, rfl, by decide, rfl, rfl, fun h => ?_⟩
  exact absurd h.counted (by decide)

end Pintos
