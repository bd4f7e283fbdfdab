import Mathlib.Data.Finset.Card
import Pintos.Threads.Semaphore

/-!
# What the steps on a semaphore keep

Two facts about the value. It is tied to the number of completed operations (`SemaCount`), as long as no `sema_up` finds the
counter full; and while a thread sleeps it is at most the number of the woken threads (`SemaQueue`), in every run.
-/

namespace Pintos

open SemaState Option

variable {s s' : SemaState} {W : Finset Thread} {a : SemaAction}

/-- What a step can do, by the function it belongs to. -/
theorem SemaState.step_cases (h : s.step a = some s') : s.panicked = false ∧
    ((∃ t, s.threads t ≠ .asleep ∧ s' = s.pass t) ∨
     (∃ t, a = .tryDown t ∧ s.sema.value = 0 ∧ s' = s) ∨
     (∃ t, a = .tryDown t ∧ s.sema.value ≠ 0 ∧
        s' = { s with sema := { s.sema with value := s.sema.value - 1 }, downs := s.downs + 1 }) ∨
     (∃ t, a = .up t ∧ s' = s.up)) := by
  unfold step at h
  cases hp : s.panicked with
  | true => simp [hp] at h
  | false =>
    refine ⟨rfl, ?_⟩
    simp only [hp, Bool.false_eq_true, if_false] at h
    cases a with
    | down t | recheck t =>
      obtain ⟨ht, he⟩ := ite_none_right_eq_some.mp h
      exact .inl ⟨t, by simp [ht], (some.inj he).symm⟩
    | tryDown t =>
      obtain ⟨-, he⟩ := ite_none_right_eq_some.mp h
      rcases semaTryDown_cases s.sema with ⟨h0, hd⟩ | ⟨h0, hd⟩
      · rw [hd] at he
        exact .inr (.inl ⟨t, rfl, h0, (some.inj he).symm⟩)
      · rw [hd] at he
        exact .inr (.inr (.inl ⟨t, rfl, h0, (some.inj he).symm⟩))
    | up t =>
      obtain ⟨-, he⟩ := ite_none_right_eq_some.mp h
      exact .inr (.inr (.inr ⟨t, rfl, (some.inj he).symm⟩))

/-- A pass of `sema_down`, at value 0 and at a positive value. -/
theorem SemaState.pass_cases (s : SemaState) (t : Thread) :
    (s.sema.value = 0 ∧ s.pass t =
      { s with sema := { s.sema with waiters := s.sema.waiters ++ [t] }, threads := Function.update s.threads t .asleep }) ∨
    (s.sema.value ≠ 0 ∧ s.pass t =
      { s with sema := { s.sema with value := s.sema.value - 1 }, threads := Function.update s.threads t .outside,
               downs := s.downs + 1 }) := by
  unfold pass
  rcases semaDown_cases s.sema t with ⟨h0, hd⟩ | ⟨h0, hd⟩
  · rw [hd]
    exact .inl ⟨h0, rfl⟩
  · rw [hd]
    exact .inr ⟨h0, rfl⟩

/-! ## The count -/

/-- The value and the completed downs make up the first value and the ups. -/
def SemaCount (v : UInt32) (s : SemaState) : Prop := s.sema.value.toNat + s.downs = v.toNat + s.ups

theorem SemaState.unblock_downs (s : SemaState) (t : Thread) : (s.unblock t).downs = s.downs := by
  unfold unblock
  split <;> rfl

theorem SemaState.up_value (s : SemaState) : s.up.sema.value = s.sema.value + 1 ∧ s.up.ups = s.ups + 1 ∧
    s.up.downs = s.downs := by
  unfold up
  rcases semaUp_cases s.sema with ⟨-, hu⟩ | ⟨t, rest, -, hu⟩
  · rw [hu]
    exact ⟨rfl, rfl, rfl⟩
  · rw [hu]
    exact ⟨rfl, rfl, s.unblock_downs t⟩

/-- A step keeps the count, where a `sema_up` finds room in the counter. -/
theorem SemaCount.step {v : UInt32} (hi : SemaCount v s)
    (hroom : ∀ t, a = .up t → s.sema.value.toNat + 1 < 2 ^ 32) (h : s.step a = some s') : SemaCount v s' := by
  unfold SemaCount at hi ⊢
  obtain ⟨-, ⟨t, -, rfl⟩ | ⟨t, -, -, rfl⟩ | ⟨t, -, h0, rfl⟩ | ⟨t, ha, rfl⟩⟩ := step_cases h
  · rcases s.pass_cases t with ⟨-, he⟩ | ⟨h0, he⟩
    · rw [he]
      exact hi
    · have := toNat_pred h0
      simp only [he]
      omega
  · exact hi
  · have := toNat_pred h0
    simp only
    omega
  · obtain ⟨hv, hu, hd⟩ := s.up_value
    rw [hv, hu, hd, toNat_succ (hroom t ha)]
    omega

/-! ## The queue -/

/-- The list of waiters is the sleeping threads, each once, and the woken threads are finitely many and, while there is a
waiter, no fewer than the value. -/
structure SemaQueue (s : SemaState) (woken : Finset Thread) : Prop where
  mem_waiters : ∀ t, t ∈ s.sema.waiters ↔ s.threads t = .asleep
  nodup : s.sema.waiters.Nodup
  mem_woken : ∀ t, t ∈ woken ↔ s.threads t = .woken
  value_le : s.sema.waiters ≠ [] → s.sema.value.toNat ≤ woken.card
  calm : s.panicked = false

theorem SemaQueue.start (v : UInt32) : SemaQueue (start v) ∅ where
  mem_waiters t := by simp [SemaState.start]
  nodup := List.nodup_nil
  mem_woken t := by simp [SemaState.start]
  value_le h := absurd rfl h
  calm := rfl

section

variable (hi : SemaQueue s W)
include hi

/-- A pass at value 0 moves a thread to the end of the queue. -/
theorem SemaQueue.sleep {t : Thread} (ht : s.threads t ≠ .asleep) (h0 : s.sema.value = 0) :
    SemaQueue { s with sema := { s.sema with waiters := s.sema.waiters ++ [t] },
                       threads := Function.update s.threads t .asleep } (W.erase t) where
  mem_waiters u := by
    rcases eq_or_ne u t with rfl | hne
    · simp
    · simp [hne, hi.mem_waiters]
  nodup := by
    have hnot : t ∉ s.sema.waiters := fun hm => ht ((hi.mem_waiters t).mp hm)
    simpa [List.nodup_append] using ⟨hi.nodup, fun a ha he => hnot (he ▸ ha)⟩
  mem_woken u := by
    rcases eq_or_ne u t with rfl | hne
    · simp
    · simp [hne, hi.mem_woken]
  value_le _ := by simp [h0]
  calm := hi.calm

/-- A pass at a positive value lets a thread through: a woken one leaves both sides of the bound one smaller. -/
theorem SemaQueue.take {t : Thread} (ht : s.threads t ≠ .asleep) (h0 : s.sema.value ≠ 0) :
    SemaQueue { s with sema := { s.sema with value := s.sema.value - 1 }, threads := Function.update s.threads t .outside,
                       downs := s.downs + 1 } (W.erase t) where
  mem_waiters u := by
    rcases eq_or_ne u t with rfl | hne
    · simp [hi.mem_waiters, ht]
    · simp [hne, hi.mem_waiters]
  nodup := hi.nodup
  mem_woken u := by
    rcases eq_or_ne u t with rfl | hne
    · simp
    · simp [hne, hi.mem_woken]
  value_le hw := by
    have hle := hi.value_le hw
    have hpred := toNat_pred h0
    have hcard := W.pred_card_le_card_erase (a := t)
    simp only
    omega
  calm := hi.calm

/-- `sema_up` wakes the first waiter and adds one to the value: both sides of the bound grow by one. -/
theorem SemaQueue.up : ∃ W', SemaQueue s.up W' := by
  unfold SemaState.up
  rcases semaUp_cases s.sema with ⟨hnil, hu⟩ | ⟨t, rest, hcons, hu⟩
  · rw [hu]
    exact ⟨W, hi.mem_waiters, hi.nodup, hi.mem_woken, fun h => absurd hnil h, hi.calm⟩
  have hasleep : s.threads t = .asleep := (hi.mem_waiters t).mp (by simp [hcons])
  have hnew : t ∉ W := fun hm => absurd ((hi.mem_woken t).mp hm) (by simp [hasleep])
  have hnd := hi.nodup
  rw [hcons, List.nodup_cons] at hnd
  simp only [hu, unblock, hasleep, if_true]
  refine ⟨insert t W, ?_, hnd.2, ?_, ?_, hi.calm⟩
  · intro u
    rcases eq_or_ne u t with rfl | hne
    · simp [hnd.1]
    · have hm := hi.mem_waiters u
      simp only [hcons, List.mem_cons, hne, false_or] at hm
      simp [hne, hm]
  · intro u
    rcases eq_or_ne u t with rfl | hne
    · simp
    · simp [hne, hi.mem_woken]
  · intro _
    have hle := hi.value_le (by simp [hcons])
    rw [Finset.card_insert_of_notMem hnew]
    exact (toNat_succ_le _).trans (by omega)

theorem SemaQueue.step (h : s.step a = some s') : ∃ W', SemaQueue s' W' := by
  obtain ⟨-, ⟨t, ht, rfl⟩ | ⟨t, -, -, rfl⟩ | ⟨t, -, h0, rfl⟩ | ⟨t, -, rfl⟩⟩ := step_cases h
  · rcases s.pass_cases t with ⟨h0, he⟩ | ⟨h0, he⟩
    · rw [he]
      exact ⟨W.erase t, hi.sleep ht h0⟩
    · rw [he]
      exact ⟨W.erase t, hi.take ht h0⟩
  · exact ⟨W, hi⟩
  · refine ⟨W, hi.mem_waiters, hi.nodup, hi.mem_woken, fun hw => ?_, hi.calm⟩
    have hle := hi.value_le hw
    have hpred := toNat_pred h0
    simp only
    omega
  · exact hi.up

end

theorem SemaQueue.reached {v : UInt32} {G : SemaState → SemaAction → Prop} (h : (semaSystem v).ReachableIf G s) :
    ∃ W, SemaQueue s W := by
  refine h.invariant (I := fun s => ∃ W, SemaQueue s W) ?_ ?_
  · rintro s rfl
    exact ⟨∅, SemaQueue.start v⟩
  · rintro s a s' ⟨W, hi⟩ - hs
    exact hi.step hs

end Pintos
