import Pintos.Devices.Intq

/-!
# The assertions of an interrupt queue

A thread tests the queue, takes the lock and asserts what it tested. The assertion is sure to hold where the thread does not
sleep between the two. Where it sleeps in `lock_acquire`, the queue may have changed when it wakes up, and nothing tests it
again.
-/

namespace Pintos

open IntqState Function

/-- The condition on a step: a thread that finds the queue empty, or full, finds the lock free. -/
def IntqState.Uncontended (s : IntqState) : IntqAction → Prop
  | .call _ call => s.q.blocks call = true → s.q.lock.holder = none
  | _ => True

/-- The waiter recorded in `not_empty` while thread `t` waits in a call. -/
def IntqCall.notEmpty (call : IntqCall) (t : Thread) : Option Thread :=
  match call with
  | .getc => some t
  | .putc _ => none

/-- The waiter recorded in `not_full` while thread `t` waits in a call. -/
def IntqCall.notFull (call : IntqCall) (t : Thread) : Option Thread :=
  match call with
  | .getc => none
  | .putc _ => some t

/-- The lock, the records and the threads, which go together: nobody in a call, or one thread that waits, or one that was
signalled. -/
inductive IntqState.Holding (s : IntqState) : Prop where
  | free (holder : s.q.lock.holder = none) (value : s.q.lock.semaphore.value = 1) (notEmpty : s.q.notEmpty = none)
      (notFull : s.q.notFull = none) (outside : ∀ u, s.threads u = .outside)
  | waiting (t : Thread) (call : IntqCall) (holder : s.q.lock.holder = some t) (value : s.q.lock.semaphore.value = 0)
      (notEmpty : s.q.notEmpty = call.notEmpty t) (notFull : s.q.notFull = call.notFull t) (pc : s.threads t = .waiting call)
      (outside : ∀ u, u ≠ t → s.threads u = .outside)
  | signalled (t : Thread) (call : IntqCall) (holder : s.q.lock.holder = some t) (value : s.q.lock.semaphore.value = 0)
      (notEmpty : s.q.notEmpty = none) (notFull : s.q.notFull = none) (pc : s.threads t = .signalled call)
      (outside : ∀ u, u ≠ t → s.threads u = .outside)

/-- What every step without contention keeps. -/
structure IntqState.Inv (s : IntqState) : Prop where
  failed : s.failed = none
  head : s.q.head < intqBufsize
  tail : s.q.tail < intqBufsize
  waiters : s.q.lock.semaphore.waiters = []
  holding : s.Holding

theorem intqNext_lt (pos : Nat) : intqNext pos < intqBufsize := Nat.mod_lt _ (by decide)

/-- Two positions with the same next position are the same. -/
theorem intqNext_inj {a b : Nat} (ha : a < intqBufsize) (hb : b < intqBufsize) (h : intqNext a = intqNext b) : a = b := by
  unfold intqNext intqBufsize at *
  omega

namespace IntqState

variable {s : IntqState} {t : Thread} {call : IntqCall}

/-- After a byte is removed the queue is not full, and a writer that waits is unblocked. -/
theorem Inv.signalNotFull (h : s.Inv) (hfull : s.q.full = false) : s.signalNotFull.Inv := by
  unfold IntqState.signalNotFull
  rw [if_neg (by rw [hfull]; exact Bool.false_ne_true)]
  cases h.holding with
  | free holder value notEmpty notFull | signalled t call holder value notEmpty notFull =>
    rw [notFull]
    exact h
  | waiting t call holder value notEmpty notFull pc outside =>
    rw [notFull]
    cases call with
    | getc => exact h
    | putc byte =>
      simp only [IntqCall.notFull, unblockWaiter, pc]
      refine { h with holding := .signalled t (.putc byte) holder value notEmpty rfl (update_self ..) (fun u hu => ?_) }
      exact (update_of_ne hu ..).trans (outside u hu)

/-- After a byte is added the queue is not empty, and a reader that waits is unblocked. -/
theorem Inv.signalNotEmpty (h : s.Inv) (hempty : s.q.empty = false) : s.signalNotEmpty.Inv := by
  unfold IntqState.signalNotEmpty
  rw [if_neg (by rw [hempty]; exact Bool.false_ne_true)]
  cases h.holding with
  | free holder value notEmpty | signalled t call holder value notEmpty =>
    rw [notEmpty]
    exact h
  | waiting t call holder value notEmpty notFull pc outside =>
    rw [notEmpty]
    cases call with
    | putc byte => exact h
    | getc =>
      simp only [IntqCall.notEmpty, unblockWaiter, pc]
      refine { h with holding := .signalled t .getc holder value rfl notFull (update_self ..) (fun u hu => ?_) }
      exact (update_of_ne hu ..).trans (outside u hu)

/-- The positions and the buffer do not matter to who holds what. -/
theorem Holding.congr {s' : IntqState} (h : s.Holding) (hl : s'.q.lock = s.q.lock) (he : s'.q.notEmpty = s.q.notEmpty)
    (hf : s'.q.notFull = s.q.notFull) (ht : s'.threads = s.threads) : s'.Holding := by
  cases h with
  | free holder value notEmpty notFull outside =>
    exact .free (hl ▸ holder) (hl ▸ value) (he ▸ notEmpty) (hf ▸ notFull) (ht ▸ outside)
  | waiting t call holder value notEmpty notFull pc outside =>
    exact .waiting t call (hl ▸ holder) (hl ▸ value) (he ▸ notEmpty) (hf ▸ notFull) (ht ▸ pc) (ht ▸ outside)
  | signalled t call holder value notEmpty notFull pc outside =>
    exact .signalled t call (hl ▸ holder) (hl ▸ value) (he ▸ notEmpty) (hf ▸ notFull) (ht ▸ pc) (ht ▸ outside)

/-- A call that finds the queue in order keeps the invariant: the byte goes in or out, and the assertion of `signal`
holds. -/
theorem Inv.transfer (h : s.Inv) (hb : s.q.blocks call = false) : (s.transfer call).Inv := by
  cases call with
  | getc =>
    have hne : s.q.head ≠ s.q.tail := by simpa [Intq.blocks, Intq.empty] using hb
    refine Inv.signalNotFull { h with tail := intqNext_lt _, holding := h.holding.congr rfl rfl rfl rfl } ?_
    simp only [Intq.full, beq_eq_false_iff_ne]
    exact fun he => hne (intqNext_inj h.head h.tail he)
  | putc byte =>
    have hne : intqNext s.q.head ≠ s.q.tail := by simpa [Intq.blocks, Intq.full] using hb
    refine Inv.signalNotEmpty { h with head := intqNext_lt _, holding := h.holding.congr rfl rfl rfl rfl } ?_
    simp only [Intq.empty, beq_eq_false_iff_ne]
    exact hne

/-- A thread at the test of its loop, with the lock free and nobody else in a call. -/
structure AtTest (s : IntqState) (t : Thread) : Prop where
  failed : s.failed = none
  head : s.q.head < intqBufsize
  tail : s.q.tail < intqBufsize
  waiters : s.q.lock.semaphore.waiters = []
  holder : s.q.lock.holder = none
  value : s.q.lock.semaphore.value = 1
  notEmpty : s.q.notEmpty = none
  notFull : s.q.notFull = none
  outside : ∀ u, u ≠ t → s.threads u = .outside

/-- From the test on, such a thread returns or waits, and the assertion of `wait` is what it has just tested. -/
theorem AtTest.loop (h : s.AtTest t) (call : IntqCall) : (s.loop t call).Inv := by
  obtain ⟨hf, hh, ht, hw, holder, value, notEmpty, notFull, outside⟩ := h
  unfold IntqState.loop
  cases hb : s.q.blocks call with
  | false =>
    have hfree : (s.setPc t .outside).Inv := by
      refine ⟨hf, hh, ht, hw, .free holder value notEmpty notFull (fun u => ?_)⟩
      by_cases hu : u = t
      · rw [hu]
        exact update_self ..
      · exact (update_of_ne hu ..).trans (outside u hu)
    exact hfree.transfer hb
  | true =>
    have hheld : lockHeldByCurrentThread s.q.lock t = false := by simp [lockHeldByCurrentThread, holder]
    have hdown : semaDown s.q.lock.semaphore t = ({ s.q.lock.semaphore with value := 0 }, true) := by
      simp [semaDown, value]
    rw [if_pos rfl, hheld, if_neg Bool.false_ne_true]
    unfold acquire
    rw [hdown]
    simp only
    unfold wait
    rw [if_pos (by cases call <;> exact hb)]
    have hother : ∀ (pc : IntqPc) u, u ≠ t → update s.threads t pc u = .outside := fun pc u hu =>
      (update_of_ne hu ..).trans (outside u hu)
    cases call with
    | getc => exact ⟨hf, hh, ht, hw, .waiting t .getc rfl rfl rfl notFull (update_self ..) (hother _)⟩
    | putc byte => exact ⟨hf, hh, ht, hw, .waiting t (.putc byte) rfl rfl notEmpty rfl (update_self ..) (hother _)⟩

/-- A thread in a call waits, or it was signalled and holds the lock alone: none sleeps in `lock_acquire`. -/
theorem Holding.pc_cases (h : s.Holding) (ht : s.threads t ≠ .outside) : (∃ call, s.threads t = .waiting call) ∨
      (∃ call, s.threads t = .signalled call) ∧ s.q.lock.holder = some t ∧ s.q.lock.semaphore.value = 0 ∧ s.q.notEmpty = none ∧
        s.q.notFull = none ∧ ∀ u, u ≠ t → s.threads u = .outside := by
  cases h with
  | free holder value notEmpty notFull outside => exact absurd (outside t) ht
  | waiting u call holder value notEmpty notFull pc outside =>
    have hu : t = u := Decidable.byContradiction (fun hu => ht (outside t hu))
    exact .inl ⟨call, hu ▸ pc⟩
  | signalled u call holder value notEmpty notFull pc outside =>
    have hu : t = u := Decidable.byContradiction (fun hu => ht (outside t hu))
    subst hu
    exact .inr ⟨⟨call, pc⟩, holder, value, notEmpty, notFull, outside⟩

/-- `lock_release` by the thread that was signalled, with nobody asleep on the lock. -/
theorem Inv.release (h : s.Inv) (hpc : s.threads t = .signalled call) : (s.release t).AtTest t := by
  obtain ⟨hf, hh, ht, hw, hold⟩ := h
  rcases hold.pc_cases (by rw [hpc]; exact nofun) with ⟨call', hw'⟩ | ⟨-, holder, value, notEmpty, notFull, outside⟩
  · rw [hpc] at hw'
    cases hw'
  have hup : semaUp s.q.lock.semaphore = ({ s.q.lock.semaphore with value := s.q.lock.semaphore.value + 1 }, none) := by
    simp [semaUp, hw]
  have hheld : lockHeldByCurrentThread s.q.lock t = true := by simp [lockHeldByCurrentThread, holder]
  unfold IntqState.release
  rw [hheld, if_pos rfl, hup]
  exact ⟨hf, hh, ht, hw, rfl, by simp [value], notEmpty, notFull, outside⟩

theorem Inv.step {s' : IntqState} {a : IntqAction} (h : s.Inv) (hg : s.Uncontended a) (hs : s.step a = some s') : s'.Inv := by
  unfold IntqState.step at hs
  rw [h.failed] at hs
  simp only [Option.isSome_none, Bool.false_eq_true, if_false] at hs
  cases a with
  | call t call =>
    simp only at hs
    split at hs
    · rename_i hpc
      cases hs
      cases hb : s.q.blocks call with
      | false =>
        unfold loop
        rw [hb, if_neg Bool.false_ne_true]
        have hsame : s.setPc t .outside = s := by
          unfold setPc
          rw [← hpc, update_eq_self]
        rw [hsame]
        exact h.transfer hb
      | true =>
        have hfree := hg hb
        cases h.holding with
        | free holder value notEmpty notFull outside =>
          exact AtTest.loop { h with holder, value, notEmpty, notFull, outside u _ := outside u } call
        | waiting u call' holder | signalled u call' holder =>
          rw [holder] at hfree
          cases hfree
    · cases hs
  | resume t =>
    simp only at hs
    split at hs
    · rename_i call hpc
      -- nobody has slept in lock_acquire, so nobody wakes up there
      rcases h.holding.pc_cases (by rw [hpc]; exact nofun) with ⟨call', hw⟩ | ⟨⟨call', hw⟩, -⟩ <;>
        rw [hpc] at hw <;> cases hw
    · rename_i call hpc
      have hr := h.release hpc
      rw [hr.failed] at hs
      cases hs
      exact hr.loop call
    · cases hs
  | handler call =>
    simp only at hs
    split at hs
    · cases hs
    · rename_i hb
      cases hs
      exact h.transfer (Bool.eq_false_iff.mpr hb)

theorem inv_start (buf : Nat → UInt8) : (start buf).Inv :=
  ⟨rfl, Nat.zero_lt_succ _, Nat.zero_lt_succ _, rfl, .free rfl rfl rfl rfl (fun _ => rfl)⟩

/-- A thread that waits is the one recorded for its condition. -/
theorem Holding.recorded (h : s.Holding) (ht : s.threads t = .waiting call) :
    s.q.notEmpty = call.notEmpty t ∧ s.q.notFull = call.notFull t := by
  cases h with
  | free holder value notEmpty notFull outside =>
    rw [outside t] at ht
    cases ht
  | waiting u call' holder value notEmpty notFull pc outside =>
    have hu : t = u := Decidable.byContradiction (fun hu => by rw [outside t hu] at ht; cases ht)
    subst hu
    rw [pc] at ht
    cases ht
    exact ⟨notEmpty, notFull⟩
  | signalled u call' holder value notEmpty notFull pc outside =>
    by_cases hu : t = u
    · rw [hu, pc] at ht
      cases ht
    · rw [outside t hu] at ht
      cases ht

instance (s : IntqState) (a : IntqAction) : Decidable (s.Uncontended a) :=
  match a with
  | .call _ call => inferInstanceAs (Decidable (s.q.blocks call = true → s.q.lock.holder = none))
  | .resume _ => isTrue trivial
  | .handler _ => isTrue trivial

end IntqState

/-- **The assertions of an interrupt queue hold without contention for its lock.** In any run of readers, writers and
handlers in which every thread that finds the queue empty, or full, finds the lock free, no assertion fails, a thread that
waits in `intq_getc` is the one recorded in `not_empty` and a thread that waits in `intq_putc` the one recorded in
`not_full`. -/
theorem intq_asserts_hold_uncontended (s : IntqState) (h : intqSystem.ReachableIf Uncontended s) :
    s.failed = none ∧ (∀ t, s.threads t = .waiting .getc → s.q.notEmpty = some t) ∧
      ∀ t byte, s.threads t = .waiting (.putc byte) → s.q.notFull = some t := by
  have hinv : s.Inv := by
    refine h.invariant ?_ (fun s a s' hi hg hs => hi.step hg hs)
    rintro s ⟨buf, rfl⟩
    exact inv_start buf
  exact ⟨hinv.failed, fun t ht => (hinv.holding.recorded ht).1, fun t byte ht => (hinv.holding.recorded ht).2⟩

/-- A reader that waits for the byte of a handler, and then returns it. -/
def readerRun : List IntqAction := [.call 1 .getc, .handler (.putc 5), .resume 1]

/-- That run meets the condition, and ends with the byte returned and no assertion failed. -/
theorem readerRun_asserts_hold : ∃ s, intqSystem.ReachableIf Uncontended s ∧ s.returned = [5] ∧ s.failed = none := by
  have hrun : ∃ s, intqSystem.runIf Uncontended (start (fun _ => 0)) readerRun = some s ∧ s.returned = [5] := ⟨_, rfl, rfl⟩
  obtain ⟨s, hs, hr⟩ := hrun
  have hinit : intqSystem.ReachableIf Uncontended (start (fun _ => 0)) := .init ⟨fun _ => 0, rfl⟩
  have hreach := hinit.runIf readerRun hs
  exact ⟨s, hreach, hr, (intq_asserts_hold_uncontended s hreach).1⟩

/-- Two readers and two bytes. Reader 1 waits with the lock and reader 2 sleeps in `lock_acquire` when a handler adds both
bytes; reader 1 takes one of them, and reader 2 gets the lock while the other is still there. -/
def twoReadersRun : List IntqAction :=
  [.call 1 .getc, .call 2 .getc, .handler (.putc 5), .handler (.putc 6), .resume 1, .resume 2]

/-- The assertion of `wait` fails in reader 2. -/
theorem twoReadersRun_wait_fails : ∃ s, intqSystem.Reachable s ∧ s.failed = some .wait :=
  Transition.System.exists_reachable ⟨fun _ => 0, rfl⟩ twoReadersRun ⟨_, rfl, rfl⟩

end Pintos
