import Pintos.Lemmas.Scheduler

/-!
# The scheduler's state

A `struct thread` has one `list_elem` for the run queue and for every semaphore's list. That it is on one of them at a time
follows from the status, provided that `thread_unblock` is called only for a thread that went to sleep by `thread_block`, as
`sema_up` and the drivers do.

The page of a dying thread is freed by the thread that runs next. The page of the initial thread did not come from the
allocator, and stays as it is.
-/

namespace Pintos

open Option Sched

/-- What the scheduler's state is like outside `schedule`. -/
structure SchedOk (s : Sched) : Prop where
  /-- Exactly one thread is running. -/
  running : ∃! t, ∃ th, s.threads t = some th ∧ th.status = .running
  /-- A thread other than the idle thread is on the run queue, once, exactly if it is ready; and the run queue holds nothing
  else. -/
  ready : ∀ t th, s.threads t = some th → s.idleThread ≠ some t → s.readyList.count t = if th.status = .ready then 1 else 0
  readyHolds : ∀ t ∈ s.readyList, ∃ th, s.threads t = some th
  /-- A thread on a semaphore's list is blocked, and on no other list of a semaphore, nor on this one twice, nor on the run
  queue. -/
  waiters : ∀ m t, t ∈ (s.semas m).waiters → (∃ th, s.threads t = some th ∧ th.status = .blocked) ∧
    (s.semas m).waiters.count t = 1 ∧ (∀ m', t ∈ (s.semas m').waiters → m' = m) ∧ t ∉ s.readyList
  /-- Only the initial thread is left dying, and it is on no list. -/
  dying : ∀ t th, s.threads t = some th → th.status = .dying →
    t = s.initialThread ∧ t ∉ s.readyList ∧ t ∉ s.allList ∧ ∀ m, t ∉ (s.semas m).waiters
  /-- The initial thread has its page, and has not been freed. -/
  initial : (∃ th, s.threads s.initialThread = some th ∧ th.birth = 0) ∧ 0 ∉ s.freed.map Prod.fst
  /-- When it exits it is left dying, and it stays so whatever is done. -/
  initialExits : ∀ a s', UnblocksSleeper s a → s.step a = some s' → s'.initialThread = s.initialThread ∧
    ((∃ th, s.threads s.initialThread = some th ∧ th.status = .dying) ∨ a = .threadExit ∧ s.cur = s.initialThread →
      ∃ th, s'.threads s.initialThread = some th ∧ th.status = .dying)
  /-- Any other thread that exits is freed in the switch, after the thread that it switches to has begun to run. -/
  exits : ∀ s', s.step .threadExit = some s' → s.cur ≠ s.initialThread → ∃ th nth, s.threads s.cur = some th ∧
    s'.cur ≠ s.cur ∧ s'.threads s'.cur = some nth ∧ nth.status = .running ∧ s'.threads s.cur = none ∧
    s'.freed = (th.birth, nth.birth) :: s.freed
  /-- No thread is freed twice, none is freed by itself, and none that has a page has been freed. -/
  freedOnce : (s.freed.map Prod.fst).Nodup ∧ (∀ p ∈ s.freed, p.1 ≠ p.2) ∧ ∀ t th, s.threads t = some th →
    th.birth ∉ s.freed.map Prod.fst
  /-- The idle thread, from before its first block on, is never on the run queue. -/
  idle : ∀ t th, s.threads t = some th → th.pc = .idleLoop → s.idleThread = some t ∧ t ∉ s.readyList

/-- In a state that meets the invariant, a thread that exits is freed. -/
theorem SchedInv.exits {s s' : Sched} (hi : SchedInv s) (h : s.step .threadExit = some s') (hne : s.cur ≠ s.initialThread) :
    ∃ th nth, s.threads s.cur = some th ∧ s'.cur ≠ s.cur ∧ s'.threads s'.cur = some nth ∧ nth.status = .running ∧
      s'.threads s.cur = none ∧ s'.freed = (th.birth, nth.birth) :: s.freed := by
  obtain ⟨th, hth, h⟩ := bind_eq_some_iff.mp h
  obtain ⟨hallow, h⟩ := ite_none_right_eq_some.mp h
  simp only [Sched.threadExit, hth, bind_eq_bind, bind_some] at h
  obtain ⟨dh, n, nth, rest, hdh, -, hnth, hlist, hs'⟩ := Sched.schedule_cases h
  simp only [Sched.setThread, Function.update_self, some.injEq] at hdh
  -- the thread that runs next is not the dying one, which is on no list and is not idle
  have hncur : s.cur ≠ n := fun he => by
    rcases hlist with hr | ⟨-, -, hid⟩
    · exact (hi.cur_free hth).2.1 (by rw [he]; rw [show s.readyList = _ from hr]; exact List.mem_cons_self)
    · have hpc := ((hi.threadAt hth).idle (he ▸ hid)).1
      cases hp : th.pc <;> simp [hp, ThreadPc.isIdle, Sched.allowed] at hpc hallow
  rcases hs' with ⟨-, -, -, rfl⟩ | ⟨hor, -⟩
  · refine ⟨th, { nth with status := .running }, hth, fun he => hncur he.symm, ?_, rfl, ?_, ?_⟩
    · simp [Sched.freePage, Sched.setThread, Ne.symm hncur]
    · simp [Sched.freePage, Sched.setThread]
    · simp [Sched.freePage, Sched.setThread, ← hdh]
  · rcases hor with hor | hor | hor
    · exact absurd (by rw [← hdh]) hor
    · exact absurd hor hne
    · exact absurd hor hncur

/-- The initial thread, when it exits or has exited, is left dying. -/
theorem SchedInv.initialExits {s s' : Sched} {a : SchedAction} {p : Thread} (hi : SchedInv s) (hb : BirthInv p False s)
    (hg : UnblocksSleeper s a) (h : s.step a = some s')
    (hd : (∃ th, s.threads p = some th ∧ th.status = .dying) ∨ a = .threadExit ∧ s.cur = p) :
    ∃ th, s'.threads p = some th ∧ th.status = .dying := by
  have hb' : BirthInv p True s' := by
    rcases hd with ⟨th, hth, hst⟩ | ⟨rfl, hcur⟩
    · have hexited : BirthInv p True s := { hb with exited := fun _ => ((hi.threadAt hth).of_dying hst).all }
      exact hexited.step hi.allNodup h
    · obtain ⟨th, hth, h⟩ := bind_eq_some_iff.mp h
      exact hb.threadExit (fun _ => .inr hcur.symm) hi.allNodup (ite_none_right_eq_some.mp h).2
  have hi' := hi.step hg h
  obtain ⟨th, hth⟩ := hb'.page ▸ hi'.initial
  exact ⟨th, hth, by_contra fun hne => hb'.exited trivial ((hi'.threadAt hth).all.mpr hne)⟩

/-- In every state reached by operations in which `thread_unblock` is called only for sleepers, the scheduler's state is as
it should be. -/
theorem scheduler_ok (s : Sched) (h : schedSystem.ReachableIf UnblocksSleeper s) : SchedOk s := by
  obtain ⟨hi, p, hb⟩ : SchedInv s ∧ ∃ p, BirthInv p False s := by
    refine h.invariant (I := fun s => SchedInv s ∧ ∃ p, BirthInv p False s) ?_ ?_
    · rintro s ⟨page, value, rfl⟩
      exact ⟨.start page value, page, .start page value⟩
    · rintro s a s' ⟨hi, p, hb⟩ hg hs
      exact ⟨hi.step hg hs, p, hb.step hi.allNodup hs⟩
  have hlive : ∀ t th, s.threads t = some th → th.birth ∉ s.freed.map Prod.fst := fun t th hth hm =>
    (hb.gone _ hm).2 t (by rw [births, hth]; rfl)
  refine ⟨?_, ?_, ?_, ?_, ?_, ?_, ?_, fun s' hs hne => hi.exits hs hne, ⟨hb.nodup, hb.byOther, hlive⟩, ?_⟩
  · obtain ⟨th, hth⟩ := hi.cur
    refine ⟨s.cur, ⟨th, hth, (hi.running s.cur th hth).mpr rfl⟩, ?_⟩
    rintro t ⟨uh, hu, hst⟩
    exact (hi.running t uh hu).mp hst
  · intro t th hth hid
    have hready := (hi.threadAt hth).ready
    by_cases hst : th.status = .ready
    · rw [if_pos hst, List.count_eq_one_of_mem hi.readyNodup (hready.mpr ⟨hid, hst⟩)]
    · rw [if_neg hst, List.count_eq_zero]
      exact fun hm => hst (hready.mp hm).2
  · intro t hm
    obtain ⟨th, hth, -⟩ := hi.exists_of_listed (fun h => h.ready hm)
    exact ⟨th, hth⟩
  · intro m t hm
    obtain ⟨th, hth, hat⟩ := hi.exists_of_listed (fun h => h.waiters m hm)
    obtain ⟨hst, hpc⟩ := hat.waiters m hm
    refine ⟨⟨th, hth, hst⟩, List.count_eq_one_of_mem (hi.waitersNodup m) hm, fun m' hm' => ?_, by simp [hat.ready, hst]⟩
    exact ThreadPc.inDown.inj ((hat.waiters m' hm').2.symm.trans hpc)
  · intro t th hth hst
    have hgone := (hi.threadAt hth).of_dying hst
    exact ⟨hi.dying t th hth hst, hgone.ready, hgone.all, hgone.waiters⟩
  · obtain ⟨th, hth⟩ := hi.initial
    have hbirth : th.birth = 0 := by simpa [births, ← hb.page, hth] using hb.initial
    exact ⟨⟨th, hth, hbirth⟩, hbirth ▸ hlive _ th hth⟩
  · intro a s' hg hs
    refine ⟨(hb.step hi.allNodup hs).page.trans hb.page.symm, fun hd => ?_⟩
    rw [hb.page] at hd ⊢
    exact hi.initialExits hb hg hs hd
  · intro t th hth hpc
    have hid := (hi.threadAt hth).idleSet (by rw [hpc]; rfl) (by simp [hpc])
    exact ⟨hid, fun hm => ((hi.threadAt hth).ready.mp hm).1 hid⟩

/-- The initial thread starts the idle thread and waits for it: it is queued, the idle thread runs and wakes it, and
blocks. -/
def startUp : List SchedAction := [.threadStart (some 1), .semaDown idleStarted, .go, .go, .go, .go]

/-- After `startUp` the initial thread runs and the idle thread is blocked, on no list but that of all threads. -/
theorem scheduler_ok_startUp :
    ∃ s, schedSystem.run (start 0 fun _ => 0) startUp = some s ∧ SchedOk s ∧ s.cur = 0 ∧ s.idleThread = some 1 ∧
      s.readyList = [] ∧ s.allList = [0, 1] := by
  refine Transition.System.exists_run ⟨0, _, rfl⟩ ?_ scheduler_ok (by decide)
  simp [Transition.System.Meets, startUp, UnblocksSleeper]

/-- The initial thread exits, and stays in memory, dying, while another thread runs; and a waiter of a semaphore for which
`thread_unblock` is called is ready and on two lists. -/
theorem scheduler_exceptions :
    (∃ s, schedSystem.run (start 0 fun _ => 0) [.threadStart (some 1), .threadExit] = some s ∧ s.cur = 1 ∧
      s.threads 0 = some { status := .dying, pc := .own, birth := 0 } ∧ s.freed = []) ∧
    (∃ s, schedSystem.run (start 0 fun _ => 0) [.threadStart (some 1), .semaDown 5, .threadUnblock 0] = some s ∧
      s.threads 0 = some { status := .ready, pc := .inDown 5, birth := 0 } ∧ 0 ∈ (s.semas 5).waiters ∧ 0 ∈ s.readyList) := by
  decide

end Pintos
