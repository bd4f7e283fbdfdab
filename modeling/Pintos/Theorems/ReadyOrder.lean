import Pintos.Theorems.Scheduling

/-!
# In which order the ready queue serves

A thread that ran goes to the end of the queue with the time of the machine, so the queue is out of order only through what
enters it together: the tasks that have arrived first, and the threads that woke up after them.
-/

namespace Pintos.Schedlab

open List

/-- The time at which a thread in the queue became ready. -/
def Thread.queuedAt (t : Thread) : Int := t.lastQueued.getD 0

variable (q : Int)

namespace Machine

variable (m : Machine)

/-- The queue is in the order in which its threads became ready. -/
def InOrder : Prop := (m.ready.map Thread.queuedAt).Pairwise (· ≤ ·)

/-- When the tasks to come arrive and when the threads in the list `io` wake up, of those that do by `time`. -/
def dueTimes (time : Int) : List Int :=
  (m.future.filter (fun task => decide (task.arrivalTime ≤ time))).map (·.arrivalTime) ++
    (m.io.filter (due time)).map (fun t => t.wakeupTime.getD 0)

end Machine

namespace Sim

variable (s : Sim)

/-- The time to which the next step moves the machine on: to the end of a run, or of the time that it idles. -/
def nextTime : Option Int :=
  match s.phase with
  | .top => if s.machine.ready.isEmpty then s.machine.nextStart.toOption.join else none
  | .dequeued t => some (s.machine.time + (t.run q).2.1)
  | .ran _ _ _ | .stopped | .raised _ => none

/-- What falls due until then does so in the order in which it is looked at: all the arrivals, and then the threads that wake
up. -/
def Timely : Prop := ∀ time, s.nextTime q = some time → (s.machine.dueTimes time).Pairwise (· ≤ ·)

/-- A thread that was just taken from the queue did not become ready after one that is still there. -/
def Served : Prop := ∀ t, s.phase = .dequeued t → ∀ u ∈ s.machine.ready, t.queuedAt ≤ u.queuedAt

end Sim

variable {q}

namespace Machine

variable {m : Machine} (h : m.Ok)
include h

/-- What is in the queue became ready by now. -/
theorem Ok.queuedAt_le {a : Int} (ha : a ∈ m.ready.map Thread.queuedAt) : a ≤ m.time := by
  obtain ⟨t, ht, rfl⟩ := mem_map.mp ha
  obtain ⟨-, queued, hqueued, hle, -⟩ := h.ready t ht
  rwa [Thread.queuedAt, hqueued]

omit h in
/-- The times with which threads enter the queue. -/
theorem entered_times (m : Machine) : m.entered.ready.map Thread.queuedAt = m.ready.map Thread.queuedAt ++ m.dueTimes m.time := by
  have harrived : ∀ n l, (arrived n l).map Thread.queuedAt = l.map (·.arrivalTime) := by
    intro n l
    induction l generalizing n with
    | nil => rfl
    | cons task l ih => simp only [arrived, map_cons, ih, Thread.queuedAt, Option.getD_some]
  simp only [entered, dueTimes, map_append, harrived, map_map, append_assoc]
  rfl

/-- Time moves on: what enters the queue became ready later than what is there. -/
theorem Ok.entered_inOrder (time : Int) : (m.later time).entered.InOrder ↔ m.InOrder ∧ (m.dueTimes time).Pairwise (· ≤ ·) := by
  have hlate : ∀ b ∈ m.dueTimes time, m.time < b := by
    intro b hb
    rcases mem_append.mp hb with hb | hb
    · obtain ⟨task, htask, rfl⟩ := mem_map.mp hb
      exact h.future task (mem_filter.mp htask).1
    · obtain ⟨t, ht, rfl⟩ := mem_map.mp hb
      obtain ⟨wakeup, hwakeup, hlt⟩ := h.asleep t (mem_filter.mp ht).1
      rwa [hwakeup]
  have hcross : ∀ a ∈ m.ready.map Thread.queuedAt, ∀ b ∈ m.dueTimes time, a ≤ b := fun a ha b hb =>
    Int.le_trans (h.queuedAt_le ha) (Int.le_of_lt (hlate b hb))
  rw [InOrder, entered_times]
  exact pairwise_append.trans ⟨fun h => ⟨h.1, h.2.1⟩, fun h => ⟨h.1, h.2, hcross⟩⟩

/-- A thread goes to the end of the queue now. -/
theorem Ok.enqueue_inOrder (t : Thread) : (m.enqueue t m.time).InOrder ↔ m.InOrder := by
  simp only [InOrder, Machine.enqueue, map_append, pairwise_append]
  refine ⟨fun h => h.1, fun hm => ⟨hm, pairwise_singleton _ _, fun a ha b hb => ?_⟩⟩
  obtain rfl := mem_singleton.mp hb
  exact h.queuedAt_le ha

end Machine

namespace Sim

variable {tasks : List Task} {s s' : Sim} (h : s.Inv tasks)
include h

/-- The end of a turn leaves the queue in the order in which it was. -/
theorem Inv.dispatch_inOrder {t : Thread} {status : Status} {ioTime : Option Int} (hphase : s.phase = .ran t status ioTime) :
    (s.dispatch t status ioTime).phase = .top ∧ ((s.dispatch t status ioTime).machine.InOrder ↔ s.machine.InOrder) := by
  unfold Sim.dispatch
  split
  · obtain ⟨wait, rfl, -⟩ := (h.fits hphase).2.2.2 ‹_›
    simp only [orTypeError, andThen]
    split
    · exact ⟨rfl, Iff.rfl⟩
    · exact ⟨rfl, h.machine.enqueue_inOrder t⟩
  · split
    · exact ⟨rfl, h.machine.enqueue_inOrder t⟩
    · exact ⟨rfl, Iff.rfl⟩

/-- A turn of the loop: the machine idles, or the first thread is taken from the queue. -/
theorem Inv.turn_inOrder (hphase : s.phase = .top) : s.turn.machine.InOrder ∧ s.turn.Served ↔ s.machine.InOrder ∧ s.Timely q := by
  unfold Sim.turn Timely nextTime
  rw [hphase]
  cases hready : s.machine.ready with
  | nil =>
    rcases h.machine.nextStart with ⟨-, -, hnext⟩ | ⟨hsome, next, hnext, hlt, -⟩
    · simp [hnext, andThen, Served, Except.toOption]
    · have hne : next ≠ 0 := by
        have := h.machine.time
        omega
      simp [hnext, andThen, h.machine.idle hsome hnext hlt, h.machine.entered_inOrder, hne, Served, Except.toOption]
  | cons t rest =>
    obtain ⟨wait, hdequeue, -⟩ := h.machine.dequeue hready
    simp only [isEmpty_cons, Bool.false_eq_true, if_false, hdequeue, andThen, Served, Machine.InOrder, hready, map_cons,
      pairwise_cons, forall_mem_map]
    constructor
    · rintro ⟨hrest, hfirst⟩
      exact ⟨⟨hfirst { t with waitTime := wait } rfl, hrest⟩, by simp⟩
    · refine fun h => ⟨h.1.2, ?_⟩
      rintro t ⟨⟩
      exact h.1.1

/-- A step keeps the queue in order and serves in order exactly if what it takes in is due in order. -/
theorem Inv.step_inOrder (hq : 0 ≤ q) (hstep : s.step q = some s') :
    s'.machine.InOrder ∧ s'.Served ↔ s.machine.InOrder ∧ s.Timely q := by
  unfold Sim.step at hstep
  cases hphase : s.phase with
  | top =>
    rw [hphase] at hstep
    exact Option.some.inj hstep ▸ h.turn_inOrder hphase
  | dequeued t =>
    rw [hphase] at hstep
    obtain rfl := Option.some.inj hstep
    simp [Sim.runThread, h.machine.run ((h.fits hphase).1.run hq).1.nonneg, andThen, Served, Timely, nextTime, hphase,
      h.machine.entered_inOrder]
  | ran t status ioTime =>
    rw [hphase] at hstep
    obtain rfl := Option.some.inj hstep
    obtain ⟨htop, hsame⟩ := h.dispatch_inOrder hphase
    simp [Served, Timely, nextTime, hphase, htop, hsame]
  | stopped | raised e =>
    rw [hphase] at hstep
    cases hstep

omit h in
/-- The queue begins in order: whatever has arrived has done so at time 0. -/
theorem start_inOrder (tasks : List Task) : (start tasks).machine.InOrder ∧ (start tasks).phase = .top := by
  have hzero : ∀ b ∈ (first tasks).dueTimes 0, b = 0 := by
    intro b hb
    obtain ⟨task, htask, rfl⟩ := mem_map.mp ((mem_append.mp hb).resolve_right not_mem_nil)
    exact Int.le_antisymm (of_decide_eq_true (mem_filter.mp htask).2) task.arrival_nonneg
  rw [start_eq]
  refine ⟨?_, rfl⟩
  rw [Machine.InOrder, Machine.entered_times]
  exact pairwise_of_forall_mem_list fun a ha b hb => by rw [hzero a ha, hzero b hb]

end Sim

/-- The threads are served in the order in which they became ready exactly if in every state of the run what falls due during
the next step, the arrivals first and then the threads that wake up in the order in which they began to wait, does so in that
order. -/
theorem scheduler_serves_in_order (tasks : List Task) (q : Int) (hq : 0 ≤ q) :
    (∀ s, (scheduler tasks q).Reachable s → s.Served) ↔ ∀ s, (scheduler tasks q).Reachable s → s.Timely q := by
  have hinv := fun s => @Sim.reachable_inv tasks s q hq
  constructor
  · -- by induction on the steps that are left: the queue was in order if it is after the next step
    intro hserved
    suffices hall : ∀ n s, s.weight = n → (scheduler tasks q).Reachable s → s.machine.InOrder ∧ s.Timely q from
      fun s hr => (hall _ s rfl hr).2
    intro n
    induction n using Nat.strongRecOn with
    | _ n ih =>
      rintro s rfl hr
      cases hstep : s.step q with
      | none =>
        have hstopped := (hinv s hr).stopped hstep
        simp [Machine.InOrder, ((hinv s hr).fits hstopped).1, Sim.Timely, Sim.nextTime, hstopped]
      | some s' =>
        have hr' : (scheduler tasks q).Reachable s' := .step () hr trivial hstep
        have hnext := ih s'.weight ((hinv s hr).step hq hstep).weight s' rfl hr'
        exact ((hinv s hr).step_inOrder hq hstep).mp ⟨hnext.1, hserved s' hr'⟩
  · intro htimely s hr
    suffices hall : s.machine.InOrder ∧ s.Served from hall.2
    induction hr with
    | init h =>
      rw [show _ = _ from h]
      refine ⟨(Sim.start_inOrder tasks).1, ?_⟩
      intro t ht
      rw [(Sim.start_inOrder tasks).2] at ht
      cases ht
    | step _ hr _ hstep ih => exact ((hinv _ hr).step_inOrder hq hstep).mpr ⟨ih.1, htimely _ hr⟩

instance (s : Sim) (q : Int) : Decidable (s.Timely q) :=
  decidable_of_iff ((s.nextTime q).all fun time => (s.machine.dueTimes time).Pairwise (· ≤ ·)) (by
    cases h : s.nextTime q <;> simp [Sim.Timely, h])

/-- The first workload of the notebook, with a quantum of 2: everything falls due in order, and so the threads are served in
order. -/
theorem workload1_serves_in_order : (∀ s, (scheduler workload1 2).Reachable s → s.Timely 2) ∧
    ∀ s, (scheduler workload1 2).Reachable s → s.Served := by
  have htimely : ∀ s, (scheduler workload1 2).Reachable s → s.Timely 2 := fun s hr =>
    of_decide_eq_true (hr.of_holdsAlong (P := fun s => s.Timely 2) 34 (by rintro _ ⟨⟩; decide +kernel))
  exact ⟨htimely, (scheduler_serves_in_order workload1 2 (by decide)).mpr htimely⟩

/-- A task of whole numbers of time. -/
def Task.ofTimes (arrival total : Nat) (cpu io : Burst) : Task :=
  ⟨arrival, total, cpu, io, Int.natCast_nonneg _, Int.natCast_nonneg _⟩

/-- A task that waits for I/O from 1 to 3, a long one, and one that arrives at 5 while the long one runs. -/
def lateWakeup : List Task :=
  [.ofTimes 0 2 (makePeriodic 1) (makePeriodic 2), .ofTimes 0 9 indefinite nowait, .ofTimes 5 1 indefinite nowait]

/-- First come, first served: the task that arrived at 5 is served before the thread that woke up at 3. -/
theorem lateWakeup_served_last : ∃ s, (scheduler lateWakeup 0).Reachable s ∧ ¬s.Served := by
  refine ⟨_, Transition.System.reachable_of_run rfl (replicate 7 ()) rfl, fun hserved => ?_⟩
  exact absurd (hserved _ rfl _ mem_cons_self) (by decide)

end Pintos.Schedlab
