import Pintos.Lemmas.Scheduling

/-!
# The simulator ends, and no time is lost

Each thread is in one place at a time: the queue, the list of those that wait for I/O, the variable of the loop, or among
those that have finished. A thread that runs either comes nearer to its end or is done, and one that sleeps or is yet to
arrive enters the queue at the latest when the machine idles, so a weight drops with every step and the loop ends.
-/

namespace Pintos.Schedlab

/-- The thread that the loop has taken from the queue. -/
def Phase.running : Phase → List Thread
  | .dequeued t => [t]
  | .ran t _ _ => [t]
  | .top | .stopped | .raised _ => []

/-- What is known of the thread that the loop has taken, and of the machine when the loop is over. -/
def Phase.Fits (m : Machine) : Phase → Prop
  | .top => True
  | .dequeued t => t.Ok ∧ t.Settled m.time
  | .ran t status ioTime =>
    t.Ok ∧ t.Settled m.time ∧ (status = .done ↔ t.remaining ≤ 0) ∧ (status = .io → ∃ wait, ioTime = some wait ∧ 0 ≤ wait)
  | .stopped => m.ready = [] ∧ m.io = [] ∧ m.future = []
  | .raised _ => False

/-- The steps that the loop can still take with the thread that it has taken, up to its test. -/
def Phase.weight : Phase → Nat
  | .top => 1
  | .dequeued t => t.weight
  | .ran t status _ => if status = .done then 2 else t.weight + 3
  | .stopped | .raised _ => 0

/-- What stays of a thread: its number and its task. -/
def Thread.key (t : Thread) : Nat × Task := (t.number, t.task)

namespace Sim

open List

/-- The threads that have been made, wherever they are. -/
def threads (s : Sim) : List Thread := s.machine.threads ++ s.phase.running ++ s.finished.map (·.1)

/-- The steps that the simulation can still take. -/
def weight (s : Sim) : Nat := s.machine.weight + s.phase.weight

/-- The invariant of the loop. -/
structure Inv (tasks : List Task) (s : Sim) : Prop where
  machine : s.machine.Ok
  phase : s.phase.Fits s.machine
  numbers : (s.threads.map (·.number)).Perm (range s.machine.created)
  tasks : (s.threads.map (·.task) ++ s.machine.future).Perm tasks
  finished : ∀ p ∈ s.finished, p.1.elapsedTime = p.1.task.totalRunTime ∧ p.1.Settled p.2

/-- What a step of the loop keeps, and what it brings. -/
structure Next (tasks : List Task) (s s' : Sim) : Prop where
  inv : s'.Inv tasks
  time : s.machine.time ≤ s'.machine.time
  weight : s'.weight < s.weight

variable {tasks : List Task} {s : Sim}

theorem Inv.fits (h : s.Inv tasks) {phase : Phase} (hphase : s.phase = phase) : phase.Fits s.machine := hphase ▸ h.phase

/-- Time moves on and the machine takes in what is due, while the loop holds the same thread or none. -/
theorem Inv.entered (h : s.Inv tasks) {time : Int} {phase : Phase} (htime : s.machine.time ≤ time)
    (hphase : phase.Fits (s.machine.later time).entered)
    (hnumbers : phase.running.map (·.number) = s.phase.running.map (·.number))
    (htasks : phase.running.map (·.task) = s.phase.running.map (·.task)) :
    Inv tasks { s with machine := (s.machine.later time).entered, phase := phase } := by
  have hcreated : s.machine.created ≤ (s.machine.later time).entered.created := Nat.le_add_right _ _
  have hperm : ((s.machine.later time).entered.threads.map (·.number)).Perm (s.machine.threads.map (·.number) ++
      range' s.machine.created ((s.machine.later time).entered.created - s.machine.created)) :=
    Machine.entered_numbers _
  have hperm' : (s.machine.later time).entered.tasks.Perm s.machine.tasks := Machine.entered_tasks _
  refine ⟨(h.machine.toAccounted.later htime).entered, hphase, ?_, ?_, h.finished⟩
  · generalize (s.machine.later time).entered = m at hperm hcreated ⊢
    have hrange : range m.created = range s.machine.created ++ range' s.machine.created (m.created - s.machine.created) := by
      have happend := range'_append_1 (s := 0) (m := s.machine.created) (n := m.created - s.machine.created)
      rw [Nat.zero_add, Nat.add_sub_cancel' hcreated] at happend
      rw [range_eq_range', range_eq_range', happend]
    refine perm_iff_count.mpr fun n => ?_
    have hnew := hperm.count_eq n
    have hold := h.numbers.count_eq n
    simp only [threads, map_append, count_append, hnumbers, hrange] at hnew hold ⊢
    omega
  · classical
    refine perm_iff_count.mpr fun task => ?_
    have hnew := hperm'.count_eq task
    have hold := h.tasks.count_eq task
    simp only [threads, Machine.tasks, map_append, count_append, htasks] at hnew hold ⊢
    omega

/-- The threads may change places while the machine stays at its time. -/
theorem Inv.moved (h : s.Inv tasks) {m : Machine} {phase : Phase} {finished : List (Thread × Int)} (hm : m.Ok)
    (hphase : phase.Fits m) (hcreated : m.created = s.machine.created) (hfuture : m.future = s.machine.future)
    (hcount : ∀ [DecidableEq Task] k,
      ((m.threads ++ phase.running ++ finished.map (·.1)).map Thread.key).count k = (s.threads.map Thread.key).count k)
    (hfinished : ∀ p ∈ finished, p.1.elapsedTime = p.1.task.totalRunTime ∧ p.1.Settled p.2) :
    Inv tasks { machine := m, phase := phase, finished := finished } := by
  classical
  have hsame := perm_iff_count.mpr fun k => hcount k
  have hnumber : ∀ l : List Thread, l.map (·.number) = (l.map Thread.key).map (·.1) := fun l => by rw [map_map]; rfl
  have htask : ∀ l : List Thread, l.map (·.task) = (l.map Thread.key).map (·.2) := fun l => by rw [map_map]; rfl
  refine ⟨hm, hphase, ?_, ?_, hfinished⟩
  · rw [hcreated, hnumber]
    exact (hsame.map _).trans (hnumber _ ▸ h.numbers)
  · rw [hfuture, htask]
    exact ((hsame.map _).append_right _).trans (htask _ ▸ h.tasks)

theorem Inv.turn (h : s.Inv tasks) (hphase : s.phase = .top) : Next tasks s s.turn := by
  unfold Sim.turn
  cases hready : s.machine.ready with
  | nil =>
    rw [if_pos isEmpty_nil]
    rcases h.machine.nextStart with ⟨hfuture, hio, hnext⟩ | ⟨hsome, next, hnext, hlt, hdue⟩
    · simp only [hnext, andThen, true_or, if_true]
      refine ⟨h.moved h.machine ⟨hready, hio, hfuture⟩ rfl rfl (fun k => ?_) h.finished, le_refl _, ?_⟩
      · rw [threads, hphase]
        rfl
      · simp only [weight, hphase, Phase.weight]
        omega
    · have hpos := h.machine.time
      have hne : ¬(some next = none ∨ some next = some 0) := by
        rintro (hnone | hzero)
        · cases hnone
        · cases hzero
          omega
      simp only [hnext, andThen, if_neg hne, h.machine.idle hsome hnext hlt]
      refine ⟨h.entered (Int.le_of_lt hlt) ?_ rfl rfl, Int.le_of_lt hlt, ?_⟩
      · rw [hphase]
        trivial
      have hweight := (s.machine.later next).entered_weight
      have hmore := (s.machine.later next).entered_ready.2 hdue
      have hold : (s.machine.later next).weight = s.machine.weight := rfl
      simp only [weight]
      omega
  | cons t rest =>
    obtain ⟨wait, hdequeue, hok, hsettled, hm⟩ := h.machine.dequeue hready
    rw [if_neg (by simp), hdequeue]
    refine ⟨h.moved hm ⟨hok, hsettled⟩ rfl rfl (fun k => ?_) h.finished, le_refl _, ?_⟩
    · simp only [threads, hphase, Machine.threads, hready, Phase.running, Thread.key, map_append, map_cons, map_nil,
        count_append, count_cons, count_nil]
      omega
    · have hsame : Thread.weight { t with waitTime := wait } = t.weight := rfl
      simp only [weight, andThen, Machine.weight, hready, hphase, Phase.weight, hsame, map_cons, sum_cons]
      omega

variable {t : Thread} {q : Int} {status : Status} {ioTime : Option Int}

theorem Inv.runThread (h : s.Inv tasks) (hq : 0 ≤ q) (hphase : s.phase = .dequeued t) : Next tasks s (s.runThread q t) := by
  obtain ⟨hok, hsettled⟩ := h.fits hphase
  have hrun := hok.run hq
  unfold Sim.runThread
  generalize t.run q = r at hrun ⊢
  obtain ⟨t', runLen, status, ioTime⟩ := r
  obtain ⟨hran, hdone⟩ := hrun
  simp only at hran hdone
  have hle : s.machine.time ≤ s.machine.time + runLen := by have := hran.nonneg; omega
  simp only [h.machine.run hran.nonneg, andThen]
  refine ⟨h.entered hle ⟨hran.ok, hsettled.advance hran, hdone, hran.io⟩ ?_ ?_, hle, ?_⟩
  · rw [hphase]
    exact congrArg (fun n => [n]) hran.same.1
  · rw [hphase]
    exact congrArg (fun task => [task]) hran.same.2.1
  have hweight := (s.machine.later (s.machine.time + runLen)).entered_weight
  have hmore := (s.machine.later (s.machine.time + runLen)).entered_ready.1
  have hold : (s.machine.later (s.machine.time + runLen)).weight = s.machine.weight := rfl
  have hthread : (Phase.ran t' status ioTime).weight < t.weight := by
    have hprogress := hran.progress
    have hrem : t'.remaining = t.remaining - runLen := by
      simp only [Thread.remaining, hran.same.2.1, hran.elapsed]
      omega
    simp only [Phase.weight, Thread.weight]
    split
    · omega
    · have hnot : ¬t'.remaining ≤ 0 := fun hle => absurd (hdone.mpr hle) ‹_›
      omega
  have hweight' : s.weight = s.machine.weight + t.weight := by rw [weight, hphase]; rfl
  show (s.machine.later (s.machine.time + runLen)).entered.weight + (Phase.ran t' status ioTime).weight < _
  omega

section

variable (h : s.Inv tasks) (hphase : s.phase = .ran t status ioTime)
include h hphase

theorem Inv.enqueue
    (hnot : status ≠ .done) : Next tasks s { s with machine := s.machine.enqueue t s.machine.time, phase := .top } := by
  obtain ⟨hok, hsettled, -, -⟩ := h.fits hphase
  refine ⟨h.moved (h.machine.enqueue hok hsettled) trivial rfl rfl (fun k => ?_) h.finished, le_refl _, ?_⟩
  · simp only [threads, hphase, Machine.threads, Machine.enqueue, Phase.running, Thread.key, map_append, map_cons, map_nil,
      count_append, count_nil]
    omega
  · have hsame : Thread.weight { t with lastQueued := some s.machine.time } = t.weight := rfl
    simp only [weight, Machine.weight, Machine.enqueue, hphase, Phase.weight, if_neg hnot, hsame, map_append, sum_append,
      map_cons, map_nil, sum_cons, sum_nil]
    omega

theorem Inv.ioWait (hnot : status ≠ .done) {wait : Int} (hwait : 0 < wait) :
    Next tasks s { s with machine := s.machine.ioWait t wait, phase := .top } := by
  obtain ⟨hok, hsettled, -, -⟩ := h.fits hphase
  refine ⟨h.moved (h.machine.ioWait hok hsettled hwait) trivial rfl rfl (fun k => ?_) h.finished, le_refl _, ?_⟩
  · simp only [threads, hphase, Machine.threads, Machine.ioWait, Phase.running, Thread.key, map_append, map_cons, map_nil,
      count_append, count_nil]
    omega
  · have hsame : Thread.weight { t with wakeupTime := some (s.machine.time + wait), ioWaits := t.ioWaits + wait } =
      t.weight := rfl
    simp only [weight, Machine.weight, Machine.ioWait, hphase, Phase.weight, if_neg hnot, hsame, map_append, sum_append,
      map_cons, map_nil, sum_cons, sum_nil]
    omega

theorem Inv.dispatch : Next tasks s (s.dispatch t status ioTime) := by
  obtain ⟨hok, hsettled, hdone, hio⟩ := h.fits hphase
  unfold Sim.dispatch
  by_cases hs : status = .io
  · obtain ⟨wait, rfl, hwait⟩ := hio hs
    have hnot : status ≠ .done := by rw [hs]; exact nofun
    rw [if_pos hs]
    simp only [orTypeError, andThen]
    split
    · exact h.ioWait hphase hnot ‹_›
    · exact h.enqueue hphase hnot
  · rw [if_neg hs]
    by_cases hnot : status ≠ .done
    · rw [if_pos hnot]
      exact h.enqueue hphase hnot
    rw [if_neg hnot]
    have hrem := hdone.mp (not_not.mp hnot)
    refine ⟨h.moved h.machine trivial rfl rfl (fun k => ?_)
      (forall_mem_append.mpr ⟨h.finished, forall_mem_singleton.mpr ⟨?_, hsettled⟩⟩), le_refl _, ?_⟩
    · simp only [threads, hphase, Phase.running, map_append, map_cons, map_nil, count_append, count_nil]
      omega
    · have helapsed := hok.elapsed
      simp only [Thread.remaining] at hrem ⊢
      omega
    · simp only [weight, hphase, Phase.weight, if_pos (not_not.mp hnot)]
      omega

end

theorem Inv.step (h : s.Inv tasks) (hq : 0 ≤ q) {s' : Sim} (hstep : s.step q = some s') : Next tasks s s' := by
  unfold Sim.step at hstep
  cases hphase : s.phase with
  | top =>
    rw [hphase] at hstep
    exact Option.some.inj hstep ▸ h.turn hphase
  | dequeued t =>
    rw [hphase] at hstep
    exact Option.some.inj hstep ▸ h.runThread hq hphase
  | ran t status ioTime =>
    rw [hphase] at hstep
    exact Option.some.inj hstep ▸ h.dispatch hphase
  | stopped | raised e =>
    rw [hphase] at hstep
    cases hstep

/-- Where there is no next step the loop is over: no exception is raised. -/
theorem Inv.stopped (h : s.Inv tasks) (hend : s.step q = none) : s.phase = .stopped := by
  unfold Sim.step at hend
  cases hphase : s.phase with
  | top | dequeued t | ran t status ioTime =>
    rw [hphase] at hend
    cases hend
  | stopped => rfl
  | raised e => exact (h.fits hphase).elim

/-- The machine before the tasks that arrive at time 0 have entered the queue. -/
def first (tasks : List Task) : Machine :=
  { time := 0, created := 0, future := tasks.insertionSort (fun a b => a.arrivalTime ≤ b.arrivalTime), ready := [], io := [] }

theorem first_accounted (tasks : List Task) : (first tasks).Accounted := ⟨le_refl _, nofun, nofun⟩

theorem start_eq (tasks : List Task) : start tasks = { machine := (first tasks).entered, phase := .top, finished := [] } := by
  have harrivals := (first_accounted tasks).arrivals
  unfold first at harrivals
  simp [start, harrivals, andThen, first]

/-- The loop begins with the tasks that arrive at time 0 in the queue. -/
theorem start_inv (tasks : List Task) : (start tasks).Inv tasks := by
  rw [start_eq]
  refine ⟨(first_accounted tasks).entered, trivial, ?_, ?_, nofun⟩
  · simp only [threads, Phase.running, map_nil, append_nil, range_eq_range']
    exact (first tasks).entered_numbers
  · simp only [threads, Phase.running, map_nil, append_nil]
    exact (first tasks).entered_tasks.trans (perm_insertionSort _ tasks)

theorem reachable_inv (hq : 0 ≤ q) (hr : (scheduler tasks q).Reachable s) : s.Inv tasks :=
  hr.invariant (fun _ h => h ▸ start_inv tasks) (fun _ _ _ h hstep => (h.step hq hstep).inv)

end Sim

/-- The scheduler ends whatever the tasks and the quantum, and loses neither a task nor time. In every state of a run time
does not go back with the next step, every thread is in one place (the queue, waiting for I/O, running or finished), and the
tasks of the threads and those to come are the tasks given. The run ends with the loop over and the tasks of the finished
threads those given, each thread has run for the total run time of its task, and the time from its arrival to its end is what
it has run, what it has waited for I/O and what it has waited in the queue. -/
theorem scheduler_conserves_time (tasks : List Task) (q : Int) (hq : 0 ≤ q) :
    (∀ s, (scheduler tasks q).Reachable s →
      (∀ s', (scheduler tasks q).step s () = some s' → s.machine.time ≤ s'.machine.time) ∧
      ((s.machine.ready ++ s.machine.io ++ s.phase.running ++
      s.finished.map (·.1)).map (·.number)).Perm (List.range s.machine.created) ∧
      ((s.machine.ready ++ s.machine.io ++ s.phase.running ++ s.finished.map (·.1)).map (·.task) ++
    s.machine.future).Perm tasks) ∧
    ∃ as s, (scheduler tasks q).run (Sim.start tasks) as = some s ∧ s.phase = .stopped ∧ (s.finished.map (·.1.task)).Perm tasks ∧
      ∀ p ∈ s.finished, p.1.elapsedTime = p.1.task.totalRunTime ∧
        p.2 - p.1.task.arrivalTime = p.1.elapsedTime + p.1.ioWaits + p.1.waitTime := by
  constructor
  · intro s hr
    have hinv := Sim.reachable_inv hq hr
    exact ⟨fun s' hstep => (hinv.step hq hstep).time, hinv.numbers, hinv.tasks⟩
  obtain ⟨n, s, hrun, hinv, hend⟩ := Transition.System.exists_run_of_measure (M := scheduler tasks q) Sim.weight ()
    (fun s h => (Option.eq_none_or_eq_some _).imp_right
      (Exists.imp fun s' hstep => ⟨hstep, (h.step hq hstep).inv, (h.step hq hstep).weight⟩)) (Sim.start_inv tasks)
  have hstopped := hinv.stopped hend
  have hall := hinv.tasks
  obtain ⟨hready, hio, hfuture⟩ := hinv.fits hstopped
  refine ⟨_, s, hrun, hstopped, ?_, hinv.finished⟩
  simpa only [Sim.threads, Machine.threads, hready, hio, hstopped, hfuture, Phase.running, List.nil_append,
    List.append_nil, List.map_map, Function.comp_def] using hall

/-- The round robin of the notebook's test ends, with the account of every thread settled. -/
theorem workload1_conserves_time : ∃ as s, (scheduler workload1 2).run (Sim.start workload1) as = some s ∧ s.phase = .stopped ∧
    (s.finished.map (·.1.task)).Perm workload1 ∧ ∀ p ∈ s.finished, p.1.elapsedTime = p.1.task.totalRunTime ∧
      p.2 - p.1.task.arrivalTime = p.1.elapsedTime + p.1.ioWaits + p.1.waitTime :=
  (scheduler_conserves_time workload1 2 (by decide)).2

-- The round robin of the notebook's test: when the threads end, and that the machine stops at 16.
example : ((scheduler workload1 2).run (Sim.start workload1) (List.replicate 34 ())).map
    (fun s => (s.machine.time, s.finished.map fun p => (p.1.number, p.2))) = some (16, [(0, 7), (2, 11), (3, 15), (1, 16)]) := by
  decide

end Pintos.Schedlab
