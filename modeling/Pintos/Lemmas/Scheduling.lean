import Pintos.Schedlab.Scheduling

/-!
# Threads and the machine of the simulator

What a thread is after it ran, and what enters the queue when time has moved on. A thread carries an account: the time at
which it was last queued, or will wake up, is its arrival plus what it has run, waited for I/O and waited in the queue. The
weight of a machine counts the steps that its threads can still take, so that what enters the queue makes it smaller.
-/

namespace Pintos.Schedlab

open List

/-! ## One thread -/

namespace Thread

open Status

variable {t : Thread}

/-- The thread has not run too long, and what is left of a burst is not negative. -/
structure Ok (t : Thread) : Prop where
  elapsed : 0 ≤ t.elapsedTime ∧ t.elapsedTime ≤ t.task.totalRunTime
  burst : ∀ b, t.remainingBurst = some b → 0 ≤ b

/-- Up to `time`, the thread has run, waited for I/O or waited in the queue ever since it arrived. -/
def Settled (t : Thread) (time : Int) : Prop := time - t.task.arrivalTime = t.elapsedTime + t.ioWaits + t.waitTime

/-- What a thread is after it ran for `runLen`. -/
structure Advanced (t t' : Thread) (runLen : Int) (status : Status) (ioTime : Option Int) : Prop where
  ok : t'.Ok
  elapsed : t'.elapsedTime = t.elapsedTime + runLen
  nonneg : 0 ≤ runLen
  progress : 0 < t.remaining → 0 < runLen
  same : t'.number = t.number ∧ t'.task = t.task ∧ t'.ioWaits = t.ioWaits ∧ t'.waitTime = t.waitTime
  io : status = .io → ∃ wait, ioTime = some wait ∧ 0 ≤ wait

/-- What a burst returns: the thread after it, which is not said to be done. -/
def BurstEnd (t : Thread) (r : Thread × Int × Status × Option Int) : Prop := Advanced t r.1 r.2.1 r.2.2.1 r.2.2.2 ∧
    r.2.2.1 ≠ .done

/-- A burst of which something is left. -/
theorem Ok.continueBurst (h : t.Ok) {burst q : Int} (hb : 0 < burst) : BurstEnd t (t.continueBurst burst q) := by
  obtain ⟨helapsed, -⟩ := h
  have hrem : t.remaining = t.task.totalRunTime - t.elapsedTime := rfl
  unfold Thread.continueBurst
  generalize hlen : (if q > 0 then min (min q burst) t.remaining else min burst t.remaining) = runLen
  have hbounds : 0 ≤ runLen ∧ runLen ≤ t.remaining ∧ runLen ≤ burst ∧ (0 < t.remaining → 0 < runLen) := by
    rw [← hlen]
    split <;> omega
  have hok : ({ t with remainingBurst := some (burst - runLen), elapsedTime := t.elapsedTime + runLen } : Thread).Ok := by
    refine ⟨by simp only; omega, ?_⟩
    rintro b ⟨⟩
    omega
  simp only
  split
  · exact ⟨⟨hok, rfl, hbounds.1, hbounds.2.2.2, ⟨rfl, rfl, rfl, rfl⟩, nofun⟩, nofun⟩
  · exact ⟨⟨{ hok with }, rfl, hbounds.1, hbounds.2.2.2, ⟨rfl, rfl, rfl, rfl⟩,
      fun _ => ⟨_, rfl, t.task.ioBurst.nonneg _ _⟩⟩, nofun⟩

/-- A new burst, which may be of length 0 and then goes on to the end of the quantum or of the thread. -/
theorem Ok.startBurst (h : t.Ok) {q : Int} (hq : 0 ≤ q) : BurstEnd t (t.startBurst q) := by
  obtain ⟨helapsed, hburst⟩ := h
  have hrem : t.remaining = t.task.totalRunTime - t.elapsedTime := rfl
  have hnonneg := t.task.cpuBurst.nonneg t.cpuCalls t.elapsedTime
  unfold Thread.startBurst
  generalize t.task.cpuBurst.length t.cpuCalls t.elapsedTime = burst at hnonneg ⊢
  simp only
  generalize hlen : (if burst = 0 ∧ q = 0 then t.remaining else if burst = 0 then min q t.remaining
    else if q = 0 then min burst t.remaining else min (min q burst) t.remaining) = runLen
  have hbounds : 0 ≤ runLen ∧ runLen ≤ t.remaining ∧ (burst = 0 ∨ runLen ≤ burst) ∧ (0 < t.remaining → 0 < runLen) := by
    rw [← hlen]
    split
    · omega
    · split
      · omega
      · split <;> omega
  have hok : ({ t with cpuCalls := t.cpuCalls + 1, elapsedTime := t.elapsedTime + runLen } : Thread).Ok :=
    ⟨by simp only; omega, hburst⟩
  split
  · exact ⟨⟨hok, rfl, hbounds.1, hbounds.2.2.2, ⟨rfl, rfl, rfl, rfl⟩, nofun⟩, nofun⟩
  split
  · refine ⟨⟨⟨hok.elapsed, ?_⟩, rfl, hbounds.1, hbounds.2.2.2, ⟨rfl, rfl, rfl, rfl⟩, nofun⟩, nofun⟩
    rintro b ⟨⟩
    omega
  · exact ⟨⟨{ hok with }, rfl, hbounds.1, hbounds.2.2.2, ⟨rfl, rfl, rfl, rfl⟩,
      fun _ => ⟨_, rfl, t.task.ioBurst.nonneg _ _⟩⟩, nofun⟩

theorem Ok.run (h : t.Ok) {q : Int} (hq : 0 ≤ q) :
    Advanced t (t.run q).1 (t.run q).2.1 (t.run q).2.2.1 (t.run q).2.2.2 ∧
      ((t.run q).2.2.1 = .done ↔ (t.run q).1.remaining ≤ 0) := by
  have hpart : ∀ {r}, BurstEnd t r → Advanced t r.1 r.2.1 (if r.1.remaining ≤ 0 then .done else r.2.2.1) r.2.2.2 ∧
        ((if r.1.remaining ≤ 0 then done else r.2.2.1) = .done ↔ r.1.remaining ≤ 0) := by
    rintro r ⟨hr, hnot⟩
    split
    · exact ⟨{ hr with io := nofun }, fun _ => ‹_›, fun _ => rfl⟩
    · exact ⟨hr, fun hs => absurd hs hnot, fun hle => absurd hle ‹_›⟩
  unfold Thread.run
  cases hleft : t.burstLeft with
  | some burst =>
    obtain ⟨hsome, hne⟩ := Option.filter_eq_some_iff.mp hleft
    have hpos : 0 < burst := by
      have := h.burst burst hsome
      have hne : burst ≠ 0 := of_decide_eq_true hne
      omega
    exact hpart (h.continueBurst hpos)
  | none => exact hpart (h.startBurst hq)

/-- A thread that runs stays settled, with the time that has passed. -/
theorem Settled.advance {t' : Thread} {time runLen : Int} {status : Status} {ioTime : Option Int} (h : t.Settled time)
    (ha : Advanced t t' runLen status ioTime) : t'.Settled (time + runLen) := by
  obtain ⟨-, htask, hio, hwait⟩ := ha.same
  unfold Settled at *
  rw [htask, hio, hwait, ha.elapsed]
  omega

/-- The steps that a thread in the queue can still take, with the step that takes it from there. -/
def weight (t : Thread) : Nat := 5 * t.remaining.toNat + 4

end Thread

/-- What the list `l` of tasks becomes in the queue, with numbers from `n` on. -/
def arrived : Nat → List Task → List Thread
  | _, [] => []
  | n, task :: l => { Thread.new n task with lastQueued := some task.arrivalTime } :: arrived (n + 1) l

variable (n : Nat) (l : List Task)

/-- The numbers are those from `n` on. -/
theorem arrived_numbers : (arrived n l).map (·.number) = range' n l.length := by
  induction l generalizing n with
  | nil => rfl
  | cons task l ih => simp only [arrived, map_cons, ih, length_cons, range'_succ, Thread.new]

theorem arrived_length : (arrived n l).length = l.length := by
  have hlen := congrArg length (arrived_numbers n l)
  rwa [length_map, length_range'] at hlen

/-- Each task has its thread. -/
theorem arrived_tasks : (arrived n l).map (·.task) = l := by
  induction l generalizing n with
  | nil => rfl
  | cons task l ih => simp [arrived, ih, Thread.new]

/-- A task that is yet to come has a step more to take than its thread in the queue. -/
theorem arrived_weight :
    ((arrived n l).map Thread.weight).sum + l.length = (l.map (fun task => 5 * task.totalRunTime.toNat + 5)).sum := by
  induction l generalizing n with
  | nil => rfl
  | cons task l ih =>
    have hfirst : Thread.weight { Thread.new n task with lastQueued := some task.arrivalTime } =
        5 * task.totalRunTime.toNat + 4 := by
      simp [Thread.weight, Thread.remaining, Thread.new]
    have hrest := ih (n + 1)
    simp only [arrived, map_cons, sum_cons, length_cons, hfirst]
    omega

/-- A thread enters the queue with nothing behind it. -/
theorem arrived_ready {n : Nat} {l : List Task} {t : Thread} (h : t ∈ arrived n l) :
    t.Ok ∧ t.lastQueued = some t.task.arrivalTime ∧ t.Settled t.task.arrivalTime ∧ t.task ∈ l := by
  induction l generalizing n with
  | nil => cases h
  | cons task l ih =>
    rcases mem_cons.mp h with rfl | h
    · refine ⟨⟨⟨le_refl _, task.total_nonneg⟩, nofun⟩, rfl, ?_, mem_cons_self⟩
      simp only [Thread.Settled, Thread.new]
      omega
    · obtain ⟨hok, hlast, hsettled, hmem⟩ := ih h
      exact ⟨hok, hlast, hsettled, mem_cons_of_mem _ hmem⟩

/-! ## The machine -/

namespace Machine

variable {m : Machine}

/-- The first loop of `_arrivals`. -/
theorem foldl_arrive (l : List Task) (m : Machine) :
    l.foldl arrive m = { m with created := m.created + l.length, ready := m.ready ++ arrived m.created l } := by
  induction l generalizing m with
  | nil => simp only [foldl_nil, length_nil, Nat.add_zero, arrived, append_nil]
  | cons task l ih =>
    simp only [foldl_cons, ih, arrive, enqueue, length_cons, arrived, append_assoc, singleton_append]
    congr 1
    omega

/-- The thread wakes up by `time`. -/
def due (time : Int) (t : Thread) : Bool := t.wakeupTime.any (fun wakeup => decide (wakeup ≤ time))

variable (l : List Thread)

/-- The second loop of `_arrivals`. -/
theorem foldlM_wake (m : Machine) (h : ∀ t ∈ l, ∃ wakeup, t.wakeupTime = some wakeup) :
    l.foldlM wake m = .ok { m with
      ready := m.ready ++ (l.filter (due m.time)).map (fun t => { t with lastQueued := t.wakeupTime }),
      io := m.io ++ l.filter (fun t => !due m.time t) } := by
  induction l generalizing m with
  | nil => simp only [foldlM_nil, filter_nil, map_nil, append_nil]; rfl
  | cons t l ih =>
    obtain ⟨wakeup, hwakeup⟩ := h t mem_cons_self
    have hrest := fun m => ih m (fun t ht => h t (mem_cons_of_mem _ ht))
    by_cases hdue : wakeup ≤ m.time
    · have hwake : wake m t = .ok (m.enqueue t wakeup) := by simp only [wake, hwakeup, orTypeError]; exact if_pos hdue
      have hd : due m.time t = true := by simp only [due, hwakeup, Option.any_some, hdue, decide_true]
      rw [foldlM_cons, hwake]
      refine (hrest _).trans ?_
      simp [enqueue, hd, hwakeup]
    · have hwake : wake m t = .ok { m with io := m.io ++ [t] } := by simp only [wake, hwakeup, orTypeError]; exact if_neg hdue
      have hd : due m.time t = false := by simp only [due, hwakeup, Option.any_some, hdue, decide_false]
      rw [foldlM_cons, hwake]
      refine (hrest _).trans ?_
      simp [hd]

/-- Every thread is settled: one in the queue with the time at which it was queued, one that sleeps with the time at which it
wakes up. -/
structure Accounted (m : Machine) : Prop where
  time : 0 ≤ m.time
  ready : ∀ t ∈ m.ready, t.Ok ∧ ∃ queued, t.lastQueued = some queued ∧ queued ≤ m.time ∧ t.Settled queued
  io : ∀ t ∈ m.io, t.Ok ∧ ∃ wakeup, t.wakeupTime = some wakeup ∧ t.Settled wakeup

/-- Nothing is due either. -/
structure Ok (m : Machine) : Prop extends m.Accounted where
  future : ∀ task ∈ m.future, m.time < task.arrivalTime
  asleep : ∀ t ∈ m.io, ∃ wakeup, t.wakeupTime = some wakeup ∧ m.time < wakeup

/-- The threads that wait, in the queue or for I/O. -/
def threads (m : Machine) : List Thread := m.ready ++ m.io

/-- The tasks of the threads that wait, and those to come. -/
def tasks (m : Machine) : List Task := m.threads.map (·.task) ++ m.future

/-- The steps that the threads can still take. -/
def weight (m : Machine) : Nat :=
  (m.ready.map Thread.weight).sum + (m.io.map (fun t => t.weight + 1)).sum +
    (m.future.map (fun task => 5 * task.totalRunTime.toNat + 5)).sum

/-- What the machine is after `_arrivals`: the tasks that have arrived and the threads that are due are in the queue. -/
def entered (m : Machine) : Machine :=
  { m with
    created := m.created + (m.future.filter (fun task => decide (task.arrivalTime ≤ m.time))).length
    future := m.future.filter (fun task => decide (¬task.arrivalTime ≤ m.time))
    ready := m.ready ++ arrived m.created (m.future.filter (fun task => decide (task.arrivalTime ≤ m.time))) ++
      (m.io.filter (due m.time)).map (fun t => { t with lastQueued := t.wakeupTime })
    io := m.io.filter (fun t => !due m.time t) }

theorem Accounted.arrivals (h : m.Accounted) : m.arrivals = .ok m.entered := by
  unfold Machine.arrivals enterTasks
  rw [foldl_arrive]
  refine (foldlM_wake m.io _ ?_).trans ?_
  · intro t ht
    obtain ⟨-, wakeup, hwakeup, -⟩ := h.io t ht
    exact ⟨wakeup, hwakeup⟩
  · simp [entered]

/-- What is in the queue afterwards is settled with a time that has passed, and nothing is due any more. -/
theorem Accounted.entered (h : m.Accounted) : m.entered.Ok := by
  refine ⟨⟨h.time, ?_, ?_⟩, ?_, ?_⟩
  · intro t ht
    simp only [Machine.entered, mem_append, mem_map, mem_filter] at ht
    rcases ht with (ht | ht) | ⟨t, ⟨ht, hdue⟩, rfl⟩
    · exact h.ready t ht
    · obtain ⟨hok, hlast, hsettled, hmem⟩ := arrived_ready ht
      exact ⟨hok, _, hlast, of_decide_eq_true (mem_filter.mp hmem).2, hsettled⟩
    · obtain ⟨hok, wakeup, hwakeup, hsettled⟩ := h.io t ht
      rw [due, hwakeup] at hdue
      exact ⟨{ hok with }, wakeup, hwakeup, of_decide_eq_true hdue, hsettled⟩
  · intro t ht
    exact h.io t (mem_filter.mp ht).1
  · intro task htask
    have hlate := of_decide_eq_true (mem_filter.mp htask).2
    exact Int.not_le.mp hlate
  · intro t ht
    obtain ⟨hmem, hdue⟩ := mem_filter.mp ht
    obtain ⟨-, wakeup, hwakeup, -⟩ := h.io t hmem
    refine ⟨wakeup, hwakeup, ?_⟩
    rw [due, hwakeup] at hdue
    show m.time < wakeup
    simpa using hdue

/-- Sorting out the threads that are due loses none. -/
theorem due_perm (m : Machine) : (m.io.filter (due m.time) ++ m.io.filter (fun t => !due m.time t)).Perm m.io :=
  filter_append_perm _ _

/-- Sorting out the tasks that have arrived loses none. -/
theorem future_perm (m : Machine) : (m.future.filter (fun task => decide (task.arrivalTime ≤ m.time)) ++
    m.future.filter (fun task => decide (¬task.arrivalTime ≤ m.time))).Perm m.future := by
  simp only [decide_not]
  exact filter_append_perm _ _

/-- The numbers that are given to new threads are those not given yet. -/
theorem entered_numbers (m : Machine) : (m.entered.threads.map (·.number)).Perm
    (m.threads.map (·.number) ++ range' m.created (m.entered.created - m.created)) := by
  have hio := ((due_perm m).map (·.number)).count_eq
  simp only [map_append, count_append] at hio
  refine perm_iff_count.mpr fun n => ?_
  have hn := hio n
  have hnew : m.entered.created - m.created = (m.future.filter (fun task => decide (task.arrivalTime ≤ m.time))).length := by
    simp only [entered]
    omega
  rw [hnew]
  simp only [threads, entered, map_append, map_map, arrived_numbers, count_append, Function.comp_def]
  omega

/-- Each task keeps its thread. -/
theorem entered_tasks (m : Machine) : m.entered.tasks.Perm m.tasks := by
  classical
  have hio := ((due_perm m).map (·.task)).count_eq
  have hfuture := (future_perm m).count_eq
  simp only [map_append, count_append] at hio hfuture
  refine perm_iff_count.mpr fun task => ?_
  have htask := hio task
  have htask' := hfuture task
  simp only [tasks, threads, entered, map_append, map_map, arrived_tasks, count_append, Function.comp_def]
  omega

/-- Each thread that enters the queue makes the weight smaller by one. -/
theorem entered_weight (m : Machine) : m.entered.weight + m.entered.ready.length = m.weight + m.ready.length := by
  have hio := ((due_perm m).map (·.weight + 1)).sum_nat
  have hfuture := ((future_perm m).map (fun task => 5 * task.totalRunTime.toNat + 5)).sum_nat
  have hnew := arrived_weight m.created (m.future.filter (fun task => decide (task.arrivalTime ≤ m.time)))
  have hwoken : ∀ l : List Thread, (l.map (·.weight + 1)).sum =
      ((l.map (fun t => { t with lastQueued := t.wakeupTime })).map Thread.weight).sum + l.length := by
    intro l
    induction l with
    | nil => rfl
    | cons t l ih =>
      have ht : Thread.weight { t with lastQueued := t.wakeupTime } = t.weight := rfl
      simp only [map_cons, sum_cons, length_cons, ih, ht]
      omega
  simp only [map_append, sum_append, hwoken (m.io.filter (due m.time))] at hio hfuture
  simp only [weight, entered, map_append, sum_append, length_append, length_map, arrived_length]
  omega

/-- Something enters the queue if something is due. -/
theorem entered_ready (m : Machine) : m.ready.length ≤ m.entered.ready.length ∧
    ((∃ task ∈ m.future, task.arrivalTime ≤ m.time) ∨ (∃ t ∈ m.io, due m.time t = true) →
      m.ready.length < m.entered.ready.length) := by
  simp only [entered, length_append, length_map, arrived_length]
  refine ⟨by omega, ?_⟩
  rintro (⟨task, htask, hle⟩ | ⟨t, ht, hdue⟩)
  · have hmem : task ∈ m.future.filter (fun task => decide (task.arrivalTime ≤ m.time)) :=
      mem_filter.mpr ⟨htask, decide_eq_true hle⟩
    have hpos := length_pos_of_mem hmem
    omega
  · have hpos := length_pos_of_mem (mem_filter.mpr ⟨ht, hdue⟩)
    omega

/-- The machine, moved on to a time. -/
def later (m : Machine) (time : Int) : Machine := { m with time := time }

/-- Time may move on while the threads stay where they are. -/
theorem Accounted.later (h : m.Accounted) {time : Int} (hle : m.time ≤ time) : (m.later time).Accounted := by
  refine ⟨Int.le_trans h.time hle, ?_, h.io⟩
  intro t ht
  obtain ⟨hok, queued, hlast, hqueued, hsettled⟩ := h.ready t ht
  exact ⟨hok, queued, hlast, Int.le_trans hqueued hle, hsettled⟩

/-- The times at which the threads wake up. -/
theorem mapM_wakeupTime (h : ∀ t ∈ l, ∃ wakeup, t.wakeupTime = some wakeup) :
    l.mapM (fun t => orTypeError t.wakeupTime) = .ok (l.map (·.wakeupTime.getD 0)) := by
  induction l with
  | nil => rfl
  | cons t l ih =>
    obtain ⟨wakeup, hwakeup⟩ := h t mem_cons_self
    rw [mapM_cons, ih (fun t ht => h t (mem_cons_of_mem _ ht)), hwakeup, map_cons, hwakeup]
    rfl

section

variable (h : m.Ok)
include h

/-- The time at which the next thread wakes up, if any waits for I/O. -/
theorem Ok.nextWakeup {wakeup : Int} (hmin : (m.io.map (·.wakeupTime.getD 0)).min? = some wakeup) :
    m.time < wakeup ∧ ∃ t ∈ m.io, due wakeup t = true := by
  obtain ⟨t, ht, rfl⟩ := mem_map.mp (min?_mem hmin)
  obtain ⟨wakeup, hwakeup, hlt⟩ := h.asleep t ht
  have hget : t.wakeupTime.getD 0 = wakeup := by rw [hwakeup, Option.getD_some]
  rw [hget]
  exact ⟨hlt, t, ht, by simp only [due, hwakeup, Option.any_some, le_refl, decide_true]⟩

/-- `next_start` is `None` if there is nothing to come, and otherwise a later time, at which something is due. No arrival to
come is at time 0, so that its truth value does not matter. -/
theorem Ok.nextStart : (m.future = [] ∧ m.io = [] ∧ m.nextStart = .ok none) ∨
    (¬(m.future.isEmpty ∧ m.io.isEmpty) ∧ ∃ next, m.nextStart = .ok (some next) ∧ m.time < next ∧
      ((∃ task ∈ m.future, task.arrivalTime ≤ next) ∨ ∃ t ∈ m.io, due next t = true)) := by
  have hwakeups := mapM_wakeupTime m.io fun t ht => (h.asleep t ht).imp fun _ hw => hw.1
  have htime := h.time
  simp only [Machine.nextStart, hwakeups, bind, Except.bind]
  have hsome : ∀ {α : Type} {a : α} {l : List α}, a ∈ l → ¬l.isEmpty := fun hmem => by simp [ne_nil_of_mem hmem]
  cases hmin : (m.io.map (·.wakeupTime.getD 0)).min? with
  | none =>
    have hio : m.io = [] := map_eq_nil_iff.mp (min?_eq_none_iff.mp hmin)
    cases hfuture : m.future with
    | nil => exact .inl ⟨rfl, hio, rfl⟩
    | cons task rest =>
      have htask := h.future task (by rw [hfuture]; exact mem_cons_self)
      exact .inr ⟨fun hnil => hsome mem_cons_self hnil.1, _, rfl, htask, .inl ⟨task, mem_cons_self, le_refl _⟩⟩
  | some wakeup =>
    obtain ⟨hlt, t, ht, hdue⟩ := h.nextWakeup hmin
    refine .inr ⟨fun hnil => hsome ht hnil.2, ?_⟩
    cases hfuture : m.future with
    | nil => exact ⟨_, rfl, hlt, .inr ⟨t, ht, hdue⟩⟩
    | cons task rest =>
      have htask := h.future task (by rw [hfuture]; exact mem_cons_self)
      have hne : task.arrivalTime ≠ 0 := by omega
      simp only [head?_cons, Option.map_some, Option.filter_some, hne, ne_eq, not_false_iff, decide_true, if_true]
      rcases Int.le_total task.arrivalTime wakeup with hle | hle
      · rw [min_eq_left hle]
        exact ⟨_, rfl, htask, .inl ⟨task, mem_cons_self, le_refl _⟩⟩
      · rw [min_eq_right hle]
        exact ⟨_, rfl, hlt, .inr ⟨t, ht, hdue⟩⟩

/-- `idle`, where there is something to come: time moves on to it. -/
theorem Ok.idle (hsome : ¬(m.future.isEmpty ∧ m.io.isEmpty)) {next : Int} (hnext : m.nextStart = .ok (some next))
    (hlt : m.time < next) : m.idle = .ok (m.later next).entered := by
  have hpos : next > 0 := Int.lt_of_le_of_lt h.time hlt
  simp only [Machine.idle, if_neg hsome, hnext, bind, Except.bind, orTypeError, if_pos hpos]
  exact (h.toAccounted.later (Int.le_of_lt hlt)).arrivals

theorem Ok.run {runTime : Int} (hle : 0 ≤ runTime) : m.run runTime = .ok (m.later (m.time + runTime)).entered :=
  (h.toAccounted.later (by omega)).arrivals

/-- `dequeue`, with a thread in the queue: its wait goes into its account. -/
theorem Ok.dequeue {t : Thread} {rest : List Thread} (hready : m.ready = t :: rest) :
    ∃ wait, m.dequeue = .ok ({ t with waitTime := wait }, { m with ready := rest }) ∧ Thread.Ok { t with waitTime := wait } ∧
      Thread.Settled { t with waitTime := wait } m.time ∧ Ok { m with ready := rest } := by
  have hall := h.ready
  rw [hready] at hall
  obtain ⟨⟨hok, queued, hlast, -, hsettled⟩, hrest⟩ := forall_mem_cons.mp hall
  refine ⟨t.waitTime + (m.time - queued), ?_, { hok with }, ?_, ⟨⟨h.time, hrest, h.io⟩, h.future, h.asleep⟩⟩
  · unfold Machine.dequeue
    rw [hready]
    simp only [hlast, orTypeError]
    rfl
  · simp only [Thread.Settled] at hsettled ⊢
    omega

theorem Ok.enqueue {t : Thread} (hok : t.Ok) (hsettled : t.Settled m.time) : (m.enqueue t m.time).Ok := by
  refine ⟨⟨h.time, forall_mem_append.mpr ⟨h.ready, forall_mem_singleton.mpr ?_⟩, h.io⟩, h.future, h.asleep⟩
  exact ⟨{ hok with }, m.time, rfl, le_refl _, hsettled⟩

/-- `io_wait`: the wait goes into the account of the thread when it begins. -/
theorem Ok.ioWait {t : Thread} {wait : Int} (hok : t.Ok) (hsettled : t.Settled m.time) (hwait : 0 < wait) :
    (m.ioWait t wait).Ok := by
  refine ⟨{ h with io := forall_mem_append.mpr ⟨h.io, forall_mem_singleton.mpr ?_⟩ }, h.future,
    forall_mem_append.mpr ⟨h.asleep, forall_mem_singleton.mpr ⟨m.time + wait, rfl, ?_⟩⟩⟩
  · refine ⟨{ hok with }, m.time + wait, rfl, ?_⟩
    simp only [Thread.Settled] at hsettled ⊢
    omega
  · simp only [Machine.ioWait]
    omega

end

end Machine

end Pintos.Schedlab
