import Mathlib.Data.List.Nodup
import Pintos.Threads.Monitor

/-!
# What the steps on a lock and its condition variables keep

The invariant has two halves. `LockInv` ties the lock to the places of the threads: one thread at most, its owner, is between
acquiring and releasing. `CondInv` ties the lists of the condition variables and the waiters' semaphores to the log, and uses
the owner: only it changes a list.
-/

namespace Pintos

open MonitorState MonitorPc List Function Option

variable {pc before : MonitorPc} {threads : Thread → MonitorPc} {t w : Thread} {log : List MonitorEvent} {c : Cond} {all : Bool}
  {l : List Thread} {sema : Semaphore}

/-! ## The lock -/

namespace MonitorPc

/-- `holder` is the thread. -/
def holds : MonitorPc → Bool
  | .outside | .acquire _ | .asleepLock _ | .down _ | .asleep _ | .setHolder _ | .release _ => false
  | .inside | .push _ | .unlock _ | .signal _ _ | .wake _ _ _ | .leave _ | .broadcast _ => true

/-- Asleep on the lock's semaphore. -/
def atLock : MonitorPc → Bool
  | .asleepLock _ => true
  | _ => false

/-- What the lock's half of the invariant reads of a place. -/
def lockView (pc : MonitorPc) : Bool × Bool × Bool := (pc.critical, pc.holds, pc.atLock)

end MonitorPc

attribute [local simp] MonitorState.setPc MonitorState.setLockSema MonitorState.setHolder MonitorState.setWaiter
  MonitorState.record MonitorState.panic MonitorState.setCond MonitorPc.lockView

/-- The lock as it is for a thread at a place; `o` is the owner. -/
structure LockAt (l : Lock) (o : Option Thread) (t : Thread) (v : Bool × Bool × Bool) : Prop where
  critical : v.1 = true ↔ o = some t
  holder : l.holder = some t ↔ v.2.1 = true
  waits : t ∈ l.semaphore.waiters ↔ v.2.2 = true

/-- The lock and the places of the threads; `o` is the owner. -/
structure LockInv (s : MonitorState) (o : Option Thread) : Prop where
  thread : ∀ t, LockAt s.lock o t (s.threads t).lockView
  value : s.lock.semaphore.value = if o = none then 1 else 0
  nodup : s.lock.semaphore.waiters.Nodup

namespace MonitorPc

/-- A thread that is `holder` is between acquiring and releasing. -/
theorem critical_of_holds (h : pc.holds = true) : pc.critical = true := by
  cases pc <;> first | rfl | cases h

/-- A place that looks the same to the lock, put in for another. -/
theorem lockView_update (h : pc.lockView = (threads t).lockView) (u : Thread) :
    (update threads t pc u).lockView = (threads u).lockView := by
  rcases eq_or_ne u t with rfl | hne
  · rw [update_self, h]
  · rw [update_of_ne hne]

end MonitorPc

namespace LockInv

variable {s s' : MonitorState} {o : Option Thread}

theorem start (stack : Thread → Semaphore) : LockInv (start stack) none where
  thread t := ⟨by simp [MonitorState.start, critical], by simp [MonitorState.start, lockInit, holds],
    by simp [MonitorState.start, lockInit, atLock]⟩
  value := rfl
  nodup := nodup_nil

section

variable (hi : LockInv s o)
include hi

theorem critical_iff (t : Thread) : (s.threads t).critical = true ↔ o = some t := (hi.thread t).critical

theorem holder_iff (t : Thread) : s.lock.holder = some t ↔ (s.threads t).holds = true := (hi.thread t).holder

theorem mem_waiters (t : Thread) : t ∈ s.lock.semaphore.waiters ↔ (s.threads t).atLock = true := (hi.thread t).waits

/-- What leaves the lock alone, and moves the threads within what looks the same to the lock, keeps the lock's half. -/
theorem congr (hl : s'.lock = s.lock) (hv : ∀ u, (s'.threads u).lockView = (s.threads u).lockView) : LockInv s' o := by
  refine ⟨fun u => ?_, hl ▸ hi.value, hl ▸ hi.nodup⟩
  rw [hl, hv]
  exact hi.thread u

/-- A thread moves within what looks the same to the lock. -/
theorem move (hpc : s.threads t = before) (hl : s'.lock = s.lock) (ht : s'.threads = update s.threads t pc)
    (hv : pc.lockView = before.lockView) : LockInv s' o :=
  hi.congr hl fun u => by rw [ht, lockView_update (hpc ▸ hv)]

/-- The owner is the only thread that may be between acquiring and releasing. -/
theorem owner_eq (ht : (s.threads t).critical = true) : o = some t := (hi.critical_iff t).mp ht

/-- A thread at a place between acquiring and releasing is the owner. -/
theorem owner_at (ht : s.threads t = pc) (hpc : pc.critical = true) : (s.threads t).critical = true ∧ o = some t := by
  subst ht
  exact ⟨hpc, hi.owner_eq hpc⟩

/-- `holder` is the owner or null. -/
theorem held_iff : lockHeldByCurrentThread s.lock t = true ↔ (s.threads t).holds = true := by
  rw [lockHeldByCurrentThread, beq_iff_eq, hi.holder_iff]

/-- A thread takes the value of the lock's semaphore, and becomes the owner. -/
theorem take (h0 : s.lock.semaphore.value ≠ 0) (ht : (s.threads t).atLock = false) (inWait : Option Cond) :
    o = none ∧
    LockInv ((s.setLockSema { s.lock.semaphore with value := s.lock.semaphore.value - 1 }).setPc t (.setHolder inWait))
      (some t) := by
  have ho : o = none := by
    by_contra hne
    exact h0 (by rw [hi.value, if_neg hne])
  subst ho
  have hfree : ∀ u, (s.threads u).critical = false := fun u => by simpa using hi.critical_iff u
  have hnone : s.lock.holder = none := eq_none_iff_forall_ne_some.mpr fun u hu => by
    have := critical_of_holds ((hi.holder_iff u).mp hu)
    simp [hfree u] at this
  refine ⟨rfl, fun u => ?_, ?_, hi.nodup⟩
  · have hw := hi.mem_waiters u
    rcases eq_or_ne u t with rfl | hne
    · rw [ht] at hw
      exact ⟨by simp [critical], by simp [hnone, holds], by simpa [atLock] using hw⟩
    · exact ⟨by simp [hne, hfree, hne.symm], by simpa [hne] using hi.holder_iff u, by simpa [hne] using hw⟩
  · have hv := hi.value
    simp [hv]

/-- A thread queues at the lock. -/
theorem sleep {inWait : Option Cond} (ht : s.threads t = .acquire inWait) :
    LockInv ((s.setLockSema { s.lock.semaphore with waiters := s.lock.semaphore.waiters ++ [t] }).setPc t
      (.asleepLock inWait)) o where
  thread u := by
    have hc := hi.critical_iff u
    have hh := hi.holder_iff u
    rcases eq_or_ne u t with rfl | hne
    · exact ⟨by simpa [ht, critical] using hc, by simpa [ht, holds] using hh, by simp [atLock]⟩
    · exact ⟨by simpa [hne] using hc, by simpa [hne] using hh, by simpa [hne] using hi.mem_waiters u⟩
  value := hi.value
  nodup := by
    have hnot : t ∉ s.lock.semaphore.waiters := fun hm => by
      have := (hi.mem_waiters t).mp hm
      simp [ht, atLock] at this
    simpa [nodup_append] using ⟨hi.nodup, fun a ha he => hnot (he ▸ ha)⟩

/-- The owner sets `holder` to itself, or to null, as its new place says. -/
theorem hold (ht : (s.threads t).critical = true) (hc : pc.critical = true)
    (holder : Option Thread) (hh : holder = if pc.holds then some t else none) : LockInv ((s.setHolder holder).setPc t pc) o := by
  have ho := hi.owner_eq ht
  have hat : ∀ {pc : MonitorPc}, pc.critical = true → pc.atLock = false := fun {pc} h => by
    cases pc <;> first | rfl | cases h
  refine ⟨fun u => ?_, hi.value, hi.nodup⟩
  have hw := hi.mem_waiters u
  rcases eq_or_ne u t with rfl | hne
  · refine ⟨by simp [hc, ho], ?_, by simpa [hat hc, hat ht] using hw⟩
    simp only [MonitorState.setPc, MonitorState.setHolder, update_self, hh, lockView]
    split <;> simp_all
  · refine ⟨by simpa [hne] using hi.critical_iff u, ?_, by simpa [hne] using hw⟩
    -- nobody but the owner holds the lock
    have hno : (s.threads u).holds ≠ true := fun h => by
      have := (hi.critical_iff u).mp (critical_of_holds h)
      rw [ho] at this
      exact hne (some.inj this).symm
    simp only [MonitorState.setPc, MonitorState.setHolder, update_of_ne hne, hh, lockView, hno]
    split <;> simp [hne.symm]

/-- A thread that is on the lock's list is unblocked: it will run another pass of `sema_down`. -/
theorem unblock_eq {h : Thread} {rest : List Thread} (hw : s.lock.semaphore.waiters = h :: rest) :
    ∃ inWait, s.threads h = .asleepLock inWait ∧ ∀ sema, (s.setLockSema sema).unblock h =
      (s.setLockSema sema).setPc h (.acquire inWait) := by
  have hat := (hi.mem_waiters h).mp (by simp [hw])
  cases hpc : s.threads h with
  | asleepLock inWait => exact ⟨inWait, rfl, fun sema => by simp [unblock, hpc]⟩
  | _ => simp [hpc, atLock] at hat

/-- The owner gives the value back, and the first thread of the list, if there is one, will try again. -/
theorem free (ht : (s.threads t).critical = true) (hh : (s.threads t).holds = false) (hpc : pc.lockView = (false, false, false)) :
    LockInv (((s.setLockSema (semaUp s.lock.semaphore).1).unblock? (semaUp s.lock.semaphore).2).setPc t pc) none := by
  obtain ⟨hc, hho, hat⟩ : pc.critical = false ∧ pc.holds = false ∧ pc.atLock = false := by simpa [lockView] using hpc
  have ho := hi.owner_eq ht
  have hv : s.lock.semaphore.value + 1 = 1 := by rw [hi.value, ho]; rfl
  have hother : ∀ u, u ≠ t → (s.threads u).critical = false := fun u hne => by
    rw [← Bool.not_eq_true, hi.critical_iff u, ho]
    exact fun h => hne (some.inj h).symm
  have hnone : ∀ u, s.lock.holder ≠ some u := fun u h => by
    have hu := (hi.holder_iff u).mp h
    rcases eq_or_ne u t with rfl | hne
    · simp [hh] at hu
    · simpa [hother u hne] using critical_of_holds hu
  rcases semaUp_cases s.lock.semaphore with ⟨hnil, hu⟩ | ⟨h, rest, hcons, hu⟩
  · rw [hu]
    refine ⟨fun u => ?_, hv, by simp [unblock?, hnil]⟩
    rcases eq_or_ne u t with rfl | hne
    · exact ⟨by simp [hc], by simp [unblock?, hho, hnone], by simp [unblock?, hat, hnil]⟩
    · exact ⟨by simp [unblock?, hne, hother u hne], by simpa [unblock?, hne] using hi.holder_iff u,
        by simpa [unblock?, hne] using hi.mem_waiters u⟩
  · obtain ⟨inWait, hpch, heq⟩ := hi.unblock_eq hcons
    have hnd := hi.nodup
    rw [hcons, nodup_cons] at hnd
    rw [hu]
    simp only [unblock?, heq]
    refine ⟨fun u => ?_, hv, hnd.2⟩
    have hw := hi.mem_waiters u
    rw [hcons, mem_cons] at hw
    rcases eq_or_ne u h with rfl | hneh
    · have hne : u ≠ t := fun h => by simp [← h, hpch, critical] at ht
      exact ⟨by simp [hne, critical], by simp [hne, hnone, holds], by simp [hne, hnd.1, atLock]⟩
    rcases eq_or_ne u t with rfl | hne
    · have hnot : (s.threads u).atLock = false := by
        cases hpcu : s.threads u <;> first | rfl | simp [hpcu, critical] at ht
      exact ⟨by simp [hc], by simp [hho, hnone], by simpa [hat, hneh, hnot] using hw⟩
    · exact ⟨by simp [hne, hneh, hother u hne], by simpa [hne, hneh] using hi.holder_iff u, by simpa [hne, hneh] using hw⟩

end

end LockInv

/-! ## The condition variables -/

namespace MonitorPc

/-- The condition variable that a thread waits on, from its call of `cond_wait` to the end of the `sema_down` there. -/
def waits : MonitorPc → Option Cond
  | .push c | .unlock c | .release (some c) | .down c | .asleep c => some c
  | _ => none

/-- Asleep on the waiter's semaphore. -/
def sleeps : MonitorPc → Bool
  | .asleep _ => true
  | _ => false

/-- What the other half of the invariant reads of a place. -/
def condView (pc : MonitorPc) : Option Cond × Bool := (pc.waits, pc.sleeps)

/-- The waiters of a condition variable with list `l`, where its owner `t` is about to add itself or has just taken one
out. -/
def full (t : Thread) (c : Cond) (l : List Thread) : MonitorPc → List Thread
  | .push c' => if c' = c then l ++ [t] else l
  | .wake c' w _ => if c' = c then w :: l else l
  | _ => l

/-- The steps that a call of `cond_signal` or `cond_broadcast` may still make, with `n` threads in the list. -/
def rank (n : Nat) : MonitorPc → Nat
  | .signal _ _ => max 2 (3 * n)
  | .wake _ _ _ => 3 * n + 2
  | .broadcast _ => 3 * n + 1
  | .leave _ => 1
  | _ => 0

end MonitorPc

/-- The waiters of a condition variable, from its list and the place of the owner. -/
def queued (s : MonitorState) (o : Option Thread) (c : Cond) : List Thread :=
  match o with
  | none => s.conds c
  | some t => (s.threads t).full t c (s.conds c)

/-- A call of `cond_signal` or `cond_broadcast` by `u` has so far signalled `ws`: the log since its start has nothing but
that, and `ws` were the first waiters at its start. -/
def CallSoFar (u : Thread) (c : Cond) (all : Bool) (log : List MonitorEvent) (ws : List Thread) : Prop :=
  ∃ earlier, log = (ws.map (.signalled u · c)).reverse ++ .start u c all :: earlier ∧ waiting c earlier = ws ++ waiting c log

/-- What the log says of the call that a thread is in. -/
def Calling (t : Thread) (log : List MonitorEvent) : MonitorPc → Prop
  | .signal c all | .wake c _ all => ∃ ws, CallSoFar t c all log ws ∧ (all = false → ws = [])
  | .broadcast c => ∃ ws, CallSoFar t c true log ws
  | .leave c => ∃ ws, CallSoFar t c false log ws ∧ ws = (ws ++ waiting c log).take 1
  | _ => True

/-- In the log, only the first waiter is ever signalled, and a finished call has signalled whom it should. -/
def LogOk : List MonitorEvent → Prop
  | [] => True
  | .signalled _ w c :: log => (waiting c log).head? = some w ∧ LogOk log
  | .finish u c all :: log =>
    (∃ ws earlier, log = (ws.map (.signalled u · c)).reverse ++ .start u c all :: earlier ∧
      ws = if all then waiting c earlier else (waiting c earlier).take 1) ∧ LogOk log
  | .entered _ _ :: log | .returned _ _ :: log | .start _ _ _ :: log => LogOk log

/-- What the log and its waiter's semaphore are for a thread at a place. -/
structure CondAt (log : List MonitorEvent) (sema : Semaphore) (t : Thread) (v : Option Cond × Bool) : Prop where
  mem_iff : ∀ c, t ∈ waiting c log ↔ v.1 = some c ∧ sema.value = 0
  waiters : ∀ c, v.1 = some c → sema.waiters = if v.2 then [t] else []
  asleep : v.2 = true → sema.value = 0

/-- The condition variables, the waiters' semaphores, the places of the threads and the log; `o` is the owner of the lock. -/
structure CondInv (s : MonitorState) (o : Option Thread) : Prop where
  queue : ∀ c, waiting c s.log = queued s o c
  nodup : ∀ c, (waiting c s.log).Nodup
  thread : ∀ t, CondAt s.log (s.waiter t) t (s.threads t).condView
  calling : ∀ t, Calling t s.log (s.threads t)
  logOk : LogOk s.log

/-- A thread that is not between acquiring and releasing is in no call that the log would have to tell of. -/
theorem Calling.of_not_critical (h : pc.critical = false) : Calling t log pc := by
  cases pc <;> trivial

/-- One thread moves, and the log tells of its call as of those of the others. -/
theorem Calling.update (hc : Calling t log pc)
    (hother : ∀ u, u ≠ t → Calling u log (threads u)) (u : Thread) : Calling u log (update threads t pc u) := by
  rcases eq_or_ne u t with rfl | hne
  · rw [update_self]
    exact hc
  · rw [update_of_ne hne]
    exact hother u hne

/-- Signalling the first waiter removes it from those that wait, and no other. -/
theorem waiting_signalled (u w : Thread) (c : Cond) (log : List MonitorEvent) (l : List Thread)
    (hl : waiting c log = w :: l) (c' : Cond) :
    waiting c' (.signalled u w c :: log) = if c = c' then l else waiting c' log := by
  simp only [waiting]
  split
  · rename_i h
    rw [← h, hl, erase_cons_head]
  · rfl

/-- One more waiter has been signalled by the call. -/
theorem CallSoFar.signal {u : Thread} {ws : List Thread}
    (h : CallSoFar u c all log ws) (hl : waiting c log = w :: l) : CallSoFar u c all (.signalled u w c :: log) (ws ++ [w]) := by
  obtain ⟨earlier, hlog, hw⟩ := h
  refine ⟨earlier, ?_, ?_⟩
  · rw [hlog]
    simp
  · rw [waiting_signalled u w c log l hl, if_pos rfl, hw, hl]
    simp

/-- Where the owner goes on after it has woken a waiter. -/
theorem Calling.wake (h : Calling t log (.wake c w all)) (hl : waiting c log = w :: l) :
    Calling t (.signalled t w c :: log) (if all then .broadcast c else .leave c) := by
  obtain ⟨ws, hso, hws⟩ := h
  cases all with
  | true => exact ⟨_, CallSoFar.signal hso hl⟩
  | false =>
    refine ⟨_, CallSoFar.signal hso hl, ?_⟩
    rw [hws rfl]
    rfl

/-- A place that looks the same to the condition variables, put in for another. -/
theorem MonitorPc.condView_update (h : pc.condView = (threads t).condView)
    (u : Thread) : (update threads t pc u).condView = (threads u).condView := by
  rcases eq_or_ne u t with rfl | hne
  · rw [update_self, h]
  · rw [update_of_ne hne]

namespace CondInv

variable {s s' : MonitorState} {o o' : Option Thread}

theorem start (stack : Thread → Semaphore) : CondInv (start stack) none where
  queue c := rfl
  nodup c := nodup_nil
  thread t := ⟨fun c => by simp [MonitorState.start, waiting, waits, condView], nofun, nofun⟩
  calling t := trivial
  logOk := trivial

/-- What leaves the waiters alone, records nothing that tells of one, and moves the threads within what looks the same, keeps
this half. -/
theorem congr (hi : CondInv s o) (hlog : ∀ c, waiting c s'.log = waiting c s.log) (hok : LogOk s'.log)
    (hwaiter : s'.waiter = s.waiter)
    (hv : ∀ u, (s'.threads u).condView = (s.threads u).condView) (hq : ∀ c, queued s' o' c = queued s o c)
    (hc : ∀ u, Calling u s'.log (s'.threads u)) : CondInv s' o' := by
  refine ⟨fun c => ?_, fun c => ?_, fun u => ?_, hc, hok⟩
  · rw [hlog, hq, hi.queue]
  · rw [hlog]
    exact hi.nodup c
  · rw [hwaiter, hv]
    exact { hi.thread u with mem_iff := fun c => by rw [hlog]; exact (hi.thread u).mem_iff c }

theorem mem_iff (hi : CondInv s o) (c : Cond) (t : Thread) :
    t ∈ waiting c s.log ↔ (s.threads t).waits = some c ∧ (s.waiter t).value = 0 := (hi.thread t).mem_iff c

/-- A thread moves within what looks the same, and neither adds itself to a list nor takes a waiter out. -/
theorem move (hi : CondInv s o) (hpc : s.threads t = before) (hlog : s'.log = s.log) (hwaiter : s'.waiter = s.waiter)
    (hconds : s'.conds = s.conds) (ht : s'.threads = update s.threads t pc) (hv : pc.condView = before.condView)
    (hf : ∀ c l, pc.full t c l = before.full t c l) (hc : Calling t s.log pc) : CondInv s' o := by
  subst hpc
  refine hi.congr (fun c => by rw [hlog]) (hlog ▸ hi.logOk) hwaiter (fun u => ?_) (fun c => ?_) (fun u => ?_)
  · rw [ht, condView_update hv]
  · cases o with
    | none => simp only [queued, hconds]
    | some x =>
      simp only [queued, hconds, ht]
      rcases eq_or_ne x t with rfl | hne
      · rw [update_self, hf]
      · rw [update_of_ne hne]
  · rw [ht, hlog]
    exact hc.update (fun u _ => hi.calling u) u

theorem enter (hi : CondInv s (some t)) (ht : s.threads t = .inside)
    (hother : ∀ u, u ≠ t → (s.threads u).critical = false) (c : Cond) :
    CondInv (((s.setWaiter t (semaInit 0)).record (.entered t c)).setPc t (.push c)) (some t) := by
  have hnot : ∀ c, t ∉ waiting c s.log := fun c hm => by simpa [ht, waits] using (hi.mem_iff c t).mp hm
  have hq : ∀ c, waiting c s.log = s.conds c := fun c => by rw [hi.queue c, queued, ht]; rfl
  refine ⟨fun c' => ?_, fun c' => ?_, fun u => ?_, fun u => ?_, hi.logOk⟩
  · simp [setPc, record, setWaiter, waiting, queued, full, hq]
  · simp only [setPc, record, waiting]
    split
    · refine nodup_append.mpr ⟨hi.nodup c', nodup_singleton t, fun a ha b hb he => ?_⟩
      rw [he, mem_singleton.mp hb] at ha
      exact hnot c' ha
    · exact hi.nodup c'
  · rcases eq_or_ne u t with rfl | hne
    · refine ⟨fun c' => ?_, by simp [condView, sleeps], by simp [condView, sleeps]⟩
      by_cases hcc : c = c'
      · simp [waiting, hcc, waits, condView]
      · simp [waiting, hcc, waits, condView, hnot]
    · have hu := hi.thread u
      refine ⟨fun c' => ?_, by simpa [hne] using hu.waiters, by simpa [hne] using hu.asleep⟩
      have hm := hu.mem_iff c'
      by_cases hcc : c = c'
      · simpa [waiting, hcc, hne] using hm
      · simpa [waiting, hcc, hne] using hm
  · rcases eq_or_ne u t with rfl | hne
    · simp [Calling]
    · simp only [setPc, record, setWaiter, update_of_ne hne]
      exact .of_not_critical (hother u hne)

/-- An event that tells of no waiter is recorded by the owner, as it moves within what looks the same. -/
theorem note (hi : CondInv s (some t)) (hother : ∀ u, u ≠ t → (s.threads u).critical = false) {e : MonitorEvent}
    (hpc : s.threads t = before) (hlog : s'.log = e :: s.log) (hwaiter : s'.waiter = s.waiter) (hconds : s'.conds = s.conds)
    (ht : s'.threads = update s.threads t pc) (hv : pc.condView = before.condView)
    (hf : ∀ c l, pc.full t c l = before.full t c l) (hw : ∀ c, waiting c (e :: s.log) = waiting c s.log)
    (hc : Calling t (e :: s.log) pc) (hok : LogOk (e :: s.log)) : CondInv s' (some t) := by
  subst hpc
  refine hi.congr (fun c => by rw [hlog, hw]) (hlog ▸ hok) hwaiter (fun u => ?_) (fun c => ?_) (fun u => ?_)
  · rw [ht, condView_update hv]
  · rw [queued, queued, ht, hconds, update_self, hf]
  · rw [ht, hlog]
    exact hc.update (fun u hne => .of_not_critical (hother u hne)) u

/-- The owner changes a list, by adding itself or by taking a waiter out, as its place tells. -/
theorem list (hi : CondInv s (some t)) (hpc : s.threads t = before) (hv : pc.condView = before.condView)
    (hf : ∀ c', pc.full t c' (update s.conds c l c') = before.full t c' (s.conds c')) (hc : Calling t s.log pc) :
    CondInv ((s.setCond c l).setPc t pc) (some t) := by
  subst hpc
  refine hi.congr (fun _ => rfl) hi.logOk rfl (fun u => condView_update hv u) (fun c' => ?_)
    (fun u => hc.update (fun u _ => hi.calling u) u)
  simp [queued, setPc, setCond, hf]

section

variable (hi : CondInv s o) (ho : o ≠ some t)
include hi ho

/-- A thread that is not the owner moves, and its own waiter changes with it. -/
theorem ownWaiter (hcrit : pc.critical = false) (ht : CondAt s.log sema t pc.condView) :
    CondInv ((s.setWaiter t sema).setPc t pc) o := by
  refine ⟨fun c => ?_, hi.nodup, fun u => ?_, fun u => ?_, hi.logOk⟩
  · refine (hi.queue c).trans ?_
    cases o with
    | none => rfl
    | some x =>
      have hne : x ≠ t := fun h => ho (by rw [h])
      simp [queued, hne]
  · rcases eq_or_ne u t with rfl | hne
    · simpa using ht
    · simpa [hne] using hi.thread u
  · rcases eq_or_ne u t with rfl | hne
    · simpa using Calling.of_not_critical hcrit
    · simpa [hne] using hi.calling u

theorem sleep (ht : s.threads t = .down c) (h0 : (s.waiter t).value = 0) :
    CondInv ((s.setWaiter t { s.waiter t with waiters := (s.waiter t).waiters ++ [t] }).setPc t (.asleep c)) o := by
  have hat := hi.thread t
  rw [ht] at hat
  have hnil : (s.waiter t).waiters = [] := hat.waiters c rfl
  exact hi.ownWaiter ho rfl ⟨hat.mem_iff, fun _ _ => by simp [hnil, condView, sleeps], fun _ => h0⟩

/-- A waiter that has been signalled goes on to acquire the lock. -/
theorem pass (h0 : (s.waiter t).value ≠ 0) (sema : Semaphore) : CondInv ((s.setWaiter t sema).setPc t (.acquire (some c))) o := by
  refine hi.ownWaiter ho rfl ⟨fun c' => ?_, nofun, nofun⟩
  simpa [h0, waits, condView] using hi.mem_iff c' t

end

section

variable (hi : CondInv s (some t)) (hother : ∀ u, u ≠ t → (s.threads u).critical = false) (ht : s.threads t = .wake c w all)
include hi hother ht

/-- The waiter that the owner has taken out is asleep, or about to run its first pass; either way, the `sema_up` leaves it
about to run a pass that will go through. -/
theorem woken :
    w ≠ t ∧ (s.threads w = .asleep c ∨ s.threads w = .down c) ∧
    ((s.setWaiter w (semaUp (s.waiter w)).1).unblock? (semaUp (s.waiter w)).2) =
      (s.setWaiter w { value := 1, waiters := [] }).setPc w (.down c) := by
  have hm : w ∈ waiting c s.log := by rw [hi.queue c, queued, ht]; simp [full]
  obtain ⟨hw, h0⟩ := (hi.mem_iff c w).mp hm
  have hne : w ≠ t := fun h => by simp [h, ht, waits] at hw
  have hcrit := hother w hne
  have hsema : (s.waiter w).waiters = if (s.threads w).sleeps then [w] else [] := (hi.thread w).waiters c hw
  have hv : (s.waiter w).value + 1 = 1 := by rw [h0]; rfl
  have hplace : s.threads w = .asleep c ∨ s.threads w = .down c := by
    cases hpc : s.threads w with
    | asleep c' | down c' => simp_all [waits]
    | release inWait | push c' | unlock c' => simp [hpc, critical] at hcrit
    | _ => simp [hpc, waits] at hw
  refine ⟨hne, hplace, ?_⟩
  rcases hplace with hpc | hpc
  · rw [hpc] at hsema
    simp only [sleeps, if_true] at hsema
    simp [semaUp, hsema, hv, unblock?, unblock, hpc]
  · rw [hpc] at hsema
    simp only [sleeps, Bool.false_eq_true, if_false] at hsema
    have hself : update s.threads w (.down c) = s.threads := by rw [← hpc, update_eq_self]
    simp [semaUp, hsema, hv, unblock?, hself]

theorem wake (hlog : s'.log = .signalled t w c :: s.log)
    (hwaiter : s'.waiter = update s.waiter w { value := 1, waiters := [] }) (hconds : s'.conds = s.conds)
    (hthreads : s'.threads = update (update s.threads w (.down c)) t pc) (hpc : pc = if all then .broadcast c else .leave c) :
    CondInv s' (some t) := by
  obtain ⟨hne, -, -⟩ := hi.woken hother ht
  have hq : waiting c s.log = w :: s.conds c := by rw [hi.queue c, queued, ht]; simp [full]
  have hnd := hi.nodup c
  rw [hq, nodup_cons] at hnd
  have hwait : ∀ c', waiting c' s'.log = if c = c' then s.conds c else waiting c' s.log := fun c' => by
    rw [hlog, waiting_signalled t w c s.log _ hq]
  have hcalling : Calling t s'.log pc := by
    rw [hlog, hpc]
    have hcall := hi.calling t
    rw [ht] at hcall
    exact Calling.wake hcall hq
  obtain ⟨hw, hs, hf⟩ : pc.waits = none ∧ pc.sleeps = false ∧ ∀ c' l, pc.full t c' l = l := by
    rw [hpc]
    cases all <;> exact ⟨rfl, rfl, fun _ _ => rfl⟩
  -- the three kinds of threads: the owner, the waiter it wakes, and the others
  have hself : s'.threads t = pc := by rw [hthreads, update_self]
  have hwoken : s'.threads w = .down c := by rw [hthreads, update_of_ne hne, update_self]
  have hrest : ∀ u, u ≠ t → u ≠ w → s'.threads u = s.threads u := fun u h1 h2 => by
    rw [hthreads, update_of_ne h1, update_of_ne h2]
  have hsema : ∀ u, u ≠ w → s'.waiter u = s.waiter u := fun u h => by rw [hwaiter, update_of_ne h]
  refine ⟨fun c' => ?_, fun c' => ?_, fun u => ?_, fun u => ?_, ?_⟩
  · rw [hwait, queued, hself, hf, hconds]
    split
    · rename_i h
      rw [h]
    · rename_i h
      rw [hi.queue c', queued, ht]
      simp [full, h]
  · rw [hwait]
    split
    · exact hnd.2
    · exact hi.nodup c'
  · rcases eq_or_ne u t with rfl | hnet
    · have hnot : ∀ c', u ∉ waiting c' s.log := fun c' hm => by simpa [ht, waits] using (hi.mem_iff c' u).mp hm
      have hnot' : u ∉ s.conds c := fun h => hnot c (by rw [hq]; exact mem_cons_of_mem _ h)
      rw [hself, condView, hw, hs]
      refine ⟨fun c' => ?_, nofun, nofun⟩
      rw [hwait]
      split <;> simp [hnot, hnot']
    rcases eq_or_ne u w with rfl | hnew
    · rw [hwoken, hwaiter, update_self]
      refine ⟨fun c' => ?_, fun _ _ => rfl, nofun⟩
      rw [hwait]
      split
      · simp [hnd.1]
      rename_i hcc
      have hnot : u ∉ waiting c' s.log := fun hm => by
        have h1 := ((hi.mem_iff c' u).mp hm).1
        rw [((hi.mem_iff c u).mp (by simp [hq])).1] at h1
        exact hcc (some.inj h1)
      simp [hnot]
    · rw [hrest u hnet hnew, hsema u hnew]
      refine { hi.thread u with mem_iff := fun c' => ?_ }
      rw [hwait, ← (hi.thread u).mem_iff c']
      split
      · rename_i hcc
        rw [← hcc, hq, mem_cons]
        simp [hnew]
      · rfl
  · rcases eq_or_ne u t with rfl | hnet
    · rw [hself]
      exact hcalling
    refine .of_not_critical ?_
    rcases eq_or_ne u w with rfl | hnew
    · rw [hwoken]
      rfl
    · rw [hrest u hnet hnew]
      exact hother u hnet
  · rw [hlog]
    exact ⟨by rw [hq]; rfl, hi.logOk⟩

end

end CondInv

/-! ## The steps -/

/-- Both halves of the invariant. -/
def MonitorInv (s : MonitorState) : Prop := ∃ o, LockInv s o ∧ CondInv s o

namespace MonitorInv

variable {s s' : MonitorState} {o : Option Thread}

/-- Beside the owner nobody is between acquiring and releasing. -/
theorem others (hl : LockInv s o) (ht : (s.threads t).critical = true) (u : Thread) (hne : u ≠ t) :
    (s.threads u).critical = false := by
  rw [← Bool.not_eq_true, hl.critical_iff u, hl.owner_eq ht]
  exact fun h => hne (some.inj h).symm

/-- A failed assertion stops everything, and changes nothing else. -/
theorem panic (hl : LockInv s o) (hc : CondInv s o) : MonitorInv s.panic :=
  ⟨o, hl.congr rfl fun _ => rfl, hc.congr (fun _ => rfl) hc.logOk rfl (fun _ => rfl) (fun _ => by cases o <;> rfl) hc.calling⟩

variable {inWait : Option Cond} {u : Thread}

section

variable (hl : LockInv s o) (hc : CondInv s o)
include hl hc

theorem take (h0 : s.lock.semaphore.value ≠ 0) (hat : (s.threads t).atLock = false)
    (hv : (s.threads t).condView = (none, false)) :
    MonitorInv ((s.setLockSema { s.lock.semaphore with value := s.lock.semaphore.value - 1 }).setPc t (.setHolder inWait)) := by
  obtain ⟨rfl, hl'⟩ := hl.take h0 hat inWait
  refine ⟨some t, hl', hc.congr (fun _ => rfl) hc.logOk rfl (fun u => condView_update ?_ u) (fun c => ?_)
    (fun u => (show Calling t s.log (.setHolder inWait) from trivial).update (fun u _ => hc.calling u) u)⟩
  · rw [setLockSema, hv]
    rfl
  · simp only [queued, setPc, update_self]
    rfl

theorem call (ht : s.threads t = .outside ∨ s.threads t = .inside) (f : MonitorCall) : MonitorInv (s.call t f) := by
  have hheld : lockHeldByCurrentThread s.lock t = true → s.threads t = .inside := fun h => by
    rcases ht with ht | ht
    · rw [hl.held_iff, ht] at h
      cases h
    · exact ht
  have hview : (s.threads t).condView = (none, false) := by rcases ht with ht | ht <;> rw [ht] <;> rfl
  have hat : (s.threads t).atLock = false := by rcases ht with ht | ht <;> rw [ht] <;> rfl
  cases f with
  | lockAcquire =>
    simp only [MonitorState.call]
    split
    · exact panic hl hc
    · rename_i hno
      rcases ht with ht | ht
      · exact ⟨o, hl.move ht rfl rfl rfl, hc.move ht rfl rfl rfl rfl rfl (fun _ _ => rfl) trivial⟩
      · exact absurd (hl.held_iff.mpr (by rw [ht]; rfl)) hno
  | lockTryAcquire =>
    simp only [MonitorState.call]
    split
    · exact panic hl hc
    rcases semaTryDown_cases s.lock.semaphore with ⟨-, hd⟩ | ⟨h0, hd⟩
    · rw [hd]
      exact ⟨o, hl, hc⟩
    · rw [hd]
      exact take hl hc h0 hat hview
  | lockRelease =>
    simp only [MonitorState.call]
    split
    · rename_i hh
      have hin := hheld hh
      exact ⟨o, hl.hold (by rw [hin]; rfl) rfl none rfl, hc.move hin rfl rfl rfl rfl rfl (fun _ _ => rfl) trivial⟩
    · exact panic hl hc
  | condWait c =>
    simp only [MonitorState.call]
    split
    · rename_i hh
      have hin := hheld hh
      obtain ⟨hcrit, rfl⟩ := hl.owner_at hin rfl
      exact ⟨some t, hl.move hin rfl rfl rfl, hc.enter hin (others hl hcrit) c⟩
    · exact panic hl hc
  | condSignal c =>
    simp only [MonitorState.call]
    split
    · rename_i hh
      have hin := hheld hh
      obtain ⟨hcrit, rfl⟩ := hl.owner_at hin rfl
      exact ⟨some t, hl.move hin rfl rfl rfl, hc.note (others hl hcrit) hin rfl rfl rfl rfl rfl (fun _ _ => rfl) (fun _ => rfl)
        ⟨[], ⟨s.log, rfl, rfl⟩, fun _ => rfl⟩ hc.logOk⟩
    · exact panic hl hc
  | condBroadcast c =>
    simp only [MonitorState.call]
    split
    · rename_i hh
      have hin := hheld hh
      obtain ⟨hcrit, rfl⟩ := hl.owner_at hin rfl
      exact ⟨some t, hl.move hin rfl rfl rfl, hc.note (others hl hcrit) hin rfl rfl rfl rfl rfl (fun _ _ => rfl) (fun _ => rfl)
        ⟨[], s.log, rfl, rfl⟩ hc.logOk⟩
    · split
      · exact ⟨o, hl, hc⟩
      · exact panic hl hc

theorem acquire (ht : s.threads t = .acquire inWait) (h : s.go t (.acquire inWait) = some s') : MonitorInv s' := by
  simp only [go] at h
  rcases semaDown_cases s.lock.semaphore t with ⟨-, hd⟩ | ⟨h0, hd⟩
  · rw [hd] at h
    cases h
    exact ⟨o, hl.sleep ht, hc.move ht rfl rfl rfl rfl rfl (fun _ _ => rfl) trivial⟩
  · rw [hd] at h
    cases h
    exact take hl hc h0 (by rw [ht]; rfl) (by rw [ht]; rfl)

end

/-- Nothing that the condition variables depend on changes as the lock's first waiter is unblocked. -/
theorem unblock_lock (hl : LockInv s o) {v : MonitorState}
    (hv : v = (s.setLockSema (semaUp s.lock.semaphore).1).unblock? (semaUp s.lock.semaphore).2) :
    v.log = s.log ∧ v.waiter = s.waiter ∧ v.conds = s.conds ∧ ∀ u, (v.threads u).condView = (s.threads u).condView := by
  subst hv
  rcases semaUp_cases s.lock.semaphore with ⟨-, hu⟩ | ⟨w, rest, hcons, hu⟩
  · rw [hu]
    exact ⟨rfl, rfl, rfl, fun _ => rfl⟩
  · obtain ⟨inWait, hpc, heq⟩ := hl.unblock_eq hcons
    rw [hu, unblock?, heq]
    exact ⟨rfl, rfl, rfl, fun u => condView_update (by rw [setLockSema, hpc]; rfl) u⟩

section

variable (hl : LockInv s o) (hc : CondInv s o)
include hl hc

theorem release (ht : s.threads t = .release inWait) (h : s.go t (.release inWait) = some s') : MonitorInv s' := by
  obtain ⟨hcrit, rfl⟩ := hl.owner_at ht rfl
  simp only [go, some.injEq] at h
  obtain ⟨hlog, hwaiter, hconds, hview⟩ := unblock_lock hl rfl
  subst h
  refine ⟨none, hl.free hcrit (by rw [ht]; rfl) (by cases inWait <;> rfl),
    hc.congr (fun c => ?_) ?_ hwaiter (fun u => ?_) (fun c => ?_) (fun u => ?_)⟩
  · exact congrArg (waiting c) hlog
  · exact Eq.symm hlog ▸ hc.logOk
  · refine (condView_update ?_ u).trans (hview u)
    rw [hview, ht]
    cases inWait <;> rfl
  · rw [queued, queued, ht]
    exact congrFun hconds c
  refine .of_not_critical ?_
  rcases eq_or_ne u t with rfl | hne
  · rw [setPc_threads, update_self]
    cases inWait <;> rfl
  · have hpc : (inWait.elim outside .down).lockView = (false, false, false) := by cases inWait <;> rfl
    have hnone := hl.free hcrit (by rw [ht]; rfl) hpc
    rw [← Bool.not_eq_true, hnone.critical_iff u]
    simp

theorem down (ht : s.threads t = .down c) (h : s.go t (.down c) = some s') : MonitorInv s' := by
  have ho : o ≠ some t := fun h => by
    have := (hl.critical_iff t).mpr h
    rw [ht] at this
    cases this
  simp only [go] at h
  rcases semaDown_cases (s.waiter t) t with ⟨h0, hd⟩ | ⟨h0, hd⟩
  · rw [hd] at h
    cases h
    exact ⟨o, hl.move ht rfl rfl rfl, hc.sleep ho ht h0⟩
  rw [hd] at h
  simp only at h
  split at h
  · cases h
    exact panic hl hc
  · cases h
    exact ⟨o, hl.move ht rfl rfl rfl, hc.pass ho h0 _⟩

theorem signal (ht : s.threads t = .signal c all) (h : s.go t (.signal c all) = some s') : MonitorInv s' := by
  obtain ⟨hcrit, rfl⟩ := hl.owner_at ht rfl
  have hcall := hc.calling t
  rw [ht] at hcall
  have hq : waiting c s.log = s.conds c := by rw [hc.queue c, queued, ht]; rfl
  simp only [go] at h
  cases hl' : s.conds c with
  | nil =>
    rw [hl'] at h
    cases h
    refine ⟨some t, hl.move ht rfl rfl ?_, hc.move ht rfl rfl rfl rfl ?_ (fun c' l => ?_) ?_⟩
    · cases all <;> rfl
    · cases all <;> rfl
    · cases all <;> rfl
    · obtain ⟨ws, hso, hws⟩ := hcall
      cases all with
      | true => exact ⟨ws, hso⟩
      | false => exact ⟨ws, hso, by rw [hws rfl, hq, hl']; rfl⟩
  | cons w rest =>
    rw [hl'] at h
    cases h
    refine ⟨some t, hl.move ht rfl rfl rfl, hc.list ht rfl (fun c' => ?_) hcall⟩
    simp only [full]
    split
    · rename_i hcc
      rw [← hcc, update_self, hl']
    · rename_i hcc
      rw [update_of_ne (Ne.symm hcc)]

theorem wake (ht : s.threads t = .wake c w all) (h : s.go t (.wake c w all) = some s') : MonitorInv s' := by
  obtain ⟨hcrit, rfl⟩ := hl.owner_at ht rfl
  obtain ⟨hne, hplace, heq⟩ := hc.woken (others hl hcrit) ht
  simp only [go, heq] at h
  cases h
  refine ⟨some t, ?_, hc.wake (others hl hcrit) ht rfl rfl rfl rfl rfl⟩
  have hview : (MonitorPc.down c).lockView = (s.threads w).lockView := by
    rcases hplace with h | h
    · rw [h]
      rfl
    · rw [h]
  have hl1 : LockInv ((s.setWaiter w { value := 1, waiters := [] }).setPc w (.down c)) (some t) := hl.move rfl rfl rfl hview
  refine hl1.move rfl rfl rfl ?_
  rw [setPc_threads, setWaiter_threads, update_of_ne hne.symm, ht]
  cases all <;> rfl

end

/-- The call of `cond_signal` or `cond_broadcast` is over: it has signalled whom it should. -/
theorem finish (hl : LockInv s (some t)) (hc : CondInv s (some t)) {ws : List Thread}
    (hcrit : (s.threads t).critical = true) (ht : s.threads t = before) (hlock : before.lockView = (true, true, false))
    (hview : before.condView = (none, false)) (hfull : ∀ c l, before.full t c l = l) (hso : CallSoFar t c all s.log ws)
    (hws : ws = if all then ws ++ waiting c s.log else (ws ++ waiting c s.log).take 1) :
    MonitorInv ((s.record (.finish t c all)).setPc t .inside) := by
  obtain ⟨earlier, hlog, hw⟩ := hso
  exact ⟨some t, hl.move ht rfl rfl hlock.symm,
    hc.note (others hl hcrit) ht rfl rfl rfl rfl hview.symm (fun c l => (hfull c l).symm)
    (fun _ => rfl) trivial ⟨⟨ws, earlier, hlog, by rw [hw]; exact hws⟩, hc.logOk⟩⟩

theorem go (hl : LockInv s o) (hc : CondInv s o) (h : s.go t (s.threads t) = some s') : MonitorInv s' := by
  cases ht : s.threads t with
  | outside | inside | asleepLock inWait | asleep c => rw [ht] at h; cases h
  | acquire inWait => exact acquire hl hc ht (ht ▸ h)
  | release inWait => exact release hl hc ht (ht ▸ h)
  | down c => exact down hl hc ht (ht ▸ h)
  | signal c all => exact signal hl hc ht (ht ▸ h)
  | wake c w all => exact wake hl hc ht (ht ▸ h)
  | setHolder inWait =>
    obtain ⟨hcrit, rfl⟩ := hl.owner_at ht rfl
    rw [ht] at h
    cases inWait with
    | none =>
      cases h
      exact ⟨_, hl.hold hcrit rfl _ rfl, hc.move ht rfl rfl rfl rfl rfl (fun _ _ => rfl) trivial⟩
    | some c =>
      cases h
      have hl' : LockInv ((s.setHolder (some t)).setPc t .inside) (some t) := hl.hold hcrit rfl _ rfl
      exact ⟨_, hl'.congr rfl fun _ => rfl, hc.note (others hl hcrit) ht rfl rfl rfl rfl rfl (fun _ _ => rfl)
        (fun _ => rfl) trivial hc.logOk⟩
  | push c =>
    obtain ⟨hcrit, rfl⟩ := hl.owner_at ht rfl
    rw [ht] at h
    cases h
    refine ⟨_, hl.move ht rfl rfl rfl, hc.list ht rfl (fun c' => ?_) trivial⟩
    simp only [full]
    split
    · rename_i hcc
      rw [← hcc, update_self]
    · rename_i hcc
      rw [update_of_ne (Ne.symm hcc)]
  | unlock c =>
    have hcrit : (s.threads t).critical = true := by rw [ht]; rfl
    rw [ht] at h
    simp only [MonitorState.go] at h
    split at h
    · cases h
      exact ⟨o, hl.hold hcrit rfl _ rfl, hc.move ht rfl rfl rfl rfl rfl (fun _ _ => rfl) trivial⟩
    · cases h
      exact panic hl hc
  | leave c =>
    obtain ⟨hcrit, rfl⟩ := hl.owner_at ht rfl
    have hcall := hc.calling t
    rw [ht] at hcall h
    cases h
    obtain ⟨ws, hso, hws⟩ := hcall
    exact finish hl hc hcrit ht rfl rfl (fun _ _ => rfl) hso hws
  | broadcast c =>
    obtain ⟨hcrit, rfl⟩ := hl.owner_at ht rfl
    have hcall := hc.calling t
    have hq : waiting c s.log = s.conds c := by rw [hc.queue c, queued, ht]; rfl
    rw [ht] at hcall h
    obtain ⟨ws, hso⟩ := hcall
    simp only [go] at h
    split at h
    · rename_i hnil
      cases h
      refine finish hl hc hcrit ht rfl rfl (fun _ _ => rfl) hso ?_
      simp [hq, hnil]
    split at h
    · cases h
      exact ⟨_, hl.move ht rfl rfl rfl, hc.move ht rfl rfl rfl rfl rfl (fun _ _ => rfl) ⟨ws, hso, nofun⟩⟩
    · cases h
      exact panic hl hc

theorem call_threads (s : MonitorState) (hne : u ≠ t) (f : MonitorCall) : (s.call t f).threads u = s.threads u := by
  cases f with
  | _ =>
    simp only [MonitorState.call]
    (repeat' split) <;> simp [hne]

theorem call_log (s : MonitorState) (t u : Thread) (c : Cond) (f : MonitorCall) : (s.call t f).log ≠ .returned u c :: s.log := by
  cases f with
  | _ =>
    simp only [MonitorState.call]
    (repeat' split) <;> simp

/-- A step that unblocks nobody and does not return from `cond_wait` moves no other thread, and shows no such return. -/
theorem go_frame (h : s.go t pc = some s') (hrelease : ∀ inWait, pc ≠ .release inWait)
    (hwake : ∀ c w all, pc ≠ .wake c w all) (hset : ∀ c, pc ≠ .setHolder (some c)) :
    (∀ u, u ≠ t → s'.threads u = s.threads u) ∧ ∀ u c, s'.log ≠ .returned u c :: s.log := by
  cases pc with
  | outside | inside | asleepLock _ | asleep _ => cases h
  | release inWait => exact absurd rfl (hrelease inWait)
  | wake c w all => exact absurd rfl (hwake c w all)
  | setHolder inWait =>
    cases inWait with
    | none => cases h; exact ⟨fun u hne => by simp [hne], by simp⟩
    | some c => exact absurd rfl (hset c)
  | _ =>
    -- each of the others ends by moving its own thread
    simp only [MonitorState.go] at h
    (repeat' split at h) <;> cases h <;> exact ⟨fun u hne => by simp [hne], by simp⟩

section

variable (hl : LockInv s o) (hc : CondInv s o) (h : s.go t (s.threads t) = some s')
include hl hc h

/-- A step moves a thread that sleeps in `cond_wait` only by signalling it. -/
theorem go_asleep (hu : s.threads u = .asleep c) :
    s'.threads u = .asleep c ∨ (s'.log = .signalled t u c :: s.log ∧ s'.threads u = .down c) := by
  have hne : u ≠ t := fun he => by rw [← he, hu] at h; cases h
  cases ht : s.threads t with
  | release inWait =>
    rw [ht] at h
    simp only [MonitorState.go] at h
    cases h
    refine .inl ?_
    rw [MonitorState.setPc_threads, update_of_ne hne]
    rcases semaUp_cases s.lock.semaphore with ⟨-, hsu⟩ | ⟨w, rest, hcons, hsu⟩
    · rw [hsu]
      exact hu
    · obtain ⟨inWait', hpc, heq⟩ := hl.unblock_eq hcons
      have hnew : u ≠ w := fun he => by rw [he, hpc] at hu; cases hu
      rw [hsu, MonitorState.unblock?, heq, MonitorState.setPc_threads, update_of_ne hnew]
      exact hu
  | wake c' w all =>
    obtain ⟨hcrit, rfl⟩ := hl.owner_at ht rfl
    obtain ⟨-, hplace, heq⟩ := hc.woken (others hl hcrit) ht
    rw [ht] at h
    simp only [MonitorState.go, heq] at h
    cases h
    rw [MonitorState.setPc_threads, update_of_ne hne]
    rcases eq_or_ne u w with rfl | hnew
    · rcases hplace with hp | hp
      · rw [hu, asleep.injEq] at hp
        subst hp
        exact .inr ⟨rfl, by simp⟩
      · rw [hu] at hp
        cases hp
    · exact .inl (by simpa [hnew] using hu)
  | setHolder inWait =>
    refine .inl ?_
    rw [ht] at h
    cases inWait <;> cases h <;> simpa [hne] using hu
  | _ =>
    rw [ht] at h
    exact .inl (by rw [(go_frame h nofun nofun nofun).1 u hne, hu])

/-- A thread returns from `cond_wait` holding the lock. -/
theorem go_returned (hlog : s'.log = .returned u c :: s.log) : s'.lock.holder = some u ∧ s'.threads u = .inside := by
  cases ht : s.threads t with
  | release inWait =>
    rw [ht] at h
    simp only [MonitorState.go, some.injEq] at h
    subst h
    exact absurd ((unblock_lock hl rfl).1.symm.trans hlog) (cons_ne_self _ _).symm
  | wake c' w all =>
    obtain ⟨hcrit, rfl⟩ := hl.owner_at ht rfl
    obtain ⟨-, -, heq⟩ := hc.woken (others hl hcrit) ht
    rw [ht] at h
    simp only [MonitorState.go, heq, some.injEq] at h
    rw [← h] at hlog
    simp at hlog
  | setHolder inWait =>
    rw [ht] at h
    cases inWait with
    | none => cases h; exact absurd hlog (cons_ne_self _ _).symm
    | some c' =>
      cases h
      obtain ⟨rfl, -⟩ := hlog
      exact ⟨rfl, by simp⟩
  | _ =>
    rw [ht] at h
    exact absurd hlog ((go_frame h nofun nofun nofun).2 u c)

end

/-- A thread in `cond_signal` or `cond_broadcast` can make its next step, which is the return or leaves it there. -/
theorem signal_step (hl : LockInv s o) (hc : CondInv s o) (hu : (s.threads u).signals = some (c, all)) :
    ∃ s', s.go u (s.threads u) = some s' ∧ s'.panicked = s.panicked ∧
      (s'.threads u).rank (s'.conds c).length < (s.threads u).rank (s.conds c).length ∧
      (s'.log.head? = some (.finish u c all) ∨ (s'.threads u).signals = some (c, all)) := by
  cases ht : s.threads u with
  | signal c' all' =>
    obtain ⟨rfl, rfl⟩ : c' = c ∧ all' = all := by simpa [ht, signals] using hu
    cases hlist : s.conds c' with
    | nil =>
      simp only [MonitorState.go, hlist]
      refine ⟨_, rfl, rfl, ?_, .inr ?_⟩ <;> cases all' <;> simp [signals, rank, hlist]
    | cons w rest =>
      simp only [MonitorState.go, hlist]
      refine ⟨_, rfl, rfl, ?_, .inr (by simp [signals])⟩
      simp only [MonitorState.setPc, MonitorState.setCond, update_self, rank, length_cons]
      omega
  | wake c' w all' =>
    obtain ⟨rfl, rfl⟩ : c' = c ∧ all' = all := by simpa [ht, signals] using hu
    obtain ⟨hcrit, rfl⟩ := hl.owner_at ht rfl
    obtain ⟨-, -, heq⟩ := hc.woken (others hl hcrit) ht
    simp only [MonitorState.go, heq]
    refine ⟨_, rfl, rfl, ?_, .inr ?_⟩ <;> cases all' <;> simp [signals, rank]
  | leave c' =>
    obtain ⟨rfl, rfl⟩ : c' = c ∧ false = all := by simpa [ht, signals] using hu
    exact ⟨_, rfl, rfl, by simp [rank], .inl rfl⟩
  | broadcast c' =>
    obtain ⟨rfl, rfl⟩ : c' = c ∧ true = all := by simpa [ht, signals] using hu
    simp only [MonitorState.go]
    split
    · exact ⟨_, rfl, rfl, by simp [rank], .inl rfl⟩
    · rename_i hne
      have hpos := length_pos_of_ne_nil hne
      rw [if_pos (hl.held_iff.mpr (by rw [ht]; rfl))]
      refine ⟨_, rfl, rfl, ?_, .inr (by simp [signals])⟩
      simp only [MonitorState.setPc, update_self, rank]
      omega
  | _ => simp [ht, signals] at hu

/-- A call of `cond_signal` or `cond_broadcast` that has begun returns, however many threads wait. -/
theorem signal_ends (hi : MonitorInv s) (hp : s.panicked = false) (hu : (s.threads u).signals = some (c, all)) :
    ∃ n s', monitorSystem.run s (replicate n (.go u)) = some s' ∧ s'.panicked = false ∧
    s'.log.head? = some (.finish u c all) := by
  refine (Transition.System.exists_run_of_measure (M := monitorSystem) (Q := fun s => s.log.head? = some (.finish u c all))
    (I := fun s => s.panicked = false ∧
      (s.log.head? = some (.finish u c all) ∨ MonitorInv s ∧ (s.threads u).signals = some (c, all)))
    (fun s => (s.threads u).rank (s.conds c).length) (.go u) ?_ ⟨hp, .inr ⟨hi, hu⟩⟩).imp
    fun n => Exists.imp fun s' h => ⟨h.1, h.2.1.1, h.2.2⟩
  rintro s ⟨hp, hend | ⟨⟨o, hl, hc⟩, hu⟩⟩
  · exact .inl hend
  obtain ⟨s', hgo, hp', hlt, hnext⟩ := signal_step hl hc hu
  exact .inr ⟨s', by simpa [monitorSystem, step, hp] using hgo, ⟨hp'.trans hp, hnext.imp_right fun h => ⟨go hl hc hgo, h⟩⟩, hlt⟩

theorem reached (h : monitorSystem.Reachable s) : MonitorInv s := by
  refine Transition.System.Reachable.invariant h ?_ ?_
  · rintro s ⟨stack, rfl⟩
    exact ⟨none, LockInv.start stack, CondInv.start stack⟩
  rintro s a s' ⟨o, hl, hc⟩ hs
  simp only [monitorSystem, step] at hs
  split at hs
  · cases hs
  cases a with
  | call t f =>
    obtain ⟨ht, he⟩ := ite_none_right_eq_some.mp hs
    exact some.inj he ▸ call hl hc ht f
  | go t => exact go hl hc hs

end MonitorInv

end Pintos
