import Pintos.Lemmas.Monitor

/-!
# Monitors: mutual exclusion and no missed signal

A waiter is in the list of its condition variable before it releases the lock, and whoever signals holds the lock; so between
the two nobody can look at the list and miss it. The semaphore on the waiter's own stack remembers a signal that comes before
the waiter sleeps.
-/

namespace Pintos

open MonitorInv

/-- What a lock and its condition variables promise, in a state. -/
structure MonitorOk (s : MonitorState) : Prop where
  /-- At most one thread is between its acquire and its release. -/
  exclusive : ∀ t u, (s.threads t).critical = true → (s.threads u).critical = true → t = u
  /-- `holder` is never another thread than that one. -/
  holder : ∀ t, s.lock.holder = some t → (s.threads t).critical = true
  /-- A thread that sleeps in `cond_wait` has not been signalled. -/
  asleep : ∀ t c, s.threads t = .asleep c → t ∈ waiting c s.log
  /-- From its call to its return, `cond_broadcast` signals all threads that wait at its call and `cond_signal` the first of
  them, if there is one; they signal no other, and nothing else happens to the condition variables in that time. -/
  signals : ∀ later u c all before, s.log = later ++ .finish u c all :: before → ∃ ws earlier,
    before = (ws.map (.signalled u · c)).reverse ++ .start u c all :: earlier ∧
    ws = if all then waiting c earlier else (waiting c earlier).take 1
  /-- A call of either that has begun can go on, fails no assertion and returns. -/
  finishes : s.panicked = false → ∀ u c all, (s.threads u).signals = some (c, all) → ∃ n s',
    monitorSystem.run s (.replicate n (.go u)) = some s' ∧ s'.panicked = false ∧ s'.log.head? = some (.finish u c all)
  /-- The thread that is signalled is the one that entered `cond_wait` first among those not yet signalled. -/
  first : ∀ later u w c earlier, s.log = later ++ .signalled u w c :: earlier → (waiting c earlier).head? = some w
  /-- A thread that sleeps in `cond_wait` is woken by the signal, and by nothing else. -/
  woken : ∀ a s', s.step a = some s' → ∀ t c, s.threads t = .asleep c →
    (s'.threads t = .asleep c ∧ ∀ u, s'.log ≠ .signalled u t c :: s.log) ∨
    (s'.threads t = .down c ∧ ∃ u, s'.log = .signalled u t c :: s.log)
  /-- A thread returns from `cond_wait` only when it has been signalled, and holding the lock. -/
  returns : ∀ a s', s.step a = some s' → ∀ t c, s'.log = .returned t c :: s.log →
    s'.lock.holder = some t ∧ s'.threads t = .inside ∧ t ∉ waiting c s'.log

/-- What the log's invariant says of an event in it. -/
theorem LogOk.drop {later log : List MonitorEvent} (h : LogOk (later ++ log)) : LogOk log := by
  induction later with
  | nil => exact h
  | cons e later ih => cases e <;> first | exact ih h | exact ih h.2

/-- In every state that any interleaving of the functions of the lock and its condition variables reaches, there is mutual
exclusion and no signal is missed. -/
theorem monitor_ok (s : MonitorState) (h : monitorSystem.Reachable s) : MonitorOk s := by
  obtain ⟨o, hl, hc⟩ := reached h
  refine ⟨?_, ?_, ?_, ?_, fun hp u c all => signal_ends ⟨o, hl, hc⟩ hp, ?_, ?_, ?_⟩
  · intro t u ht hu
    exact Option.some.inj ((hl.owner_eq ht).symm.trans (hl.owner_eq hu))
  · intro t ht
    exact MonitorPc.critical_of_holds ((hl.holder_iff t).mp ht)
  · intro t c ht
    exact (hc.mem_iff c t).mpr ⟨by rw [ht]; rfl, (hc.thread t).asleep (by rw [ht]; rfl)⟩
  · intro later u c all before hlog
    have hok : LogOk (.finish u c all :: before) := LogOk.drop (hlog ▸ hc.logOk)
    exact hok.1
  · intro later u w c earlier hlog
    have hok : LogOk (.signalled u w c :: earlier) := LogOk.drop (hlog ▸ hc.logOk)
    exact hok.1
  · intro a s' hs t c ht
    obtain ⟨o', hl', hc'⟩ := reached (.step a h trivial hs)
    have hkept : s'.threads t = .asleep c → ∀ u, s'.log ≠ .signalled u t c :: s.log := fun hk u hlog => by
      have hm := (hc'.mem_iff c t).mpr ⟨by rw [hk]; rfl, (hc'.thread t).asleep (by rw [hk]; rfl)⟩
      have hnd := hc.nodup c
      rw [hlog, waiting, if_pos rfl] at hm
      exact absurd hm (fun h => (List.Nodup.mem_erase_iff hnd).mp h |>.1 rfl)
    simp only [MonitorState.step] at hs
    split at hs
    · cases hs
    cases a with
    | call v f =>
      obtain ⟨hv, he⟩ := Option.ite_none_right_eq_some.mp hs
      have hne : t ≠ v := fun h => by rw [← h, ht] at hv; simp at hv
      have hk : s'.threads t = .asleep c := by rw [← Option.some.inj he, call_threads s hne, ht]
      exact .inl ⟨hk, hkept hk⟩
    | go v =>
      rcases go_asleep hl hc hs ht with hk | ⟨hlog, hk⟩
      · exact .inl ⟨hk, hkept hk⟩
      · exact .inr ⟨hk, v, hlog⟩
  · intro a s' hs t c hlog
    obtain ⟨o', hl', hc'⟩ := reached (.step a h trivial hs)
    have hret : s'.lock.holder = some t ∧ s'.threads t = .inside := by
      simp only [MonitorState.step] at hs
      split at hs
      · cases hs
      cases a with
      | call v f =>
        obtain ⟨-, he⟩ := Option.ite_none_right_eq_some.mp hs
        rw [← Option.some.inj he] at hlog
        exact absurd hlog (call_log s v t c f)
      | go v => exact go_returned hl hc hs hlog
    refine ⟨hret.1, hret.2, fun hm => ?_⟩
    have := ((hc'.mem_iff c t).mp hm).1
    rw [hret.2] at this
    cases this

/-- A thread acquires the lock, and goes to sleep in `cond_wait`. -/
def waitAsleep (t : Thread) : List MonitorAction :=
  [.call t .lockAcquire, .go t, .go t, .call t (.condWait 0), .go t, .go t, .go t, .go t]

/-- Threads 1 and 3 wait, thread 2 broadcasts and releases the lock, and thread 1 returns. -/
def waitAndBroadcast : List MonitorAction :=
  waitAsleep 1 ++ waitAsleep 3 ++ [.call 2 .lockTryAcquire, .go 2, .call 2 (.condBroadcast 0)] ++ .replicate 7 (.go 2) ++
    [.call 2 .lockRelease, .go 2, .go 1, .go 1, .go 1]

/-- The run of `waitAndBroadcast` signals both, and ends with thread 1 back from `cond_wait`, as `holder`. -/
theorem monitor_ok_broadcast :
    ∃ s, monitorSystem.run (MonitorState.start fun _ => semaInit 0) waitAndBroadcast = some s ∧ MonitorOk s ∧
      s.lock.holder = some 1 ∧ s.log = [.returned 1 0, .finish 2 0 true, .signalled 2 3 0, .signalled 2 1 0, .start 2 0 true,
        .entered 3 0, .entered 1 0] :=
  Transition.System.exists_run ⟨_, rfl⟩ .always monitor_ok (by decide +kernel)

end Pintos
