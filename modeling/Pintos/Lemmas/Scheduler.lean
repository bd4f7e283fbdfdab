import Mathlib.Data.List.Nodup
import Pintos.Threads.Scheduler

/-!
# What the operations of the scheduler keep

`SchedCore` is the part of the invariant that also holds inside `schedule`, where no thread is running; `SchedInv` adds what
holds outside. `BirthInv` is the bookkeeping of the threads that have been made and freed.
-/

namespace Pintos

open Sched ThreadPc List Function Option

variable {a : SchedAction} {s : Sched} {m : Sema} {t : Thread} {pc : ThreadPc} {page : Option Thread}

/-- A new element at the end of a list without repetitions. -/
theorem nodup_snoc {α : Type} {l : List α} {a : α} (h : l.Nodup) (ha : a ∉ l) : (l ++ [a]).Nodup := by
  refine nodup_append.mpr ⟨h, nodup_singleton a, fun b hb c hc he => ?_⟩
  rw [he, mem_singleton.mp hc] at hb
  exact ha hb

/-- The lists hold a thread, and it is the idle thread, as its record says. -/
structure ThreadAt (s : Sched) (t : Thread) (th : ThreadRec) : Prop where
  ready : t ∈ s.readyList ↔ s.idleThread ≠ some t ∧ th.status = .ready
  all : t ∈ s.allList ↔ th.status ≠ .dying
  waiters : ∀ m, t ∈ (s.semas m).waiters → th.status = .blocked ∧ th.pc = .inDown m
  idle : s.idleThread = some t → th.pc.isIdle = true ∧ th.status ≠ .dying
  started : th.pc.isIdle = true → s.started = true
  idleSet : th.pc.isIdle = true → th.pc ≠ .idleStart → s.idleThread = some t

/-- No list holds the thread. -/
structure OnNoList (s : Sched) (t : Thread) : Prop where
  ready : t ∉ s.readyList
  all : t ∉ s.allList
  waiters : ∀ m, t ∉ (s.semas m).waiters
  idle : s.idleThread ≠ some t

/-- A page is on the lists as what it holds says. -/
def Placed (s : Sched) (t : Thread) : Option ThreadRec → Prop
  | none => OnNoList s t
  | some th => ThreadAt s t th

/-- The lists and the threads they hold. -/
structure SchedCore (s : Sched) : Prop where
  cur : ∃ th, s.threads s.cur = some th
  initial : ∃ th, s.threads s.initialThread = some th
  readyNodup : s.readyList.Nodup
  allNodup : s.allList.Nodup
  waitersNodup : ∀ m, (s.semas m).waiters.Nodup
  placed : ∀ t, Placed s t (s.threads t)
  idleOne : ∀ t u th uh, s.threads t = some th → s.threads u = some uh → th.pc.isIdle = true → uh.pc.isIdle = true → t = u

/-- The invariant outside `schedule`: the current thread is the one that runs, and only the initial thread is ever left
dying. -/
structure SchedInv (s : Sched) : Prop extends SchedCore s where
  running : ∀ t th, s.threads t = some th → (th.status = .running ↔ t = s.cur)
  dying : ∀ t th, s.threads t = some th → th.status = .dying → t = s.initialThread

/-! ## A change of one thread -/

/-- The lists have a thread where they had it. -/
structure Unmoved (s s' : Sched) (t : Thread) : Prop where
  ready : t ∈ s'.readyList ↔ t ∈ s.readyList
  all : t ∈ s'.allList ↔ t ∈ s.allList
  waiters : ∀ m, t ∈ (s'.semas m).waiters → t ∈ (s.semas m).waiters
  idle : s'.idleThread = some t ↔ s.idleThread = some t

/-- What does not move a thread leaves it in its place. -/
theorem Placed.congr {s' : Sched} {r : Option ThreadRec} (h : Placed s t r) (hu : Unmoved s s' t)
    (hst : s.started = true → s'.started = true) : Placed s' t r := by
  cases r with
  | none => exact ⟨mt hu.ready.mp h.ready, mt hu.all.mp h.all, fun m => mt (hu.waiters m) (h.waiters m), mt hu.idle.mp h.idle⟩
  | some th =>
    exact ⟨by rw [hu.ready, ne_eq, hu.idle]; exact h.ready, hu.all.trans h.all, fun m hm => h.waiters m (hu.waiters m hm),
      fun hi => h.idle (hu.idle.mp hi), fun hp => hst (h.started hp), fun hp hne => hu.idle.mpr (h.idleSet hp hne)⟩

theorem ThreadAt.of_dying {th : ThreadRec} (h : ThreadAt s t th) (hd : th.status = .dying) : OnNoList s t :=
  ⟨by simp [h.ready, hd], by simp [h.all, hd], fun m hm => by simpa [hd] using h.waiters m hm, fun hi => (h.idle hi).2 hd⟩

namespace SchedCore

variable {s' : Sched} {r : Option ThreadRec} {th : ThreadRec}

theorem threadAt (hc : SchedCore s) (hth : s.threads t = some th) : ThreadAt s t th := by
  have hp := hc.placed t
  rw [hth] at hp
  exact hp

theorem exists_of_listed (hc : SchedCore s) (h : ¬OnNoList s t) : ∃ th, s.threads t = some th ∧ ThreadAt s t th := by
  have hp := hc.placed t
  cases hth : s.threads t with
  | none =>
    rw [hth] at hp
    exact absurd hp h
  | some th => exact ⟨th, rfl, hc.threadAt hth⟩

/-- A page gets another record, or none: the lists have its thread where the record says, and all others where they had
them. -/
theorem change (hc : SchedCore s) (hth : s'.threads = update s.threads t r)
    (hini : s'.initialThread = s.initialThread) (hst : s'.started = s.started) (hcur : ∃ th, s'.threads s'.cur = some th)
    (hkeep : t = s.initialThread → r ≠ none) (hready : s'.readyList.Nodup) (hall : s'.allList.Nodup)
    (hwait : ∀ m, (s'.semas m).waiters.Nodup) (hself : Placed s' t r) (hothers : ∀ u, u ≠ t → Unmoved s s' u)
    (hidle : ∀ th, r = some th → th.pc.isIdle = true → ∀ u uh, s.threads u = some uh → uh.pc.isIdle = true → u = t) :
    SchedCore s' := by
  refine ⟨hcur, ?_, hready, hall, hwait, fun u => ?_, ?_⟩
  · obtain ⟨ith, hold⟩ := hc.initial
    rw [hini, hth, update_apply]
    split
    · rename_i he
      exact ne_none_iff_exists'.mp (hkeep he.symm)
    · exact ⟨ith, hold⟩
  · rcases eq_or_ne u t with rfl | hne
    · rw [hth, update_self]
      exact hself
    · rw [hth, update_of_ne hne]
      exact (hc.placed u).congr (hothers u hne) (hst ▸ id)
  · rw [hth]
    have hone := hc.idleOne
    grind

end SchedCore

/-! ## The operations -/

/-- What `thread_schedule_tail` does after a switch from another thread. -/
theorem Sched.threadScheduleTail_of_ne {p : Thread} {th pth : ThreadRec} (hth : s.threads s.cur = some th)
    (hp : s.threads p = some pth) (hne : p ≠ s.cur) :
    s.threadScheduleTail (some p) =
      if pth.status = .dying ∧ p ≠ s.initialThread then some
        ((s.setThread s.cur { th with status := .running }).freePage p pth th)
      else some (s.setThread s.cur { th with status := .running }) := by
  simp [threadScheduleTail, setThread, hth, hp, hne]

/-- What `schedule` does: it makes the next thread, from the front of the run queue or else the idle thread, the running one,
and frees the page of a dying thread that it came from, unless that is the initial thread. -/
theorem Sched.schedule_cases {s' : Sched} (h : s.schedule = some s') :
    ∃ th n nth rest, s.threads s.cur = some th ∧ th.status ≠ .running ∧ s.threads n = some nth ∧
      (s.readyList = n :: rest ∨ (s.readyList = [] ∧ rest = [] ∧ s.idleThread = some n)) ∧
      ((th.status = .dying ∧ s.cur ≠ s.initialThread ∧ s.cur ≠ n ∧
          s' = ({ s with readyList := rest, cur := n }.setThread n { nth with status := .running }).freePage s.cur th nth) ∨
       ((th.status ≠ .dying ∨ s.cur = s.initialThread ∨ s.cur = n) ∧
          s' = { s with readyList := rest, cur := n }.setThread n { nth with status := .running })) := by
  obtain ⟨n?, rest, hnext, hlist⟩ : ∃ n? rest, s.nextThreadToRun = (n?, { s with readyList := rest }) ∧
      ((∃ n, n? = some n ∧ s.readyList = n :: rest) ∨ (s.readyList = [] ∧ rest = [] ∧ n? = s.idleThread)) := by
    unfold nextThreadToRun
    cases hr : s.readyList with
    | nil => exact ⟨s.idleThread, [], by simp [← hr], .inr ⟨rfl, rfl, rfl⟩⟩
    | cons n rest => exact ⟨some n, rest, rfl, .inl ⟨n, rfl, rfl⟩⟩
  simp only [schedule, hnext, bind_eq_bind, bind_eq_some_iff] at h
  obtain ⟨th, hth, h⟩ := h
  split at h
  · cases h
  rename_i hst
  simp only [bind_eq_some_iff] at h
  obtain ⟨n, rfl, nth, hnth, h⟩ := h
  refine ⟨th, n, nth, rest, hth, hst, hnth, ?_, ?_⟩
  · rcases hlist with ⟨m, hm, hr⟩ | ⟨h1, h2, h3⟩
    · exact .inl (by rw [hr, some.inj hm])
    · exact .inr ⟨h1, h2, h3.symm⟩
  split at h
  · rename_i heq
    refine .inr ⟨.inr (.inr heq), ?_⟩
    simp only [threadScheduleTail, bind_eq_bind, heq, hnth, bind_some, some.injEq] at h
    rw [← h, ← heq]
  rename_i hne
  have htail := threadScheduleTail_of_ne (s := { s with readyList := rest, cur := n }) hnth hth hne
  rw [htail] at h
  split at h
  · rename_i hd
    exact .inl ⟨hd.1, hd.2, hne, (some.inj h).symm⟩
  rename_i hd
  refine .inr ⟨?_, (some.inj h).symm⟩
  by_cases h1 : th.status = .dying
  · exact .inr (.inl (by_contra fun h2 => hd ⟨h1, h2⟩))
  · exact .inl h1

/-- The thread that `schedule` takes is ready or idle, and not dying. -/
theorem SchedCore.next (hc : SchedCore s) {n : Thread} {rest : List Thread} {nth : ThreadRec} (hn : s.threads n = some nth)
    (hlist : s.readyList = n :: rest ∨ (s.readyList = [] ∧ rest = [] ∧ s.idleThread = some n)) :
    nth.status ≠ .dying ∧ (∀ t, t ∈ rest ↔ t ∈ s.readyList ∧ t ≠ n) ∧ rest.Nodup ∧ ∀ m, n ∉ (s.semas m).waiters := by
  have hat := hc.threadAt hn
  rcases hlist with hr | ⟨hr, rfl, hi⟩
  · have hnd := hc.readyNodup
    rw [hr, nodup_cons] at hnd
    have hst := (hat.ready.mp (by rw [hr]; exact mem_cons_self)).2
    refine ⟨by simp [hst], fun t => ?_, hnd.2, fun m hm => by simpa [hst] using (hat.waiters m hm).1⟩
    rw [hr, mem_cons]
    constructor
    · exact fun h => ⟨.inr h, fun he => hnd.1 (he ▸ h)⟩
    · rintro ⟨h | h, hne⟩
      · exact absurd h hne
      · exact h
  · obtain ⟨hpc, hst⟩ := hat.idle hi
    refine ⟨hst, fun t => by simp [hr], nodup_nil, fun m hm => ?_⟩
    rw [(hat.waiters m hm).2] at hpc
    cases hpc

/-- `schedule` leaves one thread running, the one it has switched to, and a dying thread only where that is the initial
one. -/
theorem SchedCore.schedule {s' : Sched} (hc : SchedCore s) (hrun : ∀ t th, s.threads t = some th → th.status ≠ .running)
    (hdying : ∀ t th, s.threads t = some th → th.status = .dying → t = s.cur ∨ t = s.initialThread) (h : s.schedule = some s') :
    SchedInv s' := by
  obtain ⟨th, n, nth, rest, hth, -, hnth, hlist, hs'⟩ := schedule_cases h
  obtain ⟨hnd, hrest, hrnd, hnw⟩ := hc.next hnth hlist
  have hat := hc.threadAt hnth
  have hc1 : SchedCore ({ s with readyList := rest, cur := n }.setThread n { nth with status := .running }) := by
    refine hc.change rfl rfl rfl ⟨_, update_self ..⟩ (by simp) hrnd hc.allNodup hc.waitersNodup ?_ (fun u hu => ?_) ?_
    · exact ⟨by simp [setThread, hrest], by simpa [setThread, hnd] using hat.all, fun m hm => absurd hm (hnw m),
        fun hid => ⟨(hat.idle hid).1, by simp⟩, hat.started, hat.idleSet⟩
    · exact ⟨by simp [setThread, hrest, hu], .rfl, fun _ => id, .rfl⟩
    · grind [hc.idleOne]
  rcases hs' with ⟨hdy, hni, hne, rfl⟩ | ⟨hor, rfl⟩
  · have hgone : OnNoList ({ s with readyList := rest, cur := n }.setThread n { nth with status := .running }) s.cur :=
      (hc1.threadAt (by simp [setThread, hne, hth])).of_dying hdy
    refine ⟨hc1.change (t := s.cur) (r := none) rfl rfl rfl ?_ (fun he => absurd he hni) hrnd hc.allNodup hc.waitersNodup
      ⟨hgone.ready, hgone.all, hgone.waiters, hgone.idle⟩ (fun u hu => ⟨.rfl, .rfl, fun _ => id, .rfl⟩) (by simp), ?_, ?_⟩
    all_goals simp only [freePage, setThread, update_apply]
    · grind
    · grind
    · grind
  · refine ⟨hc1, ?_, ?_⟩
    all_goals simp only [setThread, update_apply]
    · grind
    · grind

namespace SchedInv

variable {s s' : Sched} {th : ThreadRec}

section

variable (hi : SchedInv s)
include hi

/-- The running thread is on no list but that of all threads. -/
theorem cur_free (hth : s.threads s.cur = some th) :
    th.status = .running ∧ s.cur ∉ s.readyList ∧ ∀ m, s.cur ∉ (s.semas m).waiters := by
  have hrun := (hi.running s.cur th hth).mpr rfl
  have hat := hi.threadAt hth
  exact ⟨hrun, by simp [hat.ready, hrun], fun m hm => by simpa [hrun] using hat.waiters m hm⟩

/-- One thread changes, and which thread runs does not. -/
theorem change {r : Option ThreadRec} (hth : s'.threads = update s.threads t r) (hc : SchedCore s') (hcur : s'.cur = s.cur)
    (hini : s'.initialThread = s.initialThread) (hrun : ∀ th, r = some th → (th.status = .running ↔ t = s.cur))
    (hdy : ∀ th, r = some th → th.status ≠ .dying ∨ t = s.initialThread) : SchedInv s' := by
  refine ⟨hc, fun u uh hu => ?_, fun u uh hu hd => ?_⟩
  all_goals rw [hth, update_apply] at hu
  · rw [hcur]
    split at hu
    · rename_i he
      exact he ▸ hrun uh hu
    · exact hi.running u uh hu
  · rw [hini]
    split at hu
    · rename_i he
      exact he ▸ (hdy uh hu).resolve_left (not_not_intro hd)
    · exact hi.dying u uh hu hd

/-- The running thread stops running and `schedule` is called. What it does to its own record and to the lists before that
must fit: it is on the run queue if it is ready and not idle, on the list of all threads unless it is dying, and on a
semaphore's list only where it is blocked in `sema_down`. -/
theorem switch (hth : s.threads s.cur = some th) (th' : ThreadRec) {ready all : List Thread} {semas : Sema → Semaphore}
    (hst : th'.status ≠ .running) (hpc : th'.pc = th.pc ∨ (th.pc.isIdle = false ∧ th'.pc.isIdle = false))
    (hdy : th'.status = .dying → th.pc.isIdle = false) (hrnd : ready.Nodup)
    (hready : ∀ t, t ∈ ready ↔ t ∈ s.readyList ∨ (t = s.cur ∧ th'.status = .ready ∧ s.idleThread ≠ some s.cur))
    (hand : all.Nodup) (hall : ∀ t, t ∈ all ↔ t ∈ s.allList ∧ (t = s.cur → th'.status ≠ .dying))
    (hwnd : ∀ m, (semas m).waiters.Nodup)
    (hwait : ∀ m t, t ∈ (semas m).waiters → t ∈ (s.semas m).waiters ∨ (t = s.cur ∧ th'.status = .blocked ∧ th'.pc = .inDown m))
    (h : ({ s with threads := update s.threads s.cur (some th'), readyList := ready, allList := all, semas := semas } :
      Sched).schedule =
      some s') : SchedInv s' := by
  obtain ⟨hrun, hnr, hnw⟩ := hi.cur_free hth
  have hat := hi.threadAt hth
  refine SchedCore.schedule ?_ ?_ ?_ h
  · refine hi.toSchedCore.change rfl rfl rfl ⟨_, update_self ..⟩ (by simp) hrnd hand hwnd ?_ (fun u hu => ?_) ?_
    · refine ⟨by simp [hready, hnr, and_comm], by simp [hall, hat.all, hrun], fun m hm => ?_, fun hid => ?_,
        fun hp => ?_, fun hp => ?_⟩
      · exact ((hwait m s.cur hm).resolve_left (hnw m)).2
      all_goals grind [hat.idle, hat.started, hat.idleSet]
    · exact ⟨by simp [hready, hu], by simp [hall, hu], fun m hm => by simpa [hu] using hwait m u hm, .rfl⟩
    · grind [hi.idleOne]
  · grind [hi.running]
  · grind [hi.dying]

theorem threadBlock (h : s.threadBlock = some s') : SchedInv s' := by
  obtain ⟨th, hth, h⟩ := bind_eq_some_iff.mp h
  exact hi.switch hth { th with status := .blocked } (by simp) (.inl rfl)
    (by simp) hi.readyNodup (by simp) hi.allNodup (by simp) hi.waitersNodup (fun _ _ => .inl) h

theorem threadYield (h : s.threadYield = some s') : SchedInv s' := by
  obtain ⟨th, hth, h⟩ := bind_eq_some_iff.mp h
  have hnr := (hi.cur_free hth).2.1
  by_cases hidle : s.idleThread = some s.cur
  · rw [if_pos hidle] at h
    exact hi.switch hth { th with status := .ready } (by simp) (.inl rfl)
      (by simp) hi.readyNodup (by simp [hidle]) hi.allNodup (by simp) hi.waitersNodup (fun _ _ => .inl) h
  · rw [if_neg hidle] at h
    refine hi.switch hth { th with status := .ready } (by simp) (.inl rfl)
      (by simp) ?_ (by simp [hidle]) hi.allNodup (by simp) hi.waitersNodup (fun _ _ => .inl) h
    exact nodup_snoc hi.readyNodup hnr

/-- `thread_exit`, which the idle thread does not call. -/
theorem threadExit (hth : s.threads s.cur = some th) (hpc : th.pc.isIdle = false) (h : s.threadExit = some s') : SchedInv s' := by
  simp only [Sched.threadExit, hth, bind_eq_bind, bind_some] at h
  refine hi.switch hth { th with status := .dying } (by simp) (.inl rfl) (fun _ => hpc) hi.readyNodup (by simp)
    (hi.allNodup.erase _) (fun t => ?_) hi.waitersNodup (fun _ _ => .inl) h
  rw [hi.allNodup.mem_erase_iff]
  simp [and_comm]

/-- A pass of `sema_down`, which the idle thread does not call. -/
theorem down (hth : s.threads s.cur = some th) (hpc : th.pc.isIdle = false) (h : s.down m = some s') : SchedInv s' := by
  obtain ⟨hrun, hnr, hnw⟩ := hi.cur_free hth
  simp only [Sched.down, hth, bind_eq_bind, bind_some] at h
  rcases semaDown_cases (s.semas m) s.cur with ⟨-, hd⟩ | ⟨-, hd⟩
  · rw [hd] at h
    simp only [Sched.threadBlock, Sched.setThread, Sched.setSema, update_self, bind_eq_bind, bind_some, update_idem] at h
    refine hi.switch hth { th with status := .blocked, pc := .inDown m } (by simp) (.inr ⟨hpc, rfl⟩)
      (by simp) hi.readyNodup (by simp) hi.allNodup (by simp) (fun m' => ?_) (fun m' t => ?_) h
    · rcases eq_or_ne m' m with rfl | hne
      · rw [update_self]
        exact nodup_snoc (hi.waitersNodup m') (hnw m')
      · rw [update_of_ne hne]
        exact hi.waitersNodup m'
    · rcases eq_or_ne m' m with rfl | hne
      · simp only [update_self, mem_append, mem_singleton, and_true]
        exact id
      · rw [update_of_ne hne]
        exact .inl
  · rw [hd] at h
    cases h
    have hsame : ∀ m', (update s.semas m { s.semas m with value := (s.semas m).value - 1 } m').waiters = (s.semas m').waiters :=
      fun m' => by
        rcases eq_or_ne m' m with rfl | hne
        · rw [update_self]
        · rw [update_of_ne hne]
    have hat := hi.threadAt hth
    refine hi.change rfl (hi.toSchedCore.change rfl rfl rfl ⟨_, update_self ..⟩
      (by simp) hi.readyNodup hi.allNodup (fun m' => ?_) ?_
      (fun u hu => ⟨.rfl, .rfl, fun m' => by simp [setThread, setSema, hsame], .rfl⟩) (by simp [isIdle]))
      rfl rfl (by simp [hrun]) (by simp [hrun])
    · exact (hsame m').symm ▸ hi.waitersNodup m'
    · refine ⟨hat.ready, hat.all, fun m' hm => absurd ((hsame m').subst hm) (hnw m'), fun hid => ?_, by simp [isIdle],
        by simp [isIdle]⟩
      simpa [hpc] using hat.idle hid

/-- `thread_unblock`, of a thread that is on no semaphore's list and is not the idle thread. -/
theorem threadUnblock (hw : ∀ m, t ∉ (s.semas m).waiters) (hidle : s.idleThread ≠ some t)
    (h : s.threadUnblock t = some s') : SchedInv s' := by
  obtain ⟨th, hth, h⟩ := bind_eq_some_iff.mp h
  obtain ⟨hst, h⟩ := ite_none_right_eq_some.mp h
  cases h
  have hat := hi.threadAt hth
  have hnr : t ∉ s.readyList := by simp [hat.ready, hst]
  refine hi.change rfl (hi.toSchedCore.change rfl rfl rfl ?_ (by simp)
    (nodup_snoc hi.readyNodup hnr) hi.allNodup hi.waitersNodup ?_
    (fun u hu => ⟨by simp [setThread, hu], .rfl, fun _ => id, .rfl⟩) ?_) rfl rfl ?_ (by simp)
  · obtain ⟨cth, hcur⟩ := hi.cur
    simp only [setThread, update_apply]
    grind
  · exact ⟨by simp [setThread, hidle], by simpa [setThread, hst] using hat.all, fun m hm => absurd hm (hw m),
      fun hid => absurd hid hidle, hat.started, hat.idleSet⟩
  · grind [hi.idleOne]
  · have := hi.running t th hth
    simpa [hst] using this

/-- A semaphore gets another value, and keeps some of its waiters. -/
theorem setSema {sema : Semaphore} (hnd : sema.waiters.Nodup)
    (hsub : ∀ t, t ∈ sema.waiters → t ∈ (s.semas m).waiters) : SchedInv (s.setSema m sema) := by
  refine ⟨{ hi with
    waitersNodup := fun m' => ?_, placed := fun t => (hi.placed t).congr ⟨.rfl, .rfl, fun m' => ?_, .rfl⟩ id },
      hi.running, hi.dying⟩
  · rcases eq_or_ne m' m with rfl | hne
    · simpa [setSema] using hnd
    · simpa [Sched.setSema, hne] using hi.waitersNodup m'
  · rcases eq_or_ne m' m with rfl | hne
    · simpa [setSema] using hsub t
    · simp [Sched.setSema, hne]

theorem up (h : s.up m = some s') : SchedInv s' := by
  unfold Sched.up at h
  rcases semaUp_cases (s.semas m) with ⟨-, hu⟩ | ⟨t, rest, hcons, hu⟩
  · rw [hu] at h
    cases h
    exact hi.setSema (hi.waitersNodup m) (fun _ => id)
  rw [hu] at h
  have hnd := hi.waitersNodup m
  rw [hcons, nodup_cons] at hnd
  have hm : t ∈ (s.semas m).waiters := by rw [hcons]; exact mem_cons_self
  obtain ⟨th, hth, hat⟩ := hi.exists_of_listed (fun h => h.waiters m hm)
  have hpc := (hat.waiters m hm).2
  have hi1 : SchedInv (s.setSema m { value := (s.semas m).value + 1, waiters := rest }) :=
    hi.setSema hnd.2 (fun u hu => by rw [hcons]; exact mem_cons_of_mem _ hu)
  refine hi1.threadUnblock (fun m' hm' => ?_) (fun hid => ?_) h
  · -- a thread waits only on the semaphore that it is in `sema_down` of
    rcases eq_or_ne m' m with rfl | hne
    · exact hnd.1 (by simpa [Sched.setSema] using hm')
    · have hpc' := (hat.waiters m' (by simpa [Sched.setSema, hne] using hm')).2
      exact hne (inDown.inj (hpc'.symm.trans hpc))
  · simpa [hpc, isIdle] using hat.idle hid

/-- The idle thread takes a step of `idle` that neither blocks nor yields. -/
theorem setIdlePc {i : Option Thread} (hth : s.threads s.cur = some th) (hpc : th.pc.isIdle = true)
    (hpc' : pc.isIdle = true) (hid : i = some s.cur) :
    SchedInv { s.setThread s.cur { th with pc := pc } with idleThread := i } := by
  obtain ⟨hrun, hnr, hnw⟩ := hi.cur_free hth
  have hat := hi.threadAt hth
  have hone : ∀ t uh, s.threads t = some uh → uh.pc.isIdle = true → t = s.cur :=
    fun t uh ht hu => hi.idleOne t s.cur uh th ht hth hu hpc
  refine hi.change rfl (hi.toSchedCore.change rfl rfl rfl ⟨_, update_self ..⟩
    (by simp) hi.readyNodup hi.allNodup hi.waitersNodup ?_
    (fun u hu => ⟨.rfl, .rfl, fun _ => id, ?_⟩) (fun _ _ _ => hone)) rfl rfl (by simp [hrun]) (by simp [hrun])
  · exact ⟨by simp [setThread, hnr, hid], hat.all, fun m hm => absurd hm (hnw m), fun _ => ⟨hpc', by simp [hrun]⟩,
      fun _ => hat.started hpc, fun _ _ => hid⟩
  · -- only the running thread is in `idle`
    simp only [hid, some.injEq, hu.symm, false_iff]
    intro hu'
    obtain ⟨uh, huh, hat'⟩ := hi.exists_of_listed (fun h => h.idle hu')
    exact hu (hone u uh huh (hat'.idle hu').1)

/-- `thread_create`; the idle thread is made only by the first `thread_start`. -/
theorem create (hpc : pc = .own ∨ (pc = .idleStart ∧ s.started = true ∧ ∀ t th, s.threads t = some th → th.pc.isIdle = false))
    (h : s.create pc page = some s') : SchedInv s' := by
  cases page with
  | none => exact some.inj h ▸ hi
  | some page =>
    obtain ⟨hfree, h⟩ := ite_none_right_eq_some.mp h
    have hnew : OnNoList s page := by
      have hp := hi.placed page
      rw [hfree] at hp
      exact hp
    refine threadUnblock ?_ ?_ ?_ h
    rotate_left
    · exact hnew.waiters
    · exact hnew.idle
    refine hi.change rfl (hi.toSchedCore.change rfl rfl rfl ?_ (by simp) hi.readyNodup (nodup_snoc hi.allNodup hnew.all)
      hi.waitersNodup ?_ (fun u hu => ⟨.rfl, by simp [setThread, hu], fun _ => id, .rfl⟩) ?_) rfl rfl ?_ (by simp)
    · obtain ⟨cth, hcur⟩ := hi.cur
      simp only [setThread, update_apply]
      grind
    · refine ⟨by simp [setThread, hnew.ready], by simp [setThread], fun m hm => absurd hm (hnew.waiters m),
        fun hid => absurd hid hnew.idle, ?_, ?_⟩
      all_goals grind [isIdle, setThread]
    · grind [isIdle]
    · obtain ⟨cth, hcur⟩ := hi.cur
      grind

end

end SchedInv

/-! ## The steps -/

/-- A call of `thread_unblock` is for a thread that has put itself to sleep by `thread_block`: not for a waiter of a
semaphore, and not for the idle thread. -/
def UnblocksSleeper (s : Sched) : SchedAction → Prop
  | .threadUnblock t => (∀ m, t ∉ (s.semas m).waiters) ∧ s.idleThread ≠ some t
  | _ => True

/-- Every step that unblocks only sleepers keeps the invariant. -/
theorem SchedInv.step {s' : Sched} (hi : SchedInv s) (hg : UnblocksSleeper s a) (h : s.step a = some s') : SchedInv s' := by
  obtain ⟨th, hth, h⟩ := bind_eq_some_iff.mp h
  obtain ⟨hallow, h⟩ := ite_none_right_eq_some.mp h
  have hown : a ≠ .go → a ≠ .threadYield → (∀ t, a ≠ .threadUnblock t) → (∀ m, a ≠ .semaUp m) → (∀ m, a ≠ .semaTryDown m) →
      th.pc = .own := by
    cases hpc : th.pc <;> cases a <;> simp_all [allowed]
  have hnotIdle : th.pc = .own → th.pc.isIdle = false := fun h => by rw [h]; rfl
  cases a with
  | threadStart page =>
    obtain ⟨⟨-, hst⟩, h⟩ := ite_none_right_eq_some.mp h
    have hno : ∀ t th, s.threads t = some th → th.pc.isIdle = false := fun t th ht => by
      rw [← Bool.not_eq_true]
      exact fun hp => by simpa [hst] using (hi.threadAt ht).started hp
    have hi1 : SchedInv (s.setSema idleStarted (semaInit 0)) := hi.setSema nodup_nil (by simp)
    refine create (s := { s.setSema idleStarted (semaInit 0) with started := true }) ?_ (.inr ⟨rfl, rfl, hno⟩) h
    exact ⟨{ hi1 with placed := fun t => (hi1.placed t).congr ⟨.rfl, .rfl, fun _ => id, .rfl⟩ (fun _ => rfl) },
      hi1.running, hi1.dying⟩
  | threadCreate page => exact hi.create (.inl rfl) h
  | threadBlock => exact hi.threadBlock h
  | threadUnblock t => exact hi.threadUnblock hg.1 hg.2 h
  | threadYield => exact hi.threadYield h
  | threadExit => exact hi.threadExit hth (hnotIdle (hown nofun nofun nofun nofun nofun)) h
  | semaInit m v =>
    cases h
    exact hi.setSema nodup_nil (by simp)
  | semaDown m => exact hi.down hth (hnotIdle (hown nofun nofun nofun nofun nofun)) h
  | semaTryDown m =>
    cases h
    rcases semaTryDown_cases (s.semas m) with ⟨-, hd⟩ | ⟨-, hd⟩ <;> rw [hd] <;> exact hi.setSema (hi.waitersNodup m) (fun _ => id)
  | semaUp m => exact hi.up h
  | go =>
    simp only [go] at h
    cases hpc : th.pc with
    | own => rw [hpc] at h; cases h
    | inDown m =>
      rw [hpc] at h
      exact hi.down hth (by rw [hpc]; rfl) h
    | idleStart =>
      rw [hpc] at h
      cases h
      exact hi.setIdlePc hth (by rw [hpc]; rfl) rfl rfl
    | idleUp =>
      rw [hpc] at h
      have hid := (hi.threadAt hth).idleSet (by rw [hpc]; rfl) (by simp [hpc])
      refine up ?_ h
      exact hi.setIdlePc hth (by rw [hpc]; rfl) rfl hid
    | idleLoop =>
      rw [hpc] at h
      exact hi.threadBlock h

theorem SchedInv.start (page : Thread) (value : Sema → UInt32) : SchedInv (Sched.start page value) := by
  have hone : ∀ t th, (Sched.start page value).threads t = some th → t = page ∧
    th = { status := .running, pc := .own, birth := 0 } :=
    fun t th h => by
      rcases eq_or_ne t page with rfl | hne
      · simp only [Sched.start, update_self, some.injEq] at h
        exact ⟨rfl, h.symm⟩
      · simp [Sched.start, hne] at h
  have hpage : (Sched.start page value).threads page = some { status := .running, pc := .own, birth := 0 } := by
    simp [Sched.start]
  refine ⟨⟨⟨_, hpage⟩, ⟨_, hpage⟩, nodup_nil, nodup_singleton page, fun m => nodup_nil, fun t => ?_,
    fun t u th uh ht hu _ _ => ?_⟩, fun t th ht => ?_, fun t th ht _ => (hone t th ht).1⟩
  · rcases eq_or_ne t page with rfl | hne
    · rw [hpage]
      exact ⟨by simp [Sched.start], by simp [Sched.start], by simp [Sched.start], by simp [Sched.start], by simp [isIdle],
        by simp [isIdle]⟩
    · rw [show (Sched.start page value).threads t = none by simp [Sched.start, hne]]
      exact ⟨by simp [Sched.start], by simp [Sched.start, hne], by simp [Sched.start], by simp [Sched.start]⟩
  · rw [(hone t th ht).1, (hone u uh hu).1]
  · rw [(hone t th ht).2]
    simpa [Sched.start] using (hone t th ht).1

/-! ## Threads made and threads freed -/

/-- Which thread a page holds. -/
def Sched.births (s : Sched) (t : Thread) : Option Nat := (s.threads t).map (·.birth)

/-- What the bookkeeping reads besides. -/
def Sched.ledger (s : Sched) : Nat × List (Nat × Nat) × Thread × List Thread := (s.born, s.freed, s.initialThread, s.allList)

/-- No two pages hold the same thread, and a thread that was freed, once and by another thread, has no page. The first thread
has the page `p`, and where `d` holds it has exited. -/
structure BirthInv (p : Thread) (d : Prop) (s : Sched) : Prop where
  lt : ∀ t b, s.births t = some b → b < s.born
  inj : ∀ t u b, s.births t = some b → s.births u = some b → t = u
  nodup : (s.freed.map Prod.fst).Nodup
  gone : ∀ b ∈ s.freed.map Prod.fst, b < s.born ∧ ∀ t, s.births t ≠ some b
  byOther : ∀ p ∈ s.freed, p.1 ≠ p.2
  page : s.initialThread = p
  initial : s.births p = some 0
  exited : d → p ∉ s.allList

/-- A page that holds a thread goes on holding it when its record changes otherwise. -/
theorem Sched.births_update {th : ThreadRec} (ht : s.threads t = some th) (th' : ThreadRec)
    (hb : th'.birth = th.birth) (u : Thread) : (update s.threads t (some th') u).map (·.birth) = s.births u := by
  rcases eq_or_ne u t with rfl | hne
  · rw [update_self, births, ht, map_some, map_some, hb]
  · rw [update_of_ne hne, births]

namespace BirthInv

variable {s s' : Sched} {th : ThreadRec} {p : Thread} {d : Prop}

section

variable (hi : BirthInv p d s)
include hi

/-- What neither makes nor frees a thread. -/
theorem congr (hb : ∀ t, s'.births t = s.births t) (hl : s'.ledger = s.ledger) : BirthInv p d s' := by
  simp only [ledger, Prod.mk.injEq] at hl
  obtain ⟨hborn, hfreed, hini, hall⟩ := hl
  constructor
  all_goals simp only [hb, hborn, hfreed, hini, hall]
  exacts [hi.lt, hi.inj, hi.nodup, hi.gone, hi.byOther, hi.page, hi.initial, hi.exited]

/-- `schedule` frees at most the thread it comes from, and that is then another than the running one. -/
theorem schedule (h : s.schedule = some s') : BirthInv p d s' := by
  obtain ⟨th, n, nth, rest, hth, -, hnth, -, hs'⟩ := schedule_cases h
  have hb1 : ∀ u, (update s.threads n (some { nth with status := .running }) u).map (·.birth) = s.births u :=
    fun u => births_update hnth { nth with status := .running } rfl u
  rcases hs' with ⟨-, hini, hne, rfl⟩ | ⟨-, rfl⟩
  · have hcur : s.births s.cur = some th.birth := by rw [births, hth]; rfl
    have hn : s.births n = some nth.birth := by rw [births, hnth]; rfl
    -- after the switch the page of the dying thread holds nothing, and the others hold what they held
    have hlive : ∀ u b, births (freePage
        (setThread { s with readyList := rest, cur := n } n { nth with status := .running }) s.cur th nth) u = some b ↔
          u ≠ s.cur ∧ s.births u = some b := fun u b => by
      rw [← hb1 u]
      rcases eq_or_ne u s.cur with rfl | hu
      · simp [births, freePage]
      · simp [births, freePage, setThread, hu]
    refine ⟨fun t b ht => hi.lt t b ((hlive t b).mp ht).2, fun t u b ht hu => ?_, ?_, forall_mem_cons.mpr ⟨?_, fun b hb => ?_⟩,
      fun q hq => ?_, hi.page, (hlive p 0).mpr ⟨fun he => hini (by rw [hi.page, he]), hi.initial⟩, hi.exited⟩
    · exact hi.inj t u b ((hlive t b).mp ht).2 ((hlive u b).mp hu).2
    · exact nodup_cons.mpr ⟨fun hm => (hi.gone _ hm).2 s.cur hcur, hi.nodup⟩
    · refine ⟨hi.lt s.cur _ hcur, fun t ht => ?_⟩
      obtain ⟨hu, ht⟩ := (hlive t _).mp ht
      exact hu (hi.inj t s.cur _ ht hcur)
    · exact ⟨(hi.gone b hb).1, fun t ht => (hi.gone b hb).2 t ((hlive t b).mp ht).2⟩
    · rcases mem_cons.mp hq with rfl | hq
      · exact fun he => hne (hi.inj s.cur n th.birth hcur (by rw [hn]; exact congrArg some he.symm))
      · exact hi.byOther q hq
  · exact hi.congr hb1 rfl

/-- A thread's record changes, and perhaps the run queue, before `schedule`. -/
theorem switch {s1 : Sched} (h : s1.schedule = some s') (hth : s.threads s.cur = some th) (th' : ThreadRec)
    (hb : th'.birth = th.birth) (ht : s1.threads = update s.threads s.cur (some th')) (hl : s1.ledger = s.ledger) :
    BirthInv p d s' := by
  have hi1 : BirthInv p d s1 := hi.congr (fun u => by rw [births, ht]; exact births_update hth th' hb u) hl
  exact hi1.schedule h

/-- `thread_exit`, after which the initial thread has exited if it was the one. -/
theorem threadExit {d' : Prop} (hexit : d' → d ∨ p = s.cur) (hall : s.allList.Nodup) (h : s.threadExit = some s') :
    BirthInv p d' s' := by
  obtain ⟨th, hth, h⟩ := bind_eq_some_iff.mp h
  have hi1 : BirthInv p d' { s with allList := s.allList.erase s.cur } :=
    ⟨hi.lt, hi.inj, hi.nodup, hi.gone, hi.byOther, hi.page, hi.initial, fun hd hm => by
      obtain ⟨hne, hm⟩ := hall.mem_erase_iff.mp hm
      exact (hexit hd).elim (fun h => hi.exited h hm) hne⟩
  exact hi1.switch h hth { th with status := .dying } rfl rfl rfl

theorem threadBlock (h : s.threadBlock = some s') : BirthInv p d s' := by
  obtain ⟨th, hth, h⟩ := bind_eq_some_iff.mp h
  exact hi.switch h hth { th with status := .blocked } rfl rfl rfl

theorem threadUnblock (h : s.threadUnblock t = some s') : BirthInv p d s' := by
  obtain ⟨th, hth, h⟩ := bind_eq_some_iff.mp h
  obtain ⟨-, h⟩ := ite_none_right_eq_some.mp h
  cases h
  exact hi.congr (fun u => births_update hth { th with status := .ready } rfl u) rfl

theorem up (h : s.up m = some s') : BirthInv p d s' := by
  unfold Sched.up at h
  rcases semaUp_cases (s.semas m) with ⟨-, hu⟩ | ⟨t, rest, -, hu⟩
  · rw [hu] at h
    cases h
    exact hi.congr (fun _ => rfl) rfl
  · rw [hu] at h
    have hi1 : BirthInv p d (s.setSema m { value := (s.semas m).value + 1, waiters := rest }) := hi.congr (fun _ => rfl) rfl
    exact hi1.threadUnblock h

theorem down (h : s.down m = some s') : BirthInv p d s' := by
  obtain ⟨th, hth, h⟩ := bind_eq_some_iff.mp h
  rcases semaDown_cases (s.semas m) s.cur with ⟨-, hd⟩ | ⟨-, hd⟩
  · rw [hd] at h
    refine threadBlock ?_ h
    exact hi.congr (fun u => births_update hth { th with pc := .inDown m } rfl u) rfl
  · rw [hd] at h
    cases h
    exact hi.congr (fun u => births_update hth { th with pc := .own } rfl u) rfl

/-- `thread_create` on a free page. -/
theorem create (h : s.create pc page = some s') : BirthInv p d s' := by
  cases page with
  | none => exact some.inj h ▸ hi
  | some page =>
    obtain ⟨hfree, h⟩ := ite_none_right_eq_some.mp h
    refine threadUnblock ?_ h
    have hlive : ∀ u b, births (setThread { s with allList := s.allList ++ [page], born := s.born + 1 } page
        { status := .blocked, pc := pc, birth := s.born }) u = some b ↔ (u = page ∧ b = s.born) ∨
        s.births u = some b := fun u b => by
      rcases eq_or_ne u page with rfl | hu
      · simp [births, setThread, hfree, eq_comm]
      · simp [births, setThread, hu]
    refine ⟨fun t b ht => ?_, fun t u b ht hu => ?_, hi.nodup, fun b hb => ?_, hi.byOther, hi.page,
      (hlive p 0).mpr (.inr hi.initial), fun hd hm => ?_⟩
    · rcases (hlive t b).mp ht with ⟨-, rfl⟩ | ht
      · exact Nat.lt_succ_self _
      · exact Nat.lt_succ_of_lt (hi.lt t b ht)
    · rcases (hlive t b).mp ht with ⟨rfl, hb⟩ | ht' <;> rcases (hlive u b).mp hu with ⟨rfl, hb⟩ | hu'
      · rfl
      · exact absurd (hi.lt u b hu') (by omega)
      · exact absurd (hi.lt t b ht') (by omega)
      · exact hi.inj t u b ht' hu'
    · obtain ⟨hlt, hno⟩ := hi.gone b hb
      refine ⟨Nat.lt_succ_of_lt hlt, fun t ht => ?_⟩
      rcases (hlive t b).mp ht with ⟨-, rfl⟩ | ht
      · exact Nat.lt_irrefl _ hlt
      · exact hno t ht
    · -- the page of the first thread is not free
      rcases mem_append.mp hm with hm | hm
      · exact hi.exited hd hm
      · have := hi.initial
        rw [mem_singleton.mp hm, births, hfree] at this
        cases this

theorem step (hall : s.allList.Nodup) (h : s.step a = some s') : BirthInv p d s' := by
  obtain ⟨th, hth, h⟩ := bind_eq_some_iff.mp h
  obtain ⟨-, h⟩ := ite_none_right_eq_some.mp h
  cases a with
  | threadStart page =>
    obtain ⟨-, h⟩ := ite_none_right_eq_some.mp h
    have hi1 : BirthInv p d { s.setSema idleStarted (semaInit 0) with started := true } := hi.congr (fun _ => rfl) rfl
    exact hi1.create h
  | threadCreate page => exact hi.create h
  | threadBlock => exact hi.threadBlock h
  | threadUnblock t => exact hi.threadUnblock h
  | threadYield =>
    simp only [threadYield, hth, bind_eq_bind, bind_some] at h
    refine hi.switch h hth { th with status := .ready } rfl ?_ ?_ <;> split <;> rfl
  | threadExit => exact hi.threadExit .inl hall h
  | semaInit m v | semaTryDown m =>
    cases h
    exact hi.congr (fun _ => rfl) rfl
  | semaDown m => exact hi.down h
  | semaUp m => exact hi.up h
  | go =>
    simp only [go] at h
    cases hpc : th.pc with
    | own => rw [hpc] at h; cases h
    | inDown m => rw [hpc] at h; exact hi.down h
    | idleStart =>
      rw [hpc] at h
      cases h
      exact hi.congr (fun u => births_update hth { th with pc := .idleUp } rfl u) rfl
    | idleUp =>
      rw [hpc] at h
      have hi1 : BirthInv p d (s.setThread s.cur { th with pc := .idleLoop }) :=
        hi.congr (fun u => births_update hth { th with pc := .idleLoop } rfl u) rfl
      exact hi1.up h
    | idleLoop => rw [hpc] at h; exact hi.threadBlock h

end

/-- At the start there is one thread. -/
theorem start (page : Thread) (value : Sema → UInt32) : BirthInv page False (start page value) := by
  have hpage : (Sched.start page value).births page = some 0 := by simp [Sched.births, Sched.start]
  have hone : ∀ t b, (Sched.start page value).births t = some b → t = page ∧ b = 0 := fun t b h => by
    rcases eq_or_ne t page with rfl | hne
    · rw [hpage, some.injEq] at h
      exact ⟨rfl, h.symm⟩
    · simp [Sched.births, Sched.start, hne] at h
  refine ⟨fun t b h => ?_, fun t u b h1 h2 => ?_, nodup_nil, by simp [Sched.start], by simp [Sched.start], rfl, hpage, False.elim⟩
  · rw [(hone t b h).2]
    exact Nat.one_pos
  · rw [(hone t b h1).1, (hone u b h2).1]

end BirthInv

end Pintos
