import Pintos.Devices.Ide
import Pintos.Library.Ownership

/-!
# The completion interrupts of a disk

`expecting_interrupt` becomes true with the first command and nothing makes it false again. From then on the handler raises
`completion_wait` for every interrupt, whether or not a command is outstanding. Where every interrupt is the first since the
command of an operation that has yet to go through its `sema_down`, every `sema_down` waits for the operation's own
interrupt.

The account of a channel is how far each operation is, and the numbers. Every step of the driver is a step of the account.
-/

namespace Pintos

open IdeState IdePc Function

/-! ## The account of a channel -/

/-- How far the operation of a thread is. -/
inductive IdeStage where
  /-- The thread does not have the semaphore of the lock. -/
  | out
  /-- It has it, and is not the holder yet. -/
  | taken
  /-- It is the holder, and expects no interrupt yet. -/
  | ready
  /-- It expects an interrupt, and its command is not out. -/
  | armed
  /-- Its command is out and its `sema_down` is not done. -/
  | waiting
  /-- Its `sema_down` is done. -/
  | finishing
  /-- It is no longer the holder. -/
  | releasing
  deriving DecidableEq, Repr

def IdePc.stage : IdePc → IdeStage
  | .outside | .lockAsleep | .lockWoken => .out
  | .setHolder => .taken
  | .select | .expect => .ready
  | .command => .armed
  | .output | .down | .downAsleep => .waiting
  | .input | .clearHolder => .finishing
  | .release => .releasing

/-- The operations of the threads, the two semaphores, the holder of the lock, and what is counted. -/
structure IdeAccount where
  stage : Thread → IdeStage
  lockValue : UInt32
  holder : Option Thread
  expecting : Bool
  wait : UInt32
  issued : Nat
  since : Nat
  unmatched : Nat

def IdeState.account (s : IdeState) : IdeAccount where
  stage t := (s.threads t).stage
  lockValue := s.channel.lock.semaphore.value
  holder := s.channel.lock.holder
  expecting := s.channel.expectingInterrupt
  wait := s.channel.completionWait.value
  issued := s.issued
  since := s.since
  unmatched := s.unmatched

namespace IdeAccount

/-- The account with one operation at another stage. -/
def move (a : IdeAccount) (t : Thread) (stage : IdeStage) : IdeAccount := { a with stage := update a.stage t stage }

@[simp] theorem move_self (a : IdeAccount) (t : Thread) (stage : IdeStage) : (a.move t stage).stage t = stage := update_self ..

theorem move_ne (a : IdeAccount) {t u : Thread} (h : u ≠ t) (stage : IdeStage) : (a.move t stage).stage u = a.stage u :=
  update_of_ne h ..

/-- A thread goes on between stages that are not the one in question. -/
theorem stage_iff {a b : IdeAccount} {t : Thread} {stage x : IdeStage} (hfrom : a.stage t ≠ x) (hto : stage ≠ x)
    (hb : b.stage = (a.move t stage).stage) (u : Thread) : b.stage u = x ↔ a.stage u = x := by
  rw [hb]
  by_cases hut : u = t
  · rw [hut, move_self]
    exact ⟨fun hu => absurd hu hto, fun hu => absurd hu hfrom⟩
  · rw [move_ne a hut]

/-- A step of the account. The mark says whether it is an interrupt. -/
inductive Step (a : IdeAccount) : Bool → IdeAccount → Prop where
  /-- Threads sleep, wake up or get on within a stage, or there is a fault. -/
  | stutter : a.Step false a
  | take (t : Thread) (h : a.stage t = .out) (hv : a.lockValue ≠ 0) :
    a.Step false ({ a with lockValue := a.lockValue - 1 }.move t .taken)
  | hold (t : Thread) (h : a.stage t = .taken) : a.Step false ({ a with holder := some t }.move t .ready)
  | expect (t : Thread) (h : a.stage t = .ready) : a.Step false ({ a with expecting := true }.move t .armed)
  | command (t : Thread) (h : a.stage t = .armed) : a.Step false ({ a with issued := a.issued + 1, since := 0 }.move t .waiting)
  | down (t : Thread) (h : a.stage t = .waiting) (hv : a.wait ≠ 0) :
      a.Step false
      ({ a with wait := a.wait - 1, unmatched := if a.since = 0 then a.unmatched + 1 else a.unmatched }.move t .finishing)
  | clear (t : Thread) (h : a.stage t = .finishing) : a.Step false ({ a with holder := none }.move t .releasing)
  | release (t : Thread) (h : a.stage t = .releasing) : a.Step false ({ a with lockValue := a.lockValue + 1 }.move t .out)
  /-- An interrupt that is not expected. -/
  | ignore (h : a.expecting = false) : a.Step true a
  | interrupt (h : a.expecting = true) : a.Step true { a with wait := a.wait + 1, since := a.since + 1 }

end IdeAccount

namespace IdeState

variable {s s' : IdeState}

theorem account_setPc (s : IdeState) (t : Thread) (pc : IdePc) : (s.setPc t pc).account = s.account.move t pc.stage := by
  have hstage : (s.setPc t pc).account.stage = (s.account.move t pc.stage).stage := by
    funext u
    by_cases hu : u = t
    · rw [hu, IdeAccount.move_self]
      exact congrArg stage (update_self ..)
    · rw [IdeAccount.move_ne _ hu]
      exact congrArg stage (update_of_ne hu ..)
  exact congrArg (fun stage => { s.account with stage := stage }) hstage

/-- A thread that gets on within its stage does not change the account. -/
theorem account_within (s : IdeState) {t : Thread} {pc : IdePc} (h : pc.stage = (s.threads t).stage) :
    (s.setPc t pc).account = s.account := by
  rw [account_setPc]
  exact congrArg (fun stage => { s.account with stage := stage })
    ((congrArg (update s.account.stage t) h).trans (update_eq_self ..))

/-- A thread that is unblocked stays within its stage. -/
theorem account_unblock (s : IdeState) (u : Thread) {asleep awake : IdePc} (h : awake.stage = asleep.stage) :
    (s.unblock u asleep awake).account = s.account := by
  unfold unblock
  split
  · rename_i hu
    exact s.account_within (h.trans (congrArg stage hu.symm))
  · rfl

/-! ## Every step of the driver is a step of the account -/

theorem acquire_step (s : IdeState) {t : Thread} (ht : (s.threads t).stage = .out) :
    s.account.Step false (s.acquire t).account := by
  unfold acquire
  rcases semaDown_cases s.channel.lock.semaphore t with ⟨-, hdown⟩ | ⟨hv, hdown⟩
  · simp only [hdown]
    rw [account_within]
    · exact .stutter
    · exact ht.symm
  · simp only [hdown]
    rw [account_setPc]
    exact .take t ht hv

theorem down_step (s : IdeState) {t : Thread} (ht : s.threads t = .down) : s.account.Step false (s.down t).account := by
  have hstage : (s.threads t).stage = .waiting := by rw [ht]; rfl
  unfold down
  rcases semaDown_cases s.channel.completionWait t with ⟨-, hdown⟩ | ⟨hv, hdown⟩
  · simp only [hdown]
    rw [account_within]
    · exact .stutter
    · exact hstage.symm
  · simp only [hdown]
    have hnext : (s.ops t).kind.afterDown.stage = .finishing := by cases (s.ops t).kind <;> rfl
    rw [account_setPc, hnext]
    exact .down t hstage hv

theorem command_step (s : IdeState) {t : Thread} (ht : s.threads t = .command) : s.account.Step false (s.command t).account := by
  have hnext : (s.ops t).kind.afterCommand.stage = .waiting := by cases (s.ops t).kind <;> rfl
  unfold command
  rw [account_setPc, hnext]
  exact .command t (congrArg stage ht)

theorem release_step (s : IdeState) {t : Thread} (ht : s.threads t = .release) : s.account.Step false (s.release t).account := by
  have hstage : s.account.stage t = .releasing := congrArg stage ht
  unfold release
  rcases semaUp_cases s.channel.lock.semaphore with ⟨-, hup⟩ | ⟨u, rest, -, hup⟩
  · simp only [hup]
    rw [account_setPc]
    exact .release t hstage
  · simp only [hup]
    rw [account_unblock, account_setPc]
    · exact .release t hstage
    · rfl

theorem interruptHandler_step (s : IdeState) : s.account.Step true s.interruptHandler.account := by
  unfold interruptHandler
  split
  · rename_i hexp
    rcases semaUp_cases s.channel.completionWait with ⟨-, hup⟩ | ⟨u, rest, -, hup⟩
    · simp only [hup]
      exact .interrupt hexp
    · simp only [hup]
      rw [account_unblock]
      · exact .interrupt hexp
      · rfl
  · rename_i hexp
    exact .ignore (Bool.eq_false_iff.mpr hexp)

theorem run_step {t : Thread} {ready : Bool} (h : s.run t ready = some s') : s.account.Step false s'.account := by
  have hwithin : ∀ {pc : IdePc}, pc.stage = (s.threads t).stage → s.account.Step false (s.setPc t pc).account := by
    intro pc hpc
    rw [account_within s hpc]
    exact .stutter
  unfold run at h
  obtain ⟨pc, hpc⟩ : ∃ pc, s.threads t = pc := ⟨_, rfl⟩
  rw [hpc] at h
  cases pc with
  | outside | lockAsleep | downAsleep => cases h
  | lockWoken =>
    cases h
    exact s.acquire_step (congrArg stage hpc)
  | setHolder =>
    cases h
    rw [account_setPc]
    exact .hold t (congrArg stage hpc)
  | select | output | input =>
    cases h
    split
    · exact hwithin (by rw [hpc]; rfl)
    · exact .stutter
  | expect =>
    cases h
    unfold expect
    rw [account_setPc]
    exact .expect t (congrArg stage hpc)
  | command =>
    cases h
    exact s.command_step hpc
  | down =>
    cases h
    exact s.down_step hpc
  | clearHolder =>
    cases h
    split
    · rw [account_setPc]
      exact .clear t (congrArg stage hpc)
    · exact .stutter
  | release =>
    cases h
    exact s.release_step hpc

/-- The driver follows the account. -/
theorem step_account {a : IdeAction} (h : s.step a = some s') : s.account.Step (decide (a = .interrupt)) s'.account := by
  unfold step at h
  split at h
  · cases h
  cases a with
  | call t op =>
    simp only at h
    split at h
    · rename_i ht
      cases h
      unfold call
      simp only
      split
      · exact .stutter
      · exact acquire_step { s with ops := update s.ops t op } (congrArg stage ht)
    · cases h
  | run t ready => exact run_step h
  | interrupt =>
    cases h
    exact s.interruptHandler_step

end IdeState

/-! ## What the account keeps -/

namespace IdeAccount

variable {a b : IdeAccount} {mark : Bool}

/-- The stages at which the thread is recorded as the holder of the lock. -/
def isHolder : IdeStage → Bool
  | .ready | .armed | .waiting | .finishing => true
  | .out | .taken | .releasing => false

/-- One thread at most is past the semaphore of the lock, and it is the holder where it should be. -/
structure Locked (a : IdeAccount) : Prop where
  exclusive : Ownership.Exclusive (fun t (_ : Unit) => a.stage t ≠ .out)
  taken : ∀ t, a.stage t ≠ .out → a.lockValue = 0
  value : a.lockValue = 0 ∨ a.lockValue = 1
  holder : ∀ t, isHolder (a.stage t) = true → a.holder = some t

/-- Another thread than the one past the semaphore is out. -/
theorem Locked.others (h : a.Locked) {t u : Thread} (ht : a.stage t ≠ .out) (hu : u ≠ t) : a.stage u = .out := by
  by_contra hout
  exact hu (h.exclusive u t () hout ht)

/-- One thread has the lock and the others are out. -/
theorem Locked.of_one {t : Thread} (hothers : ∀ u, u ≠ t → a.stage u = .out) (hlock : a.lockValue = 0)
    (hholder : isHolder (a.stage t) = true → a.holder = some t) : a.Locked := by
  refine ⟨.of_one (fun u _ hu => not_not.mp (fun hne => hu (hothers u hne))), fun _ _ => hlock, .inl hlock, fun u hu => ?_⟩
  by_cases hut : u = t
  · rw [hut] at hu ⊢
    exact hholder hu
  · rw [hothers u hut] at hu
    cases hu

theorem Locked.move (h : a.Locked) {t : Thread} {stage : IdeStage} (ht : a.stage t ≠ .out) (hb : b.stage = (a.move t stage).stage)
    (hlock : b.lockValue = a.lockValue) (hholder : isHolder stage = true → b.holder = some t) : b.Locked := by
  refine Locked.of_one (t := t) (fun u hu => ?_) (hlock.trans (h.taken t ht)) ?_
  · rw [hb, move_ne a hu]
    exact h.others ht hu
  · rw [hb, move_self]
    exact hholder

theorem Locked.step (h : a.Locked) (hs : a.Step mark b) : b.Locked := by
  cases hs with
  | stutter | ignore _ | interrupt _ => exact { h with }
  | take t ht hv =>
    refine Locked.of_one (t := t) (fun u hu => ?_) ?_ (fun hholder => ?_)
    · rw [move_ne _ hu]
      by_contra hout
      exact hv (h.taken u hout)
    · rw [h.value.resolve_left hv]
      rfl
    · rw [move_self] at hholder
      cases hholder
  | hold t ht => exact h.move (by rw [ht]; decide) rfl rfl (fun _ => rfl)
  | expect t ht | command t ht | down t ht hv => exact h.move (by rw [ht]; decide) rfl rfl (fun _ => h.holder t (by rw [ht]; rfl))
  | clear t ht => exact h.move (by rw [ht]; decide) rfl rfl nofun
  | release t ht =>
    have hpast : a.stage t ≠ .out := by
      rw [ht]
      decide
    have hout : ∀ u, ({ a with lockValue := a.lockValue + 1 }.move t .out).stage u = .out := by
      intro u
      by_cases hut : u = t
      · rw [hut, move_self]
      · rw [move_ne _ hut]
        exact h.others hpast hut
    refine ⟨.of_one (o := t) (fun u _ hu => absurd (hout u) hu), fun u hu => absurd (hout u) hu, .inr ?_, fun u hu => ?_⟩
    · rw [h.taken t hpast]
      rfl
    · rw [hout u] at hu
      cases hu

/-- Before the first command nothing has been counted, and an interrupt is expected only while a thread is about to issue
it. -/
structure Begun (a : IdeAccount) : Prop where
  expecting : a.issued ≠ 0 ∨ (∃ t, a.stage t = .armed) → a.expecting = true
  unmatched : a.issued = 0 → a.unmatched = 0
  waiting : a.issued = 0 → ∀ t, a.stage t ≠ .waiting
  quiet : a.issued = 0 → (∃ t, a.stage t = .armed) ∨ (a.expecting = false ∧ a.wait = 0)

/-- Once a command is out only the flag counts. -/
theorem Begun.of_issued (hissued : a.issued ≠ 0) (hexp : a.expecting = true) : a.Begun :=
  ⟨fun _ => hexp, fun h => absurd h hissued, fun h => absurd h hissued, fun h => absurd h hissued⟩

/-- A thread goes on between stages that have no part in this. -/
theorem Begun.move (h : a.Begun) {t : Thread} {stage : IdeStage} (hfrom : a.stage t ≠ .armed)
    (hto : stage ≠ .waiting ∧ stage ≠ .armed)
    (hb : b.stage = (a.move t stage).stage) (hissued : b.issued = a.issued) (hunmatched : b.unmatched = a.unmatched)
    (hexp : b.expecting = a.expecting) (hwait : b.wait = a.wait) : b.Begun := by
  have harmed := stage_iff hfrom hto.2 hb
  refine ⟨?_, ?_, fun hzero u => ?_, ?_⟩
  · simp only [harmed, hissued, hexp]
    exact h.expecting
  · rw [hissued, hunmatched]
    exact h.unmatched
  · have hnot := h.waiting (hissued ▸ hzero)
    exact (stage_iff (hnot t) hto.1 hb u).not.mpr (hnot u)
  · simp only [harmed, hissued, hexp, hwait]
    exact h.quiet

/-- What is counted, over one step. -/
theorem Begun.step (h : a.Begun) (hs : a.Step mark b) : b.Begun := by
  cases hs with
  | stutter | ignore _ => exact h
  | take t ht _ | hold t ht | clear t ht | release t ht => exact h.move (by rw [ht]; decide) (by decide) rfl rfl rfl rfl rfl
  | expect t ht =>
    refine ⟨fun _ => rfl, h.unmatched, fun hzero u => ?_, fun _ => .inl ⟨t, move_self _ _ _⟩⟩
    exact (stage_iff (h.waiting hzero t) (by decide) rfl u).not.mpr (h.waiting hzero u)
  | command t ht => exact .of_issued (Nat.succ_ne_zero _) (h.expecting (.inr ⟨t, ht⟩))
  | down t ht _ =>
    have hissued : a.issued ≠ 0 := fun hzero => h.waiting hzero t ht
    exact .of_issued hissued (h.expecting (.inl hissued))
  | interrupt hexp =>
    refine { h with quiet := fun hzero => .inl ?_ }
    rcases h.quiet hzero with harmed | ⟨hnot, -⟩
    · exact harmed
    · rw [hexp] at hnot
      cases hnot

/-- With interrupts on time: the semaphore counts the interrupt of the command that is outstanding, and nothing else. -/
structure Timely (a : IdeAccount) : Prop where
  unmatched : a.unmatched = 0
  since : (∃ t, a.stage t = .waiting) → a.since ≤ 1 ∧ a.wait = UInt32.ofNat a.since
  idle : (∀ t, a.stage t ≠ .waiting) → a.wait = 0

/-- A step on time. -/
def OnTime (a : IdeAccount) (mark : Bool) : Prop :=
  mark = true → a.expecting = true → (∃ t, a.stage t = .waiting) ∧ a.since = 0

theorem Timely.step (h : a.Timely) (hlock : a.Locked) (hon : a.OnTime mark) (hs : a.Step mark b) : b.Timely := by
  have hmove : ∀ {t : Thread} {stage : IdeStage} {b : IdeAccount}, a.stage t ≠ .waiting → stage ≠ .waiting →
      b.stage = (a.move t stage).stage → b.unmatched = a.unmatched → b.since = a.since → b.wait = a.wait → b.Timely := by
    intro t stage b hfrom hto hb hunmatched hsince hwait
    have hwaiting := stage_iff hfrom hto hb
    refine ⟨hunmatched.trans h.unmatched, ?_, ?_⟩
    · simp only [hwaiting, hsince, hwait]
      exact h.since
    · simp only [ne_eq, hwaiting, hwait]
      exact h.idle
  cases hs with
  | stutter | ignore _ => exact h
  | take t ht _ | hold t ht | expect t ht | clear t ht | release t ht =>
    exact hmove (by rw [ht]; decide) (by decide) rfl rfl rfl rfl
  | command t ht =>
    have hnone : ∀ u, a.stage u ≠ .waiting := by
      intro u hu
      by_cases hut : u = t
      · rw [hut, ht] at hu
        cases hu
      · rw [hlock.others (by rw [ht]; decide) hut] at hu
        cases hu
    exact ⟨h.unmatched, fun _ => ⟨Nat.zero_le _, h.idle hnone⟩, fun hall => absurd (move_self _ t .waiting) (hall t)⟩
  | down t ht hv =>
    obtain ⟨hle, hwait⟩ := h.since ⟨t, ht⟩
    have hone : a.since = 1 := by
      rcases Nat.le_one_iff_eq_zero_or_eq_one.mp hle with hzero | hone
      · rw [hzero] at hwait
        exact absurd hwait hv
      · exact hone
    refine ⟨?_, ?_, fun _ => ?_⟩
    · rw [hone, if_neg (by decide)]
      exact h.unmatched
    · rintro ⟨u, hu⟩
      by_cases hut : u = t
      · rw [hut, move_self] at hu
        cases hu
      · rw [move_ne _ hut, show _ = _ from hlock.others (by rw [ht]; decide) hut] at hu
        cases hu
    · rw [hwait, hone]
      rfl
  | interrupt hexp =>
    obtain ⟨hwaiting, hzero⟩ := hon rfl hexp
    refine ⟨h.unmatched, fun _ => ⟨?_, ?_⟩, fun hall => ?_⟩
    · show a.since + 1 ≤ 1
      omega
    · rw [(h.since hwaiting).2, hzero]
      rfl
    · obtain ⟨t, ht⟩ := hwaiting
      exact absurd ht (hall t)

end IdeAccount

/-! ## Every run of the driver -/

namespace IdeState

/-- What the comments on `struct channel` promise ("true if an interrupt is expected, false if any interrupt would be
spurious", "up'd by interrupt handler"): with the lock free no interrupt is expected and `completion_wait` is at 0, and no
`sema_down` on it has ended without an interrupt since the operation's own command. -/
structure Accounted (s : IdeState) : Prop where
  idle : s.channel.lock.holder = none → s.channel.expectingInterrupt = false ∧ s.channel.completionWait.value = 0
  matched : s.unmatched = 0

/-- The holder of the lock has issued its command and has not gone through its `sema_down`. -/
def outstanding (s : IdeState) : Bool :=
  match s.channel.lock.holder with
  | some t => (s.threads t).stage == .waiting
  | none => false

/-- The condition on a step: an interrupt, once one is expected, comes while a command is outstanding, and is the first
since. -/
def OnTime (s : IdeState) : IdeAction → Prop
  | .interrupt => s.channel.expectingInterrupt = true → s.outstanding = true ∧ s.since = 0
  | _ => True

instance (s : IdeState) (a : IdeAction) : Decidable (s.OnTime a) :=
  match a with
  | .interrupt => inferInstanceAs (Decidable (s.channel.expectingInterrupt = true → s.outstanding = true ∧ s.since = 0))
  | .call _ _ => isTrue trivial
  | .run _ _ => isTrue trivial

theorem account_onTime {s : IdeState} {a : IdeAction} (h : s.OnTime a) : s.account.OnTime (decide (a = .interrupt)) := by
  intro hmark hexp
  obtain rfl := of_decide_eq_true hmark
  obtain ⟨hout, hsince⟩ := h hexp
  unfold outstanding at hout
  split at hout
  · rename_i t _
    exact ⟨⟨t, beq_iff_eq.mp hout⟩, hsince⟩
  · cases hout

theorem account_start : start.account.Locked ∧ start.account.Begun ∧ start.account.Timely := by
  have hout : ∀ t, start.account.stage t = .out := fun _ => rfl
  refine ⟨⟨.of_one (o := 0) (fun t _ ht => absurd (hout t) ht), fun t ht => absurd (hout t) ht, .inr rfl, fun t ht => ?_⟩,
    ⟨?_, fun _ => rfl, fun _ t => ?_, fun _ => .inr ⟨rfl, rfl⟩⟩, ⟨rfl, ?_, fun _ => rfl⟩⟩
  · cases ht
  · rintro (hissued | ⟨t, ht⟩)
    · exact absurd rfl hissued
    · cases ht
  · rw [hout t]
    decide
  · rintro ⟨t, ht⟩
    cases ht

theorem reachable_account {s : IdeState} (hr : ideSystem.Reachable s) : s.account.Locked ∧ s.account.Begun := by
  refine hr.invariant (I := fun s => s.account.Locked ∧ s.account.Begun) ?_
    (fun s a s' h hs => ⟨h.1.step (step_account hs), h.2.step (step_account hs)⟩)
  rintro s rfl
  exact ⟨account_start.1, account_start.2.1⟩

theorem onTime_account {s : IdeState} (hr : ideSystem.ReachableIf OnTime s) : s.account.Locked ∧ s.account.Timely := by
  refine hr.invariant (I := fun s => s.account.Locked ∧ s.account.Timely) ?_
    (fun s a s' h hon hs => ⟨h.1.step (step_account hs), h.2.step h.1 (account_onTime hon) (step_account hs)⟩)
  rintro s rfl
  exact ⟨account_start.1, account_start.2.2⟩

end IdeState

/-- **The completion interrupts of a channel.** Take any interleaving of `ide_read`s, `ide_write`s and interrupts. With the
lock free, what `struct channel` promises holds just if no command has been issued yet. In a run in which every interrupt,
once one is expected, comes while a command is outstanding and is the first since, the semaphore is at 0 whenever the lock is
free, and every `sema_down` on it ended after an interrupt that came since the operation's own command. -/
theorem ide_completion_accounting (s : IdeState) (hr : ideSystem.Reachable s) :
    (s.channel.lock.holder = none → (s.Accounted ↔ s.issued = 0)) ∧
      (ideSystem.ReachableIf IdeState.OnTime s →
        (s.channel.lock.holder = none → s.channel.completionWait.value = 0) ∧ s.unmatched = 0) := by
  obtain ⟨hlocked, hbegun⟩ := reachable_account hr
  have hnone : s.channel.lock.holder = none → ∀ t, IdeAccount.isHolder (s.account.stage t) = false := by
    intro hfree t
    by_contra hholder
    have := hlocked.holder t (Bool.not_eq_false _ ▸ hholder)
    rw [show s.account.holder = none from hfree] at this
    cases this
  refine ⟨fun hfree => ⟨fun h => ?_, fun hzero => ⟨fun _ => ?_, hbegun.unmatched hzero⟩⟩, fun hon => ?_⟩
  · by_contra hissued
    have hexp : s.channel.expectingInterrupt = true := hbegun.expecting (.inl hissued)
    rw [(h.idle hfree).1] at hexp
    cases hexp
  · rcases hbegun.quiet hzero with ⟨t, ht⟩ | hquiet
    · have := hnone hfree t
      rw [ht] at this
      cases this
    · exact hquiet
  · obtain ⟨-, htimely⟩ := onTime_account hon
    refine ⟨fun hfree => htimely.idle (fun t ht => ?_), htimely.unmatched⟩
    have := hnone hfree t
    rw [ht] at this
    cases this

/-- A read by thread 1 that sleeps until its interrupt. -/
def oneRead : List IdeAction :=
  [.call 1 { kind := .read, secNo := 5 }, .run 1 true, .run 1 true, .run 1 true, .run 1 true, .run 1 true,
    .interrupt, .run 1 true, .run 1 true, .run 1 true, .run 1 true]

/-- After a read whose interrupt came on time, the lock is free and the semaphore is at 0. -/
theorem oneRead_accounting :
    ∃ s, ideSystem.Reachable s ∧ s.channel.lock.holder = none ∧ s.issued = 1 ∧ s.channel.completionWait.value = 0 ∧
    s.unmatched = 0 := by
  have hrun : ∃ s, ideSystem.runIf OnTime start oneRead = some s ∧ ideSystem.run start oneRead = some s ∧
      s.channel.lock.holder = none ∧ s.issued = 1 := ⟨_, rfl, rfl, rfl, rfl⟩
  obtain ⟨s, hs, hs', hfree, hissued⟩ := hrun
  have hon : ideSystem.ReachableIf OnTime s := Transition.System.ReachableIf.runIf (.init rfl) oneRead hs
  have hr : ideSystem.Reachable s := Transition.System.reachable_of_run rfl oneRead hs'
  obtain ⟨-, haccount⟩ := ide_completion_accounting s hr
  exact ⟨s, hr, hfree, hissued, (haccount hon).1 hfree, (haccount hon).2⟩

/-- After that read an interrupt comes, and then thread 2 writes. -/
def spuriousRun : List IdeAction :=
  oneRead ++ [.interrupt, .call 2 { kind := .write, secNo := 6 }, .run 2 true, .run 2 true, .run 2 true, .run 2 true,
    .run 2 true, .run 2 true]

/-- An interrupt is still expected with the lock free after the read; and the `sema_down` of the write has ended with no
interrupt since its command. -/
theorem spuriousRun_unmatched :
    (∃ s, ideSystem.Reachable s ∧ s.channel.lock.holder = none ∧ s.channel.expectingInterrupt = true ∧ ¬s.Accounted) ∧
      ∃ s, ideSystem.Reachable s ∧ s.issued = 2 ∧ s.since = 0 ∧ s.unmatched = 1 := by
  refine ⟨?_, Transition.System.exists_reachable rfl spuriousRun ⟨_, rfl, rfl, rfl, rfl⟩⟩
  obtain ⟨s, hs, hfree, hexp⟩ : ∃ s, ideSystem.Reachable s ∧ s.channel.lock.holder = none ∧ s.channel.expectingInterrupt = true :=
    Transition.System.exists_reachable rfl oneRead ⟨_, rfl, rfl, rfl⟩
  refine ⟨s, hs, hfree, hexp, fun h => ?_⟩
  rw [(h.idle hfree).1] at hexp
  cases hexp

end Pintos
