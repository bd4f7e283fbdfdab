import Pintos.Devices.Serial
import Pintos.Theorems.Intq
import Pintos.Library.Ring

/-!
# Serial output keeps its order

Whatever calls and interrupts come in between, the bytes of the transmit register and then those in the queue are the bytes
of the calls of `serial_putc` that have gone through, each once and in order. The four ways out of the driver all take the
oldest byte, and a byte goes past the queue only while that is empty and not in use.
-/

namespace Pintos

open SerialState IntqState Intq List

variable {t : Thread} {a : SerialAction}

/-- The bytes in a queue, the oldest first. -/
def Intq.contents (q : Intq) : List UInt8 := Ring.contents intqBufsize q.buf q.head q.tail

/-! ## The queue, with any number of threads in a call -/

namespace IntqState

/-- The positions are in the buffer, and a recorded waiter waits. -/
structure Sound (s : IntqState) : Prop where
  head : s.q.head < intqBufsize
  tail : s.q.tail < intqBufsize
  notFull : ∀ u, s.q.notFull = some u → ∃ byte, s.threads u = .waiting (.putc byte)
  notEmpty : ∀ u, s.q.notEmpty = some u → s.threads u = .waiting .getc

/-- A call has changed neither the bytes nor the positions. -/
structure SameBytes (s s' : IntqState) : Prop where
  buf : s'.q.buf = s.q.buf
  head : s'.q.head = s.q.head
  tail : s'.q.tail = s.q.tail

theorem SameBytes.contents {s s' : IntqState} (h : SameBytes s s') : s'.q.contents = s.q.contents := by
  rw [Intq.contents, Intq.contents, h.buf, h.head, h.tail]

@[simp] theorem setPc_self (s : IntqState) (t : Thread) (pc : IntqPc) : (s.setPc t pc).threads t = pc := Function.update_self ..

theorem setPc_ne (s : IntqState) {u : Thread} (h : u ≠ t) (pc : IntqPc) : (s.setPc t pc).threads u = s.threads u :=
  Function.update_of_ne h ..

variable {s : IntqState}

theorem Sound.setPc (h : s.Sound) (ht : ∀ call, s.threads t ≠ .waiting call) (pc : IntqPc) : (s.setPc t pc).Sound := by
  have hkeep : ∀ u call, s.threads u = .waiting call → (s.setPc t pc).threads u = .waiting call := by
    intro u call hu
    have hne : u ≠ t := by
      rintro rfl
      exact ht call hu
    exact (setPc_ne s hne pc).trans hu
  refine ⟨h.head, h.tail, fun u hu => ?_, fun u hu => hkeep u .getc (h.notEmpty u hu)⟩
  obtain ⟨byte, hw⟩ := h.notFull u hu
  exact ⟨byte, hkeep u _ hw⟩

theorem sound_init (s : IntqState) : ({ s with q := intqInit s.q.buf } : IntqState).Sound :=
  ⟨Nat.zero_lt_succ _, Nat.zero_lt_succ _, nofun, nofun⟩

/-- What `signal` does where its assertion holds: it wakes one thread that waits, at most. -/
structure Signalled (s s' : IntqState) : Prop where
  sound : s'.Sound
  same : SameBytes s s'
  failed : s'.failed = s.failed
  others : ∀ t, s.threads t = .outside → s'.threads t = .outside

/-- `thread_unblock` on a recorded waiter, whose record is erased. -/
theorem Sound.unblockWaiter (h : s.Sound) {u : Thread} {call : IntqCall} (hu : s.threads u = .waiting call)
    (hfull : s.q.notFull ≠ some u) (hempty : s.q.notEmpty ≠ some u) : Signalled s (s.unblockWaiter u) := by
  have heq : s.unblockWaiter u = s.setPc u (.signalled call) := by simp only [IntqState.unblockWaiter, hu]
  rw [heq]
  have hother : ∀ v, v ≠ u → (s.setPc u (.signalled call)).threads v = s.threads v := fun v hv => setPc_ne s hv _
  refine ⟨⟨h.head, h.tail, fun v hv => ?_, fun v hv => ?_⟩, ⟨rfl, rfl, rfl⟩, rfl, fun t ht => ?_⟩
  · rw [hother v (fun he => hfull (he ▸ hv))]
    exact h.notFull v hv
  · rw [hother v (fun he => hempty (he ▸ hv))]
    exact h.notEmpty v hv
  · rw [hother t (fun he => by rw [he, hu] at ht; cases ht)]
    exact ht

/-- `signal` on `not_full` where the queue is not full. -/
theorem Sound.signalNotFull (h : s.Sound) (hroom : s.q.full = false) : Signalled s s.signalNotFull := by
  unfold IntqState.signalNotFull
  rw [hroom, if_neg Bool.false_ne_true]
  cases hrec : s.q.notFull with
  | none => exact ⟨h, ⟨rfl, rfl, rfl⟩, rfl, fun _ => id⟩
  | some u =>
    obtain ⟨byte, hu⟩ := h.notFull u hrec
    have herased : ({ s with q := { s.q with notFull := none } } : IntqState).Sound :=
      { h with notFull := nofun }
    obtain ⟨h1, h2, h3, h4⟩ := herased.unblockWaiter hu (by simp) (fun hv => by rw [h.notEmpty u hv] at hu; cases hu)
    exact ⟨h1, { h2 with }, h3, h4⟩

/-- `signal` on `not_empty` where the queue is not empty. -/
theorem Sound.signalNotEmpty (h : s.Sound) (hbyte : s.q.empty = false) : Signalled s s.signalNotEmpty := by
  unfold IntqState.signalNotEmpty
  rw [hbyte, if_neg Bool.false_ne_true]
  cases hrec : s.q.notEmpty with
  | none => exact ⟨h, ⟨rfl, rfl, rfl⟩, rfl, fun _ => id⟩
  | some u =>
    have hu := h.notEmpty u hrec
    have herased : ({ s with q := { s.q with notEmpty := none } } : IntqState).Sound :=
      { h with notEmpty := nofun }
    have hnot : s.q.notFull ≠ some u := by
      intro hv
      obtain ⟨byte, hw⟩ := h.notFull u hv
      rw [hw] at hu
      cases hu
    obtain ⟨h1, h2, h3, h4⟩ := herased.unblockWaiter hu hnot (by simp)
    exact ⟨h1, { h2 with }, h3, h4⟩

/-- `intq_getc` of a queue that is not empty takes the oldest byte. -/
theorem Sound.getc (h : s.Sound) (hne : s.q.empty = false) :
    (s.transfer .getc).Sound ∧ (s.transfer .getc).failed = s.failed ∧
      s.q.contents = s.q.buf s.q.tail :: (s.transfer .getc).q.contents ∧
      ∀ t, s.threads t = .outside → (s.transfer .getc).threads t = .outside := by
  have hne : s.q.head ≠ s.q.tail := by simpa [empty] using hne
  have hsound : ({ s with q := { s.q with tail := intqNext s.q.tail }, returned := s.q.buf s.q.tail :: s.returned } :
    IntqState).Sound :=
    { h with tail := Nat.mod_lt _ (by decide) }
  have hroom : ({ s.q with tail := intqNext s.q.tail } : Intq).full = false := by
    simp only [full, beq_eq_false_iff_ne]
    exact fun he => hne (intqNext_inj h.head h.tail he)
  have hsig := hsound.signalNotFull hroom
  refine ⟨hsig.sound, hsig.failed, ?_, hsig.others⟩
  rw [show (s.transfer .getc).q.contents = _ from hsig.same.contents]
  exact Ring.contents_pop h.head h.tail hne s.q.buf

/-- `intq_putc` of a queue that is not full adds the byte behind the others. -/
theorem Sound.putc (h : s.Sound) (hroom : s.q.full = false) (byte : UInt8) :
    (s.transfer (.putc byte)).Sound ∧ (s.transfer (.putc byte)).failed = s.failed ∧
      (s.transfer (.putc byte)).q.contents = s.q.contents ++ [byte] ∧
      ∀ t, s.threads t = .outside → (s.transfer (.putc byte)).threads t = .outside := by
  have hroom : intqNext s.q.head ≠ s.q.tail := by simpa [full] using hroom
  have hsound : ({ s with q := { s.q with buf := Function.update s.q.buf s.q.head byte, head := intqNext s.q.head } } :
    IntqState).Sound :=
    { h with head := Nat.mod_lt _ (by decide) }
  have hsig := hsound.signalNotEmpty (by simpa [empty] using hroom)
  refine ⟨hsig.sound, hsig.failed, ?_, hsig.others⟩
  rw [show (s.transfer (.putc byte)).q.contents = _ from hsig.same.contents]
  exact Ring.contents_push h.head h.tail hroom s.q.buf byte

/-- What a thread does that does not get through: it sleeps, or an assertion fails; the bytes stay. -/
structure Delayed (s s' : IntqState) (t : Thread) : Prop where
  sound : s'.Sound
  same : SameBytes s s'
  asleep : s'.failed.isSome = true ∨ s'.threads t ≠ .outside

/-- `wait`, by a thread that is recorded nowhere. -/
theorem Sound.wait (h : s.Sound) (ht : ∀ call, s.threads t ≠ .waiting call) (call : IntqCall) : Delayed s (s.wait t call) t := by
  unfold IntqState.wait
  split
  · have hmoved := h.setPc ht (.waiting call)
    have hself : (s.setPc t (.waiting call)).threads t = .waiting call := setPc_self ..
    have hasleep : (s.setPc t (.waiting call)).threads t ≠ .outside := by
      rw [hself]
      exact nofun
    cases call with
    | getc =>
      refine ⟨{ hmoved with notEmpty := fun u hu => ?_ }, ⟨rfl, rfl, rfl⟩, .inr hasleep⟩
      obtain rfl : t = u := Option.some.inj hu
      exact hself
    | putc byte =>
      refine ⟨{ hmoved with notFull := fun u hu => ?_ }, ⟨rfl, rfl, rfl⟩, .inr hasleep⟩
      obtain rfl : t = u := Option.some.inj hu
      exact ⟨byte, hself⟩
  · exact ⟨{ h with }, ⟨rfl, rfl, rfl⟩, .inl rfl⟩

/-- The lock is not looked at. -/
theorem Sound.setLock (h : s.Sound) (lock : Lock) : ({ s with q := { s.q with lock := lock } } : IntqState).Sound :=
  { h with }

section

variable (h : s.Sound) (ht : ∀ call, s.threads t ≠ .waiting call)
include h ht

/-- A pass of the loop of `lock_acquire`. -/
theorem Sound.acquire (call : IntqCall) : Delayed s (s.acquire t call) t := by
  unfold IntqState.acquire
  split
  · rename_i sema _
    refine ⟨(h.setLock { s.q.lock with semaphore := sema }).setPc ht _, ⟨rfl, rfl, rfl⟩, .inr ?_⟩
    rw [setPc_self]
    exact nofun
  · rename_i sema _
    obtain ⟨h1, h2, h3⟩ := (h.setLock { holder := some t, semaphore := sema }).wait ht call
    exact ⟨h1, { h2 with }, h3⟩

/-- A thread at the test of its loop in `intq_putc` that finds the queue full. -/
theorem Sound.loop_full (byte : UInt8) (hfull : s.q.full = true) : Delayed s (s.loop t (.putc byte)) t := by
  unfold loop
  rw [show s.q.blocks (.putc byte) = true from hfull, if_pos rfl]
  split
  · exact ⟨{ h with }, ⟨rfl, rfl, rfl⟩, .inl rfl⟩
  · exact h.acquire ht _

/-- A thread at the test of its loop in `intq_putc` that finds room. -/
theorem Sound.loop_room (byte : UInt8) (hroom : s.q.full = false) :
    (s.loop t (.putc byte)).Sound ∧ (s.loop t (.putc byte)).failed = s.failed ∧
      (s.loop t (.putc byte)).q.contents = s.q.contents ++ [byte] ∧ (s.loop t (.putc byte)).threads t = .outside := by
  unfold loop
  rw [show s.q.blocks (.putc byte) = false from hroom, if_neg Bool.false_ne_true]
  obtain ⟨h1, h2, h3, h4⟩ := (h.setPc ht .outside).putc hroom byte
  exact ⟨h1, h2, h3, h4 t (setPc_self ..)⟩

end

/-- `lock_release`, which may wake a thread that sleeps in `lock_acquire`. -/
theorem Sound.release (h : s.Sound) (t : Thread) :
    (s.release t).Sound ∧ SameBytes s (s.release t) ∧ ∀ u call, (s.release t).threads u = .waiting call →
    s.threads u = .waiting call := by
  unfold IntqState.release
  split
  · split
    · exact ⟨h.setLock _, ⟨rfl, rfl, rfl⟩, fun _ _ => id⟩
    rename_i sema u _
    unfold unblockLockWaiter
    split
    · rename_i call hu
      refine ⟨(h.setLock { holder := none, semaphore := sema }).setPc (fun call' hw => ?_) _, ⟨rfl, rfl, rfl⟩,
        fun v call' hv => ?_⟩
      · exact nomatch hu.symm.trans hw
      · by_cases hvu : v = u
        · rw [hvu, setPc_self] at hv
          cases hv
        · rwa [setPc_ne _ hvu] at hv
    · exact ⟨{ h with }, ⟨rfl, rfl, rfl⟩, fun _ _ => id⟩
  · exact ⟨{ h with }, ⟨rfl, rfl, rfl⟩, fun _ _ => id⟩

end IntqState

/-! ## The driver -/

namespace SerialState

/-- What every step keeps. -/
structure Inv (s : SerialState) : Prop where
  sound : s.txq.Sound
  order : s.sent ++ s.txq.q.contents = s.accepted
  /-- Until the mode is `QUEUE` the queue is empty and no thread is in a call on it. -/
  unused : s.mode ≠ .queue → s.txq.q.head = s.txq.q.tail ∧ ∀ t, s.txq.threads t = .outside
  /-- While `serial_init_queue` is in `init_poll` the mode is not `QUEUE` yet. -/
  setup : s.init = .initPoll ∨ s.init = .intqInit ∨ s.init = .setPoll → s.mode ≠ .queue

variable {s : SerialState}

theorem Inv.contents_unused (h : s.Inv) (hmode : s.mode ≠ .queue) : s.txq.q.contents = [] := by
  rw [contents, (h.unused hmode).1]
  exact Ring.contents_self _ _

/-- A queue with a byte in it is in use. -/
theorem Inv.queued (h : s.Inv) (hne : s.txq.q.empty = false) : s.mode = .queue := by
  by_contra hmode
  have : s.txq.q.empty = true := by simpa [empty] using (h.unused hmode).1
  rw [hne] at this
  cases this

/-- A step that makes no call of `serial_putc` return. -/
structure Quiet (s s' : SerialState) : Prop where
  inv : s'.Inv
  accepted : s'.accepted = s.accepted
  mode : s'.mode = s.mode
  stopped : s'.stopped = s.stopped
  others : ∀ t, s.txq.threads t = .outside → s'.txq.threads t = .outside

/-- The oldest byte goes from the queue to the port. -/
theorem Inv.sendOldest (h : s.Inv) (hne : s.txq.q.empty = false) (hs : s.stopped = false) : Quiet s s.sendOldest := by
  obtain ⟨hsound, hfailed, hcontents, hothers⟩ := h.sound.getc hne
  obtain ⟨hf, hq⟩ : s.failed.isSome = false ∧ s.txq.failed.isSome = false := Bool.or_eq_false_iff.mp hs
  have heq : s.sendOldest = { s with txq := s.txq.transfer .getc }.transmit (s.txq.q.buf s.txq.q.tail) := by
    unfold SerialState.sendOldest
    simp [hfailed, hq]
  rw [heq]
  refine ⟨⟨hsound, ?_, fun hmode => absurd (h.queued hne) hmode, h.setup⟩, rfl, rfl, ?_, hothers⟩
  · show (s.sent ++ [_]) ++ (s.txq.transfer .getc).q.contents = s.accepted
    rw [append_assoc, singleton_append, ← hcontents]
    exact h.order
  · show (s.failed.isSome || (s.txq.transfer .getc).failed.isSome) = s.stopped
    rw [hfailed]
    rfl

/-- The loop of the handler and of `serial_flush`. -/
theorem Inv.drain (h : s.Inv) (ready : Nat) : Quiet s (s.drain ready) := by
  induction ready generalizing s with
  | zero => exact ⟨h, rfl, rfl, rfl, fun _ => id⟩
  | succ ready ih =>
    unfold drain
    split
    · exact ⟨h, rfl, rfl, rfl, fun _ => id⟩
    rename_i hgo
    obtain ⟨hne, hs⟩ := Bool.or_eq_false_iff.mp (Bool.eq_false_iff.mpr hgo)
    have hone := h.sendOldest hne hs
    have hrest := ih hone.inv
    exact ⟨hrest.inv, hrest.accepted.trans hone.accepted, hrest.mode.trans hone.mode, hrest.stopped.trans hone.stopped,
      fun t ht => hrest.others t (hone.others t ht)⟩

theorem sendOldest_txq (s : SerialState) : s.sendOldest.txq = s.txq.transfer .getc := by
  unfold sendOldest
  simp only
  split <;> rfl

/-- With the port ready for every byte, the loop leaves none. -/
theorem Inv.drain_all (h : s.Inv) (hs : s.stopped = false) {ready : Nat} (hready : s.txq.q.contents.length ≤ ready) :
    (s.drain ready).txq.q.contents = [] := by
  induction ready generalizing s with
  | zero => exact length_eq_zero_iff.mp (Nat.le_zero.mp hready)
  | succ ready ih =>
    unfold SerialState.drain
    rw [hs, Bool.or_false]
    cases hne : s.txq.q.empty with
    | true =>
      have hpos : s.txq.q.head = s.txq.q.tail := by simpa [empty] using hne
      rw [if_pos rfl, contents, hpos]
      exact Ring.contents_self _ _
    | false =>
      have hone := h.sendOldest hne hs
      obtain ⟨-, -, hcontents, -⟩ := h.sound.getc hne
      refine ih hone.inv (hone.stopped.trans hs) ?_
      rw [sendOldest_txq]
      rw [hcontents, length_cons] at hready
      omega

/-- `serial_flush` sends everything that was accepted. -/
theorem Inv.flush (h : s.Inv) (hs : s.stopped = false) : s.flush.sent = s.flush.accepted := by
  have hbound : s.txq.q.contents.length ≤ intqBufsize := by
    rw [contents, Ring.length_contents]
    exact Nat.le_of_lt (Nat.mod_lt _ (by decide))
  have horder := (h.drain intqBufsize).inv.order
  rw [h.drain_all hs hbound, append_nil] at horder
  exact horder

/-- The byte of a call of `serial_putc`, if the call has returned. -/
def returned (s' : SerialState) (t : Thread) (byte : UInt8) : List UInt8 :=
  if s'.stopped = false ∧ s'.txq.threads t = .outside then [byte] else []

/-- The byte of the call of `serial_putc` that returns in a step, if one does. -/
def Returned (s s' : SerialState) : SerialAction → List UInt8
  | .putc t _ byte _ => s'.returned t byte
  | .resume t _ =>
    match s.txq.threads t with
    | .signalled (.putc byte) => s'.returned t byte
    | _ => []
  | _ => []

/-- `intq_putc` on the queue in use: the byte is accepted just if the call returns. -/
theorem Inv.queueByte (h : s.Inv) (hmode : s.mode = .queue) (hs : s.stopped = false)
    (ht : ∀ call, s.txq.threads t ≠ .waiting call) (byte : UInt8) (inputFull : Bool) :
    (s.queueByte t byte inputFull).Inv ∧
      (s.queueByte t byte inputFull).accepted = s.accepted ++ (s.queueByte t byte inputFull).returned t byte := by
  obtain ⟨hf, hq⟩ : s.failed.isSome = false ∧ s.txq.failed.isSome = false := Bool.or_eq_false_iff.mp hs
  cases hfull : s.txq.q.full with
  | true =>
    obtain ⟨hsound, hsame, hasleep⟩ := h.sound.loop_full ht byte hfull
    have heq : s.queueByte t byte inputFull = { s with txq := s.txq.loop t (.putc byte) } := by
      simp [SerialState.queueByte, hfull]
    rw [heq]
    refine ⟨⟨hsound, ?_, absurd hmode, h.setup⟩, ?_⟩
    · rw [hsame.contents]
      exact h.order
    rw [returned, if_neg, append_nil]
    rintro ⟨hrun, hout⟩
    rcases hasleep with hstop | hpc
    · rw [(Bool.or_eq_false_iff.mp hrun).2] at hstop
      cases hstop
    · exact hpc hout
  | false =>
    obtain ⟨hsound, hfailed, hcontents, hout⟩ := h.sound.loop_room ht byte hfull
    have heq : s.queueByte t byte inputFull =
        { s with txq := s.txq.loop t (.putc byte), accepted := s.accepted ++ [byte] }.writeIer inputFull := by
      simp [SerialState.queueByte, hfull, hfailed, hq]
    rw [heq]
    refine ⟨⟨hsound, ?_, absurd hmode, h.setup⟩, ?_⟩
    · show s.sent ++ (s.txq.loop t (.putc byte)).q.contents = s.accepted ++ [byte]
      rw [hcontents, ← append_assoc, h.order]
    rw [returned, if_pos]
    · rfl
    · refine ⟨?_, hout⟩
      show (s.failed.isSome || (s.txq.loop t (.putc byte)).failed.isSome) = false
      rw [hfailed]
      exact hs

/-- A full queue is not empty. -/
theorem full_not_empty {q : Intq} (h : q.full = true) : q.empty = false := by
  have hfull : intqNext q.head = q.tail := by simpa [full] using h
  simp only [empty, beq_eq_false_iff_ne]
  unfold intqNext intqBufsize at *
  omega

/-- `serial_putc`, in each mode and with interrupts on or off. -/
theorem Inv.putc (h : s.Inv) (hs : s.stopped = false) (ht : s.txq.threads t = .outside) (level : IntrLevel) (byte : UInt8)
    (inputFull : Bool) :
    (s.putc t level byte inputFull).Inv ∧
      (s.putc t level byte inputFull).accepted = s.accepted ++ (s.putc t level byte inputFull).returned t byte := by
  cases hmode : s.mode with
  | uninit =>
    have hempty := h.contents_unused (by rw [hmode]; decide)
    have heq : s.putc t level byte inputFull = { s.initPoll with accepted := s.accepted ++ [byte] }.transmit byte := by
      simp [SerialState.putc, hmode]
    rw [heq]
    refine ⟨⟨s.txq.sound_init, ?_, fun _ => ⟨rfl, (h.unused (by rw [hmode]; decide)).2⟩, fun _ => nofun⟩, ?_⟩
    · show (s.sent ++ [byte]) ++ Ring.contents intqBufsize s.txq.q.buf 0 0 = s.accepted ++ [byte]
      rw [Ring.contents_self, append_nil, ← h.order, hempty, append_nil]
    · rw [returned, if_pos ⟨hs, ht⟩]
      rfl
  | poll =>
    have hempty := h.contents_unused (by rw [hmode]; decide)
    have heq : s.putc t level byte inputFull = { s with accepted := s.accepted ++ [byte] }.transmit byte := by
      simp [SerialState.putc, hmode]
    rw [heq]
    refine ⟨{ h with order := ?_ }, ?_⟩
    · show (s.sent ++ [byte]) ++ s.txq.q.contents = s.accepted ++ [byte]
      rw [← h.order, hempty, append_nil, append_nil]
    · rw [returned, if_pos ⟨hs, ht⟩]
      rfl
  | queue =>
    have hquiet : Quiet s (if level = .off ∧ s.txq.q.full = true then s.sendOldest else s) := by
      split
      · rename_i hoff
        exact h.sendOldest (full_not_empty hoff.2) hs
      · exact ⟨h, rfl, rfl, rfl, fun _ => id⟩
    have heq : s.putc t level byte inputFull =
        (if level = .off ∧ s.txq.q.full = true then s.sendOldest else s).queueByte t byte inputFull := by
      simp only [SerialState.putc, hmode]
      rw [if_neg (by rw [hquiet.stopped, hs]; exact Bool.false_ne_true)]
    rw [heq, ← hquiet.accepted]
    refine hquiet.inv.queueByte (hquiet.mode.trans hmode) (hquiet.stopped.trans hs) (fun call hw => ?_) byte inputFull
    rw [hquiet.others t ht] at hw
    cases hw

/-- A thread that was unblocked in `serial_putc` goes on. -/
theorem Inv.resume (h : s.Inv) {inputFull : Bool} {s' : SerialState}
    (hstep : s.resume t inputFull = some s') : s'.Inv ∧ s'.accepted = s.accepted ++ Returned s s' (.resume t inputFull) := by
  have hmode : s.txq.threads t ≠ .outside → s.mode = .queue := by
    intro hpc
    by_contra hmode
    exact hpc ((h.unused hmode).2 t)
  unfold SerialState.resume at hstep
  split at hstep
  · rename_i call hpc
    cases hstep
    obtain ⟨hsound, hsame, -⟩ := h.sound.acquire (fun c hw => by rw [hpc] at hw; cases hw) call
    refine ⟨⟨hsound, ?_, fun hne => absurd (hmode (by rw [hpc]; exact nofun)) hne, h.setup⟩, ?_⟩
    · rw [hsame.contents]
      exact h.order
    · simp [Returned, hpc]
  · rename_i byte hpc
    obtain ⟨hsound, hsame, hwaits⟩ := h.sound.release t
    have hqueue := hmode (by rw [hpc]; exact nofun)
    have hinv : ({ s with txq := s.txq.release t } : SerialState).Inv := by
      refine ⟨hsound, ?_, absurd hqueue, h.setup⟩
      rw [hsame.contents]
      exact h.order
    simp only [Returned, hpc]
    simp only at hstep
    split at hstep
    · rename_i hstop
      cases hstep
      refine ⟨hinv, ?_⟩
      rw [returned, if_neg (fun hr => by rw [hstop] at hr; cases hr.1), append_nil]
    rename_i hgo
    cases hstep
    refine hinv.queueByte hqueue (Bool.eq_false_iff.mpr hgo) (fun call hw => ?_) byte inputFull
    rw [hwaits t call hw] at hpc
    cases hpc
  · cases hstep

/-- A statement of `serial_init_queue`. -/
theorem Inv.initStep (h : s.Inv) (inputFull : Bool) : (s.initStep inputFull).Inv ∧
    (s.initStep inputFull).accepted = s.accepted := by
  unfold SerialState.initStep
  cases hinit : s.init with
  | idle =>
    refine ⟨{ h with setup := fun hpc => ?_ }, rfl⟩
    show s.mode ≠ .queue
    intro hmode
    simp [hmode] at hpc
  | initPoll =>
    simp only
    split <;> exact ⟨{ h with setup := fun _ => h.setup (.inl hinit) }, rfl⟩
  | intqInit =>
    have hmode := h.setup (.inr (.inl hinit))
    refine ⟨⟨s.txq.sound_init, ?_, fun _ => ⟨rfl, (h.unused hmode).2⟩, fun _ => hmode⟩, rfl⟩
    show s.sent ++ Ring.contents intqBufsize s.txq.q.buf 0 0 = s.accepted
    rw [Ring.contents_self, ← h.order, h.contents_unused hmode]
  | setPoll =>
    have hmode := h.setup (.inr (.inr hinit))
    exact ⟨⟨h.sound, h.order, fun _ => h.unused hmode, fun _ => nofun⟩, rfl⟩
  | assertPoll =>
    simp only
    split <;> exact ⟨{ h with setup := nofun }, rfl⟩
  | register => exact ⟨{ h with setup := nofun }, rfl⟩
  | setQueue => exact ⟨⟨h.sound, h.order, absurd rfl, nofun⟩, rfl⟩
  | writeIer => exact ⟨{ h with setup := nofun }, rfl⟩

/-- No assertion has failed where there is a next step. -/
theorem step_running {s s' : SerialState} (hstep : s.step a = some s') : s.stopped = false := by
  unfold step at hstep
  split at hstep
  · cases hstep
  · exact Bool.eq_false_iff.mpr ‹_›

/-- Every step keeps the invariant, and accepts the byte of the call that returns in it. -/
theorem Inv.step {s s' : SerialState} (h : s.Inv) (hstep : s.step a = some s') :
    s'.Inv ∧ s'.accepted = s.accepted ++ Returned s s' a := by
  have hs := step_running hstep
  unfold SerialState.step at hstep
  rw [hs, if_neg Bool.false_ne_true] at hstep
  cases a with
  | putc t level byte inputFull =>
    simp only at hstep
    split at hstep
    · rename_i ht
      cases hstep
      exact h.putc hs ht level byte inputFull
    · cases hstep
  | resume t inputFull => exact h.resume hstep
  | flush =>
    cases hstep
    obtain ⟨hinv, hacc, -⟩ := h.drain intqBufsize
    exact ⟨hinv, hacc.trans (append_nil _).symm⟩
  | initStep inputFull =>
    cases hstep
    obtain ⟨hinv, hacc⟩ := h.initStep inputFull
    exact ⟨hinv, hacc.trans (append_nil _).symm⟩
  | interrupt ready inputFull =>
    simp only at hstep
    split at hstep
    · cases hstep
      obtain ⟨hinv, hacc, -⟩ := h.drain ready
      unfold interrupt
      simp only
      split
      · exact ⟨hinv, hacc.trans (append_nil _).symm⟩
      · exact ⟨{ hinv with }, hacc.trans (append_nil _).symm⟩
    · cases hstep
  | notify inputFull =>
    cases hstep
    unfold notify
    split
    · exact ⟨{ h with }, (append_nil _).symm⟩
    · exact ⟨h, (append_nil _).symm⟩

theorem inv_boot : boot.Inv :=
  ⟨⟨by decide, by decide, nofun, nofun⟩, rfl, fun _ => ⟨rfl, fun _ => rfl⟩, nofun⟩

end SerialState

/-- **Serial output keeps its order and loses nothing.** In every state of every interleaving the bytes written to the
transmit register, followed by the bytes in `txq`, are the bytes accepted so far. These are the bytes of the calls of
`serial_putc` that have returned, in that order, and after a flush all of them are out. -/
theorem serial_output_order (s : SerialState) (hr : serialSystem.Reachable s) :
    s.sent ++ s.txq.q.contents = s.accepted ∧
      ∀ a s', serialSystem.step s a = some s' →
        s'.accepted = s.accepted ++ Returned s s' a ∧ (a = .flush → s'.sent = s'.accepted) := by
  have hinv : s.Inv := by
    refine hr.invariant ?_ (fun s a s' hi hs => (hi.step hs).1)
    rintro s rfl
    exact inv_boot
  refine ⟨hinv.order, fun a s' hstep => ⟨(hinv.step hstep).2, ?_⟩⟩
  rintro rfl
  have hstep : s.step .flush = some s' := hstep
  have hs := step_running hstep
  have hflush : s' = s.flush := by
    have : s.step .flush = some s.flush := if_neg (by rw [hs]; exact Bool.false_ne_true)
    exact Option.some.inj (hstep.symm.trans this)
  rw [hflush]
  exact hinv.flush hs

/-- A byte is polled out, the queue is set up, two more bytes go there, one of them with interrupts off, and the port takes
one. -/
def greetingRun : List SerialAction :=
  [.putc 1 .on 104 false, .initStep false, .initStep false, .initStep false, .initStep false, .initStep false,
    .putc 2 .off 105 false, .putc 1 .on 33 false, .interrupt 1 false]

/-- After that run two bytes are out and one is in the queue. -/
theorem greetingRun_order :
    ∃ s, serialSystem.Reachable s ∧ s.sent = [104, 105] ∧ s.txq.q.contents = [33] ∧ s.sent ++ s.txq.q.contents = s.accepted := by
  obtain ⟨s, hr, hsent, hqueue⟩ : ∃ s, serialSystem.Reachable s ∧ s.sent = [104, 105] ∧ s.txq.q.contents = [33] :=
    Transition.System.exists_reachable rfl greetingRun ⟨_, rfl, rfl, by decide⟩
  exact ⟨s, hr, hsent, hqueue, (serial_output_order s hr).1⟩

end Pintos
