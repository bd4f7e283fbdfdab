import Mathlib.Data.List.Nodup
import Pintos.Userprog.WaitExit

/-!
# What the steps of waiting and exiting keep

The two parties of one share do not depend on the other shares, so the invariant is about one share at a time: `ShareOk` says
what is in it, given how far the parent and the child have come with it. Each step moves one of the two.
-/

namespace Pintos

open WaitState ChildPc Function Option

variable {call : Option Int} {pc : ParentPc} {p : ProcessShare}

/-- How far the parent has come with a share: it is on the list, or taken from it, or the parent is through with it. -/
inductive Phase where
  | listed
  | taken (pc : ParentPc)
  | over
  deriving DecidableEq, Repr

/-- The parent has taken its one from `refcount`. -/
def Phase.letGo : Phase → Bool
  | .listed | .taken .down | .taken (.acquire _) | .taken .read | .taken (.drop _) => false
  | .taken (.release _ _) | .taken (.free _) | .over => true

/-- The parent holds the lock of the share. -/
def Phase.locks : Phase → Bool
  | .taken .read | .taken (.drop _) | .taken (.release _ _) => true
  | .listed | .taken .down | .taken (.acquire _) | .taken (.free _) | .over => false

/-- The parent has found `refcount` to be 0. -/
def Phase.last : Phase → Bool
  | .taken (.release _ last) => last
  | .taken (.free _) => true
  | .listed | .taken .down | .taken (.acquire _) | .taken .read | .taken (.drop _) | .over => false

/-- The parent is past the `sema_down` of `process_wait`. -/
def Phase.waited : Phase → Bool
  | .taken (.acquire inWait) => inWait
  | .taken .read => true
  | .taken (.drop call) | .taken (.release call _) | .taken (.free call) => call.isSome
  | .listed | .taken .down | .over => false

/-- What the parent has read from the share. -/
def Phase.value : Phase → Option Int
  | .taken (.drop call) | .taken (.release call _) | .taken (.free call) => call
  | .listed | .taken .down | .taken (.acquire _) | .taken .read | .over => none

/-- The child has taken its one from `refcount`. -/
def ChildPc.letGo : ChildPc → Bool
  | .running | .acquire | .drop => false
  | .setRvalue | .up | .release _ | .free | .gone => true

/-- The child holds the lock of the share. -/
def ChildPc.locks : ChildPc → Bool
  | .drop | .setRvalue | .up | .release _ => true
  | .running | .acquire | .free | .gone => false

/-- The child has found `refcount` to be 0. -/
def ChildPc.last : ChildPc → Bool
  | .release last => last
  | .free => true
  | .running | .acquire | .drop | .setRvalue | .up | .gone => false

/-- The child is past its `sema_up`, if it makes one. -/
def ChildPc.signalled : ChildPc → Bool
  | .release last => !last
  | .gone => true
  | .running | .acquire | .drop | .setRvalue | .up | .free => false

/-- The child has found the parent still there, and is not through. -/
def ChildPc.telling : ChildPc → Bool
  | .setRvalue | .up => true
  | .release last => !last
  | .running | .acquire | .drop | .free | .gone => false

/-- What is in a share, given how far its two parties have come; `v` is the value that the child exits with. -/
structure ShareOk (f : Phase) (pc : ChildPc) (p : ProcessShare) (v : Option Int) : Prop where
  refcount : p.refcount = (if f.letGo then 0 else 1) + (if pc.letGo then 0 else 1)
  holder : p.holder = if f.locks then some .parent else if pc.locks then some .child else none
  exclusive : f.locks = true → pc.locks = false
  freed : p.freed = if f = .over ∧ pc = .gone then 1 else 0
  parentLast : f.last = true → pc = .gone
  parentFirst : f.locks = true → f.letGo = true → f.last = false → pc.letGo = false
  childLast : pc.last = true → f = .over
  childFirst : pc.telling = true → f.letGo = false
  waited : f.waited = true → pc.signalled = true
  sig : f = .listed ∨ f = .taken .down → p.sig = if pc.signalled then 1 else 0
  exits : pc ≠ .running → v.isSome = true
  rvalue : pc.signalled = true ∨ pc = .up → f ≠ .over → v = some p.rvalue
  value : ∀ r, f.value = some r → v = some r

namespace ShareOk

variable {f : Phase} {pc : ChildPc} {v : Option Int}

section

attribute [local simp] Phase.letGo Phase.locks Phase.last Phase.waited Phase.value

/-- A share as `thread_create` makes it, on the parent's list. -/
theorem start (r : Int) : ShareOk .listed .running { sig := 0, rvalue := r, refcount := 2, holder := none, freed := 0 } none := by
  constructor <;> simp [letGo, locks, last, telling, signalled]

/-- `process_wait` takes the share from the list. -/
theorem toDown (h : ShareOk .listed pc p v) : ShareOk (.taken .down) pc p v := by
  cases h
  constructor <;> simp_all

/-- `process_exit` takes the share from the list. -/
theorem toAcquire (h : ShareOk .listed pc p v) : ShareOk (.taken (.acquire false)) pc p v := by
  cases h
  constructor <;> simp_all

theorem down (h : ShareOk (.taken .down) pc p v) (hs : 0 < p.sig) :
    ShareOk (.taken (.acquire true)) pc { p with sig := p.sig - 1 } v := by
  have hsignalled : pc.signalled = true := by
    by_contra hno
    rw [h.sig (.inr rfl), if_neg hno] at hs
    exact absurd hs (Nat.lt_irrefl 0)
  cases h
  constructor <;> simp_all

theorem acquire {inWait : Bool} (h : ShareOk (.taken (.acquire inWait)) pc p v) (hs : p.holder = none) :
    ShareOk (.taken (if inWait then .read else .drop none)) pc { p with holder := some .parent } v := by
  cases h
  cases inWait <;> constructor <;> simp_all

theorem read (h : ShareOk (.taken .read) pc p v) : ShareOk (.taken (.drop (some p.rvalue))) pc p v := by
  cases h
  constructor <;> simp_all

/-- The parent takes its one from `refcount`. -/
theorem drop (h : ShareOk (.taken (.drop call)) pc p v) :
    ShareOk (.taken (.release call (p.refcount - 1 == 0))) pc { p with refcount := p.refcount - 1 } v := by
  cases h
  cases pc <;> constructor <;> simp_all [letGo, locks, last, telling, signalled]

/-- The parent's `lock_release`, where it is not the last. -/
theorem release (h : ShareOk (.taken (.release call false)) pc p v) : ShareOk .over pc { p with holder := none } v := by
  cases h
  cases pc <;> constructor <;> simp_all [letGo, locks, last, telling, signalled]

/-- The parent's `lock_release`, where it is the last. -/
theorem releaseLast (h : ShareOk (.taken (.release call true)) pc p v) :
    ShareOk (.taken (.free call)) pc { p with holder := none } v := by
  cases h
  cases pc <;> constructor <;> simp_all [letGo, locks, last, telling, signalled]

theorem free (h : ShareOk (.taken (.free call)) pc p v) : ShareOk .over pc { p with freed := p.freed + 1 } v := by
  cases h
  constructor <;> simp_all [letGo, locks, last, telling, signalled]

end

section

attribute [local simp] letGo locks last telling signalled

/-- The child calls `process_exit`. -/
theorem childExit (h : ShareOk f .running p v) (r : Int) : ShareOk f .acquire p (some r) := by
  obtain ⟨h1, h2, h3, h4, h5, h6, h7, h8, h9, h10, h11, h12, h13⟩ := h
  refine ⟨h1, h2, h3, by simpa using h4, fun h => by simpa using h5 h, h6, h7, h8, h9, h10, fun _ => rfl, fun h => by simp at h,
    fun r' hr => ?_⟩
  -- a parent that has read a value is past the child's signal
  have hw : f.waited = true := by
    cases f with
    | taken q => cases q <;> simp_all [Phase.value, Phase.waited]
    | _ => simp [Phase.value] at hr
  cases h9 hw

theorem childAcquire (h : ShareOk f .acquire p v) (hs : p.holder = none) :
    ShareOk f .drop { p with holder := some .child } v := by
  cases h
  constructor <;> simp_all

/-- The child takes its one from `refcount`. -/
theorem childDrop (h : ShareOk f .drop p v) :
    ShareOk f (if p.refcount - 1 = 0 then .release true else .setRvalue) { p with refcount := p.refcount - 1 } v := by
  cases h
  cases hl : f.letGo with
  | true =>
    -- the parent has let go and neither holds the lock nor is about to free the share, so it is through
    have hover : f = .over := by
      cases f with
      | taken q => cases q <;> simp_all [Phase.letGo, Phase.locks, Phase.last]
      | listed => simp [Phase.letGo] at hl
      | _ => rfl
    constructor <;> simp_all [Phase.waited, Phase.value]
  | false => constructor <;> simp_all

theorem childSet (h : ShareOk f .setRvalue p v) : ShareOk f .up { p with rvalue := v.getD 0 } v := by
  obtain ⟨r, rfl⟩ := isSome_iff_exists.mp (h.exits (by simp))
  cases h
  constructor <;> simp_all

theorem childUp (h : ShareOk f .up p v) : ShareOk f (.release false) { p with sig := p.sig + 1 } v := by
  cases h
  constructor <;> simp_all

theorem childRelease {last : Bool} (h : ShareOk f (.release last) p v) :
    ShareOk f (if last then .free else .gone) { p with holder := none } v := by
  have hfirst := h.childFirst
  cases h
  cases last with
  | true => constructor <;> simp_all
  | false =>
    have hover : f ≠ .over := fun h => by simp [h, Phase.letGo] at hfirst
    constructor <;> simp_all

theorem childFree (h : ShareOk f .free p v) : ShareOk f .gone { p with freed := p.freed + 1 } v := by
  cases h
  constructor <;> simp_all [Phase.letGo, Phase.locks, Phase.last, Phase.waited, Phase.value]

end

/-- A share that one of the two is not through with has not been freed. -/
theorem live (h : ShareOk f pc p v) (hor : f ≠ .over ∨ pc ≠ .gone) : p.freed = 0 := by
  rw [h.freed, if_neg]
  rintro ⟨hf, hpc⟩
  rcases hor with hor | hor
  · exact hor hf
  · exact hor hpc

end ShareOk

/-! ## The whole state -/

/-- How far the parent has come with the share of `c`. -/
def WaitState.phase (s : WaitState) (c : Tid) : Phase :=
  if c ∈ s.childShare then .listed else
  match s.parent with
  | .busy c' pc => if c' = c then .taken pc else .over
  | .running | .exiting | .gone => .over

/-- The parent is in `process_wait` with the share. -/
def ParentPc.inWait : ParentPc → Bool
  | .down | .read => true
  | .acquire inWait => inWait
  | .drop call | .release call _ | .free call => call.isSome

/-- The parent has not called `process_exit`. -/
def ParentAt.waits : ParentAt → Bool
  | .running => true
  | .busy _ pc => pc.inWait
  | .exiting | .gone => false

/-- The first return of `process_wait` for a child is the value that the child exits with, and every other is -1. -/
def WaitsOk (kids : List Tid) (v : Tid → Option Int) : List (Tid × Int) → Prop
  | [] => True
  | (tid, r) :: earlier => (if tid ∈ kids ∧ tid ∉ earlier.map Prod.fst then v tid = some r else r = -1) ∧ WaitsOk kids v earlier

/-- The invariant of a parent and its children. -/
structure WaitInv (kids : List Tid) (s : WaitState) : Prop where
  share : ∀ c ∈ kids, ShareOk (s.phase c) (s.child c) (s.shares c) (s.exitValue c)
  nodup : s.childShare.Nodup
  sub : ∀ c ∈ s.childShare, c ∈ kids
  busy : ∀ c pc, s.parent = .busy c pc → c ∈ kids ∧ c ∉ s.childShare
  fresh : ∀ c, s.child c = .running → s.exitValue c = none
  safe : s.badAccess = false
  results : WaitsOk kids s.exitValue s.waits
  unwaited : ∀ c, c ∈ s.childShare ∨ (∃ pc, s.parent = .busy c pc ∧ pc.inWait = true) → c ∉ s.waits.map Prod.fst
  waited : s.parent.waits = true → ∀ c ∈ kids, c ∉ s.childShare → c ∈ s.waits.map Prod.fst ∨ ∃ pc, s.parent = .busy c pc

attribute [local simp] setShare touch setChild leave touchList

namespace WaitInv

variable {kids : List Tid} {s s' : WaitState} {c : Tid}

theorem start (hnd : kids.Nodup) (junk : Tid → Int) : WaitInv kids (WaitState.start kids junk) where
  share c hc := by
    have hf : (WaitState.start kids junk).phase c = .listed := if_pos hc
    rw [hf]
    exact ShareOk.start (junk c)
  nodup := hnd
  sub _ := id
  busy _ _ h := by cases h
  fresh _ _ := rfl
  safe := rfl
  results := trivial
  unwaited _ _ := by simp [WaitState.start]
  waited _ c hc hn := absurd hc hn

section

variable (hi : WaitInv kids s)
include hi

theorem phase_busy (hp : s.parent = .busy c pc) : s.phase c = .taken pc := by
  rw [phase, if_neg (hi.busy c pc hp).2, hp]
  exact if_pos rfl

theorem busy_ok (hp : s.parent = .busy c pc) : ShareOk (.taken pc) (s.child c) (s.shares c) (s.exitValue c) :=
  hi.phase_busy hp ▸ hi.share c (hi.busy c pc hp).1

theorem listed_ok (hc : c ∈ s.childShare) : ShareOk .listed (s.child c) (s.shares c) (s.exitValue c) := by
  have hf : s.phase c = .listed := if_pos hc
  exact hf ▸ hi.share c (hi.sub c hc)

/-- The parent goes on with the share it is busy with. -/
theorem parentMove {pc' : ParentPc} (hp : s.parent = .busy c pc)
    (hw : pc'.inWait = pc.inWait) (hok : ShareOk (.taken pc') (s.child c) p (s.exitValue c)) :
    WaitInv kids { s.setShare c p with parent := .busy c pc' } := by
  have hc := hi.busy c pc hp
  have hlive := (hi.busy_ok hp).live (.inl (by simp))
  refine ⟨fun d hd => ?_, hi.nodup, hi.sub, fun d q hq => ?_, hi.fresh, ?_, hi.results, fun d hd => ?_, fun hwaits d hd hn => ?_⟩
  · rcases eq_or_ne d c with rfl | hne
    · have hf : phase { s.setShare d p with parent := .busy d pc' } d = .taken pc' := by
        simp [phase, hc.2]
      rw [hf]
      simpa using hok
    · have hf : phase { s.setShare c p with parent := .busy c pc' } d = s.phase d := by
        simp [phase, hp, Ne.symm hne]
      rw [hf]
      simpa [hne] using hi.share d hd
  · cases hq
    exact hc
  · simp [hi.safe, hlive]
  · refine hi.unwaited d (hd.imp id fun ⟨q, hq, hqw⟩ => ?_)
    cases hq
    exact ⟨pc, hp, hw ▸ hqw⟩
  · have hwaits' : s.parent.waits = true := by rw [hp]; exact hw.symm.trans hwaits
    rcases hi.waited hwaits' d hd hn with h | ⟨q, hq⟩
    · exact .inl h
    · rw [hp] at hq
      cases hq
      exact .inr ⟨pc', rfl⟩

/-- The parent is through with the share it is busy with. -/
theorem parentLeave (hp : s.parent = .busy c pc)
    (hw : pc.inWait = call.isSome) (hcall : (Phase.taken pc).value = call) (hok : ShareOk .over (s.child c) p (s.exitValue c)) :
    WaitInv kids ((s.setShare c p).leave c call) := by
  have hc := hi.busy c pc hp
  have hsh := hi.busy_ok hp
  have hlive := hsh.live (.inl (by simp))
  have hphase : ∀ d, phase ((s.setShare c p).leave c call) d = if d = c then .over else s.phase d := fun d => by
    rcases eq_or_ne d c with rfl | hne
    · cases call <;> simp [phase, hc.2]
    · cases call <;> simp [phase, hp, hne, Ne.symm hne]
  have hshare : ∀ d ∈ kids, ShareOk (phase ((s.setShare c p).leave c call) d) (s.child d) (update s.shares c p d)
      (s.exitValue d) := fun d hd => by
    rw [hphase]
    rcases eq_or_ne d c with rfl | hne
    · simpa using hok
    · simpa [hne] using hi.share d hd
  have hsafe : (s.badAccess || decide (0 < (s.shares c).freed)) = false := by simp [hi.safe, hlive]
  cases call with
  | none =>
    refine ⟨hshare, hi.nodup, hi.sub, fun d q hq => (by cases hq), hi.fresh, hsafe, hi.results, fun d hd => ?_,
      fun hwaits => (by cases hwaits)⟩
    rcases hd with hd | ⟨q, hq, -⟩
    · exact hi.unwaited d (.inl hd)
    · cases hq
  | some r =>
    have hfirst := hi.unwaited c (.inr ⟨pc, hp, by rw [hw]; rfl⟩)
    refine ⟨hshare, hi.nodup, hi.sub, fun d q hq => (by cases hq), hi.fresh, hsafe, ⟨?_, hi.results⟩, fun d hd => ?_,
      fun _ d hd hn => ?_⟩
    · rw [if_pos ⟨hc.1, hfirst⟩]
      exact hsh.value r hcall
    · rcases hd with hd | ⟨q, hq, -⟩
      · have hdc : d ≠ c := fun h => hc.2 (h ▸ hd)
        simpa [hdc] using hi.unwaited d (.inl hd)
      · cases hq
    rcases hi.waited (by rw [hp]; exact hw) d hd hn with h | ⟨q, hq⟩
    · exact .inl (List.mem_cons_of_mem _ h)
    · rw [hp] at hq
      cases hq
      exact .inl List.mem_cons_self

theorem childMove {pc : ChildPc} (hc : c ∈ kids) (hgone : s.child c ≠ .gone)
    (hrun : pc ≠ .running) (hok : ShareOk (s.phase c) pc p (s.exitValue c)) : WaitInv kids ((s.setShare c p).setChild c pc) := by
  have hlive := (hi.share c hc).live (.inr hgone)
  refine { hi with share := fun d hd => ?_, fresh := fun d hd => ?_, safe := ?_ }
  · have hf : phase ((s.setShare c p).setChild c pc) d = s.phase d := rfl
    rw [hf]
    rcases eq_or_ne d c with rfl | hne
    · simpa using hok
    · simpa [hne] using hi.share d hd
  · rcases eq_or_ne d c with rfl | hne
    · simp at hd
      exact absurd hd hrun
    · exact hi.fresh d (by simpa [hne] using hd)
  · simp [hi.safe, hlive]

/-- The shares on the list have not been freed. -/
theorem list_live : s.childShare.any (fun c => decide (0 < (s.shares c).freed)) = false := by
  rw [List.any_eq_false]
  intro c hc
  have hlive := (hi.listed_ok hc).live (.inl (by simp))
  simp [hlive]

theorem take {rest : List Tid} (hc : c ∈ s.childShare) (hrest : ∀ d, d ∈ rest ↔ d ≠ c ∧ d ∈ s.childShare)
    (hnd : rest.Nodup) (hfree : ∀ d q, s.parent ≠ .busy d q) (hw : pc.inWait = s.parent.waits)
    (hok : ShareOk (.taken pc) (s.child c) (s.shares c) (s.exitValue c)) :
    WaitInv kids { s.touchList with childShare := rest, parent := .busy c pc } := by
  have hkid := hi.sub c hc
  have hnot : c ∉ rest := fun h => ((hrest c).mp h).1 rfl
  refine ⟨fun d hd => ?_, hnd, fun d hd => hi.sub d ((hrest d).mp hd).2, fun d q hq => ?_, hi.fresh, ?_, hi.results,
    fun d hd => ?_, fun hwaits d hd hn => ?_⟩
  · rcases eq_or_ne d c with rfl | hne
    · have hf : phase { s.touchList with childShare := rest, parent := .busy d pc } d = .taken pc := by
        simp [phase, hnot]
      rw [hf]
      exact hok
    have hf : phase { s.touchList with childShare := rest, parent := .busy c pc } d = s.phase d := by
      by_cases hl : d ∈ s.childShare
      · simp [phase, hrest, hl, hne]
      · cases hpar : s.parent with
        | busy d' q => exact absurd hpar (hfree d' q)
        | _ => simp [phase, hrest, hl, hpar, Ne.symm hne]
    rw [hf]
    exact hi.share d hd
  · cases hq
    exact ⟨hkid, hnot⟩
  · simp [hi.safe, hi.list_live]
  · rcases hd with hd | ⟨q, hq, -⟩
    · exact hi.unwaited d (.inl ((hrest d).mp hd).2)
    · cases hq
      exact hi.unwaited c (.inl hc)
  · rcases eq_or_ne d c with rfl | hne
    · exact .inr ⟨pc, rfl⟩
    · have hn' : d ∉ s.childShare := fun h => hn ((hrest d).mpr ⟨hne, h⟩)
      rcases hi.waited (hw.symm.trans hwaits) d hd hn' with h | ⟨q, hq⟩
      · exact .inl h
      · exact absurd hq (hfree d q)

theorem processWait (hrun : s.parent = .running) (tid : Tid) : WaitInv kids (s.processWait tid) := by
  have hfree : ∀ d q, s.parent ≠ .busy d q := by simp [hrun]
  unfold WaitState.processWait
  split
  · rename_i hm
    exact hi.take hm (fun d => hi.nodup.mem_erase_iff) (hi.nodup.erase _) hfree (by rw [hrun]; rfl) (hi.listed_ok hm).toDown
  rename_i hm
  have hsafe : (s.badAccess || s.childShare.any (fun c => decide (0 < (s.shares c).freed))) = false := by
    simp [hi.safe, hi.list_live]
  refine ⟨hi.share, hi.nodup, hi.sub, hi.busy, hi.fresh, hsafe, ⟨?_, hi.results⟩, fun d hd => ?_, fun hwaits d hd hn => ?_⟩
  · rw [if_neg]
    rintro ⟨hk, hfirst⟩
    rcases hi.waited (by rw [hrun]; rfl) tid hk hm with h | ⟨q, hq⟩
    · exact hfirst h
    · exact hfree tid q hq
  · have hne : d ≠ tid := by
      rintro rfl
      rcases hd with hd | ⟨q, hq, -⟩
      · exact hm hd
      · exact hfree d q hq
    simpa [hne] using hi.unwaited d hd
  · exact (hi.waited hwaits d hd hn).imp (fun h => List.mem_cons_of_mem _ h) id

/-- A step of the parent with a share. -/
theorem parentGo (hp : s.parent = .busy c pc) (h : s.parentGo c pc = some s') : WaitInv kids s' := by
  have hsh := hi.busy_ok hp
  cases pc with
  | down =>
    obtain ⟨hs, h⟩ := ite_none_right_eq_some.mp h
    cases h
    exact hi.parentMove hp rfl (hsh.down hs)
  | acquire inWait =>
    obtain ⟨hs, h⟩ := ite_none_right_eq_some.mp h
    cases h
    exact hi.parentMove hp (by cases inWait <;> rfl) (hsh.acquire hs)
  | read =>
    cases h
    have hmove : WaitInv kids { s.setShare c (s.shares c) with parent := .busy c (.drop (some (s.shares c).rvalue)) } :=
      hi.parentMove hp rfl hsh.read
    rwa [setShare, update_eq_self] at hmove
  | drop call =>
    cases h
    exact hi.parentMove hp rfl hsh.drop
  | release call last =>
    cases last with
    | true =>
      cases h
      exact hi.parentMove hp rfl hsh.releaseLast
    | false =>
      cases h
      exact hi.parentLeave hp rfl rfl hsh.release
  | free call =>
    cases h
    exact hi.parentLeave hp rfl rfl hsh.free

/-- A parent that is busy with no share starts to exit, or ends. -/
theorem parentExit (hfree : ∀ d q, s.parent ≠ .busy d q) {p : ParentAt} (hp : p = .exiting ∨ p = .gone) :
    WaitInv kids { s with parent := p } := by
  have hbusy : ∀ d q, p ≠ .busy d q := by rcases hp with rfl | rfl <;> simp
  refine ⟨fun d hd => ?_, hi.nodup, hi.sub, fun d q hq => absurd hq (hbusy d q), hi.fresh, hi.safe, hi.results,
    fun d hd => ?_, fun hwaits => ?_⟩
  · have hf : phase { s with parent := p } d = s.phase d := by
      cases hpar : s.parent with
      | busy d' q => exact absurd hpar (hfree d' q)
      | _ => rcases hp with rfl | rfl <;> simp [phase, hpar]
    rw [hf]
    exact hi.share d hd
  · rcases hd with hd | ⟨q, hq, -⟩
    · exact hi.unwaited d (.inl hd)
    · exact absurd hq (hbusy d q)
  · rcases hp with rfl | rfl <;> cases hwaits

theorem exitLoop (hp : s.parent = .exiting) : WaitInv kids s.exitLoop := by
  have hfree : ∀ d q, s.parent ≠ .busy d q := by simp [hp]
  cases hl : s.childShare with
  | nil =>
    have he : s.exitLoop = { s with parent := .gone } := by simp only [WaitState.exitLoop, hl]
    rw [he]
    exact hi.parentExit hfree (.inr rfl)
  | cons c rest =>
    have he : s.exitLoop = { s.touchList with childShare := rest, parent := .busy c (.acquire false) } := by
      simp only [WaitState.exitLoop, hl]
    rw [he]
    have hnd := hi.nodup
    rw [hl, List.nodup_cons] at hnd
    have hm : c ∈ s.childShare := by rw [hl]; exact List.mem_cons_self
    refine hi.take hm (fun d => ?_) hnd.2 hfree (by rw [hp]; rfl) (hi.listed_ok hm).toAcquire
    rw [hl, List.mem_cons]
    constructor
    · exact fun h => ⟨fun he => hnd.1 (he ▸ h), .inr h⟩
    · exact fun ⟨hne, h⟩ => h.resolve_left hne

/-- A step of a child in `exit_share`. -/
theorem childGo (hc : c ∈ kids) (h : s.childGo c (s.child c) = some s') : WaitInv kids s' := by
  have hsh := hi.share c hc
  have hmove := fun p pc => @childMove p _ _ _ hi pc hc
  cases hpc : s.child c <;> rw [hpc] at h hsh hmove
  case running | gone => cases h
  case acquire =>
    obtain ⟨hs, h⟩ := ite_none_right_eq_some.mp h
    cases h
    exact hmove _ _ nofun nofun (hsh.childAcquire hs)
  case drop =>
    cases h
    exact hmove _ _ nofun (by split <;> simp) hsh.childDrop
  case setRvalue =>
    cases h
    exact hmove _ _ nofun nofun hsh.childSet
  case up =>
    cases h
    exact hmove _ _ nofun nofun hsh.childUp
  case release last =>
    cases h
    exact hmove _ _ nofun (by cases last <;> simp) hsh.childRelease
  case free =>
    cases h
    exact hmove _ _ nofun nofun hsh.childFree

end

/-- A child that has not exited is in no result of `process_wait`. -/
theorem waitsOk_update {v : Tid → Option Int} {l : List (Tid × Int)} (h : WaitsOk kids v l) (hc : v c = none) (r : Int) :
    WaitsOk kids (update v c (some r)) l := by
  induction l with
  | nil => trivial
  | cons e l ih =>
    obtain ⟨tid, r'⟩ := e
    refine ⟨?_, ih h.2⟩
    have h1 := h.1
    split at h1
    · rename_i hk
      have hne : tid ≠ c := fun he => by rw [he, hc] at h1; cases h1
      rw [if_pos hk, update_of_ne hne, h1]
    · rename_i hk
      rw [if_neg hk, h1]

theorem childExit (hi : WaitInv kids s) (hpc : s.child c = .running) (r : Int) :
    WaitInv kids { s.setChild c .acquire with exitValue := update s.exitValue c (some r) } := by
  refine { hi with share := fun d hd => ?_, fresh := fun d hd => ?_, results := waitsOk_update hi.results (hi.fresh c hpc) r }
  · have hf : phase { s.setChild c .acquire with exitValue := update s.exitValue c (some r) } d = s.phase d := rfl
    rw [hf]
    have hsh := hi.share d hd
    rcases eq_or_ne d c with rfl | hne
    · rw [hpc] at hsh
      simpa using hsh.childExit r
    · simpa [hne] using hsh
  · rcases eq_or_ne d c with rfl | hne
    · simp at hd
    · simpa [hne] using hi.fresh d (by simpa [hne] using hd)

theorem step {a : WaitAction} (hi : WaitInv kids s) (h : step kids s a = some s') : WaitInv kids s' := by
  cases a with
  | processWait tid =>
    obtain ⟨hrun, h⟩ := ite_none_right_eq_some.mp h
    exact some.inj h ▸ hi.processWait hrun tid
  | processExit =>
    obtain ⟨hrun, h⟩ := ite_none_right_eq_some.mp h
    cases h
    exact hi.parentExit (by simp [hrun]) (.inl rfl)
  | parentGo =>
    simp only [WaitState.step] at h
    cases hp : s.parent with
    | running | gone => rw [hp] at h; cases h
    | busy c pc =>
      rw [hp] at h
      exact hi.parentGo hp h
    | exiting =>
      rw [hp] at h
      exact some.inj h ▸ hi.exitLoop hp
  | childExit c r =>
    obtain ⟨⟨-, hpc⟩, h⟩ := ite_none_right_eq_some.mp h
    exact some.inj h ▸ hi.childExit hpc r
  | childGo c =>
    obtain ⟨hc, h⟩ := ite_none_right_eq_some.mp h
    exact hi.childGo hc h

theorem reached (h : (waitSystem kids).Reachable s) : WaitInv kids s := by
  refine Transition.System.Reachable.invariant h ?_ ?_
  · rintro s ⟨hnd, junk, rfl⟩
    exact .start hnd junk
  · exact fun s a s' hi hs => hi.step hs

end WaitInv

end Pintos
