import Pintos.Lemmas.WaitExit

/-!
# The protocol of waiting and exiting

Parent and child each take one from `refcount` under the lock of the share, and the one that finds 0 frees it. The one that
does not find 0 is not yet through with the lock at that time; but the other cannot have the lock before it has been
released, and after releasing it the first never comes back.
-/

namespace Pintos

/-- What waiting and exiting promise, in a state. -/
structure WaitOk (kids : List Tid) (s : WaitState) : Prop where
  /-- The first time, `process_wait` returns for a child the value that the child exited with. -/
  first : ∀ later tid r earlier, s.waits = later ++ (tid, r) :: earlier → tid ∈ kids → tid ∉ earlier.map Prod.fst →
    s.exitValue tid = some r
  /-- Every later time, and for a `tid` that is not a child's, it returns -1. -/
  other : ∀ later tid r earlier, s.waits = later ++ (tid, r) :: earlier → tid ∉ kids ∨ tid ∈ earlier.map Prod.fst → r = -1
  /-- `refcount` is the number of the parties that have not let go. -/
  refcount : ∀ c ∈ kids, (s.shares c).refcount = (if (s.phase c).letGo then 0 else 1) + (if (s.child c).letGo then 0 else 1)
  /-- A share is freed once, when both are through with it. -/
  freed : ∀ c ∈ kids, (s.shares c).freed = if s.phase c = .over ∧ s.child c = .gone then 1 else 0
  /-- No share has been used after it was freed. -/
  safe : s.badAccess = false
  /-- A parent that cannot go on waits for a child that can. -/
  parentWaits : ∀ c pc, s.parent = .busy c pc → s.parentGo c pc = none →
    c ∈ kids ∧ (s.child c = .running ∨ ∃ s', s.childGo c (s.child c) = some s')
  /-- A child in `process_exit` that cannot go on waits for a parent that can. -/
  childWaits : ∀ c ∈ kids, s.child c ≠ .running → s.child c ≠ .gone → s.childGo c (s.child c) = none →
    ∃ pc s', s.parent = .busy c pc ∧ s.parentGo c pc = some s'

/-- What the results say of one of them. -/
theorem WaitsOk.drop {kids : List Tid} {v : Tid → Option Int} {later l : List (Tid × Int)} (h : WaitsOk kids v (later ++ l)) :
    WaitsOk kids v l := by
  induction later with
  | nil => exact h
  | cons e later ih => exact ih h.2

/-- A parent that is stuck is so on its child, which is not. -/
theorem ShareOk.parent_stuck {s : WaitState} {c : Tid} {pc : ParentPc}
    (h : ShareOk (.taken pc) (s.child c) (s.shares c) (s.exitValue c)) (hstuck : s.parentGo c pc = none) :
    s.child c = .running ∨ ∃ s', s.childGo c (s.child c) = some s' := by
  cases pc with
  | down =>
    have hsig : ¬ 0 < (s.shares c).sig := fun hs => by simp [WaitState.parentGo, hs] at hstuck
    have hno : (s.child c).signalled ≠ true := fun hs => hsig (by rw [h.sig (.inr rfl), if_pos hs]; exact Nat.one_pos)
    have hhold := h.holder
    cases hpc : s.child c with
    | running => exact .inl rfl
    | gone => simp [hpc, ChildPc.signalled] at hno
    | acquire =>
      rw [hpc] at hhold
      exact .inr ⟨_, if_pos (by simpa [Phase.locks, ChildPc.locks] using hhold)⟩
    | _ => exact .inr ⟨_, rfl⟩
  | acquire inWait =>
    have hne : (s.shares c).holder ≠ none := fun hs => by simp [WaitState.parentGo, hs] at hstuck
    rw [h.holder] at hne
    cases hpc : s.child c with
    | running => exact .inl rfl
    | gone | acquire => simp [hpc, Phase.locks, ChildPc.locks] at hne
    | _ => exact .inr ⟨_, rfl⟩
  | read | drop call | free call => cases hstuck
  | release call last => cases last <;> cases hstuck

/-- A child that is stuck is so on its parent, which is not. -/
theorem WaitInv.child_stuck {kids : List Tid} {s : WaitState} (hi : WaitInv kids s) {c : Tid} (hc : c ∈ kids)
    (hrun : s.child c ≠ .running)
    (hgone : s.child c ≠ .gone) (hstuck : s.childGo c (s.child c) = none) : ∃ pc s', s.parent = .busy c pc ∧
    s.parentGo c pc = some s' := by
  have hsh := hi.share c hc
  cases hpc : s.child c with
  | running => exact absurd hpc hrun
  | gone => exact absurd hpc hgone
  | acquire =>
    rw [hpc] at hstuck hsh
    have hne : (s.shares c).holder ≠ none := fun hs => by simp [WaitState.childGo, hs] at hstuck
    have hlocks : (s.phase c).locks = true := by
      by_contra hno
      rw [hsh.holder, if_neg hno] at hne
      exact hne rfl
    -- only a parent that is busy with the share has its lock
    unfold WaitState.phase at hlocks
    split at hlocks
    · simp [Phase.locks] at hlocks
    cases hp : s.parent with
    | busy c' pc =>
      rw [hp] at hlocks
      simp only at hlocks
      split at hlocks
      · rename_i he
        subst he
        refine ⟨pc, ?_⟩
        cases pc with
        | read | drop call => exact ⟨_, rfl, rfl⟩
        | release call last => cases last <;> exact ⟨_, rfl, rfl⟩
        | _ => simp [Phase.locks] at hlocks
      · simp [Phase.locks] at hlocks
    | _ =>
      rw [hp] at hlocks
      simp [Phase.locks] at hlocks
  | _ => rw [hpc] at hstuck; cases hstuck

/-- In every state that any interleaving of a parent and its registered children reaches, waiting and exiting keep their
promises. -/
theorem wait_and_exit (kids : List Tid) (s : WaitState) (h : (waitSystem kids).Reachable s) : WaitOk kids s := by
  have hi := WaitInv.reached h
  have hdrop : ∀ later tid r earlier, s.waits = later ++ (tid, r) :: earlier →
      (if tid ∈ kids ∧ tid ∉ earlier.map Prod.fst then s.exitValue tid = some r else r = -1) := fun later tid r earlier hl => by
    have hok : WaitsOk kids s.exitValue ((tid, r) :: earlier) := WaitsOk.drop (hl ▸ hi.results)
    exact hok.1
  refine ⟨?_, ?_, fun c hc => (hi.share c hc).refcount, fun c hc => (hi.share c hc).freed, hi.safe, ?_, ?_⟩
  · intro later tid r earlier hl hk hn
    have hr := hdrop later tid r earlier hl
    rwa [if_pos ⟨hk, hn⟩] at hr
  · intro later tid r earlier hl hor
    have hr := hdrop later tid r earlier hl
    rwa [if_neg] at hr
    rintro ⟨hk, hn⟩
    rcases hor with hor | hor
    · exact hor hk
    · exact hn hor
  · intro c pc hp hstuck
    have hc := (hi.busy c pc hp).1
    have hsh := hi.share c hc
    rw [hi.phase_busy hp] at hsh
    exact ⟨hc, hsh.parent_stuck hstuck⟩
  · exact fun c hc hrun hgone hstuck => hi.child_stuck hc hrun hgone hstuck

/-- The parent waits for its child 3 before the child exits with 7, and then waits for it again. -/
def waitTwice : List WaitAction :=
  [.processWait 3, .childExit 3 7, .childGo 3, .childGo 3, .childGo 3, .childGo 3, .parentGo, .childGo 3,
   .parentGo, .parentGo, .parentGo, .parentGo, .parentGo, .processWait 3]

/-- In the run of `waitTwice` the calls return 7 and -1, and the share has been freed. -/
theorem wait_and_exit_twice :
    ∃ s, (waitSystem [3]).run (WaitState.start [3] fun _ => 0) waitTwice = some s ∧ WaitOk [3] s ∧
      s.waits = [(3, -1), (3, 7)] ∧ (s.shares 3).freed = 1 :=
  Transition.System.exists_run ⟨by decide, _, rfl⟩ .always (wait_and_exit [3]) (by decide)

end Pintos
