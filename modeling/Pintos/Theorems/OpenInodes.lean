import Pintos.Lemmas.OpenInodes

/-!
# The table of open inodes: what the unlocked stretches cost

`inode_open` gives up `open_inodes_lock` between its lookup and its insertion, and fills the structure in after the
insertion. Two threads that open one sector at the same time get two structures for it. Where lookups keep clear of the
sectors that other threads are opening or closing for the last time, the table is what it is meant to be.
-/

namespace Pintos

open TableState

/-- In every run in which no thread looks a sector up while another thread is busy with that sector, or while a structure
that is not filled in yet carries it in its old bytes, the table is right in every state. -/
theorem open_inodes_ok (disk : Nat → Contents) (s : TableState)
    (h : (tableSystem disk).ReachableIf LookupApart s) : TableOk s := by
  have hi : TableInv s := h.invariant (fun _ h0 => h0 ▸ TableInv.start disk) (fun _ _ _ hi hg hs => TableInv.step hi hg hs)
  refine ⟨hi.sole, ?_, ?_, ?_⟩
  · intro a c hc h1 h2
    have hcnt := hi.counted a c hc
    unfold InodeCell.Counted at hcnt
    cases hst : c.stage with
    | allocated => exact absurd hst h1
    | pushed => exact absurd hst h2
    | assigned | unlinked => rw [hst] at hcnt; exact hcnt.2
    | loaded => rw [hst] at hcnt; exact hcnt
  · intro t a c hm hc
    obtain ⟨d, hd, hs⟩ := hi.held t a hm
    rw [hc] at hd
    cases hd
    exact hs.imp id (fun hx => hx.2)
  · intro t a hm hn
    obtain ⟨c, hc, _⟩ := hi.held t a hm
    rw [hn] at hc
    cases hc

/-- What memory holds before `inode_open` fills it in: the bytes of no sector in particular. -/
def staleInode : Inode :=
  { sector := 99, openCnt := 77, removed := true, extending := true, denyWriteCnt := 5, data := Contents.fill 0 }

/-- A disk of zeros. -/
def zeroDisk : Nat → Contents := fun _ => Contents.fill 0

/-- One thread opens sector 5; a second thread, once the first has returned, opens it too and closes it. -/
def apartActions : List TableAction :=
  [.openSector 0 5, .go 0, .malloc 0 (some (10, staleInode)), .go 0, .go 0, .go 0,
    .openSector 1 5, .go 1, .close 1 10]

/-- The run of `apartActions` keeps its lookups apart, and ends with the first thread's reference counted. -/
theorem open_inodes_ok_apart :
    ∃ s, (tableSystem zeroDisk).run (start zeroDisk) apartActions = some s ∧ TableOk s ∧ s.refs = [(0, 10)] := by
  refine Transition.System.exists_run rfl ?_ (open_inodes_ok zeroDisk) (by decide)
  -- Only the second and the eighth step are lookups.
  refine .cons trivial rfl (.cons (fun x hx => ?_) rfl (.cons trivial rfl (.cons nofun rfl (.cons nofun rfl (.cons nofun rfl
    (.cons trivial rfl (.cons (fun x hx => ?_) rfl (.cons trivial rfl trivial))))))))
  · cases hx
    refine ⟨fun u hu => ?_, fun u y a hf => ?_⟩
    · simp [busyWith, setPc, start, hu]
    · by_cases hu : u = 0 <;> simp [setPc, start, hu] at hf
  · cases hx
    refine ⟨fun u hu => ?_, fun u y a hf => ?_⟩
    · by_cases hu0 : u = 0 <;>
        simp [busyWith, setPc, setCell, start, hu, hu0]
    · by_cases hu0 : u = 0 <;> by_cases hu1 : u = 1 <;>
        simp [setPc, setCell, start, hu0, hu1] at hf

/-- Two threads open sector 5. Both look it up before either has pushed. -/
def racingActions : List TableAction :=
  [.openSector 0 5, .openSector 1 5, .go 0, .go 1, .malloc 0 (some (10, staleInode)), .malloc 1 (some (11, staleInode)),
    .go 0, .go 0, .go 0, .go 1, .go 1, .go 1]

/-- Two threads that open one sector at the same time leave two live structures for it: the table is not what it is meant to
be. -/
theorem open_inodes_duplicated : ∃ s, (tableSystem zeroDisk).Reachable s ∧ ¬TableOk s := by
  obtain ⟨s, hs, ⟨c, hc, htc⟩, d, hd, htd⟩ : ∃ s, (tableSystem zeroDisk).Reachable s ∧ (∃ c, s.cells 10 = some c ∧ c.target = 5) ∧
      ∃ d, s.cells 11 = some d ∧ d.target = 5 := Transition.System.exists_reachable rfl racingActions (by decide)
  exact ⟨s, hs, fun hok => absurd (hok.sole 10 11 c d hc hd (htc.trans htd.symm)) (by decide)⟩

end Pintos
