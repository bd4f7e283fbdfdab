import Pintos.Lemmas.DenyWrite

/-!
# Writers and write-deniers exclude each other

The counter `deny_write_cnt` says, in every reachable state of every interleaving, how many denials are outstanding or how
many writers are active, and never are there both.
-/

namespace Pintos

open WriteState

/-- What `deny_write_cnt` is for, in a state. -/
structure DenyOk (s : WriteState) : Prop where
  /-- The counter is the number of outstanding denials, or minus the number of writers between their entry and exit
  sections. -/
  counted : ∃ W D : Finset Nat, (∀ t, t ∈ W ↔ (s.threads t).isWriting = true) ∧ (∀ o, o ∈ D ↔ (s.openers o).outstanding = true) ∧
    ((W = ∅ ∧ s.inode.denyWriteCnt = D.card) ∨ (D = ∅ ∧ s.inode.denyWriteCnt = -(W.card : Int)))
  /-- Never are a denial outstanding and a writer active at the same time. -/
  exclusive : ∀ t o, (s.threads t).isWriting = true → (s.openers o).outstanding = false
  /-- A write that starts while a denial is outstanding returns 0 and copies nothing. -/
  refused : ∀ t c choice, s.threads t = .enter c → (∃ o, (s.openers o).outstanding = true) →
    ∃ s', s.step (.go t choice) = some s' ∧ s'.threads t = .idle ∧ s'.returned = (c, 0) :: s.returned ∧ s'.dev.disk = s.dev.disk
  /-- The assertions of `inode_deny_write` and `inode_allow_write` have not failed. -/
  asserted : ∀ t, s.threads t ≠ .assertFailed

/-- In every state that any interleaving of `inode_write_at`, `inode_deny_write` and `inode_allow_write` reaches, writers and
deniers exclude each other. -/
theorem writers_and_deniers (sector : Nat) (w : BlockWorld) (s : WriteState) (h : (writeSystem sector w).Reachable s) :
    DenyOk s := by
  obtain ⟨W, D, O, hi⟩ := DenyInv.reached h
  refine ⟨⟨W, D, hi.writers, hi.deniers, hi.balance⟩, ?_, ?_, hi.asserted⟩
  · intro t o ht
    have htW := (hi.writers t).mpr ht
    cases ho : (s.openers o).outstanding with
    | false => rfl
    | true =>
      rw [(hi.cnt_eq ((hi.deniers o).mpr ho)).1] at htW
      exact absurd htW (Finset.notMem_empty t)
  · rintro t c choice hpc ⟨o, ho⟩
    have hpos := (hi.assertions ((hi.deniers o).mpr ho)).1
    refine ⟨s.ret t c 0, ?_, ?_, rfl, rfl⟩
    · simp [step, hpc, advance, Inode.enterWrite, hpos]
    · simp [ret, setPc]

/-- A device of 16 sectors of zeros, and an empty file on it. -/
def emptyFile : BlockWorld :=
  { data := Contents.fill 0, used := fun x => decide (x < 3), dev := { size := 16, disk := fun _ => Contents.fill 0 } }

/-- A write of three bytes. -/
def smallWrite : WriteCall := { buffer := [1, 2, 3], size := 3, offset := 0 }

/-- A second opener denies writes; then a thread tries to write. -/
def refusedActions : List WriteAction :=
  [.reopen 1, .deny 0 1, .go 0 none, .go 0 none, .write 1 smallWrite, .go 1 none]

/-- The write of `refusedActions` has returned 0. -/
theorem writers_and_deniers_refused :
    ∃ s, (writeSystem 2 emptyFile).run (start 2 emptyFile) refusedActions = some s ∧
      DenyOk s ∧ s.returned = [(smallWrite, 0)] ∧ s.inode.denyWriteCnt = 1 :=
  Transition.System.exists_run rfl .always (writers_and_deniers 2 emptyFile) (by decide)

end Pintos
