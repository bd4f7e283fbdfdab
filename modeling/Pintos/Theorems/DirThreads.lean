import Mathlib.Data.List.Permutation
import Pintos.Lemmas.DirThreads

/-!
# Directory calls of several threads: what the missing lock costs

`dir_add` looks for its name, then for a free entry, then writes, and nothing keeps another thread from writing in between:
two calls can pick the same free entry, and the second write loses the first (`dir_add_lost`). Where every write falls
outside the other threads' calls, the calls have the outcome of a serial order (`dir_updates_serialize`).
-/

namespace Pintos

open DirState

/-- In every run in which a thread writes to the directory only while no other thread is between the first read and the
return of its call, the calls that have returned had the outcome of some serial order. If they all add, each that succeeded
has left its entry, and no two with one name succeeded. -/
theorem dir_updates_serialize (slots : List DirEntry) (s : DirState) (h : (dirSystem slots).ReachableIf DirState.WriteApart s) :
    s.Serializable slots ∧
      ((∀ ev ∈ s.done, ev.call.isAdd = true) →
        (∀ name sector old ok, { call := .add name sector old, ok := ok, result := true } ∈ s.done →
          (name, sector) ∈ inUseEntries s.slots) ∧
        s.done.Pairwise (fun a b => a.result = true → b.result = true → a.call.name ≠ b.call.name)) := by
  have hi : DirInv slots s := h.invariant (fun _ h0 => h0 ▸ DirInv.start slots) (fun _ _ _ hi hg hs => DirInv.step hi hg hs)
  refine ⟨⟨s.done, s.slots, .rfl, hi.serial, .rfl⟩, fun ha => ⟨?_, replay_adds_names hi.serial ha⟩⟩
  intro name sector old ok hm
  exact replay_adds_mem hi.serial ha hm

/-- An entry that is not in use. -/
def freeEntry : DirEntry := { inodeSector := 0, name := List.replicate 15 0, inUse := false }

/-- The name of one letter that the first thread adds. -/
def nameA : CString := { bytes := [97], noNul := by simp }

/-- Another name of one letter. -/
def nameB : CString := { bytes := [98], noNul := by simp }

/-- One thread adds a name to an empty directory. A second thread begins to add the same name before, and looks after the
first is done. -/
def serialActions : List DirAction :=
  [.call 0 (.add nameA 5 freeEntry), .call 1 (.add nameA 6 freeEntry), .go 0 true, .go 0 true, .go 0 true, .go 1 true]

/-- The run of `serialActions` keeps its writes apart: the first thread's entry is there, and the second thread's call has
failed. -/
theorem dir_updates_serialize_two :
    ∃ s, (dirSystem []).run (start []) serialActions = some s ∧
      s.done = [⟨.add nameA 5 freeEntry, true, true⟩, ⟨.add nameA 6 freeEntry, true, false⟩] ∧
      s.Serializable [] ∧ (nameA, 5) ∈ inUseEntries s.slots := by
  obtain ⟨s, hs, hd⟩ : ∃ s, (dirSystem []).run (start []) serialActions = some s ∧
      s.done = [⟨.add nameA 5 freeEntry, true, true⟩, ⟨.add nameA 6 freeEntry, true, false⟩] := by decide +kernel
  have hm : (dirSystem []).Meets DirState.WriteApart (start []) serialActions := by
    -- The first thread writes. The second has begun its call and read nothing.
    refine .cons trivial rfl
      (.cons trivial rfl (.cons nofun rfl (.cons nofun rfl (.cons (fun _ u hu hr => ?_) rfl (.cons nofun rfl trivial)))))
    by_cases hu1 : u = 1
    · subst hu1
      exact hr.2 _ rfl
    · exact hr.1 (by simp [setPc, lookupStep, scanStep, start, hu, hu1])
  have h := dir_updates_serialize _ s (Transition.System.ReachableIf.run (.init rfl) serialActions hm hs)
  exact ⟨s, hs, hd, h.1, (h.2 (by simp [hd, DirCall.isAdd])).1 nameA 5 freeEntry true (by simp [hd])⟩

/-- Two threads add different names. Both find the one free entry before either has written. -/
def racingAdds : List DirAction :=
  [.call 0 (.add nameA 5 freeEntry), .call 1 (.add nameB 6 freeEntry), .go 0 true, .go 0 true, .go 0 true,
    .go 1 true, .go 1 true, .go 1 true, .go 0 true, .go 1 true]

/-- Two calls of `dir_add` that both succeed can leave one entry: no serial order of them does. -/
theorem dir_add_lost : ∃ s, (dirSystem [freeEntry]).Reachable s ∧ ¬s.Serializable [freeEntry] := by
  obtain ⟨s, hs, hdone, hlen⟩ : ∃ s, (dirSystem [freeEntry]).Reachable s ∧
      s.done = [⟨.add nameA 5 freeEntry, true, true⟩, ⟨.add nameB 6 freeEntry, true, true⟩] ∧ (inUseEntries s.slots).length = 1 :=
    Transition.System.exists_reachable rfl racingAdds (by decide +kernel)
  refine ⟨s, hs, ?_⟩
  rintro ⟨order, slots', hperm, hreplay, hsame⟩
  -- Either order of the two calls leaves two entries in use.
  have hall : ∀ order ∈ [⟨.add nameA 5 freeEntry, true, true⟩, (⟨.add nameB 6 freeEntry, true, true⟩ : DirEvent)].permutations',
      (replay [freeEntry] order).map (fun slots => (inUseEntries slots).length) = some 2 := by decide +kernel
  have h2 := hall order (List.mem_permutations'.mpr (hdone ▸ hperm))
  rw [hreplay, Option.map_some, Option.some.injEq, hsame.length_eq, hlen] at h2
  cases h2

end Pintos
