import Pintos.Filesys.DirThreads

/-!
# What a directory call knows, and what serial calls leave

A call that has read some entries knows something about the directory as long as nobody writes to it (`DirPhase`): `lookup`
that no entry before its place has the name, the second loop of `dir_add` that no entry at all has the name and none before
its place is free. So its write is what the whole call does in one go (`DirCall.exec`).
-/

namespace Pintos

open DirCall DirState List

variable {e : DirEntry} {p : DirEntry → Bool} {k t : Nat} {c : DirCall}

/-! ## One call -/

/-- What a thread inside a call knows about the directory. -/
def DirPhase (slots : List DirEntry) : DirPc → Prop
  | .idle => True
  | .lookup c k => c.validName = true ∧ ∀ j < k, ∀ e, slots[j]? = some e → e.isNamed c.name = false
  | .scan name sector old k e =>
    (add name sector old).validName = true ∧ slots.any (fun e => e.isNamed name) = false ∧
      (∀ j < k, ∀ e', slots[j]? = some e' → e'.inUse = true) ∧ k ≤ slots.length ∧ e = ((slots.take k).getLast?).getD old
  | .insert name sector old k e =>
    (add name sector old).validName = true ∧ slots.any (fun e => e.isNamed name) = false ∧
      slots.findIdx (fun e => !e.inUse) = k ∧ e = ((slots.take (k + 1)).getLast?).getD old
  | .opening name k e => slots.findIdx? (fun e => e.isNamed name) = some k ∧ slots[k]? = some e
  | .erase name k e => slots.findIdx? (fun e => e.isNamed name) = some k ∧ slots[k]? = some e

namespace DirAux

variable {slots : List DirEntry}

/-- The last of the first entries up to an entry is that entry. -/
theorem getLast?_take_succ (h : slots[k]? = some e) : (slots.take (k + 1)).getLast? = some e := by
  simp [take_add_one, h]

/-- The first entry with a property is where no entry before has it. -/
theorem findIdx?_eq_some (h : slots[k]? = some e)
    (hp : p e = true) (hlt : ∀ j < k, ∀ e', slots[j]? = some e' → p e' = false) : slots.findIdx? p = some k := by
  obtain ⟨hk, rfl⟩ := List.getElem?_eq_some_iff.mp h
  refine findIdx?_eq_some_iff_getElem.mpr ⟨hk, hp, fun j hj => ?_⟩
  have := hlt j hj slots[j] (getElem?_eq_getElem _)
  simp [this]

/-- No entry has a property if none before a place past the end has. -/
theorem any_eq_false_of_lt (h : slots[k]? = none)
    (hlt : ∀ j < k, ∀ e', slots[j]? = some e' → p e' = false) : slots.any p = false := by
  have hk := getElem?_eq_none_iff.mp h
  rw [any_eq_false]
  intro e he
  obtain ⟨j, hj, rfl⟩ := getElem_of_mem he
  simp [hlt j (by omega) slots[j] (getElem?_eq_getElem _)]

end DirAux

open DirAux

variable {slots slots' : List DirEntry} {name : CString} {sector : Nat} {old : DirEntry} {ok : Bool} {evs : List DirEvent}

/-- What `dir_add` does when the name is valid and not in use. -/
theorem DirCall.exec_add (ok : Bool)
    (hv : (add name sector old).validName = true) (hn : slots.any (·.isNamed name) = false) :
    (add name sector old).exec slots ok =
      endWithWrite slots (slots.findIdx (fun e => !e.inUse))
        ((((slots.take (slots.findIdx (fun e => !e.inUse) + 1)).getLast?).getD old).fill name sector) ok := by
  simp [exec, hv, hn]

/-- What `dir_add` does when the name is not valid. -/
theorem DirCall.exec_add_invalid (ok : Bool)
    (hv : ¬(add name sector old).validName = true) : (add name sector old).exec slots ok = (false, slots) := by
  simp [exec, hv]

/-- What `dir_add` does when the name is in use. -/
theorem DirCall.exec_add_named (ok : Bool)
    (hn : slots.any (·.isNamed name) = true) : (add name sector old).exec slots ok = (false, slots) := by
  simp [exec, hn]

/-- What `dir_remove` does when the name is in use. -/
theorem DirCall.exec_remove (ok : Bool) (hk : slots.findIdx? (·.isNamed name) = some k) (he : slots[k]? = some e) :
    (remove name).exec slots ok =
      if ok then endWithWrite slots k { e with inUse := false } true else (false, slots) := by
  simp [exec, hk, he]

/-- What `dir_remove` does when the name is not in use. -/
theorem DirCall.exec_remove_missing (ok : Bool)
    (hn : slots.any (·.isNamed name) = false) : (remove name).exec slots ok = (false, slots) := by
  have : slots.findIdx? (·.isNamed name) = none := by
    simpa [any_eq_false] using hn
  simp [exec, this]

/-- A thread that has read nothing knows nothing that a write could change. -/
theorem DirPhase.of_not_reading {s : DirState} (h : DirPhase s.slots (s.threads t)) (hr : ¬s.Reading t)
    (slots' : List DirEntry) : DirPhase slots' (s.threads t) := by
  unfold Reading at hr
  cases hpc : s.threads t with
  | idle => trivial
  | lookup c k =>
    rw [hpc] at h hr
    obtain rfl : k = 0 := by
      by_contra hk
      exact hr ⟨by simp, fun c' => by simp [hk]⟩
    exact ⟨h.1, fun j hj => by omega⟩
  | _ => exact absurd ⟨by simp [hpc], fun c => by simp [hpc]⟩ hr

/-! ## Serial calls -/

/-- An entry in use says its name and its sector. -/
theorem mem_inUseEntries : (name, sector) ∈ inUseEntries slots ↔ ∃ e ∈ slots, e.isNamed name = true ∧ e.inodeSector = sector := by
  simp only [inUseEntries, mem_map, mem_filter, DirEntry.isNamed, Prod.mk.injEq, Bool.and_eq_true, beq_iff_eq]
  constructor
  · rintro ⟨e, ⟨he, hu⟩, hn, hs⟩
    exact ⟨e, he, ⟨hu, hn⟩, hs⟩
  · rintro ⟨e, he, ⟨hu, hn⟩, hs⟩
    exact ⟨e, ⟨he, hu⟩, hn, hs⟩

/-- A write over a free entry, or at the end, keeps the entries in use. -/
theorem mem_of_writeSlot {x : DirEntry}
    (hw : writeSlot slots k e ok = some slots') (hfree : ∀ y, slots[k]? = some y → y.inUse = false) (hx : x ∈ slots)
    (hu : x.inUse = true) : x ∈ slots' := by
  unfold writeSlot at hw
  split at hw
  · cases hw
    obtain ⟨j, hj, rfl⟩ := getElem_of_mem hx
    have hjk : k ≠ j := by
      rintro rfl
      simp [hfree _ (getElem?_eq_getElem hj)] at hu
    exact mem_iff_getElem.mpr ⟨j, by simpa using hj, by simp [hjk]⟩
  · split at hw
    · cases hw
      exact mem_append_left _ hx
    · cases hw

theorem mem_writeSlot_self (hw : writeSlot slots k e ok = some slots') : e ∈ slots' := by
  unfold writeSlot at hw
  split at hw
  · cases hw
    exact mem_iff_getElem.mpr ⟨k, by simpa, by simp⟩
  · split at hw
    · cases hw
      simp
    · cases hw

/-- The entry `dir_add` fills has the name and the sector it was given. -/
theorem DirEntry.fill_isNamed (e : DirEntry) (hlen : name.strlen ≤ nameMax) (sector : Nat) :
    (e.fill name sector).isNamed name = true := by
  simp [DirEntry.fill, DirEntry.isNamed, cstr_strlcpy _ name (nameMax + 1) (by omega)]

/-- A call of `dir_add` that succeeds found its name not in use. -/
theorem DirCall.exec_add_fresh (h : ((add name sector old).exec slots ok).1 = true) :
    (add name sector old).validName = true ∧ slots.any (·.isNamed name) = false := by
  constructor
  · by_contra hv
    rw [exec_add_invalid ok hv] at h
    cases h
  · by_contra hn
    rw [exec_add_named ok (by simpa using hn)] at h
    cases h

/-- A call of `dir_add` keeps the entries in use, and its own is there if it succeeds. -/
theorem DirCall.exec_add_entries (slots : List DirEntry) (name : CString) (sector : Nat) (old : DirEntry) (ok : Bool) :
    inUseEntries slots ⊆ inUseEntries ((add name sector old).exec slots ok).2 ∧
      (((add name sector old).exec slots ok).1 = true →
        (name, sector) ∈ inUseEntries ((add name sector old).exec slots ok).2) := by
  by_cases hv : (add name sector old).validName = true
  · by_cases hn : slots.any (·.isNamed name) = true
    · simp [exec_add_named ok hn]
    have hfree : ∀ y, slots[slots.findIdx (fun e => !e.inUse)]? = some y → y.inUse = false := by
      intro y hy
      obtain ⟨hk, rfl⟩ := List.getElem?_eq_some_iff.mp hy
      simpa using findIdx_getElem (w := hk)
    rw [exec_add ok hv (by simpa using hn)]
    unfold endWithWrite
    split
    · rename_i slots' hw
      refine ⟨?_, fun _ => ?_⟩
      · rintro ⟨n, x⟩ hnx
        obtain ⟨e, he, hen, hes⟩ := mem_inUseEntries.mp hnx
        exact mem_inUseEntries.mpr ⟨e, mem_of_writeSlot hw hfree he (Bool.and_eq_true_iff.mp hen).1, hen, hes⟩
      · have hlen : name.strlen ≤ nameMax := by
          simp only [validName, decide_eq_true_eq] at hv
          exact hv.2
        exact mem_inUseEntries.mpr ⟨_, mem_writeSlot_self hw, DirEntry.fill_isNamed _ hlen sector, rfl⟩
    · simp
  · simp [exec_add_invalid ok hv]

/-- A call that adds. -/
def DirCall.isAdd : DirCall → Bool
  | .add _ _ _ => true
  | .remove _ => false

theorem DirCall.eq_add (h : c.isAdd = true) : ∃ name sector old, c = add name sector old := by
  cases c with
  | add name sector old => exact ⟨name, sector, old, rfl⟩
  | remove name => cases h

section

variable (h : replay slots evs = some slots') (ha : ∀ ev ∈ evs, ev.call.isAdd = true)
include h ha

/-- Calls of `dir_add` alone, one after the other: the entries in use stay. -/
theorem replay_adds_subset : inUseEntries slots ⊆ inUseEntries slots' := by
  induction evs generalizing slots with
  | nil =>
    cases h
    exact fun _ hx => hx
  | cons ev evs ih =>
    obtain ⟨hev, ha⟩ := forall_mem_cons.mp ha
    obtain ⟨name, sector, old, hc⟩ := eq_add hev
    obtain ⟨-, h⟩ := replay_cons.mp h
    rw [hc] at h
    exact fun x hx => ih h ha ((exec_add_entries slots name sector old ev.ok).1 hx)

/-- Calls of `dir_add` alone, one after the other: each that succeeds leaves its entry. -/
theorem replay_adds_mem
    (hm : { call := .add name sector old, ok := ok, result := true } ∈ evs) : (name, sector) ∈ inUseEntries slots' := by
  induction evs generalizing slots with
  | nil => cases hm
  | cons ev evs ih =>
    obtain ⟨-, ha'⟩ := forall_mem_cons.mp ha
    obtain ⟨hres, h⟩ := replay_cons.mp h
    rcases mem_cons.mp hm with rfl | hm
    · exact replay_adds_subset h ha' ((exec_add_entries slots name sector old ok).2 hres)
    · exact ih h ha' hm

/-- A name in use is added by no later call. -/
theorem replay_adds_fresh (hin : (name, sector) ∈ inUseEntries slots) : ∀ b ∈ evs, b.result = true → name ≠ b.call.name := by
  induction evs generalizing slots with
  | nil => simp
  | cons ev evs ih =>
    obtain ⟨hev, ha⟩ := forall_mem_cons.mp ha
    obtain ⟨n, x, old, hc⟩ := eq_add hev
    obtain ⟨hr, h⟩ := replay_cons.mp h
    rw [hc] at hr h
    refine forall_mem_cons.mpr ⟨fun hres => ?_, ih h ha ((exec_add_entries slots n x old ev.ok).1 hin)⟩
    rw [hc]
    rintro rfl
    obtain ⟨e, he, hen, -⟩ := mem_inUseEntries.mp hin
    have hfresh := (exec_add_fresh (hr.trans hres)).2
    rw [any_eq_false] at hfresh
    exact hfresh e he hen

/-- Calls of `dir_add` alone, one after the other: no two succeed with one name. -/
theorem replay_adds_names : evs.Pairwise (fun a b => a.result = true → b.result = true → a.call.name ≠ b.call.name) := by
  induction evs generalizing slots with
  | nil => exact .nil
  | cons ev evs ih =>
    obtain ⟨hev, ha⟩ := forall_mem_cons.mp ha
    obtain ⟨name, sector, old, hc⟩ := eq_add hev
    obtain ⟨hr, h⟩ := replay_cons.mp h
    refine .cons (fun b hb h1 h2 => ?_) (ih h ha)
    rw [hc] at hr h ⊢
    exact replay_adds_fresh h ha ((exec_add_entries slots name sector old ev.ok).2 (hr.trans h1)) b hb h2

end

/-! ## Every run -/

/-- The directory is what the calls that have returned leave, executed in the order of their returns, and every thread inside
a call knows what it should. -/
structure DirInv (slots0 : List DirEntry) (s : DirState) : Prop where
  phase : ∀ t, DirPhase s.slots (s.threads t)
  serial : replay slots0 s.done = some s.slots

namespace DirInv

variable {slots0 : List DirEntry} {s : DirState}

theorem start (slots0 : List DirEntry) : DirInv slots0 (start slots0) := ⟨fun _ => trivial, rfl⟩

section

variable (hi : DirInv slots0 s)
include hi

/-- A thread moves on to what it knows. -/
theorem setPc (t : Nat) {pc : DirPc} (hpc : DirPhase s.slots pc) : DirInv slots0 (s.setPc t pc) := by
  refine ⟨fun u => ?_, hi.serial⟩
  simp only [DirState.setPc]
  split
  · exact hpc
  · exact hi.phase u

/-- A thread returns, having changed nothing, what its call returns when executed here. -/
theorem ret (t : Nat) {ok result : Bool} (he : c.exec s.slots ok = (result, s.slots)) : DirInv slots0 (s.ret t c ok result) := by
  refine setPc (s := { s with done := s.done ++ [{ call := c, ok := ok, result := result }] }) ⟨hi.phase, ?_⟩ t trivial
  rw [replay_snoc hi.serial _ (by simp [he])]
  simp [he]

/-- A thread writes, with no other thread reading, what its call leaves when executed here, and returns. -/
theorem writeStep (t : Nat) {ok : Bool} (he : c.exec s.slots ok = endWithWrite s.slots k e ok) (hr : ∀ u, u ≠ t → ¬s.Reading u) :
    DirInv slots0 (s.writeStep t c k e ok) := by
  refine ⟨fun u => ?_, ?_⟩
  · simp only [DirState.writeStep, DirState.ret, DirState.setPc]
    split
    · trivial
    · exact (hi.phase u).of_not_reading (hr u ‹_›) _
  · simp only [DirState.writeStep, DirState.ret, DirState.setPc]
    rw [replay_snoc hi.serial _ (by simp [he])]
    simp [he]

theorem lookupStep (hpc : s.threads t = .lookup c k) (ok : Bool) : DirInv slots0 (s.lookupStep t c k ok) := by
  obtain ⟨hv, hlt⟩ : DirPhase s.slots (.lookup c k) := hpc ▸ hi.phase t
  -- An entry without the name: one more place is known.
  have hnext : ∀ e, s.slots[k]? = some e → e.isNamed c.name = false → DirPhase s.slots (.lookup c (k + 1)) := by
    refine fun e he hne => ⟨hv, fun j hj e' he' => ?_⟩
    rcases Nat.lt_succ_iff_lt_or_eq.mp hj with hj | rfl
    · exact hlt j hj e' he'
    · rw [he] at he'
      exact Option.some.inj he' ▸ hne
  unfold DirState.lookupStep
  cases he : s.slots[k]? with
  | some e =>
    cases c with
    | add name sector old =>
      simp only
      split
      · rename_i hn
        refine hi.ret t (exec_add_named ok (any_eq_true.mpr ⟨e, mem_of_getElem? he, hn⟩))
      · rename_i hn
        exact hi.setPc t (hnext e he (Bool.not_eq_true _ ▸ hn))
    | remove name =>
      simp only
      split
      · rename_i hn
        exact hi.setPc t ⟨findIdx?_eq_some he hn hlt, he⟩
      · rename_i hn
        exact hi.setPc t (hnext e he (Bool.not_eq_true _ ▸ hn))
  | none =>
    cases c with
    | add name sector old => exact hi.setPc t ⟨hv, any_eq_false_of_lt he hlt, fun j hj => by omega, by omega, rfl⟩
    | remove name => exact hi.ret t (exec_remove_missing ok (any_eq_false_of_lt he hlt))

theorem scanStep {name : CString} {sector : Nat} {old : DirEntry}
    (hpc : s.threads t = .scan name sector old k e) : DirInv slots0 (s.scanStep t name sector old k e) := by
  obtain ⟨hv, hn, hlt, hk, hlast⟩ : DirPhase s.slots (.scan name sector old k e) := hpc ▸ hi.phase t
  unfold DirState.scanStep
  cases he : s.slots[k]? with
  | some e' =>
    obtain ⟨hlen, heq⟩ := List.getElem?_eq_some_iff.mp he
    simp only
    split
    · rename_i hu
      refine hi.setPc t ⟨hv, hn, fun j hj e'' he'' => ?_, hlen, by rw [getLast?_take_succ he]; rfl⟩
      rcases Nat.lt_succ_iff_lt_or_eq.mp hj with hj | rfl
      · exact hlt j hj e'' he''
      · rw [he] at he''
        exact Option.some.inj he'' ▸ hu
    · rename_i hu
      refine hi.setPc t ⟨hv, hn, ?_, by rw [getLast?_take_succ he]; rfl⟩
      refine (findIdx_eq hlen).mpr ⟨by simp [heq, hu], fun j hj => ?_⟩
      simp [hlt j hj _ (getElem?_eq_getElem (by omega))]
  | none =>
    have hlen : s.slots.length = k := by
      have := getElem?_eq_none_iff.mp he
      omega
    refine hi.setPc t ⟨hv, hn, ?_, ?_⟩
    · rw [← hlen]
      refine findIdx_eq_length.mpr fun x hx => ?_
      obtain ⟨j, hj, rfl⟩ := getElem_of_mem hx
      simp [hlt j (by omega) _ (getElem?_eq_getElem hj)]
    · rw [hlast, take_of_length_le (by omega), take_of_length_le (by omega)]

/-- Every step whose write keeps clear of the reads of other threads keeps the invariant. -/
theorem step {a : DirAction} {s' : DirState} (hg : s.WriteApart a) (hs : s.step a = some s') : DirInv slots0 s' := by
  cases a with
  | call t c =>
    simp only [DirState.step] at hs
    split at hs
    · split at hs
      · cases hs
        exact hi.setPc t ⟨‹_›, fun j hj => by omega⟩
      rename_i hv
      cases hs
      refine hi.ret t ?_
      cases c with
      | add name sector old => exact exec_add_invalid true hv
      | remove name => exact absurd rfl hv
    · cases hs
  | go t ok =>
    simp only [DirState.step] at hs
    cases hpc : s.threads t with
    | idle => simp [hpc] at hs
    | lookup c k =>
      simp only [hpc] at hs
      cases hs
      exact hi.lookupStep hpc ok
    | scan name sector old k e =>
      simp only [hpc] at hs
      cases hs
      exact hi.scanStep hpc
    | insert name sector old k e =>
      simp only [hpc] at hs
      cases hs
      obtain ⟨hv, hn, rfl, rfl⟩ : DirPhase s.slots (.insert name sector old k e) := hpc ▸ hi.phase t
      exact hi.writeStep t (exec_add ok hv hn) (hg (.inl ⟨_, _, _, _, _, hpc⟩))
    | opening name k e =>
      obtain ⟨hk, he⟩ : DirPhase s.slots (.opening name k e) := hpc ▸ hi.phase t
      simp only [hpc] at hs
      split at hs
      · cases hs
        exact hi.setPc t ⟨hk, he⟩
      · cases hs
        exact hi.ret t (by simp [exec_remove false hk he])
    | erase name k e =>
      obtain ⟨hk, he⟩ : DirPhase s.slots (.erase name k e) := hpc ▸ hi.phase t
      simp only [hpc] at hs
      cases hs
      exact hi.writeStep t (by simp [exec_remove true hk he]) (hg (.inr ⟨_, _, _, hpc⟩))

end

end DirInv

end Pintos
