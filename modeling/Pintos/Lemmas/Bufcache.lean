import Pintos.Filesys.Bufcache

/-!
# What the buffer cache keeps, step by step

`CacheInv` ties the entries, the disk and the place of every thread to the value that each sector has after the `memcpy`
sections so far. A locked stretch of code moves one thread and changes one entry, which that thread alone holds or which is
ready; so each step lemma looks at one entry and carries the others over.
-/

namespace Pintos

open CacheState CachePc Cache List Option

variable {c : Cache} {x : Nat} {i : Slot} {pc : CachePc} {s' : CacheState}

namespace CacheAux

/-! ## The searches -/

theorem find_some (h : c.find x = some i) : (c.entries i).sector = x := by
  have := find?_some h
  exact (beq_iff_eq.mp this).symm

/-- `find` fails only when no entry is of the sector. -/
theorem find_none (h : c.find x = none) (i : Slot) : (c.entries i).sector ≠ x := by
  have := find?_eq_none.mp h i (mem_finRange i)
  intro e
  exact this (beq_iff_eq.mpr e.symm)

theorem candidate_ready (h : c.getEvictionCandidate = some i) : (c.entries i).ready = true := by
  simpa using find?_some h

/-- What one turn of the loop found, for each way it ends. -/
theorem access_cases (c : Cache) (x : Nat) :
    (∃ i, c.access x = .hit i ∧ (c.entries i).sector = x ∧ (c.entries i).ready = true) ∨
    (∃ i, c.access x = .waitReady i) ∨ c.access x = .waitOne ∨
    (∃ i, c.access x = .clean i ∧ (c.entries i).ready = true ∧ (c.entries i).dirty = true) ∨
    (∃ i, c.access x = .replace i ∧ (c.entries i).ready = true ∧ (c.entries i).dirty = false ∧
      ∀ j, (c.entries j).sector ≠ x) := by
  unfold access
  cases hf : c.find x with
  | some i =>
    cases hr : (c.entries i).ready with
    | true => exact Or.inl ⟨i, by simp [hr], find_some hf, hr⟩
    | false => exact Or.inr (Or.inl ⟨i, by simp [hr]⟩)
  | none =>
    cases hc : c.getEvictionCandidate with
    | none => exact Or.inr (Or.inr (Or.inl rfl))
    | some i =>
      cases hd : (c.entries i).dirty with
      | true => exact Or.inr (Or.inr (Or.inr (Or.inl ⟨i, by simp [hd], candidate_ready hc, hd⟩)))
      | false => exact Or.inr (Or.inr (Or.inr (Or.inr ⟨i, by simp [hd], candidate_ready hc, hd, find_none hf⟩)))

end CacheAux

/-- The entry that a thread holds while it has given up the lock inside `clean` or `replace`. -/
def CachePc.holds : CachePc → Option Slot
  | .cleaning _ i => some i
  | .cleaned _ i => some i
  | .loading _ i => some i
  | .loaded _ i => some i
  | _ => none

/-- The call a thread is in. -/
def CachePc.call? : CachePc → Option CacheCall
  | .idle => none
  | .acquiring c => some c
  | .waitReady c _ => some c
  | .waitOne c => some c
  | .cleaning c _ => some c
  | .cleaned c _ => some c
  | .loading c _ => some c
  | .loaded c _ => some c

/-- What holds of the entry that a thread holds, where `cur` is the value of each sector and `disk` the disk. -/
def CachePhase (cur disk : Nat → Contents) (c : Cache) : CachePc → Prop
  | .cleaning _ i =>
    (c.entries i).ready = false ∧ (c.entries i).dirty = true ∧ (c.entries i).contents = cur (c.entries i).sector
  | .cleaned _ i =>
    (c.entries i).ready = false ∧ (c.entries i).dirty = true ∧ (c.entries i).contents = cur (c.entries i).sector ∧
      disk (c.entries i).sector = cur (c.entries i).sector
  | .loading call i =>
    (c.entries i).ready = false ∧ (c.entries i).dirty = false ∧ (c.entries i).sector = call.sector ∧
      disk call.sector = cur call.sector
  | .loaded call i =>
    (c.entries i).ready = false ∧ (c.entries i).dirty = false ∧ (c.entries i).sector = call.sector ∧
      (c.entries i).contents = cur call.sector ∧ disk call.sector = cur call.sector
  | _ => True

/-- The invariant of the buffer cache, over the disk as it was at first. -/
structure CacheInv (disk0 : Nat → Contents) (s : CacheState) : Prop where
  distinct : ∀ i j, (s.cache.entries i).sector = (s.cache.entries j).sector →
    (s.cache.entries i).sector ≠ invalidSector → i = j
  lru : s.cache.lru.Perm (finRange numEntries)
  valid : ∀ t call, (s.threads t).call? = some call → call.sector ≠ invalidSector
  sole : ∀ t u i, (s.threads t).holds = some i → (s.threads u).holds = some i → t = u
  phase : ∀ t, CachePhase (valueAfter disk0 s.log) s.dev.disk s.cache (s.threads t)
  settled : ∀ i, (s.cache.entries i).ready = true → (s.cache.entries i).sector ≠ invalidSector →
    (s.cache.entries i).contents = valueAfter disk0 s.log (s.cache.entries i).sector ∧
      ((s.cache.entries i).dirty = false →
        s.dev.disk (s.cache.entries i).sector = valueAfter disk0 s.log (s.cache.entries i).sector)
  dirtyValid : ∀ i, (s.cache.entries i).dirty = true → (s.cache.entries i).sector ≠ invalidSector
  uncached : ∀ x, x ≠ invalidSector → (∀ i, (s.cache.entries i).sector ≠ x) → s.dev.disk x = valueAfter disk0 s.log x
  reads : ReadsLatest disk0 s.log

namespace CacheAux

theorem not_ready_of_holds {cur disk : Nat → Contents}
    (h : CachePhase cur disk c pc) (hi : pc.holds = some i) : (c.entries i).ready = false := by
  cases pc <;> simp only [holds, some.injEq, reduceCtorEq] at hi <;> subst hi <;> exact h.1

/-- The phase of a thread reads only the entry it holds, and only the value and the disk of that entry's sector. -/
theorem phase_congr {cur cur' disk disk' : Nat → Contents} {c' : Cache} (h : CachePhase cur disk c pc)
    (he : ∀ i, pc.holds = some i → c'.entries i = c.entries i)
    (hc : ∀ i, pc.holds = some i → cur' (c.entries i).sector = cur (c.entries i).sector)
    (hd : ∀ i, pc.holds = some i → disk' (c.entries i).sector = disk (c.entries i).sector) :
    CachePhase cur' disk' c' pc := by
  cases pc with
  | idle | acquiring call | waitReady call i | waitOne call => trivial
  | cleaning call i | cleaned call i =>
    simp only [CachePhase, he i rfl, hc i rfl, hd i rfl]
    exact h
  | loading call i | loaded call i =>
    have hc' := hc i rfl
    have hd' := hd i rfl
    rw [h.2.2.1] at hc' hd'
    simp only [CachePhase, he i rfl, hc', hd']
    exact h

/-- Moving the entry to the front of the list keeps every entry on it once. -/
theorem touch_perm {l : List Slot} (h : l.Perm (finRange numEntries)) (i : Slot) : (i :: l.erase i).Perm (finRange numEntries) :=
  (perm_cons_erase (h.mem_iff.mpr (mem_finRange i))).symm.trans h

@[simp] theorem setPc_threads (s : CacheState) (t : Nat) (pc : CachePc) (u : Nat) :
    (s.setPc t pc).threads u = if u = t then pc else s.threads u := rfl

@[simp] theorem setEntry_entries (c : Cache) (i : Slot) (m : Metadata) (j : Slot) :
    (c.setEntry i m).entries j = if j = i then m else c.entries j := by
  simp [setEntry, Function.update_apply]

end CacheAux

open CacheAux

/-! ## The steps that move a thread -/

variable {s : CacheState} {disk0 : Nat → Contents} {t : Nat} {call : CacheCall}

section

variable (h : CacheInv disk0 s)
include h

/-- Moving a thread that holds nothing to a place where it holds nothing keeps the invariant. -/
theorem CacheInv.setPc (t : Nat) (pc : CachePc)
    (hn : pc.holds = none) (hv : ∀ call, pc.call? = some call → call.sector ≠ invalidSector) :
    CacheInv disk0 (s.setPc t pc) := by
  refine { h with valid := ?_, sole := ?_, phase := ?_ }
  · intro u call hu
    by_cases hut : u = t
    · simp only [setPc_threads, if_pos hut] at hu
      exact hv call hu
    · simp only [setPc_threads, if_neg hut] at hu
      exact h.valid u call hu
  · intro u w i hu hw
    by_cases hut : u = t
    · simp [hut, hn] at hu
    · by_cases hwt : w = t
      · simp [hwt, hn] at hw
      · simp only [setPc_threads, if_neg hut, if_neg hwt] at hu hw
        exact h.sole u w i hu hw
  · intro u
    by_cases hut : u = t
    · simp only [setPc_threads, if_pos hut]
      cases pc <;> simp [holds] at hn <;> trivial
    · simp only [setPc_threads, if_neg hut]
      exact h.phase u

theorem CacheInv.broadcast (i : Slot) : CacheInv disk0 (s.broadcast i) := by
  have hh : ∀ u, ((s.broadcast i).threads u).holds = (s.threads u).holds := by
    intro u
    simp only [CacheState.broadcast]
    cases s.threads u with
    | waitReady call j => by_cases hj : j = i <;> simp [hj, holds]
    | _ => rfl
  have hc : ∀ u, ((s.broadcast i).threads u).call? = (s.threads u).call? := by
    intro u
    simp only [CacheState.broadcast]
    cases s.threads u with
    | waitReady call j => by_cases hj : j = i <;> simp [hj, call?]
    | _ => rfl
  refine { h with valid := ?_, sole := ?_, phase := ?_ }
  · intro u call hu
    exact h.valid u call (hc u ▸ hu)
  · intro u w j hu hw
    exact h.sole u w j (hh u ▸ hu) (hh w ▸ hw)
  intro u
  have hp := h.phase u
  simp only [CacheState.broadcast]
  cases hpc : s.threads u with
  | waitReady call j => by_cases hj : j = i <;> simp [hj, CachePhase]
  | waitOne call | idle | acquiring call => trivial
  | cleaning call j | cleaned call j | loading call j | loaded call j => rw [hpc] at hp; exact hp

/-! ## The steps that change an entry -/

/-- The sector of an entry that a thread holds is a valid one. -/
theorem CacheInv.held_valid (hi : (s.threads t).holds = some i) : (s.cache.entries i).sector ≠ invalidSector := by
  have hp := h.phase t
  have hv := h.valid t
  cases hpc : s.threads t with
  | idle | acquiring call | waitReady call j | waitOne call => simp [hpc, holds] at hi
  | cleaning call j | cleaned call j =>
    rw [hpc] at hi hp
    cases hi
    exact h.dirtyValid _ hp.2.1
  | loading call j | loaded call j =>
    rw [hpc] at hi hp hv
    cases hi
    rw [hp.2.2.1]
    exact hv call rfl

/-- What is known of the entry that a thread holds, by its place. -/
theorem CacheInv.phase_at (ht : s.threads t = pc) : CachePhase (valueAfter disk0 s.log) s.dev.disk s.cache pc := ht ▸ h.phase t

theorem CacheInv.valid_at (ht : s.threads t = pc) (hc : pc.call? = some call) : call.sector ≠ invalidSector :=
  h.valid t call (ht ▸ hc)

/-- Another entry with the sector of entry `i` has none. -/
theorem CacheInv.invalid_of_ne {j : Slot} (hj : j ≠ i) (he : (s.cache.entries j).sector = (s.cache.entries i).sector) :
    (s.cache.entries i).sector = invalidSector := by
  by_contra hne
  exact hj (h.distinct j i he (he ▸ hne))

theorem CacheInv.free_of_ready (hr : (s.cache.entries i).ready = true) (u : Nat) : (s.threads u).holds ≠ some i := by
  intro hu
  have := not_ready_of_holds (h.phase u) hu
  rw [hr] at this
  cases this

/-- What one thread does to one entry. The step changes the place of thread `t`, entry `i`, and the disk and the value at
most of the sector that the entry then has. No other thread holds the entry and no other entry has its sector; the rest is
about the entry, the thread, and the sector that leaves the cache. -/
theorem CacheInv.change (t : Nat) (i : Slot) (hlru : s'.cache.lru.Perm (finRange numEntries))
    (hthr : ∀ u, u ≠ t → s'.threads u = s.threads u) (hent : ∀ j, j ≠ i → s'.cache.entries j = s.cache.entries j)
    (hfree : ∀ u, u ≠ t → (s.threads u).holds ≠ some i)
    (hcur : ∀ x, x ≠ (s'.cache.entries i).sector → valueAfter disk0 s'.log x = valueAfter disk0 s.log x)
    (hdisk : ∀ x, x ≠ (s'.cache.entries i).sector → s'.dev.disk x = s.dev.disk x)
    (hsec : ∀ j, j ≠ i → (s.cache.entries j).sector = (s'.cache.entries i).sector →
      (s'.cache.entries i).sector = invalidSector) (hpc : (s'.threads t).holds = none ∨ (s'.threads t).holds = some i)
    (hval : ∀ call, (s'.threads t).call? = some call → call.sector ≠ invalidSector)
    (hphase : CachePhase (valueAfter disk0 s'.log) s'.dev.disk s'.cache (s'.threads t))
    (hset : (s'.cache.entries i).ready = true → (s'.cache.entries i).sector ≠ invalidSector →
      (s'.cache.entries i).contents = valueAfter disk0 s'.log (s'.cache.entries i).sector ∧
        ((s'.cache.entries i).dirty = false →
          s'.dev.disk (s'.cache.entries i).sector = valueAfter disk0 s'.log (s'.cache.entries i).sector))
    (hdirty : (s'.cache.entries i).dirty = true → (s'.cache.entries i).sector ≠ invalidSector)
    (hleave : (s.cache.entries i).sector ≠ (s'.cache.entries i).sector → (s.cache.entries i).sector ≠ invalidSector →
      s.dev.disk (s.cache.entries i).sector = valueAfter disk0 s.log (s.cache.entries i).sector)
    (hreads : ReadsLatest disk0 s'.log) : CacheInv disk0 s' := by
  refine ⟨?_, hlru, ?_, ?_, ?_, ?_, ?_, ?_, hreads⟩
  · intro j k hjk hj
    by_cases hji : j = i
    · subst hji
      by_cases hki : k = j
      · exact hki.symm
      · rw [hent k hki] at hjk
        exact absurd (hsec k hki hjk.symm) hj
    · rw [hent j hji] at hjk hj
      by_cases hki : k = i
      · subst hki
        exact absurd (hjk.trans (hsec j hji hjk)) hj
      · rw [hent k hki] at hjk
        exact h.distinct j k hjk hj
  · intro u call hu
    by_cases hut : u = t
    · exact hval call (hut ▸ hu)
    · exact h.valid u call (hthr u hut ▸ hu)
  · have hapart : ∀ u j, u ≠ t → (s'.threads u).holds = some j → (s'.threads t).holds ≠ some j := by
      intro u j hu hj ht
      rw [hthr u hu] at hj
      rcases hpc with hn | hn <;> cases hn.symm.trans ht
      exact hfree u hu hj
    intro u w j hu hw
    by_cases hut : u = t <;> by_cases hwt : w = t
    · rw [hut, hwt]
    · exact absurd (hut ▸ hu) (hapart w j hwt hw)
    · exact absurd (hwt ▸ hw) (hapart u j hut hu)
    · exact h.sole u w j (hthr u hut ▸ hu) (hthr w hwt ▸ hw)
  · intro u
    by_cases hut : u = t
    · rw [hut]; exact hphase
    rw [hthr u hut]
    have hne : ∀ j, (s.threads u).holds = some j → j ≠ i ∧ (s.cache.entries j).sector ≠ (s'.cache.entries i).sector := by
      intro j hj
      have hji : j ≠ i := fun e => hfree u hut (e ▸ hj)
      exact ⟨hji, fun e => h.held_valid hj (e.trans (hsec j hji e))⟩
    exact phase_congr (h.phase u) (fun j hj => hent j (hne j hj).1) (fun j hj => hcur _ (hne j hj).2)
      (fun j hj => hdisk _ (hne j hj).2)
  · intro j hr hj
    by_cases hji : j = i
    · subst hji; exact hset hr hj
    · rw [hent j hji] at hr hj ⊢
      have hne : (s.cache.entries j).sector ≠ (s'.cache.entries i).sector := fun e => hj (e.trans (hsec j hji e))
      rw [hcur _ hne, hdisk _ hne]
      exact h.settled j hr hj
  · intro j hd
    by_cases hji : j = i
    · subst hji; exact hdirty hd
    · rw [hent j hji] at hd ⊢
      exact h.dirtyValid j hd
  · intro x hx hn
    have hxi : x ≠ (s'.cache.entries i).sector := fun e => hn i e.symm
    rw [hcur x hxi, hdisk x hxi]
    by_cases hxo : (s.cache.entries i).sector = x
    · subst hxo
      exact hleave hxi hx
    apply h.uncached x hx
    intro j
    by_cases hji : j = i
    · subst hji; exact hxo
    · have := hn j
      rwa [hent j hji] at this

attribute [local simp] setPc startReplace

/-- A thread that holds entry `i`, or finds it ready, changes it under the same sector and goes on in its call. -/
theorem CacheInv.put {m : Metadata}
    (hown : (s.threads t).holds = some i ∨ (s.cache.entries i).ready = true) (hm : m.sector = (s.cache.entries i).sector)
    (hpc : pc.holds = none ∨ pc.holds = some i) (hcall : pc.call? = some call) (hv : call.sector ≠ invalidSector)
    (hphase : CachePhase (valueAfter disk0 s.log) s.dev.disk (s.cache.setEntry i m) pc)
    (hset : m.ready = true → m.contents = valueAfter disk0 s.log m.sector ∧
      (m.dirty = false → s.dev.disk m.sector = valueAfter disk0 s.log m.sector))
    (hdirty : m.dirty = true → m.sector ≠ invalidSector) :
    CacheInv disk0 ({ s with cache := s.cache.setEntry i m }.setPc t pc) := by
  have hfree : ∀ u, u ≠ t → (s.threads u).holds ≠ some i := fun u hu hui =>
    hown.elim (fun hold => hu (h.sole u t i hui hold)) (fun hr => h.free_of_ready hr u hui)
  refine h.change t i h.lru (fun u hu => by simp [hu]) (fun j hj => by simp [hj]) hfree (fun _ _ => rfl)
    (fun _ _ => rfl) ?_ (by simpa using hpc) ?_ (by simpa using hphase) ?_ ?_ ?_ h.reads <;>
    simp [setEntry_entries]
  · exact fun j hj e => hm.trans (h.invalid_of_ne hj (e.trans hm))
  · intro c hc
    rw [hcall] at hc
    exact some.inj hc ▸ hv
  · exact fun hr _ => hset hr
  · exact hdirty
  · exact absurd hm.symm

/-! ## One lemma for each locked stretch of code -/

attribute [local simp] finish

/-- The `memcpy` of a hit. -/
theorem CacheInv.finish (hs : (s.cache.entries i).sector = call.sector)
    (hv : call.sector ≠ invalidSector) (hr : (s.cache.entries i).ready = true) : CacheInv disk0 (s.finish t i call) := by
  obtain ⟨hc, hd⟩ := h.settled i hr (hs ▸ hv)
  cases call with
  | read x ofs length =>
    simp only [CacheCall.sector] at hs hv
    refine h.change t i (touch_perm h.lru i) ?_ (fun _ _ => rfl) ?_ (fun _ _ => rfl) (fun _ _ => rfl) ?_ ?_ ?_ ?_ ?_ ?_ ?_ ?_
    · intro u hu; simp [hu]
    · intro u _; exact h.free_of_ready hr u
    · exact fun j hj e => h.invalid_of_ne hj e
    · simp [holds]
    · simp [call?]
    · simp [CachePhase]
    · intro _ _; exact ⟨hc, hd⟩
    · intro hdirty; exact h.dirtyValid i hdirty
    · intro hne; exact absurd rfl hne
    · refine ⟨?_, h.reads⟩
      rw [hc, hs]
  | write x ofs buffer =>
    simp only [CacheCall.sector] at hs hv
    refine h.change t i (touch_perm h.lru i) ?_ ?_ ?_ ?_ (fun _ _ => rfl) ?_ ?_ ?_ ?_ ?_ ?_ ?_ h.reads
    · intro u hu; simp [hu]
    · intro j hj; simp [store, touch, hj]
    · intro u _; exact h.free_of_ready hr u
    · intro y hy
      simp only [CacheState.finish, CacheState.setPc, store, touch, setEntry_entries, if_true, hs] at hy
      simp [valueAfter, Ne.symm hy]
    · intro j hj e
      simp only [CacheState.finish, CacheState.setPc, store, touch, setEntry_entries, if_true] at e ⊢
      exact h.invalid_of_ne hj e
    · simp [holds]
    · simp [call?]
    · simp [CachePhase]
    · intro _ _
      simp only [CacheState.finish, CacheState.setPc, store, touch, setEntry_entries, if_true, hs, hc]
      simp [valueAfter]
    · intro _
      simpa [store, touch, hs] using hv
    · intro hne
      simp [store, touch] at hne

/-- A turn of the loop of `bufcache_access` keeps the invariant. -/
theorem CacheInv.turn (ht : s.threads t = .acquiring call) : CacheInv disk0 (s.turn t call) := by
  have hv := h.valid_at ht rfl
  unfold CacheState.turn
  rcases access_cases s.cache call.sector with ⟨i, ha, hs, hr⟩ | ⟨i, ha⟩ | ha | ⟨i, ha, hr, hd⟩ | ⟨i, ha, hr, hd, hnone⟩
  · rw [ha]
    exact h.finish hs hv hr
  · rw [ha]
    exact h.setPc t _ rfl (by simp [call?, hv])
  · rw [ha]
    exact h.setPc t _ rfl (by simp [call?, hv])
  · rw [ha]
    obtain ⟨hc, -⟩ := h.settled i hr (h.dirtyValid i hd)
    exact h.put (.inr hr) rfl (.inr rfl) rfl hv (by simp [CachePhase, hd, hc]) nofun (fun _ => h.dirtyValid i hd)
  rw [ha]
  refine h.change t i h.lru ?_ ?_ ?_ (fun _ _ => rfl) (fun _ _ => rfl) ?_ ?_ ?_ ?_ ?_ ?_ ?_ h.reads
  · intro u hu; simp [hu]
  · intro j hj; simp [hj]
  · intro u _; exact h.free_of_ready hr u
  · intro j _ e
    simp only [CacheState.setPc, startReplace, setEntry_entries, if_true] at e
    exact absurd e (hnone j)
  · simp [holds]
  · simp [call?, hv]
  · have := h.uncached call.sector hv hnone
    simp [CachePhase, hd, this]
  · intro hready
    simp at hready
  · intro hdirty
    simp [hd] at hdirty
  · intro _ hne
    exact (h.settled i hr hne).2 hd

/-- `block_write` inside `clean` brings the disk to the entry. -/
theorem CacheInv.blockWrite {d : Block} (ht : s.threads t = .cleaning call i)
    (hw : s.dev.write (s.cache.entries i).sector (s.cache.entries i).contents = some d) :
    CacheInv disk0 ({ s with dev := d }.setPc t (.cleaned call i)) := by
  obtain ⟨-, rfl⟩ := Block.write_eq_some hw
  obtain ⟨hr, hd, hc⟩ := h.phase_at ht
  refine h.change t i h.lru ?_ (fun _ _ => rfl) ?_ (fun _ _ => rfl) ?_ ?_ ?_ ?_ ?_ ?_ ?_ ?_ h.reads
  · intro u hu; simp [hu]
  · intro u hu hui; exact hu (h.sole u t i hui (by rw [ht]; rfl))
  · intro x hx
    simp only [CacheState.setPc] at hx ⊢
    simp [hx]
  · exact fun j hj e => h.invalid_of_ne hj e
  · simp [holds]
  · simp [call?, h.valid_at ht rfl]
  · simp only [setPc_threads, if_true]
    exact ⟨hr, hd, hc, by simpa using hc⟩
  · intro hready
    simp [hr] at hready
  · intro _
    exact h.dirtyValid i hd
  · intro hne
    exact absurd rfl hne

/-- `block_read` inside `replace` brings the entry to the disk. -/
theorem CacheInv.blockRead {b : Contents} (ht : s.threads t = .loading call i) (hb : s.dev.read call.sector = some b) :
    CacheInv disk0 ({ s with cache := s.cache.load i b }.setPc t (.loaded call i)) := by
  obtain ⟨-, rfl⟩ := Block.read_eq_some hb
  obtain ⟨hr, hd, hs, hdisk⟩ := h.phase_at ht
  exact h.put (.inl (by rw [ht]; rfl)) rfl (.inr rfl) rfl (h.valid_at ht rfl) (by simp [CachePhase, hr, hd, hs, hdisk])
    (by simp [hr]) (by simp [hd])

/-- The end of `clean`, with the thread on its way into the next turn of the loop. -/
theorem CacheInv.finishClean (ht : s.threads t = .cleaned call i) :
    CacheInv disk0 ({ s with cache := s.cache.finishClean i }.setPc t (.acquiring call)) := by
  obtain ⟨hr, hd, hc, hdisk⟩ := h.phase_at ht
  exact h.put (.inl (by rw [ht]; rfl)) rfl (.inl rfl) rfl (h.valid_at ht rfl) trivial (fun _ => ⟨hc, fun _ => hdisk⟩) nofun

/-- The end of `replace`, with the thread on its way into the next turn of the loop. -/
theorem CacheInv.finishReplace (ht : s.threads t = .loaded call i) :
    CacheInv disk0 ({ s with cache := s.cache.finishReplace i }.setPc t (.acquiring call)) := by
  obtain ⟨hr, hd, hs, hc, hdisk⟩ := h.phase_at ht
  exact h.put (.inl (by rw [ht]; rfl)) rfl (.inl rfl) rfl (h.valid_at ht rfl)
    trivial (fun _ => by rw [hs]; exact ⟨hc, fun _ => hdisk⟩) (by simp [hd])

theorem CacheInv.panic : CacheInv disk0 { s with panicked := true } :=
  { h with }

end

/-- A turn does not depend on the place of the thread that makes it, nor on the thread's place when others are woken. -/
theorem CacheState.turn_broadcast_setPc (s : CacheState) (t : Nat) (i : Slot) (call : CacheCall) :
    ((s.setPc t (.acquiring call)).broadcast i).turn t call = (s.broadcast i).turn t call := by
  have hs : ∀ (c : Cache) (l : List CacheEvent) (pc : CachePc),
      { (s.setPc t (.acquiring call)).broadcast i with cache := c, log := l }.setPc t pc =
        { s.broadcast i with cache := c, log := l }.setPc t pc := by
    intro c l pc
    simp only [setPc, broadcast, mk.injEq, true_and, and_true]
    funext u
    by_cases hu : u = t <;> simp [hu]
  have h1 : ((s.setPc t (.acquiring call)).broadcast i).cache = s.cache := rfl
  have h2 : (s.broadcast i).cache = s.cache := rfl
  simp only [turn, h1, h2]
  cases s.cache.access call.sector with
  | hit j =>
    cases call with
    | read x ofs length | write x ofs buffer => exact hs _ _ _
  | waitReady j | waitOne | clean j | replace j => exact hs _ _ _

theorem CacheInv.step {a : CacheAction} (h : CacheInv disk0 s) (hs : s.step a = some s') : CacheInv disk0 s' := by
  cases a with
  | call t c =>
    simp only [CacheState.step] at hs
    cases ht : s.threads t with
    | idle =>
      simp only [ht] at hs
      split at hs
      · cases hs
      rename_i hp
      split at hs
      · cases hs
        refine h.setPc t _ rfl ?_
        intro call hc
        cases hc
        exact fun e => hp (Or.inr e)
      · cases hs
        exact h.panic
    | _ => simp [ht] at hs
  | go t =>
    simp only [CacheState.step] at hs
    split at hs
    · cases hs
    unfold go at hs
    cases ht : s.threads t with
    | idle | waitReady call i | waitOne call => simp [ht] at hs
    | acquiring call =>
      simp only [ht, some.injEq] at hs
      exact hs ▸ h.turn ht
    | cleaning call i =>
      simp only [ht] at hs
      cases hw : s.dev.write (s.cache.entries i).sector (s.cache.entries i).contents with
      | none => simp only [hw, some.injEq] at hs; exact hs ▸ h.panic
      | some d => simp only [hw, some.injEq] at hs; exact hs ▸ h.blockWrite ht hw
    | cleaned call i =>
      simp only [ht, some.injEq] at hs
      rw [← hs, ← turn_broadcast_setPc]
      exact ((h.finishClean ht).broadcast i).turn (by simp [CacheState.broadcast])
    | loading call i =>
      simp only [ht] at hs
      cases hb : s.dev.read call.sector with
      | none => simp only [hb, some.injEq] at hs; exact hs ▸ h.panic
      | some b => simp only [hb, some.injEq] at hs; exact hs ▸ h.blockRead ht hb
    | loaded call i =>
      simp only [ht, some.injEq] at hs
      rw [← hs, ← turn_broadcast_setPc]
      exact ((h.finishReplace ht).broadcast i).turn (by simp [CacheState.broadcast])

/-- Pushing the entries to the front one after the other puts each on the list once. -/
theorem Cache.init_lru_perm : init.lru.Perm (finRange numEntries) := by
  have key : ∀ (xs acc : List Slot), (xs.foldl (fun l i => i :: l) acc).Perm (xs ++ acc) := by
    intro xs
    induction xs with
    | nil => intro acc; exact Perm.refl _
    | cons x xs ih => intro acc; exact (ih (x :: acc)).trans perm_middle
  have := key (finRange numEntries) []
  rwa [append_nil] at this

attribute [local simp] start

theorem CacheInv.start (dev : Block) : CacheInv dev.disk (start dev) where
  distinct := fun _ _ _ hne => absurd rfl hne
  lru := init_lru_perm
  valid := fun _ _ h => by simp [call?] at h
  sole := fun _ _ _ h => by simp [holds] at h
  phase := fun _ => trivial
  settled := fun _ _ hne => absurd rfl hne
  dirtyValid := fun _ h => by simp [init, Metadata.init] at h
  uncached := fun _ _ _ => rfl
  reads := trivial

/-- The invariant holds in every state of every interleaving. -/
theorem CacheInv.reachable {dev : Block} (h : (cacheSystem dev).Reachable s) : CacheInv dev.disk s :=
  h.invariant (fun _ h0 => h0 ▸ CacheInv.start dev) (fun _ _ _ hi hs => CacheInv.step hi hs)

end Pintos
