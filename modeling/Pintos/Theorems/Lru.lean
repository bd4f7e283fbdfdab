import Pintos.Library.Lru
import Pintos.Theorems.CacheCalls

/-!
# The cache keeps the sectors that were used last

The entries that have been used are at the front of the list, in the order of the latest uses of their sectors; behind them
are the entries that have not been used since `bufcache_init`, which are of no sector and are used up in the order of their
numbers. An access moves an entry to the front, so the sectors in the list are always the last ones of the history.
-/

namespace Pintos

open CacheAux Cache CacheMachine List

variable {j : Slot} {r : List (List UInt8)} {m : CacheMachine} {past : List Nat} {used : List Slot}

/-- The entries that have not been used yet, when `k` have: the one to be used next is the last. -/
def unusedSlots (k : Nat) : List Slot := ((finRange numEntries).drop k).reverse

/-- `used` are the entries that have been used, most recently used first, by the accesses `past`, latest first. -/
structure Recency (c : Cache) (past : List Nat) (used : List Slot) : Prop where
  ready : ∀ i, (c.entries i).ready = true
  lru : c.lru = used ++ unusedSlots used.length
  slots : used.Perm ((finRange numEntries).take used.length)
  sectors : used.map (fun i => (c.entries i).sector) = (Lru.recent past).take numEntries
  unused : ∀ i, i ∉ used → (c.entries i).sector = invalidSector

/-- The sectors that the entries are to hold after one more access. -/
theorem take_recent_entries (x : Nat) (past : List Nat) : (Lru.recent (x :: past)).take numEntries =
    x :: (((Lru.recent past).take numEntries).erase x).take (numEntries - 1) := Lru.take_recent_cons (numEntries - 1) x past

/-- The first of the unused entries. -/
theorem drop_finRange {k : Nat} (hk : k < numEntries) :
    (finRange numEntries).drop k = ⟨k, hk⟩ :: (finRange numEntries).drop (k + 1) := by
  rw [drop_eq_getElem_cons (by rw [length_finRange]; exact hk), getElem_finRange]
  rfl

/-- No entry is unused once all have been used. -/
theorem unusedSlots_eq_nil {k : Nat} (hk : numEntries ≤ k) : unusedSlots k = [] := by
  rw [unusedSlots, drop_eq_nil_of_le (by rw [length_finRange]; exact hk), reverse_nil]

theorem find_first {c : Cache} {x : Nat} {i : Slot} (h : c.find x = some i) (hj : j < i) : (c.entries j).sector ≠ x := by
  obtain ⟨-, before, after, hsplit, hnot⟩ := find?_eq_some_iff_append.mp h
  have hmem : j ∈ before ++ i :: after := hsplit ▸ mem_finRange j
  have hsorted : (before ++ i :: after).Pairwise (· < ·) := hsplit ▸ pairwise_lt_finRange numEntries
  rcases mem_append.mp hmem with hb | ha
  · have := hnot j hb
    intro he
    simp [he] at this
  · have hlater : ∀ k ∈ after, i < k := (pairwise_cons.mp (pairwise_append.mp hsorted).2.1).1
    rcases mem_cons.mp ha with rfl | ha
    · exact absurd hj (lt_irrefl _)
    · exact absurd (hlater j ha) (not_lt.mpr hj.le)

namespace Recency

variable {c c' : Cache} {x : Nat} {i : Slot}

section

variable (h : Recency c past used)
include h

theorem congr (hready : ∀ i, (c'.entries i).ready = true)
    (hsector : ∀ i, (c'.entries i).sector = (c.entries i).sector) (hlru : c'.lru = c.lru) : Recency c' past used :=
  { h with
    ready := hready
    lru := hlru.trans h.lru
    sectors := by simp only [hsector, h.sectors]
    unused j hj := (hsector j).trans (h.unused j hj) }

/-- The entries are used in the order of their numbers. -/
theorem mem_used : i ∈ used ↔ i.val < used.length := by
  rw [h.slots.mem_iff, mem_take_iff_getElem]
  constructor
  · rintro ⟨n, hn, rfl⟩
    rw [getElem_finRange]
    show n < _
    omega
  · intro hi
    refine ⟨i.val, by rw [length_finRange]; omega, ?_⟩
    rw [getElem_finRange]
    rfl

theorem length_le : used.length ≤ numEntries := by
  have hlen := h.slots.length_eq
  rw [length_take, length_finRange] at hlen
  omega

theorem nodup : (used.map (fun i => (c.entries i).sector)).Nodup := h.sectors ▸ (Lru.recent_nodup past).sublist (take_sublist _ _)

theorem find_used (hi : i ∈ used) (hx : (c.entries i).sector = x) : c.find x = some i := by
  cases hf : c.find x with
  | none => exact absurd hx (find_none hf i)
  | some j =>
    have hj := find_some hf
    by_cases hmem : j ∈ used
    · rw [inj_on_of_nodup_map h.nodup hmem hi (hj.trans hx.symm)]
    have hlt : i < j := by
      have h1 := h.mem_used.mp hi
      have h2 := mt h.mem_used.mpr hmem
      exact Fin.lt_def.mpr (by omega)
    exact absurd hx (find_first hf hlt)

/-- An entry that is found has been used, or is the next to be used. -/
theorem find_cases (hf : c.find x = some i) : i ∈ used ∨ x ∉ used.map (fun i => (c.entries i).sector) ∧ i.val = used.length := by
  refine or_iff_not_imp_left.mpr fun hmem => ?_
  have hx := find_some hf
  constructor
  · intro hin
    obtain ⟨j, hj, hjx⟩ := mem_map.mp hin
    rw [h.find_used hj hjx] at hf
    exact hmem (Option.some.inj hf ▸ hj)
  have hge := mt h.mem_used.mpr hmem
  by_contra hne
  have hlt : (⟨used.length, by omega⟩ : Slot) < i := Fin.lt_def.mpr (by show used.length < i.val; omega)
  refine find_first hf hlt ((h.unused _ (mt h.mem_used.mp (lt_irrefl _))).trans ?_)
  rw [← hx, h.unused i hmem]

/-- With every entry ready, the entry to be evicted is the next to be used, or the one used longest ago. -/
theorem candidate (hc : c.getEvictionCandidate = some i) :
    i.val = used.length ∨ used.length = numEntries ∧ used.getLast? = some i := by
  unfold getEvictionCandidate at hc
  rcases Nat.lt_or_ge used.length numEntries with hlt | hge
  · rw [h.lru, reverse_append, unusedSlots, reverse_reverse, drop_finRange hlt, cons_append,
      find?_cons_of_pos (p := fun i => (c.entries i).ready) (h.ready _)] at hc
    exact .inl (congrArg Fin.val (Option.some.inj hc)).symm
  have hlen : used.length = numEntries := Nat.le_antisymm h.length_le hge
  refine .inr ⟨hlen, ?_⟩
  rw [h.lru, unusedSlots_eq_nil hge, append_nil] at hc
  rw [getLast?_eq_head?_reverse]
  cases hr : used.reverse with
  | nil =>
    rw [hr] at hc
    cases hc
  | cons j rest =>
    rw [hr, find?_cons_of_pos (p := fun i => (c.entries i).ready) (h.ready j)] at hc
    exact hc

/-- A used entry is used again. -/
theorem again (hi : i ∈ used) (hx : (c.entries i).sector = x) : Recency (c.touch i) (x :: past) (i :: used.erase i) := by
  have hlen : (used.erase i).length + 1 = used.length := length_erase_add_one hi
  have hle := h.length_le
  refine ⟨h.ready, ?_, ?_, ?_, fun j hj => h.unused j fun hu => hj ?_⟩
  · rw [touch, h.lru, erase_append_left _ hi, length_cons, hlen, cons_append]
  · rw [length_cons, hlen]
    exact (perm_cons_erase hi).symm.trans h.slots
  · obtain ⟨before, after, hsplit, hnot⟩ := eq_append_cons_of_mem hi
    have hnodup := h.nodup
    have hbefore : x ∉ before.map (fun i => (c.entries i).sector) := by
      rw [hsplit, map_append, map_cons, hx] at hnodup
      exact fun hm => (nodup_append.mp hnodup).2.2 x hm x mem_cons_self rfl
    rw [take_recent_entries, ← h.sectors]
    have herase : used.erase i = before ++ after := by rw [hsplit, erase_append_right _ hnot, erase_cons_head]
    have hleft : (used.map (fun i => (c.entries i).sector)).erase x = (before ++ after).map (fun i => (c.entries i).sector) := by
      rw [hsplit, map_append, map_cons, hx, erase_append_right _ hbefore, erase_cons_head, ← map_append]
    rw [hleft, take_of_length_le]
    · refine cons_eq_cons.mpr ⟨hx, ?_⟩
      rw [herase]
      rfl
    · rw [length_map, ← herase]
      omega
  · by_cases hji : j = i
    · exact hji ▸ mem_cons_self
    · exact mem_cons_of_mem _ ((mem_erase_of_ne hji).mpr hu)

variable (hx : x ∉ used.map (fun i => (c.entries i).sector)) (hready : ∀ j, (c'.entries j).ready = true)
  (hself : (c'.entries i).sector = x) (hothers : ∀ j, j ≠ i → (c'.entries j).sector = (c.entries j).sector)
  (hlru : c'.lru = c.lru)
include hx hready hself hothers hlru

/-- The next entry is used for a sector that was not cached. -/
theorem next (hi : i.val = used.length) : Recency (c'.touch i) (x :: past) (i :: used) := by
  have hnot : i ∉ used := fun hmem => absurd (h.mem_used.mp hmem) (by omega)
  have hdrop : (finRange numEntries).drop used.length = i :: (finRange numEntries).drop (used.length + 1) := by
    rw [← hi, drop_finRange i.isLt]
  have hsame : used.map (fun j => (c'.entries j).sector) = used.map (fun j => (c.entries j).sector) :=
    map_congr_left fun j hj => hothers j fun he => hnot (he ▸ hj)
  refine ⟨hready, ?_, ?_, ?_, fun j hj => ?_⟩
  · have hlater : i ∉ unusedSlots (used.length + 1) := by
      have hnodup : ((finRange numEntries).drop used.length).Nodup := (nodup_finRange _).sublist (drop_sublist _ _)
      rw [hdrop] at hnodup
      rw [unusedSlots, mem_reverse]
      exact (nodup_cons.mp hnodup).1
    have hlast : unusedSlots used.length = unusedSlots (used.length + 1) ++ [i] := by
      rw [unusedSlots, hdrop, reverse_cons]
      rfl
    rw [touch, hlru, h.lru, erase_append_right _ hnot, hlast, erase_append_right _ hlater, erase_cons_head, append_nil]
    rfl
  · have htake : (finRange numEntries).take (used.length + 1) = (finRange numEntries).take used.length ++ [i] := by
      rw [take_add, hdrop]
      rfl
    rw [length_cons, htake]
    exact (h.slots.cons i).trans (perm_append_singleton i _).symm
  · rw [take_recent_entries, ← h.sectors, erase_of_not_mem hx,
      take_of_length_le]
    · exact cons_eq_cons.mpr ⟨hself, hsame⟩
    · rw [length_map]
      omega
  · rw [mem_cons, not_or] at hj
    exact (hothers j hj.1).trans (h.unused j hj.2)

/-- The entry used longest ago is used for a sector that was not cached. -/
theorem evict (hfull : used.length = numEntries) (hi : used.getLast? = some i) :
    Recency (c'.touch i) (x :: past) (i :: used.dropLast) := by
  obtain ⟨rest, hsplit⟩ := getLast?_eq_some_iff.mp hi
  have hnodup : used.Nodup := Nodup.of_map _ h.nodup
  have hnot : i ∉ rest := by
    rw [hsplit] at hnodup
    exact fun hmem => (nodup_append.mp hnodup).2.2 i hmem i mem_cons_self rfl
  have hrest : used.dropLast = rest := by rw [hsplit, dropLast_concat]
  have hlen : rest.length + 1 = used.length := by rw [hsplit, length_append, length_singleton]
  have hsame : rest.map (fun j => (c'.entries j).sector) = rest.map (fun j => (c.entries j).sector) :=
    map_congr_left fun j hj => hothers j fun he => hnot (he ▸ hj)
  rw [hrest]
  refine ⟨hready, ?_, ?_, ?_, fun j hj => ?_⟩
  · rw [touch, hlru, h.lru, length_cons, hlen, unusedSlots_eq_nil hfull.ge, append_nil, append_nil, hsplit,
      erase_append_right _ hnot, erase_cons_head, append_nil]
  · have hperm := h.slots
    rw [length_cons, hlen]
    refine Perm.trans ?_ hperm
    rw [hsplit]
    exact (perm_append_singleton i rest).symm
  · rw [take_recent_entries, ← h.sectors, erase_of_not_mem hx,
      hsplit, map_append, take_append_of_le_length, take_of_length_le]
    · exact cons_eq_cons.mpr ⟨hself, hsame⟩
    · rw [length_map]
      omega
    · rw [length_map]
      omega
  · rw [mem_cons, not_or] at hj
    refine (hothers j hj.1).trans (h.unused j fun hu => ?_)
    rw [hsplit] at hu
    rcases mem_append.mp hu with hu | hu
    · exact hj.2 hu
    · exact hj.1 (mem_singleton.mp hu)

end

end Recency

namespace CacheMachine

variable {m' : CacheMachine} {x : Nat} {i : Slot}

theorem clean_ok (hl : m.lock = heldLock) (hready : (m.cache.entries i).ready = true) (h : m.clean i = .ok m') :
    m'.cache = m.cache.cleaned i ∧ m'.lock = heldLock := by
  unfold clean at h
  split at h
  · simp only [Loop.bind_eq_ok] at h
    obtain ⟨m1, h1, m2, h2, m3, h3, h⟩ := h
    rw [lockRelease_held (by exact hl)] at h1
    cases h1
    unfold blockWrite at h2
    split at h2
    · cases h2
      rw [lockAcquire_free rfl] at h3
      cases h3
      cases h
      refine ⟨?_, rfl⟩
      simp only [startClean, finishClean, cleaned, setEntry, Function.update_self, Function.update_idem]
      rw [← hready]
    · cases h2
  · cases h

theorem replace_ok (hl : m.lock = heldLock) (h : m.replace i x = .ok m') :
    (∃ bytes, m'.cache = m.cache.replaced i x bytes) ∧ m'.lock = heldLock := by
  unfold replace at h
  split at h
  · cases h
  rename_i hd
  simp only [Loop.bind_eq_ok] at h
  obtain ⟨m1, h1, ⟨bytes, m2⟩, h2, m3, h3, h⟩ := h
  rw [lockRelease_held (by exact hl)] at h1
  cases h1
  unfold blockRead at h2
  split at h2
  case h_2 => cases h2
  cases h2
  rw [lockAcquire_free rfl] at h3
  cases h3
  cases h
  refine ⟨⟨bytes, ?_⟩, rfl⟩
  simp only [startReplace, load, finishReplace, replaced, setEntry, Function.update_self,
    Function.update_idem, Bool.eq_false_of_not_eq_true hd]

section

variable (h : Recency m.cache past used)
include h

/-- A turn that finds the sector. -/
theorem recency_hit (hf : m.cache.find x = some i) : ∃ used, Recency (m.cache.touch i) (x :: past) used := by
  rcases h.find_cases hf with hi | ⟨hx, hi⟩
  · exact ⟨_, h.again hi (find_some hf)⟩
  · exact ⟨_, h.next hx h.ready (find_some hf) (fun _ _ => rfl) rfl hi⟩

/-- A turn that replaces an entry, and one that finds the sector there. -/
theorem recency_replace (hl : m.lock = heldLock) (hf : m.cache.find x = none)
    (hc : m.cache.getEvictionCandidate = some i) (hd : (m.cache.entries i).dirty = false) {turns : Nat}
    (hacc : bufcacheAccess (turns + 2) m x = .ok (m', j)) : m'.lock = heldLock ∧ ∃ used, Recency m'.cache (x :: past) used := by
  have hx : x ∉ used.map (fun i => (m.cache.entries i).sector) := by
    intro hin
    obtain ⟨j, -, hj⟩ := mem_map.mp hin
    exact find_none hf j hj
  have haccess : m.cache.access x = .replace i := by simp only [access, hf, hc, hd, Bool.false_eq_true, if_false]
  rw [bufcacheAccess, haccess] at hacc
  obtain ⟨m1, h1, hacc⟩ := Loop.bind_eq_ok.mp hacc
  obtain ⟨⟨bytes, hcache⟩, hl1⟩ := replace_ok hl h1
  have hself : (m1.cache.entries i).sector = x := by simp [hcache, replaced]
  have hothers : ∀ j, j ≠ i → (m1.cache.entries j).sector = (m.cache.entries j).sector :=
    fun j hj => by simp [hcache, replaced, hj]
  have hready : ∀ j, (m1.cache.entries j).ready = true := by
    intro j
    by_cases hj : j = i
    · simp [hcache, replaced, hj]
    · simp [hcache, replaced, hj, h.ready j]
  have hfound : m1.cache.find x = some i := by
    cases hf1 : m1.cache.find x with
    | none => exact absurd hself (find_none hf1 i)
    | some j =>
      by_cases hj : j = i
      · rw [hj]
      · exact absurd ((hothers j hj).symm.trans (find_some hf1)) (find_none hf j)
  have hhit : m1.cache.access x = .hit i := by simp only [access, hfound, hready i, if_true]
  rw [bufcacheAccess, hhit] at hacc
  cases hacc
  have hlru : m1.cache.lru = m.cache.lru := by rw [hcache]; rfl
  rcases h.candidate hc with hi | ⟨hfull, hlast⟩
  · exact ⟨hl1, _, h.next hx hready hself hothers hlru hi⟩
  · exact ⟨hl1, _, h.evict hx hready hself hothers hlru hfull hlast⟩

/-- `bufcache_access`: the sector is the most recently used one afterwards. -/
theorem recency_access (hl : m.lock = heldLock)
    (hacc : bufcacheAccess accessTurns m x = .ok (m', j)) : m'.lock = heldLock ∧ ∃ used, Recency m'.cache (x :: past) used := by
  cases hf : m.cache.find x with
  | some i =>
    have hhit : m.cache.access x = .hit i := by simp only [access, hf, h.ready i, if_true]
    rw [accessTurns, bufcacheAccess, hhit] at hacc
    cases hacc
    exact ⟨hl, recency_hit h hf⟩
  | none =>
    cases hc : m.cache.getEvictionCandidate with
    | none =>
      have hwait : m.cache.access x = .waitOne := by simp only [access, hf, hc]
      rw [accessTurns, bufcacheAccess, hwait] at hacc
      cases hacc
    | some i =>
      cases hd : (m.cache.entries i).dirty with
      | false => exact recency_replace h hl hf hc hd hacc
      | true =>
        have hclean : m.cache.access x = .clean i := by simp only [access, hf, hc, hd, if_true]
        rw [accessTurns, bufcacheAccess, hclean] at hacc
        obtain ⟨m1, h1, hacc⟩ := Loop.bind_eq_ok.mp hacc
        obtain ⟨hcache, hl1⟩ := clean_ok hl (h.ready i) h1
        have hsector : ∀ j, (m1.cache.entries j).sector = (m.cache.entries j).sector ∧ (m1.cache.entries j).ready = true := by
          intro j
          by_cases hj : j = i
          · simp [hcache, cleaned, hj, h.ready i]
          · simp [hcache, cleaned, hj, h.ready j]
        have hlru : m1.cache.lru = m.cache.lru := by rw [hcache]; rfl
        -- the entry that was cleaned is chosen again
        have hc1 : m1.cache.getEvictionCandidate = some i := by
          rw [← hc]
          simp [getEvictionCandidate, hlru, fun j => (hsector j).2, h.ready]
        have hf1 : m1.cache.find x = none := by
          rw [← hf]
          simp [find, fun j => (hsector j).1]
        exact recency_replace (h.congr (fun j => (hsector j).2) (fun j => (hsector j).1) hlru)
          hl1 hf1 hc1 (by simp [hcache, cleaned]) hacc

theorem recency_exec (hl : m.lock = lockInit) {c : CacheCall}
    (hexec : m.exec (.call c) = .ok (r, m')) : m'.lock = lockInit ∧ ∃ used, Recency m'.cache (c.sector :: past) used := by
  cases c with
  | read x ofs length =>
    obtain ⟨⟨bytes, m1⟩, hread, hret⟩ := Loop.bind_eq_ok.mp hexec
    cases hret
    unfold bufcacheRead at hread
    split at hread
    · simp only [lockAcquire_free hl, Loop.bind_eq_ok] at hread
      obtain ⟨m2, h2, ⟨m3, i⟩, hacc, m4, hrel, hret⟩ := hread
      cases h2
      obtain ⟨hl3, hrec⟩ := recency_access (by exact h) rfl hacc
      rw [lockRelease_held hl3] at hrel
      cases hrel
      cases hret
      exact ⟨rfl, hrec⟩
    · cases hread
  | write x ofs buffer =>
    obtain ⟨m1, hwrite, hret⟩ := Loop.bind_eq_ok.mp hexec
    cases hret
    unfold bufcacheWrite at hwrite
    split at hwrite
    · simp only [lockAcquire_free hl, Loop.bind_eq_ok] at hwrite
      obtain ⟨m2, h2, ⟨m3, i⟩, hacc, hrel⟩ := hwrite
      cases h2
      obtain ⟨hl3, used, hrec⟩ := recency_access (by exact h) rfl hacc
      rw [lockRelease_held (by exact hl3)] at hrel
      cases hrel
      have hstore : ∀ j, ((m3.cache.store i ofs buffer).entries j).sector = (m3.cache.entries j).sector ∧
          ((m3.cache.store i ofs buffer).entries j).ready = true := by
        intro j
        by_cases hj : j = i
        · simp [store, hj, hrec.ready i]
        · simp [store, hj, hrec.ready j]
      exact ⟨rfl, used, hrec.congr (fun j => (hstore j).2) (fun j => (hstore j).1) rfl⟩
    · cases hwrite

end

theorem recency_run (calls : List CacheCall) (h : Recency m.cache past used)
    (hl : m.lock = lockInit) (hrun : m.run (calls.map .call) = .ok (r, m')) :
    m'.lock = lockInit ∧ ∃ used, Recency m'.cache (calls.reverse.map (·.sector) ++ past) used := by
  induction calls generalizing m past used r with
  | nil =>
    cases hrun
    exact ⟨hl, used, h⟩
  | cons c calls ih =>
    obtain ⟨⟨r1, m1⟩, h1, hrun⟩ := Loop.bind_eq_ok.mp hrun
    obtain ⟨⟨rs, m2⟩, h2, hret⟩ := Loop.bind_eq_ok.mp hrun
    cases hret
    obtain ⟨hl1, used1, hrec⟩ := recency_exec h hl h1
    have hrest := ih hrec hl1 h2
    rwa [reverse_cons, map_append, append_assoc]

/-- A call on a cached sector returns, and no `block_read` has run. -/
theorem exec_hit {c : CacheCall} (hl : m.lock = lockInit) (hhit : m.cache.access c.sector = .hit i) (hin : c.inSector = true) :
    ∃ r m', m.exec (.call c) = .ok (r, m') ∧ m'.reads = m.reads := by
  cases c with
  | read x ofs length =>
    simp only [CacheCall.sector] at hhit
    simp only [CacheCall.inSector, decide_eq_true_eq] at hin
    simp only [exec, bufcacheRead, if_pos hin, lockAcquire_free hl, accessTurns, bufcacheAccess, hhit, bind, Except.bind]
    rw [lockRelease_held rfl]
    exact ⟨_, _, rfl, rfl⟩
  | write x ofs buffer =>
    simp only [CacheCall.sector] at hhit
    simp only [CacheCall.inSector, decide_eq_true_eq] at hin
    simp only [exec, bufcacheWrite, if_pos hin, lockAcquire_free hl, accessTurns, bufcacheAccess, hhit, bind, Except.bind]
    rw [lockRelease_held rfl]
    exact ⟨_, _, rfl, rfl⟩

theorem recency_start (dev : Block) : Recency (start dev).cache [] [] where
  ready _ := rfl
  lru := by
    rfl
  slots := .refl _
  sectors := rfl
  unused _ _ := rfl

end CacheMachine

/-- The cache holds the sectors `last`, latest first, and what is cached is not read from the device. Entries of the invalid
sector do not count. -/
structure KeepsLast (m : CacheMachine) (last : List Nat) : Prop where
  each : m.cache.lru.Perm (finRange numEntries)
  order : (m.cache.lru.map (fun i => (m.cache.entries i).sector)).filter (fun x => x != invalidSector) =
    last.filter (fun x => x != invalidSector)
  held : ∀ x, x ≠ invalidSector → ((∃ i, (m.cache.entries i).sector = x) ↔ x ∈ last)
  reads : ∀ c : CacheCall, c.sector ∈ last → c.inSector = true → ∃ r m', m.exec (.call c) = .ok (r, m') ∧ m'.reads = m.reads

/-- What the used entries say of all. -/
theorem Recency.keepsLast (h : Recency m.cache past used) (hl : m.lock = lockInit) :
    KeepsLast m ((Lru.recent past).take numEntries) := by
  have hfree : ∀ i ∈ unusedSlots used.length, (m.cache.entries i).sector = invalidSector := by
    intro i hi
    refine h.unused i fun hu => ?_
    have hall : ((finRange numEntries).take used.length ++ (finRange numEntries).drop used.length).Nodup := by
      rw [take_append_drop]
      exact nodup_finRange _
    exact (nodup_append.mp hall).2.2 i (h.slots.mem_iff.mp hu) i (mem_reverse.mp hi) rfl
  constructor
  · rw [h.lru, unusedSlots]
    conv_rhs => rw [← take_append_drop used.length (finRange numEntries)]
    exact h.slots.append (reverse_perm _)
  · rw [h.lru, map_append, filter_append, h.sectors, append_right_eq_self]
    refine filter_eq_nil_iff.mpr fun x hx => ?_
    obtain ⟨i, hi, rfl⟩ := mem_map.mp hx
    simp [hfree i hi]
  · intro x hx
    rw [← h.sectors, mem_map]
    constructor
    · rintro ⟨i, rfl⟩
      exact ⟨i, not_not.mp fun hu => hx (h.unused i hu), rfl⟩
    · rintro ⟨i, -, hi⟩
      exact ⟨i, hi⟩
  · intro c hc hin
    rw [← h.sectors, mem_map] at hc
    obtain ⟨i, hi, hx⟩ := hc
    have hhit : m.cache.access c.sector = .hit i := by simp only [access, h.find_used hi hx, h.ready i, if_true]
    exact exec_hit hl hhit hin

/-- **The cache is least recently used.** Calls on sectors of a device return; and after any calls that have returned, from
`bufcache_init` on, the sectors in the entries are the last 64 distinct ones accessed (all of them if fewer), the list has
them in the order of their latest accesses, and an access to one of them returns with nothing more read from the device. -/
theorem bufcache_lru (dev : Block) (calls : List CacheCall) :
    (dev.size ≤ invalidSector → (∀ c ∈ calls, c.sector < dev.size ∧ c.inSector = true) →
      ∃ r m, (start dev).run (calls.map .call) = .ok (r, m)) ∧
    ∀ r m, (start dev).run (calls.map .call) = .ok (r, m) →
      KeepsLast m ((Lru.recent (calls.reverse.map (·.sector))).take numEntries) := by
  constructor
  · intro hsize hcalls
    have hflush : ∀ op ∈ calls.map CacheOp.call, op ≠ .flush := by
      intro op hop
      obtain ⟨c, -, rfl⟩ := mem_map.mp hop
      exact nofun
    obtain ⟨r, m, hrun, -, -⟩ := (idle_start hsize).run_calls (fun c hc => hcalls c (by simpa using hc)) hflush
    exact ⟨r, m, hrun⟩
  · intro r m hrun
    obtain ⟨hl, used, hrec⟩ := recency_run calls (recency_start dev) rfl hrun
    rw [append_nil] at hrec
    exact hrec.keepsLast hl

/-- Three accesses to a device of two sectors. -/
theorem three_accesses_lru : ∃ r m, (start { size := 2, disk := fun _ => Contents.fill 0 }).run
    ([CacheCall.write 1 0 [7], .read 0 0 4, .read 1 0 1].map .call) = .ok (r, m) ∧ KeepsLast m [1, 0] := by
  obtain ⟨r, m, hrun⟩ := (bufcache_lru { size := 2, disk := fun _ => Contents.fill 0 }
    [.write 1 0 [7], .read 0 0 4, .read 1 0 1]).1 (by decide) (by decide)
  exact ⟨r, m, hrun, (bufcache_lru _ _).2 r m hrun⟩

end Pintos
