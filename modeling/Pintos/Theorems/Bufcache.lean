import Pintos.Lemmas.Bufcache

/-!
# The buffer cache is coherent under any interleaving

The statement about every run of every number of threads, read off the invariant of `Lemmas/Bufcache.lean`.
-/

namespace Pintos

/-- Coherence of the buffer cache. In every interleaving of calls of `bufcache_read` and `bufcache_write`: no two entries
hold the same valid sector, every entry is on the list exactly once, a ready entry that is not dirty holds the bytes of the
disk sector it names, and every read returned what the latest write of each byte put there, or the byte that the disk held at
first. -/
theorem bufcache_coherent (dev : Block) (s : CacheState) (h : (cacheSystem dev).Reachable s) :
    (∀ i j, (s.cache.entries i).sector = (s.cache.entries j).sector → (s.cache.entries i).sector ≠ invalidSector → i = j) ∧
    (∀ i, s.cache.lru.count i = 1) ∧
    (∀ i, (s.cache.entries i).ready = true → (s.cache.entries i).dirty = false →
      (s.cache.entries i).sector ≠ invalidSector →
      (s.cache.entries i).contents = s.dev.disk (s.cache.entries i).sector) ∧
    ReadsLatest dev.disk s.log := by
  have hi := CacheInv.reachable h
  refine ⟨hi.distinct, ?_, ?_, hi.reads⟩
  · intro i
    rw [hi.lru.count_eq]
    exact List.count_eq_one_of_mem (List.nodup_finRange numEntries) (List.mem_finRange i)
  · intro i hr hd hv
    obtain ⟨hc, hdisk⟩ := hi.settled i hr hv
    rw [hc, hdisk hd]

/-- A device of eight sectors, whose sector `x` holds the byte `x` throughout. -/
def sampleDevice : Block := { size := 8, disk := fun x => Contents.fill (UInt8.ofNat x) }

/-- Thread 0 writes to sector 3; thread 1 asks for the same sector while it is being loaded, waits, and reads it. -/
def sampleActions : List CacheAction :=
  [.call 0 (.write 3 1 [7, 9]), .go 0, .call 1 (.read 3 0 4), .go 1, .go 0, .go 0, .go 1]

/-- The two threads of `sampleActions` reach a state where the reader got the writer's bytes between two bytes of the
disk. -/
theorem bufcache_coherent_sample :
    ∃ s, (cacheSystem sampleDevice).run (CacheState.start sampleDevice) sampleActions = some s ∧
      ((∀ i, s.cache.lru.count i = 1) ∧ ReadsLatest sampleDevice.disk s.log) ∧
      s.log = [.read 3 0 4 [3, 7, 9, 3], .write 3 1 [7, 9]] := by
  refine Transition.System.exists_run rfl .always (fun s hs => ?_) (by decide +kernel)
  obtain ⟨-, hlru, -, hr⟩ := bufcache_coherent sampleDevice s hs
  exact ⟨hlru, hr⟩

/-- These contents of a sector are on the disk, or in a dirty entry on their way there. -/
def CacheState.Keeps (s : CacheState) (x : Nat) (c : Contents) : Prop :=
  s.dev.disk x = c ∨ ∃ i, (s.cache.entries i).sector = x ∧ (s.cache.entries i).dirty = true ∧ (s.cache.entries i).contents = c

/-- No write is lost. Whatever the interleaving was, when no entry is being cleaned or replaced, the disk or a dirty entry
has, for every sector, what the writes so far have made of it. -/
theorem bufcache_loses_nothing (dev : Block) (s : CacheState) (h : (cacheSystem dev).Reachable s)
    (hready : ∀ i, (s.cache.entries i).ready = true) (x : Nat) (hx : x ≠ invalidSector) :
    s.Keeps x (valueAfter dev.disk s.log x) := by
  have hi := CacheInv.reachable h
  by_cases hcached : ∃ i, (s.cache.entries i).sector = x
  · obtain ⟨i, rfl⟩ := hcached
    obtain ⟨hc, hdisk⟩ := hi.settled i (hready i) hx
    cases hd : (s.cache.entries i).dirty with
    | false => exact .inl (hdisk hd)
    | true => exact .inr ⟨i, rfl, hd, hc⟩
  · exact .inl (hi.uncached x hx (not_exists.mp hcached))

theorem bufcache_loses_nothing_sample : ∃ s, (cacheSystem sampleDevice).Reachable s ∧ s.log.length = 2 ∧
    s.Keeps 3 (valueAfter sampleDevice.disk s.log 3) := by
  obtain ⟨s, hs, hl, hready⟩ : ∃ s, (cacheSystem sampleDevice).Reachable s ∧ s.log.length = 2 ∧
      ∀ i, (s.cache.entries i).ready = true :=
    Transition.System.exists_reachable rfl sampleActions (by decide +kernel)
  exact ⟨s, hs, hl, bufcache_loses_nothing _ s hs hready 3 (by decide)⟩

end Pintos
