import Pintos.Lemmas.Palloc

/-!
# The pages that `palloc` hands out

However the threads that get and free pages interleave, access by access to the bitmaps: no page is in two live groups, every
group is a run of pages of the pool that its flags select, away from the bitmaps, and the assertion of `palloc_free_multiple`
holds. A scan that runs beside frees may miss pages that have just become free; it never takes a page that is not.
-/

namespace Pintos

/-- What holds of the live groups and of the assertions between any two steps. -/
structure PallocSafe (pools : PoolId → Pool) (s : PallocState) : Prop where
  /-- No assertion has failed; the machine stops at most because a call with `PAL_ASSERT` finds no pages. -/
  noFault : ∀ e, s.failed = some e → e = .outOfPages
  /-- A group is a run of whole pages of the pool selected by its flags. -/
  inPool : ∀ g ∈ s.live, 0 < g.cnt ∧ pgOfs g.pages = 0 ∧ (pools g.flags.pool).base ≤ g.pages ∧
    g.pages + g.cnt * pgsize ≤ (pools g.flags.pool).base + (pools g.flags.pool).bitCnt * pgsize
  /-- No group reaches into the pages of a bitmap. -/
  offBitmaps : ∀ g ∈ s.live, ∀ p, g.pages + g.cnt * pgsize ≤ (pools p).usedMap ∨ (pools p).base ≤ g.pages
  /-- No page is in two groups. -/
  disjoint : s.live.Pairwise (fun g g' => g.pages + g.cnt * pgsize ≤ g'.pages ∨ g'.pages + g'.cnt * pgsize ≤ g.pages)

variable {pools : PoolId → Pool} {s : PallocState} {start stop : Nat}

section

variable (hpools : PoolsOk pools start stop)
include hpools

theorem PageGroup.Ok.inPool {g : PageGroup} (h : g.Ok pools) :
    0 < g.cnt ∧ pgOfs g.pages = 0 ∧ (pools g.flags.pool).base ≤ g.pages ∧
      g.pages + g.cnt * pgsize ≤ (pools g.flags.pool).base + (pools g.flags.pool).bitCnt * pgsize := by
  obtain ⟨hpos, idx, hpages, hbound⟩ := h
  refine ⟨hpos, ?_, by omega, ?_⟩
  · rw [hpages, pgOfs, Nat.add_mul_mod_self_left]
    exact hpools.aligned _
  · have hmul := Nat.mul_le_mul_right pgsize hbound
    rw [Nat.add_mul] at hmul
    rw [hpages, Nat.mul_comm pgsize]
    omega

/-- A group of the one pool lies before or behind everything of the other. -/
theorem PageGroup.Ok.offBitmaps {g : PageGroup} (h : g.Ok pools) (p : PoolId) :
    g.pages + g.cnt * pgsize ≤ (pools p).usedMap ∨ (pools p).base ≤ g.pages := by
  obtain ⟨-, -, hlow, hhigh⟩ := h.inPool hpools
  have hmap := hpools.bitmap .user
  have hapart := hpools.apart
  cases hp : g.flags.pool with
  | kernel =>
    rw [hp] at hlow hhigh
    cases p with
    | kernel => exact .inr hlow
    | user => exact .inl (by omega)
  | user =>
    rw [hp] at hlow hhigh
    cases p with
    | kernel => exact .inr (by omega)
    | user => exact .inr hlow

/-- Two live groups share no page: in one pool they would share a bit. -/
theorem PallocInv.disjoint (inv : PallocInv pools s) {g g' : PageGroup} (hg : g ∈ s.live)
    (hg' : g' ∈ s.live) (hne : g ≠ g') : g.pages + g.cnt * pgsize ≤ g'.pages ∨ g'.pages + g'.cnt * pgsize ≤ g.pages := by
  have ok := inv.groups g hg
  have ok' := inv.groups g' hg'
  by_cases hpool : g.flags.pool = g'.flags.pool
  · obtain ⟨hpos, i, hpages, -⟩ := ok
    obtain ⟨hpos', i', hpages', -⟩ := ok'
    have hruns : i + g.cnt ≤ i' ∨ i' + g'.cnt ≤ i := by
      by_contra hcon
      have hclaim : g.Claims pools (g.flags.pool, max i i') := by
        refine ⟨rfl, ?_, ?_⟩ <;> simp only [PageGroup.idx_eq hpages] <;> omega
      have hclaim' : g'.Claims pools (g.flags.pool, max i i') := by
        refine ⟨hpool, ?_, ?_⟩ <;> simp only [PageGroup.idx_eq hpages'] <;> omega
      exact hne (BitOwner.group.inj (inv.exclusive _ _ _ ⟨hg, hclaim⟩ ⟨hg', hclaim'⟩))
    rw [← hpool] at hpages'
    rw [hpages, hpages', Nat.mul_comm pgsize, Nat.mul_comm pgsize]
    refine hruns.imp (fun hle => ?_) (fun hle => ?_) <;>
    · have hmul := Nat.mul_le_mul_right pgsize hle
      rw [Nat.add_mul] at hmul
      omega
  · obtain ⟨-, -, hlow, hhigh⟩ := ok.inPool hpools
    obtain ⟨-, -, hlow', hhigh'⟩ := ok'.inPool hpools
    have hmap := hpools.bitmap .user
    have hapart := hpools.apart
    cases hp : g.flags.pool with
    | kernel =>
      cases hp' : g'.flags.pool with
      | kernel => exact absurd (hp.trans hp'.symm) hpool
      | user =>
        rw [hp] at hhigh
        rw [hp'] at hlow'
        exact .inl (by omega)
    | user =>
      cases hp' : g'.flags.pool with
      | kernel =>
        rw [hp] at hlow
        rw [hp'] at hhigh'
        exact .inr (by omega)
      | user => exact absurd (hp.trans hp'.symm) hpool

end

theorem PallocInv.initial : PallocInv pools PallocState.start := by
  have hnone : ∀ o r, ¬PallocState.start.Claim pools o r := by
    intro o r h
    cases o with
    | group g => exact nomatch h.1
    | thread t => exact h
  exact ⟨nofun, fun _ => trivial, fun p t => ⟨nofun, nofun⟩, nofun,
    List.nodup_nil, fun o o' r h _ => absurd h (hnone o r), fun o r h => absurd h (hnone o r)⟩

/-- The page allocator under every interleaving of every number of threads, for every memory size that the BIOS reports and
every limit on the user pool with which `palloc_init` returns. -/
theorem palloc_safe (ax userPageLimit : Nat) (pools : PoolId → Pool)
    (hinit : pallocInit (initRamPages ax) userPageLimit = .ok pools)
    (s : PallocState) (hr : (pallocSystem pools).Reachable s) :
    PoolsOk pools (ptov (1024 * 1024)) (ptov (initRamPages ax * pgsize)) ∧ PallocSafe pools s := by
  have hpools := pallocInit_ok (initRamPages_ge ax) hinit
  have inv : PallocInv pools s := by
    refine hr.invariant ?_ (fun s a s' inv h => inv.step hpools h)
    rintro s rfl
    exact PallocInv.initial
  exact ⟨hpools, inv.noFault, fun g hg => (inv.groups g hg).inPool hpools, fun g hg => (inv.groups g hg).offBitmaps hpools,
    inv.nodup.pairwise_of_forall_ne (fun g hg g' hg' hne => inv.disjoint hpools hg hg' hne)⟩

/-- The pools of a machine with 4 MB, of which the user pool gets 100 pages at most. -/
def fourMegabytes : PoolId → Pool := (pallocInit (initRamPages 3072) 100).toOption.getD (fun _ =>
      { usedMap := 0, bitCnt := 0, base := 0 })

/-- Thread 1 gets a kernel page while thread 2 gets a user page, and thread 1 frees its page. -/
def twoThreadsRun : List PallocAction :=
  let kernelPage : PallocFlags := { assert := true, zero := false, user := false }
  let userPage : PallocFlags := { assert := false, zero := true, user := true }
  [.get 1 kernelPage 1, .get 2 userPage 1, .go 1, .go 2, .go 1, .go 2, .go 1, .go 1, .go 1, .go 1, .go 1,
    .free 1 { flags := kernelPage, pages := (fourMegabytes .kernel).base, cnt := 1 }, .go 2, .go 2, .go 2, .go 1,
    .go 1, .go 2, .go 2]

/-- That run ends with one live group, and everything is safe. -/
theorem twoThreadsRun_safe : ∃ s, (pallocSystem fourMegabytes).Reachable s ∧ s.live.length = 1 ∧ PallocSafe fourMegabytes s := by
  have hinit : pallocInit (initRamPages 3072) 100 = .ok fourMegabytes := by
    have hok : (pallocInit (initRamPages 3072) 100).toOption.isSome = true := by decide +kernel
    unfold fourMegabytes
    cases h : pallocInit (initRamPages 3072) 100 with
    | error e =>
      rw [h] at hok
      cases hok
    | ok pools => rfl
  obtain ⟨s, hr, hlen⟩ : ∃ s, (pallocSystem fourMegabytes).Reachable s ∧ s.live.length = 1 :=
    Transition.System.exists_reachable rfl twoThreadsRun (by decide +kernel)
  exact ⟨s, hr, hlen, (palloc_safe 3072 100 fourMegabytes hinit s hr).2⟩

end Pintos
