import Mathlib.Data.List.Nodup
import Pintos.Library.Ownership
import Pintos.Library.Loop
import Pintos.Threads.Palloc

/-!
# What the page allocator keeps

Threads and live groups own bits of the pools. A thread of `palloc_get_multiple` owns the bits it has set, a thread of
`palloc_free_multiple` those it has not cleared yet, and a live group all its bits. No bit has two owners and every owned bit
is set, so a bit that a scan finds clear has no owner; and it stays clear under the scan, since bits are set under the lock
only.
-/

namespace Pintos

open Ownership PallocState Function Option

/-! ## The layout of the pools -/

/-- What `palloc_init` makes of the memory from `start` to `stop`: each pool begins with its bitmap and holds its pages
behind it, and the kernel pool ends before the user pool begins. -/
structure PoolsOk (pools : PoolId → Pool) (start stop : Nat) : Prop where
  positive : 0 < start
  aligned : ∀ p, pgOfs (pools p).base = 0
  bitmap : ∀ p, (pools p).usedMap + bitmapBufSize (pools p).bitCnt ≤ (pools p).base
  low : start ≤ (pools .kernel).usedMap
  apart : (pools .kernel).base + (pools .kernel).bitCnt * pgsize ≤ (pools .user).usedMap
  high : (pools .user).base + (pools .user).bitCnt * pgsize ≤ stop

/-- A pool fills the pages it is given with its bitmap and the pages behind it. -/
theorem initPool_ok {base pageCnt : Nat} {pool : Pool} (h : initPool base pageCnt = .ok pool) :
    pool.usedMap = base ∧ (∃ n, pool.base = base + n * pgsize) ∧ base + bitmapBufSize pool.bitCnt ≤ pool.base ∧
      pool.base + pool.bitCnt * pgsize = base + pageCnt * pgsize := by
  unfold initPool at h
  simp only at h
  split at h
  · cases h
  split at h
  · cases h
  · rename_i hfit hbuf
    cases h
    refine ⟨rfl, ⟨_, rfl⟩, by simp only; omega, ?_⟩
    rw [Nat.add_assoc, ← Nat.add_mul, Nat.add_sub_cancel' (Nat.le_of_not_lt hfit)]

theorem pgOfs_freeStart : ptov (1024 * 1024) % pgsize = 0 := by
  have hbase : physBase % pgsize = 0 := by
    unfold physBase
    decide
  rw [ptov, Nat.add_mod, hbase]
  decide

theorem initRamPages_ge (ax : Nat) : 256 ≤ initRamPages ax := by
  unfold initRamPages
  omega

/-- The free pages fill the memory from 1 MB on. -/
theorem ptov_ramPages {ramPages : Nat} (hram : 256 ≤ ramPages) :
    ptov (1024 * 1024) + (ramPages - 256) * pgsize = ptov (ramPages * pgsize) := by
  obtain ⟨n, rfl⟩ := Nat.exists_eq_add_of_le hram
  rw [Nat.add_sub_cancel_left, Nat.add_mul]
  exact Nat.add_assoc _ _ _

/-- The layout, for every memory size and every limit on the user pool. -/
theorem pallocInit_ok {ramPages limit : Nat} (hram : 256 ≤ ramPages) {pools : PoolId → Pool}
    (h : pallocInit ramPages limit = .ok pools) : PoolsOk pools (ptov (1024 * 1024)) (ptov (ramPages * pgsize)) := by
  obtain ⟨kernel, hk, h⟩ := Loop.bind_eq_ok.mp h
  obtain ⟨user, hu, h⟩ := Loop.bind_eq_ok.mp h
  cases h
  obtain ⟨hkmap, ⟨n, hkbase⟩, hkbuf, hkend⟩ := initPool_ok hk
  obtain ⟨humap, ⟨m, hubase⟩, hubuf, huend⟩ := initPool_ok hu
  have hfree : (ptov (ramPages * pgsize) - ptov (1024 * 1024)) / pgsize = ramPages - 256 := by
    unfold ptov pgsize
    omega
  rw [hfree] at hkend hubase huend humap hubuf
  have hstart := pgOfs_freeStart
  have hend := ptov_ramPages hram
  have huser : min ((ramPages - 256) / 2) limit ≤ ramPages - 256 := by omega
  refine ⟨by unfold ptov; omega, fun p => ?_, fun p => ?_, ?_, ?_, ?_⟩
  · cases p with
    | kernel =>
      simp only [hkbase, pgOfs, Nat.add_mul_mod_self_right]
      exact hstart
    | user =>
      simp only [hubase, pgOfs, Nat.add_mul_mod_self_right]
      exact hstart
  · cases p with
    | kernel => exact hkmap ▸ hkbuf
    | user => exact humap ▸ hubuf
  · exact Nat.le_of_eq hkmap.symm
  · exact Nat.le_of_eq (hkend.trans humap.symm)
  · refine Nat.le_of_eq (huend.trans ?_)
    rw [Nat.add_assoc, ← Nat.add_mul, Nat.sub_add_cancel huser, hend]

/-! ## The invariant -/

/-- Who may own bits. -/
inductive BitOwner where
  | group (g : PageGroup)
  | thread (t : Thread)

/-- The bits that a thread owns. -/
def PallocPc.Claims : PallocPc → PoolId × Nat → Prop
  | .flip flags _ idx k, r => r.1 = flags.pool ∧ idx ≤ r.2 ∧ r.2 < idx + k
  | .release flags cnt (some idx), r => r.1 = flags.pool ∧ idx ≤ r.2 ∧ r.2 < idx + cnt
  | .back flags cnt (some idx), r => r.1 = flags.pool ∧ idx ≤ r.2 ∧ r.2 < idx + cnt
  | .test p cnt idx _, r => r.1 = p ∧ idx ≤ r.2 ∧ r.2 < idx + cnt
  | .clear p cnt idx k, r => r.1 = p ∧ idx + k ≤ r.2 ∧ r.2 < idx + cnt
  | _, _ => False

/-- The lock that a thread holds. -/
def PallocPc.holds : PallocPc → Option PoolId
  | .scan flags _ _ _ => some flags.pool
  | .flip flags _ _ _ => some flags.pool
  | .release flags _ _ => some flags.pool
  | _ => none

section

variable (pools : PoolId → Pool)

variable (g : PageGroup) (s : PallocState)

/-- The index of the first bit of a group. -/
def PageGroup.idx : Nat := pgNo g.pages - pgNo (pools g.flags.pool).base

/-- The bits that a group is made of. -/
def PageGroup.Claims (r : PoolId × Nat) : Prop := r.1 = g.flags.pool ∧ g.idx pools ≤ r.2 ∧ r.2 < g.idx pools + g.cnt

/-- The bits that an owner owns. -/
def PallocState.Claim : BitOwner → PoolId × Nat → Prop
  | .group g, r => g ∈ s.live ∧ g.Claims pools r
  | .thread t, r => (s.threads t).Claims r

/-- What a thread has found out in its call. -/
def PallocState.PcOk : PallocPc → Prop
  | .idle => True
  | .acquire _ cnt => 0 < cnt
  | .scan flags cnt i j =>
    0 < cnt ∧ i + cnt ≤ (pools flags.pool).bitCnt ∧ j ≤ cnt ∧ ∀ k, k < j → s.bits flags.pool (i + k) = false
  | .flip flags cnt idx k =>
    0 < cnt ∧ idx + cnt ≤ (pools flags.pool).bitCnt ∧ k ≤ cnt ∧ ∀ m, k ≤ m → m < cnt → s.bits flags.pool (idx + m) = false
  | .release flags cnt result => 0 < cnt ∧ ∀ idx, result = some idx → idx + cnt ≤ (pools flags.pool).bitCnt
  | .back flags cnt result => 0 < cnt ∧ ∀ idx, result = some idx → idx + cnt ≤ (pools flags.pool).bitCnt
  | .test p cnt idx k => idx + cnt ≤ (pools p).bitCnt ∧ k ≤ cnt
  | .clear p cnt idx k => idx + cnt ≤ (pools p).bitCnt ∧ k ≤ cnt

/-- A group is a run of pages of its pool. -/
def PageGroup.Ok : Prop :=
  0 < g.cnt ∧ ∃ idx, g.pages = (pools g.flags.pool).base + pgsize * idx ∧ idx + g.cnt ≤ (pools g.flags.pool).bitCnt

/-- What holds between any two steps. -/
structure PallocInv (s : PallocState) : Prop where
  noFault : ∀ e, s.failed = some e → e = .outOfPages
  pcs : ∀ t, s.PcOk pools (s.threads t)
  lock : ∀ p t, s.lock p = some t ↔ (s.threads t).holds = some p
  groups : ∀ g ∈ s.live, g.Ok pools
  nodup : s.live.Nodup
  exclusive : Exclusive (s.Claim pools)
  used : ∀ o r, s.Claim pools o r → s.bits r.1 r.2 = true

end

variable {pools : PoolId → Pool} {s s' : PallocState}

variable {t : Thread} {cnt idx k : Nat} {pc before : PallocPc} {flags : PallocFlags} {p : PoolId} {g : PageGroup}

/-- A thread keeps what it has found out while the bits of the pool it has locked are only cleared. -/
theorem PallocState.PcOk.frame (h : s.PcOk pools pc)
    (hbits : ∀ p i, pc.holds = some p → s.bits p i = false → s'.bits p i = false) : s'.PcOk pools pc := by
  cases pc with
  | scan flags cnt i j => exact ⟨h.1, h.2.1, h.2.2.1, fun k hk => hbits _ _ rfl (h.2.2.2 k hk)⟩
  | flip flags cnt idx k => exact ⟨h.1, h.2.1, h.2.2.1, fun m hm hm' => hbits _ _ rfl (h.2.2.2 m hm hm')⟩
  | _ => exact h

/-- One thread takes a step that reaches no assertion: the invariant holds after it where it holds of the thread, the locks,
the groups and the bits. -/
theorem PallocInv.change (inv : PallocInv pools s) (hthreads : s'.threads = update s.threads t pc)
    (hfault : s'.failed = s.failed) (hpc : s'.PcOk pools pc)
    (hbits : ∀ u p i, u ≠ t → s.lock p = some u → s.bits p i = false → s'.bits p i = false)
    (hlock : ∀ p u, s'.lock p = some u ↔ (update s.threads t pc u).holds = some p) (hgroups : ∀ g ∈ s'.live, g.Ok pools)
    (hnodup : s'.live.Nodup) (hexcl : Exclusive (s'.Claim pools)) (hused : ∀ o r, s'.Claim pools o r → s'.bits r.1 r.2 = true) :
    PallocInv pools s' := by
  refine ⟨fun e he => inv.noFault e (hfault ▸ he), fun u => ?_, fun p u => by rw [hthreads]; exact hlock p u, hgroups,
    hnodup, hexcl, hused⟩
  rw [hthreads]
  by_cases hu : u = t
  · subst hu
    rw [update_self]
    exact hpc
  · rw [update_of_ne hu]
    exact (inv.pcs u).frame (fun p i hp => hbits u p i hu ((inv.lock p u).mpr hp))

/-- Where a thread moves and no group joins, a claim is one of the thread at its new place or an old claim of another
owner. -/
theorem PallocState.Claim.cases {o : BitOwner} {r : PoolId × Nat} (h : s'.Claim pools o r)
    (hthreads : s'.threads = update s.threads t pc) (hlive : ∀ g ∈ s'.live, g ∈ s.live) :
    (o = .thread t ∧ pc.Claims r) ∨ (o ≠ .thread t ∧ s.Claim pools o r) := by
  cases o with
  | group g => exact .inr ⟨nofun, hlive g h.1, h.2⟩
  | thread u =>
    simp only [Claim, hthreads] at h
    by_cases hu : u = t
    · subst hu
      rw [update_self] at h
      exact .inl ⟨rfl, h⟩
    · rw [update_of_ne hu] at h
      exact .inr ⟨fun he => hu (BitOwner.thread.inj he), h⟩

section

variable (inv : PallocInv pools s) (ht : s.threads t = before)
include inv ht

/-- A step that writes no bit and after which the thread claims no more than before. -/
theorem PallocInv.quiet (hthreads : s'.threads = update s.threads t pc)
    (hbits : s'.bits = s.bits) (hlive : s'.live = s.live) (hfault : s'.failed = s.failed) (hpc : s.PcOk pools pc)
    (hlock : ∀ p u, s'.lock p = some u ↔ (update s.threads t pc u).holds = some p)
    (hclaims : ∀ r, pc.Claims r → before.Claims r) : PallocInv pools s' := by
  subst ht
  have hsub : ∀ o r, s'.Claim pools o r → s.Claim pools o r := by
    intro o r h
    rcases h.cases hthreads (fun g hg => hlive ▸ hg) with ⟨rfl, hc⟩ | ⟨-, hc⟩
    · exact hclaims r hc
    · exact hc
  refine inv.change hthreads hfault (hpc.frame (fun p i _ h => by rw [hbits]; exact h))
    (fun u p i _ _ h => by rw [hbits]; exact h) hlock
    (fun g hg => inv.groups g (hlive ▸ hg)) (hlive ▸ inv.nodup) (inv.exclusive.mono hsub) (fun o r h => ?_)
  rw [hbits]
  exact inv.used o r (hsub o r h)

/-- The lock stays with the thread where it does not change. -/
theorem PallocInv.lock_keep (hholds : pc.holds = before.holds) (p : PoolId) (u : Thread) :
    s.lock p = some u ↔ (update s.threads t pc u).holds = some p := by
  by_cases hu : u = t
  · subst hu
    rw [update_self, hholds, ← ht]
    exact inv.lock p u
  · rw [update_of_ne hu]
    exact inv.lock p u

/-- A step between two places with the same lock. -/
theorem PallocInv.move (hpc : s.PcOk pools pc) (hholds : pc.holds = before.holds) (hclaims : ∀ r, pc.Claims r → before.Claims r) :
    PallocInv pools (s.setPc t pc) :=
  inv.quiet ht rfl rfl rfl rfl hpc (inv.lock_keep ht hholds) hclaims

/-- A thread takes a lock that is free, or gives its lock back. -/
theorem PallocInv.relocked {l : Option Thread} (hpc : s.PcOk pools pc) (hown : ∀ u, u ≠ t → s.lock p ≠ some u)
    (hl : ∀ u, l = some u ↔ u = t ∧ pc.holds = some p) (hother : ∀ q, q ≠ p → before.holds ≠ some q ∧ pc.holds ≠ some q)
    (hclaims : ∀ r, pc.Claims r → before.Claims r) : PallocInv pools ((s.setLock p l).setPc t pc) := by
  refine inv.quiet ht rfl rfl rfl rfl hpc (fun q u => ?_) hclaims
  change update s.lock p l q = some u ↔ _
  have hlock := inv.lock q u
  by_cases hq : q = p <;> by_cases hu : u = t
  · subst hq hu
    simp [hl]
  · subst hq
    rw [update_self, update_of_ne hu, ← hlock, hl]
    simp [hu, hown u hu]
  · subst hu
    rw [update_of_ne hq, update_self, hlock, ht]
    simp [hother q hq]
  · rw [update_of_ne hq, update_of_ne hu]
    exact hlock

end

/-! ## Writing bits -/

theorem PallocState.setBit_bits (s : PallocState) (p : PoolId) (i : Nat) (value : Bool) (q : PoolId) (j : Nat) :
    (s.setBit p i value).bits q j = if (q, j) = (p, i) then value else s.bits q j := by
  by_cases hq : q = p
  · subst hq
    by_cases hj : j = i
    · subst hj
      simp [setBit]
    · simp [setBit, hj]
  · simp [setBit, hq]

/-- A thread of `palloc_get_multiple` sets the next bit of the run that it has found clear. Nobody owns that bit. -/
theorem PallocInv.flip (inv : PallocInv pools s) (ht : s.threads t = .flip flags cnt idx k) (hk : k < cnt) :
    PallocInv pools ((s.setBit flags.pool (idx + k) true).setPc t (.flip flags cnt idx (k + 1))) := by
  obtain ⟨hpos, hbound, -, hclear⟩ : s.PcOk pools (.flip flags cnt idx k) := ht ▸ inv.pcs t
  have hbit : s.bits flags.pool (idx + k) = false := hclear k (Nat.le_refl k) hk
  have hfree : ∀ o, ¬s.Claim pools o (flags.pool, idx + k) := by
    intro o h
    have := inv.used o _ h
    rw [hbit] at this
    cases this
  have hlock : s.lock flags.pool = some t := (inv.lock _ t).mpr (by rw [ht]; rfl)
  have hsub : ∀ o r, ((s.setBit flags.pool (idx + k) true).setPc t (.flip flags cnt idx (k + 1))).Claim pools o r →
      s.Claim pools o r ∨ (o = .thread t ∧ r = (flags.pool, idx + k)) := by
    intro o r h
    rcases h.cases rfl (fun g hg => hg) with ⟨rfl, hr, hlow, hhigh⟩ | ⟨-, hold⟩
    · by_cases he : r.2 = idx + k
      · exact .inr ⟨rfl, Prod.ext hr he⟩
      · refine .inl ?_
        simp only [Claim, ht]
        exact ⟨hr, hlow, by omega⟩
    · exact .inl hold
  refine inv.change rfl rfl ⟨hpos, hbound, hk, fun m hm hm' => ?_⟩ (fun u p i hu hp h => ?_)
    (inv.lock_keep ht rfl) inv.groups inv.nodup (inv.exclusive.take hfree hsub) (fun o r h => ?_)
  · change (s.setBit flags.pool (idx + k) true).bits flags.pool (idx + m) = false
    rw [setBit_bits, if_neg (by simp only [Prod.mk.injEq, true_and]; omega)]
    exact hclear m (by omega) hm'
  · change (s.setBit flags.pool (idx + k) true).bits p i = false
    rw [setBit_bits, if_neg]
    · exact h
    · rintro he
      obtain rfl : p = flags.pool := (Prod.mk.inj he).1
      exact hu (some.inj (hp.symm.trans hlock))
  · change (s.setBit flags.pool (idx + k) true).bits r.1 r.2 = true
    rw [setBit_bits]
    split
    · rfl
    · rename_i hne
      exact inv.used o r ((hsub o r h).resolve_right (fun hr => hne hr.2))

/-- A thread of `palloc_free_multiple` clears the next bit of its group. Nobody else owns that bit. -/
theorem PallocInv.clear (inv : PallocInv pools s) (ht : s.threads t = .clear p cnt idx k)
    (hk : k < cnt) : PallocInv pools ((s.setBit p (idx + k) false).setPc t (.clear p cnt idx (k + 1))) := by
  obtain ⟨hbound, -⟩ : s.PcOk pools (.clear p cnt idx k) := ht ▸ inv.pcs t
  have hown : s.Claim pools (.thread t) (p, idx + k) := by
    simp only [Claim, ht]
    exact ⟨rfl, Nat.le_refl _, by simp only; omega⟩
  have hsub : ∀ o r, ((s.setBit p (idx + k) false).setPc t (.clear p cnt idx (k + 1))).Claim pools o r →
      s.Claim pools o r ∧ r ≠ (p, idx + k) := by
    intro o r h
    rcases h.cases rfl (fun g hg => hg) with ⟨rfl, hr, hlow, hhigh⟩ | ⟨hne, hold⟩
    · refine ⟨?_, fun he => ?_⟩
      · simp only [Claim, ht]
        exact ⟨hr, by omega, hhigh⟩
      · rw [he] at hlow
        omega
    · exact ⟨hold, fun he => hne (inv.exclusive _ _ _ hold (he ▸ hown))⟩
  refine inv.change rfl rfl ⟨hbound, hk⟩ (fun u q i _ _ h => ?_) (inv.lock_keep ht rfl) inv.groups inv.nodup
    (inv.exclusive.mono (fun o r h => (hsub o r h).1)) (fun o r h => ?_)
  · change (s.setBit p (idx + k) false).bits q i = false
    rw [setBit_bits, h, ite_self]
  · change (s.setBit p (idx + k) false).bits r.1 r.2 = true
    rw [setBit_bits, if_neg (hsub o r h).2]
    exact inv.used o r (hsub o r h).1

/-! ## Groups -/

theorem PageGroup.pgNo_eq (h : g.pages = (pools g.flags.pool).base + pgsize * idx) :
    pgNo g.pages = pgNo (pools g.flags.pool).base + idx := by
  rw [h]
  exact Nat.add_mul_div_left _ _ (by decide)

/-- The index that `palloc_free_multiple` computes is the one that the scan found. -/
theorem PageGroup.idx_eq (h : g.pages = (pools g.flags.pool).base + pgsize * idx) : g.idx pools = idx := by
  rw [PageGroup.idx, pgNo_eq h, Nat.add_sub_cancel_left]

/-- `palloc_get_multiple` returns: what the thread owns belongs to the new group. -/
theorem PallocInv.returned (inv : PallocInv pools s) (ht : s.threads t = .back flags cnt (some idx)) :
    PallocInv pools
      ({ s with live := { flags := flags, pages := (pools flags.pool).base + pgsize * idx, cnt := cnt } :: s.live }.setPc
        t .idle) := by
  obtain ⟨hpos, hbound⟩ : s.PcOk pools (.back flags cnt (some idx)) := ht ▸ inv.pcs t
  let g : PageGroup := { flags := flags, pages := (pools flags.pool).base + pgsize * idx, cnt := cnt }
  have hidx : g.idx pools = idx := PageGroup.idx_eq rfl
  have hclaims : ∀ r, g.Claims pools r → s.Claim pools (.thread t) r := by
    intro r h
    unfold PageGroup.Claims at h
    rw [hidx] at h
    simp only [Claim, ht]
    exact h
  have hnew : g ∉ s.live := by
    intro hg
    have hbit : g.Claims pools (flags.pool, idx) := ⟨rfl, Nat.le_of_eq hidx, by simp only [hidx, g]; omega⟩
    exact nomatch inv.exclusive (.group g) (.thread t) _ ⟨hg, hbit⟩ (hclaims _ hbit)
  have hsub : ∀ o r, ({ s with live := g :: s.live }.setPc t .idle).Claim pools o r →
      (o ≠ .thread t ∧ s.Claim pools o r) ∨ (o = .group g ∧ s.Claim pools (.thread t) r) := by
    intro o r h
    rcases Claim.cases (s := { s with live := g :: s.live }) h rfl (fun g hg => hg) with ⟨-, hc⟩ | ⟨hne, hc⟩
    · exact hc.elim
    cases o with
    | group g' =>
      rcases List.mem_cons.mp hc.1 with rfl | hm
      · exact .inr ⟨rfl, hclaims r hc.2⟩
      · exact .inl ⟨hne, hm, hc.2⟩
    | thread u => exact .inl ⟨hne, hc⟩
  refine inv.change rfl rfl trivial (fun _ _ _ _ _ h => h) (inv.lock_keep ht rfl) (fun g' hg' => ?_)
    (List.nodup_cons.mpr ⟨hnew, inv.nodup⟩) (inv.exclusive.hand hsub) (fun o r h => ?_)
  · rcases List.mem_cons.mp hg' with rfl | hg'
    · exact ⟨hpos, idx, rfl, hbound idx rfl⟩
    · exact inv.groups g' hg'
  · rcases hsub o r h with ⟨-, h⟩ | ⟨-, h⟩ <;> exact inv.used _ r h

/-- `palloc_free_multiple` is called: what the group owned belongs to the thread. -/
theorem PallocInv.freeing (inv : PallocInv pools s) (ht : s.threads t = .idle) (hg : g ∈ s.live) :
    PallocInv pools ({ s with live := s.live.erase g }.setPc t (.test g.flags.pool g.cnt (g.idx pools) 0)) := by
  obtain ⟨hpos, idx, hpages, hbound⟩ := inv.groups g hg
  have hsub : ∀ o r, ({ s with live := s.live.erase g }.setPc t (.test g.flags.pool g.cnt (g.idx pools) 0)).Claim pools o r →
      (o ≠ .group g ∧ s.Claim pools o r) ∨ (o = .thread t ∧ s.Claim pools (.group g) r) := by
    intro o r h
    rcases Claim.cases (s := s) h rfl (fun g hg => List.mem_of_mem_erase hg) with ⟨rfl, hc⟩ | ⟨-, hc⟩
    · exact .inr ⟨rfl, hg, hc⟩
    · refine .inl ⟨?_, hc⟩
      rintro rfl
      exact (inv.nodup.mem_erase_iff.mp h.1).1 rfl
  refine inv.change rfl rfl ⟨?_, Nat.zero_le _⟩ (fun _ _ _ _ _ h => h) (inv.lock_keep ht rfl)
    (fun g' hg' => inv.groups g' (List.mem_of_mem_erase hg')) (inv.nodup.erase _) (inv.exclusive.hand hsub) (fun o r h => ?_)
  · rw [PageGroup.idx_eq hpages]
    exact hbound
  · rcases hsub o r h with ⟨-, h⟩ | ⟨-, h⟩ <;> exact inv.used _ r h

/-- `palloc_free_multiple` finds the pool and the index of a group. -/
theorem freeCall_eq {start stop : Nat} (hpools : PoolsOk pools start stop) (hg : g.Ok pools) (s : PallocState) (t : Thread) :
    s.freeCall pools t g.pages g.cnt = s.setPc t (.test g.flags.pool g.cnt (g.idx pools) 0) := by
  obtain ⟨hpos, idx, hpages, hbound⟩ := hg
  have hno := PageGroup.pgNo_eq hpages
  have hofs : pgOfs g.pages = 0 := by
    rw [hpages, pgOfs, Nat.add_mul_mod_self_left]
    exact hpools.aligned _
  have hmap := fun p => hpools.bitmap p
  have hne : g.pages ≠ 0 := by
    have h0 := hpools.positive
    have h1 := hpools.low
    have h2 := hpools.apart
    have h3 := hmap .kernel
    have h4 := hmap .user
    have h5 : 0 < (pools g.flags.pool).base := by
      cases g.flags.pool with
      | kernel => omega
      | user => omega
    omega
  have hfrom : (pools g.flags.pool).pageFromPool g.pages = true := by
    simp only [Pool.pageFromPool, decide_eq_true_eq]
    omega
  have hkernel : g.flags.pool = .user → (pools .kernel).pageFromPool g.pages = false := by
    intro hu
    have hle : (pools .kernel).base + pgsize * (pools .kernel).bitCnt ≤ (pools .user).base := by
      have h2 := hpools.apart
      have h4 := hmap .user
      rw [Nat.mul_comm]
      omega
    have hdiv := Nat.div_le_div_right (c := pgsize) hle
    rw [Nat.add_mul_div_left _ _ (by decide)] at hdiv
    rw [hu] at hno
    simp only [Pool.pageFromPool, decide_eq_false_iff_not]
    unfold pgNo at *
    omega
  have hstart : ∀ p, p = g.flags.pool →
      (if pgNo g.pages - pgNo (pools p).base + g.cnt ≤ (pools p).bitCnt then
        s.setPc t (.test p g.cnt (pgNo g.pages - pgNo (pools p).base) 0) else s.fail .bitIndex) =
      s.setPc t (.test g.flags.pool g.cnt (g.idx pools) 0) := by
    rintro p rfl
    refine if_pos ?_
    rw [hno, Nat.add_sub_cancel_left]
    exact hbound
  simp only [freeCall, hofs, ne_eq, not_true, if_false, hne, false_or, Nat.pos_iff_ne_zero.mp hpos]
  cases hp : g.flags.pool with
  | kernel =>
    rw [hp] at hfrom hstart
    rw [if_pos hfrom]
    exact hstart .kernel rfl
  | user =>
    rw [hkernel hp]
    rw [hp] at hfrom hstart
    simp only [Bool.false_eq_true, if_false, if_pos hfrom]
    exact hstart .user rfl

/-! ## Steps -/

section

variable (inv : PallocInv pools s)
include inv

/-- The invariant holds when the machine has stopped for want of pages. -/
theorem PallocInv.outOfPages : PallocInv pools (s.fail .outOfPages) :=
  { inv with noFault := fun _ he => (some.inj he).symm, pcs := fun t => (inv.pcs t).frame (fun _ _ _ h => h) }

theorem PallocInv.scan {i j : Nat}
    (ht : s.threads t = .scan flags cnt i j) : PallocInv pools (s.scanStep pools t flags cnt i j) := by
  obtain ⟨hpos, hbound, hj, hclear⟩ : s.PcOk pools (.scan flags cnt i j) := ht ▸ inv.pcs t
  unfold scanStep
  by_cases hlt : j < cnt
  · rw [if_pos hlt, if_pos (by omega : i + j < (pools flags.pool).bitCnt)]
    by_cases hbit : s.bits flags.pool (i + j) = true
    · rw [if_pos hbit]
      by_cases hnext : i + 1 ≤ (pools flags.pool).bitCnt - cnt
      · -- the run at `i` has a set bit, and there is room for a run at `i + 1`
        rw [if_pos hnext, enterContains, if_pos (by omega)]
        exact inv.move ht ⟨hpos, by omega, Nat.zero_le _, nofun⟩ rfl nofun
      · rw [if_neg hnext]
        exact inv.move ht ⟨hpos, nofun⟩ rfl nofun
    · rw [if_neg hbit]
      refine inv.move ht ⟨hpos, hbound, hlt, fun k hk => ?_⟩ rfl nofun
      rcases Nat.lt_succ_iff_lt_or_eq.mp hk with hk | rfl
      · exact hclear k hk
      · exact Bool.eq_false_iff.mpr hbit
  · rw [if_neg hlt, if_pos hbound]
    refine inv.move ht ⟨hpos, hbound, Nat.zero_le _, fun m _ hm => hclear m (by omega)⟩ rfl (fun r h => ?_)
    obtain ⟨-, hlow, hhigh⟩ := h
    omega

theorem PallocInv.flipStep (ht : s.threads t = .flip flags cnt idx k) : PallocInv pools (s.flipStep pools t flags cnt idx k) := by
  obtain ⟨hpos, hbound, hk, -⟩ : s.PcOk pools (.flip flags cnt idx k) := ht ▸ inv.pcs t
  unfold PallocState.flipStep
  by_cases hlt : k < cnt
  · rw [if_pos hlt, if_pos (by omega)]
    exact inv.flip ht hlt
  obtain rfl : k = cnt := by omega
  rw [if_neg hlt]
  refine inv.move ht ⟨hpos, fun i he => ?_⟩ rfl (fun _ h => h)
  cases he
  exact hbound

/-- A turn of the loop of `bitmap_all`: the thread owns the bit, so it is set. -/
theorem PallocInv.test (ht : s.threads t = .test p cnt idx k) : PallocInv pools (s.testStep pools t p cnt idx k) := by
  obtain ⟨hbound, hk⟩ : s.PcOk pools (.test p cnt idx k) := ht ▸ inv.pcs t
  unfold testStep
  by_cases hlt : k < cnt
  · have hbit : s.bits p (idx + k) = true := by
      refine inv.used (.thread t) (p, idx + k) ?_
      simp only [Claim, ht]
      exact ⟨rfl, Nat.le_add_right _ _, by simp only; omega⟩
    rw [if_pos hlt, if_pos (by omega), if_pos hbit]
    exact inv.move ht ⟨hbound, hlt⟩ rfl (fun _ h => h)
  · rw [if_neg hlt, if_pos hbound]
    exact inv.move ht ⟨hbound, Nat.zero_le _⟩ rfl (fun _ h => h)

theorem PallocInv.clearStep (ht : s.threads t = .clear p cnt idx k) : PallocInv pools (s.clearStep pools t p cnt idx k) := by
  obtain ⟨hbound, hk⟩ : s.PcOk pools (.clear p cnt idx k) := ht ▸ inv.pcs t
  unfold PallocState.clearStep
  by_cases hlt : k < cnt
  · rw [if_pos hlt, if_pos (by omega)]
    exact inv.clear ht hlt
  · rw [if_neg hlt]
    exact inv.move ht trivial rfl nofun

theorem PallocInv.acquire (ht : s.threads t = .acquire flags cnt)
    (h : s.acquireStep pools t flags cnt = some s') : PallocInv pools s' := by
  have hpos : s.PcOk pools (.acquire flags cnt) := ht ▸ inv.pcs t
  unfold acquireStep at h
  cases hl : s.lock flags.pool with
  | some u =>
    have hu : u ≠ t := by
      rintro rfl
      have := (inv.lock flags.pool u).mp hl
      rw [ht] at this
      cases this
    simp only [hl, if_neg hu] at h
    cases h
  | none =>
    simp only [hl] at h
    have hlocked : ∀ pc, s.PcOk pools pc → pc.holds = some flags.pool → (∀ r, ¬pc.Claims r) →
        PallocInv pools ((s.setLock flags.pool (some t)).setPc t pc) := fun pc hpc hp hnone =>
      inv.relocked ht hpc (by simp [hl]) (by simp [hp, eq_comm]) (fun q hq => ⟨nofun, by simp [hp, hq.symm]⟩)
        (fun r h => absurd h (hnone r))
    split at h
    · rw [enterContains, if_pos (by omega)] at h
      cases h
      exact hlocked _ ⟨hpos, by omega, Nat.zero_le _, nofun⟩ rfl nofun
    · cases h
      exact hlocked _ ⟨hpos, nofun⟩ rfl nofun

theorem PallocInv.release {result : Option Nat}
    (ht : s.threads t = .release flags cnt result) : PallocInv pools (s.releaseStep t flags cnt result) := by
  have hpc : s.PcOk pools (.release flags cnt result) := ht ▸ inv.pcs t
  have hlock : s.lock flags.pool = some t := (inv.lock _ t).mpr (by rw [ht]; rfl)
  rw [releaseStep, if_pos hlock]
  refine inv.relocked ht hpc (by simp [hlock, eq_comm]) (by simp [PallocPc.holds])
    (fun q hq => ⟨by simp [PallocPc.holds, hq.symm], nofun⟩) (fun r h => ?_)
  cases result with
  | none | some idx => exact h

end

theorem PallocInv.step {start stop : Nat} (hpools : PoolsOk pools start stop) (inv : PallocInv pools s) {a : PallocAction}
    (h : s.step pools a = some s') : PallocInv pools s' := by
  unfold PallocState.step at h
  split at h
  · cases h
  cases a with
  | get t flags cnt =>
    simp only at h
    split at h
    · rename_i ht
      split at h
      · cases h
        exact inv
      · rename_i hcnt
        cases h
        exact inv.move ht (Nat.pos_of_ne_zero hcnt) rfl nofun
    · cases h
  | free t g =>
    simp only at h
    split at h
    · rename_i hguard
      rw [freeCall_eq hpools (inv.groups g hguard.2)] at h
      cases h
      exact inv.freeing hguard.1 hguard.2
    · cases h
  | go t =>
    simp only at h
    cases ht : s.threads t <;> rw [ht] at h
    case idle => cases h
    case acquire flags cnt => exact inv.acquire ht h
    case scan flags cnt i j => exact some.inj h ▸ inv.scan ht
    case flip flags cnt idx k => exact some.inj h ▸ inv.flipStep ht
    case release flags cnt result => exact some.inj h ▸ inv.release ht
    case back flags cnt result =>
      cases result with
      | some idx => exact some.inj h ▸ inv.returned ht
      | none =>
        simp only [backStep] at h
        split at h
        · exact some.inj h ▸ inv.outOfPages
        · exact some.inj h ▸ inv.move ht trivial rfl nofun
    case test p cnt idx k => exact some.inj h ▸ inv.test ht
    case clear p cnt idx k => exact some.inj h ▸ inv.clearStep ht

end Pintos
