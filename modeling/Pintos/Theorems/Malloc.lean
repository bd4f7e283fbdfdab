import Pintos.Lemmas.Malloc

/-!
# The blocks that `malloc` hands out

In every state that calls of `malloc` and `free` lead to, the live blocks share no byte with each other or with a header and
lie in pages that the allocator holds; the counts of the arenas are those of their blocks on the free lists; and no assertion
has failed. The page of a small arena goes back to `palloc` with its last live block.
-/

namespace Pintos

open List

variable {b size : Nat} {s : HeapState} {c : HeapCall} {h : Heap}

/-- A page of a group that the allocator holds. -/
def Heap.Holds (h : Heap) (p : Nat) : Prop := ∃ g ∈ h.groups, g.1 ≤ p ∧ p < g.1 + g.2

/-- What holds of the heap between two calls. -/
structure HeapSafe (s : HeapState) : Prop where
  /-- No assertion has failed. -/
  noFault : s.failed = none
  /-- A header is that of a page cut into blocks, or of the pages of a live big block. -/
  arenas : ∀ g ∈ s.heap.groups, (s.heap.header g.1).magic = arenaMagic ∧
    ((∃ d, d < descCnt ∧ (s.heap.header g.1).desc = .desc d ∧ g.2 = 1) ∨
      ((s.heap.header g.1).desc = .null ∧ (s.heap.header g.1).freeCnt = g.2 ∧ bigAddr g.1 ∈ s.live))
  /-- Two live blocks share no byte. -/
  disjoint : s.live.Pairwise (fun b b' => b + s.heap.capacity b ≤ b' ∨ b' + s.heap.capacity b' ≤ b)
  /-- Every byte of a live block, and there is one, lies in a page that is held. -/
  inside : ∀ b ∈ s.live, 0 < s.heap.capacity b ∧ ∀ x, b ≤ x → x < b + s.heap.capacity b → s.heap.Holds (pgNo x)
  /-- No live block reaches into a header. -/
  offHeaders : ∀ b ∈ s.live, ∀ g ∈ s.heap.groups, b + s.heap.capacity b ≤ g.1 * pgsize ∨ g.1 * pgsize + arenaSize ≤ b
  /-- The count of a small arena is that of its blocks on the free list of its descriptor. -/
  count : ∀ p d, (p, 1) ∈ s.heap.groups → (s.heap.header p).desc = .desc d →
    (s.heap.header p).freeCnt = (freeBlocks s.heap p d).card
  /-- A block of a small arena is live, or on that list once. -/
  split : ∀ p d i, (p, 1) ∈ s.heap.groups → (s.heap.header p).desc = .desc d → i < blocksPerArena d →
    (blockAddr p d i ∈ s.live ∧ (s.heap.freeList d).count (blockAddr p d i) = 0) ∨
      (blockAddr p d i ∉ s.live ∧ (s.heap.freeList d).count (blockAddr p d i) = 1)
  /-- The lists hold blocks of the arenas of their descriptors only. -/
  listed : ∀ d b, b ∈ s.heap.freeList d → Listed s.heap d b

/-! ## From the invariant -/

section

variable {live : List Nat} (inv : HeapInv h live)

include inv

/-- A live block lies in the page that starts its group, behind the header, and ends with the group at the latest. -/
theorem HeapInv.region (hb : b ∈ live) :
    ∃ p n, (p, n) ∈ h.groups ∧ pgNo b = p ∧ 0 < h.capacity b ∧ p * pgsize + arenaSize ≤ b ∧
    b + h.capacity b ≤ (p + n) * pgsize := by
  obtain ⟨⟨p, n⟩, hg, ⟨d, i, hd, hi, rfl⟩ | ⟨hd, rfl⟩⟩ := inv.lived b hb
  · obtain ⟨hsmall, hn⟩ := inv.small hg hd
    have hpage := block_in_page hsmall.desc hi
    have h16 := (desc_bounds hsmall.desc).1
    have haddr := blockAddr_div p hsmall.desc hi
    refine ⟨p, n, hg, haddr, ?_⟩
    simp only [Heap.capacity, haddr, hd]
    rw [hn, Nat.add_mul, Nat.one_mul]
    unfold blockAddr
    omega
  · have hbig := inv.big hg hd
    have hpos := (inv.pos _ hg).2
    refine ⟨p, n, hg, bigAddr_div p, ?_⟩
    simp only [Heap.capacity, bigAddr_div, hbig.header]
    unfold bigAddr pgsize arenaSize
    omega

/-- In bytes, a group ends before another begins. -/
theorem HeapInv.apart_bytes {g g' : Nat × Nat} (hg : g ∈ h.groups) (hg' : g' ∈ h.groups) (hne : g ≠ g') :
    (g.1 + g.2) * pgsize ≤ g'.1 * pgsize ∨ (g'.1 + g'.2) * pgsize ≤ g.1 * pgsize := by
  have hapart : Apart g g' := inv.apart.forall hg hg' hne
  exact hapart.imp (Nat.mul_le_mul_right _) (Nat.mul_le_mul_right _)

/-- Two live blocks share no byte: blocks of one arena have different indices, blocks of two lie in different pages. -/
theorem HeapInv.disjoint {b' : Nat} (hb : b ∈ live) (hb' : b' ∈ live) (hne : b ≠ b') :
    b + h.capacity b ≤ b' ∨ b' + h.capacity b' ≤ b := by
  by_cases hpage : pgNo b = pgNo b'
  · obtain ⟨g, hg, hcase⟩ := inv.lived b hb
    obtain ⟨g', hg', hcase'⟩ := inv.lived b' hb'
    rcases hcase with ⟨d, i, hd, hi, rfl⟩ | ⟨hd, rfl⟩ <;> rcases hcase' with ⟨d', i', hd', hi', rfl⟩ | ⟨hd', rfl⟩
    · have hdc := (inv.small hg hd).1.desc
      rw [blockAddr_div g.1 hdc hi, blockAddr_div g'.1 (inv.small hg' hd').1.desc hi'] at hpage
      rw [← hpage, hd] at hd'
      obtain rfl := DescPtr.desc.inj hd'
      rw [← hpage] at hne ⊢
      simp only [Heap.capacity, blockAddr_div g.1 hdc hi, blockAddr_div g.1 hdc hi', hd]
      unfold blockAddr at hne ⊢
      rcases Nat.lt_or_gt_of_ne (fun he => hne (by rw [he]) : i ≠ i') with hlt | hlt
      all_goals
        have := Nat.mul_le_mul_right (blockSize d) (Nat.succ_le_of_lt hlt)
        rw [Nat.succ_mul] at this
        omega
    · rw [blockAddr_div g.1 (inv.small hg hd).1.desc hi, bigAddr_div] at hpage
      rw [← hpage, hd] at hd'
      cases hd'
    · rw [blockAddr_div g'.1 (inv.small hg' hd').1.desc hi', bigAddr_div] at hpage
      rw [← hpage, hd] at hd'
      cases hd'
    · rw [bigAddr_div, bigAddr_div] at hpage
      exact absurd (by rw [hpage]) hne
  · obtain ⟨p, n, hg, hp, -, hlow, hhigh⟩ := inv.region hb
    obtain ⟨p', n', hg', hp', -, hlow', hhigh'⟩ := inv.region hb'
    have hapart := inv.apart_bytes hg hg' (fun he => hpage (by rw [hp, hp', (Prod.mk.inj he).1]))
    simp only at hapart
    omega

/-- The pages and headers around a live block. -/
theorem HeapInv.placed (hb : b ∈ live) :
    (0 < h.capacity b ∧ ∀ x, b ≤ x → x < b + h.capacity b → h.Holds (pgNo x)) ∧
      ∀ g ∈ h.groups, b + h.capacity b ≤ g.1 * pgsize ∨ g.1 * pgsize + arenaSize ≤ b := by
  obtain ⟨p, n, hg, -, hpos, hlow, hhigh⟩ := inv.region hb
  refine ⟨⟨hpos, fun x hx hx' => ⟨(p, n), hg, ?_, ?_⟩⟩, fun g' hg' => ?_⟩
  · exact (Nat.le_div_iff_mul_le (by decide)).mpr (by simp only; omega)
  · exact (Nat.div_lt_iff_lt_mul (by decide)).mpr (by simp only; omega)
  by_cases he : (p, n) = g'
  · subst he
    exact .inr hlow
  have hapart := inv.apart_bytes hg hg' he
  have hpos' := Nat.mul_le_mul_right pgsize (Nat.succ_le_of_lt (inv.pos g' hg').2)
  rw [Nat.add_mul g'.1] at hapart
  simp only at hapart
  omega

end

/-- Between two calls: no fault, the invariant, and no group of pages without a live block. -/
structure HeapOk (s : HeapState) : Prop where
  noFault : s.failed = none
  inv : HeapInv s.heap s.live
  use : InUse s.heap s.live

/-- The invariant gives the properties in the terms of the source. -/
theorem HeapOk.safe (ok : HeapOk s) : HeapSafe s := by
  obtain ⟨hfail, inv, use⟩ := ok
  refine ⟨hfail, fun g hg => ?_, inv.liveNodup.pairwise_of_forall_ne (fun b hb b' hb' hne => inv.disjoint hb hb' hne),
    fun b hb => (inv.placed hb).1, fun b hb => (inv.placed hb).2, fun p d hp hd => ?_, fun p d i hp hd hi => ?_, inv.listed⟩
  · rcases inv.arena g hg with ⟨d, ha, hn⟩ | hb
    · rw [ha.header]
      exact ⟨rfl, .inl ⟨d, ha.desc, rfl, hn⟩⟩
    · rw [hb.header]
      exact ⟨rfl, .inr ⟨rfl, rfl, hb.live⟩⟩
  · rw [(inv.small hp hd).1.header]
  · have hsplit := (inv.small hp hd).1.split i hi
    by_cases hlive : blockAddr p d i ∈ s.live
    · exact .inl ⟨hlive, count_eq_zero.mpr (hsplit.mp hlive)⟩
    · exact .inr ⟨hlive, count_eq_one_of_mem (inv.listNodup d) (not_not.mp (fun hn => hlive (hsplit.mpr hn)))⟩

/-! ## Calls -/

theorem HeapOk.start (header : Nat → Arena) : HeapOk (HeapState.start header) := by
  exact ⟨rfl, ⟨nofun, .nil, nofun, fun _ => nodup_nil, nofun, nodup_nil, nofun⟩, nofun⟩

/-- A call keeps all this. It gives back the groups that no live block is left in and no other, and takes from the live
blocks only the one that it frees. -/
theorem HeapOk.step {s' : HeapState} (ok : HeapOk s) (h : s.step c = some s') :
    HeapOk s' ∧ (∀ g ∈ s.heap.groups, g ∈ s'.heap.groups ↔ ∃ b ∈ s'.live, pgNo b = g.1) ∧
      (((∀ b, c ≠ .free (some b)) ∧ ∃ new, s'.live = new ++ s.live) ∨
        ∃ b ∈ s.live, c = .free (some b) ∧ s'.live = s.live.erase b ∧ ∀ g ∈ s'.heap.groups, g ∈ s.heap.groups) := by
  obtain ⟨hfail, inv, use⟩ := ok
  cases c with
  | malloc size answer =>
    obtain ⟨r, h', hm, inv', use', hsub, -, -⟩ := inv.malloc use size answer
    have hs' : s' = { s with heap := h', live := r.toList ++ s.live } := by
      simp only [HeapState.step, hm] at h
      split at h
      · cases h
      · cases r with
        | none | some b => exact (Option.some.inj h).symm
    subst hs'
    exact ⟨⟨hfail, inv', use'⟩, fun g hg => ⟨fun _ => use' g (hsub g hg), fun _ => hsub g hg⟩, .inl ⟨nofun, r.toList, rfl⟩⟩
  | free p =>
    simp only [HeapState.step] at h
    split at h
    · cases h
    rename_i hguard
    cases p with
    | none =>
      cases h
      exact ⟨⟨hfail, inv, use⟩, fun g hg => ⟨fun _ => use g hg, fun _ => hg⟩, .inl ⟨nofun, [], rfl⟩⟩
    | some b =>
      have hb : b ∈ s.live := by
        by_contra hnot
        exact hguard (.inr (decide_eq_false hnot))
      obtain ⟨h', hf, hinv, hgroups⟩ := inv.free use hb
      rw [hf] at h
      cases h
      exact ⟨⟨hfail, hinv, fun g hg => ((hgroups g).mp hg).2⟩,
        fun g hg => ⟨fun hm => ((hgroups g).mp hm).2, fun hm => (hgroups g).mpr ⟨hg, hm⟩⟩,
        .inr ⟨b, hb, rfl, rfl, fun g hg => ((hgroups g).mp hg).1⟩⟩

/-- A call frees the only live block of a page. -/
def FreesLast (s : HeapState) (p : Nat) (c : HeapCall) : Prop :=
  ∃ b ∈ s.live, c = .free (some b) ∧ ∀ b' ∈ s.live, pgNo b' = p ↔ b' = b

/-- A page that is held before a call and starts a group is given back by it exactly where the call frees its last live
block. -/
theorem HeapOk.returns_iff {s' : HeapState} (ok : HeapOk s) (h : s.step c = some s') {p n : Nat}
    (hp : (p, n) ∈ s.heap.groups) : ¬s'.heap.Holds p ↔ FreesLast s p c := by
  obtain ⟨-, hgroups, hlive⟩ := ok.step h
  have hpos := (ok.inv.pos _ hp).2
  obtain ⟨b0, hb0, hpage0⟩ := ok.use _ hp
  constructor
  · intro hnot
    have hnone : ∀ b ∈ s'.live, pgNo b ≠ p := by
      intro b hb he
      exact hnot ⟨(p, n), (hgroups _ hp).mpr ⟨b, hb, he⟩, Nat.le_refl _, by simp only; omega⟩
    rcases hlive with ⟨-, new, hlive⟩ | ⟨b, hb, hc, hlive, -⟩
    · exact absurd hpage0 (hnone b0 (hlive ▸ mem_append_right _ hb0))
    have hall : ∀ b' ∈ s.live, pgNo b' = p → b' = b := by
      intro b' hb' he
      by_contra hne
      exact hnone b' (hlive ▸ (mem_erase_of_ne hne).mpr hb') he
    obtain rfl := hall b0 hb0 hpage0
    exact ⟨b0, hb0, hc, fun b' hb' => ⟨hall b' hb', fun he => by rw [he]; exact hpage0⟩⟩
  · rintro ⟨b, hb, hc, hall⟩ ⟨g, hg, hle, hlt⟩
    obtain ⟨b', -, hc', hlive, hsub⟩ := hlive.resolve_left (·.1 b hc)
    obtain rfl : b' = b := Option.some.inj (HeapCall.free.inj (hc'.symm.trans hc))
    have hgp : g = (p, n) := by
      by_contra hne
      have hapart : Apart g (p, n) := ok.inv.apart.forall (hsub g hg) hp hne
      unfold Apart at hapart
      omega
    obtain ⟨b1, hb1, hpage1⟩ := (hgroups _ hp).mp (hgp ▸ hg)
    rw [hlive] at hb1
    obtain ⟨hne, hb1⟩ := ok.inv.liveNodup.mem_erase_iff.mp hb1
    exact hne ((hall b1 hb1).mp hpage1)

/-! ## Every sequence of calls -/

theorem HeapOk.reachable (hr : heapSystem.Reachable s) : HeapOk s := by
  refine hr.invariant ?_ (fun s c s' ok h => (ok.step h).1)
  rintro s ⟨header, rfl⟩
  exact HeapOk.start header

/-- The block allocator, over every sequence of calls. `malloc_init` fills seven of the ten descriptors and so ends with its
assertion met. Every state that the calls lead to is safe. A call gives the page of a small arena back exactly where it frees
the last live block in it, and none of its blocks is on a free list then. -/
theorem malloc_free_safe (s : HeapState) (hr : heapSystem.Reachable s) :
    descs.length < 10 ∧ HeapSafe s ∧
      ∀ c s', s.step c = some s' → ∀ p d, (p, 1) ∈ s.heap.groups → (s.heap.header p).desc = .desc d →
        (¬s'.heap.Holds p ↔ FreesLast s p c) ∧ (¬s'.heap.Holds p → ∀ d' b, b ∈ s'.heap.freeList d' → pgNo b ≠ p) := by
  have ok := HeapOk.reachable hr
  refine ⟨by decide, ok.safe, fun c s' h p d hp _ => ⟨ok.returns_iff h hp, fun hnot d' b hb he => hnot ?_⟩⟩
  have inv' := (ok.step h).1.inv
  exact ⟨_, ((inv'.listed d' b hb).page inv').1, by simp only [he, Nat.le_refl], by simp only [he]; omega⟩

/-- A block of 1000 bytes and one of 5000, in two arenas. -/
def twoBlocks : List HeapCall := [.malloc 1000 (some 5), .malloc 5000 (some 6)]

/-- After `twoBlocks` the heap is safe, and freeing the small block gives its page back. -/
theorem twoBlocks_safe :
    ∃ s s', heapSystem.Reachable s ∧ s.live = [bigAddr 6, blockAddr 5 6 0] ∧ HeapSafe s ∧
      s.step (.free (some (blockAddr 5 6 0))) = some s' ∧ ¬s'.heap.Holds 5 := by
  have hrun : ∃ s, heapSystem.run (HeapState.start (fun _ => Arena.cleared)) twoBlocks = some s ∧
      s.live = [bigAddr 6, blockAddr 5 6 0] ∧
      (5, 1) ∈ s.heap.groups ∧ (s.heap.header 5).desc = .desc 6 ∧ (s.step (.free (some (blockAddr 5 6 0)))).isSome = true :=
    ⟨_, rfl, rfl, by decide, rfl, by decide⟩
  obtain ⟨s, hs, hlive, hgroup, hdesc, hstep⟩ := hrun
  have hr : heapSystem.Reachable s := Transition.System.reachable_of_run ⟨fun _ => Arena.cleared, rfl⟩ twoBlocks hs
  obtain ⟨s', hs'⟩ := Option.isSome_iff_exists.mp hstep
  obtain ⟨-, hsafe, hreturn⟩ := malloc_free_safe s hr
  refine ⟨s, s', hr, hlive, hsafe, hs', ((hreturn _ s' hs' 5 6 hgroup hdesc).1).mpr ⟨blockAddr 5 6 0, ?_, rfl, ?_⟩⟩
  · rw [hlive]
    decide
  · rw [hlive]
    decide

/-!
## How large the blocks are

The number of pages for a big block is rounded up from the size and the header in wrapping arithmetic. For the largest eleven
sizes the sum with the header wraps around and one page is asked for; for those just below it the rounding wraps around and
no page is asked for, which `palloc` refuses. `calloc` compares the wrapped product with the factors, and it may well be no
less than both.
-/

/-- `malloc` comes back, with a null pointer or with a block of at least the size asked for. -/
def Heap.MallocOk (h : Heap) (size : Nat) (answer : Option Nat) : Prop :=
  ∃ r h', h.malloc size answer = .ok (r, h') ∧ ∀ p, r = some p → size ≤ h'.capacity p

/-- `calloc` comes back, with a null pointer or with a block of at least the product of its arguments, so many bytes of which
are zero. -/
def Heap.CallocOk (h : Heap) (bytes : Nat → UInt8) (a b : Nat) (answer : Option Nat) : Prop :=
  ∃ r h' bytes', h.calloc bytes a b answer = .ok (r, h', bytes') ∧
    ∀ p, r = some p → a * b ≤ h'.capacity p ∧ ∀ k, k < a * b → bytes' (p + k) = 0

/-- The descriptor for a request has blocks that are large enough. -/
theorem desc_found {d : Nat} (hidx : descs.findIdx? (fun d => decide (size ≤ d.blockSize)) = some d) :
    size ≤ blockSize d ∧ blockSize d ≤ 1024 := by
  obtain ⟨hd, hle, -⟩ := findIdx?_eq_some_iff_getElem.mp hidx
  have hall : ∀ d < descCnt, blockSize d ≤ 1024 := by decide
  refine ⟨?_, hall d hd⟩
  rw [blockSize, getD_eq_getElem?_getD, getElem?_eq_getElem hd]
  exact of_decide_eq_true hle

/-- What is set aside for a request is less than the address space. -/
theorem allotment_lt (size : Nat) : allotment size < 2 ^ 32 := by
  unfold allotment
  split
  · have hdiv := Nat.div_mul_le_self ((size + arenaSize + pgsize - 1) % 2 ^ 32) pgsize
    omega
  · rename_i d hidx
    exact Nat.lt_of_le_of_lt (desc_found hidx).2 (by decide)

/-- Where there is room, enough is set aside exactly for a size to which the header can be added. -/
theorem le_allotment_iff {answer : Option Nat} (hsize : size < 2 ^ 32) (hroom : h.hasRoom size answer = true) :
    size ≤ allotment size ↔ size ≤ 2 ^ 32 - 12 := by
  cases hidx : descs.findIdx? (fun d => decide (size ≤ d.blockSize)) with
  | none =>
    simp only [Heap.hasRoom, hidx] at hroom
    have hpages : 0 < (size + arenaSize + pgsize - 1) % 2 ^ 32 / pgsize := by
      rcases h.pallocGet_cases ((size + arenaSize + pgsize - 1) % 2 ^ 32 / pgsize) answer with hget | ⟨p, hcnt, -, -⟩
      · rw [hget] at hroom
        cases hroom
      · exact hcnt
    simp only [allotment, hidx]
    unfold pgsize arenaSize at *
    omega
  | some d =>
    obtain ⟨hle, hmax⟩ := desc_found hidx
    simp only [allotment, hidx]
    omega

/-- Zeroing a live block does not reach the header that says how large it is. -/
theorem HeapInv.capacity_clear {live : List Nat} (inv : HeapInv h live) {p : Nat} (hp : p ∈ live) (size : Nat) :
    (h.clear p size).capacity p = h.capacity p := by
  obtain ⟨q, n, -, rfl, -, hbehind, -⟩ := inv.region hp
  have hkept : (h.clear p size).header (pgNo p) = h.header (pgNo p) :=
    if_neg (fun hreach => absurd hreach.2 (Nat.not_lt.mpr hbehind))
  unfold Heap.capacity
  rw [hkept]

namespace HeapOk

variable (ok : HeapOk s)

include ok

/-- `malloc` of a size that is large enough to wrap around. -/
theorem mallocOk_iff (hsize : size < 2 ^ 32) (answer : Option Nat) :
    s.heap.MallocOk size answer ↔ size ≤ 2 ^ 32 - 12 ∨ s.heap.hasRoom size answer = false := by
  obtain ⟨r, h', hm, hdone⟩ := ok.inv.malloc ok.use size answer
  have hiff : s.heap.MallocOk size answer ↔ ∀ p, r = some p → size ≤ h'.capacity p := by
    unfold Heap.MallocOk
    rw [hm]
    simp
  rw [hiff]
  by_cases hzero : size = 0
  · simp [hzero]
  rw [← hdone.room hzero]
  cases r with
  | none => simp
  | some p =>
    have hroom : s.heap.hasRoom size answer = true := (hdone.room hzero).symm
    simp [hdone.capacity p rfl, le_allotment_iff hsize hroom]

/-- `calloc`, with the product of its arguments exact and wrapped. -/
theorem callocOk_iff (a b : Nat) (bytes : Nat → UInt8) (answer : Option Nat) :
    s.heap.CallocOk bytes a b answer ↔
      a * b ≤ 2 ^ 32 - 12 ∨ a * b % 2 ^ 32 < a ∨ a * b % 2 ^ 32 < b ∨ s.heap.hasRoom (a * b % 2 ^ 32) answer = false := by
  have hlt : a * b % 2 ^ 32 < 2 ^ 32 := Nat.mod_lt _ (by decide)
  by_cases hwrap : a * b % 2 ^ 32 < a ∨ a * b % 2 ^ 32 < b
  · refine ⟨fun _ => .inr (or_assoc.mp (.inl hwrap)), fun _ => ⟨none, s.heap, bytes, if_pos hwrap, nofun⟩⟩
  obtain ⟨r, h', hm, hdone⟩ := ok.inv.malloc ok.use (a * b % 2 ^ 32) answer
  cases r with
  | none =>
    have hcall : s.heap.calloc bytes a b answer = .ok (none, h', bytes) := by
      simp only [Heap.calloc, if_neg hwrap, hm, bind, Except.bind, pure, Except.pure]
    refine ⟨fun _ => ?_, fun _ => ⟨none, h', bytes, hcall, nofun⟩⟩
    by_cases hzero : a * b % 2 ^ 32 = 0
    · have ha : a = 0 := by omega
      exact .inl (by simp [ha])
    · exact .inr (.inr (.inr (hdone.room hzero).symm))
  | some p =>
    have hcall : s.heap.calloc bytes a b answer =
        .ok (some p, h'.clear p (a * b % 2 ^ 32), zeroBytes bytes p (a * b % 2 ^ 32)) := by
      simp only [Heap.calloc, if_neg hwrap, hm, bind, Except.bind, pure, Except.pure]
    have hzero : a * b % 2 ^ 32 ≠ 0 := by
      intro hzero
      rw [hzero] at hm
      cases hm
    have hroom : s.heap.hasRoom (a * b % 2 ^ 32) answer = true := (hdone.room hzero).symm
    have hcap : (h'.clear p (a * b % 2 ^ 32)).capacity p = allotment (a * b % 2 ^ 32) :=
      (hdone.inv.capacity_clear mem_cons_self _).trans (hdone.capacity p rfl)
    constructor
    · rintro ⟨r, h'', bytes', hrun, hlarge⟩
      obtain ⟨rfl, rfl, rfl⟩ : r = some p ∧ h'' = h'.clear p (a * b % 2 ^ 32) ∧ bytes' = zeroBytes bytes p (a * b % 2 ^ 32) := by
        simpa [eq_comm] using Except.ok.inj (hcall.symm.trans hrun)
      have hle : a * b ≤ allotment (a * b % 2 ^ 32) := hcap ▸ (hlarge p rfl).1
      have hexact : a * b % 2 ^ 32 = a * b := Nat.mod_eq_of_lt (Nat.lt_of_le_of_lt hle (allotment_lt _))
      rw [hexact] at hle hroom hlt
      exact .inl ((le_allotment_iff hlt hroom).mp hle)
    · intro hcond
      have hsmall : a * b ≤ 2 ^ 32 - 12 := by
        rcases hcond with hsmall | hwrapped | hwrapped | hnone
        · exact hsmall
        · exact absurd (.inl hwrapped) hwrap
        · exact absurd (.inr hwrapped) hwrap
        · rw [hroom] at hnone
          cases hnone
      have hexact : a * b % 2 ^ 32 = a * b := Nat.mod_eq_of_lt (by omega)
      refine ⟨_, _, _, hcall, ?_⟩
      rintro _ ⟨rfl⟩
      rw [hcap]
      rw [hexact] at hroom hlt ⊢
      exact ⟨(le_allotment_iff hlt hroom).mpr hsmall, fun k hk => if_pos ⟨by omega, by omega⟩⟩

end HeapOk

/-- How large the blocks of `malloc` and `calloc` are, in every state that calls lead to. A size whose sum with the header
wraps around gets too small a block, if there is room for that; so does a pair whose product wraps around to no less than
either. -/
theorem malloc_calloc_capacity (s : HeapState) (hr : heapSystem.Reachable s) (bytes : Nat → UInt8) (answer : Option Nat) :
    (∀ size < 2 ^ 32, s.heap.MallocOk size answer ↔ size ≤ 2 ^ 32 - 12 ∨ s.heap.hasRoom size answer = false) ∧
      ∀ a < 2 ^ 32, ∀ b < 2 ^ 32, s.heap.CallocOk bytes a b answer ↔
        a * b ≤ 2 ^ 32 - 12 ∨ a * b % 2 ^ 32 < a ∨ a * b % 2 ^ 32 < b ∨ s.heap.hasRoom (a * b % 2 ^ 32) answer = false := by
  have ok := HeapOk.reachable hr
  exact ⟨fun size hsize => ok.mallocOk_iff hsize answer, fun a _ b _ => ok.callocOk_iff a b bytes answer⟩

/-- Before the first call, with `palloc` answering with page 1: a request for 5000 bytes and one for 300 times 50. -/
theorem start_capacity :
    (HeapState.start (fun _ => Arena.cleared)).heap.MallocOk 5000 (some 1) ∧
      (HeapState.start (fun _ => Arena.cleared)).heap.CallocOk (fun _ => 1) 300 50 (some 1) := by
  have hr : heapSystem.Reachable (HeapState.start (fun _ => Arena.cleared)) := .init ⟨_, rfl⟩
  obtain ⟨hmalloc, hcalloc⟩ := malloc_calloc_capacity _ hr (fun _ => 1) (some 1)
  exact ⟨(hmalloc 5000 (by decide)).mpr (.inl (by decide)), (hcalloc 300 (by decide) 50 (by decide)).mpr (.inl (by decide))⟩

/-- For all but one byte of the address space there is a page of 4084 bytes, and for 65537 times 65537 bytes there are 135156
bytes. -/
theorem start_too_small :
    ¬(HeapState.start (fun _ => Arena.cleared)).heap.MallocOk (2 ^ 32 - 1) (some 1) ∧
      ¬(HeapState.start (fun _ => Arena.cleared)).heap.CallocOk (fun _ => 1) 65537 65537 (some 1) := by
  have ok := HeapOk.start (fun _ => Arena.cleared)
  rw [ok.mallocOk_iff (by decide), ok.callocOk_iff]
  decide +kernel

end Pintos
