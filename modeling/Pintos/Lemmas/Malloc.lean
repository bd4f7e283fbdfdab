import Mathlib.Data.List.Pairwise
import Pintos.Threads.Malloc
import Pintos.Library.Loop

/-!
# What the block allocator keeps

`HeapInv` ties the groups of pages, their headers, the free lists and the live blocks together. A call changes what belongs
to one page and leaves the rest alone; `HeapInv.change` says so once, and each part of `malloc` and `free` is an instance of
it.
-/

namespace Pintos

open Heap List Function

variable {d p : Nat} {g : Nat × Nat} {h : Heap} {live : List Nat}

/-! ## Blocks and pages -/

/-- The number of descriptors that `malloc_init` makes. -/
def descCnt : Nat := 7

/-- Every descriptor has blocks that hold a list element and an arena that holds a block. -/
theorem desc_bounds (hd : d < descCnt) :
    16 ≤ blockSize d ∧ 0 < blocksPerArena d ∧ blocksPerArena d < 2 ^ 32 - 1 ∧
    blocksPerArena d * blockSize d + arenaSize ≤ pgsize := by
  revert d
  decide

/-- The address of block `i` of the arena in page `p`, for descriptor `d`. -/
def blockAddr (p d i : Nat) : Nat := p * pgsize + arenaSize + i * blockSize d

variable {b i n : Nat} {h' : Heap} {live' : List Nat}

/-- A block lies in its arena's page, behind the header. -/
theorem block_in_page (hd : d < descCnt) (hi : i < blocksPerArena d) : arenaSize + i * blockSize d + blockSize d ≤ pgsize := by
  have h := (desc_bounds hd).2.2.2
  have hmul : (i + 1) * blockSize d ≤ blocksPerArena d * blockSize d := Nat.mul_le_mul_right _ hi
  rw [Nat.add_mul, Nat.one_mul] at hmul
  omega

theorem blockAddr_div (p : Nat) (hd : d < descCnt) (hi : i < blocksPerArena d) : pgNo (blockAddr p d i) = p := by
  have h := block_in_page hd hi
  have h16 := (desc_bounds hd).1
  unfold blockAddr pgNo
  rw [Nat.add_assoc, Nat.mul_comm p, Nat.mul_add_div (by decide), Nat.div_eq_of_lt (by omega), Nat.add_zero]

theorem blockAddr_mod (p : Nat) (hd : d < descCnt) (hi : i < blocksPerArena d) :
    pgOfs (blockAddr p d i) = arenaSize + i * blockSize d := by
  have h := block_in_page hd hi
  have h16 := (desc_bounds hd).1
  unfold blockAddr pgOfs
  rw [Nat.add_assoc, Nat.mul_comm p, Nat.mul_add_mod, Nat.mod_eq_of_lt (by omega)]

theorem blockAddr_inj {j : Nat} (hd : d < descCnt) (h : blockAddr p d i = blockAddr p d j) : i = j := by
  have h16 := (desc_bounds hd).1
  unfold blockAddr at h
  exact Nat.eq_of_mul_eq_mul_right (by omega) (by omega : i * blockSize d = j * blockSize d)

/-- The block behind the header of a big arena. -/
def bigAddr (p : Nat) : Nat := p * pgsize + arenaSize

theorem bigAddr_div (p : Nat) : pgNo (bigAddr p) = p := by
  unfold bigAddr pgNo pgsize arenaSize
  omega

theorem bigAddr_mod (p : Nat) : pgOfs (bigAddr p) = arenaSize := by
  unfold bigAddr pgOfs pgsize arenaSize
  omega

/-! ## The invariant -/

/-- The blocks of an arena that are on the free list of its descriptor, by their indices. -/
def freeBlocks (h : Heap) (p d : Nat) : Finset Nat :=
  (Finset.range (blocksPerArena d)).filter (fun i => blockAddr p d i ∈ h.freeList d)

/-- A page cut into blocks: the count of its header is that of its blocks on the free list, and each block is live or on that
list. -/
structure SmallArena (h : Heap) (live : List Nat) (p d : Nat) : Prop where
  desc : d < descCnt
  header : h.header p = { magic := arenaMagic, desc := .desc d, freeCnt := (freeBlocks h p d).card }
  split : ∀ i, i < blocksPerArena d → (blockAddr p d i ∈ live ↔ blockAddr p d i ∉ h.freeList d)

/-- Pages handed out as one block, which is live. -/
structure BigArena (h : Heap) (live : List Nat) (p n : Nat) : Prop where
  header : h.header p = { magic := arenaMagic, desc := .null, freeCnt := n }
  live : bigAddr p ∈ live

/-- A group of pages is a small arena or a big one. -/
def ArenaOk (h : Heap) (live : List Nat) (g : Nat × Nat) : Prop :=
  (∃ d, SmallArena h live g.1 d ∧ g.2 = 1) ∨ BigArena h live g.1 g.2

/-- A block of a small arena of the descriptor that is held. -/
def Listed (h : Heap) (d b : Nat) : Prop :=
  ∃ p i, (p, 1) ∈ h.groups ∧ (h.header p).desc = .desc d ∧ i < blocksPerArena d ∧ b = blockAddr p d i

/-- A block of an arena that is held. -/
def Lived (h : Heap) (b : Nat) : Prop :=
  ∃ g ∈ h.groups, (∃ d i, (h.header g.1).desc = .desc d ∧ i < blocksPerArena d ∧ b = blockAddr g.1 d i) ∨
    ((h.header g.1).desc = .null ∧ b = bigAddr g.1)

/-- Two groups of pages that have no page in common. -/
def Apart (g g' : Nat × Nat) : Prop := g.1 + g.2 ≤ g'.1 ∨ g'.1 + g'.2 ≤ g.1

instance : Std.Symm Apart := ⟨fun _ _ h => Or.symm h⟩

/-- What the heap and the live blocks keep. -/
structure HeapInv (h : Heap) (live : List Nat) : Prop where
  pos : ∀ g ∈ h.groups, 0 < g.1 ∧ 0 < g.2
  apart : h.groups.Pairwise Apart
  arena : ∀ g ∈ h.groups, ArenaOk h live g
  listNodup : ∀ d, (h.freeList d).Nodup
  listed : ∀ d b, b ∈ h.freeList d → Listed h d b
  liveNodup : live.Nodup
  lived : ∀ b ∈ live, Lived h b

section

variable (inv : HeapInv h live)

include inv

theorem HeapInv.group_unique {g' : Nat × Nat} (hg : g ∈ h.groups) (hg' : g' ∈ h.groups) (he : g.1 = g'.1) : g = g' := by
  by_contra hne
  have hp := inv.pos g hg
  have hp' := inv.pos g' hg'
  have hapart : Apart g g' := inv.apart.forall hg hg' hne
  unfold Apart at hapart
  omega

/-- A group is cut into blocks for the descriptor that its header names. -/
theorem HeapInv.small {n : Nat} (hg : (p, n) ∈ h.groups) (hd : (h.header p).desc = .desc d) : SmallArena h live p d ∧ n = 1 := by
  rcases inv.arena _ hg with ⟨d', ha, hn⟩ | hb
  · have hdd : d' = d := by
      rw [ha.header] at hd
      exact DescPtr.desc.inj hd
    exact ⟨hdd ▸ ha, hn⟩
  · rw [hb.header] at hd
    cases hd

/-- A group is one big block where its header names no descriptor. -/
theorem HeapInv.big {n : Nat} (hg : (p, n) ∈ h.groups) (hd : (h.header p).desc = .null) : BigArena h live p n := by
  rcases inv.arena _ hg with ⟨d', ha, -⟩ | hb
  · rw [ha.header] at hd
    cases hd
  · exact hb

end

/-- Membership of the blocks of an arena decides what it has on the free list. -/
theorem freeBlocks_congr (hl : ∀ i, i < blocksPerArena d → (blockAddr p d i ∈ h'.freeList d ↔ blockAddr p d i ∈ h.freeList d)) :
    freeBlocks h' p d = freeBlocks h p d := by
  refine Finset.filter_congr (fun i hi => hl i (Finset.mem_range.mp hi))

/-- An arena whose header, blocks and live blocks are as before is as before. -/
theorem ArenaOk.frame (ha : ArenaOk h live g) (hh : h'.header g.1 = h.header g.1)
    (hl : ∀ d b, pgNo b = g.1 → (b ∈ h'.freeList d ↔ b ∈ h.freeList d))
    (hv : ∀ b, pgNo b = g.1 → (b ∈ live' ↔ b ∈ live)) : ArenaOk h' live' g := by
  rcases ha with ⟨d, ha, hn⟩ | hb
  · refine .inl ⟨d, ⟨ha.desc, ?_, fun i hi => ?_⟩, hn⟩
    · rw [hh, ha.header, freeBlocks_congr (fun i hi => hl d _ (blockAddr_div g.1 ha.desc hi))]
    · rw [hv _ (blockAddr_div g.1 ha.desc hi), hl d _ (blockAddr_div g.1 ha.desc hi)]
      exact ha.split i hi
  · exact .inr ⟨hh.trans hb.header, (hv _ (bigAddr_div g.1)).mpr hb.live⟩

/-- A call that concerns the page `p` only. -/
structure Concerns (p : Nat) (h h' : Heap) (live live' : List Nat) : Prop where
  groups : ∀ g, g.1 ≠ p → (g ∈ h'.groups ↔ g ∈ h.groups)
  header : ∀ g ∈ h.groups, g.1 ≠ p → h'.header g.1 = h.header g.1
  list : ∀ d b, pgNo b ≠ p → (b ∈ h'.freeList d ↔ b ∈ h.freeList d)
  live : ∀ b, pgNo b ≠ p → (b ∈ live' ↔ b ∈ live)

/-- What concerns one page keeps the invariant where that page is in order after it. -/
theorem HeapInv.change (inv : HeapInv h live) (hc : Concerns p h h' live live')
    (pos : ∀ g ∈ h'.groups, g.1 = p → 0 < g.1 ∧ 0 < g.2) (apart : h'.groups.Pairwise Apart)
    (arena : ∀ g ∈ h'.groups, g.1 = p → ArenaOk h' live' g) (listNodup : ∀ d, (h'.freeList d).Nodup)
    (listed : ∀ d b, pgNo b = p → b ∈ h'.freeList d → Listed h' d b) (liveNodup : live'.Nodup)
    (lived : ∀ b, pgNo b = p → b ∈ live' → Lived h' b) : HeapInv h' live' := by
  refine ⟨fun g hg => ?_, apart, fun g hg => ?_, listNodup, fun d b hb => ?_, liveNodup, fun b hb => ?_⟩
  · by_cases hp : g.1 = p
    · exact pos g hg hp
    · exact inv.pos g ((hc.groups g hp).mp hg)
  · by_cases hp : g.1 = p
    · exact arena g hg hp
    · have hg' := (hc.groups g hp).mp hg
      exact (inv.arena g hg').frame (hc.header g hg' hp) (fun d b hb => hc.list d b (by rw [hb]; exact hp))
        (fun b hb => hc.live b (by rw [hb]; exact hp))
  · by_cases hp : pgNo b = p
    · exact listed d b hp hb
    obtain ⟨q, i, hq, hd, hi, he⟩ := inv.listed d b ((hc.list d b hp).mp hb)
    have hqp : q ≠ p := by
      intro hqp
      rw [he, blockAddr_div q (inv.small hq hd).1.desc hi] at hp
      exact hp hqp
    exact ⟨q, i, (hc.groups (q, 1) hqp).mpr hq, by rw [hc.header (q, 1) hq hqp]; exact hd, hi, he⟩
  · by_cases hp : pgNo b = p
    · exact lived b hp hb
    obtain ⟨g, hg, hb'⟩ := inv.lived b ((hc.live b hp).mp hb)
    have hgp : g.1 ≠ p := by
      intro hgp
      rcases hb' with ⟨d, i, hd, hi, rfl⟩ | ⟨-, rfl⟩
      · exact hp ((blockAddr_div g.1 (inv.small hg hd).1.desc hi).trans hgp)
      · exact hp ((bigAddr_div g.1).trans hgp)
    refine ⟨g, (hc.groups g hgp).mpr hg, ?_⟩
    rw [hc.header g hg hgp]
    exact hb'

/-! ## From blocks to arenas and back -/

/-- Clearing a block reaches no header. -/
theorem Heap.fill_block (h : Heap) (p : Nat) (hd : d < descCnt) (hi : i < blocksPerArena d) :
    h.fill (blockAddr p d i) (blockSize d) = h := by
  have hb := block_in_page hd hi
  have hnone : ∀ q, ¬(q * pgsize < blockAddr p d i + blockSize d ∧ blockAddr p d i < q * pgsize + arenaSize) := by
    intro q
    unfold blockAddr
    unfold pgsize arenaSize at *
    omega
  unfold fill
  simp [hnone]

section

variable (hp : p ≠ 0) (ha : SmallArena h live p d)

include hp ha

/-- The assertions of `block_to_arena` hold for a block of a small arena. -/
theorem SmallArena.blockToArena {i : Nat} (hi : i < blocksPerArena d) : h.blockToArena (blockAddr p d i) = .ok p := by
  have hb := block_in_page ha.desc hi
  have halign : (arenaSize + i * blockSize d + 2 ^ 32 - arenaSize) % 2 ^ 32 % blockSize d = 0 := by
    have hlt : i * blockSize d < 2 ^ 32 := by
      unfold pgsize at hb
      omega
    have hsub : arenaSize + i * blockSize d + 2 ^ 32 - arenaSize = i * blockSize d + 2 ^ 32 := by omega
    rw [hsub, Nat.add_mod_right, Nat.mod_eq_of_lt hlt, Nat.mul_mod_left]
  simp only [Heap.blockToArena, blockAddr_div p ha.desc hi, blockAddr_mod p ha.desc hi, if_neg hp, ha.header, ne_eq,
    not_true, if_false, halign]

theorem SmallArena.arenaToBlock {i : Nat} (hi : i < blocksPerArena d) : h.arenaToBlock p i = .ok (blockAddr p d i) := by
  simp only [Heap.arenaToBlock, if_neg hp, ha.header, ne_eq, not_true, if_false, if_pos hi, blockAddr]

end

/-- A listed block stays listed where the groups stay and the headers keep their descriptors. -/
theorem Listed.keep (hb : Listed h d b) (hg : h'.groups = h.groups)
    (hd : ∀ q, (h'.header q).desc = (h.header q).desc) : Listed h' d b := by
  obtain ⟨p, i, hp, hdesc, hi, he⟩ := hb
  exact ⟨p, i, hg ▸ hp, (hd p).trans hdesc, hi, he⟩

/-- So does a live block. -/
theorem Lived.keep (hb : Lived h b) (hg : h'.groups = h.groups)
    (hd : ∀ q, (h'.header q).desc = (h.header q).desc) : Lived h' b := by
  obtain ⟨g, hgm, hb'⟩ := hb
  refine ⟨g, hg ▸ hgm, ?_⟩
  rw [hd g.1]
  exact hb'

/-- The heap with the free list of a descriptor and the count of an arena set. -/
def Heap.recount (h : Heap) (d : Nat) (l : List Nat) (p n : Nat) : Heap :=
  (h.setList d l).setHeader p { h.header p with freeCnt := n }

attribute [local simp] setHeader setList

theorem Heap.recount_desc (h : Heap) (d : Nat) (l : List Nat) (p n q : Nat) :
    ((h.recount d l p n).header q).desc = (h.header q).desc := by
  by_cases hq : q = p
  · subst hq
    simp [recount]
  · simp [recount, hq]

@[simp] theorem Heap.recount_freeList (h : Heap) (d : Nat) (l : List Nat) (p n : Nat) : (h.recount d l p n).freeList d = l := by
  simp [recount]

theorem Heap.recount_freeList_ne (h : Heap) {d' : Nat} (hd : d' ≠ d) (l : List Nat) (p n : Nat) :
    (h.recount d l p n).freeList d' = h.freeList d' := by
  simp [recount, hd]

/-- A block of an arena moves between the free list and the live blocks, and the count follows: the invariant holds after
it. -/
theorem HeapInv.move {l : List Nat} (inv : HeapInv h live) (hp : (p, 1) ∈ h.groups)
    (hd : (h.header p).desc = .desc d) (hl : ∀ b, pgNo b ≠ p → (b ∈ l ↔ b ∈ h.freeList d))
    (hv : ∀ b, pgNo b ≠ p → (b ∈ live' ↔ b ∈ live))
    (hsplit : ∀ i, i < blocksPerArena d → (blockAddr p d i ∈ live' ↔ blockAddr p d i ∉ l)) (hnodup : l.Nodup)
    (hlnodup : live'.Nodup) (hlisted : ∀ b ∈ l, Listed h d b) (hlived : ∀ b ∈ live', Lived h b)
    (hn : n = (freeBlocks (h.recount d l p n) p d).card) : HeapInv (h.recount d l p n) live' := by
  have hsmall := (inv.small hp hd).1
  have hlist : ∀ d' b, b ∈ (h.recount d l p n).freeList d' → Listed h d' b :=
    (forall_update_iff h.freeList fun d' l => ∀ b ∈ l, Listed h d' b).mpr ⟨hlisted, fun d' _ => inv.listed d'⟩
  refine inv.change ⟨fun g _ => Iff.rfl, fun g _ hg => ?_, fun d' b hb => ?_, hv⟩ (fun g hg _ => inv.pos g hg) inv.apart
    (fun g hg hgp => ?_) ((forall_update_iff h.freeList fun _ l => l.Nodup).mpr ⟨hnodup, fun d' _ => inv.listNodup d'⟩)
    (fun d' b _ hb => (hlist d' b hb).keep rfl (h.recount_desc d l p n)) hlnodup
    (fun b _ hb => (hlived b hb).keep rfl (h.recount_desc d l p n))
  · simp [recount, hg]
  · by_cases hdd : d' = d
    · subst hdd
      rw [recount_freeList]
      exact hl b hb
    · rw [recount_freeList_ne h hdd]
  · obtain rfl := inv.group_unique hg hp hgp
    refine .inl ⟨d, ⟨hsmall.desc, ?_, fun i hi => ?_⟩, rfl⟩
    · rw [← hn]
      simp [recount, hsmall.header]
    · rw [recount_freeList]
      exact hsplit i hi

theorem freeBlocks_recount (h : Heap) (d : Nat) (l : List Nat) (p n : Nat) :
    freeBlocks (h.recount d l p n) p d = (Finset.range (blocksPerArena d)).filter (fun i => blockAddr p d i ∈ l) := by
  simp [freeBlocks]

theorem freeBlocks_card_le (h : Heap) (p d : Nat) : (freeBlocks h p d).card ≤ blocksPerArena d := by
  have := Finset.card_filter_le (Finset.range (blocksPerArena d)) (fun i => blockAddr p d i ∈ h.freeList d)
  rwa [Finset.card_range] at this

/-- Block `i` of an arena is the only one at its address. -/
theorem blockAddr_mem_cons (hd : d < descCnt) (l : List Nat) (j : Nat) :
    blockAddr p d j ∈ blockAddr p d i :: l ↔ j = i ∨ blockAddr p d j ∈ l := by
  rw [mem_cons]
  exact or_congr_left ⟨blockAddr_inj hd, fun h => h ▸ rfl⟩

theorem filter_blockAddr_cons (hd : d < descCnt) (hi : i < blocksPerArena d) (l : List Nat) :
    (Finset.range (blocksPerArena d)).filter (fun j => blockAddr p d j ∈ blockAddr p d i :: l) =
      insert i ((Finset.range (blocksPerArena d)).filter (fun j => blockAddr p d j ∈ l)) := by
  ext j
  simp only [blockAddr_mem_cons hd, Finset.mem_filter, Finset.mem_range, Finset.mem_insert, and_or_left]
  refine or_congr_left ⟨And.right, ?_⟩
  rintro rfl
  exact ⟨hi, rfl⟩

theorem mem_cons_page {a : Nat} (ha : pgNo a = p) (hb : pgNo b ≠ p) (l : List Nat) : b ∈ a :: l ↔ b ∈ l :=
  mem_cons.trans (or_iff_right fun he => hb (he ▸ ha))

/-! ## Taking a block -/

section

variable (inv : HeapInv h live)
include inv

/-- The end of `malloc` for a small block: the first block of the list becomes live. -/
theorem HeapInv.takeBlock {rest : List Nat} (hl : h.freeList d = b :: rest) :
    ∃ p n, h.takeBlock d = .ok (some b, h.recount d rest p n) ∧ HeapInv (h.recount d rest p n) (b :: live) := by
  obtain ⟨p, i, hp, hd, hi, rfl⟩ := inv.listed d b (by rw [hl]; exact mem_cons_self)
  obtain ⟨hsmall, -⟩ := inv.small hp hd
  have hp0 : p ≠ 0 := Nat.pos_iff_ne_zero.mp (inv.pos _ hp).1
  have hnodup : blockAddr p d i ∉ rest ∧ rest.Nodup := by
    have := inv.listNodup d
    rw [hl] at this
    exact nodup_cons.mp this
  have hpage := blockAddr_div p hsmall.desc hi
  have hcard : (Finset.filter (fun j => blockAddr p d j ∈ rest) (Finset.range (blocksPerArena d))).card + 1 =
      (freeBlocks h p d).card := by
    rw [freeBlocks, hl, filter_blockAddr_cons hsmall.desc hi, Finset.card_insert_of_notMem (by simp [hnodup.1])]
  have hle := freeBlocks_card_le h p d
  have hbound := (desc_bounds hsmall.desc).2.2.1
  refine ⟨p, ((freeBlocks h p d).card + 2 ^ 32 - 1) % 2 ^ 32, ?_, ?_⟩
  · have harena : (h.setList d rest).blockToArena (blockAddr p d i) = .ok p := hsmall.blockToArena hp0 hi
    have hcnt : ((h.setList d rest).header p).freeCnt = (freeBlocks h p d).card := by
      rw [show (h.setList d rest).header p = h.header p from rfl, hsmall.header]
    unfold takeBlock
    rw [hl]
    simp only [harena, bind, Except.bind, pure, Except.pure, hcnt]
    rfl
  · refine inv.move hp hd (fun b hb => ?_) (fun b hb => mem_cons_page hpage hb live)
      (fun j hj => ?_) hnodup.2 ?_ (fun b hb => ?_) (fun b hb => ?_) ?_
    · rw [hl]
      exact (mem_cons_page hpage hb rest).symm
    · rw [blockAddr_mem_cons hsmall.desc, hsmall.split j hj, hl, blockAddr_mem_cons hsmall.desc]
      by_cases hji : j = i
      · subst hji
        simp [hnodup.1]
      · simp [hji]
    · refine nodup_cons.mpr ⟨fun hlive => ?_, inv.liveNodup⟩
      exact (hsmall.split i hi).mp hlive (by rw [hl]; exact mem_cons_self)
    · exact inv.listed d b (by rw [hl]; exact mem_cons_of_mem _ hb)
    · rcases mem_cons.mp hb with rfl | hb
      · exact ⟨(p, 1), hp, .inl ⟨d, i, hd, hi, rfl⟩⟩
      · exact inv.lived b hb
    · rw [freeBlocks_recount]
      omega

/-! ## Giving a block back -/

/-- The first half of `free` for a small block: it goes on the free list, and the count of its arena goes up. -/
theorem HeapInv.giveBlock (hp : (p, 1) ∈ h.groups)
    (hd : (h.header p).desc = .desc d) (hi : i < blocksPerArena d) (hlive : blockAddr p d i ∈ live) :
    HeapInv (h.recount d (blockAddr p d i :: h.freeList d) p (((h.header p).freeCnt + 1) % 2 ^ 32))
      (live.erase (blockAddr p d i)) := by
  obtain ⟨hsmall, -⟩ := inv.small hp hd
  have hpage := blockAddr_div p hsmall.desc hi
  have hnot : blockAddr p d i ∉ h.freeList d := (hsmall.split i hi).mp hlive
  have hle := freeBlocks_card_le h p d
  have hbound := (desc_bounds hsmall.desc).2.2.1
  refine inv.move hp hd (fun b hb => mem_cons_page hpage hb _) (fun b hb => ?_) (fun j hj => ?_)
    (nodup_cons.mpr ⟨hnot, inv.listNodup d⟩)
    (inv.liveNodup.erase _) (fun b hb => ?_) (fun b hb => inv.lived b (mem_of_mem_erase hb)) ?_
  · exact mem_erase_of_ne (fun he => hb (by rw [he]; exact hpage))
  · rw [blockAddr_mem_cons hsmall.desc]
    by_cases hji : j = i
    · subst hji
      simp [inv.liveNodup.mem_erase_iff]
    · rw [mem_erase_of_ne (fun he => hji (blockAddr_inj hsmall.desc he)), hsmall.split j hj]
      simp [hji]
  · rcases mem_cons.mp hb with rfl | hb
    · exact ⟨p, i, hp, hd, hi, rfl⟩
    · exact inv.listed d b hb
  · rw [freeBlocks_recount, filter_blockAddr_cons hsmall.desc hi, Finset.card_insert_of_notMem (by simp [hnot]), hsmall.header]
    exact Nat.mod_eq_of_lt (by simp only; omega)

/-! ## Pages come and go -/

/-- The page of a block that is live or on a list starts a group. -/
theorem Lived.page (hb : Lived h b) : ∃ g ∈ h.groups, pgNo b = g.1 := by
  obtain ⟨g, hg, ⟨d, i, hd, hi, rfl⟩ | ⟨-, rfl⟩⟩ := hb
  · exact ⟨g, hg, blockAddr_div g.1 (inv.small hg hd).1.desc hi⟩
  · exact ⟨g, hg, bigAddr_div g.1⟩

theorem Listed.page (hb : Listed h d b) :
    (pgNo b, 1) ∈ h.groups ∧ (h.header (pgNo b)).desc = .desc d ∧ ∃ i, i < blocksPerArena d ∧ b = blockAddr (pgNo b) d i := by
  obtain ⟨p, i, hp, hd, hi, rfl⟩ := hb
  rw [blockAddr_div p (inv.small hp hd).1.desc hi]
  exact ⟨hp, hd, i, hi, rfl⟩

theorem HeapInv.groups_nodup : h.groups.Nodup := by
  refine inv.apart.imp_of_mem (fun {g g'} hg _ hapart he => ?_)
  have hpos := inv.pos g hg
  subst he
  unfold Apart at hapart
  omega

theorem Heap.fresh_ne (hf : h.fresh p n = true) (hn : 0 < n) : 0 < p ∧ ∀ g ∈ h.groups, g.1 ≠ p ∧ Apart (p, n) g := by
  simp only [fresh, Bool.and_eq_true, decide_eq_true_eq, all_eq_true] at hf
  refine ⟨hf.1.1, fun g hg => ?_⟩
  have hpos := inv.pos g hg
  have hapart := hf.2 g hg
  unfold Apart
  exact ⟨by omega, by simp only; omega⟩

theorem HeapInv.live_fresh (hf : h.fresh p n = true) (hn : 0 < n) : ∀ b ∈ live, pgNo b ≠ p := by
  intro b hb he
  obtain ⟨g, hg, hgp⟩ := (inv.lived b hb).page inv
  exact ((fresh_ne inv hf hn).2 g hg).1 (hgp.symm.trans he)

/-- Pages join as an arena: the invariant holds where the new arena is in order and nothing but its blocks joins the lists
and the live blocks. -/
theorem HeapInv.grow (hf : h.fresh p n = true) (hn : 0 < n) {a : Arena} {lists : Nat → List Nat}
    (hh : h' = { header := update h.header p a, freeList := lists, groups := (p, n) :: h.groups })
    (hl : ∀ d b, pgNo b ≠ p → (b ∈ lists d ↔ b ∈ h.freeList d)) (hv : ∀ b, pgNo b ≠ p → (b ∈ live' ↔ b ∈ live))
    (harena : ArenaOk h' live' (p, n)) (hnodup : ∀ d, (lists d).Nodup) (hlnodup : live'.Nodup)
    (hlisted : ∀ d b, pgNo b = p → b ∈ lists d → Listed h' d b) (hlived : ∀ b, pgNo b = p → b ∈ live' → Lived h' b) :
    HeapInv h' live' := by
  obtain ⟨hp, hfresh⟩ := fresh_ne inv hf hn
  subst hh
  have hgroup : ∀ g ∈ (p, n) :: h.groups, g.1 = p → g = (p, n) :=
    forall_mem_cons.mpr ⟨fun _ => rfl, fun g hg hgp => absurd hgp (hfresh g hg).1⟩
  refine inv.change ⟨fun g hgp => ?_, fun g _ hgp => ?_, hl, hv⟩ (fun g hg hgp => ?_)
    (pairwise_cons.mpr ⟨fun g hg => (hfresh g hg).2, inv.apart⟩) (fun g hg hgp => ?_) hnodup hlisted hlnodup hlived
  · rw [mem_cons]
    exact ⟨fun hm => hm.resolve_left (fun he => hgp (by rw [he])), .inr⟩
  · exact update_of_ne hgp _ _
  · rw [hgroup g hg hgp]
    exact ⟨hp, hn⟩
  · rw [hgroup g hg hgp]
    exact harena

end

/-- The header of a page after a group of pages is cleared. -/
theorem Heap.fill_pages (h : Heap) (p n q : Nat) (hq : Apart (q, 1) (p, n)) :
    (h.fill (p * pgsize) (n * pgsize)).header q = h.header q := by
  have hnot : ¬(q * pgsize < p * pgsize + n * pgsize ∧ p * pgsize < q * pgsize + arenaSize) := by
    unfold Apart at hq
    unfold pgsize arenaSize
    omega
  simp only [fill, if_neg hnot]

/-- Pages go back: the invariant holds where their blocks, and only those, have left the lists and the live blocks. -/
theorem HeapInv.shrink (inv : HeapInv h live) (hg : (p, n) ∈ h.groups)
    {lists : Nat → List Nat} (hl : ∀ d b, b ∈ lists d ↔ b ∈ h.freeList d ∧ pgNo b ≠ p)
    (hv : ∀ b, b ∈ live' ↔ b ∈ live ∧ pgNo b ≠ p) (hnodup : ∀ d, (lists d).Nodup) (hlnodup : live'.Nodup) :
    ∃ h', ({ h with freeList := lists } : Heap).pallocFree p n = .ok h' ∧ h'.groups = h.groups.erase (p, n) ∧
      HeapInv h' live' := by
  refine ⟨_, if_pos (contains_iff_mem.mpr hg), rfl, ?_⟩
  have hmem : ∀ g, g ∈ h.groups.erase (p, n) ↔ g ≠ (p, n) ∧ g ∈ h.groups := fun g => inv.groups_nodup.mem_erase_iff
  refine inv.change (p := p) ⟨fun g hgp => ?_, fun g hgm hgp => ?_, fun d b hb => ?_, fun b hb => ?_⟩ (fun g hgm hgp => ?_)
    (inv.apart.sublist erase_sublist) (fun g hgm hgp => ?_) hnodup (fun d b hb hm => ?_) hlnodup (fun b hb hm => ?_)
  · exact (hmem g).trans ⟨And.right, fun hm => ⟨fun he => hgp (by rw [he]), hm⟩⟩
  · have hapart : Apart g (p, n) := inv.apart.forall hgm hg (fun he => hgp (by rw [he]))
    refine fill_pages _ p n g.1 ?_
    unfold Apart at hapart ⊢
    omega
  · exact (hl d b).trans ⟨And.left, fun hm => ⟨hm, hb⟩⟩
  · exact (hv b).trans ⟨And.left, fun hm => ⟨hm, hb⟩⟩
  · exact inv.pos g ((hmem g).mp hgm).2
  · exact absurd (inv.group_unique ((hmem g).mp hgm).2 hg hgp) ((hmem g).mp hgm).1
  · exact absurd hb ((hl d b).mp hm).2
  · exact absurd hb ((hv b).mp hm).2

/-! ## The loops over the blocks of an arena -/

/-- The heap with a new arena for a descriptor, all of whose blocks are on the list. -/
def Heap.withArena (h : Heap) (d p : Nat) : Heap :=
  { header := update h.header p { magic := arenaMagic, desc := .desc d, freeCnt := blocksPerArena d },
    freeList := update h.freeList d ((range (blocksPerArena d)).map (blockAddr p d)), groups := (p, 1) :: h.groups }

/-- The loop of `malloc` puts every block of the new arena on the list. -/
theorem Heap.newArena_eq (hp : p ≠ 0) (hl : h.freeList d = []) :
    ({ h with groups := (p, 1) :: h.groups } : Heap).newArena d p = .ok (h.withArena d p) := by
  let a : Arena := { magic := arenaMagic, desc := .desc d, freeCnt := blocksPerArena d }
  let s : Nat → Heap := fun i =>
    { header := update h.header p a, freeList := update h.freeList d ((range i).map (blockAddr p d)),
      groups := (p, 1) :: h.groups }
  have hstart : ({ h with groups := (p, 1) :: h.groups } : Heap).setHeader p a = s 0 := by
    have hempty : update h.freeList d ((range 0).map (blockAddr p d)) = h.freeList := by
      rw [range_zero, map_nil, ← hl, update_eq_self]
    simp only [s, hempty]
    rfl
  have hturn : ∀ i, i < blocksPerArena d → addBlock d p (s i) i = .ok (s (i + 1)) := by
    intro i hi
    have haddr : (s i).arenaToBlock p i = .ok (blockAddr p d i) := by
      simp only [arenaToBlock, if_neg hp, s, a, update_self, ne_eq, not_true, if_false, if_pos hi, blockAddr]
    unfold addBlock
    rw [haddr]
    simp only [bind, Except.bind, pure, Except.pure, setList, s, update_self, update_idem, range_succ,
      map_append, map_cons, map_nil]
  unfold newArena
  rw [hstart]
  exact Loop.foldlM_range s hturn

theorem HeapInv.withArena (inv : HeapInv h live) (hd : d < descCnt) (hl : h.freeList d = [])
    (hf : h.fresh p 1 = true) : HeapInv (h.withArena d p) live := by
  have hfresh := (Heap.fresh_ne inv hf Nat.one_pos).2
  have hmem : ∀ i, i < blocksPerArena d → blockAddr p d i ∈ (range (blocksPerArena d)).map (blockAddr p d) := fun i hi =>
    mem_map.mpr ⟨i, mem_range.mpr hi, rfl⟩
  have hlive := inv.live_fresh hf Nat.one_pos
  refine inv.grow hf Nat.one_pos rfl (fun d' b hb => ?_) (fun b _ => Iff.rfl) (.inl ⟨d, ⟨hd, ?_, fun i hi => ?_⟩, rfl⟩)
    ((forall_update_iff h.freeList fun _ l => l.Nodup).mpr ⟨nodup_range.map fun i j he => blockAddr_inj hd he,
      fun d' _ => inv.listNodup d'⟩)
    inv.liveNodup (fun d' b hb hm => ?_) (fun b hb hm => absurd hb (hlive b hm))
  · by_cases hdd : d' = d
    · subst hdd
      rw [update_self, hl]
      refine ⟨fun hm => ?_, fun hm => (nomatch hm)⟩
      obtain ⟨i, hi, rfl⟩ := mem_map.mp hm
      exact absurd (blockAddr_div p hd (mem_range.mp hi)) hb
    · rw [update_of_ne hdd]
  · have hall : freeBlocks (h.withArena d p) p d = Finset.range (blocksPerArena d) := by
      refine Finset.filter_true_of_mem (fun i hi => ?_)
      simp only [Heap.withArena, update_self]
      exact hmem i (Finset.mem_range.mp hi)
    rw [hall, Finset.card_range]
    exact update_self _ _ _
  · simp only [Heap.withArena, update_self]
    exact ⟨fun hm => absurd (blockAddr_div p hd hi) (hlive _ hm), fun hm => absurd (hmem i hi) hm⟩
  · by_cases hdd : d' = d
    · subst hdd
      rw [update_self] at hm
      obtain ⟨i, hi, rfl⟩ := mem_map.mp hm
      refine ⟨p, i, mem_cons_self, ?_, mem_range.mp hi, rfl⟩
      simp [Heap.withArena]
    · rw [update_of_ne hdd] at hm
      exact absurd hb (hfresh _ ((inv.listed d' b hm).page inv).1).1

/-- The loop of `free` takes every block of an arena off the list. -/
theorem SmallArena.removeBlocks (hp : p ≠ 0) (ha : SmallArena h live p d)
    (hnodup : (h.freeList d).Nodup) (hfree : ∀ i, i < blocksPerArena d → blockAddr p d i ∈ h.freeList d) :
    (range (blocksPerArena d)).foldlM (removeBlock d p) h =
      .ok (h.setList d ((h.freeList d).filter (fun b => decide (∀ i, i < blocksPerArena d → b ≠ blockAddr p d i)))) := by
  let s : Nat → Heap := fun n => h.setList d ((h.freeList d).filter (fun b => decide (∀ i, i < n → b ≠ blockAddr p d i)))
  have hstart : h = s 0 := by
    simp [s]
  have hturn : ∀ n, n < blocksPerArena d → removeBlock d p (s n) n = .ok (s (n + 1)) := by
    intro n hn
    have haddr : (s n).arenaToBlock p n = .ok (blockAddr p d n) := ha.arenaToBlock hp hn
    have hmem : blockAddr p d n ∈ (s n).freeList d := by
      simp only [s, setList, update_self, mem_filter, decide_eq_true_eq]
      exact ⟨hfree n hn, fun i hi he => absurd (blockAddr_inj ha.desc he) (by omega)⟩
    have herase : ((s n).freeList d).erase (blockAddr p d n) = (s (n + 1)).freeList d := by
      simp only [s, setList, update_self]
      rw [(hnodup.filter _).erase_eq_filter, filter_filter]
      refine filter_congr (fun b _ => ?_)
      rw [Bool.eq_iff_iff]
      simp only [Bool.and_eq_true, bne_iff_ne, decide_eq_true_eq, Nat.forall_lt_succ_right]
      exact and_comm
    unfold removeBlock
    rw [haddr]
    simp only [bind, Except.bind, if_pos hmem, herase]
    simp [s]
  have hloop := Loop.foldlM_range s hturn
  rwa [← hstart] at hloop

/-! ## The calls -/

/-- Every group of pages holds a live block. -/
def InUse (h : Heap) (live : List Nat) : Prop := ∀ g ∈ h.groups, ∃ b ∈ live, pgNo b = g.1

/-- A block more is live, in a page that had none or not: the other groups stay in use. -/
theorem InUse.take (use : InUse h live) (hg : ∀ g ∈ h'.groups, g ∈ h.groups ∨ pgNo b = g.1) : InUse h' (b :: live) := by
  intro g hm
  rcases hg g hm with hold | hnew
  · obtain ⟨b', hb', hp⟩ := use g hold
    exact ⟨b', mem_cons_of_mem _ hb', hp⟩
  · exact ⟨b, mem_cons_self, hnew⟩

/-- What `palloc` hands out. -/
theorem Heap.pallocGet_cases (h : Heap) (cnt : Nat) (answer : Option Nat) :
    h.pallocGet cnt answer = none ∨
      ∃ p, 0 < cnt ∧ h.fresh p cnt = true ∧ h.pallocGet cnt answer = some (p, { h with groups := (p, cnt) :: h.groups }) := by
  unfold pallocGet
  by_cases hcnt : cnt = 0
  · exact .inl (if_pos hcnt)
  rw [if_neg hcnt]
  cases answer with
  | none => exact .inl rfl
  | some p =>
    by_cases hf : h.fresh p cnt = true
    · exact .inr ⟨p, Nat.pos_of_ne_zero hcnt, hf, if_pos hf⟩
    · exact .inl (if_neg hf)

/-- A big block joins. -/
theorem HeapInv.bigBlock (inv : HeapInv h live) (hn : 0 < n) (hf : h.fresh p n = true) :
    HeapInv (({ h with groups := (p, n) :: h.groups } : Heap).setHeader p { magic := arenaMagic, desc := .null, freeCnt := n })
      (bigAddr p :: live) := by
  have hfresh := (fresh_ne inv hf hn).2
  have hlive := inv.live_fresh hf hn
  refine inv.grow hf hn rfl (fun _ _ _ => Iff.rfl) (fun b hb => mem_cons_page (bigAddr_div p) hb live)
    (.inr ⟨update_self _ _ _, mem_cons_self⟩) inv.listNodup
    (nodup_cons.mpr ⟨fun hm => hlive _ hm (bigAddr_div p), inv.liveNodup⟩) (fun d b hb hm => ?_) (fun b hb hm => ?_)
  · exact absurd hb (hfresh _ ((inv.listed d b hm).page inv).1).1
  · rcases mem_cons.mp hm with rfl | hm
    · exact ⟨(p, n), mem_cons_self, .inr ⟨by simp, rfl⟩⟩
    · exact absurd hb (hlive b hm)

/-- The bytes that belong to a block: the block size of the descriptor of its arena, or what the header leaves of the pages
of a big block. -/
def Heap.capacity (h : Heap) (b : Nat) : Nat :=
  match (h.header (pgNo b)).desc with
  | .desc d => blockSize d
  | _ => (h.header (pgNo b)).freeCnt * pgsize - arenaSize

/-- The bytes that `malloc` sets aside for a request. -/
def allotment (size : Nat) : Nat :=
  match descs.findIdx? (fun d => decide (size ≤ d.blockSize)) with
  | none => (size + arenaSize + pgsize - 1) % 2 ^ 32 / pgsize * pgsize - arenaSize
  | some d => blockSize d

/-- There is a block for a request: one on the free list, or pages from `palloc`. -/
def Heap.hasRoom (h : Heap) (size : Nat) (answer : Option Nat) : Bool :=
  match descs.findIdx? (fun d => decide (size ≤ d.blockSize)) with
  | none => (h.pallocGet ((size + arenaSize + pgsize - 1) % 2 ^ 32 / pgsize) answer).isSome
  | some d => !(h.freeList d).isEmpty || (h.pallocGet 1 answer).isSome

/-- A small block is as large as its descriptor says, also after the count of its arena has changed. -/
theorem HeapInv.capacity_listed (inv : HeapInv h live) (hb : b ∈ h.freeList d) (l : List Nat) (q n : Nat) :
    (h.recount d l q n).capacity b = blockSize d := by
  obtain ⟨p, i, hp, hd, hi, rfl⟩ := inv.listed d b hb
  unfold capacity
  rw [recount_desc, blockAddr_div p (inv.small hp hd).1.desc hi, hd]

/-- What a call of `malloc` leaves: the invariant with the block it returns, the groups of pages there were, and, if there is
room for the request, a block of the size set aside for it. -/
structure Malloced (h : Heap) (live : List Nat) (size : Nat) (answer : Option Nat) (r : Option Nat) (h' : Heap) : Prop where
  inv : HeapInv h' (r.toList ++ live)
  use : InUse h' (r.toList ++ live)
  groups : ∀ g ∈ h.groups, g ∈ h'.groups
  room : size ≠ 0 → r.isSome = h.hasRoom size answer
  capacity : ∀ b, r = some b → h'.capacity b = allotment size

theorem HeapInv.malloc (inv : HeapInv h live) (use : InUse h live) (size : Nat) (answer : Option Nat) :
    ∃ r h', h.malloc size answer = .ok (r, h') ∧ Malloced h live size answer r h' := by
  have hnull : (size ≠ 0 → h.hasRoom size answer = false) → Malloced h live size answer none h := fun hroom =>
    ⟨inv, use, fun _ => id, fun hsize => (hroom hsize).symm, nofun⟩
  unfold Heap.malloc
  by_cases hsize : size = 0
  · exact ⟨none, h, if_pos hsize, hnull (absurd hsize)⟩
  rw [if_neg hsize]
  cases hidx : descs.findIdx? (fun d => decide (size ≤ d.blockSize)) with
  | none =>
    rcases h.pallocGet_cases ((size + arenaSize + pgsize - 1) % 2 ^ 32 / pgsize) answer with hget | ⟨p, hcnt, hf, hget⟩
    · simp only [hget]
      exact ⟨none, h, rfl, hnull (fun _ => by simp only [hasRoom, hidx, hget, Option.isSome_none])⟩
    simp only [hget]
    refine ⟨_, _, rfl, inv.bigBlock hcnt hf, use.take (forall_mem_cons.mpr ⟨.inr (bigAddr_div p), fun _ => .inl⟩),
      fun g hg => mem_cons_of_mem _ hg, fun _ => ?_, ?_⟩
    · simp only [hasRoom, hidx, hget, Option.isSome_some]
    · rintro _ ⟨rfl⟩
      simp [capacity, allotment, hidx, setHeader, show pgNo (p * pgsize + arenaSize) = p from bigAddr_div p]
  | some d =>
    have hd : d < descCnt := (findIdx?_eq_some_iff_findIdx_eq.mp hidx).1
    have hallot : allotment size = blockSize d := by simp only [allotment, hidx]
    by_cases hl : h.freeList d = []
    · simp only [if_pos hl]
      rcases h.pallocGet_cases 1 answer with hget | ⟨p, -, hf, hget⟩
      · simp only [hget]
        exact ⟨none, h, rfl, hnull (fun _ => by simp [hasRoom, hidx, hget, hl])⟩
      have hp : p ≠ 0 := Nat.pos_iff_ne_zero.mp (fresh_ne inv hf Nat.one_pos).1
      have hlist : (h.withArena d p).freeList d = (range (blocksPerArena d)).map (blockAddr p d) := update_self _ _ _
      obtain ⟨b, rest, hcons⟩ : ∃ b rest, (h.withArena d p).freeList d = b :: rest := by
        refine exists_cons_of_ne_nil (fun hnil => ?_)
        have hlen := congrArg length (hlist.symm.trans hnil)
        rw [length_map, length_range] at hlen
        exact absurd hlen (Nat.pos_iff_ne_zero.mp (desc_bounds hd).2.1)
      have hmem : b ∈ (h.withArena d p).freeList d := by
        rw [hcons]
        exact mem_cons_self
      have inv' := inv.withArena hd hl hf
      obtain ⟨q, n, htake, hinv⟩ := inv'.takeBlock hcons
      have hpage : pgNo b = p := by
        obtain ⟨i, hi, rfl⟩ := mem_map.mp (hlist ▸ hmem : b ∈ (range (blocksPerArena d)).map (blockAddr p d))
        exact blockAddr_div p hd (mem_range.mp hi)
      simp only [hget, newArena_eq hp hl, bind, Except.bind]
      refine ⟨_, _, htake, hinv, use.take (forall_mem_cons.mpr ⟨.inr hpage, fun _ => .inl⟩), fun g hg => mem_cons_of_mem _ hg,
        fun _ => ?_, ?_⟩
      · simp [hasRoom, hidx, hget]
      · rintro _ ⟨rfl⟩
        rw [hallot, inv'.capacity_listed hmem]
    · simp only [if_neg hl]
      obtain ⟨b, rest, hcons⟩ := exists_cons_of_ne_nil hl
      obtain ⟨q, n, htake, hinv⟩ := inv.takeBlock hcons
      refine ⟨_, _, htake, hinv, use.take (fun g hg => .inl hg), fun _ => id, fun _ => ?_, ?_⟩
      · simp [hasRoom, hidx, hl]
      · rintro _ ⟨rfl⟩
        rw [hallot, inv.capacity_listed (hcons ▸ mem_cons_self)]

section

variable (inv : HeapInv h live) (hp : (p, 1) ∈ h.groups) (hd : (h.header p).desc = .desc d)
include inv hp hd

/-- The blocks of an arena of which every block is on the list are the blocks of its page on that list, and none is live. -/
theorem HeapInv.unused (hfree : ∀ i, i < blocksPerArena d → blockAddr p d i ∈ h.freeList d) :
    (∀ b ∈ h.freeList d, (∀ i, i < blocksPerArena d → b ≠ blockAddr p d i) ↔ pgNo b ≠ p) ∧
      (∀ d' b, d' ≠ d → b ∈ h.freeList d' → pgNo b ≠ p) ∧ ∀ b ∈ live, pgNo b ≠ p := by
  have hsmall := (inv.small hp hd).1
  refine ⟨fun b hb => ⟨fun hall he => ?_, fun hne i hi he => ?_⟩, fun d' b hdd hb he => ?_, fun b hb he => ?_⟩
  · obtain ⟨-, -, i, hi, hbi⟩ := (inv.listed d b hb).page inv
    exact hall i hi (he ▸ hbi)
  · exact hne (he ▸ blockAddr_div p hsmall.desc hi)
  · have hdesc := ((inv.listed d' b hb).page inv).2.1
    rw [he, hd] at hdesc
    exact hdd (DescPtr.desc.inj hdesc).symm
  obtain ⟨g, hg, ⟨d', i, hd', hi, rfl⟩ | ⟨hnull, rfl⟩⟩ := inv.lived b hb
  · rw [blockAddr_div g.1 (inv.small hg hd').1.desc hi] at he
    rw [he, hd] at hd'
    obtain rfl := DescPtr.desc.inj hd'
    rw [he] at hb
    exact (hsmall.split i hi).mp hb (hfree i hi)
  · rw [bigAddr_div] at he
    rw [he, hd] at hnull
    cases hnull

/-- The second half of `free` for a small block: an arena without live blocks goes back, and only such an arena does. -/
theorem HeapInv.dismantle :
    ((h.header p).freeCnt < blocksPerArena d → ∃ b ∈ live, pgNo b = p) ∧
      (blocksPerArena d ≤ (h.header p).freeCnt → (h.header p).freeCnt = blocksPerArena d ∧ (∀ b ∈ live, pgNo b ≠ p) ∧
        ∃ h' h'', (range (blocksPerArena d)).foldlM (removeBlock d p) h = .ok h' ∧ h'.pallocFree p 1 = .ok h'' ∧
          h''.groups = h.groups.erase (p, 1) ∧ HeapInv h'' live) := by
  have hsmall := (inv.small hp hd).1
  have hcnt : (h.header p).freeCnt = (freeBlocks h p d).card := by rw [hsmall.header]
  have hle := freeBlocks_card_le h p d
  rw [hcnt]
  constructor
  · intro hlt
    obtain ⟨i, hi, hnot⟩ : ∃ i ∈ Finset.range (blocksPerArena d), i ∉ freeBlocks h p d :=
      Finset.exists_mem_notMem_of_card_lt_card (by rwa [Finset.card_range])
    have hi' := Finset.mem_range.mp hi
    refine ⟨blockAddr p d i, (hsmall.split i hi').mpr (fun hm => hnot ?_), blockAddr_div p hsmall.desc hi'⟩
    exact Finset.mem_filter.mpr ⟨hi, hm⟩
  · intro hge
    have hfree : ∀ i, i < blocksPerArena d → blockAddr p d i ∈ h.freeList d := by
      have hall : freeBlocks h p d = Finset.range (blocksPerArena d) :=
        Finset.eq_of_subset_of_card_le (Finset.filter_subset _ _) (by rwa [Finset.card_range])
      intro i hi
      exact (Finset.mem_filter.mp (hall ▸ Finset.mem_range.mpr hi : i ∈ freeBlocks h p d)).2
    obtain ⟨hlist, hother, hlive⟩ := inv.unused hp hd hfree
    have hp0 : p ≠ 0 := Nat.pos_iff_ne_zero.mp (inv.pos _ hp).1
    let lists := update h.freeList d
      ((h.freeList d).filter (fun b => decide (∀ i, i < blocksPerArena d → b ≠ blockAddr p d i)))
    have hlists : ∀ d' b, b ∈ lists d' ↔ b ∈ h.freeList d' ∧ pgNo b ≠ p := by
      intro d' b
      by_cases hdd : d' = d
      · subst hdd
        simp only [lists, update_self, mem_filter, decide_eq_true_eq]
        exact and_congr_right (hlist b)
      · simp only [lists, update_of_ne hdd]
        exact ⟨fun hb => ⟨hb, hother d' b hdd hb⟩, And.left⟩
    have hnodup : ∀ d', (lists d').Nodup :=
      (forall_update_iff h.freeList fun _ l => l.Nodup).mpr ⟨(inv.listNodup d).filter _, fun d' _ => inv.listNodup d'⟩
    obtain ⟨h', hback, hgroups, hinv⟩ := inv.shrink hp hlists (fun b => ⟨fun hb => ⟨hb, hlive b hb⟩, And.left⟩)
      hnodup inv.liveNodup
    exact ⟨by omega, hlive, _, h', hsmall.removeBlocks hp0 (inv.listNodup d) hfree, hback, hgroups, hinv⟩

end

/-- What `free` of a live block comes to: the pages of the block go back exactly where no live block is left in them. -/
structure Freed (h h' : Heap) (live : List Nat) (b : Nat) : Prop where
  inv : HeapInv h' (live.erase b)
  groups : ∀ g, g ∈ h'.groups ↔ g ∈ h.groups ∧ ∃ b' ∈ live.erase b, pgNo b' = g.1

/-- The groups without one, which holds no live block, are those that hold one. -/
theorem HeapInv.erase_iff (inv : HeapInv h live) (hp : (p, n) ∈ h.groups)
    (hnone : ∀ b ∈ live', pgNo b ≠ p) (hrest : ∀ g ∈ h.groups, g.1 ≠ p → ∃ b ∈ live', pgNo b = g.1) (g : Nat × Nat) :
    g ∈ h.groups.erase (p, n) ↔ g ∈ h.groups ∧ ∃ b ∈ live', pgNo b = g.1 := by
  rw [inv.groups_nodup.mem_erase_iff]
  constructor
  · rintro ⟨hne, hg⟩
    exact ⟨hg, hrest g hg (fun he => hne (inv.group_unique hg hp he))⟩
  · rintro ⟨hg, b, hb, hpage⟩
    exact ⟨fun he => hnone b hb (by rw [hpage, he]), hg⟩

/-- Freeing a block takes no live block from the other pages. -/
theorem InUse.rest (use : InUse h live) (hg : g ∈ h.groups) (hne : g.1 ≠ pgNo b) : ∃ b' ∈ live.erase b, pgNo b' = g.1 := by
  obtain ⟨b', hb', hpage⟩ := use g hg
  exact ⟨b', (mem_erase_of_ne (fun he => hne (by rw [← hpage, he]))).mpr hb', hpage⟩

section

variable (inv : HeapInv h live) (use : InUse h live)
include inv use

theorem HeapInv.freeBlock (hp : (p, 1) ∈ h.groups)
    (hd : (h.header p).desc = .desc d) (hi : i < blocksPerArena d) (hlive : blockAddr p d i ∈ live) :
    ∃ h', h.free (some (blockAddr p d i)) = .ok h' ∧ Freed h h' live (blockAddr p d i) := by
  have hsmall := (inv.small hp hd).1
  have hp0 : p ≠ 0 := Nat.pos_iff_ne_zero.mp (inv.pos _ hp).1
  have hpage := blockAddr_div p hsmall.desc hi
  let h1 := h.recount d (blockAddr p d i :: h.freeList d) p (((h.header p).freeCnt + 1) % 2 ^ 32)
  have inv1 : HeapInv h1 (live.erase (blockAddr p d i)) := inv.giveBlock hp hd hi hlive
  have hcnt : (h1.header p).freeCnt = ((h.header p).freeCnt + 1) % 2 ^ 32 := by
    simp [h1, recount]
  have hfree : h.free (some (blockAddr p d i)) =
      if blocksPerArena d ≤ (h1.header p).freeCnt then
        if (h1.header p).freeCnt ≠ blocksPerArena d then .error .freeCount
        else do
          let h' ← (range (blocksPerArena d)).foldlM (removeBlock d p) h1
          h'.pallocFree p 1
      else .ok h1 := by
    rw [hcnt]
    simp only [free, hsmall.blockToArena hp0 hi, bind, Except.bind, hd, freeSmall, h.fill_block p hsmall.desc hi]
    rfl
  have hrest : ∀ g ∈ h.groups, g.1 ≠ p → ∃ b ∈ live.erase (blockAddr p d i), pgNo b = g.1 := fun g hg hne =>
    use.rest hg (by rwa [hpage])
  obtain ⟨hkeep, hback⟩ := inv1.dismantle hp ((h.recount_desc _ _ _ _ _).trans hd)
  rw [hfree]
  by_cases hge : blocksPerArena d ≤ (h1.header p).freeCnt
  · obtain ⟨heq, hnone, h', h'', hloop, hpalloc, hgroups, hinv⟩ := hback hge
    refine ⟨h'', ?_, hinv, ?_⟩
    · rw [if_pos hge, if_neg (not_not_intro heq), hloop]
      exact hpalloc
    · rw [hgroups]
      exact inv1.erase_iff hp hnone hrest
  · refine ⟨h1, if_neg hge, inv1, fun g => ⟨fun hg => ⟨hg, ?_⟩, And.left⟩⟩
    by_cases hgp : g.1 = p
    · rw [hgp]
      exact hkeep (Nat.lt_of_not_le hge)
    · exact hrest g hg hgp

theorem HeapInv.freeBig (hp : (p, n) ∈ h.groups)
    (hd : (h.header p).desc = .null) : ∃ h', h.free (some (bigAddr p)) = .ok h' ∧ Freed h h' live (bigAddr p) := by
  have hbig := inv.big hp hd
  have hp0 : p ≠ 0 := Nat.pos_iff_ne_zero.mp (inv.pos _ hp).1
  have hfree : h.free (some (bigAddr p)) = h.pallocFree p n := by
    simp only [free, blockToArena, bigAddr_div, bigAddr_mod, if_neg hp0, hbig.header, ne_eq, not_true, if_false,
      bind, Except.bind]
  have hlist : ∀ d b, b ∈ h.freeList d → pgNo b ≠ p := by
    intro d b hb he
    have hdesc := ((inv.listed d b hb).page inv).2.1
    rw [he, hd] at hdesc
    cases hdesc
  have honly : ∀ b ∈ live, pgNo b = p → b = bigAddr p := by
    intro b hb he
    obtain ⟨g, hg, ⟨d, i, hd', hi, rfl⟩ | ⟨-, rfl⟩⟩ := inv.lived b hb
    · rw [blockAddr_div g.1 (inv.small hg hd').1.desc hi] at he
      rw [he, hd] at hd'
      cases hd'
    · rw [bigAddr_div] at he
      rw [he]
  have hrest : ∀ b, b ∈ live.erase (bigAddr p) ↔ b ∈ live ∧ pgNo b ≠ p := by
    intro b
    rw [inv.liveNodup.mem_erase_iff]
    constructor
    · rintro ⟨hne, hb⟩
      exact ⟨hb, fun he => hne (honly b hb he)⟩
    · rintro ⟨hb, hne⟩
      exact ⟨fun he => hne (by rw [he]; exact bigAddr_div p), hb⟩
  obtain ⟨h', hback, hgroups, hinv⟩ := inv.shrink hp (fun d b => ⟨fun hb => ⟨hb, hlist d b hb⟩, And.left⟩) hrest inv.listNodup
    (inv.liveNodup.erase _)
  refine ⟨h', hfree.trans hback, hinv, ?_⟩
  rw [hgroups]
  exact inv.erase_iff hp (fun b hb => ((hrest b).mp hb).2) (fun g hg hne => use.rest hg (by rwa [bigAddr_div]))

theorem HeapInv.free (hb : b ∈ live) : ∃ h', h.free (some b) = .ok h' ∧ Freed h h' live b := by
  obtain ⟨⟨p, n⟩, hg, ⟨d, i, hd, hi, rfl⟩ | ⟨hd, rfl⟩⟩ := inv.lived b hb
  · obtain rfl := (inv.small hg hd).2
    exact inv.freeBlock use hg hd hi hb
  · exact inv.freeBig use hg hd

end

end Pintos
