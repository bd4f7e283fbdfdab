import Mathlib.Data.List.Nodup
import Pintos.Lemmas.FreeMap

/-!
# Giving back the sectors of a file

`deallocate_file` gives the sectors of a file back one at a time, and each time the free map's own file is written. That
changes no sector of the file that is given up. What is found in the file, level by level, is kept here as a list, which
makes sense for every length. For a file that the block map can hold, the list has exactly the sectors of its map.
-/

namespace Pintos

open Program List MapSlot

variable {a m x : Nat} {dbl : Contents} {i : Inode} {d : InodeDisk} {k : FsM Unit}

/-- The world in which the sectors `S` have been given back: their bits are clear, and the free map's file, in the sectors
`E`, says so. -/
structure Released (E : Nat → Prop) (S : Nat → Prop) (w w' : World) : Prop where
  mem : w'.mem = { w.mem with freeMap := w'.mem.freeMap }
  bits : ∀ x, w'.mem.freeMap x = true ↔ w.mem.freeMap x = true ∧ ¬S x
  dev : DevWithin E w.dev w'.dev
  state : FreeMapState w' E

namespace Released

variable {E S T : Nat → Prop} {w w' w'' : World}

theorem none (h : FreeMapState w E) (hS : ∀ x, ¬S x) : Released E S w w where
  mem := rfl
  bits x := by simp [hS x]
  dev := .refl _ _
  state := h

theorem congr (h : Released E S w w') (hT : ∀ x, S x ↔ T x) : Released E T w w' :=
  { h with bits := fun x => by rw [h.bits, hT x] }

theorem trans {U : Nat → Prop} (h1 : Released E S w w') (h2 : Released E T w' w'') (hU : ∀ x, U x ↔ S x ∨ T x) :
    Released E U w w'' :=
  { h2 with
    mem := by rw [h2.mem, h1.mem]
    bits x := by rw [h2.bits, h1.bits, hU x, and_assoc, not_or]
    dev := h1.dev.trans h2.dev }

section

variable (h : Released E S w w')
include h

/-- A sector outside the free map's file holds what it held. -/
theorem disk_eq (hx : ¬E x) : w'.dev.disk x = w.dev.disk x := h.dev.same x hx

theorem size_eq : w'.dev.size = w.dev.size := h.dev.size

theorem bitCnt_eq : w'.mem.bitCnt = w.mem.bitCnt := by rw [h.mem]

theorem freeMapFile_eq : w'.mem.freeMapFile = w.mem.freeMapFile := by rw [h.mem]

theorem marked (hx : w.mem.freeMap x = true) (hS : ¬S x) : w'.mem.freeMap x = true := (h.bits x).mpr ⟨hx, hS⟩

end

end Released

namespace Runs

variable {st : Bool} {w : World} {E : Nat → Prop}

section

variable (h : FreeMapState w E) (hf : w.mem.freeMapFile.isSome = true)
include h hf

theorem release_one (hx : x < w.mem.bitCnt)
    (hused : w.mem.freeMap x = true) : Runs st (Pintos.freeMapRelease x) (fun _ w' => Released E (fun y => y = x) w w') w := by
  refine (freeMapRelease h hf hx hused).mono ?_
  rintro _ w' ⟨dev, rfl, hdev, hstate⟩
  refine ⟨rfl, fun y => ?_, hdev, hstate⟩
  by_cases hy : y = x <;> simp [Fs.setBit, hy]

/-- A list of marked sectors, all different, is given back. -/
theorem releaseAll {xs : List Nat} (hnd : xs.Nodup) (hx : ∀ x ∈ xs, x < w.mem.bitCnt ∧ w.mem.freeMap x = true) :
    Runs st (Pintos.releaseAll xs) (fun _ w' => Released E (fun y => y ∈ xs) w w') w := by
  induction xs generalizing w with
  | nil => exact pure_iff.mpr (.none h (by simp))
  | cons x xs ih =>
    obtain ⟨hnot, hnd⟩ := nodup_cons.mp hnd
    unfold Pintos.releaseAll
    refine (release_one h hf (hx x (by simp)).1 (hx x (by simp)).2).bind ?_
    intro _ w1 h1
    refine (ih h1.state (by rw [h1.freeMapFile_eq]; exact hf) hnd fun y hy => ?_).mono ?_
    · obtain ⟨hlt, hm⟩ := hx y (by simp [hy])
      exact ⟨by rw [h1.bitCnt_eq]; exact hlt, h1.marked hm (by rintro rfl; exact hnot hy)⟩
    · intro _ w2 h2
      exact h1.trans h2 (fun y => by simp)

end

end Runs

theorem releaseAll_append (xs ys : List Nat) : releaseAll (xs ++ ys) = releaseAll xs >>= fun _ => releaseAll ys := by
  induction xs with
  | nil => rfl
  | cons x xs ih =>
    show freeMapRelease x >>= (fun _ => releaseAll (xs ++ ys)) = (freeMapRelease x >>= fun _ => releaseAll xs) >>= _
    rw [ih, bind_assoc]

theorem releaseAll_concat (xs : List Nat) (x : Nat) : releaseAll (xs ++ [x]) = releaseAll xs >>= fun _ => freeMapRelease x := by
  rw [releaseAll_append]
  congr 1
  funext _
  exact bind_pure_unit

/-! ## The sectors of a file -/

/-- The most blocks that the on-disk format has room for. -/
def formatBlocks : Nat := numDirect + numBlocksInIndirect + numBlocksInIndirect * numBlocksInIndirect

/-- The sectors that the first `todo` index blocks from entry `i` of a doubly indirect block on name, for `m` blocks, and
those index blocks. -/
def leafSectors (dev : Block) (doublyIndirect : Contents) : Nat → Nat → Nat → List Nat
  | 0, _, _ => []
  | todo + 1, i, m =>
    entries (dev.disk (doublyIndirect.word i)) m ++ doublyIndirect.word i ::
      leafSectors dev doublyIndirect todo (i + 1) (m - min numBlocksInIndirect m)

/-- The sectors under the singly indirect block, for `m` blocks, and that block. -/
def singlySectors (dev : Block) (d : InodeDisk) (m : Nat) : List Nat :=
  if 0 < m then entries (dev.disk d.singlyIndirectPtr) m ++ [d.singlyIndirectPtr] else []

/-- The sectors under the doubly indirect block, for `m` blocks, and that block. -/
def doublySectors (dev : Block) (d : InodeDisk) (m : Nat) : List Nat :=
  if 0 < m then
    leafSectors dev (dev.disk d.doublyIndirectPtr)
      ((m + (blockSectorSize - 1)) % 2 ^ 32 / blockSectorSize) 0 m ++ [d.doublyIndirectPtr]
  else []

/-- The sectors that a file of `n` blocks holds besides the inode's own, as `deallocate_file` finds them. -/
def heldSectors (dev : Block) (d : InodeDisk) (n : Nat) : List Nat :=
  (range (min numDirect n)).map d.directPtr ++ (singlySectors dev d (n - min numDirect n) ++
    doublySectors dev d (n - min numDirect n - min numBlocksInIndirect (n - min numDirect n)))

/-- The sectors that the file of an inode holds, and the inode's own. -/
def Inode.held (i : Inode) (dev : Block) : List Nat := heldSectors dev i.data (bytesToSectors i.data.length) ++ [i.sector]

/-- The leaves are read off the index blocks alone. -/
theorem leafSectors_congr {dev dev' : Block} {todo i : Nat} (h : ∀ x ∈ leafSectors dev dbl todo i m, dev'.disk x = dev.disk x) :
    leafSectors dev' dbl todo i m = leafSectors dev dbl todo i m := by
  induction todo generalizing i m with
  | zero => rfl
  | succ todo ih =>
    unfold leafSectors at h ⊢
    rw [h _ (by simp), ih fun x hx => h x (by simp [hx])]

variable {n : Nat} {p : MapSlot}

/-- The sectors of a file are read off its index blocks alone. -/
theorem heldSectors_congr {dev dev' : Block} (h : ∀ x ∈ heldSectors dev d n, dev'.disk x = dev.disk x) :
    heldSectors dev' d n = heldSectors dev d n := by
  have hs : ∀ m, (∀ x ∈ singlySectors dev d m, dev'.disk x = dev.disk x) → singlySectors dev' d m = singlySectors dev d m := by
    intro m hm
    unfold singlySectors at hm ⊢
    split
    · rename_i hpos
      rw [hm _ (by simp [hpos])]
    · rfl
  have hd : ∀ m, (∀ x ∈ doublySectors dev d m, dev'.disk x = dev.disk x) → doublySectors dev' d m = doublySectors dev d m := by
    intro m hm
    unfold doublySectors at hm ⊢
    split
    · rename_i hpos
      rw [if_pos hpos] at hm
      rw [hm _ (by simp), leafSectors_congr fun x hx => hm x (mem_append_left _ hx)]
    · rfl
  unfold heldSectors at h ⊢
  rw [hs _ fun x hx => h x (by simp [hx]), hd _ fun x hx => h x (by simp [hx])]

/-- The most bytes that the on-disk format has room for. -/
def formatBytes : Int := formatBlocks * blockSectorSize

theorem bytesToSectors_le {length : Int} (h0 : 0 ≤ length) (h1 : length ≤ formatBytes) :
    bytesToSectors length ≤ formatBlocks := by
  unfold formatBytes formatBlocks numDirect numBlocksInIndirect blockSectorSize at h1
  rw [bytesToSectors_eq h0 (by omega)]
  unfold formatBlocks numDirect numBlocksInIndirect
  omega

/-- The sectors of a list can be given back, one after the other: they are marked and all different, and none is one of the
free map's file. -/
structure Givable (w : World) (E : Nat → Prop) (L : List Nat) : Prop where
  state : FreeMapState w E
  mapFile : w.mem.freeMapFile.isSome = true
  whole : w.mem.bitCnt = w.dev.size
  nodup : L.Nodup
  inside : ∀ x ∈ L, x < w.dev.size
  marked : ∀ x ∈ L, w.mem.freeMap x = true
  apart : ∀ x ∈ L, ¬E x

namespace Givable

variable {st : Bool} {w w' : World} {E : Nat → Prop} {L D X R : List Nat}

theorem releaseList (hg : Givable w E L) : Runs st (Pintos.releaseAll L) (fun _ w' => Released E (· ∈ L) w w') w :=
  Runs.releaseAll hg.state hg.mapFile hg.nodup (fun x hx => ⟨hg.whole ▸ hg.inside x hx, hg.marked x hx⟩)

section

variable {Q : Unit → World → Prop}

section

variable (hg : Givable w E L) (h : Released E (· ∈ D) w w')
include hg h

/-- After the sectors `D` of the list have been given back, those that come next are. -/
theorem releaseAll (hL : L = D ++ (X ++ R)) : Runs st (releaseAll X) (fun _ w'' => Released E (· ∈ D ++ X) w w'') w' := by
  have hnd := hL ▸ hg.nodup
  obtain ⟨-, hnd', hdone⟩ := nodup_append.mp hnd
  refine (Runs.releaseAll h.state (by rw [h.freeMapFile_eq]; exact hg.mapFile) (nodup_append.mp hnd').1 ?_).mono ?_
  · intro x hx
    have hmem : x ∈ L := by simp [hL, hx]
    refine ⟨?_, h.marked (hg.marked x hmem) (fun hd => ?_)⟩
    · rw [h.bitCnt_eq, hg.whole]
      exact hg.inside x hmem
    · exact hdone x hd x (by simp [hx]) rfl
  · intro _ w'' h2
    exact h.trans h2 (fun x => mem_append)

/-- An index block is read as it was before anything was given back. -/
theorem readIndex (hx : x ∈ L) {β : Type} {k : Contents → FsM β} {Q : β → World → Prop} :
    Runs st (FsM.readSector x >>= k) Q w' ↔ Runs st (k (w.dev.disk x)) Q w' := by
  rw [Runs.readSector_bind (by rw [h.size_eq]; exact hg.inside x hx), h.disk_eq (hg.apart x hx)]

/-- The loop over the entries of the doubly indirect block: the index blocks still read as they did. -/
theorem releaseIndirects_iff (todo i : Nat) (hi : i + todo ≤ numBlocksInIndirect)
    (hL : L = D ++ (leafSectors w.dev dbl todo i m ++ R)) :
    Runs st (releaseIndirects dbl todo i m >>= fun _ => k) Q w' ↔
      Runs st (Pintos.releaseAll (leafSectors w.dev dbl todo i m) >>= fun _ => k) Q w' := by
  induction todo generalizing i m D w' with
  | zero => exact Iff.rfl
  | succ todo ih =>
    unfold leafSectors at hL ⊢
    obtain ⟨A, hA⟩ : ∃ A, entries (w.dev.disk (dbl.word i)) m ++ [dbl.word i] = A := ⟨_, rfl⟩
    rw [append_cons, hA] at hL ⊢
    unfold releaseIndirects
    rw [if_pos (by omega), bind_assoc, hg.readIndex h (by simp [hL, ← hA]), ← bind_assoc, ← releaseAll_concat, hA,
      releaseAll_append, bind_assoc, bind_assoc]
    refine Runs.bind_congr (hg.releaseAll h (X := A)
      (R := leafSectors w.dev dbl todo (i + 1) (m - min numBlocksInIndirect m) ++ R) (by simp [hL])) (fun _ w1 h1 => ?_)
    exact ih h1 (i + 1) (by omega) (by simp [hL])

/-- The part for the singly indirect block, and what comes after it. -/
theorem releaseSingly_iff (hL : L = D ++ (singlySectors w.dev d m ++ R)) :
    Runs st (if 0 < m then do
        let indirect ← FsM.readSector d.singlyIndirectPtr
        Pintos.releaseAll (entries indirect m)
        freeMapRelease d.singlyIndirectPtr
        k
      else k) Q w' ↔ Runs st (Pintos.releaseAll (singlySectors w.dev d m) >>= fun _ => k) Q w' := by
  unfold singlySectors at hL ⊢
  by_cases hm : 0 < m
  · simp only [if_pos hm] at hL ⊢
    rw [hg.readIndex h (by simp [hL]), releaseAll_concat, bind_assoc]
  · rw [if_neg hm, if_neg hm]
    exact Iff.rfl

/-- The part for the doubly indirect block, and what comes after it. -/
theorem releaseDoubly_iff (hm : m ≤ numBlocksInIndirect * numBlocksInIndirect) (hL : L = D ++ (doublySectors w.dev d m ++ R)) :
    Runs st (if 0 < m then do
        let doublyIndirect ← FsM.readSector d.doublyIndirectPtr
        let numIndirectBlocks := (m + (blockSectorSize - 1)) % 2 ^ 32 / blockSectorSize
        releaseIndirects doublyIndirect numIndirectBlocks 0 m
        freeMapRelease d.doublyIndirectPtr
        k
      else k) Q w' ↔ Runs st (Pintos.releaseAll (doublySectors w.dev d m) >>= fun _ => k) Q w' := by
  unfold doublySectors at hL ⊢
  by_cases hpos : 0 < m
  · have hcount : 0 + (m + (blockSectorSize - 1)) % 2 ^ 32 / blockSectorSize ≤ numBlocksInIndirect := by
      simp only [numBlocksInIndirect, blockSectorSize] at hm ⊢
      omega
    simp only [if_pos hpos] at hL ⊢
    rw [hg.readIndex h (by simp [hL]), releaseAll_concat, bind_assoc]
    exact hg.releaseIndirects_iff h _ 0 hcount (R := [d.doublyIndirectPtr] ++ R) (by simp [hL])
  · rw [if_neg hpos, if_neg hpos]
    exact Iff.rfl

end

/-- `deallocate_file` does what the release of a list of sectors does: those that the file holds, whatever its length, and
its own. -/
theorem deallocateFile_iff (hi : w.mem.inodes a = some i) (hn : bytesToSectors i.data.length ≤ formatBlocks)
    (hg : Givable w E (i.held w.dev)) : Runs st (deallocateFile a) Q w ↔ Runs st (Pintos.releaseAll (i.held w.dev)) Q w := by
  obtain ⟨n, hsectors⟩ : ∃ n, bytesToSectors i.data.length = n := ⟨_, rfl⟩
  unfold deallocateFile
  unfold Inode.held at hg ⊢
  rw [hsectors] at hg hn ⊢
  rw [Runs.inode_bind hi]
  simp only [hsectors]
  obtain ⟨S, hS⟩ : ∃ S, singlySectors w.dev i.data (n - min numDirect n) = S := ⟨_, rfl⟩
  obtain ⟨B, hB⟩ :
    ∃ B, doublySectors w.dev i.data (n - min numDirect n - min numBlocksInIndirect (n - min numDirect n)) = B := ⟨_, rfl⟩
  obtain ⟨A, hA⟩ : ∃ A, (range (min numDirect n)).map i.data.directPtr = A := ⟨_, rfl⟩
  have hrest : n - min numDirect n - min numBlocksInIndirect (n - min numDirect n) ≤
      numBlocksInIndirect * numBlocksInIndirect := by
    unfold formatBlocks at hn
    omega
  have hheld : heldSectors w.dev i.data n ++ [i.sector] = A ++ (S ++ (B ++ [i.sector])) := by
    rw [heldSectors, hA, hS, hB]
    simp
  rw [hheld] at hg ⊢
  rw [hA, releaseAll_append]
  refine Runs.bind_congr (hg.releaseAll (D := []) (.none hg.state (by simp)) rfl) (fun _ w1 h1 => ?_)
  rw [hg.releaseSingly_iff (R := B ++ [i.sector]) h1 (by rw [hS]; rfl), hS, releaseAll_append]
  refine Runs.bind_congr (hg.releaseAll (R := B ++ [i.sector]) h1 rfl) (fun _ w2 h2 => ?_)
  rw [hg.releaseDoubly_iff h2 hrest (R := [i.sector]) (by rw [hB]; simp), hB, ← releaseAll_concat]

end

/-- `deallocate_file` gives back the sectors that the file holds and its own, and changes nothing else but the free map's
file. -/
theorem deallocateFile (hi : w.mem.inodes a = some i) (hn : bytesToSectors i.data.length ≤ formatBlocks)
    (hg : Givable w E (i.held w.dev)) : Runs st (Pintos.deallocateFile a) (fun _ w' => Released E (· ∈ i.held w.dev) w w') w :=
  (hg.deallocateFile_iff hi hn).mpr hg.releaseList

end Givable

/-! ## The sectors of a map -/

/-- The file of an inode can be given up: its map is right and no longer than a map can be, and it shares no sector with the
free map's file. -/
structure Deallocatable (w : World) (E : Nat → Prop) (i : Inode) : Prop where
  state : FreeMapState w E
  mapFile : w.mem.freeMapFile.isSome = true
  whole : w.mem.bitCnt = w.dev.size
  file : FileOk w i.sector i.data
  apart : ∀ x, w.owns i.sector i.data x → ¬E x

theorem nodup_blocks (first n : Nat) : ((range n).map (fun k => block (first + k))).Nodup := by
  refine Nodup.map ?_ nodup_range
  intro j k h
  simpa using h

theorem mem_blocks {first : Nat} :
    p ∈ (range n).map (fun k => block (first + k)) ↔ ∃ b, p = .block b ∧ first ≤ b ∧ b < first + n := by
  rw [mem_map]
  constructor
  · rintro ⟨k, hk, rfl⟩
    have := mem_range.mp hk
    exact ⟨first + k, rfl, by omega, by omega⟩
  · rintro ⟨b, rfl, h1, h2⟩
    exact ⟨b - first, mem_range.mpr (by omega), by rw [Nat.add_sub_cancel' h1]⟩

/-- The places behind the singly indirect block, and that block. -/
def singlySlots (n : Nat) : List MapSlot :=
  if numDirect < n then (range (min numBlocksInIndirect (n - numDirect))).map (fun k => .block (numDirect + k)) ++
    [.singly] else []

/-- The places behind the doubly indirect block, and that block. -/
def doublySlots (n : Nat) : List MapSlot :=
  if numDirect + numBlocksInIndirect < n then
    (range (n - (numDirect + numBlocksInIndirect))).map (fun k => .block (numDirect + numBlocksInIndirect + k)) ++
      [.leaf, .doubly]
  else []

/-- The places of a map of `n` blocks, in the order in which `deallocate_file` comes to them. -/
def mapSlots (n : Nat) : List MapSlot :=
  (range (min numDirect n)).map (fun k => .block (0 + k)) ++ (singlySlots n ++ doublySlots n)

theorem mem_singlySlots : p ∈ singlySlots n ↔
    numDirect < n ∧ ((∃ b, p = .block b ∧ numDirect ≤ b ∧ b < numDirect + min numBlocksInIndirect (n - numDirect)) ∨
      p = .singly) := by
  unfold singlySlots
  split
  · rename_i hn
    rw [mem_append, mem_blocks, mem_singleton]
    exact (and_iff_right hn).symm
  · rename_i hn
    simp [hn]

theorem mem_doublySlots : p ∈ doublySlots n ↔ numDirect + numBlocksInIndirect < n ∧
      ((∃ b, p = .block b ∧ numDirect + numBlocksInIndirect ≤ b ∧ b < n) ∨ p = .leaf ∨ p = .doubly) := by
  unfold doublySlots
  split
  · rename_i hn
    rw [mem_append, mem_blocks, mem_pair, Nat.add_sub_cancel' (by omega)]
    exact (and_iff_right hn).symm
  · rename_i hn
    simp [hn]

/-- They are the places in use. -/
theorem mem_mapSlots : p ∈ mapSlots n ↔ InUse n p := by
  unfold mapSlots
  rw [mem_append, mem_append, mem_blocks, mem_singlySlots, mem_doublySlots]
  cases p with
  | block b =>
    simp only [block.injEq, exists_eq_left', reduceCtorEq, or_false, InUse]
    omega
  | _ => simp [InUse]

theorem nodup_mapSlots (n : Nat) : (mapSlots n).Nodup := by
  have happend : ∀ {A B : List MapSlot}, A.Nodup → B.Nodup → (∀ p ∈ A, p ∉ B) → (A ++ B).Nodup := by
    intro A B hA hB h
    exact nodup_append.mpr ⟨hA, hB, fun p hp q hq he => h p hp (he ▸ hq)⟩
  have hsingly : (singlySlots n).Nodup := by
    unfold singlySlots
    split
    · refine happend (nodup_blocks _ _) (nodup_singleton _) (fun p hp => ?_)
      obtain ⟨b, rfl, -⟩ := mem_blocks.mp hp
      simp
    · exact .nil
  have hdoubly : (doublySlots n).Nodup := by
    unfold doublySlots
    split
    · refine happend (nodup_blocks _ _) (by simp) (fun p hp => ?_)
      obtain ⟨b, rfl, -⟩ := mem_blocks.mp hp
      simp
    · exact .nil
  refine happend (nodup_blocks 0 _) (happend hsingly hdoubly fun p hp => ?_) (fun p hp => ?_)
  · rw [mem_singlySlots] at hp
    rw [mem_doublySlots]
    rcases hp with ⟨-, ⟨b, rfl, -, h2⟩ | rfl⟩
    · simp only [block.injEq, exists_eq_left', reduceCtorEq, or_false]
      omega
    · simp
  · obtain ⟨b, rfl, -, h2⟩ := mem_blocks.mp hp
    rw [mem_append, mem_singlySlots, mem_doublySlots]
    simp only [block.injEq, exists_eq_left', reduceCtorEq, or_false]
    omega

/-- The entries of an index block, as the sectors of a run of blocks. -/
theorem entries_eq {b : BlockWorld} {c : Contents} {f : Nat}
    (h : ∀ k < min numBlocksInIndirect n, b.sector (.block (f + k)) = c.word k) :
    entries c n = ((range (min numBlocksInIndirect n)).map (fun k => block (f + k))).map b.sector := by
  unfold entries
  rw [map_map]
  exact map_congr_left (fun k hk => (h k (mem_range.mp hk)).symm)

/-- Within the first 379 blocks, what `deallocate_file` finds are the sectors at the places of the map. -/
theorem heldSectors_eq (b : BlockWorld) (hn : n ≤ mapLimit) : heldSectors b.dev b.data n = (mapSlots n).map b.sector := by
  have hlim : mapLimit = numDirect + numBlocksInIndirect + numBlocksInIndirect := rfl
  have hdirect : (range (min numDirect n)).map b.data.directPtr =
      ((range (min numDirect n)).map (fun k => block (0 + k))).map b.sector := by
    rw [map_map]
    refine map_congr_left (fun k hk => ?_)
    have := mem_range.mp hk
    simp only [Function.comp_apply, Nat.zero_add, BlockWorld.sector, mapSector]
    rw [if_pos (by omega)]
  have hsingly : singlySectors b.dev b.data (n - min numDirect n) = (singlySlots n).map b.sector := by
    unfold singlySectors singlySlots
    by_cases hmore : numDirect < n
    · rw [if_pos (by omega), if_pos hmore, map_append, show n - min numDirect n = n - numDirect by omega,
        entries_eq (b := b) (f := numDirect) (fun k hk => ?_)]
      · rfl
      · simp only [BlockWorld.sector, mapSector]
        rw [if_neg (by omega), if_pos (by omega), Nat.add_sub_cancel_left]
        rfl
    · rw [if_neg (by omega), if_neg hmore]
      rfl
  have hdoubly : doublySectors b.dev b.data (n - min numDirect n - min numBlocksInIndirect (n - min numDirect n)) =
      (doublySlots n).map b.sector := by
    unfold doublySectors doublySlots
    by_cases hmore : numDirect + numBlocksInIndirect < n
    · obtain ⟨m, hm⟩ : ∃ m, n - (numDirect + numBlocksInIndirect) = m := ⟨_, rfl⟩
      rw [if_pos (by omega), if_pos hmore, show n - min numDirect n - min numBlocksInIndirect (n - min numDirect n) =
        m by omega, hm]
      -- the number of index blocks is 1, because no more than 128 blocks are left
      have hone : (m + (blockSectorSize - 1)) % 2 ^ 32 / blockSectorSize = 1 := by
        simp only [numDirect, numBlocksInIndirect, blockSectorSize] at hlim hm hmore ⊢
        omega
      rw [hone, leafSectors, leafSectors, entries_eq (b := b) (f := numDirect + numBlocksInIndirect) (fun k hk => ?_),
        Nat.min_eq_right (by omega), map_append, append_assoc]
      · rfl
      · simp only [BlockWorld.sector, mapSector]
        rw [if_neg (by omega), if_neg (by omega), Nat.add_sub_cancel_left]
        rfl
    · rw [if_neg (by omega), if_neg hmore]
      rfl
  rw [heldSectors, mapSlots, map_append, map_append, hdirect, hsingly, hdoubly]

namespace Deallocatable

variable {st : Bool} {w : World} {E : Nat → Prop}

section

variable (hd : Deallocatable w E i)
include hd

/-- The blocks of a map, as `deallocate_file` counts them. -/
theorem bytesToSectors_length : bytesToSectors i.data.length = (w.blocksOf i.data).blocks := by
  have : mapBytes = 194048 := rfl
  exact bytesToSectors_eq hd.file.length.1 (by have := hd.file.length.2; omega)

theorem blocks_le : (w.blocksOf i.data).blocks ≤ 379 := by
  obtain ⟨h1, h2⟩ := hd.file.length
  have h3 : mapBytes = 194048 := rfl
  have h4 : (w.blocksOf i.data).blocks = (i.data.length.toNat + 511) / 512 := rfl
  omega

/-- What `deallocate_file` finds in such a file. -/
theorem held_eq :
    heldSectors w.dev i.data (bytesToSectors i.data.length) =
      (mapSlots (w.blocksOf i.data).blocks).map (w.blocksOf i.data).sector := by
  rw [hd.bytesToSectors_length]
  exact heldSectors_eq (w.blocksOf i.data) hd.blocks_le

/-- These are the sectors of the file. -/
theorem mem_held {x : Nat} : x ∈ i.held w.dev ↔ w.owns i.sector i.data x := by
  rw [Inode.held, hd.held_eq, mem_append, mem_map, mem_singleton, or_comm]
  simp only [mem_mapSlots]
  rfl

/-- They can be given back. -/
theorem givable : Givable w E (i.held w.dev) := by
  have hall : ∀ x ∈ i.held w.dev, x < w.dev.size ∧ w.mem.freeMap x = true := by
    intro x hx
    rcases hd.mem_held.mp hx with rfl | ⟨p, hp, rfl⟩
    · exact hd.file.own
    · exact ⟨hd.file.map.inside p hp, hd.file.map.marked p hp⟩
  refine ⟨hd.state, hd.mapFile, hd.whole, ?_, fun x hx => (hall x hx).1, fun x hx => (hall x hx).2,
    fun x hx => hd.apart x (hd.mem_held.mp hx)⟩
  rw [Inode.held, hd.held_eq]
  refine nodup_append'.mpr ⟨?_, nodup_singleton _, disjoint_singleton.mpr fun hx => ?_⟩
  · exact Nodup.map_on (fun p hp q hq he => hd.file.map.inj p q (mem_mapSlots.mp hp) (mem_mapSlots.mp hq) he) (nodup_mapSlots _)
  · obtain ⟨p, hp, hpx⟩ := mem_map.mp hx
    exact hd.file.notMapped p (mem_mapSlots.mp hp) hpx

theorem blocks_le_format : bytesToSectors i.data.length ≤ formatBlocks := by
  rw [hd.bytesToSectors_length]
  exact Nat.le_trans hd.blocks_le (by decide)

end

end Deallocatable

end Pintos
