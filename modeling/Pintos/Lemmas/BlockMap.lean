import Pintos.Filesys.BlockMap

/-!
# The sectors of a block map

A block map gives a sector to each block of the file and to up to three index blocks: the singly indirect block, the doubly
indirect block and the first block that the doubly indirect block names, which is as far as the code's own arithmetic goes.
`MapSlot` names the places a sector can stand in and `BlockWorld.sector` says which sector stands there.
-/

namespace Pintos

open Program BlockWorld

/-- How many blocks a map can hold before the second index block of the doubly indirect block would be needed. -/
def mapLimit : Nat := numDirect + numBlocksInIndirect + numBlocksInIndirect

/-- A place of a block map: a block of the file, or one of the index blocks. -/
inductive MapSlot where
  | block (b : Nat)
  | singly
  | doubly
  | leaf
  deriving DecidableEq

/-- The place is an index block. -/
def MapSlot.isIndex : MapSlot → Bool
  | .block _ => false
  | _ => true

/-- The places that a map of `n` blocks uses. -/
def MapSlot.InUse (n : Nat) : MapSlot → Prop
  | .block b => b < n
  | .singly => numDirect < n
  | .doubly => numDirect + numBlocksInIndirect < n
  | .leaf => numDirect + numBlocksInIndirect < n

/-- The sector at a place, from the inode's data, the bytes of the singly indirect block, the first entry of the doubly
indirect block and the bytes of the block it names. -/
def mapSector (d : InodeDisk) (s : Contents) (ip : Nat) (leaf : Contents) : MapSlot → Nat
  | .block b =>
    if b < numDirect then d.directPtr b
    else if b < numDirect + numBlocksInIndirect then s.word (b - numDirect)
    else leaf.word (b - (numDirect + numBlocksInIndirect))
  | .singly => d.singlyIndirectPtr
  | .doubly => d.doublyIndirectPtr
  | .leaf => ip

namespace BlockWorld

variable (n : Nat) (w : BlockWorld)

/-- The bytes of the singly indirect block. -/
def singlyBlock : Contents := w.dev.disk w.data.singlyIndirectPtr

/-- The first entry of the doubly indirect block. -/
def leafPtr : Nat := (w.dev.disk w.data.doublyIndirectPtr).word 0

/-- The bytes of the block which that entry names. -/
def leafBlock : Contents := w.dev.disk w.leafPtr

/-- The sector at a place of the map. -/
def sector : MapSlot → Nat := mapSector w.data w.singlyBlock w.leafPtr w.leafBlock

/-- The sectors of the first `n` blocks, and of the index blocks on the way to them, stand where they stood. -/
def Stable (w' : BlockWorld) : Prop := ∀ p, MapSlot.InUse n p → w'.sector p = w.sector p

/-- The map of the first `n` blocks is right: every sector it uses is one of the device and marked as used, and no sector
stands in two places. -/
structure MapOk (w : BlockWorld) (n : Nat) : Prop where
  inside : ∀ p, p.InUse n → w.sector p < w.dev.size
  marked : ∀ p, p.InUse n → w.used (w.sector p) = true
  inj : ∀ p q, p.InUse n → q.InUse n → w.sector p = w.sector q → p = q

theorem Stable.refl : Stable n w w := fun _ _ => rfl

theorem Stable.trans {n : Nat} {a b c : BlockWorld} (h1 : Stable n a b) (h2 : Stable n b c) : Stable n a c :=
  fun p hp => (h2 p hp).trans (h1 p hp)

/-- A right map that is left as it stands, with none of its sectors given up, stays right. -/
theorem MapOk.of_stable {n : Nat} {w w' : BlockWorld} (h : w.MapOk n) (hs : Stable n w w') (hsize : w'.dev.size = w.dev.size)
    (hused : ∀ p, p.InUse n → w'.used (w.sector p) = true) : w'.MapOk n where
  inside p hp := by rw [hs p hp, hsize]; exact h.inside p hp
  marked p hp := by rw [hs p hp]; exact hused p hp
  inj p q hp hq he := by
    rw [hs p hp, hs q hq] at he
    exact h.inj p q hp hq he

end BlockWorld

/-! ## Requests under interference -/

/-- What the requests of a block map program may lead to. `mayFail` says with which sectors used the free map may answer that
there is none. -/
def blockSem (mayFail : (Nat → Bool) → Prop) : Semantics blockSig BlockWorld where
  allowed o w := ∀ choice h, BlockOp.exec choice o w ≠ .error h
  step o w r w' := ∃ choice, (o = .allocate → w.mayChoose choice = true ∧ (choice = none → mayFail w.used)) ∧
    BlockOp.exec choice o w = .ok (r, w')

variable {mayFail : (Nat → Bool) → Prop} {R G : BlockWorld → BlockWorld → Prop} {α : Type} {Q : α → BlockWorld → Prop}
  {w : BlockWorld}

namespace BlockM

theorem safe_pure {a : α} (h : ∀ w', R w w' → Q a w') : (pure a : BlockM α).Safe (blockSem mayFail) R G Q w := Prog.safe_ret.mpr h

/-- A request that can be answered in one way only. -/
theorem safe_request {o : BlockOp} {k : o.Res → BlockM α}
    (h : ∀ w', R w w' → ∃ r w'', (∀ choice, o.exec choice w' = .ok (r, w'')) ∧ G w' w'' ∧
    (k r).Safe (blockSem mayFail) R G Q w'') : Prog.Safe (blockSem mayFail) R G Q (.call o k) w := by
  refine Prog.safe_call.mpr fun w' hr => ?_
  obtain ⟨r, w'', he, hk⟩ := h w' hr
  refine ⟨fun choice e hs => (by rw [he] at hs; cases hs), ?_⟩
  rintro r' v ⟨choice, -, hs⟩
  rw [he] at hs
  cases hs
  exact hk

theorem safe_data (hG : ∀ w, G w w) {k : InodeDisk → BlockM α}
    (h : ∀ w', R w w' → (k w'.data).Safe (blockSem mayFail) R G Q w') : (data >>= k).Safe (blockSem mayFail) R G Q w :=
  safe_request fun w' hr => ⟨_, _, fun _ => rfl, hG w', h w' hr⟩

theorem safe_read (hG : ∀ w, G w w) {x : Nat} {k : Contents → BlockM α}
    (h : ∀ w', R w w' → x < w'.dev.size ∧ (k (w'.dev.disk x)).Safe (blockSem mayFail) R G Q w') :
    (read x >>= k).Safe (blockSem mayFail) R G Q w :=
  safe_request fun w' hr => ⟨_, _, fun _ => if_pos (decide_eq_true (h w' hr).1), hG w', (h w' hr).2⟩

theorem safe_write {x : Nat} {c : Contents} {k : Unit → BlockM α}
    (h : ∀ w', R w w' → x < w'.dev.size ∧ G w' (w'.put x c) ∧ (k ()).Safe (blockSem mayFail) R G Q (w'.put x c)) :
    (write x c >>= k).Safe (blockSem mayFail) R G Q w :=
  safe_request fun w' hr => ⟨_, _, fun _ => if_pos (decide_eq_true (h w' hr).1), (h w' hr).2⟩

theorem safe_setDirect {i x : Nat} {k : Unit → BlockM α} (h : ∀ w', R w w' → G w' { w' with data := w'.data.setDirectPtr i x } ∧
      (k ()).Safe (blockSem mayFail) R G Q { w' with data := w'.data.setDirectPtr i x }) :
    (setDirect i x >>= k).Safe (blockSem mayFail) R G Q w :=
  safe_request fun w' hr => ⟨_, _, fun _ => rfl, h w' hr⟩

theorem safe_setSingly {x : Nat} {k : Unit → BlockM α}
    (h : ∀ w', R w w' → G w' { w' with data := w'.data.setSinglyIndirectPtr x } ∧
      (k ()).Safe (blockSem mayFail) R G Q { w' with data := w'.data.setSinglyIndirectPtr x }) :
    (setSingly x >>= k).Safe (blockSem mayFail) R G Q w :=
  safe_request fun w' hr => ⟨_, _, fun _ => rfl, h w' hr⟩

theorem safe_setDoubly {x : Nat} {k : Unit → BlockM α}
    (h : ∀ w', R w w' → G w' { w' with data := w'.data.setDoublyIndirectPtr x } ∧
      (k ()).Safe (blockSem mayFail) R G Q { w' with data := w'.data.setDoublyIndirectPtr x }) :
    (setDoubly x >>= k).Safe (blockSem mayFail) R G Q w :=
  safe_request fun w' hr => ⟨_, _, fun _ => rfl, h w' hr⟩

theorem safe_allocate {k : Option Nat → BlockM α} (hG : ∀ w, G w w)
    (h : ∀ w', R w w' → (mayFail w'.used → (k none).Safe (blockSem mayFail) R G Q w') ∧
      ∀ x, x < w'.dev.size → w'.used x = false → G w' (w'.mark x) ∧ (k (some x)).Safe (blockSem mayFail) R G Q (w'.mark x)) :
    (allocate >>= k).Safe (blockSem mayFail) R G Q w := by
  refine Prog.safe_call.mpr fun w' hr => ⟨fun choice e he => (by cases choice <;> cases he), ?_⟩
  rintro r w'' ⟨choice, hc, hs⟩
  obtain ⟨hm, hf⟩ := hc rfl
  cases choice with
  | none =>
    cases hs
    exact ⟨hG w', (h w' hr).1 (hf rfl)⟩
  | some x =>
    cases hs
    simp only [mayChoose, Bool.and_eq_true, Bool.not_eq_true'] at hm
    exact (h w' hr).2 x (of_decide_eq_true hm.1) hm.2

end BlockM

/-! ## `byte_to_sector` -/

/-- The blocks of a file, for lengths whose rounding does not overflow. -/
theorem bytesToSectors_eq {size : Int} (h0 : 0 ≤ size) (h1 : size ≤ 2147483136) :
    bytesToSectors size = (size.toNat + 511) / 512 := by
  have hfit : toInt32 (size + (blockSectorSize - 1)) = size + 511 := by
    rw [toInt32_of_fits] <;> simp only [blockSectorSize] <;> omega
  have hdiv : (size + 511).tdiv (blockSectorSize : Int) = (size + 511) / 512 := Int.tdiv_eq_ediv_of_nonneg (by omega)
  have hkeep : ((toUInt32 ((size + 511) / 512) : Nat) : Int) = (size + 511) / 512 := toUInt32_of_fits (by omega) (by omega)
  unfold bytesToSectors
  rw [hfit, hdiv]
  omega

/-- A block belongs to the file exactly if its first byte does. -/
theorem lt_bytesToSectors_iff {size : Int} {b : Nat} (h0 : 0 ≤ size) (h1 : size ≤ 2147483136) :
    b < bytesToSectors size ↔ (b : Int) * 512 < size := by
  rw [bytesToSectors_eq h0 h1]
  omega

namespace BlockM

/-- `byte_to_sector` of a byte past the end. -/
theorem safe_byteToSector_hole (hG : ∀ w, G w w) {pos : Int} (hR : ∀ w', R w w' → w'.data.length ≤ pos) {k : Nat → BlockM α}
    (h : ∀ w', R w w' → (k invalidSector).Safe (blockSem mayFail) R G Q w') :
    (byteToSector pos >>= k).Safe (blockSem mayFail) R G Q w := by
  unfold byteToSector
  rw [bind_assoc]
  refine safe_data hG fun w1 h1 => ?_
  rw [if_neg (by have := hR w1 h1; omega)]
  exact h w1 h1

/-- `byte_to_sector` of a byte of the file, in a block that the map reaches: the sector of that block, as long as the changes
that come between keep the first `n` blocks in place. -/
theorem safe_byteToSector (hG : ∀ w, G w w) (hRt : ∀ a b c, R a b → R b c → R a c) {pos : Int} {n : Nat} (h0 : 0 ≤ pos)
    (hn : pos.toNat / 512 < n) (hlim : pos.toNat / 512 < mapLimit)
    (hR : ∀ w', R w w' → BlockWorld.Stable n w w' ∧ w'.dev.size = w.dev.size ∧ pos < w'.data.length)
    (hin : ∀ p, MapSlot.InUse n p → w.sector p < w.dev.size) {k : Nat → BlockM α}
    (h : ∀ w', R w w' → (k (w.sector (.block (pos.toNat / 512)))).Safe (blockSem mayFail) R G Q w') :
    (byteToSector pos >>= k).Safe (blockSem mayFail) R G Q w := by
  have hdiv : pos.tdiv (blockSectorSize : Int) = ((pos.toNat / 512 : Nat) : Int) := by
    rw [Int.tdiv_eq_ediv_of_nonneg h0]
    simp only [blockSectorSize]
    omega
  obtain ⟨b, hb⟩ : ∃ b, pos.toNat / 512 = b := ⟨_, rfl⟩
  rw [hb] at hdiv hn hlim h
  unfold byteToSector
  rw [bind_assoc]
  refine safe_data hG fun w1 h1 => ?_
  have hs1 := (hR w1 h1).1
  rw [if_pos (hR w1 h1).2.2]
  simp only [hdiv]
  rw [if_neg (by omega)]
  by_cases hdir : b < numDirect
  · -- A direct block: the pointer is in the data just looked at.
    have hx : w1.data.directPtr b = w.sector (.block b) := by
      rw [← hs1 (.block b) hn]
      simp [sector, mapSector, hdir]
    rw [if_pos (by omega), Int.toNat_natCast, hx]
    exact h w1 h1
  · rw [if_neg (by omega), Int.toNat_natCast]
    by_cases hsing : b < numDirect + numBlocksInIndirect
    · -- A block of the singly indirect block: one read.
      have hptr : w1.data.singlyIndirectPtr = w.sector .singly := hs1 .singly (by simp only [MapSlot.InUse]; omega)
      rw [if_pos (by omega), bind_assoc]
      refine safe_read hG fun w2 h2 => ?_
      have hs2 := (hR w2 (hRt _ _ _ h1 h2)).1
      have hz2 := (hR w2 (hRt _ _ _ h1 h2)).2.1
      refine ⟨by rw [hptr, hz2]; exact hin .singly (by simp only [MapSlot.InUse]; omega), ?_⟩
      have hptr2 : w2.data.singlyIndirectPtr = w.sector .singly := hs2 .singly (by simp only [MapSlot.InUse]; omega)
      have hx : (w2.dev.disk w1.data.singlyIndirectPtr).word (b - numDirect) = w.sector (.block b) := by
        rw [hptr, ← hptr2, ← hs2 (.block b) hn]
        simp [sector, mapSector, hdir, hsing, singlyBlock]
      unfold entry
      rw [if_pos (by simp only [numDirect, numBlocksInIndirect] at hsing hdir ⊢; omega), hx]
      exact h w2 (hRt _ _ _ h1 h2)
    · -- A block of the first index block of the doubly indirect block: two reads.
      have huse : numDirect + numBlocksInIndirect < n := by omega
      have hptr : w1.data.doublyIndirectPtr = w.sector .doubly := hs1 .doubly huse
      have hidx : b - (numDirect + numBlocksInIndirect) < numBlocksInIndirect := by
        simp only [mapLimit] at hlim
        omega
      rw [if_neg (by omega), bind_assoc]
      refine safe_read hG fun w2 h2 => ?_
      have hs2 := (hR w2 (hRt _ _ _ h1 h2)).1
      have hz2 := (hR w2 (hRt _ _ _ h1 h2)).2.1
      refine ⟨by rw [hptr, hz2]; exact hin .doubly huse, ?_⟩
      have hptr2 : w2.data.doublyIndirectPtr = w.sector .doubly := hs2 .doubly huse
      have hleaf : (w2.dev.disk w1.data.doublyIndirectPtr).word 0 = w.sector .leaf := by
        rw [hptr, ← hptr2, ← hs2 .leaf huse]
        rfl
      simp only [Nat.div_eq_of_lt hidx]
      unfold entry
      rw [if_pos (by decide), pure_bind, bind_assoc]
      refine safe_read hG fun w3 h3 => ?_
      have hs3 := (hR w3 (hRt _ _ _ (hRt _ _ _ h1 h2) h3)).1
      have hz3 := (hR w3 (hRt _ _ _ (hRt _ _ _ h1 h2) h3)).2.1
      rw [hleaf]
      refine ⟨by rw [hz3]; exact hin .leaf huse, ?_⟩
      have hmod : (b - (numDirect + numBlocksInIndirect)) % blockSectorSize = b - (numDirect + numBlocksInIndirect) :=
        Nat.mod_eq_of_lt (Nat.lt_of_lt_of_le hidx (by decide))
      have hx : (w3.dev.disk (w.sector .leaf)).word (b - (numDirect + numBlocksInIndirect)) = w.sector (.block b) := by
        rw [← hs3 .leaf huse, ← hs3 (.block b) hn]
        simp [sector, mapSector, hdir, hsing, leafBlock]
      rw [hmod, if_pos hidx, hx]
      exact h w3 (hRt _ _ _ (hRt _ _ _ h1 h2) h3)

end BlockM

/-! ## The blocks and bytes of a file -/

/-- The first byte past which the map cannot be trusted. -/
def mapBytes : Int := 194048

variable (w : BlockWorld)

/-- The blocks of a file of the world's length. -/
def BlockWorld.blocks : Nat := (w.data.length.toNat + 511) / 512

theorem blocks_of_lt {pos len : Int} (h0 : 0 ≤ pos) (h : pos < len) : pos.toNat / 512 < (len.toNat + 511) / 512 := by omega

theorem blocks_mono {len len' : Int} (h : len ≤ len') : (len.toNat + 511) / 512 ≤ (len'.toNat + 511) / 512 := by omega

/-- The sectors of the data of a file. -/
def dataSectors (x : Nat) : Prop := ∃ b < w.blocks, w.sector (.block b) = x

/-- A place in use stays in use when there are more blocks. -/
theorem MapSlot.InUse.mono {n m : Nat} (h : n ≤ m) {p : MapSlot} (hp : MapSlot.InUse n p) : MapSlot.InUse m p := by
  cases p <;> simp only [MapSlot.InUse] at hp ⊢ <;> omega

theorem chunkSize_bounds (length size offset : Int) (hs : 0 < size) (h0 : 0 ≤ offset) (hlt : offset < length)
    (hl : length ≤ 2147483647) :
    0 < chunkSize length size offset ∧ chunkSize length size offset ≤ size ∧ offset + chunkSize length size offset ≤ length ∧
      sectorOfs offset + chunkSize length size offset ≤ 512 := by
  have hmod : sectorOfs offset = offset % 512 := by
    unfold sectorOfs
    rw [Int.tmod_eq_emod_of_nonneg h0]
    rfl
  have hfit : toInt32 (length - offset) = length - offset := toInt32_of_fits (by omega) (by omega)
  have hsec : ((blockSectorSize : Nat) : Int) = 512 := rfl
  unfold chunkSize
  simp only [hfit, hmod, hsec]
  split <;> split <;> omega

end Pintos
