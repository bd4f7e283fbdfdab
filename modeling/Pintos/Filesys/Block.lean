import Pintos.Library.Bytes

/-!
# Block devices (`devices/block.c`)

A block device is a number of sectors of 512 bytes. `block_read` and `block_write` check the sector first and panic past the
end of the device; the device synchronizes its own accesses, so each of them is one step.
-/

namespace Pintos

/-- `BLOCK_SECTOR_SIZE`: the bytes in a sector. -/
def blockSectorSize : Nat := 512

/-- The value `-1` of a `block_sector_t`, which names no sector. -/
def invalidSector : Nat := 0xffffffff

/-- The 512 bytes of one sector, or of a structure in memory that is exactly one sector long. Past its end there is nothing,
so two of them are equal as soon as their bytes are. -/
structure Contents where
  byte : Bytes.Memory
  beyond : ∀ k, blockSectorSize ≤ k → byte k = 0

namespace Contents

theorem ext_bytes {c d : Contents} (h : ∀ k, k < blockSectorSize → c.byte k = d.byte k) : c = d := by
  have hb : c.byte = d.byte := by
    funext k
    by_cases hk : k < blockSectorSize
    · exact h k hk
    · rw [c.beyond k (by omega), d.beyond k (by omega)]
  cases c
  cases d
  subst hb
  rfl

/-- A sector with the same byte throughout. -/
def fill (b : UInt8) : Contents where
  byte k := if k < blockSectorSize then b else 0
  beyond k hk := by simp [Nat.not_lt.mpr hk]

variable (c : Contents) (ofs k : Nat) (bs : List UInt8) (j : Nat)

/-- The `len` bytes from offset `ofs` on. -/
def slice (len : Nat) : List UInt8 := Bytes.slice c.byte ofs len

/-- The contents with the bytes `bs` copied to offset `ofs`. -/
def splice : Contents where
  byte k := if k < blockSectorSize then Bytes.splice c.byte ofs bs k else 0
  beyond k hk := by simp [Nat.not_lt.mpr hk]

/-- The 32-bit word number `k`. -/
def word : Nat := Bytes.word c.byte k

/-- The contents with word number `k` replaced. -/
def setWord (v : Nat) : Contents := c.splice (4 * k) (Bytes.wordBytes v)

/-- The contents that hold given words. -/
def ofWords (f : Nat → Nat) : Contents where
  byte j := if j < blockSectorSize then UInt8.ofNat (f (j / 4) / 256 ^ (j % 4)) else 0
  beyond j hj := by simp [Nat.not_lt.mpr hj]

@[simp] theorem slice_length (len : Nat) : (c.slice ofs len).length = len := Bytes.slice_length _ _ _

/-- A byte inside the range copied to is the byte copied. -/
theorem splice_inside (h : j < bs.length)
    (hs : ofs + j < blockSectorSize) : (c.splice ofs bs).byte (ofs + j) = bs.getD j 0 := by
  simp only [splice, if_pos hs]
  exact Bytes.splice_inside _ _ _ _ h

/-- A byte outside the range copied to is unchanged. -/
theorem splice_outside (k : Nat) (h : k < ofs ∨ ofs + bs.length ≤ k) : (c.splice ofs bs).byte k = c.byte k := by
  by_cases hk : k < blockSectorSize
  · simp only [splice, if_pos hk]
    exact Bytes.splice_outside _ _ _ _ h
  · simp only [splice, if_neg hk]
    exact (c.beyond k (by omega)).symm

/-- Copying a whole structure over a sector leaves the structure. -/
theorem splice_slice_whole (d : Contents) : c.splice 0 (d.slice 0 blockSectorSize) = d := by
  apply ext_bytes
  intro k hk
  have := splice_inside c 0 (d.slice 0 blockSectorSize) k (by simpa using hk) (by omega)
  rw [Nat.zero_add] at this
  rw [this, slice, Bytes.slice_getD _ _ _ _ _ hk, Nat.zero_add]

/-- A word of the structure reads back as it was stored, up to its 32 bits. -/
theorem word_setWord_self (v : Nat) (hk : k < 128) : (c.setWord k v).word k = v % 2 ^ 32 := by
  rw [← Bytes.word_setWord_self c.byte k v]
  apply Bytes.word_congr
  intro j _ hj
  have hj' : j < blockSectorSize := by simp only [blockSectorSize]; omega
  simp only [setWord, splice, if_pos hj', Bytes.setWord]

/-- Storing a word changes no other word. -/
theorem word_setWord_ne (v j : Nat) (h : j ≠ k) : (c.setWord k v).word j = c.word j := by
  apply Bytes.word_congr
  intro i h1 h2
  apply splice_outside
  simp only [Bytes.wordBytes, List.length_cons, List.length_nil]
  omega

end Contents

/-- A block device: its size in sectors and the bytes of each sector. -/
structure Block where
  size : Nat
  disk : Nat → Contents

variable (b : Block) (sector : Nat)

/-- `check_sector`: whether the sector is one of the device. Where it is not, the code panics. -/
def Block.checkSector : Bool := decide (sector < b.size)

/-- `block_read`: the bytes of a sector, or a panic. -/
def Block.read : Option Contents :=
  if b.checkSector sector then some (b.disk sector) else none

/-- `block_write`: the device with the bytes of a sector replaced, or a panic. -/
def Block.write (c : Contents) : Option Block :=
  if b.checkSector sector then some { b with disk := fun x => if x = sector then c else b.disk x } else none

/-- What `block_read` returns is the sector of the device. -/
theorem Block.read_eq_some {b : Block} {sector : Nat} {c : Contents} (h : b.read sector = some c) :
    sector < b.size ∧ c = b.disk sector := by
  unfold Block.read Block.checkSector at h
  split at h
  · rename_i hs
    exact ⟨of_decide_eq_true hs, (Option.some.inj h).symm⟩
  · cases h

/-- What `block_write` changes is the one sector. -/
theorem Block.write_eq_some {b b' : Block} {sector : Nat} {c : Contents} (h : b.write sector c = some b') :
    sector < b.size ∧ b' = { b with disk := fun x => if x = sector then c else b.disk x } := by
  unfold Block.write Block.checkSector at h
  split at h
  · rename_i hs
    exact ⟨of_decide_eq_true hs, (Option.some.inj h).symm⟩
  · cases h

end Pintos
