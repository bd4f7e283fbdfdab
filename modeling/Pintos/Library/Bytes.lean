import Mathlib.Data.List.Basic
import Mathlib.Data.List.GetD
import Mathlib.Tactic.Linarith

/-!
# Byte memories

A stretch of memory is a function from addresses to bytes. `slice` copies bytes out and `splice` copies bytes in, the two
uses of `memcpy`; a 32-bit word is four bytes, least significant first.
-/

namespace Bytes

open List

/-- A stretch of memory: the byte at each offset. -/
abbrev Memory : Type := Nat → UInt8

/-- The `len` bytes from offset `ofs` on. -/
def slice (m : Memory) (ofs len : Nat) : List UInt8 := (range len).map (fun j => m (ofs + j))

/-- The memory with the bytes `bs` copied to offset `ofs`. -/
def splice (m : Memory) (ofs : Nat) (bs : List UInt8) : Memory :=
  fun k => if ofs ≤ k then bs.getD (k - ofs) (m k) else m k

@[simp] theorem slice_length (m : Memory) (ofs len : Nat) : (slice m ofs len).length = len := by
  simp [slice]

/-- The bytes copied out are those of the memory. -/
theorem slice_getElem? (m : Memory) (ofs len j : Nat) (h : j < len) : (slice m ofs len)[j]? = some (m (ofs + j)) := by
  simp [slice, h]

theorem slice_getD (m : Memory) (ofs len j : Nat) (d : UInt8) (h : j < len) : (slice m ofs len).getD j d = m (ofs + j) := by
  rw [getD_eq_getElem?_getD, slice_getElem? m ofs len j h, Option.getD_some]

section

variable (m : Memory) (ofs : Nat) (bs : List UInt8)
include m ofs bs

/-- A byte inside the range copied to is the byte copied. -/
theorem splice_inside (j : Nat) (h : j < bs.length) : splice m ofs bs (ofs + j) = bs.getD j 0 := by
  simp [splice, getD_eq_getElem?_getD, getElem?_eq_getElem h]

/-- A byte outside the range copied to is unchanged. -/
theorem splice_outside (k : Nat) (h : k < ofs ∨ ofs + bs.length ≤ k) : splice m ofs bs k = m k := by
  unfold splice
  split
  · rw [getD_eq_getElem?_getD, getElem?_eq_none (by omega), Option.getD_none]
  · rfl

/-- What was copied in is copied out. -/
theorem slice_splice_self : slice (splice m ofs bs) ofs bs.length = bs := by
  refine ext_getElem (by simp) (fun j h1 h2 => ?_)
  simp only [slice, getElem_map, getElem_range]
  rw [splice_inside m ofs bs j h2, getD_eq_getElem?_getD, getElem?_eq_getElem h2, Option.getD_some]

end

/-- The bytes copied out depend on the bytes of the range only. -/
theorem slice_congr {m m' : Memory} {ofs len : Nat} (h : ∀ k, ofs ≤ k → k < ofs + len → m k = m' k) :
    slice m ofs len = slice m' ofs len := by
  refine map_congr_left (fun j hj => h _ (by omega) ?_)
  have := mem_range.mp hj
  omega

/-- A range is its first part and the rest. -/
theorem slice_add (m : Memory) (ofs n k : Nat) : slice m ofs (n + k) = slice m ofs n ++ slice m (ofs + n) k := by
  simp only [slice, range_add, map_append, map_map]
  congr 1
  refine map_congr_left (fun j _ => ?_)
  simp [Nat.add_assoc]

/-- A range inside a range. -/
theorem slice_inside (m : Memory) (ofs len a n : Nat) (h : a + n ≤ len) :
    slice m (ofs + a) n = ((slice m ofs len).drop a).take n := by
  obtain ⟨r, rfl⟩ := Nat.exists_eq_add_of_le h
  rw [slice_add, slice_add, append_assoc, drop_left' (slice_length m ofs a), take_left' (slice_length m (ofs + a) n)]

/-! ## Records of one length -/

/-- The bytes of records that are all `n` long. -/
theorem flatMap_length {α : Type} {f : α → List UInt8} {n : Nat} (hf : ∀ a, (f a).length = n) (l : List α) :
    (l.flatMap f).length = n * l.length := by
  induction l with
  | nil => rfl
  | cons a l ih => rw [flatMap_cons, length_append, hf, ih, length_cons, Nat.mul_add, Nat.mul_one, Nat.add_comm]

/-- Byte `j` of record `i` in the bytes of records that are all `n` long. -/
theorem flatMap_getD {α : Type} {f : α → List UInt8} {n : Nat} (hf : ∀ a, (f a).length = n) (l : List α) (i j : Nat)
    (hj : j < n) : (l.flatMap f).getD (n * i + j) 0 = ((l[i]?).elim [] f).getD j 0 := by
  induction l generalizing i with
  | nil => simp
  | cons a l ih =>
    rw [flatMap_cons]
    cases i with
    | zero =>
      rw [Nat.mul_zero, Nat.zero_add, getD_append _ _ _ _ (by rw [hf]; exact hj)]
      rfl
    | succ i =>
      have hi : n * (i + 1) + j - (f a).length = n * i + j := by
        rw [hf, Nat.mul_add]
        omega
      rw [getD_append_right _ _ _ _ (by rw [hf, Nat.mul_add]; omega), hi, ih i]
      simp

/-! ## Words -/

/-- The four bytes of a word, least significant first. -/
def wordBytes (v : Nat) : List UInt8 :=
  [UInt8.ofNat v, UInt8.ofNat (v / 256), UInt8.ofNat (v / 65536), UInt8.ofNat (v / 16777216)]

/-- Word number `k` of a memory of words. -/
def word (m : Memory) (k : Nat) : Nat :=
  (m (4 * k)).toNat + 256 * (m (4 * k + 1)).toNat + 65536 * (m (4 * k + 2)).toNat + 16777216 * (m (4 * k + 3)).toNat

/-- The memory with word number `k` replaced. -/
def setWord (m : Memory) (k v : Nat) : Memory := splice m (4 * k) (wordBytes v)

theorem word_lt (m : Memory) (k : Nat) : word m k < 2 ^ 32 := by
  have h0 := (m (4 * k)).toNat_lt
  have h1 := (m (4 * k + 1)).toNat_lt
  have h2 := (m (4 * k + 2)).toNat_lt
  have h3 := (m (4 * k + 3)).toNat_lt
  unfold word
  omega

/-- A word reads back as it was stored, up to its 32 bits. -/
theorem word_setWord_self (m : Memory) (k v : Nat) : word (setWord m k v) k = v % 2 ^ 32 := by
  have hb : ∀ j, j < 4 → setWord m k v (4 * k + j) = (wordBytes v).getD j 0 := fun j hj => splice_inside m (4 * k) _ j hj
  have h0 := hb 0 (by omega)
  have h1 := hb 1 (by omega)
  have h2 := hb 2 (by omega)
  have h3 := hb 3 (by omega)
  simp only [wordBytes, getD_cons_zero, getD_cons_succ, Nat.add_zero] at h0 h1 h2 h3
  simp only [word, h0, h1, h2, h3, UInt8.toNat_ofNat']
  omega

/-- A word depends on its four bytes only. -/
theorem word_congr {m m' : Memory} {k : Nat} (h : ∀ j, 4 * k ≤ j → j < 4 * k + 4 → m j = m' j) : word m k = word m' k := by
  simp only [word, h (4 * k) (by omega) (by omega), h (4 * k + 1) (by omega) (by omega),
    h (4 * k + 2) (by omega) (by omega), h (4 * k + 3) (by omega) (by omega)]

/-- The word at an address, which need not be a multiple of four. -/
def wordAt (m : Memory) (a : Nat) : Nat := word (fun j => m (a + j)) 0

/-- A word depends on its four bytes only, and reads back as it was stored. -/
theorem wordAt_of_slice {m : Memory} {a v : Nat} (h : slice m a 4 = wordBytes v) : wordAt m a = v % 2 ^ 32 := by
  have hm : wordAt m a = word (setWord (fun _ => 0) 0 v) 0 := by
    refine word_congr (fun j _ hj => ?_)
    have hj4 : j < 4 := by omega
    have hs : setWord (fun _ => 0) 0 v (0 + j) = (wordBytes v).getD j 0 := splice_inside (fun _ => 0) 0 (wordBytes v) j hj4
    rw [Nat.zero_add] at hs
    rw [hs, ← h, slice_getD m a 4 j 0 hj4]
  rw [hm, word_setWord_self]

end Bytes
