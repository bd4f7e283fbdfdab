import Pintos.Lib.Bitmap
import Pintos.Library.Loop

/-!
# What the operations on bitmaps do to the bits

From the outside a bitmap is a row of bits. Each operation is described by what it does to them, as long as the number of
bits, rounded up, is a `size_t`. The bits behind the last one are the padding of the last element: `bitmap_read` clears them.
-/

namespace Pintos

open Bytes Packed List

variable {k n : Nat} {file : List UInt8}

namespace Bitmap

variable {b b' : Bitmap}

/-- Bit number `k`, the padding included. -/
def bit (b : Bitmap) (k : Nat) : Bool := Packed.bit b.bits k

/-- The number of bits, rounded up, is a `size_t`. -/
def Fits (b : Bitmap) : Prop := b.bitCnt + 31 < 2 ^ 32

theorem Fits.of_bitCnt (h : b.Fits) (hcnt : b'.bitCnt = b.bitCnt) : b'.Fits := by
  unfold Fits
  rw [hcnt]
  exact h

theorem length_bits (h : b.Fits) : b.bits.length = (b.bitCnt + 31) / 32 := by
  rw [b.sized, elemCnt, sizeT, elemBits, show b.bitCnt + 32 - 1 = b.bitCnt + 31 by omega, Nat.mod_eq_of_lt h]

theorem elemIdx_lt (h : b.Fits) (hk : k < b.bitCnt) : elemIdx k < b.bits.length := by
  rw [length_bits h, elemIdx, elemBits]
  omega

/-- Bitmaps of as many bits, with the same bits, are the same. -/
theorem ext_bit (hcnt : b.bitCnt = b'.bitCnt) (h : ∀ k, b.bit k = b'.bit k) : b = b' := by
  have hbits : b.bits = b'.bits := by
    refine ext ?_ (fun k _ => h k)
    rw [b.sized, b'.sized, hcnt]
  cases b
  cases b'
  cases hcnt
  cases hbits
  rfl

theorem elem_eq {idx : Nat} (h : idx < b.bits.length) : b.elem idx = .ok (b.bits.getD idx 0) := if_pos h

/-! ## Single bits -/

/-- The element of a bit is put back with this bit changed. -/
theorem change_spec (hlt : elemIdx k < b.bits.length) (f : BitVec 32 → BitVec 32) {v : Bool}
    (hf : ∀ x : BitVec 32, x = b.bits.getD (k / 32) 0 → ∀ i < 32, (f x).getLsbD i = if i = k % 32 then v else x.getLsbD i) :
    ∃ b', (do let x ← b.elem (elemIdx k); return b.putElem (elemIdx k) (f x)) = .ok b' ∧ b'.bitCnt = b.bitCnt ∧
      ∀ j, b'.bit j = if j = k then v else b.bit j := by
  refine ⟨b.putElem (elemIdx k) (f (b.bits.getD (elemIdx k) 0)), ?_, rfl, bit_set_change (w := 32) (by decide) hlt (hf _ rfl)⟩
  rw [elem_eq hlt]
  rfl

theorem mark_spec (hlt : elemIdx k < b.bits.length) :
    ∃ b', b.mark k = .ok b' ∧ b'.bitCnt = b.bitCnt ∧ ∀ j, b'.bit j = if j = k then true else b.bit j := by
  refine change_spec hlt (· ||| mask 32 k) (fun x _ i _ => ?_)
  rw [BitVec.getLsbD_or, getLsbD_mask (by decide)]
  by_cases hi : i = k % 32 <;> simp [hi]

theorem reset_spec (hlt : elemIdx k < b.bits.length) :
    ∃ b', b.reset k = .ok b' ∧ b'.bitCnt = b.bitCnt ∧ ∀ j, b'.bit j = if j = k then false else b.bit j := by
  refine change_spec hlt (· &&& ~~~mask 32 k) (fun x _ i hlt => ?_)
  rw [BitVec.getLsbD_and, BitVec.getLsbD_not, getLsbD_mask (by decide), decide_eq_true hlt]
  by_cases hi : i = k % 32 <;> simp [hi]

theorem flip_spec (hlt : elemIdx k < b.bits.length) :
    ∃ b', b.flip k = .ok b' ∧ b'.bitCnt = b.bitCnt ∧ ∀ j, b'.bit j = if j = k then !b.bit k else b.bit j := by
  refine change_spec hlt (· ^^^ mask 32 k) (fun x hx i _ => ?_)
  rw [BitVec.getLsbD_xor, getLsbD_mask (by decide)]
  by_cases hi : i = k % 32
  · rw [if_pos hi, decide_eq_true hi, Bool.xor_true, hi, hx]
    rfl
  · rw [if_neg hi, decide_eq_false hi, Bool.xor_false]

theorem assert_true {p : Bool} (h : p = true) {α : Type} (f : Unit → Except BitmapFault α) :
    (BitmapFault.assert p >>= f) = f () := by
  rw [h]
  rfl

section

variable (h : b.Fits)
include h

theorem set_spec (hk : k < b.bitCnt) (v : Bool) :
    ∃ b', b.set k v = .ok b' ∧ b'.bitCnt = b.bitCnt ∧ ∀ j, b'.bit j = if j = k then v else b.bit j := by
  unfold set
  rw [assert_true (decide_eq_true hk)]
  cases v with
  | true => exact mark_spec (elemIdx_lt h hk)
  | false => exact reset_spec (elemIdx_lt h hk)

theorem test_eq (hk : k < b.bitCnt) : b.test k = .ok (b.bit k) := by
  unfold test
  rw [assert_true (decide_eq_true hk), elem_eq (elemIdx_lt h hk)]
  exact congrArg Except.ok (and_mask_ne_zero (by decide) b.bits k)

/-! ## Groups of bits -/

theorem sizeT_of_le (hn : n ≤ b.bitCnt) : sizeT n = n := by
  unfold Fits at h
  exact Nat.mod_eq_of_lt (by omega)

theorem ne_bitmapError (hn : n ≤ b.bitCnt) : n ≠ bitmapError := by
  unfold Fits at h
  unfold bitmapError
  omega

theorem setMultiple_spec (start cnt : Nat) (hin : start + cnt ≤ b.bitCnt) (v : Bool) :
    ∃ b', b.setMultiple start cnt v = .ok b' ∧ b'.bitCnt = b.bitCnt ∧
      ∀ j, b'.bit j = if start ≤ j ∧ j < start + cnt then v else b.bit j := by
  unfold setMultiple
  rw [assert_true (decide_eq_true (by omega)), assert_true (by rw [sizeT_of_le h hin]; exact decide_eq_true hin)]
  -- the invariant: the bits below the next one have their value
  induction cnt with
  | zero =>
    refine ⟨b, rfl, rfl, fun j => ?_⟩
    rw [if_neg (by omega)]
  | succ cnt ih =>
    obtain ⟨b1, hrun, hcnt, hbits⟩ := ih (by omega)
    obtain ⟨b2, hset, hcnt2, hbits2⟩ := set_spec (k := start + cnt) (h.of_bitCnt hcnt) (by omega) v
    refine ⟨b2, ?_, hcnt2.trans hcnt, fun j => ?_⟩
    · rw [range_succ, foldlM_append]
      refine Loop.bind_eq_ok.mpr ⟨b1, hrun, Loop.foldlM_cons_ok ?_⟩
      rw [sizeT_of_le h (by omega)]
      exact hset
    rw [hbits2, hbits]
    by_cases hj : j = start + cnt
    · rw [if_pos hj, if_pos (by omega)]
    · rw [if_neg hj]
      by_cases hlt : start ≤ j ∧ j < start + cnt
      · rw [if_pos hlt, if_pos (by omega)]
      · rw [if_neg hlt, if_neg (by omega)]

theorem count_eq {start cnt : Nat} (hin : start + cnt ≤ b.bitCnt) (v : Bool) :
    b.count start cnt v = .ok ((range cnt).countP (fun j => b.bit (start + j) == v)) := by
  unfold count
  rw [assert_true (decide_eq_true (by omega)), assert_true (by rw [sizeT_of_le h hin]; exact decide_eq_true hin)]
  refine Loop.foldlM_range (fun i => (range i).countP (fun j => b.bit (start + j) == v)) (fun i hi => ?_)
  have hle : (range i).countP (fun j => b.bit (start + j) == v) ≤ i := countP_le_length.trans_eq length_range
  rw [sizeT_of_le h (by omega), test_eq h (by omega), sizeT_of_le h (by omega), range_succ, countP_append, countP_singleton]
  show (if (b.bit (start + i) == v) = true then _ else _) = _
  split <;> rfl

theorem containsFrom_eq {start : Nat} (v : Bool) (todo i : Nat) (hin : start + (i + todo) ≤ b.bitCnt) :
    b.containsFrom start v todo i = .ok ((range' i todo).any (fun j => b.bit (start + j) == v)) := by
  induction todo generalizing i with
  | zero => rfl
  | succ todo ih =>
    unfold containsFrom
    rw [sizeT_of_le h (by omega), test_eq h (by omega), range'_succ, any_cons]
    show (if (b.bit (start + i) == v) = true then _ else _) = _
    cases hb : b.bit (start + i) == v with
    | true => rfl
    | false =>
      rw [if_neg Bool.false_ne_true, ih (i + 1) (by omega)]
      rfl

/-- Whether a group has a bit of a value. -/
theorem contains_eq {start cnt : Nat} (hin : start + cnt ≤ b.bitCnt) (v : Bool) :
    b.contains start cnt v = .ok ((range cnt).any (fun j => b.bit (start + j) == v)) := by
  unfold contains
  rw [assert_true (decide_eq_true (by omega)), assert_true (by rw [sizeT_of_le h hin]; exact decide_eq_true hin),
    containsFrom_eq h v cnt 0 (by omega), range_eq_range']

end

/-- All bits of a group have a value. -/
def group (b : Bitmap) (cnt : Nat) (v : Bool) (i : Nat) : Bool := (range cnt).all (fun j => b.bit (i + j) == v)

theorem scanFrom_eq (h : b.Fits) {cnt : Nat} (v : Bool) (todo i : Nat) (hin : 0 < todo → i + todo + cnt ≤ b.bitCnt + 1) :
    b.scanFrom cnt v todo i = .ok (((range' i todo).find? (b.group cnt v)).getD bitmapError) := by
  induction todo generalizing i with
  | zero => rfl
  | succ todo ih =>
    unfold scanFrom
    have hgroup : (!(range cnt).any (fun j => b.bit (i + j) == !v)) = b.group cnt v i := by
      rw [not_any_eq_all_not, group]
      refine congrArg (range cnt).all (funext fun j => ?_)
      cases b.bit (i + j) <;> cases v <;> rfl
    rw [contains_eq h (by omega), range'_succ, find?_cons]
    show (if (!(range cnt).any (fun j => b.bit (i + j) == !v)) = true then _ else _) = _
    rw [hgroup]
    cases b.group cnt v i with
    | true => rfl
    | false =>
      exact ih (i + 1) (by omega)

/-! ## The first group of bits of a value -/

section

variable (n : Nat) (f : Nat → Bool) (start cnt : Nat) (v : Bool)

/-- The places of a row of `n` bits, from one on, at which a group of bits of a value begins. -/
def groups : Set Nat := {i | start ≤ i ∧ i + cnt ≤ n ∧ ∀ j < cnt, f (i + j) = v}

/-- The first of them. -/
def firstGroup : Option Nat := (range' start (n + 1 - cnt - start)).find? (fun i => (range cnt).all (fun j => f (i + j) == v))

variable {n f start cnt v}

theorem all_group {i : Nat} : ((range cnt).all (fun j => f (i + j) == v)) = true ↔ ∀ j < cnt, f (i + j) = v := by
  simp

theorem firstGroup_some {i : Nat} (h : firstGroup n f start cnt v = some i) : IsLeast (groups n f start cnt v) i := by
  obtain ⟨hall, hmem, hfirst⟩ := find?_range'_eq_some.mp h
  rw [mem_range'_1] at hmem
  refine ⟨⟨hmem.1, by omega, all_group.mp hall⟩, fun i' ⟨hs, _, hi'⟩ => Nat.not_lt.mp (fun hlt => ?_)⟩
  have hnot := hfirst i' hs hlt
  rw [all_group.mpr hi'] at hnot
  cases hnot

theorem firstGroup_none (h : firstGroup n f start cnt v = none) : groups n f start cnt v = ∅ := by
  refine Set.eq_empty_of_forall_notMem (fun i ⟨hs, hn, hi⟩ => ?_)
  have hnot := find?_range'_eq_none.mp h i hs (by omega)
  rw [all_group.mpr hi] at hnot
  cases hnot

end

/-- The scan finds the first group of bits of a value. -/
theorem scan_eq (h : b.Fits) {start : Nat} (hs : start ≤ b.bitCnt) (cnt : Nat) (v : Bool) :
    b.scan start cnt v = .ok ((firstGroup b.bitCnt b.bit start cnt v).getD bitmapError) := by
  unfold scan
  rw [assert_true (decide_eq_true hs)]
  by_cases hle : cnt ≤ b.bitCnt
  · rw [if_pos hle, firstGroup, show b.bitCnt + 1 - cnt - start = b.bitCnt - cnt + 1 - start by omega]
    exact scanFrom_eq h v _ start (by omega)
  · rw [if_neg hle, firstGroup, show b.bitCnt + 1 - cnt - start = 0 by omega]
    rfl

/-- The first group of bits of a value is flipped, and nothing else. -/
theorem scanAndFlip_spec (h : b.Fits) {start : Nat} (hs : start ≤ b.bitCnt) (cnt : Nat) (v : Bool) :
    ∃ b', b.scanAndFlip start cnt v = .ok ((firstGroup b.bitCnt b.bit start cnt v).getD bitmapError, b') ∧ b'.bitCnt = b.bitCnt ∧
      ∀ j, b'.bit j = (firstGroup b.bitCnt b.bit start cnt v).elim (b.bit j)
      (fun i => if i ≤ j ∧ j < i + cnt then !v else b.bit j) := by
  unfold scanAndFlip
  rw [scan_eq h hs]
  cases hfind : firstGroup b.bitCnt b.bit start cnt v with
  | none => exact ⟨b, rfl, rfl, fun _ => rfl⟩
  | some i =>
    have hin := (firstGroup_some hfind).1.2.1
    obtain ⟨b', hset, hcnt, hbits⟩ := setMultiple_spec h i cnt hin (!v)
    refine ⟨b', ?_, hcnt, hbits⟩
    show (if i ≠ bitmapError then (do return (i, ← b.setMultiple i cnt !v)) else _) = _
    rw [if_pos (ne_bitmapError h (by omega)), hset]
    rfl

/-- One clear bit is found and set: the first one, if there is one. -/
theorem scanAndFlip_one (h : b.Fits) :
    (∃ x b', b.scanAndFlip 0 1 false = .ok (x, b') ∧ x ≠ bitmapError ∧ x < b.bitCnt ∧ b.bit x = false ∧
      (∀ y < x, b.bit y = true) ∧ b'.bitCnt = b.bitCnt ∧ ∀ j, b'.bit j = if j = x then true else b.bit j) ∨
    (b.scanAndFlip 0 1 false = .ok (bitmapError, b) ∧ ∀ x < b.bitCnt, b.bit x = true) := by
  have hgroup : ∀ x < b.bitCnt, b.bit x = false → x ∈ groups b.bitCnt b.bit 0 1 false := by
    intro x hx hb
    refine ⟨Nat.zero_le x, hx, fun j hj => ?_⟩
    rw [show j = 0 by omega]
    exact hb
  obtain ⟨b', hrun, hcnt, hbits⟩ := scanAndFlip_spec h (Nat.zero_le _) 1 false
  cases hfind : firstGroup b.bitCnt b.bit 0 1 false with
  | none =>
    rw [hfind] at hrun hbits
    refine .inr ⟨by rw [hrun, ext_bit hcnt hbits]; rfl, fun x hx => ?_⟩
    refine Bool.eq_true_of_not_eq_false (fun hb => ?_)
    exact Set.notMem_empty x (firstGroup_none hfind ▸ hgroup x hx hb)
  | some x =>
    rw [hfind] at hrun hbits
    obtain ⟨⟨-, hlt, hx⟩, hleast⟩ := firstGroup_some hfind
    refine .inl ⟨x, b', hrun, ne_bitmapError h (by omega), hlt, hx 0 Nat.one_pos, fun y hy => ?_, hcnt, fun j => ?_⟩
    · refine Bool.eq_true_of_not_eq_false (fun hb => ?_)
      exact Nat.not_le.mpr hy (hleast (hgroup y (by omega) hb))
    · have hj : x ≤ j ∧ j < x + 1 ↔ j = x := by omega
      simp only [hbits, Option.elim_some, Bool.not_false, hj]

/-! ## New bitmaps -/

/-- A new bitmap has all bits clear. There is none if the number of bits, rounded up, is no `size_t`. -/
theorem create_spec (hn : n < 2 ^ 32) {room : Bool} {elems : Option (Nat → BitVec 32)} (h : create n room elems = .ok (some b)) :
    b.bitCnt = n ∧ b.Fits ∧ ∀ k < n, b.bit k = false := by
  unfold create at h
  cases room with
  | false => cases h
  | true =>
    by_cases hbytes : byteCnt n = 0
    · rw [if_pos hbytes] at h
      by_cases hzero : n = 0
      · rw [if_pos hzero] at h
        cases Except.ok.inj h
        exact ⟨hzero.symm, by unfold Fits; decide, fun k hk => by omega⟩
      · rw [if_neg hzero] at h
        cases h
    · rw [if_neg hbytes] at h
      have hfits : n + 31 < 2 ^ 32 := by
        unfold byteCnt elemCnt sizeT elemBits at hbytes
        omega
      cases elems with
      | none =>
        have hzero : n ≠ 0 := by
          rintro rfl
          exact hbytes rfl
        simp only [if_neg hzero] at h
        cases h
      | some elems =>
        obtain ⟨b1, hset, hcnt, hbits⟩ := setMultiple_spec (b := ⟨n, (range (elemCnt n)).map elems, by simp⟩) hfits 0 n
          (by show 0 + n ≤ n; omega) false
        have hrun : setAll ⟨n, (range (elemCnt n)).map elems, by simp⟩ false = .ok b1 := hset
        simp only [hrun, bind, Except.bind, pure, Except.pure] at h
        cases Except.ok.inj h
        refine ⟨hcnt, by unfold Fits; rw [hcnt]; exact hfits, fun k hk => ?_⟩
        rw [hbits, if_pos (by omega)]

/-! ## Files -/

/-- Bit number `k` of the bytes of a file. -/
def fileBit (file : List UInt8) (k : Nat) : Bool := (file.getD (k / 8) 0).toNat.testBit (k % 8)

theorem length_bytes (b : Bitmap) : (Packed.bytes b.bits).length = byteCnt b.bitCnt := by
  rw [Packed.length_bytes, b.sized]
  rfl

theorem getLsbD_lastMask {i : Nat} (hi : i < 32) :
    b.lastMask.getLsbD i = (decide (b.bitCnt % 32 = 0) || decide (i < b.bitCnt % 32)) := by
  have hones : ∀ l < 32, ∀ i < 32, ((1#32 <<< l) - 1#32).getLsbD i = decide (i < l) := by decide +kernel
  have hall : ∀ i < 32, (-1#32).getLsbD i = true := by decide
  have hmask : b.lastMask = if b.bitCnt % 32 ≠ 0 then (1#32 <<< (b.bitCnt % 32)) - 1#32 else -1#32 := rfl
  rw [hmask]
  by_cases hl : b.bitCnt % 32 = 0
  · rw [if_neg (fun h => h hl), hall i hi, decide_eq_true hl, Bool.true_or]
  · rw [if_pos hl, hones _ (Nat.mod_lt _ (by decide)) i hi, decide_eq_false hl, Bool.false_or]

/-- A file of the right length is read: the bits are those of the file, and the padding is clear. -/
theorem read_spec (h : b.Fits) (hpos : 0 < b.bitCnt) (hfile : file.length = byteCnt b.bitCnt) :
    ∃ b', b.read file = .ok (true, b') ∧ b'.bitCnt = b.bitCnt ∧ ∀ k, b'.bit k = (decide (k < b.bitCnt) && fileBit file k) := by
  have hcnt : elemCnt b.bitCnt = (b.bitCnt + 31) / 32 := by rw [← b.sized, length_bits h]
  obtain ⟨n, hn⟩ : ∃ n, (b.bitCnt + 31) / 32 = n + 1 := ⟨(b.bitCnt - 1) / 32, by omega⟩
  have htake : readAtStart file (byteCnt b.bitCnt) = file := take_of_length_le (Nat.le_of_eq hfile)
  have hlast : sizeT (elemCnt b.bitCnt + 2 ^ 32 - 1) = n := by
    unfold Fits at h
    rw [hcnt, sizeT]
    omega
  obtain ⟨m, hm⟩ : ∃ m, splice (fun j => (bytes b.bits).getD j 0) 0 file = m := ⟨_, rfl⟩
  -- the bits as they stand after the bytes have been read
  have hbits : ∀ k < 32 * (n + 1), Packed.bit (Packed.ofMemory m (elemCnt b.bitCnt)) k = fileBit file k := by
    intro k hk
    have hj : k / 8 < file.length := by
      rw [hfile, byteCnt, hcnt]
      omega
    have hbyte : m (0 + k / 8) = file.getD (k / 8) 0 := by
      rw [← hm]
      exact splice_inside _ 0 file _ hj
    rw [Packed.bit_ofMemory _ (by rw [hcnt, hn]; exact hk), fileBit, ← hbyte, Nat.zero_add]
  have hlen : n < (ofMemory m (elemCnt b.bitCnt)).length := by
    rw [length_ofMemory, hcnt, hn]
    exact Nat.lt_succ_self n
  unfold read
  rw [if_pos hpos]
  simp only [htake, hlast, hm]
  rw [elem_eq (by exact hlen)]
  obtain ⟨b1, hb1⟩ : ∃ b1 : Bitmap, b1 = ⟨b.bitCnt, ofMemory m (elemCnt b.bitCnt), length_ofMemory _ _⟩ := ⟨_, rfl⟩
  rw [← hb1]
  refine ⟨b1.putElem n (b1.bits.getD n 0 &&& b1.lastMask), ?_, by rw [hb1]; rfl, fun k => ?_⟩
  · show Except.ok (file.length == byteCnt b.bitCnt, _) = _
    rw [beq_iff_eq.mpr hfile]
  subst hb1
  show Packed.bit (List.set _ n _) k = _
  rw [bit_set hlen, BitVec.getLsbD_and, getLsbD_lastMask (Nat.mod_lt k (by decide))]
  by_cases hk : k < 32 * (n + 1)
  · by_cases hkn : k / 32 = n
    · -- the last element, of which only the bits before the end are kept
      have hword : ((ofMemory m (elemCnt b.bitCnt)).getD n 0).getLsbD (k % 32) = fileBit file k := by
        rw [← hkn]
        exact hbits k hk
      have hkeep : (b.bitCnt % 32 = 0 ∨ k % 32 < b.bitCnt % 32) ↔ k < b.bitCnt := by omega
      rw [if_pos hkn, hword, Bool.and_comm, ← Bool.decide_or, decide_eq_decide.mpr hkeep]
    · rw [if_neg hkn, hbits k hk, decide_eq_true (by omega), Bool.true_and]
  · rw [if_neg (by omega), decide_eq_false (by omega), Bool.false_and, Packed.bit, getD_eq_getElem?_getD,
      getElem?_eq_none (by rw [length_ofMemory, hcnt]; omega)]
    exact BitVec.getLsbD_zero

/-- The bits of a bitmap are those of its bytes. -/
theorem fileBit_bytes (b : Bitmap) (k : Nat) : fileBit (Packed.bytes b.bits) k = b.bit k := testBit_bytes b.bits k

/-- A file of the right length is written: it is then the bytes of the bitmap. -/
theorem write_eq (hfile : file.length = byteCnt b.bitCnt) : b.write file = (true, bytes b.bits) := by
  have hwrite : writeAtStart file (bytes b.bits) (byteCnt b.bitCnt) = (byteCnt b.bitCnt, bytes b.bits) := by
    unfold writeAtStart
    simp only [hfile, Nat.min_self]
    rw [drop_of_length_le (Nat.le_of_eq hfile), append_nil, take_of_length_le (Nat.le_of_eq b.length_bytes)]
  unfold write
  simp [hwrite]

end Bitmap

end Pintos
