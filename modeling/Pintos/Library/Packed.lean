import Pintos.Library.Bytes

/-!
# Bits packed in words

A list of words of one width holds a row of bits, the first in the lowest bit of the first word. Words of 32 bits have a
place in memory, four bytes each, least significant byte first; bit `k` of the row is then bit `k % 8` of byte `k / 8`.
-/

namespace Packed

open BitVec

variable {w : Nat}

/-- Bit number `k` of a row. -/
def bit (ws : List (BitVec w)) (k : Nat) : Bool := (ws.getD (k / w) 0).getLsbD (k % w)

/-- The word in which only one bit is set. -/
def mask (w k : Nat) : BitVec w := 1#w <<< (k % w)

theorem getLsbD_mask (hw : 0 < w) (k i : Nat) : (mask w k).getLsbD i = decide (i = k % w) := by
  have hk := Nat.mod_lt k hw
  rw [mask, getLsbD_shiftLeft, getLsbD_one]
  by_cases hi : i = k % w
  · subst hi
    simp [hk, hw]
  · simp only [decide_eq_false hi, Bool.and_eq_false_iff, Bool.not_eq_false', decide_eq_false_iff_not, decide_eq_true_eq]
    omega

/-- A word is replaced. -/
theorem bit_set {ws : List (BitVec w)} {n : Nat} (hn : n < ws.length) (x : BitVec w) (k : Nat) :
    bit (ws.set n x) k = if k / w = n then x.getLsbD (k % w) else bit ws k := by
  unfold bit
  rw [List.getD_eq_getElem?_getD, List.getElem?_set, if_pos hn]
  split
  · rename_i h
    rw [if_pos h.symm]
    rfl
  · rename_i h
    rw [if_neg (fun he => h he.symm), List.getD_eq_getElem?_getD]

/-- Two bits of one word and place are the same. -/
theorem div_mod_inj {j k : Nat} : j / w = k / w ∧ j % w = k % w ↔ j = k := by
  refine ⟨fun ⟨h1, h2⟩ => ?_, fun h => by rw [h]; exact ⟨rfl, rfl⟩⟩
  rw [← Nat.div_add_mod j w, ← Nat.div_add_mod k w, h1, h2]

/-- A word is put back with one bit changed. -/
theorem bit_set_change (hw : 0 < w) {ws : List (BitVec w)} {k : Nat} (hk : k / w < ws.length) {x : BitVec w} {v : Bool}
    (hx : ∀ i < w, x.getLsbD i = if i = k % w then v else (ws.getD (k / w) 0).getLsbD i) (j : Nat) :
    bit (ws.set (k / w) x) j = if j = k then v else bit ws j := by
  rw [bit_set hk, hx _ (Nat.mod_lt j hw)]
  by_cases hd : j / w = k / w
  · have hmod : j % w = k % w ↔ j = k := ⟨fun hm => div_mod_inj.mp ⟨hd, hm⟩, fun he => by rw [he]⟩
    simp only [hmod, ← hd]
    rfl
  · rw [if_neg hd, if_neg (fun h => hd (by rw [h]))]

/-- A bit is tested with its mask. -/
theorem and_mask_ne_zero (hw : 0 < w) (ws : List (BitVec w)) (k : Nat) : (ws.getD (k / w) 0 &&& mask w k != 0#w) = bit ws k := by
  cases hb : bit ws k with
  | true =>
    rw [bne_iff_ne]
    intro h
    have := congrArg (fun x : BitVec w => x.getLsbD (k % w)) h
    simp only [getLsbD_and, getLsbD_mask hw, decide_true, Bool.and_true, getLsbD_zero] at this
    rw [show (ws.getD (k / w) 0).getLsbD (k % w) = true from hb] at this
    exact Bool.false_ne_true this.symm
  | false =>
    rw [bne_eq_false_iff_eq]
    refine eq_of_getLsbD_eq (fun i _ => ?_)
    rw [getLsbD_and, getLsbD_mask hw, getLsbD_zero]
    by_cases hi : i = k % w
    · rw [hi, show (ws.getD (k / w) 0).getLsbD (k % w) = false from hb, Bool.false_and]
    · rw [decide_eq_false hi, Bool.and_false]

/-- Rows of as many words that have the same bits are the same. -/
theorem ext {ws vs : List (BitVec w)} (hlen : ws.length = vs.length)
    (h : ∀ k < w * ws.length, bit ws k = bit vs k) : ws = vs := by
  refine List.ext_getElem hlen (fun n h1 h2 => eq_of_getLsbD_eq (fun i hi => ?_))
  have hk : w * n + i < w * ws.length := by
    calc w * n + i < w * n + w := by omega
      _ = w * (n + 1) := (Nat.mul_succ w n).symm
      _ ≤ w * ws.length := Nat.mul_le_mul_left w h1
  have hdiv : (w * n + i) / w = n := by
    rw [Nat.mul_add_div (by omega), Nat.div_eq_of_lt hi, Nat.add_zero]
  have hbit := h _ hk
  unfold bit at hbit
  rw [hdiv, Nat.mul_add_mod, Nat.mod_eq_of_lt hi] at hbit
  simpa [List.getD_eq_getElem?_getD, h1, h2] using hbit

/-! ## In memory -/

open Bytes

variable (ws : List (BitVec 32)) (m : Memory) (k n : Nat)

/-- The bytes of the words. -/
def bytes : List UInt8 := ws.flatMap (fun x => wordBytes x.toNat)

/-- The first `n` words that a memory holds. -/
def ofMemory : List (BitVec 32) := (List.range n).map (fun k => BitVec.ofNat 32 (word m k))

theorem length_wordBytes (x : BitVec 32) : (wordBytes x.toNat).length = 4 := rfl

@[simp] theorem length_bytes : (bytes ws).length = 4 * ws.length := flatMap_length length_wordBytes ws

@[simp] theorem length_ofMemory : (ofMemory m n).length = n := by
  simp [ofMemory]

/-- A bit of a word, in the byte it is in. -/
theorem testBit_word (q : Nat) {r : Nat} (hr : r < 32) : (word m q).testBit r = (m (4 * q + r / 8)).toNat.testBit (r % 8) := by
  have hlt : ∀ j, (m j).toNat < 2 ^ 8 := fun j => (m j).toNat_lt
  have hword : word m q = 2 ^ 8 * (2 ^ 8 * (2 ^ 8 * (m (4 * q + 3)).toNat + (m (4 * q + 2)).toNat) + (m (4 * q + 1)).toNat) +
      (m (4 * q)).toNat := by
    unfold word
    omega
  rw [hword, Nat.testBit_two_pow_mul_add _ (hlt _)]
  split
  · rw [show r / 8 = 0 by omega, show r % 8 = r by omega, Nat.add_zero]
  rw [Nat.testBit_two_pow_mul_add _ (hlt _)]
  split
  · rw [show r / 8 = 1 by omega, show r % 8 = r - 8 by omega]
  rw [Nat.testBit_two_pow_mul_add _ (hlt _)]
  split
  · rw [show r / 8 = 2 by omega, show r % 8 = r - 8 - 8 by omega]
  · rw [show r / 8 = 3 by omega, show r % 8 = r - 8 - 8 - 8 by omega]

/-- A bit of a byte of a word. -/
theorem testBit_wordBytes (v : Nat) {i s : Nat} (hi : i < 4) (hs : s < 8) :
    ((wordBytes v).getD i 0).toNat.testBit s = v.testBit (8 * i + s) := by
  have hbyte : ((wordBytes v).getD i 0).toNat = v / 2 ^ (8 * i) % 2 ^ 8 := by
    have h4 : i = 0 ∨ i = 1 ∨ i = 2 ∨ i = 3 := by omega
    rcases h4 with rfl | rfl | rfl | rfl <;> simp [wordBytes]
  rw [hbyte, Nat.testBit_mod_two_pow, decide_eq_true hs, Bool.true_and, Nat.testBit_div_two_pow, Nat.add_comm]

/-- The bits of words read from memory are those of the bytes. -/
theorem bit_ofMemory {n k : Nat} (hk : k < 32 * n) : bit (ofMemory m n) k = (m (k / 8)).toNat.testBit (k % 8) := by
  have hq : k / 32 < n := by omega
  have hword : (ofMemory m n).getD (k / 32) 0 = BitVec.ofNat 32 (word m (k / 32)) := by
    simp [ofMemory, List.getD_eq_getElem?_getD, hq]
  rw [bit, hword, BitVec.getLsbD_ofNat, decide_eq_true (Nat.mod_lt k (by decide)), Bool.true_and,
    testBit_word m _ (Nat.mod_lt k (by decide))]
  rw [show 4 * (k / 32) + k % 32 / 8 = k / 8 by omega, show k % 32 % 8 = k % 8 by omega]

/-- The bits of the words are those of their bytes. -/
theorem testBit_bytes : ((bytes ws).getD (k / 8) 0).toNat.testBit (k % 8) = bit ws k := by
  have hindex : k / 8 = 4 * (k / 32) + k / 8 % 4 := by omega
  have hword : ws.getD (k / 32) 0 = (ws[k / 32]?).getD 0 := List.getD_eq_getElem?_getD
  rw [hindex, bytes, flatMap_getD length_wordBytes ws _ _ (Nat.mod_lt _ (by decide)), bit, hword]
  cases ws[k / 32]? with
  | none => simp
  | some x =>
    rw [Option.elim_some, Option.getD_some, testBit_wordBytes _ (Nat.mod_lt _ (by decide)) (Nat.mod_lt _ (by decide)),
      testBit_toNat]
    congr 1
    omega

end Packed
