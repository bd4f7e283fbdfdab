import Mathlib
import Pintos.Lib.Arithmetic

/-!
# Division is exact, remainders are cut to 32 bits

A divisor of more than 32 bits is divided by through its leading 32 bits: the estimate is exact or one too large, and the
last line corrects it. The remainders are computed from the exact quotient in 64 bits and returned in 32, so they are right
where they fit.
-/

namespace Pintos

open BitVec

/-! ## The estimate -/

/-- Dividing by `d` with its last `p + 1` bits cleared overestimates the quotient by one at most, if `32` bits are left. -/
theorem div_cleared_le {n d p : Nat} (hn : n < 2 ^ 64) (hp : p < 32) (hv : 2 ^ 31 ≤ d / 2 ^ (p + 1)) :
    n / d ≤ n / (d / 2 ^ (p + 1) * 2 ^ (p + 1)) ∧ n / (d / 2 ^ (p + 1) * 2 ^ (p + 1)) ≤ n / d + 1 := by
  have hpow : 2 ^ (p + 1) = 2 * 2 ^ p := by ring
  have h32 : 2 ^ 32 = 2 ^ (32 - p) * 2 ^ p := by rw [← Nat.pow_add, Nat.sub_add_cancel hp.le]
  have hmod : d % 2 ^ (p + 1) < 2 ^ (p + 1) := Nat.mod_lt _ (Nat.two_pow_pos _)
  have hd : d / 2 ^ (p + 1) * 2 ^ (p + 1) + d % 2 ^ (p + 1) = d := Nat.div_add_mod' d _
  have ht : n < d * (n / d + 1) := Nat.lt_mul_div_succ n (Nat.pos_of_ne_zero (by rintro rfl; simp at hv))
  have htn : d * (n / d) ≤ n := Nat.mul_div_le n d
  generalize d / 2 ^ (p + 1) = v, d % 2 ^ (p + 1) = r, n / d = t at *
  have hm : 0 < v * 2 ^ (p + 1) := Nat.mul_pos (by omega) (Nat.two_pow_pos _)
  refine ⟨?_, Nat.le_of_lt_succ ((Nat.div_lt_iff_lt_mul hm).mpr ?_)⟩
  · exact (Nat.le_div_iff_mul_le hm).mpr (by nlinarith)
  -- the cleared bits weigh at most once the rest of the divisor in `t + 1` times the divisor
  have hgt : 2 ^ p * (t + 1) ≤ 2 ^ 32 := by
    have : 2 ^ 31 * 2 ^ (p + 1) * t < 2 ^ 64 := by nlinarith [Nat.mul_le_mul_right (2 ^ (p + 1) * t) hv]
    have : t < 2 ^ (32 - p) := by
      by_contra hle
      nlinarith [Nat.mul_le_mul_right (2 ^ p) (Nat.le_of_not_lt hle)]
    nlinarith [Nat.mul_le_mul_right (2 ^ p) (Nat.succ_le_of_lt this)]
  have hlow : r * (t + 1) ≤ v * 2 ^ (p + 1) := by
    rcases Nat.eq_zero_or_pos p with rfl | h1
    · nlinarith
    · have : 2 ≤ 2 ^ p := by simpa using Nat.pow_le_pow_right (n := 2) (by omega) h1
      nlinarith
  nlinarith

/-- What a step of `nlz` keeps: `p` holds `x` shifted by the count, and fewer than `w` of its leading bits are zero. -/
def Shifted (x : BitVec 32) (w : Nat) (p : Nat × BitVec 32) : Prop :=
  p.2.toNat = x.toNat * 2 ^ p.1 ∧ 2 ^ (32 - w) ≤ p.2.toNat ∧ p.1 + w ≤ 32

/-- A step halves the number of leading zeros there can be. -/
theorem Shifted.step {x : BitVec 32} {p : Nat × BitVec 32} (most : BitVec 32) (k : Nat) (h : Shifted x (2 * k) p) (hk : k ≤ 16)
    (hm : most.toNat + 1 = 2 ^ (32 - k)) : Shifted x k (nlzStep most k p) := by
  obtain ⟨hx, hlow, hn⟩ := h
  unfold nlzStep
  split <;> rename_i hle <;> rw [le_def] at hle
  · have hlt : p.2.toNat * 2 ^ k < 2 ^ 32 := by
      have := Nat.mul_lt_mul_of_pos_right (show p.2.toNat < 2 ^ (32 - k) by omega) (Nat.two_pow_pos k)
      rwa [← Nat.pow_add, Nat.sub_add_cancel (by omega)] at this
    have hs : (p.2 <<< k).toNat = p.2.toNat * 2 ^ k := by
      rw [toNat_shiftLeft, Nat.shiftLeft_eq, Nat.mod_eq_of_lt hlt]
    refine ⟨by rw [hs, hx, Nat.pow_add, Nat.mul_assoc], ?_, by simp only; omega⟩
    have := Nat.mul_le_mul_right (2 ^ k) hlow
    rwa [← Nat.pow_add, ← hs, show 32 - 2 * k + k = 32 - k by omega] at this
  · exact ⟨hx, by omega, by omega⟩

/-- `nlz` counts the leading zeros of a word that is not zero. -/
theorem nlz_spec {x : BitVec 32} (hx : x.toNat ≠ 0) : nlz x ≤ 31 ∧ 2 ^ 31 ≤ x.toNat * 2 ^ nlz x ∧
    x.toNat * 2 ^ nlz x < 2 ^ 32 := by
  have h : Shifted x (2 * 16) (0, x) := ⟨by simp, Nat.pos_of_ne_zero hx, by simp⟩
  replace h := h.step 0x0000FFFF 16 (by omega) rfl
  replace h := h.step 0x00FFFFFF 8 (by omega) rfl
  replace h := h.step 0x0FFFFFFF 4 (by omega) rfl
  replace h := h.step 0x3FFFFFFF 2 (by omega) rfl
  replace h := h.step 0x7FFFFFFF 1 (by omega) rfl
  -- the last step of the source only counts
  have hn : nlz x = (nlzStep 0x7FFFFFFF 1 (nlzStep 0x3FFFFFFF 2 (nlzStep 0x0FFFFFFF 4
      (nlzStep 0x00FFFFFF 8 (nlzStep 0x0000FFFF 16 (0, x)))))).1 := by
    rw [nlzStep, apply_ite Prod.fst]
    rfl
  obtain ⟨hval, hlow, hlen⟩ := h
  rw [hn, ← hval]
  exact ⟨by omega, hlow, isLt _⟩

/-- `divl` divides where the quotient fits. -/
theorem divl_eq {n : BitVec 64} {d : BitVec 32} (hd : d.toNat ≠ 0) (hq : n.toNat / d.toNat < 2 ^ 32) :
    ∃ q, divl n d = some q ∧ q.toNat = n.toNat / d.toNat := by
  refine ⟨_, if_neg ?_, Nat.mod_eq_of_lt hq⟩
  rintro (rfl | h)
  · exact hd rfl
  · omega

/-- The last line of `udiv64` corrects an estimate that may be one too large. -/
theorem estimate_corrected {n d q : BitVec 64} (hd : 0 < d.toNat) (hn : d.toNat ≤ n.toNat) (hlow : n.toNat / d.toNat ≤ q.toNat)
    (hhigh : q.toNat ≤ n.toNat / d.toNat + 1) : (if n - (q - 1) * d < d then q - 1 else q).toNat = n.toNat / d.toNat := by
  have h1 : 1 ≤ n.toNat / d.toNat := Nat.div_pos hn hd
  have hq : (q - 1).toNat = q.toNat - 1 := by bv_omega
  have hle : (q.toNat - 1) * d.toNat ≤ n.toNat := (Nat.mul_le_mul_right _ (by omega)).trans (Nat.div_mul_le_self _ _)
  have hrest : (n - (q - 1) * d).toNat = n.toNat - (q.toNat - 1) * d.toNat := by
    have hm : ((q - 1) * d).toNat = (q.toNat - 1) * d.toNat := by
      rw [BitVec.toNat_mul, hq, Nat.mod_eq_of_lt (hle.trans_lt n.isLt)]
    rw [BitVec.toNat_sub_of_le (by rw [BitVec.le_def, hm]; exact hle), hm]
  have hdm := Nat.div_add_mod' n.toNat d.toNat
  have hmod := Nat.mod_lt n.toNat hd
  simp only [apply_ite BitVec.toNat, BitVec.lt_def, hrest, hq]
  rcases Nat.le_or_eq_of_le_succ hhigh with hq' | hq'
  · have : q.toNat = n.toNat / d.toNat := by omega
    rw [← this] at hdm
    rw [if_neg (by rw [Nat.sub_mul]; omega), this]
  · rw [hq', Nat.succ_sub_one, if_pos (by omega)]

/-! ## Quotients -/

theorem udiv64_word {n d : BitVec 64} (hd : d.toNat ≠ 0) (hw : d.toNat < 2 ^ 32) :
    ∃ q, udiv64 n d = some q ∧ q.toNat = n.toNat / d.toNat := by
  have hn := n.isLt
  have hd0 : (d.setWidth 32).toNat = d.toNat := by simpa using hw
  have hn1 : ((n >>> 32).setWidth 32).toNat = n.toNat / 2 ^ 32 := by
    simp only [toNat_setWidth, toNat_ushiftRight, Nat.shiftRight_eq_div_pow]
    omega
  have hb : (1#64 <<< 32).toNat = 2 ^ 32 := rfl
  have hmod := Nat.mod_lt (n.toNat / 2 ^ 32) (Nat.pos_of_ne_zero hd)
  have hle := Nat.div_le_self (n.toNat / 2 ^ 32) d.toNat
  have hx : (1#64 <<< 32 * ((n >>> 32).setWidth 32 % d.setWidth 32).setWidth 64 + (n.setWidth 32).setWidth 64).toNat =
      n.toNat / 2 ^ 32 % d.toNat * 2 ^ 32 + n.toNat % 2 ^ 32 := by
    simp only [toNat_add, toNat_mul, toNat_setWidth, toNat_umod, hn1, hd0, hb]
    omega
  obtain ⟨q, hq, hqn⟩ := divl_eq (d := d.setWidth 32) (by omega) (Nat.div_lt_of_lt_mul (by rw [hx, hd0]; omega))
  rw [udiv64, if_pos (by bv_omega)]
  simp only [hq]
  refine ⟨_, rfl, ?_⟩
  have hsum : n.toNat / d.toNat = q.toNat + 2 ^ 32 * (n.toNat / 2 ^ 32 / d.toNat) := by
    have hdm := Nat.div_add_mod (n.toNat / 2 ^ 32) d.toNat
    rw [hqn, hx, hd0, ← Nat.add_mul_div_right _ _ (Nat.pos_of_ne_zero hd)]
    congr 1
    nlinarith [Nat.div_add_mod n.toNat (2 ^ 32)]
  have hnd := Nat.div_le_self n.toNat d.toNat
  simp only [toNat_add, toNat_mul, toNat_setWidth, toNat_udiv, hn1, hd0, hb]
  omega

theorem udiv64_long {n d : BitVec 64} (hw : 2 ^ 32 ≤ d.toNat) : ∃ q, udiv64 n d = some q ∧ q.toNat = n.toNat / d.toNat := by
  have hd1 : ((d >>> 32).setWidth 32).toNat = d.toNat / 2 ^ 32 := by
    have := d.isLt
    simp only [toNat_setWidth, toNat_ushiftRight, Nat.shiftRight_eq_div_pow]
    omega
  rw [udiv64, if_neg (fun h => by rw [h] at hd1; simp at hd1; omega)]
  split
  · rename_i hlt
    exact ⟨0, rfl, (Nat.div_eq_of_lt hlt).symm⟩
  rename_i hle
  obtain ⟨hs, hlow, hhigh⟩ := nlz_spec (x := (d >>> 32).setWidth 32) (by omega)
  rw [hd1] at hlow hhigh
  simp only
  generalize nlz ((d >>> 32).setWidth 32) = s at *
  obtain ⟨p, hp⟩ : ∃ p, p + 1 + s = 32 := ⟨31 - s, by omega⟩
  have h32 : 2 ^ 32 = 2 ^ (p + 1) * 2 ^ s := by rw [← Nat.pow_add, hp]
  have hd1p : d.toNat / 2 ^ 32 < 2 ^ (p + 1) := Nat.lt_of_mul_lt_mul_right (hhigh.trans_eq h32)
  have hshift : d.toNat * 2 ^ s < 2 ^ 64 := by
    have : d.toNat < 2 ^ (p + 1) * 2 ^ 32 := by omega
    nlinarith [Nat.mul_lt_mul_of_pos_right this (Nat.two_pow_pos s)]
  have hv : (((d <<< s) >>> 32).setWidth 32).toNat = d.toNat / 2 ^ (p + 1) := by
    simp only [toNat_setWidth, toNat_ushiftRight, toNat_shiftLeft, Nat.shiftRight_eq_div_pow, Nat.shiftLeft_eq,
      Nat.mod_eq_of_lt hshift]
    rw [Nat.mod_eq_of_lt (by omega), h32, Nat.mul_div_mul_right _ _ (Nat.two_pow_pos s)]
  have hv31 : 2 ^ 31 ≤ d.toNat / 2 ^ (p + 1) := by
    refine (Nat.le_div_iff_mul_le (Nat.two_pow_pos _)).mpr (le_trans ?_ (Nat.div_mul_le_self d.toNat (2 ^ 32)))
    nlinarith [Nat.mul_le_mul_right (2 ^ (p + 1)) hlow]
  have hhalf : (n >>> 1).toNat = n.toNat / 2 := by simp [Nat.shiftRight_eq_div_pow]
  obtain ⟨q, hq, hqn⟩ := divl_eq (n := n >>> 1) (d := ((d <<< s) >>> 32).setWidth 32) (by omega)
    (Nat.div_lt_of_lt_mul (by have := n.isLt; rw [hhalf, hv]; generalize d.toNat / 2 ^ (p + 1) = v at *; omega))
  have hest : ((q >>> (31 - s)).setWidth 64).toNat = n.toNat / (d.toNat / 2 ^ (p + 1) * 2 ^ (p + 1)) := by
    have : q.toNat / 2 ^ p < 2 ^ 64 := (Nat.div_le_self _ _).trans_lt (q.isLt.trans (by decide))
    rw [toNat_setWidth, toNat_ushiftRight, Nat.shiftRight_eq_div_pow, show 31 - s = p by omega, Nat.mod_eq_of_lt this,
      hqn, hhalf, hv, Nat.div_div_eq_div_mul, Nat.div_div_eq_div_mul]
    ring_nf
  obtain ⟨h1, h2⟩ := div_cleared_le n.isLt (show p < 32 by omega) hv31
  rw [hq]
  exact ⟨_, rfl, estimate_corrected (by omega) (Nat.le_of_not_lt hle) (hest ▸ h1) (hest ▸ h2)⟩

theorem udiv64_eq {n d : BitVec 64} (hd : d ≠ 0) : udiv64 n d = some (n / d) := by
  have hd0 : d.toNat ≠ 0 := fun h => hd (eq_of_toNat_eq h)
  obtain ⟨q, hq, hqn⟩ : ∃ q, udiv64 n d = some q ∧ q.toNat = n.toNat / d.toNat := by
    rcases Nat.lt_or_ge d.toNat (2 ^ 32) with hw | hw
    · exact udiv64_word hd0 hw
    · exact udiv64_long hw
  rw [hq, eq_of_toNat_eq (hqn.trans toNat_udiv.symm)]

/-- `sdiv64` divides as the signed division of two's complement words does. -/
theorem sdiv64_eq {n d : BitVec 64} (hd : d ≠ 0) : sdiv64 n d = some (n.sdiv d) := by
  have habs (x : BitVec 64) : abs64 x = if x.msb then -x else x := by
    simp only [abs64, msb_eq_toInt, decide_eq_true_eq, ← Int.not_le, ite_not]
  have hne : abs64 d ≠ 0 := by
    rw [habs]
    split <;> simpa using hd
  rw [sdiv64, udiv64_eq hne, ← msb_eq_toInt, ← msb_eq_toInt, sdiv_eq, habs, habs]
  cases n.msb <;> cases d.msb <;> rfl

/-- The quotients are exact: the divisions come to no trap, the unsigned quotient is rounded down and the signed one toward
zero. -/
theorem quotients_exact :
    (∀ n d : BitVec 64, d ≠ 0 → ∃ q, udiv64 n d = some q ∧ udivdi3 n d = some q ∧ q.toNat = n.toNat / d.toNat) ∧
    ∀ n d : BitVec 64, d ≠ 0 → ¬(n.toInt = -2 ^ 63 ∧ d.toInt = -1) →
      ∃ q, divdi3 n d = some q ∧ q.toInt = n.toInt.tdiv d.toInt := by
  refine ⟨fun n d hd => ⟨_, udiv64_eq hd, udiv64_eq hd, toNat_udiv⟩, fun n d hd hmin => ⟨_, sdiv64_eq hd, ?_⟩⟩
  apply toInt_sdiv_of_ne_or_ne
  by_contra! h
  exact hmin (by rw [h.1, h.2]; decide)

/-- The quotients at the ends of the range. -/
theorem quotients_exact_ends : (∃ q, udiv64 (-1) (2 ^ 32 + 1) = some q ∧ q.toNat = (2 ^ 64 - 1) / (2 ^ 32 + 1)) ∧
    ∃ q, divdi3 (intMin 64) 3 = some q ∧ q.toInt = -3074457345618258602 := by
  obtain ⟨q, h, -, hq⟩ := quotients_exact.1 (-1) (2 ^ 32 + 1) (by decide)
  obtain ⟨q', h', hq'⟩ := quotients_exact.2 (intMin 64) 3 (by decide) (by decide)
  exact ⟨⟨q, h, hq⟩, q', h', hq'⟩

/-! ## Remainders -/

/-- `n` is less than `w` above a multiple of `d`. -/
def AboveMultiple (w n d : Nat) : Prop := ∃ k, k * d ≤ n ∧ n < k * d + w

/-- The last multiple decides. -/
theorem aboveMultiple_iff {w n d : Nat} : AboveMultiple w n d ↔ n % d < w := by
  constructor
  · rintro ⟨k, hle, hlt⟩
    obtain ⟨j, rfl⟩ := Nat.exists_eq_add_of_le hle
    rw [Nat.mul_add_mod_self_right]
    exact (Nat.mod_le j d).trans_lt (by omega)
  · intro h
    have := Nat.div_add_mod' n d
    exact ⟨n / d, Nat.div_mul_le_self n d, by omega⟩

/-- What `smod64` computes before it returns it in 32 bits. -/
theorem sub_mul_sdiv (n d : BitVec 64) : n - d * n.sdiv d = n.srem d := by
  apply eq_of_toInt_eq
  rw [toInt_sub, toInt_mul, toInt_sdiv, ← toInt_bmod_cancel (n.srem d), toInt_srem, Int.tmod_def]
  simp

/-- What `umod64` computes before it returns it in 32 bits. -/
theorem sub_mul_udiv (n d : BitVec 64) : n - d * (n / d) = n % d := by
  have hm : (d * (n / d)).toNat = d.toNat * (n.toNat / d.toNat) := by
    rw [toNat_mul, toNat_udiv, Nat.mod_eq_of_lt ((Nat.mul_div_le _ _).trans_lt n.isLt)]
  apply eq_of_toNat_eq
  rw [toNat_sub_of_le (by rw [le_def, hm]; exact Nat.mul_div_le _ _), hm, toNat_umod, Nat.mod_eq_sub]

/-- A value sign-extended from its low 32 bits is itself exactly if it fits them. -/
theorem signExtend_low_toInt_eq_iff (x : BitVec 64) :
    ((x.setWidth 32).signExtend 64).toInt = x.toInt ↔ x.toInt.natAbs < if x.toInt < 0 then 2 ^ 31 + 1 else 2 ^ 31 := by
  rw [toInt_signExtend_of_le (by omega), toInt_setWidth, toInt_eq_toNat_cond]
  have := x.isLt
  simp only [Int.bmod_def]
  split_ifs <;> omega

/-- The remainders are exact exactly where they fit into 32 bits: where the dividend lies that near above a multiple of the
divisor. -/
theorem remainders_exact_iff (n d : BitVec 64) (hd : d ≠ 0) :
    ((∃ r, umoddi3 n d = some r ∧ r.toNat = n.toNat % d.toNat) ↔ AboveMultiple (2 ^ 32) n.toNat d.toNat) ∧
    (¬(n.toInt = -2 ^ 63 ∧ d.toInt = -1) →
      ((∃ r, moddi3 n d = some r ∧ r.toInt = n.toInt - d.toInt * n.toInt.tdiv d.toInt ∧
          (0 ≤ n.toInt → 0 ≤ r.toInt) ∧ (n.toInt ≤ 0 → r.toInt ≤ 0)) ↔
        AboveMultiple (if n.toInt < 0 then 2 ^ 31 + 1 else 2 ^ 31) n.toInt.natAbs d.toInt.natAbs)) := by
  simp only [umoddi3, moddi3, umod64, smod64, udiv64_eq hd, sdiv64_eq hd, Option.bind_eq_bind, Option.bind_some, Option.pure_def,
    Option.map_some, Option.some.injEq, exists_eq_left', sub_mul_udiv, sub_mul_sdiv, aboveMultiple_iff, ← Int.tmod_def,
    ← toInt_srem]
  refine ⟨?_, fun _ => ?_⟩
  · have := (n % d).isLt
    simp only [toNat_setWidth, ← toNat_umod]
    omega
  have habs : (n.srem d).toInt.natAbs = n.toInt.natAbs % d.toInt.natAbs := by rw [toInt_srem, Int.natAbs_tmod]
  have hpos (h : 0 ≤ n.toInt) : 0 ≤ (n.srem d).toInt := by rw [toInt_srem]; exact Int.tmod_nonneg _ h
  have hneg (h : n.toInt ≤ 0) : (n.srem d).toInt ≤ 0 := by
    have := Int.tmod_nonneg d.toInt (Int.neg_nonneg.mpr h)
    rw [toInt_srem]
    rw [Int.neg_tmod] at this
    omega
  have hiff := signExtend_low_toInt_eq_iff (n.srem d)
  rw [← habs]
  constructor
  · rintro ⟨h, -, -⟩
    have := hiff.mp h
    split at this <;> split <;> omega
  · intro h
    have heq := hiff.mpr (by split at h <;> split <;> omega)
    rw [heq]
    exact ⟨rfl, hpos, hneg⟩

/-- The remainders by ten. -/
theorem remainders_exact_ten : (∃ r, umoddi3 (-1) 10 = some r ∧ r.toNat = 5) ∧ ∃ r, moddi3 (-(2 ^ 40)) 10 = some r ∧
    r.toInt = -6 := by
  have hu := remainders_exact_iff (-1) 10 (by decide)
  have hs := remainders_exact_iff (-(2 ^ 40)) 10 (by decide)
  obtain ⟨r, hr, he⟩ := hu.1.mpr ⟨1844674407370955161, by decide, by decide⟩
  obtain ⟨r', hr', he', -⟩ := (hs.2 (by decide)).mpr ⟨109951162777, by decide, by decide⟩
  exact ⟨⟨r, hr, he⟩, r', hr', he'⟩

/-- `2 ^ 32` leaves `2 ^ 32` on division by `2 ^ 33`, and both functions return zero. -/
theorem remainders_cut : umoddi3 (2 ^ 32) (2 ^ 33) = some 0 ∧ moddi3 (2 ^ 32) (2 ^ 33) = some 0 ∧
    (2 ^ 32 : BitVec 64).toNat % (2 ^ 33 : BitVec 64).toNat = 2 ^ 32 ∧
    (2 ^ 32 : BitVec 64).toInt - (2 ^ 33 : BitVec 64).toInt *
      (2 ^ 32 : BitVec 64).toInt.tdiv (2 ^ 33 : BitVec 64).toInt = 2 ^ 32 := by
  decide

end Pintos
