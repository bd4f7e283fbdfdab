import Pintos.Threads.FixedPoint

/-!
# Where fixed-point numbers are right

The range that `fix_int` asserts is twice what the representation holds, and
`fix_round` adds a half before a division that goes toward zero, which is right for numbers from minus one half on.
-/

namespace Pintos

/-- Where the sum does not wrap, the division of `fix_round` is one toward zero. -/
theorem fixRound_eq {x : FixedPoint} (h1 : -2147483648 ≤ x.f) (h2 : x.f ≤ 2147450879) :
    fixRound x = (x.f + 32768) / 65536 + if 0 ≤ x.f + 32768 ∨ (65536 : Int) ∣ x.f + 32768 then 0 else 1 := by
  have hfits : toInt32 (x.f + fixF / 2) = x.f + 32768 := toInt32_of_fits (by unfold fixF; omega) (by unfold fixF; omega)
  rw [fixRound, hfits]
  exact Int.tdiv_eq_ediv

/-- An integer that `fix_int` takes comes back from `fix_trunc` and from `fix_round` if it is one from 0 to 32767, and only
then; and `fix_round` gives a nearest integer for numbers from minus one half on, and below that only where the number lies
in the middle between two integers. -/
theorem fixed_point_conversions (x : FixedPoint) :
    (∀ n, fixInt n = some x → (x.f = n * fixF ∧ fixTrunc x = n ∧ fixRound x = n ↔ 0 ≤ n ∧ n ≤ 32767)) ∧
    (x.f.natAbs ≤ 2 ^ 31 - 1 - 2 ^ 15 →
      ((x.f - 65536 * fixRound x).natAbs ≤ 32768 ↔ -32768 ≤ x.f ∨ (x.f + 32768) % 65536 = 0)) := by
  refine ⟨fun n hx => ?_, fun hx => ?_⟩
  · obtain ⟨-, hx⟩ := Option.ite_none_right_eq_some.mp hx
    have hxf : x.f = toInt32 (n * fixF) := congrArg FixedPoint.f (Option.some.inj hx).symm
    constructor
    · intro ⟨hf, _, hround⟩
      have hfits : -2147483648 ≤ x.f ∧ x.f < 2147483648 := by
        rw [hxf, toInt32, Int.bmod_def]
        split <;> omega
      unfold fixF at hf
      rw [fixRound_eq (by omega) (by omega)] at hround
      split at hround <;> omega
    · intro ⟨h0, hn⟩
      have hf : x.f = n * 65536 := hxf.trans (toInt32_of_fits (by unfold fixF; omega) (by unfold fixF; omega))
      rw [fixRound_eq (by omega) (by omega), if_pos (by omega), fixTrunc, hf]
      exact ⟨rfl, Int.mul_tdiv_cancel _ (by decide), by omega⟩
  · rw [fixRound_eq (by omega) (by omega)]
    split <;> omega

/-- The largest integer that comes back, and a number in the middle between two. -/
theorem fixed_point_conversions_ends : (∀ x, fixInt 32767 = some x → fixRound x = 32767) ∧
    (-98304 - 65536 * fixRound ⟨-98304⟩).natAbs ≤ 32768 :=
  ⟨fun x hx => (((fixed_point_conversions x).1 32767 hx).mpr (by decide)).2.2,
    ((fixed_point_conversions ⟨-98304⟩).2 (by decide)).mpr (.inr (by decide))⟩

/-- The integer -1 is rounded to 0, and 32768 is taken for -32768. -/
theorem fixed_point_wrong : (∃ x, fixInt (-1) = some x ∧ fixRound x = 0 ∧ 32768 < (x.f - 65536 * fixRound x).natAbs) ∧
    ∃ x, fixInt 32768 = some x ∧ fixTrunc x = -32768 :=
  ⟨⟨⟨-65536⟩, by decide +kernel⟩, ⟨⟨-2147483648⟩, by decide +kernel⟩⟩

end Pintos
