import Mathlib.Tactic.IntervalCases
import Pintos.Lib.Stdlib

/-!
# Binary search finds what there is

The offsets that `binary_search` works with are always those of elements: that is what carries the proof from bytes to
indexes.
-/

namespace Pintos

/-- `compare` orders the elements. -/
structure TotalPreorder {α : Type} (compare : α → α → Int) : Prop where
  swap : ∀ a b, compare a b < 0 ↔ 0 < compare b a
  trans : ∀ a b c, compare a b ≤ 0 → compare b c ≤ 0 → compare a c ≤ 0

variable {size : Nat} (compare : Element size → Element size → Int) (key : Element size) (array : List UInt8)

/-- The array is in order. -/
def Sorted : Prop :=
  ∀ i j e e', i ≤ j → elementAt array size (i * size) = some e → elementAt array size (j * size) = some e' → compare e e' ≤ 0

/-- What a search comes to: an element that compares equal, or none where there is no such element. -/
def Found : Option Nat → Prop
  | some m => ∃ i e, m = i * size ∧ elementAt array size m = some e ∧ compare key e = 0
  | none => ∀ i e, elementAt array size (i * size) = some e → compare key e ≠ 0

variable {compare key array}

namespace TotalPreorder

variable {α : Type} {compare : α → α → Int} (h : TotalPreorder compare) {a b c : α}
include h

theorem lt_of_lt_of_le (hab : compare a b < 0) (hbc : compare b c ≤ 0) : compare a c < 0 := by
  by_contra hac
  have hca : compare c a ≤ 0 := Int.not_lt.mp fun hlt => hac ((h.swap a c).mpr hlt)
  exact absurd ((h.swap a b).mp hab) (Int.not_lt.mpr (h.trans b c a hbc hca))

theorem lt_of_le_of_lt (hab : compare a b ≤ 0) (hbc : compare b c < 0) : compare a c < 0 := by
  by_contra hac
  have hca : compare c a ≤ 0 := Int.not_lt.mp fun hlt => hac ((h.swap a c).mpr hlt)
  exact absurd ((h.swap b c).mp hbc) (Int.not_lt.mpr (h.trans c a b hca hab))

end TotalPreorder

/-- The loop finds what there is, where the elements before `lo` are smaller than the key and those from `hi` on larger. -/
theorem binarySearchFrom_found (ho : TotalPreorder compare) (hs : Sorted compare array) (hsize : 0 < size) {cnt : Nat}
    (hlen : array.length = size * cnt) (fuel lo hi : Nat) (hle : lo ≤ hi) (hcnt : hi ≤ cnt) (hfuel : hi - lo < fuel)
    (hlo : ∀ i < lo, ∀ e, elementAt array size (i * size) = some e → 0 < compare key e)
    (hhi : ∀ i ≥ hi, ∀ e, elementAt array size (i * size) = some e → compare key e < 0) :
    ∃ r, binarySearchFrom compare key array fuel (lo * size) (hi * size) = some r ∧ Found compare key array r := by
  induction fuel generalizing lo hi with
  | zero => omega
  | succ fuel ih =>
    unfold binarySearchFrom
    rcases Nat.lt_or_ge lo hi with hlt | hge
    · have hmid : lo * size + (hi * size - lo * size) / size / 2 * size = (lo + (hi - lo) / 2) * size := by
        rw [← Nat.sub_mul, Nat.mul_div_cancel _ hsize, Nat.add_mul]
      obtain ⟨mid, hm⟩ : ∃ mid, lo + (hi - lo) / 2 = mid := ⟨_, rfl⟩
      have hin : mid * size + size ≤ array.length := by
        rw [hlen, ← Nat.succ_mul, Nat.mul_comm]
        exact Nat.mul_le_mul_left size (by omega)
      obtain ⟨e, he⟩ : ∃ e, elementAt array size (mid * size) = some e := ⟨_, dif_pos hin⟩
      simp only [if_pos (Nat.mul_lt_mul_of_pos_right hlt hsize), hmid, hm, he]
      split
      · refine ih lo mid (by omega) (by omega) (by omega) hlo fun i hi e' he' => ?_
        exact ho.lt_of_lt_of_le ‹_› (hs mid i e e' hi he he')
      split
      · rw [← Nat.succ_mul]
        refine ih (mid + 1) hi (by omega) hcnt (by omega) (fun i hi e' he' => ?_) hhi
        have hkey : compare e key < 0 := (ho.swap e key).mpr ‹_›
        exact (ho.swap e' key).mp (ho.lt_of_le_of_lt (hs i mid e' e (by omega) he' he) hkey)
      · exact ⟨_, rfl, mid, e, rfl, he, by omega⟩
    · rw [if_neg (Nat.not_lt.mpr (Nat.mul_le_mul_right size hge))]
      refine ⟨none, rfl, fun i e he => ?_⟩
      rcases Nat.lt_or_ge i lo with hi | hi
      · exact Int.ne_of_gt (hlo i hi e he)
      · exact Int.ne_of_lt (hhi i (by omega) e he)

/-- `binary_search` in a sorted array of `cnt` elements is done within `cnt + 1` tests of its loop, reads elements of the
array only, and finds an element that compares equal to the key if there is one. -/
theorem binary_search_finds (ho : TotalPreorder compare) (hs : Sorted compare array) (hsize : 0 < size) {cnt : Nat}
    (hlen : array.length = size * cnt) (key : Element size) (fuel : Nat) (hfuel : cnt < fuel) :
    ∃ r, binarySearch compare key array cnt fuel = some r ∧ Found compare key array r := by
  have hfound := @binarySearchFrom_found _ _ key _ ho hs hsize _ hlen fuel 0 cnt (Nat.zero_le _) (Nat.le_refl _) hfuel (by omega)
    (fun i hi e he => ?_)
  · rwa [Nat.zero_mul, Nat.mul_comm] at hfound
  have hout : ¬i * size + size ≤ array.length := by
    rw [hlen, ← Nat.succ_mul, Nat.mul_comm]
    exact Nat.not_le.mpr (Nat.mul_lt_mul_of_pos_left (by omega) hsize)
  rw [elementAt, dif_neg hout] at he
  cases he

/-- The order of single bytes. -/
def byteCompare (a b : Element 1) : Int := (a.1.headD 0).toNat - (b.1.headD 0).toNat

/-- A byte is looked for in an array of three, and found at the end. -/
theorem binary_search_finds_byte : binarySearch byteCompare ⟨[9], rfl⟩ [3, 7, 9] 3 4 = some (some 2) ∧
    ∃ r, binarySearch byteCompare ⟨[9], rfl⟩ [3, 7, 9] 3 4 = some r ∧ Found byteCompare ⟨[9], rfl⟩ [3, 7, 9] r := by
  have hsorted : Sorted byteCompare [3, 7, 9] := by
    intro i j e e' hij he he'
    have hj : j < 3 := by
      by_contra hge
      rw [elementAt, dif_neg (by simp only [List.length_cons, List.length_nil]; omega)] at he'
      cases he'
    interval_cases j <;> interval_cases i <;> cases he <;> cases he' <;> decide
  refine ⟨by decide, binary_search_finds ⟨fun a b => ?_, fun a b c => ?_⟩ hsorted (by decide) rfl _ 4 (by decide)⟩
  all_goals
    unfold byteCompare
    omega

end Pintos
