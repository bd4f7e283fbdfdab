import Mathlib.Data.Nat.Digits.Lemmas

/-!
# Octal numerals

Numbers as strings of the characters `0` to `7`, padded with zeros on the left to a width, as the conversion `%0wo` of
`printf` writes them.
-/

namespace Octal

open List

variable (width v : Nat) (c : UInt8) (n : Nat) (s : List UInt8)

/-- The characters `0` to `7`. -/
def isDigit : Bool := decide (48 ≤ c) && decide (c ≤ 55)

/-- A digit as a character. -/
def char (d : Nat) : UInt8 := UInt8.ofNat (48 + d)

/-- `sprintf ("%0wo", n)` for a width of at least one: the digits of the number, and zeros before them up to the width. -/
def numeral : List UInt8 :=
  replicate (width - (Nat.digits 8 n).length) (char 0) ++ (Nat.digits 8 n).reverse.map char

/-- The number that digits make, read after a number `v`. -/
def valueFrom : Nat := s.foldl (fun v c => v * 8 + (c.toNat - 48)) v

@[simp] theorem valueFrom_nil : valueFrom v [] = v := rfl

@[simp] theorem valueFrom_cons : valueFrom v (c :: s) = valueFrom (v * 8 + (c.toNat - 48)) s := by
  unfold valueFrom
  rw [foldl_cons]

theorem valueFrom_append (t : List UInt8) : valueFrom v (s ++ t) = valueFrom (valueFrom v s) t := foldl_append

theorem digit_lt {c : UInt8} (h : isDigit c = true) : c.toNat - 48 < 8 := by
  have hle := UInt8.le_iff_toNat_le.mp (of_decide_eq_true (Bool.and_eq_true_iff.mp h).2)
  have h55 : (55 : UInt8).toNat = 55 := rfl
  omega

theorem char_toNat {d : Nat} (hd : d < 8) : (char d).toNat = 48 + d := by
  rw [char, UInt8.toNat_ofNat']
  omega

theorem isDigit_char {d : Nat} (hd : d < 8) : isDigit (char d) = true := by
  have h : ∀ d < 8, isDigit (char d) = true := by decide
  exact h d hd

/-- What is read after a number is read behind it. -/
theorem valueFrom_ge : v * 8 ^ s.length ≤ valueFrom v s := by
  induction s generalizing v with
  | nil => simp
  | cons c s ih =>
    refine Nat.le_trans ?_ (ih _)
    rw [length_cons, Nat.pow_succ, Nat.mul_comm (8 ^ s.length), ← Nat.mul_assoc]
    exact Nat.mul_le_mul_right _ (Nat.le_add_right _ _)

/-- Digits, most significant first, make the number they are the digits of. -/
theorem valueFrom_digits {ds : List Nat} (h : ∀ d ∈ ds, d < 8) (v : Nat) :
    valueFrom v (ds.reverse.map char) = v * 8 ^ ds.length + Nat.ofDigits 8 ds := by
  induction ds with
  | nil => simp
  | cons d ds ih =>
    rw [reverse_cons, map_append, valueFrom_append, ih (fun e he => h e (mem_cons_of_mem _ he)), map_cons, map_nil,
      valueFrom_cons, valueFrom_nil, char_toNat (h d mem_cons_self), Nat.ofDigits_cons, length_cons, Nat.pow_succ,
      Nat.add_sub_cancel_left]
    ring

theorem valueFrom_zeros : valueFrom 0 (replicate n (char 0)) = 0 := by
  induction n with
  | zero => rfl
  | succ n ih => exact ih

/-- A numeral is the number it was made from. -/
theorem valueFrom_numeral : valueFrom 0 (numeral width n) = n := by
  rw [numeral, valueFrom_append, valueFrom_zeros, valueFrom_digits (fun d hd => Nat.digits_lt_base (by decide) hd),
    Nat.zero_mul, Nat.zero_add, Nat.ofDigits_digits]

theorem isDigit_of_mem_numeral {width n : Nat} {c : UInt8} (h : c ∈ numeral width n) : isDigit c = true := by
  rw [numeral, mem_append] at h
  rcases h with h | h
  · rw [eq_of_mem_replicate h]
    decide
  · obtain ⟨d, hd, rfl⟩ := mem_map.mp h
    exact isDigit_char (Nat.digits_lt_base (by decide) (mem_reverse.mp hd))

/-- A number that fits is as wide as asked for. -/
theorem numeral_length {width n : Nat} (h : n < 8 ^ width) : (numeral width n).length = width := by
  have hlen : (Nat.digits 8 n).length ≤ width := (Nat.digits_length_le_iff (by decide) n).mpr h
  rw [numeral, length_append, length_replicate, length_map, length_reverse, Nat.sub_add_cancel hlen]

end Octal
