import Pintos.Lib.Random

/-!
# The table of the generator stays a permutation

Every loop of the generator changes the table by swaps only, so that it always holds each byte once. The bytes that come out
are one stream, however the calls of `random_bytes` divide it.
-/

namespace Pintos

open List

variable {r : Random} {s : List UInt8}

/-- `random_bytes` for each of the sizes: what comes out, one call behind the other. -/
def randomCalls (r : Random) : List Nat → List UInt8 × Random
  | [] => ([], r)
  | size :: sizes =>
    let first := randomBytes r size
    let rest := randomCalls first.2 sizes
    (first.1 ++ rest.1, rest.2)

/-- Each byte is in the table once. -/
def IsTable (s : List UInt8) : Prop := s.Perm ((range 256).map UInt8.ofNat)

theorem IsTable.swapByte (h : IsTable s) (a b : UInt8) : IsTable (swapByte s a b) := by
  have hlen : ∀ x : UInt8, x.toNat < s.length := by
    intro x
    rw [h.length_eq, length_map, length_range]
    exact x.toNat_lt
  unfold Pintos.swapByte
  rw [getD_eq_getElem _ _ (hlen b), getD_eq_getElem _ _ (hlen a)]
  exact (set_set_perm (hlen a) (hlen b)).trans h

theorem IsTable.foldl_mixSeed (seed : Nat) (is : List Nat) {sj : List UInt8 × UInt8} (h : IsTable sj.1) :
    IsTable (is.foldl (mixSeed seed) sj).1 := by
  induction is generalizing sj with
  | nil => exact h
  | cons i is ih => exact ih (h.swapByte _ _)

theorem randomInit_isTable (seed : Nat) : IsTable (randomInit seed).s := by
  have hstart : IsTable ((range 256).map UInt8.ofNat, (0 : UInt8)).1 := Perm.refl _
  simp only [randomInit]
  exact hstart.foldl_mixSeed seed _

theorem IsTable.bytes (h : IsTable r.s) (size : Nat) : IsTable (r.bytes size).2.s := by
  induction size generalizing r with
  | zero => exact h
  | succ size ih => exact ih (h.swapByte _ _)

theorem Random.bytes_inited (size : Nat) : (r.bytes size).2.inited = r.inited := by
  induction size generalizing r with
  | zero => rfl
  | succ size ih => exact ih

theorem Random.length_bytes (size : Nat) : (r.bytes size).1.length = size := by
  induction size generalizing r with
  | zero => rfl
  | succ size ih => exact congrArg (· + 1) ih

/-- A run of the loop in two parts. -/
theorem Random.bytes_add (m n : Nat) : r.bytes (m + n) =
    ((r.bytes m).1 ++ ((r.bytes m).2.bytes n).1, ((r.bytes m).2.bytes n).2) := by
  induction m generalizing r with
  | zero => rw [Nat.zero_add]; rfl
  | succ m ih =>
    rw [Nat.succ_add, bytes, ih]
    rfl

/-- The calls are one run of the loop. -/
theorem randomCalls_eq (hr : r.inited = true) (sizes : List Nat) : randomCalls r sizes = r.bytes sizes.sum := by
  induction sizes generalizing r with
  | nil => rfl
  | cons size sizes ih =>
    have hfirst : randomBytes r size = r.bytes size := by rw [randomBytes, if_pos hr]
    rw [randomCalls, hfirst, ih (r.bytes_inited size ▸ hr), sum_cons, Random.bytes_add]

/-- After `random_init` and any calls of `random_bytes` the table is a permutation of the bytes, what has come out is what
one call for all of it gives, and the next call gives as many bytes as it is asked for. -/
theorem random_stream (seed : Nat) (sizes : List Nat) :
    (randomCalls (randomInit seed) sizes).2.s.Perm ((range 256).map UInt8.ofNat) ∧
      (randomCalls (randomInit seed) sizes).1 = (randomBytes (randomInit seed) sizes.sum).1 ∧
      ∀ n, (randomBytes (randomCalls (randomInit seed) sizes).2 n).1.length = n := by
  have hone : randomBytes (randomInit seed) sizes.sum = (randomInit seed).bytes sizes.sum := rfl
  rw [randomCalls_eq rfl, hone]
  exact ⟨(randomInit_isTable seed).bytes _, rfl, fun n => Random.length_bytes n⟩

end Pintos
