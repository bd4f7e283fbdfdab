import Mathlib

/-!
# The random number generator (`lib/random.c`)

The generator is RC4: a table of 256 bytes and two indices, all of them bytes that wrap around. `random_init` makes the table
from the four bytes of a seed, each time it is called.
-/

namespace Pintos

/-- The state of the generator: the table, the two indices and whether it was ever initialized. -/
structure Random where
  s : List UInt8
  i : UInt8
  j : UInt8
  inited : Bool

/-- The state before any call: static storage. -/
def Random.unset : Random := { s := List.replicate 256 0, i := 0, j := 0, inited := false }

/-- `swap_byte` on two elements of the table. -/
def swapByte (s : List UInt8) (a b : UInt8) : List UInt8 :=
  (s.set a.toNat (s.getD b.toNat 0)).set b.toNat (s.getD a.toNat 0)

variable (seed : Nat) (r : Random)

/-- `seedp[k]`: a byte of the seed, least significant first. -/
def seedByte (k : Nat) : UInt8 := UInt8.ofNat (seed / 256 ^ k)

/-- A turn of the second loop of `random_init`, on the table and `j`. -/
def mixSeed (sj : List UInt8 × UInt8) (i : Nat) : List UInt8 × UInt8 :=
  let j := sj.2 + (sj.1.getD i 0 + seedByte seed (i % 4))
  (swapByte sj.1 (UInt8.ofNat i) j, j)

/-- `random_init`, of an `unsigned` seed: initializes the generator, or initializes it again. -/
def randomInit : Random :=
  let table := (List.range 256).map UInt8.ofNat
  { s := ((List.range 256).foldl (mixSeed seed) (table, 0)).1, i := 0, j := 0, inited := true }

/-- A turn of the loop of `random_bytes`: the next byte. -/
def Random.next : UInt8 × Random :=
  let i := r.i + 1
  let j := r.j + r.s.getD i.toNat 0
  let s := swapByte r.s i j
  let k := s.getD i.toNat 0 + s.getD j.toNat 0
  (s.getD k.toNat 0, { r with s := s, i := i, j := j })

/-- The loop of `random_bytes`. -/
def Random.bytes (r : Random) : Nat → List UInt8 × Random
  | 0 => ([], r)
  | size + 1 =>
    let rest := r.next.2.bytes size
    (r.next.1 :: rest.1, rest.2)

/-- `random_bytes`. -/
def randomBytes (size : Nat) : List UInt8 × Random := (if r.inited then r else randomInit 0).bytes size

/-- The seed is 32 bits wide. -/
theorem randomInit_mod : randomInit (seed % 2 ^ 32) = randomInit seed := by
  have hbyte : ∀ k, k < 4 → seedByte (seed % 2 ^ 32) k = seedByte seed k := by
    intro k hk
    have hcases : k = 0 ∨ k = 1 ∨ k = 2 ∨ k = 3 := by omega
    apply UInt8.toNat.inj
    rcases hcases with rfl | rfl | rfl | rfl <;> simp only [seedByte, UInt8.toNat_ofNat'] <;> omega
  have hmix : mixSeed (seed % 2 ^ 32) = mixSeed seed := by
    funext sj i
    simp only [mixSeed, hbyte (i % 4) (Nat.mod_lt i (by decide))]
  simp only [randomInit, hmix]

/-- What `rtc_get_time` gives at the start of 1970 and a second later are seeds with different first bytes. -/
theorem randomBytes_clock_ne : (randomBytes (randomInit 2678400) 1).1 ≠ (randomBytes (randomInit 2678401) 1).1 := by
  decide +kernel

end Pintos
