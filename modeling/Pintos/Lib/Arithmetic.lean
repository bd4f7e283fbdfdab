import Mathlib.Algebra.Group.Nat.Defs

/-!
# 64-bit division (`lib/arithmetic.c`)

On x86 the compiler divides 64-bit integers by calling these functions. They have one instruction to build on, which divides
64 bits by 32 bits and traps if the quotient has more than 32 bits; a function that comes to such a trap has no result here.
The remainders go through `umod64` and `smod64`, whose results have 32 bits.
-/

namespace Pintos

variable (n d : BitVec 64)

/-- `divl`: the instruction DIVL, which traps on a divisor of zero and on a quotient that does not fit. -/
def divl (d : BitVec 32) : Option (BitVec 32) :=
  if d = 0 ∨ 2 ^ 32 ≤ n.toNat / d.toNat then none else some (BitVec.ofNat 32 (n.toNat / d.toNat))

/-- One step of `nlz`: where `x` is at most `most`, its upper `k` bits are zero and are shifted out. -/
def nlzStep (most : BitVec 32) (k : Nat) (p : Nat × BitVec 32) : Nat × BitVec 32 :=
  if p.2 ≤ most then (p.1 + k, p.2 <<< k) else p

/-- `nlz`: the number of leading zero bits. -/
def nlz (x : BitVec 32) : Nat :=
  let p := nlzStep 0x0000FFFF 16 (0, x)
  let p := nlzStep 0x00FFFFFF 8 p
  let p := nlzStep 0x0FFFFFFF 4 p
  let p := nlzStep 0x3FFFFFFF 2 p
  if p.2 ≤ 0x7FFFFFFF then p.1 + 1 else p.1

/-- `udiv64`. -/
def udiv64 : Option (BitVec 64) :=
  if d >>> 32 = 0 then do
    let b : BitVec 64 := 1#64 <<< 32
    let n1 : BitVec 32 := (n >>> 32).setWidth 32
    let n0 : BitVec 32 := n.setWidth 32
    let d0 : BitVec 32 := d.setWidth 32
    let q ← divl (b * (n1 % d0).setWidth 64 + n0.setWidth 64) d0
    return q.setWidth 64 + b * (n1 / d0).setWidth 64
  else if n < d then some 0
  else do
    let d1 : BitVec 32 := (d >>> 32).setWidth 32
    let s := nlz d1
    let q ← divl (n >>> 1) (((d <<< s) >>> 32).setWidth 32)
    let q : BitVec 64 := (q >>> (31 - s)).setWidth 64
    return if n - (q - 1) * d < d then q - 1 else q

/-- `umod64`, which returns a `uint32_t`. -/
def umod64 : Option (BitVec 32) := do
  let q ← udiv64 n d
  return (n - d * q).setWidth 32

/-- The absolute value of an `int64_t`, as a `uint64_t`. -/
def abs64 : BitVec 64 := if 0 ≤ n.toInt then n else -n

/-- `sdiv64`. -/
def sdiv64 : Option (BitVec 64) := do
  let q ← udiv64 (abs64 n) (abs64 d)
  return if decide (n.toInt < 0) = decide (d.toInt < 0) then q else -q

/-- `smod64`, which returns an `int32_t`. -/
def smod64 : Option (BitVec 32) := do
  let q ← sdiv64 n d
  return (n - d * q).setWidth 32

/-- `__divdi3`. -/
def divdi3 : Option (BitVec 64) := sdiv64 n d

/-- `__moddi3`: the `int32_t` is sign-extended. -/
def moddi3 : Option (BitVec 64) := (smod64 n d).map (·.signExtend 64)

/-- `__udivdi3`. -/
def udivdi3 : Option (BitVec 64) := udiv64 n d

/-- `__umoddi3`: the `uint32_t` is zero-extended. -/
def umoddi3 : Option (BitVec 64) := (umod64 n d).map (·.setWidth 64)

end Pintos
