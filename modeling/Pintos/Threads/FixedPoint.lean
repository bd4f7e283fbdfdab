import Pintos.Filesys.Inode

/-!
# Fixed-point numbers (`threads/fixed-point.h`)

A number is a signed 32-bit integer, in units of `1 / FIX_F`.
-/

namespace Pintos

/-- `FIX_F`. -/
def fixF : Int := 2 ^ 16

/-- `FIX_MAX_INT`. -/
def fixMaxInt : Int := 2 ^ 16 - 1

/-- `FIX_MIN_INT`. -/
def fixMinInt : Int := -fixMaxInt

/-- `fixed_point_t`. -/
structure FixedPoint where
  f : Int
  deriving DecidableEq

/-- `fix_int`. There is no result where the assertion fails. -/
def fixInt (n : Int) : Option FixedPoint := if fixMinInt ≤ n ∧ n ≤ fixMaxInt then some ⟨toInt32 (n * fixF)⟩ else none

/-- `fix_round`. -/
def fixRound (x : FixedPoint) : Int := (toInt32 (x.f + fixF / 2)).tdiv fixF

/-- `fix_trunc`. -/
def fixTrunc (x : FixedPoint) : Int := x.f.tdiv fixF

end Pintos
