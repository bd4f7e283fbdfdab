/-!
# Virtual addresses (`threads/vaddr.h`)

Pages are 4 kB. User addresses lie below `PHYS_BASE`, and physical memory is mapped, one to one, from there on.
-/

namespace Pintos

/-- `PGSIZE`. -/
def pgsize : Nat := 4096

/-- `PHYS_BASE`. -/
def physBase : Nat := 0xc0000000

-- Sums with so large a number are not to be computed by counting.
attribute [irreducible] physBase

/-- `pg_ofs`. -/
def pgOfs (p : Nat) : Nat := p % pgsize

/-- `pg_no`. -/
def pgNo (p : Nat) : Nat := p / pgsize

end Pintos
