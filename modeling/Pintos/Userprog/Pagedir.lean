import Pintos.Filesys.Inode
import Pintos.Threads.Vaddr

/-!
# Page directories (`userprog/pagedir.c`)

User addresses lie below `PHYS_BASE`. Physical memory is mapped, one to one, from `PHYS_BASE` on, and the loader uses at most
64 MB of it. A page directory leads each user page, over a page table, to an entry that may name a frame of physical memory.

The kernel reaches user memory in two ways: by the user address itself, which the processor translates page by page, or by
the kernel address of the frame, which `pagedir_get_page` computes for one address. Only within a page are the two the same.
-/

namespace Pintos

variable (p : Nat)

/-- A pointer moved by a number of bytes: 32 bits are kept. -/
def ptrAdd (n : Int) : Nat := toUInt32 (p + n)

/-- `is_user_vaddr`. -/
def isUserVaddr : Bool := decide (p < physBase)

/-- `pd_no`: the place of an address in the page directory. -/
def pdNo : Nat := p / 4194304

/-- `pt_no`: the place of an address in its page table. -/
def ptNo : Nat := p / pgsize % 1024

/-- `init_ram_pages`: the pages of physical memory. The loader caps them at 64 MB. -/
structure RamSize where
  pages : Nat
  capped : pages ≤ 16384

/-- A page table entry: `PTE_P`, `PTE_W` and the frame. -/
structure Pte where
  present : Bool
  writable : Bool
  frame : Nat

/-- A page directory, with the page tables it leads to. Every frame that is mapped is one of physical memory, which is what
the assertion of `pagedir_set_page` checks. -/
structure PageDir (r : RamSize) where
  table : Nat → Option (Nat → Pte)
  inRam : ∀ i t j, table i = some t → (t j).present = true → (t j).frame < r.pages

namespace PageDir

variable {r : RamSize}

variable (pd : PageDir r) (vaddr : Nat)

/-- `lookup_page` with `create` false. -/
def lookupPage : Option Pte := (pd.table (pdNo vaddr)).map (fun t => t (ptNo vaddr))

/-- The entry of an address, where it maps a page. -/
def mapping : Option Pte := (pd.lookupPage vaddr).filter (·.present)

/-- `pagedir_get_page`, for a user address: the kernel address of the byte, or null. -/
def getPage (uaddr : Nat) : Option Nat :=
  match pd.lookupPage uaddr with
  | some pte => if pte.present then some (pte.frame * pgsize + physBase + pgOfs uaddr) else none
  | none => none

/-- The translation that the processor makes of an address used by a user program: the physical address of the byte. -/
def translate : Option Nat :=
  if isUserVaddr vaddr then (pd.mapping vaddr).map (fun pte => pte.frame * pgsize + pgOfs vaddr) else none

/-- The user address may be written by the user program. -/
def isWritable : Bool := isUserVaddr vaddr && (pd.mapping vaddr).any (·.writable)

/-- What `pagedir_get_page` returns for a user address is the kernel address of its translation. -/
theorem getPage_eq {uaddr : Nat} (h : isUserVaddr uaddr = true) :
    pd.getPage uaddr = (pd.translate uaddr).map (fun a => a + physBase) := by
  unfold getPage translate mapping
  rw [if_pos h]
  cases pd.lookupPage uaddr with
  | none => rfl
  | some pte =>
    by_cases hp : pte.present = true
    · simp only [hp, if_true, Option.filter_some, Option.map_some, Option.some.injEq]
      omega
    · simp [hp]

/-- A translated address lies in physical memory, at the same place of its page. -/
theorem translate_bound {vaddr a : Nat} (h : pd.translate vaddr = some a) :
    a < r.pages * pgsize ∧ a % pgsize = vaddr % pgsize := by
  unfold translate mapping lookupPage at h
  split at h
  · obtain ⟨pte, hp, rfl⟩ := Option.map_eq_some_iff.mp h
    obtain ⟨hm, hpr⟩ := Option.filter_eq_some_iff.mp hp
    obtain ⟨t, ht, rfl⟩ := Option.map_eq_some_iff.mp hm
    have hf := pd.inRam _ t _ ht hpr
    have hmod : pgOfs vaddr < pgsize := Nat.mod_lt _ (by decide)
    refine ⟨?_, ?_⟩
    · calc (t (ptNo vaddr)).frame * pgsize + pgOfs vaddr < ((t (ptNo vaddr)).frame + 1) * pgsize := by rw [Nat.succ_mul]; omega
        _ ≤ r.pages * pgsize := Nat.mul_le_mul_right _ hf
    · rw [Nat.mul_comm, Nat.mul_add_mod]
      exact Nat.mod_eq_of_lt hmod
  · cases h

/-- Only user addresses are translated. -/
theorem translate_user {vaddr a : Nat} (h : pd.translate vaddr = some a) : isUserVaddr vaddr = true := by
  unfold translate at h
  split at h
  · assumption
  · cases h

theorem lookupPage_congr {v v' : Nat} (h : v / pgsize = v' / pgsize) : pd.lookupPage v = pd.lookupPage v' := by
  have hd : pdNo v = pdNo v' := by
    unfold pdNo
    unfold pgsize at h
    omega
  unfold lookupPage ptNo
  rw [hd, h]

end PageDir

/-- The bytes of physical memory. -/
abbrev Ram : Type := Nat → UInt8

namespace Ram

variable (r : RamSize)

/-- Whether the kernel can use an address: it is that of a byte of physical memory. (At any other kernel address it faults,
which is a panic.) -/
def reaches (kaddr : Nat) : Bool := decide (physBase ≤ kaddr ∧ kaddr < physBase + r.pages * pgsize)

/-- The bytes from a kernel address on, `n` of them or as many as there are before the end of memory. -/
def kernelBytes (ram : Ram) (kaddr n : Nat) : List UInt8 :=
  if physBase ≤ kaddr then (List.range (min n (physBase + r.pages * pgsize - kaddr))).map (fun i =>
    ram (kaddr - physBase + i)) else []

/-- The memory with bytes stored from a kernel address on, or the fault where they do not fit. -/
def kernelStore (r : RamSize) (ram : Ram) (kaddr : Nat) : List UInt8 → Option Ram
  | [] => some ram
  | b :: bs => if reaches r kaddr then kernelStore r (Function.update ram (kaddr - physBase) b) (kaddr + 1) bs else none

end Ram

end Pintos
