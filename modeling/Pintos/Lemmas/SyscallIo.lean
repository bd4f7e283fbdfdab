import Pintos.Userprog.SyscallIo

/-!
# Kernel addresses against translated addresses

The system calls use the kernel address of the first byte and go on from there. What they reach is what the page table says
exactly if the translations of the range are consecutive.
-/

namespace Pintos

open List Option

variable {r : RamSize} {φ : Type}

/-- The translations of the first `n` bytes of a range are consecutive. -/
def Caller.Contiguous (c : Caller r) (buffer n : Nat) : Prop := ∀ i < n, c.userAddr buffer i = c.userAddr buffer 0 + i

namespace Caller

variable (c : Caller r)

theorem validatePointer_mapped {p : Nat} (h : c.validatePointer p = true) : ∃ a, c.pagedir.translate p = some a := by
  unfold validatePointer at h
  split at h
  · cases h
  split at h
  · cases h
  rename_i hu
  have hp : isUserVaddr p = true := by
    cases hb : isUserVaddr p
    · simp [hb] at hu
    · rfl
  rw [Bool.and_eq_true, c.pagedir.getPage_eq hp, isSome_map] at h
  exact isSome_iff_exists.mp h.1

variable {a buffer size : Nat}

/-- The kernel address that the calls use, once the buffer has passed the checks. -/
theorem kbuffer_eq (h : c.validateBuffer buffer size = true) :
    (c.pagedir.getPage buffer).getD 0 = c.userAddr buffer 0 + physBase ∧ (c.pagedir.translate buffer).isSome = true := by
  obtain ⟨a, ha⟩ := c.validatePointer_mapped (Bool.and_eq_true_iff.mp h).1
  unfold userAddr
  rw [c.pagedir.getPage_eq (c.pagedir.translate_user ha), Nat.add_zero, ha, map_some, getD_some, getD_some]
  exact ⟨rfl, rfl⟩

theorem translate_userAddr {i : Nat} (h : (c.pagedir.translate (buffer + i)).isSome = true) :
    c.pagedir.translate (buffer + i) = some (c.userAddr buffer i) := by
  obtain ⟨a, ha⟩ := isSome_iff_exists.mp h
  unfold userAddr
  rw [ha]
  rfl

theorem userAddr_lt {i : Nat} (h : (c.pagedir.translate (buffer + i)).isSome = true) :
    c.userAddr buffer i < r.pages * pgsize := (c.pagedir.translate_bound (c.translate_userAddr h)).1

theorem userAddr_succ (buffer i : Nat) : c.userAddr (buffer + 1) i = c.userAddr buffer (i + 1) := by
  unfold userAddr
  rw [Nat.add_assoc, Nat.add_comm 1 i]

theorem mapped_lt (h : c.RangeMapped buffer size) : size ≤ 0xc0000000 := by
  by_contra hs
  have hm := h physBase (by unfold physBase; omega)
  have hu := c.pagedir.translate_user (c.translate_userAddr hm)
  simp [isUserVaddr] at hu

/-! ## Reading -/

/-- Consecutive translations make the kernel's bytes the caller's. -/
theorem kernelBytes_eq (ram : Ram) (hm : c.RangeMapped buffer size) (hc : c.Contiguous buffer size) :
    Ram.kernelBytes r ram (c.userAddr buffer 0 + physBase) size = c.userBytes ram buffer size := by
  have hfit : min size (physBase + r.pages * pgsize - (c.userAddr buffer 0 + physBase)) = size := by
    rcases Nat.eq_zero_or_pos size with rfl | hpos
    · exact Nat.zero_min _
    · have h1 := c.userAddr_lt (hm (size - 1) (by omega))
      have h2 := hc (size - 1) (by omega)
      omega
  unfold Ram.kernelBytes userBytes
  rw [if_pos (Nat.le_add_left _ _), hfit, Nat.add_sub_cancel]
  refine map_congr_left fun i hi => ?_
  rw [hc i (mem_range.mp hi)]

/-- If the kernel's bytes are the caller's whatever memory holds, the translations are consecutive. -/
theorem contiguous_of_kernelBytes
    (h : ∀ ram, Ram.kernelBytes r ram (c.userAddr buffer 0 + physBase) size = c.userBytes ram buffer size) :
    c.Contiguous buffer size := by
  intro i hi
  -- One byte of memory is marked: the one that byte `i` of the range is translated to.
  have hmark := congrArg (fun l : List UInt8 => l[i]?) (h (fun a => if a = c.userAddr buffer i then 1 else 0))
  simp only [Ram.kernelBytes, userBytes, if_pos (Nat.le_add_left _ _), Nat.add_sub_cancel, getElem?_map,
    getElem?_range hi, map_some, if_true] at hmark
  obtain ⟨j, hj, he⟩ := map_eq_some_iff.mp hmark
  have hji : i = j := by
    rw [getElem?_eq_some_iff] at hj
    obtain ⟨hlt, hj⟩ := hj
    simpa using hj
  subst hji
  by_contra hne
  rw [if_neg (Ne.symm hne)] at he
  exact absurd he (by decide)

/-! ## Storing -/

/-- Consecutive translations make the kernel's stores those of the caller. -/
theorem kernelStore_eq (bs : List UInt8) (ram : Ram) (h : ∀ i < bs.length, c.pagedir.translate (buffer + i) = some (a + i)) :
    Ram.kernelStore r ram (a + physBase) bs = some (c.userStore ram buffer bs) := by
  induction bs generalizing ram buffer a with
  | nil => rfl
  | cons b bs ih =>
    have h0 := h 0 (by simp)
    have haddr : c.userAddr buffer 0 = a := by unfold userAddr; rw [h0]; rfl
    have hlt := (c.pagedir.translate_bound h0).1
    have hreach : Ram.reaches r (a + physBase) = true := decide_eq_true (by omega)
    simp only [Ram.kernelStore, userStore, if_pos hreach, Nat.add_sub_cancel, haddr]
    rw [show a + physBase + 1 = (a + 1) + physBase by omega]
    refine ih _ fun i hi => ?_
    have := h (i + 1) (by simpa using hi)
    rw [show buffer + 1 + i = buffer + (i + 1) by omega, this]
    congr 1
    omega

/-- The kernel's stores change the bytes from the address on, as many as are stored. -/
theorem kernelStore_modified (bs : List UInt8) {ram ram' : Ram} {x : Nat}
    (h : Ram.kernelStore r ram (a + physBase) bs = some ram') (hx : ram' x ≠ ram x) : ∃ i < bs.length, x = a + i := by
  induction bs generalizing ram a with
  | nil =>
    cases h
    exact absurd rfl hx
  | cons b bs ih =>
    simp only [Ram.kernelStore] at h
    split at h
    · rw [Nat.add_sub_cancel, show a + physBase + 1 = (a + 1) + physBase by omega] at h
      by_cases hxa : x = a
      · exact ⟨0, by simp, by omega⟩
      · obtain ⟨i, hi, he⟩ := ih h (by rwa [Function.update_of_ne hxa])
        exact ⟨i + 1, by simpa using hi, by omega⟩
    · cases h

/-- Zeros and then a one: the kernel's stores over zeroed memory leave the one. -/
theorem kernelStore_mark (i : Nat) {ram' : Ram}
    (h : Ram.kernelStore r (fun _ => 0) (a + physBase) (replicate i 0 ++ [1]) = some ram') :
    ram' = Function.update (fun _ => 0) (a + i) 1 := by
  induction i generalizing a with
  | zero =>
    simp only [replicate_zero, nil_append, Ram.kernelStore] at h
    split at h
    · rw [Nat.add_sub_cancel] at h
      exact (some.inj h).symm
    · cases h
  | succ i ih =>
    simp only [replicate_succ, cons_append, Ram.kernelStore] at h
    split at h
    · rw [Nat.add_sub_cancel, Function.update_eq_self, show a + physBase + 1 = (a + 1) + physBase by omega] at h
      rw [ih h]
      congr 1
      omega
    · cases h

/-- Zeros and then a one: the caller's stores over zeroed memory leave the one. -/
theorem userStore_mark (i buffer : Nat) :
    c.userStore (fun _ => 0) buffer (replicate i 0 ++ [1]) = Function.update (fun _ => 0) (c.userAddr buffer i) 1 := by
  induction i generalizing buffer with
  | zero => rfl
  | succ i ih =>
    simp only [replicate_succ, cons_append, userStore]
    rw [Function.update_eq_self, ih, c.userAddr_succ]

/-- Two bytes of a range in one page are both writable or neither. -/
theorem isWritable_congr {v v' : Nat} (h : v / pgsize = v' / pgsize) (hu : isUserVaddr v' = true)
    (hw : c.pagedir.isWritable v = true) : c.pagedir.isWritable v' = true := by
  unfold PageDir.isWritable PageDir.mapping at hw ⊢
  rw [c.pagedir.lookupPage_congr h, Bool.and_eq_true] at hw
  rw [hu, hw.2]
  rfl

end Caller

end Pintos
