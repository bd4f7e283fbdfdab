import Pintos.Theorems.Exec

/-!
# When the checks of user addresses are exact (`userprog/syscall.c`: `validate_pointer`, `validate_string`)

`validate_pointer` asks whether the four bytes from an address on are mapped. The two calls on a buffer look at its first
four bytes and its last four, and `validate_string` at four bytes from every character on. So a short range, and the end of a
string, are taken for longer than they are, and a longer range is taken for mapped when its ends are.
-/

namespace Pintos

/-- A pointer moved within the address space. -/
theorem ptrAdd_of_fits {p m : Nat} {n : Int} (h : p + n = m) (hm : m < 2 ^ 32) : ptrAdd p n = m := by
  have hfits := toUInt32_of_fits (x := p + n) (by omega) (by omega)
  unfold ptrAdd
  omega

/-- A pointer moved below the null pointer. -/
theorem ptrAdd_of_neg {p : Nat} {n : Int} (h : p + n < 0) (hn : -4 ≤ n) : physBase ≤ ptrAdd p n := by
  unfold ptrAdd toUInt32 physBase
  omega

namespace Caller

variable {r : RamSize} (c : Caller r) {p buffer size : Nat}

/-- Between two mapped bytes that are no more than a page apart every byte is mapped. -/
theorem mapped_between {k i : Nat} (hp : (c.pagedir.translate p).isSome = true) (hk : (c.pagedir.translate (p + k)).isSome = true)
    (hle : k ≤ pgsize) (hi : i ≤ k) : (c.pagedir.translate (p + i)).isSome = true := by
  have hpage : ∀ v, (c.pagedir.translate v).isSome = true ↔ isUserVaddr v = true ∧
      (c.pagedir.lookupPage v).any (·.present) = true := by
    intro v
    unfold PageDir.translate PageDir.mapping
    split <;> cases c.pagedir.lookupPage v <;> simp_all
  rw [hpage] at hp hk ⊢
  have huser : isUserVaddr (p + i) = true := by
    have := of_decide_eq_true hk.1
    exact decide_eq_true (by omega)
  have hsame : (p + i) / pgsize = p / pgsize ∨ (p + i) / pgsize = (p + k) / pgsize := by
    unfold pgsize at hle ⊢
    omega
  rcases hsame with h | h
  · exact ⟨huser, by rw [c.pagedir.lookupPage_congr h]; exact hp.2⟩
  · exact ⟨huser, by rw [c.pagedir.lookupPage_congr h]; exact hk.2⟩

/-- A mapped byte is no byte of the kernel. -/
theorem lt_physBase {n i : Nat} (h : c.RangeMapped p n) (hi : i < n) : p + i < physBase :=
  of_decide_eq_true (c.pagedir.translate_user (c.translate_userAddr (h i hi)))

/-- `validate_pointer` lets the addresses through that are not null and from which on four bytes are mapped. -/
theorem validatePointer_iff : c.validatePointer p = true ↔ p ≠ 0 ∧ c.RangeMapped p 4 := by
  have hbound : physBase + 3 < 2 ^ 32 := by
    unfold physBase
    decide
  unfold validatePointer
  by_cases h0 : p = 0
  · simp [h0]
  rw [if_neg h0]
  by_cases hu : p + 3 < physBase
  · have hadd : ptrAdd p 3 = p + 3 := ptrAdd_of_fits (by omega) (by omega)
    have hp : isUserVaddr p = true := decide_eq_true (by omega)
    have hp3 : isUserVaddr (p + 3) = true := decide_eq_true hu
    rw [hadd, hp, hp3, c.pagedir.getPage_eq hp, c.pagedir.getPage_eq hp3]
    simp only [Bool.not_true, Bool.or_self, Bool.false_eq_true, if_false, Option.isSome_map, Bool.and_eq_true]
    refine ⟨fun h => ⟨h0, fun i hi => c.mapped_between h.1 h.2 (by decide) (by omega)⟩,
      fun h => ⟨h.2 0 (by decide), h.2 3 (by decide)⟩⟩
  · have hno : (!isUserVaddr p || !isUserVaddr (ptrAdd p 3)) = true := by
      by_cases hp : p < physBase
      · have hadd : ptrAdd p 3 = p + 3 := ptrAdd_of_fits (by omega) (by omega)
        simp [hadd, isUserVaddr, hu]
      · simp [isUserVaddr, hp]
    rw [if_pos hno]
    exact ⟨by simp, fun h => absurd (c.lt_physBase h.2 (show 3 < 4 by decide)) hu⟩

/-! ## Buffers -/

/-- The condition on a buffer. A range of less than four bytes, if it is mapped, lies so that the bytes beside it that are
looked at are mapped too; a longer one does not begin at the null pointer, and if its first four bytes and its last four are
mapped, then so are those between them, and it does not wrap around. -/
def EndsDecide (buffer size : Nat) : Prop :=
  if size < 4 then c.RangeMapped buffer size → 4 < buffer + size ∧ c.RangeMapped (buffer + size - 4) (8 - size)
  else (c.RangeMapped buffer size → buffer ≠ 0) ∧
    (buffer ≠ 0 → ptrAdd buffer (size - 4) ≠ 0 → c.RangeMapped buffer 4 → c.RangeMapped (ptrAdd buffer (size - 4)) 4 →
      c.RangeMapped buffer size)

/-- What the two checks of a buffer ask. -/
theorem validateBuffer_iff : c.validateBuffer buffer size = true ↔
    (buffer ≠ 0 ∧ c.RangeMapped buffer 4) ∧ ptrAdd buffer (size - 4) ≠ 0 ∧ c.RangeMapped (ptrAdd buffer (size - 4)) 4 := by
  rw [validateBuffer, Bool.and_eq_true, validatePointer_iff, validatePointer_iff]

/-- For a range of less than four bytes the checks ask for the bytes beside it. -/
theorem validateBuffer_short (hs : size < 4) :
    c.validateBuffer buffer size = true ↔ 4 < buffer + size ∧ c.RangeMapped (buffer + size - 4) (8 - size) := by
  have hbound := physBase_bounds.2
  rw [validateBuffer_iff]
  constructor
  · rintro ⟨⟨h0, hfirst⟩, hq, hlast⟩
    have hlt := c.lt_physBase hfirst (show 0 < 4 by decide)
    have hend := c.lt_physBase hlast (show 0 < 4 by decide)
    have hge : 4 ≤ buffer + size := by
      by_contra hno
      have := ptrAdd_of_neg (p := buffer) (n := size - 4) (by omega) (by omega)
      omega
    have hsum : ptrAdd buffer (size - 4) = buffer + size - 4 := ptrAdd_of_fits (by omega) (by omega)
    rw [hsum] at hq hlast
    refine ⟨by omega, fun i hi => ?_⟩
    by_cases hi4 : i < 4
    · exact hlast i hi4
    · have := hfirst (size + i - 4) (by omega)
      rwa [show buffer + (size + i - 4) = buffer + size - 4 + i by omega] at this
  · rintro ⟨h4, hm⟩
    have hlt := c.lt_physBase hm (show 0 < 8 - size by omega)
    have hsum : ptrAdd buffer (size - 4) = buffer + size - 4 := ptrAdd_of_fits (by omega) (by omega)
    rw [hsum]
    refine ⟨⟨by omega, fun i hi => ?_⟩, by omega, fun i hi => hm i (by omega)⟩
    have := hm (4 - size + i) (by omega)
    rwa [show buffer + size - 4 + (4 - size + i) = buffer + i by omega] at this

/-- The checks of a buffer amount to what they are for just under the condition. -/
theorem checksRange_iff : (c.validateBuffer buffer size = true ↔ c.RangeMapped buffer size) ↔ c.EndsDecide buffer size := by
  have hbound := physBase_bounds.2
  unfold EndsDecide
  split
  · rename_i hs
    rw [c.validateBuffer_short hs]
    refine ⟨fun h => h.mpr, fun h => ⟨fun ⟨h4, hm⟩ i hi => ?_, h⟩⟩
    have := hm (4 - size + i) (by omega)
    rwa [show buffer + size - 4 + (4 - size + i) = buffer + i by omega] at this
  · rw [c.validateBuffer_iff]
    refine ⟨fun h => ⟨fun hm => (h.mpr hm).1.1, fun h0 hq hfirst hlast => h.mp ⟨⟨h0, hfirst⟩, hq, hlast⟩⟩,
      fun h => ⟨?_, fun hm => ?_⟩⟩
    · rintro ⟨⟨h0, hfirst⟩, hq, hlast⟩
      exact h.2 h0 hq hfirst hlast
    have hlt := c.lt_physBase hm (show size - 1 < size by omega)
    have h0 := h.1 hm
    have hsum : ptrAdd buffer (size - 4) = buffer + (size - 4) := ptrAdd_of_fits (by omega) (by omega)
    rw [hsum]
    refine ⟨⟨h0, fun i hi => hm i (by omega)⟩, by omega, fun i hi => ?_⟩
    rw [Nat.add_assoc]
    exact hm _ (by omega)

/-! ## Strings -/

variable (ram : Ram) (file : Nat)

/-- What `validate_string` is to accept: a null byte among the first 512 bytes, with every byte up to it mapped. -/
def StringMapped : Prop := ∃ k < 512, c.RangeMapped file (k + 1) ∧ c.userByte ram (file + k) = some 0

/-- The condition on a string: it is not at the null pointer, and the three bytes behind its first null byte are mapped
too. -/
def TailMapped : Prop :=
  ∀ k < 512, (∀ j < k, c.userByte ram (file + j) ≠ some 0) → c.RangeMapped file (k + 1) → c.userByte ram (file + k) = some 0 →
    file ≠ 0 ∧ c.RangeMapped file (k + 4)

/-- What the loop of `validate_string` asks. -/
theorem validateFrom_iff (n : Nat) :
    (c.validateFrom ram n p).isSome = true ↔ ∃ k < n, (p ≠ 0 ∧ c.RangeMapped p (k + 4)) ∧ c.userByte ram (p + k) = some 0 := by
  have hbound := physBase_bounds.2
  induction n generalizing p with
  | zero => simp [validateFrom]
  | succ n ih =>
    unfold validateFrom
    by_cases hv : c.validatePointer p = true
    · obtain ⟨h0, hm⟩ := c.validatePointer_iff.mp hv
      have hlt := c.lt_physBase hm (show 0 < 4 by decide)
      have hnext : ptrAdd p 1 = p + 1 := ptrAdd_of_fits (by omega) (by omega)
      obtain ⟨a, ha⟩ := Option.isSome_iff_exists.mp (hm 0 (by decide))
      rw [Nat.add_zero] at ha
      have hbyte : c.userByte ram p = some (ram a) := by rw [userByte, ha, Option.map_some]
      simp only [if_pos hv, hbyte, hnext]
      by_cases hb : ram a = 0
      · simp only [if_pos hb, Option.isSome_some, true_iff]
        exact ⟨0, by omega, ⟨h0, hm⟩, by rw [Nat.add_zero, hbyte, hb]⟩
      simp only [if_neg hb, Option.isSome_map, ih]
      constructor
      · rintro ⟨k, hk, ⟨-, hm'⟩, hnul⟩
        refine ⟨k + 1, by omega, ⟨h0, fun i hi => ?_⟩, by rw [← hnul]; congr 1; omega⟩
        rcases Nat.eq_zero_or_pos i with rfl | hi0
        · exact hm 0 (by decide)
        · have := hm' (i - 1) (by omega)
          rwa [show p + 1 + (i - 1) = p + i by omega] at this
      · rintro ⟨k, hk, ⟨-, hm'⟩, hnul⟩
        cases k with
        | zero => exact absurd (Option.some.inj (hbyte.symm.trans hnul)) hb
        | succ k =>
          refine ⟨k, by omega, ⟨by omega, fun i hi => ?_⟩, by rw [← hnul]; congr 1; omega⟩
          have := hm' (i + 1) (by omega)
          rwa [show p + (i + 1) = p + 1 + i by omega] at this
    · rw [if_neg hv]
      refine ⟨by simp, ?_⟩
      rintro ⟨k, -, ⟨h0, hm⟩, -⟩
      exact absurd (c.validatePointer_iff.mpr ⟨h0, fun i hi => hm i (by omega)⟩) hv

/-- `validate_string` accepts what it is to accept just under the condition. -/
theorem validateString_iff : ((c.validateString ram file).isSome = true ↔ c.StringMapped ram file) ↔ c.TailMapped ram file := by
  unfold validateString
  rw [c.validateFrom_iff]
  constructor
  · intro h k hk hfirst hm hnul
    obtain ⟨k', -, ⟨h0, hm'⟩, hnul'⟩ := h.mpr ⟨k, hk, hm, hnul⟩
    have hle : k ≤ k' := by
      by_contra hlt
      exact hfirst k' (by omega) hnul'
    exact ⟨h0, fun i hi => hm' i (by omega)⟩
  · intro h
    refine ⟨fun ⟨k, hk, hm, hnul⟩ => ⟨k, hk, fun i hi => hm.2 i (by omega), hnul⟩, fun hstring => ?_⟩
    obtain ⟨hk, hm, hnul⟩ := Nat.find_spec hstring
    refine ⟨Nat.find hstring, hk, h _ hk (fun j hj hj0 => ?_) hm hnul, hnul⟩
    exact Nat.find_min hstring hj ⟨by omega, fun i hi => hm i (by omega), hj0⟩

end Caller

/-- **When the checks of user addresses are exact.** For every page table, memory, buffer, size and string. -/
theorem user_checks_exact {r : RamSize} (c : Caller r) (ram : Ram) (buffer size file : Nat) :
    ((c.validateBuffer buffer size = true ↔ c.RangeMapped buffer size) ↔ c.EndsDecide buffer size) ∧
    (((c.validateString ram file).isSome = true ↔ c.StringMapped ram file) ↔ c.TailMapped ram file) :=
  ⟨c.checksRange_iff, c.validateString_iff ram file⟩

/-- One byte at the start of the only page is refused, the string "a" in its last two bytes is, and a range that wraps around
the whole address space is not. -/
theorem user_checks_wrong :
    (onePage.RangeMapped 0x08048000 1 ∧ onePage.validateBuffer 0x08048000 1 = false) ∧
    (onePage.RangeMapped 0x08048ffe 2 ∧ onePage.userByte (fun a => if a = 4094 then 97 else 0) 0x08048fff = some 0 ∧
      onePage.validateString (fun a => if a = 4094 then 97 else 0) 0x08048ffe = none) ∧
    ¬onePage.RangeMapped 0x08048100 0xffffffff ∧ onePage.validateBuffer 0x08048100 0xffffffff = true := by
  refine ⟨⟨by decide +kernel, by decide +kernel⟩, ⟨by decide +kernel, by decide +kernel, by decide +kernel⟩, fun h => ?_,
    by decide +kernel⟩
  exact absurd (h 0x1000 (by decide)) (by decide +kernel)

end Pintos
