import Pintos.Utils.Disk
import Pintos.Devices.Partition

/-!
# The master boot record, written and read

What the layout of a disk keeps, where the entries of the partition table lie in the record, and what each of the two readers
takes from an entry that `make_partition_table` wrote and from one that it left empty.
-/

namespace Pintos

open Bytes List HostPartition

variable {line : List UInt8} {p : HostPartition}

/-! ## The layout -/

theorem le_divRoundUp_mul (x : Nat) {y : Nat} (hy : 0 < y) : x ≤ divRoundUp x y * y := by
  unfold divRoundUp
  have h := Nat.div_add_mod (x + y - 1) y
  have h' := Nat.mod_lt (x + y - 1) hy
  rw [Nat.mul_comm] at h
  omega

/-- What the layout of a list of partitions keeps: the order, the room for each, and the sectors that all of them take. -/
structure LaidOut (first last : Nat) (input : List (Role × List UInt8)) (parts : List HostPartition) : Prop where
  le : first ≤ last
  same : parts.map (fun p => (p.role, p.bytes)) = input
  bounds : ∀ p ∈ parts, first ≤ p.start ∧ 0 < p.sectors ∧ p.start + p.sectors ≤ last
  room : ∀ p ∈ parts, p.bytes.length ≤ p.sectors * 512
  apart : parts.Pairwise (fun p q => p.start + p.sectors ≤ q.start)
  copied : (parts.flatMap (fun p => p.bytes ++ replicate (p.sectors * 512 - p.bytes.length) 0)).length = (last - first) * 512

/-- The loop of `assemble_disk` lays the partitions out one behind the other. -/
theorem layOut_laidOut (align : Bool) {g : Geometry} (hg : 0 < g.cylSectors) (first : Nat) (input : List (Role × List UInt8))
    (hne : ∀ x ∈ input, x.2 ≠ []) : LaidOut first (layOut align g first input).2 input (layOut align g first input).1 := by
  induction input generalizing first with
  | nil => exact ⟨Nat.le_refl _, rfl, nofun, nofun, Pairwise.nil, by simp [layOut]⟩
  | cons x rest ih =>
    obtain ⟨role, bytes⟩ := x
    have hlen : 0 < bytes.length := length_pos_iff.mpr (hne (role, bytes) mem_cons_self)
    have hfit := le_divRoundUp_mul bytes.length (y := 512) (by decide)
    simp only [layOut]
    generalize hstop : (if align = true then roundUp (first + divRoundUp bytes.length 512) g.cylSectors
      else first + divRoundUp bytes.length 512) = stop
    have hle : first + divRoundUp bytes.length 512 ≤ stop := by
      rw [← hstop]
      split
      · exact le_divRoundUp_mul _ hg
      · exact Nat.le_refl _
    have hroom : bytes.length ≤ (stop - first) * 512 := Nat.le_trans hfit (Nat.mul_le_mul_right 512 (Nat.le_sub_of_add_le' hle))
    have h := ih stop (fun y hy => hne y (mem_cons_of_mem _ hy))
    refine ⟨by have := h.le; omega, ?_, ?_, ?_, ?_, ?_⟩
    · rw [map_cons, h.same]
    · refine forall_mem_cons.mpr ⟨?_, fun p hp => ?_⟩
      · have := h.le
        refine ⟨Nat.le_refl _, ?_, ?_⟩ <;> simp only <;> omega
      · have := h.bounds p hp
        omega
    · exact forall_mem_cons.mpr ⟨hroom, h.room⟩
    · refine pairwise_cons.mpr ⟨fun q hq => ?_, h.apart⟩
      have := (h.bounds q hq).1
      simp only
      omega
    · have := h.le
      rw [flatMap_cons, length_append, h.copied, length_append, length_replicate]
      simp only
      omega

/-! ## Where the entries lie -/

@[simp] theorem packA_length (n : Nat) (bs : List UInt8) : (packA n bs).length = n := by
  simp [packA]

/-- Filling up with null bytes changes no byte that is read with the default of a null byte. -/
theorem packA_getD {n : Nat} {bs : List UInt8} (h : bs.length ≤ n) (k : Nat) : (packA n bs).getD k 0 = bs.getD k 0 := by
  unfold packA
  simp only [getD_eq_getElem?_getD, getElem?_take, getElem?_append, getElem?_replicate]
  split
  · split
    · rfl
    · rw [getElem?_eq_none (by omega)]
      split <;> rfl
  · rw [getElem?_eq_none (by omega)]

@[simp] theorem entry_length (g : Geometry) (p : HostPartition) : (p.entry g).length = 16 := rfl

theorem makeKernelCommandLine_length {args : List CString} (h : makeKernelCommandLine args = some line) : line.length = 132 := by
  unfold makeKernelCommandLine at h
  simp only at h
  split at h
  · cases h
  · rw [← Option.some.inj h]
    simp [wordBytes]

section

variable (g : Geometry) (loader : List UInt8) (hline : line.length = 132)
include g loader hline

theorem masterRecord_length (parts : List HostPartition) : (masterRecord g loader line parts).length = 512 := by
  simp [masterRecord, makePartitionTable, hline, loaderSize]

/-- The 16 bytes of entry `i`: those of partition `i`, or null bytes. -/
theorem masterRecord_entry {parts : List HostPartition} (hparts : parts.length ≤ 4) {i j : Nat} (hi : i < 4) (hj : j < 16) :
    (masterRecord g loader line parts).getD (446 + 16 * i + j) 0 = ((parts[i]?).elim [] (entry g)).getD j 0 := by
  have hpre : (packA loaderSize loader ++ line).length = 446 := by
    rw [length_append, packA_length, hline]
    rfl
  have htab : (parts.flatMap (entry g)).length ≤ 64 := by
    rw [flatMap_length (entry_length g)]
    omega
  have hk : 446 + 16 * i + j - (packA loaderSize loader ++ line).length = 16 * i + j := by omega
  unfold masterRecord
  rw [getD_append _ _ _ _ (by rw [length_append, hpre, makePartitionTable, packA_length]; omega),
    getD_append_right _ _ _ _ (by rw [hpre]; omega), hk, makePartitionTable, packA_getD htab,
    flatMap_getD (entry_length g) parts i j hj]

/-- The two bytes after the table. -/
theorem masterRecord_signature (parts : List HostPartition) :
    (masterRecord g loader line parts).getD 510 0 = 0x55 ∧ (masterRecord g loader line parts).getD 511 0 = 0xaa := by
  have hpre : (packA loaderSize loader ++ line ++ makePartitionTable g parts).length = 510 := by
    rw [length_append, length_append, packA_length, hline, makePartitionTable, packA_length]
    rfl
  unfold masterRecord
  rw [getD_append_right _ _ _ _ (by rw [hpre]), getD_append_right _ _ _ _ (by rw [hpre]; omega), hpre]
  exact ⟨rfl, rfl⟩

end

/-! ## The two readers -/

/-- A memory holds the table of a list of partitions: each entry that of a partition, the others empty. -/
def HoldsTable (m : Memory) (parts : List HostPartition) : Prop :=
  ∀ i, i < 4 → ∀ j, j < 16 → m (446 + 16 * i + j) = ((parts[i]?).elim [] (entry .default)).getD j 0

/-- The second of the three bytes of a geometric address holds the sector, and sectors are counted from 1. -/
theorem packChs_getD_one (lba : Nat) : (packChs lba .default).getD 1 0 ≠ 0 := by
  have hval : ∀ cyl sect : Nat, 1 ≤ sect → sect ≤ 63 → UInt8.ofNat (sect ||| ((cyl >>> 2) &&& 0xc0)) ≠ 0 := by
    intro cyl sect h1 h63 h0
    have hle : sect ≤ sect ||| ((cyl >>> 2) &&& 0xc0) := Nat.left_le_or
    have hlt : sect ||| ((cyl >>> 2) &&& 0xc0) < 2 ^ 8 :=
      Nat.or_lt_two_pow (by omega) (Nat.lt_of_le_of_lt Nat.and_le_right (by decide))
    have h := congrArg UInt8.toNat h0
    rw [UInt8.toNat_ofNat', Nat.mod_eq_of_lt hlt] at h
    have : (0 : UInt8).toNat = 0 := rfl
    omega
  have hs : 1 ≤ (lbaToChs lba .default).2.2 ∧ (lbaToChs lba .default).2.2 ≤ 63 := by
    unfold lbaToChs
    simp only
    have := Nat.mod_lt (lba % (Geometry.default.h * Geometry.default.s)) (y := Geometry.default.s) (by decide)
    have h63 : Geometry.default.s = 63 := rfl
    split <;> simp only <;> omega
  exact hval _ _ hs.1 hs.2

section Entry

variable {m : Memory} {parts : List HostPartition} (h : HoldsTable m parts) {i : Nat} (hi : i < 4)

include h hi

/-- The bytes of an entry that stands for a partition. -/
theorem HoldsTable.slice_entry (hp : parts[i]? = some p) : slice m (446 + 16 * i) 16 = p.entry .default := by
  refine ext_getElem (by simp) (fun j h1 h2 => ?_)
  have hj : j < 16 := by simpa using h1
  simp only [slice, getElem_map, getElem_range]
  rw [h i hi j hj, hp, Option.elim_some, getD_eq_getElem _ _ h2]

theorem HoldsTable.words (hp : parts[i]? = some p) (h1 : p.start < 2 ^ 32) (h2 : p.sectors < 2 ^ 32) :
    wordAt m (446 + 16 * i + 8) = p.start ∧ wordAt m (446 + 16 * i + 12) = p.sectors := by
  have hs := h.slice_entry hi hp
  rw [show 16 = 12 + 4 from rfl, slice_add, entry] at hs
  obtain ⟨ha, hb⟩ := append_inj hs rfl
  rw [show 12 = 8 + 4 from rfl, slice_add] at ha
  obtain ⟨-, hc⟩ := append_inj ha rfl
  exact ⟨by rw [wordAt_of_slice hc, Nat.mod_eq_of_lt h1], by rw [wordAt_of_slice hb, Nat.mod_eq_of_lt h2]⟩

/-- An entry that stands for a partition is in use, well marked and of the type of the role. -/
theorem HoldsTable.marks (hp : parts[i]? = some p) :
    wordAt m (446 + 16 * i) ≠ 0 ∧ (m (446 + 16 * i) = 0 ∨ m (446 + 16 * i) = 0x80) ∧ m (446 + 16 * i + 4) = p.role.type := by
  have hb : ∀ j, j < 16 → m (446 + 16 * i + j) = (p.entry .default).getD j 0 := by
    intro j hj
    rw [h i hi j hj, hp, Option.elim_some]
  refine ⟨fun h0 => ?_, ?_, hb 4 (by omega)⟩
  · have h2 : (m (446 + 16 * i + 2)).toNat = 0 := by
      unfold wordAt word at h0
      simp only [Nat.mul_zero, Nat.zero_add] at h0
      omega
    have hne := packChs_getD_one p.start
    rw [hb 2 (by omega)] at h2
    exact hne (UInt8.toNat.inj h2)
  · have h0 := hb 0 (by omega)
    rw [Nat.add_zero] at h0
    rw [h0]
    unfold entry
    by_cases hk : p.role = .kernel
    · right
      simp [hk]
    · left
      simp [hk]

/-- The bytes of an empty entry. -/
theorem HoldsTable.empty (hp : parts[i]? = none) (j : Nat) (hj : j < 16) : m (446 + 16 * i + j) = 0 := by
  rw [h i hi j hj, hp]
  rfl

end Entry

end Pintos
