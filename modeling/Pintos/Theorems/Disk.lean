import Pintos.Lemmas.Disk
import Pintos.Library.Loop

/-!
# Host and kernel agree on the partition table

`make_partition_table` writes one table; `interpret_partition_table` on the host and `read_partition_table` in the kernel
read it. Both readers find the partitions that `assemble_disk` laid out, and nothing else.
-/

namespace Pintos

open List

/-! ## What the host reads -/

/-- Where a partition was put. -/
def HostPartition.extent (p : HostPartition) : Extent := { start := p.start, sectors := p.sectors }

theorem roleOfType_type (r : Role) : roleOfType r.type = some r := by
  cases r <;> decide

variable {parts : List HostPartition} {i : Nat} {m : Bytes.Memory} {line loader : List UInt8} {align : Align} {image : DiskImage}

/-- An entry of a partition whose role was not seen yet is taken. -/
theorem interpretEntry_some (h : HoldsTable m parts) (hi : i < 4)
    {p : HostPartition} (hp : parts[i]? = some p) (h1 : p.start < 2 ^ 32) (h2 : p.sectors < 2 ^ 32) {seen : Role → Option Extent}
    (hs : seen p.role = none) : interpretEntry seen (unpackEntry m i) = Function.update seen p.role (some p.extent) := by
  obtain ⟨hvalid, hboot, htype⟩ := h.marks hi hp
  obtain ⟨hstart, hlen⟩ := h.words hi hp h1 h2
  have hb : ¬(m (446 + 16 * i) ≠ 0 ∧ m (446 + 16 * i) ≠ 0x80) := by
    rintro ⟨ha, hb⟩
    exact hboot.elim ha hb
  simp only [interpretEntry, unpackEntry, if_neg hvalid, if_neg hb, htype, roleOfType_type, hs, Option.isSome_none,
    Bool.false_eq_true, if_false, hstart, hlen, HostPartition.extent]

theorem interpretEntry_none (h : HoldsTable m parts) (hi : i < 4)
    (hp : parts[i]? = none) (seen : Role → Option Extent) : interpretEntry seen (unpackEntry m i) = seen := by
  have hb := h.empty hi hp
  have h0 := hb 0 (by omega)
  rw [Nat.add_zero] at h0
  have hvalid : Bytes.wordAt m (446 + 16 * i) = 0 := by
    simp [Bytes.wordAt, Bytes.word, h0, hb 1 (by omega), hb 2 (by omega), hb 3 (by omega)]
  simp [interpretEntry, unpackEntry, hvalid]

/-- The partitions of a table have 32-bit places and different roles. -/
structure Tabled (parts : List HostPartition) : Prop where
  length : parts.length ≤ 4
  start : ∀ p ∈ parts, p.start < 2 ^ 32
  sectors : ∀ p ∈ parts, p.sectors < 2 ^ 32
  used : ∀ p ∈ parts, 0 < p.sectors
  roles : (parts.map HostPartition.role).Nodup

theorem Tabled.role_fresh (h : Tabled parts) {p : HostPartition} (hp : parts[i]? = some p) :
    ∀ q ∈ parts.take i, q.role ≠ p.role := by
  have hi : i < parts.length := (List.getElem?_eq_some_iff.mp hp).1
  have hsplit : parts = parts.take i ++ p :: parts.drop (i + 1) := by
    rw [← (List.getElem?_eq_some_iff.mp hp).2, ← List.drop_eq_getElem_cons hi, List.take_append_drop]
  have hr := h.roles
  rw [hsplit, map_append, map_cons] at hr
  intro q hq heq
  exact (nodup_append.mp hr).2.2 _ (mem_map_of_mem hq) _ mem_cons_self heq

theorem take_succ_of_some {α : Type} {l : List α} {a : α} (h : l[i]? = some a) : l.take (i + 1) = l.take i ++ [a] := by
  rw [take_add_one, h, Option.toList_some]

theorem take_succ_of_none {α : Type} {l : List α} (h : l[i]? = none) : l.take (i + 1) = l.take i := by
  rw [take_add_one, h, Option.toList_none, append_nil]

/-- After `n` entries the host has found the first `n` partitions. -/
theorem interpret_range (h : HoldsTable m parts) (ht : Tabled parts) (n : Nat) (hn : n ≤ 4) :
    ((range n).map (unpackEntry m)).foldl interpretEntry (fun _ => none) =
      fun r => ((parts.take n).find? (·.role = r)).map HostPartition.extent := by
  induction n with
  | zero =>
    funext r
    simp
  | succ n ih =>
    rw [range_succ, map_append, foldl_append, ih (by omega)]
    simp only [map_cons, map_nil, foldl_cons, foldl_nil]
    cases hp : parts[n]? with
    | none => rw [interpretEntry_none h (by omega) hp, take_succ_of_none hp]
    | some p =>
      have hmem := mem_of_getElem? hp
      have hfresh : ∀ q ∈ parts.take n, ¬q.role = p.role := ht.role_fresh hp
      rw [interpretEntry_some h (by omega) hp (ht.start p hmem) (ht.sectors p hmem)
        (by simpa [find?_eq_none] using hfresh), take_succ_of_some hp]
      funext r
      rw [find?_append]
      by_cases hr : r = p.role
      · have hnone : (parts.take n).find? (·.role = r) = none := by
          rw [hr]
          simpa [find?_eq_none] using hfresh
        rw [hnone]
        subst hr
        simp
      · have hr' : ¬p.role = r := fun he => hr he.symm
        rw [Function.update_of_ne hr]
        simp [hr']

/-! ## What the kernel registers -/

/-- The role of a block device for a role of the host. -/
def Role.blockType : Role → BlockType
  | .kernel => .kernel
  | .filesys => .filesys
  | .scratch => .scratch
  | .swap => .swap

/-- The device that the kernel should register for partition `i` of a disk. -/
def HostPartition.device (i : Nat) (p : HostPartition) : Partition :=
  { partNr := i + 1, type := p.role.blockType, start := p.start, size := p.sectors }

/-- The type of a role is neither empty nor extended, and stands for the role. -/
theorem type_facts (r : Role) :
    (r.type == 0) = false ∧ (r.type == 0x05 || r.type == 0x0f || r.type == 0x85 || r.type == 0xc5) = false ∧
      blockTypeOf r.type = r.blockType := by
  cases r <;> decide

/-- `found_partition` registers what lies inside the device. -/
theorem foundPartition_registers {b : Block} {start size : Nat} (hs : 0 < size) (hb : start + size ≤ b.size)
    (hw : start + size < 2 ^ 32) (partType : UInt8) (scan : Scan) :
    foundPartition b partType start size scan =
      { scan with
        registered :=
  scan.registered ++ [{ partNr := scan.partNr, type := blockTypeOf partType, start := start, size := size }] } := by
  have hmod : (start + size) % 2 ^ 32 = start + size := Nat.mod_eq_of_lt hw
  simp only [foundPartition, hmod]
  rw [if_neg (by omega), if_neg (by omega)]

/-- What the kernel has registered after the first partitions of a table. -/
def registeredAs (parts : List HostPartition) : Scan :=
  { partNr := parts.length, registered := parts.mapIdx HostPartition.device, lines := [], reads := [0] }

/-- After `n` entries of the table in sector 0 the kernel has registered the first `n` partitions. -/
theorem scan_range {b : Block} {pt : Contents} (h : HoldsTable pt.byte parts) (ht : Tabled parts)
    (hin : ∀ p ∈ parts, p.start + p.sectors ≤ b.size ∧ p.start + p.sectors < 2 ^ 32)
    (nested : Nat → Nat → Scan → Except Scan Scan) (n : Nat) (hn : n ≤ 4) :
    ((range n).map pt.partitionEntry).foldlM (readTableEntry b nested 0 0) (registeredAs []) =
      .ok (registeredAs (parts.take n)) := by
  induction n with
  | zero =>
    rfl
  | succ n ih =>
    rw [range_succ, map_append, foldlM_append, ih (by omega)]
    simp only [map_cons, map_nil, bind, Except.bind]
    cases hp : parts[n]? with
    | none =>
      have htype : (pt.partitionEntry n).isEmpty = true := by
        have h4 := h.empty (show n < 4 by omega) hp 4 (by omega)
        simp [Contents.partitionEntry, PartitionTableEntry.isEmpty, partitionsOffset, partitionEntrySize, h4]
      rw [take_succ_of_none hp, Loop.foldlM_cons_ok (t := registeredAs (parts.take n))
        (by simp only [readTableEntry, htype, if_true])]
      rfl
    | some p =>
      have hmem := mem_of_getElem? hp
      obtain ⟨hb, hw⟩ := hin p hmem
      obtain ⟨-, -, htype⟩ := h.marks (show n < 4 by omega) hp
      obtain ⟨hstart, hlen⟩ := h.words (show n < 4 by omega) hp (ht.start p hmem) (ht.sectors p hmem)
      have he : pt.partitionEntry n = { type := p.role.type, offset := p.start, size := p.sectors } := by
        simp [Contents.partitionEntry, partitionsOffset, partitionEntrySize, htype, hstart, hlen]
      obtain ⟨hne, hnx, hrole⟩ := type_facts p.role
      have hsize : (p.sectors == 0) = false := by
        have := ht.used p hmem
        simp
        omega
      have hturn : readTableEntry b nested 0 0 (registeredAs (parts.take n)) (pt.partitionEntry n) =
          .ok (registeredAs (parts.take (n + 1))) := by
        have hstart' : (p.start + 0) % 2 ^ 32 = p.start := Nat.mod_eq_of_lt (ht.start p hmem)
        simp only [he, readTableEntry, PartitionTableEntry.isEmpty, PartitionTableEntry.isExtended, hne, hsize, hnx,
          Bool.or_false, Bool.false_eq_true, if_false, hstart']
        rw [foundPartition_registers (ht.used p hmem) hb hw, take_succ_of_some hp, hrole]
        simp [registeredAs, HostPartition.device]
      rw [Loop.foldlM_cons_ok hturn]
      rfl

/-! ## The disk -/

/-- What `assemble_disk` leaves, part by part. -/
structure Assembled (align : Align) (loader line : List UInt8) (parts : Role → Option (List UInt8))
    (image : DiskImage) : Prop where
  line_length : line.length = 132
  laidOut : LaidOut (if align.align then Geometry.default.s else 1) image.totalSectors (inRoleOrder parts) image.parts
  length : image.totalSectors ≤ image.block.size
  record : ∃ rest, image.bytes = masterRecord .default loader line image.parts ++ rest

theorem assembleDisk_eq (align : Align) (g : Geometry) (loader : List UInt8) {args : List CString}
    (hline : makeKernelCommandLine args = some line) (parts : Role → Option (List UInt8))
    {laid : List HostPartition} {total : Nat}
    (hlaid : layOut align.align g (if align.align then g.s else 1) (inRoleOrder parts) = (laid, total)) :
    assembleDisk align g loader args parts =
      some { parts := laid, totalSectors := total,
             bytes := masterRecord g loader line laid ++ writeParts align g laid total } := by
  have hlen := makeKernelCommandLine_length hline
  unfold assembleDisk
  simp only [hlaid, hline, bind, Option.bind_some]
  rw [if_neg (not_not.mpr (masterRecord_length g loader hlen _))]

/-- The sizes of the parts of the disk file add up. -/
theorem assembleDisk_assembled {args : List CString} {parts : Role → Option (List UInt8)}
    (h : assembleDisk align .default loader args parts = some image) (hne : ∀ x ∈ inRoleOrder parts, x.2 ≠ []) :
    ∃ line, Assembled align loader line parts image := by
  have hline : ∃ line, makeKernelCommandLine args = some line := by
    cases hl : makeKernelCommandLine args with
    | some line => exact ⟨line, rfl⟩
    | none =>
      simp only [assembleDisk, hl, bind, Option.bind_none] at h
      cases h
  obtain ⟨line, hline⟩ := hline
  rw [assembleDisk_eq align .default loader hline parts rfl] at h
  have hlen := makeKernelCommandLine_length hline
  have hout := layOut_laidOut align.align (g := .default) (by decide) (if align.align then Geometry.default.s else 1)
    (inRoleOrder parts) hne
  have hgap : 512 + (if align.align then replicate (512 * (Geometry.default.s - 1)) (0 : UInt8) else []).length =
      (if align.align then Geometry.default.s else 1) * 512 := by
    split
    · rw [length_replicate]
      rfl
    · rfl
  cases h
  refine ⟨line, hlen, hout, ?_, _, rfl⟩
  have hcopied := hout.copied
  unfold DiskImage.block
  simp only [writeParts, length_append, masterRecord_length _ loader hlen] at hcopied ⊢
  omega

theorem mem_inRoleOrder {parts : Role → Option (List UInt8)} {x : Role × List UInt8} (h : x ∈ inRoleOrder parts) :
    parts x.1 = some x.2 := by
  obtain ⟨r, -, hr⟩ := mem_filterMap.mp h
  obtain ⟨bytes, hb, rfl⟩ := Option.map_eq_some_iff.mp hr
  exact hb

/-- The roles of a disk are in the order of the roles, so no role comes twice. -/
theorem inRoleOrder_nodup (parts : Role → Option (List UInt8)) :
    ((inRoleOrder parts).map Prod.fst).Nodup ∧ (inRoleOrder parts).length ≤ 4 := by
  have hsub : ((inRoleOrder parts).map Prod.fst).Sublist roleOrder := by
    have hmap : (inRoleOrder parts).map Prod.fst = roleOrder.filter (fun r => (parts r).isSome) := by
      unfold inRoleOrder
      rw [map_filterMap, ← filterMap_eq_filter]
      refine filterMap_congr (fun r _ => ?_)
      cases hr : parts r <;> simp [Option.guard, hr]
    rw [hmap]
    exact filter_sublist
  refine ⟨hsub.nodup (by decide), ?_⟩
  have := hsub.length_le
  rwa [length_map] at this

/-- The partitions of a disk fit its table. -/
theorem Assembled.tabled {parts : Role → Option (List UInt8)}
    (h : Assembled align loader line parts image) (htotal : image.totalSectors < 2 ^ 32) : Tabled image.parts := by
  have hroles : image.parts.map HostPartition.role = (inRoleOrder parts).map Prod.fst := by
    rw [← h.laidOut.same, map_map]
    rfl
  obtain ⟨hnd, hlen⟩ := inRoleOrder_nodup parts
  refine ⟨?_, fun p hp => ?_, fun p hp => ?_, fun p hp => (h.laidOut.bounds p hp).2.1, hroles ▸ hnd⟩
  · rw [← h.laidOut.same, length_map] at hlen
    exact hlen
  · have := h.laidOut.bounds p hp
    omega
  · have := h.laidOut.bounds p hp
    omega

/-- Sector 0 of the disk holds the table. -/
theorem Assembled.holdsTable {parts : Role → Option (List UInt8)}
    (h : Assembled align loader line parts image) (hlen : image.parts.length ≤ 4) :
    HoldsTable (image.block.disk 0).byte image.parts ∧ (image.block.disk 0).signature = 0xaa55 := by
  obtain ⟨rest, hrest⟩ := h.record
  have hmbr := masterRecord_length .default loader h.line_length image.parts
  have hbyte : ∀ k, k < 512 → (image.block.disk 0).byte k = (masterRecord .default loader line image.parts).getD k 0 := by
    intro k hk
    have hk' : k < blockSectorSize := hk
    simp only [DiskImage.block, if_pos hk', Nat.mul_zero, Nat.zero_add, hrest]
    exact getD_append _ _ _ _ (by omega)
  constructor
  · intro i hi j hj
    rw [hbyte _ (by omega)]
    exact masterRecord_entry .default loader h.line_length hlen hi hj
  · obtain ⟨h0, h1⟩ := masterRecord_signature .default loader h.line_length image.parts
    rw [Contents.signature, hbyte 510 (by omega), hbyte 511 (by omega), h0, h1]
    rfl

/-- **Host and kernel agree on the partition table.** Take any choice of roles with at least one byte each, any alignment and
the default geometry, on a disk of fewer than 2^32 sectors. `assemble_disk` lays out exactly the chosen roles, disjoint,
behind the master record and inside the disk. `interpret_partition_table` finds the place of every role chosen, and none for
the others. The kernel's scan of the disk ends, and registers exactly these partitions, each with its start, its size and its
role. -/
theorem assembleDisk_read_back (align : Align) (loader : List UInt8) (args : List CString) (parts : Role → Option (List UInt8))
    (image : DiskImage) (himage : assembleDisk align .default loader args parts = some image)
    (hsome : ∃ r, (parts r).isSome = true)
    (hbytes : ∀ r bytes, parts r = some bytes → bytes ≠ []) (htotal : image.totalSectors < 2 ^ 32) :
    image.parts.map (fun p => (p.role, p.bytes)) = inRoleOrder parts ∧
      image.parts.Pairwise (fun p q => p.start + p.sectors ≤ q.start) ∧
      (∀ p ∈ image.parts, 1 ≤ p.start ∧ p.bytes.length ≤ p.sectors * 512 ∧ p.start + p.sectors ≤ image.block.size) ∧
      (∀ r, interpretPartitionTable (image.block.disk 0).byte r =
        (image.parts.find? (fun p => p.role = r)).map HostPartition.extent) ∧
      ∀ depth, partitionScan image.block (depth + 1) =
        .ok { partNr := image.parts.length, registered := image.parts.mapIdx HostPartition.device, lines := [],
              reads := [0] } := by
  obtain ⟨line, h⟩ := assembleDisk_assembled himage (fun x hx => hbytes x.1 x.2 (mem_inRoleOrder hx))
  have ht := h.tabled htotal
  obtain ⟨htable, hsig⟩ := h.holdsTable ht.length
  have hfirst : 1 ≤ (if align.align then Geometry.default.s else 1) := by cases align <;> decide
  have hin : ∀ p ∈ image.parts, p.start + p.sectors ≤ image.block.size ∧ p.start + p.sectors < 2 ^ 32 := by
    intro p hp
    have h1 := (h.laidOut.bounds p hp).2.2
    have h2 := h.length
    omega
  refine ⟨h.laidOut.same, h.laidOut.apart, fun p hp => ?_, fun r => ?_, fun depth => ?_⟩
  · have hb := h.laidOut.bounds p hp
    exact ⟨by omega, h.laidOut.room p hp, (hin p hp).1⟩
  · unfold interpretPartitionTable
    rw [interpret_range htable ht 4 (Nat.le_refl 4), take_of_length_le ht.length]
  have hsize : 0 < image.block.size := by
    have h1 := h.length
    have h2 := h.laidOut.le
    omega
  have hcount : image.parts.length ≠ 0 := by
    obtain ⟨r, hr⟩ := hsome
    obtain ⟨bytes, hr⟩ := Option.isSome_iff_exists.mp hr
    have hmem : (r, bytes) ∈ inRoleOrder parts := mem_filterMap.mpr ⟨r, by cases r <;> decide, by rw [hr, Option.map_some]⟩
    rw [← h.laidOut.same] at hmem
    obtain ⟨p, hp, -⟩ := mem_map.mp hmem
    exact (length_pos_of_mem hp).ne'
  have hscan := scan_range htable ht hin (readPartitionTable image.block depth) 4 (Nat.le_refl 4)
  rw [take_of_length_le ht.length] at hscan
  have hread : readPartitionTable image.block (depth + 1) 0 0 .start =
      .ok (registeredAs image.parts) := by
    simp only [readPartitionTable, if_neg (Nat.not_le.mpr hsize), Block.read, Block.checkSector, hsize, decide_true,
      if_true, hsig, ne_eq, not_true, if_false]
    exact hscan
  simp only [partitionScan, hread, bind, Except.bind, pure, Except.pure, registeredAs, if_neg hcount]

/-- A kernel of one byte and a file system of two bytes. -/
def smallParts : Role → Option (List UInt8)
  | .kernel => some [1]
  | .filesys => some [2, 3]
  | _ => none

/-- Unaligned, the kernel is sector 1 and the file system sector 2. -/
theorem smallParts_read_back :
    ∃ image, assembleDisk .none .default [] [] smallParts = some image ∧
      partitionScan image.block 1 =
        .ok { partNr := 2, lines := [], reads := [0]
              registered :=
                [{ partNr := 1, type := .kernel, start := 1, size := 1 },
                    { partNr := 2, type := .filesys, start := 2, size := 1 }] } := by
  have himage := assembleDisk_eq .none .default [] (show makeKernelCommandLine [] = some _ from rfl) smallParts rfl
  refine ⟨_, himage, (assembleDisk_read_back .none [] [] smallParts _ himage ⟨.kernel, rfl⟩ ?_ (by decide)).2.2.2.2 0⟩
  rintro (_ | _ | _ | _) bytes h <;> simp only [smallParts, Option.some.injEq, reduceCtorEq] at h <;> subst h <;> simp

end Pintos
