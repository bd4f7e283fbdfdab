import Pintos.Theorems.Partition

/-!
# The partitions that the tables describe

What the tables of a disk describe is a walk over their entries in depth-first order, and a disk has such a walk exactly if
its chain of tables is finite and every table lies inside the device and carries the signature. `read_partition_table` reads
sector 0 for every table.
-/

namespace Pintos

open List

/-- What a walk over the tables comes to: a further table, or a partition with its type, first sector and size. -/
inductive Described where
  | table (sector : Nat)
  | partition (type : UInt8) (start size : Nat)
  deriving DecidableEq

/-- The entries of the table in a sector, each with the sector and the extended partition that led to it. -/
def tableEntries (b : Block) (sector primary : Nat) : List (Nat × Nat × PartitionTableEntry) :=
  (b.disk sector).partitions.map (sector, primary, ·)

/-- The walk over entries still to be looked at. An extended entry of the master record names a sector, one of any other
table adds to that sector; the table there is walked over before the entries that follow. -/
inductive Walk (b : Block) : List (Nat × Nat × PartitionTableEntry) → List Described → Prop where
  | done : Walk b [] []
  | empty {sector primary e rest l} : e.isEmpty = true → Walk b rest l → Walk b ((sector, primary, e) :: rest) l
  | partition {sector primary e rest l} : e.isEmpty = false → e.isExtended = false → Walk b rest l →
      Walk b ((sector, primary, e) :: rest) (.partition e.type (sector + e.offset) e.size :: l)
  | master {primary e rest l} : e.isEmpty = false → e.isExtended = true → e.offset < b.size →
      (b.disk e.offset).signature = 0xaa55 → Walk b (tableEntries b e.offset e.offset ++ rest) l →
      Walk b ((0, primary, e) :: rest) (.table e.offset :: l)
  | nested {sector primary e rest l} : sector ≠ 0 → e.isEmpty = false → e.isExtended = true → e.offset + primary < b.size →
      (b.disk (e.offset + primary)).signature = 0xaa55 → Walk b (tableEntries b (e.offset + primary) primary ++ rest) l →
      Walk b ((sector, primary, e) :: rest) (.table (e.offset + primary) :: l)

/-- The partitions of a walk that lie inside the device, numbered from `first` on. -/
def numbered (b : Block) (first : Nat) : List Described → List Partition
  | [] => []
  | .table _ :: l => numbered b first l
  | .partition type start size :: l =>
    (if start + size ≤ b.size then [{ partNr := first, type := blockTypeOf type, start := start, size := size }] else []) ++
      numbered b (first + 1) l

variable {b : Block} {e : PartitionTableEntry}

/-- A walk over an extended entry of the master record comes to its table, which is another sector. -/
theorem Walk.master_table {es : List (Nat × Nat × PartitionTableEntry)} {l : List Described} (h : Walk b es l)
    (he : e ∈ b.extendedEntries) (hm : (0, 0, e) ∈ es) : e.offset ≠ 0 ∧ .table e.offset ∈ l := by
  obtain ⟨hin, hne, hex⟩ := mem_extendedEntries.mp he
  induction h with
  | done => cases hm
  | empty h0 _ ih =>
    rcases mem_cons.mp hm with hm | hm
    · cases hm
      rw [hne] at h0
      cases h0
    · exact ih hm
  | partition _ h0 _ ih =>
    rcases mem_cons.mp hm with hm | hm
    · cases hm
      rw [hex] at h0
      cases h0
    · exact ⟨(ih hm).1, mem_cons_of_mem _ (ih hm).2⟩
  | @master _ e' _ _ _ _ _ _ _ ih =>
    rcases mem_cons.mp hm with hm | hm
    · cases hm
      refine ⟨fun h0 => ?_, mem_cons_self⟩
      -- the table of sector 0 again, with the same entry
      refine (ih (mem_append_left _ ?_)).1 h0
      rw [h0]
      exact mem_map.mpr ⟨e, hin, rfl⟩
    · have := ih (mem_append_right _ hm)
      exact ⟨this.1, mem_cons_of_mem _ this.2⟩
  | nested h0 _ _ _ _ _ ih =>
    rcases mem_cons.mp hm with hm | hm
    · cases hm
      exact absurd rfl h0
    · have := ih (mem_append_right _ hm)
      exact ⟨this.1, mem_cons_of_mem _ this.2⟩

/-- An offset is a 32-bit word. -/
theorem partitions_offset_lt {pt : Contents} (he : e ∈ pt.partitions) : e.offset < 2 ^ 32 := by
  obtain ⟨i, -, rfl⟩ := mem_map.mp he
  exact Bytes.word_lt (fun j => pt.byte (partitionsOffset + partitionEntrySize * i + 8 + j)) 0

/-- `found_partition` registers the partitions that lie inside the device. -/
theorem foundPartition_registered (hb : b.size < 2 ^ 32) (type : UInt8) {start size : Nat} (hs : start < 2 ^ 32)
    (hn : size < 2 ^ 32) (h0 : 0 < size) (scan : Scan) : (foundPartition b type start size scan).partNr = scan.partNr ∧
      (foundPartition b type start size scan).reads = scan.reads ∧
      (foundPartition b type start size scan).registered = scan.registered ++
        if start + size ≤ b.size then [{ partNr := scan.partNr, type := blockTypeOf type, start := start, size := size }]
        else [] := by
  unfold foundPartition
  simp only
  split
  · exact ⟨rfl, rfl, by rw [if_neg (by omega), append_nil]; rfl⟩
  · split
    · exact ⟨rfl, rfl, by rw [if_neg (by omega), append_nil]; rfl⟩
    · exact ⟨rfl, rfl, by rw [if_pos (by omega)]⟩

/-- Entries of the master record of which none is extended: the loop registers what the walk describes, and the walk comes to
no table. -/
theorem foldlM_plain (hb : b.size < 2 ^ 32) (nested : Nat → Nat → Scan → Except Scan Scan) {es : List PartitionTableEntry}
    (hes : ∀ e ∈ es, e.offset < 2 ^ 32 ∧ e.size < 2 ^ 32) (hplain : ∀ e ∈ es, e.isEmpty = false → e.isExtended = false)
    {l : List Described} (h : Walk b (es.map (0, 0, ·)) l) (scan : Scan) :
    (∀ x, .table x ∉ l) ∧ ∃ scan', es.foldlM (readTableEntry b nested 0 0) scan = .ok scan' ∧ scan'.reads = scan.reads ∧
      scan'.registered = scan.registered ++ numbered b (scan.partNr + 1) l := by
  induction es generalizing l scan with
  | nil =>
    cases h
    exact ⟨nofun, scan, rfl, rfl, (append_nil _).symm⟩
  | cons e es ih =>
    have hrest := @ih (fun e he => hes e (mem_cons_of_mem _ he)) (fun e he => hplain e (mem_cons_of_mem _ he))
    obtain ⟨ho, hn⟩ := hes e mem_cons_self
    cases h with
    | empty h0 h =>
      rw [Loop.foldlM_cons_ok (show readTableEntry b nested 0 0 scan e = .ok scan by rw [readTableEntry, if_pos h0])]
      exact hrest h scan
    | partition h0 h1 h =>
      have hpos : 0 < e.size := by
        simp only [PartitionTableEntry.isEmpty, Bool.or_eq_false_iff, beq_eq_false_iff_ne] at h0
        omega
      obtain ⟨hnr, hreads, hreg⟩ := foundPartition_registered hb e.type (Nat.mod_lt e.offset (by decide)) hn hpos
        { scan with partNr := scan.partNr + 1 }
      rw [Loop.foldlM_cons_ok (by rw [readTableEntry, h0, h1]; rfl)]
      obtain ⟨hno, scan', hloop, hreads', hscan'⟩ := hrest h _
      refine ⟨fun x hx => hno x (mem_of_ne_of_mem (by simp) hx), scan', hloop, ?_, ?_⟩
      · rw [hreads', Nat.add_zero, hreads]
      · rw [hscan', Nat.add_zero, hreg, hnr, append_assoc, Nat.mod_eq_of_lt ho, numbered, Nat.zero_add]
    | master h0 h1 => rw [hplain e mem_cons_self h0] at h1; cases h1
    | nested h0 => exact absurd rfl h0

/-- **Partitions found and described.** On a disk with a finite chain of valid tables inside the device, `partition_scan`
visits every table and registers exactly the partitions described that lie inside the device, exactly if the master record
has no extended entry. -/
theorem partitions_found_iff (b : Block) (hb : b.size < 2 ^ 32) (ht : b.hasTable = true) (l : List Described)
    (h : Walk b (tableEntries b 0 0) l) :
    ((∀ x, .table x ∈ .table 0 :: l → ∃ depth, x ∈ (Scan.soFar (partitionScan b depth)).reads) ∧
      ∃ depth scan, partitionScan b depth = .ok scan ∧ scan.registered = numbered b 1 l) ↔ b.extendedEntries = [] := by
  constructor
  · rintro ⟨hread, -⟩
    refine eq_nil_iff_forall_not_mem.mpr (fun e he => ?_)
    obtain ⟨hne, hmem⟩ := h.master_table he (mem_map.mpr ⟨e, (mem_extendedEntries.mp he).1, rfl⟩)
    obtain ⟨depth, hx⟩ := hread e.offset (mem_cons_of_mem _ hmem)
    exact hne ((partitionScan_inside b depth).2 _ hx)
  · intro hnil
    have hsize : 0 < b.size := by simp [Block.hasTable] at ht; exact ht.1
    obtain ⟨hno, scan, hloop, hreads, hreg⟩ := foldlM_plain hb (readPartitionTable b 0)
      (fun e he => ⟨partitions_offset_lt he, partitions_size_lt he⟩)
      (fun e he h0 => by
        by_contra h1
        have := mem_extendedEntries.mpr ⟨he, h0, by simpa using h1⟩
        rw [hnil] at this
        cases this)
      h (Scan.start.read 0)
    have hscan : partitionScan b 1 = .ok (if scan.partNr = 0 then scan.print .noPartitions else scan) := by
      rw [partitionScan, readPartitionTable_table ht hsize, hloop]
      rfl
    refine ⟨fun x hx => ⟨1, ?_⟩, 1, _, hscan, ?_⟩
    · rcases mem_cons.mp hx with hx | hx
      · cases hx
        rw [hscan, Scan.soFar, apply_ite Scan.reads, Scan.print, ite_self, hreads]
        exact mem_singleton_self 0
      · exact absurd hx (hno x)
    · rw [apply_ite Scan.registered, Scan.print, ite_self, hreg]
      rfl

/-- The one partition of that disk is found. -/
theorem filesysDisk_found : ∃ depth scan, partitionScan filesysDisk depth = .ok scan ∧
    scan.registered = [{ partNr := 1, type := .filesys, start := 1, size := 2 }] := by
  have hes : tableEntries filesysDisk 0 0 = (0, 0, ⟨0x21, 1, 2⟩) :: replicate 3 (0, 0, ⟨0, 0, 0⟩) := by decide +kernel
  have hwalk : Walk filesysDisk (tableEntries filesysDisk 0 0) [.partition 0x21 1 2] := by
    rw [hes]
    exact .partition rfl rfl (.empty rfl (.empty rfl (.empty rfl .done)))
  exact ((partitions_found_iff filesysDisk (by decide) (by decide +kernel) _ hwalk).mpr (by decide +kernel)).2

/-- A sector with a table of one entry. -/
def oneEntry (entry : List UInt8) : Contents := ((Contents.fill 0).splice (partitionsOffset + 4) entry).splice 510 [0x55, 0xaa]

/-- A disk of four sectors with an extended partition at sector 2, whose table describes a file system at sector 3. -/
def nestedDisk : Block :=
  { size := 4
    disk := fun x => if x = 0 then oneEntry [0x05, 0, 0, 0, 2, 0, 0, 0, 2] else oneEntry [0x21, 0, 0, 0, 1, 0, 0, 0, 1] }

/-- The scan of that disk returns without having read the second table, and registers nothing. -/
theorem nestedDisk_missed : Walk nestedDisk (tableEntries nestedDisk 0 0) [.table 2, .partition 0x21 3 1] ∧
    numbered nestedDisk 1 [.table 2, .partition 0x21 3 1] = [{ partNr := 1, type := .filesys, start := 3, size := 1 }] ∧
    (∀ depth, 2 ∉ (Scan.soFar (partitionScan nestedDisk depth)).reads) ∧
    partitionScan nestedDisk 3 =
      .ok { partNr := 0, registered := [], lines := [.extended 0, .extended 2, .tablePastEnd 4, .noPartitions],
            reads := [0, 0] } := by
  have hes : tableEntries nestedDisk 0 0 = (0, 0, ⟨0x05, 2, 2⟩) :: replicate 3 (0, 0, ⟨0, 0, 0⟩) := by decide +kernel
  have hes' : tableEntries nestedDisk 2 2 = (2, 2, ⟨0x21, 1, 1⟩) :: replicate 3 (2, 2, ⟨0, 0, 0⟩) := by decide +kernel
  refine ⟨?_, rfl, fun depth h => (by cases (partitionScan_inside nestedDisk depth).2 2 h), by decide +kernel⟩
  rw [hes]
  refine .master rfl rfl (by decide) (by decide +kernel) ?_
  rw [hes']
  exact .partition rfl rfl (.empty rfl (.empty rfl (.empty rfl (.empty rfl (.empty rfl (.empty rfl .done))))))

end Pintos
