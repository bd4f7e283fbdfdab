import Pintos.Devices.Partition
import Pintos.Library.Loop

/-!
# The scan of a disk

Every nested call reads the table of sector 0 again, so what a scan does is decided by the extended entries of that one
table: the scan ends exactly when each of them leads out of the device at once, or to a table whose own entries all lead out
of it. A partition that is registered, at whatever depth, lies inside the device.
-/

namespace Pintos

/-! ## Where a scan ends -/

namespace Block

/-- The extended entries of the table in sector 0. -/
def extendedEntries (b : Block) : List PartitionTableEntry :=
  (b.disk 0).partitions.filter (fun e => !e.isEmpty && e.isExtended)

/-- The scan reads a table: the device has a sector 0 that carries the signature. -/
def hasTable (b : Block) : Bool := decide (0 < b.size) && (b.disk 0).signature == 0xaa55

/-- Every extended entry points past the end of the device, or to a sector from which every extended entry, added to it,
does. -/
def extendedLeadOut (b : Block) : Prop :=
  ∀ e ∈ b.extendedEntries, b.size ≤ e.offset ∨ ∀ e' ∈ b.extendedEntries, b.size ≤ (e'.offset + e.offset) % 2 ^ 32

instance (b : Block) : Decidable b.extendedLeadOut := by
  unfold extendedLeadOut
  infer_instance

end Block

variable {b : Block} {e : PartitionTableEntry} {sector : Nat} {scan : Scan}

theorem mem_extendedEntries : e ∈ b.extendedEntries ↔ e ∈ (b.disk 0).partitions ∧ e.isEmpty = false ∧ e.isExtended = true := by
  simp [Block.extendedEntries]

/-- The call that an extended entry of the table leads to, from the call for a sector. -/
def nestedCall (sector primary : Nat) (e : PartitionTableEntry) : Nat × Nat :=
  if sector = 0 then (e.offset, e.offset) else ((e.offset + primary) % 2 ^ 32, primary)

/-- A table past the end of the device is left at once. -/
theorem readPartitionTable_pastEnd (h : b.size ≤ sector) (depth primary : Nat) (scan : Scan) :
    readPartitionTable b (depth + 1) sector primary scan = .ok (scan.print (.tablePastEnd sector)) := by
  simp only [readPartitionTable, if_pos h]

/-- Without a table in sector 0 every call returns at once. -/
theorem readPartitionTable_noTable (h : b.hasTable = false) (depth sector primary : Nat) (scan : Scan) :
    ∃ scan', readPartitionTable b (depth + 1) sector primary scan = .ok scan' := by
  by_cases hs : b.size ≤ sector
  · exact ⟨_, readPartitionTable_pastEnd hs depth primary scan⟩
  have h0 : 0 < b.size := by omega
  have hsig : (b.disk 0).signature ≠ 0xaa55 := by
    intro hsig
    simp [Block.hasTable, h0, hsig] at h
  simp only [readPartitionTable, if_neg hs, Block.read, Block.checkSector, h0, decide_true, if_true, if_pos hsig]
  exact ⟨_, rfl⟩

/-- With a table in sector 0, the call for a sector of the device goes over its entries. -/
theorem readPartitionTable_table (h : b.hasTable = true) (hs : sector < b.size) (depth primary : Nat) (scan : Scan) :
    readPartitionTable b (depth + 1) sector primary scan =
      (b.disk 0).partitions.foldlM (readTableEntry b (readPartitionTable b depth) sector primary) (scan.read 0) := by
  have ht : 0 < b.size ∧ (b.disk 0).signature = 0xaa55 := by simpa [Block.hasTable] using h
  simp only [readPartitionTable, if_neg (Nat.not_le.mpr hs), Block.read, Block.checkSector, ht.1, decide_true, if_true, ht.2,
    ne_eq, not_true, if_false]

/-- An extended entry makes the nested call. -/
theorem readTableEntry_extended (he : e ∈ b.extendedEntries)
    (nested : Nat → Nat → Scan → Except Scan Scan) (sector primary : Nat) (scan : Scan) :
    readTableEntry b nested sector primary scan e =
      nested (nestedCall sector primary e).1 (nestedCall sector primary e).2 (scan.print (.extended sector)) := by
  obtain ⟨-, hne, hex⟩ := mem_extendedEntries.mp he
  simp only [readTableEntry, hne, hex, if_true, nestedCall]
  by_cases h : sector = 0 <;> simp [h]

/-- Any other entry is dealt with on the spot. -/
theorem readTableEntry_other (hm : e ∈ (b.disk 0).partitions) (he : e ∉ b.extendedEntries)
    (nested : Nat → Nat → Scan → Except Scan Scan) (sector primary : Nat) (scan : Scan) :
    ∃ scan', readTableEntry b nested sector primary scan e = .ok scan' := by
  unfold readTableEntry
  cases hempty : e.isEmpty with
  | true => exact ⟨_, rfl⟩
  | false =>
    cases hext : e.isExtended with
    | true => exact absurd (mem_extendedEntries.mpr ⟨hm, hempty, hext⟩) he
    | false => exact ⟨_, rfl⟩

/-- A call returns when the calls of all the extended entries do. -/
theorem readPartitionTable_of_nested {depth primary : Nat} (h : ∀ e ∈ b.extendedEntries, ∀ scan, ∃ scan',
      readPartitionTable b depth (nestedCall sector primary e).1 (nestedCall sector primary e).2 scan = .ok scan') (scan : Scan) :
    ∃ scan', readPartitionTable b (depth + 1) sector primary scan = .ok scan' := by
  by_cases hs : b.size ≤ sector
  · exact ⟨_, readPartitionTable_pastEnd hs depth primary scan⟩
  cases ht : b.hasTable with
  | false => exact readPartitionTable_noTable ht depth sector primary scan
  | true =>
    rw [readPartitionTable_table ht (by omega)]
    refine Loop.foldlM_ok (fun e hm u => ?_) _
    by_cases he : e ∈ b.extendedEntries
    · rw [readTableEntry_extended he]
      exact h e he _
    · exact readTableEntry_other hm he _ sector primary u

/-- A call that returns has seen the nested calls of all the extended entries return. -/
theorem nested_of_readPartitionTable (ht : b.hasTable = true) {depth primary : Nat} (hs : sector < b.size)
    {scan' : Scan} (h : readPartitionTable b (depth + 1) sector primary scan = .ok scan') (he : e ∈ b.extendedEntries) :
    ∃ u v, readPartitionTable b depth (nestedCall sector primary e).1 (nestedCall sector primary e).2 u = .ok v := by
  rw [readPartitionTable_table ht hs] at h
  obtain ⟨u, v, huv⟩ := Loop.turn_of_foldlM_ok h e (mem_extendedEntries.mp he).1
  rw [readTableEntry_extended he] at huv
  exact ⟨_, v, huv⟩

/-- Two entries whose sum stays inside the device send the scan round for ever: the call for the first entry makes the call
for the sum, and that one itself, or the first again where the sum wraps to 0. -/
theorem readPartitionTable_loops (ht : b.hasTable = true) {e' : PartitionTableEntry} (he : e ∈ b.extendedEntries)
    (he' : e' ∈ b.extendedEntries) (h1 : e.offset < b.size) (h2 : (e'.offset + e.offset) % 2 ^ 32 < b.size) (depth : Nat) :
    (∀ u v, readPartitionTable b depth e.offset e.offset u ≠ .ok v) ∧
      ∀ u v, readPartitionTable b depth ((e'.offset + e.offset) % 2 ^ 32) e.offset u ≠ .ok v := by
  induction depth with
  | zero => exact ⟨fun u v h => (nomatch h), fun u v h => (nomatch h)⟩
  | succ depth ih =>
    have hround : ∀ sector < b.size, ∀ u v, readPartitionTable b (depth + 1) sector e.offset u ≠ .ok v := by
      intro sector hs u v h
      by_cases h0 : sector = 0
      · obtain ⟨u', v', h'⟩ := nested_of_readPartitionTable ht hs h he
        rw [nestedCall, if_pos h0] at h'
        exact ih.1 u' v' h'
      · obtain ⟨u', v', h'⟩ := nested_of_readPartitionTable ht hs h he'
        rw [nestedCall, if_neg h0] at h'
        exact ih.2 u' v' h'
    exact ⟨hround _ h1, hround _ h2⟩

/-- Three levels of calls are enough where every extended entry leads out of the device. -/
theorem readPartitionTable_three (h : b.extendedLeadOut) (scan : Scan) :
    ∃ scan', readPartitionTable b 3 0 0 scan = .ok scan' := by
  refine readPartitionTable_of_nested (fun e he u => ?_) scan
  simp only [nestedCall, if_true]
  by_cases hout : b.size ≤ e.offset
  · exact ⟨_, readPartitionTable_pastEnd hout 1 _ u⟩
  have hsum := (h e he).resolve_left hout
  have h0 : e.offset ≠ 0 := by
    intro h0
    have := hsum e he
    omega
  refine readPartitionTable_of_nested (fun e' he' u' => ?_) u
  simp only [nestedCall, if_neg h0]
  exact ⟨_, readPartitionTable_pastEnd (hsum e' he') 0 _ u'⟩

/-- `partition_scan` returns when its call of `read_partition_table` does. -/
theorem partitionScan_ok_iff (b : Block) (depth : Nat) :
    (∃ scan, partitionScan b depth = .ok scan) ↔
      ∃ scan, readPartitionTable b depth 0 0 .start = .ok scan := by
  unfold partitionScan
  cases readPartitionTable b depth 0 0 .start with
  | error s => simp [bind, Except.bind]
  | ok s => simp [bind, Except.bind, pure, Except.pure]

/-- With two such entries no depth is enough for `partition_scan`. -/
theorem partitionScan_loops (ht : b.hasTable = true) {e' : PartitionTableEntry} (he : e ∈ b.extendedEntries)
    (he' : e' ∈ b.extendedEntries) (h1 : e.offset < b.size) (h2 : (e'.offset + e.offset) % 2 ^ 32 < b.size) :
    ¬∃ depth scan, partitionScan b depth = .ok scan := by
  rintro ⟨depth, hscan⟩
  obtain ⟨scan, h⟩ := (partitionScan_ok_iff b depth).mp hscan
  cases depth with
  | zero => cases h
  | succ depth =>
    obtain ⟨u, v, h'⟩ := nested_of_readPartitionTable ht (by omega) h he
    exact (readPartitionTable_loops ht he he' h1 h2 depth).1 u v h'

/-- **Where the scan of a disk ends.** `partition_scan` returns, for some depth of its calls, exactly when sector 0 holds no
partition table or every extended entry of that table leads out of the device: at once, or after one more addition. -/
theorem partitionScan_returns_iff (b : Block) :
    (∃ depth scan, partitionScan b depth = .ok scan) ↔ (b.hasTable = true → b.extendedLeadOut) := by
  constructor
  · intro hscan ht e he
    by_contra hcon
    obtain ⟨h1, h2⟩ := not_or.mp hcon
    refine h2 (fun e' he' => ?_)
    by_contra hlt
    exact partitionScan_loops ht he he' (by omega) (by omega) hscan
  · intro h
    refine ⟨3, (partitionScan_ok_iff b 3).mpr ?_⟩
    cases ht : b.hasTable with
    | false => exact readPartitionTable_noTable ht 2 0 0 _
    | true => exact readPartitionTable_three (h ht) _

/-- A disk of four sectors whose table has one extended entry, for sector 1. -/
def loopingDisk : Block :=
  { size := 4
    disk := fun _ =>
      ((Contents.fill 0).splice partitionsOffset [0, 0, 0, 0, 0x05, 0, 0, 0, 1, 0, 0, 0, 1, 0, 0, 0]).splice 510 [0x55, 0xaa] }

/-- The scan of that disk goes from sector 0 to sector 1 and then to sector 2 again and again. -/
theorem loopingDisk_never_scanned : ¬∃ depth scan, partitionScan loopingDisk depth = .ok scan := by
  have he : { type := 0x05, offset := 1, size := 1 } ∈ loopingDisk.extendedEntries := by decide +kernel
  exact partitionScan_loops (by decide +kernel) he he (by decide) (by decide)

/-! ## What is registered -/

/-- A partition that lies inside the device, with no wrap-around of its end. -/
def Partition.Inside (p : Partition) (b : Block) : Prop := p.start + p.size ≤ b.size ∧ p.start + p.size < 2 ^ 32

/-- Every partition registered so far lies inside the device, and every sector read so far is number 0. -/
def Scan.Inside (b : Block) (scan : Scan) : Prop := (∀ p ∈ scan.registered, p.Inside b) ∧ ∀ x ∈ scan.reads, x = 0

/-- The two checks of `found_partition` put a partition inside the device. -/
theorem foundPartition_inside (h : scan.Inside b) (partType : UInt8) {start size : Nat} (hs : start < 2 ^ 32)
    (hn : size < 2 ^ 32) : (foundPartition b partType start size scan).Inside b := by
  unfold foundPartition
  simp only
  split
  · exact h
  split
  · exact h
  rename_i h1 h2
  refine ⟨List.forall_mem_append.mpr ⟨h.1, List.forall_mem_singleton.mpr ?_⟩, h.2⟩
  constructor <;> simp only <;> omega

/-- The size of an entry is a 32-bit word. -/
theorem partitions_size_lt {pt : Contents} (he : e ∈ pt.partitions) : e.size < 2 ^ 32 := by
  obtain ⟨i, -, rfl⟩ := List.mem_map.mp he
  exact Bytes.word_lt (fun j => pt.byte (partitionsOffset + partitionEntrySize * i + 12 + j)) 0

/-- A turn of the loop keeps the registered partitions inside, also where the nested call does not return. -/
theorem readTableEntry_inside {nested : Nat → Nat → Scan → Except Scan Scan}
    (hn : ∀ sector primary scan, scan.Inside b → (Scan.soFar (nested sector primary scan)).Inside b) (sector primary : Nat)
    (h : scan.Inside b) (he : e.size < 2 ^ 32) : (Scan.soFar (readTableEntry b nested sector primary scan e)).Inside b := by
  unfold readTableEntry
  split
  · exact h
  split
  · split
    · exact hn _ _ _ h
    · exact hn _ _ _ h
  · have h' : Scan.Inside b { scan with partNr := scan.partNr + 1 } := h
    exact foundPartition_inside h' e.type (Nat.mod_lt _ (by decide)) he

/-- Calls of any depth keep the registered partitions inside. -/
theorem readPartitionTable_inside (b : Block) (depth sector primary : Nat) (scan : Scan) (h : scan.Inside b) :
    (Scan.soFar (readPartitionTable b depth sector primary scan)).Inside b := by
  induction depth generalizing sector primary scan with
  | zero => exact h
  | succ depth ih =>
    unfold readPartitionTable
    split
    · exact h
    split
    · exact h
    rename_i pt _
    have h0 : (scan.read 0).Inside b := ⟨h.1, List.forall_mem_append.mpr ⟨h.2, List.forall_mem_singleton.mpr rfl⟩⟩
    simp only
    split
    · exact h0
    have hturn : ∀ e ∈ pt.partitions, ∀ u, Scan.Inside b u →
        (Scan.soFar (readTableEntry b (readPartitionTable b depth) sector primary u e)).Inside b :=
      fun e he u hu => readTableEntry_inside ih sector primary hu (partitions_size_lt he)
    have hloop := Loop.foldlM_keeps (f := readTableEntry b (readPartitionTable b depth) sector primary)
      (fun e he u v hu hv => by have ht := hturn e he u hu; rwa [hv] at ht)
      (fun e he u v hu hv => by have ht := hturn e he u hu; rwa [hv] at ht) h0
    generalize pt.partitions.foldlM (readTableEntry b (readPartitionTable b depth) sector primary) _ = r at hloop ⊢
    cases r with
    | ok t => exact hloop.1 t rfl
    | error t => exact hloop.2 t rfl

/-- Whatever depth a scan comes to, what it has registered by then lies inside the device, and only sector 0 is read. -/
theorem partitionScan_inside (b : Block) (depth : Nat) : (Scan.soFar (partitionScan b depth)).Inside b := by
  have h := readPartitionTable_inside b depth 0 0 .start ⟨nofun, nofun⟩
  unfold partitionScan
  cases hr : readPartitionTable b depth 0 0 .start with
  | error scan =>
    rw [hr] at h
    exact h
  | ok scan =>
    rw [hr] at h
    simp only [bind, Except.bind, pure, Except.pure]
    split
    · exact h
    · exact h

/-- **Partitions confine their users.** Take any disk, any moment of its scan and any partition registered by then. A sector
that passes the partition's own `check_sector` is, without wrapping around, a sector of the disk between the partition's
start and its end: a read of the partition is the read of that sector, a write of a partition that is not a foreign one is
the write of it, and the check of the disk never panics. -/
theorem partition_confines (b : Block) (depth : Nat) (p : Partition) (hp : p ∈ (Scan.soFar (partitionScan b depth)).registered)
    (sector : Nat) (hs : p.checkSector sector = true) :
    p.underlying sector = p.start + sector ∧ p.underlying sector < p.start + p.size ∧ p.start + p.size < 2 ^ 32 ∧
      b.checkSector (p.underlying sector) = true ∧ p.read b sector = some (b.disk (p.start + sector)) ∧
      ∀ c, p.type ≠ .foreign →
        p.write b sector c = some { b with disk := fun x => if x = p.start + sector then c else b.disk x } := by
  obtain ⟨hend, hwrap⟩ := (partitionScan_inside b depth).1 p hp
  have hlt : sector < p.size := by simpa [Partition.checkSector] using hs
  have hu : p.underlying sector = p.start + sector := by
    unfold Partition.underlying
    omega
  have hchk : b.checkSector (p.start + sector) = true := by
    simp only [Block.checkSector, decide_eq_true_eq]
    omega
  refine ⟨hu, by omega, hwrap, by rw [hu]; exact hchk, ?_, ?_⟩
  · simp [Partition.read, hs, hu, Block.read, hchk]
  · intro c hc
    simp only [Partition.write, hs, if_true, if_neg hc, hu, Block.write, hchk]

/-- A disk of four sectors with one file system partition, of the sectors 1 and 2. -/
def filesysDisk : Block :=
  { size := 4
    disk := fun _ =>
      ((Contents.fill 0).splice partitionsOffset [0, 0, 0, 0, 0x21, 0, 0, 0, 1, 0, 0, 0, 2, 0, 0, 0]).splice 510 [0x55, 0xaa] }

/-- Sector 1 of that partition is sector 2 of the disk. -/
theorem filesysDisk_confines :
    ({ partNr := 1, type := .filesys, start := 1, size := 2 } : Partition).read filesysDisk 1 = some (filesysDisk.disk 2) :=
  (partition_confines filesysDisk 1 { partNr := 1, type := .filesys, start := 1, size := 2 } (by decide +kernel) 1
    (by decide)).2.2.2.2.1

end Pintos
