import Pintos.Lemmas.Ustar
import Pintos.Library.Loop

/-!
# A file of an archive on the device

`Holds` says that a device holds given bytes from a sector on. A file of an archive is its header, its data and the bytes
that fill its last sector (`fileBytes`). Both writers leave these bytes on the device and both readers read the file from
them and go on by as many sectors, so each pair of a writer and a reader agrees.
-/

namespace Pintos

open Contents FileStore Bytes List

/-! ## Bytes on a device -/

/-- The device holds the bytes from a sector on. -/
structure Holds (b : Block) (k : Nat) (bs : List UInt8) : Prop where
  fits : 512 * k + bs.length ≤ 512 * b.size
  bytes : slice b.hostFile.bytes (512 * k) bs.length = bs

variable {k n : Nat} {bs data : List UInt8} {name : CString} {b src : Block} {store : FileStore}

/-- A sector of the device is its 512 bytes of the file on the host. -/
theorem disk_slice (b : Block) (k : Nat) (hn : n ≤ 512) : (b.disk k).slice 0 n = slice b.hostFile.bytes (512 * k) n := by
  refine map_congr_left (fun j hj => ?_)
  have hj := mem_range.mp hj
  have h1 : (512 * k + j) / 512 = k := by omega
  have h2 : (512 * k + j) % 512 = j := by omega
  simp [Block.hostFile, h1, h2]

theorem Holds.sector (h : Holds b k bs) {i : Nat} (hn : n ≤ 512) (hpos : 0 < n)
    (hi : 512 * i + n ≤ bs.length) : readSector b (k + i) = .ok (b.disk (k + i)) ∧
    (b.disk (k + i)).slice 0 n = (bs.drop (512 * i)).take n := by
  have hfits := h.fits
  constructor
  · have hs : b.read (k + i) = some (b.disk (k + i)) := if_pos (decide_eq_true (by omega))
    rw [readSector, hs]
  · rw [disk_slice b _ hn, Nat.mul_add, slice_inside _ _ bs.length _ _ hi, h.bytes]

theorem Holds.append {m : Nat} {cs : List UInt8} (hm : bs.length = 512 * m) (h : Holds b k (bs ++ cs)) :
    Holds b k bs ∧ Holds b (k + m) cs := by
  have hfits := h.fits
  have hbytes := h.bytes
  rw [length_append] at hfits hbytes
  rw [slice_add] at hbytes
  obtain ⟨h1, h2⟩ := append_inj hbytes (slice_length _ _ _)
  rw [hm, ← Nat.mul_add] at h2
  exact ⟨⟨by omega, h1⟩, ⟨by omega, h2⟩⟩

/-- Bytes are held where every sector holds its part. -/
theorem Holds.of_sectors {m : Nat} (hm : bs.length = 512 * m) (hsize : k + m ≤ b.size)
    (h : ∀ i, i < m → (b.disk (k + i)).slice 0 512 = (bs.drop (512 * i)).take 512) : Holds b k bs := by
  refine ⟨by omega, ext_getElem (by simp) (fun t h1 h2 => ?_)⟩
  have ht : t / 512 < m := by omega
  have hbyte := congrArg (·.getD (t % 512) 0) (h (t / 512) ht)
  have hdiv : (512 * k + t) / 512 = k + t / 512 := by omega
  have hmod : (512 * k + t) % 512 = t % 512 := by omega
  have hlt : t % 512 < 512 := Nat.mod_lt _ (by decide)
  simp only [Contents.slice] at hbyte
  rw [Bytes.slice_getD _ _ _ _ _ hlt, Nat.zero_add, getD_eq_getElem _ _ (by simp; omega), getElem_take, getElem_drop] at hbyte
  simp only [Bytes.slice, getElem_map, getElem_range, Block.hostFile, hdiv, hmod, hbyte, Nat.div_add_mod]

/-! ## The bytes of a file -/

/-- The sectors that the data of a file takes. -/
def bodySectors (data : List UInt8) : Nat := (data.length + 511) / 512

/-- The sectors that a file takes. -/
def fileSectors (data : List UInt8) : Nat := 1 + bodySectors data

/-- The data of a file, filled up with null bytes to whole sectors. -/
def filled (data : List UInt8) : List UInt8 := data ++ replicate (512 * bodySectors data - data.length) 0

/-- A file in an archive. -/
def fileBytes (name : CString) (data : List UInt8) : List UInt8 := (fileHeader name .regular data.length).bytes ++ filled data

theorem filled_length (data : List UInt8) : (filled data).length = 512 * bodySectors data := by
  unfold filled bodySectors
  rw [length_append, length_replicate]
  omega

theorem fileBytes_length (name : CString) (data : List UInt8) : (fileBytes name data).length = 512 * fileSectors data := by
  rw [fileBytes, length_append, fileHeader_bytes_length, filled_length, fileSectors]
  omega

/-- Where a file ends that starts with sector `k`: right behind its data, or behind the bytes that fill its last sector. -/
theorem file_end (k : Nat) (data : List UInt8) :
    (data.length % 512 = 0 → 512 * k + 512 + data.length = 512 * (k + fileSectors data)) ∧
      (data.length % 512 ≠ 0 → 512 * k + 512 + data.length + (512 - data.length % 512) = 512 * (k + fileSectors data)) := by
  unfold fileSectors bodySectors
  omega

theorem putScratchFile_eq (hname : ArchiveName name) (hdata : data.length ≤ 2 ^ 31 - 1) :
    putScratchFile name data = some (fileBytes name data) := by
  have hpad : (if data.length % 512 ≠ 0 then replicate (512 - data.length % 512) (0 : UInt8) else []) =
      replicate (512 * bodySectors data - data.length) 0 := by
    unfold bodySectors
    split
    · congr 1
      omega
    · rw [show 512 * ((data.length + 511) / 512) - data.length = 0 by omega]
      rfl
  rw [putScratchFile, if_neg (by have := hname.2.1; omega), hostHeader_eq hname (by omega)]
  simp [bind, pure, hpad, fileBytes, filled]

/-- A chunk of the data in a sector. -/
theorem filled_take (data : List UInt8) {j : Nat} (h : j + n ≤ data.length) :
    ((filled data).drop j).take n = (data.drop j).take n := by
  rw [filled, drop_append_of_le_length (by omega), take_append_of_le_length (by rw [length_drop]; omega)]

/-! ## The kernel reads -/

theorem FileStore.write_last (hnew : store.lookup name = none) (contents : List UInt8) (pos : Nat) (data : List UInt8) :
    write (store ++ [(name, contents)]) name pos data =
      (store ++ [(name, contents.take pos ++ data ++ contents.drop (pos + data.length))], data.length) := by
  have hothers : ∀ file ∈ store, file.1 ≠ name := by
    intro file hfile he
    have := lookup_eq_none_iff.mp hnew file hfile
    simp [he] at this
  have hmap : store.map (fun file =>
      if file.1 = name then (name, file.2.take pos ++ data ++ file.2.drop (pos + data.length)) else file) = store :=
    (map_congr_left (fun file hfile => if_neg (hothers file hfile))).trans (map_id _)
  rw [write, map_append, hmap]
  simp

/-- The loop of `fsutil_extract` that copies the data, with `j` bytes copied: it ends with all of them in the file. -/
theorem copyIn_eq (h : Holds src k (filled data))
    (hnew : store.lookup name = none) (turns j : Nat) (hj : j ≤ data.length) (hstep : j % 512 = 0 ∨ j = data.length)
    (hturns : data.length - j ≤ turns) :
    copyIn src name turns (data.length - j) j
        { sector := k + (j + 511) / 512, store := store ++ [(name, data.take j ++ replicate (data.length - j) 0)] } =
      .ok { sector := k + bodySectors data, store := store ++ [(name, data)] } := by
  induction turns generalizing j with
  | zero =>
    obtain rfl : j = data.length := by omega
    simp [copyIn, bodySectors]
  | succ turns ih =>
    by_cases hend : data.length - j = 0
    · obtain rfl : j = data.length := by omega
      simp [copyIn, bodySectors]
    have hsector : (j + 511) / 512 = j / 512 := by omega
    have hj512 : 512 * (j / 512) = j := by omega
    obtain ⟨c, hc⟩ : ∃ c, min (data.length - j) 512 = c := ⟨_, rfl⟩
    obtain ⟨hread, hslice⟩ := h.sector (i := j / 512) (n := c) (by omega) (by omega)
      (by rw [filled_length, bodySectors]; omega)
    rw [hj512, filled_take data (by omega)] at hslice
    have hlen : ((data.drop j).take (c)).length = c := by
      rw [length_take, length_drop]
      omega
    have hcontents : (data.take j ++ replicate (data.length - j) 0).take j ++ (data.drop j).take (c) ++
        (data.take j ++ replicate (data.length - j) 0).drop (j + c) =
        data.take (j + c) ++ replicate (data.length - (j + c)) 0 := by
      have htake : (data.take j).length = j := by
        rw [length_take]
        omega
      rw [take_left' htake, ← take_add, drop_append, htake, drop_of_length_le (by omega), nil_append,
        drop_replicate]
      congr 2
      omega
    rw [copyIn, if_neg hend, hsector, blockSectorSize, hc]
    simp only [hread, bind, Except.bind, hslice, write_last hnew, hlen, ne_eq, not_true, if_false, hcontents]
    have hnext := ih (j + c) (by omega) (by omega) (by omega)
    rw [show k + (j + c + 511) / 512 = k + j / 512 + 1 by omega,
      show data.length - (j + c) = data.length - j - c by omega] at hnext
    rw [show data.length - (j + c) = data.length - j - c by omega]
    exact hnext

/-- The first sector of a file is its header, and the data follows. -/
theorem Holds.header (h : Holds src k (fileBytes name data)) :
    readSector src k = .ok (src.disk k) ∧ (src.disk k).slice 0 512 = (fileHeader name .regular data.length).bytes ∧
    Holds src (k + 1) (filled data) := by
  obtain ⟨hheader, hbody⟩ := h.append (m := 1) (fileHeader_bytes_length name .regular data.length)
  obtain ⟨hread, hslice⟩ := hheader.sector (i := 0) (Nat.le_refl _) (by decide) (by rw [fileHeader_bytes_length])
  rw [Nat.mul_zero, drop_zero, take_of_length_le (by rw [fileHeader_bytes_length])] at hslice
  exact ⟨hread, hslice, hbody⟩

section

variable (h : Holds src k (fileBytes name data)) (hname : ArchiveName name) (hdata : data.length ≤ 2 ^ 31 - 1)
include h hname hdata

/-- A turn of `fsutil_extract` on a file that is new to the file system creates it. -/
theorem extractEntry_file (hnew : store.lookup name = none) :
    extractEntry src { sector := k, store := store } =
      .ok (some { sector := k + fileSectors data, store := store ++ [(name, data)] }) := by
  obtain ⟨hread, hslice, hbody⟩ := h.header
  have hcopy := copyIn_eq hbody hnew data.length 0 (Nat.zero_le _) (.inl rfl) (Nat.le_refl _)
  have hlookup : (store ++ [(name, replicate data.length 0)]).lookup name = some (replicate data.length 0) := by
    rw [lookup_append, hnew]
    simp
  have hcreate : store.create name data.length = some (store ++ [(name, replicate data.length 0)]) := by
    rw [create, hnew]
    rfl
  simp only [Nat.zero_add, take_zero, nil_append, Nat.sub_zero, show (511 : Nat) / 512 = 0 from rfl, Nat.add_zero] at hcopy
  simp only [extractEntry, hread, bind, Except.bind, blockSectorSize, hslice,
    ustarParseHeader_eq hname.strip hname.strlen_le .regular hdata, if_true, hcreate, hlookup, Option.isNone_some,
    Bool.false_eq_true, if_false, hcopy, pure, Except.pure, Nat.add_assoc, fileSectors]

/-- A turn of `fsutil_extract` on a file whose name is taken panics. -/
theorem extractEntry_taken (hold : (store.lookup name).isSome = true) :
    extractEntry src { sector := k, store := store } = .error (.createFailed name) := by
  obtain ⟨hread, hslice, -⟩ := h.header
  have hcreate : store.create name data.length = none := if_pos hold
  simp only [extractEntry, hread, bind, Except.bind, blockSectorSize, hslice,
    ustarParseHeader_eq hname.strip hname.strlen_le .regular hdata, if_true, hcreate]

end

/-- A turn of `fsutil_extract` on a sector of null bytes finds the end. -/
theorem extractEntry_end (h : Holds src k (replicate (512 + n) 0)) (store : FileStore) :
    extractEntry src { sector := k, store := store } = .ok none := by
  obtain ⟨hread, hslice⟩ := h.sector (i := 0) (Nat.le_refl _) (by decide) (by rw [length_replicate]; omega)
  rw [Nat.mul_zero, drop_zero, take_replicate, Nat.add_zero] at hslice
  rw [Nat.add_zero] at hread
  have hzeros : isAllZeros (replicate (min 512 (512 + n)) 0) = true := by
    rw [isAllZeros, all_eq_true]
    intro b hb
    rw [eq_of_mem_replicate hb]
    rfl
  have hparse : ustarParseHeader (replicate (min 512 (512 + n)) 0) = .ok none := if_pos hzeros
  simp only [extractEntry, hread, bind, Except.bind, blockSectorSize, hslice, hparse]

/-! ## The kernel writes -/

/-- A sector made of bytes holds them and null bytes behind them. -/
theorem sectorOf_slice (hn : n ≤ blockSectorSize) (h : bs.length ≤ n) :
    (sectorOf bs).slice 0 n = bs ++ replicate (n - bs.length) 0 := by
  refine ext_getElem (by simp; omega) (fun t h1 h2 => ?_)
  simp only [Contents.slice, Bytes.slice, getElem_map, getElem_range, Nat.zero_add]
  by_cases hlt : t < bs.length
  · have := splice_inside (fill 0) 0 bs t hlt (by omega)
    rw [Nat.zero_add] at this
    rw [sectorOf, this, getElem_append_left hlt, getD_eq_getElem _ _ hlt]
  · rw [sectorOf, Contents.splice_outside _ _ _ _ (.inr (by omega)), getElem_append_right (by omega), getElem_replicate]
    simp [fill]

/-- The device with one sector written. -/
def withSector (b : Block) (sector : Nat) (c : Contents) : Block := { b with disk := fun x => if x = sector then c else b.disk x }

theorem writeSector_eq {sector : Nat} (h : sector < b.size) (c : Contents) :
    writeSector b sector c = .ok (withSector b sector c) := by
  have hs : b.write sector c = some (withSector b sector c) := if_pos (decide_eq_true h)
  rw [writeSector, hs]

/-- The device with the sectors of the data written from sector `k` on, as far as the first `j` bytes are not concerned. -/
def withData (dst : Block) (k : Nat) (data : List UInt8) (j : Nat) : Block :=
  { dst with disk := fun x =>
      if k + (j + 511) / 512 ≤ x ∧ x < k + bodySectors data then sectorOf ((data.drop (512 * (x - k))).take 512) else dst.disk x }

/-- The loop of `fsutil_append`, with `j` bytes copied. -/
theorem copyOut_eq (name : CString) (turns j : Nat) (dst : Block) (hj : j ≤ data.length)
    (hstep : j % 512 = 0 ∨ j = data.length) (hturns : data.length - j ≤ turns) (hsize : k + bodySectors data ≤ dst.size) :
    copyOut name data turns (data.length - j) j { dst := dst, sector := k + (j + 511) / 512 } =
      .ok { dst := withData dst k data j, sector := k + bodySectors data } := by
  have hdone : ∀ dst : Block, withData dst k data data.length = dst := by
    intro dst
    have hnone : ∀ x, ¬(k + (data.length + 511) / 512 ≤ x ∧ x < k + bodySectors data) := by
      intro x
      unfold bodySectors
      omega
    simp only [withData, if_neg (hnone _)]
  induction turns generalizing j dst with
  | zero =>
    obtain rfl : j = data.length := by omega
    rw [copyOut, hdone]
    rfl
  | succ turns ih =>
    by_cases hend : data.length - j = 0
    · obtain rfl : j = data.length := by omega
      rw [copyOut, if_pos hend, hdone]
      rfl
    have hsector : (j + 511) / 512 = j / 512 := by omega
    have hj512 : 512 * (j / 512) = j := by omega
    have hroom : k + j / 512 < dst.size := by
      unfold bodySectors at hsize
      omega
    obtain ⟨c, hc⟩ : ∃ c, min (data.length - j) 512 = c := ⟨_, rfl⟩
    have hlen : (read data j c).length = c := by
      rw [FileStore.read, length_take, length_drop]
      omega
    have hchunk : read data j c = (data.drop j).take 512 := by
      rw [FileStore.read, take_eq_take_iff, length_drop]
      omega
    rw [copyOut, if_neg hend, hsector, blockSectorSize, hc]
    simp only [if_neg (Nat.not_le.mpr hroom), hlen, ne_eq, not_true, if_false, writeSector_eq hroom, bind, Except.bind]
    have hnext := ih (j + c)
      (withSector dst (k + j / 512) (sectorOf (read data j c))) (by omega) (by omega) (by omega) hsize
    rw [show k + (j + c + 511) / 512 = k + j / 512 + 1 by omega,
      show data.length - (j + c) = data.length - j - c by omega] at hnext
    rw [hnext]
    have hwritten : withData (withSector dst (k + j / 512) (sectorOf (read data j c))) k data (j + c) =
        withData dst k data j := by
      have hbody : j / 512 < bodySectors data := by
        unfold bodySectors
        omega
      simp only [withData, withSector, Block.mk.injEq, true_and]
      funext x
      by_cases hx : x = k + j / 512
      · subst hx
        rw [if_neg (by omega), if_pos rfl, if_pos (by omega), hchunk, Nat.add_sub_cancel_left, hj512]
      · rw [if_neg hx]
        have hiff : (k + (j + c + 511) / 512 ≤ x ∧ x < k + bodySectors data) ↔
            (k + (j + 511) / 512 ≤ x ∧ x < k + bodySectors data) := by omega
        simp [hiff]
    rw [hwritten]

/-- Every sector of the data holds its part of the data, filled up. -/
theorem filled_sector {i : Nat} (hi : i < bodySectors data) :
    (sectorOf ((data.drop (512 * i)).take 512)).slice 0 512 = ((filled data).drop (512 * i)).take 512 := by
  have hle : 512 * i ≤ data.length := by
    unfold bodySectors at hi
    omega
  rw [sectorOf_slice (by decide : 512 ≤ blockSectorSize) (length_take_le _ _), filled, drop_append_of_le_length hle,
    take_append, take_replicate, length_take, length_drop]
  congr 2
  omega

/-- `fsutil_append` leaves the bytes of the file on the device, goes on to the sector behind them, and changes nothing in
front of them. -/
theorem fsutilAppend_eq (hlookup : store.lookup name = some data)
    (hname : ArchiveName name) (byte : UInt8) (dst : Block) (hsize : k + fileSectors data < dst.size) :
    ∃ dst', fsutilAppend store name byte { dst := dst, sector := k } = .ok { dst := dst', sector := k + fileSectors data } ∧
      dst'.size = dst.size ∧ Holds dst' k (fileBytes name data) ∧ ∀ x, x < k → dst'.disk x = dst.disk x := by
  let dst1 := withSector dst k (sectorOf (fileHeader name .regular data.length).bytes)
  let dst2 := withData dst1 (k + 1) data 0
  let dst3 := withSector dst2 (k + fileSectors data) (fill 0)
  let dst4 := withSector dst3 (k + fileSectors data) ((fill 0).splice 511 [byte])
  have hbody : k + 1 + bodySectors data = k + fileSectors data := by
    unfold fileSectors
    omega
  have hheader : writeSector dst k (sectorOf (fileHeader name .regular data.length).bytes) = .ok dst1 :=
    writeSector_eq (by omega) _
  have hcopy : copyOut name data data.length data.length 0 { dst := dst1, sector := k + 1 } =
      .ok { dst := dst2, sector := k + fileSectors data } := by
    have := copyOut_eq name data.length 0 dst1 (Nat.zero_le _) (.inl rfl) (Nat.le_refl _)
      (by rw [hbody]; exact Nat.le_of_lt hsize)
    rwa [hbody] at this
  have hmark : writeSector dst2 (k + fileSectors data) (fill 0) = .ok dst3 := writeSector_eq (b := dst2) hsize _
  have hmark' : writeSector dst3 (k + fileSectors data) ((fill 0).splice 511 [byte]) = .ok dst4 :=
    writeSector_eq (b := dst3) hsize _
  -- the marker does not reach the file
  have hdisk : ∀ x, x < k + fileSectors data → dst4.disk x = dst2.disk x := by
    intro x hx
    simp only [dst4, dst3, withSector, if_neg (Nat.ne_of_lt hx)]
  refine ⟨dst4, ?_, rfl, Holds.of_sectors (fileBytes_length name data) (Nat.le_of_lt hsize) (fun i hi => ?_), fun x hx => ?_⟩
  · simp only [fsutilAppend, hlookup, ustarMakeHeader_eq hname.strip hname.strlen_le, hheader, bind, Except.bind, hcopy,
      hmark, hmark', pure, Except.pure]
  · rw [hdisk _ (by omega)]
    cases i with
    | zero =>
      have hfirst : dst2.disk k = sectorOf (fileHeader name .regular data.length).bytes := by
        simp [dst2, withData, dst1, withSector]
      have hlen := fileHeader_bytes_length name .regular data.length
      rw [Nat.add_zero, hfirst, sectorOf_slice (by decide : 512 ≤ blockSectorSize) (Nat.le_of_eq hlen), hlen, Nat.mul_zero,
        drop_zero, fileBytes, take_left' hlen]
      exact append_nil _
    | succ i =>
      have hi' : i < bodySectors data := by
        omega
      have hdata : dst2.disk (k + (i + 1)) = sectorOf ((data.drop (512 * i)).take 512) := by
        simp only [dst2, withData,
          if_pos (by omega : k + 1 + (0 + 511) / 512 ≤ k + (i + 1) ∧ k + (i + 1) < k + 1 + bodySectors data),
          show k + (i + 1) - (k + 1) = i by omega]
      rw [hdata, filled_sector hi', fileBytes, Nat.mul_add, Nat.add_comm (512 * i), ← drop_drop,
        drop_left' (fileHeader_bytes_length name .regular data.length)]
  · rw [hdisk x (by omega)]
    simp only [dst2, withData, if_neg (by omega : ¬(k + 1 + (0 + 511) / 512 ≤ x ∧ x < k + 1 + bodySectors data)), dst1,
      withSector, if_neg (Nat.ne_of_lt hx)]

/-! ## The host reads -/

/-- `copy_file` reads the bytes of the range and goes on behind them. -/
theorem copyFile_eq {f : HostFile} (turns pos size : Nat) (out : List UInt8) (hturns : size ≤ turns)
    (hfits : pos + size ≤ f.length) :
    copyFile f turns pos size out = .ok (out ++ Bytes.slice f.bytes pos size, pos + size) := by
  induction turns generalizing pos size out with
  | zero =>
    obtain rfl : size = 0 := by omega
    simp [copyFile, Bytes.slice]
  | succ turns ih =>
    by_cases hend : size = 0
    · subst hend
      simp [copyFile, Bytes.slice]
    have hread : readFully f pos (min 4096 size) = .ok (Bytes.slice f.bytes pos (min 4096 size), pos + min 4096 size) :=
      if_pos (by omega)
    rw [copyFile, if_neg hend]
    simp only [hread, bind, Except.bind]
    rw [ih _ _ _ (by omega) (by omega), append_assoc, ← Bytes.slice_add, Nat.add_assoc,
      Nat.add_sub_cancel' (by omega : min 4096 size ≤ size)]

/-- `get_scratch_file` reads a file that is on the device, into a file that is new on the host, and goes on to the sector
behind it. -/
theorem getScratchFile_eq (h : Holds b k (fileBytes name data))
    (hdata : data.length ≤ 2 ^ 31 - 1) : getScratchFile b.hostFile (512 * k) [] = .ok (data, 512 * (k + fileSectors data)) := by
  have hfits := h.fits
  rw [fileBytes_length] at hfits
  obtain ⟨-, hslice, hbody⟩ := h.header
  rw [disk_slice b k (Nat.le_refl _)] at hslice
  obtain ⟨hzeros, hmagic, hversion, hchksum, htype, hsize⟩ := hostChecks_eq name (by omega : data.length < 8 ^ 11)
  have hread : readFully b.hostFile (512 * k) 512 = .ok ((fileHeader name .regular data.length).bytes, 512 * k + 512) := by
    rw [readFully, hslice]
    exact if_pos (by unfold fileSectors at hfits; simp only [Block.hostFile]; omega)
  have hrange : 512 * k + 512 + data.length ≤ b.hostFile.length ∧ 512 * k + 512 * fileSectors data ≤ b.hostFile.length := by
    unfold fileSectors bodySectors at *
    simp only [Block.hostFile]
    omega
  have hcopied : slice b.hostFile.bytes (512 * k + 512) data.length = data := by
    have hle : 0 + data.length ≤ (filled data).length := by
      rw [filled, length_append]
      omega
    have := slice_inside b.hostFile.bytes (512 * (k + 1)) (filled data).length 0 data.length hle
    rw [hbody.bytes, drop_zero, filled, take_left' rfl, Nat.add_zero] at this
    exact this
  have hcopy := copyFile_eq data.length (512 * k + 512) data.length [] (Nat.le_refl _) hrange.1
  rw [hcopied, nil_append] at hcopy
  have hend := file_end k data
  have hskip : data.length % 512 ≠ 0 → ∃ skipped, readFully b.hostFile (512 * k + 512 + data.length) (512 - data.length % 512) =
      .ok (skipped, 512 * (k + fileSectors data)) := by
    intro hmod
    refine ⟨_, (if_pos ?_).trans (by rw [hend.2 hmod])⟩
    rw [hend.2 hmod, Nat.mul_add]
    exact hrange.2
  by_cases hmod : data.length % 512 = 0
  · simp only [getScratchFile, hread, bind, Except.bind, hzeros, hmagic, hversion, hchksum, htype, hsize, ne_eq, not_true,
      if_false, false_and, hcopy, hmod, hend.1 hmod, pure, Except.pure, drop_nil, append_nil]
  · obtain ⟨skipped, hskipped⟩ := hskip hmod
    simp only [getScratchFile, hread, bind, Except.bind, hzeros, hmagic, hversion, hchksum, htype, hsize, ne_eq, not_true,
      if_false, false_and, hcopy, hmod, not_false_iff, if_true, hskipped, pure, Except.pure, drop_nil, append_nil]

end Pintos
