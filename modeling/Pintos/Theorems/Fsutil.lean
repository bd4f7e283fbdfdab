import Pintos.Lemmas.Fsutil

/-!
# Archives between host and kernel

What the host puts into an archive the kernel extracts, and what the kernel appends to one the host gets back, for every list
of files. After every file the position of the host is that of the kernel, in bytes. Extraction needs names that are not
taken: two files of one name in an archive make `fsutil_extract` panic.
-/

namespace Pintos

open List

/-- A file that the archives are for. -/
def ArchiveFile (file : CString × List UInt8) : Prop := ArchiveName file.1 ∧ file.2.length ≤ 2 ^ 31 - 1

/-- The sectors that files take in an archive. -/
def archiveSectors (files : List (CString × List UInt8)) : Nat := (files.map (fun file => fileSectors file.2)).sum

/-- The bytes of files in an archive. -/
def archiveBytes (files : List (CString × List UInt8)) : List UInt8 := files.flatMap (fun file => fileBytes file.1 file.2)

/-- Every file written by the host is created by the kernel, in order: the archive can be made; on every device that holds
it, and for every file system that has none of the names, `fsutil_extract` has created the first `n` files after `n` turns of
its loop, and is where the host was then; and it returns with all files created, behind the first sector of the end marker.
-/
def Extracts (files : List (CString × List UInt8)) : Prop :=
  ∃ archive, scratchArchive files = some archive ∧
    ∀ (src : Block) (store : FileStore), Holds src 0 archive → (∀ file ∈ files, store.lookup file.1 = none) →
      (∀ n, n ≤ files.length → ∃ s written, extractTurns src n { sector := 0, store := store } = .ok (some s) ∧
        s.store = store ++ files.take n ∧ putScratchFiles (files.take n) = some written ∧ written.length = 512 * s.sector) ∧
      ∃ src' s, fsutilExtract src { sector := 0, store := store } = .ok (src', s) ∧ s.store = store ++ files ∧
        512 * s.sector + 512 = archive.length

/-- Every file appended by the kernel is read back by the host, in order: for every file system that has the files, every
device that is large enough and whatever lies behind the buffers of `fsutil_append`, the calls return, and the first `n`
calls of `get_scratch_file` give the contents of the first `n` files and leave the host where the kernel was after the first
`n` calls. -/
def GetsBack (files : List (CString × List UInt8)) : Prop :=
  ∀ (store : FileStore) (behindBuffer : Nat → UInt8) (dst : Block), (∀ file ∈ files, store.lookup file.1 = some file.2) →
    archiveSectors files < dst.size →
    ∃ s, appendAll store behindBuffer (files.map Prod.fst) { dst := dst, sector := 0 } = .ok s ∧
      ∀ n, n ≤ files.length → ∃ sₙ, appendAll store behindBuffer ((files.take n).map Prod.fst)
        { dst := dst, sector := 0 } = .ok sₙ ∧
        getScratchFiles s.dst.hostFile n 0 = .ok ((files.take n).map Prod.snd, 512 * sₙ.sector)

/-! ## Lists of files -/

@[simp] theorem archiveSectors_nil : archiveSectors [] = 0 := rfl

variable (file : CString × List UInt8) (files : List (CString × List UInt8))

@[simp] theorem archiveSectors_cons : archiveSectors (file :: files) = fileSectors file.2 + archiveSectors files := rfl

theorem archiveBytes_cons : archiveBytes (file :: files) = fileBytes file.1 file.2 ++ archiveBytes files := flatMap_cons

theorem archiveBytes_length : (archiveBytes files).length = 512 * archiveSectors files := by
  induction files with
  | nil => rfl
  | cons file files ih => rw [archiveBytes_cons, length_append, ih, fileBytes_length, archiveSectors_cons, Nat.mul_add]

theorem archive_length : (archiveBytes files ++ replicate 1024 (0 : UInt8)).length = 512 * (archiveSectors files + 2) := by
  rw [length_append, archiveBytes_length, length_replicate]
  omega

/-- Every file takes a sector. -/
theorem length_le_archiveSectors : files.length ≤ archiveSectors files := by
  induction files with
  | nil => exact Nat.le_refl _
  | cons file files ih =>
    rw [archiveSectors_cons, length_cons, fileSectors]
    omega

variable {files} {b src : Block} {k m : Nat} {store : FileStore} {s s' : Extraction} {bs : List UInt8}

section

variable (hfiles : ∀ file ∈ files, ArchiveFile file)
include hfiles

/-- The host writes the files one behind the other. -/
theorem putScratchFiles_eq : putScratchFiles files = some (archiveBytes files) := by
  have hmap : files.mapM (fun file => putScratchFile file.1 file.2) = some (files.map (fun file => fileBytes file.1 file.2)) := by
    induction files with
    | nil => rfl
    | cons file files ih =>
      obtain ⟨hname, hdata⟩ := hfiles file mem_cons_self
      rw [mapM_cons, putScratchFile_eq hname hdata, ih (fun f hf => hfiles f (mem_cons_of_mem _ hf))]
      rfl
  rw [putScratchFiles, hmap]
  simp only [bind, Option.bind, pure, archiveBytes, flatMap_def]

theorem scratchArchive_eq : scratchArchive files = some (archiveBytes files ++ replicate 1024 0) := by
  rw [scratchArchive, putScratchFiles_eq hfiles]
  rfl

/-! ## Extracting -/

variable (hnames : (files.map Prod.fst).Nodup)
include hnames

/-- The turns of the loop of `fsutil_extract` on an archive at sector `k`. -/
theorem extractTurns_eq (h : Holds src k (archiveBytes files ++ replicate 1024 0))
    (hnew : ∀ file ∈ files, store.lookup file.1 = none) :
    (∀ n, n ≤ files.length → extractTurns src n { sector := k, store := store } =
      .ok (some { sector := k + archiveSectors (files.take n), store := store ++ files.take n })) ∧
      ∀ turns, files.length < turns → extractLoop src turns { sector := k, store := store } =
        .ok { sector := k + archiveSectors files + 1, store := store ++ files } := by
  induction files generalizing k store with
  | nil =>
    constructor
    · intro n hn
      obtain rfl : n = 0 := by simpa using hn
      simp [extractTurns]
    · intro turns hturns
      obtain ⟨t, rfl⟩ : ∃ t, turns = t + 1 := ⟨turns - 1, by omega⟩
      have hend := extractEntry_end (n := 512) h store
      simp [extractLoop, hend, bind, Except.bind, pure, Except.pure]
  | cons file files ih =>
    obtain ⟨hname, hdata⟩ := hfiles file mem_cons_self
    obtain ⟨hnotin, hnames'⟩ := nodup_cons.mp hnames
    rw [archiveBytes_cons, append_assoc] at h
    obtain ⟨hfile, hrest⟩ := h.append (fileBytes_length file.1 file.2)
    have hentry := extractEntry_file hfile hname hdata (hnew file mem_cons_self)
    have hnew' : ∀ f ∈ files, (store ++ [file]).lookup f.1 = none := by
      intro f hf
      have hne : (f.1 == file.1) = false := beq_eq_false_iff_ne.mpr (fun he => hnotin (mem_map.mpr ⟨f, hf, he⟩))
      rw [lookup_append, hnew f (mem_cons_of_mem _ hf), Option.none_or, lookup_cons, hne]
      rfl
    obtain ⟨hturns, hloop⟩ := ih (fun f hf => hfiles f (mem_cons_of_mem _ hf)) hnames' hrest hnew'
    constructor
    · intro n hn
      cases n with
      | zero => simp [extractTurns]
      | succ n =>
        rw [extractTurns, hentry]
        simp only [bind, Except.bind]
        rw [hturns n (by simpa using hn), take_succ_cons, archiveSectors_cons, Nat.add_assoc, append_assoc]
        rfl
    · intro turns hlt
      obtain ⟨t, rfl⟩ : ∃ t, turns = t + 1 := ⟨turns - 1, by omega⟩
      rw [extractLoop, hentry]
      simp only [bind, Except.bind]
      rw [hloop t (by simpa using hlt), archiveSectors_cons, ← Nat.add_assoc, append_assoc]
      rfl

/-- Files with different names come out as they went in. -/
theorem extracts_of_nodup : Extracts files := by
  refine ⟨_, scratchArchive_eq hfiles, fun src store hsrc hnew => ?_⟩
  obtain ⟨hturns, hloop⟩ := extractTurns_eq hfiles hnames hsrc hnew
  have hfits := hsrc.fits
  rw [archive_length] at hfits
  have hlength := length_le_archiveSectors files
  refine ⟨fun n hn => ?_, ?_⟩
  · have hpart := putScratchFiles_eq (fun file hf => hfiles file (mem_of_mem_take hf) : ∀ file ∈ files.take n, ArchiveFile file)
    exact ⟨_, _, hturns n hn, rfl, hpart, by rw [archiveBytes_length, Nat.zero_add]⟩
  have hrun : ∃ src', fsutilExtract src { sector := 0, store := store } =
      .ok (src', { sector := 0 + archiveSectors files + 1, store := store ++ files }) := by
    rw [fsutilExtract, hloop (src.size + 1) (by omega)]
    simp only [bind, Except.bind]
    rw [writeSector_eq (by omega)]
    simp only
    rw [writeSector_eq (by simp only [withSector]; omega)]
    exact ⟨_, rfl⟩
  obtain ⟨src', hrun⟩ := hrun
  refine ⟨src', _, hrun, rfl, ?_⟩
  rw [archive_length]
  simp only
  omega

end

/-! ## Names that are taken -/

theorem FileStore.write_names (store : FileStore) (name : CString) (pos : Nat) (data : List UInt8) :
    (store.write name pos data).1.map Prod.fst = store.map Prod.fst := by
  rw [FileStore.write, map_map]
  refine map_congr_left (fun file _ => ?_)
  simp only [Function.comp_apply]
  split
  · next he => exact he.symm
  · rfl

theorem copyIn_names {name : CString} {turns size pos : Nat} (h : copyIn src name turns size pos s = .ok s') :
    s'.store.map Prod.fst = s.store.map Prod.fst := by
  induction turns generalizing size pos s with
  | zero =>
    cases h
    rfl
  | succ turns ih =>
    rw [copyIn] at h
    split at h
    · cases h
      rfl
    obtain ⟨data, -, h⟩ := Loop.bind_eq_ok.mp h
    simp only at h
    split at h
    · cases h
    · rw [ih h, FileStore.write_names]

/-- `filesys_create` creates no second file of a name. -/
theorem FileStore.create_nodup {store' : FileStore} {name : CString} {size : Nat} (h : store.create name size = some store')
    (hs : (store.map Prod.fst).Nodup) : (store'.map Prod.fst).Nodup := by
  rw [FileStore.create] at h
  split at h
  · cases h
  next hnew =>
  cases h
  rw [map_append, nodup_append]
  refine ⟨hs, nodup_singleton _, ?_⟩
  rintro x hx y hy rfl
  obtain rfl := mem_singleton.mp hy
  obtain ⟨file, hfile, he⟩ := mem_map.mp hx
  exact hnew (lookup_isSome_iff.mpr ⟨file, hfile, beq_iff_eq.mpr he.symm⟩)

/-- A turn creates no second file of a name. -/
theorem extractEntry_nodup (h : extractEntry src s = .ok (some s')) (hs : (s.store.map Prod.fst).Nodup) :
    (s'.store.map Prod.fst).Nodup := by
  obtain ⟨header, -, h⟩ := Loop.bind_eq_ok.mp h
  split at h
  · cases h
  · cases h
  split at h
  · cases Except.ok.inj h
    exact hs
  simp only at h
  split at h
  · cases h
  next store hcreate =>
  split at h
  · cases h
  · obtain ⟨s1, hcopy, h⟩ := Loop.bind_eq_ok.mp h
    cases Except.ok.inj h
    rw [copyIn_names hcopy]
    exact FileStore.create_nodup hcreate hs

theorem extractTurns_nodup {n : Nat} (h : extractTurns src n s = .ok (some s'))
    (hs : (s.store.map Prod.fst).Nodup) : (s'.store.map Prod.fst).Nodup := by
  induction n generalizing s with
  | zero =>
    cases Except.ok.inj h
    exact hs
  | succ n ih =>
    obtain ⟨r, hentry, h⟩ := Loop.bind_eq_ok.mp h
    cases r with
    | none => cases h
    | some s1 => exact ih h (extractEntry_nodup hentry hs)

/-- A device that holds given sectors. -/
def deviceOf (bs : List UInt8) : Block where
  size := bs.length / 512
  disk k := sectorOf ((bs.drop (512 * k)).take 512)

theorem deviceOf_holds (hm : bs.length = 512 * m) : Holds (deviceOf bs) 0 bs := by
  refine Holds.of_sectors hm (by simp only [deviceOf]; omega) (fun i hi => ?_)
  have hlen : ((bs.drop (512 * i)).take 512).length = 512 := by
    rw [length_take, length_drop]
    omega
  rw [deviceOf, Nat.zero_add, sectorOf_slice (by decide : 512 ≤ blockSectorSize) (by rw [hlen]), hlen]
  exact append_nil _

/-- Files that come out as they went in have different names. -/
theorem nodup_of_extracts (hfiles : ∀ file ∈ files, ArchiveFile file) (h : Extracts files) : (files.map Prod.fst).Nodup := by
  obtain ⟨archive, harchive, h⟩ := h
  cases (scratchArchive_eq hfiles).symm.trans harchive
  obtain ⟨s, -, hturns, hstore, -⟩ := (h _ [] (deviceOf_holds (archive_length files))
    (fun _ _ => rfl)).1 files.length (Nat.le_refl _)
  have hnodup := extractTurns_nodup hturns nodup_nil
  rwa [hstore, take_length] at hnodup

/-- `fsutil_extract` panics at a name for the second time. -/
theorem fsutilExtract_twice {file : CString × List UInt8} (hfile : ArchiveFile file) {rest : List UInt8}
    (h : Holds src 0 (archiveBytes [file, file] ++ rest)) :
    fsutilExtract src { sector := 0, store := [] } = .error (.createFailed file.1) := by
  have hfits := h.fits
  rw [length_append, archiveBytes_length, archiveSectors_cons, fileSectors] at hfits
  obtain ⟨n, hsize⟩ : ∃ n, src.size = n + 1 := ⟨src.size - 1, by omega⟩
  rw [archiveBytes_cons, append_assoc] at h
  obtain ⟨hfirst, h⟩ := h.append (fileBytes_length file.1 file.2)
  rw [archiveBytes_cons, append_assoc] at h
  obtain ⟨hsecond, -⟩ := h.append (fileBytes_length file.1 file.2)
  have hnew : ([] : FileStore).lookup file.1 = none := rfl
  have hold : (([] ++ [(file.1, file.2)] : FileStore).lookup file.1).isSome = true := by simp
  have hcreated := extractEntry_file hfirst hfile.1 hfile.2 hnew
  have htaken := extractEntry_taken hsecond hfile.1 hfile.2 hold
  rw [fsutilExtract, hsize, extractLoop, hcreated]
  simp only [bind, Except.bind, extractLoop]
  rw [htaken]

/-! ## Appending -/

/-- Bytes are held as long as their sectors stay as they are. -/
theorem Holds.keep {b' : Block} (h : Holds b k bs) (hm : bs.length = 512 * m) (hsize : b'.size = b.size)
    (hdisk : ∀ x, x < k + m → b'.disk x = b.disk x) : Holds b' k bs := by
  refine ⟨hsize ▸ h.fits, ?_⟩
  rw [← h.bytes, Bytes.slice_length]
  refine Bytes.slice_congr (fun x hlow hhigh => ?_)
  simp only [Block.hostFile]
  rw [hdisk _ (by omega)]

/-- Bytes in two parts. -/
theorem Holds.join {cs : List UInt8} (hm : bs.length = 512 * m) (h : Holds b k bs) (h' : Holds b (k + m) cs) :
    Holds b k (bs ++ cs) := by
  have hfits := h'.fits
  refine ⟨by rw [length_append]; omega, ?_⟩
  rw [length_append, Bytes.slice_add, h.bytes, hm, ← Nat.mul_add, h'.bytes]

/-- Calls of `fsutil_append` for files of the file system, from sector `k` on. -/
theorem appendAll_eq (behindBuffer : Nat → UInt8)
    (hnames : ∀ file ∈ files, ArchiveName file.1) (hlookup : ∀ file ∈ files, store.lookup file.1 = some file.2)
    (dst : Block) (k : Nat) (hsize : k + archiveSectors files < dst.size) :
    ∃ s, appendAll store behindBuffer (files.map Prod.fst) { dst := dst, sector := k } = .ok s ∧
    s.sector = k + archiveSectors files ∧
      s.dst.size = dst.size ∧ Holds s.dst k (archiveBytes files) ∧ ∀ x, x < k → s.dst.disk x = dst.disk x := by
  induction files generalizing dst k with
  | nil =>
    refine ⟨_, rfl, rfl, rfl, ⟨?_, rfl⟩, fun _ _ => rfl⟩
    simp only [archiveBytes, flatMap_nil, length_nil]
    omega
  | cons file files ih =>
    rw [archiveSectors_cons] at hsize
    obtain ⟨dst1, happend, hsize1, hheld, hfront⟩ := fsutilAppend_eq (hlookup file mem_cons_self) (hnames file mem_cons_self)
      (behindBuffer k) dst (k := k) (by omega)
    obtain ⟨s, hrest, hsector, hsize2, hheld2, hfront2⟩ := ih (fun f hf => hnames f (mem_cons_of_mem _ hf))
      (fun f hf => hlookup f (mem_cons_of_mem _ hf)) dst1 (k + fileSectors file.2) (by omega)
    refine ⟨s, ?_, by rw [hsector, archiveSectors_cons, Nat.add_assoc], hsize2.trans hsize1, ?_, fun x hx => ?_⟩
    · rw [map_cons, appendAll, happend]
      exact hrest
    · exact (hheld.keep (fileBytes_length _ _) hsize2 hfront2).join (fileBytes_length _ _) hheld2
    · rw [hfront2 x (by omega), hfront x hx]

/-- Calls of `get_scratch_file` on an archive at sector `k`. -/
theorem getScratchFiles_eq (hdata : ∀ file ∈ files, file.2.length ≤ 2 ^ 31 - 1)
    (h : Holds b k (archiveBytes files)) (n : Nat) (hn : n ≤ files.length) :
    getScratchFiles b.hostFile n (512 * k) = .ok ((files.take n).map Prod.snd, 512 * (k + archiveSectors (files.take n))) := by
  induction files generalizing k n with
  | nil =>
    obtain rfl : n = 0 := by simpa using hn
    rfl
  | cons file files ih =>
    cases n with
    | zero => rfl
    | succ n =>
      obtain ⟨hfile, hrest⟩ := h.append (fileBytes_length file.1 file.2)
      have hget := getScratchFile_eq hfile (hdata file mem_cons_self)
      have hgets := ih (fun f hf => hdata f (mem_cons_of_mem _ hf)) hrest n (by simpa using hn)
      simp only [getScratchFiles, hget, bind, Except.bind, hgets, pure, Except.pure, take_succ_cons, map_cons,
        archiveSectors_cons, Nat.add_assoc]

/-- Files come back as they are, whether or not a file is appended twice. -/
theorem getsBack (hfiles : ∀ file ∈ files, ArchiveFile file) : GetsBack files := by
  intro store behindBuffer dst hlookup hsize
  obtain ⟨s, hall, -, -, hheld, -⟩ := appendAll_eq behindBuffer (fun file hf => (hfiles file hf).1) hlookup dst 0 (by omega)
  refine ⟨s, hall, fun n hn => ?_⟩
  have hsectors : archiveSectors (files.take n) ≤ archiveSectors files := by
    conv_rhs => rw [← take_append_drop n files, archiveSectors, map_append, sum_append]
    exact Nat.le_add_right _ _
  have hnames : ∀ file ∈ files.take n, ArchiveName file.1 := fun file hf => (hfiles file (mem_of_mem_take hf)).1
  obtain ⟨sₙ, hn', hsector, -⟩ := appendAll_eq behindBuffer hnames (fun file hf => hlookup file (mem_of_mem_take hf))
    dst 0 (by omega)
  refine ⟨sₙ, hn', ?_⟩
  rw [hsector]
  exact getScratchFiles_eq (fun file hf => (hfiles file hf).2) hheld n hn

/-- Archives survive the trip between host and kernel. What the host puts into an archive is extracted by the kernel, file by
file, exactly if no two files have the same name; what the kernel appends comes back to the host in any case. -/
theorem archives_survive (files : List (CString × List UInt8)) (hfiles : ∀ file ∈ files, ArchiveFile file) :
    (Extracts files ↔ (files.map Prod.fst).Nodup) ∧ GetsBack files :=
  ⟨⟨nodup_of_extracts hfiles, extracts_of_nodup hfiles⟩, getsBack hfiles⟩

/-- The file `a`, with one byte of data. -/
def smallFile : CString × List UInt8 := (cstr (ascii "a"), [7])

/-- The file `b`, whose data takes three sectors. -/
def largeFile : CString × List UInt8 := (cstr (ascii "b"), replicate 1025 3)

theorem smallFile_archiveFile : ArchiveFile smallFile := ⟨by decide, by decide⟩

theorem twoFiles_archiveFile : ∀ file ∈ [smallFile, largeFile], ArchiveFile file :=
  forall_mem_cons.mpr ⟨smallFile_archiveFile, forall_mem_singleton.mpr ⟨by decide, by decide +kernel⟩⟩

/-- An archive of both. -/
theorem twoFiles_survive : Extracts [smallFile, largeFile] ∧ GetsBack [smallFile, largeFile] := by
  obtain ⟨hextracts, hback⟩ := archives_survive [smallFile, largeFile] twoFiles_archiveFile
  exact ⟨hextracts.mpr (by decide), hback⟩

/-- The host makes an archive of two files of one name, and `fsutil_extract` panics on it: the second `filesys_create`
fails. -/
theorem two_files_of_one_name : (∀ file ∈ [smallFile, smallFile], ArchiveFile file) ∧ ¬Extracts [smallFile, smallFile] ∧
    ∃ archive, scratchArchive [smallFile, smallFile] = some archive ∧
      fsutilExtract (deviceOf archive) { sector := 0, store := [] } = .error (.createFailed smallFile.1) := by
  have hfiles : ∀ file ∈ [smallFile, smallFile], ArchiveFile file := by
    intro file hf
    obtain rfl : file = smallFile := by simpa using hf
    exact smallFile_archiveFile
  exact ⟨hfiles, fun h => absurd (nodup_of_extracts hfiles h) (by decide), _, scratchArchive_eq hfiles,
    fsutilExtract_twice smallFile_archiveFile (deviceOf_holds (archive_length _))⟩

end Pintos
