import Pintos.Userprog.Segment

/-!
# Segments are loaded inside user space

The checks of `validate_segment` bound the sums that `load` forms of the fields of a program header, so that none of them
wraps. The loop of `load_segment` then goes through the pages of the segment, one a turn.
-/

namespace Pintos

open List

variable {phdr : Elf32Phdr} {data : List UInt8} {getPage installPage : Nat → Bool} {writable : Bool}

/-- What the checks say together. -/
theorem validateSegment_bounds {length : Nat} (h : validateSegment phdr length = true) :
    phdr.pOffset.toNat % 4096 = phdr.pVaddr.toNat % 4096 ∧ phdr.pOffset.toNat ≤ length ∧ phdr.pFilesz.toNat ≤ phdr.pMemsz.toNat ∧
      0 < phdr.pMemsz.toNat ∧ phdr.pVaddr.toNat + phdr.pMemsz.toNat < 0xc0000000 ∧ 4096 ≤ phdr.pVaddr.toNat := by
  have hv := phdr.pVaddr.toNat_lt
  have hm := phdr.pMemsz.toNat_lt
  simp only [validateSegment, isUserVaddr, ptrAdd, toUInt32, pgOfs, pgsize, physBase, Bool.not_eq_eq_eq_not,
    decide_eq_false_iff_not, Bool.not_true] at h
  have hpage : ¬phdr.pVaddr.toNat < 4096 := fun hlt => by simp [hlt] at h
  split_ifs at h
  all_goals omega

/-- The number of pages from that of the first byte of a segment to that of its last. -/
def Elf32Phdr.pages (phdr : Elf32Phdr) : Nat :=
  (phdr.pVaddr.toNat + phdr.pMemsz.toNat - 1) / pgsize + 1 - phdr.pVaddr.toNat / pgsize

/-- The bytes to be read and the bytes to be zeroed fill these pages, and are counted without wrapping. -/
theorem Elf32Phdr.bytes_eq {length : Nat} (h : validateSegment phdr length = true) :
    phdr.readBytes + phdr.zeroBytes = phdr.pages * pgsize := by
  obtain ⟨-, -, hf, hm, hv, -⟩ := validateSegment_bounds h
  have hround : phdr.rounded = (phdr.pVaddr.toNat % 4096 + phdr.pMemsz.toNat + 4095) / 4096 * 4096 := by
    simp only [rounded, roundUpPage, toUInt32, pgOfs, pgsize]
    omega
  simp only [zeroBytes, readBytes, hround, pages, toUInt32, pgOfs, pgsize]
  split <;> omega

/-- A read that returns the number of bytes asked for has put these bytes of the file into the buffer. -/
theorem readFile_full {pos size : Nat} (h : (readFile data pos size).1 = size) :
    (readFile data pos size).2 = (data.drop pos).take size ∧ ((data.drop pos).take size).length = size := by
  unfold readFile at h ⊢
  split at h
  · omega
  · rename_i hle
    rw [if_neg hle]
    exact ⟨rfl, Int.ofNat_inj.mp h⟩

/-- A read of bytes that the file has returns their number. -/
theorem readFile_within {pos size : Nat} (h : pos + size ≤ data.length) (hlen : data.length < 2 ^ 31) :
    (readFile data pos size).1 = size := by
  have hfits : toInt32 (pos + size) = pos + size := toInt32_of_fits (by omega) (by omega)
  rw [readFile, hfits, if_neg (by omega), length_take, length_drop, Nat.min_eq_left (by omega)]

/-- The loop goes through `n` pages, which it fills with the bytes of the file and then with zeros, or gives up before, which
it does not where it gets all pages and the file has all bytes. -/
theorem loadPages_spec (n tests pos upage readBytes zeroBytes : Nat) (hsum : readBytes + zeroBytes = n * 4096)
    (hup : upage + n * 4096 ≤ 0xc0000000) (ht : n < tests) :
    ∃ ok pages, loadPages data getPage installPage writable tests pos upage readBytes zeroBytes = .ok (ok, pages) ∧
      (∀ i page, pages[i]? = some page → i < n ∧ page.upage = upage + i * 4096 ∧ page.bytes.length = 4096) ∧
      (ok = true → pages.length = n ∧
        pages.flatMap (·.bytes) = (data.drop pos).take readBytes ++ replicate zeroBytes 0 ∧
        ((data.drop pos).take readBytes).length = readBytes) ∧
      (data.length < 2 ^ 31 → pos + readBytes ≤ data.length →
        (∀ i < n, getPage (upage + i * 4096) = true ∧ installPage (upage + i * 4096) = true) → ok = true) := by
  obtain ⟨tests, rfl⟩ : ∃ k, tests = k + 1 := ⟨tests - 1, by omega⟩
  induction n generalizing tests pos upage readBytes zeroBytes with
  | zero =>
    obtain ⟨rfl, rfl⟩ : readBytes = 0 ∧ zeroBytes = 0 := by omega
    exact ⟨true, [], rfl, fun i page h => by simp at h, fun _ => ⟨rfl, by simp, by simp⟩, fun _ _ _ => rfl⟩
  | succ n ih =>
    rw [loadPages, if_pos (by omega)]
    generalize hp : (if readBytes < pgsize then readBytes else pgsize) = p
    have hpn : p = min readBytes pgsize := by rw [← hp]; split <;> omega
    simp only [pgsize] at hpn ⊢
    split
    · rename_i hturn
      obtain ⟨hbytes, hlen⟩ := readFile_full hturn.2.1
      obtain ⟨tests, rfl⟩ : ∃ k, tests = k + 1 := ⟨tests - 1, by omega⟩
      have hz : toUInt32 ((zeroBytes : Int) - (4096 - p : Nat)) = zeroBytes - (4096 - p) := by
        unfold toUInt32
        omega
      have hu : ptrAdd upage (4096 : Nat) = upage + 4096 := by
        unfold ptrAdd toUInt32
        omega
      obtain ⟨ok, pages, hrun, hpages, hok, hall⟩ :=
        ih (pos + p) (upage + 4096) (readBytes - p) (zeroBytes - (4096 - p)) (by omega) (by omega) tests (by omega)
      rw [hz, hu, hrun]
      refine ⟨ok, _, rfl, fun i page h => ?_, fun h => ?_, fun hfile hhas hget => hall hfile (by omega) fun i hi => ?_⟩
      · cases i with
        | zero =>
          cases h
          refine ⟨by omega, rfl, ?_⟩
          rw [length_append, hbytes, hlen, length_replicate]
          omega
        | succ i =>
          obtain ⟨hi, hpage, hrest⟩ := hpages i page h
          exact ⟨by omega, by omega, hrest⟩
      · obtain ⟨hcount, hflat, hfull⟩ := hok h
        have htake : (data.drop pos).take readBytes = (data.drop pos).take p ++ (data.drop (pos + p)).take (readBytes - p) := by
          rw [← drop_drop, ← take_add, Nat.add_sub_cancel' (by omega)]
        refine ⟨by rw [length_cons, hcount], ?_, by rw [htake, length_append, hlen, hfull]; omega⟩
        rw [flatMap_cons, hflat, hbytes, htake]
        -- a page that the file's bytes do not fill is the last with any
        rcases Nat.lt_or_ge readBytes 4096 with hlt | hge
        · simp [show readBytes - p = 0 by omega, show 4096 - p + (zeroBytes - (4096 - p)) = zeroBytes by omega]
        · simp [show 4096 - p = 0 by omega]
      · simpa [Nat.succ_mul, Nat.add_assoc, Nat.add_comm 4096] using hget (i + 1) (by omega)
    · rename_i hturn
      refine ⟨false, [], rfl, fun i page h => by simp at h, nofun, fun hfile hhas hget => absurd ?_ hturn⟩
      have hfirst := hget 0 (by omega)
      rw [Nat.zero_mul, Nat.add_zero] at hfirst
      exact ⟨hfirst.1, readFile_within (by omega) hfile, hfirst.2⟩

/-- A segment that `validate_segment` accepts is loaded, or loading it is given up, with every assertion met: its pages lie
in user space, from the page of its first byte to that of its last, and hold the bytes of the file and zeros behind them.
Where pages are got and installed and the file has the bytes, it is loaded. -/
theorem segment_loaded (phdr : Elf32Phdr) (data : List UInt8) (getPage installPage : Nat → Bool) (tests : Nat)
    (hlength : data.length < 2 ^ 31) (ht : phdr.pages < tests) (h : validateSegment phdr data.length = true) :
    phdr.readBytes + phdr.zeroBytes = phdr.pages * pgsize ∧ phdr.pages * pgsize < 2 ^ 32 ∧
    ∃ ok pages, phdr.load data getPage installPage tests = .ok (ok, pages) ∧
      (∀ i page, pages[i]? = some page → page.upage = pageOf phdr.pVaddr.toNat + i * pgsize ∧ pgsize ≤ page.upage ∧
        page.upage + pgsize ≤ physBase ∧ page.bytes.length = pgsize) ∧
      (ok = true → pages.length = phdr.pages ∧ ∀ k < phdr.pages * pgsize, (pages.flatMap (·.bytes))[k]? =
        if k < phdr.readBytes then data[pageOf phdr.pOffset.toNat + k]? else some 0) ∧
      (pageOf phdr.pOffset.toNat + phdr.readBytes ≤ data.length →
        (∀ i < phdr.pages, getPage (pageOf phdr.pVaddr.toNat + i * pgsize) = true ∧
          installPage (pageOf phdr.pVaddr.toNat + i * pgsize) = true) → ok = true) := by
  obtain ⟨hofs, hlen, -, hm, hv, hpage⟩ := validateSegment_bounds h
  have hsum := Elf32Phdr.bytes_eq h
  have hend : pageOf phdr.pVaddr.toNat + phdr.pages * pgsize ≤ 0xc0000000 := by
    simp only [pageOf, Elf32Phdr.pages, pgOfs, pgsize]
    omega
  have hlow : pgsize ≤ pageOf phdr.pVaddr.toNat := by
    simp only [pageOf, pgOfs, pgsize]
    omega
  refine ⟨hsum, by omega, ?_⟩
  obtain ⟨ok, pages, hrun, hpages, hok, hall⟩ := @loadPages_spec data getPage installPage (phdr.pFlags &&& 2 ≠ 0) phdr.pages tests
    (pageOf phdr.pOffset.toNat) (pageOf phdr.pVaddr.toNat) _ _ hsum hend ht
  have hfile : toInt32 (pageOf phdr.pOffset.toNat) = pageOf phdr.pOffset.toNat :=
    toInt32_of_fits (by omega) (by unfold pageOf; omega)
  refine ⟨ok, pages, ?_, fun i page hi => ?_, fun hok' => ?_, hall hlength⟩
  · rw [Elf32Phdr.load, loadSegment, hfile, if_pos, Int.toNat_natCast, hrun]
    refine ⟨?_, ?_, ?_, by omega⟩
    · unfold toUInt32 pgsize at *
      omega
    · simp only [pageOf, pgOfs, pgsize]
      omega
    · rw [← Int.ofNat_tmod]
      simp only [pageOf, pgOfs, pgsize]
      omega
  · obtain ⟨hlt, hup, hbytes⟩ := hpages i page hi
    unfold physBase
    unfold pgsize at *
    omega
  · obtain ⟨hcount, hflat, hfull⟩ := hok hok'
    refine ⟨hcount, fun k hk => ?_⟩
    rw [hflat, getElem?_append, hfull]
    split
    · rename_i hlt
      rw [getElem?_take_of_lt hlt, getElem?_drop]
    · rw [getElem?_replicate, if_pos (by omega)]

/-- A segment of two bytes, one of them in the file. -/
def twoBytes : Elf32Phdr := { pOffset := 0, pVaddr := 4096, pFilesz := 1, pMemsz := 2, pFlags := 0 }

/-- It is loaded, into one page. -/
theorem twoBytes_loaded : ∃ pages, twoBytes.load [7] (fun _ => true) (fun _ => true) 2 = .ok (true, pages) ∧ pages.length = 1 ∧
    (pages.flatMap (·.bytes))[0]? = some 7 ∧ (pages.flatMap (·.bytes))[1]? = some 0 := by
  obtain ⟨-, -, ok, pages, hrun, -, hok, hall⟩ :=
    segment_loaded twoBytes [7] (fun _ => true) (fun _ => true) 2 (by decide) (by decide) (by decide +kernel)
  obtain rfl : ok = true := hall (by decide +kernel) (fun _ _ => ⟨rfl, rfl⟩)
  obtain ⟨hcount, hbytes⟩ := hok rfl
  exact ⟨pages, hrun, hcount, (hbytes 0 (by decide)).trans (by decide +kernel), (hbytes 1 (by decide)).trans (by decide +kernel)⟩

end Pintos
