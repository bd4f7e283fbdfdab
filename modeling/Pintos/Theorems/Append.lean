import Pintos.Theorems.Fsutil

/-!
# The end marker of an appended archive

The marker is two sectors of zeros. `fsutil_append` writes twice to the first of them, and the second time from one byte
behind the start of its buffer: the sector ends with whatever byte lies behind the buffer, and the sector after it keeps what
the device held before.
-/

namespace Pintos

open Contents

variable {store : FileStore} {name : CString} {byte : UInt8} {s s' : Appending}

/-- A sector that is written, and no other. -/
theorem writeSector_ok {b b' : Block} {sector : Nat} {c : Contents} (h : writeSector b sector c = .ok b') (x : Nat) :
    b'.disk x = if x = sector then c else b.disk x := by
  rw [writeSector] at h
  split at h
  · rename_i hw
    cases h
    rw [(Block.write_eq_some hw).2]
  · cases h

/-- The loop of `fsutil_append` goes on by the sectors of its data, and leaves alone what lies ahead of it. -/
theorem copyOut_ahead {contents : List UInt8} {turns size pos : Nat} (h : copyOut name contents turns size pos s = .ok s')
    (hturns : size ≤ turns) : s'.sector = s.sector + (size + 511) / 512 ∧ ∀ x, s'.sector ≤ x → s'.dst.disk x = s.dst.disk x := by
  induction turns generalizing size pos s with
  | zero =>
    cases h
    exact ⟨by omega, fun _ _ => rfl⟩
  | succ turns ih =>
    simp only [copyOut] at h
    split_ifs at h
    · cases h
      exact ⟨by omega, fun _ _ => rfl⟩
    cases hw : writeSector s.dst s.sector (sectorOf (FileStore.read contents pos (min size blockSectorSize))) with
    | error e => simp [hw, bind, Except.bind] at h
    | ok dst =>
      rw [hw] at h
      have hsize : blockSectorSize = 512 := rfl
      obtain ⟨hsector, hrest⟩ := ih h (by omega)
      rw [hsize] at hsector
      simp only at hsector
      refine ⟨by omega, fun x hx => ?_⟩
      rw [hrest x hx, writeSector_ok hw, if_neg (by omega)]

/-- What a call of `fsutil_append` leaves behind the data. -/
theorem fsutilAppend_marker (h : fsutilAppend store name byte s = .ok s') :
    s'.sector = s.sector + fileSectors ((store.lookup name).getD []) ∧ s'.dst.disk s'.sector = (fill 0).splice 511 [byte] ∧
      s'.dst.disk (s'.sector + 1) = s.dst.disk (s'.sector + 1) := by
  simp only [fsutilAppend, bind, Except.bind, pure, Except.pure] at h
  repeat' split at h
  all_goals cases h
  rename_i hlookup _ _ _ _ _ hfirst _ _ hcopy _ _ hmark _ _ hmark'
  obtain ⟨hsector, hahead⟩ := copyOut_ahead hcopy (Nat.le_refl _)
  simp only at hsector ⊢
  rw [writeSector_ok hmark', writeSector_ok hmark', if_pos rfl, if_neg (by omega), writeSector_ok hmark, if_neg (by omega),
    hahead _ (by omega), writeSector_ok hfirst, if_neg (by omega), hlookup, fileSectors, bodySectors, hsector]
  exact ⟨Nat.add_assoc _ _ _, rfl, rfl⟩

/-- The byte from behind the buffer is the last of its sector. -/
theorem marker_last (byte : UInt8) : ((fill 0).splice 511 [byte]).byte 511 = byte :=
  (fill 0).splice_inside 511 [byte] 0 (by simp) (by decide)

/-- The first sector of the marker is zero exactly if that byte is. -/
theorem marker_eq_iff : (fill 0).splice 511 [byte] = fill 0 ↔ byte = 0 := by
  constructor
  · intro h
    rw [← marker_last byte, h]
    rfl
  rintro rfl
  refine ext_bytes (fun k hk => ?_)
  rcases Nat.lt_or_ge k 511 with hlt | hge
  · exact splice_outside _ _ _ _ (.inl hlt)
  · obtain rfl : k = 511 := Nat.le_antisymm (Nat.le_of_lt_succ hk) hge
    exact marker_last 0

/-- The calls of a sequence that return: the state before each, the name of its file and the state after it. -/
def appendCalls (store : FileStore) (behindBuffer : Nat → UInt8) : List CString → Appending →
    List (Appending × CString × Appending)
  | [], _ => []
  | name :: rest, s =>
    match fsutilAppend store name (behindBuffer s.sector) s with
    | .error _ => []
    | .ok s' => (s, name, s') :: appendCalls store behindBuffer rest s'

theorem appendCalls_ok {behindBuffer : Nat → UInt8} {names : List CString} {c : Appending × CString × Appending}
    (h : c ∈ appendCalls store behindBuffer names s) : fsutilAppend store c.2.1 (behindBuffer c.1.sector) c.1 = .ok c.2.2 := by
  induction names generalizing s with
  | nil => cases h
  | cons name rest ih =>
    rw [appendCalls] at h
    split at h
    · cases h
    · rename_i hcall
      rcases List.mem_cons.mp h with rfl | h
      · exact hcall
      · exact ih h

/-- The sector behind the data of the file that a call appends. -/
def dataEnd (store : FileStore) (c : Appending × CString × Appending) : Nat :=
  c.1.sector + fileSectors ((store.lookup c.2.1).getD [])

/-- After every call of a sequence the two sectors behind the data are zero exactly if, at every call, the byte behind the
buffer is zero and the second of the sectors is zero before; and no call writes what does not depend on that byte. -/
theorem append_marker_iff (store : FileStore) (behindBuffer : Nat → UInt8) (names : List CString) (s s' : Appending)
    (h : appendAll store behindBuffer names s = .ok s') :
    ((∀ c ∈ appendCalls store behindBuffer names s,
        c.2.2.dst.disk (dataEnd store c) = fill 0 ∧ c.2.2.dst.disk (dataEnd store c + 1) = fill 0) ↔
      ∀ c ∈ appendCalls store behindBuffer names s,
        behindBuffer c.1.sector = 0 ∧ c.1.dst.disk (dataEnd store c + 1) = fill 0) ∧
    ((∀ c ∈ appendCalls store behindBuffer names s, ∀ byte, fsutilAppend store c.2.1 byte c.1 = .ok c.2.2) ↔ names = []) := by
  refine ⟨forall₂_congr fun c hc => ?_, fun hall => ?_, ?_⟩
  · obtain ⟨hsector, hfirst, hsecond⟩ := fsutilAppend_marker (appendCalls_ok hc)
    rw [dataEnd, ← hsector, hfirst, hsecond, marker_eq_iff]
  · cases names with
    | nil => rfl
    | cons name rest =>
      simp only [appendAll, bind, Except.bind] at h
      split at h
      · cases h
      rename_i s1 hcall
      have hc := hall (s, name, s1) (by rw [appendCalls, hcall]; exact List.mem_cons_self)
      -- two bytes behind the buffer, two devices
      have h0 := (fsutilAppend_marker (hc 0)).2.1
      have h1 := (fsutilAppend_marker (hc 1)).2.1
      have : (0 : UInt8) = 1 := by rw [← marker_last 0, ← h0, h1, marker_last]
      cases this
  · rintro rfl c hc
    cases hc

/-- A device with data of an earlier archive. -/
def staleDevice : Appending := { dst := { size := 7, disk := fun _ => fill 1 }, sector := 0 }

/-- The calls for two files on it depend on the byte behind the buffer. -/
theorem append_marker_stale : ∃ s, appendAll [smallFile, largeFile] (fun _ => 7) [smallFile.1, largeFile.1] staleDevice = .ok s ∧
    ¬∀ c ∈ appendCalls [smallFile, largeFile] (fun _ => 7) [smallFile.1, largeFile.1] staleDevice, ∀ byte,
      fsutilAppend [smallFile, largeFile] c.2.1 byte c.1 = .ok c.2.2 := by
  have hlookup : ∀ file ∈ [smallFile, largeFile], [smallFile, largeFile].lookup file.1 = some file.2 := by decide +kernel
  obtain ⟨s, h, -⟩ := appendAll_eq (fun _ => 7)
    (fun file hf => (twoFiles_archiveFile file hf).1) hlookup staleDevice.dst 0 (by decide +kernel)
  exact ⟨s, h, fun hall => by cases (append_marker_iff _ _ _ _ _ h).2.mp hall⟩

/-- A file system with an empty file `a`. -/
def fileA : FileStore := [(cstr (ascii "a"), [])]

/-- An empty file is appended to the device: the second sector behind its header still holds the earlier data, and the first
ends with the byte `7` that lies behind the buffer. -/
theorem stale_sector_kept : ∃ s, appendAll fileA (fun _ => 7) [cstr (ascii "a")] staleDevice = .ok s ∧
    (s.dst.disk 1).byte 511 = 7 ∧ s.dst.disk 2 = fill 1 := by
  have hlookup : fileA.lookup (cstr (ascii "a")) = some [] := rfl
  obtain ⟨dst, h, -⟩ := fsutilAppend_eq hlookup (by decide) 7 staleDevice.dst (k := 0) (by decide)
  obtain ⟨-, hfirst, hsecond⟩ := fsutilAppend_marker h
  have hlast : dst.disk 1 = (fill 0).splice 511 [7] := hfirst
  exact ⟨_, by rw [appendAll]; exact congrArg (· >>= _) h, by rw [hlast, marker_last], hsecond⟩

end Pintos
