import Pintos.Lemmas.DirThreads
import Pintos.Lemmas.StoreRuns

/-!
# Directories as lists of entries

A directory is a file of entries of 20 bytes. The scans of `lookup` and `dir_add` go over the list of its entries, and a
write of one entry changes that list in one place or makes it longer by one. So `dir_add` does to the entries what
`DirCall.exec` says.
-/

namespace Pintos

open Program DirAux World Bytes Runs List

variable {e : DirEntry} {a k s sector : Nat} {g : Ghost} {w : World} {i : Inode} {name : CString}

/-! ## Entries -/

/-- An entry whose name fills its array and whose sector fits its word. -/
structure DirEntry.Fits (e : DirEntry) : Prop where
  name : e.name.length = nameMax + 1
  sector : e.inodeSector < 2 ^ 32

theorem DirEntry.encode_length (h : e.Fits) : e.encode.length = dirEntrySize := by
  simp [encode, wordBytes, h.name, nameMax, dirEntrySize]

theorem DirEntry.decode_encode (h : e.Fits) : decode e.encode = e := by
  obtain ⟨sector, name, inUse⟩ := e
  obtain ⟨hname, hsector⟩ := h
  have hlen : name.length = 15 := hname
  have h4 : (wordBytes sector).length = 4 := rfl
  have hw : word (fun k => (wordBytes sector ++ name ++ [if inUse then 1 else 0]).getD k 0) 0 = sector := by
    have hslice : slice (fun k => (wordBytes sector ++ name ++ [if inUse then (1 : UInt8) else 0]).getD k 0) 0 4 =
        wordBytes sector := by
      simp [slice, wordBytes, range_succ]
    have := wordAt_of_slice hslice
    unfold wordAt at this
    simp only [Nat.zero_add] at this
    rw [this, Nat.mod_eq_of_lt hsector]
  have hn : ((wordBytes sector ++ name ++ [if inUse then (1 : UInt8) else 0]).drop 4).take (nameMax + 1) = name := by
    exact take_left' hname
  have hu : (wordBytes sector ++ name ++ [if inUse then (1 : UInt8) else 0]).getD 19 0 = if inUse then 1 else 0 := by
    simp [h4, hlen]
  unfold decode encode
  simp only [hw, hn, hu]
  cases inUse <;> rfl

theorem DirEntry.decode_fits {bs : List UInt8} (h : bs.length = dirEntrySize) : (decode bs).Fits where
  name := by
    have : bs.length = 20 := h
    simp [decode, nameMax, this]
  sector := word_lt (fun k => bs.getD k 0) 0

theorem DirEntry.unread_fits : unread.Fits := ⟨by simp [unread], by decide⟩

theorem DirEntry.Fits.fill (h : e.Fits) (name : CString) (hs : sector < 2 ^ 32) : (e.fill name sector).Fits :=
  ⟨strlcpy_length _ _ _ h.name, hs⟩

/-! ## The entries of a file -/

/-- The entry at a place. -/
def World.slot (w : World) (d : InodeDisk) (k : Nat) : DirEntry :=
  .decode ((w.blocksOf d).fileBytes (dirEntrySize * k) dirEntrySize)

/-- All entries. -/
def World.slots (w : World) (d : InodeDisk) : List DirEntry := (range (d.length.toNat / dirEntrySize)).map (w.slot d)

section

variable {v : World} {d d' : InodeDisk}

@[simp] theorem World.slots_length (w : World) (d : InodeDisk) : (w.slots d).length = d.length.toNat / dirEntrySize := by
  simp [slots]

theorem World.slots_getElem? (hk : k < d.length.toNat / dirEntrySize) : (w.slots d)[k]? = some (w.slot d k) := by
  simp [slots, hk]

theorem World.slot_fits (w : World) (d : InodeDisk) (k : Nat) : (w.slot d k).Fits :=
  DirEntry.decode_fits (by simp [BlockWorld.fileBytes])

theorem World.slots_fits (he : e ∈ w.slots d) : e.Fits := by
  obtain ⟨k, -, rfl⟩ := mem_map.mp he
  exact w.slot_fits d k

/-- The same bytes are the same entries. -/
theorem World.slot_congr (h : ∀ j, dirEntrySize * k ≤ j → j < dirEntrySize * k + dirEntrySize →
    (v.blocksOf d').fileByte j = (w.blocksOf d).fileByte j) : v.slot d' k = w.slot d k := by
  unfold slot BlockWorld.fileBytes
  congr 1
  refine map_congr_left (fun j hj => h _ (Nat.le_add_right _ _) ?_)
  have := mem_range.mp hj
  omega

/-- The bytes of an entry are bytes of the file. -/
theorem slot_byte_lt {length : Int} {j : Nat} (hk : k < length.toNat / dirEntrySize) (hj : j < dirEntrySize * k + dirEntrySize) :
    (j : Int) < length := by
  unfold dirEntrySize at hk hj
  omega

/-- A directory that is untouched has the same entries. -/
theorem Untouched.slots (h : Untouched w v s d) : v.slots d = w.slots d := by
  exact map_congr_left (fun k hk => slot_congr (fun j _ hj => h.bytes j (slot_byte_lt (mem_range.mp hk) hj)))

end

/-! ## The scans -/

/-- A file that is open, with no writer active, can be read. -/
structure Readable (w : World) (a : Nat) (i : Inode) : Prop where
  cell : w.mem.inodes a = some i
  settled : i.extending = false ∧ i.denyWriteCnt = 0
  file : FileOk w i.sector i.data

/-- What `lookup` returns: the entry of the name and its offset, or nothing where there is no such entry. -/
def Looked (slots : List DirEntry) (name : CString) (r : Option (DirEntry × Nat)) : Prop :=
  (r = none ∧ slots.any (·.isNamed name) = false) ∨
    ∃ j e, r = some (e, dirEntrySize * j) ∧ slots[j]? = some e ∧ slots.findIdx? (·.isNamed name) = some j

theorem Store.readable (h : Store g w) (hi : w.mem.inodes a = some i) (hs : i.sector ≠ freeMapSector) : Readable w a i :=
  ⟨hi, (h.mem.cell a i hi).2.2, h.disk.file _ _ (h.mem.obj a i hi hs).1⟩

namespace Readable

variable {st : Bool}

section

variable (h : Readable w a i)
include h

theorem inodeReadAt {size offset : Int} (hsize : 0 ≤ size) (h0 : 0 ≤ offset) (hfit : offset + size < 2147483648) :
    Runs st (inodeReadAt a size offset) (fun r v =>
      r = (if offset + size ≤ i.data.length then (size, (w.blocksOf i.data).fileBytes offset.toNat size.toNat)
        else (-1, [])) ∧ v = w) w := by
  exact Runs.inodeReadAt h.cell h.settled.1 (Int.le_of_eq h.settled.2.symm)
    (Nat.le_refl _) h.file.length.2 h.file.map.inside hsize h0 hfit

theorem slots_bound : (w.slots i.data).length ≤ 9702 := by
  have hlen : i.data.length ≤ mapBytes := h.file.length.2
  have hmap : mapBytes = 194048 := rfl
  rw [slots_length, dirEntrySize]
  omega

/-- One entry is read, if there is one at the place. -/
theorem readEntry (hk : k ≤ (w.slots i.data).length) :
    Runs st (readEntry a (dirEntrySize * k)) (fun r v => r = (w.slots i.data)[k]? ∧ v = w) w := by
  have hbound := h.slots_bound
  have hfit : toInt32 ((dirEntrySize * k : Nat) : Int) = (dirEntrySize * k : Nat) :=
    toInt32_of_fits (by omega) (by unfold dirEntrySize; omega)
  unfold Pintos.readEntry
  rw [hfit]
  refine (h.inodeReadAt (Int.natCast_nonneg _) (Int.natCast_nonneg _) (by unfold dirEntrySize; omega)).bind ?_
  rintro r v ⟨hr, rfl⟩
  refine pure_iff.mpr ⟨?_, rfl⟩
  have hin : ((dirEntrySize * k : Nat) : Int) + (dirEntrySize : Nat) ≤ i.data.length ↔
      k < i.data.length.toNat / dirEntrySize := by
    unfold dirEntrySize
    omega
  by_cases hlt : k < i.data.length.toNat / dirEntrySize
  · rw [if_pos (hin.mpr hlt)] at hr
    rw [slots_getElem? hlt, hr, if_pos rfl]
    rfl
  · rw [if_neg (hin.not.mpr hlt)] at hr
    rw [getElem?_eq_none (by rw [slots_length]; omega), hr, if_neg (by decide)]

/-- The loop of `lookup`, with no entry of the name so far. -/
theorem lookupFrom (name : CString) (turns k : Nat)
    (hk : k ≤ (w.slots i.data).length) (hturns : (w.slots i.data).length < turns + k)
    (hbefore : ∀ j < k, ∀ e, (w.slots i.data)[j]? = some e → e.isNamed name = false) :
    Runs st (lookupFrom a name turns (dirEntrySize * k)) (fun r v => Looked (w.slots i.data) name r ∧ v = w) w := by
  induction turns generalizing k with
  | zero => omega
  | succ turns ih =>
    refine bind_eq (h.readEntry hk) ?_
    cases he : (w.slots i.data)[k]? with
    | none => exact pure_iff.mpr ⟨.inl ⟨rfl, any_eq_false_of_lt he hbefore⟩, rfl⟩
    | some e =>
      simp only
      by_cases hn : e.isNamed name = true
      · rw [if_pos hn]
        exact pure_iff.mpr ⟨.inr ⟨k, e, rfl, he, findIdx?_eq_some he hn hbefore⟩, rfl⟩
      rw [if_neg hn]
      have hlt := (List.getElem?_eq_some_iff.mp he).1
      refine ih (k + 1) (by omega) (by omega) (fun j hj e' he' => ?_)
      rcases Nat.lt_succ_iff_lt_or_eq.mp hj with hj | rfl
      · exact hbefore j hj e' he'
      · cases he.symm.trans he'
        exact Bool.eq_false_iff.mpr hn

theorem dirTurns : Runs st (dirTurns a) (fun r v => r = (w.slots i.data).length + 1 ∧ v = w) w := by
  unfold Pintos.dirTurns inodeLength
  rw [bind_assoc, inode_bind h.cell, pure_bind, slots_length]
  exact pure_iff.mpr ⟨rfl, rfl⟩

theorem lookup (name : CString) : Runs st (lookup a name) (fun r v => Looked (w.slots i.data) name r ∧ v = w) w := by
  refine bind_eq h.dirTurns ?_
  exact h.lookupFrom name _ 0 (Nat.zero_le _) (by omega) nofun

/-- The loop of `dir_add` for a free slot, with none so far. -/
theorem findSlot (old : DirEntry) (turns k : Nat)
    (hk : k ≤ (w.slots i.data).length) (hturns : (w.slots i.data).length < turns + k)
    (hbefore : ∀ j < k, ∀ e, (w.slots i.data)[j]? = some e → e.inUse = true) :
    Runs st (findSlot a turns (dirEntrySize * k) (((w.slots i.data).take k).getLast?.getD old)) (fun r v =>
      r = (dirEntrySize * (w.slots i.data).findIdx (fun e => !e.inUse),
        ((w.slots i.data).take ((w.slots i.data).findIdx (fun e => !e.inUse) + 1)).getLast?.getD old) ∧ v = w) w := by
  induction turns generalizing k with
  | zero => omega
  | succ turns ih =>
    refine bind_eq (h.readEntry hk) ?_
    cases he : (w.slots i.data)[k]? with
    | none =>
      have hlen : k = (w.slots i.data).length := Nat.le_antisymm hk (getElem?_eq_none_iff.mp he)
      have hidx : (w.slots i.data).findIdx (fun e => !e.inUse) = (w.slots i.data).length := by
        refine findIdx_eq_length.mpr (fun e hm => ?_)
        obtain ⟨j, hj, rfl⟩ := getElem_of_mem hm
        simp [hbefore j (hlen ▸ hj) _ (getElem?_eq_getElem hj)]
      rw [hidx, take_of_length_le (Nat.le_succ _), hlen, take_length]
      exact pure_iff.mpr ⟨rfl, rfl⟩
    | some e =>
      have hlt := (List.getElem?_eq_some_iff.mp he).1
      simp only
      by_cases hu : e.inUse = true
      · rw [if_pos hu]
        have hlast := getLast?_take_succ he
        have := ih (k + 1) (by omega) (by omega) (fun j hj e' he' => ?_)
        · rw [hlast] at this
          exact this
        · rcases Nat.lt_succ_iff_lt_or_eq.mp hj with hj | rfl
          · exact hbefore j hj e' he'
          · cases he.symm.trans he'
            exact hu
      · rw [if_neg hu]
        have hidx : (w.slots i.data).findIdx (fun e => !e.inUse) = k := by
          obtain ⟨hk', rfl⟩ := List.getElem?_eq_some_iff.mp he
          refine (findIdx_eq hk').mpr ⟨by simpa using hu, fun j hj => ?_⟩
          simp [hbefore j hj _ (getElem?_eq_getElem (by omega))]
        rw [hidx, getLast?_take_succ he]
        exact pure_iff.mpr ⟨rfl, rfl⟩

/-- `dir_add` up to its last line: with a name that is not in order or taken it returns false, and otherwise it goes on to
write an entry to the first slot that is free. -/
theorem dirAdd {X : Halt → Prop} (hX : ∀ e, st = true ∧ e = .exhausted → X e)
    {Q : Bool → World → Prop} (hinvalid : (DirCall.add name sector .unread).validName ≠ true → Q false w)
    (htaken : (w.slots i.data).any (·.isNamed name) = true → Q false w)
    (hwrite : (DirCall.add name sector .unread).validName = true → (w.slots i.data).any (·.isNamed name) = false →
      Prog.Ends (FsOp.exec st) X (writeEntry a (dirEntrySize * (w.slots i.data).findIdx (fun e => !e.inUse))
        ((((w.slots i.data).take ((w.slots i.data).findIdx (fun e => !e.inUse) + 1)).getLast?.getD .unread).fill name
    sector)) Q w) : Prog.Ends (FsOp.exec st) X (dirAdd a name sector) Q w := by
  unfold Pintos.dirAdd
  by_cases hv : (DirCall.add name sector .unread).validName = true
  · have hv' : ¬(name.strlen = 0 ∨ nameMax < name.strlen) := by
      have := of_decide_eq_true hv
      omega
    rw [if_neg hv']
    refine ((h.lookup name).ends hX).bind ?_
    rintro r v ⟨⟨rfl, hnone⟩ | ⟨j, e, rfl, hj, hfind⟩, hvw⟩
    · subst v
      refine ((h.dirTurns).ends hX).bind ?_
      rintro _ v ⟨rfl, hvw⟩
      subst v
      refine ((h.findSlot .unread _ 0 (Nat.zero_le _) (by omega) nofun).ends hX).bind ?_
      rintro _ v ⟨rfl, hvw⟩
      subst v
      exact hwrite hv hnone
    · subst v
      obtain ⟨hlt, hp, -⟩ := findIdx?_eq_some_iff_getElem.mp hfind
      exact Prog.ends_ret.mpr (htaken (any_eq_true.mpr ⟨_, getElem_mem hlt, hp⟩))
  · have hv' : name.strlen = 0 ∨ nameMax < name.strlen := by
      have := mt decide_eq_true hv
      omega
    rw [if_pos hv']
    exact Prog.ends_ret.mpr (hinvalid hv)

end

end Readable

/-! ## Writing an entry -/

/-- An entry that ends where a block map can still lead has an offset that is one. -/
theorem slot_end_fits (h : dirEntrySize * (k + 1) ≤ mapBytes) :
    toInt32 ((dirEntrySize * k : Nat) : Int) = (dirEntrySize * k : Nat) ∧
    ((dirEntrySize * k : Nat) : Int) + (dirEntrySize : Nat) ≤ mapBytes := by
  have hmap : mapBytes = 194048 := rfl
  unfold dirEntrySize at h ⊢
  exact ⟨toInt32_of_fits (by omega) (by omega), by omega⟩

/-- The write of an entry for which there is a sector. -/
theorem endWithWrite_true (slots : List DirEntry) (k : Nat) (e : DirEntry) :
    endWithWrite slots k e true = (true, if k < slots.length then slots.set k e else slots ++ [e]) := by
  unfold endWithWrite writeSlot
  by_cases hk : k < slots.length
  · simp only [if_pos hk]
  · simp only [if_neg hk, if_true]

/-- The directory at the address `a` has the data `d` now, and nothing else has changed but sectors of the free map. -/
structure DirWritten (g : Ghost) (w v : World) (a : Nat) (i : Inode) (d : InodeDisk) : Prop where
  store : Store (g.put i.sector { data := d, removed := i.removed }) v
  cell : v.mem.inodes a = some { i with data := d }
  cells : ∀ b, b ≠ a → v.mem.inodes b = w.mem.inodes b
  same : SameCells w v
  others : ∀ s o, s ≠ i.sector → g.objs s = some o → Untouched w v s o.data

theorem Ghost.put_eq {o : Obj} (h : g.objs s = some o) : g.put s o = g := by
  unfold Ghost.put
  congr 1
  funext t
  by_cases ht : t = s
  · rw [if_pos ht, ht, h]
  · rw [if_neg ht]

theorem DirWritten.refl (h : Store g w) (hi : w.mem.inodes a = some i)
    (hs : i.sector ≠ freeMapSector) : DirWritten g w w a i i.data where
  store := by
    rw [Ghost.put_eq (h.mem.obj a i hi hs).1]
    exact h
  cell := hi
  cells _ _ := rfl
  same := .of_eq (Nat.le_refl _) rfl
  others s o _ ho := .refl (h.disk.file s o ho)

/-- The entries after the write of one of them, or of one more. -/
theorem Written.slots {v : World} {E : Nat → Prop} {d d' : InodeDisk} (he : e.Fits)
    (hw : Written w v E d d' (dirEntrySize * k) e.encode) (hd : 0 ≤ d.length) (hwhole : d.length.toNat % dirEntrySize = 0)
    (hlen : d'.length = max d.length ((dirEntrySize * k : Nat) + (e.encode.length : Nat) : Int)) (hk : k ≤ (w.slots d).length) :
    d'.length.toNat % dirEntrySize = 0 ∧
      v.slots d' = if k < (w.slots d).length then (w.slots d).set k e else w.slots d ++ [e] := by
  have hsize := DirEntry.encode_length he
  rw [hsize] at hlen
  rw [slots_length] at hk ⊢
  have hself : v.slot d' k = e := by
    unfold slot
    have hbytes : (v.blocksOf d').fileBytes (dirEntrySize * k) dirEntrySize = e.encode := by
      refine ext_getElem (by simp [BlockWorld.fileBytes, hsize]) (fun j h1 h2 => ?_)
      have := hw.bytes (dirEntrySize * k + j) (Nat.le_add_right _ _) (by omega)
      simp only [BlockWorld.fileBytes, getElem_map, getElem_range]
      rw [this, Nat.add_sub_cancel_left, getD_eq_getElem _ _ h2]
    rw [hbytes, DirEntry.decode_encode he]
  have hother : ∀ j, j ≠ k → j < d.length.toNat / dirEntrySize → v.slot d' j = w.slot d j := by
    intro j hj hlt
    refine slot_congr (fun b h1 h2 => hw.kept b ?_ ?_)
    · exact slot_byte_lt hlt h2
    · rw [hsize]
      unfold dirEntrySize at h1 h2 ⊢
      omega
  have hcount : d'.length.toNat % dirEntrySize = 0 ∧
      d'.length.toNat / dirEntrySize = if k < d.length.toNat / dirEntrySize then d.length.toNat / dirEntrySize
      else d.length.toNat / dirEntrySize + 1 := by
    unfold dirEntrySize at hlen hwhole hk ⊢
    split <;> omega
  refine ⟨hcount.1, ext_getElem? (fun j => ?_)⟩
  by_cases hlt : k < d.length.toNat / dirEntrySize
  · rw [if_pos hlt] at hcount ⊢
    rw [getElem?_set]
    by_cases hj : j < d.length.toNat / dirEntrySize
    · rw [slots_getElem? (by omega)]
      by_cases hjk : k = j
      · rw [if_pos hjk, if_pos (by simpa using hlt), ← hjk, hself]
      · rw [if_neg hjk, slots_getElem? hj, hother j (Ne.symm hjk) hj]
    · rw [getElem?_eq_none (by rw [slots_length]; omega), if_neg (by omega), getElem?_eq_none (by rw [slots_length]; omega)]
  · rw [if_neg hlt] at hcount ⊢
    have hkn : k = d.length.toNat / dirEntrySize := by omega
    rcases Nat.lt_trichotomy j (d.length.toNat / dirEntrySize) with hj | hj | hj
    · rw [slots_getElem? (by omega), getElem?_append_left (by simpa using hj), slots_getElem? hj, hother j (by omega) hj]
    · rw [slots_getElem? (by omega), getElem?_append_right (by simp [hj]), slots_length, hj, Nat.sub_self, ← hkn, hself]
      rfl
    · rw [getElem?_eq_none (by rw [slots_length]; omega), getElem?_eq_none (by simp; omega)]

namespace Store

/-- `inode_write_at` of an entry, at a place of the directory or right after its end. -/
theorem writeEntry (h : Store g w) (hi : w.mem.inodes a = some i) (hs : i.sector ≠ freeMapSector)
    (hwhole : i.data.length.toNat % dirEntrySize = 0) (he : e.Fits) (hk : k ≤ (w.slots i.data).length)
    (hle : dirEntrySize * (k + 1) ≤ mapBytes) :
    Runs true (writeEntry a (dirEntrySize * k) e) (fun r v => r = true ∧ ∃ d, DirWritten g w v a i d ∧
      d.length.toNat % dirEntrySize = 0 ∧ (true, v.slots d) = endWithWrite (w.slots i.data) k e true) w := by
  obtain ⟨hobj, -, -⟩ := h.mem.obj a i hi hs
  have hlen : 0 ≤ i.data.length := (h.disk.file _ _ hobj).length.1
  have hsize := DirEntry.encode_length he
  obtain ⟨hfit, hend⟩ := slot_end_fits hle
  have hpos : (0 : Int) < (dirEntrySize : Nat) := Int.natCast_pos.mpr (Nat.succ_pos 19)
  have hbuf : ((dirEntrySize : Nat) : Int).toNat ≤ e.encode.length := by rw [hsize, Int.toNat_natCast]
  unfold Pintos.writeEntry
  rw [hfit]
  refine (h.inodeWriteAt hi hs hpos (Int.natCast_nonneg _) hend hbuf).bind ?_
  rintro r v ⟨rfl, d, hd, hst⟩
  rw [Int.toNat_natCast, Int.toNat_natCast, take_of_length_le (Nat.le_of_eq hsize)] at hd
  obtain ⟨hmod, hslots⟩ := hd.written.slots he hlen hwhole hd.length hk
  have hinodes := congrArg Fs.inodes hd.mem
  have hnext := congrArg Fs.nextAddr hd.mem
  refine pure_iff.mpr ⟨beq_self_eq_true _, d, ⟨hst, ?_, fun b hb => ?_, .setInode hnext.ge hinodes hi rfl,
    fun s o hne ho => h.written_others hd.written hi hs hne ho⟩, hmod, ?_⟩
  · rw [hd.mem]
    exact Fs.setInode_self _ _ _
  · rw [hd.mem]
    exact Fs.setInode_ne _ _ hb
  · rw [hslots, endWithWrite_true]

end Store

theorem World.last_fits (w : World) (d : InodeDisk) (k : Nat) : (((w.slots d).take k).getLast?.getD DirEntry.unread).Fits := by
  cases hl : ((w.slots d).take k).getLast? with
  | none => exact DirEntry.unread_fits
  | some e => exact slots_fits (mem_of_mem_take (mem_of_getLast? hl))

namespace Store

theorem dirAdd (h : Store g w) (hi : w.mem.inodes a = some i) (hs : i.sector ≠ freeMapSector)
    (hwhole : i.data.length.toNat % dirEntrySize = 0) (hsector : sector < 2 ^ 32)
    (hle : (DirCall.add name sector .unread).validName = true → (w.slots i.data).any (·.isNamed name) = false →
      dirEntrySize * ((w.slots i.data).findIdx (fun e => !e.inUse) + 1) ≤ mapBytes) :
    Runs true (dirAdd a name sector) (fun r v => ∃ d, DirWritten g w v a i d ∧ d.length.toNat % dirEntrySize = 0 ∧
      (r, v.slots d) = (DirCall.add name sector .unread).exec (w.slots i.data) true) w := by
  unfold Runs
  refine (h.readable hi hs).dirAdd (fun _ he => he) (fun hv => ⟨i.data, .refl h hi hs, hwhole, ?_⟩)
    (fun hany => ⟨i.data, .refl h hi hs, hwhole, ?_⟩) (fun hv hnone => ?_)
  · rw [DirCall.exec_add_invalid true hv]
  · rw [DirCall.exec_add_named true hany]
  have hfits := (w.last_fits i.data ((w.slots i.data).findIdx (fun e => !e.inUse) + 1)).fill name hsector
  refine ((h.writeEntry hi hs hwhole hfits findIdx_le_length (hle hv hnone)).ends (fun _ he => he)).mono ?_
  rintro r v ⟨rfl, d, hd, hmod, hslots⟩
  refine ⟨d, hd, hmod, ?_⟩
  rw [hslots, DirCall.exec_add true hv hnone]

end Store

end Pintos
