import Mathlib.Algebra.Group.Action.Defs
import Mathlib.Algebra.Order.BigOperators.Group.List
import Pintos.Filesys.Fsutil
import Pintos.Lemmas.Strtok
import Pintos.Utils.Scratch

/-!
# One header, two encoders, two decoders

The host and the kernel each have a function that composes the header of a file and one that reads it. For a name that needs
no stripping both composers give the same 512 bytes, and both readers find the name and the size in them.
-/

namespace Pintos

open Octal UstarField
open List hiding all

variable {field s : List UInt8} {name : CString} {size : Nat}

/-! ## Fields -/

/-- The members in front of one member, and those behind it. -/
theorem UstarField.all_split (f : UstarField) : ∃ post, all = all.takeWhile (fun g => decide (g ≠ f)) ++ f :: post := by
  cases f <;> exact ⟨_, rfl⟩

/-- A member of a structure whose members have their widths reads as it was set. -/
theorem UstarField.read_bytes {h : UstarHeader} (hw : ∀ f, (h f).length = f.width) (f : UstarField) : f.read h.bytes = h f := by
  obtain ⟨post, hall⟩ := f.all_split
  have hofs : f.ofs = ((all.takeWhile (fun g => decide (g ≠ f))).flatMap h).length := by
    rw [length_flatMap, ofs]
    exact congrArg sum (map_congr_left (fun g _ => (hw g).symm))
  have hbytes : h.bytes = (all.takeWhile (fun g => decide (g ≠ f))).flatMap h ++ (h f ++ post.flatMap h) := by
    rw [UstarHeader.bytes]
    nth_rewrite 1 [hall]
    rw [flatMap_append, flatMap_cons]
  rw [read, substr, hbytes, hofs, drop_left, ← hw f, take_left]

theorem snprintf_length (size : Nat) (text : List UInt8) : (snprintf size text).length = size :=
  strlcpy_length _ _ _ length_replicate

theorem headerWithoutChksum_length (name : CString) (type : UstarType) (size : Nat) (f : UstarField) :
    (headerWithoutChksum name type size f).length = f.width := by
  cases f with
  | name => exact strlcpy_length _ _ _ length_replicate
  | mode | size | mtime => exact snprintf_length _ _
  | uid | gid | typeflag | magic | version | uname | gname => rfl
  | _ => exact length_replicate

/-! ## Strings in fields -/

theorem cstr_of_noNul (h : ∀ b ∈ s, b ≠ 0) : (cstr s).bytes = s := by
  refine takeWhile_eq_self_iff.mpr (fun b hb => ?_)
  rw [bne_iff_ne]
  exact h b hb

theorem cstr_bytes (s : CString) : cstr s.bytes = s := CString.ext (cstr_of_noNul s.noNul)

variable {width n : Nat} {front back : List UInt8}

/-- A string that fits into zeros leaves zeros behind it. -/
theorem strlcpy_zeros {s : CString} (h : s.strlen < n) :
    strlcpy (replicate n 0) s n = s.bytes ++ replicate (n - s.strlen) 0 := by
  unfold CString.strlen at *
  obtain ⟨m, hm⟩ : ∃ m, n = s.bytes.length + (m + 1) := ⟨n - s.bytes.length - 1, by omega⟩
  have hmin : min s.strlen (n - 1) + 1 = s.bytes.length + 1 := by
    unfold CString.strlen
    omega
  rw [strlcpy, if_neg (by omega), take_of_length_le (by omega), hmin, drop_replicate, hm, Nat.add_sub_cancel_left,
    replicate_succ]
  congr 3
  omega

theorem numeral_noNul : ∀ b ∈ numeral width n, b ≠ 0 := by
  intro b hb he
  have := isDigit_of_mem_numeral hb
  rw [he] at this
  cases this

/-- A numeral and the null byte behind it fill their field. -/
theorem snprintf_numeral (h : n < 8 ^ width) : snprintf (width + 1) (numeral width n) = numeral width n ++ [0] := by
  have hbytes := cstr_of_noNul (@numeral_noNul width n)
  have hlen : (cstr (numeral width n)).strlen = width := by
    rw [CString.strlen, hbytes, numeral_length h]
  rw [snprintf, strlcpy_zeros (by omega), hlen, hbytes, Nat.add_sub_cancel_left]
  rfl

theorem mkUstarField_eq (h : n < 8 ^ width) : mkUstarField n (width + 1) = some (snprintf (width + 1) (numeral width n)) := by
  rw [mkUstarField, snprintf_numeral h]
  simp only [Nat.add_sub_cancel]
  rw [length_append, numeral_length h]
  simp

/-- `pack ("a100", ...)` of a name gives the same bytes as `strlcpy`. -/
theorem packA_eq_strlcpy {s : CString} (h : s.strlen < n) : packA n s.bytes = strlcpy (replicate n 0) s n := by
  rw [strlcpy_zeros h, packA, take_append, take_of_length_le (Nat.le_of_lt h), take_replicate]
  congr 2
  unfold CString.strlen
  omega

/-! ## The checksum -/

/-- The sum of the bytes of a header, with spaces in the place of the checksum. -/
def spacedSum (front back : List UInt8) : Nat := ((front ++ replicate 8 32 ++ back).map UInt8.toNat).sum

theorem spacedSum_lt (hf : front.length = 148) (hb : back.length = 356) : spacedSum front back < 8 ^ 7 := by
  have hle : spacedSum front back ≤ ((front ++ replicate 8 32 ++ back).map UInt8.toNat).length • 255 := by
    refine sum_le_card_nsmul _ _ (fun x hx => ?_)
    obtain ⟨b, -, rfl⟩ := mem_map.mp hx
    exact Nat.le_of_lt_succ b.toNat_lt
  simp only [length_map, length_append, length_replicate, hf, hb, smul_eq_mul] at hle
  omega

section

variable (hf : front.length = 148) (hc : field.length = 8) (hb : back.length = 356)
include hf hc hb

/-- `calculate_chksum` of a header in three parts. -/
theorem calculateChksum_append : calculateChksum (front ++ field ++ back) = spacedSum front back := by
  have hmap : (range ustarHeaderSize).map (fun i =>
      if chksum.ofs ≤ i ∧ i < chksum.ofs + chksum.width then 32
      else ((front ++ field ++ back).getD i 0).toNat) = (front ++ replicate 8 32 ++ back).map UInt8.toNat := by
    refine ext_getElem ?_ (fun i h1 h2 => ?_)
    · simp [ustarHeaderSize, hf, hb]
    have hi : i < 512 := by simpa [ustarHeaderSize] using h1
    have hofs : chksum.ofs = 148 := rfl
    have hwidth : chksum.width = 8 := rfl
    rw [getElem_map, getElem_range, getElem_map, hofs, hwidth]
    by_cases hlow : i < 148
    · rw [if_neg (by omega), append_assoc, getD_append _ _ _ _ (by omega), getD_eq_getElem _ _ (by omega)]
      simp only [append_assoc]
      rw [getElem_append_left (by omega)]
    by_cases hmid : i < 156
    · rw [if_pos (by omega)]
      rw [getElem_append_left (by simp [hf]; omega), getElem_append_right (by omega), getElem_replicate]
      rfl
    · rw [if_neg (by omega), getD_append_right _ _ _ _ (by simp [hf, hc]; omega),
        getD_eq_getElem _ _ (by simp [hf, hc, hb]; omega)]
      rw [getElem_append_right (by simp [hf]; omega)]
      simp [hf, hc]
  rw [calculateChksum, hmap, ← spacedSum, Nat.mod_eq_of_lt]
  have := spacedSum_lt hf hb
  omega

/-- `calc_ustar_chksum` of a header in three parts is the same. -/
theorem calcUstarChksum_append : calcUstarChksum (front ++ field ++ back) = some (spacedSum front back) := by
  have htake : (front ++ field ++ back).take 148 = front := by
    rw [append_assoc, take_left' hf]
  have hdrop : (front ++ field ++ back).drop 156 = back := drop_left' (by simp [hf, hc])
  have hlen : (front ++ field ++ back).length = 512 := by simp [hf, hc, hb]
  rw [calcUstarChksum, if_neg (by omega), htake, hdrop, ← spacedSum, Nat.mod_eq_of_lt]
  have := spacedSum_lt hf hb
  omega

end

/-! ## Names -/

/-- A name that is safe to extract: it is not empty, does not start with `/`, `./` or `../` and is not `..`. -/
def SocialName (name : CString) : Prop :=
  1 ≤ name.strlen ∧ name.bytes.take 1 ≠ [47] ∧ name.bytes.take 2 ≠ [46, 47] ∧ name.bytes.take 3 ≠ [46, 46, 47] ∧
    name.bytes ≠ [46, 46]

/-- A name of 1 to 14 characters that `strip_antisocial_prefixes` leaves as it is: it does not start with `/`, `./` or `../`
and is not `..`. -/
def ArchiveName (name : CString) : Prop :=
  1 ≤ name.strlen ∧ name.strlen ≤ 14 ∧ name.bytes.take 1 ≠ [47] ∧ name.bytes.take 2 ≠ [46, 47] ∧
    name.bytes.take 3 ≠ [46, 46, 47] ∧ name.bytes ≠ [46, 46]

instance (name : CString) : Decidable (ArchiveName name) := by
  unfold ArchiveName
  infer_instance

theorem stripAntisocialPrefixes_eq (h : SocialName name) : stripAntisocialPrefixes name = name := by
  obtain ⟨hpos, h1, h2, h3, hdots⟩ := h
  obtain ⟨turns, hturns⟩ : ∃ turns, name.strlen = turns + 1 := ⟨name.strlen - 1, by omega⟩
  have hloop : stripLoop name.strlen name.bytes = name.bytes := by
    rw [hturns, stripLoop, if_neg]
    rintro (h | h | h)
    · exact h1 h
    · exact h2 h
    · exact h3 h
  have hne : name.bytes ≠ [] := by
    intro he
    rw [CString.strlen, he] at hpos
    exact absurd hpos (by decide)
  simp only [stripAntisocialPrefixes, hloop]
  rw [if_neg (by rintro (h | h); exacts [hne h, hdots h]), cstr_bytes]

/-- An archive's name is stripped of nothing. -/
theorem ArchiveName.strip (h : ArchiveName name) : stripAntisocialPrefixes name = name := stripAntisocialPrefixes_eq ⟨h.1, h.2.2⟩

/-- It leaves room in the header. -/
theorem ArchiveName.strlen_le (h : ArchiveName name) : name.strlen ≤ 99 := Nat.le_trans h.2.1 (by decide)

/-! ## The header -/

section

variable (name : CString) (type : UstarType) (size : Nat)

/-- The header in front of the checksum. -/
def headerFront : List UInt8 := (all.take 6).flatMap (headerWithoutChksum name type size)

/-- The header behind the checksum. -/
def headerBack : List UInt8 := (all.drop 7).flatMap (headerWithoutChksum name type size)

/-- The checksum of the header. -/
def headerSum : Nat := spacedSum (headerFront name type size) (headerBack name type size)

/-- The members of the header of a file. -/
def fileHeader : UstarHeader := fun f =>
  if f = .chksum then snprintf 8 (numeral 7 (headerSum name type size)) else headerWithoutChksum name type size f

theorem headerFront_length : (headerFront name type size).length = 148 := by
  rw [headerFront, length_flatMap]
  exact congrArg sum (map_congr_left (fun f _ => headerWithoutChksum_length name type size f))

theorem headerBack_length : (headerBack name type size).length = 356 := by
  rw [headerBack, length_flatMap]
  exact congrArg sum (map_congr_left (fun f _ => headerWithoutChksum_length name type size f))

theorem headerSum_lt : headerSum name type size < 8 ^ 7 :=
  spacedSum_lt (headerFront_length name type size) (headerBack_length name type size)

theorem fileHeader_length (f : UstarField) : (fileHeader name type size f).length = f.width := by
  unfold fileHeader
  split
  · rename_i h
    rw [h, snprintf_length]
    rfl
  · exact headerWithoutChksum_length name type size f

theorem fileHeader_bytes : (fileHeader name type size).bytes =
    headerFront name type size ++ snprintf 8 (numeral 7 (headerSum name type size)) ++ headerBack name type size := by
  simp only [UstarHeader.bytes, all, headerFront, headerBack, take_succ_cons, take_zero, drop_succ_cons, drop_zero,
    flatMap_cons, flatMap_nil, append_nil, append_assoc, fileHeader]
  rfl

theorem fileHeader_bytes_length : (fileHeader name type size).bytes.length = 512 := by
  rw [fileHeader_bytes, length_append, length_append, headerFront_length, headerBack_length, snprintf_length]

end

theorem ustarMakeHeader_eq (hs : stripAntisocialPrefixes name = name) (hlen : name.strlen ≤ 99) (type : UstarType)
    (size : Nat) : ustarMakeHeader name type size = some (fileHeader name type size).bytes := by
  have hsum : calculateChksum (UstarHeader.bytes (headerWithoutChksum name type size)) = headerSum name type size := by
    have hbytes : UstarHeader.bytes (headerWithoutChksum name type size) =
        headerFront name type size ++ headerWithoutChksum name type size .chksum ++ headerBack name type size := by
      simp [UstarHeader.bytes, all, headerFront, headerBack]
    rw [hbytes]
    exact calculateChksum_append (headerFront_length ..) (headerWithoutChksum_length _ _ _ .chksum) (headerBack_length ..)
  simp only [ustarMakeHeader, hs, if_neg (Nat.not_lt.mpr hlen), hsum]
  rfl

theorem hostHeader_eq (h : ArchiveName name) (hsize : size < 8 ^ 11) :
    hostHeader name size = some (fileHeader name .regular size).bytes := by
  have hname : packA 100 name.bytes = headerWithoutChksum name .regular size .name := packA_eq_strlcpy (by have := h.2.1; omega)
  have hzero : snprintf 8 (numeral 7 0) = headerWithoutChksum name .regular size .uid := by
    rw [snprintf_numeral (by decide)]
    simp [numeral]
    rfl
  have hwithout : hostHeaderWithoutChksum name (snprintf 8 (numeral 7 0o644)) (snprintf 8 (numeral 7 0))
      (snprintf 8 (numeral 7 0)) (snprintf 12 (numeral 11 size)) (snprintf 12 (numeral 11 1136102400)) =
      headerFront name .regular size ++ replicate 8 32 ++ headerBack name .regular size := by
    simp only [hostHeaderWithoutChksum, hname, hzero, all, headerFront, headerBack, take_succ_cons, take_zero,
      drop_succ_cons, drop_zero, flatMap_cons, flatMap_nil, append_nil, append_assoc]
    rfl
  have hf := headerFront_length name .regular size
  have htake : (headerFront name .regular size ++ replicate 8 32 ++ headerBack name .regular size).take 148 =
      headerFront name .regular size := by
    rw [append_assoc, take_left' hf]
  have hdrop : (headerFront name .regular size ++ replicate 8 32 ++ headerBack name .regular size).drop 156 =
    headerBack name .regular size :=
    drop_left' (by rw [length_append, hf, length_replicate])
  have hsum : calcUstarChksum (headerFront name .regular size ++ replicate 8 32 ++ headerBack name .regular size) =
    some (headerSum name .regular size) :=
    calcUstarChksum_append hf length_replicate (headerBack_length ..)
  have hmode : mkUstarField 0o644 8 = some (snprintf 8 (numeral 7 0o644)) := mkUstarField_eq (by decide)
  have hid : mkUstarField 0 8 = some (snprintf 8 (numeral 7 0)) := mkUstarField_eq (by decide)
  have hsizes : mkUstarField size 12 = some (snprintf 12 (numeral 11 size)) := mkUstarField_eq hsize
  have hmtime : mkUstarField 1136102400 12 = some (snprintf 12 (numeral 11 1136102400)) := mkUstarField_eq (by decide)
  have hfield : mkUstarField (headerSum name .regular size) 8 = some (snprintf 8 (numeral 7 (headerSum name .regular size))) :=
    mkUstarField_eq (headerSum_lt ..)
  simp only [hostHeader, hmode, hid, hsizes, hmtime, bind, Option.bind, pure, hwithout, hsum, hfield, htake, hdrop]
  rw [fileHeader_bytes]

/-! ## Reading the header -/

/-- `parse_octal_field` reads the digits up to a space or a null byte, if there are any and they make a number of 32 bits. -/
theorem parseOctalFrom_iff {v : Nat} (hv : v < 2 ^ 32) (ofs x : Nat) : parseOctalFrom ofs v s = some x ↔
    ((s.dropWhile isDigit).head? = some 32 ∨ (s.dropWhile isDigit).head? = some 0) ∧ 0 < ofs + (s.takeWhile isDigit).length ∧
      valueFrom v (s.takeWhile isDigit) = x ∧ x < 2 ^ 32 := by
  induction s generalizing ofs v with
  | nil => simp [parseOctalFrom]
  | cons c s ih =>
    rw [parseOctalFrom]
    by_cases hc : isDigit c = true
    · have hlt := digit_lt hc
      rw [if_pos hc, takeWhile_cons_of_pos hc, dropWhile_cons_of_pos hc, length_cons, valueFrom_cons]
      by_cases hbig : (2 ^ 32 - 1) / 8 < v
      · rw [if_pos hbig]
        refine iff_of_false nofun (fun ⟨_, _, hx, hx'⟩ => ?_)
        have hge := valueFrom_ge (v * 8 + (c.toNat - 48)) (s.takeWhile isDigit)
        have hmul := Nat.le_mul_of_pos_right (v * 8 + (c.toNat - 48))
          (Nat.pow_pos (n := (s.takeWhile isDigit).length) (by decide : 0 < 8))
        omega
      · rw [if_neg hbig, Nat.add_comm (c.toNat - 48), ih (by omega), Nat.add_right_comm, Nat.add_assoc]
    · rw [if_neg hc, takeWhile_cons_of_neg hc, dropWhile_cons_of_neg hc]
      by_cases hend : c = 32 ∨ c = 0
      · by_cases hofs : 0 < ofs <;> simp [hend, hofs]
        rintro rfl
        exact hv
      · simp [hend]

/-- `parse_octal_field` reads a numeral back. -/
theorem parseOctalField_numeral (hw : 0 < width) (hn : n < 8 ^ width) (hlt : n < 2 ^ 32) :
    parseOctalField (snprintf (width + 1) (numeral width n)) = some n := by
  have hdigits : ∀ c ∈ numeral width n, isDigit c = true := fun c hc => isDigit_of_mem_numeral hc
  have htake : (numeral width n ++ [0]).takeWhile isDigit = numeral width n := by
    rw [takeWhile_append_of_pos hdigits]
    exact append_nil _
  have hdrop : (numeral width n ++ [0]).dropWhile isDigit = [0] := dropWhile_append_of_pos hdigits
  rw [snprintf_numeral hn, parseOctalField, parseOctalFrom_iff (by decide), htake, hdrop, numeral_length hn]
  exact ⟨.inr rfl, by omega, valueFrom_numeral width n, hlt⟩

/-- So does `oct (unpack ("Z*", ...))`. -/
theorem oct_numeral (hn : n < 8 ^ width) : oct (unpackZ (snprintf (width + 1) (numeral width n))) = n := by
  have hdigits : ∀ c ∈ numeral width n, isDigit c = true := fun c hc => isDigit_of_mem_numeral hc
  have hz : unpackZ (numeral width n ++ [0]) = numeral width n := cstr_word numeral_noNul []
  rw [snprintf_numeral hn, hz, oct, takeWhile_eq_self_iff.mpr hdigits, valueFrom_numeral]

section

variable (name : CString) (type : UstarType) (size : Nat)

/-- The sum that the header holds is the one that `calculate_chksum` finds. -/
theorem calculateChksum_fileHeader : calculateChksum (fileHeader name type size).bytes = headerSum name type size := by
  rw [fileHeader_bytes]
  exact calculateChksum_append (headerFront_length ..) (snprintf_length _ _) (headerBack_length ..)

theorem calcUstarChksum_fileHeader : calcUstarChksum (fileHeader name type size).bytes = some (headerSum name type size) := by
  rw [fileHeader_bytes]
  exact calcUstarChksum_append (headerFront_length ..) (snprintf_length _ _) (headerBack_length ..)

/-- A header is not the end of an archive: its type is a byte that is not zero. -/
theorem fileHeader_not_zeros : ∃ b ∈ (fileHeader name type size).bytes, b ≠ 0 :=
  ⟨type.flag, mem_flatMap.mpr ⟨.typeflag, by decide, mem_cons_self⟩, by cases type <;> decide⟩

end

/-- `ustar_parse_header` reads the header back. -/
theorem ustarParseHeader_eq (hs : stripAntisocialPrefixes name = name) (hlen : name.strlen ≤ 99) (type : UstarType)
    (hsize : size ≤ 2 ^ 31 - 1) :
    ustarParseHeader (fileHeader name type size).bytes =
      .ok (some { fileName := name, type := type, size := if type = .regular then size else 0 }) := by
  have hread := read_bytes (fileHeader_length name type size)
  have hzeros : isAllZeros (fileHeader name type size).bytes = false := by
    obtain ⟨b, hb, hne⟩ := fileHeader_not_zeros name type size
    exact Bool.eq_false_iff.mpr (fun hall => hne (eq_of_beq (all_eq_true.mp hall b hb)))
  have hlen' : name.strlen < 100 := by omega
  have hname : fileHeader name type size .name = name.bytes ++ replicate (100 - name.strlen) 0 := strlcpy_zeros hlen'
  have hlast : (fileHeader name type size .name).getD 99 0 = 0 := by
    rw [hname, getD_append_right _ _ _ _ hlen, getD_eq_getElem?_getD, getElem?_replicate]
    split <;> rfl
  have hcstr : cstr (fileHeader name type size .name) = name := cstr_strlcpy _ _ _ hlen'
  have hsum := headerSum_lt name type size
  have hchksum : parseOctalField (fileHeader name type size .chksum) = some (headerSum name type size) :=
    parseOctalField_numeral (by decide) hsum (Nat.lt_trans hsum (by decide))
  have hsizeField : parseOctalField (fileHeader name type size .size) = some size :=
    parseOctalField_numeral (by decide) (by omega) (by omega)
  have hmagic : fileHeader name type size .magic = ascii "ustar" ++ [0] := rfl
  have hversion : fileHeader name type size .version = ascii "00" := rfl
  have hpath : (fileHeader name type size .namePrefix).getD 0 0 = 0 := rfl
  have htype : typeOfFlag (fileHeader name type size .typeflag) = some type := by cases type <;> rfl
  unfold ustarParseHeader
  simp only [hzeros, hread, hchksum, calculateChksum_fileHeader, hlast, hsizeField, hcstr, hs,
    if_neg (Nat.not_lt.mpr hsize), hmagic, hversion, hpath, htype, ne_eq, not_true, or_self, if_false, Bool.false_eq_true]
  cases type <;> rfl

/-- The checks of `get_scratch_file` pass for the header, and it finds the size. -/
theorem hostChecks_eq (name : CString) (hsize : size < 8 ^ 11) :
    (fileHeader name .regular size).bytes ≠ replicate 512 0 ∧
      substr (fileHeader name .regular size).bytes 257 6 = ascii "ustar" ++ [0] ∧
      substr (fileHeader name .regular size).bytes 263 2 = ascii "00" ∧
      some (oct (unpackZ (substr (fileHeader name .regular size).bytes 148 8))) =
      calcUstarChksum (fileHeader name .regular size).bytes ∧
      substr (fileHeader name .regular size).bytes 156 1 = ascii "0" ∧
      oct (unpackZ (substr (fileHeader name .regular size).bytes 124 12)) = size := by
  have hread := read_bytes (fileHeader_length name .regular size)
  have hchksum : substr (fileHeader name .regular size).bytes 148 8 =
    snprintf 8 (numeral 7 (headerSum name .regular size)) := hread .chksum
  have hsizeField : substr (fileHeader name .regular size).bytes 124 12 = snprintf 12 (numeral 11 size) := hread .size
  refine ⟨fun hzeros => ?_, hread .magic, hread .version, ?_, hread .typeflag, ?_⟩
  · obtain ⟨b, hb, hne⟩ := fileHeader_not_zeros name .regular size
    rw [hzeros] at hb
    exact hne (eq_of_mem_replicate hb)
  · rw [hchksum, oct_numeral (headerSum_lt ..), calcUstarChksum_fileHeader]
  · rw [hsizeField, oct_numeral hsize]

end Pintos
