import Pintos.Lib.String
import Pintos.Library.Octal

/-!
# Archive headers (`lib/ustar.c`)

The header of a file in a ustar archive is 512 bytes in fields of fixed widths. Numbers are octal numerals with a null byte
behind them, and one of them is the sum of all bytes of the header, taken with spaces in its own place.
-/

namespace Pintos

/-- `USTAR_HEADER_SIZE`. -/
def ustarHeaderSize : Nat := 512

/-- The members of `struct ustar_header`. -/
inductive UstarField where
  | name
  | mode
  | uid
  | gid
  | size
  | mtime
  | chksum
  | typeflag
  | linkname
  | magic
  | version
  | uname
  | gname
  | devmajor
  | devminor
  | namePrefix
  | padding
  deriving DecidableEq, Repr

namespace UstarField

/-- The members in the order of the declaration. -/
def all : List UstarField :=
  [.name, .mode, .uid, .gid, .size, .mtime, .chksum, .typeflag, .linkname, .magic, .version, .uname, .gname, .devmajor, .devminor,
    .namePrefix, .padding]

/-- `sizeof` a member. -/
def width : UstarField → Nat
  | .name => 100
  | .mode => 8
  | .uid => 8
  | .gid => 8
  | .size => 12
  | .mtime => 12
  | .chksum => 8
  | .typeflag => 1
  | .linkname => 100
  | .magic => 6
  | .version => 2
  | .uname => 32
  | .gname => 32
  | .devmajor => 8
  | .devminor => 8
  | .namePrefix => 155
  | .padding => 12

/-- `offsetof` a member: the structure is packed. -/
def ofs (f : UstarField) : Nat := ((all.takeWhile (fun g => decide (g ≠ f))).map width).sum

end UstarField

/-- The `len` bytes at offset `ofs` of a string. -/
def substr (s : List UInt8) (ofs len : Nat) : List UInt8 := (s.drop ofs).take len

/-- A member of a header in memory. -/
def UstarField.read (f : UstarField) (header : List UInt8) : List UInt8 := substr header f.ofs f.width

/-- A `struct ustar_header`, as what its members hold. -/
abbrev UstarHeader := UstarField → List UInt8

/-- The bytes of the structure. -/
def UstarHeader.bytes (h : UstarHeader) : List UInt8 := UstarField.all.flatMap h

/-- `USTAR_REGULAR` and `USTAR_DIRECTORY`; the end of the archive is no type here. -/
inductive UstarType where
  | regular
  | directory
  deriving DecidableEq, Repr

/-- The byte of a type. -/
def UstarType.flag : UstarType → UInt8
  | .regular => 48
  | .directory => 53

/-- `calculate_chksum`. -/
def calculateChksum (header : List UInt8) : Nat :=
  ((List.range ustarHeaderSize).map (fun i =>
    if UstarField.chksum.ofs ≤ i ∧ i < UstarField.chksum.ofs + UstarField.chksum.width then 32
    else (header.getD i 0).toNat)).sum % 2 ^ 32

/-- The bytes behind the first slash: `strchr (file_name, '/') + 1`. -/
def afterSlash (s : List UInt8) : List UInt8 := (s.dropWhile (fun c => c != 47)).drop 1

/-- The loop of `strip_antisocial_prefixes`. Every turn drops a byte at least, so that as many turns as there are bytes are
enough. -/
def stripLoop : Nat → List UInt8 → List UInt8
  | 0, s => s
  | turns + 1, s =>
    if s.take 1 = [47] ∨ s.take 2 = [46, 47] ∨ s.take 3 = [46, 46, 47] then stripLoop turns (afterSlash s) else s

/-- `strip_antisocial_prefixes`. -/
def stripAntisocialPrefixes (fileName : CString) : CString :=
  let s := stripLoop fileName.strlen fileName.bytes
  if s = [] ∨ s = [46, 46] then cstr [46] else cstr s

/-- `snprintf (dst, sizeof dst, ...)` of a text into a member that holds zeros. -/
def snprintf (size : Nat) (text : List UInt8) : List UInt8 := strlcpy (List.replicate size 0) (cstr text) size

/-- The header that `ustar_make_header` fills in before it computes the checksum. -/
def headerWithoutChksum (fileName : CString) (type : UstarType) (size : Nat) : UstarHeader
  | .name => strlcpy (List.replicate 100 0) fileName 100
  | .mode => snprintf 8 (Octal.numeral 7 (if type = .regular then 0o644 else 0o755))
  | .uid => strlcpy (List.replicate 8 0) (cstr (ascii "0000000")) 8
  | .gid => strlcpy (List.replicate 8 0) (cstr (ascii "0000000")) 8
  | .size => snprintf 12 (Octal.numeral 11 size)
  | .mtime => snprintf 12 (Octal.numeral 11 1136102400)
  | .typeflag => [type.flag]
  | .magic => strlcpy (List.replicate 6 0) (cstr (ascii "ustar")) 6
  | .version => ascii "00"
  | .uname => strlcpy (List.replicate 32 0) (cstr (ascii "root")) 32
  | .gname => strlcpy (List.replicate 32 0) (cstr (ascii "root")) 32
  | f => List.replicate f.width 0

/-- `ustar_make_header`, for a size that is an `int` and not negative; `none` where the name is too long. -/
def ustarMakeHeader (fileName : CString) (type : UstarType) (size : Nat) : Option (List UInt8) :=
  let fileName := stripAntisocialPrefixes fileName
  if 99 < fileName.strlen then none
  else
    let h := headerWithoutChksum fileName type size
    some (UstarHeader.bytes (fun f => if f = .chksum then snprintf 8
      (Octal.numeral 7 (calculateChksum (UstarHeader.bytes h))) else h f))

/-- The loop of `parse_octal_field`, at offset `ofs` of the field. -/
def parseOctalFrom : Nat → Nat → List UInt8 → Option Nat
  | _, _, [] => none
  | ofs, value, c :: s =>
    if Octal.isDigit c then
      if (2 ^ 32 - 1) / 8 < value then none else parseOctalFrom (ofs + 1) (c.toNat - 48 + value * 8) s
    else if c = 32 ∨ c = 0 then if 0 < ofs then some value else none
    else none

/-- `parse_octal_field`. -/
def parseOctalField (s : List UInt8) : Option Nat := parseOctalFrom 0 0 s

/-- What `parse_octal_field` does: the offsets that it reads, the sums for `*value` before they are cut to 32 bits, and what
`*value` is if it returns true. -/
structure OctalRun where
  reads : List Nat
  sums : List Nat
  result : Option Nat

/-- The loop of `parse_octal_field` on the memory at `s`, with `todo` more bytes in the field. -/
def parseOctalRun (s : Nat → UInt8) : Nat → Nat → Nat → OctalRun
  | 0, _, _ => { reads := [], sums := [], result := none }
  | todo + 1, ofs, value =>
    if Octal.isDigit (s ofs) then
      if (2 ^ 32 - 1) / 8 < value then { reads := [ofs], sums := [], result := none }
      else
        let sum := (s ofs).toNat - 48 + value * 8
        let rest := parseOctalRun s todo (ofs + 1) (sum % 2 ^ 32)
        { rest with reads := ofs :: rest.reads, sums := sum :: rest.sums }
    else { reads := [ofs], sums := [], result := if s ofs = 32 ∨ s ofs = 0 then if 0 < ofs then some value else none else none }

/-- `is_all_zeros`. -/
def isAllZeros (block : List UInt8) : Bool := block.all (fun b => b == 0)

/-- What `ustar_parse_header` finds in a header. -/
structure UstarEntry where
  fileName : CString
  type : UstarType
  size : Nat
  deriving DecidableEq

/-- The type of a flag, where it is one of the two. -/
def typeOfFlag (flag : List UInt8) : Option UstarType :=
  if flag = [UstarType.regular.flag] then some .regular else if flag = [UstarType.directory.flag] then some .directory else none

/-- `ustar_parse_header`: a message, or the entry, or `none` at the end of the archive. -/
def ustarParseHeader (header : List UInt8) : Except String (Option UstarEntry) :=
  if isAllZeros header then .ok none
  else if UstarField.magic.read header ≠ ascii "ustar" ++ [0] then .error "not a ustar archive"
  else if UstarField.version.read header ≠ ascii "00" then .error "invalid ustar version"
  else
    match parseOctalField (UstarField.chksum.read header) with
    | none => .error "corrupt chksum field"
    | some chksum =>
      if chksum ≠ calculateChksum header then .error "checksum mismatch"
      else if (UstarField.name.read header).getD 99 0 ≠ 0 ∨ (UstarField.namePrefix.read header).getD 0 0 ≠ 0 then
        .error "file name too long"
      else
        match typeOfFlag (UstarField.typeflag.read header) with
        | none => .error "unimplemented file type"
        | some .directory =>
          .ok (some { fileName := stripAntisocialPrefixes (cstr (UstarField.name.read header)), type := .directory, size := 0 })
        | some .regular =>
          match parseOctalField (UstarField.size.read header) with
          | none => .error "corrupt file size field"
          | some size =>
            if 2 ^ 31 - 1 < size then .error "file too large"
            else .ok (some { fileName := stripAntisocialPrefixes (cstr (UstarField.name.read header)), type := .regular,
                             size := size })

end Pintos
