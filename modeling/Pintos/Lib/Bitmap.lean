import Pintos.Library.Packed

/-!
# Bitmaps (`lib/kernel/bitmap.c`)

A bitmap is an array of 32-bit elements. `size_t` has 32 bits, so that sums of indexes are taken modulo `2 ^ 32`; an
assertion that fails and an access outside the array stop the machine. A file that a bitmap is read from or written to is an
array of bytes: no more of it can be read or written than there is.
-/

namespace Pintos

open Bytes

/-- What stops the machine. -/
inductive BitmapFault where
  /-- An assertion or a call of `PANIC`. -/
  | panic
  /-- An element outside the array, or a null pointer. -/
  | wild
  deriving DecidableEq, Repr

/-- An assertion. -/
def BitmapFault.assert (p : Bool) : Except BitmapFault Unit := if p then .ok () else .error .panic

/-- `size_t` arithmetic. -/
def sizeT (n : Nat) : Nat := n % 2 ^ 32

/-- `BITMAP_ERROR`, which is `SIZE_MAX`. -/
def bitmapError : Nat := 2 ^ 32 - 1

variable (file : List UInt8)

/-- `file_read_at` from the start of an array of bytes. -/
def readAtStart (size : Nat) : List UInt8 := file.take size

/-- `file_write_at` to the start of an array of bytes: how many are written, and the array afterwards. -/
def writeAtStart (bytes : List UInt8) (size : Nat) : Nat × List UInt8 :=
  let n := min size file.length
  (n, bytes.take n ++ file.drop n)

namespace Bitmap

/-- `ELEM_BITS`. -/
def elemBits : Nat := 32

variable (bitIdx bitCnt : Nat)

/-- `elem_idx`. -/
def elemIdx : Nat := bitIdx / elemBits

/-- `bit_mask`. -/
def bitMask : BitVec 32 := 1#32 <<< (bitIdx % elemBits)

/-- `elem_cnt`. -/
def elemCnt : Nat := sizeT (bitCnt + elemBits - 1) / elemBits

/-- `byte_cnt`. -/
def byteCnt : Nat := 4 * elemCnt bitCnt

end Bitmap

/-- `struct bitmap`, with the elements that its pointer leads to. -/
structure Bitmap where
  bitCnt : Nat
  bits : List (BitVec 32)
  sized : bits.length = Bitmap.elemCnt bitCnt

namespace Bitmap

variable (b : Bitmap) (idx bitIdx start : Nat) (file : List UInt8) (cnt : Nat) (value : Bool)

/-- `last_mask`. -/
def lastMask : BitVec 32 :=
  let lastBits := b.bitCnt % elemBits
  if lastBits ≠ 0 then (1#32 <<< lastBits) - 1#32 else -1#32

/-- The bitmap with one element replaced. -/
def putElem (x : BitVec 32) : Bitmap where
  bitCnt := b.bitCnt
  bits := b.bits.set idx x
  sized := List.length_set.trans b.sized

/-- `b->bits[idx]`. -/
def elem : Except BitmapFault (BitVec 32) :=
  if idx < b.bits.length then .ok (b.bits.getD idx 0) else .error .wild

/-- `bitmap_mark`: one `orl`. -/
def mark : Except BitmapFault Bitmap := do
  let x ← b.elem (elemIdx bitIdx)
  return b.putElem (elemIdx bitIdx) (x ||| bitMask bitIdx)

/-- `bitmap_reset`: one `andl`. -/
def reset : Except BitmapFault Bitmap := do
  let x ← b.elem (elemIdx bitIdx)
  return b.putElem (elemIdx bitIdx) (x &&& ~~~bitMask bitIdx)

/-- `bitmap_flip`: one `xorl`. -/
def flip : Except BitmapFault Bitmap := do
  let x ← b.elem (elemIdx bitIdx)
  return b.putElem (elemIdx bitIdx) (x ^^^ bitMask bitIdx)

/-- `bitmap_set`. -/
def set : Except BitmapFault Bitmap := do
  BitmapFault.assert (idx < b.bitCnt)
  if value then b.mark idx else b.reset idx

/-- `bitmap_test`. -/
def test : Except BitmapFault Bool := do
  BitmapFault.assert (idx < b.bitCnt)
  let x ← b.elem (elemIdx idx)
  return x &&& bitMask idx != 0#32

/-- `bitmap_set_multiple`. -/
def setMultiple : Except BitmapFault Bitmap := do
  BitmapFault.assert (start ≤ b.bitCnt)
  BitmapFault.assert (sizeT (start + cnt) ≤ b.bitCnt)
  (List.range cnt).foldlM (fun b i => b.set (sizeT (start + i)) value) b

/-- `bitmap_set_all`. -/
def setAll : Except BitmapFault Bitmap := b.setMultiple 0 b.bitCnt value

/-- `bitmap_count`. -/
def count : Except BitmapFault Nat := do
  BitmapFault.assert (start ≤ b.bitCnt)
  BitmapFault.assert (sizeT (start + cnt) ≤ b.bitCnt)
  (List.range cnt).foldlM (fun valueCnt i => do
    if (← b.test (sizeT (start + i))) == value then return sizeT (valueCnt + 1) else return valueCnt) 0

/-- The loop of `bitmap_contains`, with `todo` more bits to look at, the next one number `i` of the group. -/
def containsFrom (b : Bitmap) (start : Nat) (value : Bool) : Nat → Nat → Except BitmapFault Bool
  | 0, _ => .ok false
  | todo + 1, i => do
    if (← b.test (sizeT (start + i))) == value then return true else b.containsFrom start value todo (i + 1)

/-- `bitmap_contains`. -/
def contains : Except BitmapFault Bool := do
  BitmapFault.assert (start ≤ b.bitCnt)
  BitmapFault.assert (sizeT (start + cnt) ≤ b.bitCnt)
  b.containsFrom start value cnt 0

/-- `bitmap_any`. -/
protected def any : Except BitmapFault Bool := b.contains start cnt true

/-- `bitmap_none`. -/
protected def none : Except BitmapFault Bool := do
  return !(← b.contains start cnt true)

/-- `bitmap_all`. -/
def all : Except BitmapFault Bool := do
  return !(← b.contains start cnt false)

/-- The loop of `bitmap_scan`, with `todo` more places to look at, the next one `i`. -/
def scanFrom (b : Bitmap) (cnt : Nat) (value : Bool) : Nat → Nat → Except BitmapFault Nat
  | 0, _ => .ok bitmapError
  | todo + 1, i => do
    if !(← b.contains i cnt !value) then return i else b.scanFrom cnt value todo (i + 1)

/-- `bitmap_scan`. -/
def scan : Except BitmapFault Nat := do
  BitmapFault.assert (start ≤ b.bitCnt)
  if cnt ≤ b.bitCnt then
    let last := b.bitCnt - cnt
    b.scanFrom cnt value (last + 1 - start) start
  else return bitmapError

/-- `bitmap_scan_and_flip`. -/
def scanAndFlip : Except BitmapFault (Nat × Bitmap) := do
  let idx ← b.scan start cnt value
  if idx ≠ bitmapError then return (idx, ← b.setMultiple idx cnt !value) else return (idx, b)

/-- `bitmap_create`. `room` is whether `malloc` has memory for the `struct bitmap`, and `elems` what the memory holds that it
gives for the elements, if it has any; for no bytes it returns a null pointer. -/
def create (bitCnt : Nat) (room : Bool) (elems : Option (Nat → BitVec 32)) : Except BitmapFault (Option Bitmap) :=
  if room then
    match if byteCnt bitCnt = 0 then none else elems with
    | some elems => do
      let b : Bitmap := { bitCnt, bits := (List.range (elemCnt bitCnt)).map elems,
                          sized := (List.length_map _).trans List.length_range }
      return some (← b.setAll false)
    | none => if bitCnt = 0 then .ok (some { bitCnt := 0, bits := [], sized := rfl }) else .ok none
  else .ok none

/-- `bitmap_read`: whether all of it could be read, and the bitmap afterwards. -/
def read : Except BitmapFault (Bool × Bitmap) :=
  if 0 < b.bitCnt then do
    let size := byteCnt b.bitCnt
    let bytes := readAtStart file size
    let b : Bitmap :=
      { b with
        bits := Packed.ofMemory (splice (fun j => (Packed.bytes b.bits).getD j 0) 0 bytes) (elemCnt b.bitCnt)
        sized := Packed.length_ofMemory _ _ }
    let last := sizeT (elemCnt b.bitCnt + 2 ^ 32 - 1)
    let x ← b.elem last
    return (bytes.length == size, b.putElem last (x &&& b.lastMask))
  else .ok (true, b)

/-- `bitmap_write`: whether all of it could be written, and the file afterwards. -/
def write : Bool × List UInt8 :=
  let size := byteCnt b.bitCnt
  let result := writeAtStart file (Packed.bytes b.bits) size
  (result.1 == size, result.2)

end Bitmap

end Pintos
