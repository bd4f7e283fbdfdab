/-!
# Binary search (`lib/stdlib.c`)

`binary_search` keeps the part of a sorted array that can still hold the key as a pair of byte offsets, and halves it.
-/

namespace Pintos

/-- The bytes of an element. -/
abbrev Element (size : Nat) : Type := { bytes : List UInt8 // bytes.length = size }

/-- The element at an offset, if it lies within the array. -/
def elementAt (array : List UInt8) (size ofs : Nat) : Option (Element size) :=
  if h : ofs + size ≤ array.length then
    some ⟨(array.drop ofs).take size, by rw [List.length_take, List.length_drop]; omega⟩
  else none

variable {size : Nat} (compare : Element size → Element size → Int) (key : Element size) (array : List UInt8)

/-- The loop of `binary_search`, from the offsets `first` and `last` on: `none` where it reads outside the array or is not
done within the given number of tests. The array lies in memory, so that no sum of offsets overflows. -/
def binarySearchFrom : Nat → Nat → Nat → Option (Option Nat)
  | 0, _, _ => none
  | fuel + 1, first, last =>
    if first < last then
      let range := (last - first) / size
      let middle := first + range / 2 * size
      match elementAt array size middle with
      | none => none
      | some e =>
        if compare key e < 0 then binarySearchFrom fuel first middle
        else if 0 < compare key e then binarySearchFrom fuel (middle + size) last
        else some (some middle)
    else some none

/-- `binary_search`: the offset of the element found, or a null pointer. -/
def binarySearch (cnt fuel : Nat) : Option (Option Nat) := binarySearchFrom compare key array fuel 0 (size * cnt)

end Pintos
