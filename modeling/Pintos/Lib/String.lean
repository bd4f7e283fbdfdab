import Mathlib.Data.List.Basic
import Mathlib.Data.List.TakeWhile

/-!
# C strings (`lib/string.c`)

A string is the bytes before the first null byte of the memory it stands in.
-/

namespace Pintos

/-- A string: bytes with no null byte among them. -/
@[ext] structure CString where
  bytes : List UInt8
  noNul : ∀ b ∈ bytes, b ≠ 0
  deriving DecidableEq

/-- `strlen`. -/
def CString.strlen (s : CString) : Nat := s.bytes.length

/-- The string that starts a stretch of memory: its bytes up to the first null byte. -/
def cstr (bs : List UInt8) : CString where
  bytes := bs.takeWhile (fun b => b != 0)
  noNul b hb := by simpa using List.mem_takeWhile_imp hb

/-- The bytes of a string constant. -/
def ascii (s : String) : List UInt8 := s.toList.map (fun c => UInt8.ofNat c.toNat)

/-- The first loop of `memmove`, which goes up. It leaves the pointer `dst` behind the last byte. -/
def copyUp : Nat → Nat → Nat → (Nat → UInt8) → Nat × (Nat → UInt8)
  | 0, dst, _, m => (dst, m)
  | size + 1, dst, src, m => copyUp size (dst + 1) (src + 1) (Function.update m dst (m src))

/-- The second loop of `memmove`, which goes down. It leaves the pointer `dst` at the last byte stored. -/
def copyDown : Nat → Nat → Nat → (Nat → UInt8) → Nat × (Nat → UInt8)
  | 0, dst, _, m => (dst, m)
  | size + 1, dst, src, m => copyDown size (dst - 1) (src - 1) (Function.update m (dst - 1) (m (src - 1)))

/-- `memmove`: the pointer that it returns, and the memory. There is no result where an assertion fails. -/
def memmove (m : Nat → UInt8) (dst src size : Nat) : Option (Nat × (Nat → UInt8)) :=
  if (dst ≠ 0 ∨ size = 0) ∧ (src ≠ 0 ∨ size = 0) then
    some (if dst < src then copyUp size dst src m else copyDown size (dst + size) (src + size) m)
  else none

variable (dst buf : List UInt8) (src : CString) (size : Nat)

/-- `strlcpy` into `dst`, of `size` bytes: at most `size - 1` bytes of the string and a null byte; what follows stays. -/
def strlcpy : List UInt8 :=
  if size = 0 then dst
  else src.bytes.take (size - 1) ++ 0 :: dst.drop (min src.strlen (size - 1) + 1)

/-- A string that fits reads back as it was copied. -/
theorem cstr_strlcpy (hs : src.strlen < size) : cstr (strlcpy dst src size) = src := by
  have h0 : size ≠ 0 := by omega
  have ht : src.bytes.take (size - 1) = src.bytes := List.take_of_length_le (by unfold CString.strlen at hs; omega)
  ext1
  simp only [strlcpy, if_neg h0, ht, cstr]
  rw [List.takeWhile_append_of_pos (by simpa using src.noNul)]
  simp

theorem strlcpy_length (h : dst.length = size) : (strlcpy dst src size).length = size := by
  unfold strlcpy CString.strlen
  split
  · exact h
  · simp only [List.length_append, List.length_take, List.length_cons, List.length_drop]
    omega

/-- What `strtok_r` leaves: the memory, the place of the token if there is one, and the place saved for the next call. -/
structure Strtok where
  buf : List UInt8
  token : Option Nat
  save : Nat
  deriving DecidableEq, Repr

/-- `strtok_r` at the place `s` of a memory that holds a null byte from there on: skip delimiters, then skip to the next
delimiter or null byte, and put a null byte where a delimiter ends the token. -/
def strtokR (delimiters : List UInt8) (buf : List UInt8) (s : Nat) : Strtok :=
  let token := s + ((buf.drop s).takeWhile (fun b => delimiters.contains b)).length
  if buf.getD token 0 = 0 then { buf := buf, token := none, save := token }
  else
    let stop := token + ((buf.drop token).takeWhile (fun b => !delimiters.contains b && b != 0)).length
    if buf.getD stop 0 = 0 then { buf := buf, token := some token, save := stop }
    else { buf := buf.set stop 0, token := some token, save := stop + 1 }

/-- A space. -/
def space : UInt8 := 32

/-- The tokens that calls of `strtok_r` with the delimiter `" "` give from `s` on until one gives none, and the memory they
leave. Each call moves on by a byte at least, so that as many calls as there are bytes are enough. -/
def tokens : Nat → List UInt8 → Nat → List (List UInt8) × List UInt8
  | 0, buf, _ => ([], buf)
  | fuel + 1, buf, s =>
    let r := strtokR [space] buf s
    match r.token with
    | none => ([], r.buf)
    | some t => ((cstr (r.buf.drop t)).bytes :: (tokens fuel r.buf r.save).1, (tokens fuel r.buf r.save).2)

/-- The tokens of a memory from its start on, and the memory with a null byte after each of them. -/
def tokenize : List (List UInt8) × List UInt8 := tokens buf.length buf 0

end Pintos
