import Pintos.Lemmas.Strtok

/-!
# What `strtok_r` and `memmove` do (`lib/string.c`)

A call of `strtok_r` finds the next word and puts a null byte behind it. `memmove` copies right under any overlap, but
returns the pointer that its loop has moved: going down that is the destination again, going up it is the end of it.
-/

namespace Pintos

open List Function

/-- What `n` calls of `strtok_r` give, the first at place `s`: for each the place and the string of its token, if there is
one, and then the memory that they leave. -/
def strtokCalls (d : List UInt8) : Nat → List UInt8 → Nat → List (Option (Nat × List UInt8)) × List UInt8
  | 0, buf, _ => ([], buf)
  | n + 1, buf, s =>
    let r := strtokR d buf s
    let rest := strtokCalls d n r.buf r.save
    (r.token.map (fun t => (t, (cstr (r.buf.drop t)).bytes)) :: rest.1, rest.2)

/-- A string at place `o` is cut into words: what `n` calls are to give, and what they are to leave of the string. A word is
as long as it can be, and the delimiter behind it becomes a null byte. -/
inductive Cut (d : List UInt8) : Nat → Nat → List UInt8 → List (Option (Nat × List UInt8)) → List UInt8 → Prop
  | stop {o : Nat} {bs : List UInt8} : Cut d 0 o bs [] bs
  | none {n o : Nat} {sp : List UInt8} : (∀ b ∈ sp, b ∈ d) → Cut d (n + 1) o sp (replicate (n + 1) .none) sp
  | last {n o : Nat} {sp w : List UInt8} : (∀ b ∈ sp, b ∈ d) → (∀ b ∈ w, b ∉ d) → w ≠ [] →
    Cut d (n + 1) o (sp ++ w) (some (o + sp.length, w) :: replicate n .none) (sp ++ w)
  | more {n o : Nat} {sp w rest rest' : List UInt8} {c : UInt8} {ts : List (Option (Nat × List UInt8))} :
    (∀ b ∈ sp, b ∈ d) → (∀ b ∈ w, b ∉ d) → w ≠ [] → c ∈ d → Cut d n (o + (sp ++ (w ++ [c])).length) rest ts rest' →
    Cut d (n + 1) o (sp ++ (w ++ c :: rest)) (some (o + sp.length, w) :: ts) (sp ++ (w ++ 0 :: rest'))

section

variable {d : List UInt8} (hd : 0 ∉ d)
include hd

theorem strtokCalls_end (n : Nat) (pre tail : List UInt8) :
    strtokCalls d n (pre ++ 0 :: tail) pre.length = (replicate n none, pre ++ 0 :: tail) := by
  induction n with
  | zero => rfl
  | succ n ih =>
    have hcall := @strtokR_none d [] hd pre tail (by simp)
    simp only [nil_append, length_nil, Nat.add_zero] at hcall
    simp only [strtokCalls, hcall, ih]
    rfl

theorem strtokCalls_cut (n : Nat) (pre bs : List UInt8) (h0 : ∀ b ∈ bs, b ≠ 0) :
    ∃ ts bs', Cut d n pre.length bs ts bs' ∧
      ∀ tail, strtokCalls d n (pre ++ (bs ++ 0 :: tail)) pre.length = (ts, pre ++ (bs' ++ 0 :: tail)) := by
  induction n generalizing pre bs with
  | zero => exact ⟨[], bs, .stop, fun tail => rfl⟩
  | succ n ih =>
    obtain ⟨hsp, hcall⟩ | ⟨sp, w, pre', rest, hsp, hw, hne, ⟨rfl, rfl, rfl⟩ | ⟨c, hc, rfl, rfl⟩, hcall⟩ := strtokR_next hd pre h0
    · refine ⟨_, _, .none hsp, fun tail => ?_⟩
      have hend := strtokCalls_end hd n (pre ++ bs) tail
      rw [append_assoc, length_append] at hend
      simp only [strtokCalls, hcall tail, hend]
      rfl
    · refine ⟨_, _, .last hsp hw hne, fun tail => ?_⟩
      have hend := strtokCalls_end hd n (pre ++ (sp ++ w)) tail
      rw [append_assoc] at hend
      simp only [strtokCalls, (hcall tail).1, Option.map_some, (hcall tail).2]
      rw [nil_append, append_assoc, hend, append_assoc]
    · obtain ⟨ts, rest', hcut, hrest⟩ := ih (pre ++ (sp ++ (w ++ [0]))) rest (fun b hb => h0 b (by simp [hb]))
      refine ⟨_, _, .more hsp hw hne hc (by simpa using hcut), fun tail => ?_⟩
      simp only [strtokCalls, (hcall tail).1, Option.map_some, (hcall tail).2, hrest]
      simp

end

/-- Calls of `strtok_r`, any number of them, give the words of a string in their order and then nothing, whatever stands
behind the string. -/
theorem strtok_splits (d s : CString) (n : Nat) : ∃ ts bs', Cut d.bytes n 0 s.bytes ts bs' ∧
    ∀ tail, strtokCalls d.bytes n (s.bytes ++ 0 :: tail) 0 = (ts, bs' ++ 0 :: tail) :=
  strtokCalls_cut (fun h => d.noNul 0 h rfl) n [] s.bytes s.noNul

/-! ## `memmove` -/

/-- The memory with `size` bytes moved from `src` to `dst`. -/
def moved (m : Nat → UInt8) (dst src size : Nat) : Nat → UInt8 :=
  fun a => if dst ≤ a ∧ a < dst + size then m (src + (a - dst)) else m a

theorem moved_zero (m : Nat → UInt8) (dst src : Nat) : moved m dst src 0 = m := funext fun a => if_neg (by omega)

/-- Going up is right where the destination is below the source. -/
theorem copyUp_eq (size dst src : Nat) (m : Nat → UInt8) (h : dst < src) :
    copyUp size dst src m = (dst + size, moved m dst src size) := by
  induction size generalizing dst src m with
  | zero => rw [moved_zero]; rfl
  | succ size ih =>
    rw [copyUp, ih _ _ _ (by omega), Prod.mk.injEq]
    refine ⟨by omega, funext fun a => ?_⟩
    simp only [moved]
    split
    · rw [update_of_ne (by omega), if_pos (by omega), show src + 1 + (a - (dst + 1)) = src + (a - dst) by omega]
    · by_cases ha : a = dst
      · rw [ha, update_self, if_pos (by omega), Nat.sub_self, Nat.add_zero]
      · rw [update_of_ne ha, if_neg (by omega)]

/-- Going down is right where it is not. -/
theorem copyDown_eq (size dst src : Nat) (m : Nat → UInt8) (h : src ≤ dst) :
    copyDown size (dst + size) (src + size) m = (dst, moved m dst src size) := by
  induction size generalizing m with
  | zero => rw [moved_zero]; rfl
  | succ size ih =>
    rw [copyDown, ← Nat.add_assoc, ← Nat.add_assoc, Nat.add_sub_cancel, Nat.add_sub_cancel, ih, Prod.mk.injEq]
    refine ⟨rfl, funext fun a => ?_⟩
    simp only [moved]
    split
    · rw [update_of_ne (by omega), if_pos (by omega)]
    · by_cases ha : a = dst + size
      · rw [ha, update_self, if_pos (by omega), Nat.add_sub_cancel_left]
      · rw [update_of_ne ha, if_neg (by omega)]

/-- `memmove` moves the bytes, under any overlap; what it returns is the destination if there are no bytes to move or the
destination is not below the source, and only then. -/
theorem memmove_moves (m : Nat → UInt8) {dst src : Nat} (size : Nat) (hdst : dst ≠ 0 ∨ size = 0) (hsrc : src ≠ 0 ∨ size = 0) :
    (∃ ret, memmove m dst src size = some (ret, moved m dst src size)) ∧
    (memmove m dst src size = some (dst, moved m dst src size) ↔ size = 0 ∨ src ≤ dst) := by
  rw [memmove, if_pos ⟨hdst, hsrc⟩]
  by_cases h : dst < src
  · rw [if_pos h, copyUp_eq size dst src m h]
    refine ⟨⟨_, rfl⟩, ?_⟩
    simp only [Option.some.injEq, Prod.mk.injEq, and_true]
    omega
  · rw [if_neg h, copyDown_eq size dst src m (by omega)]
    exact ⟨⟨_, rfl⟩, fun _ => .inr (by omega), fun _ => rfl⟩

/-- Three bytes moved up by one place, over two of them. -/
theorem memmove_moves_up : memmove (fun a => a.toUInt8) 2 1 3 = some (2, moved (fun a => a.toUInt8) 2 1 3) ∧
    (List.range 6).map (moved (fun a => a.toUInt8) 2 1 3) = [0, 1, 1, 2, 3, 5] :=
  ⟨((memmove_moves (fun a => a.toUInt8) 3 (by decide) (by decide)).2).mpr (.inr (by decide)), rfl⟩

/-- For a byte moved down by one place, the end of the destination is returned. -/
theorem memmove_returns_end : (memmove (fun a => a.toUInt8) 1 2 1).map Prod.fst = some 2 := rfl

end Pintos
