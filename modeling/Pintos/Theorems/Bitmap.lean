import Pintos.Lemmas.Bitmap

/-!
# Bitmaps are arrays of booleans

The calls that change a bitmap are run one after another on a bitmap and on an array of as many booleans. Afterwards each
call that looks at the bitmap returns what the array says.
-/

namespace Pintos

open Bitmap List

/-- A call that changes a bitmap. -/
inductive BitmapCall where
  | set (idx : Nat) (value : Bool)
  | mark (bitIdx : Nat)
  | reset (bitIdx : Nat)
  | flip (bitIdx : Nat)
  | setMultiple (start cnt : Nat) (value : Bool)
  | setAll (value : Bool)
  | scanAndFlip (start cnt : Nat) (value : Bool)

namespace BitmapCall

/-- The call on a bitmap. -/
def exec (b : Bitmap) : BitmapCall → Except BitmapFault Bitmap
  | set idx value => b.set idx value
  | mark bitIdx => b.mark bitIdx
  | reset bitIdx => b.reset bitIdx
  | flip bitIdx => b.flip bitIdx
  | setMultiple start cnt value => b.setMultiple start cnt value
  | setAll value => b.setAll value
  | scanAndFlip start cnt value => do return (← b.scanAndFlip start cnt value).2

variable (n : Nat) (f : Nat → Bool)

/-- The arguments are in the range of `n` bits. -/
def InRange : BitmapCall → Prop
  | set k _ | mark k | reset k | flip k => k < n
  | setMultiple start cnt _ => start + cnt ≤ n
  | setAll _ => True
  | scanAndFlip start _ _ => start ≤ n

/-- The call on an array of `n` booleans. -/
def apply : BitmapCall → Nat → Bool
  | set k v, j => if j = k then v else f j
  | mark k, j => if j = k then true else f j
  | reset k, j => if j = k then false else f j
  | flip k, j => if j = k then !f k else f j
  | setMultiple start cnt v, j => if start ≤ j ∧ j < start + cnt then v else f j
  | setAll v, j => if j < n then v else f j
  | scanAndFlip start cnt v, j =>
    (firstGroup n f start cnt v).elim (f j) (fun i => if i ≤ j ∧ j < i + cnt then !v else f j)

end BitmapCall

/-- What the calls return that look at a bitmap, on an array of `n` booleans. -/
structure Bitmap.Agrees (b : Bitmap) (n : Nat) (f : Nat → Bool) : Prop where
  test : ∀ k < n, b.test k = .ok (f k)
  count : ∀ start cnt v, start + cnt ≤ n → b.count start cnt v = .ok ((range cnt).countP (fun j => f (start + j) == v))
  contains : ∀ start cnt v, start + cnt ≤ n → b.contains start cnt v = .ok ((range cnt).any (fun j => f (start + j) == v))
  all : ∀ start cnt, start + cnt ≤ n → b.all start cnt = .ok ((range cnt).all (fun j => f (start + j)))
  any : ∀ start cnt, start + cnt ≤ n → b.any start cnt = .ok ((range cnt).any (fun j => f (start + j)))
  none : ∀ start cnt, start + cnt ≤ n → b.none start cnt = .ok ((range cnt).all (fun j => !f (start + j)))
  /-- The scan returns the least place there is, or `BITMAP_ERROR`, which is none; these bits, and no others, are flipped. -/
  scan : ∀ start ≤ n, ∀ cnt v, ∃ i b', b.scan start cnt v = .ok i ∧ b.scanAndFlip start cnt v = .ok (i, b') ∧
    (IsLeast (groups n f start cnt v) i ∧ i ≠ bitmapError ∨ groups n f start cnt v = ∅ ∧ i = bitmapError) ∧
    ∀ k < n, b'.test k = .ok (if i ≤ k ∧ k < i + cnt then !v else f k)

variable {b : Bitmap} (h : b.Fits)
include h

theorem Bitmap.agrees_bit : b.Agrees b.bitCnt b.bit where
  test _ hk := test_eq h hk
  count _ _ v hin := count_eq h hin v
  contains _ _ v hin := contains_eq h hin v
  all _ _ hin := by
    unfold Bitmap.all
    rw [contains_eq h hin]
    simp [bind, Except.bind, pure, Except.pure, not_any_eq_all_not]
  any _ _ hin := by
    unfold Bitmap.any
    simp [contains_eq h hin]
  none _ _ hin := by
    unfold Bitmap.none
    rw [contains_eq h hin]
    simp [bind, Except.bind, pure, Except.pure, not_any_eq_all_not]
  scan start hs cnt v := by
    obtain ⟨b', hrun, hcnt, hbits⟩ := scanAndFlip_spec h hs cnt v
    refine ⟨_, b', scan_eq h hs cnt v, hrun, ?_, fun k hk => ?_⟩
    · cases hfind : firstGroup b.bitCnt b.bit start cnt v with
      | none => exact .inr ⟨firstGroup_none hfind, rfl⟩
      | some i =>
        have hi := firstGroup_some hfind
        exact .inl ⟨hi, ne_bitmapError h (Nat.le_of_add_right_le hi.1.2.1)⟩
    · rw [test_eq (h.of_bitCnt hcnt) (hcnt ▸ hk), hbits]
      cases firstGroup b.bitCnt b.bit start cnt v with
      | none =>
        have : k < bitmapError := by
          unfold Fits at h
          unfold bitmapError
          omega
        rw [Option.getD_none, if_neg (by omega)]
        rfl
      | some i => rfl

/-- A call in range does to the bits what it does to the array. -/
theorem BitmapCall.exec_spec {c : BitmapCall} (hin : c.InRange b.bitCnt) :
    ∃ b', c.exec b = .ok b' ∧ b'.bitCnt = b.bitCnt ∧ ∀ j, b'.bit j = c.apply b.bitCnt b.bit j := by
  cases c with
  | set k v => exact set_spec h hin v
  | mark k => exact mark_spec (elemIdx_lt h hin)
  | reset k => exact reset_spec (elemIdx_lt h hin)
  | flip k => exact flip_spec (elemIdx_lt h hin)
  | setMultiple start cnt v => exact setMultiple_spec h start cnt hin v
  | setAll v =>
    obtain ⟨b', hset, hcnt, hbits⟩ := setMultiple_spec h 0 b.bitCnt (Nat.zero_add _).le v
    refine ⟨b', hset, hcnt, fun j => ?_⟩
    simpa [apply] using hbits j
  | scanAndFlip start cnt v =>
    obtain ⟨b', hrun, hcnt, hbits⟩ := scanAndFlip_spec h hin cnt v
    exact ⟨b', Loop.bind_eq_ok.mpr ⟨_, hrun, rfl⟩, hcnt, hbits⟩

theorem BitmapCall.run_spec (cs : List BitmapCall) (hin : ∀ c ∈ cs, c.InRange b.bitCnt) :
    ∃ b', cs.foldlM exec b = .ok b' ∧ b'.bitCnt = b.bitCnt ∧ b'.bit = cs.foldl (apply b.bitCnt) b.bit := by
  induction cs generalizing b with
  | nil => exact ⟨b, rfl, rfl, rfl⟩
  | cons c cs ih =>
    obtain ⟨b1, hexec, hcnt, hbits⟩ := exec_spec h (hin c mem_cons_self)
    obtain ⟨b', hrun, hcnt', hbit⟩ := ih (b := b1) (h.of_bitCnt hcnt)
      (fun c' hc' => hcnt ▸ hin c' (mem_cons_of_mem _ hc'))
    refine ⟨b', (Loop.foldlM_cons_ok hexec).trans hrun, hcnt'.trans hcnt, ?_⟩
    rw [hbit, hcnt, funext hbits]
    rfl

omit h
/-- Every bitmap that `bitmap_create` gives starts as an array of false, and after every sequence of calls in range a bitmap
agrees with the array on which the same calls are made. -/
theorem bitmap_refines_array : (∀ n < 2 ^ 32, ∀ room elems b, create n room elems = .ok (some b) →
      b.bitCnt = n ∧ b.Fits ∧ ∀ k < n, b.bit k = false) ∧
    ∀ b : Bitmap, b.Fits → ∀ cs : List BitmapCall, (∀ c ∈ cs, c.InRange b.bitCnt) →
      ∃ b', cs.foldlM BitmapCall.exec b = .ok b' ∧ b'.Agrees b.bitCnt (cs.foldl (BitmapCall.apply b.bitCnt) b.bit) := by
  refine ⟨fun n hn room elems b hb => create_spec hn hb, fun b h cs hin => ?_⟩
  obtain ⟨b', hrun, hcnt, hbits⟩ := BitmapCall.run_spec h cs hin
  refine ⟨b', hrun, ?_⟩
  rw [← hbits, ← hcnt]
  exact agrees_bit (h.of_bitCnt hcnt)

theorem bitmap_refines_array_of_33_bits : ∃ b b', create 33 true (some (fun _ => -1#32)) = .ok (some b) ∧
    [BitmapCall.setMultiple 30 3 true, .flip 31].foldlM BitmapCall.exec b = .ok b' ∧ b'.test 31 = .ok false ∧
    b'.test 32 = .ok true := by
  obtain ⟨b, hb⟩ : ∃ b, create 33 true (some (fun _ => -1#32)) = .ok (some b) := ⟨_, rfl⟩
  obtain ⟨hcnt, hfits, -⟩ := bitmap_refines_array.1 33 (by decide) _ _ b hb
  obtain ⟨b', hrun, hagrees⟩ := bitmap_refines_array.2 b hfits [.setMultiple 30 3 true, .flip 31]
    (by simp [BitmapCall.InRange, hcnt])
  exact ⟨b, b', hb, hrun, hagrees.test 31 (by omega), hagrees.test 32 (by omega)⟩

end Pintos
