import Pintos.Lemmas.BlockMap

/-!
# `allocate_file` gives new sectors and moves no old one

`allocate_file` runs with the inode's lock given up, so other threads write data while it works, and the free map writes its
own file. `Others E` is what they may do: change the bytes of the sectors in `E`. `GrowOnly` is what `allocate_file` promises
in return, one request at a time. `Grow` is the invariant that carries it from loop to loop: which places of the map have a
sector by now, and which, whether or not the pointer to it has been written yet.
-/

namespace Pintos

open Program BlockWorld MapSlot BlockM InodeDisk Prog

/-- What may happen between the requests of `allocate_file`: the bytes of the sectors in `E` change. -/
def Others (E : Nat → Prop) (w w' : BlockWorld) : Prop :=
  w'.data = w.data ∧ w'.used = w.used ∧ w'.dev.size = w.dev.size ∧ ∀ x, ¬E x → w'.dev.disk x = w.dev.disk x

/-- What a request of `allocate_file` does at most: the length and the first `n` blocks stay as they are, no sector is given
up, and the bytes of the sectors in `E` stay. -/
def GrowOnly (E : Nat → Prop) (n : Nat) (w w' : BlockWorld) : Prop :=
  w'.data.length = w.data.length ∧ w'.dev.size = w.dev.size ∧ Stable n w w' ∧
    (∀ x, w.used x = true → w'.used x = true) ∧ ∀ x, E x → w'.dev.disk x = w.dev.disk x

theorem Others.refl (E : Nat → Prop) (w : BlockWorld) : Others E w w := ⟨rfl, rfl, rfl, fun _ _ => rfl⟩

theorem Others.trans {E : Nat → Prop} (a b c : BlockWorld) (h1 : Others E a b) (h2 : Others E b c) : Others E a c :=
  ⟨h2.1.trans h1.1, h2.2.1.trans h1.2.1, h2.2.2.1.trans h1.2.2.1, fun x hx => (h2.2.2.2 x hx).trans (h1.2.2.2 x hx)⟩

theorem GrowOnly.refl (E : Nat → Prop) (n : Nat) (w : BlockWorld) : GrowOnly E n w w :=
  ⟨rfl, rfl, .refl n w, fun _ h => h, fun _ _ => rfl⟩

variable {k n : Nat} {X : MapSlot → Prop}

/-- A map whose pointers and index blocks stay has its sectors where they were. -/
theorem BlockWorld.stable_of_eq {w w' : BlockWorld} (hdir : ∀ b < n, b < numDirect → w'.data.directPtr b = w.data.directPtr b)
    (hs : numDirect < n → w'.data.singlyIndirectPtr = w.data.singlyIndirectPtr ∧
      ∀ i, numDirect + i < n → i < numBlocksInIndirect → w'.singlyBlock.word i = w.singlyBlock.word i)
    (hd : numDirect + numBlocksInIndirect < n → w'.data.doublyIndirectPtr = w.data.doublyIndirectPtr ∧ w'.leafPtr = w.leafPtr ∧
      ∀ i, numDirect + numBlocksInIndirect + i < n → w'.leafBlock.word i = w.leafBlock.word i) : Stable n w w' := by
  intro p hp
  cases p with
  | block b =>
    simp only [InUse] at hp
    simp only [sector, mapSector]
    split
    · exact hdir b hp ‹_›
    · split
      · exact (hs (by omega)).2 _ (by omega) (by omega)
      · exact (hd (by omega)).2.2 _ (by omega)
  | singly => exact (hs hp).1
  | doubly => exact (hd hp).1
  | leaf => exact (hd hp).2.1

/-- A map whose index blocks hold what they held has its sectors where they were. -/
theorem BlockWorld.stable_of_index {w w' : BlockWorld} (hdata : w'.data = w.data)
    (hdisk : ∀ p, InUse n p → p.isIndex = true → w'.dev.disk (w.sector p) = w.dev.disk (w.sector p)) : Stable n w w' := by
  refine stable_of_eq (fun b _ _ => by rw [hdata]) (fun hn => ?_) (fun hn => ?_)
  · have hs : w'.singlyBlock = w.singlyBlock := by
      unfold singlyBlock
      rw [hdata]
      exact hdisk .singly hn rfl
    exact ⟨by rw [hdata], fun i _ _ => by rw [hs]⟩
  · have hl : w'.leafPtr = w.leafPtr := by
      unfold leafPtr
      rw [hdata]
      exact congrArg (fun c : Contents => c.word 0) (hdisk .doubly hn rfl)
    have hb : w'.leafBlock = w.leafBlock := by
      unfold leafBlock
      rw [hl]
      exact hdisk .leaf hn rfl
    exact ⟨by rw [hdata], hl, fun i _ => by rw [hb]⟩

/-- Where the index blocks are none of the sectors that others write to, the others move no block. -/
theorem Others.stable {E : Nat → Prop} {w w' : BlockWorld} (h : Others E w w')
    (hE : ∀ p, InUse n p → p.isIndex = true → ¬E (w.sector p)) : Stable n w w' := by
  obtain ⟨hdata, -, -, hdisk⟩ := h
  exact stable_of_index hdata (fun p hp hi => hdisk _ (hE p hp hi))

/-! ## The invariant -/

/-- Where growth starts: a right map of the `n` blocks of the file, on a device whose sectors have proper numbers, and `E`
used sectors that are no index blocks of the map. -/
structure GrowStart (w : BlockWorld) (n : Nat) (E : Nat → Prop) : Prop where
  mapOk : w.MapOk n
  blocks : n = bytesToSectors w.data.length
  nonneg : 0 ≤ w.data.length
  bounded : w.data.length ≤ 2147483136
  numbered : w.dev.size ≤ invalidSector
  otherUsed : ∀ x, E x → w.used x = true
  otherApart : ∀ p, InUse n p → p.isIndex = true → ¬E (w.sector p)

/-- Growth under way, from the world `w0` with `n0` blocks: the places in `U` have the sectors that `f` says. -/
structure Grow (w0 : BlockWorld) (n0 : Nat) (E : Nat → Prop) (U : MapSlot → Prop) (f : MapSlot → Nat)
    (w : BlockWorld) : Prop where
  old : ∀ p, InUse n0 p → U p ∧ f p = w0.sector p
  inside : ∀ p, U p → f p < w.dev.size
  inj : ∀ p q, U p → U q → f p = f q → p = q
  used : ∀ x, w.used x = true ↔ w0.used x = true ∨ ∃ p, U p ∧ f p = x
  fresh : ∀ p, U p → ¬InUse n0 p → w0.used (f p) = false
  apart : ∀ p, U p → p.isIndex = true → ¬E (f p)
  stable : Stable n0 w0 w
  length : w.data.length = w0.data.length
  size : w.dev.size = w0.dev.size
  only : ∀ x, ¬E x → (∀ p, U p → p.isIndex = true → f p ≠ x) → w.dev.disk x = w0.dev.disk x

namespace Grow

variable {w0 w w' : BlockWorld} {n0 : Nat} {E : Nat → Prop} {U : MapSlot → Prop} {f f' : MapSlot → Nat}

theorem start (hs : GrowStart w0 n0 E) : Grow w0 n0 E (InUse n0) w0.sector w0 where
  old p hp := ⟨hp, rfl⟩
  inside := hs.mapOk.inside
  inj := hs.mapOk.inj
  used x := by
    refine ⟨.inl, ?_⟩
    rintro (h | ⟨p, hp, rfl⟩)
    · exact h
    · exact hs.mapOk.marked p hp
  fresh p hp hn := absurd hp hn
  apart := hs.otherApart
  stable := .refl _ _
  length := rfl
  size := rfl
  only _ _ _ := rfl

section

variable (h : Grow w0 n0 E U f w)
include h

/-- A sector that was in use, but not for an index block of the file, holds what it held. -/
theorem frame (x : Nat) (hx : w0.used x = true) (hE : ¬E x)
    (hidx : ∀ p, InUse n0 p → p.isIndex = true → w0.sector p ≠ x) : w.dev.disk x = w0.dev.disk x := by
  refine h.only x hE ?_
  rintro p hp hi rfl
  by_cases hp0 : InUse n0 p
  · exact hidx p hp0 hi (h.old p hp0).2.symm
  · rw [h.fresh p hp hp0] at hx
    cases hx

/-- The sectors of places that have none do not matter, nor does how the places are described. -/
theorem congr {V : MapSlot → Prop} (hU : ∀ p, U p ↔ V p) (hf : ∀ p, U p → f' p = f p) : Grow w0 n0 E V f' w := by
  obtain rfl : U = V := funext fun p => propext (hU p)
  exact
    { h with
      old := fun p hp => ⟨(h.old p hp).1, (hf p (h.old p hp).1).trans (h.old p hp).2⟩
      inside := fun p hp => hf p hp ▸ h.inside p hp
      inj := fun p q hp hq he => h.inj p q hp hq (by rw [← hf p hp, ← hf q hq, he])
      used := fun x => (h.used x).trans (or_congr_right
        ⟨fun ⟨p, hp, he⟩ => ⟨p, hp, (hf p hp).trans he⟩, fun ⟨p, hp, he⟩ => ⟨p, hp, (hf p hp).symm.trans he⟩⟩)
      fresh := fun p hp hn => hf p hp ▸ h.fresh p hp hn
      apart := fun p hp hi => hf p hp ▸ h.apart p hp hi
      only := fun x hE hx => h.only x hE (fun p hp hi => hf p hp ▸ hx p hp hi) }

/-- The sector of a place in use from the start is still the one the map leads to. -/
theorem sector_eq {p : MapSlot} (hp : InUse n0 p) : w.sector p = f p := (h.stable p hp).trans (h.old p hp).2.symm

theorem others (ho : Others E w w') : Grow w0 n0 E U f w' := by
  have hst : Stable n0 w w' := ho.stable fun p hp hi => h.sector_eq hp ▸ h.apart p (h.old p hp).1 hi
  obtain ⟨hdata, hused, hsize, hdisk⟩ := ho
  exact
    { h with
      inside := fun p hp => hsize ▸ h.inside p hp
      used := fun x => hused ▸ h.used x
      stable := h.stable.trans hst
      length := hdata ▸ h.length
      size := hsize.trans h.size
      only := fun x hE hx => (hdisk x hE).trans (h.only x hE hx) }

end

theorem insert (hs : GrowStart w0 n0 E) (h : Grow w0 n0 E U f w) (t : MapSlot) (f' : MapSlot → Nat) {x : Nat} (ht : ¬U t)
    (hx : x < w.dev.size) (hfree : w.used x = false) (hold : ∀ p, p ≠ t → f' p = f p) (hnew : f' t = x) :
    Grow w0 n0 E (fun p => U p ∨ p = t) f' (w.mark x) := by
  replace hold : ∀ p, U p → f' p = f p := fun p hp => hold p fun he => ht (he ▸ hp)
  have hnot : ∀ p, U p → f p ≠ x := by
    rintro p hp rfl
    rw [(h.used _).mpr (.inr ⟨p, hp, rfl⟩)] at hfree
    cases hfree
  have hx0 : w0.used x = false := by
    cases hu : w0.used x with
    | false => rfl
    | true =>
      rw [(h.used x).mpr (.inl hu)] at hfree
      cases hfree
  constructor
  · exact fun p hp => ⟨.inl (h.old p hp).1, (hold p (h.old p hp).1).trans (h.old p hp).2⟩
  · rintro p (hp | rfl)
    · rw [hold p hp]; exact h.inside p hp
    · rw [hnew]; exact hx
  · rintro p q (hp | rfl) (hq | rfl) he
    · exact h.inj p q hp hq (by rw [← hold p hp, ← hold q hq, he])
    · exact absurd ((hold p hp).symm.trans (he.trans hnew)) (hnot p hp)
    · exact absurd ((hold q hq).symm.trans (he.symm.trans hnew)) (hnot q hq)
    · rfl
  · intro y
    simp only [mark]
    constructor
    · intro hy
      split at hy
      · rename_i hyx
        exact .inr ⟨t, .inr rfl, hnew.trans hyx.symm⟩
      · rcases (h.used y).mp hy with hy | ⟨p, hp, he⟩
        · exact .inl hy
        · exact .inr ⟨p, .inl hp, (hold p hp).trans he⟩
    · intro hy
      split
      · rfl
      rename_i hyx
      rcases hy with hy | ⟨p, hp | rfl, he⟩
      · exact (h.used y).mpr (.inl hy)
      · exact (h.used y).mpr (.inr ⟨p, hp, (hold p hp).symm.trans he⟩)
      · exact absurd (he.symm.trans hnew) hyx
  · rintro p (hp | rfl) hn
    · rw [hold p hp]; exact h.fresh p hp hn
    · rw [hnew]; exact hx0
  · rintro p (hp | rfl) hi
    · rw [hold p hp]; exact h.apart p hp hi
    · rw [hnew]
      intro hE
      rw [hs.otherUsed x hE] at hx0
      cases hx0
  · exact h.stable
  · exact h.length
  · exact h.size
  · exact fun y hE hy => h.only y hE (fun p hp hi => hold p hp ▸ hy p (.inl hp) hi)

/-- A pointer of the inode is stored that no old block needs. -/
theorem setData (h : Grow w0 n0 E U f w) {d : InodeDisk} (hst : Stable n0 w { w with data := d })
    (hl : d.length = w.data.length) : Grow w0 n0 E U f { w with data := d } :=
  { h with
    stable := h.stable.trans hst
    length := hl.trans h.length }

/-- An index block is written, keeping what the old blocks need. -/
theorem put (h : Grow w0 n0 E U f w) {p : MapSlot} (hp : U p) (hi : p.isIndex = true) {c : Contents}
    (hst : Stable n0 w (w.put (f p) c)) : Grow w0 n0 E U f (w.put (f p) c) :=
  { h with
    stable := h.stable.trans hst
    only x hE hx := by
      have hne : x ≠ f p := fun he => hx p hp hi he.symm
      simp only [BlockWorld.put, if_neg hne]
      exact h.only x hE hx }

end Grow

/-! ## The loops -/

/-- The place is one of the first `k` blocks. -/
def MapSlot.Below (k : Nat) : MapSlot → Prop
  | .block b => b < k
  | _ => False

/-- The places that have a sector once the first `k` blocks and the index blocks in `X` are done. -/
def Places (n0 : Nat) (X : MapSlot → Prop) (k : Nat) (p : MapSlot) : Prop := InUse n0 p ∨ X p ∨ Below k p

attribute [local simp] Places Below mapSector

theorem places_succ {n0 : Nat} (p : MapSlot) : (Places n0 X k p ∨ p = .block k) ↔ Places n0 X (k + 1) p := by
  cases p with
  | block b =>
    simp only [Places, Below, block.injEq]
    rw [Nat.lt_succ_iff_lt_or_eq]
    tauto
  | _ => simp

/-- A block that was there from the start joins nothing. -/
theorem places_old {n0 : Nat} (hk : k < n0) (p : MapSlot) : Places n0 X k p ↔ Places n0 X (k + 1) p := by
  rw [← places_succ]
  refine ⟨.inl, ?_⟩
  rintro (hp | rfl)
  · exact hp
  · exact .inl hk

/-- A block past the end and past those done has no sector yet. -/
theorem not_places_block {n0 : Nat} (hX : ∀ b, ¬X (.block b)) (hk : n0 ≤ k) : ¬Places n0 X k (.block k) := by
  rintro (hp | hp | hp)
  · exact absurd hp (by simp only [InUse]; omega)
  · exact hX k hp
  · exact absurd hp (by simp only [Below]; omega)

/-- A program is safe beside the others, as a part of `allocate_file`. -/
abbrev GrowSafe (mayFail : (Nat → Bool) → Prop) (E : Nat → Prop) (n0 : Nat) {α : Type} (p : BlockM α)
    (Q : α → BlockWorld → Prop) (w : BlockWorld) : Prop :=
  p.Safe (blockSem mayFail) (Others E) (GrowOnly E n0) Q w

/-- Growth has failed, having marked some sectors perhaps. -/
def GrowFailed (mayFail : (Nat → Bool) → Prop) (w0 : BlockWorld) (n0 : Nat) (E : Nat → Prop) (w : BlockWorld) : Prop :=
  mayFail w.used ∧ ∃ U f, Grow w0 n0 E U f w

theorem GrowFailed.others {mayFail : (Nat → Bool) → Prop} {w0 w w' : BlockWorld} {n0 : Nat} {E : Nat → Prop}
    (h : GrowFailed mayFail w0 n0 E w) (ho : Others E w w') : GrowFailed mayFail w0 n0 E w' := by
  obtain ⟨hf, U, f, hg⟩ := h
  exact ⟨ho.2.1.symm ▸ hf, U, f, hg.others ho⟩

namespace Grow

variable {mayFail : (Nat → Bool) → Prop} {w0 w : BlockWorld} {n0 : Nat} {E : Nat → Prop} {U : MapSlot → Prop}
  {f : MapSlot → Nat} {α : Type} {Q : α → BlockWorld → Prop}

/-- A block is a hole exactly if it is past the end of the file. -/
theorem safe_isHole (hs : GrowStart w0 n0 E) (h : Grow w0 n0 E U f w) {b : Nat} (hb : b < mapLimit) {k : Bool → BlockM α}
    (hk : ∀ w', Others E w w' → GrowSafe mayFail E n0 (k (decide (n0 ≤ b))) Q w') :
    GrowSafe mayFail E n0 (isHole b >>= k) Q w := by
  have hb' : b < 379 := hb
  have hpos : toInt32 ((b : Int) * (blockSectorSize : Int)) = (b : Int) * 512 := by
    rw [toInt32_of_fits] <;> simp only [blockSectorSize] <;> omega
  have hiff := lt_bytesToSectors_iff (b := b) hs.nonneg hs.bounded
  rw [← hs.blocks] at hiff
  unfold isHole
  rw [bind_assoc, hpos]
  by_cases hn : b < n0
  · have hdiv : ((b : Int) * 512).toNat / 512 = b := by omega
    refine safe_byteToSector (n := n0) (GrowOnly.refl E n0) Others.trans (by omega) (by omega) (by omega)
      (fun w' ho => ⟨?_, ho.2.2.1, ?_⟩) ?_ (fun w' ho => ?_)
    · exact ho.stable fun p hp hi => h.sector_eq hp ▸ h.apart p (h.old p hp).1 hi
    · rw [ho.1, h.length]
      exact hiff.mp hn
    · intro p hp
      rw [h.sector_eq hp]
      exact h.inside p (h.old p hp).1
    have hin : w.sector (.block b) < invalidSector := by
      rw [h.sector_eq (p := .block b) hn]
      exact Nat.lt_of_lt_of_le (h.size ▸ h.inside _ (h.old (.block b) hn).1) hs.numbered
    rw [hdiv, pure_bind, show (w.sector (.block b) == invalidSector) = decide (n0 ≤ b) by
      rw [decide_eq_false (by omega)]
      exact beq_false_of_ne (by omega)]
    exact hk w' ho
  · refine safe_byteToSector_hole (GrowOnly.refl E n0) (fun w' ho => ?_) (fun w' ho => ?_)
    · rw [ho.1, h.length]
      omega
    · rw [pure_bind, show (invalidSector == invalidSector) = decide (n0 ≤ b) by rw [decide_eq_true (by omega)]; rfl]
      exact hk w' ho

theorem lt_word (hs : GrowStart w0 n0 E) (h : Grow w0 n0 E U f w) {x : Nat} (hx : x < w.dev.size) : x < 2 ^ 32 := by
  have hn := hs.numbered
  rw [← h.size] at hn
  unfold invalidSector at hn
  omega

/-- Marking a sector is within what `allocate_file` may do. -/
theorem growOnly_mark (w : BlockWorld) (x : Nat) : GrowOnly E n0 w (w.mark x) := by
  refine ⟨rfl, rfl, .refl _ _, fun y hy => ?_, fun _ _ => rfl⟩
  simp only [mark]
  split
  · rfl
  · exact hy

/-- A direct pointer past the end is stored: no old block moves. -/
theorem stable_setDirect {i : Nat} (x : Nat) (hi : i < numDirect) (hn : n0 ≤ i) :
    Stable n0 w { w with data := w.data.setDirectPtr i x } := by
  refine stable_of_eq (fun b hb _ => directPtr_setDirectPtr_ne _ _ (by omega)) (fun h => ?_) (fun h => ?_) <;> omega

variable {ip m : Nat} {leaf s : Contents} {p : MapSlot}

/-- A step of the loops: a block that is a hole gets a new sector, if there is one. -/
theorem safe_take (hs : GrowStart w0 n0 E) (h : Grow w0 n0 E U f w) {b : Nat} (hb : b < mapLimit) {k : Option Nat → BlockM α}
    {g : BlockM α} (hnone : ∀ w', GrowFailed mayFail w0 n0 E w' → GrowSafe mayFail E n0 (k none) Q w')
    (hsome : n0 ≤ b → ∀ w' x, Others E w w' → Grow w0 n0 E U f w' → x < w'.dev.size → w'.used x = false →
      GrowSafe mayFail E n0 (k (some x)) Q (w'.mark x))
    (hold : b < n0 → ∀ w', Others E w w' → Grow w0 n0 E U f w' → GrowSafe mayFail E n0 g Q w') :
    GrowSafe mayFail E n0 (isHole b >>= fun hole => if hole = true then allocate >>= k else g) Q w := by
  refine safe_isHole hs h hb fun w1 ho1 => ?_
  by_cases hn : n0 ≤ b
  · simp only [decide_eq_true hn, if_true]
    refine safe_allocate (GrowOnly.refl E n0) fun w2 ho2 => ?_
    have ho := Others.trans w w1 w2 ho1 ho2
    exact ⟨fun hf => hnone w2 ⟨hf, U, f, h.others ho⟩,
      fun x hx hfree => ⟨growOnly_mark w2 x, hsome hn w2 x ho (h.others ho) hx hfree⟩⟩
  · simp only [decide_eq_false hn, if_false, Bool.false_eq_true]
    exact hold (by omega) w1 ho1 (h.others ho1)

/-- A direct pointer is the sector of its own place only. -/
theorem mapSector_setDirectPtr {d : InodeDisk} {i : Nat} (x : Nat) (hi : i < numDirect)
    (hp : p ≠ .block i) : mapSector (d.setDirectPtr i x) s ip leaf p = mapSector d s ip leaf p := by
  cases p with
  | block b =>
    have hb : b ≠ i := fun h => hp (h ▸ rfl)
    simp [directPtr_setDirectPtr_ne _ _ hb]
  | singly => exact singlyIndirectPtr_setDirectPtr _ _ hi
  | doubly => exact doublyIndirectPtr_setDirectPtr _ _ hi
  | leaf => rfl

theorem safe_allocateDirect (hs : GrowStart w0 n0 E) (todo count : Nat) (hc : count + todo ≤ numDirect) {w : BlockWorld}
    (h : Grow w0 n0 E (Places n0 (fun _ => False) count) (mapSector w.data s ip leaf) w) :
    GrowSafe mayFail E n0 (allocateDirect todo count)
      (fun ok w' => if ok then Grow w0 n0 E (Places n0 (fun _ => False) (count + todo)) (mapSector w'.data s ip leaf) w'
        else GrowFailed mayFail w0 n0 E w') w := by
  induction todo generalizing count w with
  | zero => exact safe_pure fun w' ho => by simpa [ho.1] using h.others ho
  | succ todo ih =>
    have hnext : ∀ w', Grow w0 n0 E (Places n0 (fun _ => False) (count + 1)) (mapSector w'.data s ip leaf) w' → _ :=
      fun w' h' => ih (count + 1) (by omega) h'
    rw [show count + (todo + 1) = count + 1 + todo by omega]
    refine safe_take hs h (by unfold mapLimit; omega) (fun w1 hf => safe_pure fun _ ho => hf.others ho)
      (fun hn w1 x ho1 h1 hx hfree => ?_) (fun hn w1 ho1 h1 => hnext _ (h1.congr (places_old hn) (fun p _ => by rw [ho1.1])))
    -- The place of the next block gets the new sector, and then the pointer to it is stored.
    have hins := h1.insert hs (.block count) (mapSector (w.data.setDirectPtr count x) s ip leaf)
      (not_places_block (fun _ h => h) hn) hx hfree (fun p hp => mapSector_setDirectPtr _ (by omega) hp)
      (by
        simp only [mapSector, if_pos (show count < numDirect by omega)]
        exact directPtr_setDirectPtr _ (by omega) (h1.lt_word hs hx))
    refine safe_setDirect fun w2 ho2 => ?_
    have hst : Stable n0 w2 { w2 with data := w2.data.setDirectPtr count x } := stable_setDirect x (by omega) hn
    refine ⟨⟨by simp, rfl, hst, fun _ hu => hu, fun _ _ => rfl⟩, hnext _ ?_⟩
    have hdata : w2.data = w.data := ho2.1.trans ho1.1
    exact ((hins.others ho2).setData hst (by simp)).congr places_succ (fun p _ => by rw [hdata])

/-- The loop over the entries of an index block. `F` says which sectors the places have when the index block holds given
bytes: the places from block `base` on are its entries. -/
theorem safe_allocateEntries (hs : GrowStart w0 n0 E) {F : Contents → MapSlot → Nat} (base : Nat)
    (hX : ∀ b, ¬X (.block b)) (hself : ∀ ind i, i < numBlocksInIndirect → F ind (.block (base + i)) = ind.word i)
    (hother : ∀ (ind : Contents) i x p, i < numBlocksInIndirect → p ≠ .block (base + i) → F (ind.setWord i x) p = F ind p)
    (hbase : base + numBlocksInIndirect ≤ mapLimit) (todo count : Nat) (hc : count + todo ≤ numBlocksInIndirect)
    (ind : Contents) {w : BlockWorld} (h : Grow w0 n0 E (Places n0 X (base + count)) (F ind) w) :
    GrowSafe mayFail E n0 (allocateEntries todo count (base + count) ind)
      (fun r w' => match r with
        | some ind' => Grow w0 n0 E (Places n0 X (base + (count + todo))) (F ind') w' ∧ w'.data = w.data ∧
          (∀ x, ¬E x → w'.dev.disk x = w.dev.disk x) ∧ ∀ i, base + i < n0 → ind'.word i = ind.word i
        | none => GrowFailed mayFail w0 n0 E w') w := by
  induction todo generalizing count ind w with
  | zero => exact safe_pure fun w' ho => ⟨h.others ho, ho.1, ho.2.2.2, fun _ _ => rfl⟩
  | succ todo ih =>
    rw [show count + (todo + 1) = count + 1 + todo by omega]
    refine safe_take hs h (by omega) (fun w1 hf => safe_pure fun _ ho => hf.others ho) (fun hn w1 x ho1 h1 hx hfree => ?_)
      (fun hn w1 ho1 h1 => ?_)
    · have hins := h1.insert hs (.block (base + count)) (F (ind.setWord count x)) (not_places_block hX hn) hx hfree
        (fun p hp => hother ind count x p (by omega) hp)
        (by
          rw [hself _ _ (by omega), Contents.word_setWord_self _ _ _ (by unfold numBlocksInIndirect at hc; omega),
            Nat.mod_eq_of_lt (h1.lt_word hs hx)])
      refine Safe.imp (ih (count + 1) (by omega) (ind.setWord count x) (hins.congr places_succ (fun _ _ => rfl))) ?_
      rintro (_ | ind') w' hq
      · exact hq
      · refine ⟨hq.1, hq.2.1.trans ho1.1, fun y hy => (hq.2.2.1 y hy).trans (ho1.2.2.2 y hy), fun i hi => ?_⟩
        rw [hq.2.2.2 i hi, Contents.word_setWord_ne _ _ _ _ (by omega)]
    · refine Safe.imp (ih (count + 1) (by omega) ind (h1.congr (places_old (by omega)) (fun _ _ => rfl))) ?_
      rintro (_ | ind') w' hq
      · exact hq
      · exact ⟨hq.1, hq.2.1.trans ho1.1, fun y hy => (hq.2.2.1 y hy).trans (ho1.2.2.2 y hy), hq.2.2.2⟩

/-- The pointer to an index block at place `t`. `setPtr` is what storing it does to the inode. -/
theorem safe_allocateIndex (hs : GrowStart w0 n0 E)
    {store : Nat → BlockM Unit} (setPtr : InodeDisk → Nat → InodeDisk) (t : MapSlot) {b : Nat} (hb : b < mapLimit)
    (hstore : ∀ {α : Type} {Q : α → BlockWorld → Prop} {w : BlockWorld} {x : Nat} {k : Unit → BlockM α},
      (∀ w', Others E w w' → GrowOnly E n0 w' { w' with data := setPtr w'.data x } ∧
        GrowSafe mayFail E n0 (k ()) Q { w' with data := setPtr w'.data x }) → GrowSafe mayFail E n0 (store x >>= k) Q w)
    (hlen : ∀ d x, (setPtr d x).length = d.length)
    (hst : n0 ≤ b → ∀ (w : BlockWorld) x, Stable n0 w { w with data := setPtr w.data x })
    (hother : ∀ d x p, p ≠ t → mapSector (setPtr d x) s ip leaf p = mapSector d s ip leaf p)
    (hself : ∀ d x, x < 2 ^ 32 → mapSector (setPtr d x) s ip leaf t = x)
    (hold : b < n0 → InUse n0 t) (hnew : n0 ≤ b → ¬Places n0 X b t) {w : BlockWorld}
    (h : Grow w0 n0 E (Places n0 X b) (mapSector w.data s ip leaf) w) :
    GrowSafe mayFail E n0 (allocateIndex store b)
      (fun ok w' => if ok then
          Grow w0 n0 E (Places n0 (fun p => X p ∨ p = t) b) (mapSector w'.data s ip leaf) w' ∧
            (w'.data = w.data ∨ ∃ x, w'.data = setPtr w.data x) ∧ ∀ x, ¬E x → w'.dev.disk x = w.dev.disk x
        else GrowFailed mayFail w0 n0 E w') w := by
  refine safe_take hs h hb (fun w1 hf => safe_pure fun _ ho => hf.others ho) (fun hn w1 x ho1 h1 hx hfree => ?_)
    (fun hn w1 ho1 h1 => ?_)
  · have hins := h1.insert hs t (mapSector (setPtr w.data x) s ip leaf) (hnew hn) hx hfree
      (fun p hp => hother _ _ _ hp) (hself _ _ (h1.lt_word hs hx))
    refine hstore fun w2 ho2 => ⟨⟨hlen _ _, rfl, hst hn w2 x, fun _ hu => hu, fun _ _ => rfl⟩, ?_⟩
    have hdata2 : w2.data = w.data := ho2.1.trans ho1.1
    have h2 := (hins.others ho2).setData (hst hn w2 x) (hlen _ _)
    refine safe_pure fun w3 ho3 => ?_
    have hdata3 : w3.data = setPtr w.data x := by rw [ho3.1, ← hdata2]
    refine ⟨(h2.others ho3).congr (fun p => ?_) (fun p _ => by rw [hdata3]), .inr ⟨x, hdata3⟩, fun y hy => ?_⟩
    · unfold Places
      tauto
    · exact (ho3.2.2.2 y hy).trans ((ho2.2.2.2 y hy).trans (ho1.2.2.2 y hy))
  · refine safe_pure fun w2 ho2 => ?_
    have hdata2 : w2.data = w.data := ho2.1.trans ho1.1
    refine ⟨(h1.others ho2).congr (fun p => ?_) (fun p _ => by rw [hdata2]), .inl hdata2, fun y hy => ?_⟩
    · refine ⟨fun hp => hp.imp_right (Or.imp_left .inl), ?_⟩
      rintro (hp | (hp | rfl) | hp)
      · exact .inl hp
      · exact .inr (.inl hp)
      · exact .inl (hold hn)
      · exact .inr (.inr hp)
    · exact (ho2.2.2.2 y hy).trans (ho1.2.2.2 y hy)

/-- Writing an index block moves no old block, if its new bytes say the same about the old blocks. -/
theorem stable_put (h : Grow w0 n0 E U f w) (hp : U p) {c : Contents}
    (hs : p = .singly → ∀ i, numDirect + i < n0 → c.word i = w.singlyBlock.word i)
    (hd : p = .doubly → numDirect + numBlocksInIndirect < n0 → c.word 0 = w.leafPtr)
    (hl : p = .leaf → ∀ i, numDirect + numBlocksInIndirect + i < n0 → c.word i = w.leafBlock.word i) :
    Stable n0 w (w.put (f p) c) := by
  -- The sector of another place in use is not the one written.
  have hput : ∀ q, InUse n0 q → (w.put (f p) c).dev.disk (w.sector q) = if p = q then c else w.dev.disk (w.sector q) := by
    intro q hq
    refine if_congr ⟨fun he => (h.inj q p (h.old q hq).1 hp ((h.sector_eq hq).symm.trans he)).symm, ?_⟩ rfl rfl
    rintro rfl
    exact h.sector_eq hq
  refine stable_of_eq (fun _ _ _ => rfl) (fun hn => ⟨rfl, fun i hi _ => ?_⟩) (fun hn => ?_)
  · refine (congrArg (·.word i) (hput .singly hn)).trans ?_
    split
    · exact hs ‹_› i hi
    · rfl
  · have hptr : (w.put (f p) c).leafPtr = w.leafPtr := by
      refine (congrArg (·.word 0) (hput .doubly hn)).trans ?_
      split
      · exact hd ‹_› hn
      · rfl
    refine ⟨rfl, hptr, fun i hi => ?_⟩
    unfold leafBlock
    rw [hptr]
    refine (congrArg (·.word i) (hput .leaf hn)).trans ?_
    split
    · exact hl ‹_› i hi
    · rfl

/-- Writing an index block is within what `allocate_file` may do. -/
theorem growOnly_put (h : Grow w0 n0 E U f w) (hp : U p) (hi : p.isIndex = true) {c : Contents}
    (hst : Stable n0 w (w.put (f p) c)) : GrowOnly E n0 w (w.put (f p) c) := by
  refine ⟨rfl, rfl, hst, fun _ hu => hu, fun x hx => ?_⟩
  have hne : x ≠ f p := fun he => h.apart p hp hi (he ▸ hx)
  simp only [BlockWorld.put, if_neg hne]

variable (d : InodeDisk)

/-- The singly indirect pointer is the sector of its own place only. -/
theorem mapSector_setSinglyIndirectPtr (s : Contents) (ip : Nat) (leaf : Contents) (x : Nat) (p : MapSlot)
    (hp : p ≠ .singly) : mapSector (d.setSinglyIndirectPtr x) s ip leaf p = mapSector d s ip leaf p := by
  cases p with
  | block b =>
    simp only [mapSector]
    split
    · exact directPtr_setSinglyIndirectPtr _ _ ‹_›
    · rfl
  | singly => exact absurd rfl hp
  | doubly => exact doublyIndirectPtr_setSinglyIndirectPtr _ _
  | leaf => rfl

/-- The doubly indirect pointer is the sector of its own place only. -/
theorem mapSector_setDoublyIndirectPtr (s : Contents) (ip : Nat) (leaf : Contents) (x : Nat) (p : MapSlot)
    (hp : p ≠ .doubly) : mapSector (d.setDoublyIndirectPtr x) s ip leaf p = mapSector d s ip leaf p := by
  cases p with
  | block b =>
    simp only [mapSector]
    split
    · exact directPtr_setDoublyIndirectPtr _ _ ‹_›
    · rfl
  | singly => exact singlyIndirectPtr_setDoublyIndirectPtr _ _
  | doubly => exact absurd rfl hp
  | leaf => rfl

/-- An entry of the singly indirect block is the sector of its own place only. -/
theorem mapSector_setWord_singly (ip : Nat) (leaf ind : Contents) (i x : Nat) (p : MapSlot)
    (hp : p ≠ .block (numDirect + i)) : mapSector d (ind.setWord i x) ip leaf p = mapSector d ind ip leaf p := by
  cases p with
  | block b =>
    have hb : b ≠ numDirect + i := fun h => hp (h ▸ rfl)
    simp only [mapSector]
    split
    · rfl
    · rw [Contents.word_setWord_ne _ _ _ _ (by omega)]
  | _ => rfl

/-- An entry of the first index block of the doubly indirect block is the sector of its own place only. -/
theorem mapSector_setWord_leaf (s : Contents) (ip : Nat) (ind : Contents) (i x : Nat) (p : MapSlot)
    (hp : p ≠ .block (numDirect + numBlocksInIndirect + i)) :
    mapSector d s ip (ind.setWord i x) p = mapSector d s ip ind p := by
  cases p with
  | block b =>
    have hb : b ≠ numDirect + numBlocksInIndirect + i := fun h => hp (h ▸ rfl)
    simp only [mapSector]
    split
    · rfl
    · split
      · rfl
      · rw [Contents.word_setWord_ne _ _ _ _ (by omega)]
  | _ => rfl

/-- Once the singly indirect block has been read, its bytes say where the blocks under it are. -/
theorem read_singly (hX : ∀ b, ¬X (.block b)) (h : Grow w0 n0 E (Places n0 X numDirect) (mapSector w.data s ip leaf) w) :
    Grow w0 n0 E (Places n0 X numDirect) (mapSector w.data w.singlyBlock ip leaf) w := by
  refine h.congr (fun _ => Iff.rfl) fun p hp => ?_
  cases p with
  | block b =>
    simp only [mapSector]
    split
    · rfl
    split
    · rcases hp with hp | hp | hp
      · have := h.sector_eq hp
        simpa [sector, *] using this
      · exact absurd hp (hX b)
      · exact absurd hp (by simp only [Below]; omega)
    · rfl
  | _ => rfl

/-- The part for the singly indirect block, with `m` sectors to come. -/
theorem safe_allocateSingly (hs : GrowStart w0 n0 E) {w : BlockWorld}
    (h : Grow w0 n0 E (Places n0 (fun _ => False) numDirect) (mapSector w.data s ip leaf) w) :
    GrowSafe mayFail E n0 (allocateSingly m numDirect)
      (fun ok w' => if ok then
          Grow w0 n0 E (Places n0 (· = .singly) (numDirect + min numBlocksInIndirect m))
            (mapSector w'.data w'.singlyBlock ip leaf) w'
        else GrowFailed mayFail w0 n0 E w') w := by
  have hX : ∀ b, ¬(block b = .singly) := fun b hb => by cases hb
  refine Safe.bind (Others.refl E) (Safe.imp (safe_allocateIndex hs setSinglyIndirectPtr .singly
    (by decide) ?_ ?_ ?_ ?_ ?_ ?_ ?_ h) ?_)
  · exact fun hk => safe_setSingly hk
  · exact fun d x => length_setSinglyIndirectPtr d x
  · intro hn w x
    refine stable_of_eq (fun b _ hb => directPtr_setSinglyIndirectPtr _ _ hb) (fun h => ?_) (fun h => ?_) <;> omega
  · exact fun d x p hp => mapSector_setSinglyIndirectPtr d s ip leaf x p hp
  · exact fun d x hx => singlyIndirectPtr_setSinglyIndirectPtr d hx
  · exact fun hn => hn
  · rintro hn (hp | hp | hp)
    · exact absurd hp (by simp only [InUse]; omega)
    · exact hp
    · exact hp
  rintro (_ | _) w1 h1
  · exact safe_pure fun w2 ho2 => GrowFailed.others h1 ho2
  obtain ⟨h1, -, -⟩ := h1
  replace h1 := h1.congr (V := Places n0 (· = .singly) numDirect) (fun p => by unfold Places; simp) (fun _ _ => rfl)
  have hsing : ∀ k, Places n0 (· = .singly) k .singly := fun k => .inr (.inl rfl)
  refine safe_data (GrowOnly.refl E n0) fun w2 ho2 => ?_
  have h2 := h1.others ho2
  rw [← ho2.1] at h2
  refine safe_read (GrowOnly.refl E n0) fun w3 ho3 => ?_
  have h3 := h2.others ho3
  rw [← ho3.1] at h3 ⊢
  refine ⟨h3.inside .singly (hsing _), ?_⟩
  refine Safe.bind (Others.refl E) (Safe.imp (safe_allocateEntries hs (F := fun ind => mapSector w3.data ind ip leaf)
    numDirect hX ?_ ?_ (by decide) _ 0 (by omega) _ (h3.read_singly hX)) ?_)
  · intro ind i hi
    simp [hi]
  · exact fun ind i x p _ hp => mapSector_setWord_singly w3.data ip leaf ind i x p hp
  rintro (_ | ind') w4 h4
  · exact safe_pure fun w5 ho5 => by simpa using GrowFailed.others h4 ho5
  obtain ⟨h4, hdata4, hdisk4, hent4⟩ := h4
  refine safe_data (GrowOnly.refl E n0) fun w5 ho5 => ?_
  refine safe_write fun w6 ho6 => ?_
  have h6 := (h4.others ho5).others ho6
  have hdata6 : w6.data = w3.data := ho6.1.trans (ho5.1.trans hdata4)
  have hE : ¬E w3.data.singlyIndirectPtr := h6.apart .singly (hsing _) rfl
  have hblock6 : w6.singlyBlock = w3.singlyBlock := by
    unfold singlyBlock
    rw [hdata6, ho6.2.2.2 _ hE, ho5.2.2.2 _ hE, hdisk4 _ hE]
  have hst : Stable n0 w6 (w6.put (mapSector w3.data ind' ip leaf .singly) ind') :=
    h6.stable_put (hsing _) (fun _ i hi => by rw [hblock6]; exact hent4 i hi) (by simp) (by simp)
  rw [ho5.1, hdata4]
  refine ⟨h6.inside .singly (hsing _), h6.growOnly_put (hsing _) rfl hst, safe_pure fun w7 ho7 => ?_⟩
  have h7 := (h6.put (hsing _) rfl hst).others ho7
  have hdata7 : w7.data = w3.data := ho7.1.trans hdata6
  have hblock7 : w7.singlyBlock = ind' := by
    unfold singlyBlock
    rw [hdata7, ho7.2.2.2 _ hE]
    exact if_pos rfl
  rw [hdata7, hblock7]
  simpa using h7

/-- Once the first index block of the doubly indirect block has been read, its bytes say where the blocks under it are. -/
theorem read_leaf (hX : ∀ b, ¬X (.block b))
    (h : Grow w0 n0 E (Places n0 X (numDirect + numBlocksInIndirect)) (mapSector w.data s ip leaf) w) :
    Grow w0 n0 E (Places n0 X (numDirect + numBlocksInIndirect)) (mapSector w.data s ip (w.dev.disk ip)) w := by
  refine h.congr (fun _ => Iff.rfl) fun p hp => ?_
  cases p with
  | block b =>
    simp only [mapSector]
    split
    · rfl
    split
    · rfl
    rcases hp with hp | hp | hp
    · have hleaf : w.leafPtr = ip := h.sector_eq (p := .leaf) (by simp only [InUse] at hp ⊢; omega)
      have := h.sector_eq hp
      simpa [sector, leafBlock, hleaf, *] using this
    · exact absurd hp (hX b)
    · exact absurd hp (by simp only [Below]; omega)
  | _ => rfl

section

variable (hs : GrowStart w0 n0 E)
include hs

section

variable {dbl : Contents} {w : BlockWorld}
  (h : Grow w0 n0 E (Places n0 (fun p => p = .singly ∨ p = .doubly) (numDirect + numBlocksInIndirect))
    (mapSector w.data s ip leaf) w)
  (hdbl : numDirect + numBlocksInIndirect < n0 → dbl.word 0 = ip)
include h hdbl

/-- The first entry of the doubly indirect block. -/
theorem safe_allocateIndirectEntry :
    GrowSafe mayFail E n0 (allocateIndirectEntry 0 (numDirect + numBlocksInIndirect) dbl)
      (fun r w' => match r with
        | some dbl' =>
          Grow w0 n0 E (Places n0 (·.isIndex = true) (numDirect + numBlocksInIndirect))
            (mapSector w.data s (dbl'.word 0) leaf) w' ∧ w'.data = w.data ∧ ∀ x, ¬E x → w'.dev.disk x = w.dev.disk x
        | none => GrowFailed mayFail w0 n0 E w') w := by
  refine safe_take hs h (by decide) (fun w1 hf => safe_pure fun _ ho => hf.others ho) (fun hn w1 x ho1 h1 hx hfree => ?_)
    (fun hn w1 ho1 h1 => ?_)
  · have hword : (dbl.setWord 0 x).word 0 = x := by
      rw [Contents.word_setWord_self _ _ _ (by omega), Nat.mod_eq_of_lt (h1.lt_word hs hx)]
    have hins := h1.insert hs .leaf (mapSector w.data s x leaf)
      (by
        rintro (hp | (hp | hp) | hp)
        · exact absurd hp (by simp only [InUse]; omega)
        · cases hp
        · cases hp
        · exact hp)
      hx hfree
      (fun p hp => by
        cases p with
        | leaf => exact absurd rfl hp
        | _ => rfl)
      rfl
    refine safe_pure fun w2 ho2 => ⟨(hins.others ho2).congr (fun p => ?_) (fun p _ => by rw [hword]), ?_, fun y hy => ?_⟩
    · cases p <;> simp [isIndex]
    · exact ho2.1.trans ho1.1
    · exact (ho2.2.2.2 y hy).trans (ho1.2.2.2 y hy)
  · refine safe_pure fun w2 ho2 => ⟨(h1.others ho2).congr (fun p => ?_) (fun p _ => by rw [hdbl hn]), ?_, fun y hy => ?_⟩
    · have hleaf : InUse n0 .leaf := hn
      cases p <;> simp [isIndex, hleaf]
    · exact ho2.1.trans ho1.1
    · exact (ho2.2.2.2 y hy).trans (ho1.2.2.2 y hy)

/-- The loop over the doubly indirect block, for the one entry that the code's count comes to. -/
theorem safe_allocateIndirects (hm : m ≤ numBlocksInIndirect) (hsb : w.singlyBlock = s) :
    GrowSafe mayFail E n0 (allocateIndirects 1 0 m (numDirect + numBlocksInIndirect) dbl)
      (fun r w' => match r with
        | some dbl' => ∃ leaf',
          Grow w0 n0 E (Places n0 (·.isIndex = true) (numDirect + numBlocksInIndirect + m))
            (mapSector w.data s (dbl'.word 0) leaf') w' ∧ w'.data = w.data ∧ w'.singlyBlock = s ∧
            w'.dev.disk (dbl'.word 0) = leaf'
        | none => GrowFailed mayFail w0 n0 E w') w := by
  have hX : ∀ b, ¬(block b).isIndex = true := fun b hb => by cases hb
  have hidx : ∀ k p, p.isIndex = true → Places n0 (·.isIndex = true) k p := fun k p hp => .inr (.inl hp)
  refine Safe.bind (Others.refl E) (Safe.imp (safe_allocateIndirectEntry hs h hdbl) ?_)
  rintro (_ | dbl') w1 h1
  · exact safe_pure fun w2 ho2 => GrowFailed.others h1 ho2
  obtain ⟨h1, hdata1, hdisk1⟩ := h1
  refine safe_read (GrowOnly.refl E n0) fun w2 ho2 => ⟨(h1.others ho2).inside .leaf (hidx _ _ rfl), ?_⟩
  have hdata2 : w2.data = w.data := ho2.1.trans hdata1
  have h2 := h1.others ho2
  rw [← hdata2] at h2
  replace h2 := h2.read_leaf hX
  refine Safe.bind (Others.refl E) (Safe.imp (safe_allocateEntries hs
    (numDirect + numBlocksInIndirect) hX ?_ ?_ (by decide) _ 0 (by omega) _ h2) ?_)
  · intro ind i _
    simp only [mapSector]
    rw [if_neg (by omega), if_neg (by omega), Nat.add_sub_cancel_left]
  · exact fun ind i x p _ hp => mapSector_setWord_leaf w2.data s (dbl'.word 0) ind i x p hp
  rintro (_ | leaf') w3 h3
  · exact safe_pure fun w4 ho4 => GrowFailed.others h3 ho4
  obtain ⟨h3, hdata3, hdisk3, hent3⟩ := h3
  refine safe_write fun w4 ho4 => ?_
  have h4 := h3.others ho4
  have hE : ¬E (dbl'.word 0) := h4.apart .leaf (hidx _ _ rfl) rfl
  have hst : Stable n0 w4 (w4.put (mapSector w2.data s (dbl'.word 0) leaf' .leaf) leaf') := by
    refine h4.stable_put (hidx _ _ rfl) nofun nofun (fun _ i hi => ?_)
    have hleaf : w4.leafPtr = dbl'.word 0 := h4.sector_eq (p := .leaf) (by simp only [InUse]; omega)
    rw [hent3 i hi]
    unfold leafBlock
    rw [hleaf, ho4.2.2.2 _ hE, hdisk3 _ hE]
  refine ⟨h4.inside .leaf (hidx _ _ rfl), h4.growOnly_put (p := .leaf) (hidx _ _ rfl) rfl hst, ?_⟩
  refine safe_pure fun w5 ho5 => ⟨leaf', ?_, ?_, ?_, ?_⟩
  · have := (h4.put (hidx _ _ rfl) rfl hst).others ho5
    rw [hdata2] at this
    simpa [Nat.min_eq_right hm] using this
  · exact ho5.1.trans (ho4.1.trans (hdata3.trans hdata2))
  · -- The singly indirect block is another sector than the one written.
    have hsp : ¬E w.data.singlyIndirectPtr := h.apart .singly (.inr (.inl (.inl rfl))) rfl
    have hne : w.data.singlyIndirectPtr ≠ dbl'.word 0 := fun he => by
      have := h4.inj .singly .leaf (hidx _ _ rfl) (hidx _ _ rfl) (by simpa [hdata2] using he)
      cases this
    unfold singlyBlock at hsb ⊢
    rw [ho5.1, show (w4.put (dbl'.word 0) leaf').data = w4.data from rfl, ho4.1, hdata3, hdata2, ho5.2.2.2 _ hsp]
    simp only [BlockWorld.put, if_neg hne]
    rw [ho4.2.2.2 _ hsp, hdisk3 _ hsp, ho2.2.2.2 _ hsp, hdisk1 _ hsp]
    exact hsb
  · rw [ho5.2.2.2 _ hE]
    exact if_pos rfl

end

/-- The part for the doubly indirect block, with `m` sectors to come, no more than one index block holds. -/
theorem safe_allocateDoubly (hm0 : 0 < m) (hm : m ≤ numBlocksInIndirect) {w : BlockWorld}
    (h : Grow w0 n0 E (Places n0 (· = .singly) (numDirect + numBlocksInIndirect)) (mapSector w.data w.singlyBlock ip leaf) w) :
    GrowSafe mayFail E n0 (allocateDoubly m (numDirect + numBlocksInIndirect))
      (fun ok w' => if ok then
          Grow w0 n0 E (Places n0 (·.isIndex = true) (numDirect + numBlocksInIndirect + m)) w'.sector w'
        else GrowFailed mayFail w0 n0 E w') w := by
  have hidx : ∀ k p, p.isIndex = true → Places n0 (·.isIndex = true) k p := fun k p hp => .inr (.inl hp)
  have hsp : ¬E w.data.singlyIndirectPtr := h.apart .singly (.inr (.inl rfl)) rfl
  refine Safe.bind (Others.refl E) (Safe.imp (safe_allocateIndex hs setDoublyIndirectPtr .doubly
    (by decide) ?_ ?_ ?_ ?_ ?_ ?_ ?_ h) ?_)
  · exact fun hk => safe_setDoubly hk
  · exact fun d x => length_setDoublyIndirectPtr d x
  · intro hn w x
    refine stable_of_eq (fun b _ hb => directPtr_setDoublyIndirectPtr _ _ hb) (fun h => ⟨by simp, fun i _ _ => ?_⟩)
      (fun h => by omega)
    simp [singlyBlock]
  · exact fun d x p hp => mapSector_setDoublyIndirectPtr d _ ip leaf x p hp
  · exact fun d x hx => doublyIndirectPtr_setDoublyIndirectPtr d hx
  · exact fun hn => hn
  · rintro hn (hp | hp | hp)
    · exact absurd hp (by simp only [InUse]; omega)
    · cases hp
    · exact hp
  rintro (_ | _) w1 h1
  · exact safe_pure fun w2 ho2 => GrowFailed.others h1 ho2
  obtain ⟨h1, hdata1, hdisk1⟩ := h1
  have hsptr1 : w1.data.singlyIndirectPtr = w.data.singlyIndirectPtr := by
    rcases hdata1 with hd | ⟨x, hd⟩ <;> simp [hd]
  have hsb1 : w1.singlyBlock = w.singlyBlock := by
    unfold singlyBlock
    rw [hsptr1, hdisk1 _ hsp]
  refine safe_data (GrowOnly.refl E n0) fun w2 ho2 => ?_
  refine safe_read (GrowOnly.refl E n0) fun w3 ho3 => ?_
  have h3 := (h1.others ho2).others ho3
  have hdata3 : w3.data = w1.data := ho3.1.trans ho2.1
  rw [← hdata3] at h3
  rw [show w2.data = w3.data from ho3.1.symm]
  refine ⟨h3.inside .doubly (.inr (.inl (.inr rfl))), ?_⟩
  have hsb3 : w3.singlyBlock = w.singlyBlock := by
    rw [← hsptr1] at hsp
    rw [← hsb1]
    unfold singlyBlock
    rw [hdata3, ho3.2.2.2 _ hsp, ho2.2.2.2 _ hsp]
  -- With at most one index block to come, the count rounded up by 512 is one as well.
  have hcount : (m + (blockSectorSize - 1)) % 2 ^ 32 / blockSectorSize = 1 := by
    simp only [numBlocksInIndirect, blockSectorSize] at hm ⊢
    omega
  simp only [hcount]
  refine Safe.bind (Others.refl E) (Safe.imp (safe_allocateIndirects hs h3 (fun hn => ?_) hm hsb3) ?_)
  · exact h3.sector_eq (p := .leaf) hn
  rintro (_ | dbl') w4 h4
  · exact safe_pure fun w5 ho5 => by simpa using GrowFailed.others h4 ho5
  obtain ⟨leaf', h4, hdata4, hsb4, hleaf4⟩ := h4
  refine safe_data (GrowOnly.refl E n0) fun w5 ho5 => ?_
  refine safe_write fun w6 ho6 => ?_
  have h6 := (h4.others ho5).others ho6
  have hdata6 : w6.data = w3.data := ho6.1.trans (ho5.1.trans hdata4)
  have hst : Stable n0 w6 (w6.put (mapSector w3.data w.singlyBlock (dbl'.word 0) leaf' .doubly) dbl') :=
    h6.stable_put (hidx _ _ rfl) (by simp) (fun _ hn => (h6.sector_eq (p := .leaf) hn).symm)
      (by simp)
  rw [show w5.data = w3.data from ho5.1.trans hdata4]
  refine ⟨h6.inside .doubly (hidx _ _ rfl), h6.growOnly_put (p := .doubly) (hidx _ _ rfl) rfl hst,
    safe_pure fun w7 ho7 => ?_⟩
  have h7 := (h6.put (hidx _ _ rfl) rfl hst).others ho7
  have hdata7 : w7.data = w3.data := ho7.1.trans hdata6
  -- The three index blocks as they are now on the device.
  have hEd : ¬E w3.data.doublyIndirectPtr := h6.apart .doubly (hidx _ _ rfl) rfl
  have hEs : ¬E w3.data.singlyIndirectPtr := h6.apart .singly (hidx _ _ rfl) rfl
  have hEl : ¬E (dbl'.word 0) := h6.apart .leaf (hidx _ _ rfl) rfl
  have hsd : w3.data.singlyIndirectPtr ≠ w3.data.doublyIndirectPtr := fun he => by
    cases h6.inj .singly .doubly (hidx _ _ rfl) (hidx _ _ rfl) he
  have hld : dbl'.word 0 ≠ w3.data.doublyIndirectPtr := fun he => by
    cases h6.inj .leaf .doubly (hidx _ _ rfl) (hidx _ _ rfl) he
  have hdisk : ∀ x, ¬E x → x ≠ w3.data.doublyIndirectPtr → w7.dev.disk x = w4.dev.disk x := fun x hx hne => by
    rw [ho7.2.2.2 x hx]
    simp only [BlockWorld.put, if_neg hne]
    rw [ho6.2.2.2 x hx, ho5.2.2.2 x hx]
  have hs7 : w7.singlyBlock = w.singlyBlock := by
    rw [← hsb4]
    unfold singlyBlock
    rw [hdata7, hdata4, hdisk _ hEs hsd]
  have hp7 : w7.leafPtr = dbl'.word 0 := by
    unfold leafPtr
    rw [hdata7, ho7.2.2.2 _ hEd]
    simp [BlockWorld.put]
  have hl7 : w7.leafBlock = leaf' := by
    unfold leafBlock
    rw [hp7, hdisk _ hEl hld, hleaf4]
  refine h7.congr (fun _ => Iff.rfl) (fun p _ => ?_)
  unfold sector
  rw [hdata7, hs7, hp7, hl7]

/-- `allocate_file` between its two critical sections, for a length whose blocks the map can hold. When it succeeds, the map
is right for the new number of blocks, with the old ones where they were and new sectors for the others. When it fails, it
may have marked sectors that it does not use. -/
theorem safe_allocateBlocks {length : Int} (hn : n0 ≤ bytesToSectors length) (hlim : bytesToSectors length ≤ mapLimit) :
    GrowSafe mayFail E n0 (allocateBlocks length)
      (fun ok w' => if ok then Grow w0 n0 E (InUse (bytesToSectors length)) w'.sector w'
        else GrowFailed mayFail w0 n0 E w') w0 := by
  obtain ⟨n, hN⟩ : ∃ n, bytesToSectors length = n := ⟨_, rfl⟩
  unfold allocateBlocks
  simp only [hN]
  have h0 : Grow w0 n0 E (Places n0 (fun _ => False) 0) (mapSector w0.data w0.singlyBlock w0.leafPtr w0.leafBlock) w0 :=
    (start hs).congr (fun p => by cases p <;> simp) (fun _ _ => rfl)
  refine Safe.bind (Others.refl E) (Safe.imp (safe_allocateDirect hs (min numDirect n) 0 (by omega) h0) ?_)
  rintro (_ | _) w1 h1
  · exact safe_pure fun w2 ho2 => GrowFailed.others h1 ho2
  simp only [if_true, Nat.zero_add] at h1 ⊢
  by_cases hd : n ≤ numDirect
  · rw [Nat.min_eq_right hd, if_neg (by omega)]
    rw [Nat.min_eq_right hd] at h1
    have hplaces : ∀ p, Places n0 (fun _ => False) n p ↔ InUse n p := fun p => by
      cases p <;> simp [InUse] <;> omega
    refine safe_pure fun w2 ho2 => (h1.others ho2).congr hplaces (fun p hp => ?_)
    have hp' := (hplaces p).mp hp
    cases p with
    | block b =>
      have hb : b < numDirect := by simp only [InUse] at hp'; omega
      simp only [sector, mapSector, if_pos hb, ho2.1]
    | _ => exact absurd hp' (by simp only [InUse]; omega)
  · rw [Nat.min_eq_left (by omega)] at h1 ⊢
    rw [if_pos (by omega)]
    refine Safe.bind (Others.refl E) (Safe.imp (safe_allocateSingly hs h1) ?_)
    rintro (_ | _) w2 h2
    · exact safe_pure fun w3 ho3 => GrowFailed.others h2 ho3
    simp only [if_true] at h2 ⊢
    by_cases hi : n ≤ numDirect + numBlocksInIndirect
    · rw [Nat.min_eq_right (by omega)] at h2 ⊢
      rw [if_neg (by omega)]
      have hplaces : ∀ p, Places n0 (· = .singly) (numDirect + (n - numDirect)) p ↔ InUse n p := fun p => by
        cases p <;> simp [InUse] <;> omega
      refine safe_pure fun w3 ho3 => (h2.others ho3).congr hplaces (fun p hp => ?_)
      have hp' := (hplaces p).mp hp
      have hsb : w3.singlyBlock = w2.singlyBlock := by
        unfold singlyBlock
        rw [ho3.1]
        exact ho3.2.2.2 _ (h2.apart .singly (.inr (.inl rfl)) rfl)
      cases p with
      | block b =>
        have hb : b < numDirect + numBlocksInIndirect := by simp only [InUse] at hp'; omega
        simp only [sector, mapSector, if_pos hb, ho3.1, hsb]
      | singly => simp only [sector, mapSector, ho3.1]
      | _ => exact absurd hp' (by simp only [InUse]; omega)
    · rw [Nat.min_eq_left (by omega)] at h2 ⊢
      rw [if_pos (by omega)]
      refine Safe.imp (safe_allocateDoubly hs (by omega) (by unfold mapLimit at hlim; omega) h2) ?_
      rintro (_ | _) w3 h3
      · exact h3
      · refine h3.congr (fun p => ?_) (fun _ _ => rfl)
        cases p <;> simp [InUse, isIndex] <;> omega

end

end Grow

end Pintos
