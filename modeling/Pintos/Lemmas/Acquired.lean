import Pintos.Lemmas.Deallocate
import Pintos.Lemmas.GrowRuns

/-!
# The sectors that the creation of a file takes

`inode_create` runs `allocate_file` on a file of no bytes, so that every block is a hole and every step takes a new sector.
What has been taken is kept here as a list. The list makes sense for every length that the on-disk format has room for: the
pointers that `allocate_file` writes are those that `deallocate_file` goes through.
-/

namespace Pintos

open Program BlockM Prog InodeDisk Safe Others List

/-- Growth from nothing, from the world `w0` on: the sectors `T` have been taken, and nothing else. -/
structure Acquired (w0 : BlockWorld) (E : Nat → Prop) (T : List Nat) (w : BlockWorld) : Prop where
  numbered : w0.dev.size ≤ invalidSector
  others : ∀ x, E x → w0.used x = true
  nodup : T.Nodup
  fresh : ∀ x ∈ T, x < w0.dev.size ∧ w0.used x = false
  used : ∀ x, w.used x = true ↔ w0.used x = true ∨ x ∈ T
  length : w.data.length = 0
  size : w.dev.size = w0.dev.size

/-- The sectors that are none of `T` and none of `E` hold what they held. -/
def KeepsDisk (E : Nat → Prop) (T : List Nat) (w w' : BlockWorld) : Prop := ∀ x, ¬E x → x ∉ T → w'.dev.disk x = w.dev.disk x

theorem Others.keepsDisk {E : Nat → Prop} {w w' : BlockWorld} (h : Others E w w') : KeepsDisk E [] w w' :=
  fun x hx _ => h.2.2.2 x hx

theorem KeepsDisk.trans {E : Nat → Prop} {T T' : List Nat} {w w' w'' : BlockWorld} (h1 : KeepsDisk E T w w')
    (h2 : KeepsDisk E T' w' w'') : KeepsDisk E (T ++ T') w w'' :=
  fun x hx hT => (h2 x hx fun h => hT (mem_append_right _ h)).trans (h1 x hx fun h => hT (mem_append_left _ h))

namespace Acquired

variable {mayFail : (Nat → Bool) → Prop} {w0 w w' : BlockWorld} {E : Nat → Prop} {T : List Nat} {x : Nat} {α : Type}
  {Q : α → BlockWorld → Prop}

section

variable (h : Acquired w0 E T w)
include h

/-- A taken sector is none of those that others write to. -/
theorem apart (hx : x ∈ T) : ¬E x := by
  intro hE
  have := h.others x hE
  rw [(h.fresh x hx).2] at this
  exact Bool.false_ne_true this

theorem lt_word (hx : x ∈ T) : x < 2 ^ 32 := by
  have hlt := (h.fresh x hx).1
  have hnum := h.numbered
  unfold invalidSector at hnum
  omega

theorem inside (hx : x ∈ T) : x < w.dev.size := by
  rw [h.size]
  exact (h.fresh x hx).1

theorem of_others (ho : Others E w w') : Acquired w0 E T w' :=
  { h with
    used x := by rw [ho.2.1, h.used]
    length := by rw [ho.1, h.length]
    size := ho.2.2.1.trans h.size }

theorem mark (hx : x < w.dev.size) (hfree : w.used x = false) : Acquired w0 E (T ++ [x]) (w.mark x) := by
  have hnot : ¬(w0.used x = true ∨ x ∈ T) := by
    rw [← h.used, hfree]
    exact Bool.false_ne_true
  have hfresh : w0.used x = false := Bool.eq_false_iff.mpr fun hu => hnot (.inl hu)
  refine { h with nodup := ?_, fresh := ?_, used := ?_ }
  · exact nodup_append'.mpr ⟨h.nodup, nodup_singleton x, disjoint_singleton.mpr fun hT => hnot (.inr hT)⟩
  · exact forall_mem_append.mpr ⟨h.fresh, forall_mem_singleton.mpr ⟨h.size ▸ hx, hfresh⟩⟩
  · intro y
    rw [mem_append, mem_singleton, ← or_assoc, ← h.used y]
    by_cases hy : y = x <;> simp [BlockWorld.mark, hy]

/-- The pointers of the inode are no part of the account, as long as its length stays. -/
theorem setData {d : InodeDisk} (hd : d.length = w.data.length) : Acquired w0 E T { w with data := d } :=
  { h with length := hd.trans h.length }

/-- Nor are the bytes of sectors. -/
theorem put (x : Nat) (c : Contents) : Acquired w0 E T (w.put x c) :=
  { h with }

end

/-- Any change of the pointers is within what `allocate_file` may do to a file of no blocks. -/
theorem growOnly_setData (w : BlockWorld) {d : InodeDisk} (hd : d.length = w.data.length) : GrowOnly E 0 w { w with data := d } :=
  ⟨hd, rfl, fun p hp => by cases p <;> simp [MapSlot.InUse] at hp, fun _ hu => hu, fun _ _ => rfl⟩

section

variable (h : Acquired w0 E T w)
include h

/-- So is a write to a taken sector. -/
theorem growOnly_put (hx : x ∈ T) (c : Contents) : GrowOnly E 0 w (w.put x c) := by
  refine ⟨rfl, rfl, fun p hp => by cases p <;> simp [MapSlot.InUse] at hp, fun _ hu => hu, fun y hy => ?_⟩
  have hne : y ≠ x := by
    rintro rfl
    exact h.apart hx hy
  simp only [BlockWorld.put, if_neg hne]

/-- Every block of the file is a hole, so that each step of the loops asks for a sector. -/
theorem safe_take {b : Nat} (hb : b ≤ formatBlocks) {f : Option Nat → BlockM α} {g : BlockM α}
    (hnone : ∀ w', Acquired w0 E T w' → GrowSafe mayFail E 0 (f none) Q w')
    (hsome : ∀ x w', Acquired w0 E (T ++ [x]) w' → w'.data = w.data → KeepsDisk E [] w w' →
    GrowSafe mayFail E 0 (f (some x)) Q w') :
    GrowSafe mayFail E 0 (isHole b >>= fun hole => if hole = true then allocate >>= f else g) Q w := by
  have hpos : toInt32 ((b : Int) * (blockSectorSize : Int)) = (b : Int) * 512 := by
    rw [toInt32_of_fits] <;> simp only [formatBlocks, numDirect, numBlocksInIndirect, blockSectorSize] at hb ⊢ <;> omega
  unfold isHole
  rw [bind_assoc, hpos]
  refine safe_byteToSector_hole (GrowOnly.refl E 0) (fun w1 ho1 => ?_) (fun w1 ho1 => ?_)
  · rw [ho1.1, h.length]
    omega
  have h1 := h.of_others ho1
  refine safe_allocate (GrowOnly.refl E 0) fun w2 ho2 => ⟨fun _ => ?_, fun x hx hfree => ⟨Grow.growOnly_mark w2 x, ?_⟩⟩
  · exact hnone w2 (h1.of_others ho2)
  · refine hsome x _ ((h1.of_others ho2).mark hx hfree) (ho2.1.trans ho1.1) (fun y hy _ => ?_)
    exact (ho2.2.2.2 y hy).trans (ho1.2.2.2 y hy)

theorem safe_data {k : InodeDisk → BlockM α}
    (hk : ∀ w', Acquired w0 E T w' → w'.data = w.data → KeepsDisk E [] w w' → GrowSafe mayFail E 0 (k w.data) Q w') :
    GrowSafe mayFail E 0 (data >>= k) Q w :=
  BlockM.safe_data (GrowOnly.refl E 0) fun w' ho => by
    rw [ho.1]
    exact hk w' (h.of_others ho) ho.1 ho.keepsDisk

/-- A taken sector is read. Its bytes do not matter. -/
theorem safe_read (hx : x ∈ T) {k : Contents → BlockM α}
    (hk : ∀ c w', Acquired w0 E T w' → w'.data = w.data → KeepsDisk E [] w w' → GrowSafe mayFail E 0 (k c) Q w') :
    GrowSafe mayFail E 0 (BlockM.read x >>= k) Q w :=
  BlockM.safe_read (GrowOnly.refl E 0) fun w' ho =>
    ⟨(h.of_others ho).inside hx, hk _ w' (h.of_others ho) ho.1 ho.keepsDisk⟩

/-- A taken sector is written, and the others leave it alone. -/
theorem safe_write (hx : x ∈ T) {c : Contents} {k : Unit → BlockM α}
    (hk : ∀ w', Acquired w0 E T w' → w'.data = w.data → w'.dev.disk x = c → KeepsDisk E [x] w w' →
    GrowSafe mayFail E 0 (k ()) Q w') : GrowSafe mayFail E 0 (write x c >>= k) Q w := by
  refine BlockM.safe_write fun w' ho => ⟨(h.of_others ho).inside hx, (h.of_others ho).growOnly_put hx c, ?_⟩
  refine hk _ ((h.of_others ho).put x c) ho.1 (if_pos rfl) (fun y hy hyx => ?_)
  have hne : y ≠ x := fun he => hyx (by simp [he])
  exact (if_neg hne).trans (ho.2.2.2 y hy)

end

/-! ### The loops of `allocate_file` -/

/-- The loop over the direct pointers: they name the sectors that it takes. -/
theorem safe_allocateDirect (todo count : Nat) (hc : count + todo ≤ numDirect) (h : Acquired w0 E T w) :
    GrowSafe mayFail E 0 (allocateDirect todo count)
      (fun ok w' => ok = true → Acquired w0 E (T ++ (range' count todo).map w'.data.directPtr) w' ∧
        ∀ k < count, w'.data.directPtr k = w.data.directPtr k) w := by
  induction todo generalizing count T w with
  | zero => exact safe_pure fun w' ho _ => ⟨by simpa using h.of_others ho, fun k _ => by rw [ho.1]⟩
  | succ todo ih =>
    refine h.safe_take (by unfold formatBlocks; omega) (fun w1 _ => safe_pure fun _ _ => nofun) (fun x w1 h1 hdata _ => ?_)
    have hx : x < 2 ^ 32 := h1.lt_word (by simp)
    refine safe_setDirect fun w2 ho2 => ⟨growOnly_setData w2 (by simp), ?_⟩
    refine imp (ih (count + 1) (by omega) ((h1.of_others ho2).setData (by simp))) (fun ok w3 h3 hok => ?_)
    obtain ⟨htaken, hkept⟩ := h3 hok
    have hptr : w3.data.directPtr count = x := by
      rw [hkept count (by omega)]
      exact directPtr_setDirectPtr _ (by omega) hx
    refine ⟨?_, fun k hk => ?_⟩
    · rw [range'_succ, map_cons, hptr]
      simpa using htaken
    · rw [hkept k (by omega)]
      rw [directPtr_setDirectPtr_ne _ _ (by omega), ho2.1, hdata]

/-- The loop over the entries of an index block: they name the sectors that it takes. -/
theorem safe_allocateEntries (todo count : Nat) (hc : count + todo ≤ numBlocksInIndirect) {b : Nat} (hb : b + todo ≤ formatBlocks)
    (ind : Contents) (h : Acquired w0 E T w) :
    GrowSafe mayFail E 0 (allocateEntries todo count b ind)
      (fun r w' => ∀ ind', r = some ind' → Acquired w0 E (T ++ (range' count todo).map ind'.word) w' ∧ w'.data = w.data ∧
        KeepsDisk E [] w w' ∧ ∀ k < count, ind'.word k = ind.word k) w := by
  induction todo generalizing count b ind T w with
  | zero =>
    refine safe_pure fun w' ho ind' hr => ?_
    cases hr
    exact ⟨by simpa using h.of_others ho, ho.1, fun x hx _ => ho.2.2.2 x hx, fun _ _ => rfl⟩
  | succ todo ih =>
    refine h.safe_take (by omega) (fun w1 _ => safe_pure fun _ _ => nofun) (fun x w1 h1 hdata hdisk => ?_)
    have hx : x < 2 ^ 32 := h1.lt_word (by simp)
    refine imp (ih (count + 1) (by omega) (by omega) (ind.setWord count x) h1) (fun r w2 h2 ind' hr => ?_)
    obtain ⟨htaken, hdata2, hdisk2, hkept⟩ := h2 ind' hr
    have hword : ind'.word count = x := by
      rw [hkept count (by omega), Contents.word_setWord_self _ _ _ (by unfold numBlocksInIndirect at hc; omega),
        Nat.mod_eq_of_lt hx]
    refine ⟨?_, hdata2.trans hdata, fun y hy hn => (hdisk2 y hy hn).trans (hdisk y hy hn), fun k hk => ?_⟩
    · rw [range'_succ, map_cons, hword]
      simpa using htaken
    · rw [hkept k (by omega), Contents.word_setWord_ne _ _ _ _ (by omega)]

/-- The pointer to an index block. `setPtr` is what storing it does to the inode. -/
theorem safe_allocateIndex {store : Nat → BlockM Unit} (setPtr : InodeDisk → Nat → InodeDisk)
    (hstore : ∀ {w : BlockWorld} {x : Nat} {Q : Bool → BlockWorld → Prop},
      (∀ w', Others E w w' → GrowOnly E 0 w' { w' with data := setPtr w'.data x } ∧
        GrowSafe mayFail E 0 (pure true) Q { w' with data := setPtr w'.data x }) →
      GrowSafe mayFail E 0 (store x >>= fun _ => pure true) Q w)
    (hlen : ∀ d x, (setPtr d x).length = d.length) {b : Nat} (hb : b ≤ formatBlocks) (h : Acquired w0 E T w) :
    GrowSafe mayFail E 0 (allocateIndex store b)
      (fun ok w' => ok = true → ∃ x, Acquired w0 E (T ++ [x]) w' ∧ w'.data = setPtr w.data x ∧ KeepsDisk E [] w w') w := by
  refine h.safe_take hb (fun w1 _ => safe_pure fun _ _ => nofun) (fun x w1 h1 hdata hdisk => ?_)
  refine hstore fun w2 ho2 => ⟨growOnly_setData w2 (hlen _ _), safe_pure fun w3 ho3 _ => ⟨x, ?_, ?_, fun y hy hn => ?_⟩⟩
  · exact ((h1.of_others ho2).setData (hlen _ _)).of_others ho3
  · rw [ho3.1, ← hdata, ← ho2.1]
  · exact (ho3.2.2.2 y hy).trans ((ho2.2.2.2 y hy).trans (hdisk y hy hn))

/-- The part for the singly indirect block, with `m` sectors to come. -/
theorem safe_allocateSingly {m b : Nat} (hb : b + min numBlocksInIndirect m ≤ formatBlocks) (h : Acquired w0 E T w) :
    GrowSafe mayFail E 0 (allocateSingly m b)
      (fun ok w' => ok = true → ∃ x, Acquired w0 E (T ++ [x] ++ entries (w'.dev.disk x) m) w' ∧
        w'.data = w.data.setSinglyIndirectPtr x ∧ KeepsDisk E [x] w w') w := by
  refine bind (refl E) (imp (h.safe_allocateIndex (fun d x => d.setSinglyIndirectPtr x)
    (fun hk => safe_setSingly hk) (by simp) (by omega)) ?_)
  rintro (_ | _) w1 hindex
  · exact safe_pure fun _ _ => nofun
  obtain ⟨x, h1, hdata1, hdisk1⟩ := hindex rfl
  have hptr : w1.data.singlyIndirectPtr = x := by
    rw [hdata1]
    exact singlyIndirectPtr_setSinglyIndirectPtr _ (h1.lt_word (by simp))
  refine h1.safe_data fun w2 h2 hdata2 hdisk2 => ?_
  rw [hptr]
  refine h2.safe_read (by simp) fun c w3 h3 hdata3 hdisk3 => ?_
  refine bind (refl E) (imp (h3.safe_allocateEntries _ 0 (by omega) hb c) ?_)
  rintro (_ | ind) w4 hentries
  · exact safe_pure fun _ _ => nofun
  obtain ⟨h4, hdata4, hdisk4, -⟩ := hentries ind rfl
  have hdata : w4.data = w1.data := hdata4.trans (hdata3.trans hdata2)
  refine h4.safe_data fun w5 h5 hdata5 hdisk5 => ?_
  rw [hdata, hptr]
  refine h5.safe_write (by simp) fun w6 h6 hdata6 hind hdisk6 => safe_pure fun w7 ho7 _ => ⟨x, ?_, ?_, ?_⟩
  · rw [ho7.2.2.2 x (h1.apart (by simp)), hind, entries, range_eq_range']
    exact h6.of_others ho7
  · rw [ho7.1, hdata6, hdata5, hdata, hdata1]
  · exact hdisk1.trans (hdisk2.trans (hdisk3.trans (hdisk4.trans (hdisk5.trans (hdisk6.trans ho7.keepsDisk)))))

/-- An entry of the doubly indirect block gets a taken sector. -/
theorem safe_allocateIndirectEntry {i b : Nat} (hi : i < numBlocksInIndirect) (hb : b ≤ formatBlocks) (dbl : Contents)
    (h : Acquired w0 E T w) :
    GrowSafe mayFail E 0 (allocateIndirectEntry i b dbl)
      (fun r w' => ∀ dbl', r = some dbl' → ∃ x, Acquired w0 E (T ++ [x]) w' ∧ dbl' = dbl.setWord i x ∧ w'.data = w.data ∧
      KeepsDisk E [] w w')
      w := by
  refine h.safe_take hb (fun w1 _ => safe_pure fun _ _ => nofun) (fun x w1 h1 hdata hdisk => ?_)
  simp only [if_pos hi]
  refine safe_pure fun w2 ho dbl' hr => ⟨x, h1.of_others ho, (Option.some.inj hr).symm, ho.1.trans hdata,
    hdisk.trans ho.keepsDisk⟩

/-- The loop over the entries of the doubly indirect block: the index blocks that it fills, in taken sectors themselves, name
the rest of what it takes. -/
theorem safe_allocateIndirects (todo i : Nat) (hi : i + todo ≤ numBlocksInIndirect) {m b : Nat} (hb : b + m ≤ formatBlocks)
    (dbl : Contents) (h : Acquired w0 E T w) :
    GrowSafe mayFail E 0 (allocateIndirects todo i m b dbl)
      (fun r w' => ∀ dbl', r = some dbl' → ∃ new, Acquired w0 E (T ++ new) w' ∧ new.Perm (leafSectors w'.dev dbl' todo i m) ∧
        w'.data = w.data ∧ KeepsDisk E new w w' ∧ ∀ k < i, dbl'.word k = dbl.word k) w := by
  induction todo generalizing i m b dbl T w with
  | zero =>
    refine safe_pure fun w' ho dbl' hr => ?_
    cases hr
    exact ⟨[], by simpa using h.of_others ho, .refl _, ho.1, ho.keepsDisk, fun _ _ => rfl⟩
  | succ todo ih =>
    have hlt : i < numBlocksInIndirect := by omega
    refine bind (refl E) (imp (h.safe_allocateIndirectEntry hlt (by omega) dbl) ?_)
    rintro (_ | dbl1) w1 hentry
    · exact safe_pure fun _ _ => nofun
    obtain ⟨x, h1, hdbl1, hdata1, hdisk1⟩ := hentry dbl1 rfl
    have hword : dbl1.word i = x := by
      rw [hdbl1, Contents.word_setWord_self _ _ _ (by unfold numBlocksInIndirect at hlt; omega),
        Nat.mod_eq_of_lt (h1.lt_word (by simp))]
    simp only [entry, if_pos hlt, pure_bind, hword]
    refine h1.safe_read (by simp) fun c w2 h2 hdata2 hdisk2 => ?_
    refine bind (refl E) (imp (h2.safe_allocateEntries _ 0 (by omega) (by omega) c) ?_)
    rintro (_ | ind) w3 hentries
    · exact safe_pure fun _ _ => nofun
    obtain ⟨h3, hdata3, hdisk3, -⟩ := hentries ind rfl
    refine h3.safe_write (by simp) fun w4 h4 hdata4 hind hdisk4 => ?_
    refine imp (ih (i + 1) (by omega) (by omega) dbl1 h4) (fun r w5 h5 dbl' hr => ?_)
    obtain ⟨new, htaken, hperm, hdata5, hdisk5, hkept⟩ := h5 dbl' hr
    -- the index block is not among the sectors taken later, so that it still holds what was written
    have hnew : x ∉ new := by
      intro hx
      have := (nodup_append.mp htaken.nodup).2.2 x (by simp) x hx
      exact this rfl
    have hword' : dbl'.word i = x := (hkept i (by omega)).trans hword
    have hleaf : w5.dev.disk x = ind := (hdisk5 x (h1.apart (by simp)) hnew).trans hind
    have hentries' : (range' 0 (min numBlocksInIndirect m)).map ind.word = entries ind m := by
      rw [entries, range_eq_range']
    rw [hentries'] at htaken
    refine ⟨x :: entries ind m ++ new, by simpa using htaken, ?_, ?_, ?_, fun k hk => ?_⟩
    · unfold leafSectors
      rw [hword', hleaf]
      refine .trans ?_ (perm_middle.symm)
      exact .cons x (.append_left _ hperm)
    · rw [hdata5, hdata4, hdata3, hdata2, hdata1]
    · intro y hy hnot
      exact (hdisk1.trans (hdisk2.trans (hdisk3.trans (hdisk4.trans hdisk5)))) y hy (fun h => hnot (by simp at h ⊢; tauto))
    · rw [hkept k (by omega), hdbl1, Contents.word_setWord_ne _ _ _ _ (by omega)]

/-- The part for the doubly indirect block, with `m` sectors to come. -/
theorem safe_allocateDoubly {m b : Nat} (hm : m ≤ numBlocksInIndirect * numBlocksInIndirect) (hb : b + m ≤ formatBlocks)
    (h : Acquired w0 E T w) :
    GrowSafe mayFail E 0 (allocateDoubly m b)
      (fun ok w' => ok = true → ∃ x new, Acquired w0 E (T ++ [x] ++ new) w' ∧
        new.Perm (leafSectors w'.dev (w'.dev.disk x) ((m + (blockSectorSize - 1)) % 2 ^ 32 / blockSectorSize) 0 m) ∧
        w'.data = w.data.setDoublyIndirectPtr x ∧ KeepsDisk E (x :: new) w w') w := by
  refine bind (refl E) (imp (h.safe_allocateIndex (fun d x => d.setDoublyIndirectPtr x)
    (fun hk => safe_setDoubly hk) (by simp) (by omega)) ?_)
  rintro (_ | _) w1 hindex
  · exact safe_pure fun _ _ => nofun
  obtain ⟨x, h1, hdata1, hdisk1⟩ := hindex rfl
  have hptr : w1.data.doublyIndirectPtr = x := by
    rw [hdata1]
    exact doublyIndirectPtr_setDoublyIndirectPtr _ (h1.lt_word (by simp))
  refine h1.safe_data fun w2 h2 hdata2 hdisk2 => ?_
  rw [hptr]
  refine h2.safe_read (by simp) fun c w3 h3 hdata3 hdisk3 => ?_
  have hcount : 0 + (m + (blockSectorSize - 1)) % 2 ^ 32 / blockSectorSize ≤ numBlocksInIndirect := by
    simp only [numBlocksInIndirect, blockSectorSize] at hm ⊢
    omega
  refine bind (refl E) (imp (h3.safe_allocateIndirects _ 0 hcount hb c) ?_)
  rintro (_ | dbl) w4 hindirects
  · exact safe_pure fun _ _ => nofun
  obtain ⟨new, h4, hperm, hdata4, hdisk4, -⟩ := hindirects dbl rfl
  have hdata : w4.data = w1.data := hdata4.trans (hdata3.trans hdata2)
  refine h4.safe_data fun w5 h5 hdata5 hdisk5 => ?_
  rw [hdata, hptr]
  refine h5.safe_write (by simp) fun w6 h6 hdata6 hdbl hdisk6 => safe_pure fun w7 ho7 _ => ⟨x, new, h6.of_others ho7, ?_, ?_, ?_⟩
  · -- the write of the doubly indirect block leaves the index blocks behind it alone
    have hsame : ∀ y ∈ leafSectors w4.dev dbl ((m + (blockSectorSize - 1)) % 2 ^ 32 / blockSectorSize) 0 m,
        w7.dev.disk y = w4.dev.disk y := by
      intro y hy
      have hy' : y ∈ new := hperm.mem_iff.mpr hy
      have hne : y ≠ x := by
        rintro rfl
        exact (nodup_append.mp h4.nodup).2.2 y (by simp) y hy' rfl
      exact (hdisk5.trans (hdisk6.trans ho7.keepsDisk)) y (h4.apart (by simp [hy'])) (by simpa using hne)
    rw [ho7.2.2.2 x (h1.apart (by simp)), hdbl, leafSectors_congr hsame]
    exact hperm
  · rw [ho7.1, hdata6, hdata5, hdata, hdata1]
  · intro y hy hnot
    exact (hdisk1.trans (hdisk2.trans (hdisk3.trans (hdisk4.trans (hdisk5.trans (hdisk6.trans ho7.keepsDisk)))))) y hy
      (fun h => hnot (by simp at h ⊢; tauto))

theorem start (hsize : w0.dev.size ≤ invalidSector) (hE : ∀ x, E x → w0.used x = true) (hlen : w0.data.length = 0) :
    Acquired w0 E [] w0 :=
  ⟨hsize, hE, .nil, nofun, fun x => by simp, hlen, rfl⟩

/-- `allocate_file` on a file of no bytes: what it takes are the sectors that the new map holds. -/
theorem safe_allocateBlocks (h : Acquired w0 E [] w) {length : Int} (hn : bytesToSectors length ≤ formatBlocks) :
    GrowSafe mayFail E 0 (allocateBlocks length)
      (fun ok w' => ok = true → ∃ T, Acquired w0 E T w' ∧ T.Perm (heldSectors w'.dev w'.data (bytesToSectors length))) w := by
  obtain ⟨n, hsectors⟩ : ∃ n, bytesToSectors length = n := ⟨_, rfl⟩
  have hrest : n - min numDirect n - min numBlocksInIndirect (n - min numDirect n) ≤
      numBlocksInIndirect * numBlocksInIndirect := by
    unfold formatBlocks at hn
    omega
  unfold allocateBlocks
  simp only [hsectors] at hn ⊢
  refine bind (refl E) (imp (h.safe_allocateDirect (min numDirect n) 0 (by omega)) ?_)
  rintro (_ | _) w1 hdirect
  · exact safe_pure fun _ _ => nofun
  obtain ⟨h1, -⟩ := hdirect rfl
  rw [nil_append, ← range_eq_range'] at h1
  by_cases hmore : 0 < n - min numDirect n
  case neg =>
    rw [if_neg hmore]
    refine safe_pure fun w2 ho _ => ⟨_, h1.of_others ho, ?_⟩
    rw [heldSectors, singlySectors, if_neg hmore, doublySectors, if_neg (by omega), ho.1]
    simp
  rw [if_pos hmore]
  refine bind (refl E) (imp (h1.safe_allocateSingly (by omega)) ?_)
  rintro (_ | _) w2 hsingly
  · exact safe_pure fun _ _ => nofun
  obtain ⟨x, h2, hdata2, hdisk2⟩ := hsingly rfl
  have hx : x < 2 ^ 32 := h2.lt_word (by simp)
  have hdirect2 : (range (min numDirect n)).map w1.data.directPtr = (range (min numDirect n)).map w2.data.directPtr := by
    refine map_congr_left (fun k hk => ?_)
    have := mem_range.mp hk
    rw [hdata2, directPtr_setSinglyIndirectPtr _ _ (by omega)]
  have hptr2 : w2.data.singlyIndirectPtr = x := by rw [hdata2, singlyIndirectPtr_setSinglyIndirectPtr _ hx]
  by_cases hmost : 0 < n - min numDirect n - min numBlocksInIndirect (n - min numDirect n)
  case neg =>
    rw [if_neg hmost]
    refine safe_pure fun w3 ho _ => ⟨_, h2.of_others ho, ?_⟩
    rw [heldSectors, singlySectors, if_pos hmore, doublySectors, if_neg hmost, ho.1, hptr2,
      ho.2.2.2 x (h2.apart (by simp)), hdirect2]
    simp only [append_nil, append_assoc]
    exact .append_left _ perm_append_comm
  rw [if_pos hmost]
  refine imp (h2.safe_allocateDoubly hrest (by omega)) (fun ok w3 hdoubly hok => ?_)
  obtain ⟨y, new, h3, hperm, hdata3, hdisk3⟩ := hdoubly hok
  refine ⟨_, h3, ?_⟩
  have hdirect3 : (range (min numDirect n)).map w2.data.directPtr = (range (min numDirect n)).map w3.data.directPtr := by
    refine map_congr_left (fun k hk => ?_)
    have := mem_range.mp hk
    rw [hdata3, directPtr_setDoublyIndirectPtr _ _ (by omega)]
  have hsame : w3.dev.disk x = w2.dev.disk x := by
    refine hdisk3 x (h2.apart (by simp)) (fun hx => ?_)
    rw [append_assoc] at h3
    exact (nodup_append.mp h3.nodup).2.2 x (by simp) x (by simpa using hx) rfl
  rw [heldSectors, singlySectors, if_pos hmore, doublySectors, if_pos hmost, hdirect2, hdirect3, hdata3,
    singlyIndirectPtr_setDoublyIndirectPtr, hptr2, doublyIndirectPtr_setDoublyIndirectPtr _ (h3.lt_word (by simp)),
    hsame]
  simp only [append_assoc]
  refine .append_left _ (.trans (perm_append_comm_assoc _ _ _) (.append_left _ (.append_left _ ?_)))
  exact .trans perm_append_comm (.append_right _ hperm)

end Acquired

end Pintos
