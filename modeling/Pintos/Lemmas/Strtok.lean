import Pintos.Lib.String

/-!
# What `strtok_r` finds

The words of a string are what stands between its spaces. Calling `strtok_r` until it gives nothing gives the words, in their
order, whatever number of spaces stands before, between and after them.
-/

namespace Pintos

open List

/-- The words of a string: what stands between its spaces. -/
def words (bs : List UInt8) : List (List UInt8) := (bs.splitOn space).filter (fun w => !w.isEmpty)

/-! ## Words -/

theorem words_cons_space (bs : List UInt8) : words (space :: bs) = words bs := by
  have h : (space :: bs).splitOn space = [] :: bs.splitOn space := by
    simp [splitOn, splitOnP_cons_eq_if_modifyHead]
  simp [words, h]

variable {d sp w : List UInt8}

/-- Spaces before the first word do not count. -/
theorem words_spaces_append (hsp : ∀ b ∈ sp, b = space) (bs : List UInt8) : words (sp ++ bs) = words bs := by
  induction sp with
  | nil => rfl
  | cons b sp ih =>
    rw [hsp b (by simp), cons_append, words_cons_space]
    exact ih (fun b hb => hsp b (by simp [hb]))

theorem words_spaces (hsp : ∀ b ∈ sp, b = space) : words sp = [] := by
  have h := words_spaces_append hsp []
  rw [append_nil] at h
  rw [h]
  decide

theorem words_single (hw : ∀ b ∈ w, b ≠ space) (hne : w ≠ []) : words w = [w] := by
  have h : w.splitOn space = [w] := splitOnP_eq_singleton (by simpa using hw)
  simp [words, h, hne]

/-- The first word ends at the first space after it. -/
theorem words_first (hw : ∀ b ∈ w, b ≠ space) (hne : w ≠ []) (bs : List UInt8) : words (w ++ space :: bs) = w :: words bs := by
  have h : (w ++ space :: bs).splitOn space = w :: bs.splitOn space :=
    splitOnP_append_cons_of_forall_mem (by simpa using hw) _ (by simp) _
  simp [words, h, hne]

/-- A string is delimiters only, or has a word that ends it, or has a word that a delimiter ends. -/
theorem delimiter_cases (d bs : List UInt8) :
    (∀ b ∈ bs, b ∈ d) ∨
    ∃ sp w, (∀ b ∈ sp, b ∈ d) ∧ (∀ b ∈ w, b ∉ d) ∧ w ≠ [] ∧ (bs = sp ++ w ∨ ∃ c ∈ d, ∃ rest, bs = sp ++ (w ++ c :: rest)) := by
  have hbs := takeWhile_append_dropWhile (p := (· ∈ d)) (l := bs)
  set sp := bs.takeWhile (· ∈ d)
  set tl := bs.dropWhile (· ∈ d)
  have hsp : ∀ b ∈ sp, b ∈ d := fun b hb => by simpa using mem_takeWhile_imp hb
  rcases eq_or_ne tl [] with hnil | hne
  · left
    rw [← hbs, hnil, append_nil]
    exact hsp
  right
  have htlw := takeWhile_append_dropWhile (p := (· ∉ d)) (l := tl)
  have hhead : tl.head hne ∉ d := by simpa using head_dropWhile_not (· ∈ d) hne
  refine ⟨sp, tl.takeWhile (· ∉ d), hsp, fun b hb => by simpa using mem_takeWhile_imp hb, ?_, ?_⟩
  · obtain ⟨a, l, hal⟩ := exists_cons_of_ne_nil hne
    simp only [hal, head_cons] at hhead
    simp [hal, hhead]
  cases hd : tl.dropWhile (· ∉ d) with
  | nil =>
    rw [hd, append_nil] at htlw
    exact .inl (by rw [htlw, hbs])
  | cons c rest =>
    have hc : c ∈ d := by
      have h := head_dropWhile_not (· ∉ d) (l := tl) (hd ▸ cons_ne_nil c rest)
      simp only [hd, head_cons] at h
      simpa using h
    rw [hd] at htlw
    exact .inr ⟨c, hc, rest, by rw [htlw, hbs]⟩

theorem space_cases (bs : List UInt8) :
    (∀ b ∈ bs, b = space) ∨
    ∃ sp w, (∀ b ∈ sp, b = space) ∧ (∀ b ∈ w, b ≠ space) ∧ w ≠ [] ∧ (bs = sp ++ w ∨ ∃ rest, bs = sp ++ (w ++ space :: rest)) := by
  simpa using delimiter_cases [space] bs

/-! ## `strtok_r` -/

/-- Where only delimiters are left, `strtok_r` gives no token. -/
theorem strtokR_none (hds : 0 ∉ d) (pre : List UInt8) {tail : List UInt8} (hsp : ∀ b ∈ sp, b ∈ d) :
    strtokR d (pre ++ (sp ++ 0 :: tail)) pre.length =
      { buf := pre ++ (sp ++ 0 :: tail), token := none, save := pre.length + sp.length } := by
  have hskip : (sp ++ 0 :: tail).takeWhile (fun b => d.contains b) = sp := by
    rw [takeWhile_append_of_pos (by simpa using hsp)]
    simp [hds]
  have hget : (pre ++ (sp ++ 0 :: tail)).getD (pre.length + sp.length) 0 = 0 := by
    simp [getD_eq_getElem?_getD]
  simp only [strtokR, drop_left, hskip, hget, if_true]

/-- Where a word follows, `strtok_r` gives it. A null byte is put where a delimiter ends the word. -/
theorem strtokR_word (hds : 0 ∉ d) (pre tail : List UInt8) {c : UInt8} (hsp : ∀ b ∈ sp, b ∈ d) (hw : ∀ b ∈ w, b ∉ d)
    (hw0 : ∀ b ∈ w, b ≠ 0) (hne : w ≠ []) (hc : c = 0 ∨ c ∈ d) :
    strtokR d (pre ++ (sp ++ (w ++ c :: tail))) pre.length =
      { buf := pre ++ (sp ++ (w ++ 0 :: tail)), token := some (pre.length + sp.length),
        save := pre.length + sp.length + w.length + if c = 0 then 0 else 1 } := by
  obtain ⟨a, w', rfl⟩ := exists_cons_of_ne_nil hne
  have hskip : (sp ++ (a :: w' ++ c :: tail)).takeWhile (fun b => d.contains b) = sp := by
    rw [takeWhile_append_of_pos (by simpa using hsp)]
    simp [hw a (by simp)]
  have hstart : (pre ++ (sp ++ (a :: w' ++ c :: tail))).getD (pre.length + sp.length) 0 = a := by
    simp [getD_eq_getElem?_getD]
  have hdrop : (pre ++ (sp ++ (a :: w' ++ c :: tail))).drop (pre.length + sp.length) = a :: w' ++ c :: tail := by
    rw [← append_assoc, ← length_append, drop_left]
  have hword : (a :: w' ++ c :: tail).takeWhile (fun b => !d.contains b && b != 0) = a :: w' := by
    rw [takeWhile_append_of_pos (fun b hb => by simp [hw b hb, hw0 b hb])]
    rcases hc with rfl | hc <;> simp [*]
  have hstop : (pre ++ (sp ++ (a :: w' ++ c :: tail))).getD (pre.length + sp.length + (a :: w').length) 0 = c := by
    rw [getD_eq_getElem?_getD, ← getElem?_drop, hdrop]
    simp
  simp only [strtokR, drop_left, hskip, hstart, if_neg (hw0 a (by simp)), hdrop, hword, hstop]
  by_cases h0 : c = 0
  · simp [h0]
  have hset : (pre ++ (sp ++ (a :: w' ++ c :: tail))).set (pre.length + sp.length + (a :: w').length) 0
      = pre ++ (sp ++ (a :: w' ++ 0 :: tail)) := by
    rw [set_append_right _ _ (by omega), set_append_right _ _ (by omega), set_append_right _ _ (by omega),
      show pre.length + sp.length + (a :: w').length - pre.length - sp.length - (a :: w').length = 0 by omega, set_cons_zero]
  rw [if_neg h0, if_neg h0, hset]

/-- The string at the place of a word that a null byte ends is the word. -/
theorem cstr_word (hw0 : ∀ b ∈ w, b ≠ 0) (tail : List UInt8) : (cstr (w ++ 0 :: tail)).bytes = w := by
  simp only [cstr]
  rw [takeWhile_append_of_pos (by simpa using hw0)]
  simp

/-- One call of `strtok_r`. Either what is left of the string is delimiters only, and there is no token; or a word follows,
which is the token, and the next call goes on behind it. What stands behind the string does not matter. -/
theorem strtokR_next (hds : 0 ∉ d) (pre : List UInt8) {bs : List UInt8} (h0 : ∀ b ∈ bs, b ≠ 0) :
    ((∀ b ∈ bs, b ∈ d) ∧ ∀ tail, strtokR d (pre ++ (bs ++ 0 :: tail)) pre.length =
      { buf := pre ++ (bs ++ 0 :: tail), token := none, save := pre.length + bs.length }) ∨
    ∃ sp w pre' rest, (∀ b ∈ sp, b ∈ d) ∧ (∀ b ∈ w, b ∉ d) ∧ w ≠ [] ∧
      (bs = sp ++ w ∧ pre' = pre ++ (sp ++ w) ∧ rest = [] ∨ ∃ c ∈ d, bs = sp ++ (w ++ c :: rest) ∧
        pre' = pre ++ (sp ++ (w ++ [0]))) ∧
      ∀ tail, strtokR d (pre ++ (bs ++ 0 :: tail)) pre.length =
          { buf := pre' ++ (rest ++ 0 :: tail), token := some (pre.length + sp.length), save := pre'.length } ∧
        (cstr ((pre' ++ (rest ++ 0 :: tail)).drop (pre.length + sp.length))).bytes = w := by
  have hdrop : ∀ sp w rest : List UInt8, (pre ++ (sp ++ (w ++ 0 :: rest))).drop (pre.length + sp.length) = w ++ 0 :: rest := by
    intro sp w rest
    rw [← append_assoc, ← length_append, drop_left]
  rcases delimiter_cases d bs with hsp | ⟨sp, w, hsp, hw, hne, rfl | ⟨c, hc, rest, rfl⟩⟩
  · exact .inl ⟨hsp, fun tail => strtokR_none hds pre hsp⟩
  · have hw0 : ∀ b ∈ w, b ≠ 0 := fun b hb => h0 b (by simp [hb])
    refine .inr ⟨sp, w, _, [], hsp, hw, hne, .inl ⟨rfl, rfl, rfl⟩, fun tail => ⟨?_, ?_⟩⟩
    · simpa [Nat.add_assoc] using strtokR_word hds pre tail hsp hw hw0 hne (.inl rfl)
    · rw [show pre ++ (sp ++ w) ++ ([] ++ 0 :: tail) = pre ++ (sp ++ (w ++ 0 :: tail)) by simp, hdrop, cstr_word hw0]
  have hw0 : ∀ b ∈ w, b ≠ 0 := fun b hb => h0 b (by simp [hb])
  refine .inr ⟨sp, w, _, rest, hsp, hw, hne, .inr ⟨c, hc, rfl, rfl⟩, fun tail => ⟨?_, ?_⟩⟩
  · have hc0 : c ≠ 0 := fun h => hds (h ▸ hc)
    simpa [Nat.add_assoc, hc0] using strtokR_word hds pre (rest ++ 0 :: tail) hsp hw hw0 hne (.inr hc)
  · rw [show pre ++ (sp ++ (w ++ [0])) ++ (rest ++ 0 :: tail) = pre ++ (sp ++ (w ++ 0 :: (rest ++ 0 :: tail))) by simp,
      hdrop, cstr_word hw0]

/-- Calling `strtok_r` until it gives nothing gives the words. -/
theorem tokens_eq_words (fuel : Nat) (pre bs tail : List UInt8) (h0 : ∀ b ∈ bs, b ≠ 0) (hf : bs.length < fuel) :
    (tokens fuel (pre ++ (bs ++ 0 :: tail)) pre.length).1 = words bs := by
  induction fuel generalizing pre bs with
  | zero => omega
  | succ fuel ih =>
    obtain ⟨hsp, hcall⟩ | ⟨sp, w, pre', rest, hsp, hw, hne, hbs, hcall⟩ := strtokR_next (d := [space]) (by decide) pre h0
    · simp [tokens, hcall, words_spaces (by simpa using hsp)]
    have hpos := length_pos_of_ne_nil hne
    have hrest : rest.length < fuel ∧ (∀ b ∈ rest, b ≠ 0) ∧ words bs = w :: words rest := by
      simp only [mem_singleton] at hsp hw
      rcases hbs with ⟨rfl, -, rfl⟩ | ⟨c, hc, rfl, -⟩
      · rw [words_spaces_append hsp, words_single hw hne]
        simp only [length_append] at hf
        exact ⟨by simp; omega, by simp, by simp [words_spaces]⟩
      · rw [mem_singleton.mp hc, words_spaces_append hsp, words_first hw hne]
        simp only [length_append, length_cons] at hf
        exact ⟨by omega, fun b hb => h0 b (by simp [hb]), rfl⟩
    simp only [tokens, (hcall tail).1, (hcall tail).2]
    rw [ih _ rest hrest.2.1 hrest.1, hrest.2.2]

theorem tokenize_eq_words (bs tail : List UInt8) (h0 : ∀ b ∈ bs, b ≠ 0) : (tokenize (bs ++ 0 :: tail)).1 = words bs :=
  tokens_eq_words _ [] bs tail h0 (by simp)

end Pintos
