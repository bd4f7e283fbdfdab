import Pintos.Lemmas.Ustar

/-!
# Headers read back, under safe names

`strip_antisocial_prefixes` ends at a name that is safe to extract and stays as it is from then on. `ustar_make_header`
refuses a name only for its length, and what it composes is accepted and read back, whatever the type and the size.
-/

namespace Pintos

open Bytes Octal List

variable {s : List UInt8}

/-- Each turn of the loop drops a byte at least. -/
theorem afterSlash_length (s : List UInt8) : (afterSlash s).length ≤ s.length - 1 := by
  have := (s.dropWhile_suffix (fun c => c != 47)).length_le
  rw [afterSlash, length_drop]
  omega

/-- The loop ends where the name starts with none of the three. -/
theorem stripLoop_ends (turns : Nat) (h : s.length ≤ turns) :
    (stripLoop turns s).take 1 ≠ [47] ∧ (stripLoop turns s).take 2 ≠ [46, 47] ∧ (stripLoop turns s).take 3 ≠ [46, 46, 47] := by
  induction turns generalizing s with
  | zero => simp [stripLoop, eq_nil_of_length_eq_zero (Nat.le_zero.mp h)]
  | succ turns ih =>
    rw [stripLoop]
    split
    · have := afterSlash_length s
      exact ih (by omega)
    · rename_i hnot
      simpa only [not_or] using hnot

/-- The loop returns a suffix of the name. -/
theorem stripLoop_suffix (turns : Nat) (s : List UInt8) : stripLoop turns s <:+ s := by
  induction turns generalizing s with
  | zero => exact suffix_refl s
  | succ turns ih =>
    rw [stripLoop]
    split
    · exact (ih _).trans ((drop_suffix 1 _).trans (s.dropWhile_suffix _))
    · exact suffix_refl s

/-- A stripped name is safe. -/
theorem strip_social (name : CString) : SocialName (stripAntisocialPrefixes name) := by
  have hends := stripLoop_ends name.strlen (Nat.le_refl name.bytes.length)
  have hsub := (stripLoop_suffix name.strlen name.bytes).subset
  unfold stripAntisocialPrefixes
  generalize stripLoop name.strlen name.bytes = s at *
  simp only
  split
  · unfold SocialName
    decide
  · rename_i hne
    have hbytes : (cstr s).bytes = s := cstr_of_noNul (fun b hb => name.noNul b (hsub hb))
    rw [SocialName, CString.strlen, hbytes]
    exact ⟨length_pos_iff.mpr (fun h => hne (.inl h)), hends.1, hends.2.1, hends.2.2, fun h => hne (.inr h)⟩

/-- A header is made of every name whose stripped form has at most 99 characters, and reads back; a stripped name is safe to
extract, and stripped of nothing. -/
theorem ustar_round_trip (name : CString) (type : UstarType) (size : Nat) (hsize : size ≤ 2 ^ 31 - 1) :
    ((ustarMakeHeader name type size).isSome ↔ (stripAntisocialPrefixes name).strlen ≤ 99) ∧
    (∀ header, ustarMakeHeader name type size = some header → ustarParseHeader header =
      .ok (some { fileName := stripAntisocialPrefixes name, type := type, size := if type = .regular then size else 0 })) ∧
    SocialName (stripAntisocialPrefixes name) ∧
    stripAntisocialPrefixes (stripAntisocialPrefixes name) = stripAntisocialPrefixes name := by
  have hsocial := strip_social name
  have hidem := stripAntisocialPrefixes_eq hsocial
  have hmake : ustarMakeHeader name type size = ustarMakeHeader (stripAntisocialPrefixes name) type size := by
    rw [ustarMakeHeader, ustarMakeHeader, hidem]
  rw [hmake]
  rcases Nat.lt_or_ge 99 (stripAntisocialPrefixes name).strlen with hlong | hlen
  · have hnone : ustarMakeHeader (stripAntisocialPrefixes name) type size = none := by
      rw [ustarMakeHeader, hidem]
      exact if_pos hlong
    rw [hnone]
    exact ⟨by simpa using hlong, fun header h => (by cases h), hsocial, hidem⟩
  · rw [ustarMakeHeader_eq hidem hlen]
    refine ⟨by simpa using hlen, fun header h => ?_, hsocial, hidem⟩
    cases h
    exact ustarParseHeader_eq hidem hlen type hsize

/-- A directory `.././a` is archived as `a`. -/
theorem ustar_round_trip_directory : ∃ header, ustarMakeHeader (cstr (ascii ".././a")) .directory 7 = some header ∧
    ustarParseHeader header = .ok (some { fileName := cstr (ascii "a"), type := .directory, size := 0 }) := by
  have hstrip : stripAntisocialPrefixes (cstr (ascii ".././a")) = cstr (ascii "a") := by decide
  obtain ⟨hmake, hparse, -⟩ := ustar_round_trip (cstr (ascii ".././a")) .directory 7 (by decide)
  rw [hstrip] at hmake hparse
  obtain ⟨header, hh⟩ := Option.isSome_iff_exists.mp (hmake.mpr (by decide))
  exact ⟨header, hh, hparse header hh⟩

/-! ## Octal fields -/

/-- The loop that is watched computes what the other one does: no sum is cut, and no byte behind the field is read. -/
theorem parseOctalRun_spec (m : Memory) (todo ofs : Nat) {v : Nat} (hv : v < 2 ^ 32) :
    (parseOctalRun m todo ofs v).result = parseOctalFrom ofs v (slice m ofs todo) ∧
      (∀ x ∈ (parseOctalRun m todo ofs v).reads, x < ofs + todo) ∧ ∀ x ∈ (parseOctalRun m todo ofs v).sums, x < 2 ^ 32 := by
  induction todo generalizing ofs v with
  | zero => exact ⟨rfl, by simp [parseOctalRun], by simp [parseOctalRun]⟩
  | succ todo ih =>
    have hslice : slice m ofs (todo + 1) = m ofs :: slice m (ofs + 1) todo := by
      rw [Nat.add_comm todo, slice_add]
      rfl
    rw [hslice, parseOctalRun, parseOctalFrom]
    by_cases hc : isDigit (m ofs) = true
    · have hlt := digit_lt hc
      rw [if_pos hc, if_pos hc]
      split
      · exact ⟨rfl, by simp, by simp⟩
      · have hsum : (m ofs).toNat - 48 + v * 8 < 2 ^ 32 := by omega
        obtain ⟨hresult, hreads, hsums⟩ := ih (ofs + 1) hsum
        simp only [Nat.mod_eq_of_lt hsum, mem_cons, forall_eq_or_imp]
        exact ⟨hresult, ⟨by omega, fun x hx => by have := hreads x hx; omega⟩, hsum, hsums⟩
    · rw [if_neg hc, if_neg hc]
      exact ⟨rfl, by simp, by simp⟩

/-- `parse_octal_field` returns true exactly for a field of octal digits, at least one, with a space or a null byte behind
them, whose number is below 2^32, and `*value` is this number. It reads the field only, and no sum wraps around. -/
theorem parse_octal_field_exact (m : Memory) (size v : Nat) :
    ((parseOctalRun m size 0 0).result = some v ↔ ∃ digits c tail, slice m 0 size = digits ++ c :: tail ∧ digits ≠ [] ∧
        (∀ d ∈ digits, isDigit d = true) ∧ (c = 32 ∨ c = 0) ∧ valueFrom 0 digits = v ∧ v < 2 ^ 32) ∧
      (∀ x ∈ (parseOctalRun m size 0 0).reads, x < size) ∧ ∀ x ∈ (parseOctalRun m size 0 0).sums, x < 2 ^ 32 := by
  obtain ⟨hresult, hreads, hsums⟩ := parseOctalRun_spec m size 0 (by decide : 0 < 2 ^ 32)
  refine ⟨?_, by simpa using hreads, hsums⟩
  rw [hresult, parseOctalFrom_iff (by decide)]
  constructor
  · rintro ⟨hend, hpos, hv⟩
    obtain ⟨c, hc, hc'⟩ : ∃ c, ((slice m 0 size).dropWhile isDigit).head? = some c ∧ (c = 32 ∨ c = 0) := by
      rcases hend with hend | hend
      · exact ⟨32, hend, .inl rfl⟩
      · exact ⟨0, hend, .inr rfl⟩
    obtain ⟨tail, htail⟩ := head?_eq_some_iff.mp hc
    refine ⟨_, c, tail, (htail ▸ takeWhile_append_dropWhile).symm, length_pos_iff.mp (by omega), ?_, hc', hv⟩
    exact fun d hd => mem_takeWhile_imp hd
  · rintro ⟨digits, c, tail, hs, hne, hdigits, hc, hv⟩
    have hnot : isDigit c = false := by
      rcases hc with rfl | rfl <;> rfl
    rw [hs, takeWhile_append_of_pos hdigits, dropWhile_append_of_pos hdigits, takeWhile_cons_of_neg (by simp [hnot]),
      dropWhile_cons_of_neg (by simp [hnot]), append_nil]
    exact ⟨by simpa using hc, by have := length_pos_iff.mpr hne; omega, hv⟩

/-- The field `17` and a space. -/
theorem parse_octal_field_17 : (parseOctalRun (fun k => (ascii "17 ").getD k 0) 3 0 0).result = some 15 :=
  (parse_octal_field_exact _ 3 15).1.mpr ⟨ascii "17", 32, [], by decide, by decide, List.all_eq_true.mp (by decide),
    .inl rfl, by decide, by decide⟩

end Pintos
