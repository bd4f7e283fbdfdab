import Pintos.Lemmas.Strtok
import Pintos.Userprog.Stack
import Mathlib.Data.List.Forall2

/-!
# What the first stack of a process holds

Everything is stored below what was stored before, so that what stands on the stack stays as it is. A program that is entered
with the stack of `setup_stack` finds in `argv` the words of the command line.
-/

namespace Pintos

open Bytes List

/-! ## Pushing -/

variable {st st' : UserStack} {writable : Nat → Bool} {bs : List UInt8} {args : List (List UInt8)} {locations : List Nat}

/-- What a push does: the bytes stand at the new `*esp`, and nothing above is changed. -/
theorem push_spec (h : st.push writable bs = some st') (hle : bs.length ≤ st.esp) :
    st'.esp + bs.length = st.esp ∧ slice st'.mem st'.esp bs.length = bs ∧ ∀ k, st.esp ≤ k → st'.mem k = st.mem k := by
  obtain ⟨-, h⟩ := Option.ite_none_right_eq_some.mp h
  cases h
  refine ⟨Nat.sub_add_cancel hle, slice_splice_self _ _ _, fun k hk => ?_⟩
  exact splice_outside _ _ _ _ (.inr (by omega))

/-- A string that stands in memory is read as it is. -/
theorem userString_of_slice {mem : Memory} {a : Nat} {s : List UInt8} (h0 : ∀ b ∈ s, b ≠ 0)
    (h : slice mem a (s.length + 1) = s ++ [0]) (hle : a + s.length + 1 ≤ physBase) : userString mem a = s := by
  obtain ⟨n, hn⟩ := Nat.exists_eq_add_of_le hle
  have hsplit : physBase - a = s.length + 1 + n := by omega
  rw [userString, hsplit, slice_add, h, append_assoc]
  exact cstr_word h0 _

/-- The strings stand on the stack at the addresses that were noted. -/
def StringsAt (st : UserStack) (args : List (List UInt8)) (locations : List Nat) : Prop :=
  List.Forall₂ (fun s a => st.esp ≤ a ∧ a + s.length + 1 ≤ physBase ∧ slice st.mem a (s.length + 1) = s ++ [0]) args locations

/-- Strings stay where they are when the stack grows. -/
theorem StringsAt.grow (h : StringsAt st args locations)
    (hesp : st'.esp ≤ st.esp) (hmem : ∀ k, st.esp ≤ k → st'.mem k = st.mem k) : StringsAt st' args locations := by
  refine h.imp (fun s a hs => ⟨by omega, hs.2.1, ?_⟩)
  rw [← hs.2.2]
  exact slice_congr (fun k hk _ => hmem k (by omega))

/-- The room that the strings take. -/
def stringsSize (args : List (List UInt8)) : Nat := (args.map (fun s => s.length + 1)).sum

/-- The loop over the tokens puts every string on the stack, each under those before it. -/
theorem pushStrings_spec
    (h : pushStrings writable args st = some (st', locations)) (hle : stringsSize args ≤ st.esp) (htop : st.esp ≤ physBase) :
    st'.esp + stringsSize args = st.esp ∧ StringsAt st' args locations ∧ (∀ k, st.esp ≤ k → st'.mem k = st.mem k) ∧
    (∀ x ∈ args.zip locations, x.2 + x.1.length + 1 ≤ st.esp) ∧
    (args.zip locations).Pairwise (fun x y => y.2 + y.1.length + 1 ≤ x.2) := by
  induction args generalizing st st' locations with
  | nil =>
    cases h
    exact ⟨rfl, .nil, fun _ _ => rfl, nofun, .nil⟩
  | cons s rest ih =>
    have hsize : stringsSize (s :: rest) = s.length + 1 + stringsSize rest := rfl
    simp only [pushStrings] at h
    split at h
    · cases h
    rename_i st1 hpush
    obtain ⟨⟨st2, locs⟩, hrest, heq⟩ := Option.map_eq_some_iff.mp h
    simp only [Prod.mk.injEq] at heq
    obtain ⟨rfl, rfl⟩ := heq
    obtain ⟨hesp, hbytes, hframe⟩ := push_spec hpush (by simp; omega)
    simp only [length_append, length_singleton] at hesp hbytes
    obtain ⟨hesp', hstrings, hframe', hbelow, horder⟩ := ih hrest (by omega) (by omega)
    refine ⟨by omega, .cons ⟨by omega, by omega, ?_⟩ hstrings, fun k hk => ?_,
      forall_mem_cons.mpr ⟨hesp.le, fun x hx => (hbelow x hx).trans (by omega)⟩, .cons hbelow horder⟩
    · rw [slice_congr (fun k hk _ => hframe' k hk), hbytes]
    · rw [hframe' k (by omega), hframe k hk]

/-- The loop over words puts them on the stack, in their order. -/
theorem pushWords_spec {vs : List Nat} (h : pushWords writable vs st = some st') (hle : 4 * vs.length ≤ st.esp) :
    st'.esp + 4 * vs.length = st.esp ∧ (∀ i v, vs[i]? = some v → wordAt st'.mem (st'.esp + 4 * i) = v % 2 ^ 32) ∧
    ∀ k, st.esp ≤ k → st'.mem k = st.mem k := by
  induction vs generalizing st' with
  | nil =>
    cases h
    exact ⟨rfl, by simp, fun _ _ => rfl⟩
  | cons v vs ih =>
    rw [length_cons] at hle
    obtain ⟨st1, hrest, hpush⟩ := Option.bind_eq_some_iff.mp h
    obtain ⟨hesp, hwords, hframe⟩ := ih hrest (by omega)
    have hlen : (wordBytes v).length = 4 := rfl
    obtain ⟨hesp', hbytes, hframe'⟩ := push_spec hpush (by omega)
    refine ⟨by rw [length_cons]; omega, ?_, fun k hk => ?_⟩
    · intro i v' hv
      cases i with
      | zero =>
        cases hv
        exact wordAt_of_slice hbytes
      | succ i =>
        have hw := hwords i v' (by simpa using hv)
        rw [show st'.esp + 4 * (i + 1) = st1.esp + 4 * i by omega, ← hw]
        exact word_congr (fun j _ _ => hframe' _ (by omega))
    · rw [hframe' k (by omega), hframe k hk]

/-! ## The words of the command line -/

/-- The words of a string take no more room than the string. -/
theorem stringsSize_words (bs : List UInt8) : stringsSize (words bs) ≤ bs.length + 1 := by
  induction hn : bs.length using Nat.strong_induction_on generalizing bs with
  | _ n ih =>
    rcases space_cases bs with hsp | ⟨sp, w, hsp, hw, hne, rfl | ⟨rest, rfl⟩⟩
    · rw [words_spaces hsp]
      exact Nat.zero_le _
    · rw [words_spaces_append hsp, words_single hw hne]
      simp only [stringsSize, map_cons, map_nil, sum_cons, sum_nil]
      rw [length_append] at hn
      omega
    simp only [length_append, length_cons] at hn
    have hrest := ih rest.length (by omega) rest rfl
    rw [words_spaces_append hsp, words_first hw hne]
    simp only [stringsSize, map_cons, sum_cons] at hrest ⊢
    omega

/-- A word has no null byte in it. -/
theorem words_noNul (h0 : ∀ b ∈ bs, b ≠ 0) : ∀ w ∈ words bs, ∀ b ∈ w, b ≠ 0 := by
  induction hn : bs.length using Nat.strong_induction_on generalizing bs with
  | _ n ih =>
    rcases space_cases bs with hsp | ⟨sp, w, hsp, hw, hne, rfl | ⟨rest, rfl⟩⟩
    · simp [words_spaces hsp]
    · rw [words_spaces_append hsp, words_single hw hne]
      simpa using fun b hb => h0 b (by simp [hb])
    simp only [length_append, length_cons] at hn
    have hrest := ih rest.length (by omega) (fun b (hb : b ∈ rest) => h0 b (by simp [hb])) rfl
    rw [words_spaces_append hsp, words_first hw hne]
    exact forall_mem_cons.mpr ⟨fun b hb => h0 b (by simp [hb]), hrest⟩

/-- Lowering `*esp` for the alignment takes less than 16 bytes and changes nothing in memory. -/
theorem align_spec (argc : Nat) (st : UserStack) :
    (st.align argc).esp ≤ st.esp ∧ st.esp < (st.align argc).esp + 16 ∧ (st.align argc).mem = st.mem := by
  refine ⟨Nat.sub_le _ _, ?_, rfl⟩
  simp only [UserStack.align]
  omega

/-- Reading the strings at noted addresses gives the strings. -/
theorem StringsAt.read (h : StringsAt st args locations) (h0 : ∀ s ∈ args, ∀ b ∈ s, b ≠ 0) (i : Nat) (hi : i < args.length) :
    ∃ a, locations[i]? = some a ∧ a < physBase ∧ args[i]? = some (userString st.mem a) := by
  have hget := forall₂_iff_get.mp h
  have hs := hget.2 i hi (by omega)
  simp only [get_eq_getElem] at hs
  refine ⟨locations[i], getElem?_eq_getElem (by omega), ?_, ?_⟩
  · omega
  · rw [userString_of_slice (h0 _ (getElem_mem hi)) hs.2.2 hs.2.1]
    exact getElem?_eq_getElem hi

/-- `PHYS_BASE` is far above the size of a command line, and a pointer has 32 bits. -/
theorem physBase_bounds : 65536 ≤ physBase ∧ physBase < 2 ^ 32 := by
  unfold physBase
  decide

/-- The stack that `setup_stack` leaves for these words: from `esp` on the place of the return address, `argc` and `argv`,
then the array at `argv`, and above it the strings. -/
structure StackLayout (st : UserStack) (args : List (List UInt8)) (argv : Nat) (locations : List Nat) : Prop where
  argc : wordAt st.mem (st.esp + 4) = args.length
  argvAt : wordAt st.mem (st.esp + 8) = argv
  entry : ∀ i a, (locations ++ [0])[i]? = some a → wordAt st.mem (argv + 4 * i) = a
  strings : StringsAt st args locations
  array : st.esp + 12 = argv
  above : ∀ x ∈ args.zip locations, argv + 4 * (args.length + 1) ≤ x.2
  apart : (args.zip locations).Pairwise (fun x y => y.2 + y.1.length + 1 ≤ x.2)
  room : physBase < st.esp + (stringsSize args + 4 * (args.length + 4) + 16)
  size : st.esp + (stringsSize args + 4 * (args.length + 4)) ≤ physBase
  aligned : (st.esp + 4) % 16 = 0

theorem setupStack_layout {mem : Memory} {tail : List UInt8} (h : setupStack writable mem (bs ++ 0 :: tail) = some st)
    (h0 : ∀ b ∈ bs, b ≠ 0) (hlen : bs.length < pgsize) : ∃ argv locations, StackLayout st (words bs) argv locations := by
  obtain ⟨hbig, hword⟩ := physBase_bounds
  have hsize := stringsSize_words bs
  have hnul := words_noNul h0
  simp only [setupStack, tokenize_eq_words bs tail h0] at h
  generalize words bs = args at h hsize hnul ⊢
  unfold pgsize at hlen
  split at h
  · cases h
  split at h
  · cases h
  rename_i st0 locations hstrings
  split at h
  · cases h
  rename_i st1 hargv
  obtain ⟨st2, hhead, rfl⟩ := Option.map_eq_some_iff.mp h
  -- the four blocks, from the top down
  obtain ⟨hesp0, hat0, -, -, horder⟩ := pushStrings_spec hstrings (by simp only; omega) le_rfl
  have hnum : locations.length = args.length := hat0.length_eq.symm
  simp only at hesp0
  obtain ⟨hal1, hal2, halm⟩ := align_spec args.length st0
  obtain ⟨hesp1, hwords1, hframe1⟩ := pushWords_spec hargv (by simp; omega)
  simp only [length_append, length_singleton] at hesp1
  obtain ⟨hesp2, hwords2, hframe2⟩ := pushWords_spec hhead (by simp; omega)
  simp only [length_cons, length_nil] at hesp2
  -- the strings are still there
  have hat2 : StringsAt { st2 with esp := st2.esp - 4 } args locations := by
    refine hat0.grow (by simp only; omega) (fun k hk => ?_)
    rw [hframe2 k (by omega), hframe1 k (by omega), halm]
  have hin : ∀ x ∈ args.zip locations, st0.esp ≤ x.2 := fun x hx => ((forall₂_iff_zip.mp hat0).2 hx).1
  refine ⟨st1.esp, locations, ?_, ?_, fun i a ha => ?_, hat2, by simp only; omega,
    fun x hx => (by omega : _ ≤ st0.esp).trans (hin x hx), horder, by simp only; omega, by simp only; omega, ?_⟩
  · rw [show st2.esp - 4 + 4 = st2.esp + 4 * 0 by omega, hwords2 0 args.length rfl]
    omega
  · rw [show st2.esp - 4 + 8 = st2.esp + 4 * 1 by omega, hwords2 1 st1.esp rfl]
    omega
  · have hlt : a < 2 ^ 32 := by
      by_cases hi : i < args.length
      · obtain ⟨a', hloc, ha', -⟩ := hat0.read hnul i hi
        rw [getElem?_append_left (by omega), hloc] at ha
        cases ha
        omega
      rw [getElem?_append_right (by omega), getElem?_singleton] at ha
      split at ha
      · cases ha
        decide
      · cases ha
    have hw := hwords1 i a ha
    rw [Nat.mod_eq_of_lt hlt] at hw
    rw [← hw]
    exact word_congr (fun j _ _ => hframe2 _ (by omega))
  · simp only [UserStack.align] at hesp1 ⊢
    omega

/-- A program entered with the stack that `setup_stack` has built from a command line gets its words as `argv`. -/
theorem argv_setupStack {mem : Memory} {tail : List UInt8}
    (h : setupStack writable mem (bs ++ 0 :: tail) = some st) (h0 : ∀ b ∈ bs, b ≠ 0) (hlen : bs.length < pgsize) :
    argv st.mem st.esp = words bs := by
  obtain ⟨array, locations, hl⟩ := setupStack_layout h h0 hlen
  simp only [argv, hl.argc, hl.argvAt]
  refine ext_getElem? (fun i => ?_)
  by_cases hi : i < (words bs).length
  · obtain ⟨a, hloc, -, hstr⟩ := hl.strings.read (words_noNul h0) i hi
    have hw := hl.entry i a (by rw [getElem?_append_left (by rw [← hl.strings.length_eq]; exact hi)]; exact hloc)
    rw [hstr, getElem?_map, getElem?_range hi, Option.map_some, hw]
  · rw [getElem?_eq_none (by simpa using hi), getElem?_eq_none (by omega)]

end Pintos
