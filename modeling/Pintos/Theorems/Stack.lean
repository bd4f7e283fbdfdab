import Pintos.Theorems.Exec

/-!
# The stack that a program is entered with

`setup_stack` keeps the addresses of the words in an array of 100 and stores in the one page that it has mapped. From a
command line of at most 511 characters it never leaves the page. A line that `validate_string` lets through may have up to
256 words, though. And the line that the kernel reads may be a longer one, up to the size of a page, for which the page is
too small.
-/

namespace Pintos

open Bytes List

variable {writable : Nat → Bool} {mem : Memory} {line tail : List UInt8} {st : UserStack}

/-- The stack that a successful `setup_stack` leaves for a line of at most 511 characters: laid out as it should be, in one
page. -/
theorem initial_stack (h0 : ∀ b ∈ line, b ≠ 0) (hlen : line.length ≤ 511)
    (h : setupStack writable mem (line ++ 0 :: tail) = some st) :
    ∃ argv locations, StackLayout st (words line) argv locations ∧ physBase ≤ st.esp + pgsize := by
  obtain ⟨argv, locations, hl⟩ := setupStack_layout h h0 (by unfold pgsize; omega)
  have hargs : (words line).length ≤ 100 := by
    simp only [setupStack, tokenize_eq_words line tail h0] at h
    split at h
    · cases h
    · omega
  have hsize := stringsSize_words line
  have hroom := hl.room
  refine ⟨argv, locations, hl, ?_⟩
  unfold pgsize
  omega

/-- The line " a b " in a page of zeros. -/
theorem initial_stack_two : ∃ st, setupStack (fun _ => true) (fun _ => 0) ([32, 97, 32, 98, 32] ++ 0 :: []) = some st ∧
    ∃ argv locations, StackLayout st [[97], [98]] argv locations ∧ physBase ≤ st.esp + pgsize := by
  have hsome : (setupStack (fun _ => true) (fun _ => 0) ([32, 97, 32, 98, 32] ++ 0 :: [])).isSome = true := by decide +kernel
  obtain ⟨st, h⟩ := Option.isSome_iff_exists.mp hsome
  have h0 : ∀ b ∈ ([32, 97, 32, 98, 32] : List UInt8), b ≠ 0 := by simp
  exact ⟨st, h, initial_stack h0 (by decide) h⟩

/-! ## Staying inside the page -/

/-- The addresses of the stack page. -/
def inStackPage (a : Nat) : Bool := decide (physBase ≤ a + pgsize ∧ a < physBase)

/-- `setup_stack` of a command line uses `arg_locations` only below 100 and stores only in the stack page. -/
def StackFits (mem : Memory) (line : List UInt8) : Prop := (setupStack inStackPage mem (line ++ [0])).isSome = true

instance : Decidable (StackFits mem line) := inferInstanceAs (Decidable (_ = true))

/-- A push for which there is room in the page. -/
theorem push_fits (st : UserStack) (bs : List UInt8) (htop : st.esp ≤ physBase) (hroom : physBase + bs.length ≤ st.esp + pgsize) :
    ∃ st', st.push inStackPage bs = some st' ∧ st'.esp + bs.length = st.esp := by
  have hbase : pgsize ≤ physBase := le_trans (by decide) physBase_bounds.1
  refine ⟨_, if_pos ?_, by simp only; omega⟩
  simp only [all_eq_true, mem_range, inStackPage, decide_eq_true_eq]
  omega

/-- The strings, where there is room for all of them. -/
theorem pushStrings_fits (st : UserStack) (args : List (List UInt8)) (htop : st.esp ≤ physBase)
    (hroom : physBase + stringsSize args ≤ st.esp + pgsize) :
    ∃ st' locations, pushStrings inStackPage args st = some (st', locations) ∧ st'.esp + stringsSize args = st.esp ∧
      locations.length = args.length := by
  induction args generalizing st with
  | nil => exact ⟨st, [], rfl, rfl, rfl⟩
  | cons s rest ih =>
    have hsize : stringsSize (s :: rest) = s.length + 1 + stringsSize rest := rfl
    have hlen : (s ++ [0]).length = s.length + 1 := length_append
    obtain ⟨st1, hpush, hesp⟩ := push_fits st (s ++ [0]) htop (by omega)
    obtain ⟨st2, locations, hrest, hesp2, hnum⟩ := ih st1 (by omega) (by omega)
    refine ⟨st2, st1.esp :: locations, ?_, by omega, congrArg (· + 1) hnum⟩
    simp [pushStrings, hpush, hrest]

/-- The words, where there is room for all of them. -/
theorem pushWords_fits (st : UserStack) (vs : List Nat) (htop : st.esp ≤ physBase)
    (hroom : physBase + 4 * vs.length ≤ st.esp + pgsize) :
    ∃ st', pushWords inStackPage vs st = some st' ∧ st'.esp + 4 * vs.length = st.esp := by
  induction vs with
  | nil => exact ⟨st, rfl, rfl⟩
  | cons v vs ih =>
    rw [length_cons] at hroom ⊢
    obtain ⟨st1, hrest, hesp⟩ := ih (by omega)
    obtain ⟨st2, hpush, hesp2⟩ := push_fits st1 (wordBytes v) (by omega) (by rw [show (wordBytes v).length = 4 from rfl]; omega)
    refine ⟨st2, by simp only [pushWords, hrest, Option.bind_some, hpush], ?_⟩
    rw [show (wordBytes v).length = 4 from rfl] at hesp2
    omega

/-- The last store of `setup_stack` is next above where it leaves `*esp`. -/
theorem setupStack_last {args : List UInt8} (h : setupStack writable mem args = some st) :
    (tokenize args).1.length ≤ 100 ∧ ∃ a, writable a = true ∧ st.esp = a - 4 := by
  simp only [setupStack] at h
  split at h
  · cases h
  rename_i hargs
  split at h
  · cases h
  split at h
  · cases h
  obtain ⟨st2, hhead, rfl⟩ := Option.map_eq_some_iff.mp h
  obtain ⟨st1, -, hpush⟩ := Option.bind_eq_some_iff.mp hhead
  obtain ⟨hall, hpush⟩ := Option.ite_none_right_eq_some.mp hpush
  cases hpush
  exact ⟨by omega, _, all_eq_true.mp hall 0 (by simp [wordBytes]), rfl⟩

/-- A line fits just when it has at most 100 words and there is room for them: their bytes, their addresses, and three words
more. -/
theorem stackFits_iff (h0 : ∀ b ∈ line, b ≠ 0) (hlen : line.length < pgsize) : StackFits mem line ↔
    (words line).length ≤ 100 ∧ stringsSize (words line) + 4 * ((words line).length + 3) ≤ pgsize := by
  have hpage : pgsize = 4096 := rfl
  have hbase : 65536 ≤ physBase ∧ physBase % 16 = 0 := by
    unfold physBase
    decide
  constructor
  · intro h
    obtain ⟨st, hst⟩ := Option.isSome_iff_exists.mp h
    obtain ⟨_, _, hl⟩ := setupStack_layout hst h0 hlen
    obtain ⟨hargs, a, ha, hesp⟩ := setupStack_last hst
    rw [tokenize_eq_words line [] h0] at hargs
    simp only [inStackPage, decide_eq_true_eq] at ha
    have hsize := hl.size
    exact ⟨hargs, by omega⟩
  rintro ⟨hargs, hroom⟩
  simp only [StackFits, setupStack, tokenize_eq_words line [] h0]
  generalize words line = args at hargs hroom ⊢
  rw [if_neg (by omega)]
  obtain ⟨st0, locations, hstrings, hesp0, hnum⟩ :=
    pushStrings_fits { mem := mem, esp := physBase } args le_rfl (by simp only; omega)
  simp only at hesp0
  have halign : (st0.align args.length).esp ≤ physBase ∧
      physBase + 4 * (args.length + 3) ≤ (st0.align args.length).esp + pgsize := by
    simp only [UserStack.align]
    omega
  obtain ⟨st1, hargv, hesp1⟩ := pushWords_fits (st0.align args.length) (locations ++ [0]) halign.1
    (by rw [length_append, length_singleton]; omega)
  rw [length_append, length_singleton] at hesp1
  obtain ⟨st2, hhead, -⟩ := pushWords_fits st1 [args.length, st1.esp] (by omega) (by simp only [length_cons, length_nil]; omega)
  simp only [hstrings, hargv, hhead, Option.map_some, Option.isSome_some]

/-- What `validate_string` reads is shorter than its bound. -/
theorem Caller.validateFrom_length {r : RamSize} {c : Caller r} {ram : Ram} {n p : Nat} {s : List UInt8}
    (h : c.validateFrom ram n p = some s) : s.length < n := by
  induction n generalizing p s with
  | zero => cases h
  | succ n ih =>
    obtain ⟨-, h⟩ := Option.ite_none_right_eq_some.mp h
    cases hb : c.userByte ram p with
    | none => simp [hb] at h
    | some b =>
      simp only [hb] at h
      split at h
      · cases h
        exact Nat.succ_pos n
      · obtain ⟨bs, hrest, rfl⟩ := Option.map_eq_some_iff.mp h
        exact Nat.succ_lt_succ (ih hrest)

/-- When `validate_string` returns, `exec` builds the stack from the line that the kernel reads. It fits just when it has at
most 100 words and these fit on a page; for the string that was checked, if the kernel reads that, the number of words
decides. -/
theorem exec_line_fits {r : RamSize} (c : Caller r) (ram : Ram) (file : Nat) (s : List UInt8) (mem : Memory)
    (h : c.validateString ram file = some s) :
    (∀ env ram' st, (sysExec c env file ram).started = some (ram', st) →
      setupStack env.writable env.mem (c.execLine ram file ++ [0]) = some st) ∧
    (StackFits mem (c.execLine ram file) ↔ (words (c.execLine ram file)).length ≤ 100 ∧
      stringsSize (words (c.execLine ram file)) + 4 * ((words (c.execLine ram file)).length + 3) ≤ pgsize) ∧
    (c.execLine ram file = s → (StackFits mem s ↔ (words s).length ≤ 100)) := by
  obtain ⟨h0, hlen⟩ := c.execLine_spec ram file
  refine ⟨fun env ram' st hst => (sysExec_started hst).2.2, stackFits_iff h0 hlen, ?_⟩
  rintro rfl
  have hshort := Caller.validateFrom_length h
  have hsize := stringsSize_words (c.execLine ram file)
  rw [stackFits_iff h0 hlen, and_iff_left_iff_imp]
  unfold pgsize
  omega

/-- The line "a b", which the kernel reads as it is. -/
theorem exec_line_fits_two : onePage.validateString (stringAtEnd [97, 32, 98]) 0x08048ff8 = some [97, 32, 98] ∧
    onePage.execLine (stringAtEnd [97, 32, 98]) 0x08048ff8 = [97, 32, 98] ∧ StackFits (fun _ => 0) [97, 32, 98] := by
  have hs : onePage.validateString (stringAtEnd [97, 32, 98]) 0x08048ff8 = some [97, 32, 98] := by decide +kernel
  have hk : onePage.execLine (stringAtEnd [97, 32, 98]) 0x08048ff8 = [97, 32, 98] := by decide +kernel
  exact ⟨hs, hk, ((exec_line_fits onePage _ _ _ _ hs).2.2 hk).mpr (by decide)⟩

/-- The letter "a" 101 times, with a space between each two. -/
def manyWords : List UInt8 := (replicate 100 [97, 32]).flatten ++ [97]

/-- A line of 201 characters passes the check, is read by the kernel as it is, and has one word too many. -/
theorem exec_line_overruns : onePage.validateString (splice (fun _ => 0) 0 manyWords) 0x08048000 = some manyWords ∧
    ¬StackFits (fun _ => 0) (onePage.execLine (splice (fun _ => 0) 0 manyWords) 0x08048000) := by
  refine ⟨by decide +kernel, fun hfits => ?_⟩
  obtain ⟨h0, hlen⟩ := onePage.execLine_spec (splice (fun _ => 0) 0 manyWords) 0x08048000
  exact absurd ((stackFits_iff h0 hlen).mp hfits).1 (by decide +kernel)

end Pintos
