import Pintos.Lemmas.Stack
import Pintos.Lemmas.SyscallIo
import Pintos.Userprog.Exec

/-!
# When a program can exec the same string twice

`process_execute` cuts the first word off the caller's own string, through the kernel's address of it, and from that address
it also reads the string. A call leaves the caller alone and gives the child the right words exactly when the kernel sees the
words of the string there, and the first of them is not followed by a space in the caller's memory.
-/

namespace Pintos

open List Function

variable {r : RamSize}

/-! ## What one call does -/

/-- The place of the space that ends the first word. -/
def SpaceAfterFirstWord (bs : List UInt8) (j : Nat) : Prop :=
  ∃ sp w rest, bs = sp ++ (w ++ space :: rest) ∧ (∀ b ∈ sp, b = space) ∧ (∀ b ∈ w, b ≠ space) ∧ w ≠ [] ∧ j = sp.length + w.length

/-- The physical address that `pagedir_get_page` leads to. -/
def Caller.physAddr (c : Caller r) (file : Nat) : Nat := (c.pagedir.getPage file).getD 0 - physBase

/-- The string that the kernel reads at its own address of the caller's string. Pages that are neighbours for the caller need
not be so for the kernel. -/
def Caller.kernelString (c : Caller r) (ram : Ram) (file : Nat) : List UInt8 :=
  (cstr (Ram.kernelBytes r ram ((c.pagedir.getPage file).getD 0) (r.pages * pgsize))).bytes

/-- The command line that `setup_stack` is given: what fits on a page of the string that the kernel reads. -/
def Caller.execLine (c : Caller r) (ram : Ram) (file : Nat) : List UInt8 := (c.kernelString ram file).take 4095

/-- It has no null byte, and fits on a page. -/
theorem Caller.execLine_spec (c : Caller r) (ram : Ram) (file : Nat) :
    (∀ b ∈ c.execLine ram file, b ≠ 0) ∧ (c.execLine ram file).length < pgsize := by
  refine ⟨fun b hb => (cstr _).noNul b (mem_of_mem_take hb), ?_⟩
  rw [Caller.execLine, length_take]
  exact Nat.lt_of_le_of_lt (Nat.min_le_left _ _) (by decide)

/-- A memory with a null byte in it is its string, the null byte and the rest. -/
theorem cstr_split {bs : List UInt8} (h : 0 ∈ bs) : ∃ tail, bs = (cstr bs).bytes ++ 0 :: tail := by
  have hsplit := takeWhile_append_dropWhile (p := fun b => b != 0) (l := bs)
  cases hd : bs.dropWhile (fun b => b != 0) with
  | nil =>
    rw [hd, append_nil] at hsplit
    rw [← hsplit] at h
    exact absurd (mem_takeWhile_imp h) (by simp)
  | cons a tail =>
    have ha : a = 0 := by
      have h := head_dropWhile_not (fun b => b != 0) (l := bs) (by simp [hd])
      simpa [hd] using h
    refine ⟨tail, ?_⟩
    rw [hd, ha] at hsplit
    exact hsplit.symm

/-- `strlcpy` keeps what fits of a string. -/
theorem cstr_strlcpy_take (dst : List UInt8) (src : CString) (size : Nat) (h0 : size ≠ 0) :
    (cstr (strlcpy dst src size)).bytes = src.bytes.take (size - 1) := by
  rw [strlcpy, if_neg h0]
  exact cstr_word (fun b hb => src.noNul b (mem_of_mem_take hb)) _

variable {ram ram' : Ram} {env : ExecEnv} {st : UserStack}

/-- A child that has loaded has its stack from its copy of the command line. -/
theorem load_ok {fileName : List UInt8} (h : load env fileName = .ok (some st)) :
    setupStack env.writable env.mem ((cstr fileName).bytes ++ [0]) = some st := by
  unfold load at h
  split at h
  · cases h
  simp only at h
  split at h
  · cases h
  split at h
  · cases h
  split at h
  · cases h
  rename_i st1 hst
  cases h
  exact hst

/-- What `process_execute` has done when the child has loaded. -/
theorem processExecute_ok {kaddr : Nat} (h : processExecute r env kaddr ram = .ok (ram', some st)) :
    0 ∈ Ram.kernelBytes r ram kaddr (r.pages * pgsize) ∧
    ram' = Bytes.splice ram (kaddr - physBase) (strtokR [space] (Ram.kernelBytes r ram kaddr (r.pages * pgsize)) 0).buf ∧
    ∃ page, load env (strlcpy page (cstr (Ram.kernelBytes r ram kaddr (r.pages * pgsize))) pgsize) = .ok (some st) := by
  unfold processExecute at h
  split at h
  · cases h
  rename_i page hpage
  simp only at h
  split at h
  swap
  · cases h
  rename_i hnul
  split at h
  · cases h
  split at h
  · cases h
  refine ⟨hnul, ?_⟩
  generalize hl : load env (strlcpy page (cstr (Ram.kernelBytes r ram kaddr (r.pages * pgsize))) pgsize) = res at h
  cases res with
  | error e => cases h
  | ok child =>
    simp only [Except.map, Except.ok.injEq, Prod.mk.injEq] at h
    exact ⟨h.1.symm, page, by rw [hl, h.2]⟩

/-- What a successful call has done: `strtok_r` has run over memory, and `setup_stack` has been given the command line. -/
theorem sysExec_started {c : Caller r} {file : Nat} (h : (sysExec c env file ram).started = some (ram', st)) :
    (∃ s, c.validateString ram file = some s) ∧
    (∃ tail, Ram.kernelBytes r ram ((c.pagedir.getPage file).getD 0) (r.pages * pgsize) = c.kernelString ram file ++ 0 :: tail ∧
      ram' = Bytes.splice ram (c.physAddr file) (strtokR [space] (c.kernelString ram file ++ 0 :: tail) 0).buf) ∧
    setupStack env.writable env.mem (c.execLine ram file ++ [0]) = some st := by
  unfold sysExec at h
  split at h
  · cases h
  rename_i s hs
  split at h
  · cases h
  rename_i ram1 child hexec
  cases child with
  | none => cases h
  | some st1 =>
    cases h
    obtain ⟨hnul, hram, page, hload⟩ := processExecute_ok hexec
    obtain ⟨tail, htail⟩ := cstr_split hnul
    refine ⟨⟨s, hs⟩, ⟨tail, htail, ?_⟩, ?_⟩
    · rw [hram, Caller.physAddr, Caller.kernelString, ← htail]
    have hcopy := cstr_strlcpy_take page (cstr (Ram.kernelBytes r ram ((c.pagedir.getPage file).getD 0) (r.pages * pgsize)))
      pgsize (by decide)
    have hst := load_ok hload
    rw [hcopy] at hst
    exact hst

/-- The child has the words of the command line. -/
theorem sysExec_argv {c : Caller r} {file : Nat} (h : (sysExec c env file ram).started = some (ram', st)) :
    argv st.mem st.esp = words (c.execLine ram file) := by
  obtain ⟨h0, hlen⟩ := c.execLine_spec ram file
  exact argv_setupStack (sysExec_started h).2.2 h0 hlen

/-! ## The caller's memory -/

/-- The caller's memory is the same in both. -/
def Caller.SameMemory (c : Caller r) (ram ram' : Ram) : Prop := ∀ v a, c.pagedir.translate v = some a → ram' a = ram a

/-- What the kernel reads at its address of a string is physical memory. -/
theorem kernelBytes_getElem? {kaddr n j : Nat} (h : j < (Ram.kernelBytes r ram kaddr n).length) :
    (Ram.kernelBytes r ram kaddr n)[j]? = some (ram (kaddr - physBase + j)) := by
  unfold Ram.kernelBytes at h ⊢
  split
  · rename_i hle
    rw [if_pos hle, length_map, length_range] at h
    rw [getElem?_map, getElem?_range h, Option.map_some]
  · rename_i hle
    simp [hle] at h

section Strtok

variable {bs : List UInt8} (tail : List UInt8) (h0 : ∀ b ∈ bs, b ≠ 0)
include h0

/-- `strtok_r` puts a null byte in the place of the space that ends the first word. -/
theorem strtokR_space {j : Nat} (h : SpaceAfterFirstWord bs j) :
    (strtokR [space] (bs ++ 0 :: tail) 0).buf = (bs ++ 0 :: tail).set j 0 ∧ (bs ++ 0 :: tail)[j]? = some space := by
  obtain ⟨sp, w, rest, rfl, hsp, hw, hne, rfl⟩ := h
  have hw0 : ∀ b ∈ w, b ≠ 0 := fun b hb => h0 b (by simp [hb])
  have htok := strtokR_word (d := [space]) (by decide) [] (rest ++ 0 :: tail) (by simpa using hsp) (by simpa using hw) hw0 hne
    (.inr (mem_singleton_self space))
  have htext : sp ++ (w ++ space :: rest) ++ 0 :: tail = (sp ++ w) ++ space :: (rest ++ 0 :: tail) := by simp
  have hset : ((sp ++ w) ++ space :: (rest ++ 0 :: tail)).set (sp.length + w.length) 0 = (sp ++ w) ++ 0 ::
      (rest ++ 0 :: tail) := by
    rw [← length_append, set_append_right _ _ le_rfl, Nat.sub_self, set_cons_zero]
  simp only [nil_append, length_nil] at htok
  refine ⟨?_, ?_⟩
  · rw [htext, hset, append_assoc, htok, append_assoc]
  · simp

/-- Where no space ends the first word, `strtok_r` changes nothing. -/
theorem strtokR_noSpace (h : ∀ j, ¬ SpaceAfterFirstWord bs j) : (strtokR [space] (bs ++ 0 :: tail) 0).buf = bs ++ 0 :: tail := by
  rcases space_cases bs with hsp | ⟨sp, w, hsp, hw, hne, rfl | ⟨rest, hbs⟩⟩
  · exact congrArg Strtok.buf (strtokR_none (d := [space]) (by decide) [] (by simpa using hsp))
  · have hw0 : ∀ b ∈ w, b ≠ 0 := fun b hb => h0 b (by simp [hb])
    have htok := strtokR_word (d := [space]) (by decide) [] tail (by simpa using hsp) (by simpa using hw) hw0 hne (.inl rfl)
    simp only [nil_append, length_nil] at htok
    rw [append_assoc, htok]
  · exact absurd ⟨sp, w, rest, hbs, hsp, hw, hne, rfl⟩ (h _)

end Strtok

/-- Storing what is there changes nothing. -/
theorem splice_same {base : Nat} {text : List UInt8} (h : ∀ j < text.length, text[j]? = some (ram (base + j))) :
    Bytes.splice ram base text = ram := by
  funext a
  by_cases ha : base ≤ a ∧ a - base < text.length
  · obtain ⟨hle, hlt⟩ := ha
    have hj := h (a - base) hlt
    rw [Nat.add_sub_cancel' hle] at hj
    rw [Bytes.splice, if_pos hle, getD_eq_getElem?_getD, hj, Option.getD_some]
  · exact Bytes.splice_outside _ _ _ _ (by omega)

/-- Storing what is there, but for one byte, changes that byte. -/
theorem splice_set {base j : Nat} {text : List UInt8} {b : UInt8} (h : ∀ j < text.length, text[j]? = some (ram (base + j)))
    (hj : j < text.length) : Bytes.splice ram base (text.set j b) = update ram (base + j) b := by
  funext a
  rcases eq_or_ne a (base + j) with rfl | hne
  · rw [update_self, Bytes.splice_inside _ _ _ _ (by simpa using hj), getD_eq_getElem?_getD, getElem?_set_self hj,
      Option.getD_some]
  rw [update_of_ne hne]
  by_cases hle : base ≤ a
  · have hsame := congrFun (splice_same h) a
    rw [Bytes.splice, if_pos hle] at hsame ⊢
    rw [getD_eq_getElem?_getD, getElem?_set_ne (by omega), ← getD_eq_getElem?_getD, hsame]
  · exact Bytes.splice_outside _ _ _ _ (.inl (by omega))

/-- A successful call leaves the caller's memory as it was just if the space that ends the first word, as the kernel sees it,
is no byte of the caller's. -/
theorem sysExec_sameMemory {c : Caller r} {file : Nat} (h : (sysExec c env file ram).started = some (ram', st)) :
    c.SameMemory ram ram' ↔
      ∀ j, SpaceAfterFirstWord (c.kernelString ram file) j → ∀ v, c.pagedir.translate v ≠ some (c.physAddr file + j) := by
  obtain ⟨-, ⟨tail, htext, hram⟩, -⟩ := sysExec_started h
  have h0 : ∀ b ∈ c.kernelString ram file, b ≠ 0 := (cstr _).noNul
  have hbytes : ∀ j < (c.kernelString ram file ++ 0 :: tail).length,
      (c.kernelString ram file ++ 0 :: tail)[j]? = some (ram (c.physAddr file + j)) := by
    rw [← htext]
    exact fun j hj => kernelBytes_getElem? hj
  -- the one byte that is changed
  have hspace : ∀ j, SpaceAfterFirstWord (c.kernelString ram file) j →
      ram' = update ram (c.physAddr file + j) 0 ∧ ram (c.physAddr file + j) = space := by
    intro j hj
    obtain ⟨hbuf, hget⟩ := strtokR_space tail h0 hj
    have hlt : j < (c.kernelString ram file ++ 0 :: tail).length := (List.getElem?_eq_some_iff.mp hget).1
    refine ⟨by rw [hram, hbuf, splice_set hbytes hlt], ?_⟩
    have hb := hbytes j hlt
    rw [hget] at hb
    exact (Option.some.inj hb).symm
  constructor
  · intro hsame j hj v hv
    obtain ⟨hupd, hold⟩ := hspace j hj
    have heq := hsame v _ hv
    rw [hupd, update_self, hold] at heq
    exact absurd heq (by decide)
  · intro hown v a hv
    by_cases hex : ∃ j, SpaceAfterFirstWord (c.kernelString ram file) j
    · obtain ⟨j, hj⟩ := hex
      rw [(hspace j hj).1, update_of_ne]
      rintro rfl
      exact hown j hj v hv
    · rw [hram, strtokR_noSpace tail h0 (fun j hj => hex ⟨j, hj⟩), splice_same hbytes]

/-- The string that the caller has in its memory depends on its memory only. -/
theorem validateString_congr {c : Caller r} (h : c.SameMemory ram ram') (file : Nat) :
    c.validateString ram' file = c.validateString ram file := by
  have hbyte : ∀ p, c.userByte ram' p = c.userByte ram p := by
    intro p
    unfold Caller.userByte
    cases ht : c.pagedir.translate p with
    | none => rfl
    | some a => simp [h p a ht]
  unfold Caller.validateString
  generalize 512 = n
  induction n generalizing file with
  | zero => rfl
  | succ n ih => simp [Caller.validateFrom, hbyte, ih]

/-! ## Two calls -/

/-- The condition under which a call is right, in the memory before it: the kernel sees the words of the caller's string, up
to the size of a page, and the space that ends the first word, as it sees it, is no byte of the caller's. -/
structure Caller.SeesString (c : Caller r) (file : Nat) (ram : Ram) : Prop where
  sameWords : ∀ s, c.validateString ram file = some s → words (c.execLine ram file) = words s
  notOwn : ∀ j, SpaceAfterFirstWord (c.kernelString ram file) j → ∀ v, c.pagedir.translate v ≠ some (c.physAddr file + j)

/-- Two successful calls of `exec` with one pointer, the second in the memory that the first has left. Both leave the
caller's memory as it was, and give their child the words of the string, just if the kernel sees the string, each time. -/
theorem exec_twice (c : Caller r) (env1 env2 : ExecEnv) (file : Nat) (s : List UInt8) (ram1 ram1' ram2 ram2' : Ram)
    (st1 st2 : UserStack)
    (hs : c.validateString ram1 file = some s) (h1 : (sysExec c env1 file ram1).started = some (ram1', st1))
    (hbetween : c.SameMemory ram1' ram2) (h2 : (sysExec c env2 file ram2).started = some (ram2', st2)) :
    (c.SameMemory ram1 ram1' ∧ c.SameMemory ram2 ram2' ∧ argv st1.mem st1.esp = words s ∧ argv st2.mem st2.esp = words s) ↔
      c.SeesString file ram1 ∧ c.SeesString file ram2 := by
  have hargv1 := sysExec_argv h1
  have hargv2 := sysExec_argv h2
  -- the caller's string before the second call, if the first has left its memory as it was
  have hsecond : c.SameMemory ram1 ram1' → c.validateString ram2 file = some s := by
    intro hsame
    rw [validateString_congr hbetween, validateString_congr hsame, hs]
  constructor
  · rintro ⟨hsame1, hsame2, hw1, hw2⟩
    refine ⟨⟨fun s' hs' => ?_, (sysExec_sameMemory h1).mp hsame1⟩, ⟨fun s' hs' => ?_, (sysExec_sameMemory h2).mp hsame2⟩⟩
    · rw [hs] at hs'
      cases hs'
      rw [← hargv1, hw1]
    · rw [hsecond hsame1] at hs'
      cases hs'
      rw [← hargv2, hw2]
  · rintro ⟨hsees1, hsees2⟩
    have hsame1 := (sysExec_sameMemory h1).mpr hsees1.notOwn
    refine ⟨hsame1, (sysExec_sameMemory h2).mpr hsees2.notOwn, ?_, ?_⟩
    · rw [hargv1, hsees1.sameWords s hs]
    · rw [hargv2, hsees2.sameWords s (hsecond hsame1)]

/-! ## Two strings in one page -/

/-- One frame of memory. -/
def oneFrame : RamSize := ⟨1, by decide⟩

/-- A caller that has the frame at the user page `0x08048000`. -/
def onePage : Caller oneFrame where
  pagedir :=
    { table := fun i => if i = 32 then some (fun j => { present := j == 72, writable := true, frame := 0 }) else none
      inRam := by
        intro i t j ht _
        split at ht
        · cases ht
          exact Nat.zero_lt_one
        · cases ht }
  fds := []
  fromTwo := by simp

/-- The end of the frame: a string at the user address `0x08048ff8`. -/
def stringAtEnd (bs : List UInt8) : Ram := Bytes.splice (fun _ => 0) 4088 bs

/-- A kernel in which every allocation succeeds and every executable loads. -/
def allSucceed : ExecEnv :=
  { page := some [], thread := true, pagedir := true, heap := true, loads := fun _ => true, stackPage := true,
    writable := fun a => decide (physBase ≤ a + pgsize ∧ a < physBase), mem := fun _ => 0 }

/-- A string of one letter is seen as it is. -/
theorem sees_letter {ram : Ram} (hs : onePage.validateString ram 0x08048ff8 = some [97])
    (hk : onePage.kernelString ram 0x08048ff8 = [97]) : onePage.SeesString 0x08048ff8 ram := by
  constructor
  · intro s hs'
    rw [hs] at hs'
    cases hs'
    rw [Caller.execLine, hk]
    decide
  · rintro j ⟨sp, w, rest, hbs, -⟩
    have hmem : space ∈ ([97] : List UInt8) := by
      rw [← hk, hbs]
      simp
    exact absurd hmem (by decide)

/-- `exec ("a")`, twice, the second time in the memory that the first leaves: both children get `a`. -/
theorem exec_twice_word :
    ∃ ram1 st1 ram2 st2, (sysExec onePage allSucceed 0x08048ff8 (stringAtEnd [97])).started = some (ram1, st1) ∧
      (sysExec onePage allSucceed 0x08048ff8 ram1).started = some (ram2, st2) ∧
      onePage.SameMemory (stringAtEnd [97]) ram1 ∧ onePage.SameMemory ram1 ram2 ∧
      argv st1.mem st1.esp = [[97]] ∧ argv st2.mem st2.esp = [[97]] := by
  obtain ⟨⟨p, hp, hs1, hk1, hsome⟩, hs, hk⟩ : (∃ p, (sysExec onePage allSucceed 0x08048ff8 (stringAtEnd [97])).started = some p ∧
      onePage.validateString p.1 0x08048ff8 = some [97] ∧ onePage.kernelString p.1 0x08048ff8 = [97] ∧
      (sysExec onePage allSucceed 0x08048ff8 p.1).started.isSome = true) ∧
      onePage.validateString (stringAtEnd [97]) 0x08048ff8 = some [97] ∧
      onePage.kernelString (stringAtEnd [97]) 0x08048ff8 = [97] := by
    decide +kernel
  obtain ⟨q, hq⟩ := Option.isSome_iff_exists.mp hsome
  obtain ⟨hsame1, hsame2, h1, h2⟩ := (exec_twice onePage allSucceed allSucceed 0x08048ff8 [97] _ p.1 p.1 q.1 p.2 q.2 hs hp
    (fun _ _ _ => rfl) hq).mpr ⟨sees_letter hs hk, sees_letter hs1 hk1⟩
  exact ⟨_, _, _, _, hp, hq, hsame1, hsame2, h1, h2⟩

/-- `exec ("a b")`, twice: the first child gets both words, the space in the caller's memory is gone afterwards, and the
second child gets one word. -/
theorem exec_cuts_string :
    onePage.validateString (stringAtEnd [97, 32, 98]) 0x08048ff8 = some [97, 32, 98] ∧ words [97, 32, 98] = [[97], [98]] ∧
    onePage.pagedir.translate 0x08048ff9 = some 4089 ∧ stringAtEnd [97, 32, 98] 4089 = 32 ∧
    ∃ ram1 st1 ram2 st2, (sysExec onePage allSucceed 0x08048ff8 (stringAtEnd [97, 32, 98])).started = some (ram1, st1) ∧
      (sysExec onePage allSucceed 0x08048ff8 ram1).started = some (ram2, st2) ∧
      argv st1.mem st1.esp = [[97], [98]] ∧ ram1 4089 = 0 ∧ argv st2.mem st2.esp = [[97]] := by
  refine ⟨by decide +kernel, by decide, by decide +kernel, by decide, ?_⟩
  obtain ⟨p, hp, q, hq⟩ : ∃ p, (sysExec onePage allSucceed 0x08048ff8 (stringAtEnd [97, 32, 98])).started = some p ∧
      ∃ q, (sysExec onePage allSucceed 0x08048ff8 p.1).started = some q ∧
        argv p.2.mem p.2.esp = [[97], [98]] ∧ p.1 4089 = 0 ∧ argv q.2.mem q.2.esp = [[97]] := by decide +kernel
  exact ⟨_, _, _, _, hp, hq⟩

end Pintos
