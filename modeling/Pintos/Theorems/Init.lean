import Pintos.Lemmas.Disk
import Pintos.Threads.Init

/-!
# The kernel command line, from the host to the kernel

The host limits the bytes of the command line; the array of the kernel limits the number of arguments. The arguments come
through exactly where there are at most 64 of them, which empty arguments can exceed within the 128 bytes.

The option `-rs` sets the seed of the generator, and the end of `parse_options` sets it again, from the clock.
-/

namespace Pintos

open List

/-! ## The arguments -/

variable (m : Bytes.Memory) (argv : List CString) (line : List UInt8) (args : List CString)

/-- A string stands at an address, with its null byte. -/
def HoldsString (p : Nat) (s : CString) : Prop := Bytes.slice m p s.strlen = s.bytes ∧ m (p + s.strlen) = 0

/-- The bytes of a list of arguments, each with its null byte. -/
def joined : List UInt8 := args.flatMap (fun a => a.bytes ++ [0])

theorem joined_cons (a : CString) (args : List CString) : joined (a :: args) = a.bytes ++ 0 :: joined args := by
  simp [joined]

theorem joined_length_cons (a : CString) (args : List CString) :
    (joined (a :: args)).length = a.strlen + 1 + (joined args).length := by
  rw [joined_cons, length_append, length_cons, CString.strlen]
  omega

theorem length_le_joined : args.length ≤ (joined args).length := by
  induction args with
  | nil => exact Nat.le_refl 0
  | cons a args ih =>
    rw [joined_length_cons, length_cons]
    omega

/-- `strnlen` counts the bytes before the first null byte, where it comes within the length. -/
theorem strnlen_bytes (bytes : List UInt8) (p maxlen : Nat) (hnul : ∀ b ∈ bytes, b ≠ 0) (hmax : bytes.length < maxlen)
    (hslice : Bytes.slice m p bytes.length = bytes) (hend : m (p + bytes.length) = 0) : strnlen m p maxlen = bytes.length := by
  induction bytes generalizing p maxlen with
  | nil =>
    obtain ⟨n, rfl⟩ : ∃ n, maxlen = n + 1 := Nat.exists_eq_add_one.mpr hmax
    have h0 : m p = 0 := hend
    simp [strnlen, h0]
  | cons b bs ih =>
    rw [length_cons] at hmax hslice hend ⊢
    obtain ⟨n, rfl⟩ : ∃ n, maxlen = n + 1 := ⟨maxlen - 1, by omega⟩
    rw [Nat.add_comm bs.length 1, Bytes.slice_add] at hslice
    obtain ⟨hb, hbs⟩ := cons.inj (show m (p + 0) :: Bytes.slice m (p + 1) bs.length = b :: bs from hslice)
    have hne : m p ≠ 0 := by
      rw [show m p = b from hb]
      exact hnul b mem_cons_self
    have hrest := ih (p + 1) n (fun c hc => hnul c (mem_cons_of_mem _ hc)) (by omega) hbs
      (by rw [Nat.add_assoc, Nat.add_comm 1]; exact hend)
    simp only [strnlen, if_pos hne, hrest]

/-- The first of several arguments stands at the start of their bytes, and the others behind it. -/
theorem holdsString_of_joined {m : Bytes.Memory} {p : Nat} {a : CString} {args : List CString}
    (h : Bytes.slice m p (joined (a :: args)).length = joined (a :: args)) :
    HoldsString m p a ∧ Bytes.slice m (p + a.strlen + 1) (joined args).length = joined args := by
  rw [joined_length_cons, Nat.add_assoc, Bytes.slice_add, Bytes.slice_add, joined_cons] at h
  obtain ⟨h1, h2⟩ := append_inj h (by simp [CString.strlen])
  have h3 := cons.inj (show m (p + a.strlen + 0) :: Bytes.slice m (p + a.strlen + 1)
    (joined args).length = 0 :: joined args from h2)
  exact ⟨⟨h1, h3.1⟩, h3.2⟩

/-- What the loop over the arguments leaves in the array from element `i` on: a pointer to each argument, and the other
elements as they were. -/
structure Pointed (m : Bytes.Memory) (i : Nat) (args : List CString) (argv argv' : List (Option Nat)) : Prop where
  length : argv'.length = argv.length
  args : ∀ k a, args[k]? = some a → ∃ p, argv'[i + k]? = some (some p) ∧ HoldsString m p a
  before : ∀ k, k < i → argv'[k]? = argv[k]?

/-- The loop over arguments that stand behind each other within the area: it fills the array, or comes to its end. -/
theorem readArguments_joined {m : Bytes.Memory} (args : List CString) (i p : Nat) (argv : List (Option Nat))
    (hi : i ≤ argv.length)
    (hslice : Bytes.slice m p (joined args).length = joined args) (hp : p + (joined args).length ≤ loaderArgs + loaderArgsLen) :
    (i + args.length ≤ argv.length → ∃ argv', readArguments m args.length i p argv = .ok argv' ∧ Pointed m i args argv argv') ∧
      (argv.length < i + args.length → readArguments m args.length i p argv = .error (.outsideArgv argv.length)) := by
  induction args generalizing i p argv with
  | nil =>
    refine ⟨fun _ => ⟨argv, rfl, rfl, fun k a hk => ?_, fun k _ => rfl⟩, fun h => ?_⟩
    · cases hk
    · simp only [length_nil] at h
      omega
  | cons a args ih =>
    obtain ⟨hstr, hrest⟩ := holdsString_of_joined hslice
    rw [joined_length_cons] at hp
    have hstop : ¬loaderArgs + loaderArgsLen ≤ p := by omega
    have hn : strnlen m p (loaderArgs + loaderArgsLen - p) = a.strlen :=
      strnlen_bytes m a.bytes p _ a.noNul (show a.strlen < _ by omega) hstr.1 hstr.2
    by_cases hfull : i < argv.length
    · have hset : setArgv argv i (some p) = .ok (argv.set i (some p)) := by
        have : (0 : Int) ≤ (i : Int) ∧ (i : Int) < argv.length := by omega
        rw [setArgv, if_pos this]
        rfl
      have hturn : readArguments m (a :: args).length i p argv =
          readArguments m args.length (i + 1) (p + a.strlen + 1) (argv.set i (some p)) := by
        simp only [length_cons, readArguments, if_neg hstop, hset, hn]
        rfl
      obtain ⟨hok, herr⟩ := ih (i + 1) (p + a.strlen + 1) (argv.set i (some p)) (by rw [length_set]; exact hfull) hrest (by omega)
      rw [hturn]
      rw [length_set] at hok herr
      refine ⟨fun h => ?_, fun h => herr (by rw [length_cons] at h; omega)⟩
      obtain ⟨argv', hread, hl, hargs, hbefore⟩ := hok (by rw [length_cons] at h; omega)
      refine ⟨argv', hread, by rw [hl, length_set], fun k b hk => ?_, fun k hk => ?_⟩
      · cases k with
        | zero =>
          cases hk
          refine ⟨p, ?_, hstr⟩
          rw [Nat.add_zero, hbefore i (Nat.lt_succ_self i), getElem?_set_self hfull]
        | succ k =>
          obtain ⟨q, hq, hs⟩ := hargs k b hk
          exact ⟨q, by rw [← hq]; congr 1; omega, hs⟩
      · rw [hbefore k (by omega), getElem?_set_ne (by omega)]
    · refine ⟨fun h => absurd h (by rw [length_cons]; omega), fun _ => ?_⟩
      have hset : setArgv argv i (some p) = .error (.outsideArgv argv.length) := by
        have : ¬((0 : Int) ≤ (i : Int) ∧ (i : Int) < argv.length) := by omega
        rw [setArgv, if_neg this, show i = argv.length by omega]
      simp only [length_cons, readArguments, if_neg hstop, hset]
      rfl

/-- The memory holds what `make_kernel_command_line` made. -/
def HoldsLine : Prop := Bytes.slice m 0 line.length = line

/-- `read_command_line` returns exactly the arguments: a pointer to each in its order, then a null pointer, all within the
array. -/
def ReadsArguments : Prop :=
  ∃ argv : List (Option Nat), readCommandLine m = .ok argv ∧
    (∀ (k : Nat) a, args[k]? = some a → ∃ p, argv[k]? = some (some p) ∧ HoldsString m p a) ∧
    argv[args.length]? = some none

/-- What the memory holds once the command line is in it: the count and the bytes of the arguments. -/
theorem HoldsLine.count_and_bytes {m : Bytes.Memory} {args : List CString} {line : List UInt8}
    (hline : makeKernelCommandLine args = some line) (h : HoldsLine m line) :
    argCount m = args.length ∧ Bytes.slice m loaderArgs (joined args).length = joined args ∧
    (joined args).length ≤ loaderArgsLen := by
  unfold makeKernelCommandLine at hline
  simp only at hline
  split at hline
  · cases hline
  rename_i hlen
  have hlen' : (joined args).length ≤ 128 := Nat.not_lt.mp hlen
  cases hline
  unfold HoldsLine at h
  rw [length_append, packA_length, Bytes.slice_add] at h
  obtain ⟨hcount, hbytes⟩ := append_inj h (by simp)
  have hargs := length_le_joined args
  have hword : Bytes.wordAt m 0 = args.length := by
    rw [Bytes.wordAt_of_slice hcount, Nat.mod_eq_of_lt (by omega)]
  refine ⟨?_, ?_, hlen'⟩
  · unfold argCount
    simp only [hword]
    rw [if_pos (by omega)]
  rw [show 128 = (joined args).length + (128 - (joined args).length) by omega, Bytes.slice_add, packA] at hbytes
  have htake : (joined args ++ replicate ((joined args).length + (128 - (joined args).length)) 0).take
      ((joined args).length + (128 - (joined args).length)) =
        joined args ++ replicate (128 - (joined args).length) 0 := by
    rw [take_length_add_append, take_replicate]
    congr 2
    omega
  exact (append_inj (hbytes.trans htake) (by simp)).1

section RoundTrip

variable {args : List CString} {line : List UInt8} (hline : makeKernelCommandLine args = some line) {m : Bytes.Memory}
  (hm : HoldsLine m line)

include hline hm

/-- With at most 64 arguments, there is an element for each of them and one for the null pointer. -/
theorem readsArguments_of_few (hfew : args.length ≤ 64) : ReadsArguments m args := by
  obtain ⟨hcount, hslice, hlen⟩ := hm.count_and_bytes hline
  have hsize : staticArgv.length = 65 := by decide
  obtain ⟨argv, hargs, hp⟩ := (readArguments_joined args 0 loaderArgs staticArgv (Nat.zero_le _) hslice (by omega)).1 (by omega)
  have hroom : args.length < argv.length := by rw [hp.length, hsize]; omega
  refine ⟨argv.set args.length none, ?_, fun k a hk => ?_, getElem?_set_self hroom⟩
  · unfold readCommandLine
    rw [hcount, Int.toNat_natCast, hargs]
    simp only [bind, Except.bind]
    rw [setArgv, if_pos (by omega)]
    rfl
  · obtain ⟨p, hp', hs⟩ := hp.args k a hk
    have hne : args.length ≠ k := by
      have := (List.getElem?_eq_some_iff.mp hk).1
      omega
    exact ⟨p, by rw [getElem?_set_ne hne, ← hp', Nat.zero_add], hs⟩

/-- With more, the loop stores outside the array; with 65 it is the null pointer that has no room. -/
theorem not_readsArguments_of_many (hmany : 64 < args.length) : ¬ReadsArguments m args := by
  rintro ⟨argv, hread, -, -⟩
  obtain ⟨hcount, hslice, hlen⟩ := hm.count_and_bytes hline
  have hsize : staticArgv.length = 65 := by decide
  obtain ⟨hok, herr⟩ := readArguments_joined args 0 loaderArgs staticArgv (Nat.zero_le _) hslice (by omega)
  unfold readCommandLine at hread
  rw [hcount, Int.toNat_natCast] at hread
  by_cases h65 : args.length = 65
  · obtain ⟨argv', hargs, hp⟩ := hok (by omega)
    have hset : setArgv argv' args.length none = .error (.outsideArgv args.length) := by
      rw [setArgv, if_neg (by rw [hp.length, hsize]; omega)]
    rw [hargs] at hread
    simp only [bind, Except.bind, hset] at hread
    cases hread
  · rw [herr (by omega)] at hread
    cases hread

end RoundTrip

/-- **The command line comes through exactly where the array has room.** For every list of arguments that
`make_kernel_command_line` accepts, `read_command_line` gives the arguments back, with the null pointer after them and no
store outside `argv`, if and only if there are at most 64 of them. -/
theorem readCommandLine_round_trip_iff (args : List CString) (line : List UInt8) (hline : makeKernelCommandLine args = some line)
    (m : Bytes.Memory) (hm : HoldsLine m line) : ReadsArguments m args ↔ args.length ≤ 64 := by
  constructor
  · intro h
    by_contra hmany
    exact not_readsArguments_of_many hline hm (by omega) h
  · exact readsArguments_of_few hline hm

/-- The memory that starts with the bytes of a command line. -/
def memoryOf : Bytes.Memory := fun k => line.getD k 0

theorem holdsLine_memoryOf : HoldsLine (memoryOf line) line := by
  refine ext_getElem (by simp) (fun k h1 h2 => ?_)
  simp only [Bytes.slice, getElem_map, getElem_range, memoryOf, Nat.zero_add]
  exact getD_eq_getElem _ _ h2

/-- Two arguments, the second one empty, come through. -/
theorem two_arguments_read :
    ∃ line, makeKernelCommandLine [cstr (ascii "-q"), cstr []] = some line ∧
      ReadsArguments (memoryOf line) [cstr (ascii "-q"), cstr []] :=
  ⟨_, rfl, (readCommandLine_round_trip_iff [cstr (ascii "-q"), cstr []] _ rfl _ (holdsLine_memoryOf _)).mpr (by decide)⟩

/-- The command line of 65 empty arguments takes 65 bytes, and the null pointer after them does not fit the array. -/
theorem empty_arguments_overflow :
    ∃ line, makeKernelCommandLine (replicate 65 (cstr [])) = some line ∧
      ¬ReadsArguments (memoryOf line) (replicate 65 (cstr [])) := by
  have hline : ∃ line, makeKernelCommandLine (replicate 65 (cstr [])) = some line := Option.isSome_iff_exists.mp (by decide)
  obtain ⟨line, hline⟩ := hline
  exact ⟨line, hline, not_readsArguments_of_many hline (holdsLine_memoryOf line) (by decide)⟩

/-! ## The seed -/

/-- The seed that the options ask for: that of the last `-rs` among them, if it has a value. -/
def requestedSeed : Option Nat :=
  ((argv.takeWhile isOption).filterMap (fun arg =>
    if (splitOption arg).1.bytes = ascii "-rs" then (splitOption arg).2.map atoi else none)).getLast?

/-- Two boots whose clocks read differently give the stream of the seed that was asked for. -/
def Reproducible (clock1 clock2 : Nat) : Prop :=
  ∀ seed, requestedSeed argv = some seed → ∀ clock, clock = clock1 ∨ clock = clock2 →
    ∀ o rest, parseOptions clock argv = .ok (o, rest) →
    ∀ size, (randomBytes o.random size).1 = (randomBytes (randomInit seed) size).1

variable {clock : Nat} {argv rest : List CString} {o : Options}

section

variable (h : parseOptions clock argv = .ok (o, rest))
include h

/-- Whether `parse_options` returns does not depend on the clock. -/
theorem parseOptions_other_clock (clock' : Nat) :
    parseOptions clock' argv = .ok ({ o with random := randomInit clock' }, rest) := by
  unfold parseOptions at h ⊢
  cases hl : (argv.takeWhile isOption).foldlM parseOption .unset with
  | error e =>
    rw [hl] at h
    cases h
  | ok o' =>
    rw [hl] at h
    cases h
    rfl

/-- Whatever the options, the generator is the one that the clock makes. -/
theorem parseOptions_random : o.random = randomInit clock := by
  have hsame := Except.ok.inj (h.symm.trans (parseOptions_other_clock h clock))
  exact congrArg (·.1.random) hsame

/-- No option list gives the stream of the seed it asks for under every clock: the first bytes differ already for one of two
clocks. -/
theorem not_reproducible {seed : Nat} (hseed : requestedSeed argv = some seed) : ¬Reproducible argv 2678400 2678401 := by
  intro hr
  have h0 := hr seed hseed _ (.inl rfl) _ _ (parseOptions_other_clock h _) 1
  have h1 := hr seed hseed _ (.inr rfl) _ _ (parseOptions_other_clock h _) 1
  exact randomBytes_clock_ne (h0.trans h1.symm)

end

/-- **What becomes of a requested seed.** After `parse_options` the generator is the one that the clock makes, whatever the
options were. So two boots give the stream of the seed that an option list asks for when the clock of each reads that seed,
modulo 2^32; and no option list with a seed that `parse_options` accepts is one for which any two boots do. -/
theorem requested_seed_is_lost (argv : List CString) :
    (∀ clock o rest, parseOptions clock argv = .ok (o, rest) → o.random = randomInit clock) ∧
      (∀ clock1 clock2, (∀ seed, requestedSeed argv = some seed → clock1 % 2 ^ 32 = seed % 2 ^ 32 ∧
        clock2 % 2 ^ 32 = seed % 2 ^ 32) → Reproducible argv clock1 clock2) ∧
      ((∃ clock o rest, parseOptions clock argv = .ok (o, rest)) → (∃ seed, requestedSeed argv = some seed) →
        ¬∀ clock1 clock2, Reproducible argv clock1 clock2) := by
  refine ⟨fun clock o rest h => parseOptions_random h, ?_, ?_⟩
  · intro clock1 clock2 hclock seed hseed clock hc o rest h size
    obtain ⟨h1, h2⟩ := hclock seed hseed
    have hmod : clock % 2 ^ 32 = seed % 2 ^ 32 := by
      rcases hc with rfl | rfl
      · exact h1
      · exact h2
    rw [parseOptions_random h, ← randomInit_mod clock, hmod, randomInit_mod]
  · rintro ⟨clock, o, rest, h⟩ ⟨seed, hseed⟩ hall
    exact not_reproducible h hseed (hall _ _)

/-- With the option `-rs=1`, boots at the first two times that the clock can give do not both give the stream of the seed
1. -/
theorem rs_one_not_reproducible : requestedSeed [cstr (ascii "-rs=1")] = some 1 ∧
    ¬Reproducible [cstr (ascii "-rs=1")] 2678400 2678401 := by
  have hseed : requestedSeed [cstr (ascii "-rs=1")] = some 1 := by decide
  have hparse : ∃ o rest, parseOptions 0 [cstr (ascii "-rs=1")] = .ok (o, rest) := ⟨_, _, rfl⟩
  obtain ⟨o, rest, h⟩ := hparse
  exact ⟨hseed, not_reproducible h hseed⟩

end Pintos
