import Pintos.Lib.Random
import Pintos.Lib.String
import Pintos.Library.Bytes

/-!
# The kernel command line (`threads/init.c`)

The loader leaves the number of arguments in memory, and behind it 128 bytes with the arguments, each ended by a null byte.
`read_command_line` makes an array of pointers to them, and `parse_options` takes the options off its front. Both run before
there are threads.

The memory is counted from `LOADER_ARG_CNT` on, so that the arguments start at byte 4.
-/

namespace Pintos

/-- `LOADER_ARGS`: where the arguments start. -/
def loaderArgs : Nat := 4

/-- `LOADER_ARGS_LEN`: the bytes that the arguments have. -/
def loaderArgsLen : Nat := 128

/-- Why a boot stops before there are threads. -/
inductive BootFault where
  /-- `PANIC ("command line arguments overflow")` -/
  | argumentsOverflow
  /-- A store outside the static array of `read_command_line`, which C leaves undefined. -/
  | outsideArgv (i : Int)
  /-- `usage`, which powers off. -/
  | usage
  /-- `PANIC` over an unknown option. -/
  | unknownOption (name : CString)
  /-- The assertion of `atoi` that its string is not a null pointer. -/
  | nullString

/-! ## The arguments -/

/-- `strnlen`. The loop tests the byte before the length; the byte it may read past the end decides nothing. -/
def strnlen (m : Bytes.Memory) (string : Nat) : Nat → Nat
  | 0 => 0
  | maxlen + 1 => if m string ≠ 0 then strnlen m (string + 1) maxlen + 1 else 0

/-- The static array `argv` of `read_command_line`: addresses, or null pointers. -/
def staticArgv : List (Option Nat) := List.replicate (loaderArgsLen / 2 + 1) none

/-- A store to an element of `argv`. -/
def setArgv (argv : List (Option Nat)) (i : Int) (p : Option Nat) : Except BootFault (List (Option Nat)) :=
  if 0 ≤ i ∧ i < argv.length then .ok (argv.set i.toNat p) else .error (.outsideArgv i)

/-- The loop of `read_command_line` from argument `i` on, for a number of further arguments, with `p` at the next one. -/
def readArguments (m : Bytes.Memory) : Nat → Nat → Nat → List (Option Nat) → Except BootFault (List (Option Nat))
  | 0, _, _, argv => .ok argv
  | n + 1, i, p, argv => do
    let stop := loaderArgs + loaderArgsLen
    if stop ≤ p then throw .argumentsOverflow
    let argv ← setArgv argv i (some p)
    readArguments m n (i + 1) (p + strnlen m p (stop - p) + 1) argv

/-- The number of arguments, an `int` made of 32 bits. -/
def argCount (m : Bytes.Memory) : Int :=
  let count := Bytes.wordAt m 0
  if count < 2 ^ 31 then count else count - 2 ^ 32

/-- `read_command_line`: the array that it returns. -/
def readCommandLine (m : Bytes.Memory) : Except BootFault (List (Option Nat)) := do
  let argv ← readArguments m (argCount m).toNat 0 loaderArgs staticArgv
  setArgv argv (argCount m) none

/-! ## The options -/

/-- `isspace`. -/
def isspace (b : UInt8) : Bool := b == 32 || b == 12 || b == 10 || b == 13 || b == 9 || b == 11

/-- `isdigit`. -/
def isdigit (b : UInt8) : Bool := decide (48 ≤ b.toNat) && decide (b.toNat ≤ 57)

/-- The loop of `atoi` over the digits, which counts downwards in an `int`; the result is kept modulo 2^32. -/
def atoiDigits (digits : List UInt8) : Int := digits.foldl (fun value b => (value * 10 - ((b.toNat : Int) - 48)) % 2 ^ 32) 0

/-- `atoi`, as the unsigned number that its `int` converts to. -/
def atoi (s : CString) : Nat :=
  let s := s.bytes.dropWhile isspace
  let negative := s.head? == some 45
  let s := if s.head? = some 43 ∨ s.head? = some 45 then s.tail else s
  let value := atoiDigits (s.takeWhile isdigit)
  ((if negative then value else -value) % 2 ^ 32).toNat

/-- `enum shutdown_type`. -/
inductive ShutdownType where
  | none
  | powerOff
  | reboot
  deriving DecidableEq, Repr

/-- What the options set. -/
structure Options where
  shutdown : ShutdownType
  formatFilesys : Bool
  filesysBdevName : Option CString
  scratchBdevName : Option CString
  threadMlfqs : Bool
  userPageLimit : Nat
  random : Random

/-- The settings before any option. -/
def Options.unset : Options :=
  { shutdown := .none, formatFilesys := false, filesysBdevName := none, scratchBdevName := none, threadMlfqs := false,
    userPageLimit := 2 ^ 32 - 1, random := .unset }

/-- The two calls of `strtok_r` on an option: its name up to the first `=`, and what follows, or a null pointer where nothing
does. -/
def splitOption (arg : CString) : CString × Option CString :=
  let name := strtokR (ascii "=") (arg.bytes ++ [0]) 0
  let value := strtokR [] name.buf name.save
  (cstr (value.buf.drop (name.token.getD 0)), value.token.map (fun t => cstr (value.buf.drop t)))

/-- `atoi` on a value that may be a null pointer. -/
def atoiValue : Option CString → Except BootFault Nat
  | none => .error .nullString
  | some value => .ok (atoi value)

/-- The body of the loop of `parse_options`, as the kernel with user programs and a file system has it. -/
def parseOption (o : Options) (arg : CString) : Except BootFault Options := do
  let (name, value) := splitOption arg
  if name.bytes = ascii "-h" then throw .usage
  else if name.bytes = ascii "-q" then return { o with shutdown := .powerOff }
  else if name.bytes = ascii "-r" then return { o with shutdown := .reboot }
  else if name.bytes = ascii "-f" then return { o with formatFilesys := true }
  else if name.bytes = ascii "-filesys" then return { o with filesysBdevName := value }
  else if name.bytes = ascii "-scratch" then return { o with scratchBdevName := value }
  else if name.bytes = ascii "-rs" then return { o with random := randomInit (← atoiValue value) }
  else if name.bytes = ascii "-mlfqs" then return { o with threadMlfqs := true }
  else if name.bytes = ascii "-ul" then return { o with userPageLimit := (← atoiValue value) }
  else throw (.unknownOption name)

/-- Whether an argument is an option: `**argv == '-'`. -/
def isOption (arg : CString) : Bool := arg.bytes.head? == some 45

/-- `parse_options`: the settings and the first argument that is not an option, with those after it. At the end the generator
is initialized from the clock, whatever the options were. -/
def parseOptions (rtcGetTime : Nat) (argv : List CString) : Except BootFault (Options × List CString) := do
  let o ← (argv.takeWhile isOption).foldlM parseOption .unset
  return ({ o with random := randomInit rtcGetTime }, argv.dropWhile isOption)

end Pintos
