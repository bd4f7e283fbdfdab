import Pintos.Lib.String
import Pintos.Userprog.Pagedir

/-!
# The first stack of a process (`userprog/process.c`: `setup_stack`)

`setup_stack` maps a zeroed page at the top of user memory, and puts on it the words of the command line, their addresses,
the address of these and their number. It stores at user addresses, which the processor translates: where an address is not
mapped, or not writable, the kernel faults.

The memory of the new process is seen here as its user program sees it, by user addresses.
-/

namespace Pintos

/-- The memory of the new process and `*esp`. -/
structure UserStack where
  mem : Bytes.Memory
  esp : Nat

/-- `*esp` is lowered and bytes are stored there. `writable` are the addresses at which the store does not fault. -/
def UserStack.push (writable : Nat → Bool) (st : UserStack) (bs : List UInt8) : Option UserStack :=
  let esp := st.esp - bs.length
  if (List.range bs.length).all (fun i => writable (esp + i)) then some { mem := Bytes.splice st.mem esp bs, esp := esp }
  else none

/-- The loop over the tokens: each is copied to the stack, with its null byte. Gives the stack and `arg_locations`. -/
def pushStrings (writable : Nat → Bool) : List (List UInt8) → UserStack → Option (UserStack × List Nat)
  | [], st => some (st, [])
  | token :: rest, st =>
    match st.push writable (token ++ [0]) with
    | none => none
    | some st1 => (pushStrings writable rest st1).map (fun r => (r.1, st1.esp :: r.2))

/-- The loop that stores words, the last one first, so that they stand in their order. -/
def pushWords (writable : Nat → Bool) : List Nat → UserStack → Option UserStack
  | [], st => some st
  | v :: vs, st => (pushWords writable vs st).bind (fun st1 => st1.push writable (Bytes.wordBytes v))

/-- The alignment: `*esp` is lowered so that it is a multiple of 16 after the words that are still to come. -/
def UserStack.align (argc : Nat) (st : UserStack) : UserStack := { st with esp := st.esp - (st.esp - (argc + 3) * 4) % 16 }

/-- `setup_stack` from the point where the page is mapped, over the memory that `stack_args` points to. The array
`arg_locations` has room for 100 addresses; what happens when there are more is not modelled as a stack. -/
def setupStack (writable : Nat → Bool) (mem : Bytes.Memory) (stackArgs : List UInt8) : Option UserStack :=
  let args := (tokenize stackArgs).1
  if 100 < args.length then none
  else
    match pushStrings writable args { mem := mem, esp := physBase } with
    | none => none
    | some (st, locations) =>
      -- the addresses of the strings and a null pointer, then `argv`, then `argc`
      match pushWords writable (locations ++ [0]) (st.align args.length) with
      | none => none
      | some st1 =>
        -- the place of the return address is left as it is
        (pushWords writable [args.length, st1.esp] st1).map (fun st2 => { st2 with esp := st2.esp - 4 })

/-- The string at a user address. -/
def userString (mem : Bytes.Memory) (a : Nat) : List UInt8 := (cstr (Bytes.slice mem a (physBase - a))).bytes

/-- What `main` of the user program gets as `argv`, entered with this stack pointer: as many strings as `argc` says. -/
def argv (mem : Bytes.Memory) (esp : Nat) : List (List UInt8) :=
  (List.range (Bytes.wordAt mem (esp + 4))).map (fun i => userString mem (Bytes.wordAt mem (Bytes.wordAt mem (esp + 8) + 4 * i)))

end Pintos
