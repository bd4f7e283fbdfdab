import Pintos.Theorems.UserRange

/-!
# When the read and write system calls transfer the caller's own bytes

The two calls do what they are meant to, for whatever the file layer does and whatever memory holds, exactly when the page
table is kind to them: the ends that they look at decide whether the whole range is mapped, and the frames of the range are
consecutive (and, to read into, writable). `read_into_foreign_frame` is a page table that is not.
-/

namespace Pintos

open List

variable {c : Caller r} {ram : Ram}

variable {r : RamSize} {φ : Type}

/-- The condition under which `SYS_WRITE` is right. The ends of the range decide whether it is mapped, and if the descriptor
is one to write to, the frames of the range are consecutive. -/
def Caller.WriteCondition (c : Caller r) (fd : Int) (buffer size : Nat) : Prop :=
  c.EndsDecide buffer size ∧
    (c.RangeMapped buffer size → fd = 1 ∨ (c.target fd).isSome = true → c.Contiguous buffer size)

/-- The condition under which `SYS_READ` is right. The ends of the range decide whether it is mapped, and if the descriptor
is one to read from, the frames of the bytes that a file may be asked for are consecutive and writable. -/
def Caller.ReadCondition (c : Caller r) (fd : Int) (buffer size : Nat) : Prop :=
  c.EndsDecide buffer size ∧
    (c.RangeMapped buffer size → (c.target fd).isSome = true →
      c.Contiguous buffer (toInt32 size).toNat ∧ ∀ i < (toInt32 size).toNat, c.pagedir.isWritable (buffer + i) = true)

namespace SyscallIoAux

/-- No descriptor below 2 is on the list, so reading from the keyboard, descriptor 0, finds no file. -/
theorem searchFd_zero (c : Caller r) : c.searchFd 0 = none := by
  unfold Caller.searchFd
  rw [Option.map_eq_none_iff, find?_eq_none]
  intro d hd
  have := c.fromTwo d hd
  simp only [beq_iff_eq]
  omega

variable {fd : Int} {file : Nat}

variable (L : FileLayer φ)

theorem syscallRead_none (c : Caller r) (h : c.target fd = none) (k size : Nat) (s : SysState φ) :
    syscallRead L c fd k size s = .returned (toUInt32 (-1)) s := by
  unfold syscallRead
  split
  · rfl
  have hs : c.searchFd fd = none := by
    rcases lt_or_ge fd 2 with hlt | hge
    · obtain rfl : fd = 0 := by omega
      exact searchFd_zero c
    · rwa [Caller.target, if_pos ⟨hge, by omega⟩] at h
  rw [hs]

theorem target_some (h : c.target fd = some file) : 2 ≤ fd ∧ fd ≤ 128 ∧ c.searchFd fd = some file := by
  unfold Caller.target at h
  split at h
  · rename_i hfd
    exact ⟨hfd.1, hfd.2, h⟩
  · cases h

theorem syscallRead_some (c : Caller r) (h : c.target fd = some file) (k size : Nat) (s : SysState φ) :
    syscallRead L c fd k size s = afterRead (Ram.kernelStore r s.ram k) s (L.read file (toInt32 size) s.files) := by
  obtain ⟨h2, h128, hs⟩ := target_some h
  unfold syscallRead
  rw [if_neg (by omega), hs]
  simp only
  rw [if_neg (by omega)]

theorem syscallWrite_none (c : Caller r) (h1 : fd ≠ 1) (h : c.target fd = none) (k size : Nat)
    (s : SysState φ) : syscallWrite L c fd k size s = .returned 0 s := by
  unfold syscallWrite
  rw [if_neg h1]
  split
  · rfl
  · rw [Caller.target, if_pos ⟨by omega, by omega⟩] at h
    rw [h]

theorem syscallWrite_some (c : Caller r) (h : c.target fd = some file) (k size : Nat) (s : SysState φ) :
    syscallWrite L c fd k size s = afterWrite s (L.write file (Ram.kernelBytes r s.ram k size) (toInt32 size) s.files) := by
  obtain ⟨h2, h128, hs⟩ := target_some h
  unfold syscallWrite
  rw [if_neg (by omega), if_neg (by omega), hs]

theorem afterRead_not_exited (store : List UInt8 → Option Ram) (s : SysState φ)
    (v : Except Halt (List UInt8 × Int × φ)) (st : Int) (s' : SysState φ) : afterRead store s v ≠ .exited st s' := by
  unfold afterRead
  split
  · exact nofun
  · split <;> exact nofun

theorem afterWrite_not_exited (s : SysState φ) (v : Except Halt (Int × φ)) (st : Int) (s' : SysState φ) :
    afterWrite s v ≠ .exited st s' := by
  unfold afterWrite
  split <;> exact nofun

/-- Once the buffer has passed the checks the process is not terminated any more. -/
theorem syscallRead_not_exited (c : Caller r) (fd : Int) (k size : Nat) (s : SysState φ) (st : Int)
    (s' : SysState φ) : syscallRead L c fd k size s ≠ .exited st s' := by
  cases ht : c.target fd with
  | none =>
    rw [syscallRead_none L c ht]
    exact nofun
  | some file =>
    rw [syscallRead_some L c ht]
    exact afterRead_not_exited _ _ _ _ _

theorem syscallWrite_not_exited (c : Caller r) (fd : Int) (k size : Nat) (s : SysState φ) (st : Int)
    (s' : SysState φ) : syscallWrite L c fd k size s ≠ .exited st s' := by
  by_cases h1 : fd = 1
  · unfold syscallWrite
    rw [if_pos h1]
    split <;> exact nofun
  cases ht : c.target fd with
  | none =>
    rw [syscallWrite_none L c h1 ht]
    exact nofun
  | some file =>
    rw [syscallWrite_some L c ht]
    exact afterWrite_not_exited _ _ _ _

/-- The read call is not meant to terminate a process whose range is mapped. -/
theorem readMeant_not_exited (c : Caller r) (fd : Int) {buffer size : Nat} (s : SysState φ) (st : Int)
    (s' : SysState φ) (hm : c.RangeMapped buffer size) : readMeant L c fd buffer size s ≠ .exited st s' := by
  unfold readMeant
  rw [if_pos hm]
  split
  · simp
  · exact afterRead_not_exited _ _ _ _ _

theorem writeMeant_not_exited (c : Caller r) (fd : Int) {buffer size : Nat} (s : SysState φ) (st : Int)
    (s' : SysState φ) (hm : c.RangeMapped buffer size) : writeMeant L c fd buffer size s ≠ .exited st s' := by
  unfold writeMeant
  rw [if_pos hm]
  split
  · simp
  · split
    · simp
    · exact afterWrite_not_exited _ _ _ _

end SyscallIoAux

open SyscallIoAux

/-! ## Sufficiency -/

variable {fd : Int} {buffer file i k size : Nat}

theorem writeOk_of_condition (h : c.WriteCondition fd buffer size) (L : FileLayer φ)
    (s : SysState φ) : WriteOk L c fd buffer size s := by
  have hchecks := c.checksRange_iff.mpr h.1
  unfold WriteOk sysWrite writeMeant
  by_cases hm : c.RangeMapped buffer size
  · have hv := hchecks.mpr hm
    rw [if_pos hv, if_pos hm, (c.kbuffer_eq hv).1]
    by_cases h1 : fd = 1
    · have hb := c.kernelBytes_eq s.ram hm (h.2 hm (.inl h1))
      have hlen : (c.userBytes s.ram buffer size).length = size := by simp [Caller.userBytes]
      rw [if_pos h1]
      unfold syscallWrite
      rw [if_pos h1, hb, if_pos hlen]
    · rw [if_neg h1]
      cases ht : c.target fd with
      | none => rw [syscallWrite_none L c h1 ht]
      | some file => rw [syscallWrite_some L c ht, c.kernelBytes_eq s.ram hm (h.2 hm (.inr (by rw [ht]; rfl)))]
  · rw [if_neg (fun hv => hm (hchecks.mp hv)), if_neg hm]

theorem readOk_of_condition (h : c.ReadCondition fd buffer size) (L : FileLayer φ)
    (s : SysState φ) : ReadOk L c fd buffer size s := by
  have hchecks := c.checksRange_iff.mpr h.1
  by_cases hm : c.RangeMapped buffer size
  · have hv := hchecks.mpr hm
    have hle : (toInt32 size).toNat ≤ size := by have := toInt32_le (x := size) (by omega); omega
    unfold ReadOk sysRead readMeant
    rw [if_pos hv, if_pos hm, (c.kbuffer_eq hv).1]
    cases ht : c.target fd with
    | none =>
      rw [syscallRead_none L c ht]
      refine ⟨rfl, fun eax s' he a ha => ?_⟩
      cases he
      exact absurd rfl ha
    | some file =>
      obtain ⟨hc, hw⟩ := h.2 hm (by rw [ht]; rfl)
      rw [syscallRead_some L c ht]
      simp only
      cases hr : L.read file (toInt32 size) s.files with
      | error e => exact ⟨rfl, nofun⟩
      | ok v =>
        obtain ⟨bs, n, files⟩ := v
        have hbs := L.read_le _ _ _ _ _ _ hr
        have hst : Ram.kernelStore r s.ram (c.userAddr buffer 0 + physBase) bs = some (c.userStore s.ram buffer bs) := by
          refine c.kernelStore_eq bs s.ram fun i hi => ?_
          rw [c.translate_userAddr (hm i (by omega)), hc i (by omega)]
        simp only [afterRead, hst, true_and]
        intro eax s' he a ha
        cases he
        obtain ⟨i, hi, rfl⟩ := Caller.kernelStore_modified bs hst ha
        exact ⟨i, by omega, hw i (by omega), by rw [hc i (by omega)]⟩
  · unfold ReadOk sysRead readMeant
    rw [if_neg (fun hv => hm (hchecks.mp hv)), if_neg hm]
    exact ⟨rfl, nofun⟩

/-! ## Necessity -/

/-- A file layer that gives the bytes it is made with, as far as they are asked for, and remembers the last buffer
written. -/
def echoLayer (feed : List UInt8) : FileLayer (List UInt8) where
  read _ size s := .ok (feed.take size.toNat, 0, s)
  write _ buffer _ _ := .ok (0, buffer)
  read_le _ size s bs n s' h := by
    cases h
    exact length_take_le _ _

/-- Zeroed memory, an empty console and nothing written yet. -/
def blankState : SysState (List UInt8) := { ram := fun _ => 0, console := [], keys := fun _ => 0, files := [] }

variable (L : FileLayer φ) (s : SysState φ)

/-- A process is terminated by `SYS_WRITE` just where it is meant to be. -/
theorem checksRange_of_write
    (h : WriteOk L c fd buffer size s) : c.validateBuffer buffer size = true ↔ c.RangeMapped buffer size := by
  unfold WriteOk sysWrite at h
  constructor
  · intro hv
    by_contra hm
    rw [if_pos hv, writeMeant, if_neg hm] at h
    exact syscallWrite_not_exited _ _ _ _ _ _ _ _ h
  · intro hm
    by_contra hv
    rw [if_neg hv] at h
    exact writeMeant_not_exited _ _ _ _ _ _ hm h.symm

/-- A process is terminated by `SYS_READ` just where it is meant to be. -/
theorem checksRange_of_read (h : ReadOk L c fd buffer size s) : c.validateBuffer buffer size = true ↔
    c.RangeMapped buffer size := by
  have h0 := h.1
  unfold sysRead at h0
  constructor
  · intro hv
    by_contra hm
    rw [if_pos hv, readMeant, if_neg hm] at h0
    exact syscallRead_not_exited _ _ _ _ _ _ _ _ h0
  · intro hm
    by_contra hv
    rw [if_neg hv] at h0
    exact readMeant_not_exited _ _ _ _ _ _ hm h0.symm

/-- What goes to the console or to a file are the bytes meant. -/
theorem sent_bytes {c : Caller r} {ram : Ram} (hm : c.RangeMapped buffer size) (hfd : fd = 1 ∨ (c.target fd).isSome)
    (h : syscallWrite (echoLayer []) c fd k size { blankState with ram := ram } =
      writeMeant (echoLayer []) c fd buffer size { blankState with ram := ram }) :
    Ram.kernelBytes r ram k size = c.userBytes ram buffer size := by
  rw [writeMeant, if_pos hm] at h
  by_cases h1 : fd = 1
  · rw [if_pos h1, syscallWrite, if_pos h1] at h
    split at h
    · exact congrArg SysState.console (Outcome.returned.inj h).2
    · cases h
  · obtain ⟨file, ht⟩ := Option.isSome_iff_exists.mp (hfd.resolve_left h1)
    rw [if_neg h1, syscallWrite_some _ c ht, ht] at h
    exact congrArg SysState.files (Outcome.returned.inj h).2

/-- If `SYS_WRITE` is right whatever the files and memory are, its condition holds. -/
theorem writeCondition_of_ok (h : ∀ s, WriteOk (echoLayer []) c fd buffer size s) : c.WriteCondition fd buffer size := by
  have hchecks := checksRange_of_write _ _ (h blankState)
  refine ⟨c.checksRange_iff.mp hchecks, fun hm hfd => c.contiguous_of_kernelBytes fun ram => ?_⟩
  have hv := hchecks.mpr hm
  have h0 := h { blankState with ram := ram }
  unfold WriteOk sysWrite at h0
  rw [if_pos hv, (c.kbuffer_eq hv).1] at h0
  exact sent_bytes hm hfd h0

theorem echoLayer_read_mark (file : Nat) {size : Int} (hi : i < size.toNat) (s : List UInt8) :
    (echoLayer (replicate i 0 ++ [1])).read file size s = .ok (replicate i 0 ++ [1], 0, s) := by
  have htake : (replicate i (0 : UInt8) ++ [1]).take size.toNat = replicate i 0 ++ [1] := take_of_length_le (by simp; omega)
  show Except.ok ((replicate i (0 : UInt8) ++ [1]).take size.toNat, (0 : Int), s) = _
  rw [htake]

section

variable {c : Caller r} (hm : c.RangeMapped buffer size) (ht : c.target fd = some file) (hi : i < (toInt32 size).toNat)
include hm ht hi

/-- What is meant to happen when a file gives zeros and then a one. -/
theorem readMeant_mark :
    readMeant (echoLayer (replicate i 0 ++ [1])) c fd buffer size blankState =
      .returned (toUInt32 0) { blankState with ram := Function.update (fun _ => 0) (c.userAddr buffer i) 1 } := by
  rw [readMeant, if_pos hm, ht]
  simp only
  rw [echoLayer_read_mark file hi, ← c.userStore_mark]
  rfl

/-- Where a one goes that a file gives after zeros: the stores of the kernel leave what they are meant to. -/
theorem read_from_file (h : syscallRead (echoLayer (replicate i 0 ++ [1])) c fd k size blankState =
      readMeant (echoLayer (replicate i 0 ++ [1])) c fd buffer size blankState) :
    Ram.kernelStore r (fun _ => 0) k (replicate i 0 ++ [1]) = some (Function.update (fun _ => 0) (c.userAddr buffer i) 1) := by
  rw [syscallRead_some _ c ht, readMeant_mark hm ht hi, echoLayer_read_mark file hi, afterRead] at h
  split at h
  · rename_i ram hst
    exact hst.trans (congrArg some (congrArg SysState.ram (Outcome.returned.inj h).2))
  · cases h

/-- What `SYS_READ` being right says about one byte of the range. -/
theorem read_mark (hv : c.validateBuffer buffer size = true)
    (h : ReadOk (echoLayer (replicate i 0 ++ [1])) c fd buffer size blankState) :
    c.userAddr buffer i = c.userAddr buffer 0 + i ∧ c.mayModify buffer size (c.userAddr buffer i) := by
  obtain ⟨heq, hmod⟩ := h
  have hread := heq
  unfold sysRead at heq
  rw [if_pos hv, (c.kbuffer_eq hv).1] at heq
  have hst := Caller.kernelStore_mark i (read_from_file hm ht hi heq)
  constructor
  · have hat := congrFun hst (c.userAddr buffer i)
    by_contra hne
    rw [Function.update_self, Function.update_of_ne hne] at hat
    exact absurd hat (by decide)
  · rw [readMeant_mark hm ht hi] at hread
    exact hmod _ _ hread _ (by simp [blankState])

end

/-- If `SYS_READ` is right whatever the files and memory are, its condition holds. -/
theorem readCondition_of_ok (h : ∀ feed s, ReadOk (echoLayer feed) c fd buffer size s) : c.ReadCondition fd buffer size := by
  have hchecks := checksRange_of_read _ _ (h [] blankState)
  refine ⟨c.checksRange_iff.mp hchecks, fun hm hfd => ?_⟩
  obtain ⟨file, ht⟩ := Option.isSome_iff_exists.mp hfd
  have hv := hchecks.mpr hm
  have hmark := fun i hi => read_mark (i := i) hm ht hi hv (h _ blankState)
  refine ⟨fun i hi => (hmark i hi).1, fun i hi => ?_⟩
  -- The byte lies in a writable frame of the range, and with consecutive translations only its own page leads there.
  obtain ⟨j, hj, hw, hpage⟩ := (hmark i hi).2
  rw [(hmark i hi).1] at hpage
  have hlt := c.mapped_lt hm
  have hfull : toInt32 size = size := toInt32_pos (by omega) (by omega) (by omega)
  have hcj := (hmark j (by omega)).1
  have hbase : c.userAddr buffer 0 % pgsize = buffer % pgsize :=
    (c.pagedir.translate_bound (c.translate_userAddr (i := 0) (c.kbuffer_eq hv).2)).2
  refine c.isWritable_congr ?_ (c.pagedir.translate_user (c.translate_userAddr (hm i (by omega)))) hw
  unfold pgsize at hpage hbase ⊢
  omega

/-! ## The theorem -/

/-- When the read and write system calls touch exactly the caller's own bytes. `SYS_WRITE` sends the caller's bytes and no
others, whatever the files and memory are, just if its condition holds, and `SYS_READ` fills the caller's bytes and modifies
nothing outside the writable frames of the range just if its condition holds. -/
theorem syscall_transfers_own_bytes (c : Caller r) (fd : Int) (buffer size : Nat) :
    ((∀ (φ : Type) (L : FileLayer φ) (s : SysState φ), WriteOk L c fd buffer size s) ↔ c.WriteCondition fd buffer size) ∧
    ((∀ (φ : Type) (L : FileLayer φ) (s : SysState φ), ReadOk L c fd buffer size s) ↔ c.ReadCondition fd buffer size) :=
  ⟨⟨fun h => writeCondition_of_ok fun s => h _ _ s, fun h _ L s => writeOk_of_condition h L s⟩,
    ⟨fun h => readCondition_of_ok fun feed s => h _ (echoLayer feed) s, fun h _ L s => readOk_of_condition h L s⟩⟩

/-! ## Frames out of order -/

/-- Sixteen pages of physical memory. -/
def smallRam : RamSize := { pages := 16, capped := by decide }

/-- Two writable pages, from 0x08048000 on, in frames 5 and 9. -/
def splitPages : PageDir smallRam where
  table i := if i = 32 then some (fun j =>
      if j = 72 then { present := true, writable := true, frame := 5 }
      else if j = 73 then { present := true, writable := true, frame := 9 }
      else { present := false, writable := false, frame := 0 }) else none
  inRam i t j ht hp := by
    split at ht
    · cases ht
      by_cases h1 : j = 72
      · simp only [if_pos h1]
        decide
      · by_cases h2 : j = 73
        · simp only [if_neg h1, if_pos h2]
          decide
        · simp [h1, h2] at hp
    · cases ht

/-- A process with these pages and one open file. -/
def splitCaller : Caller smallRam where
  pagedir := splitPages
  fds := [{ value := 2, file := 0 }]
  fromTwo d hd := by
    simp only [mem_singleton] at hd
    subst hd
    decide

/-- What a call that returns leaves. -/
def Outcome.state? : Outcome φ → Option (SysState φ)
  | .returned _ s => some s
  | _ => none

/-- Inside its first page the process writes four bytes to the file and then reads four others from it. -/
theorem own_bytes_transferred :
    (splitCaller.WriteCondition 2 0x08048100 4 ∧ splitCaller.ReadCondition 2 0x08048100 4) ∧
    (sysWrite (echoLayer []) splitCaller 2 0x08048100 4 { blankState with ram := fun a => a.toUInt8 }).state?.map (·.files) =
      some [0, 1, 2, 3] ∧
    (sysRead (echoLayer [5, 6, 7, 8]) splitCaller 2 0x08048100 4 blankState).state?.map
      (fun s => (range 6).map fun i => s.ram (0x50ff + i)) = some [0, 5, 6, 7, 8, 0] := by
  have hc : splitCaller.Contiguous 0x08048100 4 := by unfold Caller.Contiguous; decide +kernel
  have hend : splitCaller.EndsDecide 0x08048100 4 := ⟨fun _ => by decide, fun _ _ h _ => h⟩
  have h4 : (toInt32 (4 : Nat)).toNat = 4 := by decide +kernel
  have hw : splitCaller.WriteCondition 2 0x08048100 4 := ⟨hend, fun _ _ => hc⟩
  have hr : splitCaller.ReadCondition 2 0x08048100 4 := ⟨hend, fun _ _ => by rw [h4]; exact ⟨hc, by decide +kernel⟩⟩
  refine ⟨⟨hw, hr⟩, ?_, ?_⟩
  · rw [(syscall_transfers_own_bytes splitCaller 2 0x08048100 4).1.mpr hw _ (echoLayer [])]
    decide +kernel
  · rw [((syscall_transfers_own_bytes splitCaller 2 0x08048100 4).2.mpr hr _ (echoLayer [5, 6, 7, 8]) blankState).1]
    decide +kernel

/-- The process reads four bytes to the end of its first page and the start of its second. Every page is mapped and writable,
but the last two bytes go to frame 6, which is not the process's. -/
theorem read_into_foreign_frame :
    splitCaller.RangeMapped 0x08048ffe 4 ∧ ¬ReadOk (echoLayer [1, 2, 3, 4]) splitCaller 2 0x08048ffe 4 blankState := by
  refine ⟨by decide +kernel, fun h => ?_⟩
  have hram : ∀ o, sysRead (echoLayer [1, 2, 3, 4]) splitCaller 2 0x08048ffe 4 blankState = o →
      o.state?.map (·.ram 0x6000) = some 3 := by
    rintro o rfl
    decide +kernel
  have hmeant : (readMeant (echoLayer [1, 2, 3, 4]) splitCaller 2 0x08048ffe 4 blankState).state?.map (·.ram 0x6000) =
      some 0 := by
    decide +kernel
  rw [hram _ h.1] at hmeant
  exact absurd hmeant (by decide)

/-! ## The keyboard -/

/-- `SYS_READ` from the keyboard does what it is meant to: it returns the size, the bytes of the range are the next keys, and
the rest of memory stays. -/
def KeyboardOk (c : Caller r) (buffer size : Nat) (s : SysState φ) : Prop :=
  ∃ s', sysRead L c 0 buffer size s = .returned size s' ∧ s'.ram = c.userStore s.ram buffer ((range size).map s.keys)

/-- `SYS_READ` from the keyboard looks for a file first, finds none, and returns -1. -/
theorem sysRead_zero (c : Caller r) (buffer size : Nat) (s : SysState φ) :
    sysRead L c 0 buffer size s = if c.validateBuffer buffer size then .returned (toUInt32 (-1)) s else .exited (-1) s := by
  rw [sysRead, syscallRead_none L c rfl]

/-- For no process, buffer and size is the keyboard read as it is meant to be. -/
theorem keyboard_never_read (c : Caller r) {buffer size : Nat} (hm : c.RangeMapped buffer size) (s : SysState φ) :
    ¬KeyboardOk L c buffer size s := by
  intro ⟨s', hread, _⟩
  have hlt := c.mapped_lt hm
  rw [sysRead_zero] at hread
  split at hread
  · injection hread with heax
    unfold toUInt32 at heax
    omega
  · cases hread

/-- Four bytes of the first page are not read. -/
theorem keyboard_never_read_four : ¬KeyboardOk (echoLayer []) splitCaller 0x08048000 4 blankState :=
  keyboard_never_read _ _ (by decide +kernel) _

/-- They are mapped and writable, and the call returns -1. -/
theorem keyboard_minus_one :
    splitCaller.RangeMapped 0x08048000 4 ∧ (∀ i < 4, splitPages.isWritable (0x08048000 + i) = true) ∧
      sysRead (echoLayer []) splitCaller 0 0x08048000 4 blankState = .returned 0xffffffff blankState := by
  refine ⟨by decide +kernel, by decide +kernel, ?_⟩
  rw [sysRead_zero, if_pos (by decide +kernel), show toUInt32 (-1) = 0xffffffff by decide +kernel]

end Pintos
