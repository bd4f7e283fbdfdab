import Pintos.Filesys.Filesys

/-!
# Rules for file system programs

`Runs st p Q w` says that the program returns from the world `w`, with a value and a world that meet `Q`. With `st` set, runs
that end at an allocation that fails are left out. There is one rule for each request.
-/

namespace Pintos

open Program Prog FsOp

section

variable (fs : Fs)
include fs

@[simp] theorem Fs.setInode_self (a : Nat) (i : Option Inode) : (fs.setInode a i).inodes a = i := if_pos rfl

theorem Fs.setInode_ne {a c : Nat} (i : Option Inode) (h : c ≠ a) : (fs.setInode a i).inodes c = fs.inodes c := if_neg h

@[simp] theorem Fs.setInode_setInode (a : Nat) (i j : Option Inode) : (fs.setInode a i).setInode a j = fs.setInode a j := by
  unfold Fs.setInode
  congr 1
  funext c
  by_cases hc : c = a
  · simp only [if_pos hc]
  · simp only [if_neg hc]

theorem Fs.setInode_eq {a : Nat} {i : Option Inode} (h : fs.inodes a = i) : fs.setInode a i = fs := by
  unfold Fs.setInode
  congr 1
  funext c
  by_cases hc : c = a
  · rw [if_pos hc, hc, h]
  · rw [if_neg hc]

@[simp] theorem Fs.setFile_self (f : Nat) (file : Option OpenFile) : (fs.setFile f file).files f = file := if_pos rfl

theorem Fs.setFile_ne {f g : Nat} (file : Option OpenFile) (h : g ≠ f) : (fs.setFile f file).files g = fs.files g := if_neg h

theorem Fs.setFile_eq {f : Nat} {file : Option OpenFile} (h : fs.files f = file) : fs.setFile f file = fs := by
  unfold Fs.setFile
  congr 1
  funext g
  by_cases hg : g = f
  · rw [if_pos hg, hg, h]
  · rw [if_neg hg]

end

theorem run_inode {st : Bool} {w : World} {a : Nat} {i : Inode} (hi : w.mem.inodes a = some i) :
    (FsM.inode a).run (exec st) w = .ok (i, w) := by
  unfold FsM.inode
  rw [run_bind, show FsM.get.run (exec st) w = .ok (w.mem, w) from rfl]
  simp only [hi]
  rfl

/-- The program, run alone with every allocation answered, returns, and what it returns passes a test. -/
def FsM.passes {α : Type} (p : FsM α) (t : α → World → Bool) (w : World) : Bool :=
  match p.run (exec false) w with
  | .ok (a, w') => t a w'
  | .error _ => false

theorem FsM.run_of_passes {α : Type} {p : FsM α} {t : α → World → Bool} {w : World} (h : p.passes t w = true) :
    ∃ a w', p.run (exec false) w = .ok (a, w') ∧ t a w' = true := by
  unfold FsM.passes at h
  split at h
  · exact ⟨_, _, ‹_›, h⟩
  · cases h

theorem FsM.run_of_strict {α : Type} {p : FsM α} {w : World} {r : α × World} (h : p.run (exec true) w = .ok r) :
    p.run (exec false) w = .ok r := by
  refine run_ok_of_handler (fun o w r ho => ?_) h
  cases o with
  | malloc =>
    simp only [exec] at ho
    split at ho
    · cases ho
    · rw [← ho]
      exact if_neg (fun hf => absurd hf.2 (by decide))
  | noSector => cases ho
  | _ => exact ho

/-- The program returns as it should; where `st` is set, unless an allocation fails. -/
def Runs (st : Bool) {α : Type} (p : FsM α) (Q : α → World → Prop) (w : World) : Prop :=
  p.Ends (exec st) (fun h => st = true ∧ h = .exhausted) Q w

/-- `malloc` will not fail, or the runs in which it fails are left out. -/
def World.HeapOk (w : World) (st : Bool) : Prop := st = true ∨ ∀ n, w.heap n = true

namespace Runs

variable {st : Bool} {α β : Type} {Q : α → World → Prop} {w : World}

theorem pure_iff {a : α} : Runs st (pure a : FsM α) Q w ↔ Q a w := Iff.rfl

theorem bind_iff {p : FsM α} {f : α → FsM β} {Q : β → World → Prop} :
    Runs st (p >>= f) Q w ↔ Runs st p (fun a w' => Runs st (f a) Q w') w := ends_bind

theorem mono {Q' : α → World → Prop} {p : FsM α} (h : Runs st p Q w) (hq : ∀ a w', Q a w' → Q' a w') : Runs st p Q' w :=
  Ends.mono h hq

theorem bind {p : FsM α} {f : α → FsM β} {Q' : β → World → Prop} (h : Runs st p Q w)
    (hf : ∀ a w', Q a w' → Runs st (f a) Q' w') : Runs st (p >>= f) Q' w := Ends.bind h hf

theorem and {P : α → World → Prop} {p : FsM α} (hP : Runs st p P w) (hQ : Runs st p Q w) :
    Runs st p (fun a w' => P a w' ∧ Q a w') w :=
  Ends.and hP hQ

/-- Two ways to go on that agree wherever the first program can have led. -/
theorem bind_congr {p : FsM α} {f k : α → FsM β} {Q' : β → World → Prop} (h : Runs st p Q w)
    (hf : ∀ a w', Q a w' → (Runs st (f a) Q' w' ↔ Runs st (k a) Q' w')) : Runs st (p >>= f) Q' w ↔ Runs st (p >>= k) Q' w := by
  rw [bind_iff, bind_iff]
  constructor
  · intro hrun
    exact (h.and hrun).mono (fun a w' hboth => (hf a w' hboth.1).mp hboth.2)
  · intro hrun
    exact (h.and hrun).mono (fun a w' hboth => (hf a w' hboth.1).mpr hboth.2)

/-- Out of the run of a program and nothing else: what it returns when it leaves the world as it is. -/
theorem bind_eq {p : FsM α} {f : α → FsM β} {Q' : β → World → Prop} {a : α} (h : Runs st p (fun b w' => b = a ∧ w' = w) w)
    (hf : Runs st (f a) Q' w) : Runs st (p >>= f) Q' w := by
  refine h.bind ?_
  rintro _ _ ⟨rfl, rfl⟩
  exact hf

/-- A rule for runs, where more may end a run early. -/
theorem ends {p : FsM α} {X : Halt → Prop} (h : Runs st p Q w) (hX : ∀ e, st = true ∧ e = .exhausted → X e) :
    p.Ends (exec st) X Q w :=
  Ends.mono_excuse h hX

theorem of_run {p : FsM α} {a : α} {w' : World} (hp : p.run (exec st) w = .ok (a, w')) : Runs st p Q w ↔ Q a w' := by
  unfold Runs Ends
  rw [hp]

theorem returns {p : FsM α} (h : Runs false p Q w) : ∃ a w', p.run (exec false) w = .ok (a, w') ∧ Q a w' :=
  Ends.returns (Ends.mono_excuse h (fun _ hx => Bool.false_ne_true hx.1))

/-- A run in which no allocation has failed returns. -/
theorem returns_of_ne {p : FsM α} (h : Runs st p Q w) (hne : p.run (exec st) w ≠ .error .exhausted) :
    ∃ a w', p.run (exec st) w = .ok (a, w') ∧ Q a w' := by
  unfold Runs Ends at h
  split at h
  · exact ⟨_, _, ‹_›, h⟩
  · rename_i e he
    rw [h.2] at he
    exact absurd he hne

section Requests

variable {k : α → FsM β} {Q : β → World → Prop}

theorem get_bind {k : Fs → FsM β} : Runs st (FsM.get >>= k) Q w ↔ Runs st (k w.mem) Q w := ends_call

theorem set_bind {fs : Fs} {k : Unit → FsM β} : Runs st (FsM.set fs >>= k) Q w ↔ Runs st (k ()) Q { w with mem := fs } :=
  ends_call

theorem set_iff {fs : Fs} {Q : Unit → World → Prop} : Runs st (FsM.set fs) Q w ↔ Q () { w with mem := fs } := ends_call

theorem modify_bind {f : Fs → Fs} {k : Unit → FsM β} :
    Runs st (FsM.modify f >>= k) Q w ↔ Runs st (k ()) Q { w with mem := f w.mem } := by
  unfold FsM.modify
  rw [bind_assoc, get_bind, set_bind]

theorem modify_iff {f : Fs → Fs} {Q : Unit → World → Prop} : Runs st (FsM.modify f) Q w ↔ Q () { w with mem := f w.mem } := by
  unfold FsM.modify
  rw [get_bind, set_iff]

theorem assert_bind {b : Bool} {k : Unit → FsM β} (hb : b = true) : Runs st (FsM.assert b >>= k) Q w ↔ Runs st (k ()) Q w := by
  subst hb
  exact Iff.rfl

theorem readSector_bind {x : Nat} {k : Contents → FsM β} (hx : x < w.dev.size) :
    Runs st (FsM.readSector x >>= k) Q w ↔ Runs st (k (w.dev.disk x)) Q w := by
  refine ends_call.trans ?_
  have hc : w.dev.checkSector x = true := decide_eq_true hx
  simp only [exec, if_pos hc]
  exact Iff.rfl

theorem readSector_iff {x : Nat} {Q : Contents → World → Prop} (hx : x < w.dev.size) : Runs st (FsM.readSector x) Q w ↔
    Q (w.dev.disk x) w := by
  rw [← bind_pure (FsM.readSector x), readSector_bind hx, pure_iff]

theorem inode_bind {a : Nat} {i : Inode} {k : Inode → FsM β} (h : w.mem.inodes a = some i) :
    Runs st (FsM.inode a >>= k) Q w ↔ Runs st (k i) Q w := by
  unfold FsM.inode
  rw [bind_assoc, get_bind, h]
  exact Iff.rfl

theorem file_bind {f : Nat} {file : OpenFile} {k : OpenFile → FsM β} (h : w.mem.files f = some file) :
    Runs st (FsM.file f >>= k) Q w ↔ Runs st (k file) Q w := by
  unfold FsM.file
  rw [bind_assoc, get_bind, h]
  exact Iff.rfl

theorem setInode_bind {a : Nat} {i : Inode} {k : Unit → FsM β} :
    Runs st (FsM.setInode a i >>= k) Q w ↔ Runs st (k ()) Q { w with mem := w.mem.setInode a (some i) } := modify_bind

theorem modifyInode_bind {a : Nat} {i : Inode} {f : Inode → Inode} {k : Unit → FsM β} (h : w.mem.inodes a = some i) :
    Runs st (FsM.modifyInode a f >>= k) Q w ↔ Runs st (k ()) Q { w with mem := w.mem.setInode a (some (f i)) } := by
  unfold FsM.modifyInode
  rw [bind_assoc, inode_bind h, setInode_bind]

theorem modifyInode_iff {a : Nat} {i : Inode} {f : Inode → Inode} {Q : Unit → World → Prop} (h : w.mem.inodes a = some i) :
    Runs st (FsM.modifyInode a f) Q w ↔ Q () { w with mem := w.mem.setInode a (some (f i)) } := by
  unfold FsM.modifyInode
  rw [inode_bind h]
  exact modify_iff

/-- An allocation from the free map has failed. -/
theorem noSector_bind {k : Unit → FsM β} (h : st = false → Runs st (k ()) Q w) : Runs st (FsM.noSector >>= k) Q w := by
  refine ends_call.mpr ?_
  cases st with
  | true => exact ⟨rfl, rfl⟩
  | false => exact h rfl

/-- `malloc` gives a new address, or fails. -/
theorem malloc_either {k : Option Nat → FsM β}
    (hnone : st = false → Runs st (k none) Q { w with heap := fun n => w.heap (n + 1) })
    (hsome : Runs st (k (some w.mem.nextAddr)) Q
      { mem := { w.mem with nextAddr := w.mem.nextAddr + 1 }, dev := w.dev, heap := fun n => w.heap (n + 1) }) :
    Runs st (FsM.malloc >>= k) Q w := by
  unfold FsM.malloc
  refine ends_call.mpr ?_
  cases h0 : w.heap 0 with
  | false =>
    cases st with
    | false =>
      rw [show exec false .malloc w = .ok (false, { w with heap := fun n => w.heap (n + 1) }) by simp [exec, h0]]
      exact hnone rfl
    | true => simp [exec, h0]
  | true =>
    simp only [exec, h0, Bool.true_eq_false, false_and, if_false]
    exact get_bind.mpr (set_bind.mpr hsome)

/-- `malloc` gives a new address. -/
theorem malloc_bind {k : Option Nat → FsM β} (hw : w.HeapOk st) (h : ∀ heap, { w with heap := heap }.HeapOk st →
      Runs st (k (some w.mem.nextAddr)) Q { mem := { w.mem with nextAddr := w.mem.nextAddr + 1 }, dev := w.dev, heap := heap }) :
    Runs st (FsM.malloc >>= k) Q w := by
  unfold FsM.malloc
  refine ends_call.mpr ?_
  cases h0 : w.heap 0 with
  | false =>
    rcases hw with rfl | hw
    · simp [exec, h0]
    · rw [hw 0] at h0
      cases h0
  | true =>
    simp only [exec, h0, Bool.true_eq_false, false_and, if_false]
    refine get_bind.mpr (set_bind.mpr (h _ ?_))
    rcases hw with hw | hw
    · exact .inl hw
    · exact .inr fun n => hw (n + 1)

end Requests

end Runs

/-- The world with the bytes of a sector replaced. -/
def World.put (w : World) (x : Nat) (c : Contents) : World :=
  { w with dev := { w.dev with disk := fun y => if y = x then c else w.dev.disk y } }

namespace Runs

variable {st : Bool} {β : Type} {Q : β → World → Prop} {w : World}

theorem writeSector_bind {x : Nat} {c : Contents} {k : Unit → FsM β} (hx : x < w.dev.size) :
    Runs st (FsM.writeSector x c >>= k) Q w ↔ Runs st (k ()) Q (w.put x c) := by
  refine ends_call.trans ?_
  have hc : w.dev.checkSector x = true := decide_eq_true hx
  simp only [exec, if_pos hc, Contents.splice_slice_whole]
  exact Iff.rfl

theorem writeSector_iff {x : Nat} {c : Contents} {Q : Unit → World → Prop} (hx : x < w.dev.size) :
    Runs st (FsM.writeSector x c) Q w ↔ Q () (w.put x c) := by
  rw [← bind_pure (FsM.writeSector x c), writeSector_bind hx, pure_iff]

theorem bufcacheRead_bind {x : Nat} {ofs length : Int} {k : List UInt8 → FsM β} (hx : x < w.dev.size) (h0 : 0 ≤ ofs)
    (hl : ofs + length ≤ 512) :
    Runs st (FsM.bufcacheRead x ofs length >>= k) Q w ↔ Runs st (k ((w.dev.disk x).slice ofs.toNat length.toNat)) Q w := by
  unfold FsM.bufcacheRead
  rw [if_neg (by omega), bind_assoc, assert_bind (decide_eq_true (by unfold blockSectorSize; omega)), bind_assoc,
    readSector_bind hx]
  exact Iff.rfl

theorem bufcacheWrite_bind {x : Nat} {buffer : List UInt8} {ofs length : Int} {k : Unit → FsM β} (hx : x < w.dev.size)
    (h0 : 0 ≤ ofs) (hl : ofs + length ≤ 512) (hb : length ≤ buffer.length) :
    Runs st (FsM.bufcacheWrite x buffer ofs length >>= k) Q w ↔
      Runs st (k ()) Q (w.put x ((w.dev.disk x).splice ofs.toNat (buffer.take length.toNat))) := by
  unfold FsM.bufcacheWrite
  rw [if_neg (by omega), bind_assoc, assert_bind (decide_eq_true (by unfold blockSectorSize; omega)), bind_assoc,
    assert_bind (decide_eq_true hb)]
  refine ends_call.trans ?_
  have hc : w.dev.checkSector x = true := decide_eq_true hx
  simp only [exec, if_pos hc]
  exact Iff.rfl

end Runs

-- From here on a run is taken apart by these rules only.
attribute [irreducible] Runs

end Pintos
