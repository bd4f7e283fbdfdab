import Pintos.Theorems.FilePosition

/-!
# `fsutil_cat` does not stop at the end of a file (`filesys/fsutil.c`)

The loop of `fsutil_cat` asks `file_read` for a page at a time and stops when it gets nothing. But `inode_read_at` returns -1
for a request that reaches past the end of the file, and every file has an end within a page of the last whole page: that -1
is passed on to `hex_dump`, and the position goes back by one.
-/

namespace Pintos

open Yields

/-- The ranges follow one another, from `a` up to `b`. -/
def Covers (a b : Int) : List (Int × Int) → Prop
  | [] => a = b
  | (pos, n) :: ranges => pos = a ∧ 0 ≤ n ∧ Covers (a + n) b ranges

/-- The loop ends, and what it has printed is the file, once. -/
def CatPrints (f : Nat) (length : Int) (w : World) : Prop :=
  ∃ turns ranges v, (catLoop f turns).run (FsOp.exec false) w = .ok ((ranges, true), v) ∧ Covers 0 length ranges

theorem Covers.le {a b : Int} {ranges : List (Int × Int)} (h : Covers a b ranges) : a ≤ b := by
  induction ranges generalizing a with
  | nil => exact Int.le_of_eq h
  | cons x ranges ih =>
    obtain ⟨-, hn, hrest⟩ := h
    have := ih hrest
    omega

/-- From any position in the file on, a run that leaves the loop has not printed the rest of the file once. -/
theorem Yields.catLoop {f : Nat} {i : Inode} (hlen : i.data.length + pgsize ≤ 2147483647) (turns : Nat)
    {file : OpenFile} {w : World} (hf : w.mem.files f = some file) (hi : w.mem.inodes file.inode = some i) (hpos : 0 ≤ file.pos)
    (hin : file.pos ≤ i.data.length) :
    Yields false (catLoop f turns) (fun r _ => ¬(r.2 = true ∧ Covers file.pos i.data.length r.1)) w := by
  induction turns generalizing file w with
  | zero => exact pure_iff.mpr (by simp)
  | succ turns ih =>
    have hpage : (pgsize : Int) = 4096 := rfl
    have hfits : toInt32 (file.pos + pgsize) = file.pos + pgsize := toInt32_of_fits (by omega) (by omega)
    unfold Pintos.catLoop fileTell fileRead inodeReadAt
    simp only [bind_assoc, pure_bind]
    refine file_bind (fun file' hf' => ?_)
    cases hf.symm.trans hf'
    refine file_bind (fun file' hf' => ?_)
    cases hf.symm.trans hf'
    refine inode_bind (fun i' hi' => ?_)
    cases hi.symm.trans hi'
    by_cases hwait : i.extending = true ∨ i.denyWriteCnt < 0
    · rw [if_pos hwait]
      exact trivial
    rw [if_neg hwait, hfits]
    by_cases hout : i.data.length < file.pos + pgsize
    · -- The page is not all there: -1 is passed on.
      rw [if_pos hout]
      refine modify_bind ?_
      rw [if_neg (by decide)]
      refine (of_all (Q := fun _ _ => True) (fun _ _ => trivial)).bind (fun r _ _ => pure_iff.mpr ?_)
      rintro ⟨-, -, hn, -⟩
      omega
    · rw [if_neg hout, bind_assoc]
      refine (readChunks file.inode _ _ file.pos [] hpos).bind ?_
      rintro bytes u ⟨hu, -⟩
      subst u
      refine modify_bind ?_
      split
      · -- Nothing is read, though there is a page to read.
        refine pure_iff.mpr ?_
        rintro ⟨-, hend⟩
        have : file.pos = i.data.length := hend
        omega
      · by_cases hmore : file.pos + bytes.length ≤ i.data.length
        · rw [toInt32_of_fits (x := file.pos + bytes.length) (by omega) (by omega)]
          have hnext := @ih { file with pos := file.pos + bytes.length }
            { w with mem := w.mem.setFile f (some { file with pos := file.pos + bytes.length }) } (Fs.setFile_self _ _ _) hi
            (by simp only; omega) hmore
          refine hnext.bind (fun r _ hr => pure_iff.mpr ?_)
          rintro ⟨hended, -, -, hrest⟩
          exact hr ⟨hended, hrest⟩
        · refine (of_all (Q := fun _ _ => True) (fun _ _ => trivial)).bind (fun r _ _ => pure_iff.mpr ?_)
          rintro ⟨-, -, -, hrest⟩
          exact hmore hrest.le

/-- **`fsutil_cat` prints no file.** Whatever the length of the file, the loop does not end with the file printed once. The
on-disk format has no room for a length that is within a page of the largest `off_t`. -/
theorem cat_never_prints {f : Nat} {w : World} {file : OpenFile} {i : Inode} (hf : w.mem.files f = some file)
    (hi : w.mem.inodes file.inode = some i) (hpos : file.pos = 0) (h0 : 0 ≤ i.data.length)
    (hlen : i.data.length + pgsize ≤ 2147483647) : ¬CatPrints f i.data.length w := by
  rintro ⟨turns, ranges, v, hrun, hcovers⟩
  have hy := Yields.catLoop hlen turns hf hi (by omega) (by omega)
  exact (hy.ok hrun) ⟨rfl, hpos ▸ hcovers⟩

/-- The file of one byte is not printed. -/
theorem oneByteOpen_never_prints : ¬CatPrints 5 1 oneByteOpen := by
  have h := cat_never_prints (w := oneByteOpen) (Fs.setFile_self _ 5 _) (show oneByteOpen.mem.inodes 0 = some _ from rfl) rfl
    (by rw [oneByteFile_length]; decide) (by rw [oneByteFile_length]; decide)
  rwa [oneByteFile_length] at h

/-- What `hex_dump` gets first of the file of one byte is a range of -1 bytes, and the loop goes on. -/
theorem oneByteOpen_dumps_minus_one : (∃ v, (catLoop 5 1).run (FsOp.exec false) oneByteOpen = .ok (([(0, -1)], false), v)) ∧
    ¬CatPrints 5 1 oneByteOpen := by
  have hpass : (catLoop 5 1).passes (fun r _ => r == ([(0, -1)], false)) oneByteOpen = true := by decide +kernel
  obtain ⟨r, v, hrun, ht⟩ := FsM.run_of_passes hpass
  cases eq_of_beq ht
  refine ⟨⟨v, hrun⟩, ?_⟩
  rintro ⟨turns, ranges, u, hcat, hcovers⟩
  have hy := Yields.catLoop (f := 5) (i := _) (by rw [oneByteFile_length]; decide) turns
    (w := oneByteOpen) (Fs.setFile_self _ 5 _) (show oneByteOpen.mem.inodes 0 = some _ from rfl) (Int.le_refl 0)
    (by rw [oneByteFile_length]; decide)
  rw [oneByteFile_length] at hy
  exact hy.ok hcat ⟨rfl, hcovers⟩

end Pintos
