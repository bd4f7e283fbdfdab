import Mathlib.Algebra.Group.Nat.Defs
import Mathlib.Logic.Function.Basic

/-!
# Semaphores and locks (`threads/synch.c`)

What the functions of `synch.c` do to the object they are called on while interrupts are off. Whether a thread sleeps, and
when it runs again, belongs to the scheduler: `semaDown` is one pass of the loop of `sema_down`, and says whether the pass
ended the loop, and `semaUp` says which thread is to be unblocked.
-/

namespace Pintos

/-- A thread, named by the address of its `struct thread`. -/
abbrev Thread := Nat

/-- `struct semaphore`. -/
structure Semaphore where
  value : UInt32
  waiters : List Thread
  deriving DecidableEq, Repr

/-- `sema_init`. -/
def semaInit (value : UInt32) : Semaphore := { value := value, waiters := [] }

variable (sema : Semaphore) (v : UInt32) (t : Thread)

/-- One pass of `sema_down` by thread `t`: where the value is 0 the thread is queued and has to block, and the pass is not
the last. -/
def semaDown : Semaphore × Bool :=
  if sema.value = 0 then ({ sema with waiters := sema.waiters ++ [t] }, false)
  else ({ sema with value := sema.value - 1 }, true)

/-- `sema_try_down`. -/
def semaTryDown : Semaphore × Bool :=
  if sema.value > 0 then ({ sema with value := sema.value - 1 }, true) else (sema, false)

/-- `sema_up`, and the thread it unblocks. -/
def semaUp : Semaphore × Option Thread :=
  match sema.waiters with
  | [] => ({ sema with value := sema.value + 1 }, none)
  | t :: rest => ({ value := sema.value + 1, waiters := rest }, some t)

/-- `struct lock`. -/
structure Lock where
  holder : Option Thread
  semaphore : Semaphore
  deriving DecidableEq, Repr

/-- `lock_init`. -/
def lockInit : Lock := { holder := none, semaphore := semaInit 1 }

/-- `lock_held_by_current_thread`, for the current thread `t`. -/
def lockHeldByCurrentThread (lock : Lock) (t : Thread) : Bool := lock.holder == some t

@[simp] theorem semaInit_value : (semaInit v).value = v := rfl

@[simp] theorem semaInit_waiters : (semaInit v).waiters = [] := rfl

/-- A pass of `sema_down` either queues the thread, at value 0, or takes one from a positive value. -/
theorem semaDown_cases :
    (sema.value = 0 ∧ semaDown sema t = ({ sema with waiters := sema.waiters ++ [t] }, false)) ∨
    (sema.value ≠ 0 ∧ semaDown sema t = ({ sema with value := sema.value - 1 }, true)) := by
  by_cases h : sema.value = 0
  · exact .inl ⟨h, by simp [semaDown, h]⟩
  · exact .inr ⟨h, by simp [semaDown, h]⟩

/-- `sema_try_down` does nothing at value 0 and takes one from a positive value. -/
theorem semaTryDown_cases :
    (sema.value = 0 ∧ semaTryDown sema = (sema, false)) ∨
    (sema.value ≠ 0 ∧ semaTryDown sema = ({ sema with value := sema.value - 1 }, true)) := by
  by_cases h : sema.value = 0
  · exact .inl ⟨h, by simp [semaTryDown, h]⟩
  · exact .inr ⟨h, by simp [semaTryDown, UInt32.pos_iff_ne_zero.mpr h]⟩

/-- `sema_up` adds one to the value, and takes the first waiter from the list if there is one. -/
theorem semaUp_cases :
    (sema.waiters = [] ∧ semaUp sema = ({ sema with value := sema.value + 1 }, none)) ∨
    (∃ t rest, sema.waiters = t :: rest ∧ semaUp sema = ({ value := sema.value + 1, waiters := rest }, some t)) := by
  cases h : sema.waiters with
  | nil => exact .inl ⟨rfl, by simp [semaUp, h]⟩
  | cons t rest => exact .inr ⟨t, rest, rfl, by simp [semaUp, h]⟩

theorem toNat_pred {v : UInt32} (h : v ≠ 0) : (v - 1).toNat + 1 = v.toNat := by
  have hpos : 1 ≤ v := UInt32.le_iff_toNat_le.mpr (by
    have hne : v.toNat ≠ 0 := fun hz => h (UInt32.toNat_inj.mp hz)
    have h1 : (1 : UInt32).toNat = 1 := rfl
    omega)
  have hle := UInt32.le_iff_toNat_le.mp hpos
  rw [UInt32.toNat_sub_of_le _ _ hpos]
  have h1 : (1 : UInt32).toNat = 1 := rfl
  omega

theorem toNat_succ {v : UInt32} (h : v.toNat + 1 < 2 ^ 32) : (v + 1).toNat = v.toNat + 1 := by
  exact Nat.mod_eq_of_lt h

/-- Adding one never gives more than one more. -/
theorem toNat_succ_le : (v + 1).toNat ≤ v.toNat + 1 := by
  exact Nat.mod_le _ _

end Pintos
