import Pintos.Userprog.Load

/-!
# Loads do not mix, if they take turns

All loads share the pointer `stack_args`. As long as no load makes its copy of the command line while another one has a copy,
and no load fails in `pagedir_create` with an old pointer in `stack_args`, each stack is built from the load's own command
line and each copy is freed once. Otherwise some copy is lost or freed twice.
-/

namespace Pintos

open LoadState LoadPc Transition Function Option

variable {i : Nat} {a : LoadAction} {c : Copy} {addr : Option Nat} {cmd : Nat → CString} {s s' : LoadState}

/-- What the loads promise, in a state. -/
structure LoadsOk (cmd : Nat → CString) (s : LoadState) : Prop where
  /-- Every stack was built from the load's own command line. -/
  own : ∀ i text, s.built i = some text → text = (cmd i).bytes ++ [0]
  /-- No copy has been freed twice. -/
  atMostOnce : ∀ i, s.frees i ≤ 1
  /-- The copy of a load that has returned has been freed. -/
  freed : ∀ i ok, s.pc i = .returned ok → s.copied i = true → s.frees i = 1

/-- A load makes its copy only when no other load has one, and fails in `pagedir_create` only when `stack_args` is null. -/
def LoadsApart (s : LoadState) : LoadAction → Prop
  | .malloc i _ => ∀ j, j ≠ i → (s.pc j).holds = false
  | .pagedirCreate _ false => s.stackArgs = none
  | _ => True

/-- The state, as long as the loads take turns. -/
structure LoadInv (cmd : Nat → CString) (s : LoadState) : Prop where
  single : ∀ i j, (s.pc i).holds = true → (s.pc j).holds = true → i = j
  /-- `stack_args` points to the copy of the load that has one. -/
  holder : ∀ i, (s.pc i).holds = true →
    s.copied i = true ∧ ∃ a, s.stackArgs = some a ∧ s.heap a = some { owner := i, text := (cmd i).bytes ++ [0], live := true }
  fresh : ∀ i, s.pc i = .pagedir ∨ s.pc i = .malloc → s.copied i = false
  frees : ∀ i, s.frees i = if s.copied i = true ∧ (s.pc i).holds = false then 1 else 0
  own : ∀ i text, s.built i = some text → text = (cmd i).bytes ++ [0]
  /-- `stack_args` is null or points to a copy, perhaps one that has been freed. -/
  known : ∀ a, s.stackArgs = some a → ∃ c, s.heap a = some c ∧ s.copied c.owner = true
  noPanic : ∀ i, s.pc i ≠ .panicked

attribute [local simp] goto mallocReturns done freeStackArgs

section

variable (hi : LoadInv cmd s)
include hi

/-- A load moves on without getting or giving up a copy. -/
theorem LoadInv.goto (i : Nat) {pc : LoadPc} (hholds : pc.holds = (s.pc i).holds)
    (hfresh : pc = .pagedir ∨ pc = .malloc → s.copied i = false) (hpanic : pc ≠ .panicked) : LoadInv cmd (s.goto i pc) := by
  have hsame : ∀ j, ((s.goto i pc).pc j).holds = (s.pc j).holds := by
    intro j
    rcases eq_or_ne j i with rfl | hne
    · simp [hholds]
    · simp [update_of_ne hne]
  constructor
  · intro j k hj hk
    exact hi.single j k (hsame j ▸ hj) (hsame k ▸ hk)
  · intro j hj
    exact hi.holder j (hsame j ▸ hj)
  · intro j hj
    rcases eq_or_ne j i with rfl | hne
    · exact hfresh (by simpa using hj)
    · exact hi.fresh j (by simpa [update_of_ne hne] using hj)
  · intro j
    rw [hsame j]
    exact hi.frees j
  · exact hi.own
  · exact hi.known
  · intro j
    rcases eq_or_ne j i with rfl | hne
    · simpa using hpanic
    · simpa [update_of_ne hne] using hi.noPanic j

theorem LoadInv.finish {a : Nat} {ok : Bool} (hold : (s.pc i).holds = true)
    (hc : c.owner = i) (hpc : s'.pc = update s.pc i (.returned ok)) (hargs : s'.stackArgs = some a)
    (hheap : s'.heap = update s.heap a (some c)) (hcopied : s'.copied = s.copied)
    (hfrees : s'.frees = update s.frees i (s.frees i + 1))
    (hown : ∀ j text, s'.built j = some text → text = (cmd j).bytes ++ [0]) : LoadInv cmd s' := by
  have hcop := (hi.holder i hold).1
  have hothers : ∀ j, j ≠ i → (s.pc j).holds = false := by
    intro j hne
    by_contra h
    exact hne (hi.single j i (by simpa using h) hold)
  -- no load has a copy afterwards
  have hnone : ∀ j, (s'.pc j).holds = false := by
    intro j
    rw [hpc]
    rcases eq_or_ne j i with rfl | hne
    · simp [holds]
    · rw [update_of_ne hne, hothers j hne]
  constructor
  · intro j k hj
    simp [hnone j] at hj
  · intro j hj
    simp [hnone j] at hj
  · intro j hj
    rw [hpc] at hj
    rcases eq_or_ne j i with rfl | hne
    · simp at hj
    · rw [hcopied]
      exact hi.fresh j (by simpa [update_of_ne hne] using hj)
  · intro j
    have hj := hi.frees j
    rw [hcopied, hnone j, hfrees]
    rcases eq_or_ne j i with rfl | hne
    · simp [hj, hcop, hold]
    · rw [update_of_ne hne, hj, hothers j hne]
  · exact hown
  · intro b hb
    rw [hargs] at hb
    cases hb
    exact ⟨c, by rw [hheap, update_self], by rw [hcopied, hc]; exact hcop⟩
  · intro j
    rw [hpc]
    rcases eq_or_ne j i with rfl | hne
    · simp
    · simpa [update_of_ne hne] using hi.noPanic j

/-- The end of a load that has a copy. -/
theorem LoadInv.done (hold : (s.pc i).holds = true) (ok : Bool) : LoadInv cmd (s.done i ok) := by
  obtain ⟨-, a, ha, hheap⟩ := hi.holder i hold
  have heq : s.freeStackArgs =
      { s with
        heap := update s.heap a (some { owner := i, text := (cmd i).bytes ++ [0], live := false }),
        frees := update s.frees i (s.frees i + 1) } := by
    simp [freeStackArgs, ha, hheap]
  rw [LoadState.done, heq]
  exact hi.finish hold rfl rfl ha rfl rfl rfl hi.own

/-- A load that has a copy builds its stack from it and returns. -/
theorem LoadInv.buildStack (hold : (s.pc i).holds = true) (junk : List UInt8) : LoadInv cmd (s.buildStack i junk) := by
  obtain ⟨-, a, ha, hheap⟩ := hi.holder i hold
  simp [LoadState.buildStack, ha, hheap]
  refine hi.finish hold rfl rfl rfl rfl rfl rfl (fun j text hj => ?_)
  simp only at hj
  rcases eq_or_ne j i with rfl | hne
  · rw [update_self] at hj
    exact (some.inj hj).symm
  · rw [update_of_ne hne] at hj
    exact hi.own j text hj

/-- The only load without a finished copy gets one, or gets none and returns. -/
theorem LoadInv.mallocReturns (hpc : s.pc i = .malloc)
    (halone : ∀ j, j ≠ i → (s.pc j).holds = false) : LoadInv cmd (s.mallocReturns cmd i addr) := by
  have hnone : ∀ j, (s.pc j).holds = false := by
    intro j
    rcases eq_or_ne j i with rfl | hne
    · rw [hpc]
      rfl
    · exact halone j hne
  have hcop := hi.fresh i (.inr hpc)
  have hfr : ∀ j, s.frees j = if s.copied j = true then 1 else 0 := fun j => by simpa [hnone j] using hi.frees j
  cases addr with
  | none =>
    have hbase : LoadInv cmd { s with stackArgs := none } :=
      { single := hi.single, fresh := hi.fresh, frees := hi.frees, own := hi.own, noPanic := hi.noPanic,
        holder := fun j hj => by simp [hnone j] at hj
        known := fun a ha => by cases ha }
    exact hbase.goto i (by simp [hpc, holds]) (by simp) (by simp)
  | some a =>
    constructor
    · intro j k hj hk
      simp only [LoadState.mallocReturns, LoadState.goto, update_apply] at hj hk
      grind
    · intro j hj
      rcases eq_or_ne j i with rfl | hne
      · exact ⟨by simp, a, rfl, by simp⟩
      · simp [update_of_ne hne, hnone j] at hj
    · intro j hj
      rcases eq_or_ne j i with rfl | hne
      · simp at hj
      · simp only [LoadState.mallocReturns, LoadState.goto, update_of_ne hne] at hj ⊢
        exact hi.fresh j hj
    · intro j
      rcases eq_or_ne j i with rfl | hne
      · simp [hfr, hcop, holds]
      · simp [update_of_ne hne, hfr, hnone j]
    · exact hi.own
    · intro b hb
      cases hb
      refine ⟨{ owner := i, text := (cmd i).bytes ++ [0], live := true }, ?_, ?_⟩ <;> simp
    · intro j
      rcases eq_or_ne j i with rfl | hne
      · simp
      · simpa [update_of_ne hne] using hi.noPanic j

theorem LoadInv.step (hg : LoadsApart s a) (h : LoadState.step cmd s a = some s') : LoadInv cmd s' := by
  cases a with
  | pagedirCreate i ok =>
    obtain ⟨hpc, h⟩ := ite_none_right_eq_some.mp h
    cases h
    cases ok with
    | true => exact hi.goto i (by simp [hpc, holds]) (fun _ => hi.fresh i (.inl hpc)) (by simp)
    | false =>
      have hargs : s.stackArgs = none := hg
      have hfree : s.freeStackArgs = s := by simp only [LoadState.freeStackArgs, hargs]
      simp only [Bool.false_eq_true, if_false, LoadState.done, hfree]
      exact hi.goto i (by simp [hpc, holds]) (by simp) (by simp)
  | malloc i addr =>
    obtain ⟨hpc, h⟩ := ite_none_right_eq_some.mp h
    cases h
    exact hi.mallocReturns hpc.1 hg
  | read i =>
    obtain ⟨-, h⟩ := ite_none_right_eq_some.mp h
    exact some.inj h ▸ hi
  | readsDone i ok =>
    obtain ⟨hpc, h⟩ := ite_none_right_eq_some.mp h
    cases h
    cases ok with
    | true => exact hi.goto i (by simp [hpc, holds]) (by simp) (by simp)
    | false => exact hi.done (by simp [hpc, holds]) false
  | stackPage i ok junk =>
    obtain ⟨hpc, h⟩ := ite_none_right_eq_some.mp h
    cases h
    cases ok with
    | true => exact hi.buildStack (by simp [hpc, holds]) junk
    | false => exact hi.done (by simp [hpc, holds]) false

/-- The invariant gives what the loads promise. -/
theorem LoadInv.ok : LoadsOk cmd s where
  own := hi.own
  atMostOnce i := by
    rw [hi.frees i]
    split <;> omega
  freed i ok hpc hcop := by rw [hi.frees i, if_pos ⟨hcop, by rw [hpc]; rfl⟩]

end

/-- The invariant in every state reached while the loads take turns. -/
theorem load_inv (hr : (loadSystem cmd).ReachableIf LoadsApart s) : LoadInv cmd s := by
  refine hr.invariant ?_ (fun _ _ _ hi hg h => hi.step hg h)
  rintro _ rfl
  constructor <;> simp [start, holds]

/-! ## The condition is needed -/

/-- A load that has a copy may fail, and then goes to the end. -/
theorem load_may_fail (cmd : Nat → CString) (hold : (s.pc i).holds = true) :
    ∃ a, (loadSystem cmd).run s [a] = some (s.done i false) := by
  cases hpc : s.pc i with
  | reading => exact ⟨.readsDone i false, by simp [System.run, loadSystem, step, hpc]⟩
  | stack => exact ⟨.stackPage i false [], by simp [System.run, loadSystem, step, hpc]⟩
  | _ => simp [hpc, holds] at hold

/-- What `free (stack_args)` does to the copies: the one that `stack_args` points to is freed once more. -/
theorem frees_done {a : Nat} (ha : s.stackArgs = some a) (hc : s.heap a = some c) (i j : Nat) (ok : Bool) :
    (s.done i ok).frees j = if j = c.owner then s.frees j + 1 else s.frees j := by
  simp only [done, goto, freeStackArgs, ha, hc, update_apply]
  split <;> simp_all

/-- A load that makes its copy while another one has a copy makes that load lose its own. -/
theorem LoadInv.malloc_needed (hi : LoadInv cmd s) {j : Nat} (hne : j ≠ i) (hold : (s.pc j).holds = true)
    (hok : ∀ as s'', (loadSystem cmd).run (s.mallocReturns cmd i addr) as = some s'' → LoadsOk cmd s'') : False := by
  have hfr : s.frees j = 0 := by simpa [hold] using hi.frees j
  have hcop := (hi.holder j hold).1
  have hold' : ((s.mallocReturns cmd i addr).pc j).holds = true := by
    cases addr <;> simpa [update_of_ne hne] using hold
  obtain ⟨a, hrun⟩ := load_may_fail cmd hold'
  have hbad := (hok [a] _ hrun).freed j false (by simp)
  cases addr with
  | none =>
    have h1 : s.frees j = 1 := hbad hcop
    omega
  | some b =>
    have hb : (s.mallocReturns cmd i (some b)).heap b = some { owner := i, text := (cmd i).bytes ++ [0], live := true } := by
      simp
    rw [frees_done rfl hb, if_neg hne] at hbad
    have h1 : s.frees j = 1 := hbad (by
      simp only [LoadState.done, LoadState.goto, LoadState.freeStackArgs]
      simp [update_of_ne hne, hcop])
    omega

/-- A load that fails in `pagedir_create` with a pointer in `stack_args` frees a copy that is not its own. -/
theorem LoadInv.pagedir_needed (hi : LoadInv cmd s) {a : Nat} (hpc : s.pc i = .pagedir) (ha : s.stackArgs = some a)
    (hok : ∀ as s'', (loadSystem cmd).run (s.done i false) as = some s'' → LoadsOk cmd s'') : False := by
  obtain ⟨c, hc, hcop⟩ := hi.known a ha
  have hne : c.owner ≠ i := by
    rintro rfl
    rw [hi.fresh _ (.inl hpc)] at hcop
    cases hcop
  have hfr := frees_done ha hc i c.owner false
  rw [if_pos rfl, hi.frees c.owner] at hfr
  by_cases hold : (s.pc c.owner).holds = true
  · -- the owner frees it again
    have hold' : ((s.done i false).pc c.owner).holds = true := by
      simpa [update_of_ne hne, ha, hc] using hold
    obtain ⟨act, hrun⟩ := load_may_fail cmd hold'
    have ha' : (s.done i false).stackArgs = some a := by simp [ha, hc]
    have hc' : (s.done i false).heap a = some { c with live := false } := by
      simp [ha, hc]
    have hbad := (hok [act] _ hrun).atMostOnce c.owner
    rw [frees_done ha' hc', if_pos rfl, hfr] at hbad
    omega
  · -- it has been freed already
    have hbad := (hok [] _ rfl).atMostOnce c.owner
    rw [hfr, if_pos ⟨hcop, by simpa using hold⟩] at hbad
    omega

/-- A step that has only good continuations meets the condition. -/
theorem LoadInv.necessary (hi : LoadInv cmd s) (hs : LoadState.step cmd s a = some s')
    (hok : ∀ as s'', (loadSystem cmd).run s' as = some s'' → LoadsOk cmd s'') : LoadsApart s a := by
  cases a with
  | malloc i addr =>
    obtain ⟨-, hs⟩ := ite_none_right_eq_some.mp hs
    cases hs
    intro j hne
    by_contra hold
    exact hi.malloc_needed hne (by simpa using hold) hok
  | pagedirCreate i ok =>
    obtain ⟨hpc, hs⟩ := ite_none_right_eq_some.mp hs
    cases ok with
    | true => trivial
    | false =>
      cases hs
      show s.stackArgs = none
      cases ha : s.stackArgs with
      | none => rfl
      | some a => exact (hi.pagedir_needed hpc ha hok).elim
  | read i | readsDone i ok | stackPage i ok junk => trivial

/-- In any interleaving of any loads: while no load makes its copy when another one has a copy, and none fails in
`pagedir_create` with a pointer in `stack_args`, every stack is built from the load's own command line and every copy is
freed once. And a step that misses the condition has a continuation in which this fails. -/
theorem loads_ok (cmd : Nat → CString) (s : LoadState) (hr : (loadSystem cmd).ReachableIf LoadsApart s) :
    LoadsOk cmd s ∧
    ∀ a s', step cmd s a = some s' →
      (∀ as s'', (loadSystem cmd).run s' as = some s'' → LoadsOk cmd s'') → LoadsApart s a :=
  ⟨(load_inv hr).ok, fun _ _ hs hok => (load_inv hr).necessary hs hok⟩

theorem noNul_a : ∀ b ∈ ([97] : List UInt8), b ≠ 0 := by simp

theorem noNul_bc : ∀ b ∈ ([98, 32, 99] : List UInt8), b ≠ 0 := by simp

/-- Two command lines, `a` and `b c`. -/
def twoLines : Nat → CString
  | 0 => ⟨[97], noNul_a⟩
  | _ => ⟨[98, 32, 99], noNul_bc⟩

/-- The second load makes its copy after the first one has returned. -/
def takingTurns : List LoadAction :=
  [.pagedirCreate 0 true, .malloc 0 (some 8), .readsDone 0 true, .pagedirCreate 1 true, .stackPage 0 true [], .malloc 1 (some 8),
    .readsDone 1 true, .stackPage 1 true []]

/-- Two loads that take turns: each gets its own words, and each copy is freed once, the second at the address of the
first. -/
theorem loads_ok_turns :
    ∃ s, (loadSystem twoLines).run start takingTurns = some s ∧ LoadsOk twoLines s ∧ s.built 0 = some [97, 0] ∧
      s.built 1 = some [98, 32, 99, 0] ∧ s.frees 0 = 1 ∧ s.frees 1 = 1 := by
  refine System.exists_run rfl ?_ (fun s hr => (loads_ok twoLines s hr).1) (by decide +kernel)
  simp [System.Meets, takingTurns, loadSystem, step, LoadsApart, start, goto, mallocReturns, buildStack, done,
    freeStackArgs, update_apply]
  constructor
  · intro j hj
    simp [hj, holds]
  · intro j hj
    by_cases h0 : j = 0 <;> simp [h0, hj, holds]

/-- The second load makes its copy while the first one reads its executable. The first process gets the second one's words
and frees its copy; the second load then works on a freed block, and frees it again. -/
theorem loads_mix :
    ∃ s, (loadSystem twoLines).Reachable s ∧ s.pc 0 = .returned true ∧ s.built 0 = some [98, 32, 99, 0] ∧ s.frees 0 = 0 ∧
    s.frees 1 = 2 :=
  System.exists_reachable rfl [.pagedirCreate 0 true, .malloc 0 (some 8), .pagedirCreate 1 true, .malloc 1 (some 16),
    .readsDone 0 true, .stackPage 0 true [], .readsDone 1 true, .stackPage 1 true []] (by decide +kernel)

end Pintos
