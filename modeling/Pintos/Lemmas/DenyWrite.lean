import Mathlib.Data.Finset.Card
import Pintos.Filesys.WriteThreads

/-!
# One signed counter for writers and denials

`deny_write_cnt` is the number of outstanding denials, or minus the number of writers between their first and their last
critical section. `DenyInv` says so with the two sets spelled out, and that each thread inside `inode_deny_write` acts for an
opener of its own.
-/

namespace Pintos

open WriteState WritePc Opener Finset

variable {o t : Nat} {pc : WritePc} {c : WriteCall} {x : Opener} {choice : Option Nat}

/-- The thread is between the first and the last critical section of `inode_write_at`. -/
def WritePc.isWriting : WritePc → Bool
  | .settle _ | .growing _ _ | .copy _ _ | .locating _ _ _ | .put _ _ _ _ | .leave _ _ | .halted _ => true
  | _ => false

/-- The opener for which a thread is inside `inode_deny_write`, and what the opener is doing then. -/
def WritePc.denier : WritePc → Option (Nat × Opener)
  | .deny o => some (o, .denying)
  | .denied o => some (o, .counted)
  | _ => none

/-- The opener has a denial outstanding. -/
def Opener.outstanding : Opener → Bool
  | .counted | .denied => true
  | _ => false

/-- The counter is right: `W` are the threads that are writing, `D` the openers with a denial outstanding, `O` all the
openers. -/
structure DenyInv (W D O : Finset Nat) (s : WriteState) : Prop where
  writers : ∀ t, t ∈ W ↔ (s.threads t).isWriting = true
  deniers : ∀ o, o ∈ D ↔ (s.openers o).outstanding = true
  openers : ∀ o, o ∈ O ↔ s.openers o ≠ .closed
  balance : (W = ∅ ∧ s.inode.denyWriteCnt = D.card) ∨ (D = ∅ ∧ s.inode.denyWriteCnt = -(W.card : Int))
  openCnt : s.inode.openCnt = O.card
  acting : ∀ t o x, (s.threads t).denier = some (o, x) → s.openers o = x
  alone : ∀ t u o x y, (s.threads t).denier = some (o, x) → (s.threads u).denier = some (o, y) → t = u
  asserted : ∀ t, s.threads t ≠ .assertFailed

namespace DenyInv

variable {W D O : Finset Nat} {s s' : WriteState}

attribute [local simp] outstanding denier isWriting

attribute [local simp] start

theorem start (sector : Nat) (w : BlockWorld) : DenyInv ∅ ∅ {0} (start sector w) where
  writers t := by simp
  deniers o := by
    simp only [WriteState.start]
    split <;> simp
  openers o := by
    simp only [WriteState.start]
    split <;> simp_all
  balance := .inl ⟨rfl, rfl⟩
  openCnt := rfl
  acting t o x h := by simp at h
  alone t u o x y h := by simp at h
  asserted t h := by simp at h

section

variable (h : DenyInv W D O s)
include h

theorem deniers_subset : D ⊆ O := by
  intro o ho
  rw [h.deniers] at ho
  rw [h.openers]
  intro hc
  simp [hc] at ho

/-- While a denial is outstanding the counter is the number of them. -/
theorem cnt_eq (ho : o ∈ D) : W = ∅ ∧ s.inode.denyWriteCnt = D.card := by
  rcases h.balance with hb | hb
  · exact hb
  · rw [hb.1] at ho
    exact absurd ho (notMem_empty o)

/-- While a denial is outstanding the assertions hold. -/
theorem assertions (ho : o ∈ D) : 0 < s.inode.denyWriteCnt ∧ s.inode.denyWriteCnt ≤ s.inode.openCnt := by
  rw [(h.cnt_eq ho).2, h.openCnt]
  have h1 := card_pos.mpr ⟨o, ho⟩
  have h2 := card_le_card h.deniers_subset
  omega

/-- A thread that is not inside `inode_deny_write` afterwards moves, and no opener changes. -/
theorem move {W' : Finset Nat} (t : Nat) (hd : pc.denier = none) (ha : pc ≠ .assertFailed)
    (hth : ∀ u, s'.threads u = if u = t then pc else s.threads u) (hop : s'.openers = s.openers)
    (hW : ∀ u, u ∈ W' ↔ if u = t then pc.isWriting = true else u ∈ W)
    (hb : (W' = ∅ ∧ s'.inode.denyWriteCnt = D.card) ∨ (D = ∅ ∧ s'.inode.denyWriteCnt = -(W'.card : Int)))
    (hopen : s'.inode.openCnt = s.inode.openCnt) : DenyInv W' D O s' where
  writers u := by
    rw [hth u, hW u, h.writers]
    split <;> rfl
  deniers o := by rw [hop]; exact h.deniers o
  openers o := by rw [hop]; exact h.openers o
  balance := hb
  openCnt := hopen.trans h.openCnt
  acting u o x hu := by
    rw [hth u] at hu
    rw [hop]
    split at hu
    · rw [hd] at hu
      cases hu
    · exact h.acting u o x hu
  alone u v o x y hu hv := by
    rw [hth u] at hu
    rw [hth v] at hv
    split at hu
    · rw [hd] at hu
      cases hu
    · split at hv
      · rw [hd] at hv
        cases hv
      · exact h.alone u v o x y hu hv
  asserted u := by
    rw [hth u]
    split
    · exact ha
    · exact h.asserted u

/-- A thread moves on inside `inode_write_at`, or starts a call, and the counters stay. -/
theorem walk {pc0 : WritePc} (hpc : s.threads t = pc0) (hth : ∀ u, s'.threads u = if u = t then pc else s.threads u)
    (hw : pc.isWriting = pc0.isWriting) (hd : pc.denier = none) (ha : pc ≠ .assertFailed) (hop : s'.openers = s.openers)
    (hcnt : s'.inode.denyWriteCnt = s.inode.denyWriteCnt) (hopen : s'.inode.openCnt = s.inode.openCnt) : DenyInv W D O s' := by
  refine h.move t hd ha hth hop (fun u => ?_) (by rw [hcnt]; exact h.balance) hopen
  split
  · rename_i hu
    rw [h.writers, hw, hu, hpc]
  · rfl

theorem enter (hpc : s.threads t = .enter c) {i : Inode}
    (hi : s.inode.enterWrite = some i) : DenyInv (insert t W) D O ((s.setInode i).setPc t (.settle c)) := by
  have htW : t ∉ W := by rw [h.writers, hpc]; simp
  unfold Inode.enterWrite at hi
  split at hi
  · cases hi
  cases hi
  refine h.move t rfl (by simp) (fun _ => rfl) rfl (fun u => ?_) (.inr ?_) rfl
  · by_cases hu : u = t <;> simp [hu]
  rw [card_insert_of_notMem htW]
  rcases h.balance with ⟨rfl, hb⟩ | ⟨rfl, hb⟩
  · have hD : D.card = 0 := by omega
    refine ⟨card_eq_zero.mp hD, ?_⟩
    simp only [setPc, setInode, hb, hD]
    simp
  · refine ⟨rfl, ?_⟩
    simp only [setPc, setInode, hb]
    omega

theorem leave {n : Int} (hpc : s.threads t = .leave c n) :
    DenyInv (W.erase t) D O ((s.setInode s.inode.leaveWrite).ret t c n) := by
  have htW : t ∈ W := by rw [h.writers, hpc]; rfl
  refine h.move t rfl (by simp) (fun _ => rfl) rfl (fun u => ?_) (.inr ?_) rfl
  · by_cases hu : u = t <;> simp [hu]
  rcases h.balance with ⟨rfl, _⟩ | ⟨rfl, hb⟩
  · exact absurd htW (notMem_empty t)
  have hpos := card_pos.mpr ⟨t, htW⟩
  refine ⟨rfl, ?_⟩
  rw [card_erase_of_mem htW]
  simp only [ret, setPc, setInode, Inode.leaveWrite, hb]
  omega

section

variable {D' O' : Finset Nat} (o : Nat) (hop : ∀ q, s'.openers q = if q = o then x else s.openers q)
  (hD : ∀ q, q ∈ D' ↔ if q = o then x.outstanding = true else q ∈ D) (hO : ∀ q, q ∈ O' ↔ if q = o then x ≠ .closed else q ∈ O)
  (hb : (W = ∅ ∧ s'.inode.denyWriteCnt = D'.card) ∨ (D' = ∅ ∧ s'.inode.denyWriteCnt = -(W.card : Int)))
  (hopen : s'.inode.openCnt = O'.card)
include hop hD hO hb hopen

/-- An opener for which no thread is inside `inode_deny_write` changes. -/
theorem setOpener (h1 : s.openers o ≠ .denying) (h2 : s.openers o ≠ .counted) (hth : s'.threads = s.threads) :
    DenyInv W D' O' s' where
  writers u := by rw [hth]; exact h.writers u
  deniers q := by
    rw [hop q, hD q, h.deniers]
    split <;> rfl
  openers q := by
    rw [hop q, hO q, h.openers]
    split <;> rfl
  balance := hb
  openCnt := hopen
  acting u q y hu := by
    rw [hth] at hu
    have hq := h.acting u q y hu
    have hne : q ≠ o := by
      rintro rfl
      cases hpc : s.threads u with
      | deny r => simp [hpc] at hu; exact h1 (hq.trans hu.2.symm)
      | denied r => simp [hpc] at hu; exact h2 (hq.trans hu.2.symm)
      | _ => simp [hpc] at hu
    rw [hop q, if_neg hne]
    exact hq
  alone u v q y z hu hv := by
    rw [hth] at hu hv
    exact h.alone u v q y z hu hv
  asserted u := by rw [hth]; exact h.asserted u

/-- A thread and the opener it acts for change together. -/
theorem act (t : Nat) (hw : pc.isWriting = (s.threads t).isWriting)
    (hpc : pc.denier = none ∨ pc.denier = some (o, x)) (ha : pc ≠ .assertFailed)
    (hfree : ∀ u y, u ≠ t → (s.threads u).denier ≠ some (o, y))
    (hth : ∀ u, s'.threads u = if u = t then pc else s.threads u) : DenyInv W D' O' s' where
  writers u := by
    rw [hth u, h.writers]
    split
    · rename_i hu
      rw [hw, hu]
    · rfl
  deniers q := by
    rw [hop q, hD q, h.deniers]
    split <;> rfl
  openers q := by
    rw [hop q, hO q, h.openers]
    split <;> rfl
  balance := hb
  openCnt := hopen
  acting u q y hu := by
    rw [hth u] at hu
    rw [hop q]
    split at hu
    · rcases hpc with hpc | hpc <;> rw [hpc] at hu <;> cases hu
      exact if_pos rfl
    rename_i hut
    have hqo : q ≠ o := by
      rintro rfl
      exact hfree u y hut hu
    rw [if_neg hqo]
    exact h.acting u q y hu
  alone u v q y z hu hv := by
    rw [hth u] at hu
    rw [hth v] at hv
    split at hu
    · rename_i hut
      rcases hpc with hpc | hpc <;> rw [hpc] at hu <;> cases hu
      split at hv
      · rename_i hvt
        rw [hut, hvt]
      · exact absurd hv (hfree v z ‹_›)
    · rename_i hut
      split at hv
      · rcases hpc with hpc | hpc <;> rw [hpc] at hv <;> cases hv
        exact absurd hu (hfree u y hut)
      · exact h.alone u v q y z hu hv
  asserted u := by
    rw [hth u]
    split
    · exact ha
    · exact h.asserted u

end

/-- A request of a block map program leaves the counters alone. -/
theorem request {o : BlockOp} {next : o.Res → WritePc}
    (hpc : (s.threads t).isWriting = true) (hw : ∀ r, (next r).isWriting = true) (hs : s.request t choice o next = some s') :
    DenyInv W D O s' := by
  have hd : ∀ pc : WritePc, pc.isWriting = true → pc.denier = none ∧ pc ≠ .assertFailed := fun pc hpc => by
    cases pc <;> simp_all
  unfold WriteState.request at hs
  split at hs
  · split at hs
    · rename_i r w _
      cases hs
      exact h.walk rfl (fun _ => rfl) ((hw r).trans hpc.symm) (hd _ (hw r)).1 (hd _ (hw r)).2 rfl rfl rfl
    · cases hs
      exact h.walk rfl (fun _ => rfl) hpc.symm rfl nofun rfl rfl rfl
  · cases hs

attribute [local simp] advance

theorem advance (hs : s.advance t choice (s.threads t) = some s') : ∃ W' D', DenyInv W' D' O s' := by
  cases hpc : s.threads t with
  | idle | halted e | assertFailed => simp [hpc] at hs
  | enter c =>
    simp only [hpc, WriteState.advance] at hs
    split at hs
    · cases hs
      exact ⟨W, D, h.walk hpc (fun _ => rfl) rfl rfl nofun rfl rfl rfl⟩
    · cases hs
      exact ⟨_, D, h.enter hpc ‹_›⟩
  | growing c p =>
    cases p with
    | ret ok =>
      cases ok
      all_goals
        simp only [hpc, WriteState.advance] at hs
        cases hs
        exact ⟨W, D, h.walk hpc (fun _ => rfl) rfl rfl nofun rfl rfl rfl⟩
    | call o k =>
      simp only [hpc, WriteState.advance] at hs
      exact ⟨W, D, h.request (by rw [hpc]; rfl) (fun _ => rfl) hs⟩
  | settle c | copy c n | put c n sector chunk =>
    simp only [hpc, WriteState.advance] at hs
    repeat' split at hs
    all_goals cases hs
    all_goals exact ⟨W, D, h.walk hpc (fun _ => rfl) rfl rfl nofun rfl rfl rfl⟩
  | locating c n p =>
    cases p with
    | ret sector =>
      simp only [hpc, WriteState.advance] at hs
      split at hs
      all_goals
        cases hs
        exact ⟨W, D, h.walk hpc (fun _ => rfl) rfl rfl nofun rfl rfl rfl⟩
    | call o k =>
      simp only [hpc, WriteState.advance] at hs
      exact ⟨W, D, h.request (by rw [hpc]; rfl) (fun _ => rfl) hs⟩
  | leave c n =>
    simp only [hpc, WriteState.advance] at hs
    cases hs
    exact ⟨_, D, h.leave hpc⟩
  | deny o =>
    simp only [hpc, WriteState.advance] at hs
    split at hs
    · cases hs
    cases hs
    have hso : s.openers o = .denying := h.acting t o .denying (by rw [hpc]; rfl)
    have hoD : o ∉ D := by rw [h.deniers, hso]; simp
    have hoO : o ∈ O := by rw [h.openers, hso]; simp
    refine ⟨W, insert o D, h.act o (fun _ => rfl) ?_ ?_ (.inl ?_) h.openCnt
      t (by rw [hpc]; rfl) (.inr rfl) (by simp) ?_ (fun _ => rfl)⟩
    · intro q
      by_cases hq : q = o <;> simp [hq]
    · intro q
      by_cases hq : q = o <;> simp [hq, hoO]
    · -- No writer is left, since the counter is not negative.
      rw [card_insert_of_notMem hoD]
      rcases h.balance with ⟨rfl, hb⟩ | ⟨rfl, hb⟩
      · refine ⟨rfl, ?_⟩
        simp only [WriteState.setPc, WriteState.setOpener, WriteState.setInode, Inode.denyWrite, hb]
        omega
      · have hW : W.card = 0 := by omega
        refine ⟨card_eq_zero.mp hW, ?_⟩
        simp only [WriteState.setPc, WriteState.setOpener, WriteState.setInode, Inode.denyWrite, hb, hW]
        simp
    · exact fun u y hu hy => hu (h.alone u t o y .denying hy (by rw [hpc]; rfl))
  | denied o =>
    have hso : s.openers o = .counted := h.acting t o .counted (by rw [hpc]; rfl)
    have hoD : o ∈ D := by rw [h.deniers, hso]; rfl
    have hoO : o ∈ O := h.deniers_subset hoD
    simp only [hpc, WriteState.advance, if_pos (h.assertions hoD).2] at hs
    cases hs
    refine ⟨W, D, h.act o (fun _ => rfl) ?_ ?_ h.balance h.openCnt t (by rw [hpc]; rfl) (.inl rfl) (by simp) ?_ (fun _ => rfl)⟩
    · intro q
      by_cases hq : q = o <;> simp [hq, hoD]
    · intro q
      by_cases hq : q = o <;> simp [hq, hoO]
    · exact fun u y hu hy => hu (h.alone u t o y .counted hy (by rw [hpc]; rfl))

theorem step {a : WriteAction} (hs : s.step a = some s') : ∃ W' D' O', DenyInv W' D' O' s' := by
  cases a with
  | go t choice =>
    obtain ⟨W', D', h'⟩ := h.advance hs
    exact ⟨W', D', O, h'⟩
  | write t c =>
    simp only [WriteState.step] at hs
    split at hs
    · rename_i hpc
      cases hs
      exact ⟨W, D, O, h.walk hpc (fun _ => rfl) rfl rfl nofun rfl rfl rfl⟩
    · cases hs
  | deny t o =>
    simp only [WriteState.step] at hs
    split at hs
    · rename_i hpc hso
      cases hs
      have hoD : o ∉ D := by rw [h.deniers, hso]; simp
      have hoO : o ∈ O := by rw [h.openers, hso]; simp
      refine ⟨W, D, O, h.act o (fun _ => rfl) ?_ ?_ h.balance h.openCnt t (by rw [hpc]; rfl) (.inr rfl)
        (by simp) ?_ (fun _ => rfl)⟩
      · intro q
        by_cases hq : q = o <;> simp [hq, hoD]
      · intro q
        by_cases hq : q = o <;> simp [hq, hoO]
      intro u y _ hy
      have := h.acting u o y hy
      rw [hso] at this
      subst this
      cases hu : s.threads u <;> simp [hu] at hy
    · cases hs
  | allow t o =>
    simp only [WriteState.step] at hs
    split at hs
    · rename_i hpc hso
      have hoD : o ∈ D := by rw [h.deniers, hso]; rfl
      have hoO : o ∈ O := h.deniers_subset hoD
      rw [if_pos (h.assertions hoD)] at hs
      cases hs
      refine ⟨W, D.erase o, O, h.setOpener o (fun _ => rfl) ?_ ?_ (.inl ?_) h.openCnt (by simp [hso]) (by simp [hso]) rfl⟩
      · intro q
        by_cases hq : q = o <;> simp [hq]
      · intro q
        by_cases hq : q = o <;> simp [hq, hoO]
      obtain ⟨hW, hcnt⟩ := h.cnt_eq hoD
      have hpos := card_pos.mpr ⟨o, hoD⟩
      refine ⟨hW, ?_⟩
      rw [card_erase_of_mem hoD]
      simp only [WriteState.setOpener, WriteState.setInode, Inode.allowWrite, hcnt]
      omega
    · cases hs
  | reopen o =>
    simp only [WriteState.step] at hs
    split at hs
    · rename_i hso
      cases hs
      have hoD : o ∉ D := by rw [h.deniers, hso]; simp
      have hoO : o ∉ O := by rw [h.openers, hso]; simp
      refine ⟨W, D, insert o O, h.setOpener o (fun _ => rfl) ?_ ?_ h.balance ?_ (by simp [hso]) (by simp [hso]) rfl⟩
      · intro q
        by_cases hq : q = o <;> simp [hq, hoD]
      · intro q
        by_cases hq : q = o <;> simp [hq]
      · rw [card_insert_of_notMem hoO]
        simp only [WriteState.setOpener, WriteState.setInode, h.openCnt]
        rfl
    · cases hs
  | close o =>
    simp only [WriteState.step] at hs
    split at hs
    · rename_i hso
      split at hs
      · cases hs
        have hoD : o ∉ D := by rw [h.deniers, hso]; simp
        have hoO : o ∈ O := by rw [h.openers, hso]; simp
        refine ⟨W, D, O.erase o, h.setOpener o (fun _ => rfl) ?_ ?_ h.balance ?_ (by simp [hso]) (by simp [hso]) rfl⟩
        · intro q
          by_cases hq : q = o <;> simp [hq, hoD]
        · intro q
          by_cases hq : q = o <;> simp [hq]
        · have hpos := card_pos.mpr ⟨o, hoO⟩
          rw [card_erase_of_mem hoO]
          simp only [WriteState.setOpener, WriteState.setInode, h.openCnt]
          omega
      · cases hs
    · cases hs

end

theorem reached {sector : Nat} {w : BlockWorld} {G : WriteState → WriteAction → Prop}
    (h : (writeSystem sector w).ReachableIf G s) : ∃ W D O, DenyInv W D O s :=
  h.invariant (I := fun s => ∃ W D O, DenyInv W D O s) (fun _ h0 => ⟨∅, ∅, {0}, h0 ▸ start sector w⟩)
    (fun _ _ _ ⟨_, _, _, hi⟩ _ hs => hi.step hs)

end DenyInv

end Pintos
