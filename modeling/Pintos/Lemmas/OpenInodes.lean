import Pintos.Filesys.OpenInodes

/-!
# What the table of open inodes keeps when lookups stay apart

`TableInv` holds in every state of the runs in which every lookup meets `TableState.LookupApart`. A step moves one thread and
changes one structure, which no other thread is in the middle of opening or closing; `TableInv.change` carries everything
else over.
-/

namespace Pintos

open TableState InodeCell List Option

variable {s s' : TableState} {pc : TablePc}

/-- The number of references to an address. -/
def TableState.refCount (s : TableState) (a : Nat) : Nat := s.refs.countP (fun r => decide (r.2 = a))

/-- The structure that a thread is in the middle of opening or closing. -/
def TablePc.holds : TablePc → Option Nat
  | .pushing _ a => some a
  | .filling _ a => some a
  | .reading _ a => some a
  | .writing a => some a
  | .deallocating a => some a
  | .freeing a => some a
  | _ => none

/-- What holds of the structure that a thread is in the middle of opening or closing. -/
def TablePhase (s : TableState) (t : Nat) : TablePc → Prop
  | .missed x => ∀ a c, s.cells a = some c → c.target ≠ x
  | .pushing x a => ∃ c, s.cells a = some c ∧ c.target = x ∧ c.stage = .allocated
  | .filling x a => ∃ c, s.cells a = some c ∧ c.target = x ∧ c.stage = .pushed
  | .reading x a => ∃ c, s.cells a = some c ∧ c.target = x ∧ c.stage = .assigned ∧ (t, a) ∈ s.refs
  | .writing a => ∃ c, s.cells a = some c ∧ c.stage = .unlinked
  | .deallocating a => ∃ c, s.cells a = some c ∧ c.stage = .unlinked
  | .freeing a => ∃ c, s.cells a = some c ∧ c.stage = .unlinked
  | _ => True

/-- A structure against the number of references to it, stage by stage. -/
def InodeCell.Counted (c : InodeCell) (n : Nat) : Prop :=
  match c.stage with
  | .allocated => n = 0
  | .pushed => n = 0
  | .assigned => n = 1 ∧ c.inode.sector = c.target ∧ c.inode.openCnt = n
  | .loaded => c.inode.sector = c.target ∧ c.inode.openCnt = n
  | .unlinked => n = 0 ∧ c.inode.sector = c.target ∧ c.inode.openCnt = n

/-- The structures that are on the list. -/
def InodeCell.Listed (c : InodeCell) : Prop := c.stage = .pushed ∨ c.stage = .assigned ∨ c.stage = .loaded

/-- The invariant of the table. -/
structure TableInv (s : TableState) : Prop where
  phase : ∀ t, TablePhase s t (s.threads t)
  owner : ∀ a c, s.cells a = some c → c.stage ≠ .loaded → ∃ t, (s.threads t).holds = some a
  busy : ∀ t u x, s.busyWith t = some x → s.busyWith u = some x → t = u
  sole : ∀ a b c d, s.cells a = some c → s.cells b = some d → c.target = d.target → a = b
  listed : ∀ a, a ∈ s.openInodes ↔ ∃ c, s.cells a = some c ∧ c.Listed
  nodup : s.openInodes.Nodup
  counted : ∀ a c, s.cells a = some c → c.Counted (s.refCount a)
  held : ∀ t a, (t, a) ∈ s.refs →
    ∃ c, s.cells a = some c ∧ (c.stage = .loaded ∨ c.stage = .assigned ∧ ∃ x, s.threads t = .reading x a)

attribute [local simp] setPc setCell

namespace TableAux

/-- A structure that some thread is in the middle of opening or closing is allocated and not open to others. -/
theorem cell_of_holds {t a : Nat} (hp : TablePhase s t (s.threads t)) (hh : (s.threads t).holds = some a) :
    ∃ c, s.cells a = some c ∧ c.stage ≠ .loaded ∧ s.busyWith t = some c.target := by
  unfold busyWith
  cases hpc : s.threads t <;> rw [hpc] at hp hh <;> simp only [TablePc.holds, reduceCtorEq, some.injEq] at hh <;>
    subst hh
  case pushing x | filling x =>
    obtain ⟨c, hc, ht, hs⟩ := hp
    exact ⟨c, hc, by simp [hs], by simp [ht]⟩
  case reading x =>
    obtain ⟨c, hc, ht, hs, _⟩ := hp
    exact ⟨c, hc, by simp [hs], by simp [ht]⟩
  case writing | deallocating | freeing =>
    obtain ⟨c, hc, hs⟩ := hp
    exact ⟨c, hc, by simp [hs], by simp [hc]⟩

/-- What a thread is busy with is the target of the structure it holds, or it holds none yet and no structure has that
target. -/
theorem busy_cases {t x : Nat} (hp : TablePhase s t (s.threads t)) (hb : s.busyWith t = some x) :
    (s.threads t = .missed x ∧ ∀ a c, s.cells a = some c → c.target ≠ x) ∨
    ∃ a c, (s.threads t).holds = some a ∧ s.cells a = some c ∧ c.target = x ∧ c.stage ≠ .loaded := by
  cases hh : (s.threads t).holds with
  | some a =>
    obtain ⟨c, hc, hs, hx⟩ := cell_of_holds hp hh
    rw [hx] at hb
    exact .inr ⟨a, c, rfl, hc, some.inj hb, hs⟩
  | none =>
    left
    unfold busyWith at hb
    cases hpc : s.threads t <;> simp only [hpc, TablePc.holds, reduceCtorEq] at hh hb hp
    case missed y =>
      cases hb
      exact ⟨rfl, hp⟩

/-- The stage of a structure that a thread is pushing, and so on, fixes which structure that thread holds. -/
theorem reading_holds {t x a : Nat} (h : s.threads t = .reading x a) : (s.threads t).holds = some a := by
  rw [h]; rfl

end TableAux

open TableAux

variable {a t x : Nat} {c : InodeCell}

theorem TableInv.phase_at (h : TableInv s) (ht : s.threads t = pc) : TablePhase s t pc := ht ▸ h.phase t

/-- A structure is on the list or not, as its stage says. -/
theorem TableInv.mem_iff (h : TableInv s) (hc : s.cells a = some c) : a ∈ s.openInodes ↔ c.Listed := by
  rw [h.listed, hc]
  simp

/-- A loaded structure is held by no thread in the middle of opening or closing it. -/
theorem TableInv.not_holds_of_loaded (h : TableInv s) (hc : s.cells a = some c)
    (hl : c.stage = .loaded) (u : Nat) : (s.threads u).holds ≠ some a := by
  intro hu
  obtain ⟨d, hd, hs, _⟩ := cell_of_holds (h.phase u) hu
  cases hc.symm.trans hd
  exact hs hl

/-- Two threads are not in the middle of opening or closing one structure. -/
theorem TableInv.holds_inj (h : TableInv s) {u : Nat} (ht : (s.threads t).holds = some a)
    (hu : (s.threads u).holds = some a) : t = u := by
  obtain ⟨c, hc, _, hb⟩ := cell_of_holds (h.phase t) ht
  obtain ⟨d, hd, _, hb'⟩ := cell_of_holds (h.phase u) hu
  cases hc.symm.trans hd
  exact h.busy t u _ hb hb'

/-- No thread is busy with the sector of a loaded structure. -/
theorem TableInv.not_busy_of_loaded (h : TableInv s) (hc : s.cells a = some c)
    (hl : c.stage = .loaded) (u : Nat) : s.busyWith u ≠ some c.target := by
  intro hb
  rcases busy_cases (h.phase u) hb with ⟨_, hn⟩ | ⟨b, d, _, hd, ht, hs⟩
  · exact hn a c hc rfl
  · obtain rfl := h.sole b a d c hd hc ht
    cases hc.symm.trans hd
    exact hs hl

/-- A thread is at its place after a step as before it if the structure it holds is as before and what it missed is still
missed. -/
theorem TablePhase.frame (hp : TablePhase s t pc)
    (hcell : ∀ b, pc.holds = some b → s'.cells b = s.cells b ∧ ((t, b) ∈ s'.refs ↔ (t, b) ∈ s.refs))
    (hmiss : ∀ x, pc = .missed x → ∀ b c, s'.cells b = some c → c.target ≠ x) : TablePhase s' t pc := by
  cases pc with
  | idle | lookup x => trivial
  | missed x => exact hmiss x rfl
  | reading x b =>
    obtain ⟨c, hc, ht, hs, hm⟩ := hp
    exact ⟨c, (hcell b rfl).1.trans hc, ht, hs, (hcell b rfl).2.mpr hm⟩
  | _ =>
    obtain ⟨c, hc, hr⟩ := hp
    exact ⟨c, (hcell _ rfl).1.trans hc, hr⟩

/-- What one thread does to the structures of `P`, which are none or one. The step moves thread `t` and changes the
structure, its place on the list and the references to it; no other thread holds it. -/
theorem TableInv.change (h : TableInv s) (t : Nat) (P : Nat → Prop) (hone : ∀ a b, P a → P b → a = b)
    (hthr : ∀ u, u ≠ t → s'.threads u = s.threads u)
    (hkeep : ∀ b, ¬ P b → s'.cells b = s.cells b ∧ (b ∈ s'.openInodes ↔ b ∈ s.openInodes) ∧ s'.refCount b = s.refCount b ∧
      ∀ u, (u, b) ∈ s'.refs ↔ (u, b) ∈ s.refs) (hnodup : s'.openInodes.Nodup)
    (hown : (∀ b, (s.threads t).holds = some b → P b) ∧ ∀ u, u ≠ t → ∀ b, (s.threads u).holds = some b → ¬ P b)
    (hphase : TablePhase s' t (s'.threads t))
    (hbusy : ∀ x, s'.busyWith t = some x → s.busyWith t = some x ∨ ∀ u, u ≠ t → s.busyWith u ≠ some x)
    (hcell : ∀ a c, P a → s'.cells a = some c → (c.stage ≠ .loaded → (s'.threads t).holds = some a) ∧
      c.Counted (s'.refCount a) ∧ ((∃ d, s.cells a = some d ∧ d.target = c.target) ∨
        ((∀ b d, s.cells b = some d → d.target ≠ c.target) ∧ ∀ u, u ≠ t → s.threads u ≠ .missed c.target)))
    (hlisted : ∀ a, P a → (a ∈ s'.openInodes ↔ ∃ c, s'.cells a = some c ∧ c.Listed)) (hheld : ∀ a u, P a → (u, a) ∈ s'.refs →
      ∃ c, s'.cells a = some c ∧ (c.stage = .loaded ∨ c.stage = .assigned ∧ ∃ x, s'.threads u = .reading x a)) :
    TableInv s' := by
  have hmissed : ∀ u x, u ≠ t → s.threads u = .missed x → ∀ b c, s'.cells b = some c → c.target ≠ x := by
    intro u x hu hm b c hc e
    have hp := h.phase u
    rw [hm] at hp
    by_cases hb : P b
    · rcases (hcell b c hb hc).2.2 with ⟨d, hd, hdt⟩ | ⟨_, hn⟩
      · exact hp b d hd (hdt.trans e)
      · exact hn u hu (e ▸ hm)
    · rw [(hkeep b hb).1] at hc
      exact hp b c hc e
  have hbz : ∀ u, u ≠ t → s'.busyWith u = s.busyWith u := by
    intro u hu
    have hsame : ∀ b, (s.threads u).holds = some b → s'.cells b = s.cells b := fun b hb => (hkeep b (hown.2 u hu b hb)).1
    unfold busyWith
    rw [hthr u hu]
    cases hpc : s.threads u <;> rw [hpc] at hsame <;> first | rfl | simp only [hsame _ rfl]
  have hbusy' : ∀ u x, u ≠ t → s.busyWith u = some x → s'.busyWith t = some x → u = t := by
    intro u x hu hb ht
    rcases hbusy x ht with ho | hn
    · exact h.busy u t x hb ho
    · exact absurd hb (hn u hu)
  have hsole : ∀ b b' c d, P b → ¬ P b' → s'.cells b = some c → s.cells b' = some d → c.target = d.target → b = b' := by
    intro b b' c d hb hb' hc hd e
    rcases (hcell b c hb hc).2.2 with ⟨c0, hc0, ht⟩ | ⟨hn, _⟩
    · exact h.sole b b' c0 d hc0 hd (ht.trans e)
    · exact absurd e.symm (hn b' d hd)
  refine ⟨?_, ?_, ?_, ?_, ?_, hnodup, ?_, ?_⟩
  · intro u
    by_cases hu : u = t
    · rw [hu]; exact hphase
    · rw [hthr u hu]
      refine (h.phase u).frame (fun b hb => ?_) (fun x hx => hmissed u x hu hx)
      have hk := hkeep b (hown.2 u hu b hb)
      exact ⟨hk.1, hk.2.2.2 u⟩
  · intro b c hc hs
    by_cases hb : P b
    · exact ⟨t, (hcell b c hb hc).1 hs⟩
    rw [(hkeep b hb).1] at hc
    obtain ⟨u, hu⟩ := h.owner b c hc hs
    by_cases hut : u = t
    · exact absurd (hown.1 b (hut ▸ hu)) hb
    · exact ⟨u, by rw [hthr u hut]; exact hu⟩
  · intro u w x hu hw
    by_cases hut : u = t
    · by_cases hwt : w = t
      · rw [hut, hwt]
      · exact hut.trans (hbusy' w x hwt (hbz w hwt ▸ hw) (hut ▸ hu)).symm
    rw [hbz u hut] at hu
    by_cases hwt : w = t
    · exact (hbusy' u x hut hu (hwt ▸ hw)).trans hwt.symm
    · rw [hbz w hwt] at hw
      exact h.busy u w x hu hw
  · intro b b' c d hc hd e
    by_cases hb : P b
    · by_cases hb' : P b'
      · exact hone b b' hb hb'
      · exact hsole b b' c d hb hb' hc ((hkeep b' hb').1 ▸ hd) e
    rw [(hkeep b hb).1] at hc
    by_cases hb' : P b'
    · exact (hsole b' b d c hb' hb hd hc e.symm).symm
    · rw [(hkeep b' hb').1] at hd
      exact h.sole b b' c d hc hd e
  · intro b
    by_cases hb : P b
    · exact hlisted b hb
    · rw [(hkeep b hb).2.1, (hkeep b hb).1]
      exact h.listed b
  · intro b c hc
    by_cases hb : P b
    · exact (hcell b c hb hc).2.1
    · rw [(hkeep b hb).1] at hc
      rw [(hkeep b hb).2.2.1]
      exact h.counted b c hc
  · intro u b hub
    by_cases hb : P b
    · exact hheld b u hb hub
    obtain ⟨c, hc, hs⟩ := h.held u b (((hkeep b hb).2.2.2 u).mp hub)
    refine ⟨c, by rw [(hkeep b hb).1]; exact hc, ?_⟩
    rcases hs with hs | ⟨hs, x, hx⟩
    · exact .inl hs
    · by_cases hut : u = t
      · subst hut
        exact absurd (hown.1 b (reading_holds hx)) hb
      · exact .inr ⟨hs, x, by rw [hthr u hut]; exact hx⟩

/-- The references after a step of thread `t` on the structure at `a`: as they were, or with one to `a` taken or given
back. -/
def RefsChanged (t a : Nat) (r r' : List (Nat × Nat)) : Prop := r' = r ∨ r' = (t, a) :: r ∨ r.Perm ((t, a) :: r')

/-- The references to other structures are as they were. -/
theorem RefsChanged.keep {r r' : List (Nat × Nat)} (h : RefsChanged t a r r') {b : Nat} (hb : b ≠ a) :
    r'.countP (fun x => decide (x.2 = b)) = r.countP (fun x => decide (x.2 = b)) ∧ ∀ u, (u, b) ∈ r' ↔ (u, b) ∈ r := by
  rcases h with rfl | rfl | hp
  · exact ⟨rfl, fun _ => Iff.rfl⟩
  · simp [hb, hb.symm]
  refine ⟨?_, fun u => ?_⟩
  · rw [hp.countP_eq, countP_cons]
    simp [hb.symm]
  · rw [hp.mem_iff]
    simp [hb]

/-- A step of thread `t` that leaves the structure `c'` at `a`. -/
theorem TableInv.put (h : TableInv s) {c' : InodeCell} {l : List Nat} {r : List (Nat × Nat)}
    (hs' : s' = { s.setCell a (some c') with openInodes := l, refs := r }.setPc t pc)
    (hl : ∀ b, b ≠ a → (b ∈ l ↔ b ∈ s.openInodes)) (hnodup : l.Nodup) (hr : RefsChanged t a s.refs r)
    (hown : (∀ b, (s.threads t).holds = some b → b = a) ∧ ∀ u, u ≠ t → (s.threads u).holds ≠ some a)
    (hphase : TablePhase s' t pc)
    (hbusy : ∀ x, s'.busyWith t = some x → s.busyWith t = some x ∨ ∀ u, u ≠ t → s.busyWith u ≠ some x)
    (howner : c'.stage ≠ .loaded → pc.holds = some a) (htarget : (∃ d, s.cells a = some d ∧ d.target = c'.target) ∨
      ((∀ b d, s.cells b = some d → d.target ≠ c'.target) ∧ ∀ u, u ≠ t → s.threads u ≠ .missed c'.target))
    (hcounted : c'.Counted (r.countP (fun x => decide (x.2 = a)))) (hlisted : a ∈ l ↔ c'.Listed)
    (hheld : ∀ u, (u, a) ∈ r → c'.stage = .loaded ∨ c'.stage = .assigned ∧ u = t ∧ ∃ x, pc = .reading x a) :
    TableInv s' := by
  have hcell : s'.cells a = some c' := hs' ▸ if_pos rfl
  have hpc : s'.threads t = pc := hs' ▸ if_pos rfl
  subst hs'
  refine h.change t (· = a) (fun b b' hb hb' => hb.trans hb'.symm) (fun u hu => if_neg hu) (fun b hb => ?_) hnodup
    ⟨hown.1, fun u hu b hb e => hown.2 u hu (e ▸ hb)⟩ (hpc.symm ▸ hphase) hbusy ?_ ?_ ?_
  · exact ⟨if_neg hb, hl b hb, hr.keep hb⟩
  · rintro b c rfl hc
    cases hcell.symm.trans hc
    exact ⟨fun hs => hpc.symm ▸ howner hs, hcounted, htarget⟩
  · rintro b rfl
    simpa using hlisted
  · rintro b u rfl hu
    refine ⟨c', hcell, (hheld u hu).imp_right ?_⟩
    rintro ⟨hs, rfl, x, hx⟩
    exact ⟨hs, x, hpc.trans hx⟩

/-! ## One lemma for each stretch of code -/

namespace TableAux

/-- An address that no reference names counts zero, and conversely. -/
theorem refCount_eq_zero {a : Nat} : s.refCount a = 0 ↔ ∀ t, (t, a) ∉ s.refs := by
  simp only [refCount, countP_eq_zero, decide_eq_true_eq]
  constructor
  · intro h t ht
    exact h (t, a) ht rfl
  · intro h r hr e
    exact h r.1 (by rw [← e]; exact hr)

/-- Moving a thread from a place where it is in the middle of nothing to another such place. -/
theorem setPc_inv (h : TableInv s) (t : Nat) (pc : TablePc) (ho : (s.threads t).holds = none)
    (hp : TablePhase (s.setPc t pc) t pc)
    (hb : ∀ x, (s.setPc t pc).busyWith t = some x → s.busyWith t = some x ∨ ∀ u, u ≠ t → s.busyWith u ≠ some x) :
    TableInv (s.setPc t pc) := by
  refine h.change t (fun _ => False) (nofun) (fun u hu => if_neg hu) (fun b _ => ⟨rfl, Iff.rfl, rfl, fun _ => Iff.rfl⟩)
    h.nodup ⟨fun b hh => ?_, fun _ _ _ _ => id⟩ ?_ hb (nofun) (nofun) (nofun)
  · rw [ho] at hh
    cases hh
  · rwa [show (s.setPc t pc).threads t = pc from if_pos rfl]

end TableAux

section

variable (h : TableInv s)
include h

/-- The thread in the middle of opening or closing a structure is in the middle of no other, and no other is in the middle of
it. -/
theorem TableInv.sole_holder (hpc : s.threads t = pc) (hh : pc.holds = some a) :
    (∀ b, (s.threads t).holds = some b → b = a) ∧ ∀ u, u ≠ t → (s.threads u).holds ≠ some a := by
  subst hpc
  exact ⟨fun _ hb => some.inj (hb.symm.trans hh), fun _ hu hu' => hu (h.holds_inj hu' hh)⟩

/-- A thread in the middle of nothing, and a loaded structure. -/
theorem TableInv.loaded_apart (ht : (s.threads t).holds = none) (hc : s.cells a = some c)
    (hl : c.stage = .loaded) : (∀ b, (s.threads t).holds = some b → b = a) ∧ ∀ u, u ≠ t → (s.threads u).holds ≠ some a :=
  ⟨fun _ hb => (by rw [ht] at hb; cases hb), fun u _ => h.not_holds_of_loaded hc hl u⟩

/-- The scan found the sector, with lookups kept apart: what it found is loaded. -/
theorem TableInv.found_loaded (ht : s.threads t = .lookup x)
    (hg : s.LookupApart (.go t)) (hf : s.scan x = some a) (hc : s.cells a = some c) : c.stage = .loaded ∧ c.target = x := by
  obtain ⟨hbusy, hfill⟩ := hg x ht
  have hmem : a ∈ s.openInodes := mem_of_find?_eq_some hf
  have hsec : s.sectorAt a = some x := by simpa using find?_some hf
  have hsec' : c.inode.sector = x := by simpa [sectorAt, hc] using hsec
  have hl := (h.mem_iff hc).mp hmem
  have hcnt := h.counted a c hc
  rcases hl with hs | hs | hs
  · -- Only the thread that pushed it can be holding it, and that thread has not assigned the fields.
    obtain ⟨u, hu⟩ := h.owner a c hc (by rw [hs]; decide)
    have hp := h.phase u
    cases hpc : s.threads u <;> rw [hpc] at hp hu <;> simp only [TablePc.holds, reduceCtorEq, some.injEq] at hu <;>
      subst hu
    case filling => exact absurd hsec (hfill u _ _ hpc)
    case reading =>
      obtain ⟨e, he, -, hse, -⟩ := hp
      rw [hc] at he
      cases he
      rw [hs] at hse; cases hse
    all_goals
      obtain ⟨e, he, hse⟩ := hp
      rw [hc] at he
      cases he
      rw [hs] at hse; simp at hse
  · obtain ⟨u, hu⟩ := h.owner a c hc (by rw [hs]; decide)
    obtain ⟨d, hd, -, hb⟩ := cell_of_holds (h.phase u) hu
    cases hc.symm.trans hd
    simp only [Counted, hs] at hcnt
    rw [← hcnt.2.1, hsec'] at hb
    have hut : u ≠ t := by
      intro e
      rw [e, ht] at hu; cases hu
    exact absurd hb (hbusy u hut)
  · simp only [Counted, hs] at hcnt
    exact ⟨hs, hcnt.1 ▸ hsec'⟩

/-- The scan found nothing, with lookups kept apart: no structure is live for the sector. -/
theorem TableInv.missed_none (ht : s.threads t = .lookup x)
    (hg : s.LookupApart (.go t)) (hf : s.scan x = none) : ∀ a c, s.cells a = some c → c.target ≠ x := by
  obtain ⟨hbusy, -⟩ := hg x ht
  intro a c hc e
  by_cases hs : c.stage = .loaded
  · have hmem : a ∈ s.openInodes := (h.mem_iff hc).mpr (.inr (.inr hs))
    have hcnt := h.counted a c hc
    simp only [Counted, hs] at hcnt
    have hne := find?_eq_none.mp hf a hmem
    simp [sectorAt, hc, hcnt.1, e] at hne
  · obtain ⟨u, hu⟩ := h.owner a c hc hs
    obtain ⟨d, hd, -, hb⟩ := cell_of_holds (h.phase u) hu
    cases hc.symm.trans hd
    have hut : u ≠ t := by
      intro e'
      rw [e', ht] at hu; cases hu
    exact hbusy u hut (e ▸ hb)

theorem TableInv.reopen (ht : s.threads t = .lookup x)
    (hc : s.cells a = some c) (hl : c.stage = .loaded) : TableInv ((s.reopen t a c).setPc t .idle) := by
  have hcnt := h.counted a c hc
  simp only [Counted, hl] at hcnt
  refine h.put rfl (fun _ _ => Iff.rfl) h.nodup (.inr (.inl rfl)) (h.loaded_apart (by rw [ht]; rfl) hc hl) trivial
    (by simp [busyWith]) (absurd hl) (.inl ⟨c, hc, rfl⟩) ?_ ?_ (fun _ _ => .inl hl)
  · simp only [Counted, hl, countP_cons]
    exact ⟨hcnt.1, by rw [hcnt.2]; simp [refCount]⟩
  · exact (h.mem_iff hc :)

/-- `malloc` returns a free address to a thread that has looked its sector up in vain. -/
theorem TableInv.malloc (old : Inode) (ht : s.threads t = .missed x) (hc : s.cells a = none) :
    TableInv ((s.setCell a (some { inode := old, target := x, stage := .allocated })).setPc t (.pushing x a)) := by
  have hp := h.phase_at ht
  have hb : s.busyWith t = some x := by simp [busyWith, ht]
  have hnr : ∀ u, (u, a) ∉ s.refs := by
    intro u hu
    obtain ⟨c, hc', _⟩ := h.held u a hu
    cases hc.symm.trans hc'
  refine h.put rfl (fun _ _ => Iff.rfl) h.nodup (.inl rfl) ⟨fun b hb' => ?_, fun u _ hu => ?_⟩ (by simp [TablePhase])
    (fun y hy => ?_) (fun _ => rfl) (.inr ⟨hp, fun u hu hm => hu (h.busy u t x ?_ hb)⟩) (refCount_eq_zero.mpr hnr) ?_
    (fun u hu => absurd hu (hnr u))
  · rw [ht] at hb'; cases hb'
  · obtain ⟨c, hc', _⟩ := cell_of_holds (h.phase u) hu
    cases hc.symm.trans hc'
  · simp only [busyWith, setPc, if_true, some.injEq] at hy
    exact .inl (hy ▸ hb)
  · simp [busyWith, hm]
  · refine iff_of_false (fun hm => ?_) (by simp [Listed])
    obtain ⟨c, hc', _⟩ := (h.listed a).mp hm
    cases hc.symm.trans hc'

theorem TableInv.push (ht : s.threads t = .pushing x a) (hc : s.cells a = some c) :
    TableInv ({ s.setCell a (some { c with stage := .pushed }) with openInodes := a :: s.openInodes }.setPc t
      (.filling x a)) := by
  obtain ⟨d, hd, htx, hst⟩ := h.phase_at ht
  cases hc.symm.trans hd
  have hcnt : s.refCount a = 0 := by simpa [Counted, hst] using h.counted a c hc
  have hnl : a ∉ s.openInodes := by simp [h.mem_iff hc, Listed, hst]
  refine h.put rfl (fun b hb => by simp [hb]) (nodup_cons.mpr ⟨hnl, h.nodup⟩) (.inl rfl) (h.sole_holder ht rfl)
    (by simp [TablePhase, htx]) (fun y hy => ?_) (fun _ => rfl) (.inl ⟨c, hc, rfl⟩) hcnt (by simp [Listed])
    (fun u hu => absurd hu (refCount_eq_zero.mp hcnt u))
  simp only [busyWith, setPc, if_true, some.injEq] at hy
  exact .inl (by simp [busyWith, ht, hy])

theorem TableInv.assign (ht : s.threads t = .filling x a) (hc : s.cells a = some c) :
    TableInv ({ s.setCell a (some (TableState.assign x c)) with refs := (t, a) :: s.refs }.setPc t (.reading x a)) := by
  obtain ⟨d, hd, htx, hst⟩ := h.phase_at ht
  cases hc.symm.trans hd
  have hcnt : s.refCount a = 0 := by simpa [Counted, hst] using h.counted a c hc
  refine h.put rfl (fun _ _ => Iff.rfl) h.nodup (.inr (.inl rfl)) (h.sole_holder ht rfl)
    (by simp [TablePhase, TableState.assign, htx]) (fun y hy => ?_) (fun _ => rfl) (.inl ⟨c, hc, rfl⟩) ?_ ?_ (fun u hu => ?_)
  · simp only [TableState.busyWith, setPc, if_true, some.injEq] at hy
    exact .inl (by simp [TableState.busyWith, ht, hy])
  · rw [countP_cons, show s.refs.countP _ = 0 from hcnt]
    simp [Counted, TableState.assign, htx]
  · exact iff_of_true ((h.mem_iff hc).mpr (.inl hst)) (.inr (.inl rfl))
  · rcases mem_cons.mp hu with hu | hu
    · exact .inr ⟨rfl, congrArg Prod.fst hu, x, rfl⟩
    · exact absurd hu (refCount_eq_zero.mp hcnt u)

/-- The data of a new structure is read, and `inode_open` returns it. -/
theorem TableInv.load (ht : s.threads t = .reading x a) (hc : s.cells a = some c) :
    TableInv ((s.setCell a (some { c with inode := { c.inode with data := s.disk c.inode.sector }, stage := .loaded })).setPc t
      .idle) := by
  obtain ⟨d, hd, -, hst, hm⟩ := h.phase_at ht
  cases hc.symm.trans hd
  have hcnt := h.counted a c hc
  simp only [Counted, hst] at hcnt
  exact h.put rfl (fun _ _ => Iff.rfl) h.nodup (.inl rfl) (h.sole_holder ht rfl) trivial (by simp [busyWith])
    (absurd rfl) (.inl ⟨c, hc, rfl⟩) ⟨hcnt.2.1, hcnt.2.2⟩
    (iff_of_true ((h.mem_iff hc).mpr (.inr (.inl hst))) (.inr (.inr rfl))) (fun _ _ => .inl rfl)

/-- A thread closes a reference: one that is not the last only counts down, the last takes the structure off the list. -/
theorem TableInv.close (ht : s.threads t = .idle)
    (hm : (t, a) ∈ s.refs) (hc : s.cells a = some c) : TableInv (s.close t a c) := by
  obtain ⟨d, hd, hl⟩ := h.held t a hm
  cases hc.symm.trans hd
  replace hl : c.stage = .loaded := by
    rcases hl with hl | ⟨_, x, hx⟩
    · exact hl
    · rw [ht] at hx; cases hx
  have hcnt := h.counted a c hc
  simp only [Counted, hl] at hcnt
  have hp : s.refs.Perm ((t, a) :: s.refs.erase (t, a)) := perm_cons_erase hm
  have hrc : s.refCount a = (s.refs.erase (t, a)).countP (fun r => decide (r.2 = a)) + 1 := by
    rw [refCount, hp.countP_eq, countP_cons]
    simp
  have hown := h.loaded_apart (by rw [ht]; rfl) hc hl
  unfold TableState.close
  simp only
  split
  · rename_i hn
    have hzero : (s.refs.erase (t, a)).countP (fun r => decide (r.2 = a)) = 0 := by omega
    refine h.put rfl (fun b hb => mem_erase_of_ne hb) (h.nodup.erase a) (.inr (.inr hp)) hown (by simp [TablePhase])
      (fun y hy => ?_) (fun _ => rfl) (.inl ⟨c, hc, rfl⟩) ⟨hzero, hcnt.1, by rw [hzero]; exact hn⟩
      (iff_of_false h.nodup.not_mem_erase (by simp [Listed])) (fun u hu => ?_)
    · simp only [busyWith, setPc, setCell, if_true, map_some, some.injEq] at hy
      exact .inr (fun u _ => hy ▸ h.not_busy_of_loaded hc hl u)
    · simpa using countP_eq_zero.mp hzero (u, a) hu
  · -- The thread stays where it is.
    have hidle : ∀ s' : TableState, s'.threads = s.threads → s'.setPc t .idle = s' := by
      intro s' hs'
      have : (fun u => if u = t then TablePc.idle else s'.threads u) = s'.threads := by
        funext u
        rcases eq_or_ne u t with rfl | hu
        · rw [if_pos rfl, hs', ht]
        · rw [if_neg hu]
      rw [setPc, this]
    rw [← hidle _ rfl]
    refine h.put rfl (fun _ _ => Iff.rfl) h.nodup (.inr (.inr hp)) hown trivial (by simp [busyWith])
      (absurd hl) (.inl ⟨c, hc, rfl⟩) ?_ ?_ (fun _ _ => .inl hl)
    · simp only [Counted, hl]
      exact ⟨hcnt.1, by rw [hcnt.2, hrc]; simp⟩
    · exact (h.mem_iff hc :)

/-- The last closer of a structure moves on inside `inode_close`; the disk may change under it. -/
theorem TableInv.closing (disk : Nat → Contents) (pc : TablePc)
    (ht : (s.threads t).holds = some a) (hc : s.cells a = some c) (hst : c.stage = .unlinked)
    (hpc : pc = .deallocating a ∨ pc = .freeing a) : TableInv ({ s with disk := disk }.setPc t pc) := by
  obtain ⟨d, hd, -, hb⟩ := cell_of_holds (h.phase t) ht
  cases hc.symm.trans hd
  have hown := h.sole_holder rfl ht
  have hthr : ({ s with disk := disk }.setPc t pc).threads t = pc := if_pos rfl
  refine h.change t (· = a) (fun b b' hb hb' => hb.trans hb'.symm) (fun u hu => if_neg hu)
    (fun _ _ => ⟨rfl, Iff.rfl, rfl, fun _ => Iff.rfl⟩) h.nodup ⟨hown.1, fun u hu b hb e => hown.2 u hu (e ▸ hb)⟩
    ?_ (fun y hy => ?_) ?_ (fun b _ => h.listed b) ?_
  · rcases hpc with rfl | rfl <;> simp [TablePhase, hc, hst]
  · have : ({ s with disk := disk }.setPc t pc).busyWith t = some c.target := by
      rcases hpc with rfl | rfl <;> simp [busyWith, hc]
    exact .inl (hy ▸ this ▸ hb)
  · rintro b d rfl hd
    refine ⟨fun _ => ?_, h.counted b d hd, .inl ⟨d, hd, rfl⟩⟩
    rw [hthr]
    rcases hpc with rfl | rfl <;> rfl
  · rintro b u rfl hu
    have hcnt := h.counted b c hc
    simp only [Counted, hst] at hcnt
    exact absurd hu (refCount_eq_zero.mp hcnt.1 u)

theorem TableInv.free (ht : s.threads t = .freeing a) : TableInv ((s.setCell a none).setPc t .idle) := by
  obtain ⟨c, hc, hst⟩ := h.phase_at ht
  have hcnt := h.counted a c hc
  simp only [Counted, hst] at hcnt
  have hown := h.sole_holder ht rfl
  refine h.change t (· = a) (fun b b' hb hb' => hb.trans hb'.symm) (fun u hu => if_neg hu)
    (fun b hb => ⟨if_neg hb, Iff.rfl, rfl, fun _ => Iff.rfl⟩) h.nodup ⟨hown.1, fun u hu b hb e => hown.2 u hu (e ▸ hb)⟩
    (by simp [TablePhase]) (by simp [busyWith]) ?_ ?_ ?_
  · rintro b d rfl hd
    simp at hd
  · rintro b rfl
    exact iff_of_false (by simp [h.mem_iff hc, Listed, hst]) (by simp)
  · rintro b u rfl hu
    exact absurd hu (refCount_eq_zero.mp hcnt.1 u)

/-- Every step that keeps its lookup apart keeps the invariant. -/
theorem TableInv.step {a : TableAction} (hg : s.LookupApart a) (hs : s.step a = some s') : TableInv s' := by
  cases a with
  | openSector t x =>
    simp only [TableState.step] at hs
    split at hs
    · rename_i ht
      obtain rfl := some.inj hs
      exact setPc_inv h t _ (by rw [ht]; rfl) trivial (by simp [busyWith])
    · cases hs
  | close t a =>
    simp only [TableState.step] at hs
    split at hs
    · rename_i hta
      obtain ⟨c, hc, rfl⟩ := map_eq_some_iff.mp hs
      exact h.close hta.1 hta.2 hc
    · cases hs
  | malloc t result =>
    simp only [TableState.step] at hs
    cases ht : s.threads t with
    | missed x =>
      cases result with
      | none =>
        simp only [ht] at hs
        cases hs
        exact setPc_inv h t _ (by rw [ht]; rfl) trivial (by simp [busyWith])
      | some r =>
        obtain ⟨a, old⟩ := r
        simp only [ht] at hs
        cases hc : s.cells a with
        | none =>
          simp only [hc, some.injEq] at hs
          exact hs ▸ h.malloc old ht hc
        | some c => simp [hc] at hs
    | _ => simp [ht] at hs
  | go t =>
    simp only [TableState.step, TableState.go] at hs
    cases ht : s.threads t <;> simp only [ht, reduceCtorEq, some.injEq] at hs
    case lookup x =>
      cases hf : s.scan x with
      | some a =>
        simp only [hf] at hs
        obtain ⟨c, hc, rfl⟩ := map_eq_some_iff.mp hs
        exact h.reopen ht hc (h.found_loaded ht hg hf hc).1
      | none =>
        simp only [hf] at hs
        cases hs
        refine setPc_inv h t _ (by rw [ht]; rfl) (h.missed_none ht hg hf) ?_
        intro y hy
        simp only [busyWith, setPc, if_true, some.injEq] at hy
        exact .inr (hy ▸ (hg x ht).1)
    case pushing x a =>
      obtain ⟨c, hc, rfl⟩ := map_eq_some_iff.mp hs
      exact h.push ht hc
    case filling x a =>
      obtain ⟨c, hc, rfl⟩ := map_eq_some_iff.mp hs
      exact h.assign ht hc
    case reading x a =>
      obtain ⟨c, hc, rfl⟩ := map_eq_some_iff.mp hs
      exact h.load ht hc
    case writing a =>
      obtain ⟨d, hd, hst⟩ := h.phase_at ht
      obtain ⟨c, hc, rfl⟩ := map_eq_some_iff.mp hs
      rw [hc] at hd
      obtain rfl := some.inj hd
      refine h.closing _ _ (by rw [ht]; rfl) hc hst ?_
      cases c.inode.removed <;> simp
    case deallocating a =>
      obtain ⟨c, hc, hst⟩ := h.phase_at ht
      exact hs ▸ h.closing s.disk (.freeing a) (by rw [ht]; rfl) hc hst (.inr rfl)
    case freeing a =>
      exact hs ▸ h.free ht

end

theorem TableInv.start (disk : Nat → Contents) : TableInv (start disk) where
  phase := fun _ => trivial
  owner := fun _ _ hc => by simp [TableState.start] at hc
  busy := fun _ _ _ hb => by simp [TableState.start, TableState.busyWith] at hb
  sole := fun _ _ _ _ hc => by simp [TableState.start] at hc
  listed := fun _ => by simp [TableState.start]
  nodup := nodup_nil
  counted := fun _ _ hc => by simp [TableState.start] at hc
  held := fun _ _ hm => by simp [TableState.start] at hm

end Pintos
