import Pintos.Lemmas.Growth

/-!
# File growth under threads

Any number of writers on one inode: one at a time extends the file, the others copy beside it, the length only grows, and
every call returns its full size. This holds as long as no call ends past byte 194048. `allocate_file` counts the index
blocks it needs by 512 where each holds 128 entries, so past that byte it reports success without having given the file the
sectors.
-/

namespace Pintos

open Program WriteState List Contents

/-- A thread's own next step leads from one point to the other, in some state. -/
def WritePc.OwnStep (pc' pc : WritePc) : Prop :=
  ∃ (s s' : WriteState) (t : Nat) (choice : Option Nat), s.threads t = pc ∧ s.advance t choice pc = some s' ∧ s'.threads t = pc'

/-- What growth is meant to be, in a state of the system that began with a file of length `len0`. -/
structure GrowthOk (len0 : Int) (s : WriteState) : Prop where
  /-- At most one thread is in the extension phase. -/
  alone : ∀ t u, (s.threads t).isGrowing = true → (s.threads u).isGrowing = true → t = u
  /-- A copy that a thread is about to make lies below the length. -/
  below : ∀ t c n x chunk, s.threads t = .put c n x chunk → 0 < chunk ∧ c.offset + n + chunk ≤ s.inode.data.length
  /-- The calls that have returned have returned their full size. -/
  full : ∀ c r, (c, r) ∈ s.returned → r = c.size
  /-- No thread has stopped on the way. -/
  running : ∀ t e, s.threads t ≠ .halted e
  /-- While a thread is in a call, some thread can take a step. -/
  live : ∀ t, s.threads t ≠ .idle → ∃ u choice s', s.step (.go u choice) = some s'
  /-- A thread takes finitely many steps of its own before its call returns. -/
  finite : ∀ t, Acc WritePc.OwnStep (s.threads t)
  /-- When all calls have returned, the length is the largest of the first length and the ends of the calls. -/
  final : (∀ t, s.threads t = .idle) → s.inode.data.length = (s.returned.map (fun r => r.1.stop)).foldr max len0

namespace GrowthAux

/-- A point is accessible if every own step from it leads to one that is. -/
theorem acc_intro {pc : WritePc} (h : ∀ (s s' : WriteState) (t : Nat) (choice : Option Nat),
    s.advance t choice pc = some s' → Acc WritePc.OwnStep (s'.threads t)) : Acc WritePc.OwnStep pc := by
  refine ⟨_, ?_⟩
  rintro pc' ⟨s, s', t, choice, -, hs, rfl⟩
  exact h s s' t choice hs

theorem setPc_self (s : WriteState) (t : Nat) (pc : WritePc) : (s.setPc t pc).threads t = pc := if_pos rfl

theorem acc_idle : Acc WritePc.OwnStep .idle := acc_intro nofun

theorem acc_halted (e : Halt) : Acc WritePc.OwnStep (.halted e) := acc_intro nofun

variable (c : WriteCall) (n : Int)

theorem ret_self (s : WriteState) (t : Nat) : (s.ret t c n).threads t = .idle := if_pos rfl

theorem acc_leave : Acc WritePc.OwnStep (.leave c n) := by
  refine acc_intro fun s s' t choice hs => ?_
  cases hs
  rw [ret_self]
  exact acc_idle

/-- A request leads on with its answer, or stops the thread. -/
theorem acc_request {s s' : WriteState} {t : Nat} {choice : Option Nat} {o : BlockOp} {next : o.Res → WritePc}
    (hnext : ∀ r, Acc WritePc.OwnStep (next r)) (h : s.request t choice o next = some s') :
    Acc WritePc.OwnStep (s'.threads t) := by
  unfold request at h
  split at h
  · split at h <;> cases h <;> rw [setPc_self]
    · exact hnext _
    · exact acc_halted _
  · cases h

theorem acc_put {c : WriteCall} {n chunk : Int} (h : Acc WritePc.OwnStep (.copy c (n + chunk))) (x : Nat) :
    Acc WritePc.OwnStep (.put c n x chunk) := by
  refine acc_intro fun s s' t choice hs => ?_
  simp only [advance] at hs
  split at hs <;> cases hs <;> rw [setPc_self]
  · exact h
  · exact acc_halted _

/-- The search for a sector ends since its program is a finite tree. -/
theorem acc_locating {c : WriteCall} {n : Int} (h : ∀ x chunk, 0 < chunk → Acc WritePc.OwnStep (.put c n x chunk))
    (p : BlockM Nat) : Acc WritePc.OwnStep (.locating c n p) := by
  induction p with
  | ret x =>
    refine acc_intro fun s s' t choice hs => ?_
    simp only [advance] at hs
    split at hs <;> cases hs <;> rw [setPc_self]
    · exact acc_leave c n
    · exact h _ _ (Int.not_le.mp ‹_›)
  | call o k ih => exact acc_intro fun s s' t choice hs => acc_request ih hs

/-- The copy loop ends: every chunk it copies leaves less to copy. -/
theorem acc_copy : Acc WritePc.OwnStep (.copy c n) := by
  induction hm : (c.size - n).toNat using Nat.strong_induction_on generalizing n with
  | _ m ih =>
    refine acc_intro fun s s' t choice hs => ?_
    simp only [advance] at hs
    split at hs <;> cases hs <;> rw [setPc_self]
    · exact acc_locating (fun x chunk hchunk => acc_put (ih _ (by omega) (n + chunk) rfl) x) _
    · exact acc_leave c n

/-- `allocate_file` ends since it is a finite program. -/
theorem acc_growing (p : BlockM Bool) : Acc WritePc.OwnStep (.growing c p) := by
  induction p with
  | ret ok =>
    refine acc_intro fun s s' t choice hs => ?_
    cases ok <;> cases hs <;> rw [setPc_self] <;> exact acc_copy c 0
  | call o k ih => exact acc_intro fun s s' t choice hs => acc_request ih hs

theorem acc_settle : Acc WritePc.OwnStep (.settle c) := by
  refine acc_intro fun s s' t choice hs => ?_
  simp only [advance] at hs
  split at hs
  · cases hs
  · split at hs <;> cases hs <;> rw [setPc_self]
    · exact acc_growing c _
    · exact acc_copy c 0

theorem acc_enter : Acc WritePc.OwnStep (.enter c) := by
  refine acc_intro fun s s' t choice hs => ?_
  simp only [advance] at hs
  split at hs <;> cases hs
  · rw [ret_self]
    exact acc_idle
  · rw [setPc_self]
    exact acc_settle c

/-- A program that is asked nothing impossible makes its next request, whatever the free map says. -/
theorem request_enabled (s : WriteState) (t : Nat) (o : BlockOp) (next : o.Res → WritePc) :
    ∃ s', s.request t none o next = some s' := by
  unfold request
  rw [if_pos (show s.world.mayChoose none = true from rfl)]
  split
  · exact ⟨_, rfl⟩
  · exact ⟨_, rfl⟩

/-- A thread in `allocate_file` can take its next step. -/
theorem growing_enabled {s : WriteState} {t : Nat} (h : (s.threads t).isGrowing = true) :
    ∃ s', s.step (.go t none) = some s' := by
  cases hpc : s.threads t with
  | growing c p =>
    cases p with
    | ret ok => cases ok <;> exact ⟨_, by simp only [step, hpc, advance]; rfl⟩
    | call o k =>
      obtain ⟨s', hs'⟩ := request_enabled s t o (fun r => .growing c (k r))
      exact ⟨s', by simpa only [step, hpc, advance] using hs'⟩
  | _ => simp [hpc, WritePc.isGrowing] at h

/-- The largest of a number and some others, when it is one of them and none is larger. -/
theorem eq_foldr_max {l : List Int} {a x : Int} (ha : a ≤ x) (hl : ∀ y ∈ l, y ≤ x) (hx : x = a ∨ x ∈ l) : x = l.foldr max a := by
  induction l with
  | nil => simpa using hx
  | cons y l ih =>
    have hy := hl y mem_cons_self
    have hle : l.foldr max a ≤ x := by
      clear ih hx
      induction l with
      | nil => exact ha
      | cons z l ih' =>
        have hz := hl z (by simp)
        have := ih' (fun u hu => hl u (by rcases mem_cons.mp hu with rfl | hu <;> simp [*]))
        simp only [foldr_cons]
        omega
    simp only [foldr_cons]
    rcases hx with hx | hx
    · have := ih (fun u hu => hl u (mem_cons_of_mem _ hu)) (.inl hx)
      omega
    · rcases mem_cons.mp hx with rfl | hx
      · omega
      · have := ih (fun u hu => hl u (mem_cons_of_mem _ hu)) (.inr hx)
        omega

end GrowthAux

open GrowthAux

theorem GrowthInv.growthOk {len0 : Int} {s : WriteState} (h : GrowthInv len0 s) (hcnt : s.inode.denyWriteCnt ≤ 0) :
    GrowthOk len0 s where
  alone := h.alone
  below t c n x chunk hpc := by
    obtain ⟨_, hstop, _, hpos, hle, _⟩ := h.known_at hpc
    have hstop' : c.offset + c.size ≤ s.inode.data.length := hstop
    exact ⟨hpos, by omega⟩
  full c r hc := (h.full c r hc).1
  running t e he := h.known_at he
  live t ht := by
    cases hpc : s.threads t with
    | idle => exact absurd hpc ht
    | enter c =>
      exact ⟨t, none, _, by simp [WriteState.step, hpc, WriteState.advance, Inode.enterWrite, Int.not_lt.mpr hcnt]; rfl⟩
    | settle c =>
      cases hext : s.inode.extending with
      | true =>
        obtain ⟨u, hu⟩ := h.marked.mp hext
        obtain ⟨s', hs'⟩ := growing_enabled hu
        exact ⟨u, none, s', hs'⟩
      | false =>
        cases hg : s.inode.needsGrowth c.size c.offset <;>
          exact ⟨t, none, _, by simp only [WriteState.step, hpc, WriteState.advance, hext, hg]; rfl⟩
    | growing c p =>
      obtain ⟨s', hs'⟩ := growing_enabled (s := s) (by rw [hpc]; rfl)
      exact ⟨t, none, s', hs'⟩
    | copy c n =>
      by_cases hn : 0 < c.size - n
      · exact ⟨t, none, _, by simp only [WriteState.step, hpc, WriteState.advance, if_pos hn]; rfl⟩
      · exact ⟨t, none, _, by simp only [WriteState.step, hpc, WriteState.advance, if_neg hn]; rfl⟩
    | locating c n p =>
      cases p with
      | ret x =>
        obtain ⟨hpos, -⟩ := h.located hpc
        exact ⟨t, none, _, by simp only [WriteState.step, hpc, WriteState.advance, if_neg (Int.not_le.mpr hpos)]; rfl⟩
      | call o k =>
        obtain ⟨s', hs'⟩ := request_enabled s t o (fun r => .locating c n (k r))
        exact ⟨t, none, s', by simpa only [WriteState.step, hpc, WriteState.advance] using hs'⟩
    | put c n x chunk =>
      have hx : s.dev.checkSector x = true := decide_eq_true (h.putData hpc (fill 0)).1
      exact ⟨t, none, _, by simp only [WriteState.step, hpc, WriteState.advance, if_pos hx]; rfl⟩
    | leave c n => exact ⟨t, none, _, by simp only [WriteState.step, hpc, WriteState.advance]; rfl⟩
    | _ => exact (h.known_at hpc).elim
  finite t := by
    cases hpc : s.threads t with
    | idle => exact acc_idle
    | enter c => exact acc_enter c
    | settle c => exact acc_settle c
    | growing c p => exact acc_growing c p
    | copy c n => exact acc_copy c n
    | leave c n => exact acc_leave c n
    | locating c n p => exact acc_locating (fun x chunk _ => acc_put (acc_copy c _) x) p
    | put c n x chunk => exact acc_put (acc_copy c _) x
    | _ => exact (h.known_at hpc).elim
  final hidle := by
    refine eq_foldr_max h.low ?_ ?_
    · intro y hy
      obtain ⟨⟨c, r⟩, hc, rfl⟩ := mem_map.mp hy
      exact (h.full c r hc).2
    rcases h.reached with hr | ⟨c, r, hc, he⟩ | ⟨t, c, ht, _⟩
    · exact .inl hr
    · exact .inr (he ▸ mem_map_of_mem hc)
    · rw [hidle t] at ht
      cases ht

/-- In every run from a file whose map is right and no longer than the map can hold, in which every call ends within that, no
writes are denied and the free map always has a sector: at most one thread extends the file at a time, every copy is made
below the length, each call returns its full size, the length never decreases, and in the end it is the largest of the first
one and the ends of the calls. -/
theorem growth_protocol (sector : Nat) (w : BlockWorld) (hm : w.MapOk w.blocks) (h0 : 0 ≤ w.data.length)
    (h1 : w.data.length ≤ mapBytes) (hn : w.dev.size ≤ invalidSector) (s : WriteState)
    (h : (writeSystem sector w).ReachableIf (GrowCondition mapBytes) s) :
    GrowthOk w.data.length s ∧
      ∀ a s', s.GrowCondition mapBytes a → s.step a = some s' → s.inode.data.length ≤ s'.inode.data.length := by
  obtain ⟨hi, W, D, O, hd⟩ : GrowthInv w.data.length s ∧ ∃ W D O, DenyInv W D O s :=
    h.invariant (I := fun s => GrowthInv w.data.length s ∧ ∃ W D O, DenyInv W D O s)
      (fun _ he => he ▸ ⟨GrowthInv.start hm h0 h1 hn, ∅, ∅, {0}, DenyInv.start sector w⟩)
      (fun _ _ _ ⟨hi, _, _, _, hd⟩ hg hs => ⟨hi.step hd hg hs, hd.step hs⟩)
  exact ⟨hi.growthOk (hi.cnt_nonpos hd), fun a s' hg hs => (hi.rebase.step hd hg hs).low⟩

instance (limit : Int) (c : WriteCall) : Decidable (c.Within limit) :=
  decidable_of_iff (0 < c.size ∧ 0 ≤ c.offset ∧ c.stop ≤ limit) ⟨fun h => ⟨h.1, h.2.1, h.2.2⟩, fun h => ⟨h.1, h.2, h.3⟩⟩

instance (limit : Int) (s : WriteState) (a : WriteAction) : Decidable (s.GrowCondition limit a) :=
  match a with
  | .write _ c => inferInstanceAs (Decidable (c.Within limit))
  | .deny _ _ => inferInstanceAs (Decidable False)
  | .allow _ _ => inferInstanceAs (Decidable False)
  | .reopen _ => inferInstanceAs (Decidable True)
  | .close _ => inferInstanceAs (Decidable True)
  | .go t choice => inferInstanceAs (Decidable ((s.threads t).asksFreeMap = true → choice ≠ none))

/-- A device of 16 sectors of zeros, and a file of no bytes on it. -/
def newFile : BlockWorld :=
  { data := fill 0, used := fun x => decide (x < 3), dev := { size := 16, disk := fun _ => fill 0 } }

/-- Two writers on a file of no bytes: the first extends it, and the second begins meanwhile. -/
def twoWriters : List WriteAction :=
  [.write 0 ⟨[1, 2, 3], 3, 0⟩, .go 0 none, .go 0 none, .write 1 ⟨[7, 8], 2, 1⟩, .go 1 none, .go 0 none,
    .go 0 (some 3), .go 0 none,
    .go 0 none, .go 1 none, .go 0 none, .go 0 none, .go 1 none, .go 1 none, .go 0 none, .go 0 none, .go 1 none,
    .go 1 none, .go 0 none, .go 0 none, .go 1 none, .go 1 none]

/-- The run of `twoWriters` ends with both calls returned and a file of three bytes. -/
theorem growth_protocol_two :
    ∃ s, (writeSystem 2 newFile).ReachableIf (GrowCondition mapBytes) s ∧
      s.returned = [(⟨[7, 8], 2, 1⟩, 2), (⟨[1, 2, 3], 3, 0⟩, 3)] ∧ s.inode.data.length = 3 ∧ GrowthOk newFile.data.length s := by
  have hlen : newFile.data.length = 0 := by decide +kernel
  obtain ⟨s, hs, hret, hlen'⟩ : ∃ s, (writeSystem 2 newFile).runIf (GrowCondition mapBytes)
      (start 2 newFile) twoWriters = some s ∧
      s.returned = [(⟨[7, 8], 2, 1⟩, 2), (⟨[1, 2, 3], 3, 0⟩, 3)] ∧ s.inode.data.length = 3 := by decide +kernel
  have hreach := Transition.System.ReachableIf.runIf (.init rfl) twoWriters hs
  have hblocks : newFile.blocks = 0 := by unfold BlockWorld.blocks; rw [hlen]; rfl
  have hnone : ∀ p, ¬MapSlot.InUse 0 p := fun p hp => by cases p <;> simp [MapSlot.InUse] at hp
  refine ⟨s, hreach, hret, hlen', (growth_protocol 2 newFile ?_ (by rw [hlen]) (by rw [hlen]; decide) (by decide) s hreach).1⟩
  rw [hblocks]
  exact ⟨fun p hp => absurd hp (hnone p), fun p hp => absurd hp (hnone p), fun p _ hp => absurd hp (hnone p)⟩

/-! ## Past the map -/

/-- A file of 379 full blocks, as many as the map can hold. The second entry of its doubly indirect block holds what the disk
held. -/
def fullFile : BlockWorld where
  data := ofWords fun k =>
    if k = 0 then 194048 else if k = 1 then 0 else if k < 125 then k + 8 else if k = 125 then 400 else if k = 126 then 401
    else inodeMagic
  used x := decide (x < 403)
  dev :=
    { size := 500
      disk := fun x =>
        if x = 400 then ofWords (fun k => k + 140)
        else if x = 401 then ofWords (fun k => if k = 0 then 402 else 0xfffffff0)
        else if x = 402 then ofWords (fun k => k + 270)
        else fill 0 }

/-- Where the sectors of the file are: the direct blocks from 10 on, those under the singly indirect block from 140 on, those
under the doubly indirect block from 270 on, and then the index blocks. -/
def fullFileSector : MapSlot → Nat
  | .block b => if b < 123 then b + 10 else if b < 251 then b + 17 else b + 19
  | .singly => 400
  | .doubly => 401
  | .leaf => 402

theorem fullFile_sector (p : MapSlot) (hp : MapSlot.InUse 379 p) : fullFile.sector p = fullFileSector p := by
  have hblocks : ∀ b < 379, fullFile.sector (.block b) = fullFileSector (.block b) := by decide +kernel
  cases p with
  | block b => exact hblocks b hp
  | singly | doubly | leaf => decide +kernel

theorem fullFileSector_lt (p : MapSlot) (hp : MapSlot.InUse 379 p) : fullFileSector p < 403 := by
  cases p with
  | block b =>
    have hb : b < 379 := hp
    simp only [fullFileSector]
    split_ifs <;> omega
  | singly | doubly | leaf => decide

theorem fullFile_mapOk : fullFile.MapOk 379 where
  inside p hp := by
    have := fullFileSector_lt p hp
    rw [fullFile_sector p hp, show fullFile.dev.size = 500 from rfl]
    omega
  marked p hp := by
    rw [fullFile_sector p hp]
    exact decide_eq_true (fullFileSector_lt p hp)
  inj p q hp hq he := by
    rw [fullFile_sector p hp, fullFile_sector q hq] at he
    cases p <;> cases q <;> simp only [MapSlot.InUse, fullFileSector] at hp hq he ⊢ <;> grind

/-- A write of one byte right after the last block. -/
def pastWrite : WriteCall := { buffer := [1], size := 1, offset := 194048 }

/-- The thread has panicked. -/
def WritePc.hasPanicked : WritePc → Bool
  | .halted .panic => true
  | _ => false

/-- One thread writes one byte after the 379 blocks that the map holds. `allocate_file` reports success; the copy that
follows asks for the sector that the second entry of the doubly indirect block happens to name, and the kernel panics. -/
theorem growth_past_map :
    fullFile.MapOk fullFile.blocks ∧ fullFile.data.length = mapBytes ∧ fullFile.dev.size ≤ invalidSector ∧
      ∃ s, (writeSystem 2 fullFile).ReachableIf (GrowCondition 2147483647) s ∧ ¬GrowthOk fullFile.data.length s := by
  have hlen : fullFile.data.length = mapBytes := by decide +kernel
  have hblocks : fullFile.blocks = 379 := by unfold BlockWorld.blocks; rw [hlen]; rfl
  obtain ⟨s, hs, hp⟩ : ∃ s, (writeSystem 2 fullFile).runIf (GrowCondition 2147483647) (start 2 fullFile)
      (.write 0 pastWrite :: replicate 788 (.go 0 none)) = some s ∧ (s.threads 0).hasPanicked = true := by decide +kernel
  refine ⟨hblocks ▸ fullFile_mapOk, hlen, by decide, s, Transition.System.ReachableIf.runIf (.init rfl) _ hs, fun hok => ?_⟩
  cases hpc : s.threads 0 with
  | halted e => exact hok.running 0 e hpc
  | _ => simp [hpc, WritePc.hasPanicked] at hp

end Pintos
