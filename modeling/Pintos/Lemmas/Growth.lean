import Pintos.Lemmas.Allocate
import Pintos.Lemmas.DenyWrite

/-!
# Writers that grow a file, and writers beside them

While one writer is in `allocate_file`, others go on copying into the blocks that were there before. `Grown` is what a writer
in `byte_to_sector` relies on, and `dataSectors` are the sectors whose bytes the growing writer must leave to others. `PcOk`
says what each thread knows at each point, and `GrowthInv` what holds of the whole system.
-/

namespace Pintos

open Program WriteState BlockWorld WriteCall

variable {c : WriteCall} {w : BlockWorld} {pc : WritePc} {b x : Nat}

/-- A file has grown, or stayed: no block of it has moved. -/
def Grown (w w' : BlockWorld) : Prop :=
  w.data.length ≤ w'.data.length ∧ w'.dev.size = w.dev.size ∧ Stable w.blocks w w'

theorem Grown.refl (w : BlockWorld) : Grown w w := ⟨Int.le_refl _, rfl, .refl _ _⟩

theorem Grown.trans (a b c : BlockWorld) (h1 : Grown a b) (h2 : Grown b c) : Grown a c := by
  refine ⟨Int.le_trans h1.1 h2.1, h2.2.1.trans h1.2.1, fun p hp => ?_⟩
  exact (h2.2.2 p (hp.mono (blocks_mono h1.1))).trans (h1.2.2 p hp)

/-- A call that writes something, at a place from the start on, and ends at or before a limit. -/
structure WriteCall.Within (limit : Int) (c : WriteCall) : Prop where
  size_pos : 0 < c.size
  offset_nonneg : 0 ≤ c.offset
  stop_le : c.stop ≤ limit

/-- The calls that the map can hold. -/
abbrev CallOk (c : WriteCall) : Prop := c.Within mapBytes

theorem WriteCall.Within.stop_eq (h : CallOk c) : toInt32 (c.size + c.offset) = c.stop := by
  have h1 := h.size_pos
  have h2 := h.offset_nonneg
  have h3 := h.stop_le
  unfold stop mapBytes at *
  rw [toInt32_of_fits (by omega) (by omega)]
  omega

/-- A byte that the call still has to write lies in the file, once the file is long enough. -/
theorem WriteCall.Within.pos_lt {len n : Int} (hstop : c.stop ≤ len) (hn : n < c.size) : c.offset + n < len := by
  unfold stop at hstop
  omega

/-- Such a byte lies in one of the blocks. -/
theorem WriteCall.Within.block_lt (h : CallOk c) {n : Int} (hstop : c.stop ≤ w.data.length) (h0 : 0 ≤ n)
    (hn : n < c.size) : (c.offset + n).toNat / 512 < w.blocks :=
  blocks_of_lt (Int.add_nonneg h.offset_nonneg h0) (Within.pos_lt hstop hn)

/-- What a thread knows at each point. In `allocate_file`, the world in which it began is kept: the length is still that
one's. -/
def PcOk (w : BlockWorld) : WritePc → Prop
  | .idle => True
  | .enter c | .settle c => CallOk c
  | .growing c p => CallOk c ∧ w.data.length < c.stop ∧ ∃ w0 : BlockWorld, GrowStart w0 w0.blocks (dataSectors w0) ∧
      Stable w0.blocks w0 w ∧ w.data.length = w0.data.length ∧
      GrowSafe (fun _ => False) (dataSectors w0) w0.blocks p
        (fun ok w' => if ok then Grow w0 w0.blocks (dataSectors w0) (MapSlot.InUse (bytesToSectors c.stop)) w'.sector w'
          else GrowFailed (fun _ => False) w0 w0.blocks (dataSectors w0) w') w
  | .copy c n => CallOk c ∧ c.stop ≤ w.data.length ∧ 0 ≤ n ∧ n ≤ c.size
  | .locating c n p => CallOk c ∧ c.stop ≤ w.data.length ∧ 0 ≤ n ∧ n < c.size ∧
      p.Safe (blockSem (fun _ => False)) Grown (fun w w' => w' = w)
      (fun x w' => x = w'.sector (.block ((c.offset + n).toNat / 512))) w
  | .put c n x chunk => CallOk c ∧ c.stop ≤ w.data.length ∧ 0 ≤ n ∧ 0 < chunk ∧ n + chunk ≤ c.size ∧
      x = w.sector (.block ((c.offset + n).toNat / 512))
  | .leave c n => CallOk c ∧ c.stop ≤ w.data.length ∧ n = c.size
  | .deny _ | .denied _ | .halted _ | .assertFailed => False

/-- The thread is in `allocate_file`. -/
def WritePc.isGrowing : WritePc → Bool
  | .growing _ _ => true
  | _ => false

/-- The call of a thread for which the file is long enough by now. -/
def WritePc.copying : WritePc → Option WriteCall
  | .copy c _ | .locating c _ _ | .put c _ _ _ | .leave c _ => some c
  | _ => none

/-- What a thread outside `allocate_file` knows is kept when the file grows. -/
theorem PcOk.grown {w' : BlockWorld} (h : PcOk w pc) (hg : Grown w w') (hn : pc.isGrowing = false) : PcOk w' pc := by
  cases pc with
  | growing c p => cases hn
  | copy c n | leave c n => exact ⟨h.1, Int.le_trans h.2.1 hg.1, h.2.2⟩
  | locating c n p => exact ⟨h.1, Int.le_trans h.2.1 hg.1, h.2.2.1, h.2.2.2.1, h.2.2.2.2.rely Grown.trans hg⟩
  | put c n x chunk =>
    obtain ⟨hc, hstop, h0, hpos, hle, hx⟩ := h
    refine ⟨hc, Int.le_trans hstop hg.1, h0, hpos, hle, ?_⟩
    rw [hx]
    exact (hg.2.2 (.block _) (hc.block_lt hstop h0 (by omega))).symm
  | _ => exact h

/-- Writing data moves no block. -/
theorem stable_put_data {n : Nat} (hm : w.MapOk n) (hb : b < n) (c : Contents) : Stable n w (w.put (w.sector (.block b)) c) := by
  have hne : ∀ p, MapSlot.InUse n p → p.isIndex = true → w.sector p ≠ w.sector (.block b) := fun p hp hi he => by
    rw [hm.inj p (.block b) hp hb he] at hi
    cases hi
  refine stable_of_eq (fun _ _ _ => rfl) (fun hn => ⟨rfl, fun i _ _ => ?_⟩) (fun hn => ?_)
  · have h1 : w.data.singlyIndirectPtr ≠ w.sector (.block b) := hne .singly hn rfl
    simp only [singlyBlock, put, if_neg h1]
  have h1 : w.data.doublyIndirectPtr ≠ w.sector (.block b) := hne .doubly hn rfl
  have h2 : w.leafPtr ≠ w.sector (.block b) := hne .leaf hn rfl
  have hptr : (w.put (w.sector (.block b)) c).leafPtr = w.leafPtr := by
    simp only [leafPtr, put, if_neg h1]
  refine ⟨rfl, hptr, fun i _ => ?_⟩
  unfold leafBlock
  rw [hptr]
  simp only [put, if_neg h2]

/-- What a thread knows is kept when another thread copies data into the file. -/
theorem PcOk.put_data (h : PcOk w pc) (hm : w.MapOk w.blocks) (hb : b < w.blocks)
    (c : Contents) : PcOk (w.put (w.sector (.block b)) c) pc := by
  have hst := stable_put_data hm hb c
  cases hg : pc.isGrowing with
  | false => exact h.grown ⟨Int.le_refl _, rfl, hst⟩ hg
  | true =>
    cases pc with
    | growing d p =>
      obtain ⟨hd, hlt, w0, hstart, hst0, hlen0, hsafe⟩ := h
      have hblocks : w.blocks = w0.blocks := by unfold blocks; rw [hlen0]
      have hother : Others (dataSectors w0) w (w.put (w.sector (.block b)) c) := by
        refine ⟨rfl, rfl, rfl, fun x hx => ?_⟩
        have hne : x ≠ w.sector (.block b) := by
          rintro rfl
          exact hx ⟨b, hblocks ▸ hb, (hst0 (.block b) (hblocks ▸ hb)).symm⟩
        simp only [put, if_neg hne]
      exact ⟨hd, hlt, w0, hstart, hst0.trans (hblocks ▸ hst), hlen0, hsafe.rely Others.trans hother⟩
    | _ => cases hg

/-! ## The whole system -/

/-- What holds of the whole system in runs without denials, from an inode of length `len0`. -/
structure GrowthInv (len0 : Int) (s : WriteState) : Prop where
  mapOk : s.world.MapOk s.world.blocks
  nonneg : 0 ≤ s.inode.data.length
  bounded : s.inode.data.length ≤ mapBytes
  numbered : s.dev.size ≤ invalidSector
  low : len0 ≤ s.inode.data.length
  quiet : ∀ o, (s.openers o).outstanding = false
  known : ∀ t, PcOk s.world (s.threads t)
  marked : s.inode.extending = true ↔ ∃ t, (s.threads t).isGrowing = true
  alone : ∀ t u, (s.threads t).isGrowing = true → (s.threads u).isGrowing = true → t = u
  full : ∀ c r, (c, r) ∈ s.returned → r = c.size ∧ c.stop ≤ s.inode.data.length
  reached : s.inode.data.length = len0 ∨ (∃ c r, (c, r) ∈ s.returned ∧ c.stop = s.inode.data.length) ∨
    ∃ t c, (s.threads t).copying = some c ∧ c.stop = s.inode.data.length

namespace GrowthInv

variable {len0 : Int} {s s' : WriteState} {t : Nat}

attribute [local simp] WritePc.isGrowing

attribute [local simp] start

theorem start {sector : Nat} (hm : w.MapOk w.blocks) (h0 : 0 ≤ w.data.length) (h1 : w.data.length ≤ mapBytes)
    (hn : w.dev.size ≤ invalidSector) : GrowthInv w.data.length (start sector w) where
  mapOk := hm
  nonneg := h0
  bounded := h1
  numbered := hn
  low := Int.le_refl _
  quiet o := by
    simp only [WriteState.start]
    split <;> rfl
  known _ := trivial
  marked := by simp
  alone t u h := by simp at h
  full c r h := by simp at h
  reached := .inl rfl

/-- One thread moves and the world changes with it. What is left to show for each kind of step is what it does to the map, to
what the other threads know, to the mark and to the length. -/
theorem change (h : GrowthInv len0 s) (t : Nat) (pc : WritePc) (hth : ∀ u, s'.threads u = if u = t then pc else s.threads u)
    (hop : s'.openers = s.openers) (hsize : s'.dev.size = s.dev.size) (hmap : s'.world.MapOk s'.world.blocks)
    (hle : s.inode.data.length ≤ s'.inode.data.length) (hb : s'.inode.data.length ≤ mapBytes)
    (hother : ∀ u, u ≠ t → PcOk s'.world (s.threads u)) (hpc : PcOk s'.world pc)
    (hmark : s'.inode.extending = true ↔ pc.isGrowing = true ∨ ∃ u, u ≠ t ∧ (s.threads u).isGrowing = true)
    (halone : pc.isGrowing = true → ∀ u, u ≠ t → (s.threads u).isGrowing = false)
    (hfull : ∀ c r, (c, r) ∈ s'.returned → r = c.size ∧ c.stop ≤ s'.inode.data.length)
    (hreach : s'.inode.data.length = len0 ∨ (∃ c r, (c, r) ∈ s'.returned ∧ c.stop = s'.inode.data.length) ∨
      ∃ u c, (s'.threads u).copying = some c ∧ c.stop = s'.inode.data.length) : GrowthInv len0 s' where
  mapOk := hmap
  nonneg := Int.le_trans h.nonneg hle
  bounded := hb
  numbered := hsize ▸ h.numbered
  low := Int.le_trans h.low hle
  quiet o := by rw [hop]; exact h.quiet o
  known u := by
    rw [hth u]
    split
    · exact hpc
    · exact hother u ‹_›
  marked := by
    rw [hmark]
    constructor
    · rintro (hg | ⟨u, hu, hg⟩)
      · exact ⟨t, by rw [hth t, if_pos rfl]; exact hg⟩
      · exact ⟨u, by rw [hth u, if_neg hu]; exact hg⟩
    rintro ⟨u, hg⟩
    rw [hth u] at hg
    split at hg
    · exact .inl hg
    · exact .inr ⟨u, ‹_›, hg⟩
  alone u v hu hv := by
    rw [hth u] at hu
    rw [hth v] at hv
    split at hu
    · rename_i hut
      split at hv
      · rename_i hvt
        rw [hut, hvt]
      · rename_i hvt
        rw [halone hu v hvt] at hv
        cases hv
    · rename_i hut
      split at hv
      · rw [halone hv u hut] at hu
        cases hu
      · exact h.alone u v hu hv
  full := hfull
  reached := hreach

section

variable (h : GrowthInv len0 s)
include h

theorem known_at (hpc : s.threads t = pc) : PcOk s.world pc := hpc ▸ h.known t

/-- The mark is set by the others, where a thread is outside `allocate_file`. -/
theorem marked_iff (hpc : s.threads t = pc) (hg : pc.isGrowing = false) :
    s.inode.extending = true ↔ ∃ u, u ≠ t ∧ (s.threads u).isGrowing = true := by
  rw [h.marked]
  refine exists_congr fun u => ⟨fun hu => ⟨fun hut => ?_, hu⟩, And.right⟩
  rw [hut, hpc, hg] at hu
  cases hu

/-- While a thread is in `allocate_file`, the others are not. -/
theorem others_idle (hpc : s.threads t = pc) (hg : pc.isGrowing = true) (u : Nat) (hu : u ≠ t) :
    (s.threads u).isGrowing = false := by
  cases hgu : (s.threads u).isGrowing with
  | false => rfl
  | true => exact absurd (h.alone u t hgu (by rw [hpc, hg])) hu

/-- Whose write has brought the file to its length, as a thread moves that goes on copying if it did so before. -/
theorem reached_move {pc' : WritePc} (hpc : s.threads t = pc) (hth : ∀ u, s'.threads u = if u = t then pc' else s.threads u)
    (hret : s'.returned = s.returned) (hlen : s'.inode.data.length = s.inode.data.length)
    (hc : ∀ c, pc.copying = some c → pc'.copying = some c) :
    s'.inode.data.length = len0 ∨ (∃ c r, (c, r) ∈ s'.returned ∧ c.stop = s'.inode.data.length) ∨
      ∃ u c, (s'.threads u).copying = some c ∧ c.stop = s'.inode.data.length := by
  rw [hret, hlen]
  refine h.reached.imp_right (Or.imp_right ?_)
  rintro ⟨u, c, hu, he⟩
  refine ⟨u, c, ?_, he⟩
  rw [hth u]
  split
  · rename_i hut
    exact hc c (by rw [← hpc, ← hut, hu])
  · exact hu

/-- A thread moves on outside `allocate_file`, and nothing else changes that the invariant is about. -/
theorem walk {pc' : WritePc} (hpc : s.threads t = pc) (hth : ∀ u, s'.threads u = if u = t then pc' else s.threads u)
    (hop : s'.openers = s.openers) (hw : s'.world = s.world) (hext : s'.inode.extending = s.inode.extending)
    (hret : s'.returned = s.returned) (hg : pc.isGrowing = false) (hg' : pc'.isGrowing = false) (hpc' : PcOk s.world pc')
    (hc : ∀ c, pc.copying = some c → pc'.copying = some c) : GrowthInv len0 s' := by
  have hdata : s'.inode.data = s.inode.data := congrArg data hw
  have hdev : s'.dev = s.dev := congrArg BlockWorld.dev hw
  refine h.change t pc' hth hop (by rw [hdev]) (by rw [hw]; exact h.mapOk) (by rw [hdata])
    (by rw [hdata]; exact h.bounded) ?_ ?_ ?_ (fun hx => ?_) ?_ (h.reached_move hpc hth hret (by rw [hdata]) hc)
  · exact fun u _ => hw ▸ h.known u
  · exact hw ▸ hpc'
  · rw [hext, h.marked_iff hpc hg, hg']
    simp
  · rw [hg'] at hx
    cases hx
  · rw [hret, hdata]
    exact h.full

end

/-- The world of the system, for a writer that begins to grow the file. -/
theorem growStart (h : GrowthInv len0 s) : GrowStart s.world s.world.blocks (dataSectors s.world) :=
  { h with
    blocks := (bytesToSectors_eq h.nonneg (Int.le_trans h.bounded (by decide))).symm
    bounded := Int.le_trans h.bounded (by decide)
    otherUsed := by
      rintro x ⟨b, hb, rfl⟩
      exact h.mapOk.marked (.block b) hb
    otherApart := by
      rintro p hp hi ⟨b, hb, he⟩
      rw [← h.mapOk.inj (.block b) p hb hp he] at hi
      cases hi }

variable {n : Int} {o : BlockOp} {choice : Option Nat}

attribute [local simp] setPc

theorem beginGrowth (h : GrowthInv len0 s) (hpc : s.threads t = .settle c)
    (hext : s.inode.extending = false) (hg : s.inode.needsGrowth c.size c.offset = true) :
    GrowthInv len0 ((s.setInode s.inode.beginGrowth).setPc t (.growing c (allocateBlocks (toInt32 (c.size + c.offset))))) := by
  have hc : CallOk c := h.known_at hpc
  have hlt : s.inode.data.length < c.stop := by
    have := of_decide_eq_true hg
    rwa [hc.stop_eq] at this
  have hidle : ∀ u, (s.threads u).isGrowing = false := fun u => by
    cases hu : (s.threads u).isGrowing with
    | false => rfl
    | true =>
      rw [h.marked.mpr ⟨u, hu⟩] at hext
      cases hext
  have hs := h.growStart
  have hblocks : s.world.blocks ≤ bytesToSectors c.stop := by
    rw [bytesToSectors_eq (Int.le_trans h.nonneg (Int.le_of_lt hlt)) (Int.le_trans hc.stop_le (by decide))]
    exact blocks_mono (Int.le_of_lt hlt)
  have hlim : bytesToSectors c.stop ≤ mapLimit := by
    have hstop := hc.stop_le
    rw [bytesToSectors_eq (Int.le_trans h.nonneg (Int.le_of_lt hlt)) (Int.le_trans hstop (by decide))]
    unfold mapBytes at hstop
    unfold mapLimit numDirect numBlocksInIndirect
    omega
  rw [hc.stop_eq]
  refine h.change t (.growing c (allocateBlocks c.stop)) (fun _ => rfl) rfl rfl h.mapOk (Int.le_refl _) h.bounded
    (fun u _ => h.known u) ?_ ?_ (fun _ u _ => hidle u) h.full (h.reached_move hpc (fun _ => rfl) rfl rfl nofun)
  · exact ⟨hc, hlt, s.world, hs, .refl _ _, rfl, Grow.safe_allocateBlocks hs hblocks hlim⟩
  · simp [setInode, Inode.beginGrowth]

/-- What a request of a safe program comes to: it is allowed, and what it does is within the guarantee. -/
theorem of_request {R G : BlockWorld → BlockWorld → Prop} {α : Type} {Q : α → BlockWorld → Prop}
    {k : o.Res → BlockM α} {next : o.Res → WritePc} (hR : ∀ w, R w w)
    (hsafe : (Prog.call (S := blockSig) o k : BlockM α).Safe (blockSem (fun _ => False)) R G Q s.world)
    (hask : o = .allocate → choice ≠ none) (hs : s.request t choice o next = some s') :
    ∃ r w, s' = (s.setWorld w).setPc t (next r) ∧ G s.world w ∧ (k r).Safe (blockSem (fun _ => False)) R G Q w := by
  obtain ⟨hallowed, hstep⟩ := Prog.safe_call.mp hsafe s.world (hR _)
  unfold request at hs
  split at hs
  · rename_i hmay
    split at hs
    · rename_i r w he
      cases hs
      obtain ⟨hg, hk⟩ := hstep r w ⟨choice, fun ho => ⟨hmay, fun hn => hask ho hn⟩, he⟩
      exact ⟨r, w, rfl, hg, hk⟩
    · rename_i e he
      exact absurd he (hallowed choice e)
  · cases hs

theorem growRequest (h : GrowthInv len0 s) {k : o.Res → BlockM Bool}
    (hpc : s.threads t = .growing c (.call (S := blockSig) o k)) (hask : o = .allocate → choice ≠ none)
    (hs : s.request t choice o (fun r => .growing c (k r)) = some s') : GrowthInv len0 s' := by
  obtain ⟨hc, hlt, w0, hstart, hst0, hlen0, hsafe⟩ := h.known_at hpc
  obtain ⟨r, w, rfl, hg, hk⟩ := of_request (Others.refl _) hsafe hask hs
  obtain ⟨hlen, hsize, hst, hused, -⟩ := hg
  have hblocks : s.world.blocks = w0.blocks := by unfold blocks; rw [hlen0]
  have hblocks' : w.blocks = s.world.blocks := by unfold blocks; rw [hlen]
  have hgrow := h.others_idle hpc rfl
  have hb : w.data.length ≤ mapBytes := by rw [hlen]; exact h.bounded
  refine h.change t (.growing c (k r)) (fun _ => rfl) rfl hsize ?_ (Int.le_of_eq hlen.symm) hb ?_ ?_ ?_
    (fun _ => hgrow) ?_ (h.reached_move hpc (fun _ => rfl) rfl hlen nofun)
  · show w.MapOk w.blocks
    rw [hblocks']
    exact h.mapOk.of_stable (hblocks ▸ hst) hsize fun p hp => hused _ (h.mapOk.marked p hp)
  · exact fun u hu => (h.known u).grown ⟨Int.le_of_eq hlen.symm, hsize, hblocks ▸ hst⟩ (hgrow u hu)
  · exact ⟨hc, by rw [← hlen] at hlt; exact hlt, w0, hstart, hst0.trans hst, hlen.trans hlen0, hk⟩
  · have hext : s.inode.extending = true := h.marked.mpr ⟨t, by rw [hpc]; rfl⟩
    simp [setWorld, hext]
  · intro d q hd
    exact ⟨(h.full d q hd).1, Int.le_trans (h.full d q hd).2 (Int.le_of_eq hlen.symm)⟩

/-- Setting the length moves no block. -/
theorem sector_setLength (w : BlockWorld) (n : Int) : sector { w with data := w.data.setLength n } = w.sector := by
  unfold sector leafBlock singlyBlock leafPtr
  funext p
  cases p <;> simp [mapSector]

section

variable (h : GrowthInv len0 s)
include h

/-- `allocate_file` has come to its end: the new length is published. -/
theorem endGrowth (hpc : s.threads t = .growing c (.ret true)) :
    GrowthInv len0 ((s.setInode (s.inode.endGrowth (toInt32 (c.size + c.offset)))).setPc t (.copy c 0)) := by
  obtain ⟨hc, hlt, w0, hstart, hst0, hlen0, hsafe⟩ := h.known_at hpc
  have hgrow : Grow w0 w0.blocks (dataSectors w0) (MapSlot.InUse (bytesToSectors c.stop)) s.world.sector s.world :=
    Prog.safe_ret.mp hsafe s.world (Others.refl _ _)
  have hstop0 : 0 ≤ c.stop := Int.le_trans h.nonneg (Int.le_of_lt hlt)
  have hlen : (s.inode.data.setLength c.stop).length = c.stop :=
    InodeDisk.length_setLength _ (Int.le_trans (by decide) hstop0) (Int.lt_of_le_of_lt hc.stop_le (by decide))
  obtain ⟨w, hw⟩ : ∃ w : BlockWorld, w = { s.world with data := s.inode.data.setLength c.stop } := ⟨_, rfl⟩
  have hwlen : w.data.length = c.stop := by rw [hw]; exact hlen
  have hsector : w.sector = s.world.sector := hw ▸ sector_setLength s.world c.stop
  have hwused : w.used = s.world.used := by rw [hw]
  have hwsize : w.dev.size = s.world.dev.size := by rw [hw]
  have hblocks : w.blocks = bytesToSectors c.stop := by
    rw [bytesToSectors_eq hstop0 (Int.le_trans hc.stop_le (by decide))]
    unfold blocks
    rw [hwlen]
  have hle : s.inode.data.length ≤ w.data.length := hwlen ▸ Int.le_of_lt hlt
  have hgrown := h.others_idle hpc rfl
  rw [hc.stop_eq]
  have hworld : ((s.setInode (s.inode.endGrowth c.stop)).setPc t (.copy c 0)).world = w := by rw [hw]; rfl
  have hdata : ((s.setInode (s.inode.endGrowth c.stop)).setPc t (.copy c 0)).inode.data = w.data := congrArg data hworld
  refine h.change t (.copy c 0) (fun _ => rfl) rfl rfl ?_ ?_ ?_ ?_ ?_ ?_ nofun ?_ ?_
  · rw [hworld, hblocks]
    refine ⟨fun p hp => ?_, fun p hp => ?_, fun p q hp hq he => ?_⟩
    · rw [hsector, hwsize]
      exact hgrow.inside p hp
    · rw [hsector, hwused]
      exact (hgrow.used _).mpr (.inr ⟨p, hp, rfl⟩)
    · rw [hsector] at he
      exact hgrow.inj p q hp hq he
  · rw [hdata]
    exact hle
  · rw [hdata, hwlen]
    exact hc.stop_le
  · intro u hu
    rw [hworld]
    exact (h.known u).grown ⟨hle, hwsize, fun p _ => by rw [hsector]⟩ (hgrown u hu)
  · rw [hworld]
    exact ⟨hc, Int.le_of_eq hwlen.symm, Int.le_refl _, Int.le_of_lt hc.size_pos⟩
  · constructor
    · intro hx
      cases hx
    · rintro (hx | ⟨u, hu, hx⟩)
      · cases hx
      · rw [hgrown u hu] at hx
        cases hx
  · intro d r hd
    rw [hdata]
    exact ⟨(h.full d r hd).1, Int.le_trans (h.full d r hd).2 hle⟩
  · rw [hdata]
    exact .inr (.inr ⟨t, c, by simp [WritePc.copying], hwlen.symm⟩)

theorem putData {chunk : Int} (hpc : s.threads t = .put c n x chunk) (block : Contents) :
    x < s.dev.size ∧ GrowthInv len0 ((s.setWorld (s.world.put x block)).setPc t (.copy c (n + chunk))) := by
  obtain ⟨hc, hstop, h0, hpos, hle, rfl⟩ := h.known_at hpc
  have hb : (c.offset + n).toNat / 512 < s.world.blocks := hc.block_lt hstop h0 (by omega)
  refine ⟨h.mapOk.inside (.block _) hb, ?_⟩
  have hst := stable_put_data h.mapOk hb block
  refine h.change t (.copy c (n + chunk)) (fun _ => rfl) rfl rfl ?_ (Int.le_refl _) h.bounded ?_ ?_ ?_ nofun h.full
    (h.reached_move hpc (fun _ => rfl) rfl rfl fun _ hd => hd)
  · exact h.mapOk.of_stable hst rfl h.mapOk.marked
  · exact fun u _ => (h.known u).put_data h.mapOk hb block
  · exact ⟨hc, hstop, by omega, hle⟩
  · simpa [setWorld] using h.marked_iff hpc rfl

/-- A writer begins to look for the sector of its next byte. -/
theorem locate (hpc : s.threads t = .copy c n) (hn : 0 < c.size - n) :
    GrowthInv len0 (s.setPc t (.locating c n (byteToSector (c.offset + n)))) := by
  obtain ⟨hc, hstop, h0, _⟩ := h.known_at hpc
  have hb : (c.offset + n).toNat / 512 < s.world.blocks := hc.block_lt hstop h0 (by omega)
  have hpos0 : 0 ≤ c.offset + n := Int.add_nonneg hc.offset_nonneg h0
  have hlt : c.offset + n < s.inode.data.length := Within.pos_lt hstop (by omega)
  refine h.walk hpc (fun _ => rfl) rfl rfl rfl rfl rfl rfl ⟨hc, hstop, h0, by omega, ?_⟩ (fun _ hd => hd)
  have hlim : (c.offset + n).toNat / 512 < mapLimit := by
    have := hc.stop_le
    unfold mapBytes at this
    unfold mapLimit numDirect numBlocksInIndirect stop at *
    omega
  rw [← bind_pure (byteToSector (c.offset + n))]
  refine BlockM.safe_byteToSector (G := fun w w' => w' = w)
    (fun _ => rfl) Grown.trans hpos0 hb hlim (fun w' hg => ?_) h.mapOk.inside
    (fun w' hg => BlockM.safe_pure fun w'' hg' => ?_)
  · exact ⟨hg.2.2, hg.2.1, Int.lt_of_lt_of_le hlt hg.1⟩
  · exact ((Grown.trans _ _ _ hg hg').2.2 (.block _) hb).symm

theorem locateRequest {k : o.Res → BlockM Nat}
    (hpc : s.threads t = .locating c n (.call (S := blockSig) o k)) (hask : o = .allocate → choice ≠ none)
    (hs : s.request t choice o (fun r => .locating c n (k r)) = some s') : GrowthInv len0 s' := by
  obtain ⟨hc, hstop, h0, hn, hsafe⟩ := h.known_at hpc
  obtain ⟨r, w, rfl, rfl, hk⟩ := of_request Grown.refl hsafe hask hs
  exact h.walk hpc (fun _ => rfl) rfl rfl rfl rfl rfl rfl ⟨hc, hstop, h0, hn, hk⟩ (fun _ hd => hd)

theorem located (hpc : s.threads t = .locating c n (.ret x)) :
    0 < chunkSize s.inode.data.length (c.size - n) (c.offset + n) ∧
      GrowthInv len0 (s.setPc t (.put c n x (chunkSize s.inode.data.length (c.size - n) (c.offset + n)))) := by
  obtain ⟨hc, hstop, h0, hn, hsafe⟩ := h.known_at hpc
  have hx := Prog.safe_ret.mp hsafe s.world (Grown.refl _)
  obtain ⟨hpos, hle, -, -⟩ := chunkSize_bounds s.inode.data.length (c.size - n) (c.offset + n) (by omega)
    (Int.add_nonneg hc.offset_nonneg h0) (Within.pos_lt hstop hn) (Int.le_trans h.bounded (by decide))
  refine ⟨hpos, h.walk hpc (fun _ => rfl) rfl rfl rfl rfl rfl rfl ⟨hc, hstop, h0, hpos, by omega, hx⟩ (fun _ hd => hd)⟩

theorem leave (hpc : s.threads t = .leave c n) : GrowthInv len0 ((s.setInode s.inode.leaveWrite).ret t c n) := by
  obtain ⟨_, hstop, hn⟩ := h.known_at hpc
  refine h.change t .idle (fun _ => rfl) rfl rfl h.mapOk (Int.le_refl _) h.bounded (fun u _ => h.known u) trivial ?_ nofun ?_ ?_
  · simpa [setInode, Inode.leaveWrite, ret] using h.marked_iff hpc rfl
  · intro d r hd
    rcases List.mem_cons.mp hd with he | hd
    · cases he
      exact ⟨hn, hstop⟩
    · exact h.full d r hd
  · rcases h.reached with hr | ⟨d, r, hd, he⟩ | ⟨u, d, hu, he⟩
    · exact .inl hr
    · exact .inr (.inl ⟨d, r, List.mem_cons_of_mem _ hd, he⟩)
    by_cases hut : u = t
    · rw [hut, hpc] at hu
      cases hu
      exact .inr (.inl ⟨c, n, List.mem_cons_self, he⟩)
    · exact .inr (.inr ⟨u, d, by simpa [ret, setInode, hut] using hu, he⟩)

theorem setOpener (o : Nat) {x : Opener} (hx : x.outstanding = false) (cnt : Int) :
    GrowthInv len0 ((s.setInode { s.inode with openCnt := cnt }).setOpener o x) :=
  { h with
    quiet q := by
      simp only [WriteState.setOpener]
      split
      · exact hx
      · exact h.quiet q }

end

end GrowthInv

/-- The steps of runs in which every call ends at or before a limit, no writes are denied, and the free map always has a
sector. -/
def WriteState.GrowCondition (limit : Int) (s : WriteState) : WriteAction → Prop
  | .write _ c => c.Within limit
  | .deny _ _ | .allow _ _ => False
  | .go t choice => (s.threads t).asksFreeMap = true → choice ≠ none
  | .reopen _ | .close _ => True

namespace GrowthInv

variable {len0 : Int} {s s' : WriteState}

section

variable (h : GrowthInv len0 s)
include h

theorem advance (hcnt : s.inode.denyWriteCnt ≤ 0) {t : Nat} {choice : Option Nat}
    (hask : (s.threads t).asksFreeMap = true → choice ≠ none) (hs : s.advance t choice (s.threads t) = some s') :
    GrowthInv len0 s' := by
  cases hpc : s.threads t with
  | idle => simp [hpc, WriteState.advance] at hs
  | enter c =>
    have hknown := h.known_at hpc
    simp only [hpc, WriteState.advance, Inode.enterWrite, if_neg (show ¬0 < s.inode.denyWriteCnt by omega)] at hs
    cases hs
    exact h.walk hpc (fun _ => rfl) rfl rfl rfl rfl rfl rfl hknown nofun
  | settle c =>
    have hknown := h.known_at hpc
    simp only [hpc, WriteState.advance] at hs
    split at hs
    · cases hs
    rename_i hext
    split at hs
    · rename_i hg
      cases hs
      exact h.beginGrowth hpc (by simpa using hext) hg
    rename_i hg
    cases hs
    have hstop : c.stop ≤ s.inode.data.length := by
      have := mt decide_eq_true hg
      rw [hknown.stop_eq] at this
      exact Int.not_lt.mp this
    exact h.walk hpc (fun _ => rfl) rfl rfl rfl rfl rfl rfl ⟨hknown, hstop, Int.le_refl _, Int.le_of_lt hknown.size_pos⟩ nofun
  | growing c p =>
    cases p with
    | ret ok =>
      cases ok with
      | true =>
        simp only [hpc, WriteState.advance] at hs
        cases hs
        exact h.endGrowth hpc
      | false =>
        obtain ⟨_, _, w0, _, _, _, hsafe⟩ := h.known_at hpc
        exact absurd (Prog.safe_ret.mp hsafe s.world (Others.refl _ _)) (·.1)
    | call o k =>
      simp only [hpc, WriteState.advance] at hs
      refine h.growRequest hpc (fun ho => hask ?_) hs
      subst ho
      rw [hpc]
      rfl
  | copy c n =>
    simp only [hpc, WriteState.advance] at hs
    split at hs
    · cases hs
      exact h.locate hpc ‹_›
    · cases hs
      obtain ⟨hc, hstop, h0, hle⟩ := h.known_at hpc
      exact h.walk hpc (fun _ => rfl) rfl rfl rfl rfl rfl rfl ⟨hc, hstop, by omega⟩ (fun _ hd => hd)
  | locating c n p =>
    cases p with
    | ret x =>
      obtain ⟨hpos, hput⟩ := h.located hpc
      simp only [hpc, WriteState.advance, if_neg (Int.not_le.mpr hpos)] at hs
      cases hs
      exact hput
    | call o k =>
      simp only [hpc, WriteState.advance] at hs
      refine h.locateRequest hpc (fun ho => hask ?_) hs
      subst ho
      rw [hpc]
      rfl
  | put c n x chunk =>
    have hx : s.dev.checkSector x = true := decide_eq_true (h.putData hpc (Contents.fill 0)).1
    simp only [hpc, WriteState.advance, if_pos hx] at hs
    cases hs
    exact (h.putData hpc _).2
  | leave c n =>
    simp only [hpc, WriteState.advance] at hs
    cases hs
    exact h.leave hpc
  | _ => exact (h.known_at hpc).elim

/-- Without denials the counter is not positive. -/
theorem cnt_nonpos {W D O : Finset Nat} (hd : DenyInv W D O s) : s.inode.denyWriteCnt ≤ 0 := by
  have hD : D = ∅ := Finset.eq_empty_of_forall_notMem fun o ho => by
    rw [hd.deniers, h.quiet o] at ho
    cases ho
  rcases hd.balance with ⟨_, hb⟩ | ⟨_, hb⟩
  · rw [hb, hD]
    exact Int.le_refl _
  · omega

/-- Every step that meets the condition keeps the invariant. -/
theorem step {W D O : Finset Nat} (hd : DenyInv W D O s) {a : WriteAction} (hg : s.GrowCondition mapBytes a)
    (hs : s.step a = some s') : GrowthInv len0 s' := by
  cases a with
  | go t choice => exact h.advance (h.cnt_nonpos hd) hg hs
  | write t c =>
    simp only [WriteState.step] at hs
    split at hs
    · rename_i hpc
      cases hs
      exact h.walk hpc (fun _ => rfl) rfl rfl rfl rfl rfl rfl hg (by rintro _ ⟨⟩)
    · cases hs
  | deny t o | allow t o => exact hg.elim
  | reopen o =>
    simp only [WriteState.step] at hs
    split at hs
    · cases hs
      exact h.setOpener o rfl _
    · cases hs
  | close o =>
    simp only [WriteState.step] at hs
    split at hs
    · split at hs
      · cases hs
        exact h.setOpener o rfl _
      · cases hs
    · cases hs

/-- The present length as the length to start from. -/
theorem rebase : GrowthInv s.inode.data.length s :=
  { h with
    low := Int.le_refl _
    reached := .inl rfl }

end

end GrowthInv

end Pintos
