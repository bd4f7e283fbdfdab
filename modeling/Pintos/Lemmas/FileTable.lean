import Pintos.Filesys.FileTable
import Pintos.Lemmas.FilesysRuns

/-!
# The store as a table of byte arrays

`Represents` ties a table of files to the store that keeps it: the names are the entries in use of the root directory, a
handle refers to the file whose inode its `struct file` leads to, and the bytes of a file are those that its map finds. Each
call of the file system takes a store that represents a table to one that represents a table the call may lead to.
-/

namespace Pintos

open Program FileTable Ghost Runs List

variable {slots : List DirEntry} {a k sector : Nat} {e old : DirEntry} {name : CString} {d : InodeDisk} {i : Inode}

/-! ## Entries in use -/

attribute [local simp] inUseEntries BlockWorld.fileBytes

theorem inUseEntries_append (a b : List DirEntry) : inUseEntries (a ++ b) = inUseEntries a ++ inUseEntries b := by
  simp

theorem inUseEntries_cons (e : DirEntry) (slots : List DirEntry) :
    inUseEntries (e :: slots) = inUseEntries [e] ++ inUseEntries slots :=
  inUseEntries_append [e] slots

theorem inUseEntries_set (hk : slots[k]? = some e) (x : DirEntry) :
    (inUseEntries [e] ++ inUseEntries (slots.set k x)).Perm (inUseEntries [x] ++ inUseEntries slots) := by
  induction slots generalizing k with
  | nil => simp at hk
  | cons y slots ih =>
    cases k with
    | zero =>
      obtain rfl : y = e := Option.some.inj hk
      rw [set_cons_zero, inUseEntries_cons x slots, inUseEntries_cons y slots]
      exact perm_append_comm_assoc _ _ _
    | succ k =>
      rw [set_cons_succ, inUseEntries_cons y (slots.set k x), inUseEntries_cons y slots]
      refine (perm_append_comm_assoc _ _ _).trans (((ih hk).append_left _).trans (perm_append_comm_assoc _ _ _))

theorem inUseEntries_unname (hk : slots[k]? = some e) (hn : e.isNamed name = true) :
    (inUseEntries (slots.set k { e with inUse := false })).Perm ((inUseEntries slots).erase (name, e.inodeSector)) := by
  obtain ⟨hu, hcstr⟩ := Bool.and_eq_true_iff.mp hn
  have hone : inUseEntries [e] = [(name, e.inodeSector)] := by simp [hu, beq_iff_eq.mp hcstr]
  have hfree : inUseEntries [{ e with inUse := false }] = [] := by simp
  have hp := inUseEntries_set hk { e with inUse := false }
  rw [hone, hfree] at hp
  have hp' := hp.erase (name, e.inodeSector)
  rwa [singleton_append, erase_cons_head] at hp'

theorem findIdx_free_le (slots : List DirEntry) : slots.findIdx (fun e => !e.inUse) ≤ (inUseEntries slots).length := by
  induction slots with
  | nil => exact Nat.le_refl 0
  | cons e slots ih =>
    rw [findIdx_cons, inUseEntries_cons]
    cases he : e.inUse with
    | true =>
      simp only [Bool.not_true, cond_false, length_append]
      have hone : (inUseEntries [e]).length = 1 := by simp [he]
      omega
    | false => exact Nat.zero_le _

/-- A name that is added to a directory joins the entries in use. -/
theorem DirCall.exec_add_perm {slots' : List DirEntry} (h : (true, slots') = (DirCall.add name sector old).exec slots true) :
    (inUseEntries slots').Perm ((name, sector) :: inUseEntries slots) := by
  obtain ⟨hv, hn⟩ := exec_add_fresh (by rw [← h])
  rw [exec_add true hv hn, endWithWrite_true] at h
  obtain rfl := (Prod.mk.inj h).2
  have hlen : name.strlen ≤ nameMax := (of_decide_eq_true hv).2
  generalize ((slots.take (slots.findIdx (fun e => !e.inUse) + 1)).getLast?).getD old = e
  have hnew : inUseEntries [e.fill name sector] = [(name, sector)] := by
    simp [DirEntry.fill, cstr_strlcpy _ name (nameMax + 1) (by omega)]
  split
  · rename_i hk
    have hp := inUseEntries_set (getElem?_eq_getElem hk) (e.fill name sector)
    have hfree : inUseEntries [slots[slots.findIdx (fun e => !e.inUse)]] = [] := by
      have hu := findIdx_getElem (w := hk)
      simpa using hu
    rwa [hfree, hnew] at hp
  · rw [inUseEntries_append, hnew]
    exact perm_append_comm

/-- With sectors to be had, only a name that is not valid or is in use is not added. -/
theorem DirCall.exec_add_false {slots' : List DirEntry} (h : (false, slots') = (DirCall.add name sector old).exec slots true) :
    slots' = slots ∧ (name.strlen = 0 ∨ nameMax < name.strlen ∨ slots.any (·.isNamed name) = true) := by
  by_cases hv : (DirCall.add name sector old).validName = true
  · by_cases hn : slots.any (·.isNamed name) = true
    · rw [exec_add_named true hn] at h
      exact ⟨(Prod.mk.inj h).2, .inr (.inr hn)⟩
    · rw [exec_add true hv (Bool.eq_false_of_not_eq_true hn), endWithWrite_true] at h
      cases (Prod.mk.inj h).1
  · rw [exec_add_invalid true hv] at h
    refine ⟨(Prod.mk.inj h).2, ?_⟩
    simp only [validName, decide_eq_true_eq] at hv
    omega

/-! ## Tables -/

namespace FileTable

@[simp] theorem setHandle_self (t : FileTable) (f : Nat) (s : Option Nat) : (t.setHandle f s).handles f = s := if_pos rfl

theorem setHandle_ne (t : FileTable) {f x : Nat} (s : Option Nat) (h : x ≠ f) :
    (t.setHandle f s).handles x = t.handles x := if_neg h

@[simp] theorem setContents_self (t : FileTable) (s : Nat) (bs : List UInt8) : (t.setContents s bs).contents s = bs := if_pos rfl

theorem setContents_ne (t : FileTable) {s x : Nat} (bs : List UInt8) (h : x ≠ s) :
    (t.setContents s bs).contents x = t.contents x := if_neg h

variable {t : FileTable} {s f : Nat}

/-- A new handle to a file that has a name makes no difference to which files there are. -/
theorem live_setHandle_some (hname : (name, s) ∈ t.names) (hf : t.handles f = none) (y : Nat) :
    (t.setHandle f (some s)).Live y ↔ t.Live y := by
  constructor
  · rintro (hn | ⟨x, hx⟩)
    · exact .inl hn
    by_cases hxf : x = f
    · rw [hxf, setHandle_self] at hx
      exact .inl ⟨name, Option.some.inj hx ▸ hname⟩
    · rw [setHandle_ne _ _ hxf] at hx
      exact .inr ⟨x, hx⟩
  · rintro (hn | ⟨x, hx⟩)
    · exact .inl hn
    have hne : x ≠ f := by
      rintro rfl
      rw [hf] at hx
      cases hx
    exact .inr ⟨x, (setHandle_ne _ _ hne).trans hx⟩

/-- When a handle is closed, only the file it referred to may go. -/
theorem live_setHandle_none (hf : t.handles f = some s) {y : Nat} (hy : y ≠ s) : (t.setHandle f none).Live y ↔ t.Live y := by
  refine or_congr_right (exists_congr fun x => ?_)
  by_cases hx : x = f
  · rw [hx, setHandle_self, hf]
    simp [hy.symm]
  · rw [setHandle_ne _ _ hx]

theorem live_addName (y : Nat) : (t.addName name s).Live y ↔ y = s ∨ t.Live y := by
  simp [Live, addName, setContents, exists_or, or_assoc]

theorem mem_removeName (hnumbers : (t.names.map (·.2)).Nodup) (hname : (name, s) ∈ t.names) (n : CString) (y : Nat) :
    (n, y) ∈ (t.removeName name s).names ↔ (n, y) ∈ t.names ∧ y ≠ s := by
  rw [removeName, (hnumbers.of_map _).mem_erase_iff]
  constructor
  · rintro ⟨hne, hmem⟩
    refine ⟨hmem, ?_⟩
    rintro rfl
    exact hne (inj_on_of_nodup_map hnumbers hmem hname rfl)
  · rintro ⟨hmem, hy⟩
    exact ⟨fun he => hy (Prod.mk.inj he).2, hmem⟩

end FileTable

/-! ## Representation -/

/-- All bytes of a file. -/
def World.fileContents (w : World) (d : InodeDisk) : List UInt8 := (w.blocksOf d).fileBytes 0 d.length.toNat

/-- The store keeps the files of the table. `d` are the data of the root directory's inode. -/
structure Represents (t : FileTable) (g : Ghost) (w : World) (d : InodeDisk) : Prop where
  store : Store g w
  idle : g.spare = none ∧ g.held = []
  root : g.objs rootDirSector = some { data := d, removed := false }
  whole : d.length.toNat % dirEntrySize = 0
  entries : (inUseEntries (w.slots d)).Perm t.names
  numbers : (t.names.map (·.2)).Nodup
  handles : ∀ f s, t.handles f = some s ↔ g.RefersTo w f s
  files : ∀ s, t.Live s ↔ s ≠ rootDirSector ∧ ∃ o, g.objs s = some o
  removed : ∀ s o, s ≠ rootDirSector → g.objs s = some o → (o.removed = true ↔ ∀ name, (name, s) ∉ t.names)
  contents : ∀ s o, s ≠ rootDirSector → g.objs s = some o → t.contents s = w.fileContents o.data

/-- A file that is there before and after has the sectors that it had. -/
def OwnsKept (g g' : Ghost) (w v : World) : Prop :=
  ∀ s o o', s ≠ rootDirSector → g.objs s = some o → g'.objs s = some o' → ∀ x, w.owns s o.data x → v.owns s o'.data x

/-- What a call returned and left is what the table allows. -/
def Simulates (t : FileTable) (g : Ghost) (w : World) (c : FileCall) (r : FileRet) (v : World) : Prop :=
  ∃ t' g' d', t.Step c r t' ∧ Represents t' g' v d' ∧ OwnsKept g g' w v

theorem Untouched.fileContents {w v : World} {s : Nat} (h : Untouched w v s d) : v.fileContents d = w.fileContents d := by
  refine map_congr_left (fun k hk => h.bytes _ ?_)
  have := mem_range.mp hk
  omega

namespace Represents

variable {t t' : FileTable} {g g' : Ghost} {w v : World}

section

variable (h : Represents t g w d)
include h

/-- The entries in use are names of files that are there. -/
theorem entry (he : e ∈ w.slots d) (hu : e.inUse = true) :
    e.inodeSector ≠ rootDirSector ∧ ∃ o, g.objs e.inodeSector = some o := by
  refine (h.files _).mp (.inl ⟨cstr e.name, h.entries.mem_iff.mp (mem_inUseEntries.mpr ⟨e, he, ?_, rfl⟩)⟩)
  simp [DirEntry.isNamed, hu]

/-- An entry with a name. -/
theorem named (he : e ∈ w.slots d) (hn : e.isNamed name = true) : (name, e.inodeSector) ∈ t.names :=
  h.entries.mem_iff.mp (mem_inUseEntries.mpr ⟨e, he, hn, rfl⟩)

/-- A name that no entry has. -/
theorem unnamed_iff : (w.slots d).any (·.isNamed name) = false ↔ ∀ x, (name, x) ∉ t.names := by
  rw [any_eq_false]
  constructor
  · intro hn x hx
    obtain ⟨e, he, hne, -⟩ := mem_inUseEntries.mp (h.entries.mem_iff.mpr hx)
    exact hn e he hne
  · intro hn e he hne
    exact hn _ (h.named he hne)

/-- Handles come and go, and files that nothing refers to go; names and bytes are the same. -/
theorem frame (hst : Store g' v) (hidle : g'.spare = none ∧ g'.held = [])
    (hroot : g'.objs rootDirSector = g.objs rootDirSector) (hsub : ∀ s o, g'.objs s = some o → g.objs s = some o)
    (hk : Kept g' w v) (hnames : t'.names = t.names) (hcontents : t'.contents = t.contents)
    (hhandles : ∀ f s, t'.handles f = some s ↔ g'.RefersTo v f s)
    (hfiles : ∀ s, t'.Live s ↔ s ≠ rootDirSector ∧ ∃ o, g'.objs s = some o) : Represents t' g' v d ∧ OwnsKept g g' w v := by
  have hroot' := hroot.trans h.root
  constructor
  · exact
      { h with
        store := hst
        idle := hidle
        root := hroot'
        entries := by rw [(hk.files _ _ hroot').slots, hnames]; exact h.entries
        numbers := by rw [hnames]; exact h.numbers
        handles := hhandles
        files := hfiles
        removed := fun s o hne ho => by rw [hnames]; exact h.removed s o hne (hsub s o ho)
        contents := fun s o hne ho => by rw [hcontents, h.contents s o hne (hsub s o ho), (hk.files s o ho).fileContents] }
  · intro s o o' _ ho ho' x hx
    cases ho.symm.trans (hsub s o' ho')
    exact ((hk.files s o ho').owns x).mpr hx

theorem keep (hst : Store g v) (hk : Kept g w v) : Represents t g v d ∧ OwnsKept g g w v :=
  h.frame hst h.idle rfl (fun _ _ ho => ho) hk rfl rfl
    (fun f s => (h.handles f s).trans (h.store.refersTo_iff hst hk.cells (fun _ => Iff.rfl) s).symm) h.files

/-! ## Opening and closing -/

theorem filesysOpen (name : CString) : Runs true (FileCall.filesysOpen name).run (Simulates t g w (.filesysOpen name)) w := by
  refine (h.store.filesysOpen h.root (fun e he hu => (h.entry he hu).2) name).bind ?_
  rintro _ v ⟨hk, ⟨rfl, hnone, hst⟩ | ⟨f, a, i, e, rfl, he, hn, hfresh, hi, hs, hst⟩⟩
  · exact pure_iff.mpr ⟨t, g, d, .notOpened (h.unnamed_iff.mp hnone), h.keep hst hk⟩
  have hname := h.named he hn
  have hfree : t.handles f = none := by
    rw [Option.eq_none_iff_forall_ne_some]
    intro s hs
    obtain ⟨b, -, hb, -⟩ := (h.handles f s).mp hs
    exact hfresh b hb
  refine pure_iff.mpr ⟨t.setHandle f (some e.inodeSector), _, d, .opened hname hfree, h.frame hst h.idle rfl (fun _ _ ho => ho)
    { hk with } rfl rfl (fun x y => ?_) (fun y => (live_setHandle_some hname hfree y).trans (h.files y))⟩
  by_cases hx : x = f
  · subst hx
    rw [setHandle_self, Option.some.injEq]
    constructor
    · rintro rfl
      exact ⟨a, i, mem_cons_self, hi, hs⟩
    rintro ⟨b, j, hb, hj, hjs⟩
    rcases mem_cons.mp hb with hb | hb
    · obtain rfl := (Prod.mk.inj hb).2
      cases hi.symm.trans hj
      exact hs.symm.trans hjs
    · exact absurd hb (hfresh b)
  · rw [setHandle_ne _ _ hx, h.handles x y, h.store.refersTo_iff hst hk.cells (fun b => ?_)]
    simp [hx]

/-- The file that a handle refers to. -/
theorem handle {f s : Nat} (hf : t.handles f = some s) : ∃ a i pos, (f, a) ∈ g.handles ∧
    w.mem.files f = some { inode := a, pos := pos, denyWrite := false } ∧ w.mem.inodes a = some i ∧ i.sector = s ∧
      s ≠ freeMapSector ∧ s ≠ rootDirSector ∧ g.objs s = some { data := i.data, removed := i.removed } ∧
      t.contents s = w.fileContents i.data := by
  obtain ⟨a, i, ha, hi, hs⟩ := (h.handles f s).mp hf
  obtain ⟨hroot, o, ho⟩ := (h.files s).mp (.inr ⟨f, hf⟩)
  obtain ⟨-, -, pos, hfile⟩ := h.store.mem.handle f a ha
  have hne := h.store.disk.sector_ne ho
  obtain ⟨hobj, -, -⟩ := h.store.mem.obj a i hi (hs ▸ hne)
  rw [hs] at hobj
  have hbytes := h.contents s _ hroot hobj
  exact ⟨a, i, pos, ha, hfile, hi, hs, hne, hroot, hobj, hbytes⟩

theorem fileClose {f : Nat} (hf : (t.handles f).isSome = true) :
    Runs true (FileCall.fileClose f).run (Simulates t g w (.fileClose f)) w := by
  obtain ⟨s, hf⟩ := Option.isSome_iff_exists.mp hf
  obtain ⟨a, i, pos, ha, hfile, hi, rfl, hne, hroot, hobj, -⟩ := h.handle hf
  refine (h.store.fileClose ha hi hne).bind ?_
  rintro _ v ⟨hst, hk⟩
  generalize hg' : release _ a _ _ g.held = g' at hst hk
  have hhandles : g'.handles = g.handles.erase (f, a) := by rw [← hg']; rfl
  have hobjs : ∀ y, g'.objs y = if y = i.sector ∧ i.removed = true ∧ a ∉ g'.addrs then none else g.objs y := by
    intro y
    rw [← hg']
    rfl
  have hheld : g'.held = [] := by rw [← hg']; exact h.idle.2
  -- what the handles refer to now
  have hrefers : ∀ x y, (t.setHandle f none).handles x = some y ↔ g'.RefersTo v x y := by
    intro x y
    by_cases hx : x = f
    · subst hx
      refine ⟨by simp, ?_⟩
      rintro ⟨b, -, hb, -⟩
      rw [hhandles] at hb
      exact absurd hb (h.store.mem.handle_gone ha b)
    · rw [setHandle_ne _ _ hx, h.handles x y, h.store.refersTo_iff hst hk.cells (fun b => ?_)]
      rw [hhandles, mem_erase_of_ne (fun he => hx (Prod.mk.inj he).1)]
  have hopen : a ∈ g'.addrs ↔ ∃ x, (t.setHandle f none).handles x = some i.sector := by
    simp only [addrs, hheld, nil_append, hrefers]
    constructor
    · intro hmem
      obtain ⟨j, hj, hjs⟩ := hst.mem.live a (by rw [addrs, hheld]; exact hmem)
      obtain ⟨k, hk', hjk⟩ := hk.cells.old a j hj (h.store.mem.cell a i hi).1
      cases hi.symm.trans hk'
      obtain ⟨⟨x, b⟩, hb, rfl⟩ := mem_map.mp hmem
      exact ⟨x, b, j, hb, hj, hjk⟩
    · rintro ⟨x, b, j, hb, hj, hjs⟩
      have hb' : (x, b) ∈ g.handles := by
        rw [hhandles] at hb
        exact mem_of_mem_erase hb
      obtain ⟨k, hk', -⟩ := h.store.mem.live b (mem_append_right _ (mem_map.mpr ⟨_, hb', rfl⟩))
      obtain ⟨k, hk', hjk⟩ := hk.cells.old b j hj (h.store.mem.cell b k hk').1
      obtain rfl := h.store.mem.unique b a k i hk' hi (hjk.symm.trans hjs)
      exact mem_map.mpr ⟨_, hb, rfl⟩
  refine pure_iff.mpr ⟨t.setHandle f none, g', d, .closed hf, h.frame hst ⟨?_, hheld⟩ ?_ (fun s o ho => ?_) hk rfl rfl hrefers
    (fun y => ?_)⟩
  · rw [← hg']
    exact h.idle.1
  · rw [hobjs, if_neg (fun hc => hroot hc.1.symm)]
  · rw [hobjs] at ho
    split at ho
    · cases ho
    · exact ho
  by_cases hy : y = i.sector
  · subst hy
    rw [hobjs, hobj, Live, ← hopen]
    have hrem := h.removed _ _ hroot hobj
    by_cases hgone : i.removed = true ∧ a ∉ g'.addrs
    · rw [if_pos ⟨rfl, hgone⟩]
      have hnone : ¬∃ name, (name, i.sector) ∈ t.names := not_exists.mpr (hrem.mp hgone.1)
      simp [setHandle, hnone, hgone.2]
    rw [if_neg (fun hc => hgone hc.2)]
    have hthere : (∃ name, (name, i.sector) ∈ t.names) ∨ a ∈ g'.addrs := by
      by_contra hc
      rw [not_or, not_exists] at hc
      exact hgone ⟨hrem.mpr hc.1, hc.2⟩
    exact ⟨fun _ => ⟨hroot, _, rfl⟩, fun _ => hthere⟩
  · rw [live_setHandle_none hf hy, h.files, hobjs, if_neg (fun hc => hy hc.1)]

end

end Represents

/-! ## Reading and writing -/

section

variable {w v : World}

@[simp] theorem World.fileContents_length (w : World) (d : InodeDisk) : (w.fileContents d).length = d.length.toNat := by
  simp [fileContents]

theorem World.fileContents_getElem? (w : World) (hk : k < d.length.toNat) :
    (w.fileContents d)[k]? = some ((w.blocksOf d).fileByte k) := by
  simp [fileContents, hk]

/-- The bytes of a range that lies within the file. -/
theorem World.fileBytes_eq (w : World) {ofs n : Nat} (h : ofs + n ≤ d.length.toNat) :
    (w.blocksOf d).fileBytes ofs n = ((w.fileContents d).drop ofs).take n := by
  refine ext_getElem? fun k => ?_
  by_cases hk : k < n
  · rw [getElem?_take_of_lt hk, getElem?_drop, w.fileContents_getElem? (by omega)]
    simp [hk]
  · rw [getElem?_eq_none (by simp; omega), getElem?_eq_none (by simp; omega)]

/-- What a write leaves is what was there with the bytes written over it. -/
theorem WriteDone.overwrites {E : Nat → Prop} {ofs : Nat} {bs : List UInt8} (h : WriteDone w v E a i d ofs bs)
    (h0 : 0 ≤ i.data.length) : Overwrites (w.fileContents i.data) (v.fileContents d) ofs bs := by
  have hlen : d.length.toNat = max i.data.length.toNat (ofs + bs.length) := by
    rw [h.length]
    omega
  refine ⟨by simpa using hlen, fun k hk => ?_, fun k hk hout => ?_⟩
  · rw [v.fileContents_getElem? (by omega), h.written.bytes _ (Nat.le_add_right _ _) (by omega), Nat.add_sub_cancel_left]
    simp [hk]
  · rw [World.fileContents_length] at hk
    rw [v.fileContents_getElem? (by omega), w.fileContents_getElem? hk, h.written.kept k (by omega) (by omega)]

end

theorem Store.inodeReadAt_none {g : Ghost} {w : World} (h : Store g w) (hi : w.mem.inodes a = some i) {size offset : Int}
    (hsize : size ≤ 0) : Runs true (inodeReadAt a size offset) (fun r v => r.1 ≤ 0 ∧ r.2 = [] ∧ v = w) w := by
  obtain ⟨-, -, hext, hdeny⟩ := h.mem.cell a i hi
  unfold inodeReadAt
  rw [inode_bind hi, if_neg (by simp [hext, hdeny])]
  split
  · exact pure_iff.mpr ⟨by decide, rfl, rfl⟩
  · rw [Int.toNat_of_nonpos hsize]
    exact pure_iff.mpr ⟨Int.le_refl _, rfl, rfl⟩

namespace Represents

variable {t : FileTable} {g : Ghost} {w : World} {f : Nat}

section

variable (h : Represents t g w d)
include h

theorem fileReadAt (hf : (t.handles f).isSome = true) {size ofs : Int} (hargs : size ≤ 0 ∨ 0 ≤ ofs ∧ ofs + size < 2147483648) :
    Runs true (FileCall.fileReadAt f size ofs).run (Simulates t g w (.fileReadAt f size ofs)) w := by
  obtain ⟨s, hf⟩ := Option.isSome_iff_exists.mp hf
  obtain ⟨a, i, pos, -, hfile, hi, rfl, hne, hroot, hobj, hbytes⟩ := h.handle hf
  have hlen0 : 0 ≤ i.data.length := (h.store.disk.file _ _ hobj).length.1
  have hlen : ((t.contents i.sector).length : Int) = i.data.length := by
    rw [hbytes, World.fileContents_length]
    omega
  have hsame : ∀ r, t.Step (.fileReadAt f size ofs) r t → Simulates t g w (.fileReadAt f size ofs) r w := fun r hr =>
    ⟨t, g, d, hr, h.keep h.store ⟨fun s o ho => .refl (h.store.disk.file s o ho), .of_eq (Nat.le_refl _) rfl⟩⟩
  simp only [FileCall.run, Pintos.fileReadAt]
  rw [bind_assoc, file_bind hfile]
  by_cases hsize : 0 ≤ size ∧ 0 ≤ ofs ∧ ofs + size < 2147483648
  · refine ((h.store.readable hi hne).inodeReadAt hsize.1 hsize.2.1 hsize.2.2).bind ?_
    rintro _ _ ⟨rfl, rfl⟩
    split
    · rw [World.fileBytes_eq _ (by omega), ← hbytes]
      exact pure_iff.mpr (hsame _ (.read hf ⟨hsize.2.1, hsize.1⟩ (by omega)))
    · exact pure_iff.mpr (hsame _ (.readNone hf (by omega) (by decide)))
  · have hmap : mapBytes = 194048 := rfl
    have hmax : i.data.length ≤ mapBytes := (h.store.disk.file _ _ hobj).length.2
    refine (h.store.inodeReadAt_none hi (by omega)).bind ?_
    rintro ⟨n, _⟩ _ ⟨hn, rfl, rfl⟩
    exact pure_iff.mpr (hsame _ (.readNone hf (by omega) hn))

theorem fileWriteAt (hf : (t.handles f).isSome = true) {buffer : List UInt8} {size ofs : Int} (hsize : 0 < size)
    (h0 : 0 ≤ ofs) (hle : ofs + size ≤ mapBytes) (hbuf : size ≤ buffer.length) :
    Runs true (FileCall.fileWriteAt f buffer size ofs).run (Simulates t g w (.fileWriteAt f buffer size ofs)) w := by
  obtain ⟨s, hf⟩ := Option.isSome_iff_exists.mp hf
  obtain ⟨a, i, pos, -, hfile, hi, rfl, hne, hroot, hobj, hbytes⟩ := h.handle hf
  simp only [FileCall.run, Pintos.fileWriteAt]
  rw [bind_assoc, file_bind hfile]
  refine (h.store.inodeWriteAt hi hne hsize h0 hle (by omega)).bind ?_
  rintro _ v ⟨rfl, d', hd, hst⟩
  have hover := hd.overwrites (h.store.disk.file _ _ hobj).length.1
  rw [← hbytes] at hover
  have hothers : ∀ s o, s ≠ i.sector → g.objs s = some o → Untouched w v s o.data := fun s o hs ho =>
    h.store.written_others hd.written hi hne hs ho
  have hinodes := congrArg Fs.inodes hd.mem
  have hcells : SameCells w v := .setInode (congrArg Fs.nextAddr hd.mem).ge hinodes hi rfl
  refine pure_iff.mpr ⟨t.setContents i.sector (v.fileContents d'), _, d, .wrote hf hover,
    { h with
      store := hst
      root := (put_ne _ _ hroot.symm).trans h.root
      entries := by rw [(hothers _ _ hroot.symm h.root).slots]; exact h.entries
      handles := fun x y => (h.handles x y).trans (h.store.refersTo_iff hst hcells (fun _ => Iff.rfl) y).symm
      files := fun s => (h.files s).trans (and_congr_right fun hs => ?_)
      removed := fun s o hs ho => ?_
      contents := fun s o hs ho => ?_ }, fun s o o' hs ho ho' x hx => ?_⟩
  · rcases eq_or_ne s i.sector with rfl | hsi
    · simp [hobj]
    · rw [put_ne _ _ hsi]
  · rcases eq_or_ne s i.sector with rfl | hsi
    · cases (put_self _ _ _).symm.trans ho
      have hrem := h.removed i.sector _ hs hobj
      exact hrem
    · exact h.removed s o hs ((put_ne _ _ hsi).symm.trans ho)
  · rcases eq_or_ne s i.sector with rfl | hsi
    · cases (put_self _ _ _).symm.trans ho
      exact setContents_self _ _ _
    · have ho := (put_ne _ _ hsi).symm.trans ho
      rw [setContents_ne _ _ hsi, h.contents s o hs ho, (hothers s o hsi ho).fileContents]
  · rcases eq_or_ne s i.sector with rfl | hsi
    · cases hobj.symm.trans ho
      cases (put_self _ _ _).symm.trans ho'
      exact Store.owns_of_written hd.written hx
    · obtain rfl := Option.some.inj (ho.symm.trans ((put_ne _ _ hsi).symm.trans ho'))
      exact ((hothers s o hsi ho).owns x).mpr hx

/-! ## Creating and removing -/

theorem filesysCreate (name : CString) (hroom : dirEntrySize * (t.names.length + 1) ≤ mapBytes) :
    Runs true (FileCall.filesysCreate name).run (Simulates t g w (.filesysCreate name)) w := by
  have hfits : dirEntrySize * ((w.slots d).findIdx (fun e => !e.inUse) + 1) ≤ mapBytes := by
    have hle := findIdx_free_le (w.slots d)
    rw [h.entries.length_eq] at hle
    unfold dirEntrySize at hroom ⊢
    omega
  refine (h.store.filesysCreate h.idle.1 h.root h.whole name (fun _ _ _ => hfits)).bind ?_
  rintro r v ⟨x, o, d', ha⟩
  have hxr : x ≠ rootDirSector := by
    rintro rfl
    have hf := ha.fresh
    rw [h.root] at hf
    cases hf
  have hst := ha.store
  cases r with
  | true =>
    rw [if_pos rfl] at hst
    obtain ⟨hv, hn⟩ := DirCall.exec_add_fresh (by rw [← ha.exec])
    have hnew : ¬t.Live x := by
      intro hl
      obtain ⟨-, o', ho'⟩ := (h.files x).mp hl
      rw [ha.fresh] at ho'
      cases ho'
    have hobjs : ∀ s, s ≠ rootDirSector → s ≠ x →
        ((g.put x o).put rootDirSector (.present d')).objs s = g.objs s := by
      intro s hs hsx
      rw [put_ne _ _ hs, put_ne _ _ hsx]
    have hself : ((g.put x o).put rootDirSector (.present d')).objs x = some o := by
      rw [put_ne _ _ hxr, put_self]
    refine pure_iff.mpr ⟨t.addName name x, _, d', .created (of_decide_eq_true hv) (h.unnamed_iff.mp hn) hnew,
      { h with
        store := hst
        root := put_self _ _ _
        whole := ha.whole
        entries := (DirCall.exec_add_perm ha.exec).trans (h.entries.cons _)
        numbers := nodup_cons.mpr ⟨fun hx => ?_, h.numbers⟩
        handles := fun f s => (h.handles f s).trans (h.store.refersTo_iff hst ha.cells (fun _ => Iff.rfl) s).symm
        files := fun s => ?_
        removed := fun s p hs hp => ?_
        contents := fun s p hs hp => ?_ }, fun s p p' hs hp hp' y hy => ?_⟩
    · obtain ⟨⟨n, y⟩, hy, rfl⟩ := mem_map.mp hx
      exact hnew (.inl ⟨n, hy⟩)
    · rw [live_addName, h.files]
      rcases eq_or_ne s x with rfl | hsx
      · simp [hself, hxr]
      · refine (or_iff_right hsx).trans (and_congr_right fun hs => by rw [hobjs s hs hsx])
    · rcases eq_or_ne s x with rfl | hsx
      · cases hself.symm.trans hp
        rw [ha.empty.2]
        exact ⟨by simp, fun hall => absurd mem_cons_self (hall name)⟩
      · rw [hobjs s hs hsx] at hp
        simp [h.removed s p hs hp, addName, hsx]
    · rcases eq_or_ne s x with rfl | hsx
      · cases hself.symm.trans hp
        rw [addName, setContents_self, eq_comm, ← length_eq_zero_iff, World.fileContents_length, ha.empty.1]
        rfl
      · rw [hobjs s hs hsx] at hp
        rw [addName, setContents_ne _ _ hsx, h.contents s p hs hp, (ha.files s p hs hp).fileContents]
    · have hsx : s ≠ x := by
        rintro rfl
        rw [ha.fresh] at hp
        cases hp
      rw [hobjs s hs hsx] at hp'
      cases hp.symm.trans hp'
      exact ((ha.files s p hs hp).owns y).mpr hy
  | false =>
    rw [if_neg (by decide)] at hst
    obtain ⟨hslots, hwhy⟩ := DirCall.exec_add_false ha.exec
    refine pure_iff.mpr ⟨t, _, d', .notCreated ?_,
      { h with
        store := hst
        root := put_self _ _ _
        whole := ha.whole
        entries := by rw [hslots]; exact h.entries
        handles := fun f s => (h.handles f s).trans (h.store.refersTo_iff hst ha.cells (fun _ => Iff.rfl) s).symm
        files := fun s => (h.files s).trans (and_congr_right fun hs => by rw [put_ne _ _ hs])
        removed := fun s o hs ho => h.removed s o hs ((put_ne _ _ hs).symm.trans ho)
        contents := fun s o hs ho => ?_ }, fun s o o' hs ho ho' y hy => ?_⟩
    · refine hwhy.imp_right (Or.imp_right fun hn => ?_)
      obtain ⟨e, he, hne⟩ := any_eq_true.mp hn
      exact ⟨_, h.named he hne⟩
    · have ho := (put_ne _ _ hs).symm.trans ho
      rw [h.contents s o hs ho, (ha.files s o hs ho).fileContents]
    · obtain rfl := Option.some.inj (ho.symm.trans ((put_ne _ _ hs).symm.trans ho'))
      exact ((ha.files s o hs ho).owns y).mpr hy

theorem filesysRemove (name : CString) :
    Runs true (FileCall.filesysRemove name).run (Simulates t g w (.filesysRemove name)) w := by
  refine (h.store.filesysRemove h.idle.2 h.root h.whole (fun e he hu => h.entry he hu) name).bind ?_
  rintro _ v (⟨rfl, hnone, hst, hk⟩ | ⟨k, e, g', d', rfl, hk, hn, hr⟩)
  · exact pure_iff.mpr ⟨t, g, d, .notRemoved (h.unnamed_iff.mp hnone), h.keep hst hk⟩
  have he : e ∈ w.slots d := mem_of_getElem? hk
  have hname := h.named he hn
  obtain ⟨hes, o0, ho0⟩ := h.entry he (Bool.and_eq_true_iff.mp hn).1
  obtain ⟨hspare, hheld, hhandles⟩ := hr.idle
  have hmem := mem_removeName h.numbers hname
  have hopen : g.IsOpen w e.inodeSector ↔ ∃ f, t.handles f = some e.inodeSector := exists_congr fun f => (h.handles f _).symm
  -- a file that is there was there, with the same data
  have hold : ∀ s o', s ≠ rootDirSector → g'.objs s = some o' → ∃ o, g.objs s = some o ∧ o'.data = o.data ∧
      Untouched w v s o.data := by
    intro s o' hs ho'
    have hthere : ∃ o, g.objs s = some o := by
      rcases eq_or_ne s e.inodeSector with rfl | hse
      · exact ⟨o0, ho0⟩
      · exact ⟨o', hr.others s hs hse ▸ ho'⟩
    obtain ⟨o, ho⟩ := hthere
    exact ⟨o, ho, hr.files s o o' hs ho ho'⟩
  refine pure_iff.mpr ⟨t.removeName name e.inodeSector, g', d', .removed hname,
    { hr with
      idle := ⟨hspare.trans h.idle.1, hheld.trans h.idle.2⟩
      entries := ?_
      numbers := h.numbers.sublist (erase_sublist.map _)
      handles := fun f s => (h.handles f s).trans (h.store.refersTo_iff hr.store hr.cells (fun _ => by rw [hhandles]) s).symm
      files := fun s => ?_
      removed := fun s o hs ho => ?_
      contents := fun s o hs ho => ?_ }, fun s o o' hs ho ho' x hx => ?_⟩
  · rw [hr.slots]
    exact (inUseEntries_unname hk hn).trans (h.entries.erase _)
  · rcases eq_or_ne s e.inodeSector with rfl | hse
    · have hlive : (t.removeName name e.inodeSector).Live e.inodeSector ↔ ∃ f, t.handles f = some e.inodeSector := by
        simp [Live, hmem]
        rfl
      rw [hlive, ← hopen]
      by_cases hop : g.IsOpen w e.inodeSector
      · simp [hop, hr.marked hop, ho0, hes]
      · simp [hop, hr.gone hop]
    · have hlive : (t.removeName name e.inodeSector).Live s ↔ t.Live s := by
        simp [Live, hmem, hse]
        rfl
      rw [hlive, h.files]
      exact and_congr_right fun hs => by rw [hr.others s hs hse]
  · rcases eq_or_ne s e.inodeSector with rfl | hse
    · have hop : g.IsOpen w e.inodeSector := by
        by_contra hop
        rw [hr.gone hop] at ho
        cases ho
      rw [hr.marked hop, ho0] at ho
      rw [← Option.some.inj ho]
      simp [hmem]
    · rw [hr.others s hs hse] at ho
      simp [h.removed s o hs ho, hmem, hse]
  · obtain ⟨p, hp, hdata, hunt⟩ := hold s o hs ho
    rw [hdata, hunt.fileContents, ← h.contents s p hs hp]
    rfl
  · obtain ⟨hdata, hunt⟩ := hr.files s o o' hs ho ho'
    rw [hdata]
    exact (hunt.owns x).mpr hx

end

end Represents

end Pintos
