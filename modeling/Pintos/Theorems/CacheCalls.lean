import Pintos.Filesys.CacheCalls
import Pintos.Lemmas.Bufcache
import Pintos.Library.Loop

/-!
# What a flush of the buffer cache leaves

A flush cleans every dirty entry, and keeps `cache_lock`. So the disk is right after it, and any operation after it fails at
`lock_acquire`: a flush changes nothing exactly where it is the last operation.
-/

namespace Pintos

open CacheAux Cache Loop List

variable {i : Slot} {ops : List CacheOp} {dev : Block} {m : CacheMachine}

/-! ## The lock -/

/-- `cache_lock` in the hands of the thread. -/
def heldLock : Lock := { holder := some onlyThread, semaphore := { value := 0, waiters := [] } }

namespace CacheMachine

variable {m' : CacheMachine}

theorem lockAcquire_free (h : m.lock = lockInit) : m.lockAcquire = .ok { m with lock := heldLock } := by
  unfold lockAcquire
  rw [h]
  rfl

theorem lockRelease_held (h : m.lock = heldLock) : m.lockRelease = .ok { m with lock := lockInit } := by
  unfold lockRelease
  rw [h]
  rfl

theorem holder_of_lockAcquire (h : m.lockAcquire = .ok m') : m'.lock.holder = some onlyThread := by
  unfold lockAcquire at h
  split at h
  · cases h
  · split at h
    · cases h
      rfl
    · cases h

theorem lockAcquire_held (h : m.lock.holder = some onlyThread) : m.lockAcquire = .error .lockAcquire := by
  have hh : lockHeldByCurrentThread m.lock onlyThread = true := by simp [lockHeldByCurrentThread, h]
  rw [lockAcquire, if_pos hh]

/-! ## After a flush -/

theorem holder_of_clean (h : m.clean i = .ok m') : m'.lock.holder = some onlyThread := by
  unfold clean at h
  split at h
  · simp only [bind_eq_ok] at h
    obtain ⟨m1, -, m2, -, m3, h3, h⟩ := h
    cases h
    exact (holder_of_lockAcquire h3 :)
  · cases h

theorem holder_of_bufcacheFlush (h : m.bufcacheFlush = .ok m') : m'.lock.holder = some onlyThread := by
  unfold bufcacheFlush at h
  cases ha : m.lockAcquire with
  | error e =>
    rw [ha] at h
    cases h
  | ok m1 =>
    rw [ha] at h
    refine (foldlM_keeps (I := fun m : CacheMachine => m.lock.holder = some onlyThread) ?_
      (fun _ _ _ _ _ _ => trivial) (holder_of_lockAcquire ha)).1 m' h
    intro i _ u v hu hv
    unfold flushEntry at hv
    split at hv
    · exact holder_of_clean hv
    · cases hv
      exact hu

/-- No operation returns while the lock is held. -/
theorem exec_held (h : m.lock.holder = some onlyThread) (op : CacheOp) : ∀ r, m.exec op ≠ .ok r := by
  have ha := lockAcquire_held h
  intro r hr
  cases op with
  | flush =>
    simp only [exec, bufcacheFlush, ha, bind_eq_ok] at hr
    obtain ⟨m1, ⟨m2, h, -⟩, -⟩ := hr
    cases h
  | call c =>
    cases c <;> simp only [exec, bufcacheRead, bufcacheWrite, ha, bind_eq_ok] at hr
    all_goals
      obtain ⟨m1, h, -⟩ := hr
      split at h
      · cases h
      · cases h

end CacheMachine

/-! ## What every call keeps -/

/-- The entries between two calls of one thread: all ready, the dirty ones of sectors of the device, the others equal to the
disk, no sector twice, and each on the list once. -/
structure CacheOk (c : Cache) (dev : Block) : Prop where
  ready : ∀ i, (c.entries i).ready = true
  dirty : ∀ i, (c.entries i).dirty = true → (c.entries i).sector < dev.size
  clean : ∀ i, (c.entries i).dirty = false → (c.entries i).sector < dev.size →
    (c.entries i).contents = dev.disk (c.entries i).sector
  distinct : ∀ i j, (c.entries i).sector = (c.entries j).sector → (c.entries i).sector < dev.size → i = j
  lru : c.lru.Perm (finRange numEntries)

/-- What a sector reads as: the contents of its entry, or the disk. -/
def Cache.view (c : Cache) (dev : Block) (x : Nat) : Contents :=
  match c.find x with
  | some i => (c.entries i).contents
  | none => dev.disk x

/-- The cache after `clean` of an entry. -/
def Cache.cleaned (c : Cache) (i : Slot) : Cache := c.setEntry i { c.entries i with dirty := false }

/-- The cache after `replace` of an entry by a sector with the given bytes. -/
def Cache.replaced (c : Cache) (i : Slot) (sector : Nat) (bytes : Contents) : Cache :=
  c.setEntry i { sector := sector, contents := bytes, ready := true, dirty := false }

/-- The device with a sector written. -/
def Block.put (dev : Block) (sector : Nat) (bytes : Contents) : Block :=
  { dev with disk := fun x => if x = sector then bytes else dev.disk x }

namespace CacheOk

variable {c : Cache} {x : Nat}

section

variable (h : CacheOk c dev)
include h

/-- An entry gets a sector that no other entry has, and the disk changes at that sector only. -/
theorem put {e : Metadata} {dev' : Block} (hsize : dev'.size = dev.size) (hdisk : ∀ y, y ≠ e.sector → dev'.disk y = dev.disk y)
    (hother : ∀ j, j ≠ i → (c.entries j).sector < dev.size → (c.entries j).sector ≠ e.sector) (hready : e.ready = true)
    (hdirty : e.dirty = true → e.sector < dev.size) (hclean : e.dirty = false → e.contents = dev'.disk e.sector) :
    CacheOk (c.setEntry i e) dev' := by
  refine ⟨fun j => ?_, fun j hj => ?_, fun j hj hs => ?_, fun j k hjk hs => ?_, h.lru⟩
  · by_cases hji : j = i
    · simp [hji, hready]
    · simp [hji, h.ready j]
  · by_cases hji : j = i <;> simp only [setEntry_entries, hji, if_true, if_false] at hj ⊢ <;> rw [hsize]
    · exact hdirty hj
    · exact h.dirty j hj
  · by_cases hji : j = i <;> simp only [setEntry_entries, hji, if_true, if_false] at hj hs ⊢
    · exact hclean hj
    · rw [hsize] at hs
      rw [hdisk _ (hother j hji hs)]
      exact h.clean j hj hs
  · by_cases hji : j = i <;> by_cases hki : k = i <;>
      simp only [setEntry_entries, hji, hki, if_true, if_false] at hjk hs ⊢ <;> rw [hsize] at hs
    · exact absurd hjk.symm (hother k hki (hjk ▸ hs))
    · exact absurd hjk (hother j hji hs)
    · exact h.distinct j k hjk hs

/-- Cleaning an entry keeps the entries and the disk in order. -/
theorem cleaned (i : Slot) : CacheOk (c.cleaned i) (dev.put (c.entries i).sector (c.entries i).contents) :=
  h.put rfl (fun _ hy => if_neg hy) (fun j hj hs he => hj (h.distinct j i he hs)) (h.ready i) nofun (fun _ => (if_pos rfl).symm)

/-- Replacing a clean entry by a sector that was not cached keeps the entries and the disk in order. -/
theorem replaced (i : Slot) (hx : ∀ j, (c.entries j).sector ≠ x) : CacheOk (c.replaced i x (dev.disk x)) dev :=
  h.put rfl (fun _ _ => rfl) (fun j _ _ => hx j) rfl nofun (fun _ => rfl)

theorem touch (i : Slot) : CacheOk (c.touch i) dev :=
  { h with lru := touch_perm h.lru i }

/-- Writing to the entry of a sector of the device. -/
theorem store (hs : (c.entries i).sector < dev.size) (ofs : Nat) (buffer : List UInt8) : CacheOk (c.store i ofs buffer) dev :=
  h.put rfl (fun _ _ => rfl) (fun j hj hs he => hj (h.distinct j i he hs)) (h.ready i) (fun _ => hs) nofun

/-- With every entry ready, the candidate for eviction is the last of the list. -/
theorem candidate : ∃ i, c.lru.reverse.head? = some i ∧ c.getEvictionCandidate = some i := by
  have hne : c.lru.reverse ≠ [] := by
    intro hnil
    have := h.lru.length_eq
    rw [reverse_eq_nil_iff.mp hnil, length_finRange] at this
    cases this
  obtain ⟨i, rest, hcons⟩ := exists_cons_of_ne_nil hne
  refine ⟨i, by rw [hcons, head?_cons], ?_⟩
  rw [getEvictionCandidate, hcons]
  exact find?_cons_of_pos (h.ready i)

/-- A cached sector reads as its entry. -/
theorem view_of_sector (hi : (c.entries i).sector = x) (hx : x < dev.size) : c.view dev x = (c.entries i).contents := by
  unfold view
  cases hf : c.find x with
  | none => exact absurd hi (find_none hf i)
  | some j =>
    have hj := find_some hf
    rw [h.distinct j i (hj.trans hi.symm) (by rw [hj]; exact hx)]

/-- Where no entry is dirty, every sector of the device reads as the disk has it. -/
theorem view_of_clean (hclean : ∀ i, (c.entries i).dirty = false) (hx : x < dev.size) : c.view dev x = dev.disk x := by
  unfold view
  cases hf : c.find x with
  | none => rfl
  | some i =>
    have hi := find_some hf
    have := h.clean i (hclean i) (by rw [hi]; exact hx)
    rw [hi] at this
    exact this

end

end CacheOk

namespace CacheMachine

variable {x : Nat}

/-- `clean` of a dirty entry of the device. -/
theorem clean_eq (h : CacheOk m.cache m.dev) (hl : m.lock = heldLock) (hd : (m.cache.entries i).dirty = true) :
    m.clean i =
      .ok { m with cache := m.cache.cleaned i, dev := m.dev.put (m.cache.entries i).sector (m.cache.entries i).contents,
                   lock := heldLock } := by
  have hs := h.dirty i hd
  have hentry : (m.cache.startClean i).finishClean i = m.cache.cleaned i := by
    simp only [startClean, finishClean, cleaned, setEntry, Function.update_self, Function.update_idem]
    rw [← h.ready i]
  unfold clean
  rw [if_pos hd]
  simp only [lockRelease_held (m := { m with cache := m.cache.startClean i }) hl, bind, Except.bind, blockWrite, Block.write,
    Block.checkSector]
  have hsec : ((m.cache.startClean i).entries i).sector = (m.cache.entries i).sector := by simp [startClean]
  have hcon : ((m.cache.startClean i).entries i).contents = (m.cache.entries i).contents := by simp [startClean]
  simp only [hsec, hcon, hs, decide_true, if_true]
  rw [lockAcquire_free rfl]
  simp only [pure, Except.pure, hentry]
  rfl

/-- `replace` of a clean entry by a sector of the device. -/
theorem replace_eq (hl : m.lock = heldLock) (hd : (m.cache.entries i).dirty = false) (hx : x < m.dev.size) :
    m.replace i x = .ok { m with cache := m.cache.replaced i x (m.dev.disk x), lock := heldLock, reads := m.reads ++ [x] } := by
  have hentry : ((m.cache.startReplace i x).load i (m.dev.disk x)).finishReplace i = m.cache.replaced i x (m.dev.disk x) := by
    simp [startReplace, load, finishReplace, replaced, setEntry, hd]
  unfold replace
  rw [if_neg (by rw [hd]; exact Bool.false_ne_true)]
  simp only [lockRelease_held (m := { m with cache := m.cache.startReplace i x }) hl, bind, Except.bind, blockRead, Block.read,
    Block.checkSector, hx, decide_true, if_true]
  rw [lockAcquire_free rfl]
  simp only [pure, Except.pure, hentry]

/-- A turn that finds the sector ends the loop. -/
theorem bufcacheAccess_hit (h : CacheOk m.cache m.dev) (hf : m.cache.find x = some i)
    (turns : Nat) : bufcacheAccess (turns + 1) m x = .ok ({ m with cache := m.cache.touch i }, i) := by
  simp [bufcacheAccess, access, hf, h.ready i]

/-- What `bufcache_access` returns: the entry of the sector, with the bytes that the sector reads as. -/
structure Accessed (m m' : CacheMachine) (i : Slot) (x : Nat) : Prop where
  ok : CacheOk m'.cache m'.dev
  lock : m'.lock = heldLock
  size : m'.dev.size = m.dev.size
  sector : (m'.cache.entries i).sector = x
  contents : (m'.cache.entries i).contents = m.cache.view m.dev x

section

variable (h : CacheOk m.cache m.dev) (hl : m.lock = heldLock) (hx : x < m.dev.size)
include h hl hx

/-- A sector that is not cached takes the place of the last entry of the list, if that is clean: two turns. -/
theorem bufcacheAccess_replace
    (hf : m.cache.find x = none) (hi : m.cache.getEvictionCandidate = some i) (hd : (m.cache.entries i).dirty = false)
    (turns : Nat) : ∃ m' i, bufcacheAccess (turns + 2) m x = .ok (m', i) ∧ Accessed m m' i x := by
  have hok := h.replaced i (find_none hf)
  have hacc : m.cache.access x = .replace i := by
    simp [access, hf, hi, hd]
  have hself : ((m.cache.replaced i x (m.dev.disk x)).entries i).sector = x := by simp [replaced]
  cases hf' : (m.cache.replaced i x (m.dev.disk x)).find x with
  | none => exact absurd hself (find_none hf' i)
  | some j =>
    have hj := find_some hf'
    have hji : j = i := hok.distinct j i (hj.trans hself.symm) (by rw [hj]; exact hx)
    have hloop := bufcacheAccess_hit
      (m := { m with cache := m.cache.replaced i x (m.dev.disk x), lock := heldLock, reads := m.reads ++ [x] }) hok hf' turns
    rw [show turns + 2 = (turns + 1) + 1 from rfl, bufcacheAccess]
    simp only [hacc, replace_eq hl hd hx, bind, Except.bind]
    refine ⟨_, j, hloop, hok.touch j, rfl, rfl, hj, ?_⟩
    simp [touch, hji, replaced, view, hf]

/-- `bufcache_access` returns within its three turns for every sector of the device. -/
theorem bufcacheAccess_spec : ∃ m' i, bufcacheAccess accessTurns m x = .ok (m', i) ∧ Accessed m m' i x := by
  cases hf : m.cache.find x with
  | some i =>
    refine ⟨_, i, bufcacheAccess_hit h hf 2, h.touch i, hl, rfl, find_some hf, ?_⟩
    exact (h.view_of_sector (find_some hf) hx).symm
  | none =>
    obtain ⟨i, hlast, hi⟩ := h.candidate
    cases hd : (m.cache.entries i).dirty with
    | false => exact bufcacheAccess_replace h hl hx hf hi hd 1
    | true =>
      have hacc : m.cache.access x = .clean i := by
        simp [access, hf, hi, hd]
      have hok := h.cleaned i
      -- the entry that was cleaned is the last of the list still, and the sector is not cached still
      have hf' : (m.cache.cleaned i).find x = none := by
        refine find?_eq_none.mpr (fun j _ => ?_)
        have hj := find_none hf j
        by_cases hji : j = i
        · subst hji
          simpa [cleaned] using fun he => hj he.symm
        · simpa [cleaned, hji] using fun he => hj he.symm
      have hi' : (m.cache.cleaned i).getEvictionCandidate = some i := by
        obtain ⟨k, hk, hcand⟩ := hok.candidate
        have hsame : (m.cache.cleaned i).lru = m.cache.lru := rfl
        rw [hsame, hlast] at hk
        rw [hcand, ← hk]
      obtain ⟨m', j, hm', hacc'⟩ := bufcacheAccess_replace
        (m := { m with cache := m.cache.cleaned i, dev := m.dev.put (m.cache.entries i).sector (m.cache.entries i).contents,
                       lock := heldLock })
        hok rfl hx hf' hi' (by simp [cleaned]) 0
      refine ⟨m', j, ?_, hacc'.ok, hacc'.lock, hacc'.size, hacc'.sector, ?_⟩
      · rw [accessTurns, bufcacheAccess]
        simp only [hacc, clean_eq h hl hd, bind, Except.bind]
        exact hm'
      · have hne : x ≠ (m.cache.entries i).sector := fun he => find_none hf i he.symm
        rw [hacc'.contents]
        simp only [view, hf, hf', Block.put, if_neg hne]

end

/-! ## Whole calls -/

/-- The state between two calls of a thread that holds nothing. -/
structure Idle (m : CacheMachine) : Prop where
  ok : CacheOk m.cache m.dev
  lock : m.lock = lockInit

/-- `bufcache_read` returns what the sector reads as. -/
theorem Idle.bufcacheRead (h : m.Idle) {ofs length : Nat} (hx : x < m.dev.size) (hlen : ofs + length ≤ blockSectorSize) :
    ∃ m', m.bufcacheRead x ofs length = .ok ((m.cache.view m.dev x).slice ofs length, m') ∧ m'.Idle ∧
    m'.dev.size = m.dev.size := by
  obtain ⟨m1, i, hacc, ha⟩ := bufcacheAccess_spec (m := { m with lock := heldLock }) h.ok rfl hx
  refine ⟨{ m1 with lock := lockInit }, ?_, ⟨ha.ok, rfl⟩, ha.size⟩
  unfold CacheMachine.bufcacheRead
  rw [if_pos hlen, lockAcquire_free h.lock]
  simp only [bind, Except.bind, hacc, lockRelease_held ha.lock, pure, Except.pure, ha.contents]

theorem Idle.bufcacheWrite (h : m.Idle) {ofs : Nat} {buffer : List UInt8} (hx : x < m.dev.size)
    (hlen : ofs + buffer.length ≤ blockSectorSize) :
    ∃ m', m.bufcacheWrite x ofs buffer = .ok m' ∧ m'.Idle ∧ m'.dev.size = m.dev.size := by
  obtain ⟨m1, i, hacc, ha⟩ := bufcacheAccess_spec (m := { m with lock := heldLock }) h.ok rfl hx
  have hsec : (m1.cache.entries i).sector < m1.dev.size := by
    rw [ha.sector, ha.size]
    exact hx
  refine ⟨{ m1 with cache := m1.cache.store i ofs buffer, lock := lockInit }, ?_, ⟨ha.ok.store hsec ofs buffer, rfl⟩, ha.size⟩
  unfold CacheMachine.bufcacheWrite
  rw [if_pos hlen, lockAcquire_free h.lock]
  simp only [bind, Except.bind, hacc]
  exact lockRelease_held ha.lock

/-- The loop of `bufcache_flush` over some entries leaves them clean, and makes no entry dirty. -/
theorem flush_entries (slots : List Slot) (h : CacheOk m.cache m.dev) (hl : m.lock = heldLock) :
    ∃ m', slots.foldlM flushEntry m = .ok m' ∧ CacheOk m'.cache m'.dev ∧ m'.lock = heldLock ∧ m'.dev.size = m.dev.size ∧
      ∀ i, (i ∈ slots ∨ (m.cache.entries i).dirty = false) → (m'.cache.entries i).dirty = false := by
  induction slots generalizing m with
  | nil => exact ⟨m, rfl, h, hl, rfl, fun i hi => hi.resolve_left not_mem_nil⟩
  | cons k slots ih =>
    obtain ⟨m1, hturn, hok1, hl1, hsize1, hclean1⟩ : ∃ m1, flushEntry m k = .ok m1 ∧ CacheOk m1.cache m1.dev ∧
        m1.lock = heldLock ∧
        m1.dev.size = m.dev.size ∧ ∀ i, (i = k ∨ (m.cache.entries i).dirty = false) → (m1.cache.entries i).dirty = false := by
      cases hd : (m.cache.entries k).dirty with
      | false =>
        refine ⟨m, by simp [flushEntry, hd], h, hl, rfl, ?_⟩
        rintro i (rfl | hi)
        · exact hd
        · exact hi
      | true =>
        have hturn : flushEntry m k = m.clean k := by rw [flushEntry, hd, h.ready k, Bool.and_self, if_pos rfl]
        refine ⟨_, hturn.trans (clean_eq h hl hd), h.cleaned k, rfl, rfl, fun i hi => ?_⟩
        by_cases hik : i = k
        · simp [cleaned, hik]
        · simp [cleaned, hik, hi.resolve_left hik]
    obtain ⟨m', hm', hok, hlock, hsize, hclean⟩ := ih hok1 hl1
    refine ⟨m', by rw [foldlM_cons_ok hturn, hm'], hok, hlock, hsize.trans hsize1, fun i hi => hclean i ?_⟩
    rw [mem_cons, or_assoc, or_left_comm] at hi
    exact hi.imp_right (hclean1 i)

/-- `bufcache_flush` leaves no entry dirty, and the lock held. -/
theorem Idle.bufcacheFlush (h : m.Idle) :
    ∃ m', m.bufcacheFlush = .ok m' ∧ CacheOk m'.cache m'.dev ∧ m'.dev.size = m.dev.size ∧
    ∀ i, (m'.cache.entries i).dirty = false := by
  obtain ⟨m', hm', hok, -, hsize, hclean⟩ := flush_entries (finRange numEntries) (m := { m with lock := heldLock }) h.ok rfl
  refine ⟨m', ?_, hok, hsize, fun i => hclean i (.inl (mem_finRange i))⟩
  unfold CacheMachine.bufcacheFlush
  rw [lockAcquire_free h.lock]
  exact hm'

/-- Operations one after the other run as the first ones and then the others. -/
theorem run_append (m : CacheMachine) (ops ops' : List CacheOp) :
    m.run (ops ++ ops') = (m.run ops >>= fun r => r.2.run ops' >>= fun r' => .ok (r.1 ++ r'.1, r'.2)) := by
  induction ops generalizing m with
  | nil =>
    simp only [nil_append, run, bind, Except.bind]
    cases m.run ops' <;> rfl
  | cons op ops ih =>
    simp only [cons_append, run, ih, bind_assoc, pure_bind, append_assoc]
    rfl

/-- A list of operations of which every call names bytes of one sector of the device. -/
def ValidOps (size : Nat) (ops : List CacheOp) : Prop := ∀ c, CacheOp.call c ∈ ops → c.sector < size ∧ c.inSector = true

/-- The calls among operations, without the flushes. -/
def withoutFlushes (ops : List CacheOp) : List CacheOp :=
  ops.filter (fun op => match op with | .call _ => true | .flush => false)

/-- Calls on sectors of the device all return. -/
theorem Idle.run_calls (h : m.Idle) (hv : ValidOps m.dev.size ops)
    (hc : ∀ op ∈ ops, op ≠ .flush) : ∃ r m', m.run ops = .ok (r, m') ∧ m'.Idle ∧ m'.dev.size = m.dev.size := by
  induction ops generalizing m with
  | nil => exact ⟨[], m, rfl, h, rfl⟩
  | cons op ops ih =>
    have hop : ∃ r m', m.exec op = .ok (r, m') ∧ m'.Idle ∧ m'.dev.size = m.dev.size := by
      cases op with
      | flush => exact absurd rfl (hc .flush mem_cons_self)
      | call c =>
        obtain ⟨hx, hin⟩ := hv c mem_cons_self
        cases c with
        | read x ofs length =>
          obtain ⟨m', hm', hidle, hsize⟩ := h.bufcacheRead (x := x) hx (by simpa [CacheCall.inSector] using hin)
          exact ⟨_, m', by simp only [exec, hm', bind, Except.bind]; rfl, hidle, hsize⟩
        | write x ofs buffer =>
          obtain ⟨m', hm', hidle, hsize⟩ := h.bufcacheWrite (x := x) hx (by simpa [CacheCall.inSector] using hin)
          exact ⟨_, m', by simp only [exec, hm', bind, Except.bind]; rfl, hidle, hsize⟩
    obtain ⟨r, m1, h1, hidle, hsize⟩ := hop
    obtain ⟨rs, m', h', hidle', hsize'⟩ := ih hidle (fun c hcm => by rw [hsize]; exact hv c (mem_cons_of_mem _ hcm))
      (fun op' hop' => hc op' (mem_cons_of_mem _ hop'))
    exact ⟨r ++ rs, m', by simp only [run, h1, h', bind, Except.bind]; rfl, hidle', hsize'.trans hsize⟩

/-- `bufcache_init` over a device whose sectors all have numbers. -/
theorem idle_start (hsize : dev.size ≤ invalidSector) : (start dev).Idle := by
  refine ⟨⟨fun i => rfl, nofun, fun i _ hs => ?_, fun i j _ hs => ?_, init_lru_perm⟩, rfl⟩ <;>
  · have : invalidSector < dev.size := hs
    omega

end CacheMachine

/-! ## Transparency -/

open CacheMachine in
/-- A flush at the places where it stands in a sequence of operations changes nothing: the calls return the same with and
without them, and right after each flush no entry is dirty and every sector of the disk holds the bytes that a read of it
would return (once the lock were free). -/
def FlushTransparent (dev : Block) (ops : List CacheOp) : Prop :=
  ∃ results m, (start dev).run (withoutFlushes ops) = .ok (results, m) ∧ (∃ m', (start dev).run ops = .ok (results, m')) ∧
    ∀ before after, ops = before ++ .flush :: after →
      ∃ r m', (start dev).run (before ++ [.flush]) = .ok (r, m') ∧ (∀ i, (m'.cache.entries i).dirty = false) ∧
        ∀ x, x < dev.size → ∃ m'', bufcacheRead { m' with lock := lockInit } x 0 blockSectorSize =
          .ok ((m'.dev.disk x).slice 0 blockSectorSize, m'')

namespace CacheMachine

/-- Nothing runs after a flush. -/
theorem run_after_flush {before after : List CacheOp} (hne : after ≠ []) : ∀ r, m.run (before ++ .flush :: after) ≠ .ok r := by
  intro r hr
  rw [run_append] at hr
  obtain ⟨⟨r1, m1⟩, -, hr⟩ := bind_eq_ok.mp hr
  obtain ⟨r2, hrun, -⟩ := bind_eq_ok.mp hr
  obtain ⟨⟨r3, m3⟩, hflush, hrun⟩ := bind_eq_ok.mp hrun
  have hheld : m3.lock.holder = some onlyThread := by
    obtain ⟨m4, h4, h5⟩ := bind_eq_ok.mp hflush
    cases h5
    exact holder_of_bufcacheFlush h4
  obtain ⟨op, rest, rfl⟩ := exists_cons_of_ne_nil hne
  obtain ⟨r5, hrest, -⟩ := bind_eq_ok.mp hrun
  obtain ⟨r6, hexec, -⟩ := bind_eq_ok.mp hrest
  exact exec_held hheld op r6 hexec

/-- A flush after calls leaves the disk as a read would return it. -/
theorem run_flush {r : List (List UInt8)} {m1 : CacheMachine}
    (hrun : m.run ops = .ok (r, m1)) (hidle : m1.Idle) (hsize : m1.dev.size = m.dev.size) :
    ∃ m', m.run (ops ++ [.flush]) = .ok (r, m') ∧ (∀ i, (m'.cache.entries i).dirty = false) ∧
      ∀ x, x < m.dev.size → ∃ m'', bufcacheRead { m' with lock := lockInit } x 0 blockSectorSize =
        .ok ((m'.dev.disk x).slice 0 blockSectorSize, m'') := by
  obtain ⟨m', hflush, hok, hsize', hclean⟩ := hidle.bufcacheFlush
  refine ⟨m', ?_, hclean, fun x hx => ?_⟩
  · rw [run_append, hrun]
    simp only [run, exec, hflush, bind, Except.bind, pure, Except.pure, append_nil]
  have hx' : x < m'.dev.size := by
    rw [hsize', hsize]
    exact hx
  have hidle' : Idle { m' with lock := lockInit } := ⟨hok, rfl⟩
  obtain ⟨m'', hread, -⟩ := hidle'.bufcacheRead hx' (show 0 + blockSectorSize ≤ blockSectorSize by omega)
  refine ⟨m'', ?_⟩
  rw [hread]
  simp [hok.view_of_clean hclean hx']

/-- Operations in which nothing follows a flush: calls only, or calls and one flush at their end. -/
theorem calls_then_flush (h : ∀ before after, ops = before ++ .flush :: after → after = []) :
    (∀ op ∈ ops, op ≠ .flush) ∨ ∃ calls, ops = calls ++ [.flush] ∧ ∀ op ∈ calls, op ≠ .flush := by
  induction ops with
  | nil => exact .inl nofun
  | cons op ops ih =>
    have hrest : ∀ before after, ops = before ++ .flush :: after → after = [] :=
      fun before after he => h (op :: before) after (by rw [he, cons_append])
    cases op with
    | flush =>
      have hnil : ops = [] := h [] ops rfl
      exact .inr ⟨[], by rw [hnil, nil_append], nofun⟩
    | call c =>
      rcases ih hrest with hcalls | ⟨calls, rfl, hcalls⟩
      · exact .inl (forall_mem_cons.mpr ⟨nofun, hcalls⟩)
      · exact .inr ⟨.call c :: calls, rfl, forall_mem_cons.mpr ⟨nofun, hcalls⟩⟩

theorem withoutFlushes_calls (h : ∀ op ∈ ops, op ≠ .flush) : withoutFlushes ops = ops := by
  refine filter_eq_self.mpr (fun op hop => ?_)
  cases op with
  | call c => rfl
  | flush => exact absurd rfl (h .flush hop)

end CacheMachine

open CacheMachine

/-- With an operation after a flush, the sequence does not run. -/
theorem not_transparent_of_after {before after : List CacheOp} (hne : after ≠ []) :
    ¬FlushTransparent dev (before ++ .flush :: after) := by
  rintro ⟨results, m, -, ⟨m', hrun⟩, -⟩
  exact run_after_flush hne _ hrun

/-- **Where a flush is transparent.** In any sequence of reads, writes and flushes of one thread, from `bufcache_init` on,
the flushes change nothing, and leave the disk as reads would return it, exactly when no operation follows a flush. -/
theorem flush_transparent_iff (dev : Block) (hsize : dev.size ≤ invalidSector) (ops : List CacheOp)
    (hvalid : ValidOps dev.size ops) :
    FlushTransparent dev ops ↔ ∀ before after, ops = before ++ .flush :: after → after = [] := by
  constructor
  · intro h before after he
    by_contra hne
    rw [he] at h
    exact not_transparent_of_after hne h
  intro h
  have hidle := idle_start hsize
  rcases calls_then_flush h with hcalls | ⟨calls, rfl, hcalls⟩
  · obtain ⟨r, m, hrun, -, -⟩ := hidle.run_calls hvalid hcalls
    refine ⟨r, m, by rw [withoutFlushes_calls hcalls]; exact hrun, ⟨m, hrun⟩, fun before after he => ?_⟩
    exact absurd rfl (hcalls .flush (by rw [he]; simp))
  have hvalid' : ValidOps dev.size calls := fun c hc => hvalid c (mem_append_left _ hc)
  obtain ⟨r, m, hrun, hm, hs⟩ := hidle.run_calls hvalid' hcalls
  obtain ⟨m', hflush, hclean, hdisk⟩ := run_flush hrun hm hs
  have hstrip : withoutFlushes (calls ++ [.flush]) = calls := by
    refine (filter_append _ _).trans ?_
    exact (congrArg (· ++ []) (withoutFlushes_calls hcalls)).trans (append_nil calls)
  refine ⟨r, m, by rw [hstrip]; exact hrun, ⟨m', hflush⟩, fun before after he => ?_⟩
  have hafter := h before after he
  subst hafter
  rw [← he]
  exact ⟨r, m', hflush, hclean, hdisk⟩

/-- A device of one zeroed sector. -/
def oneSector : Block := { size := 1, disk := fun _ => Contents.fill 0 }

/-- A write and a flush after it. -/
theorem write_then_flush_transparent : FlushTransparent oneSector [.call (.write 0 0 [7]), .flush] := by
  refine (flush_transparent_iff oneSector (by decide) _ ?_).mpr ?_
  · intro c hc
    simp only [mem_cons, CacheOp.call.injEq, not_mem_nil, or_false, reduceCtorEq] at hc
    subst hc
    exact ⟨by decide, by decide⟩
  intro before after he
  match before, he with
  | [], he => cases he
  | [_], he => cases he; rfl
  | _ :: _ :: before, he => simp at he

/-- A read after a flush fails. -/
theorem flush_then_read_not_transparent : ¬FlushTransparent oneSector [.flush, .call (.read 0 0 1)] :=
  (not_transparent_of_after (cons_ne_nil _ _) : ¬FlushTransparent oneSector ([] ++ .flush :: [.call (.read 0 0 1)]))

end Pintos
