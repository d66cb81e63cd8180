import Hexv6.Blk.Tokens

/-!
# Operations on buffers

What the operations on buffers do to the cache, to the disk and to the tokens, and that they keep
`CacheInv`.
-/

namespace Hexv6.Blk

open Lib Multiset Function
open Bio (Buf Bcache BufId)
open Sched (Slot)

variable {pend : List (BitVec 32)} {s : State} {W F : Multiset Token} {t t' : Token} {b : BufId}
  {bn : BitVec 32} {m m' : Mode} {x : Buf Slot Block} {c : Bcache Slot Block}

namespace CacheInv

/-! ### Locks, data and disk -/

/-- A process changes the lock, the data or the flag of a buffer, or writes its block to the disk,
while nobody else has the lock. -/
lemma touch {disk : BitVec 32 → Block} (h : CacheInv pend s (.buf b bn m ::ₘ F))
    (hF : ∀ t ∈ F, t.locks b = false) (hdev : x.dev = (s.cache.buf b).dev)
    (hbn : x.blockno = (s.cache.buf b).blockno) (href : x.refcnt = (s.cache.buf b).refcnt)
    (hlock : m'.locks = true → x.lock ≠ none) (hdisk : ∀ n, n ≠ bn → disk n = s.disk n)
    (hsync : m' = .synced → x.data = disk bn)
    (hcoh : x.valid = true → m' ≠ .dirty → x.data = disk bn ∨ bn ∈ pend) :
    CacheInv pend { s with cache := s.cache.modify b fun _ => x, disk := disk }
      (.buf b bn m' ::ₘ F) := by
  obtain ⟨hroot, hblk, -⟩ := h.means _ (mem_cons_self _ _)
  set c := s.cache.modify b fun _ => x with hc
  have hself : c.buf b = x := Bcache.modify_buf_self ..
  have hoff : ∀ b', b' ≠ b → c.buf b' = s.cache.buf b' := fun b' hb' =>
    Bcache.modify_buf_of_ne _ _ _ hb'
  have hsame : ∀ b', (c.buf b').dev = (s.cache.buf b').dev ∧
      (c.buf b').blockno = (s.cache.buf b').blockno ∧
      (c.buf b').refcnt = (s.cache.buf b').refcnt := by
    intro b'
    rcases eq_or_ne b' b with rfl | hb'
    · rw [hself]
      exact ⟨hdev, hbn, href⟩
    · rw [hoff b' hb']
      exact ⟨rfl, rfl, rfl⟩
  -- the block of another buffer is not written
  have hkeep : ∀ b', b' ≠ b → (s.cache.buf b').dev = ROOTDEV →
      disk (s.cache.buf b').blockno = s.disk (s.cache.buf b').blockno := by
    intro b' hb' hd
    refine hdisk _ ?_
    rw [← hblk]
    exact h.blockno_ne hroot hb' hd
  refine
    { ring := h.ring.of_eq rfl rfl
      uniq := h.uniq.of_eq (fun b' => (hsame b').1) fun b' => (hsame b').2.1
      dev := fun b' hv => ?_, means := fun t ht => ?_, total := ?_, refs := fun b' => ?_
      locks := fun b' => ?_, pins := fun b' => ?_, cached := fun n hn => ?_, nodup := h.nodup
      coh := fun b' hv hd => ?_ }
  · change (c.buf b').valid = true at hv
    rw [(hsame b').1]
    rcases eq_or_ne b' b with rfl | hb'
    · exact hroot
    · rw [hoff b' hb'] at hv
      exact h.dev b' hv
  · rcases mem_cons.1 ht with rfl | htF
    · refine ⟨(hsame b).1.trans hroot, (hsame b).2.1.trans hblk, fun hm => ?_⟩
      rw [hself]
      exact hsync hm
    have hmeans := h.means t (mem_cons_of_mem htF)
    cases t with
    | buf b' bn' m1 =>
      refine ⟨(hsame b').1.trans hmeans.1, (hsame b').2.1.trans hmeans.2.1, fun hm => ?_⟩
      subst hm
      have hb' : b' ≠ b := by
        rintro rfl
        simpa [Mode.locks] using hF _ htF
      change (c.buf b').data = disk bn'
      rw [hoff b' hb', ← hmeans.2.1, hkeep b' hb' hmeans.1, hmeans.2.1]
      exact hmeans.2.2 rfl
    | _ => trivial
  · have htotal := h.total
    rw [countP_cons] at htotal ⊢
    exact htotal
  · change (c.buf b').refcnt = _
    rw [(hsame b').2.2, h.refs b', countP_cons, countP_cons]
    rfl
  · change _ ≤ if (c.buf b').lock = none then 0 else 1
    rcases eq_or_ne b' b with rfl | hb'
    · have hzero : F.countP (·.locks b') = 0 := countP_eq_zero.2 fun t ht => by simp [hF t ht]
      rw [countP_cons, hzero, hself]
      by_cases hm : m'.locks = true
      · rw [if_pos (by simpa using hm), if_neg (hlock hm)]
      · rw [if_neg (by simpa using hm)]
        exact Nat.zero_le _
    have hle := h.locks b'
    rw [countP_cons_of_neg _ (by simp [hb'.symm])] at hle
    rw [countP_cons_of_neg _ (by simp [hb'.symm]), hoff b' hb']
    exact hle
  · change s.pins b' = if (c.buf b').dev = ROOTDEV ∧ (c.buf b').blockno ∈ pend then 1 else 0
    rw [(hsame b').1, (hsame b').2.1]
    exact h.pins b'
  · obtain ⟨b', hd, hb'⟩ := h.cached n hn
    exact ⟨b', (hsame b').1.trans hd, (hsame b').2.1.trans hb'⟩
  · change (c.buf b').valid = true at hv
    change (c.buf b').data = disk (c.buf b').blockno ∨ (c.buf b').blockno ∈ pend
    rw [(hsame b').2.1]
    rcases eq_or_ne b' b with rfl | hb'
    · rw [hself] at hv ⊢
      rw [hblk]
      refine hcoh hv fun hm => ?_
      simpa [hm] using hd _ (mem_cons_self _ _)
    rw [hoff b' hb'] at hv ⊢
    rw [hkeep b' hb' (h.dev b' hv)]
    refine h.coh b' hv (forall_mem_cons.2 ⟨by simp [hb'.symm], fun t ht => ?_⟩)
    exact hd t (mem_cons_of_mem ht)

section Locked

variable (h : CacheInv pend s (.buf b bn m ::ₘ F))

include h

lemma lock_ne_none (hm : m.locks = true) : (s.cache.buf b).lock ≠ none := by
  intro hnone
  simpa [hm] using h.no_lock_of_free hnone _ (mem_cons_self _ _)

/-- What a process knows of a buffer that it has not changed. -/
lemma coh_of_locked (hm : m.locks = true) (hd : m ≠ .dirty)
    (hvalid : (s.cache.buf b).valid = true) :
    (s.cache.buf b).data = s.disk bn ∨ bn ∈ pend := by
  obtain ⟨-, hblk, -⟩ := h.means _ (mem_cons_self _ _)
  rw [← hblk]
  refine h.coh b hvalid (forall_mem_cons.2 ⟨by simp [hd], fun t ht => ?_⟩)
  by_contra hdirty
  have hlock := Token.locks_of_dirty (by simpa using hdirty)
  rw [h.no_lock (by simp [hm]) t ht] at hlock
  cases hlock

/-- The mode of a locked buffer changes. -/
lemma remode (hm : m.locks = true) (hsync : m' = .synced → (s.cache.buf b).data = s.disk bn)
    (hcoh : (s.cache.buf b).valid = true → m' ≠ .dirty →
      (s.cache.buf b).data = s.disk bn ∨ bn ∈ pend) :
    CacheInv pend s (.buf b bn m' ::ₘ F) := by
  have hset := h.touch (h.no_lock (by simp [hm])) rfl rfl rfl
    (fun _ => h.lock_ne_none hm) (fun _ _ => rfl) hsync hcoh
  have hid : s.cache.modify b (fun _ => s.cache.buf b) = s.cache := by simp [Bcache.modify]
  rwa [hid] at hset

end Locked

lemma acquiresleep (h : CacheInv pend s (.buf b bn .wait ::ₘ F)) (p : Slot)
    (hfree : (s.cache.buf b).lock = none) :
    CacheInv pend (s.modify b fun x => { x with lock := some p }) (.buf b bn .raw ::ₘ F) := by
  have hnone := h.no_lock_of_free hfree
  obtain ⟨-, hblk, -⟩ := h.means _ (mem_cons_self _ _)
  refine h.touch
    (fun t ht => hnone t (mem_cons_of_mem ht)) rfl rfl rfl (fun _ => by simp) (fun _ _ => rfl)
    nofun fun hv _ => ?_
  rw [← hblk]
  refine h.coh b hv fun t ht => ?_
  by_contra hdirty
  have hlock := Token.locks_of_dirty (by simpa using hdirty)
  rw [hnone t ht] at hlock
  cases hlock

lemma fill (h : CacheInv pend s (.buf b bn .raw ::ₘ F)) : CacheInv pend (s.modify b fun x =>
        if x.valid then x else { x with data := s.disk x.blockno, valid := true })
      (.buf b bn .clean ::ₘ F) := by
  obtain ⟨-, hblk, -⟩ := h.means _ (mem_cons_self _ _)
  by_cases hv : (s.cache.buf b).valid = true
  · have hid : (s.modify b fun x =>
        if x.valid then x else { x with data := s.disk x.blockno, valid := true }) = s := by
      simp [State.modify, Bcache.modify, hv]
    rw [hid]
    exact h.remode rfl nofun fun _ _ => h.coh_of_locked rfl (by decide) hv
  have hread : (s.modify b fun x =>
      if x.valid then x else { x with data := s.disk x.blockno, valid := true }) =
      { s with cache := s.cache.modify b fun _ =>
          { s.cache.buf b with data := s.disk bn, valid := true }, disk := s.disk } := by
    simp [State.modify, Bcache.modify, hv, hblk]
  rw [hread]
  exact h.touch (h.no_lock (by simp [Mode.locks])) rfl rfl rfl (fun _ => h.lock_ne_none rfl)
    (fun _ _ => rfl) nofun fun _ _ => .inl rfl

section

variable (h : CacheInv pend s (.buf b bn m ::ₘ F))
include h

lemma store (hm : m.locks = true) (d : Block) :
    CacheInv pend (s.modify b fun x => { x with data := d }) (.buf b bn .dirty ::ₘ F) :=
  h.touch (x := { s.cache.buf b with data := d }) (h.no_lock (by simp [hm]))
    rfl rfl rfl (fun _ => h.lock_ne_none hm) (fun _ _ => rfl) nofun
    fun _ hd => absurd rfl hd

lemma bwrite (hm : m.locks = true) : CacheInv pend
      { s with disk := update s.disk (s.cache.buf b).blockno (s.cache.buf b).data }
      (.buf b bn .synced ::ₘ F) := by
  obtain ⟨-, hblk, -⟩ := h.means _ (mem_cons_self _ _)
  have hid : s.cache.modify b (fun _ => s.cache.buf b) = s.cache := by simp [Bcache.modify]
  have hwritten : (s.cache.buf b).data = update s.disk bn (s.cache.buf b).data bn := by
    rw [update_self]
  have hset := h.touch (h.no_lock (by simp [hm])) rfl rfl rfl
    (fun _ => h.lock_ne_none hm) (fun n hn => update_of_ne hn ..)
    (fun (_ : Mode.synced = .synced) => hwritten) fun _ _ => .inl hwritten
  rw [hid] at hset
  rw [hblk]
  exact hset

lemma releasesleep (hm : m.locks = true)
    (hd : m ≠ .dirty) :
    CacheInv pend (s.modify b fun x => { x with lock := none }) (.buf b bn .gone ::ₘ F) :=
  h.touch (x := { s.cache.buf b with lock := none }) (h.no_lock (by simp [hm]))
    rfl rfl rfl nofun (fun _ _ => rfl) nofun
    fun hv _ => h.coh_of_locked hm hd hv

end

/-! ### References -/

/-- Only the reference counts and the pins change, with the tokens and the pending blocks. -/
lemma recount {pend' : List (BitVec 32)} {k : BufId → ℕ} (h : CacheInv pend s W) (hring : c.Ring)
    (hsame : ∀ b, c.buf b = { s.cache.buf b with refcnt := (c.buf b).refcnt })
    (hmeans : ∀ t ∈ F, t.Means s) (htotal : F.countP (·.share) = W.countP (·.share))
    (hrefs : ∀ b, (c.buf b).refcnt = BitVec.ofNat 32 (F.countP (·.onBuf b) + k b))
    (hlocks : ∀ b, F.countP (·.locks b) = W.countP (·.locks b))
    (hpins : ∀ b, k b =
      if (s.cache.buf b).dev = ROOTDEV ∧ (s.cache.buf b).blockno ∈ pend' then 1 else 0)
    (hcached : ∀ n ∈ pend', ∃ b, (s.cache.buf b).dev = ROOTDEV ∧ (s.cache.buf b).blockno = n)
    (hnodup : pend'.Nodup)
    (hcoh : ∀ b, (s.cache.buf b).valid = true → (∀ t ∈ F, t.dirty b = false) →
      (s.cache.buf b).data = s.disk (s.cache.buf b).blockno ∨ (s.cache.buf b).blockno ∈ pend') :
    CacheInv pend' { s with cache := c, pins := k } F := by
  have hdev : ∀ b, (c.buf b).dev = (s.cache.buf b).dev := fun b => by rw [hsame]
  have hbn : ∀ b, (c.buf b).blockno = (s.cache.buf b).blockno := fun b => by rw [hsame]
  refine
    { ring := hring, uniq := h.uniq.of_eq hdev hbn, dev := fun b hv => ?_, means := fun t ht => ?_
      total := htotal ▸ h.total, refs := hrefs, locks := fun b => ?_, pins := fun b => ?_
      cached := fun n hn => ?_, nodup := hnodup, coh := fun b hv hd => ?_ }
  · change (c.buf b).valid = true at hv
    rw [hsame] at hv
    exact (hdev b).trans (h.dev b hv)
  · have hm := hmeans t ht
    cases t with
    | buf b bn m =>
      change (c.buf b).dev = _ ∧ (c.buf b).blockno = _ ∧ (_ → (c.buf b).data = _)
      rw [hsame]
      exact hm
    | _ => trivial
  · change _ ≤ if (c.buf b).lock = none then 0 else 1
    rw [hsame, hlocks]
    exact h.locks b
  · change k b = if (c.buf b).dev = ROOTDEV ∧ (c.buf b).blockno ∈ pend' then 1 else 0
    rw [hdev, hbn]
    exact hpins b
  · obtain ⟨b, hroot, hb⟩ := hcached n hn
    exact ⟨b, (hdev b).trans hroot, (hbn b).trans hb⟩
  · change (c.buf b).valid = true at hv
    rw [hsame] at hv ⊢
    exact hcoh b hv hd

lemma same_of_modify {r : BitVec 32} {c' : Bcache Slot Block}
    (hc : c'.buf = (c.modify b fun x => { x with refcnt := r }).buf) (b' : BufId) :
    c'.buf b' = { c.buf b' with refcnt := (c'.buf b').refcnt } := by
  rw [hc]
  rcases eq_or_ne b' b with rfl | hb'
  · rw [Bcache.modify_buf_self]
  · rw [Bcache.modify_buf_of_ne _ _ _ hb']

/-- The references to a buffer change, with a token. -/
lemma reref {r : BitVec 32} (h : CacheInv pend s (t ::ₘ F)) (hring : c.Ring)
    (hbuf : c.buf = (s.cache.modify b fun x => { x with refcnt := r }).buf) (hmeans : t'.Means s)
    (hshare : t'.share = t.share)
    (href : r = BitVec.ofNat 32 ((t' ::ₘ F).countP (·.onBuf b) + s.pins b))
    (hoff : ∀ b', b' ≠ b → t'.onBuf b' = t.onBuf b') (hlocks : ∀ b', t'.locks b' = t.locks b')
    (hdirty : ∀ b', t.dirty b' = false) : CacheInv pend { s with cache := c } (t' ::ₘ F) := by
  refine h.recount hring (same_of_modify hbuf)
    (forall_mem_cons.2 ⟨hmeans, fun u hu => h.means u (mem_cons_of_mem hu)⟩)
    (by simp only [countP_cons, hshare]) (fun b' => ?_)
    (fun b' => by simp only [countP_cons, hlocks]) h.pins h.cached h.nodup fun b' hv hd =>
      h.coh b' hv (forall_mem_cons.2 ⟨hdirty b', fun u hu => hd u (mem_cons_of_mem hu)⟩)
  rw [hbuf]
  rcases eq_or_ne b' b with rfl | hb'
  · rw [Bcache.modify_buf_self]
    exact href
  · rw [Bcache.modify_buf_of_ne _ _ _ hb', h.refs b']
    simp only [countP_cons, hoff b' hb']

lemma unref (h : CacheInv pend s (.buf b bn .gone ::ₘ F)) :
    CacheInv pend { s with cache := s.cache.unref b } (.credit ::ₘ F) := by
  have hrefs := h.refs b
  rw [countP_cons_of_pos _ (by simp), add_right_comm, BitVec.ofNat_add] at hrefs
  refine h.reref (h.ring.unref b) (Bcache.unref_buf ..) trivial rfl ?_
    (fun b' hb' => by simp [hb'.symm]) (fun b' => by simp [Mode.locks]) fun b' => by simp
  rw [hrefs, countP_cons_of_neg _ (by simp)]
  exact BitVec.add_sub_cancel ..

section

variable (h : CacheInv pend s (.credit ::ₘ F))
include h

/-- `bget` finds the buffer of the block. -/
lemma bget_hit (hdev : (s.cache.buf b).dev = ROOTDEV)
    (hbn : (s.cache.buf b).blockno = bn) :
    CacheInv pend { s with cache := s.cache.modify b fun x => { x with refcnt := x.refcnt + 1 } }
      (.buf b bn .wait ::ₘ F) := by
  have hrefs := h.refs b
  rw [countP_cons_of_neg _ (by simp)] at hrefs
  refine h.reref (h.ring.of_eq rfl rfl) rfl ⟨hdev, hbn, fun hm => by cases hm⟩ rfl ?_
    (fun b' hb' => by simp [hb'.symm]) (fun b' => by simp [Mode.locks]) fun b' => by simp
  rw [hrefs, countP_cons_of_pos _ (by simp), add_right_comm, BitVec.ofNat_add (x := _ + _)]
  rfl

/-- `bget` recycles a buffer that nobody refers to. -/
lemma bget_miss (hnew : ∀ b', (s.cache.buf b').dev = ROOTDEV → (s.cache.buf b').blockno ≠ bn)
    (hzero : (s.cache.buf b).refcnt = 0) (huniq : c.Unique)
    (hc : c = s.cache.modify b fun x =>
      { x with dev := ROOTDEV, blockno := bn, valid := false, refcnt := 1 }) :
    CacheInv pend { s with cache := c } (.buf b bn .wait ::ₘ F) := by
  obtain ⟨hnone, hpin⟩ := h.eq_zero_of_refcnt hzero
  have hnone : F.countP (·.onBuf b) = 0 := by rwa [countP_cons_of_neg _ (by simp)] at hnone
  have hself : c.buf b =
      { s.cache.buf b with dev := ROOTDEV, blockno := bn, valid := false, refcnt := 1 } := by
    rw [hc, Bcache.modify_buf_self]
  have hoff : ∀ b', b' ≠ b → c.buf b' = s.cache.buf b' := fun b' hb' => by
    rw [hc, Bcache.modify_buf_of_ne _ _ _ hb']
  have hpend : bn ∉ pend := by
    intro hmem
    obtain ⟨b', hd, hb'⟩ := h.cached bn hmem
    exact hnew b' hd hb'
  refine
    { ring := hc ▸ h.ring.of_eq rfl rfl, uniq := huniq, dev := fun b' hv => ?_
      means := forall_mem_cons.2 ⟨⟨?_, ?_, fun hm => by cases hm⟩, fun t ht => ?_⟩, total := ?_
      refs := fun b' => ?_, locks := fun b' => ?_, pins := fun b' => ?_, cached := fun n hn => ?_
      nodup := h.nodup, coh := fun b' hv hd => ?_ }
  · change (c.buf b').valid = true at hv
    rcases eq_or_ne b' b with rfl | hb'
    · rw [hself]
    · rw [hoff b' hb'] at hv ⊢
      exact h.dev b' hv
  · change (c.buf b).dev = ROOTDEV
    rw [hself]
  · change (c.buf b).blockno = bn
    rw [hself]
  · have hm := h.means t (mem_cons_of_mem ht)
    cases t with
    | buf b' bn' m =>
      have hb' : b' ≠ b := by simpa using countP_eq_zero.1 hnone _ ht
      change (c.buf b').dev = _ ∧ (c.buf b').blockno = _ ∧ (_ → (c.buf b').data = _)
      rw [hoff b' hb']
      exact hm
    | _ => trivial
  · have htotal := h.total
    rw [countP_cons_of_pos _ (by simp)] at htotal ⊢
    exact htotal
  · change (c.buf b').refcnt = BitVec.ofNat 32 (_ + s.pins b')
    rcases eq_or_ne b' b with rfl | hb'
    · rw [hself, countP_cons_of_pos _ (by simp), hnone, hpin]
      rfl
    have hrefs := h.refs b'
    rw [countP_cons_of_neg _ (by simp)] at hrefs
    rw [hoff b' hb', countP_cons_of_neg _ (by simp [hb'.symm]), hrefs]
  · change _ ≤ if (c.buf b').lock = none then 0 else 1
    have hle := h.locks b'
    rw [countP_cons_of_neg _ (by simp)] at hle
    rw [countP_cons_of_neg _ (by simp [Mode.locks])]
    rcases eq_or_ne b' b with rfl | hb'
    · rw [hself]
      exact hle
    · rw [hoff b' hb']
      exact hle
  · change s.pins b' = if (c.buf b').dev = ROOTDEV ∧ (c.buf b').blockno ∈ pend then 1 else 0
    rcases eq_or_ne b' b with rfl | hb'
    · rw [hself, hpin, if_neg fun hmem => hpend hmem.2]
    · rw [hoff b' hb']
      exact h.pins b'
  · obtain ⟨b', hd, hb'⟩ := h.cached n hn
    have hne : b' ≠ b := by
      rintro rfl
      have := h.pins b'
      rw [if_pos ⟨hd, hb' ▸ hn⟩] at this
      omega
    refine ⟨b', ?_, ?_⟩
    · change (c.buf b').dev = _
      rwa [hoff b' hne]
    · change (c.buf b').blockno = _
      rwa [hoff b' hne]
  · change (c.buf b').valid = true at hv
    rcases eq_or_ne b' b with rfl | hb'
    · rw [hself] at hv
      cases hv
    · rw [hoff b' hb'] at hv ⊢
      exact h.coh b' hv (forall_mem_cons.2 ⟨by simp, fun t ht => hd t (mem_cons_of_mem ht)⟩)

lemma bget (hget : s.cache.bget ROOTDEV bn = some (b, c)) :
    CacheInv pend { s with cache := c } (.buf b bn .wait ::ₘ F) := by
  rcases Bcache.bget_cases h.ring hget with ⟨hdev, hbn, rfl⟩ | ⟨hnew, hzero, hc⟩
  · exact h.bget_hit hdev hbn
  · exact h.bget_miss hnew hzero (h.uniq.bget h.ring hget) hc

end

/-! ### Pins -/

/-- A buffer is pinned or unpinned, as its block becomes pending or is installed. -/
lemma repin {pend' : List (BitVec 32)} {r : BitVec 32} {k : ℕ} (h : CacheInv pend s W)
    (hdev : (s.cache.buf b).dev = ROOTDEV)
    (hmem : ∀ n, n ≠ (s.cache.buf b).blockno → (n ∈ pend' ↔ n ∈ pend))
    (hpin : k = if (s.cache.buf b).blockno ∈ pend' then 1 else 0)
    (href : r = BitVec.ofNat 32 (W.countP (·.onBuf b) + k)) (hnodup : pend'.Nodup)
    (hcoh : (s.cache.buf b).valid = true → (∀ t ∈ W, t.dirty b = false) →
      (s.cache.buf b).data = s.disk (s.cache.buf b).blockno ∨ (s.cache.buf b).blockno ∈ pend') :
    CacheInv pend' { s with
      cache := s.cache.modify b fun x => { x with refcnt := r }
      pins := update s.pins b k } W := by
  -- the blocks of the other buffers are pending as before
  have hpend : ∀ b', b' ≠ b → (s.cache.buf b').dev = ROOTDEV →
      ((s.cache.buf b').blockno ∈ pend' ↔ (s.cache.buf b').blockno ∈ pend) :=
    fun b' hb' hroot => hmem _ (h.blockno_ne hdev hb' hroot)
  refine h.recount (h.ring.of_eq rfl rfl) (same_of_modify rfl) h.means rfl (fun b' => ?_)
    (fun _ => rfl) (fun b' => ?_) (fun n hn => ?_) hnodup fun b' hv hdirty => ?_
  · rcases eq_or_ne b' b with rfl | hb'
    · rw [Bcache.modify_buf_self, update_self]
      exact href
    · rw [Bcache.modify_buf_of_ne _ _ _ hb', update_of_ne hb', h.refs b']
  · rcases eq_or_ne b' b with rfl | hb'
    · rw [update_self, hpin]
      simp only [hdev, true_and]
    rw [update_of_ne hb', h.pins b']
    by_cases hroot : (s.cache.buf b').dev = ROOTDEV
    · simp only [hroot, true_and, hpend b' hb' hroot]
    · simp only [hroot, false_and]
  · by_cases hn' : n = (s.cache.buf b).blockno
    · exact ⟨b, hdev, hn'.symm⟩
    · exact h.cached n ((hmem n hn').1 hn)
  · rcases eq_or_ne b' b with rfl | hb'
    · exact hcoh hv hdirty
    · exact (h.coh b' hv hdirty).imp id (hpend b' hb' (h.dev b' hv)).2

/-- `bpin`, when the block is added to the header. -/
lemma bpin (h : CacheInv pend s W) (hdev : (s.cache.buf b).dev = ROOTDEV)
    (hnew : (s.cache.buf b).blockno ∉ pend) :
    CacheInv (pend ++ [(s.cache.buf b).blockno]) { s with
      cache := s.cache.bpin b, pins := update s.pins b (s.pins b + 1) } W := by
  have hpins := h.pins b
  rw [if_neg fun hmem => hnew hmem.2] at hpins
  refine h.repin hdev (fun n hn => by simp [hn]) ?_ ?_ ?_ fun _ _ => .inr (by simp)
  · simp [hpins]
  · rw [h.refs b, ← add_assoc, BitVec.ofNat_add (x := _ + _)]
    rfl
  · rw [List.nodup_append_comm]
    exact List.nodup_cons.2 ⟨hnew, h.nodup⟩

/-- `bunpin`, when the block is installed. -/
lemma bunpin (h : CacheInv (bn :: pend) s (.buf b bn .synced ::ₘ F)) : CacheInv pend
    { s with
      cache := s.cache.bunpin b, pins := update s.pins b (s.pins b - 1) }
      (.buf b bn .synced ::ₘ F) := by
  obtain ⟨hdev, hbn, hsync⟩ := h.means _ (mem_cons_self _ _)
  obtain ⟨hnot, hnodup⟩ := List.nodup_cons.1 h.nodup
  have hpins := h.pins b
  rw [if_pos ⟨hdev, hbn ▸ List.mem_cons_self ..⟩] at hpins
  refine h.repin hdev (fun n hn => ?_) ?_ ?_ hnodup fun _ _ => .inl ?_
  · rw [hbn] at hn
    simp [hn]
  · rw [hpins, hbn, if_neg hnot]
  · rw [h.refs b, hpins, BitVec.ofNat_add]
    exact BitVec.add_sub_cancel ..
  · rw [hbn]
    exact hsync rfl

end CacheInv

end Hexv6.Blk
