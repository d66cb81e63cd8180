import Hexv6.Log.Disk

/-!
# Transactions survive a loss of power

Whatever transactions are committed and wherever the power fails, in `commit` or again and
again in the recovery at boot, after a recovery that comes to its end the blocks outside
the log area are as if every transaction whose header was written had been applied at
once, and no other (`home_of_history`).

The disk is in one of two states.  It is `Idle` when the count in the header is 0, and then
the home blocks are what counts.  It is `Logged` when the header and the log area hold a
whole transaction, and then the contents of its home blocks do not matter: the recovery
will write them.  The write of the header in `commit` leads from the first to the second,
the write of the header at the end of `commit` or of the recovery leads back.
-/

namespace Hexv6.Log

open Lib List

/-- Where the log area is. -/
structure Layout where
  start : ℕ
  size : ℕ
  size_pos : 0 < size
  super_lt : 1 < start

/-- The block `b` is in the log area. -/
def Layout.InLog (g : Layout) (b : ℕ) : Prop := g.start ≤ b ∧ b < g.start + g.size

/-- A transaction: the home blocks recorded in `log.lh` with their cached contents.  They
are distinct, outside the log area and not the super block, and there are as many as
`log_write` lets in. -/
structure Txn (g : Layout) where
  blocks : List (ℕ × Block)
  nodup : (blocks.map Prod.fst).Nodup
  home : ∀ x ∈ blocks, ¬ g.InLog x.1 ∧ x.1 ≠ 1 ∧ x.1 < 2 ^ 32
  fits : blocks.length ≤ LOGSIZE ∧ blocks.length < g.size

variable {g : Layout}

/-- The entries of `log.lh`. -/
def Txn.lh (T : Txn g) : List ℕ := T.blocks.map Prod.fst

/-- The contents of the blocks after the transaction. -/
def Txn.apply (T : Txn g) (h : ℕ → Block) : ℕ → Block := fun b =>
  match T.blocks.lookup b with
  | some v => v
  | none => h b

/-- The machine before `commit`: the blocks of the transaction have been changed in the
cache. -/
def load (m : Machine ℕ Block) (T : Txn g) (power : ℕ) : Machine ℕ Block where
  disk := m.disk
  cache := T.apply m.cache
  power := power

/-- The machine boots with disk `d`, perhaps several times because the power fails in the
recovery, until the recovery comes to its end. -/
inductive Recovers : (ℕ → Block) → Machine ℕ Block → Prop
  | finish {d : ℕ → Block} {power : ℕ} {m : Machine ℕ Block}
      (h : fsinit (.boot d power) = .done () m) : Recovers d m
  | again {d : ℕ → Block} {power : ℕ} {m₁ m : Machine ℕ Block}
      (h : fsinit (.boot d power) = .crash m₁) (hr : Recovers m₁.disk m) : Recovers d m

/-- The machines reached from the disk `d`, with the transactions so far.  Each carries a
flag: whether the write of its header has reached the disk. -/
inductive History (g : Layout) (d : ℕ → Block) : List (Txn g × Bool) → Machine ℕ Block → Prop
  | boot (power : ℕ) : History g d [] (.boot d power)
  | commit {hist : List (Txn g × Bool)} {m m' : Machine ℕ Block} (T : Txn g) (power : ℕ)
      (h : History g d hist m) (hc : commit g.start T.lh (load m T power) = .done () m') :
      History g d (hist ++ [(T, true)]) m'
  | crash {hist : List (Txn g × Bool)} {m m₁ m' : Machine ℕ Block} (T : Txn g) (power : ℕ)
      (h : History g d hist m) (hc : commit g.start T.lh (load m T power) = .crash m₁)
      (hr : Recovers m₁.disk m') :
      History g d (hist ++ [(T, decide (g.start ∈ m₁.written))]) m'
  | reset {hist : List (Txn g × Bool)} {m m' : Machine ℕ Block} (h : History g d hist m)
      (hr : Recovers m.disk m') : History g d hist m'

/-- The blocks after the transactions whose flag is set. -/
def applied (hist : List (Txn g × Bool)) (d : ℕ → Block) : ℕ → Block :=
  hist.foldl (fun h x => if x.2 then x.1.apply h else h) d

/-- The super block of a disk: the magic number, and the start of the log. -/
structure Super (g : Layout) (d : ℕ → Block) : Prop where
  magic : word (d 1) 0 = FSMAGIC
  logstart : word (d 1) 5 = g.start

/-! ### The loops -/

variable {start : ℕ} {m m' : Machine ℕ Block} {d h : ℕ → Block} {T : Txn g}
  {C : Machine ℕ Block → Prop} {x : ℕ × Block} {b : ℕ}

/-- The block `b` is one of the `n` log blocks from `tail` on. -/
def DataBlock (start tail n b : ℕ) : Prop := start + tail < b ∧ b ≤ start + tail + n

lemma DataBlock.succ {tail n b : ℕ} (h : DataBlock start (tail + 1) n b) :
    DataBlock start tail (n + 1) b := by
  obtain ⟨h1, h2⟩ := h
  exact ⟨by omega, by omega⟩

lemma wp_writeLog : ∀ (bs : List (ℕ × Block)) (tail : ℕ) (m : Machine ℕ Block),
    (∀ x ∈ bs, m.cache x.1 = x.2 ∧ ¬ DataBlock start tail bs.length x.1) →
    wp (writeLog start tail (bs.map Prod.fst))
      (fun _ m' => m.Frame (DataBlock start tail bs.length) m' ∧
        ∀ i x, bs[i]? = some x → m'.disk (start + tail + i + 1) = x.2 ∧
          m'.cache (start + tail + i + 1) = x.2)
      (m.Frame (DataBlock start tail bs.length)) m := by
  intro bs
  induction bs with
  | nil =>
    intro tail m _
    exact ⟨.refl m, by simp⟩
  | cons x bs ih =>
    intro tail m hcache
    rw [length_cons] at hcache ⊢
    have hfirst : DataBlock start tail (bs.length + 1) (start + tail + 1) := ⟨by omega, by omega⟩
    rw [map_cons, writeLog, wp_bind, wp_bread, wp_bind, wp_setData, wp_bind,
      (hcache x (by simp)).1]
    refine wp_bwrite (.setData hfirst _ m) ?_
    have hframe := Machine.Frame.setData_wrote hfirst x.2 m
    -- the other blocks of the transaction are not the log block just written
    have hrest : ∀ y ∈ bs, ((m.setData (start + tail + 1) x.2).wrote (start + tail + 1)).cache y.1
        = y.2 ∧ ¬ DataBlock start (tail + 1) bs.length y.1 := by
      intro y hy
      obtain ⟨hy1, hy2⟩ := hcache y (by simp [hy])
      exact ⟨(hframe.cache _ hy2).trans hy1, fun hd => hy2 hd.succ⟩
    refine (ih (tail + 1) _ hrest).mono (fun _ m' hm' => ?_) fun m' hm' => ?_
    · refine ⟨hframe.trans (hm'.1.mono fun _ => DataBlock.succ), fun i y hi => ?_⟩
      cases i with
      | zero =>
        cases hi
        have hout : ¬ DataBlock start (tail + 1) bs.length (start + tail + 0 + 1) :=
          fun hd => by have := hd.1; omega
        rw [hm'.1.disk _ hout, hm'.1.cache _ hout]
        simp
      | succ i =>
        have := hm'.2 i y hi
        rwa [show start + (tail + 1) + i + 1 = start + tail + (i + 1) + 1 by omega] at this
    · exact hframe.trans (hm'.mono fun _ => DataBlock.succ)

lemma wp_installTrans : ∀ (bs : List (ℕ × Block)) (tail : ℕ) (m : Machine ℕ Block),
    (bs.map Prod.fst).Nodup →
    (∀ i x, bs[i]? = some x → m.cache (start + tail + i + 1) = x.2) →
    (∀ b ∈ bs.map Prod.fst, ¬ DataBlock start tail bs.length b) →
    wp (installTrans start tail (bs.map Prod.fst))
      (fun _ m' => m.Frame (· ∈ bs.map Prod.fst) m' ∧ ∀ x ∈ bs, m'.disk x.1 = x.2)
      (m.Frame (· ∈ bs.map Prod.fst)) m := by
  intro bs
  induction bs with
  | nil =>
    intro tail m _ _ _
    exact ⟨.refl m, by simp⟩
  | cons x bs ih =>
    intro tail m hnodup hcache hout
    rw [map_cons, nodup_cons] at hnodup
    rw [map_cons, length_cons] at hout
    have hx : ¬ DataBlock start tail (bs.length + 1) x.1 := hout x.1 (by simp)
    have hframe := Machine.Frame.setData_wrote (S := (· = x.1)) rfl x.2 m
    have hfirst : m.cache (start + tail + 1) = x.2 := hcache 0 x rfl
    rw [map_cons, installTrans, wp_bind, wp_bread, wp_bind, wp_setData, wp_bind, hfirst]
    refine wp_bwrite (.setData (mem_cons_self ..) _ m) ?_
    have hlog : ∀ i y, bs[i]? = some y → ((m.setData x.1 x.2).wrote x.1).cache
        (start + (tail + 1) + i + 1) = y.2 := by
      intro i y hi
      have hlt : i < bs.length := (List.getElem?_eq_some_iff.1 hi).1
      have hne : start + (tail + 1) + i + 1 ≠ x.1 := fun hc => hx ⟨by omega, by omega⟩
      rw [hframe.cache _ hne]
      have := hcache (i + 1) y hi
      rwa [show start + tail + (i + 1) + 1 = start + (tail + 1) + i + 1 by omega] at this
    refine (ih (tail + 1) _ hnodup.2 hlog fun b hb hd => hout b (by simp [hb]) hd.succ).mono
      (fun _ m' hm' => ?_) fun m' hm' => ?_
    · refine ⟨(hframe.mono fun b hb => by simp [hb]).trans
        (hm'.1.mono fun b hb => by simp [hb]), fun y hy => ?_⟩
      rcases mem_cons.1 hy with rfl | hy
      · rw [hm'.1.disk _ hnodup.1]
        simp
      · exact hm'.2 y hy
    · exact (hframe.mono fun b hb => by simp [hb]).trans (hm'.mono fun b hb => by simp [hb])

/-- Only the header block changes when the header is written. -/
lemma wp_writeHead (lh : List ℕ) {Q : Unit → Machine ℕ Block → Prop}
    (hC : ∀ m', m.Frame (· = start) m' → m'.disk = m.disk → m'.written = m.written → C m')
    (hQ : ∀ m' buf, m.Frame (· = start) m' → m'.disk start = putHead buf lh →
      start ∈ m'.written → Q () m') : wp (writeHead start lh) Q C m := by
  rw [writeHead, wp_bind, wp_bread, wp_bind, wp_setData]
  refine wp_bwrite (hC _ (.setData (S := (· = start)) rfl _ m) rfl rfl) ?_
  exact hQ _ (m.cache start) (.setData_wrote (S := (· = start)) rfl _ m) (by simp) (by simp)

/-! ### The two states of the disk -/

/-- The count in the header is 0, and outside the log area the disk holds `h`. -/
structure Idle (g : Layout) (d h : ℕ → Block) : Prop where
  head : word (d g.start) 0 = 0
  home : ∀ b, ¬ g.InLog b → d b = h b

/-- The log holds the transaction `T`; outside the log area and the blocks of `T` the disk
holds `h`. -/
structure Logged (T : Txn g) (d h : ℕ → Block) : Prop where
  head : ∃ buf, d g.start = putHead buf T.lh
  data : ∀ i x, T.blocks[i]? = some x → d (g.start + 0 + i + 1) = x.2
  home : ∀ b, ¬ g.InLog b → b ∉ T.lh → d b = h b

/-- A recovery leads from the disk `d` to the home blocks `h`. -/
def Recoverable (g : Layout) (d h : ℕ → Block) : Prop :=
  Idle g d h ∨ ∃ (T : Txn g) (h₀ : ℕ → Block), Logged T d h₀ ∧
    ∀ b, ¬ g.InLog b → h b = T.apply h₀ b

lemma Txn.mem_lh (T : Txn g) (hb : b ∈ T.lh) : ¬ g.InLog b ∧ b ≠ 1 ∧ b < 2 ^ 32 := by
  obtain ⟨x, hx, rfl⟩ := mem_map.1 hb
  exact T.home x hx

lemma Txn.lh_length (T : Txn g) : T.lh.length = T.blocks.length := length_map _

lemma Layout.start_inLog (g : Layout) : g.InLog g.start :=
  ⟨le_rfl, Nat.lt_add_of_pos_right g.size_pos⟩

/-- The log blocks of a transaction are in the log area. -/
lemma Txn.inLog_of_dataBlock (T : Txn g)
    (hb : DataBlock g.start 0 T.blocks.length b) : g.InLog b := by
  have := T.fits.2
  obtain ⟨h1, h2⟩ := hb
  exact ⟨by omega, by omega⟩

lemma lookup_eq_some_of_mem {bs : List (ℕ × Block)} (hnodup : (bs.map Prod.fst).Nodup)
    (hx : x ∈ bs) : bs.lookup x.1 = some x.2 := by
  induction bs with
  | nil => cases hx
  | cons y bs ih =>
    obtain ⟨b, v⟩ := y
    rw [map_cons, nodup_cons] at hnodup
    rcases mem_cons.1 hx with rfl | hx
    · simp
    have hne : x.1 ≠ b := fun hc => hnodup.1 (mem_map.2 ⟨x, hx, hc⟩)
    rw [lookup_cons, beq_false_of_ne hne]
    exact ih hnodup.2 hx

lemma Txn.apply_of_mem (T : Txn g) (hx : x ∈ T.blocks) (h : ℕ → Block) :
    T.apply h x.1 = x.2 := by
  simp only [Txn.apply, lookup_eq_some_of_mem T.nodup hx]

lemma Txn.apply_of_not_mem (T : Txn g) (hb : b ∉ T.lh) (h : ℕ → Block) :
    T.apply h b = h b := by
  have hnone : T.blocks.lookup b = none := by
    rw [lookup_eq_none_iff]
    intro x hx
    simp only [bne_iff_ne, ne_eq]
    rintro rfl
    exact hb (mem_map_of_mem hx)
  simp only [Txn.apply, hnone]

/-- Writing the home blocks does not disturb the log. -/
lemma Logged.frame (hl : Logged T m.disk h) (hf : m.Frame (· ∈ T.lh) m') : Logged T m'.disk h := by
  have hlog : ∀ b, g.InLog b → m'.disk b = m.disk b :=
    fun b hb => hf.disk b fun hc => (T.mem_lh hc).1 hb
  refine ⟨?_, fun i x hx => ?_, fun b hb hT => ?_⟩
  · rw [hlog _ g.start_inLog]
    exact hl.head
  · have hi : i < T.blocks.length := (List.getElem?_eq_some_iff.1 hx).1
    rw [hlog _ (T.inLog_of_dataBlock ⟨by omega, by omega⟩)]
    exact hl.data i x hx
  · rw [hf.disk b hT]
    exact hl.home b hb hT

/-- Clearing the header after all home blocks have been written. -/
lemma Logged.idle (hl : Logged T m.disk h) (hhome : ∀ x ∈ T.blocks, m.disk x.1 = x.2)
    (hf : m.Frame (· = g.start) m') {buf : Block} (hhead : m'.disk g.start = putHead buf []) :
    Idle g m'.disk (T.apply h) := by
  refine ⟨by rw [hhead]; exact word_putHead_zero buf (by simp), fun b hb => ?_⟩
  have hne : b ≠ g.start := fun hc => hb (hc ▸ g.start_inLog)
  rw [hf.disk b hne]
  by_cases hT : b ∈ T.lh
  · obtain ⟨x, hx, rfl⟩ := mem_map.1 hT
    rw [hhome x hx, T.apply_of_mem hx]
  · rw [hl.home b hb hT, T.apply_of_not_mem hT]

/-- Installing a logged transaction and clearing the header, the common end of `commit`
and of the recovery. -/
lemma wp_install_clear (hl : Logged T m.disk h)
    (hcache : ∀ i x, T.blocks[i]? = some x → m.cache (g.start + 0 + i + 1) = x.2)
    (hC : ∀ m', Logged T m'.disk h → (∃ ws, m'.written = m.written ++ ws) → C m') :
    wp (installTrans g.start 0 T.lh >>= fun _ => writeHead g.start [])
      (fun _ m' => Idle g m'.disk (T.apply h) ∧ g.start ∈ m'.written) C m := by
  have hout : ∀ b ∈ T.blocks.map Prod.fst, ¬ DataBlock g.start 0 T.blocks.length b :=
    fun b hb hd => (T.mem_lh hb).1 (T.inLog_of_dataBlock hd)
  rw [wp_bind]
  refine (wp_installTrans T.blocks 0 m T.nodup hcache hout).mono (fun _ m1 hm1 => ?_)
    fun m1 hm1 => ?_
  · obtain ⟨hf, hhome⟩ := hm1
    obtain ⟨ws, hws, -⟩ := hf.written
    refine wp_writeHead [] (fun m2 _ hd hw => ?_) fun m2 buf hf2 hhead hw => ?_
    · refine hC m2 ?_ ⟨ws, hw.trans hws⟩
      rw [hd]
      exact hl.frame hf
    · exact ⟨(hl.frame hf).idle hhome hf2 hhead, hw⟩
  · obtain ⟨ws, hws, -⟩ := hm1.written
    exact hC m1 (hl.frame hm1) ⟨ws, hws⟩

/-! ### Recovery -/

lemma Recoverable.super (hr : Recoverable g d h) (hs : Super g h) :
    word (d 1) 0 = FSMAGIC ∧ word (d 1) 5 = g.start := by
  have hout : ¬ g.InLog 1 := fun hc => by
    have := g.super_lt
    have := hc.1
    omega
  have heq : d 1 = h 1 := by
    rcases hr with hi | ⟨T, h0, hl, hh⟩
    · exact hi.home 1 hout
    · have hT : (1 : ℕ) ∉ T.lh := fun hc => (T.mem_lh hc).2.1 rfl
      rw [hl.home 1 hout hT, hh 1 hout, T.apply_of_not_mem hT]
  rw [heq]
  exact ⟨hs.magic, hs.logstart⟩

/-- A recovery from a recoverable disk ends with an idle disk, and a disk left by a loss
of power in it is recoverable to the same blocks. -/
theorem wp_fsinit (hr : Recoverable g d h) (hs : Super g h) (power : ℕ) :
    wp fsinit (fun _ m' => Idle g m'.disk h) (fun m' => Recoverable g m'.disk h)
      (.boot d power) := by
  obtain ⟨hmagic, hstart⟩ := hr.super hs
  rw [fsinit, wp_bind, wp_bread]
  show wp (if word (d 1) 0 ≠ FSMAGIC then fault else recoverFromLog (word (d 1) 5)) _ _ _
  rw [if_neg (not_not.2 hmagic), hstart, recoverFromLog, wp_bind]
  have hinLog := g.start_inLog
  rcases hr with hi | ⟨T, h0, hl, hh⟩
  · -- an idle disk: nothing is installed, the header is written once more
    refine wp_readHead_zero hi.head ?_
    refine wp_writeHead [] (fun m1 _ hd _ => .inl ?_) fun m1 buf hf hhead _ => ?_
    · rw [hd]
      exact hi
    refine ⟨by rw [hhead]; exact word_putHead_zero buf (by simp), fun b hb => ?_⟩
    have hne : b ≠ g.start := fun hc => hb (hc ▸ hinLog)
    rw [hf.disk b hne]
    exact hi.home b hb
  · obtain ⟨buf, hbuf⟩ := hl.head
    refine wp_readHead (T.lh_length ▸ T.fits.1) (fun b hb => (T.mem_lh hb).2.2) hbuf ?_
    refine (wp_install_clear hl hl.data fun m1 hl1 _ => .inr ⟨T, h0, hl1, hh⟩).mono
      (fun _ m1 hm1 => ?_) fun _ hm1 => hm1
    exact ⟨hm1.1.head, fun b hb => (hm1.1.home b hb).trans (hh b hb).symm⟩

lemma Recovers.idle (hrec : Recovers d m) (hr : Recoverable g d h) (hs : Super g h)
    : Idle g m.disk h := by
  induction hrec with
  | finish hx => exact (wp_fsinit hr hs _).of_done hx
  | again hx _ ih => exact ih ((wp_fsinit hr hs _).of_crash hx)

/-- `install_trans` makes one write for each block. -/
lemma wp_installTrans_power : ∀ (bs : List ℕ) (tail : ℕ) (m : Machine ℕ Block),
    bs.length ≤ m.power → wp (installTrans start tail bs)
      (fun _ m' => m'.power + bs.length = m.power) (fun _ => False) m := by
  intro bs
  induction bs with
  | nil =>
    intro tail m _
    simp [installTrans]
  | cons b bs ih =>
    intro tail m hp
    rw [length_cons] at hp ⊢
    rw [installTrans, wp_bind, wp_bread, wp_bind, wp_setData, wp_bind]
    refine wp_bwrite_of_power (by simp; omega) ?_
    refine (ih (tail + 1) _ (by simp; omega)).mono (fun _ m' hm' => ?_) fun _ hf => hf
    simp only [Machine.wrote, Machine.setData] at hm'
    omega

/-- From every recoverable disk a recovery comes to its end, if only the power lasts. -/
theorem exists_recovers (hr : Recoverable g d h) (hs : Super g h) : ∃ m, Recovers d m := by
  obtain ⟨hmagic, hstart⟩ := hr.super hs
  suffices hwp : wp fsinit (fun _ _ => True) (fun _ => False) (.boot d (LOGSIZE + 1)) by
    obtain ⟨_, m, hm⟩ := hwp.returns
    exact ⟨m, .finish hm⟩
  -- whatever list of at most `LOGSIZE` blocks the header names
  have hinstall : ∀ lh : List ℕ, lh.length ≤ LOGSIZE →
      wp (installTrans g.start 0 lh >>= fun _ => writeHead g.start [])
        (fun _ _ => True) (fun _ => False) (.boot d (LOGSIZE + 1)) := by
    intro lh hlen
    rw [wp_bind]
    refine (wp_installTrans_power lh 0 _ ?_).mono (fun _ m' hm' => ?_) fun _ hf => hf
    · exact Nat.le_succ_of_le hlen
    simp only [Machine.boot] at hm'
    rw [writeHead, wp_bind, wp_bread, wp_bind, wp_setData]
    exact wp_bwrite_of_power (by simp; omega) trivial
  rw [fsinit, wp_bind, wp_bread]
  show wp (if word (d 1) 0 ≠ FSMAGIC then fault else recoverFromLog (word (d 1) 5)) _ _ _
  rw [if_neg (not_not.2 hmagic), hstart, recoverFromLog, wp_bind]
  rcases hr with hi | ⟨T, h0, hl, -⟩
  · exact wp_readHead_zero hi.head (hinstall [] (by simp))
  obtain ⟨buf, hbuf⟩ := hl.head
  have hlen : T.lh.length ≤ LOGSIZE := T.lh_length ▸ T.fits.1
  exact wp_readHead hlen (fun b hb => (T.mem_lh hb).2.2) hbuf (hinstall _ hlen)

/-! ### Commits -/

/-- A commit of `T` ends with the header written and the transaction applied.  When the power fails
in it, the disk is as before if the header has not been written, and recoverable to the blocks after
the transaction if it has. -/
theorem wp_commit (hi : Idle g m.disk h) (T : Txn g) (power : ℕ) : wp (commit g.start T.lh)
      (fun _ m' => Idle g m'.disk (T.apply h) ∧ (T.blocks = [] ∨ g.start ∈ m'.written))
      (fun m' => (g.start ∉ m'.written ∧ Idle g m'.disk h) ∨
        (g.start ∈ m'.written ∧ Recoverable g m'.disk (T.apply h))) (load m T power) := by
  have hinLog := g.start_inLog
  rw [commit]
  split_ifs with hlen
  · have hcache : ∀ x ∈ T.blocks, (load m T power).cache x.1 = x.2 ∧
        ¬ DataBlock g.start 0 T.blocks.length x.1 := fun x hx =>
      ⟨T.apply_of_mem hx _, fun hd => (T.home x hx).1 (T.inLog_of_dataBlock hd)⟩
    -- up to the write of the header only log blocks change
    have hbefore : ∀ m1, (load m T power).Frame (DataBlock g.start 0 T.blocks.length) m1 →
        g.start ∉ m1.written ∧ Idle g m1.disk h := by
      intro m1 hf
      obtain ⟨ws, hws, hin⟩ := hf.written
      have hne : ¬ DataBlock g.start 0 T.blocks.length g.start := fun hd => by
        have := hd.1
        omega
      refine ⟨fun hw => ?_, ?_, fun b hb => ?_⟩
      · rw [hws] at hw
        exact hne (hin _ (by simpa [load] using hw))
      · rw [hf.disk _ hne]
        exact hi.head
      · rw [hf.disk b fun hd => hb (T.inLog_of_dataBlock hd)]
        exact hi.home b hb
    rw [wp_bind]
    refine (wp_writeLog T.blocks 0 _ hcache).mono (fun _ m1 hm1 => ?_) fun m1 hm1 =>
      .inl (hbefore m1 hm1)
    obtain ⟨hf1, hdata⟩ := hm1
    rw [wp_bind]
    refine wp_writeHead T.lh (fun m2 hf2 hd hw => .inl ?_) fun m2 buf hf2 hhead hw => ?_
    · rw [hd, hw]
      exact hbefore m1 hf1
    -- the transaction is in the log
    have hdata2 : ∀ i x, T.blocks[i]? = some x → m2.disk (g.start + 0 + i + 1) = x.2 ∧
        m2.cache (g.start + 0 + i + 1) = x.2 := by
      intro i x hx
      rw [hf2.disk _ (by omega), hf2.cache _ (by omega)]
      exact hdata i x hx
    have hl : Logged T m2.disk h := by
      refine ⟨⟨buf, hhead⟩, fun i x hx => (hdata2 i x hx).1, fun b hb _ => ?_⟩
      have hne : b ≠ g.start := fun hc => hb (hc ▸ hinLog)
      rw [hf2.disk b hne]
      exact (hbefore m1 hf1).2.home b hb
    refine (wp_install_clear hl (fun i x hx => (hdata2 i x hx).2) fun m3 hl3 hws =>
      .inr ⟨?_, ?_⟩).mono (fun _ _ hm => ⟨hm.1, .inr hm.2⟩) fun _ hm => hm
    · obtain ⟨ws, hws⟩ := hws
      rw [hws]
      exact mem_append_left _ hw
    · exact .inr ⟨T, h, hl3, fun b _ => rfl⟩
  · have hnil : T.blocks = [] := by
      rw [T.lh_length] at hlen
      exact eq_nil_of_length_eq_zero (by omega)
    refine ⟨⟨hi.head, fun b hb => ?_⟩, .inl hnil⟩
    rw [T.apply_of_not_mem (by simp [Txn.lh, hnil])]
    exact hi.home b hb

/-! ### Histories -/

lemma applied_snoc (hist : List (Txn g × Bool)) (T : Txn g) (b : Bool) (d : ℕ → Block) :
    applied (hist ++ [(T, b)]) d = if b then T.apply (applied hist d) else applied hist d := by
  simp [applied, foldl_append]

/-- No transaction changes the super block. -/
lemma applied_super (hist : List (Txn g × Bool)) (d : ℕ → Block) : applied hist d 1 = d 1 := by
  induction hist using reverseRecOn with
  | nil => rfl
  | append_singleton hist x ih =>
    obtain ⟨T, b⟩ := x
    have hT : (1 : ℕ) ∉ T.lh := fun hc => (T.mem_lh hc).2.1 rfl
    rw [applied_snoc]
    split_ifs
    · rw [T.apply_of_not_mem hT, ih]
    · exact ih

/-- After every history of commits, losses of power and recoveries that come to their end,
the blocks outside the log area are those after exactly the transactions whose header was
written, and the count in the header on disk is 0.  After a further loss of power in a
commit there is a recovery that comes to its end, and a commit that comes to its end has
written the header, unless the transaction is empty. -/
theorem home_of_history (hs : Super g d) (hhead : word (d g.start) 0 = 0)
    {hist : List (Txn g × Bool)} (hist_m : History g d hist m) :
    (∀ b, ¬ g.InLog b → m.disk b = applied hist d b) ∧ word (m.disk g.start) 0 = 0 ∧
      ∀ (T : Txn g) power m₁,
        (commit g.start T.lh (load m T power) = .crash m₁ → ∃ m', Recovers m₁.disk m') ∧
        (commit g.start T.lh (load m T power) = .done () m₁ →
          T.blocks = [] ∨ g.start ∈ m₁.written) := by
  have hsuper : ∀ hist : List (Txn g × Bool), Super g (applied hist d) := by
    intro hist
    constructor
    · rw [applied_super, hs.magic]
    · rw [applied_super, hs.logstart]
  suffices hidle : Idle g m.disk (applied hist d) by
    refine ⟨hidle.home, hidle.head, fun T power m₁ => ⟨fun hc => ?_, fun hc =>
      ((wp_commit hidle T power).of_done hc).2⟩⟩
    rcases (wp_commit hidle T power).of_crash hc with ⟨-, hm1⟩ | ⟨-, hm1⟩
    · exact exists_recovers (.inl hm1) (hsuper hist)
    have := hsuper (hist ++ [(T, true)])
    rw [applied_snoc] at this
    exact exists_recovers hm1 this
  induction hist_m with
  | boot power => exact ⟨hhead, fun _ _ => rfl⟩
  | commit T power _ hc ih =>
    rw [applied_snoc]
    exact ((wp_commit ih T power).of_done hc).1
  | @crash hist m m₁ m' T power _ hc hr ih =>
    have hm' : Idle g m'.disk (applied (hist ++ [(T, decide (g.start ∈ m₁.written))]) d) := by
      refine hr.idle ?_ (hsuper _)
      rw [applied_snoc]
      rcases (wp_commit ih T power).of_crash hc with ⟨hw, hm1⟩ | ⟨hw, hm1⟩
      · rw [if_neg (by simpa using hw)]
        exact .inl hm1
      · rw [if_pos (by simpa using hw)]
        exact hm1
    exact hm'
  | reset _ hr ih => exact hr.idle (.inl ih) (hsuper _)

/-- The layout that `mkfs` writes. -/
def mkfsLayout : Layout where
  start := 2
  size := LOGSIZE
  size_pos := by decide
  super_lt := by decide

/-- The super block that `mkfs` writes, as far as the log uses it. -/
def mkfsSuper : Block := fun i =>
  if i = 0 then .ofNat FSMAGIC else if i = 5 then 2 else 0

/-- A disk with this super block and nothing else. -/
def mkfsDisk : ℕ → Block := Function.update (fun _ _ => 0) 1 mkfsSuper

lemma super_mkfsDisk : Super mkfsLayout mkfsDisk := ⟨by decide, by decide⟩

/-- A transaction of two blocks. -/
def twoBlocks : Txn mkfsLayout where
  blocks := [(100, fun _ => 7), (40, fun _ => 9)]
  nodup := by decide
  home := by simp [Layout.InLog, mkfsLayout, LOGSIZE, MAXOPBLOCKS]
  fits := by decide

/-- The power fails in `commit` after the header and the first home block have been written,
then in the recovery after one write, and stays on in the second recovery. -/
lemma exists_twice : ∃ m₁ m', commit mkfsLayout.start twoBlocks.lh
    (load (.boot mkfsDisk 0) twoBlocks 4) = .crash m₁ ∧ mkfsLayout.start ∈ m₁.written ∧
    Recovers m₁.disk m' :=
  ⟨_, _, rfl, by decide, @Recovers.again _ 1 _ _ rfl (@Recovers.finish _ 3 _ rfl)⟩

/-- The theorem at this history. -/
theorem home_of_history_twice : ∃ m,
    History mkfsLayout mkfsDisk [(twoBlocks, true)] m ∧
    (∀ b, ¬ mkfsLayout.InLog b → m.disk b = applied [(twoBlocks, true)] mkfsDisk b) ∧
    word (m.disk mkfsLayout.start) 0 = 0 := by
  obtain ⟨m₁, m, hc, hw, hr⟩ := exists_twice
  have hm := History.crash twoBlocks 4 (.boot 0) hc hr
  rw [decide_eq_true hw] at hm
  obtain ⟨hhome, hhead, -⟩ := home_of_history super_mkfsDisk (by decide) hm
  exact ⟨m, hm, hhome, hhead⟩

end Hexv6.Log
