import Hexv6.Mkfs.Layout

/-!
# Appending to a file

`iappend` succeeds exactly if the file is not too long and the blocks are not used up, and then
the file has the bytes appended and all other files are as before.
-/

namespace Hexv6.Mkfs

open Lib State List Function
open Blk (Byte Block Inode)
open Ino (direct footprint mapping)

/-- The number of blocks of a file with `n` bytes. -/
def blocks (n : ℕ) : ℕ := (n + BSIZE - 1) / BSIZE

/-- The number of blocks for the first `c` blocks of a file. -/
def cost (c : ℕ) : ℕ := c + if NDIRECT < c then 1 else 0

/-- The number of blocks of the image when file `i` has `cap i` blocks. -/
def total (cap : ℕ → ℕ) : ℕ := nmeta + ∑ i ∈ Finset.range NINODES, cost (cap i)

/-- The bytes of a file are in its blocks. -/
def Contents (w : BitVec 32 → Block) (d : Inode) (bytes : List Byte) : Prop :=
  ∀ k b, bytes[k]? = some b → (w (mapping w d (k / BSIZE))).byte (k % BSIZE) = b

/-- The blocks have been given to the files. -/
structure Held (s : State) (node : ℕ → Inode) (cap : ℕ → ℕ) : Prop where
  len : s.img.len = FSSIZE
  layout : Layout s.img.blk node s.freeblock cap
  ind : ∀ i < NINODES, (node i).addrs indirect ≠ 0 ↔ NDIRECT < cap i
  total : s.freeblock = total cap

/-- The part of the state that `iappend` leaves alone before it writes the inode back. -/
structure Apart (s s' : State) : Prop where
  sect : ∀ k < nmeta, s'.img.sect k = s.img.sect k
  freeinode : s'.freeinode = s.freeinode

variable {s s' : State} {node : ℕ → Inode} {cap : ℕ → ℕ} {i j c : ℕ} {din din' : Inode}
  {x a : BitVec 32} {files : ℕ → List Byte} {k : ℕ} {n : ℕ} {p : List Byte}
  {w w' : BitVec 32 → Block} {d d' : Inode}

lemma Apart.refl (s : State) : Apart s s := ⟨fun _ _ => rfl, rfl⟩

lemma Apart.trans {s'' : State} (h : Apart s s') (h' : Apart s' s'') : Apart s s'' where
  sect k hk := (h'.sect k hk).trans (h.sect k hk)
  freeinode := h'.freeinode.trans h.freeinode

/-! ### Counting blocks -/

lemma cost_mono {c c' : ℕ} (h : c ≤ c') : cost c ≤ cost c' := by
  simp only [cost]
  split_ifs <;> omega

/-- What one file with more blocks costs. -/
lemma total_update (hi : i < NINODES) (cap : ℕ → ℕ) (c : ℕ) :
    total (update cap i c) + cost (cap i) = total cap + cost c := by
  have hsum : ∑ j ∈ Finset.range NINODES, cost (update cap i c j) + cost (cap i) =
      ∑ j ∈ Finset.range NINODES, cost (cap j) + cost (update cap i c i) :=
    sum_add_of_eq_off (f := fun j => cost (cap j)) (Finset.mem_range.mpr hi)
      fun j hj => by rw [update_of_ne hj]
  rw [update_self] at hsum
  simp only [total]
  omega

lemma total_update_mono (hi : i < NINODES) (cap : ℕ → ℕ) {c c' : ℕ} (h : c ≤ c') :
    total (update cap i c) ≤ total (update cap i c') := by
  have h1 := total_update hi cap c
  have h2 := total_update hi cap c'
  have := cost_mono h
  omega

/-! ### Writing blocks -/

/-- Writing a block by its address. -/
lemma blk_wsect (s : State) (x : BitVec 32) (b : Block) :
    (s.wsect x.toNat b).img.blk = update s.img.blk x b := by
  funext a
  rcases eq_or_ne a x with rfl | hne
  · rw [update_self]
    exact update_self ..
  · rw [update_of_ne hne]
    exact update_of_ne (fun h => hne (BitVec.eq_of_toNat_eq h)) ..

lemma len_wsect (hk : k < s.img.len) (b : Block) : (s.wsect k b).img.len = s.img.len :=
  max_eq_left hk

lemma apart_wsect (hk : nmeta ≤ k) (b : Block) : Apart s (s.wsect k b) where
  sect _ hj := update_of_ne (hj.trans_le hk).ne ..
  freeinode := rfl

lemma rsect_of_lt (hlen : s.img.len = FSSIZE) (hk : k < FSSIZE) :
    s.img.rsect k = .ok (s.img.sect k) := if_pos (hlen ▸ hk)

lemma rsect_of_ge (hlen : s.img.len = FSSIZE) (hk : ¬ k < FSSIZE) :
    s.img.rsect k = .error .die := if_neg (hlen ▸ hk)

namespace Held

/-- The blocks of inodes are blocks of the image, behind the metadata. -/
lemma mem_range (h : Held s node cap) (hi : i < NINODES)
    (ha : a ∈ footprint s.img.blk (node i)) : nmeta ≤ a.toNat ∧ a.toNat < FSSIZE := by
  obtain ⟨h1, h2⟩ := of_mem_given h.layout.fb_le (h.layout.mem_given hi ha)
  exact ⟨h1, h2.trans_le h.layout.fb_le⟩

end Held

/-! ### A block for the file -/

lemma allocWord_has (hlen : s.img.len = FSSIZE) (ha : a.toNat < FSSIZE)
    (hne : (s.img.blk a).word j ≠ 0) : s.allocWord a j = .ok (s, (s.img.blk a).word j) := by
  simp only [allocWord, rsect_of_lt hlen ha, bind, Except.bind]
  exact if_neg hne

lemma allocWord_new (hlen : s.img.len = FSSIZE) (ha : a.toNat < FSSIZE)
    (h₀ : (s.img.blk a).word j = 0) (hj : j < NINDIRECT) : s.allocWord a j =
      .ok (s.bump.wsect a.toNat ((s.img.blk a).setWord j s.nextBlock), s.nextBlock) := by
  simp only [allocWord, rsect_of_lt hlen ha, bind, Except.bind]
  rw [show s.img.sect a.toNat = s.img.blk a from rfl, if_pos h₀, Block.word_setWord_self _ _ hj]

lemma allocWord_die (hlen : s.img.len = FSSIZE) (ha : ¬ a.toNat < FSSIZE) :
    s.allocWord a j = .error .die := by
  simp only [allocWord, rsect_of_ge hlen ha, bind, Except.bind]

/-- The block is found in the indirect block. -/
lemma fileBlock_indirect (hd : ¬ c < NDIRECT) {s₁ : State}
    (h : s.allocAddr din indirect = (s₁, din')) :
    s.fileBlock din c =
      (s₁.allocWord (din'.addrs indirect) (c - NDIRECT)).map fun r => (r.1, din', r.2) := by
  rw [fileBlock, if_neg hd, h]
  cases hw : s₁.allocWord (din'.addrs indirect) (c - NDIRECT) <;>
    simp only [hw, bind, Except.bind, Except.map]

/-- `fileBlock` has found or made block `c` of file `i`. -/
structure Gives (s s' : State) (node : ℕ → Inode) (cap : ℕ → ℕ) (i c : ℕ) (din din' : Inode)
    (x : BitVec 32) : Prop where
  held : Held s' (update node i din') (update cap i (max (cap i) (c + 1)))
  keeps : Keeps s.img.blk (update node i din) s'.img.blk (update node i din') cap
  addr : x = mapping s'.img.blk din' c
  apart : Apart s s'
  type : din'.type = din.type

/-- The file has the block. -/
lemma fileBlock_has (h : Held s (update node i din) cap) (hi : i < NINODES)
    (hc : c < cap i) : ∃ x, s.fileBlock din c = .ok (s, din, x) ∧
    Gives s s node cap i c din din x := by
  have hm := h.layout.lt_of_cap hi hc
  have hne := (h.layout.mapped i hi c hm).mpr hc
  rw [update_self] at hne
  have hgives : Gives s s node cap i c din din (mapping s.img.blk din c) := by
    have hcap : update cap i (max (cap i) (c + 1)) = cap := by rw [max_eq_left hc, update_eq_self]
    exact ⟨hcap.symm ▸ h, fun _ _ _ _ => ⟨rfl, rfl⟩, rfl, .refl s, rfl⟩
  refine ⟨mapping s.img.blk din c, ?_, hgives⟩
  by_cases hd : c < NDIRECT
  · rw [Ino.mapping_of_direct hd] at hne ⊢
    rw [fileBlock, if_pos hd, allocAddr, if_neg hne]
  have hind : din.addrs indirect ≠ 0 := by
    intro h0
    rw [mapping, if_neg hd, if_pos h0] at hne
    exact hne rfl
  have hlt : (din.addrs indirect).toNat < FSSIZE := by
    refine (h.mem_range hi ?_).2
    rw [update_self]
    exact Ino.indirect_mem hind
  rw [Ino.mapping_of_indirect hd hind] at hne ⊢
  rw [fileBlock_indirect hd (if_neg hind), allocWord_has h.len hlt hne]
  rfl

/-- The first blocks of the file are given one after the other. -/
lemma max_cap (hc : cap i = c) : max (cap i) (c + 1) = c + 1 := by
  rw [hc]
  exact max_eq_right (Nat.le_succ c)

/-- What one more block of a file costs. -/
lemma total_next {k : ℕ} (h : Held s node cap) (hi : i < NINODES) (hc : cap i = c)
    (hcost : cost (c + 1) = cost c + k) :
    total (update cap i (max (cap i) (c + 1))) = s.freeblock + k := by
  have hupd := total_update hi cap (c + 1)
  rw [hc] at hupd
  rw [max_cap hc, h.total]
  omega

/-- The next block is given to the inode. -/
lemma fileBlock_direct (h : Held s (update node i din) cap) (hi : i < NINODES)
    (hc : cap i = c) (hd : c < NDIRECT) :
    s.fileBlock din c = .ok (s.bump, din.setAddr (direct c) s.nextBlock, s.nextBlock) ∧
      total (update cap i (max (cap i) (c + 1))) = s.freeblock + 1 ∧
      (s.freeblock < FSSIZE →
        Gives s s.bump node cap i c din (din.setAddr (direct c) s.nextBlock) s.nextBlock) := by
  have hm : c < MAXFILE := by
    simp only [MAXFILE]
    omega
  have hzero := h.layout.mapping_eq_zero hi hm hc.le
  rw [update_self, Ino.mapping_of_direct hd] at hzero
  have htotal := total_next h hi hc (k := 1)
    (by rw [cost, cost, if_neg (by omega), if_neg (by omega)])
  refine ⟨?_, htotal, fun hfb => ?_⟩
  · rw [fileBlock, if_pos hd, allocAddr, if_pos hzero]
    simp only [Inode.setAddr_self]
  obtain ⟨hlayout, hkeeps⟩ := h.layout.setDirect hi hfb hd hc
  rw [update_self, update_idem] at hlayout hkeeps
  refine ⟨⟨h.len, ?_, fun j hj => ?_, htotal.symm⟩, hkeeps, ?_, ⟨fun _ _ => rfl, rfl⟩, rfl⟩
  · rw [max_cap hc]
    exact hlayout
  · have hind := h.ind j hj
    rcases eq_or_ne j i with rfl | hji
    · rw [update_self] at hind
      rw [update_self, update_self, max_cap hc, Ino.direct_eq hd,
        din.setAddr_of_ne (Ino.castSucc_ne_indirect _).symm, hind]
      omega
    · rw [update_of_ne hji] at hind
      rw [update_of_ne hji, update_of_ne hji, hind]
  · rw [Ino.mapping_setDirect hd, if_pos rfl]

/-- The next block is given to an entry of the indirect block. -/
lemma allocWord_gives (hlen : s.img.len = FSSIZE)
    (h : Layout s.img.blk (update node i din) s.freeblock cap) (hi : i < NINODES)
    (hc : cap i = c) (hd : ¬ c < NDIRECT) (hm : c < MAXFILE) (hind : din.addrs indirect ≠ 0) :
    ∃ s', s.allocWord (din.addrs indirect) (c - NDIRECT) = .ok (s', s.nextBlock) ∧
      s'.freeblock = s.freeblock + 1 ∧ s'.img.len = FSSIZE ∧ (s.freeblock < FSSIZE →
        Layout s'.img.blk (update node i din) (s.freeblock + 1) (update cap i (c + 1)) ∧
        Keeps s.img.blk (update node i din) s'.img.blk (update node i din) cap ∧
        s.nextBlock = mapping s'.img.blk din c ∧ Apart s s') := by
  have hmem : nmeta ≤ (din.addrs indirect).toNat ∧ (din.addrs indirect).toNat < FSSIZE := by
    have hfoot : din.addrs indirect ∈ footprint s.img.blk (update node i din i) := by
      rw [update_self]
      exact Ino.indirect_mem hind
    obtain ⟨h1, h2⟩ := of_mem_given h.fb_le (h.mem_given hi hfoot)
    exact ⟨h1, h2.trans_le h.fb_le⟩
  have hzero := h.mapping_eq_zero hi hm hc.le
  rw [update_self, Ino.mapping_of_indirect hd hind] at hzero
  have hj : c - NDIRECT < NINDIRECT := by
    simp only [MAXFILE] at hm
    omega
  have hblk := blk_wsect s.bump (din.addrs indirect)
    ((s.img.blk (din.addrs indirect)).setWord (c - NDIRECT) s.nextBlock)
  refine ⟨_, allocWord_new hlen hmem.2 hzero hj, rfl, ?_, fun hfb => ?_⟩
  · rw [len_wsect (show _ < s.bump.img.len from hlen ▸ hmem.2)]
    exact hlen
  obtain ⟨hlayout, hkeeps⟩ := h.setWord hi hfb hd hm hc (by rw [update_self]) hind
  rw [hblk]
  refine ⟨hlayout, hkeeps, ?_, ⟨(apart_wsect hmem.1 _).sect, rfl⟩⟩
  exact ((Ino.mapping_setWord hind hd hm hm).trans (if_pos rfl)).symm

section

variable (h : Held s (update node i din) cap)
include h

lemma fileBlock_word (hi : i < NINODES)
    (hc : cap i = c) (hd : NDIRECT < c) (hm : c < MAXFILE) :
    ∃ s', s.fileBlock din c = .ok (s', din, s.nextBlock) ∧ s'.img.len = FSSIZE ∧
      total (update cap i (max (cap i) (c + 1))) = s.freeblock + 1 ∧
      (s.freeblock < FSSIZE → Gives s s' node cap i c din din s.nextBlock) := by
  have hind : din.addrs indirect ≠ 0 := by
    have := (h.ind i hi).mpr (hc ▸ hd)
    rwa [update_self] at this
  have htotal := total_next h hi hc (by rw [cost, cost, if_pos (by omega), if_pos hd])
  obtain ⟨s', hs', hfree, hlen, hgive⟩ := allocWord_gives h.len h.layout hi hc hd.not_gt hm hind
  refine ⟨s', ?_, hlen, htotal, fun hfb => ?_⟩
  · rw [fileBlock_indirect hd.not_gt (if_neg hind), hs']
    rfl
  obtain ⟨hlayout, hkeeps, haddr, hapart⟩ := hgive hfb
  refine ⟨⟨hlen, ?_, fun j hj => ?_, hfree.trans htotal.symm⟩, hkeeps, haddr, hapart, rfl⟩
  · rw [hfree, max_cap hc]
    exact hlayout
  rw [h.ind j hj]
  rcases eq_or_ne j i with rfl | hji
  · rw [update_self, max_cap hc]
    omega
  · rw [update_of_ne hji]

/-- The next two blocks are given to the file: the indirect block and the first in it. -/
lemma fileBlock_first (hi : i < NINODES)
    (hc : cap i = NDIRECT) :
    total (update cap i (max (cap i) (NDIRECT + 1))) = s.freeblock + 2 ∧
      (¬ s.freeblock < FSSIZE → s.fileBlock din NDIRECT = .error .die) ∧
      (s.freeblock < FSSIZE → ∃ s' din',
        s.fileBlock din NDIRECT = .ok (s', din', BitVec.ofNat 32 (s.freeblock + 1)) ∧
        s'.img.len = FSSIZE ∧ (s.freeblock + 1 < FSSIZE →
          Gives s s' node cap i NDIRECT din din' (BitVec.ofNat 32 (s.freeblock + 1)))) := by
  have hd : ¬ NDIRECT < NDIRECT := lt_irrefl _
  have hm : NDIRECT < MAXFILE := by decide
  have hind : din.addrs indirect = 0 := by
    have := (h.ind i hi).not.mpr (hc ▸ hd)
    rw [update_self] at this
    exact not_not.mp this
  have htotal := total_next h hi hc (k := 2) (by decide)
  have hfile := fileBlock_indirect hd (show s.allocAddr din indirect =
    (s.bump, din.setAddr indirect s.nextBlock) from if_pos hind)
  rw [din.setAddr_self] at hfile
  refine ⟨htotal, fun hfb => ?_, fun hfb => ?_⟩
  · rw [hfile, allocWord_die (s := s.bump) h.len]
    · rfl
    · rwa [nextBlock, toNat_ofNat h.layout.fb_le]
  obtain ⟨hlayout, hkeeps⟩ := h.layout.setIndirect hi hfb (by rw [update_self]; exact hind)
  rw [update_self, update_idem] at hlayout hkeeps
  have hne : (din.setAddr indirect s.nextBlock).addrs indirect ≠ 0 := by
    rw [din.setAddr_self]
    exact ofNat_ne_zero h.layout.fb_le h.layout.fb_ge
  obtain ⟨s', hs', hfree, hlen, hgive⟩ :=
    allocWord_gives (s := s.bump) h.len hlayout hi hc hd hm hne
  have hword : s.bump.allocWord s.nextBlock (NDIRECT - NDIRECT) = .ok (s', s.bump.nextBlock) := by
    rwa [din.setAddr_self] at hs'
  refine ⟨s', din.setAddr indirect s.nextBlock, ?_, hlen, fun hfb' => ?_⟩
  · rw [hfile, hword]
    rfl
  obtain ⟨hlayout', hkeeps', haddr, hapart⟩ := hgive hfb'
  refine ⟨⟨hlen, ?_, fun j hj => ?_, hfree.trans htotal.symm⟩, fun j hj bn hbn => ?_, haddr,
    ⟨hapart.sect, hapart.freeinode⟩, rfl⟩
  · rw [hfree, max_cap hc]
    exact hlayout'
  · have hind' := h.ind j hj
    rcases eq_or_ne j i with rfl | hji
    · rw [update_self, update_self, max_cap hc]
      exact iff_of_true hne (Nat.lt_succ_self _)
    rw [update_of_ne hji] at hind'
    rw [update_of_ne hji, update_of_ne hji]
    exact hind'
  -- the two blocks are given one after the other
  obtain ⟨h1, h2⟩ := hkeeps j hj bn hbn
  obtain ⟨h3, h4⟩ := hkeeps' j hj bn hbn
  exact ⟨h3.trans h1, (congrArg s'.img.blk h1.symm).trans (h4.trans (congrArg s.img.blk h1))⟩

/-- `fileBlock` succeeds with a block of the image exactly if there are enough blocks. -/
lemma fileBlock_spec (hi : i < NINODES)
    (hc : c ≤ cap i) (hm : c < MAXFILE) :
    (total (update cap i (max (cap i) (c + 1))) ≤ FSSIZE ∧
      ∃ s' din' x, s.fileBlock din c = .ok (s', din', x) ∧ Gives s s' node cap i c din din' x) ∨
    (FSSIZE < total (update cap i (max (cap i) (c + 1))) ∧
      ∀ s' din' x, s.fileBlock din c = .ok (s', din', x) → s'.img.rsect x.toNat = .error .die) := by
  have hle := h.layout.fb_le
  have hdie : ∀ {s' : State} {b : ℕ}, s'.img.len = FSSIZE → b = FSSIZE →
      s'.img.rsect (BitVec.ofNat 32 b).toNat = .error .die := by
    intro s' b hlen hb
    rw [toNat_ofNat hb.le, hb]
    exact rsect_of_ge hlen (lt_irrefl _)
  rcases hc.lt_or_eq with hlt | heq
  · obtain ⟨x, hs, hgives⟩ := fileBlock_has h hi hlt
    refine .inl ⟨?_, s, din, x, hs, hgives⟩
    rw [max_eq_left hlt, update_eq_self, ← h.total]
    exact hle
  rcases lt_trichotomy c NDIRECT with hd | rfl | hd
  · obtain ⟨hs, htotal, hgives⟩ := fileBlock_direct h hi heq.symm hd
    rw [htotal]
    rcases hle.lt_or_eq with hfb | hfb
    · exact .inl ⟨hfb, _, _, _, hs, hgives hfb⟩
    refine .inr ⟨by omega, fun s' din' x hs' => ?_⟩
    cases hs.symm.trans hs'
    exact hdie h.len hfb
  · obtain ⟨htotal, hfail, hok⟩ := fileBlock_first h hi heq.symm
    rw [htotal]
    rcases hle.lt_or_eq with hfb | hfb
    · obtain ⟨s1, din1, hs, hlen, hgives⟩ := hok hfb
      by_cases hfb' : s.freeblock + 1 < FSSIZE
      · exact .inl ⟨hfb', _, _, _, hs, hgives hfb'⟩
      refine .inr ⟨by omega, fun s' din' x hs' => ?_⟩
      cases hs.symm.trans hs'
      exact hdie hlen (by omega)
    · refine .inr ⟨by omega, fun s' din' x hs' => ?_⟩
      cases (hfail hfb.not_lt).symm.trans hs'
  · obtain ⟨s1, hs, hlen, htotal, hgives⟩ := fileBlock_word h hi heq.symm hd hm
    rw [htotal]
    rcases hle.lt_or_eq with hfb | hfb
    · exact .inl ⟨hfb, _, _, _, hs, hgives hfb⟩
    refine .inr ⟨by omega, fun s' din' x hs' => ?_⟩
    cases hs.symm.trans hs'
    exact hdie hlen hfb

end

/-! ### The loop -/

/-- The blocks have been given to the files and have their bytes. -/
structure Sound (s : State) (node : ℕ → Inode) (files : ℕ → List Byte) : Prop where
  held : Held s node fun j => blocks (files j).length
  contents : ∀ j < NINODES, Contents s.img.blk (node j) (files j)

lemma blocks_le : blocks n ≤ n / BSIZE + 1 ∧ n / BSIZE ≤ blocks n := by
  simp only [blocks, BSIZE]
  omega

lemma lt_blocks {n k : ℕ} (h : k < n) : k / BSIZE < blocks n := by
  simp only [blocks, BSIZE]
  omega

lemma chunk_le (off : ℕ) : chunk n off ≤ n ∧ chunk n off ≤ BSIZE - off % BSIZE := by
  simp only [chunk, BSIZE]
  omega

/-- After a chunk the file ends in the same block. -/
lemma blocks_add_chunk (off : ℕ) (hn : 0 < n) : blocks (off + chunk n off) = off / BSIZE + 1 := by
  have hpos := chunk_pos off hn
  have hle := (chunk_le (n := n) off).2
  simp only [blocks, BSIZE] at hle ⊢
  omega

/-- The bytes of the other blocks and the bytes before the chunk are unchanged, and the chunk
follows. -/
lemma Contents.append {bytes p : List Byte} {b : Block}
    (h : Contents w d bytes) (hp : p.length ≤ BSIZE - bytes.length % BSIZE)
    (hother : ∀ bn < blocks bytes.length, bn ≠ bytes.length / BSIZE →
      w' (mapping w' d' bn) = w (mapping w d bn))
    (hblock : w' (mapping w' d' (bytes.length / BSIZE)) = b.paste (bytes.length % BSIZE) p)
    (hold : bytes.length / BSIZE < blocks bytes.length →
      b = w (mapping w d (bytes.length / BSIZE))) : Contents w' d' (bytes ++ p) := by
  have hmod : ∀ k, k % BSIZE < BSIZE := fun k => Nat.mod_lt _ (by decide)
  intro k x hk
  rcases Nat.lt_or_ge k bytes.length with hlt | hge
  · rw [getElem?_append_left hlt] at hk
    have hbn := lt_blocks hlt
    by_cases heq : k / BSIZE = bytes.length / BSIZE
    · rw [heq] at hbn
      have hoff : k % BSIZE < bytes.length % BSIZE := by
        simp only [BSIZE] at heq ⊢
        omega
      rw [heq, hblock, Block.byte_paste _ _ _ (hmod k), if_neg (not_le.mpr hoff), hold hbn, ← heq]
      exact h k x hk
    · rw [hother _ hbn heq]
      exact h k x hk
  · rw [List.getElem?_append_right hge] at hk
    have hlen : k - bytes.length < p.length := (List.getElem?_eq_some_iff.mp hk).1
    have hpos : k / BSIZE = bytes.length / BSIZE ∧
        k % BSIZE = bytes.length % BSIZE + (k - bytes.length) := by
      simp only [BSIZE] at hp ⊢
      omega
    rw [hpos.1, hblock, Block.byte_paste _ _ _ (hmod k), hpos.2, if_pos (Nat.le_add_right _ _),
      Nat.add_sub_cancel_left, getD_eq_getElem?_getD, hk]
    rfl

lemma Contents.congr {bytes : List Byte}
    (h : Contents w d bytes)
    (hsame : ∀ bn < blocks bytes.length, w' (mapping w' d' bn) = w (mapping w d bn)) :
    Contents w' d' bytes := by
  intro k x hk
  rw [hsame _ (lt_blocks (List.getElem?_eq_some_iff.mp hk).1)]
  exact h k x hk

/-- A chunk is written to the block that has been found for it. -/
lemma Sound.write (h : Sound s (update node i din) files) (hi : i < NINODES)
    (hp : p.length ≤ BSIZE - (files i).length % BSIZE)
    (hblocks : blocks ((files i).length + p.length) = (files i).length / BSIZE + 1)
    (hg : Gives s s' node (fun j => blocks (files j).length) i
      ((files i).length / BSIZE) din din' x) :
    x.toNat < FSSIZE ∧ Sound (s'.wsect x.toNat ((s'.img.blk x).paste ((files i).length % BSIZE) p))
        (update node i din') (update files i (files i ++ p)) ∧
      Apart s (s'.wsect x.toNat ((s'.img.blk x).paste ((files i).length % BSIZE) p)) := by
  set off := (files i).length with hoff
  set cap : ℕ → ℕ := fun j => blocks (files j).length with hcap
  have hmax : max (cap i) (off / BSIZE + 1) = off / BSIZE + 1 := max_eq_right blocks_le.1
  obtain ⟨held, keeps, addr, apart, -⟩ := hg
  rw [hmax] at held
  have hc : off / BSIZE < update cap i (off / BSIZE + 1) i := by
    rw [update_self]
    exact Nat.lt_succ_self _
  have hnode : update node i din' i = din' := update_self ..
  have haddr : x = mapping s'.img.blk (update node i din' i) (off / BSIZE) := by
    rw [hnode]
    exact addr
  have hmem := held.mem_range hi (held.layout.mapping_mem hi hc).1
  rw [← haddr] at hmem
  obtain ⟨hlayout, hmap⟩ := held.layout.write hi hc ((s'.img.blk x).paste (off % BSIZE) p)
  rw [← haddr, ← blk_wsect] at hlayout hmap
  have hcap' : (fun j => blocks (update files i (files i ++ p) j).length) =
      update cap i (off / BSIZE + 1) := by
    funext j
    rcases eq_or_ne j i with rfl | hji
    · rw [update_self, update_self, length_append]
      exact hblocks
    · rw [update_of_ne hji, update_of_ne hji]
  -- a block of a file at another position than the one that is written
  have hframe : ∀ j < NINODES, ∀ bn < cap j, (j = i → bn ≠ off / BSIZE) →
      (s'.wsect x.toNat ((s'.img.blk x).paste (off % BSIZE) p)).img.blk
        (mapping (s'.wsect x.toNat ((s'.img.blk x).paste (off % BSIZE) p)).img.blk
          (update node i din' j) bn) =
      s.img.blk (mapping s.img.blk (update node i din j) bn) := by
    intro j hj bn hbn hne
    obtain ⟨h1, h2⟩ := keeps j hj bn hbn
    have hbn' : bn < update cap i (off / BSIZE + 1) j := by
      rcases eq_or_ne j i with rfl | hji
      · rw [update_self]
        exact hbn.trans_le blocks_le.1
      · rwa [update_of_ne hji]
    have hne' : mapping s'.img.blk (update node i din' j) bn ≠ x := by
      intro heq
      obtain ⟨hji, hbo⟩ := held.layout.mapping_unique hj hi hbn' hc (heq.trans haddr)
      exact hne hji hbo
    rw [hmap j hj, blk_wsect, update_of_ne hne', h1, h2]
  refine ⟨hmem.2, ⟨⟨?_, ?_, ?_, ?_⟩, fun j hj => ?_⟩, apart.trans (apart_wsect hmem.1 _)⟩
  · rw [len_wsect (held.len ▸ hmem.2)]
    exact held.len
  · rw [hcap']
    exact hlayout
  · intro j hj
    rw [held.ind j hj, ← hcap']
  · rw [hcap']
    exact held.total
  · rcases eq_or_ne j i with rfl | hji
    · have hcontents := h.contents j hj
      have hself := fun bn hbn hne => hframe j hj bn hbn fun _ => hne
      rw [update_self] at hcontents
      simp only [update_self] at hself ⊢
      refine hcontents.append hp hself (b := s'.img.blk x) ?_ fun hbn => ?_
      · rw [← hnode, hmap j hj, ← haddr, blk_wsect, update_self]
      · obtain ⟨h1, h2⟩ := keeps j hj _ hbn
        rw [haddr, h1, h2, update_self]
    · rw [show update files i (files i ++ p) j = files j from update_of_ne hji ..]
      exact (h.contents j hj).congr fun bn hbn => hframe j hj bn hbn fun heq => absurd heq hji

/-- The files are not too long, and there are enough blocks for all of them. -/
def Fits (files : ℕ → List Byte) : Prop :=
  (∀ i < NINODES, (files i).length ≤ MAXFILE * BSIZE) ∧
    total (fun i => blocks (files i).length) ≤ FSSIZE

lemma Sound.fits (h : Sound s node files) : Fits files := by
  refine ⟨fun i hi => ?_, h.held.total ▸ h.held.layout.fb_le⟩
  have hle := h.held.layout.cap_le i hi
  simp only [blocks, BSIZE] at hle ⊢
  omega

/-- With more bytes the files fit less. -/
lemma not_fits_of_blocks (hi : i < NINODES)
    (hc : c ≤ blocks ((files i).length + p.length))
    (h : FSSIZE < total (update (fun j => blocks (files j).length) i c)) :
    ¬ Fits (update files i (files i ++ p)) := by
  rintro ⟨-, hle⟩
  have hcap : (fun j => blocks (update files i (files i ++ p) j).length) =
      update (fun j => blocks (files j).length) i (blocks ((files i).length + p.length)) := by
    funext j
    rcases eq_or_ne j i with rfl | hji
    · rw [update_self, update_self, length_append]
    · rw [update_of_ne hji, update_of_ne hji]
  rw [hcap] at hle
  have := total_update_mono hi (fun j => blocks (files j).length) hc
  omega

/-- The loop of `iappend` succeeds exactly if the bytes fit. -/
lemma iappendFrom_spec (hi : i < NINODES) {off : ℕ}
    (h : Sound s (update node i din) files) (hoff : (files i).length = off) :
    (Fits (update files i (files i ++ p)) ∧
      ∃ s' din', s.iappendFrom din off p = .ok (s', din', off + p.length) ∧
        Sound s' (update node i din') (update files i (files i ++ p)) ∧
        Apart s s' ∧ din'.type = din.type) ∨
    (¬ Fits (update files i (files i ++ p)) ∧ ∀ r, s.iappendFrom din off p ≠ .ok r) := by
  induction hn : p.length using Nat.strong_induction_on generalizing p off s din files with
  | _ n ih =>
  by_cases hp : p = []
  · subst hp
    refine .inl ?_
    rw [append_nil, update_eq_self]
    refine ⟨h.fits, s, din, ?_, h, .refl s, rfl⟩
    rw [iappendFrom, if_pos rfl]
    simpa using hn.symm
  have hpos : 0 < p.length := length_pos_iff.mpr hp
  by_cases hm : off / BSIZE < MAXFILE
  case neg =>
    refine .inr ⟨fun hfits => ?_, fun r hr => ?_⟩
    · have hlen := hfits.1 i hi
      rw [update_self, length_append, hoff] at hlen
      simp only [BSIZE] at hm hlen
      omega
    · rw [iappendFrom, if_neg hp, if_neg hm] at hr
      cases hr
  have hblocks := blocks_add_chunk off hpos
  have hchunk := chunk_le (n := p.length) off
  have htake : (p.take (chunk p.length off)).length = chunk p.length off := by
    rw [length_take]
    exact min_eq_left hchunk.1
  have hmod : off - off / BSIZE * BSIZE = off % BSIZE := by
    simp only [BSIZE]
    omega
  have hstep : ∀ {s' din' x}, s.fileBlock din (off / BSIZE) = .ok (s', din', x) →
      s.iappendFrom din off p = (s'.img.rsect x.toNat).bind fun buf =>
        (s'.wsect x.toNat (buf.paste (off % BSIZE) (p.take (chunk p.length off)))).iappendFrom din'
          (off + chunk p.length off) (p.drop (chunk p.length off)) := by
    intro s' din' x hs
    rw [iappendFrom, if_neg hp, if_pos hm, hs, ← hmod]
    rfl
  have hmax : max (blocks (files i).length) (off / BSIZE + 1) = off / BSIZE + 1 := by
    rw [hoff]
    exact max_eq_right blocks_le.1
  rcases fileBlock_spec h.held hi (hoff ▸ blocks_le.2) hm with
    ⟨-, s', din', x, hs, hg⟩ | ⟨hfull, hfail⟩
  · subst hoff
    obtain ⟨hx, hsound, hapart⟩ := h.write hi
      (by rw [htake]; exact hchunk.2) (by rw [htake]; exact hblocks) hg
    have hread : s'.img.rsect x.toNat = .ok (s'.img.blk x) := rsect_of_lt hg.held.len hx
    have hfiles : update (update files i (files i ++
        p.take (chunk p.length (files i).length))) i (update files i (files i ++
        p.take (chunk p.length (files i).length)) i ++ p.drop (chunk p.length (files i).length)) =
        update files i (files i ++ p) := by
      rw [update_idem, update_self, append_assoc, take_append_drop]
    have hlen : (p.drop (chunk p.length (files i).length)).length =
        p.length - chunk p.length (files i).length := length_drop
    have hlt := chunk_pos (files i).length hpos
    have hrec := ih _ (by rw [← hn]; omega) hsound (by rw [update_self, length_append, htake]) hlen
    rw [hfiles] at hrec
    rw [hstep hs, hread]
    rcases hrec with ⟨hfits, s'', din'', hs'', hsound', hapart', htype⟩ | hfail
    · refine .inl ⟨hfits, s'', din'', ?_, hsound', hapart.trans hapart', htype.trans hg.type⟩
      refine hs''.trans ?_
      rw [show (files i).length + chunk p.length (files i).length +
        (p.length - chunk p.length (files i).length) = (files i).length + n by omega]
    · exact .inr hfail
  · refine .inr ⟨not_fits_of_blocks hi ?_ hfull, fun r hr => ?_⟩
    · rw [hmax, hoff, ← hblocks]
      refine Nat.div_le_div_right ?_
      omega
    cases hs : s.fileBlock din (off / BSIZE) with
    | error e =>
      rw [iappendFrom, if_neg hp, if_pos hm, hs] at hr
      cases hr
    | ok t =>
      obtain ⟨s', din', x⟩ := t
      rw [hstep hs, hfail s' din' x hs] at hr
      cases hr

end Hexv6.Mkfs
