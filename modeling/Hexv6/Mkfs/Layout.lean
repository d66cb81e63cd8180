import Hexv6.Mkfs.Image

/-!
# Blocks handed out in order

What holds of the inodes and blocks of the image while `iappend` gives blocks to files: the
blocks of all inodes together are those below the counter, each once, file `i` has its first
`cap i` blocks, and the blocks from the counter on are clear.
-/

namespace Hexv6.Mkfs

open Lib Finset Function
open Blk (Block Inode)
open Ino (direct footprint mapping)

/-- The blocks below the counter. -/
def given (fb : ℕ) : Multiset (BitVec 32) := (Ico nmeta fb).val.map (BitVec.ofNat 32)

structure Layout (w : BitVec 32 → Block) (node : ℕ → Inode) (fb : ℕ) (cap : ℕ → ℕ) : Prop where
  fb_ge : nmeta ≤ fb
  fb_le : fb ≤ FSSIZE
  sum : ∑ i ∈ range NINODES, footprint w (node i) = given fb
  clear : ∀ b, fb ≤ b → b < FSSIZE → w (BitVec.ofNat 32 b) = .zero
  mapped : ∀ i < NINODES, ∀ bn < MAXFILE, mapping w (node i) bn ≠ 0 ↔ bn < cap i
  cap_le : ∀ i < NINODES, cap i ≤ MAXFILE

/-- The blocks of the files stay where they are, with what is in them. -/
def Keeps (w : BitVec 32 → Block) (node : ℕ → Inode) (w' : BitVec 32 → Block)
    (node' : ℕ → Inode) (cap : ℕ → ℕ) : Prop :=
  ∀ i < NINODES, ∀ bn < cap i, mapping w' (node' i) bn = mapping w (node i) bn ∧
    w' (mapping w (node i) bn) = w (mapping w (node i) bn)

variable {w w' : BitVec 32 → Block} {node node' : ℕ → Inode} {fb i j bn c : ℕ} {cap : ℕ → ℕ}
  {a : BitVec 32}

/-! ### Addresses -/

lemma toNat_ofNat {b : ℕ} (hb : b ≤ FSSIZE) : (BitVec.ofNat 32 b).toNat = b := by
  rw [BitVec.toNat_ofNat]
  refine Nat.mod_eq_of_lt ?_
  simp only [FSSIZE] at hb
  omega

lemma ofNat_ne_zero {b : ℕ} (hb : b ≤ FSSIZE) (h : nmeta ≤ b) : BitVec.ofNat 32 b ≠ 0 := by
  intro h0
  have hnat := toNat_ofNat hb
  rw [h0] at hnat
  have : 0 < nmeta := by decide
  simp only [BitVec.ofNat_eq_ofNat, BitVec.toNat_ofNat, Nat.zero_mod] at hnat
  omega

lemma given_succ (h : nmeta ≤ fb) : given (fb + 1) = BitVec.ofNat 32 fb ::ₘ given fb := by
  have hins : Ico nmeta (fb + 1) = insert fb (Ico nmeta fb) := by
    ext b
    simp only [mem_Ico, mem_insert]
    omega
  have hnot : fb ∉ Ico nmeta fb := by simp
  rw [given, hins, insert_val_of_notMem hnot, Multiset.map_cons, given]

lemma of_mem_given (hfb : fb ≤ FSSIZE) (h : a ∈ given fb) : nmeta ≤ a.toNat ∧ a.toNat < fb := by
  obtain ⟨b, hb, rfl⟩ := Multiset.mem_map.mp h
  obtain ⟨h1, h2⟩ := mem_Ico.mp (mem_def.mpr hb)
  rw [toNat_ofNat (h2.le.trans hfb)]
  exact ⟨h1, h2⟩

lemma nodup_given (hfb : fb ≤ FSSIZE) : (given fb).Nodup := by
  refine Multiset.Nodup.map_on (fun x hx y hy hxy => ?_) (nodup _)
  have hx' := (mem_Ico.mp (mem_def.mpr hx)).2
  have hy' := (mem_Ico.mp (mem_def.mpr hy)).2
  have h := congrArg BitVec.toNat hxy
  rwa [toNat_ofNat (hx'.le.trans hfb), toNat_ofNat (hy'.le.trans hfb)] at h

namespace Layout

section

variable (h : Layout w node fb cap)
include h

lemma nodup :
    (∑ i ∈ range NINODES, footprint w (node i)).Nodup := by
  rw [h.sum]
  exact nodup_given h.fb_le

lemma nodup_footprint (hi : i < NINODES) :
    (footprint w (node i)).Nodup :=
  nodup_of_sum (g := fun i => footprint w (node i)) h.nodup (mem_range.mpr hi)

/-- A block belongs to one inode. -/
lemma owner_unique (hi : i < NINODES) (hj : j < NINODES)
    (ha : a ∈ footprint w (node i)) (ha' : a ∈ footprint w (node j)) : i = j :=
  eq_of_mem_sum (g := fun i => footprint w (node i)) h.nodup (mem_range.mpr hi)
    (mem_range.mpr hj) ha ha'

lemma mem_given (hi : i < NINODES) (ha : a ∈ footprint w (node i)) :
    a ∈ given fb := by
  rw [← h.sum]
  exact Multiset.mem_sum.mpr ⟨i, mem_range.mpr hi, ha⟩

lemma lt_of_cap (hi : i < NINODES) (hbn : bn < cap i) : bn < MAXFILE :=
  hbn.trans_le (h.cap_le i hi)

/-- The blocks of files are blocks of their inodes. -/
lemma mapping_mem (hi : i < NINODES) (hbn : bn < cap i) :
    mapping w (node i) bn ∈ footprint w (node i) ∧
      mapping w (node i) bn ≠ (node i).addrs indirect :=
  Ino.mapping_mem (h.nodup_footprint hi) (h.lt_of_cap hi hbn)
    ((h.mapped i hi bn (h.lt_of_cap hi hbn)).mpr hbn)

/-- No block is at two positions. -/
lemma mapping_unique (hi : i < NINODES) (hj : j < NINODES)
    (hbn : bn < cap i) (hc : c < cap j) (heq : mapping w (node i) bn = mapping w (node j) c) :
    i = j ∧ bn = c := by
  have hmem := (h.mapping_mem hi hbn).1
  have hmem' := (h.mapping_mem hj hc).1
  rw [← heq] at hmem'
  obtain rfl := h.owner_unique hi hj hmem hmem'
  refine ⟨rfl, Ino.mapping_inj (h.nodup_footprint hi) (h.lt_of_cap hi hbn)
    (h.lt_of_cap hi hc) ?_ heq⟩
  exact (h.mapped i hi bn (h.lt_of_cap hi hbn)).mpr hbn

/-- No file has its blocks in an indirect block. -/
lemma mapping_ne_indirect (hi : i < NINODES) (hj : j < NINODES)
    (hbn : bn < cap i) (hind : (node j).addrs indirect ≠ 0) :
    mapping w (node i) bn ≠ (node j).addrs indirect := by
  intro heq
  obtain ⟨hmem, hne⟩ := h.mapping_mem hi hbn
  rw [heq] at hmem
  obtain rfl := h.owner_unique hi hj hmem (Ino.indirect_mem hind)
  exact hne heq

/-- The next block is not in use. -/
lemma ne_next (hi : i < NINODES) (ha : a ∈ footprint w (node i))
    {b : ℕ} (hb : fb ≤ b) (hb' : b ≤ FSSIZE) : a ≠ BitVec.ofNat 32 b := by
  rintro rfl
  have := (of_mem_given h.fb_le (h.mem_given hi ha)).2
  rw [toNat_ofNat hb'] at this
  omega

/-- Only data blocks and addresses matter. -/
lemma congr (hw : ∀ a, nmeta ≤ a.toNat → w' a = w a)
    (hn : ∀ i < NINODES, (node' i).addrs = (node i).addrs) : Layout w' node' fb cap := by
  have hind : ∀ i < NINODES, (node i).addrs indirect ≠ 0 →
      w' ((node i).addrs indirect) = w ((node i).addrs indirect) := by
    intro i hi hne
    exact hw _ (of_mem_given h.fb_le (h.mem_given hi (Ino.indirect_mem hne))).1
  have hfoot : ∀ i < NINODES, footprint w' (node' i) = footprint w (node i) := by
    intro i hi
    rw [Ino.footprint_of_addrs (hn i hi), Ino.footprint_congr (hind i hi)]
  refine { h with sum := ?_, clear := fun b hb hb' => ?_, mapped := fun i hi bn hbn => ?_ }
  · rw [sum_congr rfl fun i hi => hfoot i (mem_range.mp hi)]
    exact h.sum
  · rw [hw _ (by rw [toNat_ofNat hb'.le]; exact h.fb_ge.trans hb)]
    exact h.clear b hb hb'
  · rw [Ino.mapping_of_addrs (hn i hi), Ino.mapping_congr (hind i hi)]
    exact h.mapped i hi bn hbn

/-- File `i` gets block `c`, at address `a`, which is the next one. -/
lemma extend (hi : i < NINODES) (hfb : fb < FSSIZE) (hc : c < MAXFILE)
    (hcap : cap i = c)
    (hfoot : footprint w' (node' i) = BitVec.ofNat 32 fb ::ₘ footprint w (node i))
    (hself : ∀ bn < MAXFILE, mapping w' (node' i) bn =
      if bn = c then BitVec.ofNat 32 fb else mapping w (node i) bn)
    (hother : ∀ j < NINODES, j ≠ i → footprint w' (node' j) = footprint w (node j) ∧
      ∀ bn, mapping w' (node' j) bn = mapping w (node j) bn)
    (hclear : ∀ b, fb ≤ b → b < FSSIZE → w' (BitVec.ofNat 32 b) = w (BitVec.ofNat 32 b)) :
    Layout w' node' (fb + 1) (update cap i (c + 1)) := by
  refine
    { fb_ge := h.fb_ge.trans (Nat.le_succ fb), fb_le := hfb, sum := ?_
      clear := fun b hb hb' => ?_, mapped := fun j hj bn hbn => ?_, cap_le := fun j hj => ?_ }
  · rw [given_succ h.fb_ge, ← h.sum]
    -- only numbers below NINODES count
    have hsum : ∑ j ∈ range NINODES, footprint w' (node' j) =
        ∑ j ∈ range NINODES, if j = i then footprint w' (node' i) else footprint w (node j) := by
      refine sum_congr rfl fun j hj => ?_
      split_ifs with hji
      · rw [hji]
      · exact (hother j (mem_range.mp hj) hji).1
    rw [hsum]
    exact sum_cons_of_eq_off (mem_range.mpr hi) (fun j hj => if_neg hj)
      (by rw [if_pos rfl, hfoot])
  · rw [hclear b (by omega) hb']
    exact h.clear b (by omega) hb'
  · rcases eq_or_ne j i with rfl | hji
    · rw [hself bn hbn, update_self]
      split_ifs with heq
      · exact iff_of_true (ofNat_ne_zero h.fb_le h.fb_ge) (by omega)
      · rw [h.mapped j hj bn hbn, hcap]
        omega
    · rw [(hother j hj hji).2, update_of_ne hji]
      exact h.mapped j hj bn hbn
  · rcases eq_or_ne j i with rfl | hji
    · rw [update_self]
      exact hc
    · rw [update_of_ne hji]
      exact h.cap_le j hj

/-- The address of a block that the file does not have. -/
lemma mapping_eq_zero (hi : i < NINODES) (hbn : bn < MAXFILE)
    (hcap : cap i ≤ bn) : mapping w (node i) bn = 0 := by
  by_contra hne
  exact absurd ((h.mapped i hi bn hbn).mp hne) (not_lt.mpr hcap)

/-- A direct block. -/
lemma setDirect (hi : i < NINODES) (hfb : fb < FSSIZE) (hc : c < NDIRECT)
    (hcap : cap i = c) :
    Layout w (update node i ((node i).setAddr (direct c) (BitVec.ofNat 32 fb))) (fb + 1)
        (update cap i (c + 1)) ∧
      Keeps w node w (update node i ((node i).setAddr (direct c) (BitVec.ofNat 32 fb)))
        cap := by
  have hm : c < MAXFILE := by
    simp only [MAXFILE]
    omega
  have hzero := h.mapping_eq_zero hi hm hcap.le
  rw [Ino.mapping_of_direct hc, Ino.direct_eq hc] at hzero
  constructor
  · refine h.extend hi hfb hm hcap ?_ (fun bn _ => ?_) (fun j _ hji => ?_) fun _ _ _ => rfl
    · rw [update_self, Ino.direct_eq hc]
      exact Ino.footprint_setDirect _ hzero (ofNat_ne_zero h.fb_le h.fb_ge)
    · rw [update_self, Ino.mapping_setDirect hc]
    · rw [update_of_ne hji]
      exact ⟨rfl, fun _ => rfl⟩
  intro j hj bn hbn
  refine ⟨?_, rfl⟩
  rcases eq_or_ne j i with rfl | hji
  · rw [update_self, Ino.mapping_setDirect hc, if_neg (by omega)]
  · rw [update_of_ne hji]

/-- A block for the indirect block. -/
lemma setIndirect (hi : i < NINODES) (hfb : fb < FSSIZE)
    (hind : (node i).addrs indirect = 0) :
    Layout w (update node i ((node i).setAddr indirect (BitVec.ofNat 32 fb))) (fb + 1) cap ∧
      Keeps w node w (update node i ((node i).setAddr indirect (BitVec.ofNat 32 fb)))
        cap := by
  have hclear := h.clear fb le_rfl hfb
  have hmap : ∀ j bn, mapping w (update node i ((node i).setAddr indirect
      (BitVec.ofNat 32 fb)) j) bn = mapping w (node j) bn := by
    intro j bn
    rcases eq_or_ne j i with rfl | hji
    · rw [update_self, Ino.mapping_setIndirect hind hclear]
    · rw [update_of_ne hji]
  refine ⟨?_, fun j _ bn _ => ⟨hmap j bn, rfl⟩⟩
  refine
    { fb_ge := h.fb_ge.trans (Nat.le_succ fb), fb_le := hfb, sum := ?_
      clear := fun b hb hb' => h.clear b (by omega) hb', mapped := fun j hj bn hbn => ?_
      cap_le := h.cap_le }
  · rw [given_succ h.fb_ge, ← h.sum]
    refine sum_cons_of_eq_off (mem_range.mpr hi) (fun j hj => ?_) ?_
    · rw [update_of_ne hj]
    · rw [update_self]
      exact Ino.footprint_setIndirect hind (ofNat_ne_zero h.fb_le h.fb_ge) hclear
  · rw [hmap]
    exact h.mapped j hj bn hbn

/-- An entry of the indirect block. -/
lemma setWord (hi : i < NINODES) (hfb : fb < FSSIZE) (hc : ¬ c < NDIRECT)
    (hm : c < MAXFILE) (hcap : cap i = c) (hind : (node i).addrs indirect = a) (ha : a ≠ 0) :
    Layout (update w a ((w a).setWord (c - NDIRECT) (BitVec.ofNat 32 fb))) node (fb + 1)
        (update cap i (c + 1)) ∧
      Keeps w node (update w a ((w a).setWord (c - NDIRECT) (BitVec.ofNat 32 fb))) node
        cap := by
  subst hind
  have hmem := Ino.indirect_mem (w := w) ha
  have hzero := h.mapping_eq_zero hi hm hcap.le
  rw [Ino.mapping_of_indirect hc ha] at hzero
  have hothers : ∀ j < NINODES, j ≠ i → (node j).addrs indirect ≠ 0 →
      (node j).addrs indirect ≠ (node i).addrs indirect := by
    intro j hj hji hne heq
    have hmem' := Ino.indirect_mem (w := w) hne
    rw [heq] at hmem'
    exact hji (h.owner_unique hj hi hmem' hmem)
  constructor
  · refine h.extend hi hfb hm hcap ?_ (fun bn hbn => ?_) (fun j hj hji => ?_) fun b hb hb' => ?_
    · have hj : c - NDIRECT < NINDIRECT := by
        simp only [MAXFILE] at hm
        omega
      exact Ino.footprint_setWord ha hj hzero (ofNat_ne_zero h.fb_le h.fb_ge)
    · exact Ino.mapping_setWord ha hc hm hbn
    · have hsame : (node j).addrs indirect ≠ 0 → update w ((node i).addrs indirect)
          ((w ((node i).addrs indirect)).setWord (c - NDIRECT) (BitVec.ofNat 32 fb))
          ((node j).addrs indirect) = w ((node j).addrs indirect) := fun hne =>
        update_of_ne (hothers j hj hji hne) ..
      exact ⟨Ino.footprint_congr hsame, fun _ => Ino.mapping_congr hsame⟩
    · exact update_of_ne (h.ne_next hi hmem hb hb'.le).symm ..
  · intro j hj bn hbn
    refine ⟨?_, update_of_ne (h.mapping_ne_indirect hj hi hbn ha) ..⟩
    rcases eq_or_ne j i with rfl | hji
    · rw [Ino.mapping_setWord ha hc hm (h.lt_of_cap hj hbn), if_neg (by omega)]
    · exact Ino.mapping_congr fun hne => update_of_ne (hothers j hj hji hne) ..

/-- What is written to a block of a file does not change the layout. -/
lemma write (hi : i < NINODES) (hc : c < cap i) (b : Block) :
    Layout (update w (mapping w (node i) c) b) node fb cap ∧
      ∀ j < NINODES, ∀ bn, mapping (update w (mapping w (node i) c) b) (node j) bn =
        mapping w (node j) bn := by
  have hsame : ∀ j < NINODES, (node j).addrs indirect ≠ 0 →
      update w (mapping w (node i) c) b ((node j).addrs indirect) =
        w ((node j).addrs indirect) := fun j hj hne =>
    update_of_ne (h.mapping_ne_indirect hi hj hc hne).symm ..
  have hmap : ∀ j < NINODES, ∀ bn, mapping (update w (mapping w (node i) c) b) (node j) bn =
      mapping w (node j) bn := fun j hj bn => Ino.mapping_congr (hsame j hj)
  refine ⟨{ h with sum := ?_, clear := fun l hl hl' => ?_, mapped := fun j hj bn hbn => ?_ }, hmap⟩
  · rw [sum_congr rfl fun j hj => Ino.footprint_congr (hsame j (mem_range.mp hj))]
    exact h.sum
  · rw [update_of_ne (h.ne_next hi (h.mapping_mem hi hc).1 hl hl'.le).symm]
    exact h.clear l hl hl'
  · rw [hmap j hj]
    exact h.mapped j hj bn hbn

end

end Layout

end Hexv6.Mkfs
