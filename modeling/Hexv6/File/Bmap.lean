import Hexv6.File.Layout

/-!
# Finding and filling slots

`bmap` fills the slots that it passes, if they are empty: the one it looks for, and the one of the
indirect block for a slot in there.
-/

namespace Hexv6.File

open Blk Finset

variable {sb : Super} {D D' : Disk} {V : ℕ → Inode} {ip ip' : Inode} {b c x y k bn inum : ℕ}

/-! ### Assignments -/

lemma addr_setAddr_direct (hy : y < NDIRECT) (a : BitVec 32) :
    addr D (ip.setAddr ⟨y, hy.trans (Nat.lt_succ_self _)⟩ a) x =
      if x = y then a.toNat else addr D ip x := by
  have hind : (ip.setAddr ⟨y, hy.trans (Nat.lt_succ_self _)⟩ a).addrs indirect =
      ip.addrs indirect :=
    ip.setAddr_of_ne (fun h => (ne_of_gt hy) (congrArg Fin.val h)) a
  by_cases hx : x < NDIRECT
  · rw [addr_direct hx, addr_direct hx]
    split_ifs with hxy
    · subst hxy
      rw [Inode.setAddr_self]
    · rw [ip.setAddr_of_ne (fun h => hxy (congrArg Fin.val h))]
  · rw [if_neg (by omega), addr, addr, dif_neg hx, dif_neg hx, hind]

/-- A new indirect block has no entries. -/
lemma addr_setAddr_indirect {a : BitVec 32} (h₀ : ip.addrs indirect = 0)
    (hzero : D a.toNat = Block.zero) :
    addr D (ip.setAddr indirect a) x = if x = MAXFILE then a.toNat else addr D ip x := by
  have hind : (ip.setAddr indirect a).addrs indirect = a := ip.setAddr_self ..
  rcases Nat.lt_or_ge x NDIRECT with hx | hx
  · have hlt : NDIRECT < MAXFILE := by decide
    rw [addr_direct hx, addr_direct hx, if_neg (by omega),
      ip.setAddr_of_ne fun h => (ne_of_lt hx) (congrArg Fin.val h)]
  rcases Nat.lt_trichotomy x MAXFILE with hlt | rfl | hgt
  · rw [if_neg (by omega), addr_word_zero hx hlt h₀]
    by_cases ha : a = 0
    · exact addr_word_zero hx hlt (hind.trans ha)
    · rw [addr_word hx hlt (by rwa [hind]), hind, hzero, Block.word_zero]
      rfl
  · rw [if_pos rfl, addr_indirect, hind]
  · rw [if_neg (by omega), addr_of_lt hgt, addr_of_lt hgt]

lemma addr_setWord {a : BitVec 32} (hne : ip.addrs indirect ≠ 0) (hk : k < NINDIRECT) :
    addr (Function.update D (ip.addrs indirect).toNat
      ((D (ip.addrs indirect).toNat).setWord k a)) ip
      x = if x = NDIRECT + k then a.toNat else addr D ip x := by
  rcases Nat.lt_or_ge x NDIRECT with hx | hx
  · rw [addr_direct hx, addr_direct hx, if_neg (by omega)]
  have hmax : NDIRECT + NINDIRECT = MAXFILE := rfl
  rcases Nat.lt_trichotomy x MAXFILE with hlt | rfl | hgt
  · rw [addr_word hx hlt hne, addr_word hx hlt hne, Function.update_self]
    split_ifs with hxk
    · rw [hxk, Nat.add_sub_cancel_left, Block.word_setWord_self _ _ hk]
    · rw [Block.word_setWord_of_ne _ _ (by omega) (by omega)]
  · rw [addr_indirect, addr_indirect, if_neg (by omega)]
  · rw [addr_of_lt hgt, addr_of_lt hgt, if_neg (by omega)]

/-! ### `bmap` -/

/-- The slots of `S` that are empty. -/
def unmapped (D : Disk) (ip : Inode) (S : Finset ℕ) : Finset ℕ := S.filter (addr D ip · = 0)

/-- The slots that `bmap` passes. -/
def slotsOf (bn : ℕ) : Finset ℕ := if bn < NDIRECT then {bn} else {MAXFILE, bn}

lemma unmapped_singleton_of_eq (h : addr D ip y = 0) : unmapped D ip {y} = {y} := by
  rw [unmapped, filter_singleton, if_pos h]

lemma unmapped_singleton_of_ne (h : addr D ip y ≠ 0) : unmapped D ip {y} = ∅ := by
  rw [unmapped, filter_singleton, if_neg h]

variable {j : Fin (NDIRECT + 1)}

/-- `bmapAddr`, for the slot `y` that the entry `j` of `addrs` is. -/
lemma bmapAddr_spec (hwf : WF sb D V) (hinum : inum < sb.ninodes)
    (hy : ∀ D ip, addr D ip y = (ip.addrs j).toNat)
    (hset : ∀ {D ip} {a : BitVec 32}, ip.addrs j = 0 → D a.toNat = Block.zero →
      ∀ x, addr D (ip.setAddr j a) x = if x = y then a.toNat else addr D ip x)
    (hfree : (unmapped D (V inum) {y}).card ≤ free sb D) :
    ∃ D' ip' a, bmapAddr sb D (V inum) j = some (D', ip', a) ∧ a.toNat = addr D' ip' y ∧ a ≠ 0 ∧
      ip'.addrs j = a ∧ Grow sb V inum (unmapped D (V inum) {y}) D D' ip' := by
  by_cases h0 : (V inum).addrs j = 0
  · have haddr : addr D (V inum) y = 0 := by rw [hy, h0]; rfl
    rw [unmapped_singleton_of_eq haddr] at hfree ⊢
    obtain ⟨D', b, hb, hnat, halloc⟩ := balloc_spec hwf hfree
    have hzero : D' (BitVec.ofNat 32 b).toNat = Block.zero := by rw [hnat, halloc.zero]
    refine ⟨D', (V inum).setAddr j (BitVec.ofNat 32 b), BitVec.ofNat 32 b, ?_, ?_, ?_, ?_, ?_⟩
    · rw [bmapAddr, if_pos h0, hb]
    · rw [hset h0 hzero, if_pos rfl]
    · rw [← toNat_ne_zero, hnat]
      exact halloc.ne_zero
    · exact (V inum).setAddr_self ..
    · refine halloc.grow hwf hinum haddr ⟨_, rfl⟩ (fun x => ?_) fun c hc => absurd rfl hc
      rw [hset h0 hzero, hnat, halloc.addr_eq hwf hinum]
  · have haddr : addr D (V inum) y ≠ 0 := by rwa [hy, toNat_ne_zero]
    rw [unmapped_singleton_of_ne haddr]
    exact ⟨D, V inum, _, by rw [bmapAddr, if_neg h0], (hy D _).symm, h0, rfl, .refl hwf⟩

lemma bmapWord_spec (hwf : WF sb D V) (hinum : inum < sb.ninodes)
    (hne : (V inum).addrs indirect ≠ 0) (hk : k < NINDIRECT)
    (hfree : (unmapped D (V inum) {NDIRECT + k}).card ≤ free sb D) :
    ∃ D' a, bmapWord sb D ((V inum).addrs indirect).toNat k = some (D', a) ∧
      a.toNat = addr D' (V inum) (NDIRECT + k) ∧ a ≠ 0 ∧
      Grow sb V inum (unmapped D (V inum) {NDIRECT + k}) D D' (V inum) := by
  have haddr := addr_word (D := D) (Nat.le_add_right NDIRECT k) (Nat.add_lt_add_left hk _) hne
  rw [Nat.add_sub_cancel_left] at haddr
  by_cases h0 : (D ((V inum).addrs indirect).toNat).word k = 0
  · rw [h0] at haddr
    rw [unmapped_singleton_of_eq haddr] at hfree ⊢
    obtain ⟨D', b, hb, hnat, halloc⟩ := balloc_spec hwf hfree
    refine ⟨_, BitVec.ofNat 32 b, by rw [bmapWord, if_pos h0, hb], ?_, ?_, ?_⟩
    · rw [addr_setWord hne hk, if_pos rfl]
    · rw [← toNat_ne_zero, hnat]
      exact halloc.ne_zero
    refine halloc.grow hwf hinum haddr ⟨_, rfl⟩ (fun x => ?_) fun c hc => ?_
    · rw [addr_setWord hne hk, hnat, halloc.addr_eq hwf hinum]
    have hc' : c = ((V inum).addrs indirect).toNat :=
      by_contra fun h => hc (Function.update_of_ne h ..)
    rw [addr_indirect, hc']
    exact ⟨rfl, toNat_ne_zero.2 hne⟩
  · rw [unmapped_singleton_of_ne (by rwa [haddr, toNat_ne_zero])]
    exact ⟨D, _, by rw [bmapWord, if_neg h0], haddr.symm, h0, .refl hwf⟩

lemma bmap_spec (hwf : WF sb D V) (hinum : inum < sb.ninodes) (hbn : bn < MAXFILE)
    (hfree : (unmapped D (V inum) (slotsOf bn)).card ≤ free sb D) :
    ∃ D' ip' a, bmap sb D (V inum) bn = some (D', ip', a) ∧ a.toNat = addr D' ip' bn ∧ a ≠ 0 ∧
      Grow sb V inum (unmapped D (V inum) (slotsOf bn)) D D' ip' := by
  by_cases h : bn < NDIRECT
  · rw [slotsOf, if_pos h] at hfree ⊢
    obtain ⟨D', ip', a, heq, ha, hne, -, hgrow⟩ := bmapAddr_spec hwf hinum
      (fun D ip => addr_direct h) (fun _ _ x => addr_setAddr_direct h _) hfree
    exact ⟨D', ip', a, by rw [bmap, dif_pos h, heq], ha, hne, hgrow⟩
  rw [slotsOf, if_neg h] at hfree ⊢
  -- first the indirect block, then the entry in it
  have hsub : unmapped D (V inum) {MAXFILE} ⊆ unmapped D (V inum) {MAXFILE, bn} :=
    filter_subset_filter _ (by simp)
  obtain ⟨D1, ip1, a1, heq1, ha1, hne1, hind, hgrow1⟩ := bmapAddr_spec hwf hinum
    (fun D ip => addr_indirect) (fun h0 hzero x => addr_setAddr_indirect h0 hzero)
    ((card_le_card hsub).trans hfree)
  have hself : Function.update V inum ip1 inum = ip1 := Function.update_self ..
  have hk : NDIRECT + (bn - NDIRECT) = bn := by omega
  have hmax : MAXFILE = NDIRECT + NINDIRECT := rfl
  have hrest : unmapped D1 ip1 {bn} = unmapped D (V inum) {bn} := by
    rw [unmapped, unmapped, filter_singleton, filter_singleton, hgrow1.off bn fun hm =>
      (ne_of_lt hbn) (mem_singleton.1 (mem_filter.1 hm).1)]
  have hunion : unmapped D (V inum) {MAXFILE, bn} =
      unmapped D (V inum) {MAXFILE} ∪ unmapped D (V inum) {bn} := by
    rw [unmapped, unmapped, unmapped, ← filter_union]
    rfl
  have hdisj : Disjoint (unmapped D (V inum) {MAXFILE}) (unmapped D (V inum) {bn}) :=
    disjoint_filter_filter (disjoint_singleton.2 (ne_of_gt hbn))
  have hfree1 := hgrow1.free
  rw [hunion, card_union_of_disjoint hdisj] at hfree
  obtain ⟨D2, a2, heq2, ha2, hne2, hgrow2⟩ := bmapWord_spec (k := bn - NDIRECT) hgrow1.wf hinum
    (by rwa [hself, hind]) (by omega) (by rw [hself, hk, hrest]; omega)
  rw [hself, hk] at ha2 hgrow2
  rw [hself, hind] at heq2
  refine ⟨D2, ip1, a2, ?_, ha2, hne2, ?_⟩
  · rw [bmap, dif_neg h, if_pos (by omega), heq1]
    simp only [heq2]
  · rw [hunion, ← hrest]
    exact hgrow1.trans hgrow2

/-! ### What follows from a return -/

variable {r : Disk × BitVec 32}

lemma free_pos_of_balloc (h : balloc sb D = some r) : 0 < free sb D := by
  rw [balloc] at h
  rcases hfind : (List.range sb.size).find? fun b => !sb.used D b with _ | b
  · rw [hfind] at h
    cases h
  have hfresh : sb.used D b = false := by simpa using List.find?_some hfind
  refine card_pos.2 ⟨b, mem_filter.2 ⟨?_, hfresh⟩⟩
  exact mem_range.2 (List.mem_range.1 (List.mem_of_find?_eq_some hfind))

lemma card_unmapped_le_one : (unmapped D ip {y}).card ≤ 1 :=
  (card_filter_le ..).trans_eq (card_singleton y)

lemma bmapAddr_room {r : Disk × Inode × BitVec 32}
    (hy : addr D ip y = (ip.addrs j).toNat) (h : bmapAddr sb D ip j = some r) :
    (unmapped D ip {y}).card ≤ free sb D := by
  by_cases h0 : ip.addrs j = 0
  · rw [bmapAddr, if_pos h0] at h
    rcases hb : balloc sb D with _ | r
    · rw [hb] at h
      cases h
    · exact card_unmapped_le_one.trans (free_pos_of_balloc hb)
  · rw [unmapped_singleton_of_ne (by rwa [hy, toNat_ne_zero])]
    exact Nat.zero_le _

lemma bmapWord_room (hne : ip.addrs indirect ≠ 0) (hk : k < NINDIRECT)
    (h : bmapWord sb D (ip.addrs indirect).toNat k = some r) :
    (unmapped D ip {NDIRECT + k}).card ≤ free sb D := by
  have haddr := addr_word (D := D) (Nat.le_add_right NDIRECT k) (Nat.add_lt_add_left hk _) hne
  rw [Nat.add_sub_cancel_left] at haddr
  by_cases h0 : (D (ip.addrs indirect).toNat).word k = 0
  · rw [bmapWord, if_pos h0] at h
    rcases hb : balloc sb D with _ | r
    · rw [hb] at h
      cases h
    · exact card_unmapped_le_one.trans (free_pos_of_balloc hb)
  · rw [unmapped_singleton_of_ne (by rwa [haddr, toNat_ne_zero])]
    exact Nat.zero_le _

/-- If `bmap` returns, then there were free blocks for the slots that it passes. -/
lemma bmap_room {r : Disk × Inode × BitVec 32} (hwf : WF sb D V) (hinum : inum < sb.ninodes)
    (h : bmap sb D (V inum) bn = some r) :
    bn < MAXFILE ∧ (unmapped D (V inum) (slotsOf bn)).card ≤ free sb D := by
  have hmax : MAXFILE = NDIRECT + NINDIRECT := rfl
  rw [bmap] at h
  split_ifs at h with hbn hk
  · rw [slotsOf, if_pos hbn]
    exact ⟨by omega, bmapAddr_room (addr_direct hbn) h⟩
  refine ⟨by omega, ?_⟩
  rcases hind : bmapAddr sb D (V inum) indirect with _ | ⟨D1, ip1, a⟩
  · rw [hind] at h
    cases h
  have hroom := bmapAddr_room addr_indirect hind
  obtain ⟨D1', ip1', a', heq, ha, hne, hset, hgrow⟩ := bmapAddr_spec hwf hinum
    (fun D ip => addr_indirect) (fun h0 hzero x => addr_setAddr_indirect h0 hzero) hroom
  rw [hind] at h heq
  cases heq
  rcases hword : bmapWord sb D1 a.toNat (bn - NDIRECT) with _ | r
  · simp only [hword] at h
    cases h
  rw [← hset] at hword hne
  have hroom' := bmapWord_room hne hk hword
  rw [show NDIRECT + (bn - NDIRECT) = bn by omega] at hroom'
  have hrest : unmapped D1 ip1 {bn} = unmapped D (V inum) {bn} := by
    rw [unmapped, unmapped, filter_singleton, filter_singleton, hgrow.off bn fun hm =>
      absurd (mem_singleton.1 (mem_filter.1 hm).1) (by omega)]
  have hcard : (unmapped D (V inum) {MAXFILE, bn}).card ≤
      (unmapped D (V inum) {MAXFILE}).card + (unmapped D (V inum) {bn}).card := by
    rw [unmapped, unmapped, unmapped, insert_eq, filter_union]
    exact card_union_le ..
  have hfree := hgrow.free
  rw [hrest] at hroom'
  rw [slotsOf, if_neg hbn]
  omega

/-- A slot that is filled is looked up. -/
lemma bmap_mapped (sb : Super) (hbn : bn < MAXFILE) (hne : addr D ip bn ≠ 0) :
    ∃ a, bmap sb D ip bn = some (D, ip, a) ∧ a.toNat = addr D ip bn := by
  by_cases h : bn < NDIRECT
  · rw [addr_direct h] at hne ⊢
    exact ⟨_, by rw [bmap, dif_pos h, bmapAddr, if_neg (toNat_ne_zero.1 hne)], rfl⟩
  have hind : ip.addrs indirect ≠ 0 := fun h0 => hne (addr_word_zero (by omega) hbn h0)
  rw [addr_word (by omega) hbn hind] at hne ⊢
  have hmax : MAXFILE = NDIRECT + NINDIRECT := rfl
  refine ⟨_, ?_, rfl⟩
  rw [bmap, dif_neg h, if_pos (by omega), bmapAddr, if_neg hind]
  simp only [bmapWord, if_neg (toNat_ne_zero.1 hne)]

end Hexv6.File
