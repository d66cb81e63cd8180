import Hexv6.Lib.Count
import Hexv6.Ino.Calls

/-!
# The blocks of an inode

The blocks that an inode refers to from `addrs` and from its indirect block, as a multiset of
addresses, so that a block counts as often as it is referred to; and the block of the file that
`bmap` finds for a position.
-/

namespace Hexv6.Ino

open Lib Multiset
open Blk (Block Inode)

/-- The block of an address, where 0 is no block. -/
def cell (a : BitVec 32) : Multiset (BitVec 32) := if a = 0 then 0 else {a}

/-- The blocks that an indirect block refers to. -/
def words (b : Block) : Multiset (BitVec 32) := ∑ j : Fin NINDIRECT, cell (b.word j)

/-- The blocks that an inode refers to directly. -/
def directs (d : Inode) : Multiset (BitVec 32) := ∑ i : Fin NDIRECT, cell (d.addrs i.castSucc)

/-- The indirect block and those that it refers to. -/
def indirects (w : BitVec 32 → Block) (a : BitVec 32) : Multiset (BitVec 32) :=
  if a = 0 then 0 else a ::ₘ words (w a)

/-- All blocks of an inode, when the blocks have the contents `w`. -/
def footprint (w : BitVec 32 → Block) (d : Inode) : Multiset (BitVec 32) :=
  directs d + indirects w (d.addrs indirect)

/-- The address of block `bn` of a file; 0 if it has none. -/
def mapping (w : BitVec 32 → Block) (d : Inode) (bn : ℕ) : BitVec 32 :=
  if bn < NDIRECT then d.addrs (direct bn)
  else if d.addrs indirect = 0 then 0
  else (w (d.addrs indirect)).word (bn - NDIRECT)

/-- All blocks of the file up to `size` bytes have an address. -/
def Filled (w : BitVec 32 → Block) (d : Inode) (size : ℕ) : Prop :=
  ∀ bn, bn < MAXFILE → bn * BSIZE < size → mapping w d bn ≠ 0

variable {w w' : BitVec 32 → Block} {d d' : Inode} {a : BitVec 32} {bn : ℕ} {j : ℕ} {c : ℕ}

/-! ### Addresses -/

@[simp] lemma cell_zero : cell 0 = 0 := rfl

lemma cell_of_ne (h : a ≠ 0) : cell a = {a} := if_neg h

lemma direct_eq (h : bn < NDIRECT) : direct bn = (⟨bn, h⟩ : Fin NDIRECT).castSucc := by
  ext
  simp only [direct, Fin.val_ofNat, Fin.val_castSucc]
  exact Nat.mod_eq_of_lt (by omega)

lemma castSucc_ne_indirect (i : Fin NDIRECT) : i.castSucc ≠ indirect := (Fin.castSucc_lt_last i).ne

/-- One of the direct addresses changes. -/
lemma directs_setAddr (d : Inode) (i : Fin NDIRECT) (a : BitVec 32) :
    directs (d.setAddr i.castSucc a) + cell (d.addrs i.castSucc) = directs d + cell a := by
  have hsum : directs (d.setAddr i.castSucc a) + cell (d.addrs i.castSucc) =
      directs d + cell ((d.setAddr i.castSucc a).addrs i.castSucc) := by
    refine sum_add_of_eq_off
      (f := fun j : Fin NDIRECT => cell (d.addrs j.castSucc)) (Finset.mem_univ i) fun j hj => ?_
    rw [d.setAddr_of_ne fun h => hj (Fin.castSucc_injective _ h)]
  rwa [d.setAddr_self] at hsum

lemma directs_setIndirect (d : Inode) (a : BitVec 32) :
    directs (d.setAddr indirect a) = directs d := by
  refine Finset.sum_congr rfl fun i _ => ?_
  rw [d.setAddr_of_ne (castSucc_ne_indirect i)]

/-- One of the addresses in an indirect block changes. -/
lemma words_setWord (b : Block) (hj : j < NINDIRECT) (a : BitVec 32) :
    words (b.setWord j a) + cell (b.word j) = words b + cell a := by
  have hsum : words (b.setWord j a) + cell (b.word (⟨j, hj⟩ : Fin NINDIRECT)) =
      words b + cell ((b.setWord j a).word (⟨j, hj⟩ : Fin NINDIRECT)) := by
    refine sum_add_of_eq_off
      (f := fun l : Fin NINDIRECT => cell (b.word l)) (Finset.mem_univ _) fun l hl => ?_
    rw [b.word_setWord_of_ne a (fun h => hl (Fin.ext h)) l.isLt]
  rwa [b.word_setWord_self a hj] at hsum

@[simp] lemma words_zero : words Block.zero = 0 := by
  refine Finset.sum_eq_zero fun j _ => ?_
  rw [Block.word_zero, cell_zero]

@[simp] lemma indirects_zero : indirects w 0 = 0 := rfl

lemma indirects_of_ne (h : a ≠ 0) : indirects w a = a ::ₘ words (w a) := if_neg h

/-! ### Footprints -/

/-- The footprint only depends on the contents of the indirect block. -/
lemma footprint_congr (h : d.addrs indirect ≠ 0 → w' (d.addrs indirect) = w (d.addrs indirect)) :
    footprint w' d = footprint w d := by
  by_cases hind : d.addrs indirect = 0
  · simp only [footprint, hind, indirects_zero]
  · rw [footprint, footprint, indirects_of_ne hind, indirects_of_ne hind, h hind]

/-- Nor does it depend on anything but the addresses. -/
lemma footprint_of_addrs (h : d'.addrs = d.addrs) : footprint w d' = footprint w d := by
  simp only [footprint, directs, h]

lemma mapping_of_addrs (h : d'.addrs = d.addrs) : mapping w d' bn = mapping w d bn := by
  simp only [mapping, h]

lemma mapping_congr (h : d.addrs indirect ≠ 0 → w' (d.addrs indirect) = w (d.addrs indirect)) :
    mapping w' d bn = mapping w d bn := by
  by_cases hind : d.addrs indirect = 0
  · simp only [mapping, hind, if_true]
  · rw [mapping, mapping, h hind]

/-- A block is given to a direct address. -/
lemma footprint_setDirect (i : Fin NDIRECT) (h₀ : d.addrs i.castSucc = 0) (ha : a ≠ 0) :
    footprint w (d.setAddr i.castSucc a) = a ::ₘ footprint w d := by
  have hd := directs_setAddr d i a
  rw [h₀, cell_zero, add_zero, cell_of_ne ha] at hd
  rw [footprint, footprint, hd, d.setAddr_of_ne (castSucc_ne_indirect i).symm, add_right_comm,
    add_comm, singleton_add]

/-- A block is taken from a direct address. -/
lemma footprint_clearDirect (i : Fin NDIRECT) (h : d.addrs i.castSucc ≠ 0) :
    footprint w d = d.addrs i.castSucc ::ₘ footprint w (d.setAddr i.castSucc 0) := by
  have hd := directs_setAddr d i 0
  rw [cell_zero, add_zero, cell_of_ne h] at hd
  rw [footprint, footprint, ← hd, d.setAddr_of_ne (castSucc_ne_indirect i).symm, add_right_comm,
    add_comm, singleton_add]

/-- An empty block becomes the indirect block. -/
lemma footprint_setIndirect (h₀ : d.addrs indirect = 0) (ha : a ≠ 0) (hw : w a = .zero) :
    footprint w (d.setAddr indirect a) = a ::ₘ footprint w d := by
  rw [footprint, footprint, directs_setIndirect, d.setAddr_self, indirects_of_ne ha, hw, words_zero,
    h₀, indirects_zero, add_zero, add_comm]
  rfl

/-- A block is given to an address of the indirect block. -/
lemma footprint_setWord (hind : d.addrs indirect ≠ 0) (hj : j < NINDIRECT)
    (h₀ : (w (d.addrs indirect)).word j = 0) (ha : a ≠ 0) :
    footprint (Function.update w (d.addrs indirect) ((w (d.addrs indirect)).setWord j a)) d =
      a ::ₘ footprint w d := by
  have hw := words_setWord (w (d.addrs indirect)) hj a
  rw [h₀, cell_zero, add_zero, cell_of_ne ha] at hw
  rw [footprint, footprint, indirects_of_ne hind, indirects_of_ne hind, Function.update_self, hw]
  simp only [← singleton_add]
  abel

/-! ### Positions -/

lemma mapping_of_direct (h : bn < NDIRECT) : mapping w d bn = d.addrs (direct bn) := if_pos h

lemma mapping_of_indirect (h : ¬ bn < NDIRECT) (hind : d.addrs indirect ≠ 0) :
    mapping w d bn = (w (d.addrs indirect)).word (bn - NDIRECT) := by
  rw [mapping, if_neg h, if_neg hind]

/-- A block is given to a direct address. -/
lemma mapping_setDirect (hc : c < NDIRECT) :
    mapping w (d.setAddr (direct c) a) bn = if bn = c then a else mapping w d bn := by
  have hind : (d.setAddr (direct c) a).addrs indirect = d.addrs indirect := by
    rw [direct_eq hc]
    exact d.setAddr_of_ne (castSucc_ne_indirect _).symm _
  by_cases hd : bn < NDIRECT
  · rw [mapping_of_direct hd]
    split_ifs with heq
    · rw [heq, d.setAddr_self]
    rw [mapping_of_direct hd, d.setAddr_of_ne]
    rw [direct_eq hd, direct_eq hc]
    exact fun h => heq (Fin.mk.inj (Fin.castSucc_injective _ h))
  · rw [if_neg (by rintro rfl; exact hd hc), mapping, mapping, hind, if_neg hd, if_neg hd]

/-- An empty block becomes the indirect block. -/
lemma mapping_setIndirect (h₀ : d.addrs indirect = 0) (hw : w a = .zero) :
    mapping w (d.setAddr indirect a) bn = mapping w d bn := by
  simp only [mapping, d.setAddr_self, h₀, if_true]
  split_ifs with hd ha
  · rw [direct_eq hd]
    exact d.setAddr_of_ne (castSucc_ne_indirect _) _
  · rfl
  · rw [hw, Block.word_zero]

/-- A block is given to an address of the indirect block. -/
lemma mapping_setWord (hind : d.addrs indirect ≠ 0) (hc : ¬ c < NDIRECT)
    (hm : c < MAXFILE) (hbn : bn < MAXFILE) :
    mapping (Function.update w (d.addrs indirect) ((w (d.addrs indirect)).setWord (c - NDIRECT) a))
      d bn = if bn = c then a else mapping w d bn := by
  simp only [MAXFILE] at hm hbn
  by_cases hd : bn < NDIRECT
  · rw [if_neg (by rintro rfl; exact hc hd), mapping_of_direct hd, mapping_of_direct hd]
  rw [mapping_of_indirect hd hind, Function.update_self]
  split_ifs with heq
  · rw [heq, Block.word_setWord_self _ _ (by omega)]
  · rw [mapping_of_indirect hd hind, Block.word_setWord_of_ne _ _ (by omega) (by omega)]

lemma mem_directs (h : bn < NDIRECT) (h₀ : d.addrs (direct bn) ≠ 0) :
    d.addrs (direct bn) ∈ directs d := by
  refine mem_sum.2 ⟨⟨bn, h⟩, Finset.mem_univ _, ?_⟩
  rw [← direct_eq h, cell_of_ne h₀]
  exact mem_singleton_self _

lemma mem_words {b : Block} (hj : j < NINDIRECT) (h₀ : b.word j ≠ 0) :
    b.word j ∈ words b := by
  refine mem_sum.2 ⟨⟨j, hj⟩, Finset.mem_univ _, ?_⟩
  rw [cell_of_ne h₀]
  exact mem_singleton_self _

/-- The blocks of the file are blocks of the inode, and none of them is the indirect block. -/
lemma mapping_mem (hnodup : (footprint w d).Nodup) (hbn : bn < MAXFILE) (h : mapping w d bn ≠ 0) :
    mapping w d bn ∈ footprint w d ∧ mapping w d bn ≠ d.addrs indirect := by
  rw [footprint, nodup_add] at hnodup
  obtain ⟨-, hind, hdisj⟩ := hnodup
  by_cases hd : bn < NDIRECT
  · rw [mapping_of_direct hd] at h ⊢
    have hmem := mem_directs hd h
    refine ⟨mem_add.2 (.inl hmem), fun heq => ?_⟩
    have hne : d.addrs indirect ≠ 0 := heq ▸ h
    refine (disjoint_left.1 hdisj hmem) ?_
    rw [indirects_of_ne hne, heq]
    exact mem_cons_self _ _
  have hne : d.addrs indirect ≠ 0 := by
    intro h0
    rw [mapping, if_neg hd, if_pos h0] at h
    exact h rfl
  have hj : bn - NDIRECT < NINDIRECT := by
    simp only [MAXFILE] at hbn
    omega
  rw [mapping_of_indirect hd hne] at h ⊢
  rw [indirects_of_ne hne, nodup_cons] at hind
  refine ⟨?_, fun heq => hind.1 ?_⟩
  · rw [footprint, indirects_of_ne hne]
    exact mem_add.2 (.inr (mem_cons_of_mem (mem_words hj h)))
  · have hmem := mem_words hj h
    rwa [heq] at hmem

/-- No block is at two positions of the file. -/
lemma mapping_inj {bn' : ℕ} (hnodup : (footprint w d).Nodup) (hbn : bn < MAXFILE)
    (hbn' : bn' < MAXFILE) (h : mapping w d bn ≠ 0) (heq : mapping w d bn = mapping w d bn') :
    bn = bn' := by
  have hnd := hnodup
  rw [footprint, nodup_add] at hnodup
  obtain ⟨hdirect, hind, hdisj⟩ := hnodup
  have h' : mapping w d bn' ≠ 0 := heq ▸ h
  have hwords : ∀ {b}, ¬ b < NDIRECT → b < MAXFILE → mapping w d b ≠ 0 →
      d.addrs indirect ≠ 0 ∧ b - NDIRECT < NINDIRECT := by
    intro b hd hb h
    refine ⟨fun h0 => h ?_, by simp only [MAXFILE] at hb; omega⟩
    rw [mapping, if_neg hd, if_pos h0]
  -- a direct block is not in the indirect block
  have hmixed : ∀ {b c}, b < NDIRECT → ¬ c < NDIRECT → c < MAXFILE → mapping w d b ≠ 0 →
      mapping w d c ≠ 0 → mapping w d b ≠ mapping w d c := by
    intro b c hb hc hcm h h' heq
    obtain ⟨hne, hj⟩ := hwords hc hcm h'
    rw [mapping_of_direct hb] at heq h
    rw [mapping_of_indirect hc hne] at heq h'
    refine disjoint_left.1 hdisj (mem_directs hb h) ?_
    rw [indirects_of_ne hne, heq]
    exact mem_cons_of_mem (mem_words hj h')
  by_cases hd : bn < NDIRECT <;> by_cases hd' : bn' < NDIRECT
  · rw [mapping_of_direct hd] at heq h
    rw [mapping_of_direct hd'] at heq h'
    rw [direct_eq hd] at heq h
    rw [direct_eq hd'] at heq h'
    have := eq_of_mem_sum hdirect (Finset.mem_univ ⟨bn, hd⟩) (Finset.mem_univ ⟨bn', hd'⟩)
      (by rw [cell_of_ne h]; exact mem_singleton_self _)
      (by rw [cell_of_ne h', heq]; exact mem_singleton_self _)
    exact Fin.mk.inj this
  · exact absurd heq (hmixed hd hd' hbn' h h')
  · exact absurd heq.symm (hmixed hd' hd hbn h' h)
  · obtain ⟨hne, hj⟩ := hwords hd hbn h
    obtain ⟨-, hj'⟩ := hwords hd' hbn' h'
    rw [mapping_of_indirect hd hne] at heq h
    rw [mapping_of_indirect hd' hne] at heq h'
    rw [indirects_of_ne hne, nodup_cons] at hind
    have := eq_of_mem_sum hind.2
      (Finset.mem_univ (⟨_, hj⟩ : Fin NINDIRECT)) (Finset.mem_univ ⟨_, hj'⟩)
      (by rw [cell_of_ne h]; exact mem_singleton_self _)
      (by rw [cell_of_ne h', heq]; exact mem_singleton_self _)
    have := Fin.mk.inj this
    omega

lemma indirect_mem (hne : d.addrs indirect ≠ 0) : d.addrs indirect ∈ footprint w d := by
  rw [footprint, indirects_of_ne hne]
  exact mem_add.2 (.inr (mem_cons_self _ _))

end Hexv6.Ino
