import Hexv6.Ino.Footprint
import Hexv6.Ino.Unique

/-!
# Blocks in hand

While a process changes the blocks of an inode, it has all of them in hand: the token `work`
holds the addresses `H` and what the process knows of their contents.  The blocks of all other
inodes are given by what is on the disk, and every allocated data block belongs to exactly one
inode or to one hand.
-/

namespace Hexv6.Ino

open Lib Multiset
open Blk (Block Inode)

/-- A token for a block, or for a reference to an inode. -/
inductive BToken
  /-- between `begin_op` and `end_op` -/
  | op
  | slot (t : Token)
  /-- the process changes the inode, inside a transaction -/
  | work (k : ISlot) (i : ℕ) (d : Inode) (H : Multiset (BitVec 32)) (w : BitVec 32 → Block)

namespace BToken

/-- The token of the inode table. -/
def base : BToken → Option Token
  | op => none
  | slot t => some t
  | work k i d _ _ => some ⟨k, i, .lock d false⟩

/-- The token counts for `log.outstanding`. -/
def isOp : BToken → Bool
  | op | work _ _ _ _ _ => true
  | _ => false

/-- The inode `i` is being changed. -/
def opens (i : ℕ) : BToken → Bool
  | work _ i' _ _ _ => i' = i
  | _ => false

/-- The blocks in hand. -/
def hand : BToken → Multiset (BitVec 32)
  | work _ _ _ H _ => H
  | _ => 0

/-- The process knows the contents of the blocks that it has in hand. -/
def Knows {P : Type} (s : State P) : BToken → Prop
  | work _ _ _ H w => ∀ a ∈ H, s.blk a = w a
  | _ => True

end BToken

variable {P : Type} {sb : Super} {s s' : State P} {W W' F : Multiset BToken} {k : ISlot} {i j : ℕ}
  {d d' : Inode} {H : Multiset (BitVec 32)} {w : BitVec 32 → Block} {a : BitVec 32} {t : Token}
  {m : Mode}

/-- The blocks of the inode `i`, if it is allocated. -/
def owned (s : State P) (i : ℕ) : Multiset (BitVec 32) :=
  if (s.dinode i).type = 0 then 0 else footprint s.blk (s.dinode i)

/-- The data blocks whose bit is set. -/
def allocated (sb : Super) (s : State P) : Finset (BitVec 32) :=
  ((Finset.range sb.size.toNat).image (BitVec.ofNat 32)).filter fun a =>
    ¬ sb.Meta a ∧ s.bit a = true

/-- The blocks of the inodes that nobody changes. -/
def atRest (sb : Super) (s : State P) (W : Multiset BToken) : Multiset (BitVec 32) :=
  ∑ i ∈ Finset.range sb.ninodes.toNat, if W.countP (·.opens i) = 0 then owned s i else 0

/-- The blocks in the hands of all processes. -/
def inHand (W : Multiset BToken) : Multiset (BitVec 32) := (W.map BToken.hand).sum

structure BlockInv (sb : Super) (s : State P) (W : Multiset BToken) : Prop where
  table : TableInv s (W.filterMap BToken.base)
  inums : ∀ t ∈ W.filterMap BToken.base, t.i < sb.ninodes.toNat
  ops : s.outstanding = W.countP (·.isOp)
  knows : ∀ t ∈ W, t.Knows s
  bits : ∀ a, sb.Meta a → s.bit a = true
  blocks : atRest sb s W + inHand W = (allocated sb s).val
  filled : ∀ i < sb.ninodes.toNat, W.countP (·.opens i) = 0 → (s.dinode i).type ≠ 0 →
    Filled s.blk (s.dinode i) (s.dinode i).size.toNat

/-! ### Tokens -/

@[simp] lemma filterMap_op : (BToken.op ::ₘ F).filterMap BToken.base = F.filterMap BToken.base :=
  filterMap_cons_none _ _ rfl

@[simp] lemma filterMap_slot :
    (BToken.slot t ::ₘ F).filterMap BToken.base = t ::ₘ F.filterMap BToken.base :=
  filterMap_cons_some _ _ _ rfl

@[simp] lemma filterMap_work : (BToken.work k i d H w ::ₘ F).filterMap BToken.base =
    ⟨k, i, .lock d false⟩ ::ₘ F.filterMap BToken.base :=
  filterMap_cons_some _ _ _ rfl

@[simp] lemma inHand_op : inHand (.op ::ₘ F) = inHand F := by simp [inHand, BToken.hand]

@[simp] lemma inHand_slot : inHand (.slot t ::ₘ F) = inHand F := by simp [inHand, BToken.hand]

@[simp] lemma inHand_work : inHand (.work k i d H w ::ₘ F) = H + inHand F := by
  simp [inHand, BToken.hand]

@[simp] lemma countP_opens_op : (BToken.op ::ₘ F).countP (·.opens i) = F.countP (·.opens i) :=
  countP_cons_of_neg _ (by simp [BToken.opens])

@[simp] lemma countP_opens_slot : (BToken.slot t ::ₘ F).countP (·.opens i) = F.countP (·.opens i) :=
  countP_cons_of_neg _ (by simp [BToken.opens])

@[simp] lemma countP_isOp_op : (BToken.op ::ₘ F).countP (·.isOp) = F.countP (·.isOp) + 1 :=
  countP_cons_of_pos _ (by simp [BToken.isOp])

@[simp] lemma countP_isOp_slot : (BToken.slot t ::ₘ F).countP (·.isOp) = F.countP (·.isOp) :=
  countP_cons_of_neg _ (by simp [BToken.isOp])

@[simp] lemma countP_isOp_work :
    (BToken.work k i d H w ::ₘ F).countP (·.isOp) = F.countP (·.isOp) + 1 :=
  countP_cons_of_pos _ (by simp [BToken.isOp])

lemma countP_opens_work_self :
    (BToken.work k i d H w ::ₘ F).countP (·.opens i) = F.countP (·.opens i) + 1 :=
  countP_cons_of_pos _ (by simp [BToken.opens])

lemma countP_opens_work_of_ne (h : i ≠ j) :
    (BToken.work k i d H w ::ₘ F).countP (·.opens j) = F.countP (·.opens j) :=
  countP_cons_of_neg _ (by simp [BToken.opens, h])

/-! ### Consequences -/

lemma mem_allocated :
    a ∈ allocated sb s ↔ ¬ sb.Meta a ∧ a.toNat < sb.size.toNat ∧ s.bit a = true := by
  have hrange : a ∈ (Finset.range sb.size.toNat).image (BitVec.ofNat 32) ↔
      a.toNat < sb.size.toNat := by
    rw [Finset.mem_image]
    constructor
    · rintro ⟨n, hn, rfl⟩
      rw [BitVec.toNat_ofNat]
      exact (Nat.mod_le _ _).trans_lt (Finset.mem_range.1 hn)
    · exact fun h => ⟨a.toNat, Finset.mem_range.2 h, by simp⟩
  rw [allocated, Finset.mem_filter, hrange]
  tauto

namespace BlockInv

lemma nodup (h : BlockInv sb s W) : (atRest sb s W + inHand W).Nodup := by
  rw [h.blocks]
  exact (allocated sb s).nodup

/-- A block in hand is an allocated data block. -/
lemma of_mem_hand (h : BlockInv sb s (.work k i d H w ::ₘ F)) (ha : a ∈ H) :
    ¬ sb.Meta a ∧ a.toNat < sb.size.toNat ∧ s.bit a = true := by
  rw [← mem_allocated, ← Finset.mem_val, ← h.blocks, inHand_work]
  exact mem_add.2 (.inr (mem_add.2 (.inl ha)))

/-- A block in hand is in no other hand. -/
lemma notMem_inHand (h : BlockInv sb s (.work k i d H w ::ₘ F)) (ha : a ∈ H) : a ∉ inHand F := by
  have hn := h.nodup
  rw [inHand_work, nodup_add, nodup_add] at hn
  exact disjoint_left.1 hn.2.1.2.2 ha

lemma owned_le_atRest (hi : i < sb.ninodes.toNat) (hopen : W.countP (·.opens i) = 0) :
    owned s i ≤ atRest sb s W := by
  have hle := Finset.single_le_sum (f := fun i => if W.countP (·.opens i) = 0 then owned s i else 0)
    (fun i _ => Multiset.zero_le _) (Finset.mem_range.2 hi)
  rwa [if_pos hopen] at hle

/-- A block in hand belongs to no inode that nobody changes. -/
lemma notMem_owned (h : BlockInv sb s (.work k i d H w ::ₘ F)) (ha : a ∈ H)
    (hj : j < sb.ninodes.toNat)
    (hopen : (BToken.work k i d H w ::ₘ F).countP (·.opens j) = 0) : a ∉ owned s j := by
  intro hmem
  have hn := h.nodup
  rw [inHand_work, nodup_add] at hn
  exact disjoint_left.1 hn.2.2 (mem_of_le (owned_le_atRest hj hopen) hmem) (mem_add.2 (.inl ha))

lemma nodup_owned (h : BlockInv sb s W) (hi : i < sb.ninodes.toNat)
    (hopen : W.countP (·.opens i) = 0) : (owned s i).Nodup := by
  have hn := h.nodup
  rw [nodup_add] at hn
  exact nodup_of_le (owned_le_atRest hi hopen) hn.1

/-- The indirect block of an inode that nobody changes is not in hand. -/
lemma indirect_ne (h : BlockInv sb s (.work k i d H w ::ₘ F)) (ha : a ∈ H)
    (hj : j < sb.ninodes.toNat)
    (hopen : (BToken.work k i d H w ::ₘ F).countP (·.opens j) = 0) (htype : (s.dinode j).type ≠ 0)
    (hind : (s.dinode j).addrs indirect ≠ 0) : (s.dinode j).addrs indirect ≠ a := by
  rintro rfl
  refine h.notMem_owned ha hj hopen ?_
  rw [owned, if_neg htype]
  exact indirect_mem hind

end BlockInv

/-- Block 0 is the boot block. -/
lemma meta_zero : sb.Meta 0 := by simp [Super.Meta, Super.nmeta]

/-! ### Steps of the inode table -/

/-- The blocks depend on the disk and on the inodes that are being changed only. -/
lemma atRest_congr (hd : s'.dinode = s.dinode) (hb : s'.blk = s.blk)
    (hopen : ∀ i, W'.countP (·.opens i) = 0 ↔ W.countP (·.opens i) = 0) :
    atRest sb s' W' = atRest sb s W := by
  refine Finset.sum_congr rfl fun i _ => ?_
  simp only [owned, hd, hb, hopen i]

namespace BlockInv

/-- A step that does not change the disk. -/
lemma of_table (h : BlockInv sb s W) (hdisk : s'.dinode = s.dinode) (hbit : s'.bit = s.bit)
    (hblk : s'.blk = s.blk) (hops : s'.outstanding = W'.countP (·.isOp))
    (htable : TableInv s' (W'.filterMap BToken.base))
    (hinums : ∀ t ∈ W'.filterMap BToken.base, t.i < sb.ninodes.toNat)
    (hknows : ∀ t ∈ W', t.Knows s) (hhand : inHand W' = inHand W)
    (hopen : ∀ i, W'.countP (·.opens i) = W.countP (·.opens i)) : BlockInv sb s' W' := by
  refine
    { table := htable, inums := hinums, ops := hops, knows := fun t ht => ?_, bits := ?_
      blocks := ?_, filled := fun i hi hopen' htype => ?_ }
  · have hk := hknows t ht
    cases t with
    | work k i d H w => exact fun a ha => (congrFun hblk a).trans (hk a ha)
    | _ => trivial
  · rw [hbit]
    exact h.bits
  · have hrest : atRest sb s' W' = atRest sb s W := atRest_congr hdisk hblk fun i => by rw [hopen]
    rw [hrest, hhand, h.blocks]
    simp only [allocated, hbit]
  · rw [hdisk] at htype ⊢
    rw [hblk]
    exact h.filled i hi (hopen i ▸ hopen') htype

/-- A new reference. -/
lemma slot_new (h : BlockInv sb s F) (hdisk : s'.dinode = s.dinode) (hbit : s'.bit = s.bit)
    (hblk : s'.blk = s.blk) (hout : s'.outstanding = s.outstanding) (hi : t.i < sb.ninodes.toNat)
    (htable : TableInv s' (t ::ₘ F.filterMap BToken.base)) : BlockInv sb s' (.slot t ::ₘ F) := by
  refine h.of_table hdisk hbit hblk ?_ ?_ ?_ ?_ ?_ ?_
  · rw [hout, h.ops, countP_isOp_slot]
  · rwa [filterMap_slot]
  · rw [filterMap_slot]
    exact forall_mem_cons.2 ⟨hi, h.inums⟩
  · exact forall_mem_cons.2 ⟨trivial, h.knows⟩
  · simp
  · simp

lemma table_cons (h : BlockInv sb s (.slot t ::ₘ F)) :
    TableInv s (t ::ₘ F.filterMap BToken.base) := by
  have ht := h.table
  rwa [filterMap_slot] at ht

lemma table_work (h : BlockInv sb s (.work k i d H w ::ₘ F)) :
    TableInv s (⟨k, i, .lock d false⟩ ::ₘ F.filterMap BToken.base) := by
  have ht := h.table
  rwa [filterMap_work] at ht

lemma inum_lt (h : BlockInv sb s (.slot t ::ₘ F)) : t.i < sb.ninodes.toNat :=
  h.inums t (by rw [filterMap_slot]; exact mem_cons_self _ _)

lemma inum_lt_work (h : BlockInv sb s (.work k i d H w ::ₘ F)) : i < sb.ninodes.toNat :=
  h.inums ⟨k, i, .lock d false⟩ (by rw [filterMap_work]; exact mem_cons_self _ _)

/-- Nobody else changes an inode of which a process has the lock. -/
lemma opens_eq_zero (h : TableInv s (⟨k, i, m⟩ ::ₘ F.filterMap BToken.base))
    (hm : m.locks = true) : F.countP (·.opens i) = 0 := by
  rw [countP_eq_zero]
  intro t ht hopens
  cases t with
  | work k' i' d' H' w' =>
    obtain rfl : i' = i := by simpa [BToken.opens] using hopens
    have hmem : (⟨k', i', .lock d' false⟩ : Token) ∈ F.filterMap BToken.base :=
      (mem_filterMap _ _).2 ⟨_, ht, rfl⟩
    have hk := h.slot_eq (mem_cons_self _ _) (mem_cons_of_mem hmem)
    subst hk
    simpa [Token.locks, Mode.locks] using h.no_lock hm _ hmem
  | _ => cases hopens

end BlockInv

end Hexv6.Ino
