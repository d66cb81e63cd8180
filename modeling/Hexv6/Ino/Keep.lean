import Hexv6.Ino.Blocks

/-!
# Operations on blocks

What each operation does to the blocks in hand.  `balloc` puts a free block into the hand of the
process and `bfree` takes one out of it; `iupdate` gives all blocks back to the inode.
-/

namespace Hexv6.Ino

open Lib Multiset Function
open Blk (Block Inode)

variable {P : Type} {sb : Super} {s s' : State P} {W W' F : Multiset BToken} {k : ISlot} {i j : ℕ}
  {d d' : Inode} {H : Multiset (BitVec 32)} {w : BitVec 32 → Block} {a b : BitVec 32}
  {t : BToken} {n : ℕ}

namespace BlockInv

/-! ### Transactions -/

lemma beginOp (h : BlockInv sb s F) :
    BlockInv sb { s with outstanding := s.outstanding + 1 } (.op ::ₘ F) := by
  refine h.of_table rfl rfl rfl ?_ ?_ ?_ ?_ ?_ ?_
  · rw [countP_isOp_op, h.ops]
  · rw [filterMap_op]
    exact h.table.of_eq rfl rfl
  · rw [filterMap_op]
    exact h.inums
  · exact forall_mem_cons.2 ⟨trivial, h.knows⟩
  · simp
  · simp

lemma endOp (h : BlockInv sb s (.op ::ₘ F)) :
    BlockInv sb { s with outstanding := s.outstanding - 1 } F := by
  refine h.of_table rfl rfl rfl ?_ ?_ ?_ ?_ ?_ ?_
  · have hops := h.ops
    rw [countP_isOp_op] at hops
    exact Nat.sub_eq_of_eq_add hops
  · have htable := h.table
    rw [filterMap_op] at htable
    exact htable.of_eq rfl rfl
  · have hinums := h.inums
    rwa [filterMap_op] at hinums
  · exact fun t ht => h.knows t (mem_cons_of_mem ht)
  · simp
  · simp

/-! ### The inode in hand -/

section

variable (h : BlockInv sb s (.work k i d H w ::ₘ F))
include h

lemma setNode (d' : Inode) :
    BlockInv sb (s.modify k fun e => { e with node := d' }) (.work k i d' H w ::ₘ F) := by
  refine h.of_table rfl rfl rfl ?_ ?_ ?_ ?_ ?_ fun j => ?_
  · have hops := h.ops
    rwa [countP_isOp_work] at hops ⊢
  · rw [filterMap_work]
    exact h.table_work.setNode d'
  · have hinums := h.inums
    rw [filterMap_work] at hinums ⊢
    exact forall_mem_cons.2 ⟨h.inum_lt_work, fun t ht => hinums t (mem_cons_of_mem ht)⟩
  · refine forall_mem_cons.2 ⟨?_, fun t ht => h.knows t (mem_cons_of_mem ht)⟩
    exact h.knows (.work k i d H w) (mem_cons_self _ _)
  · simp
  · rw [countP_cons, countP_cons]
    rfl

/-- What a process reads from a block that it has in hand. -/
lemma blk_eq (ha : a ∈ H) : s.blk a = w a :=
  h.knows _ (mem_cons_self _ _) a ha

/-! ### Contents -/

/-- Blocks in other hands are other blocks. -/
lemma ne_of_mem_hand (ha : a ∈ H)
    (ht : t ∈ F) (hb : b ∈ t.hand) : b ≠ a := by
  rintro rfl
  exact h.notMem_inHand ha (mem_bind.2 ⟨t, ht, hb⟩)

/-- The other tokens do not depend on a block that is in hand. -/
lemma knows_store (ha : a ∈ H) (x : Block)
    (ht : t ∈ F) : t.Knows (s.store a x) := by
  have hknows := h.knows t (mem_cons_of_mem ht)
  cases t with
  | work k' i' d' H' w' =>
    intro b hb
    have hne : b ≠ a := h.ne_of_mem_hand ha ht hb
    rw [State.store]
    dsimp only
    rw [update_of_ne hne]
    exact hknows b hb
  | _ => trivial

/-- The process writes to a block that it has in hand. -/
lemma store (ha : a ∈ H) (x : Block) :
    BlockInv sb (s.store a x) (.work k i d H (Function.update w a x) ::ₘ F) := by
  have hopen : ∀ j, (BToken.work k i d H (Function.update w a x) ::ₘ F).countP (·.opens j) =
      (BToken.work k i d H w ::ₘ F).countP (·.opens j) := by
    intro j
    rw [countP_cons, countP_cons]
    rfl
  -- the indirect blocks of the inodes that nobody changes stay as they are
  have hsame : ∀ j < sb.ninodes.toNat,
      (BToken.work k i d H w ::ₘ F).countP (·.opens j) = 0 → (s.dinode j).type ≠ 0 →
      (s.dinode j).addrs indirect ≠ 0 →
      Function.update s.blk a x ((s.dinode j).addrs indirect) =
        s.blk ((s.dinode j).addrs indirect) := by
    intro j hj hopen htype hind
    exact update_of_ne (h.indirect_ne ha hj hopen htype hind) _ _
  refine
    { table := ?_, inums := ?_, ops := ?_, knows := forall_mem_cons.2 ⟨?_, ?_⟩, bits := h.bits
      blocks := ?_, filled := fun j hj hopen' htype => ?_ }
  · rw [filterMap_work]
    exact h.table_work.of_eq rfl rfl
  · have hinums := h.inums
    rwa [filterMap_work] at hinums ⊢
  · have hops := h.ops
    rwa [countP_isOp_work] at hops ⊢
  · intro b hb
    change Function.update s.blk a x b = Function.update w a x b
    rcases eq_or_ne b a with rfl | hne
    · rw [update_self, update_self]
    · rw [update_of_ne hne, update_of_ne hne]
      exact h.blk_eq hb
  · exact fun t ht => h.knows_store ha x ht
  · have hrest : atRest sb (s.store a x) (.work k i d H (Function.update w a x) ::ₘ F) =
        atRest sb s (.work k i d H w ::ₘ F) := by
      refine Finset.sum_congr rfl fun j hj => ?_
      rw [hopen j]
      by_cases hj' : (BToken.work k i d H w ::ₘ F).countP (·.opens j) = 0
      · rw [if_pos hj', if_pos hj', owned, owned]
        change (if (s.dinode j).type = 0 then 0 else _) = _
        split_ifs with htype
        · rfl
        · exact footprint_congr (hsame j (Finset.mem_range.1 hj) hj' htype)
      · rw [if_neg hj', if_neg hj']
    rw [hrest, inHand_work, ← inHand_work, h.blocks]
    rfl
  · rw [hopen j] at hopen'
    intro bn hbn hsize
    have hmap : mapping (s.store a x).blk (s.dinode j) bn = mapping s.blk (s.dinode j) bn :=
      mapping_congr (hsame j hj hopen' htype)
    exact hmap ▸ h.filled j hj hopen' htype bn hbn hsize

end

/-! ### The free map -/

end BlockInv

lemma of_findFree (h : s.findFree sb n = some a) :
    a.toNat < sb.size.toNat ∧ s.bit a = false := by
  delta State.findFree at h
  obtain ⟨bi, hfind, rfl⟩ := Option.map_eq_some_iff.1 h
  have hbi := List.find?_some hfind
  rw [decide_eq_true_eq] at hbi
  have hlt : n + bi < 2 ^ 32 := lt_trans hbi.1 sb.size.isLt
  refine ⟨?_, hbi.2⟩
  rw [BitVec.toNat_ofNat, Nat.mod_eq_of_lt hlt]
  exact hbi.1

lemma allocated_set (hmeta : ¬ sb.Meta a) (ha : a.toNat < sb.size.toNat) :
    allocated sb { s with bit := Function.update s.bit a true } = insert a (allocated sb s) := by
  ext b
  rw [Finset.mem_insert, mem_allocated, mem_allocated]
  dsimp only
  rcases eq_or_ne b a with rfl | hne
  · rw [update_self]
    tauto
  · rw [update_of_ne hne]
    tauto

lemma allocated_clear :
    allocated sb { s with bit := Function.update s.bit a false } = (allocated sb s).erase a := by
  ext b
  rw [Finset.mem_erase, mem_allocated, mem_allocated]
  dsimp only
  rcases eq_or_ne b a with rfl | hne
  · rw [update_self]
    simp
  · rw [update_of_ne hne]
    tauto

namespace BlockInv

/-- A change of the free map, together with the hand of one process. -/
lemma setBit {H' : Multiset (BitVec 32)} {w' : BitVec 32 → Block} {x : Bool}
    (h : BlockInv sb s (.work k i d H w ::ₘ F)) (hmeta : ¬ sb.Meta a)
    (hknows : ∀ b ∈ H', s.blk b = w' b)
    (hblocks : atRest sb s (.work k i d H w ::ₘ F) + (H' + inHand F) =
      (allocated sb { s with bit := Function.update s.bit a x }).val) :
    BlockInv sb { s with bit := Function.update s.bit a x } (.work k i d H' w' ::ₘ F) := by
  have hopen : ∀ j, (BToken.work k i d H' w' ::ₘ F).countP (·.opens j) =
      (BToken.work k i d H w ::ₘ F).countP (·.opens j) := by
    intro j
    rw [countP_cons, countP_cons]
    rfl
  refine
    { table := ?_, inums := ?_, ops := ?_, knows := forall_mem_cons.2 ⟨hknows, ?_⟩
      bits := fun b hb => ?_, blocks := ?_, filled := fun j hj hopen' => ?_ }
  · rw [filterMap_work]
    exact h.table_work.of_eq rfl rfl
  · have hinums := h.inums
    rwa [filterMap_work] at hinums ⊢
  · have hops := h.ops
    rwa [countP_isOp_work] at hops ⊢
  · intro t ht
    have hk := h.knows t (mem_cons_of_mem ht)
    cases t <;> exact hk
  · have hne : b ≠ a := fun hba => hmeta (hba ▸ hb)
    dsimp only
    rw [update_of_ne hne]
    exact h.bits b hb
  · have hrest : atRest sb { s with bit := Function.update s.bit a x } (.work k i d H' w' ::ₘ F) =
        atRest sb s (.work k i d H w ::ₘ F) :=
      atRest_congr rfl rfl fun j => by rw [hopen j]
    rw [hrest, inHand_work]
    exact hblocks
  · rw [hopen j] at hopen'
    exact h.filled j hj hopen'

/-- `balloc` finds a block that nobody has. -/
lemma allocBit (h : BlockInv sb s (.work k i d H w ::ₘ F)) (ha : s.findFree sb n = some a) :
    a ≠ 0 ∧ a ∉ H ∧ BlockInv sb { s with bit := Function.update s.bit a true }
      (.work k i d (a ::ₘ H) (Function.update w a (s.blk a)) ::ₘ F) := by
  obtain ⟨hsize, hbit⟩ := of_findFree ha
  have hmeta : ¬ sb.Meta a := fun hm => by
    rw [h.bits a hm] at hbit
    cases hbit
  have hnew : a ∉ allocated sb s := fun hmem => by
    rw [(mem_allocated.1 hmem).2.2] at hbit
    cases hbit
  have hnotMem : a ∉ H := fun hmem => hnew (mem_allocated.2 (h.of_mem_hand hmem))
  refine ⟨fun h0 => hmeta (h0 ▸ meta_zero), hnotMem, h.setBit hmeta ?_ ?_⟩
  · intro b hb
    rcases eq_or_ne b a with rfl | hne
    · rw [update_self]
    · rw [update_of_ne hne]
      exact h.blk_eq ((mem_cons.1 hb).resolve_left hne)
  · rw [allocated_set hmeta hsize, Finset.insert_val_of_notMem hnew, ← h.blocks, inHand_work,
      cons_add, add_cons]

/-- `bfree` is given a block that the process has. -/
lemma bfree (h : BlockInv sb s (.work k i d (a ::ₘ H) w ::ₘ F)) : s.bit a = true ∧
      BlockInv sb { s with bit := Function.update s.bit a false } (.work k i d H w ::ₘ F) := by
  obtain ⟨hmeta, -, hbit⟩ := h.of_mem_hand (mem_cons_self a H)
  refine ⟨hbit, h.setBit hmeta (fun b hb => h.blk_eq (mem_cons_of_mem hb)) ?_⟩
  rw [allocated_clear, Finset.erase_val, ← h.blocks, inHand_work, cons_add, add_cons,
    erase_cons_head]

/-! ### From the inode to the hand and back -/

end BlockInv

/-- The inode `i` is being changed by one process, or by nobody. -/
lemma atRest_work (hi : i < sb.ninodes.toNat) (hF : F.countP (·.opens i) = 0)
    (hoff : ∀ j, j ≠ i → owned s' j = owned s j) :
    atRest sb s' F = atRest sb s (.work k i d H w ::ₘ F) + owned s' i := by
  have hsum := sum_add_of_eq_off
    (f := fun j => if (BToken.work k i d H w ::ₘ F).countP (·.opens j) = 0 then owned s j else 0)
    (Finset.mem_range.2 hi)
    (fun j hj => show (if F.countP (·.opens j) = 0 then owned s' j else 0) = _ by
      rw [countP_opens_work_of_ne hj.symm, hoff j hj])
  rw [if_neg (by rw [countP_opens_work_self]; omega), if_pos hF, add_zero] at hsum
  exact hsum

namespace BlockInv

/-- The blocks of an inode that nobody changes are taken into the hand. -/
lemma take (h : BlockInv sb s (.slot ⟨k, i, .lock d true⟩ ::ₘ .op ::ₘ F)) :
    BlockInv sb s (.work k i d (footprint s.blk d) s.blk ::ₘ F) := by
  have htable := h.table_cons
  rw [filterMap_op] at htable
  obtain ⟨hi, hv, hnode, htype, hdisk⟩ := htable.means _ (mem_cons_self _ _)
  dsimp only at hi hv hnode htype hdisk
  have hzero : F.countP (·.opens i) = 0 := opens_eq_zero htable rfl
  have hinums := h.inums
  rw [filterMap_slot, filterMap_op] at hinums
  refine
    { table := ?_, inums := ?_, ops := ?_, knows := forall_mem_cons.2 ⟨fun _ _ => rfl, ?_⟩
      bits := h.bits, blocks := ?_, filled := fun j hj hopen => ?_ }
  · -- the entry stays as it is
    have hset := htable.setNode d
    have hsame : (s.modify k fun e => { e with node := d }) = s := by
      rw [State.modify, ← hnode]
      simp
    rw [filterMap_work]
    rwa [hsame] at hset
  · rw [filterMap_work]
    exact forall_mem_cons.2 ⟨h.inum_lt, fun t ht => hinums t (mem_cons_of_mem ht)⟩
  · have hops := h.ops
    rw [countP_isOp_slot, countP_isOp_op] at hops
    rw [countP_isOp_work, hops]
  · exact fun t ht => h.knows t (mem_cons_of_mem (mem_cons_of_mem ht))
  · have howned : owned s i = footprint s.blk d := by rw [owned, if_neg htype, hdisk rfl]
    have hrest : atRest sb s (.slot ⟨k, i, .lock d true⟩ ::ₘ .op ::ₘ F) = atRest sb s F :=
      atRest_congr rfl rfl fun j => by rw [countP_opens_slot, countP_opens_op]
    have hwork := atRest_work (s := s) (k := k) (d := d) (H := footprint s.blk d) (w := s.blk)
      h.inum_lt hzero fun _ _ => rfl
    rw [← h.blocks, hrest, hwork, howned, inHand_work, inHand_slot, inHand_op, add_assoc]
  · have hne : i ≠ j := by
      rintro rfl
      rw [countP_opens_work_self] at hopen
      omega
    rw [countP_opens_work_of_ne hne] at hopen
    exact h.filled j hj (by rwa [countP_opens_slot, countP_opens_op])

/-- What the process knows of an inode when it takes its blocks. -/
lemma of_lock (h : BlockInv sb s (.slot ⟨k, i, .lock d true⟩ ::ₘ F)) :
    (footprint s.blk d).Nodup ∧ Filled s.blk d d.size.toNat := by
  obtain ⟨-, -, -, htype, hdisk⟩ := h.table_cons.means _ (mem_cons_self _ _)
  dsimp only at htype hdisk
  have hd := hdisk rfl
  have hzero : F.countP (·.opens i) = 0 := opens_eq_zero h.table_cons rfl
  have hopen : (BToken.slot ⟨k, i, .lock d true⟩ ::ₘ F).countP (·.opens i) = 0 := by
    rwa [countP_opens_slot]
  have hnodup := h.nodup_owned h.inum_lt hopen
  have hfilled := h.filled i h.inum_lt hopen htype
  rw [owned, if_neg htype, hd] at hnodup
  rw [hd] at hfilled
  exact ⟨hnodup, hfilled⟩

section

variable (h : BlockInv sb s (.work k i d H w ::ₘ F))
include h

/-- The contents of the indirect block are known, if all blocks of the inode are in hand. -/
lemma blk_indirect (hH : footprint w d = H)
    (hind : d.addrs indirect ≠ 0) : s.blk (d.addrs indirect) = w (d.addrs indirect) :=
  h.blk_eq (hH ▸ indirect_mem hind)

/-- The inode is written to the disk, with all blocks in hand or as a free inode. -/
lemma put {m : Mode} (htable : TableInv { s with dinode := Function.update s.dinode i d }
      (⟨k, i, m⟩ ::ₘ F.filterMap BToken.base))
    (howned : (if d.type = 0 then 0 else footprint s.blk d) = H)
    (hfilled : d.type ≠ 0 → Filled s.blk d d.size.toNat) :
    BlockInv sb { s with dinode := Function.update s.dinode i d }
      (.slot ⟨k, i, m⟩ ::ₘ .op ::ₘ F) := by
  have hzero : F.countP (·.opens i) = 0 := opens_eq_zero h.table_work rfl
  have hinums := h.inums
  rw [filterMap_work] at hinums
  refine
    { table := ?_, inums := ?_, ops := ?_, knows := ?_, bits := h.bits, blocks := ?_
      filled := fun j hj hopen htype => ?_ }
  · rwa [filterMap_slot, filterMap_op]
  · rw [filterMap_slot, filterMap_op]
    exact forall_mem_cons.2 ⟨h.inum_lt_work, fun t ht => hinums t (mem_cons_of_mem ht)⟩
  · have hops := h.ops
    rw [countP_isOp_work] at hops
    rw [countP_isOp_slot, countP_isOp_op]
    exact hops
  · refine forall_mem_cons.2 ⟨trivial, forall_mem_cons.2 ⟨trivial, fun t ht => ?_⟩⟩
    have hk := h.knows t (mem_cons_of_mem ht)
    cases t <;> exact hk
  · set s' : State P := { s with dinode := Function.update s.dinode i d } with hs'
    have hself : owned s' i = H := by
      simp only [owned, hs', update_self]
      exact howned
    have hoff : ∀ j, j ≠ i → owned s' j = owned s j := by
      intro j hj
      simp only [owned, hs', update_of_ne hj]
    have hrest : atRest sb s' (.slot ⟨k, i, m⟩ ::ₘ .op ::ₘ F) = atRest sb s' F :=
      atRest_congr rfl rfl fun j => by rw [countP_opens_slot, countP_opens_op]
    have hwork := atRest_work (k := k) (d := d) (H := H) (w := w) h.inum_lt_work hzero hoff
    rw [hrest, hwork, hself, inHand_slot, inHand_op, add_assoc, ← inHand_work, h.blocks]
    rfl
  · rw [countP_opens_slot, countP_opens_op] at hopen
    dsimp only at htype ⊢
    rcases eq_or_ne j i with rfl | hj'
    · rw [update_self] at htype ⊢
      exact hfilled htype
    · rw [update_of_ne hj'] at htype ⊢
      exact h.filled j hj (by rwa [countP_opens_work_of_ne hj'.symm]) htype

lemma iupdate (htype : d.type ≠ 0)
    (hH : footprint w d = H) (hfilled : Filled w d d.size.toNat) :
    BlockInv sb { s with dinode := Function.update s.dinode i d }
      (.slot ⟨k, i, .lock d true⟩ ::ₘ .op ::ₘ F) := by
  have hind := h.blk_indirect hH
  refine h.put (h.table_work.iupdate_alloc htype) ?_ fun _ bn hbn hsize => ?_
  · rw [if_neg htype, footprint_congr hind, hH]
  · rw [mapping_congr hind]
    exact hfilled bn hbn hsize

end

lemma iupdateFree (h : BlockInv sb s (.work k i d 0 w ::ₘ F)) (htype : d.type = 0) :
    BlockInv sb { s with dinode := Function.update s.dinode i d }
      (.slot ⟨k, i, .freed⟩ ::ₘ .op ::ₘ F) :=
  h.put h.table_work.iupdate_free (if_pos htype) fun hne => absurd htype hne

/-! ### Allocation of inodes -/

end BlockInv

@[simp] lemma footprint_fresh (type : BitVec 16) : footprint w (.fresh type) = 0 := by
  have hdirects : directs (.fresh type) = 0 := Finset.sum_eq_zero fun _ _ => rfl
  rw [footprint, hdirects, zero_add]
  rfl

namespace BlockInv

/-- A new inode has no blocks. -/
lemma ialloc (h : BlockInv sb s W) (hfree : (s.dinode i).type = 0) (type : BitVec 16) :
    BlockInv sb { s with dinode := Function.update s.dinode i (.fresh type) } W := by
  refine
    { table := h.table.ialloc hfree _, inums := h.inums, ops := h.ops, knows := fun t ht => ?_
      bits := h.bits, blocks := ?_, filled := fun j hj hopen htype => ?_ }
  · have hk := h.knows t ht
    cases t <;> exact hk
  · have hrest : atRest sb { s with dinode := Function.update s.dinode i (.fresh type) } W =
        atRest sb s W := by
      refine Finset.sum_congr rfl fun j _ => ?_
      rcases eq_or_ne j i with rfl | hj
      · simp [owned, hfree]
      · simp only [owned, update_of_ne hj]
    rw [hrest, h.blocks]
    rfl
  dsimp only at htype ⊢
  rcases eq_or_ne j i with rfl | hj'
  · rw [update_self]
    intro bn _ hsize
    simp [Inode.fresh] at hsize
  · rw [update_of_ne hj'] at htype ⊢
    exact h.filled j hj hopen htype

end BlockInv

end Hexv6.Ino
