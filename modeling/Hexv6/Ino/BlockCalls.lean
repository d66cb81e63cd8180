import Hexv6.Ino.BlockSpecs

/-!
# Calls and the blocks in hand

`itrunc` frees the blocks of an inode one by one, `iput` leaves an inode without blocks, and `readi`
allocates nothing.  Between two calls a process has no block in hand.
-/

namespace Hexv6.Ino

open Lib Multiset
open Blk (Block Inode)

variable {α : Type} {sb : Super} {A : Multiset BToken} {k : ISlot} {i : ℕ} {d d' : Inode}
  {H : Multiset (BitVec 32)} {w : BitVec 32 → Block} {a : BitVec 32} {bn : ℕ}
  {is : List (Fin NDIRECT)} {j : Fin NDIRECT} {type : BitVec 16}

/-! ### `itrunc` -/

/-- The addresses `is` of the inode are cleared. -/
structure Emptied (d : Inode) (is : List (Fin NDIRECT)) (d' : Inode) : Prop where
  type : d'.type = d.type
  on : ∀ j ∈ is, d'.addrs j.castSucc = 0
  off : ∀ j, d.addrs j = 0 → d'.addrs j = 0

lemma Emptied.cons (h : Emptied d is d')
    (hj : d.addrs j.castSucc = 0) : Emptied d (j :: is) d' where
  type := h.type
  on := List.forall_mem_cons.2 ⟨h.off _ hj, h.on⟩
  off := h.off

/-- A round of the first loop, for a process that looks at the inode with a rule of its own. -/
lemma bspec_itruncCons
    (hnode : Spec (BRule sb) A (run (.node k)) fun x B => x = d ∧ ∃ w, B = inWork k i d w)
    (ih : ∀ d w, Spec (BRule sb) (inWork k i d w) (itruncDirect k (is.map Fin.castSucc)) fun _ B =>
      ∃ w d', Emptied d is d' ∧ B = inWork k i d' w) :
    Spec (BRule sb) A (itruncDirect k ((j :: is).map Fin.castSucc)) fun _ B =>
      ∃ w d', Emptied d (j :: is) d' ∧ B = inWork k i d' w := by
  refine hnode.bind ?_
  rintro x _ ⟨hx, w, rfl⟩
  rw [hx]
  split_ifs with hne
  · rw [inWork, footprint_clearDirect j hne]
    refine Spec.op (.bfree _ k i d _ w) ?_
    rintro _ _ rfl
    refine (bspec_assign fun d => d.setAddr j.castSucc 0).next fun _ => ?_
    refine (ih _ w).mono ?_
    rintro _ _ ⟨w', d', hemp, rfl⟩
    have hoff : ∀ l, d.addrs l = 0 → (d.setAddr j.castSucc 0).addrs l = 0 := by
      intro l hl
      rcases eq_or_ne l j.castSucc with rfl | hlj
      · exact d.setAddr_self ..
      · rw [d.setAddr_of_ne hlj, hl]
    have hcons := hemp.cons (d.setAddr_self j.castSucc 0)
    exact ⟨w', d', ⟨hcons.type, hcons.on, fun l hl => hcons.off l (hoff l hl)⟩, rfl⟩
  · refine (ih d w).mono ?_
    rintro _ _ ⟨w', d', hemp, rfl⟩
    exact ⟨w', d', hemp.cons (not_not.1 hne), rfl⟩

lemma bspec_itruncDirect (is : List (Fin NDIRECT)) : ∀ d w, Spec (BRule sb) (inWork k i d w)
    (itruncDirect k (is.map Fin.castSucc)) fun _ B => ∃ w d', Emptied d is d' ∧
    B = inWork k i d' w := by
  induction is with
  | nil => exact fun d w => Spec.ret ⟨w, d, ⟨rfl, by simp, fun _ => id⟩, rfl⟩
  | cons j is ih =>
    intro d w
    refine bspec_itruncCons ((Spec.perform (.nodeInHand k i d _ w)).mono ?_) ih
    rintro x _ ⟨hx, rfl⟩
    exact ⟨hx, w, rfl⟩

/-- The second loop, with the blocks that are left. -/
lemma bspec_itruncWords (js : List ℕ) : Spec (BRule sb)
    {.work k i d (a ::ₘ (js.map fun j => cell ((w a).word j)).sum) w} (itruncWords a js) fun _ B =>
      B = {.work k i d {a} w} := by
  induction js with
  | nil => exact Spec.ret rfl
  | cons j js ih =>
    refine Spec.op (.wordInHand a j k i d _ w (mem_cons_self _ _)) ?_
    rintro x _ ⟨hx, rfl⟩
    rw [List.map_cons, List.sum_cons, ← hx]
    split_ifs with hne
    · rw [cell_of_ne hne, singleton_add, cons_swap]
      refine Spec.op (.bfree x k i d _ w) ?_
      rintro _ _ rfl
      exact ih
    · rw [not_not.1 hne, cell_zero, zero_add]
      exact ih

lemma words_eq_sum (b : Block) :
    words b = ((List.range NINDIRECT).map fun j => cell (b.word j)).sum := by
  rw [words, Fin.sum_univ_eq_sum_range fun j => cell (b.word j)]
  rfl

lemma footprint_of_directs (h : ∀ j : Fin NDIRECT, d.addrs j.castSucc = 0) :
    footprint w d = indirects w (d.addrs indirect) := by
  have hdirects : directs d = 0 := Finset.sum_eq_zero fun j _ => by rw [h j, cell_zero]
  rw [footprint, hdirects, zero_add]

/-- The inode has no blocks. -/
def Bare (d : Inode) : Prop := ∀ j, d.addrs j = 0

lemma Bare.footprint_eq (h : Bare d) (w : BitVec 32 → Block) : footprint w d = 0 := by
  rw [footprint_of_directs fun j => h _, h indirect, indirects_zero]

lemma bare_of_directs (h : ∀ j : Fin NDIRECT, d.addrs j.castSucc = 0)
    (hind : d.addrs indirect = 0) :
    Bare d := by
  intro j
  rcases Fin.eq_castSucc_or_eq_last j with ⟨j, rfl⟩ | rfl
  · exact h j
  · exact hind

/-- The end of `itrunc`. -/
lemma bspec_itruncEnd (hbare : Bare d) (htype : d.type ≠ 0) :
    Spec (BRule sb) {.work k i d 0 w} (update k fun d => { d with size := 0 }) fun _ B =>
      ∃ d', d'.type ≠ 0 ∧ Bare d' ∧ B = inOp k i d' := by
  refine (bspec_assign _).next fun _ => ?_
  have hbare' : Bare { d with size := 0 } := hbare
  rw [← hbare'.footprint_eq w]
  refine (bspec_iupdate (d := { d with size := 0 }) htype fun bn _ hlt =>
    absurd hlt (Nat.not_lt_zero _)).mono ?_
  rintro _ _ rfl
  exact ⟨{ d with size := 0 }, htype, hbare', rfl⟩

lemma bspec_itrunc (htype : d.type ≠ 0) : Spec (BRule sb) (inOp k i d) (itrunc k) fun _ B =>
      ∃ d', d'.type ≠ 0 ∧ Bare d' ∧ B = inOp k i d' := by
  have hfirst : Spec (BRule sb) (inOp k i d) (itruncDirect k
      ((List.finRange NDIRECT).map Fin.castSucc))
      fun _ B => ∃ w d', Emptied d (List.finRange NDIRECT) d' ∧ B = inWork k i d' w := by
    rw [show List.finRange NDIRECT = ⟨0, by decide⟩ :: (List.finRange NDIRECT).tail from rfl]
    refine bspec_itruncCons ((Spec.perform (.take k i d)).mono ?_) (bspec_itruncDirect _)
    rintro x _ ⟨hx, w, -, -, rfl⟩
    exact ⟨hx, w, rfl⟩
  refine hfirst.bind ?_
  rintro _ _ ⟨w, d1, hemp, rfl⟩
  have hdirects : ∀ j : Fin NDIRECT, d1.addrs j.castSucc = 0 := fun j =>
    hemp.on j (List.mem_finRange j)
  have htype1 : d1.type ≠ 0 := by rwa [hemp.type]
  refine Spec.op (.nodeInHand k i d1 _ w) ?_
  rintro x _ ⟨hx, rfl⟩
  rw [hx, footprint_of_directs hdirects]
  split_ifs with hind
  · rw [indirects_of_ne hind, words_eq_sum]
    refine (bspec_itruncWords _).next fun _ => ?_
    refine Spec.op (.bfree _ k i d1 0 w) ?_
    rintro _ _ rfl
    refine (bspec_assign fun d => d.setAddr indirect 0).next fun _ => ?_
    refine bspec_itruncEnd (bare_of_directs (fun j => ?_) (d1.setAddr_self ..)) htype1
    rw [d1.setAddr_of_ne (castSucc_ne_indirect j), hdirects j]
  · rw [not_not.1 hind, indirects_zero]
    exact bspec_itruncEnd (bare_of_directs hdirects (not_not.1 hind)) htype1

/-! ### `iput` -/

/-- An operation on the table that uses one token. -/
lemma bspec_table {o : Op} {t : Token} {Ψ : o.Result → Multiset Token → Prop} (h : Rule o {t} Ψ)
    (ho : o.tableOnly = true) :
    Spec (BRule sb) {.slot t} (run o) fun x B => ∃ B₀, Ψ x B₀ ∧ B = B₀.map .slot := by
  have hspec := Spec.perform (show BRule sb o _ _ from .table o {t} Ψ h ho)
  rwa [map_singleton] at hspec

lemma bspec_iput : Spec (BRule sb) ({.slot ⟨k, i, .ref⟩} + {.op}) (iput k) fun _ B =>
    B = {.op} := by
  refine (bspec_table (.iputTest k i) rfl).seq ?_
  rintro _ _ ⟨_, ⟨rfl, d, hd, rfl⟩ | ⟨rfl, rfl⟩, rfl⟩
  · refine (bspec_itrunc hd).bind ?_
    rintro _ _ ⟨d', hd', hbare, rfl⟩
    -- the type is cleared and written
    have hassign : Spec (BRule sb) (inOp k i d') (assign k fun d => { d with type := 0 }) fun _ B =>
        ∃ w, B = {.work k i { d' with type := 0 } 0 w} := by
      refine bspec_take fun w _ _ => ?_
      rw [inWork, hbare.footprint_eq]
      exact (Spec.perform (.setNode k i d' _ 0 w)).mono fun _ _ hB => ⟨w, hB⟩
    refine hassign.bind ?_
    rintro _ _ ⟨w, rfl⟩
    refine Spec.op (.iupdateFree k i _ w rfl) ?_
    rintro _ _ rfl
    refine (bspec_table (.invalidate k i) rfl).seq ?_
    rintro _ _ ⟨_, rfl, rfl⟩
    refine (bspec_table (.releasesleep k i) rfl).seq ?_
    rintro _ _ ⟨_, rfl, rfl⟩
    refine (bspec_table (.iputDrop k i) rfl).last ?_
    rintro _ _ ⟨_, rfl, rfl⟩
    exact zero_add _
  · refine Spec.ret ?_
    exact zero_add _

/-! ### `readi` -/

section readi

/-- The operations that call `log_write`. -/
def Op.logs : Op → Bool
  | .iupdate _ | .iallocTry _ _ | .allocBit _ | .bzero _ | .bfree _ | .setWord _ _ _
  | .copyin _ _ _ => true
  | _ => false

/-- The rules for the operations that do not log. -/
def Reads (sb : Super) (o : Op) (A : Multiset BToken) (Ψ : o.Result → Multiset BToken → Prop) :
    Prop :=
  BRule sb o A Ψ ∧ o.logs = false

/-- An address that is not 0 is looked up. -/
lemma bspec_readAddr {j : Fin (NDIRECT + 1)} (h : ∀ w, Filled w d d.size.toNat → d.addrs j ≠ 0) :
    Spec (Reads sb) {.slot ⟨k, i, .lock d true⟩} (bmapAddr sb k j) fun a B =>
      a = d.addrs j ∧ a ≠ 0 ∧ B = {.slot ⟨k, i, .lock d true⟩} := by
  refine (Spec.perform ⟨.node k i d, rfl⟩).bind ?_
  rintro x _ ⟨hx, ⟨w, hfilled⟩, rfl⟩
  rw [hx, if_neg (h w hfilled)]
  exact Spec.ret ⟨rfl, h w hfilled, rfl⟩

lemma bspec_readBmap (hbn : bn * BSIZE < d.size.toNat) :
    Spec (Reads sb) {.slot ⟨k, i, .lock d true⟩} (bmap sb k bn) fun _ B =>
      B = {.slot ⟨k, i, .lock d true⟩} := by
  have hmax : MAXFILE = NDIRECT + NINDIRECT := rfl
  rw [bmap]
  split_ifs with hdirect hindirect
  · refine (bspec_readAddr fun w hfilled => ?_).mono fun _ _ hB => hB.2.2
    rw [← mapping_of_direct hdirect]
    exact hfilled bn (by omega) hbn
  · have hlt : bn < MAXFILE := by omega
    refine (bspec_readAddr fun w hfilled hind => hfilled bn hlt hbn ?_).bind ?_
    · rw [mapping, if_neg hdirect, if_pos hind]
    rintro _ _ ⟨rfl, hind, rfl⟩
    refine (Spec.perform ⟨.word k i d (bn - NDIRECT), rfl⟩).bind ?_
    rintro x _ ⟨⟨w, hfilled, hx⟩, rfl⟩
    have hne : x ≠ 0 := by
      rw [hx, ← mapping_of_indirect hdirect hind]
      exact hfilled bn hlt hbn
    rw [if_neg hne]
    exact Spec.ret rfl
  · exact fun F => ⟨_, ⟨_, F, _, ⟨.panic _ (by decide) _, rfl⟩, rfl, rfl⟩, fun x => x.elim⟩

lemma bspec_readiFrom (fuel : ℕ) : ∀ (off : ℕ) (dst : List Bool), off + dst.length ≤ d.size.toNat →
    Spec (Reads sb) {.slot ⟨k, i, .lock d true⟩} (readiFrom sb k off dst fuel) fun _ B =>
      B = {.slot ⟨k, i, .lock d true⟩} := by
  induction fuel with
  | zero => exact fun off dst _ => Spec.ret rfl
  | succ fuel ih =>
    intro off dst hoff
    rw [readiFrom]
    split_ifs with hdst
    · exact Spec.ret rfl
    have hlen : 0 < dst.length := List.length_pos_of_ne_nil hdst
    have hbn : off / BSIZE * BSIZE < d.size.toNat :=
      (Nat.div_mul_le_self off BSIZE).trans_lt (by omega)
    refine (bspec_readBmap hbn).next fun _ => ?_
    dsimp only
    split_ifs
    · refine ih _ _ ?_
      rw [List.length_drop]
      omega
    · exact Spec.ret rfl

lemma bspec_readi {off : ℕ} {dst : List Bool} :
    Spec (Reads sb) {.slot ⟨k, i, .lock d true⟩} (readi sb k off dst) fun _ B =>
      B = {.slot ⟨k, i, .lock d true⟩} := by
  refine (Spec.perform ⟨.node k i d, rfl⟩).bind ?_
  rintro x _ ⟨hx, -, rfl⟩
  rw [hx]
  split_ifs with hout
  · exact Spec.ret rfl
  refine (bspec_readiFrom _ _ _ ?_).bind ?_
  · rw [List.length_take]
    omega
  · rintro _ _ rfl
    exact Spec.ret rfl

end readi

/-! ### `ialloc` -/

lemma bspec_iallocFrom (inums : List ℕ) (h : ∀ i ∈ inums, i < sb.ninodes.toNat) :
    Spec (BRule sb) 0 (iallocFrom type inums) fun k B => ∃ i, B = {.slot ⟨k, i, .ref⟩} := by
  induction inums with
  | nil => exact bspec_panic (by decide)
  | cons inum inums ih =>
    rw [List.forall_mem_cons] at h
    refine Spec.op (.iallocTry inum type) ?_
    rintro found _ rfl
    split_ifs
    · exact (Spec.perform (.iget inum h.1)).mono fun k B hB => ⟨inum, hB⟩
    · exact ih h.2

lemma bspec_ialloc :
    Spec (BRule sb) 0 (ialloc sb type) fun k B => ∃ i, B = {.slot ⟨k, i, .ref⟩} := by
  refine bspec_iallocFrom _ fun i hi => ?_
  obtain ⟨j, hj, rfl⟩ := List.mem_range'.1 hi
  omega

end Hexv6.Ino
