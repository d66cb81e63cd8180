import Hexv6.Ino.BlockSound

/-!
# The functions on blocks

A process that changes an inode has all blocks of it in hand.  `bmap` may give the inode more blocks
(`Edit`), `itrunc` frees all of them.  `readi` finds all blocks that it looks for, and allocates
none.
-/

namespace Hexv6.Ino

open Lib Multiset
open Blk (Block Byte Inode)

variable {α : Type} {sb : Super} {A : Multiset BToken} {k : ISlot} {i : ℕ} {d d' d'' : Inode}
  {H : Multiset (BitVec 32)} {w w' w'' : BitVec 32 → Block} {a : BitVec 32} {bn : ℕ}
  {Ψ : α → Multiset BToken → Prop}

/-- The process changes the inode and has its blocks in hand. -/
abbrev inWork (k : ISlot) (i : ℕ) (d : Inode) (w : BitVec 32 → Block) : Multiset BToken :=
  {.work k i d (footprint w d) w}

/-- The process has the lock of the inode and is inside a transaction. -/
abbrev inOp (k : ISlot) (i : ℕ) (d : Inode) : Multiset BToken :=
  {.slot ⟨k, i, .lock d true⟩} + {.op}

/-! ### Assignments -/

lemma bspec_panic {e : Panic} (he : e ≠ .freeingFreeBlock ∧ e ≠ .metadata) :
    Spec (BRule sb) A (panic e) Ψ :=
  fun F => ⟨_, ⟨A, F, _, .panic e he A, rfl, rfl⟩, fun x => x.elim⟩

lemma bspec_assign (f : Inode → Inode) :
    Spec (BRule sb) {.work k i d H w} (assign k f) fun _ B => B = {.work k i (f d) H w} := by
  refine Spec.op (.nodeInHand k i d H w) ?_
  rintro _ _ ⟨rfl, rfl⟩
  exact Spec.perform (.setNode k i _ _ H w)

/-- The first look at an inode that is going to be changed. -/
lemma bspec_take {f : Inode → Kernel α}
    (h : ∀ w, (footprint w d).Nodup → Filled w d d.size.toNat →
      Spec (BRule sb) (inWork k i d w) (f d) Ψ) :
    Spec (BRule sb) (inOp k i d) (run (.node k) >>= f) Ψ := by
  refine Spec.op (.take k i d) ?_
  rintro _ _ ⟨rfl, w, hnodup, hfilled, rfl⟩
  exact h w hnodup hfilled

/-! ### `balloc` -/

/-- A block in hand that is new, and zeroed. -/
structure New (H : Multiset (BitVec 32)) (w : BitVec 32 → Block) (a : BitVec 32)
    (w' : BitVec 32 → Block) : Prop where
  ne : a ≠ 0
  notMem : a ∉ H
  zero : w' a = .zero
  kept : ∀ b ∈ H, w' b = w b

lemma bspec_ballocFrom (bs : List ℕ) : Spec (BRule sb) {.work k i d H w} (ballocFrom bs) fun a B =>
    ∃ w', New H w a w' ∧ B = {.work k i d (a ::ₘ H) w'} := by
  induction bs with
  | nil => exact bspec_panic (by decide)
  | cons b bs ih =>
    refine Spec.op (.allocBit b k i d H w) ?_
    rintro _ _ (⟨rfl, rfl⟩ | ⟨a, v, rfl, hne, hmem, rfl⟩)
    · exact ih
    refine Spec.op (.write (.bzero a) a _ rfl k i d _ _ (mem_cons_self a H)) ?_
    rintro _ _ rfl
    refine Spec.ret ⟨_, ⟨hne, hmem, Function.update_self .., fun b hb => ?_⟩, rfl⟩
    have hba : b ≠ a := fun heq => hmem (heq ▸ hb)
    rw [Function.update_of_ne hba, Function.update_of_ne hba]

lemma bspec_balloc : Spec (BRule sb) {.work k i d H w} (balloc sb) fun a B =>
    ∃ w', New H w a w' ∧ B = {.work k i d (a ::ₘ H) w'} :=
  bspec_ballocFrom _

/-! ### `bmap` -/

/-- The inode may get more blocks. -/
structure Edit (w : BitVec 32 → Block) (d : Inode) (w' : BitVec 32 → Block) (d' : Inode) :
    Prop where
  type : d'.type = d.type
  size : d'.size = d.size
  nodup : (footprint w' d').Nodup
  kept : ∀ bn < MAXFILE, mapping w d bn ≠ 0 → mapping w' d' bn ≠ 0

lemma Edit.refl (h : (footprint w d).Nodup) : Edit w d w d := ⟨rfl, rfl, h, fun _ _ => id⟩

lemma Edit.trans (h : Edit w d w' d') (h' : Edit w' d' w'' d'') : Edit w d w'' d'' :=
  ⟨h'.type.trans h.type, h'.size.trans h.size, h'.nodup,
    fun bn hbn hne => h'.kept bn hbn (h.kept bn hbn hne)⟩

lemma Edit.filled {n : ℕ} (h : Edit w d w' d') (hf : Filled w d n) : Filled w' d' n :=
  fun bn hbn hn => h.kept bn hbn (hf bn hbn hn)

section

variable (h : New (footprint w d) w a w')
include h

/-- The indirect block is in hand, so it keeps its contents. -/
lemma New.indirect (hind : d.addrs indirect ≠ 0) :
    w' (d.addrs indirect) = w (d.addrs indirect) :=
  h.kept _ (indirect_mem hind)

lemma New.footprint_eq : footprint w' d = footprint w d :=
  footprint_congr h.indirect

lemma New.mapping_eq : mapping w' d bn = mapping w d bn :=
  mapping_congr h.indirect

lemma New.nodup (hnodup : (footprint w d).Nodup) :
    (a ::ₘ footprint w d).Nodup :=
  nodup_cons.2 ⟨h.notMem, hnodup⟩

end

section

variable (hnodup : (footprint w d).Nodup)
include hnodup

/-- `bmapAddr`, for an entry of `addrs` in which a new block changes nothing else. -/
lemma bspec_bmapAddr {j : Fin (NDIRECT + 1)} (hfoot : ∀ w a, d.addrs j = 0 → a ≠ 0 → w a = .zero →
      footprint w (d.setAddr j a) = a ::ₘ footprint w d)
    (hmap : ∀ w a bn, d.addrs j = 0 → a ≠ 0 → w a = .zero → mapping w d bn ≠ 0 →
      mapping w (d.setAddr j a) bn ≠ 0) :
    Spec (BRule sb) (inWork k i d w) (bmapAddr sb k j) fun a B =>
      ∃ w' d', Edit w d w' d' ∧ d'.addrs j = a ∧ a ≠ 0 ∧ B = inWork k i d' w' := by
  refine Spec.op (.nodeInHand k i d _ w) ?_
  rintro x _ ⟨hx, rfl⟩
  rw [hx]
  split_ifs with h0
  · refine bspec_balloc.bind ?_
    rintro a _ ⟨w', hnew, rfl⟩
    refine (bspec_assign fun d => d.setAddr j a).next fun _ => ?_
    have hfoot' := hfoot w' a h0 hnew.ne hnew.zero
    rw [hnew.footprint_eq] at hfoot'
    refine Spec.ret
      ⟨w', d.setAddr j a, ⟨rfl, rfl, ?_, fun bn _ hne => ?_⟩, d.setAddr_self .., hnew.ne, ?_⟩
    · rw [hfoot']
      exact hnew.nodup hnodup
    · exact hmap w' a bn h0 hnew.ne hnew.zero (by rwa [hnew.mapping_eq])
    · rw [inWork, hfoot']
  · exact Spec.ret ⟨w, _, .refl hnodup, rfl, h0, rfl⟩

lemma bspec_bmapDirect (hbn : bn < NDIRECT) :
    Spec (BRule sb) (inWork k i d w) (bmapAddr sb k (direct bn)) fun a B =>
      ∃ w' d', Edit w d w' d' ∧ d'.addrs (direct bn) = a ∧ a ≠ 0 ∧ B = inWork k i d' w' := by
  refine bspec_bmapAddr hnodup (fun w a h0 ha _ => ?_) fun w a bn' h0 ha _ hne => ?_
  · rw [direct_eq hbn] at h0 ⊢
    exact footprint_setDirect _ h0 ha
  rw [mapping_setDirect hbn]
  split_ifs
  · exact ha
  · exact hne

lemma bspec_bmapIndirect :
    Spec (BRule sb) (inWork k i d w) (bmapAddr sb k indirect) fun a B =>
      ∃ w' d', Edit w d w' d' ∧ d'.addrs indirect = a ∧ a ≠ 0 ∧ B = inWork k i d' w' :=
  bspec_bmapAddr hnodup (fun _ _ h0 ha hw => footprint_setIndirect h0 ha hw)
    fun _ _ _ h0 _ hw hne => by rwa [mapping_setIndirect h0 hw]

lemma bspec_bmapWord (hind : d.addrs indirect ≠ 0)
    (hbn : ¬ bn < NDIRECT) (hmax : bn < MAXFILE) :
    Spec (BRule sb) (inWork k i d w) (bmapWord sb (d.addrs indirect) (bn - NDIRECT)) fun a B =>
      ∃ w', Edit w d w' d ∧ mapping w' d bn = a ∧ a ≠ 0 ∧ B = inWork k i d w' := by
  have hj : bn - NDIRECT < NINDIRECT := by
    simp only [MAXFILE] at hmax
    omega
  refine Spec.op (.wordInHand _ (bn - NDIRECT) k i d _ w (indirect_mem hind)) ?_
  rintro _ _ ⟨rfl, rfl⟩
  split_ifs with h0
  · refine bspec_balloc.bind ?_
    rintro a _ ⟨w', hnew, rfl⟩
    refine Spec.op (.write (.setWord _ (bn - NDIRECT) a) _ _ rfl k i d _ w'
      (mem_cons_of_mem (indirect_mem hind))) ?_
    rintro _ _ rfl
    have hfoot := footprint_setWord hind hj (w := w') (by rw [hnew.indirect hind]; exact h0) hnew.ne
    rw [hnew.footprint_eq] at hfoot
    refine Spec.ret ⟨Function.update w' (d.addrs indirect)
      ((w' (d.addrs indirect)).setWord (bn - NDIRECT) a),
      ⟨rfl, rfl, ?_, fun bn' hbn' hne => ?_⟩, ?_,
      hnew.ne, ?_⟩
    · rw [hfoot]
      exact hnew.nodup hnodup
    · rw [mapping_setWord hind hbn hmax hbn']
      split_ifs
      · exact hnew.ne
      · rwa [hnew.mapping_eq]
    · rw [mapping_setWord hind hbn hmax hmax, if_pos rfl]
    · rw [inWork, hfoot]
  · exact Spec.ret ⟨w, .refl hnodup, mapping_of_indirect hbn hind, h0, rfl⟩

lemma bspec_bmap (hmax : bn < MAXFILE) :
    Spec (BRule sb) (inWork k i d w) (bmap sb k bn) fun a B =>
      ∃ w' d', Edit w d w' d' ∧ mapping w' d' bn = a ∧ a ≠ 0 ∧ B = inWork k i d' w' := by
  rw [bmap]
  split_ifs with hbn hj
  · refine (bspec_bmapDirect hnodup hbn).mono ?_
    rintro a _ ⟨w', d', hedit, haddr, hne, rfl⟩
    exact ⟨w', d', hedit, (mapping_of_direct hbn).trans haddr, hne, rfl⟩
  · refine (bspec_bmapIndirect hnodup).bind ?_
    rintro _ _ ⟨w1, d1, hedit, rfl, hind, rfl⟩
    refine (bspec_bmapWord hedit.nodup hind hbn hmax).mono ?_
    rintro a _ ⟨w2, hedit2, hmap, hne, rfl⟩
    exact ⟨w2, d1, hedit.trans hedit2, hmap, hne, rfl⟩
  · simp only [MAXFILE] at hmax
    omega

/-! ### `writei` -/

/-- To write to a block of contents leaves the footprint. -/
lemma Edit.write (hmax : bn < MAXFILE) (hne : mapping w d bn ≠ 0)
    (x : Block) : Edit w d (Function.update w (mapping w d bn) x) d ∧
      footprint (Function.update w (mapping w d bn) x) d = footprint w d := by
  have hind : Function.update w (mapping w d bn) x (d.addrs indirect) = w (d.addrs indirect) :=
    Function.update_of_ne (mapping_mem hnodup hmax hne).2.symm ..
  have hfoot : footprint (Function.update w (mapping w d bn) x) d = footprint w d :=
    footprint_congr fun _ => hind
  refine ⟨⟨rfl, rfl, by rwa [hfoot], fun bn' _ hne' => ?_⟩, hfoot⟩
  rwa [mapping_congr fun _ => hind]

end

/-- The loop ends with blocks for all that it has written. -/
lemma bspec_writeiFrom (fuel : ℕ) : ∀ (off : ℕ) (src : List (Option Byte)) (d : Inode)
    (w : BitVec 32 → Block), (footprint w d).Nodup → Filled w d off →
    off + src.length ≤ MAXFILE * BSIZE →
    Spec (BRule sb) (inWork k i d w) (writeiFrom sb k off src fuel) fun last B =>
      ∃ w' d', Edit w d w' d' ∧ Filled w' d' last ∧ last ≤ MAXFILE * BSIZE ∧
        B = inWork k i d' w' := by
  induction fuel with
  | zero =>
    intro off src d w hnodup hfilled hoff
    exact Spec.ret ⟨w, d, .refl hnodup, hfilled, by omega, rfl⟩
  | succ fuel ih =>
    intro off src d w hnodup hfilled hoff
    rw [writeiFrom]
    split_ifs with hsrc
    · exact Spec.ret ⟨w, d, .refl hnodup, hfilled, by omega, rfl⟩
    have hlen : 0 < src.length := List.length_pos_of_ne_nil hsrc
    have hmax : off / BSIZE < MAXFILE := Nat.div_lt_of_lt_mul (by rw [mul_comm]; omega)
    refine (bspec_bmap hnodup hmax).bind ?_
    rintro _ _ ⟨w1, d1, hedit1, rfl, hne, rfl⟩
    refine Spec.op (.write (.copyin _ (off % BSIZE) _) _ _ rfl k i d1 _ w1
      (mapping_mem hedit1.nodup hmax hne).1) ?_
    rintro ok _ rfl
    obtain ⟨hedit2, hfoot⟩ := Edit.write hedit1.nodup hmax hne
      ((w1 (mapping w1 d1 (off / BSIZE))).paste (off % BSIZE)
        (Blk.mapped (src.take (min src.length (BSIZE - off % BSIZE)))))
    have hedit := hedit1.trans hedit2
    rw [← hfoot]
    split_ifs
    · refine (ih _ _ _ _ hedit.nodup (fun bn hbn hlt => ?_) ?_).mono ?_
      · -- a block that starts before the new offset starts before the old one, or is the last one
        rcases eq_or_ne bn (off / BSIZE) with rfl | hbn'
        · exact hedit2.kept _ hbn hne
        refine hedit.kept bn hbn (hfilled bn hbn ?_)
        simp only [BSIZE] at hlt hbn' ⊢
        omega
      · rw [List.length_drop]
        omega
      · rintro last _ ⟨w3, d3, hedit3, hfilled3, hle, rfl⟩
        exact ⟨w3, d3, hedit.trans hedit3, hfilled3, hle, rfl⟩
    · exact Spec.ret ⟨_, d1, hedit, hedit.filled hfilled, by omega, rfl⟩

/-- The inode is written to the disk and its blocks are given back. -/
lemma bspec_iupdate (htype : d.type ≠ 0) (hfilled : Filled w d d.size.toNat) :
    Spec (BRule sb) (inWork k i d w) (run (.iupdate k)) fun _ B => B = inOp k i d :=
  Spec.perform (.iupdate k i d w htype hfilled)

/-- The process has the lock of an inode that is allocated, inside a transaction. -/
def opened (k : ISlot) (i : ℕ) (B : Multiset BToken) : Prop := ∃ d, d.type ≠ 0 ∧ B = inOp k i d

lemma bspec_writei {off : ℕ} {src : List (Option Byte)} (htype : d.type ≠ 0) :
    Spec (BRule sb) (inOp k i d) (writei sb k off src) fun _ B => opened k i B := by
  by_cases hout : off > d.size.toNat ∨ off + src.length ≥ 2 ^ 32
  · refine Spec.opSeq (.node k i d) ?_
    rintro _ _ ⟨rfl, -, rfl⟩
    rw [if_pos hout]
    exact Spec.ret ⟨_, htype, rfl⟩
  by_cases hlong : off + src.length > MAXFILE * BSIZE
  · refine Spec.opSeq (.node k i d) ?_
    rintro _ _ ⟨rfl, -, rfl⟩
    rw [if_neg hout, if_pos hlong]
    exact Spec.ret ⟨_, htype, rfl⟩
  refine bspec_take fun w hnodup hfilled => ?_
  rw [if_neg hout, if_neg hlong]
  rw [not_or] at hout
  refine (bspec_writeiFrom _ off src d w hnodup
    (fun bn hbn hlt => hfilled bn hbn (by omega)) (by omega)).bind ?_
  rintro last _ ⟨w1, d1, hedit, hlast, hle, rfl⟩
  refine (bspec_assign _).next fun _ => ?_
  -- the size is the old one, or the end of what is written
  have hbound : MAXFILE * BSIZE < 2 ^ 32 := by decide
  have hnode : ∃ d2, (if last > d1.size.toNat then { d1 with
      size := BitVec.ofNat 32 last } else d1) =
      d2 ∧ d2.addrs = d1.addrs ∧ d2.type = d1.type ∧ Filled w1 d1 d2.size.toNat := by
    split_ifs
    · refine ⟨_, rfl, rfl, rfl, ?_⟩
      rw [BitVec.toNat_ofNat, Nat.mod_eq_of_lt (by omega)]
      exact hlast
    refine ⟨_, rfl, rfl, rfl, ?_⟩
    rw [hedit.size]
    exact hedit.filled hfilled
  obtain ⟨d2, hd2, haddrs, htype2, hfilled2⟩ := hnode
  rw [hd2, ← footprint_of_addrs haddrs]
  have htype' : d2.type ≠ 0 := by rwa [htype2, hedit.type]
  refine (bspec_iupdate htype' fun bn hbn hlt => ?_).bind ?_
  · rw [mapping_of_addrs haddrs]
    exact hfilled2 bn hbn hlt
  · rintro _ _ rfl
    exact Spec.ret ⟨d2, htype', rfl⟩

/-- Assignments to the fields, but not to the type, the size and the blocks. -/
lemma bspec_update {f : Inode → Inode} (hf : (f d).addrs = d.addrs ∧ (f d).type = d.type ∧
    (f d).size = d.size) (htype : d.type ≠ 0) :
    Spec (BRule sb) (inOp k i d) (update k f) fun _ B => opened k i B := by
  obtain ⟨haddrs, htype', hsize⟩ := hf
  have hassign : Spec (BRule sb) (inOp k i d) (assign k f) fun _ B =>
      ∃ w, Filled w (f d) (f d).size.toNat ∧ B = inWork k i (f d) w := by
    refine bspec_take fun w _ hfilled => ?_
    refine (Spec.perform (.setNode k i d (f d) _ w)).mono ?_
    rintro _ _ rfl
    refine ⟨w, fun bn hbn hlt => ?_, by rw [inWork, footprint_of_addrs haddrs]⟩
    rw [mapping_of_addrs haddrs]
    exact hfilled bn hbn (by rwa [hsize] at hlt)
  refine hassign.bind ?_
  rintro _ _ ⟨w, hfilled, rfl⟩
  exact (bspec_iupdate (by rwa [htype']) hfilled).mono fun _ _ hB => ⟨f d, by rwa [htype'], hB⟩

end Hexv6.Ino
