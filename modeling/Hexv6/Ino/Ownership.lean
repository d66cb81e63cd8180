import Hexv6.Ino.BlockCalls

/-!
# Who owns the blocks

In every run of the calls that use inodes, whenever no transaction is open, a data block is marked
in the free map exactly if one allocated inode refers to it, once, and no free block is freed
(`ownership_of_run`).

This needs an image in which inodes refer to data blocks only, and to none twice.  If an inode
refers to a metadata block, then its truncation clears the bit of that block
(`not_ownership_of_metadata`).
-/

namespace Hexv6.Ino

open Lib Multiset
open Blk (Inode)

/-! ### Calls -/

/-- The calls, and `readi` of a locked inode, which may be outside of a transaction. -/
inductive BCall
  | base (c : Call)
  | readi (ip : ISlot) (off : ℕ) (dst : List Bool)

/-- The program of a call. -/
def bbody (sb : Super) : BCall → Held → Option (Kernel Held)
  | .base c, a => body sb c a
  | .readi ip off dst, a =>
    if ip ∈ a.locks then some do let _ ← readi sb ip off dst; pure a else none

/-- One step of the system. -/
def bstep {P : Type} [DecidableEq P] (sb : Super) : Sys P → Act P BCall → Except Panic (Sys P) :=
  poolStep (exec sb) (bbody sb) .disabled

/-- The token of an open transaction. -/
def opTokens (inOp : Bool) : Multiset BToken := if inOp = true then {.op} else 0

/-- What a process holds between two calls. -/
def BHolds (a : Held) (r : Multiset BToken) : Prop :=
  ∃ R L, Rel IsRef a.refs R ∧ Rel IsLock a.locks L ∧ r = (R + L).map .slot + opTokens a.inOp

section Calls

variable {α : Type} {sb : Super} {k : ISlot} {a : Held} {g : Kernel Held} {r : Multiset BToken}

lemma slots_cons (t : Token) (R : Multiset Token) (C : Multiset BToken) :
    ({t} + R).map BToken.slot + C = {.slot t} + (R.map .slot + C) := by
  rw [Multiset.map_add, map_singleton, add_assoc]

/-- A function for an inode that the process has locked. -/
lemma bspec_onLocked {f : Kernel α}
    (hf : ∀ i d, d.type ≠ 0 → Spec (BRule sb) (inOp k i d) f fun _ B => opened k i B)
    (hg : onLocked a k f = some g) (hr : BHolds a r) : Spec (BRule sb) r g BHolds := by
  rw [onLocked] at hg
  split_ifs at hg with ha
  cases hg
  obtain ⟨R, L, hR, hL, rfl⟩ := hr
  obtain ⟨_, L', ⟨i, d, hd, rfl⟩, hL', rfl⟩ := rel_of_mem hL ha.2
  have hsplit : ∀ d : Inode, (R + ({⟨k, i, .lock d true⟩} + L')).map .slot + opTokens a.inOp =
      inOp k i d + (R + L').map BToken.slot := by
    intro d
    rw [opTokens, if_pos ha.1, add_left_comm R, slots_cons, inOp, add_comm (map _ _), add_assoc]
  rw [hsplit d]
  refine (hf i d hd).seq ?_
  rintro _ _ ⟨d', hd', rfl⟩
  refine Spec.ret ⟨R, {⟨k, i, .lock d' true⟩} + L', hR, ?_, (hsplit d').symm⟩
  have hcons : (a.locks : Multiset ISlot) = k ::ₘ (a.locks.erase k : List ISlot) := by
    rw [← coe_erase, cons_erase (mem_coe.2 ha.2)]
  rw [hcons]
  exact hL'.cons ⟨i, d', hd', rfl⟩

/-- Every call ends with the tokens of what the process then holds. -/
lemma bspec_body {c : Call} (hg : body sb c a = some g) (hr : BHolds a r) :
    Spec (BRule sb) r g BHolds := by
  obtain ⟨R, L, hR, hL, rfl⟩ := id hr
  cases c with rw [body] at hg
  | beginOp =>
    split_ifs at hg with hop
    cases hg
    rw [opTokens, hop, if_neg Bool.false_ne_true, add_comm]
    refine Spec.opSeq .beginOp ?_
    rintro _ _ rfl
    exact Spec.ret ⟨R, L, hR, hL, add_comm _ _⟩
  | endOp =>
    split_ifs at hg with hop
    cases hg
    rw [opTokens, if_pos hop, add_comm]
    refine Spec.opSeq .endOp ?_
    rintro _ _ rfl
    exact Spec.ret ⟨R, L, hR, hL, add_comm _ _⟩
  | iget inum =>
    split_ifs at hg with hi
    cases hg
    rw [← zero_add ((R + L).map _ + _)]
    refine Spec.opSeq (.iget inum hi) ?_
    rintro k _ rfl
    refine Spec.ret ⟨_, L, rel_cons ⟨inum, rfl⟩ hR, hL, ?_⟩
    rw [add_assoc {_} R L, slots_cons]
  | idup ip =>
    split_ifs at hg with hip
    cases hg
    obtain ⟨_, R', ⟨i, rfl⟩, hR', rfl⟩ := rel_of_mem hR hip
    rw [add_assoc {_}, slots_cons]
    refine (bspec_table (.idup ip i) rfl).seq ?_
    rintro _ _ ⟨_, rfl, rfl⟩
    refine Spec.ret ⟨_, L, rel_cons ⟨i, rfl⟩ hR, hL, ?_⟩
    simp only [Multiset.map_add, map_singleton, add_assoc]
  | ilock ip =>
    split_ifs at hg with hip
    cases hg
    obtain ⟨_, R', ⟨i, rfl⟩, hR', rfl⟩ := rel_of_mem hR hip
    rw [add_assoc {_}, slots_cons]
    have hlock : Spec (BRule sb) {.slot ⟨ip, i, .ref⟩} (ilock ip) fun _ B =>
        ∃ d : Inode, d.type ≠ 0 ∧ B = {.slot ⟨ip, i, .lock d true⟩} := by
      refine (bspec_table (.acquiresleep ip i) rfl).bind ?_
      rintro _ _ ⟨_, rfl, rfl⟩
      refine (bspec_table (.readInode ip i) rfl).mono ?_
      rintro _ _ ⟨_, ⟨d, hd, rfl⟩, rfl⟩
      exact ⟨d, hd, map_singleton ..⟩
    refine hlock.seq ?_
    rintro _ _ ⟨d, hd, rfl⟩
    refine Spec.ret ⟨R', _, hR', rel_cons ⟨i, d, hd, rfl⟩ hL, ?_⟩
    rw [add_left_comm R', slots_cons]
  | iunlock ip =>
    split_ifs at hg with hip
    cases hg
    obtain ⟨_, L', ⟨i, d, hd, rfl⟩, hL', rfl⟩ := rel_of_mem hL hip
    rw [add_left_comm R, slots_cons]
    refine (bspec_table (.iunlock ip i d) rfl).seq ?_
    rintro _ _ ⟨_, rfl, rfl⟩
    refine Spec.ret ⟨_, L', rel_cons ⟨i, rfl⟩ hR, hL', ?_⟩
    rw [map_singleton, add_assoc {_} R, slots_cons]
  | iput ip =>
    split_ifs at hg with hip
    cases hg
    obtain ⟨_, R', ⟨i, rfl⟩, hR', rfl⟩ := rel_of_mem hR hip.2
    rw [add_assoc {_}, slots_cons, opTokens, if_pos hip.1, add_comm (map _ _), ← add_assoc]
    refine bspec_iput.seqNext fun _ => ?_
    refine Spec.ret ⟨R', L, hR', hL, ?_⟩
    rw [opTokens, if_pos hip.1, add_comm]
  | ialloc type =>
    split_ifs at hg
    cases hg
    rw [← zero_add ((R + L).map _ + _)]
    refine bspec_ialloc.seq ?_
    rintro k _ ⟨i, rfl⟩
    refine Spec.ret ⟨_, L, rel_cons ⟨i, rfl⟩ hR, hL, ?_⟩
    rw [add_assoc {_} R L, slots_cons]
  | init ip major minor | nlinkUp ip | nlinkDown ip =>
    refine bspec_onLocked (fun i d hd => ?_) hg hr
    exact bspec_update ⟨rfl, rfl, rfl⟩ hd
  | itrunc ip =>
    refine bspec_onLocked (fun i d hd => (bspec_itrunc hd).mono ?_) hg hr
    rintro _ _ ⟨d', hd', -, rfl⟩
    exact ⟨d', hd', rfl⟩
  | writei ip off src => exact bspec_onLocked (fun i d hd => bspec_writei hd) hg hr

lemma bspec_readiCall {ip : ISlot} {off : ℕ} {dst : List Bool} (hip : ip ∈ a.locks)
    (hr : BHolds a r) :
    Spec (Reads sb) r (do let _ ← readi sb ip off dst; pure a) BHolds := by
  obtain ⟨R, L, hR, hL, rfl⟩ := hr
  obtain ⟨_, L', ⟨i, d, hd, rfl⟩, hL', rfl⟩ := rel_of_mem hL hip
  rw [add_left_comm R, slots_cons]
  refine bspec_readi.seqNext fun _ => ?_
  refine Spec.ret ⟨R, _, hR, hL, ?_⟩
  rw [add_left_comm R, slots_cons]

lemma bspec_bbody {c : BCall} (hg : bbody sb c a = some g) (hr : BHolds a r) :
    Spec (BRule sb) r g BHolds := by
  cases c with
  | base c => exact bspec_body hg hr
  | readi ip off dst =>
    rw [bbody] at hg
    split_ifs at hg with hip
    cases hg
    exact (bspec_readiCall hip hr).lift (fun _ _ _ _ h => h.1) (Prog.within_true _)

end Calls

/-! ### Images -/

section Images

variable {P : Type} {sb : Super} {s : State P} {W : Multiset BToken}

/-- How often allocated inodes refer to a block, from `addrs` or from their indirect blocks. -/
def refs (sb : Super) (s : State P) (a : BitVec 32) : ℕ :=
  ∑ i ∈ Finset.range sb.ninodes.toNat, (owned s i).count a

/-- The bits of the free map are those of the metadata blocks and of the data blocks to which one
inode refers, once. -/
structure Marked (sb : Super) (s : State P) : Prop where
  metadata : ∀ a, sb.Meta a → s.bit a = true
  data : ∀ a, ¬ sb.Meta a → a.toNat < sb.size.toNat → (s.bit a = true ↔ refs sb s a = 1)

/-- All blocks below the sizes of the inodes are allocated. -/
def AllFilled (sb : Super) (s : State P) : Prop :=
  ∀ i < sb.ninodes.toNat, (s.dinode i).type ≠ 0 → Filled s.blk (s.dinode i) (s.dinode i).size.toNat

/-- Inodes refer to data blocks only, and to none twice. -/
def Proper (sb : Super) (s : State P) : Prop :=
  ∀ a, refs sb s a ≠ 0 → ¬ sb.Meta a ∧ a.toNat < sb.size.toNat ∧ refs sb s a = 1

lemma refs_eq_count (a : BitVec 32) :
    refs sb s a = (∑ i ∈ Finset.range sb.ninodes.toNat, owned s i).count a := by
  rw [refs, Multiset.count_sum']

lemma count_allocated (a : BitVec 32) :
    (allocated sb s).val.count a = if a ∈ allocated sb s then 1 else 0 := by
  split_ifs with h
  · exact count_eq_one_of_mem (allocated sb s).nodup h
  · exact count_eq_zero_of_notMem h

/-- When no transaction is open, nobody has a block in hand. -/
lemma BlockInv.blocks_of_idle (h : BlockInv sb s W) (hidle : s.outstanding = 0) :
    ∑ i ∈ Finset.range sb.ninodes.toNat, owned s i = (allocated sb s).val ∧
      ∀ i, W.countP (·.opens i) = 0 := by
  have hnone : ∀ t ∈ W, t.isOp = false := by
    have hops := h.ops
    rw [hidle, eq_comm, countP_eq_zero] at hops
    exact fun t ht => by simpa using hops t ht
  have hopens : ∀ i, W.countP (·.opens i) = 0 := by
    intro i
    rw [countP_eq_zero]
    intro t ht hopen
    have hop := hnone t ht
    cases t with
    | work => cases hop
    | _ => cases hopen
  have hhand : inHand W = 0 := by
    refine sum_eq_zero fun H hH => ?_
    obtain ⟨t, ht, rfl⟩ := mem_map.1 hH
    have hop := hnone t ht
    cases t with
    | work => cases hop
    | _ => rfl
  refine ⟨?_, hopens⟩
  rw [← h.blocks, hhand, add_zero]
  exact Finset.sum_congr rfl fun i _ => (if_pos (hopens i)).symm

lemma BlockInv.image (h : BlockInv sb s W) (hidle : s.outstanding = 0) :
    Marked sb s ∧ AllFilled sb s ∧ Proper sb s := by
  obtain ⟨hblocks, hopens⟩ := h.blocks_of_idle hidle
  have hrefs : ∀ a, refs sb s a = if a ∈ allocated sb s then 1 else 0 := fun a => by
    rw [refs_eq_count, hblocks, count_allocated]
  refine ⟨⟨h.bits, fun a hm ha => ?_⟩, fun i hi => h.filled i hi (hopens i), fun a hne => ?_⟩
  · have hmem : a ∈ allocated sb s ↔ _ := mem_allocated
    rw [hrefs]
    split_ifs with hal
    · simp [(hmem.1 hal).2.2]
    · simp only [iff_false]
      exact fun hbit => hal (hmem.2 ⟨hm, ha, hbit⟩)
  rw [hrefs] at hne ⊢
  split_ifs at hne ⊢ with hal
  · exact ⟨(mem_allocated.1 hal).1, (mem_allocated.1 hal).2.1, rfl⟩
  · exact absurd rfl hne

/-- The invariant at the start. -/
lemma blockInv_start (hstart : Start s) (hidle : s.outstanding = 0) (hmarked : Marked sb s)
    (hfilled : AllFilled sb s) (hproper : Proper sb s) : BlockInv sb s 0 where
  table :=
    { means := by simp, refs := hstart, locks := fun k => Nat.zero_le _
      unique := fun k k' hpos => absurd hpos (by rw [hstart k]; decide)
      coh := fun k hpos => absurd hpos (by rw [hstart k]; decide) }
  inums := by simp
  ops := hidle
  knows := by simp
  bits := hmarked.metadata
  blocks := by
    have hrest : atRest sb s 0 = ∑ i ∈ Finset.range sb.ninodes.toNat, owned s i :=
      Finset.sum_congr rfl fun i _ => if_pos rfl
    rw [hrest, show inHand 0 = 0 from rfl, add_zero]
    refine Multiset.ext.2 fun a => ?_
    rw [← refs_eq_count, count_allocated]
    split_ifs with hal
    · obtain ⟨hm, ha, hbit⟩ := mem_allocated.1 hal
      exact (hmarked.data a hm ha).1 hbit
    by_contra hne
    obtain ⟨hm, ha, hone⟩ := hproper a hne
    exact hal (mem_allocated.2 ⟨hm, ha, (hmarked.data a hm ha).2 hone⟩)
  filled := fun i hi _ => hfilled i hi

end Images

/-! ### Runs -/

section Runs

variable {P : Type} [Fintype P] [DecidableEq P] {sb : Super}

/-- The tokens can be divided among the processes. -/
def BDivided (sb : Super) (s : Sys P) : Prop :=
  Owned (framed (BRule sb)) (fun s res => BlockInv sb s (∑ p, res p)) BHolds s

lemma BDivided.ne_error {s : Sys P} (h : BDivided sb s) (act : Act P BCall) {e : Panic}
    (he : e = .freeingFreeBlock ∨ e = .metadata) : bstep sb s act ≠ .error e := by
  refine Owned.ne_error e (by rcases he with rfl | rfl <;> decide) ?_ h meets_true
  · intro s res p o Φ hinv hrule hM
    exact safe_framed (M := fun _ _ => True) (fun hr hi _ => hr.ne_error hi he) hinv hrule trivial

/-- In every run, each data block is marked exactly if one allocated inode refers to it, once,
whenever no transaction is open; no free block is freed, and no metadata block is written as a data
block. -/
theorem ownership_of_run {s₀ : State P} (hstart : Start s₀) (hidle : s₀.outstanding = 0)
    (hmarked : Marked sb s₀) (hfilled : AllFilled sb s₀) (hproper : Proper sb s₀)
    {tr : List (Sys P × Act P BCall)} {s : Sys P} (h : Run (bstep sb) (boot s₀) tr s) :
    (s.shared.outstanding = 0 → Marked sb s.shared ∧ AllFilled sb s.shared ∧ Proper sb s.shared) ∧
    ∀ act, bstep sb s act ≠ .error .freeingFreeBlock ∧ bstep sb s act ≠ .error .metadata := by
  have hboot : BDivided sb (boot s₀ : Sys P) := by
    refine ⟨fun _ => 0, ?_, fun p => ⟨0, 0, .zero, .zero, rfl⟩⟩
    change BlockInv sb s₀ (∑ _p : P, 0)
    rw [Finset.sum_const_zero]
    exact blockInv_start hstart hidle hmarked hfilled hproper
  have hdiv := h.invariant' (fun s a t hs hstep => ?_) hboot
  · refine ⟨fun hout => ?_, fun act => ⟨hdiv.2.ne_error act (.inl rfl),
      hdiv.2.ne_error act (.inr rfl)⟩⟩
    obtain ⟨res, hinv, -⟩ := hdiv.2
    exact hinv.image hout
  refine Owned.of_poolStep ?_ (fun c a m r hm hr => (bspec_bbody hm hr).own) hs meets_true hstep
  exact sound_framed (M := fun _ _ => True) fun hrule hinv _ hx => hrule.sound hinv hx

end Runs

/-! ### Two runs -/

section Scripts

variable {P : Type} {d : Inode}

/-- A disk with one file, on which only the metadata blocks are marked. -/
def oneFile (d : Inode) : State P :=
  { itable := fun _ => { node := .fresh 0 }, dinode := fun i => if i = 1 then d else .fresh 0
    bit := fun a => decide (smallSuper.Meta a), blk := fun _ => .zero }

lemma refs_oneFile (hd : d.type ≠ 0) (a : BitVec 32) :
    refs smallSuper (oneFile d : State P) a = (footprint (fun _ => .zero) d).count a := by
  have hzero : owned (oneFile d : State P) 0 = 0 := if_pos rfl
  have hone : owned (oneFile d : State P) 1 = footprint (fun _ => .zero) d := if_neg hd
  have htwo : owned (oneFile d : State P) 2 = 0 := if_pos rfl
  rw [refs, show smallSuper.ninodes.toNat = 3 from rfl, Finset.sum_range_succ,
    Finset.sum_range_succ,
    Finset.sum_range_one, hzero, hone, htwo, count_zero, zero_add, add_zero]

lemma marked_oneFile (hd : d.type ≠ 0) (h : ∀ a ∈ footprint (fun _ => .zero) d, smallSuper.Meta a) :
    Marked smallSuper (oneFile d : State P) where
  metadata a ha := decide_eq_true ha
  data a ha _ := by
    have hcount : (footprint (fun _ => .zero) d).count a = 0 :=
      count_eq_zero_of_notMem fun hmem => ha (h a hmem)
    have hbit : (oneFile d : State P).bit a = false := decide_eq_false ha
    rw [refs_oneFile hd, hcount, hbit]
    decide

lemma allFilled_oneFile (hd : d.size = 0) : AllFilled smallSuper (oneFile d : State P) := by
  intro i _ htype bn _ hlt
  have hnode : (oneFile d : State P).dinode i = if i = 1 then d else .fresh 0 := rfl
  rw [hnode] at hlt htype
  split_ifs at hlt htype with hi
  · rw [hd] at hlt
    exact absurd hlt (Nat.not_lt_zero _)
  · exact absurd rfl htype

/-- A transaction in which inode 1 is locked. -/
def locking : List (BCall × ℕ) :=
  [(.base .beginOp, 1), (.base (.iget 1), 1), (.base (.ilock 0), 2)]

/-- A write fails when its block is allocated already. -/
def failedWrite {P : Type} (p : P) : List (Act P BCall) :=
  script p (locking ++ [(.base (.writei 0 0 [none]), 10), (.base .endOp, 1),
    (.readi 0 0 [true], 1)])

/-- The theorem at a run in which a write fails. -/
theorem ownership_of_run_failed : ∃ tr s,
    Run (bstep smallSuper) (boot (oneFile (.fresh 2)) : Sys (Fin 1)) tr s ∧
    s.shared.bit 41 = true ∧ (s.shared.dinode 1).size = 0 ∧
    Marked smallSuper s.shared ∧ ∀ act, bstep smallSuper s act ≠ .error .freeingFreeBlock ∧
      bstep smallSuper s act ≠ .error .metadata := by
  obtain ⟨s, hs, htest⟩ := exists_of_okAnd
      (runList (bstep smallSuper) (boot (oneFile (.fresh 2))) (failedWrite (0 : Fin 1)))
      (fun s => decide (s.shared.bit 41 = true ∧ (s.shared.dinode 1).size = 0 ∧
      s.shared.outstanding = 0)) (by decide +kernel)
  obtain ⟨hbit, hsize, hout⟩ := of_decide_eq_true htest
  have htype : (Inode.fresh 2).type ≠ 0 := by decide
  have hproper : Proper smallSuper (oneFile (.fresh 2) : State (Fin 1)) := fun a hne =>
    absurd (by rw [refs_oneFile htype, footprint_fresh, count_zero]) hne
  have hrun := ownership_of_run (fun _ => rfl) rfl (marked_oneFile htype (by simp))
    (allFilled_oneFile rfl) hproper (.of_runList hs)
  exact ⟨_, s, .of_runList hs, hbit, hsize, (hrun.1 hout).1, hrun.2⟩

/-- A file whose first block is a metadata block. -/
def astray : Inode := (Inode.fresh 2).setAddr (⟨0, by decide⟩ : Fin NDIRECT).castSucc 1

lemma footprint_astray : footprint (fun _ => .zero) astray = {1} := by
  rw [astray, footprint_setDirect _ rfl (by decide), footprint_fresh]
  rfl

def truncate {P : Type} (p : P) : List (Act P BCall) :=
  script p (locking ++ [(.base (.itrunc 0), 19), (.base .endOp, 1)])

/-- If an inode refers to a metadata block, then its truncation clears the bit of that block. -/
theorem not_ownership_of_metadata : ¬ ∀ sb (s₀ : State (Fin 1)), Start s₀ → s₀.outstanding = 0 →
    Marked sb s₀ → AllFilled sb s₀ → ∀ tr s, Run (bstep sb) (boot s₀) tr s →
      s.shared.outstanding = 0 → Marked sb s.shared := by
  intro hall
  obtain ⟨s, hs, htest⟩ := exists_of_okAnd
      (runList (bstep smallSuper) (boot (oneFile astray)) (truncate (0 : Fin 1)))
      (fun s => decide (s.shared.bit 1 = false ∧ s.shared.outstanding = 0)) (by decide +kernel)
  obtain ⟨hbit, hout⟩ := of_decide_eq_true htest
  have hmarked : Marked smallSuper (oneFile astray : State (Fin 1)) := by
    refine marked_oneFile (by decide) fun a ha => ?_
    rw [footprint_astray, mem_singleton] at ha
    rw [ha]
    decide
  have hend := hall smallSuper _ (fun _ => rfl) rfl hmarked (allFilled_oneFile rfl) _ s
    (.of_runList hs) hout
  rw [hend.metadata 1 (by decide)] at hbit
  cases hbit

end Scripts

end Hexv6.Ino
