import Hexv6.File.Contents

/-!
# Buffers and `log_write`

The functions that write to the disk, with the buffer cache and the calls of `log_write`.  `bread`
gives the buffer of a block.  A block that is passed to `log_write` stays in the cache until the
transaction commits, and the commit writes what is then in the buffer.  A buffer that has been
changed and was not passed to `log_write` can be dropped from the cache at any time, and the next
`bread` gives the old block again.

On the contents of the buffers these functions are those of `File.Rw` (`writei_buf`).
-/

namespace Hexv6.File

open Blk

/-- The buffers, and the blocks that have been passed to `log_write` in this transaction. -/
structure Store where
  buf : Disk
  logged : List ℕ

namespace Store

/-- Change the buffer of block `b`. -/
def set (s : Store) (b : ℕ) (blk : Block) : Store := { s with buf := Function.update s.buf b blk }

/-- `log_write`. -/
def logWrite (s : Store) (b : ℕ) : Store := { s with logged := b :: s.logged }

/-- `balloc`. -/
def balloc (sb : Super) (s : Store) : Option (Store × BitVec 32) :=
  match (List.range sb.size).find? fun b => !sb.used s.buf b with
  | none => none
  | some b =>
    let s := (s.set (sb.bblock b) ((s.buf (sb.bblock b)).setBit (b % BPB))).logWrite (sb.bblock b)
    some ((s.set b Block.zero).logWrite b, BitVec.ofNat 32 b)

/-- `bmap` for an entry of `addrs`. -/
def bmapAddr (sb : Super) (s : Store) (ip : Inode) (j : Fin (NDIRECT + 1)) :
    Option (Store × Inode × BitVec 32) :=
  if ip.addrs j = 0 then
    match balloc sb s with
    | none => none
    | some (s, addr) => some (s, ip.setAddr j addr, addr)
  else some (s, ip, ip.addrs j)

/-- `bmap` for an entry of the indirect block `a`. -/
def bmapWord (sb : Super) (s : Store) (a bn : ℕ) : Option (Store × BitVec 32) :=
  if (s.buf a).word bn = 0 then
    match balloc sb s with
    | none => none
    | some (s, addr) => some ((s.set a ((s.buf a).setWord bn addr)).logWrite a, addr)
  else some (s, (s.buf a).word bn)

/-- `bmap`. -/
def bmap (sb : Super) (s : Store) (ip : Inode) (bn : ℕ) : Option (Store × Inode × BitVec 32) :=
  if h : bn < NDIRECT then bmapAddr sb s ip ⟨bn, Nat.lt_succ_of_lt h⟩
  else if bn - NDIRECT < NINDIRECT then
    match bmapAddr sb s ip indirect with
    | none => none
    | some (s, ip, a) =>
      match bmapWord sb s a.toNat (bn - NDIRECT) with
      | none => none
      | some (s, addr) => some (s, ip, addr)
  else none

/-- The loop of `writei`.  A copy that fails has changed the buffer already. -/
def writeLoop (sb : Super) (copyin : ℕ → ℕ → List Byte × Bool) (n : ℕ) (s : Store) (ip : Inode)
    (tot off : ℕ) : Option (Store × Inode × ℕ × ℕ) :=
  if _h : tot < n then
    match bmap sb s ip (off / BSIZE) with
    | none => none
    | some (s, ip, a) =>
      let m := chunk n tot off
      let (bytes, ok) := copyin tot m
      let s := s.set a.toNat ((s.buf a.toNat).paste (off % BSIZE) bytes)
      if ok then writeLoop sb copyin n (s.logWrite a.toNat) ip (tot + m) (off + m)
      else some (s, ip, tot, off)
  else some (s, ip, tot, off)
termination_by n - tot
decreasing_by
  have := chunk_pos off _h
  omega

/-- `iupdate`. -/
def iupdate (sb : Super) (s : Store) (inum : ℕ) (ip : Inode) : Store :=
  (s.set (sb.iblock inum) ((s.buf (sb.iblock inum)).setDinode (inum % IPB) ip)).logWrite
    (sb.iblock inum)

/-- `writei`: the result, the buffers and the inode. -/
def writei (sb : Super) (copyin : ℕ → ℕ → List Byte × Bool) (s : Store) (inum : ℕ) (ip : Inode)
    (off n : BitVec 32) : Option (ℤ × Store × Inode) :=
  if off > ip.size ∨ off + n < off then some (-1, s, ip)
  else if off + n > BitVec.ofNat 32 (MAXFILE * BSIZE) then some (-1, s, ip)
  else
    match writeLoop sb copyin n.toNat s ip 0 off.toNat with
    | none => none
    | some (s, ip, tot, off) =>
      let ip := if off > ip.size.toNat then { ip with size := BitVec.ofNat 32 off } else ip
      some (tot, iupdate sb s inum ip, ip)

variable {sb : Super} {s s' : Store} {ip ip' : Inode} {a : BitVec 32} {bn : ℕ}

@[simp] lemma set_logged (b : ℕ) (blk : Block) : (s.set b blk).logged = s.logged := rfl

@[simp] lemma logWrite_buf (b : ℕ) : (s.logWrite b).buf = s.buf := rfl

@[simp] lemma logWrite_logged (b : ℕ) : (s.logWrite b).logged = b :: s.logged := rfl

@[simp] lemma set_buf (b : ℕ) (blk : Block) : (s.set b blk).buf = Function.update s.buf b blk := rfl

/-! ### The contents of the buffers -/

lemma balloc_buf : (balloc sb s).map (Prod.map buf id) = File.balloc sb s.buf := by
  rw [balloc, File.balloc]
  cases (List.range sb.size).find? fun b => !sb.used s.buf b <;> rfl

lemma bmapAddr_buf (j : Fin (NDIRECT + 1)) :
    (bmapAddr sb s ip j).map (Prod.map buf id) = File.bmapAddr sb s.buf ip j := by
  rw [bmapAddr, File.bmapAddr, ← balloc_buf]
  split_ifs
  · cases balloc sb s <;> rfl
  · rfl

lemma bmapWord_buf (i k : ℕ) :
    (bmapWord sb s i k).map (Prod.map buf id) = File.bmapWord sb s.buf i k := by
  rw [bmapWord, File.bmapWord, ← balloc_buf]
  split_ifs
  · cases balloc sb s <;> rfl
  · rfl

lemma bmap_buf : (bmap sb s ip bn).map (Prod.map buf id) = File.bmap sb s.buf ip bn := by
  rw [bmap, File.bmap]
  split_ifs
  · exact bmapAddr_buf _
  · rw [← bmapAddr_buf]
    rcases bmapAddr sb s ip indirect with _ | ⟨s1, ip1, a1⟩
    · rfl
    simp only [Option.map_some, Prod.map, id, ← bmapWord_buf]
    cases bmapWord sb s1 a1.toNat (bn - NDIRECT) <;> rfl
  · rfl

/-- By induction on the bytes that are left. -/
lemma writeLoop_buf (copyin : ℕ → ℕ → List Byte × Bool) (n : ℕ) (s : Store) (ip : Inode)
    (tot off : ℕ) :
    (writeLoop sb copyin n s ip tot off).map (Prod.map buf id) =
      File.writeLoop sb copyin n s.buf ip tot off := by
  rw [writeLoop, File.writeLoop]
  split_ifs with h
  · rw [← bmap_buf]
    rcases bmap sb s ip (off / BSIZE) with _ | ⟨s1, ip1, a⟩
    · rfl
    have hpos := chunk_pos off h
    simp only [Option.map_some, Prod.map, id]
    split_ifs
    · exact writeLoop_buf copyin n _ ip1 _ _
    · rfl
  · rfl
termination_by n - tot

theorem writei_buf (copyin : ℕ → ℕ → List Byte × Bool) (inum : ℕ) (off n : BitVec 32) :
    (writei sb copyin s inum ip off n).map (Prod.map id (Prod.map buf id)) =
      File.writei sb copyin s.buf inum ip off n := by
  rw [writei, File.writei]
  split_ifs
  · rfl
  · rfl
  · rw [← writeLoop_buf]
    cases writeLoop sb copyin n.toNat s ip 0 off.toNat <;> rfl

/-! ### What a step does to the log -/

/-- `s'` comes from `s` by changes of buffers, all of which are in the log. -/
structure Logs (s s' : Store) (B : Finset ℕ) : Prop where
  logged : ∀ b, b ∈ s'.logged ↔ b ∈ B ∨ b ∈ s.logged
  clean : ∀ b, b ∉ s'.logged → s'.buf b = s.buf b

lemma Logs.refl (s : Store) : Logs s s ∅ := ⟨fun b => by simp, fun _ _ => rfl⟩

lemma Logs.trans {s'' : Store} {B B' : Finset ℕ} (h : Logs s s' B) (h' : Logs s' s'' B') :
    Logs s s'' (B ∪ B') := by
  refine ⟨fun b => ?_, fun b hb => ?_⟩
  · rw [h'.logged, h.logged, Finset.mem_union]
    tauto
  · have hb' : b ∉ s'.logged := fun hm => hb ((h'.logged b).2 (.inr hm))
    rw [h'.clean b hb, h.clean b hb']

lemma Logs.write (s : Store) (b : ℕ) (blk : Block) : Logs s ((s.set b blk).logWrite b) {b} := by
  refine ⟨fun c => by simp, fun c hc => ?_⟩
  have hne : c ≠ b := fun h => hc (by simp [h])
  exact Function.update_of_ne hne ..

/-- `balloc` logs the block of the map, and the block. -/
lemma balloc_some (h : balloc sb s = some (s', a)) :
    ∃ b, a = BitVec.ofNat 32 b ∧ b < sb.size ∧ Logs s s' {sb.bblock b, b} := by
  rw [balloc] at h
  rcases hfind : (List.range sb.size).find? fun b => !sb.used s.buf b with _ | b
  · rw [hfind] at h
    cases h
  rw [hfind] at h
  cases h
  refine ⟨b, rfl, ?_, ?_⟩
  · exact List.mem_range.1 (List.mem_of_find?_eq_some hfind)
  · exact (Logs.write s _ _).trans (Logs.write _ b Block.zero)

lemma bmapAddr_some {j : Fin (NDIRECT + 1)} (h : bmapAddr sb s ip j = some (s', ip', a)) :
    s' = s ∧ ip' = ip ∧ ip.addrs j ≠ 0 ∨ ip.addrs j = 0 ∧ ip' = ip.setAddr j a ∧
      ∃ b, a = BitVec.ofNat 32 b ∧ b < sb.size ∧ Logs s s' {sb.bblock b, b} := by
  rw [bmapAddr] at h
  split_ifs at h with h0
  · rcases hb : balloc sb s with _ | ⟨s1, addr⟩
    · rw [hb] at h
      cases h
    rw [hb] at h
    cases h
    exact .inr ⟨h0, rfl, balloc_some hb⟩
  · cases h
    exact .inl ⟨rfl, rfl, h0⟩

lemma bmapWord_some {i k : ℕ} (h : bmapWord sb s i k = some (s', a)) :
    s' = s ∧ (s.buf i).word k ≠ 0 ∨ (s.buf i).word k = 0 ∧
      ∃ b, a = BitVec.ofNat 32 b ∧ b < sb.size ∧ Logs s s' ({sb.bblock b, b} ∪ {i}) := by
  rw [bmapWord] at h
  split_ifs at h with h0
  · rcases hb : balloc sb s with _ | ⟨s1, addr⟩
    · rw [hb] at h
      cases h
    rw [hb] at h
    cases h
    obtain ⟨b, hab, hlt, hlog⟩ := balloc_some hb
    exact .inr ⟨h0, b, hab, hlt, hlog.trans (Logs.write s1 i _)⟩
  · cases h
    exact .inl ⟨rfl, h0⟩

/-- The blocks that come into play with the indirect block. -/
def indirectBlocks (sb : Super) (ip : Inode) : Finset ℕ :=
  {sb.bblock (ip.addrs indirect).toNat, (ip.addrs indirect).toNat}

/-- `bmap` logs the block that it finds and its block of the map, and those of the indirect block;
it logs nothing if the slot is filled. -/
lemma bmap_some (hsmall : sb.size ≤ 2 ^ 32) (h : bmap sb s ip bn = some (s', ip', a)) :
    ∃ B, Logs s s' B ∧ (addr s.buf ip bn ≠ 0 → B = ∅) ∧
      B ⊆ {sb.bblock a.toNat, a.toNat} ∪ if bn < NDIRECT then ∅ else indirectBlocks sb ip' := by
  have hnat : ∀ {b}, b < sb.size → (BitVec.ofNat 32 b).toNat = b := fun hb => by
    rw [BitVec.toNat_ofNat, Nat.mod_eq_of_lt (by omega)]
  have hmax : MAXFILE = NDIRECT + NINDIRECT := rfl
  rw [bmap] at h
  split_ifs at h with hbn hk
  · obtain ⟨rfl, rfl, hne⟩ | ⟨h0, rfl, b, rfl, hb, hlog⟩ := bmapAddr_some h
    · exact ⟨∅, .refl s', fun _ => rfl, Finset.empty_subset _⟩
    refine ⟨_, hlog, fun hne => absurd ?_ hne, ?_⟩
    · rw [addr_direct hbn, h0]
      rfl
    · rw [hnat hb]
      exact Finset.subset_union_left
  rcases hind : bmapAddr sb s ip indirect with _ | ⟨s1, ip1, a1⟩
  · rw [hind] at h
    cases h
  rcases hword : bmapWord sb s1 a1.toNat (bn - NDIRECT) with _ | ⟨s2, a2⟩
  · simp only [hind, hword] at h
    cases h
  simp only [hind, hword, Option.some.injEq, Prod.mk.injEq] at h
  obtain ⟨rfl, rfl, rfl⟩ := h
  have hlog1 := bmapAddr_some hind
  have hlog2 := bmapWord_some hword
  rw [if_neg hbn]
  -- the blocks of the indirect block
  obtain ⟨B1, hB1, hsub1, hempty1⟩ : ∃ B, Logs s s1 B ∧ B ⊆ indirectBlocks sb ip1 ∧
      (addr s.buf ip bn ≠ 0 → B = ∅ ∧ s1 = s ∧ ip1 = ip ∧ ip.addrs indirect ≠ 0) := by
    rcases hlog1 with ⟨rfl, rfl, hne⟩ | ⟨h0, rfl, b, rfl, hb, hlog⟩
    · exact ⟨∅, .refl s1, Finset.empty_subset _, fun _ => ⟨rfl, rfl, rfl, hne⟩⟩
    · refine ⟨_, hlog, ?_, fun hne => absurd (addr_word_zero (by omega) (by omega) h0) hne⟩
      rw [indirectBlocks, Inode.setAddr_self, hnat hb]
  have ha1 : ip1.addrs indirect = a1 := by
    rcases hlog1 with ⟨rfl, rfl, hne⟩ | ⟨h0, rfl, -⟩
    · rw [bmapAddr, if_neg hne] at hind
      cases hind
      rfl
    · exact Inode.setAddr_self ..
  -- the entry in it
  obtain ⟨B2, hB2, hsub2, hempty2⟩ : ∃ B, Logs s1 s2 B ∧
      B ⊆ {sb.bblock a2.toNat, a2.toNat} ∪ {a1.toNat} ∧
      ((s1.buf a1.toNat).word (bn - NDIRECT) ≠ 0 → B = ∅) := by
    rcases hlog2 with ⟨rfl, hne⟩ | ⟨h0, b, rfl, hb, hlog⟩
    · exact ⟨∅, .refl s2, Finset.empty_subset _, fun _ => rfl⟩
    · exact ⟨_, hlog, by rw [hnat hb], fun hne => absurd h0 hne⟩
  refine ⟨B1 ∪ B2, hB1.trans hB2, fun hne => ?_, ?_⟩
  · obtain ⟨rfl, rfl, rfl, hne1⟩ := hempty1 hne
    rw [hempty2 ?_, Finset.empty_union]
    rw [addr_word (by omega) (by omega) hne1, ha1] at hne
    exact toNat_ne_zero.1 hne
  intro c hc
  rw [Finset.mem_union] at hc ⊢
  rcases hc with hc | hc
  · exact .inr (hsub1 hc)
  rcases Finset.mem_union.1 (hsub2 hc) with hc | hc
  · exact .inl hc
  refine .inr ?_
  rw [Finset.mem_singleton.1 hc, indirectBlocks, ha1]
  simp

/-- `bmap` in a well-formed file system, if it returns. -/
lemma bmap_turn {V : ℕ → Inode} {inum : ℕ} (hwf : WF sb s.buf V) (hinum : inum < sb.ninodes)
    (h : bmap sb s (V inum) bn = some (s', ip', a)) :
    bn < MAXFILE ∧ a.toNat = addr s'.buf ip' bn ∧ a ≠ 0 ∧
    Grow sb V inum (unmapped s.buf (V inum) (slotsOf bn)) s.buf s'.buf ip' ∧
    ∃ B, Logs s s' B ∧ (addr s.buf (V inum) bn ≠ 0 → B = ∅) ∧
      B ⊆ {sb.bblock a.toNat, a.toNat} ∪ if bn < NDIRECT then ∅ else indirectBlocks sb ip' := by
  have hbuf : File.bmap sb s.buf (V inum) bn = some (s'.buf, ip', a) := by rw [← bmap_buf, h]; rfl
  obtain ⟨hbn, hroom⟩ := bmap_room hwf hinum hbuf
  obtain ⟨D', ip'', a', heq, ha, hne, hgrow⟩ := bmap_spec hwf hinum hbn hroom
  rw [hbuf] at heq
  cases heq
  exact ⟨hbn, ha, hne, hgrow, bmap_some hwf.small h⟩

end Store

end Hexv6.File
