import Hexv6.File.Logged
import Hexv6.File.Refine
import Hexv6.Vm.Copyin

/-!
# Writes that fail in the user copy

A write from a buffer of which only the first bytes are mapped.  The loop of `writei` ends in the
block where the mapped bytes end, and reports the bytes up to the start of the piece in this block.
But `copyin` has put the mapped bytes of the piece into the buffer of the block.  They are seen by
readers as long as the buffer is in the cache, and they stay if the block has been passed to
`log_write`.
-/

namespace Hexv6.File

open Blk Function
open Vm (PageTable copyin fetch userAddr)

/-- A buffer that supplies `src`, and fails afterwards. -/
def Supplies (copyin : ℕ → ℕ → List Byte × Bool) (n : ℕ) (src : List Byte) : Prop :=
  ∀ tot m, tot ≤ src.length → tot + m ≤ n →
    copyin tot m = ((src.drop tot).take m, decide (tot + m ≤ src.length))

variable {sb : Super} {s s' : Store} {V : ℕ → Inode} {ip ip' : Inode} {inum n : ℕ} {src : List Byte}
variable {copyin : ℕ → ℕ → List Byte × Bool}

/-! ### The loop -/

/-- What the loop leaves if the bytes end before it. -/
structure Short (sb : Super) (V : ℕ → Inode) (inum base tot : ℕ) (src : List Byte) (s s' : Store)
    (ip' : Inode) (tot' : ℕ) : Prop where
  le : tot ≤ tot' ∧ tot' ≤ src.length
  /-- it stops in the block where the bytes end -/
  block : (base + tot') / BSIZE = (base + src.length) / BSIZE
  start : tot' = tot ∨ (base + tot') % BSIZE = 0
  mapped : Mapped s'.buf ip' (base + tot')
  /-- the bytes are in the buffers, also those that are not reported -/
  upd : Upd sb V inum (base + tot) (base + src.length)
    (fun y => src.getD (y - base) 0) s.buf s'.buf ip'
  slot : ∀ x, addr s.buf (V inum) x ≠ 0 → addr s'.buf ip' x = addr s.buf (V inum) x
  logged : ∀ b ∈ s.logged, b ∈ s'.logged
  /-- all other blocks that were changed are in the log -/
  clean : ∀ b, b ∉ s'.logged → b ≠ addr s'.buf ip' ((base + tot') / BSIZE) → s'.buf b = s.buf b

lemma writeLoop_short (base : ℕ) {tot tot' off' : ℕ} (hsup : Supplies copyin n src)
    (hshort : src.length < n)
    (htot : tot ≤ src.length) (hwf : WF sb s.buf V) (hinum : inum < sb.ninodes)
    (h : Store.writeLoop sb copyin n s (V inum) tot (base + tot) = some (s', ip', tot', off')) :
    off' = base + tot' ∧ Short sb V inum base tot src s s' ip' tot' := by
  generalize hleft : n - tot = left
  induction left using Nat.strong_induction_on generalizing s V tot with
  | _ left ih =>
    rw [Store.writeLoop, dif_pos (by omega)] at h
    rcases hbmap : Store.bmap sb s (V inum) ((base + tot) / BSIZE) with _ | ⟨s1, ip1, a⟩
    · rw [hbmap] at h
      cases h
    rw [hbmap] at h
    obtain ⟨hbn, ha, hne, hgrow, B, hlogs, -, -⟩ := Store.bmap_turn hwf hinum hbmap
    obtain ⟨hm, hmn⟩ := chunk_le n tot (base + tot)
    have hpos := chunk_pos (base + tot) (show tot < n by omega)
    have hmdef : chunk n tot (base + tot) = min (n - tot) (BSIZE - (base + tot) % BSIZE) := rfl
    have hself : update V inum ip1 inum = ip1 := update_self ..
    dsimp only at h
    rw [hsup tot _ htot (by omega)] at h
    generalize chunk n tot (base + tot) = m at h hm hmn hpos hmdef
    -- the bytes that are copied in this turn
    have hcopied : (src.drop tot).take m = (List.range (min m (src.length - tot))).map
        fun i => (fun y => src.getD (y - base) 0) (base + tot + i) := by
      rw [List.take_eq_take_min, List.length_drop, take_drop_eq_map (by omega)]
      refine List.map_congr_left fun i _ => ?_
      dsimp only
      rw [show base + tot + i - base = tot + i by omega]
    obtain ⟨hstep, -, haddr⟩ := hgrow.write hinum hbn ha hne (fun y => src.getD (y - base) 0)
      (show (base + tot) % BSIZE + min m (src.length - tot) ≤ BSIZE by omega)
    rw [← hcopied] at hstep haddr
    have hslot : ∀ x, addr s.buf (V inum) x ≠ 0 → addr (update s1.buf a.toNat
        ((s1.buf a.toNat).paste ((base + tot) % BSIZE) ((src.drop tot).take m))) ip1 x =
          addr s.buf (V inum) x := fun x hx => (haddr x).trans (hgrow.kept hx)
    split_ifs at h with hok
    · -- the piece is copied, and the rest
      rw [decide_eq_true_iff] at hok
      rw [min_eq_left (by omega)] at hstep
      rw [← hself, add_assoc] at h
      have hwf' := hstep.wf
      obtain ⟨hoff, hrest⟩ := ih (n - (tot + m)) (by omega) hok hwf' h rfl
      have hgrows : ∀ b ∈ s1.logged, b ∈ s'.logged := fun b hb =>
        hrest.logged b (List.mem_cons_of_mem _ hb)
      refine ⟨hoff, ⟨by have := hrest.le; omega, hrest.le.2⟩, hrest.block, ?_, hrest.mapped, ?_, ?_,
        fun b hb => hgrows b ((hlogs.logged b).2 (.inr hb)), ?_⟩
      · rcases hrest.start with heq | hmod
        · right
          rw [heq]
          simp only [BSIZE] at hmdef ⊢
          omega
        · exact .inr hmod
      · refine hstep.trans (Nat.le_add_right _ _) (by omega) ?_
        have hupd := hrest.upd
        rwa [← add_assoc] at hupd
      · intro x hx
        have hx' := hslot x hx
        have := hrest.slot x
        rw [hself] at this
        exact (this (by rw [Store.logWrite_buf, Store.set_buf, hx']; exact hx)).trans hx'
      · intro b hb hbne
        have hba : b ≠ a.toNat := fun heq => hb (hrest.logged b (by simp [heq]))
        rw [hrest.clean b hb hbne, Store.logWrite_buf, Store.set_buf, update_of_ne hba]
        exact hlogs.clean b fun hb1 => hb (hgrows b hb1)
    · rw [decide_eq_true_iff, not_le] at hok
      rw [min_eq_right (by omega), show base + tot + (src.length - tot) =
        base + src.length by omega]
        at hstep
      cases h
      refine ⟨rfl, ⟨le_rfl, htot⟩, ?_, .inl rfl, ?_, hstep, hslot, fun b hb =>
        (hlogs.logged b).2 (.inr hb), ?_⟩
      · simp only [BSIZE] at hm ⊢
        omega
      · refine ⟨hbn, ?_⟩
        rw [Store.set_buf, haddr, ← ha, toNat_ne_zero]
        exact hne
      intro b hb hbne
      rw [Store.set_buf, haddr, ← ha] at hbne
      rw [Store.set_buf, update_of_ne hbne]
      exact hlogs.clean b hb

/-- If all bytes are mapped, then the loop gets to its end. -/
lemma writeLoop_full {tot off tot' off' : ℕ} (hall : ∀ tot m, tot + m ≤ n → (copyin tot m).2 = true)
    (htot : tot ≤ n) (h : Store.writeLoop sb copyin n s ip tot off = some (s', ip', tot', off')) :
    tot' = n := by
  generalize hleft : n - tot = left
  induction left using Nat.strong_induction_on generalizing s ip tot off with
  | _ left ih =>
    rw [Store.writeLoop] at h
    split_ifs at h with hlt
    · rcases hbmap : Store.bmap sb s ip (off / BSIZE) with _ | ⟨s1, ip1, a⟩
      · rw [hbmap] at h
        cases h
      rw [hbmap] at h
      have hmn := (chunk_le n tot off).2
      have hpos := chunk_pos off hlt
      dsimp only at h
      rw [if_pos (hall tot _ (by omega))] at h
      exact ih _ (by omega) (by omega) h rfl
    · cases h
      omega

/-! ### What is seen afterwards -/

/-- What `bread` can give at a later time: the buffers, and for a block that is not in the log also
the block as it was before, because its buffer can be dropped. -/
def Later (s s' : Store) (E : Disk) : Prop :=
  ∀ b, E b = s'.buf b ∨ b ∉ s'.logged ∧ E b = s.buf b

/-- Only the `r` bytes from `off` on have changed, and the size is what it should be. -/
def OnlyReported (sb : Super) (s s' : Store) (ip ip' : Inode) (off r : ℕ) : Prop :=
  ip'.size.toNat = max ip.size.toNat (off + r) ∧
  ∀ E, Later s s' E → ReadsAs sb E ip' (contents E ip') ∧
    ∀ y < ip.size.toNat, y < off ∨ off + r ≤ y → (contents E ip')[y]? = (contents s.buf ip)[y]?

/-- The start of the piece in which the byte `off + len` is. -/
def pieceStart (off len : ℕ) : ℕ := max off ((off + len) / BSIZE * BSIZE)

lemma getElem?_contents {D : Disk} {y : ℕ} (h : y < ip.size.toNat) :
    (contents D ip)[y]? = some (byteAt D ip y) := by
  rw [contents, List.getElem?_map, List.getElem?_range h, Option.map_some]

lemma Short.pieceStart_eq {base tot' : ℕ} (h : Short sb V inum base 0 src s s' ip' tot') :
    pieceStart base src.length = base + tot' := by
  have hblock := h.block
  have hle := h.le.2
  rw [pieceStart]
  rcases h.start with rfl | hmod
  · simp only [BSIZE] at hblock ⊢
    omega
  · simp only [BSIZE] at hblock hmod ⊢
    omega

/-- The disk at a later time differs from the buffers at most in the block where the loop stopped,
and there it can be the old one. -/
lemma Short.later {base tot' : ℕ} (h : Short sb V inum base 0 src s s' ip' tot') {size : BitVec 32}
    {E : Disk} (hE : Later s (Store.iupdate sb s' inum { ip' with size := size }) E) :
    let D' := iupdate sb s'.buf inum { ip' with size := size }
    let c := addr s'.buf ip' ((base + tot') / BSIZE)
    E = D' ∨ E = update D' c (s.buf c) := by
  intro D' c
  have hother : ∀ b, b ≠ c → E b = D' b := by
    intro b hb
    rcases hE b with hE | ⟨hlog, hE⟩
    · exact hE
    rw [Store.iupdate, Store.logWrite_logged, Store.set_logged, List.mem_cons, not_or] at hlog
    rw [hE, ← h.clean b hlog.2 hb]
    exact (update_of_ne hlog.1 ..).symm
  rcases hE c with hc | ⟨-, hc⟩
  · left
    ext1 b
    by_cases hb : b = c
    · rw [hb]
      exact hc
    · exact hother b hb
  right
  ext1 b
  by_cases hb : b = c
  · rw [hb, update_self, hc]
  · rw [update_of_ne hb, hother b hb]

section afterwards

variable {base tot' : ℕ} {size : BitVec 32} {E : Disk}
variable (h : Short sb V inum base 0 src s s' ip' tot') (hinum : inum < sb.ninodes)
variable (halloc : ∀ y < (V inum).size.toNat, Mapped s.buf (V inum) y)
variable (hE : Later s (Store.iupdate sb s' inum { ip' with size := size }) E)

include h hinum halloc hE

/-- The slots at a later time, and the bytes: those of the buffers, or in the block where the loop
stopped the old ones. -/
lemma Short.seen : (∀ x, addr E { ip' with size := size } x =
      addr (iupdate sb s'.buf inum { ip' with size := size }) { ip' with size := size } x) ∧
    ∀ y < (V inum).size.toNat, byteAt E { ip' with size := size } y =
        byteAt (iupdate sb s'.buf inum { ip' with size := size }) { ip' with size := size } y ∨
      y / BSIZE = (base + tot') / BSIZE ∧
        byteAt E { ip' with size := size } y = byteAt s.buf (V inum) y := by
  have hw := h.upd.toWritten.iupdate hinum size
  have hself : update V inum ip' inum = ip' := update_self ..
  have hslot : ∀ x, addr (iupdate sb s'.buf inum { ip' with size := size }) ip' x =
      addr s'.buf ip' x := by
    have := addr_iupdate { ip' with size := size } h.upd.wf hinum hinum
    rwa [hself] at this
  rcases h.later hE with rfl | rfl
  · exact ⟨fun _ => rfl, fun _ _ => .inl rfl⟩
  generalize hip : ({ ip' with size := size } : Inode) = ip2 at hw hslot ⊢
  have haddr : ∀ D x, addr D ip2 x = addr D ip' x := fun D x => by rw [← hip]; rfl
  generalize iupdate sb s'.buf inum ip2 = D' at hw hslot ⊢
  have hself2 : update V inum ip2 inum = ip2 := update_self ..
  have hlo : Mapped D' (update V inum ip2 inum) (base + tot') := by
    rw [hself2, Mapped, haddr, hslot]
    exact h.mapped
  have hc : addr D' (update V inum ip2 inum) ((base + tot') / BSIZE) =
      addr s'.buf ip' ((base + tot') / BSIZE) := by rw [hself2, haddr, hslot]
  rw [← hc]
  refine ⟨fun x => ?_, fun y hy => ?_⟩
  · have := addr_update hw.wf hinum hlo (s.buf (addr D' (update V inum ip2 inum)
      ((base + tot') / BSIZE))) hinum x
    rwa [hself2] at this ⊢
  have hy' := hw.kept y (halloc y hy)
  by_cases hdiv : y / BSIZE = (base + tot') / BSIZE
  · right
    refine ⟨hdiv, ?_⟩
    have hbyte := byteAt_update_self hw.wf hinum hlo (s.buf (addr D'
      (update V inum ip2 inum) ((base + tot') / BSIZE))) hdiv
    rw [hself2] at hbyte ⊢
    rw [hbyte, haddr, hslot, byteAt, ← hdiv, h.slot _ (halloc y hy).2]
  left
  have hbyte := byteAt_update_of_ne hw.wf hinum hlo (s.buf (addr D'
    (update V inum ip2 inum) ((base + tot') / BSIZE))) hinum
    (by rw [hself2]; exact hy') fun hcon => hdiv hcon.2
  rwa [hself2] at hbyte ⊢

end afterwards

/-- The mapped bytes of the last piece are those that the file has there already, as far as they are
in the file. -/
def Unchanged (s : Store) (ip : Inode) (off : ℕ) (src : List Byte) : Prop :=
  ∀ y < ip.size.toNat, pieceStart off src.length ≤ y → y < off + src.length →
    (contents s.buf ip)[y]? = src[y - off]?

lemma Short.onlyReported_iff {base tot' : ℕ} (h : Short sb V inum base 0 src s s' ip' tot')
    (hinum : inum < sb.ninodes) (halloc : ∀ y < (V inum).size.toNat, Mapped s.buf (V inum) y)
    (hbase : base ≤ (V inum).size.toNat) {size : BitVec 32}
    (hsize : size.toNat = max (V inum).size.toNat (base + tot')) :
    OnlyReported sb s (Store.iupdate sb s' inum { ip' with size := size }) (V inum)
      { ip' with size := size } base tot' ↔ Unchanged s (V inum) base src := by
  have hw := h.upd.toWritten.iupdate hinum size
  have hle := h.le.2
  have hval : ∀ y, base ≤ y → y < base + src.length → src[y - base]? =
      some (byteAt (iupdate sb s'.buf inum { ip' with size := size })
        { ip' with size := size } y) := by
    intro y hy hy'
    rw [(hw.new y (by omega) hy').2, List.getD_eq_getElem?_getD,
      List.getElem?_eq_getElem (by omega)]
    rfl
  rw [Unchanged, h.pieceStart_eq]
  constructor
  · rintro ⟨-, hall⟩ y hy hstart hend
    obtain ⟨-, hold⟩ := hall (iupdate sb s'.buf inum { ip' with size := size }) fun b => .inl rfl
    rw [← hold y hy (.inr hstart), hval y (by omega) hend,
      getElem?_contents (show y < size.toNat by omega)]
  intro hsame
  refine ⟨hsize, fun E hE => ?_⟩
  obtain ⟨haddr, hbyte⟩ := h.seen hinum halloc hE
  refine ⟨readsAs_contents fun y hy => ?_, fun y hy hout => ?_⟩
  · have hy' : y < max (V inum).size.toNat (base + tot') := hsize ▸ hy
    rw [Mapped, haddr]
    by_cases hold : y < (V inum).size.toNat
    · exact hw.kept y (halloc y hold)
    · exact (hw.new y (by omega) (by omega)).1
  rw [getElem?_contents (show y < size.toNat by omega)]
  rcases hbyte y hy with hb | ⟨-, hb⟩
  · by_cases hin : base + tot' ≤ y ∧ y < base + src.length
    · rw [hb, hsame y hy hin.1 hin.2, hval y (by omega) hin.2]
    · rw [hb, hw.rest y (halloc y hy) (by omega), getElem?_contents hy]
  · rw [hb, getElem?_contents hy]

/-- A write that returns less than `n` changes only what it reports exactly if the mapped bytes of
the last piece are in the file already. -/
theorem writei_onlyReported_iff {w : PageTable} {mem : ℕ → Byte} {src : BitVec 64}
    {off n : BitVec 32}
    {r : ℕ} (hwf : WF sb s.buf V) (hinum : inum < sb.ninodes)
    (halloc : ∀ y < (V inum).size.toNat, Mapped s.buf (V inum) y)
    (h : Store.writei sb (fun tot m => Vm.copyin w mem (userAddr src tot) m) s inum (V inum) off n =
      some ((r : ℤ), s', ip')) (hr : r < n.toNat) :
    OnlyReported sb s s' (V inum) ip' off.toNat r ↔
      Unchanged s (V inum) off.toNat (fetch w mem src.toNat n.toNat) := by
  have hsup : Supplies (fun tot m => Vm.copyin w mem (userAddr src tot) m) n.toNat
      (fetch w mem src.toNat n.toNat) := fun tot m htot hm => Vm.copyin_piece htot hm
  generalize hcopy : (fun tot m => Vm.copyin w mem (userAddr src tot) m) = copyin at h hsup
  have hlen : (fetch w mem src.toNat n.toNat).length ≤ n.toNat := Vm.length_fetch_le
  generalize fetch w mem src.toNat n.toNat = bytes at hsup hlen ⊢
  rw [Store.writei] at h
  split_ifs at h with hout hlong
  · cases h
  · cases h
  rw [outside_iff, not_or, not_lt, not_le] at hout
  rcases hloop : Store.writeLoop sb copyin n.toNat s (V inum) 0 off.toNat with
    _ | ⟨s1, ip1, tot', off'⟩
  · rw [hloop] at h
    cases h
  rw [hloop] at h
  simp only [Option.some.injEq, Prod.mk.injEq, Nat.cast_inj] at h
  obtain ⟨rfl, rfl, rfl⟩ := h
  -- the mapped bytes end before `n`
  have hshort : bytes.length < n.toNat := by
    by_contra hge
    refine absurd (writeLoop_full (fun tot m hm => ?_) (Nat.zero_le _) hloop) (by omega)
    rw [hsup tot m (by omega) hm]
    exact decide_eq_true (by omega)
  obtain ⟨rfl, hS⟩ := writeLoop_short off.toNat hsup hshort (Nat.zero_le _) hwf hinum hloop
  obtain ⟨f, hf⟩ := hS.upd.same
  have hsize : (if off.toNat + tot' > ip1.size.toNat then
      { ip1 with size := BitVec.ofNat 32 (off.toNat + tot') } else ip1) =
      { ip1 with size := BitVec.ofNat 32 (max (V inum).size.toNat (off.toNat + tot')) } := by
    rw [hf]
    dsimp only
    split_ifs with hgt
    · rw [max_eq_right (by omega)]
    · rw [max_eq_left (by omega), BitVec.ofNat_toNat, BitVec.setWidth_eq]
  have hle := hS.le.2
  have hlt := (V inum).size.isLt
  rw [hsize]
  exact hS.onlyReported_iff hinum halloc hout.1
    (by rw [BitVec.toNat_ofNat, Nat.mod_eq_of_lt (by omega)])

/-! ### Two bytes from a buffer of which one is mapped -/

/-- Two bytes are written to a file of one block, and the copy fails. -/
lemma writei_oneBlock_failed (copyin : ℕ → ℕ → List Byte × Bool) {bytes : List Byte}
    (hcopy : copyin 0 2 = (bytes, false)) :
    Store.writei smallSuper copyin ⟨smallDisk 2, []⟩ 0 (oneBlock 2) 0 2 =
      some (0, Store.iupdate smallSuper
        ((Store.mk (smallDisk 2) []).set 3 ((smallDisk 2 3).paste 0 bytes)) 0
        (oneBlock 2), oneBlock 2) := by
  have hbmap : Store.bmap smallSuper ⟨smallDisk 2, []⟩ (oneBlock 2) (0 / BSIZE) =
      some (⟨smallDisk 2, []⟩, oneBlock 2, 3) := rfl
  have hloop : Store.writeLoop smallSuper copyin 2 ⟨smallDisk 2, []⟩ (oneBlock 2) 0 0 =
      some ((Store.mk (smallDisk 2) []).set 3 ((smallDisk 2 3).paste 0 bytes), oneBlock 2, 0,
        0) := by
    rw [Store.writeLoop, dif_pos (by decide), hbmap]
    dsimp only
    rw [show chunk 2 0 0 = 2 by decide, hcopy]
    rfl
  rw [Store.writei, if_neg (by decide), if_neg (by decide),
    show BitVec.toNat (2 : BitVec 32) = 2 from rfl, show BitVec.toNat (0 : BitVec 32) = 0 from rfl,
    hloop]
  rfl

/-- Nothing is mapped. -/
theorem writei_onlyReported_unmapped : ∃ s' ip',
    Store.writei smallSuper
      (fun tot m => Vm.copyin (fun _ => none) (fun _ => 65) (userAddr 0 tot) m)
      ⟨smallDisk 2, []⟩ 0 (oneBlock 2) 0 2 = some (0, s', ip') ∧
    OnlyReported smallSuper ⟨smallDisk 2, []⟩ s' (oneBlock 2) ip' 0 0 := by
  have hwrite := writei_oneBlock_failed (fun tot m =>
    Vm.copyin (fun _ => none) (fun _ => 65) (userAddr 0 tot) m) rfl
  refine ⟨_, _, hwrite,
    (writei_onlyReported_iff (V := fun _ => oneBlock 2) (wf_oneBlock 2 2) (by decide)
    (mapped_oneBlock _ (by decide)) hwrite (by decide)).2 ?_⟩
  intro y _ _ hend
  exact absurd hend (Nat.not_lt_zero _)

/-- The first byte of the buffer is the last one of a page, and the next page is not mapped: the
write returns 0, and the first byte of the file has changed. -/
theorem not_onlyReported_pageEnd : ∃ s' ip',
    Store.writei smallSuper (fun tot m => Vm.copyin (fun p => if p = 0 then some 1 else none)
      (fun _ => 65) (userAddr 4095 tot) m) ⟨smallDisk 2, []⟩ 0 (oneBlock 2) 0 2 =
        some (0, s', ip') ∧
    ¬ OnlyReported smallSuper ⟨smallDisk 2, []⟩ s' (oneBlock 2) ip' 0 0 := by
  have hwrite := writei_oneBlock_failed (fun tot m => Vm.copyin
    (fun p => if p = 0 then some 1 else none) (fun _ => 65) (userAddr 4095 tot) m)
    (show _ = ([65], false) by decide)
  refine ⟨_, _, hwrite, fun ⟨_, hall⟩ => ?_⟩
  obtain ⟨-, hold⟩ := hall _ fun b => .inl rfl
  have hfirst := hold 0 (by decide) (.inr le_rfl)
  rw [getElem?_contents (by decide), getElem?_contents (by decide)] at hfirst
  exact absurd hfirst (by decide)

end Hexv6.File
