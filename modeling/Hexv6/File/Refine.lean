import Hexv6.File.Contents

/-!
# Files as arrays of bytes

A file is for its users an array of bytes that can be read and overwritten, and that grows when it
is written past its end.  `ReadsAs` says that `readi` sees such an array.  In a file system that is
in order (`Sound`), `readi` sees the bytes of the blocks of the file, and `writei` overwrites what
is seen of its file and leaves the other files alone.
-/

namespace Hexv6.File

open Blk List Function

/-! ### Arrays of bytes -/

/-- The array after `src` is written at `off`. -/
def overwrite (c : List Byte) (off : ℕ) (src : List Byte) : List Byte :=
  c.take off ++ src ++ c.drop (off + src.length)

lemma length_overwrite {c src : List Byte} {off : ℕ} (h : off ≤ c.length) :
    (overwrite c off src).length = max c.length (off + src.length) := by
  rw [overwrite, length_append, length_append, length_take, length_drop]
  omega

/-- What `readi` gives for every offset and length, if the copies succeed, is the piece of `c`; it
changes nothing. -/
def ReadsAs (sb : Super) (D : Disk) (ip : Inode) (c : List Byte) : Prop :=
  ∀ (copyout : ℕ → ℕ → Bool) (off n : BitVec 32),
    (∀ tot m, tot + m ≤ n.toNat → copyout tot m = true) →
    readi sb copyout D ip off n =
      if c.length < off.toNat ∨ 2 ^ 32 ≤ off.toNat + n.toNat then some (0, [], D, ip)
      else
        some (((min n.toNat (c.length - off.toNat) : ℕ) : ℤ), (c.drop off.toNat).take n.toNat,
          D, ip)

/-- The bytes of a file. -/
def contents (D : Disk) (ip : Inode) : List Byte := (range ip.size.toNat).map (byteAt D ip)

/-- No block is shared, and the blocks of a file up to its size are allocated. -/
structure Sound (sb : Super) (D : Disk) : Prop where
  wf : WF sb D (sb.inode D)
  allocated : ∀ j < sb.ninodes, ∀ y < (sb.inode D j).size.toNat, Mapped D (sb.inode D j) y

variable {sb : Super} {D D' : Disk} {V : ℕ → Inode} {ip ip' : Inode} {lo hi y inum : ℕ}
variable {val : ℕ → Byte} {src : List Byte} {off n : BitVec 32} {c : ℕ} {j : ℕ}
  {copyin : ℕ → ℕ → List Byte × Bool}

@[simp] lemma length_contents : (contents D ip).length = ip.size.toNat := by
  rw [contents, length_map, length_range]

/-! ### `readi` -/

/-- The test that `readi` and `writei` begin with. -/
lemma outside_iff : off > ip.size ∨ off + n < off ↔
    ip.size.toNat < off.toNat ∨ 2 ^ 32 ≤ off.toNat + n.toNat := by
  have hoff := off.isLt
  have hn := n.isLt
  rw [gt_iff_lt, BitVec.lt_def, BitVec.lt_def, BitVec.toNat_add]
  omega

/-- The second test of `writei`. -/
lemma tooLong_iff (h : off.toNat + n.toNat < 2 ^ 32) :
    off + n > BitVec.ofNat 32 (MAXFILE * BSIZE) ↔ MAXFILE * BSIZE < off.toNat + n.toNat := by
  rw [gt_iff_lt, BitVec.lt_def, BitVec.toNat_add, Nat.mod_eq_of_lt h, BitVec.toNat_ofNat,
    Nat.mod_eq_of_lt (by decide)]

/-- The length that is left after the cut at the end of the file. -/
lemma toNat_cut (hoff : off.toNat ≤ ip.size.toNat) (hwrap : off.toNat + n.toNat < 2 ^ 32) :
    (if off + n > ip.size then ip.size - off else n).toNat =
      min n.toNat (ip.size.toNat - off.toNat) := by
  have hadd : (off + n).toNat = off.toNat + n.toNat := by
    rw [BitVec.toNat_add, Nat.mod_eq_of_lt hwrap]
  split_ifs with hcut
  · rw [gt_iff_lt, BitVec.lt_def, hadd] at hcut
    rw [BitVec.toNat_sub_of_le (by rw [BitVec.le_def]; exact hoff)]
    omega
  · rw [gt_iff_lt, BitVec.lt_def, hadd] at hcut
    omega

lemma map_byteAt_eq {k : ℕ} (h : off.toNat + k ≤ ip.size.toNat) :
    ((range k).map fun i => byteAt D ip (off.toNat + i)) =
      ((contents D ip).drop off.toNat).take k := by
  refine ext_getElem ?_ fun i hi hi' => ?_
  · simp
    omega
  · simp [contents]

lemma readsAs_contents (h : ∀ y < ip.size.toNat, Mapped D ip y) :
    ReadsAs sb D ip (contents D ip) := by
  intro copyout off n hcopy
  rw [length_contents]
  by_cases hout : ip.size.toNat < off.toNat ∨ 2 ^ 32 ≤ off.toNat + n.toNat
  · rw [if_pos hout, readi, if_pos (outside_iff.2 hout)]
  rw [if_neg hout, readi, if_neg fun h => hout (outside_iff.1 h)]
  rw [not_or, not_lt, not_le] at hout
  dsimp only
  rw [toNat_cut hout.1 hout.2]
  have hloop : readLoop sb copyout (min n.toNat (ip.size.toNat - off.toNat)) D ip 0 (off.toNat + 0)
      [] = _ :=
    readLoop_spec (fun tot m htot => hcopy tot m (by omega)) (fun y _ hy => h y (by omega))
      (Nat.zero_add _) []
  simp only [Nat.add_zero, nil_append] at hloop
  rw [hloop, map_byteAt_eq (by omega), ← length_contents, ← length_drop, ← take_eq_take_min]

/-! ### `writei` -/

/-- The inodes after `iupdate`. -/
lemma inode_iupdate (sb : Super) (D : Disk) (inum : ℕ) (ip : Inode) (j : ℕ) :
    sb.inode (iupdate sb D inum ip) j = update (sb.inode D) inum ip j := by
  have hpos : 0 < IPB := by decide
  rw [Super.inode, iupdate]
  by_cases hj : j = inum
  · subst hj
    rw [update_self, update_self, Block.dinode_setDinode_self (Nat.mod_lt _ hpos)]
  rw [update_of_ne hj, Super.inode]
  by_cases hb : sb.iblock j = sb.iblock inum
  · have hmod : j % IPB ≠ inum % IPB := fun hmod => hj <| by
      simp only [Super.iblock, Nat.add_right_cancel_iff] at hb
      rw [← Nat.div_add_mod j IPB, ← Nat.div_add_mod inum IPB, hb, hmod]
    rw [hb, update_self, Block.dinode_setDinode_of_ne (Nat.mod_lt _ hpos) hmod]
  · rw [update_of_ne hb]

section iupdate

lemma iupdate_block (hinum : inum < sb.ninodes) (hc : ¬ sb.Meta c) :
    iupdate sb D inum ip c = D c :=
  update_of_ne (fun heq : c = _ => hc (.inr (.inl ⟨inum, hinum, heq⟩))) ..

variable (hwf : WF sb D V) (hinum : inum < sb.ninodes) (ip)

include hwf hinum

lemma addr_iupdate (hj : j < sb.ninodes) (x : ℕ) :
    addr (iupdate sb D inum ip) (V j) x = addr D (V j) x :=
  addr_congr (fun hne => iupdate_block hinum (hwf.indirect_own hj hne).2.1) x

lemma byteAt_iupdate (hj : j < sb.ninodes) (hy : Mapped D (V j) y) :
    byteAt (iupdate sb D inum ip) (V j) y = byteAt D (V j) y := by
  rw [byteAt, byteAt, addr_iupdate ip hwf hinum hj, iupdate_block hinum (hwf.own j hj _ hy.2).2.1]

lemma Mapped.iupdate (hj : j < sb.ninodes) (hy : Mapped D (V j) y) :
    Mapped (iupdate sb D inum ip) (V j) y :=
  ⟨hy.1, by rw [addr_iupdate ip hwf hinum hj]; exact hy.2⟩

lemma used_iupdate (hc : c < sb.size) : sb.used (iupdate sb D inum ip) c = sb.used D c := by
  rw [Super.used, Super.used, File.iupdate, update_of_ne (hwf.apart inum hinum c hc).symm]

end iupdate

/-- What is written stays when the inode goes to the disk with its new size. -/
lemma Written.iupdate {D₁ : Disk} {ip₁ : Inode} (h : Written sb V inum lo hi val D D₁ ip₁)
    (hinum : inum < sb.ninodes) (size : BitVec 32) :
    Written sb V inum lo hi val D (iupdate sb D₁ inum { ip₁ with size := size })
      { ip₁ with size := size } := by
  -- the slots do not depend on the size
  have hself : update V inum ip₁ inum = ip₁ := update_self ..
  have haddr : ∀ x, addr (File.iupdate sb D₁ inum { ip₁ with size := size }) ip₁ x =
      addr D₁ ip₁ x := by
    have := addr_iupdate { ip₁ with size := size } h.wf hinum hinum
    rwa [hself] at this
  have hmap : ∀ {y}, Mapped D₁ ip₁ y →
      Mapped (File.iupdate sb D₁ inum { ip₁ with size := size }) ip₁ y ∧
      byteAt (File.iupdate sb D₁ inum { ip₁ with size := size }) ip₁ y = byteAt D₁ ip₁ y := by
    intro y hy
    rw [← hself] at hy
    have hmap := hy.iupdate { ip₁ with size := size } h.wf hinum hinum
    have hbyte := byteAt_iupdate { ip₁ with size := size } h.wf hinum hinum hy
    rw [hself] at hmap hbyte
    exact ⟨hmap, hbyte⟩
  refine
    { wf := h.wf.congr (fun j hj x => ?_) fun c hc => used_iupdate _ h.wf hinum hc
      kept := fun y hy => (hmap (h.kept y hy)).1
      new := fun y hy hy' => ?_, rest := fun y hy hout => ?_, other := fun j hj hji y hy => ?_ }
  · by_cases hji : j = inum
    · subst hji
      rw [update_self, update_self]
      exact haddr x
    rw [update_of_ne hji]
    have := addr_iupdate { ip₁ with size := size } h.wf hinum hj x
    rwa [update_of_ne hji] at this ⊢
  · obtain ⟨hy1, hval⟩ := h.new y hy hy'
    exact ⟨(hmap hy1).1, (hmap hy1).2.trans hval⟩
  · exact (hmap (h.kept y hy)).2.trans (h.rest y hy hout)
  · obtain ⟨hy1, hval⟩ := h.other j hj hji y hy
    rw [← update_of_ne hji ip₁ V] at hy1
    have hmap' := hy1.iupdate { ip₁ with size := size } h.wf hinum hj
    have hbyte := byteAt_iupdate { ip₁ with size := size } h.wf hinum hj hy1
    rw [update_of_ne hji] at hmap' hbyte
    exact ⟨hmap', hbyte.trans hval⟩

/-- The bytes of the file after it is written. -/
lemma Written.contents_eq
    (h : Written sb V inum lo (lo + src.length) (fun y => src.getD (y - lo) 0) D D' ip')
    (halloc : ∀ y < (V inum).size.toNat, Mapped D (V inum) y) (hlo : lo ≤ (V inum).size.toNat)
    (hsize : ip'.size.toNat = max (V inum).size.toNat (lo + src.length)) :
    contents D' ip' = overwrite (contents D (V inum)) lo src := by
  have hlen : (contents D' ip').length = (overwrite (contents D (V inum)) lo src).length := by
    rw [length_overwrite (by rwa [length_contents]), length_contents, length_contents, hsize]
  refine ext_getElem hlen fun y hy hy' => ?_
  rw [length_contents] at hy
  have hget : ∀ {D : Disk} {ip : Inode} {k : ℕ} (hk : k < (contents D ip).length),
      (contents D ip)[k] = byteAt D ip k := fun hk => by simp [contents]
  rw [hget]
  simp only [overwrite, getElem_append, length_append, length_take, length_contents,
    getElem_take, getElem_drop, hget]
  split_ifs with h1 h2
  · exact h.rest y (halloc y (by omega)) (by omega)
  · rw [(h.new y (by omega) (by omega)).2, getD_eq_getElem?_getD,
      getElem?_eq_getElem (by omega), Option.getD_some]
    congr 1
    omega
  rw [h.rest y (halloc y (by omega)) (by omega)]
  congr 1
  omega

section

variable (h : Written sb (sb.inode D) inum lo hi val D D' ip')
include h

/-- The bytes below the new size are the old ones and the new ones. -/
lemma Written.mapped (hs : Sound sb D)
    (hinum : inum < sb.ninodes) (hlo : lo ≤ (sb.inode D inum).size.toNat)
    (hsize : ip'.size.toNat = max (sb.inode D inum).size.toNat hi) :
    ∀ y < ip'.size.toNat, Mapped D' ip' y := by
  intro y hy
  by_cases hold : y < (sb.inode D inum).size.toNat
  · exact h.kept y (hs.allocated inum hinum y hold)
  · exact (h.new y (by omega) (by omega)).1

/-- Files that are in order stay so, when one of them is written. -/
lemma Written.sound (hs : Sound sb D)
    (hinode : ∀ j < sb.ninodes, sb.inode D' j = update (sb.inode D) inum ip' j)
    (hmap : ∀ y < ip'.size.toNat, Mapped D' ip' y) : Sound sb D' := by
  refine ⟨h.wf.congr (fun j hj x => by rw [hinode j hj]) fun _ _ => rfl, fun j hj y hy => ?_⟩
  rw [hinode j hj] at hy ⊢
  by_cases hji : j = inum
  · subst hji
    rw [update_self] at hy ⊢
    exact hmap y hy
  · rw [update_of_ne hji] at hy ⊢
    exact (h.other j hj hji y (hs.allocated j hj y hy)).1

lemma Written.readsAs_other (hs : Sound sb D)
    (hj : j < sb.ninodes) (hji : j ≠ inum) :
    ReadsAs sb D' (sb.inode D j) (contents D (sb.inode D j)) := by
  have hmap := fun y hy => h.other j hj hji y (hs.allocated j hj y hy)
  have hsame : contents D' (sb.inode D j) = contents D (sb.inode D j) :=
    map_congr_left fun y hy => (hmap y (mem_range.1 hy)).2
  rw [← hsame]
  exact readsAs_contents fun y hy => (hmap y hy).1

end

/-- The writes that `writei` refuses. -/
def Refused (ip : Inode) (off n : ℕ) : Prop :=
  ip.size.toNat < off ∨ 2 ^ 32 ≤ off + n ∨ MAXFILE * BSIZE < off + n

/-- There are free blocks for the slots that a write has to fill. -/
def Room (sb : Super) (D : Disk) (ip : Inode) (off n : ℕ) : Prop :=
  ¬ Refused ip off n → (unmapped D ip (slots off (off + n))).card ≤ free sb D

lemma writei_refused (h : Refused ip off.toNat n.toNat) :
    writei sb copyin D inum ip off n = some (-1, D, ip) := by
  rw [writei]
  split_ifs with hout hmax
  · rfl
  · rfl
  rw [outside_iff, not_or, not_le] at hout
  rw [tooLong_iff hout.2] at hmax
  rw [Refused] at h
  omega

lemma writei_spec (hwf : WF sb D V) (hinum : inum < sb.ninodes)
    (hlen : src.length = n.toNat) (hcopy : Copies copyin src)
    (hroom : Room sb D (V inum) off.toNat n.toNat) (h : ¬ Refused (V inum) off.toNat n.toNat) :
    ∃ D₁ ip₁, writei sb copyin D inum (V inum) off n = some ((n.toNat : ℤ), iupdate sb D₁ inum
        { ip₁ with size := BitVec.ofNat 32 (max (V inum).size.toNat (off.toNat + n.toNat)) },
        { ip₁ with size := BitVec.ofNat 32 (max (V inum).size.toNat (off.toNat + n.toNat)) }) ∧
      Upd sb V inum off.toNat (off.toNat + n.toNat)
        (fun y => src.getD (y - off.toNat) 0) D D₁ ip₁ := by
  have hfree := hroom h
  simp only [Refused, not_or, not_lt, not_le] at h
  obtain ⟨D₁, ip₁, hloop, hupd⟩ := writeLoop_spec hcopy hlen hinum h.2.2
    (show 0 + n.toNat = n.toNat from Nat.zero_add _) hwf hfree
  refine ⟨D₁, ip₁, ?_, hupd⟩
  rw [writei, if_neg, if_neg]
  · obtain ⟨f, rfl⟩ := hupd.same
    simp only [Nat.add_zero] at hloop
    rw [hloop]
    have hsize : (if off.toNat + n.toNat > (V inum).size.toNat then
        { { V inum with addrs := f } with size := BitVec.ofNat 32 (off.toNat + n.toNat) }
        else { V inum with addrs := f }) =
        { { V inum with addrs := f } with
          size := BitVec.ofNat 32 (max (V inum).size.toNat (off.toNat + n.toNat)) } := by
      split_ifs with hgt
      · rw [max_eq_right (by omega)]
      · rw [max_eq_left (by omega), BitVec.ofNat_toNat, BitVec.setWidth_eq]
    simp only [hsize]
  · rw [tooLong_iff h.2.1]
    omega
  · rw [outside_iff]
    omega

/-- Files are arrays of bytes: `readi` sees such an array in every file, and `writei` refuses the
writes that start after the end, wrap or get too long, with nothing changed, and overwrites the
array with all other writes.  The other files and what is seen of them stay. -/
theorem writei_refines {copyin : ℕ → ℕ → List Byte × Bool} (hs : Sound sb D)
    (hinum : inum < sb.ninodes) (hlen : src.length = n.toNat) (hcopy : Copies copyin src)
    (hroom : Room sb D (sb.inode D inum) off.toNat n.toNat) :
    (∀ j < sb.ninodes, ReadsAs sb D (sb.inode D j) (contents D (sb.inode D j))) ∧
    (Refused (sb.inode D inum) off.toNat n.toNat →
      writei sb copyin D inum (sb.inode D inum) off n = some (-1, D, sb.inode D inum)) ∧
    (¬ Refused (sb.inode D inum) off.toNat n.toNat →
      ∃ D', writei sb copyin D inum (sb.inode D inum) off n =
          some ((n.toNat : ℤ), D', sb.inode D' inum) ∧
        Sound sb D' ∧
        (sb.inode D' inum).size.toNat = max (sb.inode D inum).size.toNat (off.toNat + n.toNat) ∧
        ReadsAs sb D' (sb.inode D' inum) (overwrite (contents D (sb.inode D inum)) off.toNat src) ∧
        ∀ j < sb.ninodes, j ≠ inum → sb.inode D' j = sb.inode D j ∧
          ReadsAs sb D' (sb.inode D' j) (contents D (sb.inode D j))) := by
  refine ⟨fun j hj => readsAs_contents (hs.allocated j hj), writei_refused, fun h => ?_⟩
  obtain ⟨D1, ip1, hwrite, hupd⟩ := writei_spec hs.wf hinum hlen hcopy hroom h
  simp only [Refused, not_or, not_lt, not_le] at h
  rw [← hlen] at hupd
  have hwritten := hupd.toWritten.iupdate hinum
    (BitVec.ofNat 32 (max (sb.inode D inum).size.toNat (off.toNat + n.toNat)))
  have hsize : (BitVec.ofNat 32 (max (sb.inode D inum).size.toNat (off.toNat + n.toNat))).toNat =
      max (sb.inode D inum).size.toNat (off.toNat + n.toNat) := by
    have := (sb.inode D inum).size.isLt
    rw [BitVec.toNat_ofNat, Nat.mod_eq_of_lt (by omega)]
  have hnode : ∀ j < sb.ninodes, sb.inode D1 j = sb.inode D j := fun j hj => by
    rw [Super.inode, Super.inode, hupd.node j hj]
  have hinode := inode_iupdate sb D1 inum { ip1 with
    size := BitVec.ofNat 32 (max (sb.inode D inum).size.toNat (off.toNat + n.toNat)) }
  generalize hip2 : { ip1 with
    size := BitVec.ofNat 32 (max (sb.inode D inum).size.toNat (off.toNat + n.toNat)) } = ip2
    at hwrite hwritten hinode
  have hsize2 : ip2.size.toNat = max (sb.inode D inum).size.toNat (off.toNat + n.toNat) := by
    rw [← hip2]
    exact hsize
  generalize iupdate sb D1 inum ip2 = D' at hwrite hwritten hinode
  have hdisk : ∀ j < sb.ninodes, sb.inode D' j = update (sb.inode D) inum ip2 j := by
    intro j hj
    rw [hinode]
    by_cases hji : j = inum
    · rw [hji, update_self, update_self]
    · rw [update_of_ne hji, update_of_ne hji, hnode j hj]
  have hself : sb.inode D' inum = ip2 := by rw [hdisk inum hinum, update_self]
  rw [← hlen] at hsize2
  have hmap := hwritten.mapped hs hinum h.1 hsize2
  refine ⟨D', by rw [hwrite, hself], hwritten.sound hs hdisk hmap, by rw [hself, hsize2, hlen], ?_,
    fun j hj hji => ?_⟩
  · rw [hself, ← hwritten.contents_eq (hs.allocated inum hinum) h.1 hsize2]
    exact readsAs_contents hmap
  · rw [hdisk j hj, update_of_ne hji]
    exact ⟨rfl, hwritten.readsAs_other hs hj hji⟩

/-! ### A file of one block -/

/-- A disk with block 0, a block of inodes, the free map, a block of a file and a free block. -/
def smallSuper : Super := { size := 5, ninodes := 1, inodestart := 1, bmapstart := 2 }

/-- A file that has block 3. -/
def oneBlock (size : BitVec 32) : Inode :=
  { Inode.fresh 0 with size, addrs := update (fun _ => 0) 0 3 }

def smallDisk (size : BitVec 32) : Disk :=
  update (update (fun _ => Block.zero) 1 (Block.zero.setDinode 0 (oneBlock size))) 2
    ((((Block.zero.setBit 0).setBit 1).setBit 2).setBit 3)

variable {size : BitVec 32}

lemma smallDisk_used (hc : c < 5) : smallSuper.used (smallDisk size) c = decide (c < 4) := by
  have hb : smallSuper.bblock c = 2 := by
    simp only [smallSuper, Super.bblock, BPB, BSIZE]
    omega
  have hmod : c % BPB = c := Nat.mod_eq_of_lt (by simp only [BPB, BSIZE]; omega)
  have hlt : c < BPB := by simp only [BPB, BSIZE]; omega
  rw [Super.used, hb, hmod, smallDisk, update_self, Block.bit_setBit hlt, Block.bit_setBit hlt,
    Block.bit_setBit hlt, Block.bit_setBit hlt, Block.bit_zero]
  interval_cases c <;> rfl

lemma smallDisk_inode (hj : j < 1) : smallSuper.inode (smallDisk size) j = oneBlock size := by
  obtain rfl : j = 0 := by omega
  have hblock : smallDisk size 1 = Block.zero.setDinode 0 (oneBlock size) := by
    rw [smallDisk, update_of_ne (by decide), update_self]
  rw [Super.inode, show smallSuper.iblock 0 = 1 by decide, hblock]
  exact Block.dinode_setDinode_self (by decide)

lemma addr_oneBlock (D : Disk) (size : BitVec 32) (x : ℕ) :
    addr D (oneBlock size) x = if x = 0 then 3 else 0 := by
  have hind : (oneBlock size).addrs indirect = 0 := rfl
  rcases Nat.lt_or_ge x NDIRECT with hx | hx
  · rw [addr_direct hx]
    split_ifs with h0
    · subst h0
      rfl
    have hne : (⟨x, hx.trans (Nat.lt_succ_self _)⟩ : Fin (NDIRECT + 1)) ≠ 0 := fun h =>
      h0 (congrArg Fin.val h)
    have hget : (oneBlock size).addrs ⟨x, hx.trans (Nat.lt_succ_self _)⟩ = 0 := by
      show update (fun _ => (0 : BitVec 32)) 0 3 _ = 0
      rw [update_of_ne hne]
    rw [hget]
    rfl
  · have hpos : 0 < NDIRECT := by decide
    rw [if_neg (by omega)]
    rcases Nat.lt_trichotomy x MAXFILE with hlt | rfl | hgt
    · exact addr_word_zero hx hlt hind
    · rw [addr_indirect, hind]
      rfl
    · exact addr_of_lt hgt

lemma wf_oneBlock (size size' : BitVec 32) :
    WF smallSuper (smallDisk size) fun _ => oneBlock size' where
  small := by decide
  apart i hi b hb := by
    obtain rfl : i = 0 := Nat.lt_one_iff.1 hi
    simp only [smallSuper, Super.iblock, Super.bblock, BPB, BSIZE, Nat.zero_div]
    omega
  held c hc hm := by
    rw [smallDisk_used hc, decide_eq_true_iff]
    rcases hm with rfl | ⟨i, hi, rfl⟩ | ⟨b, hb, rfl⟩
    · decide
    · obtain rfl : i = 0 := Nat.lt_one_iff.1 hi
      decide
    · simp only [smallSuper, Super.bblock, BPB, BSIZE] at hb ⊢
      omega
  own j hj x hne := by
    rw [addr_oneBlock] at hne ⊢
    rw [if_pos (by_contra fun h => hne (if_neg h))]
    refine ⟨by decide, ?_, smallDisk_used (by decide)⟩
    rintro (h | ⟨i, hi, h⟩ | ⟨b, hb, h⟩)
    · omega
    · obtain rfl : i = 0 := Nat.lt_one_iff.1 hi
      exact absurd h (by decide)
    · simp only [smallSuper, Super.bblock, BPB, BSIZE] at hb h
      omega
  inj j hj j' hj' x x' hne heq := by
    rw [addr_oneBlock] at hne heq
    rw [addr_oneBlock] at heq
    have hx : x = 0 := by_contra fun h => hne (if_neg h)
    have hx' : x' = 0 := by_contra fun h => by simp [hx, h] at heq
    exact ⟨(Nat.lt_one_iff.1 hj).trans (Nat.lt_one_iff.1 hj').symm, hx.trans hx'.symm⟩

lemma mapped_oneBlock (D : Disk) {size : BitVec 32} (hsize : size.toNat ≤ BSIZE) :
    ∀ y < (oneBlock size).size.toNat, Mapped D (oneBlock size) y := by
  intro y hy
  have hdiv : y / BSIZE = 0 := Nat.div_eq_of_lt (lt_of_lt_of_le hy hsize)
  rw [Mapped, hdiv, addr_oneBlock]
  exact ⟨by decide, by decide⟩

lemma sound_smallDisk (hsize : size.toNat ≤ BSIZE) : Sound smallSuper (smallDisk size) where
  wf := (wf_oneBlock size size).congr (fun j hj x => by rw [smallDisk_inode hj]) fun _ _ => rfl
  allocated j hj := by
    rw [smallDisk_inode hj]
    exact mapped_oneBlock _ hsize

lemma contents_smallDisk (hsize : size.toNat ≤ BSIZE) :
    contents (smallDisk size) (oneBlock size) = replicate size.toNat 0 := by
  rw [contents, eq_replicate_iff]
  refine ⟨by rw [length_map, length_range]; rfl, fun b hb => ?_⟩
  obtain ⟨y, hy, rfl⟩ := mem_map.1 hb
  have hdiv : y / BSIZE = 0 := Nat.div_eq_of_lt (lt_of_lt_of_le (mem_range.1 hy) hsize)
  rw [byteAt, hdiv, addr_oneBlock, if_pos rfl, smallDisk, update_of_ne (by decide),
    update_of_ne (by decide)]
  rfl

lemma room_smallDisk : Room smallSuper (smallDisk 1023) (oneBlock 1023) 1023 2 := by
  intro _
  have hslots : slots 1023 1025 = {0, 1} := by decide
  have hfree : free smallSuper (smallDisk 1023) = 1 := by
    rw [free, Finset.filter_congr fun c hc => by rw [smallDisk_used (Finset.mem_range.1 hc)]]
    rfl
  rw [hslots, hfree, unmapped, Finset.filter_congr fun x _ => by rw [addr_oneBlock]]
  decide

/-- The source is `src`, and all copies succeed. -/
def copies (src : List Byte) (tot m : ℕ) : List Byte × Bool := ((src.drop tot).take m, true)

/-- Two bytes are written to the end of a file, and the second one needs a new block. -/
theorem writei_refines_small : ∃ D', writei smallSuper (copies [65, 66]) (smallDisk 1023) 0
      (smallSuper.inode (smallDisk 1023) 0) 1023 2 = some (2, D', smallSuper.inode D' 0) ∧
    Sound smallSuper D' ∧ (smallSuper.inode D' 0).size.toNat = 1025 ∧
    ReadsAs smallSuper D' (smallSuper.inode D' 0) (replicate 1023 0 ++ [65, 66]) := by
  have hinode : smallSuper.inode (smallDisk 1023) 0 = oneBlock 1023 := smallDisk_inode (by decide)
  have hrefines := @writei_refines smallSuper (smallDisk 1023) 0 [65, 66] 1023 2 (copies [65, 66])
    (sound_smallDisk (by decide)) (by decide) rfl (fun _ _ _ => rfl) (by
      rw [hinode]
      exact room_smallDisk)
  rw [hinode] at hrefines ⊢
  obtain ⟨D', hwrite, hsound, hsize, hreads, -⟩ := hrefines.2.2 (by
    simp only [Refused]
    decide)
  rw [contents_smallDisk (by decide), show BitVec.toNat (1023 : BitVec 32) = 1023 from rfl,
    overwrite, take_of_length_le length_replicate.le,
    drop_eq_nil_of_le (length_replicate.le.trans (by decide)), append_nil] at hreads
  exact ⟨D', hwrite, hsound, hsize, hreads⟩

end Hexv6.File
