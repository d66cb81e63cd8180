import Hexv6.File.Bmap

/-!
# The bytes of files

The bytes of a file are those of the blocks in its slots.  A turn of the loop of `writei` replaces
the bytes from the offset on that get into one block, and no others, also in other files (`Upd`).
By induction so does the whole loop, and that of `readi` collects the bytes.
-/

namespace Hexv6.File

open Blk List Function

/-- The byte at offset `y` is in a block. -/
def Mapped (D : Disk) (ip : Inode) (y : ℕ) : Prop :=
  y / BSIZE < MAXFILE ∧ addr D ip (y / BSIZE) ≠ 0

def byteAt (D : Disk) (ip : Inode) (y : ℕ) : Byte := (D (addr D ip (y / BSIZE))).byte (y % BSIZE)

/-- The slots for the bytes from `lo` up to `hi`. -/
def slots (lo hi : ℕ) : Finset ℕ := (Finset.Ico lo hi).biUnion fun y => slotsOf (y / BSIZE)

/-- The bytes from `lo` up to `hi` of the file `inum` become those of `val`. -/
structure Written (sb : Super) (V : ℕ → Inode) (inum lo hi : ℕ) (val : ℕ → Byte) (D D' : Disk)
    (ip' : Inode) : Prop where
  wf : WF sb D' (update V inum ip')
  kept : ∀ y, Mapped D (V inum) y → Mapped D' ip' y
  new : ∀ y, lo ≤ y → y < hi → Mapped D' ip' y ∧ byteAt D' ip' y = val y
  rest : ∀ y, Mapped D (V inum) y → y < lo ∨ hi ≤ y → byteAt D' ip' y = byteAt D (V inum) y
  other : ∀ j < sb.ninodes, j ≠ inum → ∀ y, Mapped D (V j) y →
    Mapped D' (V j) y ∧ byteAt D' (V j) y = byteAt D (V j) y

/-- Bytes are written, and the inodes on the disk stay. -/
structure Upd (sb : Super) (V : ℕ → Inode) (inum lo hi : ℕ) (val : ℕ → Byte) (D D' : Disk)
    (ip' : Inode) : Prop extends Written sb V inum lo hi val D D' ip' where
  same : ∃ f, ip' = { V inum with addrs := f }
  node : ∀ i < sb.ninodes, D' (sb.iblock i) = D (sb.iblock i)

variable {sb : Super} {D D' : Disk} {V V' : ℕ → Inode} {ip ip' : Inode}
variable {lo mid hi m n y j inum : ℕ} {val : ℕ → Byte}
  {src : List Byte} {S : Finset ℕ} {c : ℕ} {base : ℕ} {left tot : ℕ}

/-! ### Composition -/

lemma Upd.trans {D'' : Disk} {ip'' : Inode} (hlo : lo ≤ mid) (hhi : mid ≤ hi)
    (h : Upd sb V inum lo mid val D D' ip')
    (h' : Upd sb (update V inum ip') inum mid hi val D' D'' ip'') :
    Upd sb V inum lo hi val D D'' ip'' := by
  have hself : update V inum ip' inum = ip' := update_self ..
  have hkept := h'.kept
  have hrest := h'.rest
  rw [hself] at hkept hrest
  refine
    { wf := by simpa using h'.wf, same := ?_, kept := fun y hy => hkept y (h.kept y hy)
      new := fun y hy hy' => ?_, rest := fun y hy hout => ?_, other := fun j hj hji y hy => ?_
      node := fun i hi => (h'.node i hi).trans (h.node i hi) }
  · rcases Nat.lt_or_ge y mid with hmid | hmid
    · obtain ⟨hmap, hval⟩ := h.new y hy hmid
      exact ⟨hkept y hmap, by rw [hrest y hmap (.inl hmid), hval]⟩
    · exact h'.new y hmid hy'
  · rw [hrest y (h.kept y hy) (by omega), h.rest y hy (by omega)]
  · obtain ⟨hmap, hval⟩ := h.other j hj hji y hy
    have hother := h'.other j hj hji y
    rw [update_of_ne hji] at hother
    exact ⟨(hother hmap).1, (hother hmap).2.trans hval⟩
  · obtain ⟨f, hf⟩ := h.same
    obtain ⟨g, hg⟩ := h'.same
    exact ⟨g, by rw [hg, hself, hf]⟩

/-- To fill slots changes no bytes. -/
lemma Grow.upd (h : Grow sb V inum S D D' ip') (hinum : inum < sb.ninodes) :
    Upd sb V inum lo lo val D D' ip' where
  wf := h.wf
  same := h.same
  kept y hy := ⟨hy.1, by rw [h.kept hy.2]; exact hy.2⟩
  new y hy hy' := absurd hy' (by omega)
  rest y hy _ := by
    rw [byteAt, byteAt, h.kept hy.2, h.data inum hinum _ hy.2 fun hc => (ne_of_lt hy.1) hc.2]
  other j hj hji y hy := by
    refine ⟨⟨hy.1, by rw [h.other j hj hji]; exact hy.2⟩, ?_⟩
    rw [byteAt, byteAt, h.other j hj hji, h.data j hj _ hy.2 fun hc => hji hc.1]
  node := h.node

/-- What is well-formed is seen in the slots and in the free map. -/
lemma WF.congr (h : WF sb D V) (haddr : ∀ j < sb.ninodes, ∀ x, addr D' (V' j) x = addr D (V j) x)
    (hused : ∀ c < sb.size, sb.used D' c = sb.used D c) : WF sb D' V' where
  small := h.small
  apart := h.apart
  held c hc hm := by rw [hused c hc, h.held c hc hm]
  own j hj x hne := by
    rw [haddr j hj x] at hne ⊢
    obtain ⟨hlt, hm, hu⟩ := h.own j hj x hne
    exact ⟨hlt, hm, by rw [hused _ hlt, hu]⟩
  inj j hj j' hj' x x' hne heq := by
    rw [haddr j hj x] at hne heq
    rw [haddr j' hj' x'] at heq
    exact h.inj j hj j' hj' x x' hne heq

/-! ### Writing to a block of contents -/

section write

variable (hwf : WF sb D V) (hinum : inum < sb.ninodes) (hlo : Mapped D (V inum) lo) (blk : Block)

include hwf hinum hlo

lemma addr_update (hj : j < sb.ninodes) (x : ℕ) :
    addr (update D (addr D (V inum) (lo / BSIZE)) blk) (V j) x = addr D (V j) x := by
  refine addr_congr (fun hne => update_of_ne (fun heq => ?_) ..) x
  rw [← addr_indirect] at heq
  have hne' : addr D (V j) MAXFILE ≠ 0 := by rwa [addr_indirect, toNat_ne_zero]
  exact (ne_of_gt hlo.1) (hwf.inj j hj inum hinum _ _ hne' heq).2

lemma update_meta (hc : sb.Meta c) : update D (addr D (V inum) (lo / BSIZE)) blk c = D c :=
  update_of_ne (fun heq : c = _ => (hwf.own inum hinum _ hlo.2).2.1 (by rwa [← heq])) ..

lemma used_update (hc : c < sb.size) :
    sb.used (update D (addr D (V inum) (lo / BSIZE)) blk) c = sb.used D c := by
  rw [Super.used, Super.used, update_meta hwf hinum hlo blk (.inr (.inr ⟨c, hc, rfl⟩))]

lemma free_update : free sb (update D (addr D (V inum) (lo / BSIZE)) blk) = free sb D := by
  rw [free, free]
  congr 1
  ext c
  simp only [Finset.mem_filter, Finset.mem_range, and_congr_right_iff]
  intro hc
  rw [used_update hwf hinum hlo blk hc]

lemma byteAt_update_of_ne (hj : j < sb.ninodes) (hy : Mapped D (V j) y)
    (hne : ¬ (j = inum ∧ y / BSIZE = lo / BSIZE)) :
    byteAt (update D (addr D (V inum) (lo / BSIZE)) blk) (V j) y = byteAt D (V j) y := by
  rw [byteAt, byteAt, addr_update hwf hinum hlo blk hj, update_of_ne fun heq =>
    hne (hwf.inj j hj inum hinum _ _ hy.2 heq)]

lemma byteAt_update_self (hy : y / BSIZE = lo / BSIZE) :
    byteAt (update D (addr D (V inum) (lo / BSIZE)) blk) (V inum) y = blk.byte (y % BSIZE) := by
  rw [byteAt, addr_update hwf hinum hlo blk hinum, hy, update_self]

omit hwf hinum hlo in
/-- The bytes of a block with a piece put into it. -/
lemma byte_paste_map (d : Block) (hy : y / BSIZE = lo / BSIZE) :
    (d.paste (lo % BSIZE) ((range m).map fun i => val (lo + i))).byte (y % BSIZE) =
      if lo ≤ y ∧ y < lo + m then val y else d.byte (y % BSIZE) := by
  have hin : lo ≤ y ∧ y < lo + m ↔ lo % BSIZE ≤ y % BSIZE ∧ y % BSIZE - lo % BSIZE < m := by
    simp only [BSIZE] at hy ⊢
    omega
  rw [Block.byte_paste d _ _ (Nat.mod_lt _ (by decide)), getD_eq_getElem?_getD, getElem?_map,
    if_congr hin rfl rfl]
  split_ifs with hle hlt hlt
  · have hval : lo + (y % BSIZE - lo % BSIZE) = y := by
      simp only [BSIZE] at hy hle ⊢
      omega
    rw [getElem?_range hlt.2, Option.map_some, Option.getD_some, hval]
  · rw [getElem?_eq_none (by rw [length_range]; omega)]
    rfl
  · exact absurd hlt.1 hle
  · rfl

lemma Upd.write (val : ℕ → Byte) (hm : lo % BSIZE + m ≤ BSIZE) : Upd sb V inum lo (lo + m) val D
      (update D (addr D (V inum) (lo / BSIZE)) ((D (addr D (V inum) (lo / BSIZE))).paste
        (lo % BSIZE) ((range m).map fun i => val (lo + i)))) (V inum) := by
  generalize hblk : (D (addr D (V inum) (lo / BSIZE))).paste (lo % BSIZE)
    ((range m).map fun i => val (lo + i)) = blk
  have hmap : ∀ {j y}, j < sb.ninodes → Mapped D (V j) y →
      Mapped (update D (addr D (V inum) (lo / BSIZE)) blk) (V j) y := fun hj hy =>
    ⟨hy.1, by rw [addr_update hwf hinum hlo blk hj]; exact hy.2⟩
  -- the bytes of the block that is written
  have hbyte : ∀ {y}, y / BSIZE = lo / BSIZE →
      byteAt (update D (addr D (V inum) (lo / BSIZE)) blk) (V inum) y =
        if lo ≤ y ∧ y < lo + m then val y else byteAt D (V inum) y := by
    intro y hy
    rw [byteAt_update_self hwf hinum hlo blk hy, ← hblk, byte_paste_map _ hy, byteAt, hy]
  refine
    { wf := ?_, same := ⟨_, rfl⟩, kept := fun y => hmap hinum, new := fun y hy hy' => ?_
      rest := fun y hy hout => ?_, other := fun j hj hji y hy => ⟨hmap hj hy, ?_⟩
      node := fun i hi => update_meta hwf hinum hlo blk (.inr (.inl ⟨i, hi, rfl⟩)) }
  · rw [update_eq_self]
    exact hwf.congr (fun j hj => addr_update hwf hinum hlo blk hj)
      fun c hc => used_update hwf hinum hlo blk hc
  · have hdiv : y / BSIZE = lo / BSIZE := by
      simp only [BSIZE] at hm ⊢
      omega
    refine ⟨hmap hinum ?_, by rw [hbyte hdiv, if_pos ⟨hy, hy'⟩]⟩
    rw [Mapped, hdiv]
    exact hlo
  · by_cases hdiv : y / BSIZE = lo / BSIZE
    · rw [hbyte hdiv, if_neg (by omega)]
    · exact byteAt_update_of_ne hwf hinum hlo blk hinum hy fun hc => hdiv hc.2
  · exact byteAt_update_of_ne hwf hinum hlo blk hj hy fun hc => hji hc.1

end write

/-! ### The loop of `writei` -/

lemma slots_mono (h : lo ≤ mid) : slots mid hi ⊆ slots lo hi :=
  Finset.biUnion_subset_biUnion_of_subset_left _ (Finset.Ico_subset_Ico_left h)

lemma slotsOf_subset (h : lo < hi) : slotsOf (lo / BSIZE) ⊆ slots lo hi :=
  Finset.subset_biUnion_of_mem (fun y => slotsOf (y / BSIZE)) (Finset.mem_Ico.2 ⟨le_rfl, h⟩)

/-- The slots that are left to fill. -/
lemma Grow.need {S T U : Finset ℕ} (h : Grow sb V inum (unmapped D (V inum) S) D D' ip')
    (hS : S ⊆ U)
    (hT : T ⊆ U) (hfree : (unmapped D (V inum) U).card ≤ File.free sb D) :
    (unmapped D' ip' T).card ≤ File.free sb D' := by
  have hsub : unmapped D' ip' T ⊆ unmapped D (V inum) U \ unmapped D (V inum) S := by
    intro x hx
    rw [unmapped, Finset.mem_filter] at hx
    have hxS : x ∉ unmapped D (V inum) S := fun hxS => (h.on x hxS).2 hx.2
    rw [Finset.mem_sdiff, unmapped, Finset.mem_filter, ← h.off x hxS]
    exact ⟨⟨hT hx.1, hx.2⟩, hxS⟩
  have hSU : unmapped D (V inum) S ⊆ unmapped D (V inum) U := Finset.filter_subset_filter _ hS
  have hcard := Finset.card_le_card hsub
  rw [Finset.card_sdiff_of_subset hSU] at hcard
  have := h.free
  omega

lemma chunk_le (n tot off : ℕ) : off % BSIZE + chunk n tot off ≤ BSIZE ∧
    chunk n tot off ≤ n - tot := by
  have hmod : off % BSIZE < BSIZE := Nat.mod_lt _ (by decide)
  rw [chunk]
  omega

/-- A turn of the loop: slots are filled, and a piece is put into the block. -/
lemma Grow.write {a : BitVec 32} (h : Grow sb V inum S D D' ip')
    (hinum : inum < sb.ninodes) (hbn : lo / BSIZE < MAXFILE)
    (ha : a.toNat = addr D' ip' (lo / BSIZE))
    (hne : a ≠ 0) (val : ℕ → Byte) (hm : lo % BSIZE + m ≤ BSIZE) :
    let D₂ := update D' a.toNat ((D' a.toNat).paste (lo % BSIZE)
      ((range m).map fun i => val (lo + i)))
    Upd sb V inum lo (lo + m) val D D₂ ip' ∧ File.free sb D₂ = File.free sb D' ∧
      ∀ x, addr D₂ ip' x = addr D' ip' x := by
  have hself : update V inum ip' inum = ip' := update_self ..
  have hlo : Mapped D' (update V inum ip' inum) lo := by
    rw [hself]
    exact ⟨hbn, by rwa [← ha, toNat_ne_zero]⟩
  have hwrite := Upd.write h.wf hinum hlo val hm
  have hfree := free_update h.wf hinum hlo ((D' a.toNat).paste (lo % BSIZE)
    ((range m).map fun i => val (lo + i)))
  have haddr := addr_update h.wf hinum hlo ((D' a.toNat).paste (lo % BSIZE)
    ((range m).map fun i => val (lo + i))) hinum
  rw [hself, ← ha] at hwrite hfree haddr
  exact ⟨(h.upd hinum).trans le_rfl (Nat.le_add_right _ _) hwrite, hfree, haddr⟩

/-- The source is `src`, and all copies from it succeed. -/
def Copies (copyin : ℕ → ℕ → List Byte × Bool) (src : List Byte) : Prop :=
  ∀ tot m, tot + m ≤ src.length → copyin tot m = ((src.drop tot).take m, true)

lemma take_drop_eq_map {tot : ℕ} (h : tot + m ≤ src.length) :
    (src.drop tot).take m = (range m).map fun i => src.getD (tot + i) 0 := by
  refine ext_getElem ?_ fun i hi hi' => ?_
  · rw [length_take, length_drop, length_map, length_range]
    omega
  rw [length_map, length_range] at hi'
  rw [getElem_take, getElem_drop, getElem_map, getElem_range,
    getD_eq_getElem?_getD, getElem?_eq_getElem (by omega), Option.getD_some]

/-- The loop ends with all bytes written.  The induction is on the bytes that are left. -/
lemma writeLoop_spec {copyin : ℕ → ℕ → List Byte × Bool}
    (hcopy : Copies copyin src) (hn : src.length = n) (hinum : inum < sb.ninodes)
    (hmax : base + n ≤ MAXFILE * BSIZE)
    (hleft : tot + left = n) (hwf : WF sb D V)
    (hfree : (unmapped D (V inum) (slots (base + tot) (base + n))).card ≤ free sb D) :
    ∃ D' ip', writeLoop sb copyin n D (V inum) tot (base + tot) = some (D', ip', n, base + n) ∧
      Upd sb V inum (base + tot) (base + n) (fun y => src.getD (y - base) 0) D D' ip' := by
  induction left using Nat.strong_induction_on generalizing D V tot with
  | _ left ih =>
    by_cases h : tot < n
    · have hbn : (base + tot) / BSIZE < MAXFILE := Nat.div_lt_of_lt_mul (by rw [mul_comm]; omega)
      have hslots := slotsOf_subset (show base + tot < base + n by omega)
      obtain ⟨D1, ip1, a, hbmap, ha, hne, hgrow⟩ := bmap_spec hwf hinum hbn
        ((Finset.card_le_card (Finset.filter_subset_filter _ hslots)).trans hfree)
      obtain ⟨hm, hmn⟩ := chunk_le n tot (base + tot)
      have hpos := chunk_pos (base + tot) h
      generalize hmdef : chunk n tot (base + tot) = m at hm hmn hpos
      have hself : update V inum ip1 inum = ip1 := update_self ..
      have hsrc : (src.drop tot).take m =
          (range m).map fun i => (fun y => src.getD (y - base) 0) (base + tot + i) := by
        rw [take_drop_eq_map (by omega)]
        exact map_congr_left fun i _ => by
          dsimp only
          rw [show base + tot + i - base = tot + i by omega]
      obtain ⟨hstep, hfree', haddr⟩ :=
        hgrow.write hinum hbn ha hne (fun y => src.getD (y - base) 0) hm
      rw [writeLoop, dif_pos h, hbmap]
      simp only [hmdef, hcopy tot m (by omega), hsrc, if_true]
      generalize update D1 a.toNat ((D1 a.toNat).paste ((base + tot) % BSIZE)
        ((range m).map fun i => src.getD (base + tot + i - base) 0)) = D2 at hstep hfree' haddr ⊢
      -- what is left to fill
      have hneed : (unmapped D2 ip1 (slots (base + (tot + m)) (base + n))).card ≤ free sb D2 := by
        rw [hfree', unmapped, Finset.filter_congr fun x _ => by rw [haddr x]]
        exact hgrow.need hslots (slots_mono (by omega)) hfree
      have hih := ih (left - m) (by omega)
        (show tot + m + (left - m) = n by omega) hstep.wf (by rwa [hself])
      rw [hself] at hih
      obtain ⟨D', ip', hloop, hupd⟩ := hih
      refine ⟨D', ip', by rw [add_assoc, hloop], ?_⟩
      have hhi : base + tot + m ≤ base + n := by omega
      exact hstep.trans (Nat.le_add_right _ _) hhi (by rwa [add_assoc])
    · obtain rfl : tot = n := by omega
      exact ⟨D, V inum, by rw [writeLoop, dif_neg h], (Grow.refl hwf).upd hinum⟩

/-! ### The loop of `readi` -/

/-- The bytes that are copied in a turn, as bytes of the file. -/
lemma map_byte_eq (D : Disk) (ip : Inode) (hm : y % BSIZE + m ≤ BSIZE) :
    ((range m).map fun i => (D (addr D ip (y / BSIZE))).byte (y % BSIZE + i)) =
      (range m).map fun i => byteAt D ip (y + i) := by
  refine map_congr_left fun i hi => ?_
  have hi' := mem_range.1 hi
  have hdiv : (y + i) / BSIZE = y / BSIZE := by
    simp only [BSIZE] at hm ⊢
    omega
  have hmod : (y + i) % BSIZE = y % BSIZE + i := by
    simp only [BSIZE] at hm ⊢
    omega
  rw [byteAt, hdiv, hmod]

lemma readLoop_spec {copyout : ℕ → ℕ → Bool}
    (hcopy : ∀ tot m, tot + m ≤ n → copyout tot m = true)
    (hmap : ∀ y, base ≤ y → y < base + n → Mapped D ip y) (hleft : tot + left = n)
    (dst : List Byte) :
    readLoop sb copyout n D ip tot (base + tot) dst =
      some ((n : ℤ), dst ++ (range left).map (fun i => byteAt D ip (base + tot + i)), D, ip) := by
  induction left using Nat.strong_induction_on generalizing tot dst with
  | _ left ih =>
    by_cases h : tot < n
    · obtain ⟨hbn, hne⟩ := hmap (base + tot) (by omega) (by omega)
      obtain ⟨a, hbmap, ha⟩ := bmap_mapped sb hbn hne
      obtain ⟨hm, hmn⟩ := chunk_le n tot (base + tot)
      have hpos := chunk_pos (base + tot) h
      generalize hmdef : chunk n tot (base + tot) = m at hm hmn hpos
      have hpiece := map_byte_eq D ip hm
      rw [← ha] at hpiece
      rw [readLoop, dif_pos h, hbmap]
      simp only [hmdef, hcopy tot m (by omega), if_true]
      rw [add_assoc base tot m, ih (left - m) (by omega) (by omega), hpiece, append_assoc]
      obtain ⟨k, rfl⟩ : ∃ k, left = m + k := ⟨left - m, by omega⟩
      rw [Nat.add_sub_cancel_left, range_add, map_append, map_map]
      simp only [Function.comp_def, add_assoc]
    · obtain ⟨rfl, rfl⟩ : tot = n ∧ left = 0 := by omega
      rw [readLoop, dif_neg h, range_zero, map_nil, append_nil]

end Hexv6.File
