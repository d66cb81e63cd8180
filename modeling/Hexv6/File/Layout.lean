import Hexv6.File.Rw

/-!
# Where the blocks of files are

Every file has slots for its blocks: those for its contents, and one for its indirect block.  `addr`
is the block that is in a slot, or 0.  In a well-formed file system (`WF`) no block is in two slots,
and the blocks in the slots are in use and hold no inodes and no part of the free map.

To allocate a block fills a slot and leaves all others (`Grow`), and to write to a block of contents
leaves all slots.
-/

namespace Hexv6.File

open Blk Finset
open Function (update_of_ne update_self update_eq_self update)

/-- The block in slot `x`; the slot of the indirect block comes after those for contents. -/
def addr (D : Disk) (ip : Inode) (x : ℕ) : ℕ :=
  if h : x < NDIRECT then (ip.addrs ⟨x, Nat.lt_succ_of_lt h⟩).toNat
  else if x < MAXFILE then
    if ip.addrs indirect = 0 then 0
    else ((D (ip.addrs indirect).toNat).word (x - NDIRECT)).toNat
  else if x = MAXFILE then (ip.addrs indirect).toNat
  else 0

/-- Block 0, and the blocks with the free map and with inodes. -/
def Super.Meta (sb : Super) (c : ℕ) : Prop :=
  c = 0 ∨ (∃ i < sb.ninodes, c = sb.iblock i) ∨ ∃ b < sb.size, c = sb.bblock b

/-- A well-formed file system, where `V` are the inodes. -/
structure WF (sb : Super) (D : Disk) (V : ℕ → Inode) : Prop where
  small : sb.size ≤ 2 ^ 32
  apart : ∀ i < sb.ninodes, ∀ b < sb.size, sb.iblock i ≠ sb.bblock b
  held : ∀ c < sb.size, sb.Meta c → sb.used D c = true
  own : ∀ j < sb.ninodes, ∀ x, addr D (V j) x ≠ 0 →
    addr D (V j) x < sb.size ∧ ¬ sb.Meta (addr D (V j) x) ∧ sb.used D (addr D (V j) x) = true
  inj : ∀ j < sb.ninodes, ∀ j' < sb.ninodes, ∀ x x', addr D (V j) x ≠ 0 →
    addr D (V j) x = addr D (V j') x' → j = j' ∧ x = x'

/-- The number of free blocks. -/
def free (sb : Super) (D : Disk) : ℕ :=
  ((range sb.size).filter fun b => sb.used D b = false).card

variable {sb : Super} {D D' : Disk} {V : ℕ → Inode} {ip ip' : Inode} {b c x j inum : ℕ}

/-! ### Slots -/

lemma addr_direct (h : x < NDIRECT) :
    addr D ip x = (ip.addrs ⟨x, Nat.lt_succ_of_lt h⟩).toNat := by
  rw [addr, dif_pos h]

lemma addr_word (h : NDIRECT ≤ x) (hx : x < MAXFILE) (hne : ip.addrs indirect ≠ 0) :
    addr D ip x = ((D (ip.addrs indirect).toNat).word (x - NDIRECT)).toNat := by
  rw [addr, dif_neg (by omega), if_pos hx, if_neg hne]

lemma addr_word_zero (h : NDIRECT ≤ x) (hx : x < MAXFILE) (h₀ : ip.addrs indirect = 0) :
    addr D ip x = 0 := by
  rw [addr, dif_neg (by omega), if_pos hx, if_pos h₀]

lemma addr_indirect : addr D ip MAXFILE = (ip.addrs indirect).toNat := by
  rw [addr, dif_neg (by decide), if_neg (lt_irrefl _), if_pos rfl]

lemma addr_of_lt (h : MAXFILE < x) : addr D ip x = 0 := by
  have hdirect : NDIRECT ≤ MAXFILE := by decide
  rw [addr, dif_neg (by omega), if_neg (by omega), if_neg (by omega)]

/-- Slots are looked up in the inode and in its indirect block. -/
lemma addr_congr (h : ip.addrs indirect ≠ 0 →
    D' (ip.addrs indirect).toNat = D (ip.addrs indirect).toNat) (x : ℕ) :
    addr D' ip x = addr D ip x := by
  rw [addr, addr]
  split_ifs with h1 h2 h3 h4
  · rfl
  · rfl
  · rw [h h3]
  · rfl
  · rfl

lemma toNat_ne_zero {a : BitVec 32} : a.toNat ≠ 0 ↔ a ≠ 0 := by
  rw [ne_eq, ne_eq, ← BitVec.toNat_inj]
  rfl

lemma WF.indirect_own (h : WF sb D V) (hj : j < sb.ninodes) (hne : (V j).addrs indirect ≠ 0) :
    ((V j).addrs indirect).toNat < sb.size ∧ ¬ sb.Meta ((V j).addrs indirect).toNat ∧
      sb.used D ((V j).addrs indirect).toNat = true := by
  have hown := h.own j hj MAXFILE
  rw [addr_indirect] at hown
  exact hown (toNat_ne_zero.2 hne)

/-! ### Allocation -/

/-- Block `b` is taken from the free map. -/
structure Alloc (sb : Super) (D D' : Disk) (b : ℕ) : Prop where
  lt : b < sb.size
  notMeta : ¬ sb.Meta b
  fresh : sb.used D b = false
  zero : D' b = Block.zero
  off : ∀ c, c ≠ b → (∀ b < sb.size, c ≠ sb.bblock b) → D' c = D c
  used : ∀ c < sb.size, sb.used D' c = (decide (c = b) || sb.used D c)

lemma Alloc.free_eq (h : Alloc sb D D' b) : free sb D = free sb D' + 1 := by
  have herase : ((range sb.size).filter fun c => sb.used D' c = false) =
      ((range sb.size).filter fun c => sb.used D c = false).erase b := by
    ext c
    simp only [mem_filter, mem_range, mem_erase]
    constructor
    · rintro ⟨hc, hu⟩
      rw [h.used c hc, Bool.or_eq_false_iff, decide_eq_false_iff_not] at hu
      exact ⟨hu.1, hc, hu.2⟩
    · rintro ⟨hne, hc, hu⟩
      exact ⟨hc, by simp [h.used c hc, hne, hu]⟩
  have hmem : b ∈ (range sb.size).filter fun c => sb.used D c = false := by
    simp [h.lt, h.fresh]
  rw [free, free, herase, card_erase_of_mem hmem]
  have hpos := card_pos.2 ⟨b, hmem⟩
  omega

lemma balloc_spec (h : WF sb D V) (hfree : 0 < free sb D) :
    ∃ D' b, balloc sb D = some (D', BitVec.ofNat 32 b) ∧ (BitVec.ofNat 32 b).toNat = b ∧
      Alloc sb D D' b := by
  rcases hfind : (List.range sb.size).find? fun b => !sb.used D b with _ | b
  · obtain ⟨c, hc⟩ := card_pos.1 hfree
    rw [mem_filter, mem_range] at hc
    have hnone := List.find?_eq_none.1 hfind c (List.mem_range.2 hc.1)
    simp [hc.2] at hnone
  have hlt : b < sb.size := List.mem_range.1 (List.mem_of_find?_eq_some hfind)
  have hfresh : sb.used D b = false := by simpa using List.find?_some hfind
  have hmeta : ¬ sb.Meta b := fun hm => by simp [h.held b hlt hm] at hfresh
  have hb : ∀ c < sb.size, sb.bblock c ≠ b := fun c hc heq => hmeta (.inr (.inr ⟨c, hc, heq.symm⟩))
  have hsmall := h.small
  refine ⟨_, b, by rw [balloc, hfind], by rw [BitVec.toNat_ofNat, Nat.mod_eq_of_lt (by omega)], hlt,
    hmeta, hfresh, update_self .., fun c hne hc => ?_, fun c hc => ?_⟩
  · rw [update_of_ne hne, update_of_ne (hc b hlt)]
  rw [Super.used, update_of_ne (hb c hc)]
  by_cases hcb : sb.bblock c = sb.bblock b
  · have hdiv : c / BPB = b / BPB := by
      simp only [Super.bblock] at hcb
      omega
    have hmod : c % BPB = b % BPB ↔ c = b := by
      constructor
      · intro hm
        rw [← Nat.div_add_mod c BPB, ← Nat.div_add_mod b BPB, hdiv, hm]
      · rintro rfl
        rfl
    rw [hcb, update_self, Block.bit_setBit (Nat.mod_lt _ (by decide)), Super.used, hcb]
    simp only [hmod]
  · have hne : c ≠ b := fun heq => hcb (by rw [heq])
    rw [update_of_ne hcb]
    simp [hne, Super.used]

section

variable (h : Alloc sb D D' b)
include h

lemma Alloc.ne_zero : b ≠ 0 := fun h0 => h.notMeta (.inl h0)

lemma Alloc.ne_of_used (hc : sb.used D c = true) : c ≠ b := by
  rintro rfl
  simp [h.fresh] at hc

/-- The blocks of files stay. -/
lemma Alloc.block (hc : ¬ sb.Meta c ∧ sb.used D c = true) : D' c = D c :=
  h.off c (h.ne_of_used hc.2) fun b hb heq => hc.1 (.inr (.inr ⟨b, hb, heq⟩))

/-- The blocks with inodes stay. -/
lemma Alloc.iblock (hwf : WF sb D V) {i : ℕ} (hi : i < sb.ninodes) :
    D' (sb.iblock i) = D (sb.iblock i) :=
  h.off _ (fun heq => h.notMeta (.inr (.inl ⟨i, hi, heq.symm⟩))) (hwf.apart i hi)

/-- The slots stay. -/
lemma Alloc.addr_eq (hwf : WF sb D V) (hj : j < sb.ninodes) (x : ℕ) :
    addr D' (V j) x = addr D (V j) x :=
  addr_congr (fun hne => h.block (hwf.indirect_own hj hne).2) x

end

/-! ### Filling slots -/

/-- The slots `S` of the inode `inum` are filled with new blocks.  Everything else stays, but for
the contents of the indirect block. -/
structure Grow (sb : Super) (V : ℕ → Inode) (inum : ℕ) (S : Finset ℕ) (D : Disk) (D' : Disk)
    (ip' : Inode) : Prop where
  wf : WF sb D' (update V inum ip')
  same : ∃ f, ip' = { V inum with addrs := f }
  on : ∀ x ∈ S, addr D (V inum) x = 0 ∧ addr D' ip' x ≠ 0
  off : ∀ x ∉ S, addr D' ip' x = addr D (V inum) x
  other : ∀ j < sb.ninodes, j ≠ inum → ∀ x, addr D' (V j) x = addr D (V j) x
  data : ∀ j < sb.ninodes, ∀ x, addr D (V j) x ≠ 0 → ¬ (j = inum ∧ x = MAXFILE) →
    D' (addr D (V j) x) = D (addr D (V j) x)
  node : ∀ i < sb.ninodes, D' (sb.iblock i) = D (sb.iblock i)
  free : free sb D = free sb D' + S.card

lemma Grow.refl (h : WF sb D V) : Grow sb V inum ∅ D D (V inum) where
  wf := by rwa [update_eq_self]
  same := ⟨_, rfl⟩
  on x hx := absurd hx (notMem_empty x)
  off _ _ := rfl
  other _ _ _ _ := rfl
  data _ _ _ _ _ := rfl
  node _ _ := rfl
  free := rfl

/-- A slot that is filled stays as it is. -/
lemma Grow.kept {S : Finset ℕ} (h : Grow sb V inum S D D' ip') (hx : addr D (V inum) x ≠ 0) :
    addr D' ip' x = addr D (V inum) x :=
  h.off x fun hS => hx (h.on x hS).1

lemma Grow.trans {S S' : Finset ℕ} {D'' : Disk} {ip'' : Inode} (h : Grow sb V inum S D D' ip')
    (h' : Grow sb (update V inum ip') inum S' D' D'' ip'') :
    Grow sb V inum (S ∪ S') D D'' ip'' := by
  have hself : update V inum ip' inum = ip' := update_self ..
  have hne : ∀ {j}, j ≠ inum → update V inum ip' j = V j := fun hj => update_of_ne hj ..
  have hon := h'.on
  have hoff := h'.off
  rw [hself] at hon hoff
  refine
    { wf := by simpa using h'.wf, same := ?_, on := fun x hx => ?_, off := fun x hx => ?_
      other := fun j hj hji x => ?_, data := fun j hj x hx hjx => ?_, node := fun i hi => ?_
      free := ?_ }
  · obtain ⟨f, hf⟩ := h.same
    obtain ⟨g, hg⟩ := h'.same
    exact ⟨g, by rw [hg, hself, hf]⟩
  · by_cases hS : x ∈ S
    · refine ⟨(h.on x hS).1, ?_⟩
      rw [hoff x fun hS' => (h.on x hS).2 (hon x hS').1]
      exact (h.on x hS).2
    · have hS' := (mem_union.1 hx).resolve_left hS
      exact ⟨by rw [← h.off x hS]; exact (hon x hS').1, (hon x hS').2⟩
  · rw [mem_union, not_or] at hx
    rw [hoff x hx.2, h.off x hx.1]
  · have := h'.other j hj hji x
    rw [hne hji] at this
    rw [this, h.other j hj hji x]
  · have hdata := h'.data j hj x
    rw [← h.data j hj x hx hjx]
    by_cases hji : j = inum
    · subst hji
      rw [hself, h.kept hx] at hdata
      exact hdata hx hjx
    · rw [hne hji, h.other j hj hji x] at hdata
      exact hdata hx hjx
  · rw [h'.node i hi, h.node i hi]
  · have hdisj : Disjoint S S' := by
      rw [disjoint_left]
      exact fun x hS hS' => (h.on x hS).2 (hon x hS').1
    rw [h.free, h'.free, card_union_of_disjoint hdisj]
    omega

/-- A new block is put into an empty slot. -/
lemma Alloc.grow {D'' : Disk} (h : Alloc sb D D' b) (hwf : WF sb D V) (hinum : inum < sb.ninodes)
    {y : ℕ} (hy : addr D (V inum) y = 0) (same : ∃ f, ip' = { V inum with addrs := f })
    (hslots : ∀ x, addr D'' ip' x = if x = y then b else addr D (V inum) x)
    (hblock : ∀ c, D'' c ≠ D' c → c = addr D (V inum) MAXFILE ∧ c ≠ 0) :
    Grow sb V inum {y} D D'' ip' := by
  have hind : ∀ {c}, D'' c ≠ D' c → ¬ sb.Meta c := by
    intro c hc
    obtain ⟨rfl, hne⟩ := hblock c hc
    exact (hwf.own inum hinum MAXFILE hne).2.1
  have hmeta : ∀ {c}, sb.Meta c → D'' c = D' c := fun hm => by_contra fun hc => hind hc hm
  have hused : ∀ c < sb.size, sb.used D'' c = (decide (c = b) || sb.used D c) := by
    intro c hc
    rw [← h.used c hc, Super.used, Super.used, hmeta (.inr (.inr ⟨c, hc, rfl⟩))]
  have hdata : ∀ j < sb.ninodes, ∀ x, addr D (V j) x ≠ 0 → ¬ (j = inum ∧ x = MAXFILE) →
      D'' (addr D (V j) x) = D (addr D (V j) x) := by
    intro j hj x hx hjx
    rw [← h.block (hwf.own j hj x hx).2]
    by_contra hc
    obtain ⟨heq, -⟩ := hblock _ hc
    exact hjx (hwf.inj j hj inum hinum x MAXFILE hx heq)
  have hother : ∀ j < sb.ninodes, j ≠ inum → ∀ x, addr D'' (V j) x = addr D (V j) x := by
    intro j hj hji x
    refine addr_congr (fun hne => ?_) x
    rw [← addr_indirect]
    exact hdata j hj MAXFILE (by rwa [addr_indirect, toNat_ne_zero]) fun hc => hji hc.1
  have haddr : ∀ j < sb.ninodes, ∀ x, addr D'' (update V inum ip' j) x =
      if j = inum ∧ x = y then b else addr D (V j) x := by
    intro j hj x
    by_cases hji : j = inum
    · subst hji
      rw [update_self, hslots]
      simp
    · rw [update_of_ne hji, hother j hj hji, if_neg fun hc => hji hc.1]
  have hfresh : ∀ j < sb.ninodes, ∀ x, addr D (V j) x ≠ b := fun j hj x heq => by
    have hne : addr D (V j) x ≠ 0 := heq ▸ h.ne_zero
    exact h.ne_of_used (hwf.own j hj x hne).2.2 heq
  refine
    { wf := ?_, same := same, on := fun x hx => ?_, off := fun x hx => ?_, other := hother
      data := hdata, node := fun i hi => ?_, free := ?_ }
  · refine
      { small := hwf.small, apart := hwf.apart, held := fun c hc hm => ?_, own := fun j hj x => ?_
        inj := fun j hj j' hj' x x' => ?_ }
    · rw [hused c hc, hwf.held c hc hm, Bool.or_true]
    · rw [haddr j hj x]
      split_ifs with hjx
      · exact fun _ => ⟨h.lt, h.notMeta, by simp [hused b h.lt]⟩
      intro hne
      obtain ⟨hlt, hm, hu⟩ := hwf.own j hj x hne
      exact ⟨hlt, hm, by rw [hused _ hlt, hu, Bool.or_true]⟩
    rw [haddr j hj x, haddr j' hj' x']
    split_ifs with hjx hjx' hjx'
    · exact fun _ _ => ⟨hjx.1.trans hjx'.1.symm, hjx.2.trans hjx'.2.symm⟩
    · exact fun _ heq => absurd heq.symm (hfresh j' hj' x')
    · exact fun _ heq => absurd heq (hfresh j hj x)
    · exact hwf.inj j hj j' hj' x x'
  · rw [mem_singleton.1 hx, hslots, if_pos rfl]
    exact ⟨hy, h.ne_zero⟩
  · rw [hslots, if_neg fun hxy => hx (mem_singleton.2 hxy)]
  · rw [hmeta (.inr (.inl ⟨i, hi, rfl⟩)), h.iblock hwf hi]
  · have hfree : File.free sb D'' = File.free sb D' := by
      rw [File.free, File.free]
      congr 1
      ext c
      simp only [mem_filter, mem_range, and_congr_right_iff]
      intro hc
      rw [hused c hc, h.used c hc]
    rw [hfree, h.free_eq, card_singleton]

end Hexv6.File
