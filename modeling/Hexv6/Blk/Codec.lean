import Hexv6.Blk.Block

/-!
# What is read after a write

A `struct dinode` or a bit of the free map that has been stored in a block is read back as it
was stored, and the others in the block are unchanged.
-/

namespace Hexv6.Blk

namespace Inode

/-- The bytes of the fields of a `struct dinode`, at their offsets. -/
lemma bytes_getD_addrs (ip : Inode) (j : Fin (NDIRECT + 1)) {k : ℕ} (hk : k < 4) (x : Byte) :
    ip.bytes.getD (12 + 4 * j + k) x = (Block.wordBytes (ip.addrs j)).getD k x := by
  revert j
  simp only [NDIRECT]
  intro j
  fin_cases j <;> interval_cases k <;> rfl

end Inode

namespace Block

variable {d : Block} {ip : Inode} {i j : ℕ}

/-- The bytes of entry `i`. -/
lemma byte_setDinode_self (hi : i < IPB) {k : ℕ} (hk : k < dinodeSize) :
    (d.setDinode i ip).byte (dinodeSize * i + k) =
      ip.bytes.getD k (d.byte (dinodeSize * i + k)) := by
  have hlt : dinodeSize * i + k < BSIZE := by
    simp only [IPB, BSIZE, dinodeSize, NDIRECT] at hi hk ⊢
    omega
  rw [setDinode, byte_paste d _ _ hlt, if_pos (Nat.le_add_right _ _), Nat.add_sub_cancel_left]

/-- The bytes of the other entries. -/
lemma byte_setDinode_of_ne (hj : j < IPB) (hij : j ≠ i) {k : ℕ} (hk : k < dinodeSize) :
    (d.setDinode i ip).byte (dinodeSize * j + k) = d.byte (dinodeSize * j + k) := by
  have hlt : dinodeSize * j + k < BSIZE := by
    simp only [IPB, BSIZE, dinodeSize, NDIRECT] at hj hk ⊢
    omega
  rw [setDinode, byte_paste d _ _ hlt]
  split_ifs with hle
  · rw [List.getD_eq_getElem?_getD, List.getElem?_eq_none, Option.getD_none]
    change dinodeSize ≤ _
    simp only [dinodeSize, NDIRECT] at hle hk ⊢
    omega
  · rfl

lemma halfBytes_append (w : BitVec 16) : w.extractLsb' 8 8 ++ w.extractLsb' 0 8 = w := by
  ext i hi
  simp only [BitVec.getElem_append, BitVec.getElem_extractLsb']
  grind

lemma dinode_setDinode_self (hi : i < IPB) : (d.setDinode i ip).dinode i = ip := by
  have hbyte {k : ℕ} (hk : k < dinodeSize) := @byte_setDinode_self d ip i hi k hk
  have hsize : dinodeSize = 64 := rfl
  have haddr : ∀ j : Fin (NDIRECT + 1),
      (d.setDinode i ip).wordAt (dinodeSize * i + 12 + 4 * j) = ip.addrs j := by
    intro j
    have hj : (j : ℕ) < 13 := j.isLt
    have hword : ∀ k < 4, (d.setDinode i ip).byte (dinodeSize * i + 12 + 4 * j + k) =
        (wordBytes (ip.addrs j)).getD k (d.byte (dinodeSize * i + (12 + 4 * j + k))) := by
      intro k hk
      rw [show dinodeSize * i + 12 + 4 * (j : ℕ) + k = dinodeSize * i + (12 + 4 * j + k) by ring,
        hbyte (by omega), ip.bytes_getD_addrs j hk]
    have hzero := hword 0 (by decide)
    rw [Nat.add_zero] at hzero
    rw [wordAt, hword 3 (by decide), hword 2 (by decide), hword 1 (by decide), hzero]
    exact wordBytes_append _
  have hsz : (d.setDinode i ip).wordAt (dinodeSize * i + 8) = ip.size := by
    have h1 : (d.setDinode i ip).byte (dinodeSize * i + 8 + 1) = _ := hbyte (k := 9) (by decide)
    have h2 : (d.setDinode i ip).byte (dinodeSize * i + 8 + 2) = _ := hbyte (k := 10) (by decide)
    have h3 : (d.setDinode i ip).byte (dinodeSize * i + 8 + 3) = _ := hbyte (k := 11) (by decide)
    rw [wordAt, h3, h2, h1, hbyte (by decide)]
    exact wordBytes_append ip.size
  have hfirst : (d.setDinode i ip).halfAt (dinodeSize * i) = ip.type := by
    have h0 := hbyte (k := 0) (by decide)
    rw [Nat.add_zero] at h0
    rw [halfAt, hbyte (by decide), h0]
    exact halfBytes_append ip.type
  have hmajor : (d.setDinode i ip).halfAt (dinodeSize * i + 2) = ip.major := by
    rw [halfAt, Nat.add_assoc, hbyte (by decide), hbyte (by decide)]
    exact halfBytes_append ip.major
  have hminor : (d.setDinode i ip).halfAt (dinodeSize * i + 4) = ip.minor := by
    rw [halfAt, Nat.add_assoc, hbyte (by decide), hbyte (by decide)]
    exact halfBytes_append ip.minor
  have hlink : (d.setDinode i ip).halfAt (dinodeSize * i + 6) = ip.nlink := by
    rw [halfAt, Nat.add_assoc, hbyte (by decide), hbyte (by decide)]
    exact halfBytes_append ip.nlink
  simp only [dinode, hfirst, hmajor, hminor, hlink, hsz, haddr]

lemma dinode_setDinode_of_ne (hj : j < IPB) (hij : j ≠ i) :
    (d.setDinode i ip).dinode j = d.dinode j := by
  have hbyte {k : ℕ} (hk : k < dinodeSize) := @byte_setDinode_of_ne d ip i j hj hij k hk
  have hhalf : ∀ k, k + 1 < dinodeSize → (d.setDinode i ip).halfAt (dinodeSize * j + k) =
      d.halfAt (dinodeSize * j + k) := by
    intro k hk
    rw [halfAt, halfAt, Nat.add_assoc, hbyte hk, hbyte (by omega)]
  have hword : ∀ k, k + 3 < dinodeSize → (d.setDinode i ip).wordAt (dinodeSize * j + k) =
      d.wordAt (dinodeSize * j + k) := by
    intro k hk
    simp only [wordAt, Nat.add_assoc]
    rw [hbyte hk, hbyte (by omega), hbyte (by omega), hbyte (by omega)]
  have haddr : ∀ l : Fin (NDIRECT + 1), (d.setDinode i ip).wordAt (dinodeSize * j + 12 + 4 * l) =
      d.wordAt (dinodeSize * j + 12 + 4 * l) := by
    intro l
    have hl : (l : ℕ) < 13 := l.isLt
    have hsize : dinodeSize = 64 := rfl
    rw [Nat.add_assoc]
    exact hword _ (by omega)
  have hfirst := hhalf 0 (by decide)
  rw [Nat.add_zero] at hfirst
  simp only [dinode, haddr, hfirst, hhalf 2 (by decide), hhalf 4 (by decide), hhalf 6 (by decide),
    hword 8 (by decide)]

/-- The entries of a cleared block. -/
lemma dinode_zero (i : ℕ) : zero.dinode i = Inode.fresh 0 := by
  have hhalf : ∀ off, zero.halfAt off = 0 := fun _ => by
    simp only [halfAt, byte, zero]
    decide
  have hword : ∀ off, zero.wordAt off = 0 := fun _ => by
    simp only [wordAt, byte, zero]
    decide
  simp only [dinode, hhalf, hword, Inode.fresh]

/-! ### Bits -/

@[simp] lemma bit_zero (b : ℕ) : zero.bit b = false := by simp [bit, byte, zero]

lemma getLsbD_one_shiftLeft :
    ∀ x y : Fin 8, ((1 : Byte) <<< (y : ℕ)).getLsbD x = decide ((x : ℕ) = y) := by
  decide

lemma bit_setBit {b c : ℕ} (hb : b < BPB) : (d.setBit c).bit b = (decide (b = c) || d.bit b) := by
  have hlt : b / 8 < BSIZE := by
    simp only [BPB] at hb
    omega
  have hmod : b % 8 < 8 := Nat.mod_lt _ (by decide)
  rw [bit, bit, setBit, byte_paste d _ _ hlt]
  rcases lt_trichotomy (b / 8) (c / 8) with hbc | hbc | hbc
  · have hne : b ≠ c := by rintro rfl; exact lt_irrefl _ hbc
    rw [if_neg (not_le.mpr hbc)]
    simp [hne]
  · rw [if_pos hbc.ge, hbc, Nat.sub_self, List.getD_cons_zero, BitVec.getLsbD_or]
    have hone : ((1 : Byte) <<< (c % 8)).getLsbD (b % 8) = decide (b = c) := by
      have hiff : b = c ↔ b % 8 = c % 8 := by omega
      have hc : c % 8 < 8 := Nat.mod_lt _ (by decide)
      rw [decide_eq_decide.mpr hiff]
      exact getLsbD_one_shiftLeft ⟨b % 8, hmod⟩ ⟨c % 8, hc⟩
    rw [hone, Bool.or_comm]
  have hne : b ≠ c := by rintro rfl; exact lt_irrefl _ hbc
  have hget : ([d.byte (c / 8) ||| ((1 : Byte) <<< (c % 8))] : List Byte).getD (b / 8 - c / 8)
      (d.byte (b / 8)) = d.byte (b / 8) := by
    obtain ⟨n, hn⟩ := Nat.exists_eq_succ_of_ne_zero (Nat.sub_ne_zero_of_lt hbc)
    rw [hn]
    rfl
  rw [if_pos hbc.le, hget]
  simp [hne]

end Block

end Hexv6.Blk
