import Hexv6.Param

/-!
# Blocks as bytes

The contents of a disk block and the views that `kernel/fs.c` and `kernel/log.c` have of it:
the bits of the free map, an array of words (an indirect block, or the header of the log),
an array of `struct dinode`, and plain bytes.
-/

namespace Hexv6.Blk

abbrev Byte := BitVec 8

/-- The contents of a block. -/
abbrev Block := Fin BSIZE → Byte

namespace Block

/-- The byte at an offset. -/
def byte (d : Block) (i : ℕ) : Byte := d (Fin.ofNat BSIZE i)

/-- `memmove(d + off, bytes, n)`. -/
def paste (d : Block) (off : ℕ) (bytes : List Byte) : Block := fun i =>
  if off ≤ (i : ℕ) then bytes.getD ((i : ℕ) - off) (d i) else d i

/-- `memset(d, 0, BSIZE)`. -/
def zero : Block := fun _ => 0

/-- `d[bi/8] & (1 << (bi % 8))`. -/
def bit (d : Block) (bi : ℕ) : Bool := (d.byte (bi / 8)).getLsbD (bi % 8)

/-- `d[bi/8] |= 1 << (bi % 8)`. -/
def setBit (d : Block) (bi : ℕ) : Block :=
  d.paste (bi / 8) [d.byte (bi / 8) ||| ((1 : Byte) <<< (bi % 8))]

/-- `d[bi/8] &= ~(1 << (bi % 8))`. -/
def clearBit (d : Block) (bi : ℕ) : Block :=
  d.paste (bi / 8) [d.byte (bi / 8) &&& ~~~((1 : Byte) <<< (bi % 8))]

/-- The bytes of a word, the lowest first. -/
def wordBytes (w : BitVec 32) : List Byte :=
  [w.extractLsb' 0 8, w.extractLsb' 8 8, w.extractLsb' 16 8, w.extractLsb' 24 8]

/-- The bytes of a `short`. -/
def halfBytes (w : BitVec 16) : List Byte := [w.extractLsb' 0 8, w.extractLsb' 8 8]

/-- The word at an offset. -/
def wordAt (d : Block) (off : ℕ) : BitVec 32 :=
  d.byte (off + 3) ++ d.byte (off + 2) ++ d.byte (off + 1) ++ d.byte off

/-- The `short` at an offset. -/
def halfAt (d : Block) (off : ℕ) : BitVec 16 := d.byte (off + 1) ++ d.byte off

/-- Word `i` of the block. -/
def word (d : Block) (i : ℕ) : BitVec 32 := d.wordAt (4 * i)

def setWord (d : Block) (i : ℕ) (w : BitVec 32) : Block := d.paste (4 * i) (wordBytes w)

/-- The block after `hb->n = n` and the assignments of `hb->block[i]`. -/
def setHeader (d : Block) (lh : List (BitVec 32)) : Block :=
  lh.zipIdx.foldl (fun d x => d.setWord (x.2 + 1) x.1) (d.setWord 0 (BitVec.ofNat 32 lh.length))

/-! ### Words -/

lemma paste_nil (d : Block) (off : ℕ) : d.paste off [] = d := by
  ext i
  simp [paste]

lemma byte_paste (d : Block) (off : ℕ) (bytes : List Byte) {k : ℕ} (hk : k < BSIZE) :
    (d.paste off bytes).byte k =
      if off ≤ k then bytes.getD (k - off) (d.byte k) else d.byte k := by
  simp only [byte, paste, Fin.val_ofNat, Nat.mod_eq_of_lt hk]

lemma wordBytes_append (w : BitVec 32) :
    w.extractLsb' 24 8 ++ w.extractLsb' 16 8 ++ w.extractLsb' 8 8 ++ w.extractLsb' 0 8 = w := by
  ext i hi
  simp only [BitVec.getElem_append, BitVec.getElem_extractLsb']
  grind

@[simp] lemma word_zero (i : ℕ) : zero.word i = 0 := by
  simp only [word, wordAt, byte, zero]
  decide

lemma word_setWord_self (d : Block) (w : BitVec 32) {i : ℕ} (hi : i < NINDIRECT) :
    (d.setWord i w).word i = w := by
  have hlt : 4 * i + 3 < BSIZE := by simp only [NINDIRECT, BSIZE] at hi ⊢; omega
  have hbyte : ∀ k < 4, (d.setWord i w).byte (4 * i + k) =
      (wordBytes w).getD k (d.byte (4 * i + k)) := by
    intro k hk
    rw [setWord, byte_paste d _ _ (by omega), if_pos (by omega), Nat.add_sub_cancel_left]
  rw [word, wordAt, hbyte 3 (by decide), hbyte 2 (by decide), hbyte 1 (by decide),
    show 4 * i = 4 * i + 0 from rfl, hbyte 0 (by decide)]
  exact wordBytes_append w

lemma word_setWord_of_ne (d : Block) (w : BitVec 32) {i j : ℕ} (hij : j ≠ i)
    (hj : j < NINDIRECT) : (d.setWord i w).word j = d.word j := by
  have hlt : 4 * j + 3 < BSIZE := by simp only [NINDIRECT, BSIZE] at hj ⊢; omega
  have hbyte : ∀ k < 4, (d.setWord i w).byte (4 * j + k) = d.byte (4 * j + k) := by
    intro k hk
    rw [setWord, byte_paste d _ _ (by omega)]
    split_ifs
    · rw [List.getD_eq_getElem?_getD, List.getElem?_eq_none, Option.getD_none]
      simp only [wordBytes, List.length_cons, List.length_nil]
      omega
    · rfl
  rw [word, word, wordAt, wordAt, hbyte 3 (by decide), hbyte 2 (by decide), hbyte 1 (by decide),
    show 4 * j = 4 * j + 0 from rfl, hbyte 0 (by decide)]

end Block

/-! ### Inodes -/

/-- The fields that `struct inode` and `struct dinode` have in common. -/
structure Inode where
  type : BitVec 16
  major : BitVec 16
  minor : BitVec 16
  nlink : BitVec 16
  size : BitVec 32
  addrs : Fin (NDIRECT + 1) → BitVec 32

namespace Inode

/-- A `struct dinode` after `memset` and the assignment of its type. -/
def fresh (type : BitVec 16) : Inode :=
  { type, major := 0, minor := 0, nlink := 0, size := 0, addrs := fun _ => 0 }

/-- `ip->addrs[i] = a`. -/
def setAddr (ip : Inode) (i : Fin (NDIRECT + 1)) (a : BitVec 32) : Inode :=
  { ip with addrs := Function.update ip.addrs i a }

@[simp] lemma setAddr_self (ip : Inode) (i : Fin (NDIRECT + 1)) (a : BitVec 32) :
    (ip.setAddr i a).addrs i = a :=
  Function.update_self ..

lemma setAddr_of_ne (ip : Inode) {i j : Fin (NDIRECT + 1)} (h : j ≠ i) (a : BitVec 32) :
    (ip.setAddr i a).addrs j = ip.addrs j :=
  Function.update_of_ne h ..

/-- The bytes of the `struct dinode`. -/
def bytes (ip : Inode) : List Byte :=
  Block.halfBytes ip.type ++ Block.halfBytes ip.major ++ Block.halfBytes ip.minor ++
    Block.halfBytes ip.nlink ++ Block.wordBytes ip.size ++
    (List.finRange (NDIRECT + 1)).flatMap fun i => Block.wordBytes (ip.addrs i)

end Inode

namespace Block

/-- The `struct dinode` number `i` of the block. -/
def dinode (d : Block) (i : ℕ) : Inode :=
  let off := dinodeSize * i
  { type := d.halfAt off, major := d.halfAt (off + 2), minor := d.halfAt (off + 4)
    nlink := d.halfAt (off + 6), size := d.wordAt (off + 8)
    addrs := fun j => d.wordAt (off + 12 + 4 * j) }

def setDinode (d : Block) (i : ℕ) (ip : Inode) : Block := d.paste (dinodeSize * i) ip.bytes

end Block

end Hexv6.Blk
