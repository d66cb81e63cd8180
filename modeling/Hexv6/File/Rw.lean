import Hexv6.Blk.Codec

/-!
# Reading and writing files

`balloc`, `bmap`, `readi`, `writei` and `iupdate` of `kernel/fs.c`, as functions on the contents of
the disk, for a process that holds the lock of the inode and works alone.  The buffer cache and the
log are left out: `bread` gives the block of the disk, and what is written to a buffer is on the
disk.  The result is `none` for a panic.

`either_copyin` is a parameter.  For a position in the source and a length it gives the bytes that
get into the buffer, and whether it succeeds.  For `either_copyout` only its success is a parameter.
-/

namespace Hexv6.File

open Blk

/-- `struct superblock`. -/
structure Super where
  size : ℕ
  ninodes : ℕ
  inodestart : ℕ
  bmapstart : ℕ

abbrev Disk := ℕ → Block

namespace Super

variable (sb : Super)

/-- `IBLOCK(i, sb)`. -/
def iblock (i : ℕ) : ℕ := i / IPB + sb.inodestart

/-- `BBLOCK(b, sb)`. -/
def bblock (b : ℕ) : ℕ := b / BPB + sb.bmapstart

/-- The bit of block `b` in the free map. -/
def used (D : Disk) (b : ℕ) : Bool := (D (sb.bblock b)).bit (b % BPB)

/-- The inode `i` on the disk. -/
def inode (D : Disk) (i : ℕ) : Inode := (D (sb.iblock i)).dinode (i % IPB)

end Super

/-- `balloc`: the first block that is free, marked in the map and zeroed. -/
def balloc (sb : Super) (D : Disk) : Option (Disk × BitVec 32) :=
  match (List.range sb.size).find? fun b => !sb.used D b with
  | none => none
  | some b =>
    let D := Function.update D (sb.bblock b) ((D (sb.bblock b)).setBit (b % BPB))
    some (Function.update D b Block.zero, BitVec.ofNat 32 b)

/-- `bmap` for an entry of `addrs`. -/
def bmapAddr (sb : Super) (D : Disk) (ip : Inode) (j : Fin (NDIRECT + 1)) :
    Option (Disk × Inode × BitVec 32) :=
  if ip.addrs j = 0 then
    match balloc sb D with
    | none => none
    | some (D, addr) => some (D, ip.setAddr j addr, addr)
  else some (D, ip, ip.addrs j)

/-- `bmap` for an entry of the indirect block `a`. -/
def bmapWord (sb : Super) (D : Disk) (a bn : ℕ) : Option (Disk × BitVec 32) :=
  if (D a).word bn = 0 then
    match balloc sb D with
    | none => none
    | some (D, addr) => some (Function.update D a ((D a).setWord bn addr), addr)
  else some (D, (D a).word bn)

/-- `bmap`. -/
def bmap (sb : Super) (D : Disk) (ip : Inode) (bn : ℕ) : Option (Disk × Inode × BitVec 32) :=
  if h : bn < NDIRECT then bmapAddr sb D ip ⟨bn, Nat.lt_succ_of_lt h⟩
  else if bn - NDIRECT < NINDIRECT then
    match bmapAddr sb D ip indirect with
    | none => none
    | some (D, ip, a) =>
      match bmapWord sb D a.toNat (bn - NDIRECT) with
      | none => none
      | some (D, addr) => some (D, ip, addr)
  else none

/-- The bytes that are copied in one turn of the loops. -/
def chunk (n tot off : ℕ) : ℕ := min (n - tot) (BSIZE - off % BSIZE)

lemma chunk_pos {n tot : ℕ} (off : ℕ) (h : tot < n) : 0 < chunk n tot off := by
  have hmod : off % BSIZE < BSIZE := Nat.mod_lt _ (by decide)
  rw [chunk]
  omega

/-- The loop of `readi`, with the bytes that have been copied. -/
def readLoop (sb : Super) (copyout : ℕ → ℕ → Bool) (n : ℕ) (D : Disk) (ip : Inode) (tot off : ℕ)
    (dst : List Byte) : Option (ℤ × List Byte × Disk × Inode) :=
  if _h : tot < n then
    match bmap sb D ip (off / BSIZE) with
    | none => none
    | some (D, ip, a) =>
      let m := chunk n tot off
      if copyout tot m then
        readLoop sb copyout n D ip (tot + m) (off + m)
          (dst ++ (List.range m).map fun i => (D a.toNat).byte (off % BSIZE + i))
      else some (-1, dst, D, ip)
  else some (tot, dst, D, ip)
termination_by n - tot
decreasing_by
  have := chunk_pos off _h
  omega

/-- `readi`: the result, the bytes that are copied, and the disk and the inode. -/
def readi (sb : Super) (copyout : ℕ → ℕ → Bool) (D : Disk) (ip : Inode) (off n : BitVec 32) :
    Option (ℤ × List Byte × Disk × Inode) :=
  if off > ip.size ∨ off + n < off then some (0, [], D, ip)
  else
    let n := if off + n > ip.size then ip.size - off else n
    readLoop sb copyout n.toNat D ip 0 off.toNat []

/-- The loop of `writei`. -/
def writeLoop (sb : Super) (copyin : ℕ → ℕ → List Byte × Bool) (n : ℕ) (D : Disk) (ip : Inode)
    (tot off : ℕ) : Option (Disk × Inode × ℕ × ℕ) :=
  if _h : tot < n then
    match bmap sb D ip (off / BSIZE) with
    | none => none
    | some (D, ip, a) =>
      let m := chunk n tot off
      let (bytes, ok) := copyin tot m
      let D := Function.update D a.toNat ((D a.toNat).paste (off % BSIZE) bytes)
      if ok then writeLoop sb copyin n D ip (tot + m) (off + m)
      else some (D, ip, tot, off)
  else some (D, ip, tot, off)
termination_by n - tot
decreasing_by
  have := chunk_pos off _h
  omega

/-- `iupdate`. -/
def iupdate (sb : Super) (D : Disk) (inum : ℕ) (ip : Inode) : Disk :=
  Function.update D (sb.iblock inum) ((D (sb.iblock inum)).setDinode (inum % IPB) ip)

/-- `writei`: the result, the disk and the inode. -/
def writei (sb : Super) (copyin : ℕ → ℕ → List Byte × Bool) (D : Disk) (inum : ℕ) (ip : Inode)
    (off n : BitVec 32) : Option (ℤ × Disk × Inode) :=
  if off > ip.size ∨ off + n < off then some (-1, D, ip)
  else if off + n > BitVec.ofNat 32 (MAXFILE * BSIZE) then some (-1, D, ip)
  else
    match writeLoop sb copyin n.toNat D ip 0 off.toNat with
    | none => none
    | some (D, ip, tot, off) =>
      let ip := if off > ip.size.toNat then { ip with size := BitVec.ofNat 32 off } else ip
      some (tot, iupdate sb D inum ip, ip)

end Hexv6.File
