import Hexv6.Blk.Codec
import Hexv6.Dir.Name
import Hexv6.Ino.Footprint

/-!
# mkfs

`mkfs/mkfs.c`: the program that builds the first image of the disk from a list of files.  It
numbers inodes and blocks with plain counters, appends to one file after the other, rounds up
the size of the root directory, and last marks the blocks below the counter in the free map.

The image is a file on the host: reading behind its end makes `rsect` fail, and writing there
makes the file longer.  The counters are numbers here; they never come near the size of a
word, since the first block behind the end of the image ends the program.
-/

namespace Hexv6.Mkfs

open Blk (Byte Block Inode)
open Ino (direct)
open Dir (slash)

/-! ### The layout of the disk -/

def NINODES : ℕ := 200

def nbitmap : ℕ := FSSIZE / (BSIZE * 8) + 1

def ninodeblocks : ℕ := NINODES / IPB + 1

def nlog : ℕ := LOGSIZE

/-- The number of blocks before the data: boot block, super block, log, inodes and free map. -/
def nmeta : ℕ := 2 + nlog + ninodeblocks + nbitmap

def nblocks : ℕ := FSSIZE - nmeta

/-- `struct superblock`, as its words. -/
structure Super where
  magic : ℕ
  size : ℕ
  nblocks : ℕ
  ninodes : ℕ
  nlog : ℕ
  logstart : ℕ
  inodestart : ℕ
  bmapstart : ℕ

def sb : Super where
  magic := FSMAGIC
  size := FSSIZE
  nblocks := nblocks
  ninodes := NINODES
  nlog := nlog
  logstart := 2
  inodestart := 2 + nlog
  bmapstart := 2 + nlog + ninodeblocks

/-- The super block on disk. -/
def Super.block (sb : Super) : Block :=
  [sb.magic, sb.size, sb.nblocks, sb.ninodes, sb.nlog, sb.logstart, sb.inodestart,
    sb.bmapstart].zipIdx.foldl (fun b x => b.setWord x.2 (BitVec.ofNat 32 x.1)) .zero

/-- `IBLOCK(inum, sb)`. -/
def iblock (inum : ℕ) : ℕ := inum / IPB + sb.inodestart

/-- `T_DIR` and `T_FILE`. -/
def tDir : BitVec 16 := 1

def tFile : BitVec 16 := 2

/-! ### The image -/

/-- How `mkfs` can fail: `die`, or an assertion. -/
inductive Fault
  | die
  | assertion
deriving DecidableEq

structure Image where
  /-- the length of the file in blocks -/
  len : ℕ
  sect : ℕ → Block

namespace Image

def rsect (img : Image) (sec : ℕ) : Except Fault Block :=
  if sec < img.len then .ok (img.sect sec) else .error .die

def wsect (img : Image) (sec : ℕ) (buf : Block) : Image where
  len := max img.len (sec + 1)
  sect := Function.update img.sect sec buf

end Image

structure State where
  img : Image
  freeinode : ℕ
  freeblock : ℕ

namespace State

def wsect (s : State) (sec : ℕ) (buf : Block) : State := { s with img := s.img.wsect sec buf }

def winode (s : State) (inum : ℕ) (ip : Inode) : Except Fault State := do
  let buf ← s.img.rsect (iblock inum)
  .ok (s.wsect (iblock inum) (buf.setDinode (inum % IPB) ip))

def rinode (s : State) (inum : ℕ) : Except Fault Inode := do
  let buf ← s.img.rsect (iblock inum)
  .ok (buf.dinode (inum % IPB))

def ialloc (s : State) (type : BitVec 16) : Except Fault (State × ℕ) := do
  let inum := s.freeinode
  let s := { s with freeinode := s.freeinode + 1 }
  let s ← s.winode inum { Inode.fresh type with nlink := 1 }
  .ok (s, inum)

/-- `freeblock++` -/
def bump (s : State) : State := { s with freeblock := s.freeblock + 1 }

/-- The next free block, as it is stored. -/
def nextBlock (s : State) : BitVec 32 := BitVec.ofNat 32 s.freeblock

/-- A block for an entry of `din.addrs`, unless it has one. -/
def allocAddr (s : State) (din : Inode) (i : Fin (NDIRECT + 1)) : State × Inode :=
  if din.addrs i = 0 then (s.bump, din.setAddr i s.nextBlock) else (s, din)

/-- A block for an entry of the indirect block `ind`, unless it has one, and its address. -/
def allocWord (s : State) (ind : BitVec 32) (j : ℕ) : Except Fault (State × BitVec 32) := do
  let buf ← s.img.rsect ind.toNat
  if buf.word j = 0 then
    .ok (s.bump.wsect ind.toNat (buf.setWord j s.nextBlock), (buf.setWord j s.nextBlock).word j)
  else .ok (s, buf.word j)

/-- The block of `iappend` for block `fbn` of the file. -/
def fileBlock (s : State) (din : Inode) (fbn : ℕ) : Except Fault (State × Inode × BitVec 32) :=
  if fbn < NDIRECT then
    let (s, din) := s.allocAddr din (direct fbn)
    .ok (s, din, din.addrs (direct fbn))
  else do
    let (s, din) := s.allocAddr din indirect
    let (s, x) ← s.allocWord (din.addrs indirect) (fbn - NDIRECT)
    .ok (s, din, x)

/-- How much of `n` bytes goes to the block of the file with offset `off`. -/
def chunk (n off : ℕ) : ℕ := min n ((off / BSIZE + 1) * BSIZE - off)

lemma chunk_pos {n : ℕ} (off : ℕ) (hn : 0 < n) : 0 < chunk n off := by
  have := Nat.lt_div_mul_add (a := off) (show 0 < BSIZE by decide)
  simp only [chunk, Nat.add_mul]
  omega

/-- The loop of `iappend`. -/
def iappendFrom (s : State) (din : Inode) (off : ℕ) (p : List Byte) :
    Except Fault (State × Inode × ℕ) :=
  if p = [] then .ok (s, din, off)
  else if off / BSIZE < MAXFILE then do
    let (s, din, x) ← s.fileBlock din (off / BSIZE)
    let n1 := chunk p.length off
    let buf ← s.img.rsect x.toNat
    let s := s.wsect x.toNat (buf.paste (off - off / BSIZE * BSIZE) (p.take n1))
    iappendFrom s din (off + n1) (p.drop n1)
  else .error .assertion
termination_by p.length
decreasing_by
  have hlen := List.length_pos_iff.mpr ‹¬ p = []›
  have hpos := chunk_pos off hlen
  rw [List.length_drop]
  omega

def iappend (s : State) (inum : ℕ) (p : List Byte) : Except Fault State := do
  let din ← s.rinode inum
  let (s, din, off) ← s.iappendFrom din din.size.toNat p
  s.winode inum { din with size := BitVec.ofNat 32 off }

/-- The free map after the loop of `balloc`. -/
def bitmap (used : ℕ) : Block := (List.range used).foldl Block.setBit .zero

def balloc (s : State) (used : ℕ) : Except Fault State :=
  if used < BSIZE * 8 then .ok (s.wsect sb.bmapstart (bitmap used)) else .error .assertion

end State

/-! ### The program -/

/-- A `struct dirent`: the number, and the name copied to a cleared buffer. -/
def dirent (inum : ℕ) (name : List UInt8) : List Byte :=
  Block.halfBytes (BitVec.ofNat 16 inum) ++
    (Dir.strncpy (Dir.str name) DIRSIZ).map UInt8.toBitVec

/-- A file that is named on the command line. -/
structure Input where
  /-- the name, without its terminator -/
  path : List UInt8
  /-- what the calls of `read` return before the end of the file, or `none` if the file
  cannot be opened -/
  reads : Option (List (List Byte))

/-- The bytes of `user/`. -/
def userDir : List UInt8 := [117, 115, 101, 114, 47]

/-- The name without `user/`. -/
def hostname (path : List UInt8) : List UInt8 :=
  if Dir.strncmp (Dir.str path) (Dir.str userDir) 5 = 0 then path.drop 5 else path

/-- The byte `_`. -/
def underscore : UInt8 := 95

/-- The name in the image. -/
def shortname (path : List UInt8) : List UInt8 :=
  if Dir.str (hostname path) 0 = underscore then (hostname path).drop 1 else hostname path

/-- The body of the loop of `main` over the files. -/
def addFile (rootino : ℕ) (s : State) (f : Input) : Except Fault State :=
  if slash ∈ hostname f.path then .error .assertion
  else match f.reads with
    | none => .error .die
    | some reads => do
      let (s, inum) ← s.ialloc tFile
      let s ← s.iappend rootino (dirent inum (shortname f.path))
      reads.foldlM (fun s p => s.iappend inum p) s

/-- The image of cleared blocks with a super block. -/
def start : State where
  img := ({ len := FSSIZE, sect := fun _ => .zero } : Image).wsect 1 sb.block
  freeinode := 1
  freeblock := nmeta

/-- The names `.` and `..`. -/
def dot : List UInt8 := [46]

def dotdot : List UInt8 := [46, 46]

/-- The size of the root directory, rounded up. -/
def rootSize (off : ℕ) : ℕ := (off / BSIZE + 1) * BSIZE

/-- `main` for these files; the state is the one at `exit(0)`. -/
def main (files : List Input) : Except Fault State := do
  let (s, rootino) ← start.ialloc tDir
  if rootino = ROOTINO then
    let s ← s.iappend rootino (dirent rootino dot)
    let s ← s.iappend rootino (dirent rootino dotdot)
    let s ← files.foldlM (addFile rootino) s
    let din ← s.rinode rootino
    let s ← s.winode rootino { din with size := BitVec.ofNat 32 (rootSize din.size.toNat) }
    s.balloc s.freeblock
  else .error .assertion

/-! ### What the kernel expects -/

/-- The contents of the blocks of an image, by address. -/
def Image.blk (img : Image) (a : BitVec 32) : Block := img.sect a.toNat

/-- The inode with a number, in the block where the kernel looks for it. -/
def Image.dinode (img : Image) (inum : ℕ) : Inode := (img.sect (iblock inum)).dinode (inum % IPB)

/-- An image as the kernel expects it, with the counters of `mkfs` at its end. -/
structure WellFormed (s : State) : Prop where
  /-- the inode numbers that have been used are numbers of inodes -/
  inodes : ∀ inum, 1 ≤ inum → inum < s.freeinode → inum < NINODES
  /-- the blocks that inodes and indirect blocks refer to are data blocks of the disk -/
  range : ∀ inum < NINODES, ∀ a ∈ Ino.footprint s.img.blk (s.img.dinode inum),
    nmeta ≤ a.toNat ∧ a.toNat < FSSIZE
  /-- and none of them is referred to twice -/
  once : (∑ inum ∈ Finset.range NINODES, Ino.footprint s.img.blk (s.img.dinode inum)).Nodup
  /-- the free map has the bits of the blocks below `freeblock` -/
  bitmap : ∀ b < nbitmap * BPB, (s.img.sect (sb.bmapstart + b / BPB)).bit (b % BPB) = true ↔
    b < s.freeblock
  /-- every file has all blocks up to its size -/
  filled : ∀ inum < NINODES, (s.img.dinode inum).size.toNat ≤ MAXFILE * BSIZE ∧
    Ino.Filled s.img.blk (s.img.dinode inum) (s.img.dinode inum).size.toNat

end Hexv6.Mkfs
