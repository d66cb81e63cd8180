import Hexv6.Blk.Ops

/-!
# Block-level functions

The functions of `kernel/bio.c`, `kernel/log.c` and `kernel/fs.c` that work on buffers, as
programs over the operations of `Hexv6.Blk.Ops`.  The in-memory inode that a function is
called for, and the user memory that it reads, are arguments.
-/

namespace Hexv6.Blk

open Lib Prog
open Bio (BufId)

/-- Kernel code. -/
abbrev Kernel := Prog Op Op.Result

/-- Perform an operation. -/
abbrev run (o : Op) : Kernel o.Result := perform o

def panic {α : Type} (e : Panic) : Kernel α := .op (.panic e) fun x : Empty => x.elim

/-! ### Buffers -/

def bread (bn : BitVec 32) : Kernel BufId := do
  let b ← run (.bget bn)
  run (.acquiresleep b)
  run (.fill b)
  pure b

def brelse (b : BufId) : Kernel Unit := do
  run (.releasesleep b)
  run (.unref b)

/-- Change the data of a buffer. -/
def change (b : BufId) (f : Block → Block) : Kernel Unit := do
  let d ← run (.data b)
  run (.store b (f d))

/-! ### Transactions -/

/-- The loop of `write_log`. -/
def writeLogFrom (sb : Super) (tail : ℕ) : List (BitVec 32) → Kernel Unit
  | [] => pure ()
  | bn :: lh => do
    let lbuf ← bread (sb.logstart + BitVec.ofNat 32 tail + 1)
    let cbuf ← bread bn
    let d ← run (.data cbuf)
    run (.store lbuf d)
    run (.bwrite lbuf)
    brelse cbuf
    brelse lbuf
    writeLogFrom sb (tail + 1) lh

def writeLog (sb : Super) : Kernel Unit := do
  let lh ← run .lh
  writeLogFrom sb 0 lh

def writeHead (sb : Super) : Kernel Unit := do
  let buf ← bread sb.logstart
  let lh ← run .lh
  change buf fun d => d.setHeader lh
  run (.bwrite buf)
  brelse buf

/-- The loop of `install_trans(0)`. -/
def installTransFrom (sb : Super) (tail : ℕ) : List (BitVec 32) → Kernel Unit
  | [] => pure ()
  | bn :: lh => do
    let lbuf ← bread (sb.logstart + BitVec.ofNat 32 tail + 1)
    let dbuf ← bread bn
    let d ← run (.data lbuf)
    run (.store dbuf d)
    run (.bwrite dbuf)
    run (.bunpin dbuf)
    brelse lbuf
    brelse dbuf
    installTransFrom sb (tail + 1) lh

def installTrans (sb : Super) : Kernel Unit := do
  let lh ← run .lh
  installTransFrom sb 0 lh

def commit (sb : Super) : Kernel Unit := do
  let lh ← run .lh
  if 0 < lh.length then
    writeLog sb
    writeHead sb
    installTrans sb
    run .clearLh
    writeHead sb

def endOp (sb : Super) : Kernel Unit := do
  let doCommit ← run .endOp
  if doCommit = true then
    commit sb
    run .endCommit

/-! ### Blocks -/

def bzero (bn : BitVec 32) : Kernel Unit := do
  let bp ← bread bn
  run (.store bp .zero)
  run (.logWrite bp)
  brelse bp

/-- `BBLOCK`. -/
def bblock (sb : Super) (b : ℕ) : BitVec 32 := BitVec.ofNat 32 (b / BPB) + sb.bmapstart

/-- The loop of `balloc`, over the first blocks of the parts of the free map. -/
def ballocFrom (sb : Super) : List ℕ → Kernel (BitVec 32)
  | [] => panic .outOfBlocks
  | b :: bs => do
    let bp ← bread (bblock sb b)
    let d ← run (.data bp)
    match (List.range BPB).find? fun bi => b + bi < sb.size ∧ d.bit bi = false with
    | some bi => do
      run (.store bp (d.setBit bi))
      run (.logWrite bp)
      brelse bp
      bzero (BitVec.ofNat 32 (b + bi))
      pure (BitVec.ofNat 32 (b + bi))
    | none => do
      brelse bp
      ballocFrom sb bs

def balloc (sb : Super) : Kernel (BitVec 32) :=
  ballocFrom sb ((List.range ((sb.size + BPB - 1) / BPB)).map (· * BPB))

def bfree (sb : Super) (b : BitVec 32) : Kernel Unit := do
  let bp ← bread (bblock sb b.toNat)
  let d ← run (.data bp)
  if d.bit (b.toNat % BPB) = false then panic .freeingFreeBlock
  else do
    run (.store bp (d.clearBit (b.toNat % BPB)))
    run (.logWrite bp)
    brelse bp

/-! ### Inodes -/

/-- `IBLOCK`. -/
def iblock (sb : Super) (inum : ℕ) : BitVec 32 := BitVec.ofNat 32 (inum / IPB) + sb.inodestart

/-- The loop of `ialloc`; the number of the inode that it found. -/
def iallocFrom (sb : Super) (type : BitVec 16) : List ℕ → Kernel ℕ
  | [] => panic .noInodes
  | inum :: inums => do
    let bp ← bread (iblock sb inum)
    let d ← run (.data bp)
    if (d.dinode (inum % IPB)).type = 0 then do
      run (.store bp (d.setDinode (inum % IPB) (.fresh type)))
      run (.logWrite bp)
      brelse bp
      pure inum
    else do
      brelse bp
      iallocFrom sb type inums

def ialloc (sb : Super) (type : BitVec 16) : Kernel ℕ :=
  iallocFrom sb type (List.range' 1 (sb.ninodes - 1))

def iupdate (sb : Super) (inum : ℕ) (ip : Inode) : Kernel Unit := do
  let bp ← bread (iblock sb inum)
  change bp fun d => d.setDinode (inum % IPB) ip
  run (.logWrite bp)
  brelse bp

/-- The part of `ilock` that reads the inode. -/
def readInode (sb : Super) (inum : ℕ) : Kernel Inode := do
  let bp ← bread (iblock sb inum)
  let d ← run (.data bp)
  brelse bp
  pure (d.dinode (inum % IPB))

/-- `bmap`: the address of the block, and the inode with the blocks that were allocated. -/
def bmap (sb : Super) (ip : Inode) (bn : ℕ) : Kernel (BitVec 32 × Inode) :=
  if bn < NDIRECT then
    let i := Fin.ofNat (NDIRECT + 1) bn
    if ip.addrs i = 0 then do
      let addr ← balloc sb
      pure (addr, ip.setAddr i addr)
    else pure (ip.addrs i, ip)
  else if bn - NDIRECT < NINDIRECT then do
    let ip ← if ip.addrs (Fin.last NDIRECT) = 0 then do
        let addr ← balloc sb
        pure (ip.setAddr (Fin.last NDIRECT) addr)
      else pure ip
    let bp ← bread (ip.addrs (Fin.last NDIRECT))
    let d ← run (.data bp)
    let addr ← if d.word (bn - NDIRECT) = 0 then do
        let addr ← balloc sb
        change bp fun d => d.setWord (bn - NDIRECT) addr
        run (.logWrite bp)
        pure addr
      else pure (d.word (bn - NDIRECT))
    brelse bp
    pure (addr, ip)
  else panic .bmapRange

/-- The loops of `itrunc` over the blocks that are in use. -/
def bfreeAll (sb : Super) : List (BitVec 32) → Kernel Unit
  | [] => pure ()
  | a :: as => do
    if a ≠ 0 then bfree sb a
    bfreeAll sb as

def itrunc (sb : Super) (inum : ℕ) (ip : Inode) : Kernel Inode := do
  bfreeAll sb ((List.finRange NDIRECT).map fun i => ip.addrs i.castSucc)
  let ind := ip.addrs (Fin.last NDIRECT)
  if ind ≠ 0 then
    let bp ← bread ind
    let d ← run (.data bp)
    bfreeAll sb ((List.range NINDIRECT).map d.word)
    brelse bp
    bfree sb ind
  let ip := { ip with size := 0, addrs := fun _ => 0 }
  iupdate sb inum ip
  pure ip

/-- The loop of `readi`: whether all of it was copied, and the inode.  `dst` says which bytes of
the destination are mapped. -/
def readiFrom (sb : Super) (ip : Inode) (off : ℕ) (dst : List Bool) : ℕ → Kernel (Bool × Inode)
  | 0 => pure (true, ip)
  | fuel + 1 =>
    if dst = [] then pure (true, ip)
    else do
      let (addr, ip) ← bmap sb ip (off / BSIZE)
      let bp ← bread addr
      let m := min dst.length (BSIZE - off % BSIZE)
      brelse bp
      if (dst.take m).all id = true then readiFrom sb ip (off + m) (dst.drop m) fuel
      else pure (false, ip)

/-- `readi`: what it returns, and the inode.  The bytes that it copies are left out. -/
def readi (sb : Super) (ip : Inode) (off : ℕ) (dst : List Bool) : Kernel (ℤ × Inode) :=
  if off > ip.size.toNat ∨ off + dst.length ≥ 2 ^ 32 then pure (0, ip)
  else do
    let dst := dst.take (ip.size.toNat - off)
    let (ok, ip) ← readiFrom sb ip off dst dst.length
    pure (if ok = true then dst.length else -1, ip)

/-- The loop of `writei`: the inode, and `off` when the loop ends.  `src` is the source, where
`none` is a byte that is not mapped. -/
def writeiFrom (sb : Super) (ip : Inode) (off : ℕ) (src : List (Option Byte)) :
    ℕ → Kernel (Inode × ℕ)
  | 0 => pure (ip, off)
  | fuel + 1 =>
    if src = [] then pure (ip, off)
    else do
      let (addr, ip) ← bmap sb ip (off / BSIZE)
      let bp ← bread addr
      let m := min src.length (BSIZE - off % BSIZE)
      let ok ← run (.copyin bp (off % BSIZE) (src.take m))
      if ok = true then do
        run (.logWrite bp)
        brelse bp
        writeiFrom sb ip (off + m) (src.drop m) fuel
      else do
        brelse bp
        pure (ip, off)

/-- `writei`: what it returns, and the inode.  Every round of the loop copies at least one
byte. -/
def writei (sb : Super) (inum : ℕ) (ip : Inode) (off : ℕ) (src : List (Option Byte)) :
    Kernel (ℤ × Inode) :=
  if off > ip.size.toNat ∨ off + src.length ≥ 2 ^ 32 then pure (-1, ip)
  else if off + src.length > MAXFILE * BSIZE then pure (-1, ip)
  else do
    let (ip, last) ← writeiFrom sb ip off src src.length
    let ip := if last > ip.size.toNat then { ip with size := BitVec.ofNat 32 last } else ip
    iupdate sb inum ip
    pure (last - off, ip)

/-! ### Calls -/

/-- What a process can call. -/
inductive Call
  | beginOp
  | endOp
  | bzero (bn : BitVec 32)
  | balloc
  | bfree (b : BitVec 32)
  | ialloc (type : BitVec 16)
  | readInode (inum : ℕ)
  | iupdate (inum : ℕ) (ip : Inode)
  | bmap (ip : Inode) (bn : ℕ)
  | itrunc (inum : ℕ) (ip : Inode)
  | readi (ip : Inode) (off : ℕ) (dst : List Bool)
  | writei (inum : ℕ) (ip : Inode) (off : ℕ) (src : List (Option Byte))

/-- Whether the process is between `begin_op` and `end_op`. -/
abbrev InOp := Bool

/-- The program of a call.  The functions of `fs.c` can be called in any order and with any
arguments. -/
def body (sb : Super) : Call → InOp → Option (Kernel InOp)
  | .beginOp, false => some do run .beginOp; pure true
  | .endOp, true => some do endOp sb; pure false
  | .bzero bn, a => some do bzero bn; pure a
  | .balloc, a => some do let _ ← balloc sb; pure a
  | .bfree b, a => some do bfree sb b; pure a
  | .ialloc type, a => some do let _ ← ialloc sb type; pure a
  | .readInode inum, a => some do let _ ← readInode sb inum; pure a
  | .iupdate inum ip, a => some do iupdate sb inum ip; pure a
  | .bmap ip bn, a => some do let _ ← bmap sb ip bn; pure a
  | .itrunc inum ip, a => some do let _ ← itrunc sb inum ip; pure a
  | .readi ip off dst, a => some do let _ ← readi sb ip off dst; pure a
  | .writei inum ip off src, a => some do let _ ← writei sb inum ip off src; pure a
  | _, _ => none

/-- The whole system. -/
abbrev Sys := Pool State Sched.Slot Op Op.Result InOp

abbrev Action := Act Sched.Slot Call

/-- One step of the system. -/
def step (sb : Super) : Sys → Action → Except Panic Sys :=
  poolStep (exec sb) (body sb) .disabled

end Hexv6.Blk
