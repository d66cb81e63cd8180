import Hexv6.Ino.Table

/-!
# Functions on inodes

The functions of `kernel/fs.c` on inodes and their blocks, as programs over the operations of
`Hexv6.Ino.Table`, and the ways in which the system calls use them.

Between two calls a process holds references to inodes, some of them with the sleep lock, and may
be inside a transaction.  It may lock what it refers to, change what it has locked, and give up
what it holds, in any order.
-/

namespace Hexv6.Ino

open Lib Prog
open Blk (Byte Inode)

/-- Kernel code. -/
abbrev Kernel := Prog Op Op.Result

/-- Perform an operation. -/
abbrev run (o : Op) : Kernel o.Result := perform o

def panic {α : Type} (e : Panic) : Kernel α := .op (.panic e) fun x : Empty => x.elim

/-- Assign to fields of an in-memory inode. -/
def assign (ip : ISlot) (f : Inode → Inode) : Kernel Unit := do
  let d ← run (.node ip)
  run (.setNode ip (f d))

/-! ### Blocks -/

/-- The loop of `balloc`, over the first blocks of the parts of the free map. -/
def ballocFrom : List ℕ → Kernel (BitVec 32)
  | [] => panic .outOfBlocks
  | b :: bs => do
    let found ← run (.allocBit b)
    match found with
    | some a => do
      run (.bzero a)
      pure a
    | none => ballocFrom bs

def balloc (sb : Super) : Kernel (BitVec 32) :=
  ballocFrom ((List.range ((sb.size.toNat + BPB - 1) / BPB)).map (· * BPB))

/-- The entry of `ip->addrs` for block `bn` of the file. -/
def direct (bn : ℕ) : Fin (NDIRECT + 1) := Fin.ofNat (NDIRECT + 1) bn

/-- The address in an entry of `ip->addrs`, with a block allocated for it if there is none. -/
def bmapAddr (sb : Super) (ip : ISlot) (i : Fin (NDIRECT + 1)) : Kernel (BitVec 32) := do
  let d ← run (.node ip)
  if d.addrs i = 0 then do
    let addr ← balloc sb
    assign ip fun d => d.setAddr i addr
    pure addr
  else pure (d.addrs i)

/-- The address in an entry of the indirect block, with a block allocated for it if there is
none. -/
def bmapWord (sb : Super) (ind : BitVec 32) (j : ℕ) : Kernel (BitVec 32) := do
  let addr ← run (.word ind j)
  if addr = 0 then do
    let addr ← balloc sb
    run (.setWord ind j addr)
    pure addr
  else pure addr

def bmap (sb : Super) (ip : ISlot) (bn : ℕ) : Kernel (BitVec 32) :=
  if bn < NDIRECT then bmapAddr sb ip (direct bn)
  else if bn - NDIRECT < NINDIRECT then do
    let ind ← bmapAddr sb ip indirect
    bmapWord sb ind (bn - NDIRECT)
  else panic .bmapRange

/-- The first loop of `itrunc`. -/
def itruncDirect (ip : ISlot) : List (Fin (NDIRECT + 1)) → Kernel Unit
  | [] => pure ()
  | i :: is => do
    let d ← run (.node ip)
    if d.addrs i ≠ 0 then
      run (.bfree (d.addrs i))
      assign ip fun d => d.setAddr i 0
    itruncDirect ip is

/-- The second loop of `itrunc`. -/
def itruncWords (ind : BitVec 32) : List ℕ → Kernel Unit
  | [] => pure ()
  | j :: js => do
    let a ← run (.word ind j)
    if a ≠ 0 then run (.bfree a)
    itruncWords ind js

def itrunc (ip : ISlot) : Kernel Unit := do
  itruncDirect ip ((List.finRange NDIRECT).map Fin.castSucc)
  let d ← run (.node ip)
  if d.addrs indirect ≠ 0 then
    itruncWords (d.addrs indirect) (List.range NINDIRECT)
    run (.bfree (d.addrs indirect))
    assign ip fun d => d.setAddr indirect 0
  assign ip fun d => { d with size := 0 }
  run (.iupdate ip)

/-! ### Inodes -/

def ilock (ip : ISlot) : Kernel Unit := do
  run (.acquiresleep ip)
  run (.readInode ip)

def iput (ip : ISlot) : Kernel Unit := do
  let free ← run (.iputTest ip)
  if free = true then
    itrunc ip
    assign ip fun d => { d with type := 0 }
    run (.iupdate ip)
    run (.invalidate ip)
    run (.releasesleep ip)
    run (.iputDrop ip)

/-- The loop of `ialloc`. -/
def iallocFrom (type : BitVec 16) : List ℕ → Kernel ISlot
  | [] => panic .iallocNoInodes
  | inum :: inums => do
    let found ← run (.iallocTry inum type)
    if found = true then run (.iget inum) else iallocFrom type inums

def ialloc (sb : Super) (type : BitVec 16) : Kernel ISlot :=
  iallocFrom type (List.range' 1 (sb.ninodes.toNat - 1))

/-! ### Contents -/

/-- The loop of `readi`: whether all of it was copied.  `dst` says which bytes of the destination
are mapped. -/
def readiFrom (sb : Super) (ip : ISlot) (off : ℕ) (dst : List Bool) : ℕ → Kernel Bool
  | 0 => pure true
  | fuel + 1 =>
    if dst = [] then pure true
    else do
      let _ ← bmap sb ip (off / BSIZE)
      let m := min dst.length (BSIZE - off % BSIZE)
      if (dst.take m).all id = true then readiFrom sb ip (off + m) (dst.drop m) fuel
      else pure false

/-- `readi`: what it returns.  The bytes that it copies are left out. -/
def readi (sb : Super) (ip : ISlot) (off : ℕ) (dst : List Bool) : Kernel ℤ := do
  let d ← run (.node ip)
  if off > d.size.toNat ∨ off + dst.length ≥ 2 ^ 32 then pure 0
  else do
    let dst := dst.take (d.size.toNat - off)
    let ok ← readiFrom sb ip off dst dst.length
    pure (if ok = true then dst.length else -1)

/-- The loop of `writei`: `off` when the loop ends.  `src` is the source, where `none` is a byte
that is not mapped. -/
def writeiFrom (sb : Super) (ip : ISlot) (off : ℕ) (src : List (Option Byte)) : ℕ → Kernel ℕ
  | 0 => pure off
  | fuel + 1 =>
    if src = [] then pure off
    else do
      let addr ← bmap sb ip (off / BSIZE)
      let m := min src.length (BSIZE - off % BSIZE)
      let ok ← run (.copyin addr (off % BSIZE) (src.take m))
      if ok = true then writeiFrom sb ip (off + m) (src.drop m) fuel
      else pure off

/-- `writei`: what it returns.  Every round of the loop copies at least one byte. -/
def writei (sb : Super) (ip : ISlot) (off : ℕ) (src : List (Option Byte)) : Kernel ℤ := do
  let d ← run (.node ip)
  if off > d.size.toNat ∨ off + src.length ≥ 2 ^ 32 then pure (-1)
  else if off + src.length > MAXFILE * BSIZE then pure (-1)
  else do
    let last ← writeiFrom sb ip off src src.length
    assign ip fun d => if last > d.size.toNat then { d with size := BitVec.ofNat 32 last } else d
    run (.iupdate ip)
    pure (last - off)

/-! ### Calls -/

/-- What a process holds between two calls: whether it is inside a transaction, its references,
and its references with the lock. -/
structure Held where
  inOp : Bool := false
  refs : List ISlot := []
  locks : List ISlot := []

/-- How the system calls use inodes. -/
inductive Call
  | beginOp
  | endOp
  /-- a directory entry is looked up, or the root -/
  | iget (inum : ℕ)
  | idup (ip : ISlot)
  | ilock (ip : ISlot)
  | iunlock (ip : ISlot)
  | iput (ip : ISlot)
  /-- `create` allocates an inode -/
  | ialloc (type : BitVec 16)
  /-- `create` fills in the inode -/
  | init (ip : ISlot) (major minor : BitVec 16)
  /-- `ip->nlink++; iupdate(ip)` -/
  | nlinkUp (ip : ISlot)
  /-- `ip->nlink--; iupdate(ip)` -/
  | nlinkDown (ip : ISlot)
  | itrunc (ip : ISlot)
  | writei (ip : ISlot) (off : ℕ) (src : List (Option Byte))

/-- Assign to fields of an inode and write it to the disk. -/
def update (ip : ISlot) (f : Inode → Inode) : Kernel Unit := do
  assign ip f
  run (.iupdate ip)

/-- A function for a locked inode, inside a transaction. -/
def onLocked {α : Type} (a : Held) (ip : ISlot) (f : Kernel α) : Option (Kernel Held) :=
  if a.inOp = true ∧ ip ∈ a.locks then some do let _ ← f; pure a else none

/-- The program of a call, and what the process holds after it. -/
def body (sb : Super) : Call → Held → Option (Kernel Held)
  | .beginOp, a =>
    if a.inOp = false then some do run .beginOp; pure { a with inOp := true } else none
  | .endOp, a =>
    if a.inOp = true then some do run .endOp; pure { a with inOp := false } else none
  | .iget inum, a =>
    if inum < sb.ninodes.toNat then some do
      let ip ← run (.iget inum)
      pure { a with refs := ip :: a.refs }
    else none
  | .idup ip, a =>
    if ip ∈ a.refs then some do run (.idup ip); pure { a with refs := ip :: a.refs } else none
  | .ilock ip, a =>
    if ip ∈ a.refs then some do
      ilock ip
      pure { a with refs := a.refs.erase ip, locks := ip :: a.locks }
    else none
  | .iunlock ip, a =>
    if ip ∈ a.locks then some do
      run (.iunlock ip)
      pure { a with refs := ip :: a.refs, locks := a.locks.erase ip }
    else none
  | .iput ip, a =>
    if a.inOp = true ∧ ip ∈ a.refs then some do
      iput ip
      pure { a with refs := a.refs.erase ip }
    else none
  | .ialloc type, a =>
    if a.inOp = true ∧ type ≠ 0 then some do
      let ip ← ialloc sb type
      pure { a with refs := ip :: a.refs }
    else none
  | .init ip major minor, a =>
    onLocked a ip (update ip fun d => { d with major := major, minor := minor, nlink := 1 })
  | .nlinkUp ip, a => onLocked a ip (update ip fun d => { d with nlink := d.nlink + 1 })
  | .nlinkDown ip, a => onLocked a ip (update ip fun d => { d with nlink := d.nlink - 1 })
  | .itrunc ip, a => onLocked a ip (itrunc ip)
  | .writei ip off src, a => onLocked a ip (writei sb ip off src)

/-- The whole system. -/
abbrev Sys (P : Type) := Pool (State P) P Op Op.Result Held

/-- One step of the system. -/
def step {P : Type} [DecidableEq P] (sb : Super) : Sys P → Act P Call → Except Panic (Sys P) :=
  poolStep (exec sb) (body sb) .disabled

end Hexv6.Ino
