import Hexv6.Blk.Ops

/-!
# Inodes and their blocks

The inode table of `kernel/fs.c` and the disk as the file system sees it through the buffer
cache: the array of `struct dinode`, the free map, and the data blocks.  An operation is what a
function does under `itable.lock`, what it does between `bread` and `brelse` of one block, or an
access to an in-memory inode of which it holds the sleep lock.

The three areas of the disk are separate here.  A function that is given the number of a metadata
block where it expects a data block would overwrite another area; the model stops there, with
`metadata`.
-/

namespace Hexv6.Ino

open Lib
open Blk (Block Byte Inode mapped)

/-- A pointer into `itable.inode`. -/
abbrev ISlot := Fin NINODE

instance : LawfulBEq ISlot := inferInstance

/-- The fields of `struct superblock` that matter here. -/
structure Super where
  size : BitVec 32
  ninodes : BitVec 32
  bmapstart : BitVec 32

/-- The number of metadata blocks, as `mkfs` lays out the disk: the free map is the last of
them. -/
def Super.nmeta (sb : Super) : ℕ := sb.bmapstart.toNat + (sb.size.toNat / BPB + 1)

/-- The block is a metadata block. -/
def Super.Meta (sb : Super) (a : BitVec 32) : Prop := a.toNat < sb.nmeta

instance (sb : Super) (a : BitVec 32) : Decidable (sb.Meta a) :=
  inferInstanceAs (Decidable (_ < _))

/-- `struct inode`. -/
structure Entry (P : Type) where
  inum : ℕ := 0
  ref : ℕ := 0
  lock : Option P := none
  valid : Bool := false
  node : Inode

structure State (P : Type) where
  itable : ISlot → Entry P
  /-- the inodes on the disk -/
  dinode : ℕ → Inode
  /-- the free map -/
  bit : BitVec 32 → Bool
  /-- the data blocks -/
  blk : BitVec 32 → Block
  /-- `log.outstanding` -/
  outstanding : ℕ := 0

inductive Panic
  | disabled
  | igetNoInodes
  | ilock
  | ilockNoType
  | iunlock
  | iallocNoInodes
  | outOfBlocks
  | freeingFreeBlock
  | bmapRange
  /-- a metadata block is used as a data block -/
  | metadata
deriving DecidableEq

inductive Op
  | beginOp
  | endOp
  | iget (inum : ℕ)
  | idup (ip : ISlot)
  /-- `ilock` up to the end of `acquiresleep` -/
  | acquiresleep (ip : ISlot)
  /-- the rest of `ilock` -/
  | readInode (ip : ISlot)
  | iunlock (ip : ISlot)
  /-- look at the fields of the inode -/
  | node (ip : ISlot)
  /-- assign to the fields of the inode -/
  | setNode (ip : ISlot) (d : Inode)
  | iupdate (ip : ISlot)
  /-- `iput` up to the release of `itable.lock`; whether the inode is to be freed -/
  | iputTest (ip : ISlot)
  /-- `ip->valid = 0` -/
  | invalidate (ip : ISlot)
  | releasesleep (ip : ISlot)
  /-- the end of `iput` -/
  | iputDrop (ip : ISlot)
  /-- one round of the loop of `ialloc`; whether the inode was free -/
  | iallocTry (inum : ℕ) (type : BitVec 16)
  /-- one round of the loop of `balloc` -/
  | allocBit (b : ℕ)
  | bzero (a : BitVec 32)
  | bfree (a : BitVec 32)
  /-- look at an entry of an indirect block -/
  | word (a : BitVec 32) (j : ℕ)
  /-- assign an entry of an indirect block -/
  | setWord (a : BitVec 32) (j : ℕ) (w : BitVec 32)
  /-- `either_copyin` to a data block; `none` stands for a byte that is not mapped -/
  | copyin (a : BitVec 32) (off : ℕ) (src : List (Option Byte))
  | panic (e : Panic)

/-- What an operation returns. -/
abbrev Op.Result : Op → Type
  | .iget _ => ISlot
  | .node _ => Inode
  | .iputTest _ => Bool
  | .iallocTry _ _ => Bool
  | .allocBit _ => Option (BitVec 32)
  | .word _ _ => BitVec 32
  | .copyin _ _ _ => Bool
  | .panic _ => Empty
  | _ => Unit

namespace State

variable {P : Type}

/-- Change an entry of the inode table. -/
def modify (s : State P) (ip : ISlot) (f : Entry P → Entry P) : State P :=
  { s with itable := Function.update s.itable ip (f (s.itable ip)) }

/-- Change the contents of a data block. -/
def store (s : State P) (a : BitVec 32) (d : Block) : State P :=
  { s with blk := Function.update s.blk a d }

/-- `iget`. -/
def iget (s : State P) (inum : ℕ) : Except Panic (State P × ISlot) :=
  match (List.finRange NINODE).find? fun k => 0 < (s.itable k).ref ∧ (s.itable k).inum = inum with
  | some k => .ok (s.modify k fun e => { e with ref := e.ref + 1 }, k)
  | none =>
    match (List.finRange NINODE).find? fun k => (s.itable k).ref = 0 with
    | some k => .ok (s.modify k fun e => { e with inum := inum, ref := 1, valid := false }, k)
    | none => .error .igetNoInodes

/-- The free block that a round of `balloc` finds. -/
@[irreducible] def findFree (s : State P) (sb : Super) (b : ℕ) : Option (BitVec 32) :=
  ((List.range BPB).find? fun bi =>
    b + bi < sb.size.toNat ∧ s.bit (BitVec.ofNat 32 (b + bi)) = false).map
      fun bi => BitVec.ofNat 32 (b + bi)

end State

section Exec

variable {P : Type} [DecidableEq P] (sb : Super)

/-- A change of a data block. -/
def onBlock (s : State P) (a : BitVec 32) (f : Block → Block) : Except Panic (State P) :=
  if sb.Meta a then .error .metadata else .ok (s.store a (f (s.blk a)))

/-- One operation of process `p`. -/
def exec (p : P) : (o : Op) → State P → Except Panic (State P × o.Result)
  | .beginOp, s => .ok ({ s with outstanding := s.outstanding + 1 }, ())
  | .endOp, s => .ok ({ s with outstanding := s.outstanding - 1 }, ())
  | .iget inum, s => s.iget inum
  | .idup ip, s => .ok (s.modify ip fun e => { e with ref := e.ref + 1 }, ())
  | .acquiresleep ip, s =>
    if (s.itable ip).ref < 1 then .error .ilock
    else if (s.itable ip).lock = none then
      .ok (s.modify ip fun e => { e with lock := some p }, ())
    else .error .disabled
  | .readInode ip, s =>
    if (s.itable ip).valid = true then .ok (s, ())
    else if (s.dinode (s.itable ip).inum).type = 0 then .error .ilockNoType
    else .ok (s.modify ip fun e => { e with node := s.dinode e.inum, valid := true }, ())
  | .iunlock ip, s =>
    if (s.itable ip).lock ≠ some p ∨ (s.itable ip).ref < 1 then .error .iunlock
    else .ok (s.modify ip fun e => { e with lock := none }, ())
  | .node ip, s => .ok (s, (s.itable ip).node)
  | .setNode ip d, s => .ok (s.modify ip fun e => { e with node := d }, ())
  | .iupdate ip, s =>
    .ok ({ s with dinode := Function.update s.dinode (s.itable ip).inum (s.itable ip).node }, ())
  | .iputTest ip, s =>
    let e := s.itable ip
    if e.ref = 1 ∧ e.valid = true ∧ e.node.nlink = 0 then
      if e.lock = none then .ok (s.modify ip fun e => { e with lock := some p }, true)
      else .error .disabled
    else .ok (s.modify ip fun e => { e with ref := e.ref - 1 }, false)
  | .invalidate ip, s => .ok (s.modify ip fun e => { e with valid := false }, ())
  | .releasesleep ip, s => .ok (s.modify ip fun e => { e with lock := none }, ())
  | .iputDrop ip, s => .ok (s.modify ip fun e => { e with ref := e.ref - 1 }, ())
  | .iallocTry inum type, s =>
    if (s.dinode inum).type = 0 then
      .ok ({ s with dinode := Function.update s.dinode inum (.fresh type) }, true)
    else .ok (s, false)
  | .allocBit b, s =>
    match s.findFree sb b with
    | some a => .ok ({ s with bit := Function.update s.bit a true }, some a)
    | none => .ok (s, none)
  | .bzero a, s => (onBlock sb s a fun _ => .zero).map fun t => (t, ())
  | .bfree a, s =>
    if s.bit a = false then .error .freeingFreeBlock
    else .ok ({ s with bit := Function.update s.bit a false }, ())
  | .word a j, s => .ok (s, (s.blk a).word j)
  | .setWord a j w, s => (onBlock sb s a fun d => d.setWord j w).map fun t => (t, ())
  | .copyin a off src, s =>
    (onBlock sb s a fun d => d.paste off (mapped src)).map fun t => (t, src.all Option.isSome)
  | .panic e, _ => .error e

end Exec

end Hexv6.Ino
