import Hexv6.Blk.Block
import Hexv6.Bio.Cache
import Hexv6.Lib.Threads
import Hexv6.Sched.Proc

/-!
# Buffers, disk and log

The state that the file system works on: the buffer cache, the disk, and the part of
`struct log` that `begin_op`, `end_op`, `log_write` and `commit` use; and the atomic
operations of which their programs are made.  An operation is what a function does under one
spin lock, or while it holds the sleep lock of a buffer.

`pins` is not part of the kernel: it counts, for each buffer, the calls of `bpin` less those of
`bunpin`.
-/

namespace Hexv6.Blk

open Lib
open Bio (Buf Bcache BufId)
open Sched (Slot)

/-- `ROOTDEV`, the device of all calls. -/
def ROOTDEV : BitVec 32 := 1

/-- The fields of `struct superblock` that the kernel uses. -/
structure Super where
  size : ℕ
  ninodes : ℕ
  nlog : ℕ
  logstart : BitVec 32
  inodestart : BitVec 32
  bmapstart : BitVec 32

/-- The shared state. -/
structure State where
  cache : Bcache Slot Block
  disk : BitVec 32 → Block
  /-- `log.lh.block[0..n-1]` -/
  lh : List (BitVec 32) := []
  outstanding : ℤ := 0
  committing : Bool := false
  pins : BufId → ℕ := fun _ => 0

/-- What stops the system: a panic, or an operation that has to wait. -/
inductive Panic
  | disabled
  | noBuffers
  | bwrite
  | brelse
  | tooBig
  | outsideTrans
  | logCommitting
  | outOfBlocks
  | freeingFreeBlock
  | noInodes
  | bmapRange
deriving DecidableEq

inductive Op
  /-- `bget` up to `acquiresleep` -/
  | bget (bn : BitVec 32)
  | acquiresleep (b : BufId)
  /-- the end of `bread`: the buffer is read from the disk if it is not valid -/
  | fill (b : BufId)
  /-- look at `b->data` -/
  | data (b : BufId)
  /-- assign `b->data` -/
  | store (b : BufId) (d : Block)
  /-- `either_copyin` to `b->data + off`; `none` stands for a byte that is not mapped -/
  | copyin (b : BufId) (off : ℕ) (src : List (Option Byte))
  | bwrite (b : BufId)
  /-- `brelse` up to the end of `releasesleep` -/
  | releasesleep (b : BufId)
  /-- the rest of `brelse` -/
  | unref (b : BufId)
  | bunpin (b : BufId)
  | logWrite (b : BufId)
  | beginOp
  /-- `end_op` up to the call of `commit` -/
  | endOp
  /-- `commit` looks at `log.lh` -/
  | lh
  /-- `log.lh.n = 0` -/
  | clearLh
  /-- `log.committing = 0` -/
  | endCommit
  | panic (e : Panic)
deriving DecidableEq

/-- What an operation returns. -/
abbrev Op.Result : Op → Type
  | .bget _ => BufId
  | .data _ => Block
  | .copyin _ _ _ => Bool
  | .endOp => Bool
  | .lh => List (BitVec 32)
  | .panic _ => Empty
  | _ => Unit

namespace State

/-- Change one buffer. -/
def modify (s : State) (b : BufId) (f : Buf Slot Block → Buf Slot Block) : State :=
  { s with cache := s.cache.modify b f }

/-- `log_write` after its tests: a block that is in the header already is absorbed. -/
def log (s : State) (b : BufId) : State :=
  let bn := (s.cache.buf b).blockno
  if bn ∈ s.lh then s
  else { s with
    cache := s.cache.bpin b, lh := s.lh ++ [bn]
    pins := Function.update s.pins b (s.pins b + 1) }

end State

/-- The bytes that `copyin` has copied when it stops. -/
def mapped (src : List (Option Byte)) : List Byte := (src.takeWhile Option.isSome).reduceOption

/-- One operation of process `p`. -/
def exec (sb : Super) (p : Slot) : (o : Op) → State → Except Panic (State × o.Result)
  | .bget bn, s =>
    match s.cache.bget ROOTDEV bn with
    | some (b, c) => .ok ({ s with cache := c }, b)
    | none => .error .noBuffers
  | .acquiresleep b, s =>
    if (s.cache.buf b).lock = none then .ok (s.modify b fun x => { x with lock := some p }, ())
    else .error .disabled
  | .fill b, s =>
    .ok (s.modify b fun x =>
      if x.valid then x else { x with data := s.disk x.blockno, valid := true }, ())
  | .data b, s => .ok (s, (s.cache.buf b).data)
  | .store b d, s => .ok (s.modify b fun x => { x with data := d }, ())
  | .copyin b off src, s =>
    .ok (s.modify b fun x => { x with data := x.data.paste off (mapped src) },
      src.all Option.isSome)
  | .bwrite b, s =>
    if (s.cache.buf b).lock = some p then
      .ok ({ s with
        disk := Function.update s.disk (s.cache.buf b).blockno (s.cache.buf b).data }, ())
    else .error .bwrite
  | .releasesleep b, s =>
    if (s.cache.buf b).lock = some p then .ok (s.modify b fun x => { x with lock := none }, ())
    else .error .brelse
  | .unref b, s => .ok ({ s with cache := s.cache.unref b }, ())
  | .bunpin b, s =>
    .ok ({ s with
      cache := s.cache.bunpin b, pins := Function.update s.pins b (s.pins b - 1) }, ())
  | .logWrite b, s =>
    if s.lh.length ≥ LOGSIZE ∨ (s.lh.length : ℤ) ≥ sb.nlog - 1 then .error .tooBig
    else if s.outstanding < 1 then .error .outsideTrans
    else .ok (s.log b, ())
  | .beginOp, s =>
    if s.committing then .error .disabled
    else if s.lh.length + (s.outstanding + 1) * MAXOPBLOCKS > LOGSIZE then .error .disabled
    else .ok ({ s with outstanding := s.outstanding + 1 }, ())
  | .endOp, s =>
    if s.committing then .error .logCommitting
    else if s.outstanding - 1 = 0 then
      .ok ({ s with outstanding := s.outstanding - 1, committing := true }, true)
    else .ok ({ s with outstanding := s.outstanding - 1 }, false)
  | .lh, s => .ok (s, s.lh)
  | .clearLh, s => .ok ({ s with lh := [] }, ())
  | .endCommit, s => .ok ({ s with committing := false }, ())
  | .panic e, _ => .error e

end Hexv6.Blk
