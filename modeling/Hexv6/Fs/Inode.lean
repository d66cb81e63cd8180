import Hexv6.Lib.Threads
import Hexv6.Param

/-!
# Inodes

The inode layer of `kernel/fs.c` and the file table of `kernel/file.c`, as atomic operations
on a shared state.  The state has the inodes on the disk, the inode table and the file
table.  An operation is a critical section under `itable.lock` or `ftable.lock`, an access
to the inode block of the disk, or an access to the fields of an in-memory inode, which its
sleep lock protects; an assignment to such fields and the `iupdate` that follows it are one
operation.

Of the contents of files only directories are modelled, as lists of directory entries:
`size`, `addrs` and the data blocks are represented by the entries below `size`.  There is
one device, and the log is left out: `begin_op` and `end_op` only restrict which processes
are in a system call at the same time.
-/

namespace Hexv6.Fs

open Lib Function

/-- The type of an inode: 0, `T_DIR`, `T_FILE`, `T_DEVICE`. -/
inductive IType
  | free
  | dir
  | file
  | device
deriving DecidableEq, Repr

/-- A name in a directory, without the bytes after its end. -/
abbrev Name := List Char

/-- `struct dirent`, of 16 bytes. -/
structure Dirent where
  inum : ℕ := 0
  name : Name := []
deriving DecidableEq, Repr

/-- `struct dinode`, with the entries of a directory. -/
structure Dinode where
  type : IType := .free
  major : BitVec 16 := 0
  minor : BitVec 16 := 0
  nlink : BitVec 16 := 0
  slots : List Dirent := []
deriving DecidableEq, Repr

/-- A pointer into the inode table. -/
abbrev Slot := Fin NINODE

/-- A pointer into the file table. -/
abbrev FileSlot := Fin NFILE

/-- `struct inode`: an entry of the inode table, with the copy of the disk inode. -/
structure Inode (P : Type) where
  inum : ℕ := 0
  ref : ℕ := 0
  lock : Option P := none
  valid : Bool := false
  node : Dinode := {}

/-- `struct file`: an open file of type `FD_INODE` or `FD_DEVICE` has an inode, and one of
type `FD_NONE` has none. -/
structure File where
  ref : ℕ := 0
  ip : Option Slot := none

/-- What the processes share. -/
structure State (P : Type) where
  disk : ℕ → Dinode
  itable : Slot → Inode P
  ftable : FileSlot → File

/-- The panics, and `disabled` for an operation that has to wait. -/
inductive Panic
  | ilock
  | noType
  | iunlock
  | igetNoInodes
  | iallocNoInodes
  | schedLocks
  | dirlookupNotDir
  | dirlink
  | unlinkNlink
  | unlinkWritei
  | createDots
  | createDirlink
  | fileclose
  | disabled
deriving DecidableEq, Repr

/-! ### The operations -/

/-- The atomic operations. -/
inductive Op
  | iget (inum : ℕ)
  | idup (ip : Slot)
  | acquiresleep (ip : Slot)
  | readInode (ip : Slot)
  | node (ip : Slot)
  | inum (ip : Slot)
  | iunlock (ip : Slot)
  | iputTest (ip : Slot)
  | itrunc (ip : Slot)
  | ifree (ip : Slot)
  | releasesleep (ip : Slot)
  | iputDrop (ip : Slot)
  | iallocTry (inum : ℕ) (type : IType)
  | initInode (ip : Slot) (major minor : BitVec 16)
  | nlinkUp (ip : Slot)
  | nlinkDown (ip : Slot)
  | writei (dp : Slot) (off : ℕ) (de : Dirent)
  | filealloc
  | fileSet (f : FileSlot) (ip : Slot)
  | fileDrop (f : FileSlot)
  | panic (e : Panic)
deriving DecidableEq, Repr

/-- The results of the operations. -/
@[reducible] def Op.Result : Op → Type
  | .iget _ => Slot
  | .node _ => Dinode
  | .inum _ => ℕ
  | .iputTest _ => Bool
  | .iallocTry _ _ => Bool
  | .writei _ _ _ => Bool
  | .filealloc => Option FileSlot
  | .fileDrop _ => Option Slot
  | .panic _ => Empty
  | _ => Unit

variable {P : Type}

/-- Assign to the entry `k` of the inode table. -/
def State.setInode (s : State P) (k : Slot) (ip : Inode P) : State P :=
  { s with itable := update s.itable k ip }

/-- Assign to the fields of the in-memory inode `k` that live on the disk, and `iupdate`. -/
def State.iupdate (s : State P) (k : Slot) (d : Dinode) : State P :=
  { s with
    disk := update s.disk (s.itable k).inum d
    itable := update s.itable k { s.itable k with node := d } }

/-- `iget`: the entry that holds the inode already, or else the first free one. -/
def iget (s : State P) (inum : ℕ) : Except Panic (State P × Slot) :=
  match (List.finRange NINODE).find? fun k => 0 < (s.itable k).ref ∧ (s.itable k).inum = inum with
  | some k => .ok (s.setInode k { s.itable k with ref := (s.itable k).ref + 1 }, k)
  | none =>
    match (List.finRange NINODE).find? fun k => (s.itable k).ref = 0 with
    | some k => .ok (s.setInode k { s.itable k with inum := inum, ref := 1, valid := false }, k)
    | none => .error .igetNoInodes

/-- The part of `iput` before the inode is freed.  `iput` acquires the sleep lock while it
holds `itable.lock`, where it must not sleep. -/
def iputTest (s : State P) (p : P) (k : Slot) : Except Panic (State P × Bool) :=
  let ip := s.itable k
  if ip.ref = 1 ∧ ip.valid = true ∧ ip.node.nlink = 0 then
    match ip.lock with
    | none => .ok (s.setInode k { ip with lock := some p }, true)
    | some _ => .error .schedLocks
  else .ok (s.setInode k { ip with ref := ip.ref - 1 }, false)

/-- The entries of a directory after `de` is written at the position `off`. -/
def putSlot (slots : List Dirent) (off : ℕ) (de : Dirent) : List Dirent :=
  if off < slots.length then slots.set off de else slots ++ [de]

/-- `writei` of one directory entry at the position `off`. -/
def writei (s : State P) (k : Slot) (off : ℕ) (de : Dirent) : State P × Bool :=
  let d := (s.itable k).node
  if off > d.slots.length ∨ off + 1 > MAXFILE * BSIZE / 16 then (s, false)
  else (s.iupdate k { d with slots := putSlot d.slots off de }, true)

/-- The loop of `filealloc`. -/
def filealloc (s : State P) : State P × Option FileSlot :=
  match (List.finRange NFILE).find? fun f => (s.ftable f).ref = 0 with
  | some f => ({ s with ftable := update s.ftable f { s.ftable f with ref := 1 } }, some f)
  | none => (s, none)

/-- `fileclose` up to the `iput`; the result is the inode to put. -/
def fileDrop (s : State P) (f : FileSlot) : Except Panic (State P × Option Slot) :=
  let ff := s.ftable f
  if ff.ref < 1 then .error .fileclose
  else if ff.ref - 1 > 0 then
    .ok ({ s with ftable := update s.ftable f { ff with ref := ff.ref - 1 } }, none)
  else .ok ({ s with ftable := update s.ftable f {} }, ff.ip)

/-- An operation performed by the process `p`. -/
def exec [DecidableEq P] (p : P) : (o : Op) → State P → Except Panic (State P × o.Result)
  | .iget inum, s => iget s inum
  | .idup k, s => .ok (s.setInode k { s.itable k with ref := (s.itable k).ref + 1 }, ())
  | .acquiresleep k, s =>
    if (s.itable k).ref < 1 then .error .ilock
    else match (s.itable k).lock with
      | none => .ok (s.setInode k { s.itable k with lock := some p }, ())
      | some _ => .error .disabled
  | .readInode k, s =>
    let ip := s.itable k
    if ip.valid then .ok (s, ())
    else if (s.disk ip.inum).type = .free then .error .noType
    else .ok (s.setInode k { ip with node := s.disk ip.inum, valid := true }, ())
  | .node k, s => .ok (s, (s.itable k).node)
  | .inum k, s => .ok (s, (s.itable k).inum)
  | .iunlock k, s =>
    if (s.itable k).lock ≠ some p ∨ (s.itable k).ref < 1 then .error .iunlock
    else .ok (s.setInode k { s.itable k with lock := none }, ())
  | .iputTest k, s => iputTest s p k
  | .itrunc k, s => .ok (s.iupdate k { (s.itable k).node with slots := [] }, ())
  | .ifree k, s =>
    let t := s.iupdate k { (s.itable k).node with type := .free }
    .ok (t.setInode k { t.itable k with valid := false }, ())
  | .releasesleep k, s => .ok (s.setInode k { s.itable k with lock := none }, ())
  | .iputDrop k, s => .ok (s.setInode k { s.itable k with ref := (s.itable k).ref - 1 }, ())
  | .iallocTry inum type, s =>
    if (s.disk inum).type = .free then
      .ok ({ s with disk := update s.disk inum { type := type } }, true)
    else .ok (s, false)
  | .initInode k major minor, s =>
    .ok (s.iupdate k { (s.itable k).node with major := major, minor := minor, nlink := 1 }, ())
  | .nlinkUp k, s =>
    .ok (s.iupdate k { (s.itable k).node with nlink := (s.itable k).node.nlink + 1 }, ())
  | .nlinkDown k, s =>
    .ok (s.iupdate k { (s.itable k).node with nlink := (s.itable k).node.nlink - 1 }, ())
  | .writei k off de, s => .ok (writei s k off de)
  | .filealloc, s => .ok (filealloc s)
  | .fileSet f k, s =>
    .ok ({ s with ftable := update s.ftable f { s.ftable f with ip := some k } }, ())
  | .fileDrop f, s => fileDrop s f
  | .panic e, _ => .error e

end Hexv6.Fs
