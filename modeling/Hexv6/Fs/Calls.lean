import Hexv6.Fs.Inode

/-!
# File system calls

Path lookup from `kernel/fs.c`, the system calls of `kernel/sysfile.c` and the part of `exit`
that closes files, as programs over the operations of `Hexv6.Fs.Inode`.  The programs start
from the arguments that the kernel has fetched from the process.  The working directory and
the open files of a process are used by this process only; they are passed from call to
call, together with the value that the call returns.
-/

namespace Hexv6.Fs

open Lib Prog

/-- Kernel code. -/
abbrev Kernel := Prog Op Op.Result

/-- Perform an operation. -/
abbrev run (o : Op) : Kernel o.Result := perform o

def panic {α : Type} (e : Panic) : Kernel α := .op (.panic e) fun x : Empty => x.elim

/-! ### Inodes -/

def ilock (ip : Slot) : Kernel Unit := do
  run (.acquiresleep ip)
  run (.readInode ip)

def iput (ip : Slot) : Kernel Unit := do
  let free ← run (.iputTest ip)
  if free = true then
    run (.itrunc ip)
    run (.ifree ip)
    run (.releasesleep ip)
    run (.iputDrop ip)

def iunlockput (ip : Slot) : Kernel Unit := do
  run (.iunlock ip)
  iput ip

/-- The loop of `ialloc`. -/
def iallocFrom (type : IType) : List ℕ → Kernel Slot
  | [] => panic .iallocNoInodes
  | inum :: inums => do
    let found ← run (.iallocTry inum type)
    if found = true then run (.iget inum) else iallocFrom type inums

def ialloc (ninodes : ℕ) (type : IType) : Kernel Slot :=
  iallocFrom type (List.range' 1 (ninodes - 1))

/-! ### Directories -/

/-- Whether `namecmp` returns 0. -/
def sameName (s t : Name) : Bool := s.take DIRSIZ = t.take DIRSIZ

/-- The first entry with the name: its position and its inode number. -/
def lookup (slots : List Dirent) (name : Name) : Option (ℕ × ℕ) :=
  match slots with
  | [] => none
  | de :: slots =>
    if de.inum ≠ 0 ∧ sameName name de.name then some (0, de.inum)
    else (lookup slots name).map fun x => (x.1 + 1, x.2)

/-- `dirlookup`: the inode with a reference, and the position of its entry. -/
def dirlookup (dp : Slot) (name : Name) : Kernel (Option (Slot × ℕ)) := do
  let d ← run (.node dp)
  if d.type ≠ .dir then panic .dirlookupNotDir
  else match lookup d.slots name with
    | some (off, inum) => do
      let ip ← run (.iget inum)
      pure (some (ip, off))
    | none => pure none

/-- `dirlink`: whether it returned 0. -/
def dirlink (dp : Slot) (name : Name) (inum : ℕ) : Kernel Bool := do
  let found ← dirlookup dp name
  match found with
  | some (ip, _) => do
    iput ip
    pure false
  | none => do
    let d ← run (.node dp)
    let off := d.slots.findIdx fun de => de.inum = 0
    let written ← run (.writei dp off ⟨inum % 2 ^ 16, name.take DIRSIZ⟩)
    if written = true then pure true else panic .dirlink

def isdirempty (slots : List Dirent) : Bool := (slots.drop 2).all fun de => de.inum = 0

/-! ### Paths -/

/-- `skipelem`: the next element of the path, and the path after it. -/
def skipelem (path : List Char) : Option (Name × List Char) :=
  let s := path.dropWhile (· = '/')
  if s = [] then none
  else some ((s.takeWhile (· ≠ '/')).take DIRSIZ,
    (s.dropWhile (· ≠ '/')).dropWhile (· = '/'))

/-- The loop of `namex`.  The first argument bounds the number of turns. -/
def namexLoop (nameiparent : Bool) : ℕ → List Char → Name → Slot → Kernel (Option (Slot × Name))
  | 0, _, _, _ => pure none
  | n + 1, path, name, ip =>
    match skipelem path with
    | none =>
      if nameiparent then do
        iput ip
        pure none
      else pure (some (ip, name))
    | some (name, path) => do
      ilock ip
      let d ← run (.node ip)
      if d.type ≠ .dir then do
        iunlockput ip
        pure none
      else if nameiparent = true ∧ path = [] then do
        run (.iunlock ip)
        pure (some (ip, name))
      else do
        let found ← dirlookup ip name
        match found with
        | none => do
          iunlockput ip
          pure none
        | some (next, _) => do
          iunlockput ip
          namexLoop nameiparent n path name next

/-- `namex`: the inode that the path leads to, or its parent together with the last element. -/
def namex (cwd : Slot) (path : List Char) (nameiparent : Bool) :
    Kernel (Option (Slot × Name)) := do
  if path.head? = some '/' then
    let ip ← run (.iget ROOTINO)
    namexLoop nameiparent (path.length + 1) path [] ip
  else
    run (.idup cwd)
    namexLoop nameiparent (path.length + 1) path [] cwd

def namei (cwd : Slot) (path : List Char) : Kernel (Option Slot) := do
  let found ← namex cwd path false
  pure (found.map Prod.fst)

def nameiparent (cwd : Slot) (path : List Char) : Kernel (Option (Slot × Name)) :=
  namex cwd path true

/-! ### System calls -/

/-- What the calls use of `struct proc`: the working directory, the open files, and the
register in which the return value is passed. -/
structure Proc where
  cwd : Option Slot
  ofile : Fin NOFILE → Option FileSlot := fun _ => none
  a0 : ℤ := 0

/-- `create` after the inode has been allocated: the new inode is locked and filled in, and
gets its entry in the directory. -/
def createNew (dp ip : Slot) (name : Name) (type : IType) (major minor : BitVec 16) :
    Kernel (Option Slot) := do
  ilock ip
  run (.initInode ip major minor)
  if type = .dir then
    run (.nlinkUp dp)
    let inum ← run (.inum ip)
    let dot ← dirlink ip ['.'] inum
    if dot = true then
      let parent ← run (.inum dp)
      let dotdot ← dirlink ip ['.', '.'] parent
      if dotdot = true then pure () else panic .createDots
    else panic .createDots
  let inum ← run (.inum ip)
  let linked ← dirlink dp name inum
  if linked = true then
    iunlockput dp
    pure (some ip)
  else panic .createDirlink

/-- `create`: the inode, which is locked. -/
def create (ninodes : ℕ) (cwd : Slot) (path : List Char) (type : IType)
    (major minor : BitVec 16) : Kernel (Option Slot) := do
  let found ← nameiparent cwd path
  match found with
  | none => pure none
  | some (dp, name) => do
    ilock dp
    let found ← dirlookup dp name
    match found with
    | some (ip, _) => do
      iunlockput dp
      ilock ip
      let d ← run (.node ip)
      if type = .file ∧ (d.type = .file ∨ d.type = .device) then pure (some ip)
      else do
        iunlockput ip
        pure none
    | none => do
      let ip ← ialloc ninodes type
      createNew dp ip name type major minor

def O_RDONLY : BitVec 32 := 0x000
def O_CREATE : BitVec 32 := 0x200
def O_TRUNC : BitVec 32 := 0x400

/-- `fileclose`. -/
def fileclose (f : FileSlot) : Kernel Unit := do
  let ip ← run (.fileDrop f)
  match ip with
  | some ip => iput ip
  | none => pure ()

/-- `fdalloc`: the first free descriptor. -/
def fdalloc (p : Proc) : Option (Fin NOFILE) :=
  (List.finRange NOFILE).find? fun fd => p.ofile fd = none

/-- `sys_open` after the inode has been found and locked. -/
def openInode (p : Proc) (ip : Slot) (omode : BitVec 32) : Kernel Proc := do
  let d ← run (.node ip)
  if d.type = .device ∧ (d.major.toInt < 0 ∨ NDEV ≤ d.major.toInt) then
    iunlockput ip
    pure { p with a0 := -1 }
  else
    let f ← run .filealloc
    match f with
    | none => do
      iunlockput ip
      pure { p with a0 := -1 }
    | some f =>
      match fdalloc p with
      | none => do
        fileclose f
        iunlockput ip
        pure { p with a0 := -1 }
      | some fd => do
        run (.fileSet f ip)
        if omode &&& O_TRUNC ≠ 0 ∧ d.type = .file then run (.itrunc ip)
        run (.iunlock ip)
        pure { p with ofile := Function.update p.ofile fd (some f), a0 := (fd : ℕ) }

def sysOpen (ninodes : ℕ) (p : Proc) (cwd : Slot) (path : List Char) (omode : BitVec 32) :
    Kernel Proc := do
  if omode &&& O_CREATE ≠ 0 then
    let ip ← create ninodes cwd path .file 0 0
    match ip with
    | none => pure { p with a0 := -1 }
    | some ip => openInode p ip omode
  else
    let ip ← namei cwd path
    match ip with
    | none => pure { p with a0 := -1 }
    | some ip => do
      ilock ip
      let d ← run (.node ip)
      if d.type = .dir ∧ omode ≠ O_RDONLY then
        iunlockput ip
        pure { p with a0 := -1 }
      else openInode p ip omode

def sysMkdir (ninodes : ℕ) (p : Proc) (cwd : Slot) (path : List Char) : Kernel Proc := do
  let ip ← create ninodes cwd path .dir 0 0
  match ip with
  | none => pure { p with a0 := -1 }
  | some ip => do
    iunlockput ip
    pure { p with a0 := 0 }

/-- `sys_mknod`.  `create` takes the device numbers as `short`. -/
def sysMknod (ninodes : ℕ) (p : Proc) (cwd : Slot) (path : List Char) (major minor : BitVec 32) :
    Kernel Proc := do
  let ip ← create ninodes cwd path .device (major.setWidth 16) (minor.setWidth 16)
  match ip with
  | none => pure { p with a0 := -1 }
  | some ip => do
    iunlockput ip
    pure { p with a0 := 0 }

/-- The end of `sys_link` at the label `bad`. -/
def linkBad (p : Proc) (ip : Slot) : Kernel Proc := do
  ilock ip
  run (.nlinkDown ip)
  iunlockput ip
  pure { p with a0 := -1 }

def sysLink (p : Proc) (cwd : Slot) (old new : List Char) : Kernel Proc := do
  let ip ← namei cwd old
  match ip with
  | none => pure { p with a0 := -1 }
  | some ip => do
    ilock ip
    let d ← run (.node ip)
    if d.type = .dir then
      iunlockput ip
      pure { p with a0 := -1 }
    else
      run (.nlinkUp ip)
      run (.iunlock ip)
      let found ← nameiparent cwd new
      match found with
      | none => linkBad p ip
      | some (dp, name) => do
        ilock dp
        let inum ← run (.inum ip)
        let linked ← dirlink dp name inum
        if linked = true then
          iunlockput dp
          iput ip
          pure { p with a0 := 0 }
        else
          iunlockput dp
          linkBad p ip

/-- The end of `sys_unlink` at the label `bad`. -/
def unlinkBad (p : Proc) (dp : Slot) : Kernel Proc := do
  iunlockput dp
  pure { p with a0 := -1 }

/-- `sys_unlink` once the entry is found. -/
def unlinkEntry (p : Proc) (dp ip : Slot) (off : ℕ) : Kernel Proc := do
  ilock ip
  let d ← run (.node ip)
  if d.nlink.toInt < 1 then panic .unlinkNlink
  else if d.type = .dir ∧ ¬ isdirempty d.slots then
    iunlockput ip
    unlinkBad p dp
  else
    let written ← run (.writei dp off {})
    if written = true then
      if d.type = .dir then run (.nlinkDown dp)
      iunlockput dp
      run (.nlinkDown ip)
      iunlockput ip
      pure { p with a0 := 0 }
    else panic .unlinkWritei

def sysUnlink (p : Proc) (cwd : Slot) (path : List Char) : Kernel Proc := do
  let found ← nameiparent cwd path
  match found with
  | none => pure { p with a0 := -1 }
  | some (dp, name) => do
    ilock dp
    if sameName name ['.'] ∨ sameName name ['.', '.'] then unlinkBad p dp
    else
      let found ← dirlookup dp name
      match found with
      | none => unlinkBad p dp
      | some (ip, off) => unlinkEntry p dp ip off

def sysChdir (p : Proc) (cwd : Slot) (path : List Char) : Kernel Proc := do
  let ip ← namei cwd path
  match ip with
  | none => pure { p with a0 := -1 }
  | some ip => do
    ilock ip
    let d ← run (.node ip)
    if d.type ≠ .dir then
      iunlockput ip
      pure { p with a0 := -1 }
    else
      run (.iunlock ip)
      iput cwd
      pure { p with cwd := some ip, a0 := 0 }

def sysClose (p : Proc) (fd : ℤ) : Kernel Proc :=
  if h : 0 ≤ fd ∧ fd < NOFILE then
    let fd : Fin NOFILE := ⟨fd.toNat, toNat_lt_NOFILE h⟩
    match p.ofile fd with
    | none => pure { p with a0 := -1 }
    | some f => do
      fileclose f
      pure { p with ofile := Function.update p.ofile fd none, a0 := 0 }
  else pure { p with a0 := -1 }

/-- The loop of `exit` over the descriptors. -/
def closeAll (p : Proc) : List (Fin NOFILE) → Kernel Proc
  | [] => pure p
  | fd :: fds =>
    match p.ofile fd with
    | none => closeAll p fds
    | some f => do
      fileclose f
      closeAll { p with ofile := Function.update p.ofile fd none } fds

/-- The part of `exit` that gives up files and the working directory. -/
def exit (p : Proc) (cwd : Slot) : Kernel Proc := do
  let p ← closeAll p (List.finRange NOFILE)
  iput cwd
  pure { p with cwd := none }

/-- The calls with their arguments. -/
inductive Call
  | open (path : List Char) (omode : BitVec 32)
  | mkdir (path : List Char)
  | mknod (path : List Char) (major minor : BitVec 32)
  | link (old new : List Char)
  | unlink (path : List Char)
  | chdir (path : List Char)
  | close (fd : ℤ)
  | exit

/-- The program of a call; a process that has exited makes no calls. -/
def body (ninodes : ℕ) (c : Call) (p : Proc) : Option (Kernel Proc) :=
  p.cwd.map fun cwd =>
    match c with
    | .open path omode => sysOpen ninodes p cwd path omode
    | .mkdir path => sysMkdir ninodes p cwd path
    | .mknod path major minor => sysMknod ninodes p cwd path major minor
    | .link old new => sysLink p cwd old new
    | .unlink path => sysUnlink p cwd path
    | .chdir path => sysChdir p cwd path
    | .close fd => sysClose p fd
    | .exit => exit p cwd

variable {P : Type} [DecidableEq P]

/-- The file system with its processes. -/
abbrev Sys (P : Type) := Pool (State P) P Op Op.Result Proc

/-- One step of some process. -/
def step (ninodes : ℕ) : Sys P → Act P Call → Except Panic (Sys P) :=
  poolStep exec (body ninodes) .disabled

/-- The processes start with an image of the disk, in the root directory. -/
def boot [Fintype P] (disk : ℕ → Dinode) : Sys P where
  shared :=
    { disk := disk
      itable := Function.update (fun _ => {}) 0
        { inum := ROOTINO, ref := Fintype.card P }
      ftable := fun _ => {} }
  thread := fun _ => .ret { cwd := some 0 }

end Hexv6.Fs
