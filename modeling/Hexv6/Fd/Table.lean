import Hexv6.Lib.Frame
import Hexv6.Param

/-!
# Open files

The file table, the tables `ofile` of the processes, and the pipes; and the functions of
`kernel/file.c`, `kernel/pipe.c`, `kernel/sysfile.c` and `kernel/proc.c` that count references:
`filealloc`, `filedup`, `fileclose`, `pipealloc`, `pipeclose`, `fdalloc`, `sys_open`, `sys_pipe`,
`sys_dup`, `sys_close`, `fork` and `exit`, as programs.

What happens under `ftable.lock`, or under the lock of a pipe, is one operation, and so is an
assignment to a field of a process or the assignments to the fields of a new entry.  The steps
of different processes interleave in any way.

Memory is left open: which page `kalloc` returns, and whether it and `copyout`, `uvmcopy` and
`allocproc` succeed, is part of the call.  So is the inode that `sys_open` finds.  Inodes are
counted elsewhere; `fileclose` of an entry for an inode only changes the table here.
-/

namespace Hexv6.Fd

open Lib Prog Function

/-- An entry of `ftable`. -/
abbrev FSlot := Fin NFILE

/-- A file descriptor. -/
abbrev Desc := Fin NOFILE

inductive FType
  | none
  | pipe
  | inode
  | device
deriving DecidableEq

/-- `struct file`; `ip`, `off` and `major` are not here. -/
structure File where
  ref : ℕ := 0
  type : FType := .none
  readable : Bool := false
  writable : Bool := false
  pipe : ℕ := 0
deriving DecidableEq

/-- `struct pipe` without its data. -/
structure Pipe where
  readopen : Bool
  writeopen : Bool
deriving DecidableEq

/-- One of the two flags. -/
def Pipe.isOpen (pi : Pipe) (writable : Bool) : Bool :=
  if writable then pi.writeopen else pi.readopen

abbrev Ofile := Desc → Option FSlot

structure State (P : Type) where
  file : FSlot → File
  ofile : P → Ofile
  /-- the pipes by their pages; `none` if the page is free or used otherwise -/
  pipe : ℕ → Option Pipe
  /-- the slot of the process is not UNUSED -/
  used : P → Bool
  /-- the process has been forked and has not run yet -/
  ready : P → Bool

/-- Why an operation is not possible. -/
inductive Fault
  | disabled
  | filedup
  | fileclose
deriving DecidableEq

inductive Op (P : Type)
  | ofile (p : P) (fd : Desc)
  | setOfile (p : P) (fd : Desc) (f : Option FSlot)
  | filealloc
  | filedup (f : FSlot)
  /-- the part of `fileclose` under the lock -/
  | fileDrop (f : FSlot)
  | setPipe (f : FSlot) (pi : ℕ) (writable : Bool)
  | setInode (f : FSlot) (type : FType) (readable writable : Bool)
  /-- `kalloc` of the page `pi` and the assignments to the new pipe -/
  | kalloc (pi : ℕ)
  /-- `pipeclose`, with the `kfree` after it -/
  | pipeclose (pi : ℕ) (writable : Bool)
  | allocproc (np : P)
  | freeproc (np : P)
  /-- `np->state = RUNNABLE` -/
  | ready (np : P)
  /-- the process runs for the first time -/
  | start (p : P)
  /-- the end of `exit` -/
  | exit (p : P)

@[reducible] def Op.Result {P : Type} : Op P → Type
  | .ofile _ _ => Option FSlot
  | .filealloc => Option FSlot
  | .fileDrop _ => Option File
  | _ => Unit

namespace State

variable {P : Type}

def setFile (s : State P) (f : FSlot) (x : File) : State P :=
  { s with file := update s.file f x }

/-- The first entry of `ftable` that is free. -/
def firstFree (s : State P) : Option FSlot :=
  (List.finRange NFILE).find? fun f => (s.file f).ref = 0

end State

/-- What `pipeclose` leaves of a pipe. -/
def Pipe.close (pi : Pipe) (writable : Bool) : Option Pipe :=
  let pi := if writable then { pi with writeopen := false } else { pi with readopen := false }
  if pi.readopen = false ∧ pi.writeopen = false then none else some pi

/-- What an operation does. -/
def exec {K P : Type} [DecidableEq P] (_ : K) :
    (o : Op P) → State P → Except Fault (State P × o.Result)
  | .ofile p fd, s => .ok (s, s.ofile p fd)
  | .setOfile p fd f, s =>
    .ok ({ s with ofile := update s.ofile p (update (s.ofile p) fd f) }, ())
  | .filealloc, s =>
    match s.firstFree with
    | some f => .ok (s.setFile f { s.file f with ref := 1 }, some f)
    | none => .ok (s, none)
  | .filedup f, s =>
    if (s.file f).ref < 1 then .error .filedup
    else .ok (s.setFile f { s.file f with ref := (s.file f).ref + 1 }, ())
  | .fileDrop f, s =>
    if (s.file f).ref < 1 then .error .fileclose
    else if 0 < (s.file f).ref - 1 then
      .ok (s.setFile f { s.file f with ref := (s.file f).ref - 1 }, none)
    else .ok (s.setFile f { s.file f with ref := 0, type := .none }, some (s.file f))
  | .setPipe f pi writable, s =>
    .ok (s.setFile f
      { s.file f with type := .pipe, readable := !writable, writable := writable, pipe := pi }, ())
  | .setInode f type readable writable, s =>
    .ok (s.setFile f { s.file f with type, readable, writable }, ())
  | .kalloc pi, s =>
    if s.pipe pi = none then .ok ({ s with pipe := update s.pipe pi (some ⟨true, true⟩) }, ())
    else .error .disabled
  | .pipeclose pi writable, s =>
    .ok ({ s with pipe := update s.pipe pi ((s.pipe pi).bind (·.close writable)) }, ())
  | .allocproc np, s =>
    if s.used np = false then .ok ({ s with used := update s.used np true }, ())
    else .error .disabled
  | .freeproc np, s => .ok ({ s with used := update s.used np false }, ())
  | .ready np, s => .ok ({ s with ready := update s.ready np true }, ())
  | .start p, s =>
    if s.ready p = true then .ok ({ s with ready := update s.ready p false }, ())
    else .error .disabled
  | .exit p, s => .ok ({ s with used := update s.used p false }, ())

/-! ### Functions -/

/-- Kernel code. -/
abbrev Kernel (P : Type) := Prog (Op P) Op.Result

section Functions

variable {P : Type}

/-- Perform an operation. -/
abbrev run (o : Op P) : Kernel P o.Result := perform o

def fileclose (f : FSlot) : Kernel P Unit := do
  let ff ← run (.fileDrop f)
  match (ff : Option File) with
  | none => pure ()
  | some ff => if ff.type = .pipe then run (.pipeclose ff.pipe ff.writable) else pure ()

/-- `argfd` without the fetching of the argument. -/
def argfd (p : P) (n : ℤ) : Kernel P (Option (Desc × FSlot)) :=
  if h : 0 ≤ n ∧ n < NOFILE then do
    let fd : Desc := ⟨n.toNat, toNat_lt_NOFILE h⟩
    let f ← run (.ofile p fd)
    pure ((f : Option FSlot).map fun f => (fd, f))
  else pure none

/-- The loop of `fdalloc`. -/
def fdallocFrom (p : P) (f : FSlot) : List Desc → Kernel P (Option Desc)
  | [] => pure none
  | fd :: fds => do
    let x ← run (.ofile p fd)
    match (x : Option FSlot) with
    | none => do
      run (.setOfile p fd (some f))
      pure (some fd)
    | some _ => fdallocFrom p f fds

def fdalloc (p : P) (f : FSlot) : Kernel P (Option Desc) := fdallocFrom p f (List.finRange NOFILE)

def sysDup (p : P) (n : ℤ) : Kernel P Unit := do
  let arg ← argfd p n
  match arg with
  | none => pure ()
  | some (_, f) => do
    let fd ← fdalloc p f
    match fd with
    | none => pure ()
    | some _ => run (.filedup f)

def sysClose (p : P) (n : ℤ) : Kernel P Unit := do
  let arg ← argfd p n
  match arg with
  | none => pure ()
  | some (fd, f) => do
    run (.setOfile p fd none)
    fileclose f

/-- `O_WRONLY`, `O_RDWR` and `O_CREATE`. -/
def oWronly : BitVec 32 := 0x001

def oRdwr : BitVec 32 := 0x002

def oCreate : BitVec 32 := 0x200

/-- `T_DIR` and `T_DEVICE`. -/
def tDir : BitVec 16 := 1

def tDevice : BitVec 16 := 3

/-- The fields of an inode that `sys_open` reads. -/
structure Inode where
  type : BitVec 16
  major : BitVec 16

/-- `sys_open`, from the inode on that `create` or `namei` returns. -/
def sysOpen (p : P) (omode : BitVec 32) (ip : Option Inode) : Kernel P Unit :=
  match ip with
  | none => pure ()
  | some ip =>
    if omode &&& oCreate = 0 ∧ ip.type = tDir ∧ omode ≠ 0 then pure ()
    else if ip.type = tDevice ∧ (ip.major.toInt < 0 ∨ NDEV ≤ ip.major.toInt) then pure ()
    else do
      let f ← run .filealloc
      match (f : Option FSlot) with
      | none => pure ()
      | some f => do
        let fd ← fdalloc p f
        match fd with
        | none => fileclose f
        | some _ =>
          run (.setInode f (if ip.type = tDevice then .device else .inode)
            (omode &&& oWronly = 0) (omode &&& oWronly ≠ 0 ∨ omode &&& oRdwr ≠ 0))

/-- `pipealloc`, where `kalloc` returns `page`. -/
def pipealloc (page : Option ℕ) : Kernel P (Option (FSlot × FSlot)) := do
  let f0 ← run .filealloc
  match (f0 : Option FSlot) with
  | none => pure none
  | some f0 => do
    let f1 ← run .filealloc
    match (f1 : Option FSlot) with
    | none => do
      fileclose f0
      pure none
    | some f1 =>
      match page with
      | none => do
        fileclose f0
        fileclose f1
        pure none
      | some pi => do
        run (.kalloc pi)
        run (.setPipe f0 pi false)
        run (.setPipe f1 pi true)
        pure (some (f0, f1))

/-- `sys_pipe`; `copied` says whether both descriptors can be copied out. -/
def sysPipe (p : P) (page : Option ℕ) (copied : Bool) : Kernel P Unit := do
  let files ← pipealloc page
  match files with
  | none => pure ()
  | some (rf, wf) => do
    let fd0 ← fdalloc p rf
    match fd0 with
    | none => do
      fileclose rf
      fileclose wf
    | some fd0 => do
      let fd1 ← fdalloc p wf
      match fd1 with
      | none => do
        run (.setOfile p fd0 none)
        fileclose rf
        fileclose wf
      | some fd1 =>
        if copied then pure ()
        else do
          run (.setOfile p fd0 none)
          run (.setOfile p fd1 none)
          fileclose rf
          fileclose wf

/-- The loop of `fork` over the open files. -/
def forkFiles (p np : P) : List Desc → Kernel P Unit
  | [] => pure ()
  | fd :: fds => do
    let x ← run (.ofile p fd)
    match (x : Option FSlot) with
    | none => forkFiles p np fds
    | some f => do
      run (.filedup f)
      run (.setOfile np fd (some f))
      forkFiles p np fds

/-- `fork`, where `allocproc` returns `np`; `copied` says whether `uvmcopy` succeeds. -/
def fork (p : P) (np : Option P) (copied : Bool) : Kernel P Unit :=
  match np with
  | none => pure ()
  | some np => do
    run (.allocproc np)
    if copied then do
      forkFiles p np (List.finRange NOFILE)
      run (.ready np)
    else run (.freeproc np)

/-- The loop of `exit` over the open files. -/
def exitFiles (p : P) : List Desc → Kernel P Unit
  | [] => pure ()
  | fd :: fds => do
    let x ← run (.ofile p fd)
    match (x : Option FSlot) with
    | none => exitFiles p fds
    | some f => do
      fileclose f
      run (.setOfile p fd none)
      exitFiles p fds

/-- `exit`.  The parent may find the slot and use it again at any time after it. -/
def exit (p : P) : Kernel P Unit := do
  exitFiles p (List.finRange NOFILE)
  run (.exit p)

end Functions

/-! ### The system -/

inductive Call (P : Type)
  | start (p : P)
  | open (omode : BitVec 32) (ip : Option Inode)
  | pipe (page : Option ℕ) (copied : Bool)
  | dup (n : ℤ)
  | close (n : ℤ)
  | fork (np : Option P) (copied : Bool)
  | exit

/-- What a kernel thread does next: one that runs no process takes one that is ready, and a
process makes a system call. -/
def body {P : Type} : Call P → Option P → Option (Kernel P (Option P))
  | .start p, none => some do
      run (.start p)
      pure (some p)
  | .open omode ip, some p => some do
      sysOpen p omode ip
      pure (some p)
  | .pipe page copied, some p => some do
      sysPipe p page copied
      pure (some p)
  | .dup n, some p => some do
      sysDup p n
      pure (some p)
  | .close n, some p => some do
      sysClose p n
      pure (some p)
  | .fork np copied, some p => some do
      fork p np copied
      pure (some p)
  | .exit, some p => some do
      exit p
      pure none
  | _, _ => none

/-- Kernel threads `K` that run processes `P`. -/
abbrev Sys (K P : Type) := Pool (State P) K (Op P) Op.Result (Option P)

def step {K P : Type} [DecidableEq K] [DecidableEq P] :
    Sys K P → Act K (Call P) → Except Fault (Sys K P) :=
  poolStep exec body .disabled

/-- One process, which has no files open, is ready to run. -/
def boot {K P : Type} [DecidableEq P] (init : P) : Sys K P where
  shared :=
    { file := fun _ => {}, ofile := fun _ _ => none, pipe := fun _ => none
      used := fun p => p = init, ready := fun p => p = init }
  thread _ := .ret none

/-- The references are exact. -/
structure Exact {P : Type} [Fintype P] (s : State P) : Prop where
  /-- the count of an entry is the number of descriptors for it -/
  ref : ∀ f, (s.file f).ref = ∑ p, (Finset.univ.filter fun fd => s.ofile p fd = some f).card
  free : ∀ f, (s.file f).ref = 0 ↔ (s.file f).type = .none
  /-- a page is allocated if an entry refers to it -/
  page : ∀ pi, s.pipe pi ≠ none ↔ ∃ f, (s.file f).type = .pipe ∧ (s.file f).pipe = pi
  readopen : ∀ pi x, s.pipe pi = some x → (x.readopen = true ↔
    ∃ f, (s.file f).type = .pipe ∧ (s.file f).pipe = pi ∧ (s.file f).readable = true)
  writeopen : ∀ pi x, s.pipe pi = some x → (x.writeopen = true ↔
    ∃ f, (s.file f).type = .pipe ∧ (s.file f).pipe = pi ∧ (s.file f).writable = true)

end Hexv6.Fd
