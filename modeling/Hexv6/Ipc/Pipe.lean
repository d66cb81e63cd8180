import Hexv6.Lib.FreeRing
import Hexv6.Lib.Monitor
import Hexv6.Sched.Proc

/-!
# Pipes

`struct pipe` of `kernel/pipe.c` and the functions `pipewrite`, `piperead` and `pipeclose`,
as the moves of a monitor (`Lib.Monitor`): `pi->lock` is the monitor's lock, and the
channels are the addresses `&pi->nread` and `&pi->nwrite`.  A move makes at most one of a test
of `pr->killed`, a change of the pipe, and a call of `wakeup`, `sleep` or `release`, so a process
can be killed between any two of these: between two bytes of a write, and also after the test
and before the byte is stored.

User memory does not change while its process is in the kernel; `src i` is the byte that
`copyin` finds at `addr + i`, and `dst i` tells whether `copyout` can store at `addr + i`.

`accepted` and `delivered` are not part of the kernel: they record the bytes that were put
into the ring, and the bytes that were stored in the buffer of a reader, in the order in
which that happened.
-/

namespace Hexv6.Ipc

open Lib

abbrev Byte := BitVec 8

/-- `PIPESIZE`. -/
def PIPESIZE : ℕ := 512

instance : NeZero PIPESIZE := ⟨by decide⟩

/-- `struct pipe` without its lock. -/
structure Pipe where
  data : Fin PIPESIZE → Byte
  nread : BitVec 32 := 0
  nwrite : BitVec 32 := 0
  readopen : Bool := true
  writeopen : Bool := true
  /-- the page of the pipe has been given back with `kfree` -/
  freed : Bool := false
  accepted : List Byte := []
  delivered : List Byte := []

/-- `pi->nwrite == pi->nread + PIPESIZE`. -/
def Pipe.isFull (pi : Pipe) : Bool := pi.nwrite = pi.nread + BitVec.ofNat 32 PIPESIZE

/-- `pi->nread == pi->nwrite`. -/
def Pipe.isEmpty (pi : Pipe) : Bool := pi.nread = pi.nwrite

/-- The bytes in the ring, the oldest first. -/
def Pipe.contents (pi : Pipe) : List Byte := FreeRing.contents pi.data pi.nread pi.nwrite

/-- `pi->data[pi->nwrite++ % PIPESIZE] = ch`. -/
def Pipe.put (pi : Pipe) (ch : Byte) : Pipe :=
  { pi with
    data := Function.update pi.data (FreeRing.cell PIPESIZE pi.nwrite) ch
    nwrite := pi.nwrite + 1
    accepted := pi.accepted ++ [ch] }

/-- `pi->data[pi->nread++ % PIPESIZE]`, which goes to a reader's buffer if `stored`. -/
def Pipe.take (pi : Pipe) (stored : Bool) : Pipe :=
  let ch := pi.data (FreeRing.cell PIPESIZE pi.nread)
  { pi with
    nread := pi.nread + 1
    delivered := if stored then pi.delivered ++ [ch] else pi.delivered }

/-- `if(writable) pi->writeopen = 0; else pi->readopen = 0;` -/
def Pipe.shut (pi : Pipe) (writable : Bool) : Pipe :=
  if writable then { pi with writeopen := false } else { pi with readopen := false }

/-! ### The functions of `pipe.c` -/

/-- The addresses that processes sleep on. -/
inductive Chan
  | nread
  | nwrite
deriving DecidableEq

/-- The calls. -/
inductive Call
  | write (n : ℤ) (src : ℕ → Option Byte)
  | read (n : ℤ) (dst : ℕ → Bool)
  | close (writable : Bool)

/-- The places where a process that holds `pi->lock` can be. -/
inductive Place
  /-- the head of the loop of `pipewrite` -/
  | writing (n : ℤ) (src : ℕ → Option Byte) (i : ℕ)
  /-- after the test of `pr->killed` in `pipewrite` -/
  | storing (n : ℤ) (src : ℕ → Option Byte) (i : ℕ)
  /-- the call of `sleep` in `pipewrite` -/
  | full (n : ℤ) (src : ℕ → Option Byte) (i : ℕ)
  /-- the head of the `while` loop of `piperead` -/
  | reading (n : ℤ) (dst : ℕ → Bool)
  /-- the call of `sleep` in `piperead` -/
  | empty (n : ℤ) (dst : ℕ → Bool)
  /-- the head of the `for` loop of `piperead` -/
  | copying (n : ℤ) (dst : ℕ → Bool) (i : ℕ)
  /-- after the `for` loop of `piperead` -/
  | copied (i : ℕ)
  /-- the start of `pipeclose` -/
  | closing (writable : Bool)
  /-- the call of `wakeup` in `pipeclose` -/
  | shut (writable : Bool)
  /-- the last `if` of `pipeclose` -/
  | closed
  /-- `release(&pi->lock); return r;` -/
  | finish (r : ℤ)

abbrev Move := Monitor.Move Pipe Chan Place ℤ

/-- The head of the loop of `pipewrite`, as far as the test of `pr->killed`. -/
def pipewrite (killed : Bool) (pi : Pipe) (n : ℤ) (src : ℕ → Option Byte) (i : ℕ) : Move :=
  if (i : ℤ) < n then
    if pi.readopen = false ∨ killed then .release pi (-1) else .go pi (.storing n src i)
  else .wakeup .nread (.finish i)

/-- The rest of a turn of the loop of `pipewrite`. -/
def pipestore (pi : Pipe) (n : ℤ) (src : ℕ → Option Byte) (i : ℕ) : Move :=
  if pi.isFull then .wakeup .nread (.full n src i)
  else
    match src i with
    | none => .wakeup .nread (.finish i)
    | some ch => .go (pi.put ch) (.writing n src (i + 1))

/-- The head of the `while` loop of `piperead`, as far as the test of `pr->killed`. -/
def piperead (killed : Bool) (pi : Pipe) (n : ℤ) (dst : ℕ → Bool) : Move :=
  if pi.isEmpty ∧ pi.writeopen then
    if killed then .release pi (-1) else .go pi (.empty n dst)
  else .go pi (.copying n dst 0)

/-- A turn of the `for` loop of `piperead`. -/
def pipecopy (pi : Pipe) (n : ℤ) (dst : ℕ → Bool) (i : ℕ) : Move :=
  if (i : ℤ) < n then
    if pi.isEmpty then .go pi (.copied i)
    else if dst i then .go (pi.take true) (.copying n dst (i + 1))
    else .go (pi.take false) (.copied i)
  else .go pi (.copied i)

def move (killed : Bool) (pi : Pipe) : Place → Move
  | .writing n src i => pipewrite killed pi n src i
  | .storing n src i => pipestore pi n src i
  | .full n src i => .sleep .nwrite (.writing n src i)
  | .reading n dst => piperead killed pi n dst
  | .empty n dst => .sleep .nread (.reading n dst)
  | .copying n dst i => pipecopy pi n dst i
  | .copied i => .wakeup .nwrite (.finish i)
  | .closing writable => .go (pi.shut writable) (.shut writable)
  | .shut writable => .wakeup (if writable then .nread else .nwrite) .closed
  | .closed =>
    if pi.readopen = false ∧ pi.writeopen = false then .release { pi with freed := true } 0
    else .release pi 0
  | .finish r => .release pi r

def code : Monitor.Code Call Pipe Chan Place ℤ where
  entry
    | .write n src => .writing n src 0
    | .read n dst => .reading n dst
    | .close writable => .closing writable
  move := move
  alive pi := !pi.freed

/-! ### The machine -/

abbrev State := Monitor.State Sched.Slot Pipe Chan Place ℤ

abbrev Action := Monitor.Action Sched.Slot Call

/-- Any number of calls on one pipe, by the processes of the process table. -/
def step (st : State) (a : Action) : Except Monitor.Fault State :=
  Monitor.step code Sched.slots st a

/-- The pipe as `pipealloc` leaves it; the page from `kalloc` has arbitrary contents. -/
def pipealloc (data : Fin PIPESIZE → Byte) : Pipe := { data }

/-- Nobody has called anything yet. -/
def boot (data : Fin PIPESIZE → Byte) (killed : Sched.Slot → Bool) : State :=
  Monitor.init (pipealloc data) killed

end Hexv6.Ipc
