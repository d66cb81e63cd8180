import Hexv6.Lib.Transition
import Hexv6.Sched.Proc

/-!
# The process table on several CPUs

The process table of all four scheduler builds, used by any number of CPUs at once.  A step
is what a CPU does to a slot while it holds the lock of that slot: a loop over the table that
takes the locks one after the other (`allocproc`, `kill`, `priority_updater`, `update_vals`)
takes one step for each slot, and other CPUs can act in between.  `Pc` says where a process
is in a system call that takes several steps.

Which process a scheduler chooses depends on the build; here any RUNNABLE process may be
dispatched on any idle CPU, and any sleeper may be woken at any time, so that the runs of
every build and every waker are among the runs of this machine.  The clock interrupt is
handled on CPU 0, whose process stands still meanwhile.

`clock`, `born` and `died` are not part of the kernel: they count the clock ticks since boot
without wrapping around, and record the count at the creation and at the exit of the
process of each slot.
-/

namespace Hexv6.Smp

open Function
open Sched (Slot Proc Chan u32 u64 i32 findZombie havekids)

/-- `struct proc` with its open files and its working directory. -/
structure Task extends Proc where
  ofile : Fin NOFILE → Option ℕ := fun _ => none
  cwd : Option ℕ := none

/-- The scheduler that the kernel is built with. -/
inductive Build
  | default
  | fcfs
  | pbs
  | mlfq
deriving DecidableEq

/-! ### Changes of one slot -/

namespace Task

/-- `allocproc` after the slot has been found and its memory allocated. -/
def allocproc (r : Task) (pid : ℤ) (ticks : ℕ) : Task :=
  { r with toProc := Proc.setup { r.toProc with pid := pid, state := .used, mask := 0 } ticks }

/-- `freeproc`, which leaves the open files and the working directory to `exit`. -/
def freeproc (r : Task) : Task := { r with toProc := r.toProc.freeproc }

/-- What `push` does to the process; only the MLFQ build calls it. -/
def push (build : Build) (q : ℤ) (r : Task) : Task :=
  if build = .mlfq then
    { r with
      currQ := if q < 0 then 0 else if q > 4 then 4 else q, rtime := 0, wtime := 0, atime := 0 }
  else r

/-- The assignments of `scheduler` before the switch, and `p->chan = 0` after it. -/
def dispatch (build : Build) (r : Task) : Task :=
  let r := { r with state := .running, chan := .null, nrunWhole := i32 (r.nrunWhole + 1) }
  match build with
  | .default => r
  | .fcfs => r
  | .pbs => { r with stime := 0, rtime := 0, niceness := 5, nrun := i32 (r.nrun + 1) }
  | .mlfq =>
    { r with
      rtime := 0, wtime := 0, nrun := i32 (r.nrun + 1), atime := 0
      qVal := fun i => if (i : ℤ) = r.currQ then i32 (r.qVal i + 1) else r.qVal i }

/-- What `kill` does to its victim. -/
def kill (build : Build) (r : Task) : Task :=
  let r := { r with killed := 1 }
  if r.state = .sleeping then push build 0 { r with state := .runnable } else r

/-- What `priority_updater` does to the process it looks for. -/
def setPriority (new : ℤ) (r : Task) : Task := { r with spriority := new, niceness := 5 }

/-- What `exit` does at its end. -/
def zombie (status : ℤ) (ticks : ℕ) (r : Task) : Task :=
  { r with xstate := status, state := .zombie, etime := ticks }

/-- The part of `fork` that copies the parent `p` into its child. -/
def copy (p : Task) (r : Task) : Task :=
  { r with sz := p.sz, mask := p.mask, ofile := p.ofile, cwd := p.cwd }

/-- The times that `waitx` computes: `*rtime_whole` and `*wtime_whole`. -/
def times (r : Task) : ℕ × ℕ :=
  (u32 r.rtimeWhole, u32 (u64 (r.etime + (2 ^ 64 - r.ctime) + (2 ^ 64 - r.rtimeWhole))))

end Task

/-! ### The machine -/

/-- Where a process is. -/
inductive Pc
  /-- not in one of the calls below -/
  | user
  /-- `fork`, at slot `k` of the loop of `allocproc` -/
  | alloc (k : ℕ)
  /-- `fork`, before `np->parent = p` -/
  | parent (np : Slot)
  /-- `fork`, before `np->state = RUNNABLE` -/
  | ready (np : Slot)
  /-- `exit`, at `fd` of the loop that closes the files -/
  | closing (status : ℤ) (fd : ℕ)
  /-- `exit`, before `p->cwd = 0` -/
  | leaving (status : ℤ)
  /-- `exit`, before it takes `wait_lock` -/
  | exiting (status : ℤ)
  /-- `kill`, at slot `k` -/
  | kill (pid : ℤ) (k : ℕ)
  /-- `priority_updater`, at slot `k` -/
  | setPriority (new pid : ℤ) (k : ℕ)
deriving DecidableEq

/-- What a process can ask for, or do to itself. -/
inductive Call
  | fork
  | exit (status : ℤ)
  | kill (pid : ℤ)
  | setPriority (new pid : ℤ)
  /-- `wait` and `waitx`; `copied` tells whether the exit status can be stored -/
  | wait (copied : Bool)
  /-- `open`, `dup`, `pipe`, `close` -/
  | file (fd : Fin NOFILE) (f : Option ℕ)
  | chdir (ip : ℕ)
  /-- `sbrk` and `exec` -/
  | size (sz : ℕ)
  | trace (mask : ℤ)
  /-- a trap that kills the process -/
  | fault
deriving DecidableEq

structure State where
  proc : Slot → Task := fun _ => {}
  pc : Slot → Pc := fun _ => .user
  cpu : ℕ → Option Slot := fun _ => none
  ticks : ℕ := 0
  /-- the slot that `update_vals` visits next, during a clock interrupt -/
  scan : Option ℕ := none
  nextpid : ℤ := 1
  initproc : Option Slot := none
  clock : ℕ := 0
  born : Slot → ℕ := fun _ => 0
  died : Slot → ℕ := fun _ => 0

inductive Action
  | userinit
  /-- the process of a CPU makes a call -/
  | call (c : ℕ) (x : Call)
  /-- the process of a CPU goes on in its call; `mem` and `copied` tell whether the memory of
  a new process can be allocated and copied -/
  | go (c : ℕ) (mem copied : Bool)
  | sleep (c : ℕ) (chan : Chan)
  | yield (c : ℕ)
  /-- the MLFQ build moves a process to another queue -/
  | requeue (q : Slot) (level : ℤ)
  | wake (q : Slot)
  | dispatch (c : ℕ) (q : Slot)
  /-- `ticks++` -/
  | tick
  /-- `update_vals` visits the next slot -/
  | visit
  /-- the end of `clockintr` -/
  | tock
deriving DecidableEq

inductive Fault
  | disabled
  /-- `panic("init exiting")` -/
  | initExiting
deriving DecidableEq

namespace State

/-- Change one slot. -/
def modify (st : State) (q : Slot) (f : Task → Task) : State :=
  { st with proc := update st.proc q (f (st.proc q)) }

/-- Process `p` goes on to `x`. -/
def goto (st : State) (p : Slot) (x : Pc) : State :=
  { st with pc := update st.pc p x }

/-- The process of a CPU that can act: CPU 0 is busy during a clock interrupt. -/
def current (st : State) (c : ℕ) : Option Slot :=
  if c = 0 ∧ st.scan.isSome then none else st.cpu c

/-- The process of CPU `c` gives up the CPU in state `s`. -/
def leave (st : State) (c : ℕ) (p : Slot) (f : Task → Task) : State :=
  { st.modify p f with cpu := update st.cpu c none }

end State

/-- `reparent(p)`, without its wakeups. -/
def reparent (t : Slot → Task) (initproc : Option Slot) (p : Slot) : Slot → Task := fun q =>
  if (t q).parent = some p then { t q with parent := initproc } else t q

/-- A new process in slot `np`, made by `allocproc` for the parent `p`. -/
def create (st : State) (p np : Slot) (mem copied : Bool) : State :=
  let found := { st with nextpid := i32 (st.nextpid + 1) }
  if mem && copied then
    { (found.modify np fun r => Task.copy (st.proc p) (r.allocproc st.nextpid st.ticks)) with
      pc := update (update st.pc np .user) p (.parent np)
      born := update st.born np st.clock }
  else
    -- `freeproc` undoes what `allocproc` has done so far
    (found.modify np fun r =>
      if mem then (r.allocproc st.nextpid st.ticks).freeproc
      else Task.freeproc { r with pid := st.nextpid, state := .used, mask := 0 }).goto p .user

/-- The process `p` of CPU `c` makes a call. -/
def call (st : State) (c : ℕ) (p : Slot) : Call → Except Fault State
  | .fork => .ok (st.goto p (.alloc 0))
  | .exit status =>
    if st.initproc = some p then .error .initExiting else .ok (st.goto p (.closing status 0))
  | .kill pid => .ok (st.goto p (.kill pid 0))
  | .setPriority new pid => .ok (st.goto p (.setPriority new pid 0))
  | .wait copied =>
    let t : Slot → Proc := fun q => (st.proc q).toProc
    match findZombie t p with
    | some np => if copied then .ok (st.modify np Task.freeproc) else .ok st
    | none =>
      if ¬ havekids t p ∨ (st.proc p).killed ≠ 0 then .ok st
      else .ok (st.leave c p fun r => { r with chan := .proc p, state := .sleeping })
  | .file fd f => .ok (st.modify p fun r => { r with ofile := update r.ofile fd f })
  | .chdir ip => .ok (st.modify p fun r => { r with cwd := some ip })
  | .size sz => .ok (st.modify p fun r => { r with sz := sz })
  | .trace mask => .ok (st.modify p fun r => { r with mask := mask })
  | .fault => .ok (st.modify p fun r => { r with killed := 1 })

/-- The process `p` of CPU `c` goes on in its call. -/
def go (build : Build) (st : State) (c : ℕ) (p : Slot) (mem copied : Bool) : Except Fault State :=
  match st.pc p with
  | .user => .error .disabled
  | .alloc k =>
    if h : k < NPROC then
      if (st.proc ⟨k, h⟩).state = .unused then .ok (create st p ⟨k, h⟩ mem copied)
      else .ok (st.goto p (.alloc (k + 1)))
    else .ok (st.goto p .user)
  | .parent np => .ok ((st.modify np fun r => { r with parent := some p }).goto p (.ready np))
  | .ready np =>
    .ok ((st.modify np fun r => .push build 0 { r with state := .runnable }).goto p .user)
  | .closing status fd =>
    if h : fd < NOFILE then
      .ok ((st.modify p fun r => { r with ofile := update r.ofile ⟨fd, h⟩ none }).goto p
        (.closing status (fd + 1)))
    else .ok (st.goto p (.leaving status))
  | .leaving status => .ok ((st.modify p fun r => { r with cwd := none }).goto p (.exiting status))
  | .exiting status =>
    .ok { ({ st with proc := reparent st.proc st.initproc p }).leave c p
        (Task.zombie status st.ticks) with
      died := update st.died p st.clock }
  | .kill pid k =>
    if h : k < NPROC then
      if (st.proc ⟨k, h⟩).pid = pid then .ok ((st.modify ⟨k, h⟩ (Task.kill build)).goto p .user)
      else .ok (st.goto p (.kill pid (k + 1)))
    else .ok (st.goto p .user)
  | .setPriority new pid k =>
    if h : k < NPROC then
      if (st.proc ⟨k, h⟩).pid = pid then
        .ok ((st.modify ⟨k, h⟩ (Task.setPriority new)).goto p (.setPriority new pid (k + 1)))
      else .ok (st.goto p (.setPriority new pid (k + 1)))
    else .ok (st.goto p .user)

/-- Something that the process of CPU `c` does. -/
def running (st : State) (c : ℕ) (f : Slot → Except Fault State) : Except Fault State :=
  match st.current c with
  | some p => f p
  | none => .error .disabled

/-- One step of the machine. -/
def step (build : Build) (st : State) : Action → Except Fault State
  | .userinit =>
    -- interrupts are still off
    if st.initproc = none ∧ (st.proc 0).state = .unused ∧ st.scan = none then
      .ok { (st.modify 0 fun r => Task.push build 0
          { r.allocproc st.nextpid st.ticks with
            sz := PGSIZE, cwd := some 1, state := .runnable }) with
        pc := update st.pc 0 .user
        nextpid := i32 (st.nextpid + 1), initproc := some 0
        born := update st.born 0 st.clock }
    else .error .disabled
  | .call c x => running st c fun p => if st.pc p = .user then call st c p x else .error .disabled
  | .go c mem copied => running st c fun p => go build st c p mem copied
  | .sleep c chan =>
    running st c fun p => .ok (st.leave c p fun r => { r with chan := chan, state := .sleeping })
  | .yield c => running st c fun p => .ok (st.leave c p fun r => { r with state := .runnable })
  | .requeue q level => .ok (st.modify q (.push build level))
  | .wake q =>
    if (st.proc q).state = .sleeping then .ok (st.modify q fun r => { r with state := .runnable })
    else .error .disabled
  | .dispatch c q =>
    if st.cpu c = none ∧ (st.proc q).state = .runnable ∧ ¬ (c = 0 ∧ st.scan.isSome) then
      .ok { st.modify q (Task.dispatch build) with cpu := update st.cpu c (some q) }
    else .error .disabled
  | .tick =>
    match st.scan with
    | none => .ok { st with ticks := u32 (st.ticks + 1), clock := st.clock + 1, scan := some 0 }
    | some _ => .error .disabled
  | .visit =>
    match st.scan with
    | some k =>
      if h : k < NPROC then
        .ok { (st.modify ⟨k, h⟩ fun r => { r with toProc := r.toProc.updateVals }) with
          scan := some (k + 1) }
      else .error .disabled
    | none => .error .disabled
  | .tock => if st.scan = some NPROC then .ok { st with scan := none } else .error .disabled

/-- The state at boot. -/
def boot : State := {}

end Hexv6.Smp
