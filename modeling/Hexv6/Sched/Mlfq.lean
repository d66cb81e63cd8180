import Hexv6.Sched.Queue

/-!
# The MLFQ build as a state machine

The system calls, traps and scheduler rounds of the MLFQ build on one CPU, each as a
function on the `Kernel` state, and `step`, which takes one of them.

A step runs up to the next point where the CPU can be given to someone else: a system
call to its return or to its `sleep`, a trap to its end, a scheduler round up to the
`swtch` to the process it chose.  System calls and traps hold the locks of what they
change, or have interrupts off.  The scheduler does not: it goes through the queues with
interrupts on and without a lock.  What an interrupt changes meanwhile is the states and
counters of processes, not the queues, so a round is one step here, and
`Hexv6.Sched.Round` takes it apart for what depends on the process that it finds.  A
process that comes back from `sleep` clears its channel before anything else, so that
assignment is part of the dispatch.
-/

namespace Hexv6.Sched

open Lib Function

/-- `AGE_LIMIT` of `kernel/proc.c`. -/
def ageLimit : ℕ := 30

/-- `q_ticks` of `kernel/proc.c`. -/
def qTicks : Fin 5 → ℕ := ![1, 2, 4, 8, 16]

/-- `q_tick` of `kernel/trap.c`. -/
def qTick : Fin 5 → ℕ := ![1, 2, 4, 8, 16]

/-- The index of an array of five cells. -/
def index (q : ℤ) : Except Fault (Fin 5) :=
  if 0 ≤ q ∧ q ≤ 4 then .ok (clamp q) else .error .outOfRow

/-! ### Processes come and go -/

/-- `userinit`. -/
def userinit (k : Kernel) : Except Fault Kernel :=
  match allocproc k.proc k.nextpid k.ticks true with
  | (_, _, none) => .error .nullEntry
  | (t, n, some p) =>
    push { k with
      queues := fun _ _ => none
      proc := update t p { t p with sz := PGSIZE, state := .runnable }
      nextpid := n, initproc := some p } p 0

/-- `fork`, called by `p`; `mem` and `copied` tell whether `allocproc` gets its memory and
whether `uvmcopy` succeeds. -/
def fork (k : Kernel) (p : Slot) (mem copied : Bool) : Except Fault Kernel :=
  match allocproc k.proc k.nextpid k.ticks mem with
  | (t, n, none) => .ok { k with proc := t, nextpid := n }
  | (t, n, some np) =>
    if copied then
      let child :=
        { t np with
          sz := (t p).sz, mask := (t p).mask, parent := some p, state := .runnable }
      push { k with proc := update t np child, nextpid := n } np 0
    else
      .ok { k with proc := update t np (t np).freeproc, nextpid := n }

/-- `exit(status)`, called by `p`. -/
def exit (k : Kernel) (p : Slot) (status : ℤ) : Except Fault Kernel :=
  if k.initproc = some p then .error (.panic "init exiting")
  else
    let t := reparent k.proc k.cpu k.initproc p
    let t := wakeup t k.cpu (.ofPtr (t p).parent)
    .ok { k with
      proc := update t p { t p with xstate := status, state := .zombie, etime := k.ticks }
      cpu := none }

/-- `sleep(chan, lk)`, called by `p`. -/
def sleep (k : Kernel) (p : Slot) (chan : Chan) : Kernel :=
  { k with
    proc := update k.proc p { k.proc p with chan := chan, state := .sleeping }
    cpu := none }

/-- One turn of the loop of `wait`, called by `p`; `copied` tells whether the exit status
can be stored. -/
def wait (k : Kernel) (p : Slot) (copied : Bool) : Kernel :=
  match findZombie k.proc p with
  | some np =>
    if copied then { k with proc := update k.proc np (k.proc np).freeproc } else k
  | none =>
    if ¬ havekids k.proc p ∨ (k.proc p).killed ≠ 0 then k else sleep k p (.proc p)

/-- One turn of the loop of `waitx`, with the running and waiting times it stores. -/
def waitx (k : Kernel) (p : Slot) (copied : Bool) : Kernel × Option (ℕ × ℕ) :=
  match findZombie k.proc p with
  | some np =>
    let c := k.proc np
    let times := (u32 c.rtimeWhole,
      u32 (u64 (c.etime + (2 ^ 64 - c.ctime) + (2 ^ 64 - c.rtimeWhole))))
    if copied then
      ({ k with proc := update k.proc np c.freeproc }, some times)
    else (k, some times)
  | none =>
    if ¬ havekids k.proc p ∨ (k.proc p).killed ≠ 0 then (k, none)
    else (sleep k p (.proc p), none)

/-- `kill(pid)`. -/
def kill (k : Kernel) (pid : ℤ) : Except Fault Kernel :=
  match findPid k.proc pid with
  | none => .ok k
  | some p =>
    let victim := { k.proc p with killed := 1 }
    if victim.state = .sleeping then
      push { k with proc := update k.proc p { victim with state := .runnable } } p 0
    else .ok { k with proc := update k.proc p victim }

/-- `yield`, called by `p`. -/
def yield (k : Kernel) (p : Slot) : Kernel :=
  { k with proc := update k.proc p { k.proc p with state := .runnable }, cpu := none }

/-! ### Timer traps -/

/-- `clockintr`. -/
def clockintr (k : Kernel) : Kernel :=
  { k with ticks := u32 (k.ticks + 1), proc := wakeup (updateVals k.proc) k.cpu .ticks }

/-- `pop(p); int q = p->curr_q+1; push(p, q); yield();` -/
def demote (k : Kernel) (p : Slot) : Except Fault Kernel := do
  let k ← pop k p
  let k ← push k p ((k.proc p).currQ + 1)
  return yield k p

/-- `usertrap` on a timer interrupt, while `p` runs. -/
def usertrap (k : Kernel) (p : Slot) : Except Fault Kernel :=
  let k := clockintr k
  if (k.proc p).killed ≠ 0 then exit k p (-1) else demote k p

/-- `kerneltrap` on a timer interrupt. -/
def kerneltrap (k : Kernel) : Except Fault Kernel :=
  let k := clockintr k
  match k.cpu with
  | none => .ok k
  | some p =>
    if (k.proc p).state = .running then do
      let c ← index (k.proc p).currQ
      if (k.proc p).rtime > qTick c then demote k p else return k
    else .ok k

/-! ### Scheduler rounds -/

/-- The inner loop of the aging pass over queue `i`, from position `j` on.  The bound is
read again in each turn.  A turn never makes the queue longer, so the loop takes at most
as many turns as the queue has entries. -/
def ageRow : ℕ → Kernel → Fin 5 → ℕ → Except Fault Kernel
  | 0, k, _, _ => .ok k
  | fuel + 1, k, i, j =>
    if j < rowLen k i then do
      let p ← entry k i j
      if (k.proc p).atime > ageLimit then do
        let k ← pop k p
        let k ← push k p ((i : ℕ) - 1 : ℤ)
        ageRow fuel k i (j + 1)
      else ageRow fuel k i (j + 1)
    else .ok k

/-- The aging pass of `scheduler`. -/
def agingPass (k : Kernel) : Except Fault Kernel :=
  (List.finRange 5).foldlM (fun k i => ageRow (NPROC + 1) k i 0) k

/-- The first of the positions `js` of queue `i` whose process is runnable. -/
def selectRow (k : Kernel) (i : Fin 5) : List ℕ → Except Fault (Option Slot)
  | [] => .ok none
  | j :: js => do
    let p ← entry k i j
    if (k.proc p).state = .runnable then return some p else selectRow k i js

/-- The selection loop of `scheduler` over the queues `is`. -/
def select (k : Kernel) : List (Fin 5) → Except Fault (Option Slot)
  | [] => .ok none
  | i :: is => do
    match ← selectRow k i (List.range (rowLen k i)) with
    | some p => return some p
    | none => select k is

/-- The switch of `scheduler` to the process it chose. -/
def dispatch (k : Kernel) (p : Slot) : Except Fault Kernel :=
  if (k.proc p).state = .runnable then do
    let c ← index (k.proc p).currQ
    let r := k.proc p
    return { k with
      proc := update k.proc p
        { r with
          state := .running, chan := .null, rtime := 0, wtime := 0, nrun := i32 (r.nrun + 1)
          nrunWhole := i32 (r.nrunWhole + 1), atime := 0
          qVal := update r.qVal c (i32 (r.qVal c + 1)) }
      cpu := some p }
  else .ok k

/-- One round of the loop of `scheduler`, without interrupts. -/
def scheduler (k : Kernel) : Except Fault Kernel := do
  let k ← agingPass k
  match ← select k (List.finRange 5) with
  | none => return k
  | some p => dispatch k p

/-! ### The machine -/

/-- The actions: what the running process calls, what interrupts bring, and the rounds
of the scheduler.  `usertrap` and `kerneltrap` are timer interrupts. -/
inductive Action
  | userinit
  | fork (mem copied : Bool)
  | exit (status : ℤ)
  | wait (copied : Bool)
  | waitx (copied : Bool)
  | sleep (chan : Chan)
  | wakeup (chan : Chan)
  | kill (pid : ℤ)
  | yield
  | usertrap
  | kerneltrap
  | scheduler
deriving DecidableEq, Repr

/-- Something the running process does. -/
def running (k : Kernel) (f : Slot → Except Fault Kernel) : Except Fault Kernel :=
  match k.cpu with
  | none => .error .disabled
  | some p => f p

/-- One step of the machine.  `userinit` happens once, the scheduler runs while the CPU
has no process, and a wakeup may come from an interrupt at any time. -/
def step (k : Kernel) : Action → Except Fault Kernel
  | .userinit => if k.initproc = none then userinit k else .error .disabled
  | .fork mem copied => running k fun p => fork k p mem copied
  | .exit status => running k fun p => exit k p status
  | .wait copied => running k fun p => .ok (wait k p copied)
  | .waitx copied => running k fun p => .ok (waitx k p copied).1
  | .sleep chan => running k fun p => .ok (sleep k p chan)
  | .wakeup chan => .ok { k with proc := wakeup k.proc k.cpu chan }
  | .kill pid => running k fun _ => kill k pid
  | .yield => running k fun p => .ok (yield k p)
  | .usertrap => running k fun p => usertrap k p
  | .kerneltrap => kerneltrap k
  | .scheduler => if k.cpu = none then scheduler k else .error .disabled

/-- The state at boot. -/
def boot : Kernel := {}

end Hexv6.Sched
