import Hexv6.Smp.Effect

/-!
# Parents and children

`fork`, `exit`, `wait` and `waitx` at the level of their locks: `wait_lock`, and the lock of every
slot.  `exit` gives its children to the first process and wakes that process for every one of
them, wakes its own parent, and becomes a ZOMBIE before it releases `wait_lock`.  `wait` looks
through the table with `wait_lock` held; when it finds children but no ZOMBIE it goes to sleep on
its own slot, which takes the lock of the process before it releases `wait_lock`.  `waitx` differs
from `wait` in the times it returns only.

A process is RUNNING while it takes steps; which of the RUNNABLE processes run is left open.  A
change of a slot that takes its lock, changes it and releases the lock again is one step, which
waits while somebody has the lock.  The other sleeps of the kernel, on channels that are not
slots, and `kill` can come at any time.

`life`, `exited` and `returned` are history: how often a slot has been freed, and what has been
passed to `exit` and returned by `wait`.
-/

namespace Hexv6.Smp.Family

open Lib
open Sched (Slot ProcState Chan)

/-! ### The machine -/

/-- The process that gets the orphans: `initproc`. -/
def initproc : Slot := 0

/-- Why a process in `exit` is in `wakeup`. -/
inductive Cause
  /-- `wakeup(initproc)`, for the child in slot `k` -/
  | orphan (k : Slot)
  /-- `wakeup(p->parent)` -/
  | parent
deriving DecidableEq

/-- Where a process is. -/
inductive Phase
  | out
  /-- in `reparent`, before slot `k` -/
  | reparenting (k : ℕ)
  /-- in `wakeup`, before slot `j` -/
  | waking (κ : Cause) (j : ℕ)
  /-- in `wakeup` with the lock of slot `j`, before the test -/
  | looking (κ : Cause) (j : Slot)
  /-- in `wakeup` with the lock of slot `j`, after the test -/
  | looked (κ : Cause) (j : Slot)
  /-- in `exit`, before `acquire(&p->lock)` -/
  | last
  /-- in `exit`, with its own lock -/
  | dying
  /-- in `wait`, before slot `k`; whether a child has been seen -/
  | scan (k : ℕ) (havekids : Bool)
  /-- in `wait` with the lock of its child `k`, before the test -/
  | child (k : Slot)
  /-- in `wait` with the lock of its child `k`, which is not a ZOMBIE -/
  | passing (k : Slot)
  /-- in `wait` with the lock of slot `k`, about to return -/
  | leaving (k : Slot)
  /-- in `sleep`, before `acquire(&p->lock)` -/
  | drowsy
  /-- in `sleep` with its own lock, before `release(&wait_lock)` -/
  | nodding
  /-- in `sleep` with its own lock, before `p->state = SLEEPING` -/
  | dozing
  /-- in `sleep`, after it has given up the CPU -/
  | slept
deriving DecidableEq

/-- What `wait` or `waitx` has returned. -/
structure Return where
  slot : Slot
  life : ℕ
  caller : Slot
  pid : ℤ
  xstate : ℤ
deriving DecidableEq

structure State where
  proc : Slot → Task
  /-- `p->lock`: the process that holds it, or has held it when it gave up the CPU -/
  lock : Slot → Option Slot
  waitLock : Option Slot
  phase : Slot → Phase
  /-- the new process of a `fork` in progress -/
  child : Slot → Option Slot
  life : Slot → ℕ
  exited : List (Slot × ℕ × ℤ × ℤ)
  returned : List Return

inductive Action
  | dispatch (q : Slot)
  | yield (p : Slot)
  | sleep (p : Slot) (chan : Chan)
  /-- the scheduler releases the lock of a process that has given up the CPU -/
  | switched (q : Slot)
  | kill (q : Slot)
  | wakeup (q : Slot) (chan : Chan)
  /-- `fork`: `allocproc`, `freeproc` when memory is short, `np->parent = p`, and the end -/
  | alloc (p q : Slot) (pid : ℤ) (ticks : ℕ)
  | undo (p : Slot)
  | setParent (p : Slot)
  | ready (p : Slot)
  /-- `exit`: `acquire(&wait_lock)`, `reparent`, `wakeup`, and the end -/
  | exit (p : Slot)
  | reparent (p : Slot)
  | visit (p : Slot)
  | look (p : Slot)
  | next (p : Slot)
  | lockSelf (p : Slot)
  | die (p : Slot) (status : ℤ) (ticks : ℕ)
  /-- `wait`: `acquire(&wait_lock)`, the loop, a ZOMBIE child whose status can be copied or
  not, another child, and `sleep` -/
  | wait (p : Slot)
  | scan (p : Slot)
  | collect (p : Slot)
  | refuse (p : Slot)
  | pass (p : Slot)
  | following (p : Slot)
  | leave (p : Slot)
  | nod (p : Slot)
  | doze (p : Slot)
  | rest (p : Slot)

/-- The process has no lock of the protocol and may be interrupted. -/
def Phase.idle : Phase → Bool
  | .out | .slept => true
  | _ => false

/-- A channel that is not a slot. -/
def isOther : Chan → Bool
  | .proc _ => false
  | _ => true

namespace State

def modify (s : State) (q : Slot) (f : Task → Task) : State :=
  { s with proc := Function.update s.proc q (f (s.proc q)) }

def goto (s : State) (p : Slot) (x : Phase) : State :=
  { s with phase := Function.update s.phase p x }

def setLock (s : State) (q : Slot) (x : Option Slot) : State :=
  { s with lock := Function.update s.lock q x }

def setChild (s : State) (p : Slot) (x : Option Slot) : State :=
  { s with child := Function.update s.child p x }

/-- The channel of a `wakeup` in `exit`. -/
def chan (s : State) (p : Slot) : Cause → Chan
  | .orphan _ => .proc initproc
  | .parent => match (s.proc p).parent with
      | some r => .proc r
      | none => .null

/-- A step that is taken when a condition holds. -/
def when (s : State) (c : Bool) : Except Fault State := if c then .ok s else .error .disabled

end State

/-- What `wakeup(chan)` does to a slot. -/
def wake (chan : Chan) (r : Task) : Task :=
  if r.state = .sleeping ∧ r.chan = chan then { r with state := .runnable } else r

/-- What `wait` returns for the child in slot `k`. -/
def State.result (s : State) (p k : Slot) : Return :=
  ⟨k, s.life k, p, (s.proc k).pid, (s.proc k).xstate⟩

def step (build : Build) (s : State) : Action → Except Fault State
  | .dispatch q =>
    (s.modify q (Task.dispatch build)).when ((s.proc q).state = .runnable ∧ s.lock q = none)
  | .yield p =>
    (s.modify p fun r => { r with state := .runnable }).when
      ((s.proc p).state = .running ∧ (s.phase p).idle ∧ s.lock p = none)
  | .sleep p chan =>
    (s.modify p fun r => { r with chan := chan, state := .sleeping }).when
      ((s.proc p).state = .running ∧ s.phase p = .out ∧ s.lock p = none ∧ isOther chan)
  | .switched q =>
    (s.setLock q none).when ((s.proc q).state ≠ .running ∧ s.lock q = some q)
  | .kill q => (s.modify q (Task.kill build)).when (s.lock q = none)
  | .wakeup q chan => (s.modify q (wake chan)).when (s.lock q = none)
  | .alloc p q pid ticks =>
    ((s.modify q fun r => r.allocproc pid ticks).setChild p (some q)).when
      ((s.proc p).state = .running ∧ s.phase p = .out ∧ s.child p = none ∧
        (s.proc q).state = .unused ∧ s.lock q = none)
  | .undo p =>
    match s.child p with
    | some np => ((s.modify np Task.freeproc).setChild p none).when
        ((s.proc p).state = .running ∧ s.phase p = .out ∧ s.lock np = none)
    | none => .error .disabled
  | .setParent p =>
    match s.child p with
    | some np => (s.modify np fun r => { r with parent := some p }).when
        ((s.proc p).state = .running ∧ s.phase p = .out ∧ s.waitLock = none)
    | none => .error .disabled
  | .ready p =>
    match s.child p with
    | some np => ((s.modify np fun r => .push build 0 { r with state := .runnable }).setChild p
          none).when
        ((s.proc p).state = .running ∧ s.phase p = .out ∧ s.lock np = none ∧
          (s.proc np).parent = some p)
    | none => .error .disabled
  | .exit p =>
    if p = initproc ∧ (s.proc p).state = .running then .error .initExiting
    else ({ s.goto p (.reparenting 0) with waitLock := some p } : State).when
      ((s.proc p).state = .running ∧ s.phase p = .out ∧ s.child p = none ∧ s.waitLock = none)
  | .reparent p =>
    match s.phase p with
    | .reparenting k =>
      if h : k < NPROC then
        if (s.proc ⟨k, h⟩).parent = some p then
          .ok ((s.modify ⟨k, h⟩ fun r => { r with parent := some initproc }).goto p
            (.waking (.orphan ⟨k, h⟩) 0))
        else .ok (s.goto p (.reparenting (k + 1)))
      else .ok (s.goto p (.waking .parent 0))
    | _ => .error .disabled
  | .visit p =>
    match s.phase p with
    | .waking κ j =>
      if h : j < NPROC then
        if p = ⟨j, h⟩ then .ok (s.goto p (.waking κ (j + 1)))
        else ((s.setLock ⟨j, h⟩ (some p)).goto p (.looking κ ⟨j, h⟩)).when
          (s.lock ⟨j, h⟩ = none)
      else match κ with
        | .orphan k => .ok (s.goto p (.reparenting (k + 1)))
        | .parent => .ok (s.goto p .last)
    | _ => .error .disabled
  | .look p =>
    match s.phase p with
    | .looking κ j => .ok ((s.modify j (wake (s.chan p κ))).goto p (.looked κ j))
    | _ => .error .disabled
  | .next p =>
    match s.phase p with
    | .looked κ j => .ok ((s.setLock j none).goto p (.waking κ (j + 1)))
    | _ => .error .disabled
  | .lockSelf p =>
    ((s.setLock p (some p)).goto p .dying).when (s.phase p = .last ∧ s.lock p = none)
  | .die p status ticks =>
    ({ (s.modify p (Task.zombie status ticks)).goto p .out with
      waitLock := none
      exited := s.exited ++ [(p, s.life p, (s.proc p).pid, status)] } : State).when
      (s.phase p = .dying)
  | .wait p =>
    ({ s.goto p (.scan 0 false) with waitLock := some p } : State).when
      ((s.proc p).state = .running ∧ (s.phase p).idle ∧ s.child p = none ∧ s.waitLock = none)
  | .scan p =>
    match s.phase p with
    | .scan k havekids =>
      if h : k < NPROC then
        if (s.proc ⟨k, h⟩).parent = some p then
          ((s.setLock ⟨k, h⟩ (some p)).goto p (.child ⟨k, h⟩)).when (s.lock ⟨k, h⟩ = none)
        else .ok (s.goto p (.scan (k + 1) havekids))
      else if havekids = false ∨ (s.proc p).killed ≠ 0 then
        .ok { s.goto p .out with waitLock := none }
      else .ok (s.goto p .drowsy)
    | _ => .error .disabled
  | .collect p =>
    match s.phase p with
    | .child k =>
      ({ (s.modify k Task.freeproc).goto p (.leaving k) with
        life := Function.update s.life k (s.life k + 1)
        returned := s.returned ++ [s.result p k] } : State).when
        ((s.proc k).state = .zombie)
    | _ => .error .disabled
  | .refuse p =>
    match s.phase p with
    | .child k => (s.goto p (.leaving k)).when ((s.proc k).state = .zombie)
    | _ => .error .disabled
  | .pass p =>
    match s.phase p with
    | .child k => (s.goto p (.passing k)).when ((s.proc k).state ≠ .zombie)
    | _ => .error .disabled
  | .following p =>
    match s.phase p with
    | .passing k => .ok ((s.setLock k none).goto p (.scan (k + 1) true))
    | _ => .error .disabled
  | .leave p =>
    match s.phase p with
    | .leaving k => .ok { (s.setLock k none).goto p .out with waitLock := none }
    | _ => .error .disabled
  | .nod p => ((s.setLock p (some p)).goto p .nodding).when (s.phase p = .drowsy ∧ s.lock p = none)
  | .doze p => ({ s.goto p .dozing with waitLock := none } : State).when (s.phase p = .nodding)
  | .rest p =>
    ((s.modify p fun r => { r with chan := .proc p, state := .sleeping }).goto p .slept).when
      (s.phase p = .dozing)

/-- The first process, and no other. -/
def boot : State where
  proc q := if q = initproc then { state := .runnable, pid := 1 } else {}
  lock _ := none
  waitLock := none
  phase _ := .out
  child _ := none
  life _ := 0
  exited := []
  returned := []

/-! ### The invariant -/

/-- The state of a process that can have children. -/
def Live (x : ProcState) : Prop := x ≠ .unused ∧ x ≠ .used ∧ x ≠ .zombie

/-- The process sleeps in `wait`, or nothing can keep it from it any more. -/
def Down (s : State) (r : Slot) : Prop :=
  (s.proc r).state = .sleeping ∧ (s.proc r).chan = .proc r ∨ s.phase r = .dozing

/-- The process takes steps of the protocol with `wait_lock`. -/
structure Acting (s : State) (p : Slot) : Prop where
  running : (s.proc p).state = .running
  waitLock : s.waitLock = some p

/-- The children up to slot `k` have been given away. -/
def GivenUpTo (s : State) (p : Slot) (k : ℕ) : Prop :=
  ∀ q : Slot, (q : ℕ) < k → (s.proc q).parent ≠ some p

/-- The children up to slot `k` are not ZOMBIEs. -/
def SeenUpTo (s : State) (p : Slot) (k : ℕ) : Prop :=
  ∀ q : Slot, (q : ℕ) < k → (s.proc q).parent = some p → (s.proc q).state ≠ .zombie

/-- The parent, if it is before slot `j`, is awake. -/
def WokenUpTo (s : State) (p : Slot) (j : ℕ) : Prop :=
  ∀ r : Slot, (r : ℕ) < j → (s.proc p).parent = some r → ¬ Down s r

/-- What a process in `wakeup` has done before slot `j`. -/
def Done (s : State) (p : Slot) (j : ℕ) : Cause → Prop
  | .orphan k => GivenUpTo s p (k + 1)
  | .parent => GivenUpTo s p NPROC ∧ WokenUpTo s p j

/-- What holds of process `p` in a phase. -/
def Fits (s : State) (p : Slot) : Phase → Prop
  | .out | .slept => True
  | .reparenting k => Acting s p ∧ p ≠ initproc ∧ GivenUpTo s p k
  | .waking κ j => Acting s p ∧ p ≠ initproc ∧ Done s p j κ
  | .looking κ j => Acting s p ∧ p ≠ initproc ∧ Done s p j κ ∧ s.lock j = some p ∧ j ≠ p
  | .looked κ j => Acting s p ∧ p ≠ initproc ∧ Done s p (j + 1) κ ∧ s.lock j = some p
  | .last => Acting s p ∧ p ≠ initproc ∧ Done s p NPROC .parent
  | .dying => Acting s p ∧ p ≠ initproc ∧ Done s p NPROC .parent ∧ s.lock p = some p
  | .scan k _ => Acting s p ∧ SeenUpTo s p k
  | .child k => Acting s p ∧ SeenUpTo s p k ∧ s.lock k = some p ∧ (s.proc k).parent = some p
  | .passing k => Acting s p ∧ SeenUpTo s p (k + 1) ∧ s.lock k = some p
  | .leaving k => Acting s p ∧ s.lock k = some p
  | .drowsy => Acting s p ∧ SeenUpTo s p NPROC
  | .nodding => Acting s p ∧ SeenUpTo s p NPROC ∧ s.lock p = some p
  | .dozing => (s.proc p).state = .running ∧ s.lock p = some p

/-- A process in this phase has still to wake the first process. -/
def Phase.Covers : Phase → Prop
  | .waking (.orphan _) j => j ≤ (initproc : ℕ)
  | .looking (.orphan _) j => j ≤ initproc
  | .looked (.orphan _) j => j < initproc
  | _ => False

structure Inv (s : State) : Prop where
  fits : ∀ p, Fits s p (s.phase p)
  init : Live (s.proc initproc).state
  /-- every process but the first has a parent -/
  parent : ∀ q, Live (s.proc q).state ∨ (s.proc q).state = .zombie → q ≠ initproc →
    (s.proc q).parent ≠ none
  /-- and a parent is alive -/
  alive : ∀ q p, (s.proc q).parent = some p → Live (s.proc p).state
  used : ∀ p np, s.child p = some np → (s.proc np).state = .used
  single : ∀ p p' np, s.child p = some np → s.child p' = some np → p = p'
  /-- whoever sleeps through the exit of a child is about to be woken -/
  covered : ∀ r q, Down s r → (s.proc q).parent = some r → (s.proc q).state = .zombie →
    r = initproc ∧ ∃ p, (s.phase p).Covers
  exited : ∀ q, (s.proc q).state = .zombie →
    (q, s.life q, (s.proc q).pid, (s.proc q).xstate) ∈ s.exited
  past : ∀ r ∈ s.returned, r.life < s.life r.slot ∧ (r.slot, r.life, r.pid, r.xstate) ∈ s.exited
  once : (s.returned.map fun r => (r.slot, r.life)).Nodup

end Hexv6.Smp.Family
