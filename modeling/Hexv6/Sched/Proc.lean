import Hexv6.Param

/-!
# The process table

The table `proc[NPROC]` of `kernel/proc.c` and the operations on it that are the same in
all four scheduler builds: `allocproc`, `freeproc`, `reparent`, `wakeup`, `updateVals`
and the scans of `wait` and `kill`.  A pointer to a `struct proc` is the index of its slot.

Machine integers are integers with an explicit reduction where the source can leave the
range of their type: `u64` for `uint64`, `u32` for `uint` and `i32` for `int`.  The
fields of `struct proc` that only the memory and file layers use (page table, trap frame,
saved context, open files, working directory, name) are left out.
-/

namespace Hexv6.Sched

/-- Reduction to `uint64`. -/
def u64 (n : ℕ) : ℕ := n % 2 ^ 64

/-- Reduction to `uint`. -/
def u32 (n : ℕ) : ℕ := n % 2 ^ 32

/-- Reduction to `int`. -/
def i32 (n : ℤ) : ℤ := n.bmod (2 ^ 32)

/-- A pointer into `proc[NPROC]`. -/
abbrev Slot := Fin NPROC

/-- `enum procstate`. -/
inductive ProcState
  | unused
  | used
  | sleeping
  | runnable
  | running
  | zombie
deriving DecidableEq, Repr

/-- The address a process sleeps on: null, the clock, a process (the channel of `wait`)
or any other kernel address. -/
inductive Chan
  | null
  | ticks
  | proc (p : Slot)
  | addr (n : ℕ)
deriving DecidableEq, Repr

/-- `struct proc`, the fields of process management and scheduling. -/
structure Proc where
  state : ProcState := .unused
  chan : Chan := .null
  killed : ℤ := 0
  xstate : ℤ := 0
  pid : ℤ := 0
  parent : Option Slot := none
  sz : ℕ := 0
  mask : ℤ := 0
  atime : ℕ := 0
  ctime : ℕ := 0
  stime : ℕ := 0
  rtime : ℕ := 0
  rtimeWhole : ℕ := 0
  rtimeEvery : ℕ := 0
  wtime : ℕ := 0
  wtimeWhole : ℕ := 0
  wtimeEvery : ℕ := 0
  etime : ℕ := 0
  spriority : ℤ := 0
  priority : ℤ := 0
  niceness : ℤ := 0
  nrun : ℤ := 0
  nrunWhole : ℤ := 0
  currQ : ℤ := 0
  qVal : Fin 5 → ℤ := fun _ => 0

/-- The array `proc[NPROC]`. -/
abbrev ProcTable := Slot → Proc

/-- The slots in the order of the loops `for(p = proc; p < &proc[NPROC]; p++)`. -/
def slots : List Slot := List.finRange NPROC

@[simp] lemma mem_slots (p : Slot) : p ∈ slots := List.mem_finRange p

/-! ### Allocation -/

/-- `freeproc`. -/
def Proc.freeproc (p : Proc) : Proc :=
  { p with
    sz := 0, pid := 0, parent := none, chan := .null, killed := 0, xstate := 0
    state := .unused, mask := 0, atime := 0, ctime := 0, rtime := 0, rtimeWhole := 0
    rtimeEvery := 0, wtime := 0, wtimeWhole := 0, wtimeEvery := 0, stime := 0
    priority := 0, spriority := 0, niceness := 0, nrun := 0, nrunWhole := 0
    currQ := 0, qVal := fun _ => 0 }

/-- The assignments of `allocproc` after its two memory allocations. -/
def Proc.setup (p : Proc) (ticks : ℕ) : Proc :=
  { p with
    priority := 60, spriority := 60, niceness := 5, nrun := 0, nrunWhole := 0
    atime := 0, rtime := 0, rtimeWhole := 0, rtimeEvery := 0
    wtime := 0, wtimeWhole := 0, wtimeEvery := 0, stime := 0, etime := 0
    currQ := 0, qVal := fun _ => 0, ctime := ticks }

/-- The slot at which the scan of `allocproc` stops. -/
def freeSlot (t : ProcTable) : Option Slot := slots.find? fun p => (t p).state = .unused

/-- `allocproc` with `allocpid`: the new table and `nextpid`, and the slot returned.
`mem` tells whether the trap frame and the page table could be allocated. -/
def allocproc (t : ProcTable) (nextpid : ℤ) (ticks : ℕ) (mem : Bool) :
    ProcTable × ℤ × Option Slot :=
  match freeSlot t with
  | none => (t, nextpid, none)
  | some p =>
    let found := { t p with pid := nextpid, state := .used, mask := 0 }
    if mem then
      (Function.update t p (found.setup ticks), i32 (nextpid + 1), some p)
    else
      (Function.update t p found.freeproc, i32 (nextpid + 1), none)

/-! ### Sleeping and waking -/

/-- `wakeup(chan)`, called while `cur` is the process of the CPU. -/
def wakeup (t : ProcTable) (cur : Option Slot) (chan : Chan) : ProcTable := fun p =>
  let r := t p
  if cur ≠ some p ∧ r.state = .sleeping ∧ r.chan = chan then { r with state := .runnable }
  else r

/-- The channel `wakeup(q)` uses for a pointer `q` to a process, which may be null. -/
def Chan.ofPtr : Option Slot → Chan
  | none => .null
  | some p => .proc p

/-- `reparent(p)`: the children of `p` become children of `initproc`. -/
def reparent (t : ProcTable) (cur initproc : Option Slot) (p : Slot) : ProcTable :=
  slots.foldl (fun t pp =>
    if (t pp).parent = some p then
      wakeup (Function.update t pp { t pp with parent := initproc }) cur (.ofPtr initproc)
    else t) t

/-! ### The clock -/

/-- The counters in the loop of `update_vals`. -/
def Proc.countTick (p : Proc) : Proc :=
  let p := if p.state = .sleeping then { p with stime := u64 (p.stime + 1) } else p
  if p.state = .running then
    { p with
      rtime := u64 (p.rtime + 1), rtimeEvery := u64 (p.rtimeEvery + 1)
      rtimeWhole := u64 (p.rtimeWhole + 1) }
  else
    { p with
      wtime := u64 (p.wtime + 1), wtimeEvery := u64 (p.wtimeEvery + 1)
      wtimeWhole := u64 (p.wtimeWhole + 1) }

/-- The niceness in the loop of `update_vals`. -/
def Proc.setNiceness (p : Proc) : Proc :=
  if p.rtime ≠ 0 ∨ p.stime ≠ 0 then
    { p with niceness := i32 (u64 (p.stime * 10) / u64 (p.stime + p.rtime) : ℕ) }
  else p

/-- The dynamic priority in the loop of `update_vals`. -/
def Proc.setPriority (p : Proc) : Proc :=
  let p := { p with priority := i32 (p.spriority - p.niceness + 5) }
  if p.priority < 0 then { p with priority := 0 }
  else if p.priority > 100 then { p with priority := 100 }
  else p

/-- The body of the loop of `update_vals`. -/
def Proc.updateVals (p : Proc) : Proc := p.countTick.setNiceness.setPriority

/-- `update_vals`. -/
def updateVals (t : ProcTable) : ProcTable := fun p => (t p).updateVals

/-! ### Scans -/

/-- The first slot `kill(pid)` stops at. -/
def findPid (t : ProcTable) (pid : ℤ) : Option Slot :=
  slots.find? fun p => (t p).pid = pid

/-- The zombie child of `p` at which the scan of `wait` and `waitx` stops. -/
def findZombie (t : ProcTable) (p : Slot) : Option Slot :=
  slots.find? fun np => (t np).parent = some p ∧ (t np).state = .zombie

/-- The flag `havekids` at the end of the scan of `wait` and `waitx`. -/
def havekids (t : ProcTable) (p : Slot) : Bool :=
  slots.any fun np => (t np).parent = some p

/-! ### What the operations leave alone -/

section Frame

variable (p : Proc)

/-- A clock tick changes counters, the niceness and the priority.  It is charged as running time
exactly when the process is running. -/
lemma updateVals_eq : p.updateVals =
    { p with
      stime := p.countTick.stime
      rtime := if p.state = .running then u64 (p.rtime + 1) else p.rtime
      rtimeEvery := p.countTick.rtimeEvery
      rtimeWhole := if p.state = .running then u64 (p.rtimeWhole + 1) else p.rtimeWhole
      wtime := p.countTick.wtime, wtimeEvery := p.countTick.wtimeEvery
      wtimeWhole := p.countTick.wtimeWhole
      niceness := p.countTick.setNiceness.niceness, priority := p.updateVals.priority } := by
  have hprio : p.updateVals = { p.countTick.setNiceness with
      priority := p.updateVals.priority } := by
    simp only [Proc.updateVals, Proc.setPriority]
    split_ifs <;> simp
  have hnice : p.countTick.setNiceness =
      { p.countTick with niceness := p.countTick.setNiceness.niceness } := by
    simp only [Proc.setNiceness]
    split_ifs <;> simp
  generalize p.updateVals.priority = x at hprio ⊢
  generalize p.countTick.setNiceness.niceness = n at hnice ⊢
  rw [hprio, hnice]
  simp only [Proc.countTick]
  cases hs : p.state <;> simp [hs]

@[simp] lemma updateVals_state : p.updateVals.state = p.state := by rw [updateVals_eq]

@[simp] lemma updateVals_pid : p.updateVals.pid = p.pid := by rw [updateVals_eq]

@[simp] lemma updateVals_killed : p.updateVals.killed = p.killed := by rw [updateVals_eq]

@[simp] lemma updateVals_chan : p.updateVals.chan = p.chan := by rw [updateVals_eq]

@[simp] lemma updateVals_currQ : p.updateVals.currQ = p.currQ := by rw [updateVals_eq]

@[simp] lemma updateVals_atime : p.updateVals.atime = p.atime := by rw [updateVals_eq]

lemma updateVals_rtime : p.updateVals.rtime =
    if p.state = .running then u64 (p.rtime + 1) else p.rtime := by rw [updateVals_eq]

end Frame

lemma freeSlot_eq_none {t : ProcTable} (h : freeSlot t = none) (p : Slot) :
    (t p).state ≠ .unused := by
  simpa using List.find?_eq_none.1 h p (mem_slots p)

lemma freeSlot_state {t : ProcTable} {p : Slot} (h : freeSlot t = some p) :
    (t p).state = .unused := by
  simpa using List.find?_some h

/-- What `allocproc` does: nothing when no slot is free; else it takes a free slot and
fills it in, or frees it again when memory runs out. -/
lemma allocproc_cases (t : ProcTable) (nextpid : ℤ) (ticks : ℕ) (mem : Bool) :
    (freeSlot t = none ∧ allocproc t nextpid ticks mem = (t, nextpid, none)) ∨
    ∃ p, freeSlot t = some p ∧ (mem = true ∧ allocproc t nextpid ticks mem = (Function.update t p
          (Proc.setup { t p with pid := nextpid, state := .used, mask := 0 } ticks),
          i32 (nextpid + 1), some p) ∨
      mem = false ∧ allocproc t nextpid ticks mem = (Function.update t p
          (Proc.freeproc { t p with pid := nextpid, state := .used, mask := 0 }),
          i32 (nextpid + 1), none)) := by
  rcases hf : freeSlot t with _ | p
  · exact .inl ⟨rfl, by simp only [allocproc, hf]⟩
  refine .inr ⟨p, rfl, ?_⟩
  cases mem with
  | true => exact .inl ⟨rfl, by simp only [allocproc, hf, if_true]⟩
  | false => exact .inr ⟨rfl, by simp [allocproc, hf]⟩

lemma wakeup_killed (t : ProcTable) (cur : Option Slot) (chan : Chan) (p : Slot) :
    (wakeup t cur chan p).killed = (t p).killed := by
  simp only [wakeup]
  split_ifs <;> rfl

end Hexv6.Sched
