import Hexv6.Sched.Proc

/-!
# Setting the static priority of a process

`priority_updater` of `kernel/proc.c` and `sys_set_priority` of `kernel/sysproc.c`, which all
builds have.  `sys_set_priority` fetches both its arguments from the first register, so the
process whose pid is the new priority is changed, and not the process that was meant
(`not_setsPriority_of_pid`).  `priority_updater` also takes a slot that is UNUSED for a
process with pid 0, and its value -1 for "no such process" can be a static priority.
`setsPriority_iff` says when the call nevertheless does what it should.
-/

namespace Hexv6.Sched

/-- `argint`: a register as an `int`. -/
def argint (a : BitVec 64) : ℤ := (a.setWidth 32).toInt

/-- The assignments of `priority_updater` to the process it looks for. -/
def Proc.renice (p : Proc) (new : ℤ) : Proc := { p with spriority := new, niceness := 5 }

/-- The loop of `priority_updater`: `temp` and the table. -/
def priorityLoop (new pid : ℤ) (s : ℤ × ProcTable) (p : Slot) : ℤ × ProcTable :=
  if (s.2 p).pid = pid then
    ((s.2 p).spriority, Function.update s.2 p ((s.2 p).renice new))
  else s

/-- What a call of `set_priority` does: the table after it, the value that it returns, and whether
the caller yields. -/
structure Outcome where
  table : ProcTable
  ret : ℤ
  yields : Bool

def priorityUpdater (t : ProcTable) (new pid : ℤ) : Outcome :=
  let (temp, t) := slots.foldl (priorityLoop new pid) (-1, t)
  { table := t, ret := temp, yields := temp ≠ -1 ∧ temp > new }

/-- `sys_set_priority`, with the registers `a0` and `a1` of the caller; both `argint` read
`a0`. -/
def sysSetPriority (t : ProcTable) (a0 _a1 : BitVec 64) : Outcome :=
  let new := argint a0
  let pid := argint a0
  priorityUpdater t new pid

/-! ### What the call is for -/

/-- A live process with the given pid. -/
def HasPid (t : ProcTable) (pid : ℤ) (p : Slot) : Prop := (t p).state ≠ .unused ∧ (t p).pid = pid

/-- `set_priority(new, pid)` changes the live process with the pid and nothing else, returns the old
static priority, or -1 if there is no such process, and the caller yields if the number was
lowered. -/
structure SetsPriority (t : ProcTable) (new pid : ℤ) (out : Outcome) : Prop where
  target : ∀ p, HasPid t pid p → out.table p = (t p).renice new
  others : ∀ p, (t p).state ≠ .unused → (t p).pid ≠ pid → out.table p = t p
  old : (∃ p, HasPid t pid p) → ∃ p, HasPid t pid p ∧ out.ret = (t p).spriority ∧
    (out.yields = true ↔ new < (t p).spriority)
  failure : out.ret = -1 ↔ ¬ ∃ p, HasPid t pid p
  quiet : (¬ ∃ p, HasPid t pid p) → out.yields = false

/-! ### What the loop does -/

/-- The last slot with the given pid, which may be UNUSED. -/
def lastSlot (t : ProcTable) (pid : ℤ) : Option Slot := slots.reverse.find? fun p => (t p).pid = pid

/-- The value of `temp` after the loop. -/
def lastPriority (t : ProcTable) (pid : ℤ) : ℤ :=
  (lastSlot t pid).elim (-1) fun p => (t p).spriority

/-- The loop over slots that are all different. -/
lemma foldl_priorityLoop (new pid : ℤ) {l : List Slot} (hl : l.Nodup) (t : ProcTable) :
    l.foldl (priorityLoop new pid) (-1, t) =
      ((l.reverse.find? fun p => (t p).pid = pid).elim (-1) fun p => (t p).spriority,
        fun p => if p ∈ l ∧ (t p).pid = pid then (t p).renice new else t p) := by
  induction l using List.reverseRecOn with
  | nil => simp
  | append_singleton l q ih =>
    obtain ⟨hl', -, hdis⟩ := List.nodup_append.1 hl
    have hq : q ∉ l := fun hmem => hdis q hmem q (by simp) rfl
    rw [List.foldl_append, ih hl', List.foldl_cons, List.foldl_nil, priorityLoop]
    simp only [hq, false_and, if_false, List.reverse_append, List.reverse_singleton,
      List.singleton_append, List.find?_cons]
    by_cases hpid : (t q).pid = pid
    · simp only [hpid, if_true, decide_true, Option.elim_some, Prod.mk.injEq, true_and]
      ext1 p
      rcases eq_or_ne p q with rfl | hp
      · simp [hpid]
      · simp [hp]
    simp only [hpid, if_false, decide_false, Prod.mk.injEq, true_and]
    ext1 p
    rcases eq_or_ne p q with rfl | hp
    · simp [hpid]
    · simp [hp]

section Updater

variable (t : ProcTable) (new pid : ℤ)

lemma priorityUpdater_eq : priorityUpdater t new pid =
      { table := fun p => if (t p).pid = pid then (t p).renice new else t p
        ret := lastPriority t pid
        yields := lastPriority t pid ≠ -1 ∧ lastPriority t pid > new } := by
  have hfold := foldl_priorityLoop new pid (List.nodup_finRange NPROC) t
  rw [priorityUpdater, slots, hfold]
  simp only [List.mem_finRange, true_and]
  rfl

lemma priorityUpdater_table (p : Slot) : (priorityUpdater t new pid).table p =
    if (t p).pid = pid then (t p).renice new else t p := by
  rw [priorityUpdater_eq]

lemma priorityUpdater_ret : (priorityUpdater t new pid).ret = lastPriority t pid := by
  rw [priorityUpdater_eq]

lemma priorityUpdater_yields : (priorityUpdater t new pid).yields = true ↔
    lastPriority t pid ≠ -1 ∧ new < lastPriority t pid := by
  rw [priorityUpdater_eq]
  exact decide_eq_true_iff

end Updater

lemma Proc.renice_eq_iff {p : Proc} {new : ℤ} :
    p.renice new = p ↔ p.spriority = new ∧ p.niceness = 5 := by
  constructor
  · intro h
    exact ⟨(congrArg Proc.spriority h).symm, (congrArg Proc.niceness h).symm⟩
  rintro ⟨rfl, h⟩
  cases p
  cases h
  rfl

/-! ### When the call does it -/

/-- The processes that the call changes and that it should change are the same, or they have
already what the call would assign; and `temp` is the old priority, which is not -1, or -1 if
there is no such process. -/
structure Coincides (t : ProcTable) (new pid : ℤ) : Prop where
  same : new = pid ∨ ∀ p, HasPid t new p ∨ HasPid t pid p →
    (t p).spriority = new ∧ (t p).niceness = 5
  found : (∃ p, HasPid t pid p) → lastPriority t new ≠ -1 ∧
    ∃ p, HasPid t pid p ∧ lastPriority t new = (t p).spriority
  missing : (¬ ∃ p, HasPid t pid p) → lastPriority t new = -1

/-- When `sys_set_priority` does what it is for. -/
theorem setsPriority_iff (t : ProcTable) (a0 a1 : BitVec 64) :
    SetsPriority t (argint a0) (argint a1) (sysSetPriority t a0 a1) ↔
      Coincides t (argint a0) (argint a1) := by
  simp only [sysSetPriority]
  generalize argint a0 = new
  generalize argint a1 = pid
  constructor
  · rintro ⟨htarget, hothers, hold, hfailure, -⟩
    rw [priorityUpdater_ret] at hfailure
    refine ⟨?_, fun hex => ⟨fun h => hfailure.1 h hex, ?_⟩, hfailure.2⟩
    · refine or_iff_not_imp_left.2 fun hne p hp => Proc.renice_eq_iff.1 ?_
      rcases hp with ⟨hlive, hpid⟩ | ⟨hlive, hpid⟩
      · -- the process that is changed should not be
        have hsame := hothers p hlive (by rwa [hpid])
        rwa [priorityUpdater_table, if_pos hpid] at hsame
      -- the process that should be changed is not
      have hset := htarget p ⟨hlive, hpid⟩
      rw [priorityUpdater_table, if_neg (by rw [hpid]; exact Ne.symm hne)] at hset
      exact hset.symm
    · obtain ⟨p, hp, hret, -⟩ := hold hex
      rw [priorityUpdater_ret] at hret
      exact ⟨p, hp, hret⟩
  · rintro ⟨hsame, hfound, hmissing⟩
    refine ⟨fun p hp => ?_, fun p hlive hpid => ?_, fun hex => ?_, ?_, fun hno => ?_⟩
    · rw [priorityUpdater_table]
      split_ifs with hnew
      · rfl
      · refine (Proc.renice_eq_iff.2 ?_).symm
        exact hsame.resolve_left (fun h => hnew (hp.2.trans h.symm)) p (.inr hp)
    · rw [priorityUpdater_table]
      split_ifs with hnew
      · refine Proc.renice_eq_iff.2 ?_
        exact hsame.resolve_left (fun h => hpid (hnew.trans h)) p (.inl ⟨hlive, hnew⟩)
      · rfl
    · obtain ⟨hne, p, hp, hret⟩ := hfound hex
      refine ⟨p, hp, by rw [priorityUpdater_ret, hret], ?_⟩
      rw [priorityUpdater_yields, ← hret]
      exact and_iff_right hne
    · rw [priorityUpdater_ret]
      exact ⟨fun h hex => (hfound hex).1 h, hmissing⟩
    · rw [← Bool.not_eq_true, priorityUpdater_yields]
      exact fun h => h.1 (hmissing hno)

/-- Two processes, with pids 1 and 2. -/
def twoTable : ProcTable :=
  Function.update (Function.update (fun _ => {}) 0
    { state := .running, pid := 1, spriority := 60, niceness := 5 }) 1
    { state := .runnable, pid := 2, spriority := 60, niceness := 5 }

/-- `set_priority(70, 2)` does not change the process with pid 2. -/
theorem not_setsPriority_of_pid : ¬ ∀ (t : ProcTable) (a0 a1 : BitVec 64),
    SetsPriority t (argint a0) (argint a1) (sysSetPriority t a0 a1) := by
  intro h
  have htarget := (h twoTable 70 2).target 1 ⟨by decide, by decide⟩
  have hpriority := congrArg Proc.spriority htarget
  revert hpriority
  decide +kernel

end Hexv6.Sched
