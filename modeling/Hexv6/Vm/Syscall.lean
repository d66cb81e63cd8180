import Hexv6.Vm.Exec

/-!
# What `strace` prints

`syscall` of `kernel/syscall.c`.  It saves `a0` before the handler runs and reads the other
arguments afterwards, when `exec` has put its stack pointer into `a1`; and it prints `a0` also for
calls without arguments.
-/

namespace Hexv6.Vm

open Blk (Byte)

structure Trapframe where
  (a0 a1 a2 a3 a4 a5 a7 : BitVec 64)

/-- `argint`, which fetches an argument as an `int`; `none` if `argraw` panics. -/
def argint (tf : Trapframe) : ℕ → Option (BitVec 32)
  | 0 => some (tf.a0.setWidth 32)
  | 1 => some (tf.a1.setWidth 32)
  | 2 => some (tf.a2.setWidth 32)
  | 3 => some (tf.a3.setWidth 32)
  | 4 => some (tf.a4.setWidth 32)
  | 5 => some (tf.a5.setWidth 32)
  | _ => none

structure Caller where
  pid : ℤ
  name : String
  mask : BitVec 32
  trapframe : Trapframe

def SYS_exit : ℕ := 2
def SYS_exec : ℕ := 7
def SYS_strace : ℕ := 22

/-- The last name has no initialiser. -/
def syscall_name : List String :=
  ["NULL", "fork", "exit", "wait", "pipe", "read", "kill", "exec", "fstat", "chdir", "dup",
    "getpid", "sbrk", "sleep", "uptime", "open", "write", "mknod", "unlink", "link", "mkdir",
    "close", "strace", "set_priority", ""]

def syscall_argc : List ℕ :=
  [0, 1, 1, 1, 3, 1, 2, 2, 1, 1, 0, 1, 1, 0, 2, 3, 3, 1, 2, 1, 1, 1, 2, 3]

/-- What the handlers find elsewhere in the kernel. -/
structure Found where
  /-- what a handler returns that leaves the process alone -/
  result : BitVec 64
  /-- for `exec`, the new name of the process, the image and the arguments; `sys_exec` takes at most
  `MAXARG - 1` strings, each with its NUL from one page -/
  name : String
  loaded : Option Image
  argv : List (List Byte)
  mem : ℕ → Byte
  length_argv : argv.length ≤ MAXARG - 1
  length_arg : ∀ arg ∈ argv, arg.length < PGSIZE

/-- `syscalls[num]()`: the process afterwards and the result.  `exit` does not return, and only
`exec` changes the registers of the caller. -/
def handler (w : Found) (num : ℕ) (p : Caller) : Option (Caller × BitVec 64) :=
  if num = SYS_exit then none
  else if num = SYS_exec then
    match exec w.loaded w.argv w.mem with
    | none => some (p, -1)
    | some (u, _) =>
      some ({ p with name := w.name, trapframe.a1 := BitVec.ofNat 64 u.a1 }, BitVec.ofNat 64 u.a0)
  else if num = SYS_strace then
    if 0 < p.mask.toInt then some (p, -1)
    else some ({ p with mask := p.trapframe.a0.setWidth 32 }, 0)
  else some (p, w.result)

/-- What `syscall` prints, if anything. -/
inductive Output
  | silent
  | unknown (pid : ℤ) (name : String) (num : ℤ)
  | trace (pid : ℤ) (name : String) (args : List (BitVec 32)) (ret : BitVec 32)

/-- `num`, an `int`. -/
def Caller.num (p : Caller) : ℤ := (p.trapframe.a7.setWidth 32).toInt

def syscall (w : Found) (p : Caller) : Option (Caller × Output) :=
  if 0 < p.num ∧ p.num < 25 then do
    let num := p.num.toNat
    let temp_trap := p.trapframe.a0.setWidth 32
    let (p, r) ← handler w num p
    let p := { p with trapframe.a0 := r }
    if p.mask.getLsbD num then do
      -- the loop begins with the second argument
      let args ← (List.range' 1 (syscall_argc.getD (num - 1) 0 - 1)).mapM (argint p.trapframe)
      some (p, .trace p.pid (syscall_name.getD num "") (temp_trap :: args) (r.setWidth 32))
    else some (p, .silent)
  else some ({ p with trapframe.a0 := -1 }, .unknown p.pid p.name p.num)

/-- The stack pointer of the program that `exec` starts; `none` if it does not fit or was not
loaded. -/
def newSp (w : Found) : Option ℕ := do
  let I ← w.loaded
  let room := argsRoom w.argv + roundup16 (8 * (w.argv.length + 1))
  if room ≤ PGSIZE then some (I.sz - room) else none

lemma exec_a1 (w : Found) : (exec w.loaded w.argv w.mem).map (·.1.a1) = newSp w := by
  rw [newSp]
  rcases w.loaded with _ | I
  · rfl
  rcases exec_cases I w.length_argv w.length_arg w.mem with
    ⟨hfit, u, mem', heq, hsp, -⟩ | ⟨hfit, heq⟩
  · simp [heq, hfit, hsp]
  · simp [heq, hfit]

lemma handler_cases {w : Found} {num : ℕ} {p p' : Caller} {r : BitVec 64}
    (h : handler w num p = some (p', r)) :
    (p'.trapframe = p.trapframe ∧ (num = SYS_exec → newSp w = none)) ∨
    num = SYS_exec ∧ ∃ sp, newSp w = some sp ∧
      p'.trapframe = { p.trapframe with a1 := BitVec.ofNat 64 sp } := by
  have hsp := exec_a1 w
  unfold handler at h
  split_ifs at h with _ hexec _ hmask
  · split at h
    · rename_i heq
      cases h
      exact .inl ⟨rfl, fun _ => by rw [← hsp, heq]; rfl⟩
    rename_i u _ heq
    cases h
    exact .inr ⟨hexec, u.a1, by rw [← hsp, heq]; rfl, rfl⟩
  all_goals
    cases h
    exact .inl ⟨rfl, fun h => absurd h hexec⟩

lemma syscall_argc_le (num : ℕ) : syscall_argc.getD num 0 ≤ 3 := by
  rcases lt_or_ge num 24 with hnum | hnum
  · revert num
    decide
  · simp [syscall_argc, hnum]

lemma syscall_cases {w : Found} {p p' : Caller} {pid : ℤ} {name : String} {args : List (BitVec 32)}
    {ret : BitVec 32} (h : syscall w p = some (p', .trace pid name args ret)) :
    ∃ p₁ r rest, handler w p.num.toNat p = some (p₁, r) ∧
      (List.range' 1 (syscall_argc.getD (p.num.toNat - 1) 0 - 1)).mapM
        (argint { p₁.trapframe with a0 := r }) = some rest ∧
      args = p.trapframe.a0.setWidth 32 :: rest := by
  rw [syscall] at h
  split at h
  · obtain ⟨⟨p₁, r⟩, hhandler, h⟩ := Option.bind_eq_some_iff.1 h
    dsimp only at h
    split at h
    · obtain ⟨rest, hrest, h⟩ := Option.bind_eq_some_iff.1 h
      cases h
      exact ⟨p₁, r, rest, hhandler, hrest, rfl⟩
    · cases h
  · cases h

/-- The call has arguments, and it is no `exec` that starts a program, unless the new stack pointer
is what `a1` was. -/
def Recorded (w : Found) (p : Caller) : Prop :=
  0 < syscall_argc.getD (p.num.toNat - 1) 0 ∧
  (p.num.toNat = SYS_exec → ∀ sp ∈ newSp w, BitVec.ofNat 32 sp = p.trapframe.a1.setWidth 32)

/-- A trace record has the arguments of the call exactly in these cases. -/
theorem trace_args_iff {w : Found} {p p' : Caller} {pid : ℤ} {name : String}
    {args : List (BitVec 32)}
    {ret : BitVec 32} (h : syscall w p = some (p', .trace pid name args ret)) :
    (List.range (syscall_argc.getD (p.num.toNat - 1) 0)).mapM (argint p.trapframe) = some args ↔
      Recorded w p := by
  obtain ⟨p1, r, rest, hhandler, hrest, rfl⟩ := syscall_cases h
  have hle := syscall_argc_le (p.num.toNat - 1)
  rw [Recorded]
  rcases handler_cases hhandler with ⟨htf, hnone⟩ | ⟨hexec, sp, hsp, htf⟩
  · rw [htf] at hrest
    generalize syscall_argc.getD (p.num.toNat - 1) 0 = n at *
    interval_cases n <;> simp_all [argint, List.range_succ, List.range'_succ]
  rw [hexec] at hrest ⊢
  rw [htf] at hrest
  cases hrest
  change some [_, BitVec.setWidth 32 p.trapframe.a1] = some [_, _] ↔ _
  have hint : BitVec.setWidth 32 (BitVec.ofNat 64 sp) = BitVec.ofNat 32 sp :=
    BitVec.setWidth_ofNat_of_le (by decide) sp
  simp [hsp, hint, SYS_exec, syscall_argc, eq_comm]

/-- A traced process; the registers count from 7. -/
def traced (num : ℕ) : Caller :=
  ⟨3, "sh", 1 <<< num, ⟨7, 8, 9, 10, 11, 12, BitVec.ofNat 64 num⟩⟩

def found : Found := ⟨0, "", none, [], fun _ => 0, by decide, nofun⟩

theorem trace_args_iff_read : ∃ p', syscall found (traced 5) =
    some (p', .trace 3 "read" [7, 8, 9] 0) ∧
    (List.range 3).mapM (argint (traced 5).trapframe) = some [7, 8, 9] :=
  ⟨_, rfl, (trace_args_iff (w := found) (p := traced 5) rfl).2 ⟨by decide, by decide⟩⟩

/-- `getpid` has no arguments, but one is printed. -/
theorem not_trace_args_getpid :
    ∃ p', syscall found (traced 11) = some (p', .trace 3 "getpid" [7] 0) ∧
      (List.range (syscall_argc.getD 10 0)).mapM (argint (traced 11).trapframe) = some [] :=
  ⟨_, rfl, rfl⟩

end Hexv6.Vm
