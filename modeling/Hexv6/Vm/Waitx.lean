import Hexv6.Sched.Proc
import Hexv6.Vm.Copyout

/-!
# The times that `sys_waitx` stores

`waitx` of `kernel/proc.c` and `sys_waitx` of `kernel/sysproc.c`, with what they write to the
memory of the calling process.  A turn of the loop of `waitx` either ends the call or goes to
sleep; only the last turn of a call assigns or writes anything, so a call is described by the
process table in which its last turn begins.

`sys_waitx` calls `waitx(addr, &wtime, &rtime)`, but the second parameter of `waitx` is the running
time and the third the waiting time.  So the two times change places
(`not_delivers_of_times`, `delivers_iff_alike`).  And `sys_waitx` copies `wtime` and `rtime` to the
user also when `waitx` has failed and perhaps not assigned them, and a child is gone when one of
the copies fails (`failsSafely_iff_fit`).
-/

namespace Hexv6.Vm

open Sched (ProcTable Proc Slot findZombie havekids)
open Blk (Byte)
open Blk.Block (wordBytes wordBytes_append)

/-- `rtime_whole`, as the `uint` that `waitx` stores. -/
def running (c : Proc) : BitVec 32 := BitVec.ofNat 32 c.rtimeWhole

/-- `etime - ctime - rtime_whole`, as the `uint` that `waitx` stores. -/
def waiting (c : Proc) : BitVec 32 :=
  (BitVec.ofNat 64 c.etime - BitVec.ofNat 64 c.ctime - BitVec.ofNat 64 c.rtimeWhole).setWidth 32

/-- What a call of `waitx` does when it returns: its value, the table, the child that was freed,
`*rtime_whole`, `*wtime_whole`, and the writes to the memory of the process. -/
structure Waited where
  ret : ℤ
  table : ProcTable
  reaped : Option Slot
  rtimeWhole : BitVec 32
  wtimeWhole : BitVec 32
  writes : List Write

/-- The last turn of `waitx(addr, rtime_whole, wtime_whole)`, called by `p`; `none` if it is not
the last one, and `p` sleeps.  The last two arguments are what the two variables contain
before. -/
def waitx (t : ProcTable) (p : Slot) (w : PageTable) (addr : BitVec 64)
    (rtimeWhole wtimeWhole : BitVec 32) : Option Waited :=
  match findZombie t p with
  | some np =>
    let c := t np
    let copied := copyout w addr.toNat (wordBytes (BitVec.ofInt 32 c.xstate))
    if addr ≠ 0 ∧ copied.2 = false then
      some ⟨-1, t, none, running c, waiting c, copied.1⟩
    else
      some ⟨c.pid, Function.update t np c.freeproc, some np, running c, waiting c,
        if addr ≠ 0 then copied.1 else []⟩
  | none =>
    if havekids t p = false ∨ (t p).killed ≠ 0 then some ⟨-1, t, none, rtimeWhole, wtimeWhole, []⟩
    else none

/-- The end of `sys_waitx`: the writes and the value that it returns. -/
def report (w : PageTable) (addr1 addr2 : BitVec 64) (wtime rtime : BitVec 32) (ret : ℤ) :
    List Write × ℤ :=
  let first := copyout w addr1.toNat (wordBytes wtime)
  if first.2 = false then (first.1, -1)
  else
    let second := copyout w addr2.toNat (wordBytes rtime)
    if second.2 = false then (first.1 ++ second.1, -1) else (first.1 ++ second.1, ret)

/-- What a call of `sys_waitx` does when it returns. -/
structure Called where
  ret : ℤ
  table : ProcTable
  reaped : Option Slot
  writes : List Write

/-- The contents of `wtime` and `rtime` before they are assigned. -/
structure Stack where
  wtime : BitVec 32
  rtime : BitVec 32

/-- `sys_waitx`, called by `p`, up to the last turn of `waitx`, if this is it. -/
def sysWaitx (t : ProcTable) (p : Slot) (w : PageTable) (stack : Stack)
    (addr addr1 addr2 : BitVec 64) : Option Called :=
  -- `waitx(addr, &wtime, &rtime)`
  (waitx t p w addr stack.wtime stack.rtime).map fun o =>
    let wtime := o.rtimeWhole
    let rtime := o.wtimeWhole
    let r := report w addr1 addr2 wtime rtime o.ret
    ⟨r.2, o.table, o.reaped, o.writes ++ r.1⟩

/-! ### The cases of a call -/

variable {t : ProcTable} {p np : Slot} {w : PageTable} {addr addr1 addr2 : BitVec 64}

/-- The exit status can be stored. -/
def StatusOk (w : PageTable) (addr : BitVec 64) : Prop := addr = 0 ∨ Mapped w addr.toNat 4

@[simp] lemma length_wordBytes (v : BitVec 32) : (wordBytes v).length = 4 := rfl

lemma copyout_word_ok (va : ℕ) (v : BitVec 32) :
    (copyout w va (wordBytes v)).2 = true ↔ Mapped w va 4 := by
  rw [copyout_eq, copyBytes_ok_iff, length_wordBytes]

lemma copyout_word_nil (va : ℕ) (v : BitVec 32) :
    (copyout w va (wordBytes v)).1 = [] ↔ phys w va = none := by
  rw [copyout_eq]
  exact copyBytes_eq_nil_iff (by simp [wordBytes])

lemma Mapped.first {va len : ℕ} (h : Mapped w va len) (hlen : 0 < len) : phys w va ≠ none :=
  h 0 hlen

lemma report_ret (v v' : BitVec 32) (ret : ℤ) (h₁ : Mapped w addr1.toNat 4)
    (h₂ : Mapped w addr2.toNat 4) : (report w addr1 addr2 v v' ret).2 = ret := by
  rw [report]
  simp only [(copyout_word_ok _ v).2 h₁, (copyout_word_ok _ v').2 h₂, Bool.true_eq_false, if_false]

lemma report_ret_of_not (v v' : BitVec 32) (ret : ℤ)
    (h : ¬ (Mapped w addr1.toNat 4 ∧ Mapped w addr2.toNat 4)) :
    (report w addr1 addr2 v v' ret).2 = -1 := by
  rw [report]
  simp only
  split_ifs with h1 h2
  · rfl
  · rfl
  · rw [Bool.not_eq_false, copyout_word_ok] at h1 h2
    exact absurd ⟨h1, h2⟩ h

lemma report_nil (v v' : BitVec 32) (ret : ℤ) :
    (report w addr1 addr2 v v' ret).1 = [] ↔ phys w addr1.toNat = none := by
  rw [report]
  simp only
  split_ifs with h1 h2
  · exact copyout_word_nil _ v
  all_goals
    rw [Bool.not_eq_false, copyout_word_ok] at h1
    simp [copyout_word_nil, h1.first]

/-- The writes of the exit status. -/
def statusWrites (c : Proc) (w : PageTable) (addr : BitVec 64) : List Write :=
  if addr ≠ 0 then (copyout w addr.toNat (wordBytes (BitVec.ofInt 32 c.xstate))).1 else []

/-- A child is reaped. -/
lemma sysWaitx_reap (stack : Stack) (addr1 addr2 : BitVec 64) (hz : findZombie t p = some np)
    (hst : StatusOk w addr) :
    sysWaitx t p w stack addr addr1 addr2 = some
      ⟨(report w addr1 addr2 (running (t np)) (waiting (t np)) (t np).pid).2,
        Function.update t np (t np).freeproc, some np, statusWrites (t np) w addr ++
          (report w addr1 addr2 (running (t np)) (waiting (t np)) (t np).pid).1⟩ := by
  have hok : ¬ (addr ≠ 0 ∧
      (copyout w addr.toNat (wordBytes (BitVec.ofInt 32 (t np).xstate))).2 = false) := by
    rintro ⟨hne, hfalse⟩
    rw [(copyout_word_ok _ _).2 (hst.resolve_left hne)] at hfalse
    cases hfalse
  simp only [sysWaitx, waitx, hz, if_neg hok, Option.map_some, statusWrites]

/-- There is a child to be reaped, but its status cannot be stored. -/
lemma sysWaitx_unreported (stack : Stack) (hz : findZombie t p = some np)
    (hst : ¬ StatusOk w addr) :
    sysWaitx t p w stack addr addr1 addr2 = some
      ⟨(report w addr1 addr2 (running (t np)) (waiting (t np)) (-1)).2, t, none,
        (copyout w addr.toNat (wordBytes (BitVec.ofInt 32 (t np).xstate))).1 ++
          (report w addr1 addr2 (running (t np)) (waiting (t np)) (-1)).1⟩ := by
  rw [StatusOk, not_or, ← copyout_word_ok _ (BitVec.ofInt 32 (t np).xstate), Bool.not_eq_true]
    at hst
  simp only [sysWaitx, waitx, hz, if_pos (show addr ≠ 0 ∧ _ from hst), Option.map_some]

/-- There is nothing to wait for. -/
lemma sysWaitx_childless (stack : Stack) (hz : findZombie t p = none)
    (hno : havekids t p = false ∨ (t p).killed ≠ 0) :
    sysWaitx t p w stack addr addr1 addr2 = some
      ⟨(report w addr1 addr2 stack.wtime stack.rtime (-1)).2, t, none,
        (report w addr1 addr2 stack.wtime stack.rtime (-1)).1⟩ := by
  simp only [sysWaitx, waitx, hz, if_pos hno, Option.map_some, List.nil_append]

lemma sysWaitx_sleep (stack : Stack) (hz : findZombie t p = none)
    (hkids : ¬ (havekids t p = false ∨ (t p).killed ≠ 0)) :
    sysWaitx t p w stack addr addr1 addr2 = none := by
  simp only [sysWaitx, waitx, hz, if_neg hkids, Option.map_none]

/-! ### Calls that fail -/

/-- If the call returns -1, no child has been reaped; what it writes does not depend on the stack of
the kernel; and it writes nothing when no child is reaped. -/
structure FailsSafely (t : ProcTable) (p : Slot) (w : PageTable) (addr addr1 addr2 : BitVec 64) :
    Prop where
  atomic : ∀ stack o, sysWaitx t p w stack addr addr1 addr2 = some o → o.ret = -1 →
    o.reaped = none ∧ o.table = t
  independent : ∀ stack stack', (sysWaitx t p w stack addr addr1 addr2).map Called.writes =
    (sysWaitx t p w stack' addr addr1 addr2).map Called.writes
  silent : ∀ stack o, sysWaitx t p w stack addr addr1 addr2 = some o → o.reaped = none →
    o.writes = []

/-- If a child can be reaped and its status be stored, both times can be stored, and its pid is not
-1; if its status cannot be stored, then neither the first byte of it nor the first byte at
`addr1` can be; and if there is nothing to wait for, the first byte at `addr1` cannot be stored. -/
structure Fit (t : ProcTable) (p : Slot) (w : PageTable) (addr addr1 addr2 : BitVec 64) : Prop where
  reap : ∀ np, findZombie t p = some np → StatusOk w addr →
    (t np).pid ≠ -1 ∧ Mapped w addr1.toNat 4 ∧ Mapped w addr2.toNat 4
  unreported : ∀ np, findZombie t p = some np → ¬ StatusOk w addr →
    phys w addr.toNat = none ∧ phys w addr1.toNat = none
  childless : findZombie t p = none → havekids t p = false ∨ (t p).killed ≠ 0 →
    phys w addr1.toNat = none

lemma FailsSafely.fit (h : FailsSafely t p w addr addr1 addr2) : Fit t p w addr addr1 addr2 := by
  refine ⟨fun np hz hst => ?_, fun np hz hst => ?_, fun hz hno => ?_⟩
  · have hcall := sysWaitx_reap ⟨0, 0⟩ addr1 addr2 hz hst
    have hret : (report w addr1 addr2 (running (t np)) (waiting (t np)) (t np).pid).2 ≠ -1 := by
      intro hret
      obtain ⟨hreaped, -⟩ := h.atomic _ _ hcall hret
      cases hreaped
    by_cases hmap : Mapped w addr1.toNat 4 ∧ Mapped w addr2.toNat 4
    · rw [report_ret _ _ _ hmap.1 hmap.2] at hret
      exact ⟨hret, hmap⟩
    · exact absurd (report_ret_of_not _ _ _ hmap) hret
  · have hnil := h.silent ⟨0, 0⟩ _ (sysWaitx_unreported _ hz hst) rfl
    obtain ⟨h1, h2⟩ := List.append_eq_nil_iff.1 hnil
    exact ⟨(copyout_word_nil _ _).1 h1, (report_nil _ _ _).1 h2⟩
  · exact (report_nil _ _ _).1 (h.silent ⟨0, 0⟩ _ (sysWaitx_childless _ hz hno) rfl)

lemma Fit.failsSafely (h : Fit t p w addr addr1 addr2) : FailsSafely t p w addr addr1 addr2 := by
  rcases hz : findZombie t p with _ | np
  · by_cases hno : havekids t p = false ∨ (t p).killed ≠ 0
    · have hnil : ∀ v v', (report w addr1 addr2 v v' (-1)).1 = [] := fun v v' =>
        (report_nil v v' (-1)).2 (h.childless hz hno)
      refine ⟨fun stack o ho _ => ?_, fun stack stack' => ?_, fun stack o ho _ => ?_⟩
      · rw [sysWaitx_childless stack hz hno] at ho
        cases ho
        exact ⟨rfl, rfl⟩
      · rw [sysWaitx_childless stack hz hno, sysWaitx_childless stack' hz hno, Option.map_some,
          Option.map_some, hnil, hnil]
      rw [sysWaitx_childless stack hz hno] at ho
      cases ho
      exact hnil _ _
    · -- the process sleeps
      refine ⟨fun stack o ho _ => ?_, fun stack stack' => ?_, fun stack o ho _ => ?_⟩
      · simp [sysWaitx_sleep stack hz hno] at ho
      · rw [sysWaitx_sleep stack hz hno, sysWaitx_sleep stack' hz hno]
      · simp [sysWaitx_sleep stack hz hno] at ho
  by_cases hst : StatusOk w addr
  · obtain ⟨hpid, h1, h2⟩ := h.reap np hz hst
    refine ⟨fun stack o ho hret => ?_, fun stack stack' => ?_, fun stack o ho hnone => ?_⟩
    · rw [sysWaitx_reap stack addr1 addr2 hz hst] at ho
      cases ho
      rw [report_ret _ _ _ h1 h2] at hret
      exact absurd hret hpid
    · -- the variables are assigned
      rw [sysWaitx_reap stack addr1 addr2 hz hst, sysWaitx_reap stack' addr1 addr2 hz hst]
    rw [sysWaitx_reap stack addr1 addr2 hz hst] at ho
    cases ho
    cases hnone
  · obtain ⟨h0, h1⟩ := h.unreported np hz hst
    refine ⟨fun stack o ho _ => ?_, fun stack stack' => ?_, fun stack o ho _ => ?_⟩
    · rw [sysWaitx_unreported stack hz hst] at ho
      cases ho
      exact ⟨rfl, rfl⟩
    · rw [sysWaitx_unreported stack hz hst, sysWaitx_unreported stack' hz hst]
    rw [sysWaitx_unreported stack hz hst] at ho
    cases ho
    rw [List.append_eq_nil_iff, copyout_word_nil, report_nil]
    exact ⟨h0, h1⟩

/-- When a call that fails does no harm. -/
theorem failsSafely_iff_fit (t : ProcTable) (p : Slot) (w : PageTable)
    (addr addr1 addr2 : BitVec 64) :
    FailsSafely t p w addr addr1 addr2 ↔ Fit t p w addr addr1 addr2 :=
  ⟨FailsSafely.fit, Fit.failsSafely⟩

/-- One page of user memory. -/
def onePage : PageTable := fun n => if n = 0 then some 1 else none

lemma mapped_onePage {va len : ℕ} (h : va + len ≤ PGSIZE) : Mapped onePage va len := by
  intro i hi
  have hdown : pgrounddown (va + i) = 0 := by
    rw [pgrounddown, Nat.mod_eq_of_lt (by omega), Nat.sub_self]
  rw [phys, hdown, if_neg (by decide)]
  exact Option.some_ne_none _

/-- A process without children gets what is on the stack of the kernel. -/
theorem not_failsSafely_of_childless : ¬ ∀ (t : ProcTable) (p : Slot) (w : PageTable)
    (addr addr1 addr2 : BitVec 64), FailsSafely t p w addr addr1 addr2 := by
  intro h
  have hfit := (h (fun _ => {}) 0 onePage 0 8 16).fit
  exact (show Mapped onePage 8 4 from mapped_onePage (by decide)).first (by decide)
    (hfit.childless (by decide +kernel) (.inl (by decide +kernel)))

/-! ### Where the times go -/

/-- The `int` at a mapped address. -/
def readInt (w : PageTable) (mem : ℕ → Byte) (va : ℕ) : BitVec 32 :=
  mem (address w (va + 3)) ++ mem (address w (va + 2)) ++ mem (address w (va + 1)) ++
    mem (address w va)

/-- The byte `i` of a word. -/
def wordByte (v : BitVec 32) (i : ℕ) : Byte := v.extractLsb' (8 * i) 8

lemma getElem_wordBytes (v : BitVec 32) {i : ℕ} (hi : i < (wordBytes v).length) :
    (wordBytes v)[i] = wordByte v i := by
  rw [length_wordBytes] at hi
  interval_cases i <;> rfl

lemma readInt_eq_iff {mem : ℕ → Byte} {va : ℕ} {v : BitVec 32} :
    readInt w mem va = v ↔ ∀ i < 4, mem (address w (va + i)) = wordByte v i := by
  constructor
  · rintro rfl i hi
    rw [readInt]
    interval_cases i <;> ext k hk <;>
      simp only [wordByte, BitVec.getElem_extractLsb', BitVec.getLsbD_append] <;> grind
  intro h
  rw [readInt, h 3 (by omega), h 2 (by omega), h 1 (by omega), ← Nat.add_zero va, h 0 (by omega)]
  exact wordBytes_append v

/-- After the call the `int` at the second pointer is the waiting time of the child, and the `int`
at the third its running time. -/
def Delivers (c : Proc) (w : PageTable) (mem : ℕ → Byte) (addr1 addr2 : BitVec 64) (o : Called) :
    Prop :=
  readInt w (store mem o.writes) addr1.toNat = waiting c ∧
    readInt w (store mem o.writes) addr2.toNat = running c

/-- The two times are the same, and where the two places in memory overlap, the bytes that come to
lie on each other are the same. -/
structure Alike (c : Proc) (w : PageTable) (addr1 addr2 : BitVec 64) : Prop where
  times : waiting c = running c
  overlap : ∀ i < 4, ∀ j < 4, address w (addr1.toNat + i) = address w (addr2.toNat + j) →
    wordByte (running c) i = wordByte (running c) j

/-- What a call leaves in memory: the waiting time at `addr2`, and the running time at `addr1`
where the waiting time does not cover it. -/
lemma store_report (mem : ℕ → Byte) (v v' : BitVec 32) (ret : ℤ)
    (h₁ : Mapped w addr1.toNat 4) (h₂ : Mapped w addr2.toNat 4) :
    (∀ j < 4, store mem (report w addr1 addr2 v v' ret).1 (address w (addr2.toNat + j)) =
      wordByte v' j) ∧
    ∀ i < 4, (∀ j < 4, address w (addr2.toNat + j) ≠ address w (addr1.toNat + i)) →
      store mem (report w addr1 addr2 v v' ret).1 (address w (addr1.toNat + i)) = wordByte v i := by
  have hwrites : (report w addr1 addr2 v v' ret).1 =
      (copyBytes w addr1.toNat (wordBytes v)).1 ++ (copyBytes w addr2.toNat (wordBytes v')).1 := by
    rw [report]
    simp only [(copyout_word_ok _ v).2 h₁, (copyout_word_ok _ v').2 h₂, Bool.true_eq_false,
      if_false]
    rw [copyout_eq, copyout_eq]
  have hword : 4 ≤ PGSIZE := by decide
  obtain ⟨hin1, -⟩ := store_copyBytes (show Mapped w _ (wordBytes v).length from h₁)
    (h₁.address_inj hword) mem
  obtain ⟨hin2, hout2⟩ := store_copyBytes (show Mapped w _ (wordBytes v').length from h₂)
    (h₂.address_inj hword)
    (store mem (copyBytes w addr1.toNat (wordBytes v)).1)
  rw [hwrites, store_append]
  refine ⟨fun j hj => ?_, fun i hi hne => ?_⟩
  · exact (hin2 j hj).trans (getElem_wordBytes v' hj)
  · rw [hout2 _ hne]
    exact (hin1 i hi).trans (getElem_wordBytes v hi)

/-- When the times of a child get to their places, for pointers that are mapped. -/
theorem delivers_iff_alike (stack : Stack) (mem : ℕ → Byte) (hz : findZombie t p = some np)
    (hst : StatusOk w addr) (h₁ : Mapped w addr1.toNat 4) (h₂ : Mapped w addr2.toNat 4) :
    ∃ o, sysWaitx t p w stack addr addr1 addr2 = some o ∧ o.ret = (t np).pid ∧ o.reaped = some np ∧
      (Delivers (t np) w mem addr1 addr2 o ↔ Alike (t np) w addr1 addr2) := by
  refine ⟨_, sysWaitx_reap stack addr1 addr2 hz hst, report_ret _ _ _ h₁ h₂, rfl, ?_⟩
  obtain ⟨hsecond, hfirst⟩ := store_report (store mem (statusWrites (t np) w addr))
    (running (t np)) (waiting (t np)) (t np).pid h₁ h₂
  rw [Delivers, store_append, readInt_eq_iff, readInt_eq_iff]
  constructor
  · rintro ⟨hwait, hrun⟩
    have htimes : waiting (t np) = running (t np) := by
      have h3 := readInt_eq_iff.2 hsecond
      rw [← h3]
      exact readInt_eq_iff.2 hrun
    refine ⟨htimes, fun i hi j hj hij => ?_⟩
    rw [← htimes, ← hwait i hi, hij, hsecond j hj]
  rintro ⟨htimes, hoverlap⟩
  refine ⟨fun i hi => ?_, fun j hj => by rw [hsecond j hj, htimes]⟩
  by_cases hij : ∃ j < 4, address w (addr2.toNat + j) = address w (addr1.toNat + i)
  · obtain ⟨j, hj, hij⟩ := hij
    rw [← hij, hsecond j hj, htimes]
    exact (hoverlap i hi j hj hij.symm).symm
  · rw [hfirst i hi fun j hj h => hij ⟨j, hj, h⟩, htimes]

/-- Process 0 has a zombie child in slot 1, which ran for one tick of the three of its life. -/
def childTable : ProcTable :=
  Function.update (fun _ => {}) 1
    { state := .zombie, pid := 2, parent := some 0, ctime := 4, etime := 7, rtimeWhole := 1 }

/-- The theorem at a child whose two times are different. -/
theorem delivers_iff_alike_child : findZombie childTable 0 = some 1 ∧
    ∃ o, sysWaitx childTable 0 onePage ⟨0, 0⟩ 0 8 16 = some o ∧ o.ret = 2 ∧ o.reaped = some 1 ∧
      (Delivers (childTable 1) onePage (fun _ => 0) 8 16 o ↔
        Alike (childTable 1) onePage 8 16) := by
  have hz : findZombie childTable 0 = some 1 := by decide +kernel
  have h1 : Mapped onePage (8 : BitVec 64).toNat 4 := mapped_onePage (by decide)
  have h2 : Mapped onePage (16 : BitVec 64).toNat 4 := mapped_onePage (by decide)
  exact ⟨hz, delivers_iff_alike ⟨0, 0⟩ (fun _ => 0) hz (.inl rfl) h1 h2⟩

/-- The waiting time of the child is 2 and its running time 1. -/
theorem not_delivers_of_times : ¬ ∀ (t : ProcTable) (p np : Slot) (w : PageTable) (stack : Stack)
    (mem : ℕ → Byte) (addr addr1 addr2 : BitVec 64) (o : Called),
    findZombie t p = some np → StatusOk w addr → Mapped w addr1.toNat 4 → Mapped w addr2.toNat 4 →
    sysWaitx t p w stack addr addr1 addr2 = some o → Delivers (t np) w mem addr1 addr2 o := by
  intro h
  have hz : findZombie childTable 0 = some 1 := by decide +kernel
  have h1 : Mapped onePage (8 : BitVec 64).toNat 4 := mapped_onePage (by decide)
  have h2 : Mapped onePage (16 : BitVec 64).toNat 4 := mapped_onePage (by decide)
  have hdel := h childTable 0 1 onePage ⟨0, 0⟩ (fun _ => 0) 0 8 16 _ hz (.inl rfl) h1 h2
    (sysWaitx_reap ⟨0, 0⟩ 8 16 hz (.inl rfl))
  obtain ⟨hsecond, -⟩ := store_report (store (fun _ => 0) (statusWrites (childTable 1) onePage 0))
    (running (childTable 1)) (waiting (childTable 1)) (childTable 1).pid h1 h2
  have hrun := readInt_eq_iff.1 hdel.2 0 (by decide)
  rw [store_append, hsecond 0 (by decide)] at hrun
  revert hrun
  decide

end Hexv6.Vm
