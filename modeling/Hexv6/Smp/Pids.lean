import Hexv6.Smp.Effect

/-!
# Process ids

`allocpid` counts up and does not look at the process table.  As long as it draws a positive
number that no process has, pids are positive and unique.  After `2^31 - 1` draws the counter
becomes negative, and after `2^32 - 1` it comes back to the pid of the first process, which never
exits: the next child then has the same pid (`not_uniquePids_of_wrap`).  Forks that fail for want of
memory draw a pid too.
-/

namespace Hexv6.Smp

open Lib Function
open Sched (Slot Proc i32)

/-- No two processes have the same pid, and every pid is positive. -/
structure UniquePids (st : State) : Prop where
  once : ∀ q q', (st.proc q).state ≠ .unused → (st.proc q').state ≠ .unused →
    (st.proc q).pid = (st.proc q').pid → q = q'
  pos : ∀ q, (st.proc q).state ≠ .unused → 0 < (st.proc q).pid

/-- The step makes a new process. -/
def Creates (st : State) : Action → Prop
  | .userinit => True
  | .go c mem copied => (mem && copied) = true ∧
      ∃ p np : Slot, st.current c = some p ∧ st.pc p = .alloc np ∧ (st.proc np).state = .unused
  | _ => False

/-- A new process gets a positive pid that no process has. -/
def DrawsFresh (st : State) (a : Action) : Prop :=
  Creates st a → 0 < st.nextpid ∧ ∀ q, (st.proc q).state ≠ .unused → (st.proc q).pid ≠ st.nextpid

/-! ### Steps -/

/-- Processes keep their pids, and no process is new. -/
def KeepsPids (t t' : Slot → Task) : Prop :=
  ∀ q, (t' q).state ≠ .unused → (t q).state ≠ .unused ∧ (t' q).pid = (t q).pid

variable {build : Build} {st st' : State} {a : Action} {t : Slot → Task} {q : Slot} {r : Task}

lemma KeepsPids.refl (t : Slot → Task) : KeepsPids t t := fun _ h => ⟨h, rfl⟩

lemma KeepsPids.update (h : r.state ≠ .unused → (t q).state ≠ .unused ∧ r.pid = (t q).pid) :
    KeepsPids t (update t q r) := by
  intro p hp
  rcases eq_or_ne p q with rfl | hne
  · rw [update_self] at hp ⊢
    exact h hp
  · rw [update_of_ne hne] at hp ⊢
    exact ⟨hp, rfl⟩

lemma push_pid (build : Build) (level : ℤ) (r : Task) : (Task.push build level r).pid = r.pid := by
  rw [Task.push]
  split_ifs <;> rfl

lemma kill_pid (build : Build) (r : Task) : (Task.kill build r).pid = r.pid := by
  rw [Task.kill]
  split_ifs
  · exact push_pid ..
  · rfl

/-- A step that makes no process keeps the pids. -/
lemma Sane.keepsPids (h : Sane st) (ha : ¬ Creates st a) (hs : Smp.step build st a = .ok st') :
    KeepsPids st.proc st'.proc := by
  cases Effect.of_step hs with
  | stay => exact .refl _
  | userinit => exact absurd trivial ha
  | goto | closed | tick | tock => exact .refl _
  | @own _ c p f hc _ hf | @rest _ c p f hc hf =>
    refine .update fun _ => ⟨(h.state_ne hc).1, ?_⟩
    cases hf <;> rfl
  | reap _ => exact .update fun hu => absurd rfl hu
  | @create c p mem copied np hc hcur hpc hfree =>
    have hfail : ¬ (mem && copied) = true := fun hok => ha ⟨hok, p, np, hcur, hpc, hfree⟩
    simp only [create, if_neg hfail]
    refine .update fun hu => absurd ?_ hu
    split_ifs <;> rfl
  | @parent _ c p np hc hpc | close | leaving | setPriority => exact .update fun hu => ⟨hu, rfl⟩
  | @ready _ c p np hc hpc =>
    have hused := h.forks.used p np (by rw [hpc]; rfl)
    refine .update fun _ => ⟨by simp [hused], ?_⟩
    rw [push_pid]
  | @exit _ c p status hc _ =>
    have hrep : KeepsPids st.proc (reparent st.proc st.initproc p) := by
      intro q hq
      simp only [reparent] at hq ⊢
      split_ifs at hq ⊢
      · exact ⟨hq, rfl⟩
      · exact ⟨hq, rfl⟩
    intro q hq
    rcases eq_or_ne q p with rfl | hne
    · refine ⟨(h.state_ne hc).1, ?_⟩
      simp only [State.leave, State.modify, update_self, Task.zombie, reparent]
      split_ifs <;> rfl
    · simp only [State.leave, State.modify, update_of_ne hne] at hq ⊢
      exact hrep q hq
  | @kill c p mem copied pid k hc hcur hpc hpid =>
    refine .update fun hu => ⟨fun hz => hu ?_, kill_pid build _⟩
    rw [Task.kill, if_neg (by simp [hz])]
    exact hz
  | requeue => exact .update fun hu => ⟨by rwa [push_state] at hu, push_pid ..⟩
  | wake hq => exact .update fun _ => ⟨by simp [hq], rfl⟩
  | dispatch _ hq => exact .update fun _ => ⟨by simp [hq], by cases build <;> rfl⟩
  | visit => exact .update fun hu => ⟨by simpa using hu, Sched.updateVals_pid _⟩

/-- What a step does that makes a process. -/
lemma exists_of_creates (ha : Creates st a) (hs : step build st a = .ok st') :
    ∃ np r, (st.proc np).state = .unused ∧ r.state ≠ .unused ∧ r.pid = st.nextpid ∧
      st'.proc = update st.proc np r := by
  cases a with
  | userinit =>
    rw [step] at hs
    split_ifs at hs with h0
    cases hs
    refine ⟨0, _, h0.2.1, ?_, ?_, rfl⟩
    · rw [push_state]
      simp
    · rw [push_pid]
      rfl
  | go c mem copied =>
    obtain ⟨hok, p, np, hcur, hpc, hfree⟩ := ha
    simp only [step, running, hcur, go, hpc, np.isLt, dif_pos, hfree, if_true] at hs
    cases hs
    simp only [create, if_pos hok]
    exact ⟨np, _, hfree, by simp [Task.copy, Task.allocproc, Proc.setup], rfl, rfl⟩
  | _ => cases ha

/-! ### Runs -/

lemma UniquePids.of_keeps (h : UniquePids st) (hk : KeepsPids st.proc st'.proc) :
    UniquePids st' := by
  refine ⟨fun q q' hq hq' heq => ?_, fun q hq => ?_⟩
  · obtain ⟨hu, hpid⟩ := hk q hq
    obtain ⟨hu', hpid'⟩ := hk q' hq'
    exact h.once q q' hu hu' (by rw [← hpid, ← hpid', heq])
  obtain ⟨hu, hpid⟩ := hk q hq
  rw [hpid]
  exact h.pos q hu

lemma UniquePids.step (hsane : Sane st) (h : UniquePids st) (hC : DrawsFresh st a)
    (hs : Smp.step build st a = .ok st') : UniquePids st' := by
  by_cases ha : Creates st a
  · obtain ⟨np, r, hfree, hr, hpid, hproc⟩ := exists_of_creates ha hs
    obtain ⟨hpos, hnew⟩ := hC ha
    have hother : ∀ q, q ≠ np → st'.proc q = st.proc q := fun q hq => by rw [hproc, update_of_ne hq]
    have hself : st'.proc np = r := by rw [hproc, update_self]
    refine ⟨fun q q' hq hq' heq => ?_, fun q hq => ?_⟩
    · rcases eq_or_ne q np with rfl | hne <;> rcases eq_or_ne q' q with rfl | hne'
      · rfl
      · rw [hother q' hne'] at hq' heq
        rw [hself, hpid] at heq
        exact absurd heq.symm (hnew q' hq')
      · rfl
      · rw [hother q hne] at hq heq
        rcases eq_or_ne q' np with rfl | hne2
        · rw [hself, hpid] at heq
          exact absurd heq (hnew q hq)
        · rw [hother q' hne2] at hq' heq
          exact h.once q q' hq hq' heq
    · rcases eq_or_ne q np with rfl | hne
      · rwa [hself, hpid]
      · rw [hother q hne] at hq ⊢
        exact h.pos q hq
  · exact h.of_keeps (hsane.keepsPids ha hs)

/-- A number that is not positive or not new becomes the pid of a process. -/
lemma not_uniquePids_of_draw (hC : ¬ DrawsFresh st a) (hs : step build st a = .ok st') :
    ¬ UniquePids st' := by
  intro hu
  refine hC fun ha => ?_
  obtain ⟨np, r, hfree, hr, hpid, hproc⟩ := exists_of_creates ha hs
  have hself : st'.proc np = r := by rw [hproc, update_self]
  have hlive : (st'.proc np).state ≠ .unused := by rwa [hself]
  refine ⟨?_, fun q hq heq => ?_⟩
  · have hpos := hu.pos np hlive
    rwa [hself, hpid] at hpos
  have hne : q ≠ np := by
    rintro rfl
    exact hq hfree
  have hq' : st'.proc q = st.proc q := by rw [hproc, update_of_ne hne]
  refine hne (hu.once q np (by rwa [hq']) hlive ?_)
  rw [hq', hself, heq, hpid]

lemma uniquePids_boot : UniquePids boot := ⟨fun _ _ h => absurd rfl h, fun _ h => absurd rfl h⟩

/-- In every run, the pids are unique and positive in all states reached, if and only if every new
process gets a positive pid that no process has. -/
theorem uniquePids_iff_drawsFresh {tr : List (State × Action)}
    (hrun : Run (step build) boot tr st) :
    ((∀ x ∈ tr, UniquePids x.1) ∧ UniquePids st) ↔ ∀ x ∈ tr, DrawsFresh x.1 x.2 :=
  hrun.forall_state_iff (I := fun st => Sane st ∧ UniquePids st) (fun _ h => h.2)
    (fun _ _ _ h hC hs => ⟨h.1.step hs, h.2.step h.1 hC hs⟩)
    (fun _ _ _ _ hC hs => not_uniquePids_of_draw hC hs) ⟨sane_boot, uniquePids_boot⟩

/-- A test for `DrawsFresh`. -/
def drawsTest (st : State) : Action → Bool
  | .userinit | .go _ _ _ =>
    decide (0 < st.nextpid ∧ ∀ q, (st.proc q).state ≠ .unused → (st.proc q).pid ≠ st.nextpid)
  | _ => true

lemma drawsFresh_of_test (h : drawsTest st a = true) : DrawsFresh st a := by
  intro ha
  cases a with
  | userinit => exact of_decide_eq_true h
  | go c mem copied => exact of_decide_eq_true h
  | _ => cases ha

/-- The first process makes two children. -/
def twoForks : List Action :=
  [.userinit, .dispatch 0 0, .call 0 .fork, .go 0 true true, .go 0 true true, .go 0 true true,
    .go 0 true true, .call 0 .fork, .go 0 true true, .go 0 true true, .go 0 true true,
    .go 0 true true, .go 0 true true]

/-- The theorem at that run. -/
theorem uniquePids_iff_drawsFresh_forks : ∃ tr st, Run (step .default) boot tr st ∧
    (st.proc 1).pid = 2 ∧ (st.proc 2).pid = 3 ∧ UniquePids st := by
  obtain ⟨st, hst, htest⟩ := exists_of_okAnd (runList (step .default) boot twoForks)
    (fun st => decide ((st.proc 1).pid = 2 ∧ (st.proc 2).pid = 3)) (by decide +kernel)
  have hdraws : ((traceList (step .default) boot twoForks).all fun x => drawsTest x.1 x.2) =
      true := by decide +kernel
  obtain ⟨h1, h2⟩ := of_decide_eq_true htest
  have hunique := (uniquePids_iff_drawsFresh (.of_runList hst)).2 fun x hx =>
    drawsFresh_of_test (List.all_eq_true.1 hdraws x hx)
  exact ⟨_, st, .of_runList hst, h1, h2, hunique.2⟩

/-! ### The counter comes round -/

/-- The first process runs on CPU 0, and slot 1 has never been used. -/
structure Alone (st : State) : Prop where
  cpu : st.cpu 0 = some 0
  scan : st.scan = none
  pc : st.pc 0 = .user
  first : (st.proc 0).state ≠ .unused
  second : st.proc 1 = {}

/-- A fork passes over the first slot. -/
lemma Alone.run_allocproc (h : Alone st) (build : Build) (x y : Bool) :
    Run (step build) st [(st, .call 0 .fork), (st.goto 0 (.alloc 0), .go 0 x y)]
      ((st.goto 0 (.alloc 0)).goto 0 (.alloc 1)) := by
  obtain ⟨hcpu, hscan, hpc, h0, -⟩ := h
  refine .cons ?_ (.cons ?_ (.nil _))
  · simp [step, running, State.current, hcpu, hscan, hpc, call]
  · simp only [step, running, State.current, State.goto, hcpu, hscan]
    simp [go, h0, State.goto, show 0 < NPROC by decide]

/-- A fork that fails for want of memory leaves nothing behind but a larger `nextpid`. -/
lemma Alone.run_failedFork {n : ℤ} (h : Alone st) (hn : st.nextpid = n) :
    ∃ tr, Run (step build) st tr { st with nextpid := i32 (n + 1) } := by
  have hreach := h.run_allocproc build false false
  obtain ⟨hcpu, hscan, hpc, -, h1⟩ := h
  have hfail : step build ((st.goto 0 (.alloc 0)).goto 0 (.alloc 1)) (.go 0 false false) =
      .ok (create ((st.goto 0 (.alloc 0)).goto 0 (.alloc 1)) 0 1 false false) := by
    simp only [step, running, State.current, State.goto, hcpu, hscan]
    simp [go, show (1 : ℕ) < NPROC by decide, show (⟨1, by decide⟩ : Slot) = 1 from rfl, h1]
  -- the slot is as it was before
  have hsame : create ((st.goto 0 (.alloc 0)).goto 0 (.alloc 1)) 0 1 false false =
      { st with nextpid := i32 (n + 1) } := by
    have hproc : update st.proc 1
        (Task.freeproc { st.proc 1 with pid := n, state := .used, mask := 0 }) = st.proc := by
      rw [h1, update_eq_self_iff, h1]
      rfl
    have hpc' : update st.pc 0 .user = st.pc := by rw [update_eq_self_iff, hpc]
    simp only [create, State.goto, State.modify, update_idem, Bool.and_self,
      Bool.false_eq_true, if_false, hproc, hpc', hn]
  rw [hsame] at hfail
  exact ⟨_, hreach.snoc hfail⟩

lemma Alone.run_failedForks (h : Alone st) (hn : st.nextpid = 2) (k : ℕ) :
    ∃ tr, Run (step build) st tr { st with nextpid := i32 (2 + k) } := by
  induction k with
  | zero =>
    have hsame : { st with nextpid := i32 (2 + (0 : ℕ)) } = st := by
      cases st
      cases hn
      rfl
    rw [hsame]
    exact ⟨_, .nil st⟩
  | succ k ih =>
    obtain ⟨tr, hrun⟩ := ih
    have h' : Alone { st with nextpid := i32 (2 + k) } := ⟨h.cpu, h.scan, h.pc, h.first, h.second⟩
    have hnext : i32 (2 + (k + 1 : ℕ)) = i32 (i32 (2 + k) + 1) := by
      simp only [i32, Int.bmod_add_bmod]
      rfl
    rw [hnext]
    generalize i32 (2 + k) = n at hrun h'
    obtain ⟨tr', hrun'⟩ := h'.run_failedFork rfl
    exact ⟨_, hrun.append hrun'⟩

lemma Alone.run_fork (h : Alone st) (hpid : (st.proc 0).pid = 1) (hn : st.nextpid = 1) :
    ∃ tr st', Run (step build) st tr st' ∧ ¬ UniquePids st' := by
  have hreach := h.run_allocproc build true true
  obtain ⟨hcpu, hscan, hpc, h0, h1⟩ := h
  have hcreate : Creates ((st.goto 0 (.alloc 0)).goto 0 (.alloc 1)) (.go 0 true true) := by
    refine ⟨rfl, 0, 1, ?_, ?_, ?_⟩
    · simp [State.current, State.goto, hcpu, hscan]
    · simp only [State.goto, update_self]
      rfl
    · simp [State.goto, h1]
  obtain ⟨st', hst'⟩ : ∃ st', step build ((st.goto 0 (.alloc 0)).goto 0 (.alloc 1))
      (.go 0 true true) = .ok st' := by
    simp only [step, running, State.current, State.goto, hcpu, hscan]
    simp [go, show (1 : ℕ) < NPROC by decide, show (⟨1, by decide⟩ : Slot) = 1 from rfl, h1]
  refine ⟨_, st', hreach.snoc hst', ?_⟩
  refine not_uniquePids_of_draw (fun hC => ?_) hst'
  exact (hC hcreate).2 0 h0 (hpid.trans hn.symm)

/-- The pid of the first process is given away again after `2^32 - 1` forks that fail. -/
theorem not_uniquePids_of_wrap : ¬ ∀ tr st, Run (step .default) boot tr st → UniquePids st := by
  intro hall
  obtain ⟨st, hst, htest⟩ :=
    exists_of_okAnd (runList (step .default) boot [.userinit, .dispatch 0 0])
      (fun st => decide (st.cpu 0 = some 0 ∧ st.scan = none ∧ st.pc 0 = .user ∧
        (st.proc 0).state ≠ .unused ∧ (st.proc 0).pid = 1 ∧ st.nextpid = 2)) (by decide +kernel)
  obtain ⟨hcpu, hscan, hpc, h0, hpid, hn⟩ := of_decide_eq_true htest
  have hsecond : st.proc 1 = {} := by
    cases hst
    rfl
  have halone : Alone st := ⟨hcpu, hscan, hpc, h0, hsecond⟩
  obtain ⟨tr, hrun⟩ := halone.run_failedForks  hn (2 ^ 32 - 1)
  have hwrap : i32 (2 + (2 ^ 32 - 1 : ℕ)) = 1 := by decide
  have halone' : Alone { st with nextpid := i32 (2 + (2 ^ 32 - 1 : ℕ)) } :=
    ⟨hcpu, hscan, hpc, h0, hsecond⟩
  obtain ⟨tr', st', hrun', hbad⟩ := halone'.run_fork  hpid hwrap
  exact hbad (hall _ st' ((Run.of_runList hst).append (hrun.append hrun')))

end Hexv6.Smp
