import Hexv6.Smp.Effect

/-!
# The times that `waitx` reports

A clock interrupt increments `ticks` and then visits the slots one after the other; a process
that it finds RUNNING is charged the tick.  A process that exists before the tick is charged
at most as many ticks as have passed since its creation.  But `allocproc` reads `ticks`
without `tickslock`: a process that is created after the increment, in a slot that the
interrupt has still to visit, can be charged a tick that is not counted between its creation
and its exit, and then the waiting time that `waitx` reports wraps around
(`not_metered_of_fork`).  If that does not happen, the times are right
(`times_of_run`).
-/

namespace Hexv6.Smp

open Lib Function
open Sched (Slot Proc u32 u64)

/-- `allocproc` does not take a slot that the clock interrupt in progress has still to
visit. -/
def Timely (st : State) : Action → Prop
  | .go c _ _ => ∀ (p np : Slot) (k : ℕ), st.current c = some p → st.pc p = .alloc np →
      (st.proc np).state = .unused → st.scan = some k → (np : ℕ) < k
  | _ => True

/-- `etime - ctime`, modulo `2^32`. -/
def Task.elapsed (r : Task) : ℕ := u32 (r.etime + (2 ^ 32 - r.ctime))

/-! ### The ticks charged to a process -/

/-- The clock interrupt in progress has still to visit the slot. -/
def pending (scan : Option ℕ) (q : Slot) : ℕ :=
  match scan with
  | some k => if k ≤ (q : ℕ) then 1 else 0
  | none => 0

/-- A process that has not exited was charged at most the ticks since its creation; one that
has exited, at most the ticks of its life. -/
structure Metered (clock born died pend : ℕ) (r : Task) : Prop where
  ctime : r.state ≠ .unused → r.ctime = u32 born
  live : r.state ≠ .unused → r.state ≠ .zombie → born + r.rtimeWhole + pend ≤ clock
  etime : r.state = .zombie → r.etime = u32 died
  dead : r.state = .zombie → born + r.rtimeWhole ≤ died

namespace Metered

variable {clock born died pend : ℕ} {r r' : Task}

lemma free (h : r.state = .unused) : Metered clock born died pend r :=
  ⟨by simp [h], by simp [h], by simp [h], by simp [h]⟩

/-- A change that concerns neither the life nor the times of a process. -/
lemma of_eq (h : Metered clock born died pend r)
    (hu : r'.state = .unused ↔ r.state = .unused) (hz : r'.state = .zombie ↔ r.state = .zombie)
    (hc : r'.ctime = r.ctime) (he : r'.etime = r.etime) (hr : r'.rtimeWhole = r.rtimeWhole) :
    Metered clock born died pend r' := by
  refine ⟨fun h1 => ?_, fun h1 h2 => ?_, fun h1 => ?_, fun h1 => ?_⟩
  · rw [hc]
    exact h.ctime (mt hu.2 h1)
  · rw [hr]
    exact h.live (mt hu.2 h1) (mt hz.2 h2)
  · rw [he]
    exact h.etime (hz.1 h1)
  · rw [hr]
    exact h.dead (hz.1 h1)

/-- The tick begins. -/
lemma tick (h : Metered clock born died 0 r) : Metered (clock + 1) born died 1 r :=
  ⟨h.ctime, fun h1 h2 => by have := h.live h1 h2; omega, h.etime, h.dead⟩

lemma mono {pend' : ℕ} (h : Metered clock born died pend r) (hp : pend' ≤ pend) :
    Metered clock born died pend' r :=
  ⟨h.ctime, fun h1 h2 => by have := h.live h1 h2; omega, h.etime, h.dead⟩

end Metered

lemma Metered.visit {clock born died : ℕ} {r : Task} (h : Metered clock born died 1 r) :
    Metered clock born died 0 { r with toProc := r.toProc.updateVals } := by
  have hc : r.toProc.updateVals.ctime = r.ctime := by rw [Sched.updateVals_eq]
  have he : r.toProc.updateVals.etime = r.etime := by rw [Sched.updateVals_eq]
  have hr : r.toProc.updateVals.rtimeWhole =
      if r.state = .running then u64 (r.rtimeWhole + 1) else r.rtimeWhole := by
    rw [Sched.updateVals_eq]
  have hle : r.toProc.updateVals.rtimeWhole ≤ r.rtimeWhole + 1 := by
    rw [hr]
    split_ifs
    · exact Nat.mod_le _ _
    · omega
  refine ⟨fun h1 => ?_, fun h1 h2 => ?_, fun h1 => ?_, fun h1 => ?_⟩
  · exact hc.trans (h.ctime (by simpa using h1))
  · have := h.live (by simpa using h1) (by simpa using h2)
    simp only
    omega
  · exact he.trans (h.etime (by simpa using h1))
  · have hz : r.state = .zombie := by simpa using h1
    have := h.dead hz
    simp only [hr, hz]
    simpa using this

lemma push_times (build : Build) (q : ℤ) (r : Task) : (Task.push build q r).ctime = r.ctime ∧
    (Task.push build q r).etime = r.etime ∧
    (Task.push build q r).rtimeWhole = r.rtimeWhole := by
  rw [Task.push]
  split_ifs <;> simp

lemma kill_times (build : Build) (r : Task) : (Task.kill build r).ctime = r.ctime ∧
    (Task.kill build r).etime = r.etime ∧ (Task.kill build r).rtimeWhole = r.rtimeWhole := by
  rw [Task.kill]
  split_ifs
  · exact push_times build 0 { r with killed := 1, state := .runnable }
  · simp

/-! ### Every step -/

variable {build : Build} {st st' : State} {a : Action} {t : Slot → Task} {q : Slot}

structure Timed (st : State) : Prop extends Sane st where
  ticks : st.ticks = u32 st.clock
  slot : ∀ q, Metered st.clock (st.born q) (st.died q) (pending st.scan q) (st.proc q)

/-- The slots after a change of one of them. -/
lemma metered_update {clock : ℕ} {born died pend : Slot → ℕ}
    {r : Task} (h : ∀ p, Metered clock (born p) (died p) (pend p) (t p))
    (hr : Metered clock (born q) (died q) (pend q) r) (p : Slot) :
    Metered clock (born p) (died p) (pend p) (update t q r p) := by
  rcases eq_or_ne p q with rfl | hp
  · rwa [update_self]
  · rw [update_of_ne hp]
    exact h p

/-- A new process starts without any charge. -/
lemma metered_new {clock died : ℕ} {r : Task} (hs : r.state ≠ .zombie)
    (hc : r.ctime = u32 clock) (hr : r.rtimeWhole = 0) : Metered clock clock died 0 r :=
  ⟨fun _ => hc, fun _ _ => by omega, fun h => absurd h hs, fun h => absurd h hs⟩

lemma metered_create {clock : ℕ} {born died pend : Slot → ℕ}
    {r : Task} (h : ∀ p, Metered clock (born p) (died p) (pend p) (t p))
    (hr : Metered clock clock (died q) (pend q) r) (p : Slot) :
    Metered clock (update born q clock p) (died p) (pend p) (update t q r p) := by
  rcases eq_or_ne p q with rfl | hp
  · rwa [update_self, update_self]
  · rw [update_of_ne hp, update_of_ne hp]
    exact h p

theorem Timed.slotStep (h : Timed st) (hC : Timely st a) (hs : step build st a = .ok st') :
    ∀ q, Metered st'.clock (st'.born q) (st'.died q) (pending st'.scan q) (st'.proc q) := by
  have hM := h.slot
  cases Effect.of_step hs with
  | stay => exact hM
  | userinit _ h0 hscan =>
    obtain ⟨hc, -, hr⟩ := push_times build 0
      { (st.proc 0).allocproc st.nextpid st.ticks with
        sz := PGSIZE, cwd := some 1, state := .runnable }
    have hnew : Metered st.clock st.clock (st.died 0) (pending st.scan 0) (Task.push build 0
        { (st.proc 0).allocproc st.nextpid st.ticks with
          sz := PGSIZE, cwd := some 1, state := .runnable }) := by
      rw [hscan]
      refine metered_new ?_ ?_ ?_
      · simp [push_state]
      · rw [hc, ← h.ticks]
        rfl
      · rw [hr]
        rfl
    exact metered_create hM hnew
  | goto _ _ => exact hM
  | @own _ c p f hc _ hf =>
    refine metered_update hM ((hM p).of_eq ?_ ?_ ?_ ?_ ?_) <;> cases hf <;> simp
  | @rest _ c p f hc hf =>
    obtain ⟨hu, hz, -⟩ := h.state_ne hc
    refine metered_update hM ((hM p).of_eq ?_ ?_ ?_ ?_ ?_) <;> cases hf <;> simp [hu, hz]
  | reap hz => exact metered_update hM (.free rfl)
  | @create c p mem copied np hc hcur hpc hfree =>
    have hp : pending st.scan np = 0 := by
      rcases hk : st.scan with _ | k
      · rfl
      · have hlt := hC p np k hcur hpc hfree hk
        exact if_neg (by omega)
    have hnew : Metered st.clock st.clock (st.died np) (pending st.scan np)
        (Task.copy (st.proc p) ((st.proc np).allocproc st.nextpid st.ticks)) := by
      rw [hp]
      exact metered_new (by simp [Task.copy, Task.allocproc, Proc.setup]) h.ticks rfl
    simp only [create]
    split_ifs
    · exact metered_create hM hnew
    · exact metered_update hM (.free rfl)
    · exact metered_update hM (.free rfl)
  | @parent _ c p np hc hpc => exact metered_update hM ((hM np).of_eq Iff.rfl Iff.rfl rfl rfl rfl)
  | @ready _ c p np hc hpc =>
    have hused := h.forks.used p np (by rw [hpc]; rfl)
    obtain ⟨h1, h2, h3⟩ := push_times build 0 { st.proc np with state := .runnable }
    refine metered_update hM ((hM np).of_eq ?_ ?_ h1 h2 h3) <;> simp [push_state, hused]
  | @close _ c p status i hc hpc | @leaving _ c p status hc hpc =>
    exact metered_update hM ((hM p).of_eq Iff.rfl Iff.rfl rfl rfl rfl)
  | closed _ _ _ => exact hM
  | @exit _ c p status hc hpc =>
    obtain ⟨hu, hz, -⟩ := h.state_ne hc
    have hsame : ∀ q, Metered st.clock (st.born q) (st.died q) (pending st.scan q)
        (reparent st.proc st.initproc p q) := by
      intro q
      rw [reparent]
      split_ifs
      · exact (hM q).of_eq Iff.rfl Iff.rfl rfl rfl rfl
      · exact hM q
    intro q
    rcases eq_or_ne q p with rfl | hq
    · -- the process that exits was alive up to now
      have hlive := (hsame q).live (by rw [reparent]; split_ifs <;> exact hu)
        (by rw [reparent]; split_ifs <;> exact hz)
      have hctime := (hsame q).ctime (by rw [reparent]; split_ifs <;> exact hu)
      simp only [State.leave, State.modify, update_self]
      refine ⟨fun _ => hctime, fun _ h2 => absurd rfl h2, fun _ => h.ticks, fun _ => ?_⟩
      simp only [Task.zombie]
      omega
    · simp only [State.leave, State.modify, update_of_ne hq]
      exact hsame q
  | @kill c p mem copied pid k hc hcur hpc hpid =>
    obtain ⟨h1, h2, h3⟩ := kill_times build (st.proc k)
    refine metered_update hM ((hM k).of_eq ?_ ?_ h1 h2 h3)
    · rcases eq_or_ne (st.proc k).state .sleeping with hs' | hs'
      · simp [Task.kill, hs', push_state]
      · rw [kill_state hs']
    rcases eq_or_ne (st.proc k).state .sleeping with hs' | hs'
    · simp [Task.kill, hs', push_state]
    · rw [kill_state hs']
  | @setPriority c p _ _ new pid k hc _ hpc _ =>
    exact metered_update hM ((hM k).of_eq Iff.rfl Iff.rfl rfl rfl rfl)
  | @requeue _ q level =>
    obtain ⟨h1, h2, h3⟩ := push_times build level (st.proc q)
    exact metered_update hM ((hM q).of_eq (by rw [push_state]) (by rw [push_state]) h1 h2 h3)
  | @wake _ q hq => refine metered_update hM ((hM q).of_eq ?_ ?_ rfl rfl rfl) <;> simp [hq]
  | @dispatch c q hc hq =>
    refine metered_update hM ((hM q).of_eq ?_ ?_ ?_ ?_ ?_)
    · simp [dispatch_state, hq]
    · simp [dispatch_state, hq]
    all_goals cases build <;> rfl
  | tick hscan =>
    intro q
    have hq := hM q
    simp only [pending, hscan] at hq
    simpa [pending] using hq.tick
  | @visit _ k hscan =>
    intro q
    have hq := hM q
    rcases eq_or_ne q k with rfl | hne
    · simp only [pending, hscan, le_refl, if_true] at hq
      simpa [pending, State.modify] using hq.visit
    have hpend : (if (k : ℕ) + 1 ≤ (q : ℕ) then 1 else 0) ≤ if (k : ℕ) ≤ (q : ℕ) then 1 else 0 := by
      split_ifs <;> omega
    simp only [pending, hscan] at hq
    simpa [pending, State.modify, update_of_ne hne] using hq.mono hpend
  | tock hscan =>
    intro q
    simpa [pending] using (hM q).mono (Nat.zero_le _)

theorem Timed.step (h : Timed st) (hC : Timely st a) (hs : step build st a = .ok st') :
    Timed st' := by
  refine ⟨h.toSane.step hs, ?_, h.slotStep hC hs⟩
  cases Effect.of_step hs with
  | tick _ =>
    simp only [h.ticks, u32]
    omega
  | create _ _ _ _ =>
    simp only [create]
    split_ifs <;> exact h.ticks
  | _ => exact h.ticks

/-! ### Whole runs -/

/-- The times of a process that was charged at most the ticks of its life. -/
lemma times_eq {r : Task} {born died : ℕ} (hc : r.ctime = u32 born) (he : r.etime = u32 died)
    (hr : born + r.rtimeWhole ≤ died) (hlife : died - born < 2 ^ 32) :
    r.elapsed = died - born ∧ r.times.1 = r.rtimeWhole ∧
      r.times.2 = died - born - r.rtimeWhole := by
  simp only [Task.elapsed, Task.times, hc, he, u32, u64]
  refine ⟨?_, ?_, ?_⟩ <;> omega

/-- In a run in which no process is created in a slot that the clock interrupt has still to
visit, a process that has exited after fewer than `2^32` ticks was charged at most
`etime - ctime` ticks, and the running and waiting times that `waitx` reports add up to the
ticks of its life. -/
theorem times_of_run {tr : List (State × Action)} (hrun : Run (step build) boot tr st)
    (htimely : ∀ x ∈ tr, Timely x.1 x.2) {np : Slot} (hz : (st.proc np).state = .zombie)
    (hlife : st.died np - st.born np < 2 ^ 32) :
    (st.proc np).rtimeWhole ≤ (st.proc np).elapsed ∧
      (st.proc np).elapsed = st.died np - st.born np ∧
      (st.proc np).times.1 = (st.proc np).rtimeWhole ∧
      (st.proc np).times.1 + (st.proc np).times.2 = st.died np - st.born np := by
  have hinv : Timed st := (hrun.invariant
    (fun _ _ _ h hC hs => h.step hC hs) ⟨sane_boot, rfl, fun _ => .free rfl⟩ htimely).2
  have hslot := hinv.slot np
  have hle := hslot.dead hz
  obtain ⟨he, hr, hw⟩ := times_eq (hslot.ctime (by simp [hz])) (hslot.etime hz) hle hlife
  rw [he, hr, hw]
  omega

/-- The steps of `fork`, of `exit` and of a clock interrupt up to slot 1. -/
def forkSteps (c : ℕ) : List Action := .call c .fork :: List.replicate 4 (.go c true true)

def exitSteps (c : ℕ) : List Action :=
  .call c (.exit 0) :: List.replicate (NOFILE + 3) (.go c true true)

/-- A test for `Timely`. -/
def timelyTest (st : State) : Action → Bool
  | .go c _ _ =>
    match st.current c, st.scan with
    | some p, some k =>
      match st.pc p with
      | .alloc np => decide (np < k)
      | _ => true
    | _, _ => true
  | _ => true

lemma timely_of_test (h : timelyTest st a = true) : Timely st a := by
  cases a with
  | go c mem copied =>
    intro p np k hcur hpc _ hscan
    simpa [timelyTest, hcur, hpc, hscan] using h
  | _ => trivial

/-- A child is created, runs during a clock tick and exits. -/
def childRuns : List Action :=
  [.userinit, .dispatch 1 0] ++ forkSteps 1 ++
    [.dispatch 2 1, .tick, .visit, .visit] ++ exitSteps 2

/-- The theorem at that run. -/
theorem times_of_run_child : ∃ tr st, Run (step .pbs) boot tr st ∧
    (st.proc 1).state = .zombie ∧ (st.proc 1).times = (1, 0) ∧
    (st.proc 1).rtimeWhole ≤ (st.proc 1).elapsed := by
  obtain ⟨st, hst, htest⟩ := exists_of_okAnd (runList (step .pbs) boot childRuns)
    (fun st => (st.proc 1).state = .zombie ∧ (st.proc 1).times = (1, 0) ∧
      st.died 1 - st.born 1 < 2 ^ 32) (by decide +kernel)
  have htimely : ((traceList (step .pbs) boot childRuns).all fun x => timelyTest x.1 x.2) =
      true := by
    decide +kernel
  obtain ⟨hz, ht, hlife⟩ := of_decide_eq_true htest
  exact ⟨_, st, .of_runList hst, hz, ht, (times_of_run (.of_runList hst)
    (fun x hx => timely_of_test (List.all_eq_true.1 htimely x hx)) hz hlife).1⟩

/-- The clock interrupt has incremented `ticks`; a child is created, dispatched and then
visited; it exits before the next tick. -/
def childCharged : List Action :=
  [.userinit, .dispatch 1 0, .tick] ++ forkSteps 1 ++ [.dispatch 2 1, .visit, .visit] ++
    exitSteps 2

/-- The child is charged one tick in a life of no ticks, and the waiting time wraps around. -/
theorem not_metered_of_fork : ¬ ∀ tr st np, Run (step .default) boot tr st →
    (st.proc np).state = .zombie → st.died np - st.born np < 2 ^ 32 →
    (st.proc np).rtimeWhole ≤ (st.proc np).elapsed ∧
      (st.proc np).times.1 + (st.proc np).times.2 = (st.proc np).elapsed := by
  intro hall
  obtain ⟨st, hst, htest⟩ := exists_of_okAnd (runList (step .default) boot childCharged)
      (fun st => (st.proc 1).state = .zombie ∧ st.died 1 - st.born 1 < 2 ^ 32 ∧
        (st.proc 1).rtimeWhole = 1 ∧ (st.proc 1).elapsed = 0 ∧
        (st.proc 1).times = (1, 2 ^ 32 - 1)) (by decide +kernel)
  obtain ⟨hz, hlife, hr, he, -⟩ := of_decide_eq_true htest
  have hle := (hall _ st 1 (.of_runList hst) hz hlife).1
  rw [hr, he] at hle
  omega

end Hexv6.Smp
