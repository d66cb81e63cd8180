import Hexv6.Smp.Effect

/-!
# Dynamic priorities

`update_vals` computes the niceness of a process from the ticks that it has slept and run since its
last dispatch, and its dynamic priority from the static priority and the niceness, cut off at 0 and
100.  The sum is formed in 32 bits before it is cut off: a static priority near the ends of the
range of `int`, which `set_priority` takes from the user unchecked, wraps around to the other end
(`not_settled_of_max`).

`update_vals` locks one slot at a time.  On several CPUs, a process that it has already visited can
be dispatched by the PBS scheduler, or get another static priority, before `update_vals` is over;
its niceness then changes and its priority does not.  If neither this nor an overflow of the sum or
of the counters of ticks happens, the priorities are right (`settled_of_run`).
-/

namespace Hexv6.Smp.Dynamic

open Lib
open Sched (Slot Proc ProcState u64 i32)

/-- The niceness is in its range, and the priority is the one that belongs to it. -/
structure Right (r : Task) : Prop where
  nonneg : 0 ≤ r.niceness
  le : r.niceness ≤ 10
  priority : r.priority = max 0 (min 100 (r.spriority - r.niceness + 5))

/-- What holds after `update_vals`: the priorities of the live processes are right, so for equal
niceness they are in the order of the static priorities. -/
structure Settled (st : State) : Prop where
  right : ∀ q, (st.proc q).state ≠ .unused → Right (st.proc q)
  mono : ∀ q q', (st.proc q).state ≠ .unused → (st.proc q').state ≠ .unused →
    (st.proc q).niceness = (st.proc q').niceness → (st.proc q).spriority ≤ (st.proc q').spriority →
    (st.proc q).priority ≤ (st.proc q').priority

/-- Static priorities for which the sum stays in 32 bits. -/
def Fits (n : ℤ) : Prop := -2 ^ 31 + 5 ≤ n ∧ n ≤ 2 ^ 31 - 6

/-- The new priorities of the calls of `priority_updater` that are under way do not lead to an
overflow, and the counters of ticks do not overflow. -/
structure InRange (st : State) : Prop where
  new : ∀ p new pid k, st.pc p = .setPriority new pid k → Fits new
  stime : ∀ q, ((st.proc q).stime + 1) * 10 < 2 ^ 64
  ticks : ∀ q, (st.proc q).stime + (st.proc q).rtime + 1 < 2 ^ 64

/-- How many slots `update_vals` has visited in the present clock interrupt. -/
def visited (st : State) : ℕ := st.scan.getD 0

/-- The step leaves the niceness and the static priority of the first `k` slots alone: it is no
dispatch of the PBS scheduler that chooses one of them, and `priority_updater` finds none of
them. -/
def Undisturbed (build : Build) (k : ℕ) (st : State) : Action → Prop
  | .dispatch _ q => build = .pbs → k ≤ q
  | .go c _ _ => ∀ p new pid, ∀ q : Slot, st.current c = some p → st.pc p = .setPriority new pid q →
      (st.proc q).pid = pid → k ≤ q
  | _ => True

/-! ### One process -/

/-- What is true of every slot between two visits of `update_vals`. -/
structure Ranged (r : Proc) : Prop where
  nonneg : 0 ≤ r.niceness
  le : r.niceness ≤ 10
  fits : Fits r.spriority

lemma i32_of_bounds {n : ℤ} (h : -2 ^ 31 ≤ n) (h' : n < 2 ^ 31) : i32 n = n := by
  rw [i32, Int.bmod_eq_of_le] <;> omega

/-- The niceness that the loop computes. -/
lemma niceness_le {a b : ℕ} (h : a * 10 < 2 ^ 64) (h' : a + b < 2 ^ 64) :
    u64 (a * 10) / u64 (a + b) ≤ 10 := by
  rw [u64, u64, Nat.mod_eq_of_lt h, Nat.mod_eq_of_lt h']
  exact Nat.div_le_of_le_mul (by omega)

lemma countTick_frame (r : Proc) : r.countTick.niceness = r.niceness ∧
    r.countTick.spriority = r.spriority ∧ r.countTick.stime ≤ r.stime + 1 ∧
    r.countTick.stime + r.countTick.rtime ≤ r.stime + r.rtime + 1 := by
  have hmod : ∀ n, u64 (n + 1) ≤ n + 1 := fun n => Nat.mod_le _ _
  have h1 := hmod r.stime
  have h2 := hmod r.rtime
  simp only [Proc.countTick]
  cases hs : r.state <;> simp [hs] <;> omega

lemma setNiceness_ranged {r : Proc} (h : Ranged r) (hs : r.stime * 10 < 2 ^ 64)
    (ht : r.stime + r.rtime < 2 ^ 64) : Ranged r.setNiceness := by
  rw [Proc.setNiceness]
  split_ifs
  · have hle := niceness_le hs ht
    have heq : i32 (u64 (r.stime * 10) / u64 (r.stime + r.rtime) : ℕ) =
        (u64 (r.stime * 10) / u64 (r.stime + r.rtime) : ℕ) := by
      generalize u64 (r.stime * 10) / u64 (r.stime + r.rtime) = n at hle ⊢
      exact i32_of_bounds (by omega) (by omega)
    have hset : ∀ m : ℤ, 0 ≤ m → m ≤ 10 → Ranged { r with niceness := m } := fun m h0 h1 =>
      ⟨h0, h1, h.fits⟩
    refine hset _ ?_ ?_
    · rw [heq]
      exact Int.natCast_nonneg _
    · rw [heq]
      exact_mod_cast hle
  · exact h

lemma setPriority_right {r : Proc} (h : Ranged r) : r.setPriority.niceness = r.niceness ∧
    r.setPriority.spriority = r.spriority ∧
    r.setPriority.priority = max 0 (min 100 (r.spriority - r.niceness + 5)) := by
  obtain ⟨hnonneg, hle, hfits⟩ := h
  set v := r.spriority - r.niceness + 5 with hv
  have heq : i32 v = v := by
    simp only [Fits] at hfits
    exact i32_of_bounds (by omega) (by omega)
  have hset : r.setPriority =
      { r with priority := if v < 0 then 0 else if v > 100 then 100 else v } := by
    simp only [Proc.setPriority, ← hv, heq]
    split_ifs <;> rfl
  rw [hset]
  refine ⟨rfl, rfl, ?_⟩
  show (if v < 0 then 0 else if v > 100 then 100 else v) = _
  split_ifs <;> omega

variable {r : Task}

/-- A visit of `update_vals`. -/
lemma updateVals_right (h : Ranged r.toProc) (hs : (r.stime + 1) * 10 < 2 ^ 64)
    (ht : r.stime + r.rtime + 1 < 2 ^ 64) :
    Right { r with toProc := r.toProc.updateVals } ∧ Ranged r.toProc.updateVals := by
  obtain ⟨hn, hsp, hst, hsum⟩ := countTick_frame r.toProc
  have htick : Ranged r.toProc.countTick := ⟨by rw [hn]; exact h.nonneg, by rw [hn]; exact h.le,
    by rw [hsp]; exact h.fits⟩
  have hnice := setNiceness_ranged htick (by omega) (by omega)
  obtain ⟨h1, h2, h3⟩ := setPriority_right hnice
  have hr : Ranged r.toProc.updateVals := by
    rw [Proc.updateVals]
    exact ⟨by rw [h1]; exact hnice.nonneg, by rw [h1]; exact hnice.le, by rw [h2]; exact hnice.fits⟩
  refine ⟨⟨hr.nonneg, hr.le, ?_⟩, hr⟩
  simp only [Proc.updateVals, h1, h2, h3]

/-! ### Every step -/

variable {build : Build} {st st' : State} {a : Action} {q : Slot}

lemma ranged_of_eq {r r' : Proc} (h : Ranged r) (hn : r'.niceness = r.niceness)
    (hs : r'.spriority = r.spriority) : Ranged r' :=
  ⟨by rw [hn]; exact h.nonneg, by rw [hn]; exact h.le, by rw [hs]; exact h.fits⟩

/-- The values with which a slot starts. -/
lemma ranged_const {r : Proc} {n s : ℤ} (hn : r.niceness = n) (hs : r.spriority = s)
    (h : 0 ≤ n ∧ n ≤ 10 ∧ Fits s) : Ranged r :=
  ⟨by rw [hn]; exact h.1, by rw [hn]; exact h.2.1, by rw [hs]; exact h.2.2⟩

/-- The slot is in range and, if it is one of the first `k`, right. -/
structure Kept (k : ℕ) (q : Slot) (r : Task) : Prop where
  ranged : Ranged r.toProc
  right : (q : ℕ) < k → r.state ≠ .unused → Right r

/-- A change of other fields, in which the slot does not come to life. -/
structure Same (r r' : Task) : Prop where
  niceness : r'.niceness = r.niceness
  spriority : r'.spriority = r.spriority
  priority : r'.priority = r.priority
  live : r'.state ≠ .unused → r.state ≠ .unused

lemma Kept.same {k : ℕ} {r' : Task} (h : Kept k q r) (hs : Same r r') : Kept k q r' := by
  refine ⟨ranged_of_eq h.ranged hs.niceness hs.spriority, fun hq hl => ?_⟩
  have hr := h.right hq (hs.live hl)
  exact ⟨hs.niceness ▸ hr.nonneg, hs.niceness ▸ hr.le,
    by rw [hs.priority, hs.niceness, hs.spriority]; exact hr.priority⟩

lemma Same.push (level : ℤ) (r : Task) : Same r (Task.push build level r) := by
  refine ⟨?_, ?_, ?_, by rw [push_state]; exact id⟩ <;>
    · rw [Task.push]
      split <;> rfl

lemma Same.kill (r : Task) : Same r (Task.kill build r) := by
  rw [Task.kill]
  split_ifs with hs
  · have hp : Same _ (Task.push build 0 { r with killed := 1, state := .runnable }) := Same.push 0 _
    exact ⟨hp.niceness, hp.spriority, hp.priority,
      fun _ => by rw [show r.state = _ from hs]; decide⟩
  · exact ⟨rfl, rfl, rfl, id⟩

/-- The values with which `allocproc` starts a process are right. -/
lemma kept_allocproc {k : ℕ} (r : Task) (pid : ℤ) (ticks : ℕ) : Kept k q (r.allocproc pid ticks) :=
  ⟨ranged_const (n := 5) (s := 60) rfl rfl (by norm_num [Fits]), fun _ _ =>
    ⟨show (0 : ℤ) ≤ 5 by decide, show (5 : ℤ) ≤ 10 by decide,
      show (60 : ℤ) = max 0 (min 100 (60 - 5 + 5)) by decide⟩⟩

lemma kept_freeproc {k : ℕ} (r : Task) : Kept k q r.freeproc :=
  ⟨ranged_const (n := 0) (s := 0) rfl rfl (by norm_num [Fits]), fun _ hl => absurd rfl hl⟩

lemma kept_dispatch {k : ℕ} (h : Kept k q r) (hr : r.state ≠ .unused)
    (hq : build = .pbs → k ≤ q) : Kept k q (Task.dispatch build r) := by
  cases build with
  | pbs =>
    exact ⟨⟨show (0 : ℤ) ≤ 5 by decide, show (5 : ℤ) ≤ 10 by decide, h.ranged.fits⟩,
      fun hlt => absurd (hq rfl) (not_le.2 hlt)⟩
  | _ => exact h.same ⟨rfl, rfl, rfl, fun _ => hr⟩

/-- All slots are in range, and the first `k` are right. -/
def AllKept (k : ℕ) (t : Slot → Task) : Prop := ∀ q, Kept k q (t q)

variable {t : Slot → Task} {k : ℕ}

lemma AllKept.update (h : AllKept k t) (hr : Kept k q r) : AllKept k (Function.update t q r) := by
  intro p
  rcases eq_or_ne p q with rfl | hp
  · rwa [Function.update_self]
  · rw [Function.update_of_ne hp]
    exact h p

lemma AllKept.same (h : AllKept k t) (hs : Same (t q) r) : AllKept k (Function.update t q r) :=
  h.update ((h q).same hs)

lemma AllKept.reparent (h : AllKept k t) (initproc : Option Slot) (p : Slot) :
    AllKept k (reparent t initproc p) := by
  intro q
  rw [Smp.reparent]
  split
  · exact (h q).same ⟨rfl, rfl, rfl, id⟩
  · exact h q

/-- Every step that leaves the first `k` slots undisturbed keeps them right. -/
lemma AllKept.step (h : AllKept k st.proc) (hsane : Sane st) (hC : InRange st)
    (hU : Undisturbed build k st a) (hs : step build st a = .ok st') : AllKept k st'.proc := by
  cases Effect.of_step hs with
  | stay => exact h
  | userinit hinit h0 hscan =>
    refine h.update (Kept.same ?_ (.push 0 { (st.proc 0).allocproc st.nextpid st.ticks with
      sz := PGSIZE, cwd := some 1, state := .runnable }))
    exact (kept_allocproc (st.proc 0) st.nextpid st.ticks).same ⟨rfl, rfl, rfl,
      fun _ => show ProcState.used ≠ .unused by decide⟩
  | goto => exact h
  | own hc hp hf => cases hf <;> exact h.same ⟨rfl, rfl, rfl, id⟩
  | rest hc hf => cases hf <;> exact h.same ⟨rfl, rfl, rfl, fun _ => (hsane.state_ne hc).1⟩
  | reap => exact h.update (kept_freeproc _)
  | @create c p mem copied np =>
    rw [create]
    split_ifs
    · exact h.update ((kept_allocproc (st.proc np) st.nextpid st.ticks).same ⟨rfl, rfl, rfl, id⟩)
    · exact h.update (kept_freeproc ((st.proc np).allocproc st.nextpid st.ticks))
    · exact h.update (kept_freeproc { st.proc np with
        pid := st.nextpid, state := .used, mask := 0 })
  | parent | close | leaving => exact h.same ⟨rfl, rfl, rfl, id⟩
  | wake hq => exact h.same ⟨rfl, rfl, rfl, fun _ => by simp [hq]⟩
  | @ready _ c p np hc hpc =>
    have hused := hsane.forks.used p np (by rw [hpc]; rfl)
    refine h.update (Kept.same ?_ (.push 0 { st.proc np with state := .runnable }))
    exact (h np).same ⟨rfl, rfl, rfl, fun _ => by simp [hused]⟩
  | closed => exact h
  | @exit _ c p status hc _ =>
    refine (h.reparent st.initproc p).same ⟨rfl, rfl, rfl, fun _ => ?_⟩
    rw [Smp.reparent]
    split_ifs <;> exact (hsane.state_ne hc).1
  | kill => exact h.same (.kill _)
  | @setPriority c p mem copied new pid j hc hcur hpc hpid =>
    have hj := hU p new pid j hcur hpc hpid
    refine h.update ⟨⟨show (0 : ℤ) ≤ 5 by decide, show (5 : ℤ) ≤ 10 by decide, hC.new _ _ _ _ hpc⟩,
      fun hlt => absurd hj (not_le.2 hlt)⟩
  | requeue => exact h.same (.push _ _)
  | @dispatch c q hc hq => exact h.update (kept_dispatch (h q) (by simp [hq]) hU)
  | tick => exact h
  | visit =>
    obtain ⟨hright, hranged⟩ := updateVals_right (h _).ranged (hC.stime _) (hC.ticks _)
    exact h.update ⟨hranged, fun _ _ => hright⟩
  | tock => exact h

lemma allKept_boot : AllKept k boot.proc := fun _ =>
  ⟨ranged_const (n := 0) (s := 0) rfl rfl (by norm_num [Fits]), fun _ hl => absurd rfl hl⟩

/-! ### The clock interrupt -/

/-- The slots that `update_vals` has visited are right. -/
structure Visited (st : State) : Prop where
  sane : Sane st
  kept : AllKept (visited st) st.proc

lemma Visited.step (h : Visited st) (hC : InRange st ∧ Undisturbed build (visited st) st a)
    (hs : Smp.step build st a = .ok st') : Visited st' := by
  have hkept := h.kept.step h.sane hC.1 hC.2 hs
  refine ⟨h.sane.step hs, ?_⟩
  cases Effect.of_step hs with
  | @visit _ j hscan =>
    intro q
    refine ⟨(hkept q).ranged, fun hq hl => ?_⟩
    rcases eq_or_ne q j with rfl | hne
    · simp only [State.modify, Function.update_self]
      exact (updateVals_right (h.kept q).ranged (hC.1.stime q) (hC.1.ticks q)).1
    refine (hkept q).right ?_ hl
    have hqj : (q : ℕ) ≠ j := fun hc => hne (Fin.ext hc)
    simp only [visited, hscan, Option.getD_some] at hq ⊢
    omega
  | @create c p mem copied np =>
    have hscan : (create st p np mem copied).scan = st.scan := by
      rw [create]
      split <;> rfl
    rwa [visited, hscan]
  | tick hscan => simpa [visited, hscan] using hkept
  | tock hscan => exact fun q => ⟨(hkept q).ranged, fun hq => absurd hq (Nat.not_lt_zero _)⟩
  | _ => exact hkept

lemma right_of_visit (h : Ranged (st.proc q).toProc) (hC : InRange st)
    (hq : st.scan = some (q : ℕ)) (hs : Smp.step build st .visit = .ok st') :
    Right (st'.proc q) := by
  simp only [Smp.step, hq, q.isLt, dif_pos] at hs
  cases hs
  show Right (Function.update st.proc q _ q)
  rw [Function.update_self]
  exact (updateVals_right h (hC.stime q) (hC.ticks q)).1

lemma Right.settled (h : ∀ q, (st.proc q).state ≠ .unused → Right (st.proc q)) : Settled st := by
  refine ⟨h, fun q q' hq hq' hn hs => ?_⟩
  rw [(h q hq).priority, (h q' hq').priority, hn]
  omega

lemma undisturbed_zero : Undisturbed build 0 st a := by
  cases a with
  | dispatch c q => exact fun _ => Nat.zero_le _
  | go c mem copied => exact fun _ _ _ _ _ _ _ => Nat.zero_le _
  | _ => trivial

/-- In a run in range, each visit leaves the process with the right priority; and if no step
disturbs the processes that `update_vals` has already visited, all live processes have the right
priorities whenever `update_vals` is over. -/
theorem settled_of_run {tr : List (State × Action)} (hrun : Run (step build) boot tr st)
    (hC : ∀ x ∈ tr, InRange x.1) :
    (∀ x ∈ tr, ∀ (q : Slot) (st' : State), x.1.scan = some (q : ℕ) →
      step build x.1 .visit = .ok st' → Right (st'.proc q)) ∧
    ((∀ x ∈ tr, Undisturbed build (visited x.1) x.1 x.2) → st.scan = some NPROC → Settled st) := by
  constructor
  · have hkept := (hrun.invariant (I := fun s => Sane s ∧ AllKept 0 s.proc)
      (fun s a t hs hC hx => ⟨hs.1.step hx,
        hs.2.step hs.1 hC undisturbed_zero hx⟩) ⟨sane_boot, allKept_boot⟩ hC).1
    exact fun x hx q st' hq hs => right_of_visit ((hkept x hx).2 q).ranged (hC x hx) hq hs
  intro hU hend
  have hvisited : Visited st := (hrun.invariant
    (fun s a t hs hC hx => hs.step hC hx) ⟨sane_boot, allKept_boot⟩
    fun x hx => ⟨hC x hx, hU x hx⟩).2
  refine Right.settled fun q hl => (hvisited.kept q).right ?_ hl
  rw [visited, hend]
  exact q.isLt

/-- The test of `InRange`. -/
def inRangeTest (st : State) : Bool :=
  (List.finRange NPROC).all fun q =>
    (match st.pc q with
    | .setPriority new _ _ => decide (-2 ^ 31 + 5 ≤ new ∧ new ≤ 2 ^ 31 - 6)
    | _ => true) &&
    decide (((st.proc q).stime + 1) * 10 < 2 ^ 64 ∧
      (st.proc q).stime + (st.proc q).rtime + 1 < 2 ^ 64)

lemma inRange_of_test (h : inRangeTest st = true) : InRange st := by
  have hq : ∀ q : Slot, _ := fun q => List.all_eq_true.1 h q (List.mem_finRange q)
  simp only [Bool.and_eq_true, decide_eq_true_eq] at hq
  refine ⟨fun p new pid k hpc => ?_, fun q => (hq q).2.1, fun q => (hq q).2.2⟩
  have hp := (hq p).1
  rw [hpc] at hp
  have hfits := of_decide_eq_true hp
  exact hfits

/-- A test for `Undisturbed`: no call goes on during the visits. -/
def undisturbedTest (st : State) : Action → Bool
  | .dispatch _ q => visited st ≤ q
  | .go _ _ _ => visited st = 0
  | _ => true

lemma undisturbed_of_test (h : undisturbedTest st a = true) :
    Undisturbed build (visited st) st a := by
  cases a with
  | dispatch c q => exact fun _ => of_decide_eq_true h
  | go c mem copied =>
    intro _ _ _ q _ _ _
    rw [of_decide_eq_true h]
    exact Nat.zero_le _
  | _ => trivial

/-- The first process runs, makes a child and sets its own static priority; then comes a clock
interrupt, and the child is dispatched before `update_vals` comes to it. -/
def reniceScript (new : ℤ) : List Action :=
  [.userinit, .dispatch 0 0, .call 0 .fork] ++ List.replicate 4 (.go 0 true true) ++
    [.call 0 (.setPriority new 1), .go 0 true true, .tick, .visit, .dispatch 1 1] ++
    List.replicate 63 .visit

lemma undisturbed_renice (new : ℤ)
    (h : ((traceList (step .pbs) boot (reniceScript new)).all fun x => undisturbedTest x.1 x.2) =
      true) :
    ∀ x ∈ traceList (step .pbs) boot (reniceScript new), Undisturbed .pbs (visited x.1) x.1 x.2 :=
  fun x hx => undisturbed_of_test (List.all_eq_true.1 h x hx)

/-- The theorem at a run in which the first process sets its static priority to 70. -/
theorem settled_of_run_renice : ∃ tr st, Run (step .pbs) boot tr st ∧ (st.proc 0).priority = 75 ∧
    (st.proc 1).state = .running ∧ Settled st := by
  obtain ⟨st, hst, htest⟩ := exists_of_okAnd (runList (step .pbs) boot (reniceScript 70)) (fun st =>
      decide ((st.proc 0).priority = 75 ∧ (st.proc 1).state = .running ∧ st.scan = some NPROC))
      (by decide +kernel)
  obtain ⟨hprio, hchild, hend⟩ := of_decide_eq_true htest
  have hrange :
      ((traceList (step .pbs) boot (reniceScript 70)).all fun x => inRangeTest x.1) = true := by
    decide +kernel
  refine ⟨_, st, .of_runList hst, hprio, hchild, (settled_of_run (.of_runList hst) fun x hx => ?_).2
    (undisturbed_renice 70 (by decide +kernel)) hend⟩
  exact inRange_of_test (List.all_eq_true.1 hrange x hx)

/-- With the largest static priority the dynamic priority gets the lowest number, not the highest.
-/
theorem not_settled_of_max : ¬ ∀ tr st, Run (step .pbs) boot tr st →
    (∀ x ∈ tr, ∀ c new pid, x.2 = .call c (.setPriority new pid) → -2 ^ 31 ≤ new ∧ new < 2 ^ 31) →
    (∀ x ∈ tr, Undisturbed .pbs (visited x.1) x.1 x.2) → st.scan = some NPROC → Settled st := by
  intro hall
  obtain ⟨st, hst, htest⟩ := exists_of_okAnd
      (runList (step .pbs) boot (reniceScript (2 ^ 31 - 1))) (fun st =>
      decide ((st.proc 0).state ≠ .unused ∧ (st.proc 0).priority = 0 ∧ (st.proc 0).niceness = 0 ∧
        (st.proc 0).spriority = 2 ^ 31 - 1 ∧ st.scan = some NPROC)) (by decide +kernel)
  obtain ⟨hlive, hprio, hnice, hstatic, hend⟩ := of_decide_eq_true htest
  have hsettled := hall _ st (.of_runList hst) (fun x hx c new pid hcall => ?_)
    (undisturbed_renice _ (by decide +kernel)) hend
  · have hright := (hsettled.right 0 hlive).priority
    rw [hprio, hnice, hstatic] at hright
    revert hright
    decide
  have hmem := mem_of_mem_traceList hx
  rw [hcall] at hmem
  simp only [reniceScript, List.mem_append, List.mem_replicate, List.mem_cons, Action.call.injEq,
    Call.setPriority.injEq, reduceCtorEq, List.not_mem_nil, or_false, false_or, and_false] at hmem
  omega

end Hexv6.Smp.Dynamic
