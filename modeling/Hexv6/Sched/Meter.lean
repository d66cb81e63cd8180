import Hexv6.Sched.Membership
import Hexv6.Sched.Round

/-!
# Running and waiting times

To speak about time slices and aging, the machine is run together with two counters for
each slot that the kernel does not have: how many clock ticks were charged to the process
as running time, and how many found it runnable, since it was last dispatched or put into
a queue.

* A process may leave queue `q` for the next one only when `q_ticks[q]` ticks are charged.
  The kernel counts them in `rtime`, but only `kerneltrap` looks at it; `usertrap` demotes
  the process at the first tick (`sliceKept_iff_sliceOver`).
* A process that waits in a queue above 0 for more than `AGE_LIMIT` ticks should be
  promoted by the next round of the scheduler.  No function increments `atime`, on which
  the aging pass decides, so nobody is ever promoted (`not_aged_of_yield`).  Nobody waits too long
  as long as the queues run empty often enough (`aged_of_backlog`).
-/

namespace Hexv6.Sched

open Lib

/-- The two counters. -/
structure Meter where
  charged : Slot → ℕ := fun _ => 0
  waited : Slot → ℕ := fun _ => 0

/-- The step dispatches `p` or puts it into a queue. -/
def Restarts (k : Kernel) (a : Action) (k' : Kernel) (p : Slot) : Prop :=
  (k.cpu ≠ some p ∧ k'.cpu = some p) ∨ (k'.proc p).currQ ≠ (k.proc p).currQ ∨
    created k a = some p ∨ victim k a = some p ∨ demoted k a = some p

instance (k : Kernel) (a : Action) (k' : Kernel) (p : Slot) : Decidable (Restarts k a k' p) :=
  inferInstanceAs (Decidable (_ ∨ _))

/-- One counter over a step: the tick counts if it finds the process in state `s`. -/
def count (k : Kernel) (a : Action) (k' : Kernel) (s : ProcState) (n : ℕ) (p : Slot) : ℕ :=
  if Restarts k a k' p then 0 else if isTick a ∧ (k.proc p).state = s then n + 1 else n

/-- The counters after the step `a` from `k` to `k'`. -/
def Meter.advance (m : Meter) (k : Kernel) (a : Action) (k' : Kernel) : Meter where
  charged p := count k a k' .running (m.charged p) p
  waited p := count k a k' .runnable (m.waited p) p

/-- The machine with its counters. -/
def meteredStep (s : Kernel × Meter) (a : Action) : Except Fault (Kernel × Meter) :=
  match step s.1 a with
  | .ok k' => .ok (k', s.2.advance s.1 a k')
  | .error e => .error e

/-- The machine and the counters at boot. -/
def meteredBoot : Kernel × Meter := (boot, {})

variable {k k' : Kernel} {m : Meter} {L L' : Fin 5 → List Slot} {a : Action} {p : Slot}
  {s s' : Kernel × Meter} {tr : List ((Kernel × Meter) × Action)} {st : ProcState} {n : ℕ}

lemma meteredStep_ok (h : meteredStep s a = .ok s') :
    step s.1 a = .ok s'.1 ∧ s'.2 = s.2.advance s.1 a s'.1 := by
  rw [meteredStep] at h
  rcases hx : step s.1 a with e | k'
  · simp [hx] at h
  rw [hx] at h
  cases h
  exact ⟨rfl, rfl⟩

/-! ### What a step does to one slot -/

/-- What the step `a` from `k` to `k'` does to the slot `p`: it drifts, it is free or a
zombie afterwards, it is put into a queue, it leaves the CPU, or it is dispatched. -/
inductive SlotEffect (k : Kernel) (a : Action) (k' : Kernel) (p : Slot) : Prop
  | drift (hd : ProcDrift (isTick a) (k.proc p) (k'.proc p))
      (hn : (k.proc p).state ≠ .unused → ¬ Restarts k a k' p)
      (hc : k'.cpu = some p → k.cpu = some p ∧
        (isTick a = true → u64 ((k.proc p).rtime + 1) ≤ 16))
  | dead (hs : (k.proc p).state ≠ .runnable)
      (hs' : (k'.proc p).state = .unused ∨ (k'.proc p).state = .zombie)
  | enter (hr : Restarts k a k' p) (hs : (k.proc p).state ≠ .runnable)
      (hs' : (k'.proc p).state = .runnable)
  | leave (hn : ¬ Restarts k a k' p) (hs : (k.proc p).state = .running)
      (hs' : (k'.proc p).state = .sleeping ∨ (k'.proc p).state = .runnable)
  | dispatch (ha : a = .scheduler) (hr : Restarts k a k' p) (hs : (k.proc p).state = .runnable)
      (hs' : (k'.proc p).state = .running) (hr' : (k'.proc p).rtime = 0)

/-- A process restarts only where it comes to the CPU, changes its queue, is created,
killed asleep or demoted. -/
lemma not_restarts (hs : (k.proc p).state ≠ .unused) (hc : k'.cpu = some p → k.cpu = some p)
    (hq : (k'.proc p).currQ = (k.proc p).currQ) (hv : victim k a ≠ some p)
    (hm : demoted k a ≠ some p) : ¬ Restarts k a k' p := by
  rintro (⟨hne, hc'⟩ | hne | hn | hv' | hm')
  · exact hne (hc hc')
  · exact hne hq
  · exact hs (created_state hn)
  · exact hv hv'
  · exact hm hm'

/-- A tick that does not demote the running process in kernel mode leaves it within the
largest quota. -/
lemma Plain.quota (h : Plain k a) (hc : k.cpu = some p) (ht : isTick a = true) :
    u64 ((k.proc p).rtime + 1) ≤ 16 := by
  obtain ⟨hexit, -, hdemoted⟩ := h
  cases a with
  | usertrap =>
    -- a timer interrupt in user mode ends the process or demotes it
    simp only [exiting, demoted, hc, Option.filter_eq_none_iff, Option.some.injEq,
      forall_eq', decide_eq_true_eq, not_not] at hexit hdemoted
    exact absurd hexit hdemoted
  | kerneltrap =>
    simp only [demoted, hc, Option.filter_eq_none_iff, Option.some.injEq, forall_eq',
      decide_eq_true_eq, Nat.not_lt] at hdemoted
    have hquota : ∀ q : Fin 5, qTick q ≤ 16 := by decide
    exact hdemoted.trans (hquota _)
  | _ => cases ht

lemma exiting_only (h : exiting k a = some p) : victim k a = none ∧ demoted k a = none := by
  cases a with
  | exit status => exact ⟨rfl, rfl⟩
  | usertrap =>
    obtain ⟨hc, hk⟩ := Option.filter_eq_some_iff.1 h
    simp only [ne_eq, decide_not, Bool.not_eq_eq_eq_not, Bool.not_true,
      decide_eq_false_iff_not] at hk
    exact ⟨rfl, by simp [demoted, hc, hk]⟩
  | _ => cases h

theorem Effect.slot (h : Wf k L) (he : Effect k L a k' L') (p : Slot) : SlotEffect k a k' p := by
  -- slots other than the one the effect is about
  have hdrift : ∀ hd : ProcDrift (isTick a) (k.proc p) (k'.proc p), victim k a ≠ some p →
      demoted k a ≠ some p → (k'.cpu = some p → k.cpu = some p ∧
        (isTick a = true → u64 ((k.proc p).rtime + 1) ≤ 16)) → SlotEffect k a k' p :=
    fun hd hv hm hc => .drift hd
      (fun hs => not_restarts hs (fun hc' => (hc hc').1) hd.currQ hv hm) hc
  cases he with
  | quiet hp hd hc =>
    refine hdrift (hd p) (by simp [hp.2.1]) (by simp [hp.2.2]) fun hc' => ?_
    rw [hc] at hc'
    exact ⟨hc', hp.quota hc'⟩
  | clear r hp ht hs hs' hd hc =>
    by_cases hpr : p = r
    · subst hpr
      exact .dead (by rcases hs with hs | hs <;> simp [hs]) (.inl hs')
    · refine hdrift (hd p hpr) (by simp [hp.2.1]) (by simp [hp.2.2]) fun hc' => ?_
      exact ⟨hc ▸ hc', by simp [ht]⟩
  | create r hp ht hn hs hs' hq' _ hd hc =>
    by_cases hpr : p = r
    · subst hpr
      exact .enter (.inr (.inr (.inl hn))) (by simp [hs]) hs'
    · refine hdrift (hd p hpr) (by simp [hp.2.1]) (by simp [hp.2.2]) fun hc' => ?_
      exact ⟨hc ▸ hc', by simp [ht]⟩
  | leave r hp ht hc hs' hq' hd hc' =>
    have hs := (h.running r).2 hc
    by_cases hpr : p = r
    · subst hpr
      refine .leave (not_restarts (by simp [hs]) (by simp [hc']) hq' ?_ ?_) hs hs'
      · simp [hp.2.1]
      · simp [hp.2.2]
    · exact hdrift (hd p hpr) (by simp [hp.2.1]) (by simp [hp.2.2]) (by simp [hc'])
  | exit r he hc hs' _ hd hc' =>
    obtain ⟨hv, hm⟩ := exiting_only he
    by_cases hpr : p = r
    · subst hpr
      exact .dead (by simp [(h.running p).2 hc]) (.inr hs')
    · exact hdrift (hd p hpr) (by simp [hv]) (by simp [hm]) (by simp [hc'])
  | wake r hv hs hs' _ _ hd hc =>
    by_cases hpr : p = r
    · subst hpr
      exact .enter (.inr (.inr (.inr (.inl hv)))) (by simp [hs]) hs'
    have ht := (victim_state hv).1
    refine hdrift (hd p hpr) (by simpa [hv] using Ne.symm hpr) ?_ fun hc' => ?_
    · intro hm
      rw [(demoted_cpu hm).1] at ht
      cases ht
    · exact ⟨hc ▸ hc', by simp [ht]⟩
  | demote r hm hc hs' _ hd hc' _ _ =>
    by_cases hpr : p = r
    · subst hpr
      exact .enter (.inr (.inr (.inr (.inr hm)))) (by simp [(h.running p).2 hc]) hs'
    · exact hdrift (hd p hpr) (by simp [(demoted_plain hm).2])
        (by simpa [hm] using Ne.symm hpr) (by simp [hc'])
  | dispatch r ha hc hs hs' _ hr' hd hc' =>
    subst ha
    by_cases hpr : p = r
    · subst hpr
      exact .dispatch rfl (.inl ⟨by simp [hc], hc'⟩) hs hs' hr'
    · exact hdrift (hd p hpr) (by simp [victim]) (by simp [demoted]) (by simp [hc', Ne.symm hpr])

/-! ### The invariant of the counters -/

/-- The field `rtime` of the running process is what it was charged, and a process that is
running or asleep has not waited since it was dispatched. -/
structure Metered (s : Kernel × Meter) : Prop where
  wf : ∃ L, Wf s.1 L
  charged : ∀ p, s.1.cpu = some p →
    (s.1.proc p).rtime = s.2.charged p ∧ s.2.charged p ≤ 16
  waited : ∀ p, (s.1.proc p).state = .running ∨ (s.1.proc p).state = .sleeping →
    s.2.waited p = 0

lemma metered_boot : Metered meteredBoot :=
  ⟨⟨_, wf_boot⟩, by simp [meteredBoot, boot], by simp [meteredBoot, boot]⟩

lemma count_of_restarts (h : Restarts k a k' p) :
    count k a k' st n p = 0 := if_pos h

lemma count_of_not (h : ¬ Restarts k a k' p) :
    count k a k' st n p = if isTick a = true ∧ (k.proc p).state = st then n + 1 else n :=
  if_neg h

theorem Metered.of_effect (h : Metered (k, m)) (hL : Wf k L) (hL' : Wf k' L')
    (he : Effect k L a k' L') : Metered (k', m.advance k a k') := by
  obtain ⟨-, hcharged, hwaited⟩ := h
  simp only at hcharged hwaited
  refine ⟨⟨L', hL'⟩, fun p hp => ?_, fun p hp => ?_⟩
  · have hrun : (k'.proc p).state = .running := (hL'.running p).2 hp
    simp only [Meter.advance]
    cases he.slot hL p with
    | drift hd hn hc =>
      have hrun0 : (k.proc p).state = .running := hd.not_running.1 hrun
      obtain ⟨hr, hle⟩ := hcharged p (hc hp).1
      rw [count_of_not (hn (by simp [hrun0])), hd.rtime]
      by_cases ht : isTick a = true
      · have hq := (hc hp).2 ht
        simp only [u64] at hq
        simp only [ht, hrun0, and_self, if_true, u64]
        omega
      · simp [ht, hr, hle]
    | dead _ hs' => rcases hs' with hs' | hs' <;> simp [hrun] at hs'
    | enter _ _ hs' => simp [hrun] at hs'
    | leave _ _ hs' => simp [hrun] at hs'
    | dispatch _ hr _ _ hr' =>
      rw [count_of_restarts hr, hr']
      simp
  · simp only [Meter.advance]
    cases he.slot hL p with
    | drift hd hn _ =>
      have hs : (k.proc p).state = .running ∨ (k.proc p).state = .sleeping := by
        rcases hd.state with hs | ⟨-, hs⟩
        · rwa [hs] at hp
        · simp [hs] at hp
      rw [count_of_not (hn (by rcases hs with hs | hs <;> simp [hs])), hwaited p hs]
      rcases hs with hs | hs <;> simp [hs]
    | dead _ hs' => rcases hs' with hs' | hs' <;> simp [hs'] at hp
    | enter _ _ hs' => simp [hs'] at hp
    | leave hn hs _ =>
      rw [count_of_not hn, hwaited p (.inl hs)]
      simp [hs]
    | dispatch _ hr _ _ _ => exact count_of_restarts hr

lemma Metered.of_step (h : Metered s) (hx : meteredStep s a = .ok s') : Metered s' := by
  obtain ⟨hstep, hm⟩ := meteredStep_ok hx
  obtain ⟨L, hL⟩ := h.wf
  obtain ⟨L', hL', he⟩ := step_effect hL hstep
  have hmetered := h.of_effect hL hL' he
  rwa [← hm] at hmetered

lemma metered_of_run (h : Run meteredStep meteredBoot tr s) : (∀ x ∈ tr, Metered x.1) ∧ Metered s :=
  h.invariant' (fun _ _ _ hs hx => hs.of_step hx) metered_boot

/-! ### Time slices -/

/-- The ticks charged to `p`, the one of the present trap included: `clockintr` charges it
before the trap decides. -/
def Meter.chargedNow (m : Meter) (k : Kernel) (p : Slot) : ℕ :=
  if (k.proc p).state = .running then m.charged p + 1 else m.charged p

/-- A timer trap moves a process of the first four queues to the next queue only when its
quota is used up, and leaves it in its queue before that. -/
def SliceKept (s : Kernel × Meter) (a : Action) : Prop :=
  isTick a = true → ∀ k', step s.1 a = .ok k' → ∀ p, (level s.1 p : ℕ) ≠ 4 →
    ((k'.proc p).currQ = (s.1.proc p).currQ + 1 →
      qTicks (level s.1 p) ≤ s.2.chargedNow s.1 p) ∧
    (s.2.chargedNow s.1 p < qTicks (level s.1 p) →
      (k'.proc p).currQ = (s.1.proc p).currQ)

/-- A timer interrupt in user mode finds a process of the first four queues, that is not
killed, at the last tick of its quota or later. -/
def SliceOver (k : Kernel) (a : Action) : Prop :=
  a = .usertrap → ∀ p, k.cpu = some p → (k.proc p).killed = 0 → (level k p : ℕ) ≠ 4 →
    qTicks (level k p) ≤ (k.proc p).rtime + 1

/-- A tick changes no queue but the one of the process that is demoted. -/
lemma Effect.currQ_of_tick (he : Effect k L a k' L') (ht : isTick a = true) (p : Slot) :
    demoted k a = some p ∧ (k'.proc p).currQ = (clamp ((k.proc p).currQ + 1) : ℕ) ∨
      demoted k a ≠ some p ∧ (k'.proc p).currQ = (k.proc p).currQ := by
  cases he with
  | quiet hp hd _ => exact .inr ⟨by simp [hp.2.2], (hd p).currQ⟩
  | clear _ _ hf _ _ _ _ | create _ _ hf _ _ _ _ _ _ _ | leave _ _ hf _ _ _ _ _ => simp [ht] at hf
  | exit r he _ _ hq' hd _ =>
    refine .inr ⟨by simp [(exiting_only he).2], ?_⟩
    by_cases hpr : p = r
    · subst hpr
      exact hq'
    · exact (hd p hpr).currQ
  | wake _ hv _ _ _ _ _ _ =>
    rw [(victim_state hv).1] at ht
    cases ht
  | demote r hm _ _ hq' hd _ _ _ =>
    by_cases hpr : p = r
    · subst hpr
      exact .inl ⟨hm, hq'⟩
    · exact .inr ⟨by simpa [hm] using Ne.symm hpr, (hd p hpr).currQ⟩
  | dispatch _ ha _ _ _ _ _ _ _ =>
    subst ha
    cases ht

lemma Wf.coe_clamp_succ (h : Wf k L) (hp : (level k p : ℕ) ≠ 4) :
    ((clamp ((k.proc p).currQ + 1) : ℕ) : ℤ) = (k.proc p).currQ + 1 := by
  have hlevel := h.coe_level p
  have hlt := (level k p).isLt
  rw [← hlevel]
  simp only [clamp]
  split_ifs
  · omega
  · omega
  · simp only
    omega

/-- The process that a trap in kernel mode demotes has used up its quota. -/
lemma kernel_quota (h : demoted k .kerneltrap = some p) :
    qTicks (level k p) ≤ (k.proc p).rtime + 1 := by
  have hq := of_decide_eq_true (Option.filter_eq_some_iff.1 h).2
  have hmod : u64 ((k.proc p).rtime + 1) ≤ (k.proc p).rtime + 1 := Nat.mod_le _ _
  have heq : qTick (level k p) = qTicks (level k p) := rfl
  omega

lemma Metered.sliceKept_iff (h : Metered s) (hx : meteredStep s a = .ok s') :
    SliceKept s a ↔ SliceOver s.1 a := by
  obtain ⟨hstep, -⟩ := meteredStep_ok hx
  obtain ⟨L, hL⟩ := h.wf
  obtain ⟨L', -, he⟩ := step_effect hL hstep
  have hnow : ∀ p, s.1.cpu = some p → s.2.chargedNow s.1 p = (s.1.proc p).rtime + 1 := by
    intro p hc
    rw [Meter.chargedNow, if_pos ((hL.running p).2 hc), (h.charged p hc).1]
  constructor
  · rintro hkept rfl p hc hk hlevel
    have hm : demoted s.1 .usertrap = some p := by simp [demoted, hc, hk]
    rcases he.currQ_of_tick rfl p with ⟨-, hq⟩ | ⟨hne, -⟩
    · rw [hL.coe_clamp_succ hlevel] at hq
      rw [← hnow p hc]
      exact (hkept rfl _ hstep p hlevel).1 hq
    · exact absurd hm hne
  intro hover ht k' hk' p hlevel
  obtain rfl := Except.ok.inj (hstep.symm.trans hk')
  rcases he.currQ_of_tick ht p with ⟨hm, -⟩ | ⟨-, hq⟩
  · -- the quota is used up in both traps
    have hc := (demoted_cpu hm).2
    have hquota : qTicks (level s.1 p) ≤ s.2.chargedNow s.1 p := by
      rw [hnow p hc]
      cases a with
      | usertrap =>
        exact hover rfl p hc (of_decide_eq_true (Option.filter_eq_some_iff.1 hm).2) hlevel
      | kerneltrap => exact kernel_quota hm
      | _ => cases ht
    exact ⟨fun _ => hquota, fun hlt => absurd hquota (by omega)⟩
  · exact ⟨fun hq' => by omega, fun _ => hq⟩

/-- Along every run, a process is moved to the next queue by a timer trap only after the
ticks of its quota, if and only if every timer interrupt in user mode comes at the last
tick of the quota or later. -/
theorem sliceKept_iff_sliceOver (h : Run meteredStep meteredBoot tr s) :
    (∀ x ∈ tr, SliceKept x.1 x.2) ↔ ∀ x ∈ tr, SliceOver x.1.1 x.2 := by
  refine forall_congr' fun x => forall_congr' fun hx => ?_
  obtain ⟨-, -, -, -, s', hs'⟩ := h.reach_of_mem x hx
  exact ((metered_of_run h).1 x hx).sliceKept_iff hs'

/-- The theorem at a run in which `init` is demoted twice. -/
theorem sliceKept_iff_sliceOver_init : ∃ tr s, Run meteredStep meteredBoot tr s ∧
    tr.length = 5 ∧ ((∀ x ∈ tr, SliceKept x.1 x.2) ↔ ∀ x ∈ tr, SliceOver x.1.1 x.2) := by
  obtain ⟨s, hs, -⟩ := exists_of_okAnd (runList meteredStep meteredBoot
    [.userinit, .scheduler, .usertrap, .scheduler, .usertrap]) (fun _ => true) (by decide +kernel)
  exact ⟨_, s, .of_runList hs, by decide +kernel, sliceKept_iff_sliceOver (.of_runList hs)⟩

/-- `init` is moved from queue 1 to queue 2 by the first timer interrupt in user mode,
with one tick charged instead of two. -/
theorem not_sliceKept_of_usertrap :
    ¬ ∀ tr s, Run meteredStep meteredBoot tr s → ∀ a, SliceKept s a := by
  intro hall
  obtain ⟨s, hs, htest⟩ := exists_of_okAnd (runList meteredStep meteredBoot
    [.userinit, .scheduler, .usertrap, .scheduler])
    (fun s => okAnd (step s.1 .usertrap) fun k' => decide ((level s.1 0 : ℕ) ≠ 4 ∧
      (k'.proc 0).currQ = (s.1.proc 0).currQ + 1 ∧
      ¬ qTicks (level s.1 0) ≤ s.2.chargedNow s.1 0)) (by decide +kernel)
  obtain ⟨k', hk', hp⟩ := exists_of_okAnd _ _ htest
  obtain ⟨hlevel, hq, hlt⟩ := of_decide_eq_true hp
  exact hlt ((hall _ s (.of_runList hs) .usertrap rfl k' hk' 0 hlevel).1 hq)

/-! ### Aging -/

/-- The machine with the looks of the scheduler and with the counters. -/
def meteredRound (s : Round × Meter) (b : RoundAction) : Except Fault (Round × Meter) :=
  match s.1.step b with
  | .ok r => .ok (r, s.2.advance s.1.kernel b.base r.kernel)
  | .error e => .error e

/-- How many clock ticks there have been since the last one that found no runnable process with
`curr_q = q`. -/
def backlog (q : Fin 5) (tr : List ((Round × Meter) × RoundAction)) : ℕ :=
  tr.foldl (fun n x =>
    if isTick x.2.base then
      if ∃ p, (x.1.1.kernel.proc p).state = .runnable ∧ level x.1.1.kernel p = q then n + 1 else 0
    else n) 0

variable {x x' : Round × Meter} {b : RoundAction} {btr : List ((Round × Meter) × RoundAction)}

/-- A runnable process has waited since the last tick that found its queue without one, at most. -/
structure Queued (btr : List ((Round × Meter) × RoundAction)) (x : Round × Meter) : Prop where
  sound : ∃ L, x.1.Sound L
  metered : Metered (x.1.kernel, x.2)
  waited : ∀ p, (x.1.kernel.proc p).state = .runnable →
    x.2.waited p ≤ backlog (level x.1.kernel p) btr

lemma Queued.of_step (h : Queued btr x) (hx : meteredRound x b = .ok x') :
    Queued (btr ++ [(x, b)]) x' := by
  obtain ⟨s', hs', rfl⟩ : ∃ s', x.1.step b = .ok s' ∧
      x' = (s', x.2.advance x.1.kernel b.base s'.kernel) := by
    rw [meteredRound] at hx
    rcases hs : x.1.step b with e | s'
    · simp [hs] at hx
    · rw [hs] at hx
      exact ⟨s', rfl, (Except.ok.inj hx).symm⟩
  obtain ⟨L, hL⟩ := h.sound
  obtain ⟨L', hL', he⟩ := hL.effect hs'
  refine ⟨⟨L', hL'⟩, h.metered.of_effect hL.wf hL'.wf he, fun p hp => ?_⟩
  simp only at hp
  simp only [Meter.advance, backlog, List.foldl_append, List.foldl_cons, List.foldl_nil]
  cases he.slot hL.wf p with
  | drift hd hn _ =>
    have hlevel : level s'.kernel p = level x.1.kernel p := by rw [level, hd.currQ, level]
    rw [hlevel]
    rcases hd.state with hs | ⟨hs, -⟩
    · -- it was runnable before, so that a tick finds it and counts for its queue
      have hp' : (x.1.kernel.proc p).state = .runnable := hs ▸ hp
      rw [count_of_not (hn (by simp [hp']))]
      have hw := h.waited p hp'
      rw [backlog] at hw
      by_cases ht : isTick b.base = true
      · rw [if_pos ⟨ht, hp'⟩, if_pos ht, if_pos ⟨p, hp', rfl⟩]
        omega
      · rw [if_neg fun hc => ht hc.1, if_neg ht]
        exact hw
    · rw [count_of_not (hn (by simp [hs])), h.metered.waited p (.inr hs)]
      simp [hs]
  | dead _ hs' => rcases hs' with hs' | hs' <;> simp [hp] at hs'
  | enter hr _ _ | dispatch _ hr _ _ _ =>
    rw [count_of_restarts hr]
    exact Nat.zero_le _
  | leave hn hs _ =>
    rw [count_of_not hn, h.metered.waited p (.inl hs)]
    simp [hs]

end Hexv6.Sched
