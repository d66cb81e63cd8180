import Hexv6.Sched.Mlfq

/-!
# What a step of the MLFQ build can do

Every step of the machine has one of eight effects on the process states, the levels and
the queues: nothing but drift (sleepers wake up, counters run), a slot is cleared, a
process is created, the running process sleeps or yields, it exits, a sleeping victim of
`kill` is woken, the running process is demoted, or a process is dispatched.  `Effect`
lists them with all they change, and `step_effect` shows that a step from a well-formed
state has one of them and leads to a well-formed state.  Everything proved later about
the queues follows from these two.
-/

namespace Hexv6.Sched

open Lib List Function

/-- The queue that a process is in according to its field `curr_q`. -/
def level (k : Kernel) (p : Slot) : Fin 5 := clamp (k.proc p).currQ

lemma clamp_coe (c : Fin 5) : clamp ((c : ℕ) : ℤ) = c := by
  ext
  have := c.isLt
  simp only [clamp]
  split_ifs
  · omega
  · omega
  · simp

/-! ### Well-formed states -/

/-- The rows represent the lists `L`, the process of the CPU is the running one, no
process has an age, every `curr_q` is the number of a queue, and there is no process
before `userinit`. -/
structure Wf (k : Kernel) (L : Fin 5 → List Slot) : Prop where
  rows : Rows k.queues k.qIndex L
  running : ∀ p, (k.proc p).state = .running ↔ k.cpu = some p
  atime : ∀ p, (k.proc p).atime = 0
  currQ : ∀ p, 0 ≤ (k.proc p).currQ ∧ (k.proc p).currQ ≤ 4
  fresh : k.initproc = none → (∀ p, (k.proc p).state = .unused) ∧ ∀ q, L q = []

lemma wf_boot : Wf boot fun _ => [] :=
  ⟨Rows.init, by simp [boot], by simp [boot], by simp [boot], by simp [boot]⟩

lemma Wf.index_eq {k : Kernel} {L : Fin 5 → List Slot} (h : Wf k L) (p : Slot) :
    index (k.proc p).currQ = .ok (level k p) := by
  rw [index, if_pos (h.currQ p)]
  rfl

/-! ### Drift -/

/-- From `t` to `t'` a slot has changed at most by a wakeup, by counters, by the flag
`killed` or by a new parent; with `tick`, one clock tick has been charged. -/
structure ProcDrift (tick : Bool) (r r' : Proc) : Prop where
  state : r'.state = r.state ∨ r.state = .sleeping ∧ r'.state = .runnable
  currQ : r'.currQ = r.currQ
  pid : r'.pid = r.pid
  atime : r'.atime = r.atime
  rtime : r'.rtime = if tick ∧ r.state = .running then u64 (r.rtime + 1) else r.rtime

lemma ProcDrift.refl (r : Proc) : ProcDrift false r r := ⟨.inl rfl, rfl, rfl, rfl, by simp⟩

variable {b : Bool}

lemma ProcDrift.trans {r r' r'' : Proc} (h : ProcDrift b r r')
    (h' : ProcDrift false r' r'') : ProcDrift b r r'' := by
  refine ⟨?_, h'.currQ.trans h.currQ, h'.pid.trans h.pid, h'.atime.trans h.atime, ?_⟩
  · rcases h'.state with hs | ⟨hs, hs'⟩
    · rw [hs]
      exact h.state
    rcases h.state with hr | ⟨hr, hr'⟩
    · exact .inr ⟨hr ▸ hs, hs'⟩
    · rw [hs] at hr'
      cases hr'
  · rw [← h.rtime]
    simpa using h'.rtime

lemma ProcDrift.not_running {r r' : Proc} (h : ProcDrift b r r') :
    r'.state = .running ↔ r.state = .running := by
  rcases h.state with hs | ⟨hs, hs'⟩
  · rw [hs]
  · simp [hs, hs']

/-- Drift in every slot. -/
def Drift (tick : Bool) (t t' : ProcTable) : Prop := ∀ r, ProcDrift tick (t r) (t' r)

/-- Drift in every slot but `p`. -/
def DriftOff (tick : Bool) (p : Slot) (t t' : ProcTable) : Prop :=
  ∀ r, r ≠ p → ProcDrift tick (t r) (t' r)

lemma Drift.refl (t : ProcTable) : Drift false t t := fun r => .refl (t r)

lemma Drift.trans {t t' t'' : ProcTable} (h : Drift b t t')
    (h' : Drift false t' t'') : Drift b t t'' := fun r => (h r).trans (h' r)

lemma Drift.update {t t' : ProcTable} (h : Drift b t t') (p : Slot) (x : Proc) :
    DriftOff b p t (update t' p x) := by
  intro r hr
  rw [update_of_ne hr]
  exact h r

lemma drift_wakeup (t : ProcTable) (cur : Option Slot) (chan : Chan) :
    Drift false t (wakeup t cur chan) := by
  intro r
  simp only [wakeup]
  split_ifs with h
  · exact ⟨.inr ⟨h.2.1, rfl⟩, rfl, rfl, rfl, by simp⟩
  · exact .refl _

lemma drift_updateVals (t : ProcTable) : Drift true t (updateVals t) := by
  intro r
  refine ⟨.inl ?_, ?_, ?_, ?_, ?_⟩
  · simp [updateVals]
  · simp [updateVals]
  · simp [updateVals]
  · simp [updateVals]
  · simp [updateVals, updateVals_rtime]

lemma drift_parent (t : ProcTable) (p : Slot) (q : Option Slot) :
    Drift false t (update t p { t p with parent := q }) := by
  intro r
  by_cases hr : r = p
  · subst hr
    rw [update_self]
    exact ⟨.inl rfl, rfl, rfl, rfl, by simp⟩
  · rw [update_of_ne hr]
    exact .refl _

/-- The loop of `reparent` keeps drifting from the table it started with. -/
lemma drift_reparent (t : ProcTable) (cur initproc : Option Slot) (p : Slot) :
    Drift false t (reparent t cur initproc p) := by
  rw [reparent]
  generalize slots = l
  induction l generalizing t with
  | nil => exact .refl t
  | cons pp l ih =>
    rw [foldl_cons]
    refine Drift.trans ?_ (ih _)
    split_ifs
    · exact (drift_parent t pp initproc).trans (drift_wakeup _ _ _)
    · exact .refl t

/-! ### The effects -/

/-- Whether the action brings a clock tick. -/
def isTick : Action → Bool
  | .usertrap => true
  | .kerneltrap => true
  | _ => false

/-- The slot that gets a new process. -/
def created (k : Kernel) : Action → Option Slot
  | .userinit => freeSlot k.proc
  | .fork mem copied => if mem ∧ copied then freeSlot k.proc else none
  | _ => none

/-- The process that exits: by `exit`, or because it was killed and a timer interrupt
comes in user mode. -/
def exiting (k : Kernel) : Action → Option Slot
  | .exit _ => k.cpu
  | .usertrap => k.cpu.filter fun p => (k.proc p).killed ≠ 0
  | _ => none

/-- The sleeping process that `kill` finds and wakes. -/
def victim (k : Kernel) : Action → Option Slot
  | .kill pid => (findPid k.proc pid).filter fun p => (k.proc p).state = .sleeping
  | _ => none

/-- The process that a timer interrupt moves to the next queue: in user mode always, in
kernel mode when its running time is over the quota. -/
def demoted (k : Kernel) : Action → Option Slot
  | .usertrap => k.cpu.filter fun p => (k.proc p).killed = 0
  | .kerneltrap => k.cpu.filter fun p => qTick (level k p) < u64 ((k.proc p).rtime + 1)
  | _ => none

lemma created_state {k : Kernel} {a : Action} {p : Slot} (h : created k a = some p) :
    (k.proc p).state = .unused := by
  cases a with
  | userinit => exact freeSlot_state h
  | fork mem copied =>
    simp only [created] at h
    split_ifs at h
    exact freeSlot_state h
  | _ => cases h

lemma victim_state {k : Kernel} {a : Action} {p : Slot} (h : victim k a = some p) :
    isTick a = false ∧ (k.proc p).state = .sleeping := by
  cases a with
  | kill pid => exact ⟨rfl, of_decide_eq_true (Option.filter_eq_some_iff.1 h).2⟩
  | _ => cases h

lemma demoted_cpu {k : Kernel} {a : Action} {p : Slot} (h : demoted k a = some p) :
    isTick a = true ∧ k.cpu = some p := by
  cases a with
  | usertrap | kerneltrap => exact ⟨rfl, (Option.filter_eq_some_iff.1 h).1⟩
  | _ => cases h

/-- A step without exit, without a sleeping victim and without demotion. -/
def Plain (k : Kernel) (a : Action) : Prop :=
  exiting k a = none ∧ victim k a = none ∧ demoted k a = none

/-- The effects of a step `a` from `k` to `k'`, with the lists before and after it. -/
inductive Effect (k : Kernel) (L : Fin 5 → List Slot) (a : Action) (k' : Kernel) :
    (Fin 5 → List Slot) → Prop
  | quiet (hp : Plain k a) (hd : Drift (isTick a) k.proc k'.proc) (hc : k'.cpu = k.cpu) :
      Effect k L a k' L
  | clear (p : Slot) (hp : Plain k a) (ht : isTick a = false)
      (hs : (k.proc p).state = .unused ∨ (k.proc p).state = .zombie)
      (hs' : (k'.proc p).state = .unused)
      (hd : DriftOff (isTick a) p k.proc k'.proc) (hc : k'.cpu = k.cpu) :
      Effect k L a k' L
  | create (p : Slot) (hp : Plain k a) (ht : isTick a = false) (hn : created k a = some p)
      (hs : (k.proc p).state = .unused)
      (hs' : (k'.proc p).state = .runnable) (hq' : (k'.proc p).currQ = 0)
      (hroom : (L 0).length < NPROC)
      (hd : DriftOff (isTick a) p k.proc k'.proc) (hc : k'.cpu = k.cpu) :
      Effect k L a k' (update L 0 (L 0 ++ [p]))
  | leave (p : Slot) (hp : Plain k a) (ht : isTick a = false) (hc : k.cpu = some p)
      (hs' : (k'.proc p).state = .sleeping ∨ (k'.proc p).state = .runnable)
      (hq' : (k'.proc p).currQ = (k.proc p).currQ)
      (hd : DriftOff (isTick a) p k.proc k'.proc) (hc' : k'.cpu = none) :
      Effect k L a k' L
  | exit (p : Slot) (he : exiting k a = some p) (hc : k.cpu = some p)
      (hs' : (k'.proc p).state = .zombie) (hq' : (k'.proc p).currQ = (k.proc p).currQ)
      (hd : DriftOff (isTick a) p k.proc k'.proc) (hc' : k'.cpu = none) :
      Effect k L a k' L
  | wake (p : Slot) (hv : victim k a = some p) (hs : (k.proc p).state = .sleeping)
      (hs' : (k'.proc p).state = .runnable) (hq' : (k'.proc p).currQ = 0)
      (hroom : (L 0).length < NPROC)
      (hd : DriftOff (isTick a) p k.proc k'.proc) (hc : k'.cpu = k.cpu) :
      Effect k L a k' (update L 0 (L 0 ++ [p]))
  | demote (p : Slot) (hm : demoted k a = some p) (hc : k.cpu = some p)
      (hs' : (k'.proc p).state = .runnable)
      (hq' : (k'.proc p).currQ = (clamp ((k.proc p).currQ + 1) : ℕ))
      (hd : DriftOff (isTick a) p k.proc k'.proc) (hc' : k'.cpu = none)
      {L₁ : Fin 5 → List Slot}
      (hL₁ : L₁ = update L (level k p)
        (eraseLast (samePid k.proc p) (L (level k p))))
      (hroom : (L₁ (clamp ((k.proc p).currQ + 1))).length < NPROC) :
      Effect k L a k' (update L₁ (clamp ((k.proc p).currQ + 1))
        (L₁ (clamp ((k.proc p).currQ + 1)) ++ [p]))
  | dispatch (p : Slot) (ha : a = .scheduler) (hc : k.cpu = none)
      (hs : (k.proc p).state = .runnable) (hs' : (k'.proc p).state = .running)
      (hq' : (k'.proc p).currQ = (k.proc p).currQ) (hr' : (k'.proc p).rtime = 0)
      (hd : DriftOff (isTick a) p k.proc k'.proc) (hc' : k'.cpu = some p) :
      Effect k L a k' L

variable {k k₁ k' : Kernel} {L L' : Fin 5 → List Slot} {a : Action} {p : Slot} {q : Fin 5}

/-- The kernel state after drift: only slots and the clock have moved. -/
structure Drifted (tick : Bool) (k k₁ : Kernel) : Prop where
  drift : Drift tick k.proc k₁.proc
  cpu : k₁.cpu = k.cpu
  queues : k₁.queues = k.queues
  qIndex : k₁.qIndex = k.qIndex
  initproc : k₁.initproc = k.initproc

lemma Drifted.refl (k : Kernel) : Drifted false k k := ⟨.refl _, rfl, rfl, rfl, rfl⟩

lemma drifted_clockintr (k : Kernel) : Drifted true k (clockintr k) :=
  ⟨(drift_updateVals k.proc).trans (drift_wakeup _ _ _), rfl, rfl, rfl, rfl⟩

/-- Drift keeps a state well formed. -/
lemma Wf.drift (h : Wf k L) (hd : Drifted b k k₁) : Wf k₁ L where
  rows := by rw [hd.queues, hd.qIndex]; exact h.rows
  running p := by rw [(hd.drift p).not_running, hd.cpu, h.running]
  atime p := by rw [(hd.drift p).atime, h.atime]
  currQ p := by rw [(hd.drift p).currQ]; exact h.currQ p
  fresh hn := by
    rw [hd.initproc] at hn
    refine ⟨fun p => ?_, (h.fresh hn).2⟩
    have hs := (h.fresh hn).1 p
    rcases (hd.drift p).state with hs' | ⟨hs', -⟩
    · rw [hs', hs]
    · rw [hs] at hs'
      cases hs'

/-- A change of the slot `p` keeps a state well formed when `p` agrees with the CPU. -/
lemma Wf.slot (h : Wf k L) (hd : DriftOff b p k.proc k'.proc)
    (hrows : Rows k'.queues k'.qIndex L')
    (hcpu : ∀ r, r ≠ p → (k'.cpu = some r ↔ k.cpu = some r))
    (hrun : (k'.proc p).state = .running ↔ k'.cpu = some p)
    (hat : (k'.proc p).atime = 0)
    (hq : 0 ≤ (k'.proc p).currQ ∧ (k'.proc p).currQ ≤ 4) (hi : k'.initproc ≠ none) :
    Wf k' L' where
  rows := hrows
  running r := by
    by_cases hr : r = p
    · subst hr
      exact hrun
    · rw [(hd r hr).not_running, hcpu r hr, h.running]
  atime r := by
    by_cases hr : r = p
    · subst hr
      exact hat
    · rw [(hd r hr).atime, h.atime]
  currQ r := by
    by_cases hr : r = p
    · subst hr
      exact hq
    · rw [(hd r hr).currQ]
      exact h.currQ r
  fresh hn := absurd hn hi

lemma Wf.initproc_ne (h : Wf k L) (hc : k.cpu = some p) : k.initproc ≠ none := by
  intro hn
  have hs := (h.running p).2 hc
  rw [(h.fresh hn).1 p] at hs
  cases hs

/-- A slot that is not running is not the process of the CPU. -/
lemma Wf.cpu_ne (h : Wf k L) (hs : (k.proc p).state ≠ .running) : k.cpu ≠ some p :=
  fun hc => hs ((h.running p).2 hc)

/-- A successful `push` found room in its row. -/
lemma push_ok {q : ℤ} (hp : push k p q = .ok k') (h : Rows k.queues k.qIndex L) :
    (L (clamp q)).length < NPROC ∧
    ∃ qs is, k' = { k with
        queues := qs, qIndex := is
        proc := update k.proc p ((k.proc p).enter (clamp q)) } ∧
      Rows qs is (update L (clamp q) (L (clamp q) ++ [p])) := by
  rcases Nat.lt_or_ge (L (clamp q)).length NPROC with hroom | hfull
  · obtain ⟨qs, is, heq, hrows⟩ := push_spec h p q hroom
    rw [heq] at hp
    exact ⟨hroom, qs, is, (Except.ok.inj hp).symm, hrows⟩
  · rw [push_full h p q (le_antisymm (h.length_le _) hfull)] at hp
    cases hp

section

variable (h : Wf k L)
include h

/-- Putting a fresh process into queue 0. -/
lemma create_effect (hplain : Plain k a) (ht : isTick a = false)
    (hn : created k a = some p) (hs : (k.proc p).state = .unused)
    (hrows : Rows k₁.queues k₁.qIndex L) (hcpu : k₁.cpu = k.cpu) (hi : k₁.initproc ≠ none)
    (hs₁ : (k₁.proc p).state = .runnable) (hd : DriftOff (isTick a) p k.proc k₁.proc)
    (hp : push k₁ p 0 = .ok k') : ∃ L', Wf k' L' ∧ Effect k L a k' L' := by
  have hne : k.cpu ≠ some p := h.cpu_ne (by simp [hs])
  obtain ⟨hroom, qs, is, rfl, hrows'⟩ := push_ok hp hrows
  have hd' : DriftOff (isTick a) p k.proc (update k₁.proc p ((k₁.proc p).enter (clamp 0))) := by
    intro r hr
    rw [update_of_ne hr]
    exact hd r hr
  refine ⟨_, h.slot hd' hrows' (fun r _ => by rw [hcpu]) ?_ ?_ ?_ hi,
    .create p hplain ht hn hs ?_ ?_ hroom hd' hcpu⟩
  · simp [Proc.enter, hs₁, hcpu, hne]
  · simp [Proc.enter]
  · simp [Proc.enter, clamp]
  · simp [Proc.enter, hs₁]
  · simp [Proc.enter, clamp]

/-- Clearing a slot. -/
lemma clear_effect (hplain : Plain k a) (ht : isTick a = false)
    (hs : (k.proc p).state = .unused ∨ (k.proc p).state = .zombie) (x : Proc) (n : ℤ)
    (hi : k.initproc ≠ none) :
    ∃ L', Wf { k with proc := update k.proc p x.freeproc, nextpid := n } L' ∧
      Effect k L a { k with proc := update k.proc p x.freeproc, nextpid := n } L' := by
  have hne : k.cpu ≠ some p := h.cpu_ne (by rcases hs with hs | hs <;> simp [hs])
  have hd : DriftOff (isTick a) p k.proc (update k.proc p x.freeproc) := by
    rw [ht]
    exact (Drift.refl k.proc).update p _
  refine ⟨L, h.slot hd h.rows (fun r _ => Iff.rfl) ?_ ?_ ?_ hi, .clear p hplain ht hs ?_ hd rfl⟩
  · simp [Proc.freeproc, hne]
  · simp [Proc.freeproc]
  · simp [Proc.freeproc]
  · simp [Proc.freeproc]

lemma userinit_effect (hi : k.initproc = none) (hu : userinit k = .ok k') :
    ∃ L', Wf k' L' ∧ Effect k L .userinit k' L' := by
  have hplain : Plain k .userinit := ⟨rfl, rfl, rfl⟩
  -- the rows were empty, so clearing them changes nothing
  have hrows : Rows (fun _ _ => none) k.qIndex L := by
    refine ⟨fun q => ?_, h.rows.index⟩
    rw [(h.fresh hi).2 q]
    exact .empty
  rcases allocproc_cases k.proc k.nextpid k.ticks true with ⟨-, heq⟩ | ⟨p, hf, ⟨-, heq⟩ | ⟨hm, -⟩⟩
  · simp [userinit, heq] at hu
  · simp only [userinit, heq] at hu
    refine create_effect h hplain rfl hf (freeSlot_state hf) ?_ ?_ ?_ ?_ ?_ hu
    · exact hrows
    · rfl
    · simp
    · simp
    · rw [update_idem]
      exact (Drift.refl k.proc).update p _
  · cases hm

lemma fork_effect (hc : k.cpu = some p) {mem copied : Bool}
    (hx : fork k p mem copied = .ok k') :
    ∃ L', Wf k' L' ∧ Effect k L (.fork mem copied) k' L' := by
  have hplain : Plain k (.fork mem copied) := ⟨rfl, rfl, rfl⟩
  have hi := h.initproc_ne hc
  rcases allocproc_cases k.proc k.nextpid k.ticks mem with ⟨-, heq⟩ | ⟨np, hf, ⟨hm, heq⟩ | ⟨-, heq⟩⟩
  · simp only [fork, heq, Except.ok.injEq] at hx
    subst hx
    exact ⟨L, h.drift (.refl k), .quiet hplain (.refl k.proc) rfl⟩
  · simp only [fork, heq] at hx
    cases copied with
    | true =>
      rw [if_pos rfl] at hx
      have hn : created k (.fork mem true) = some np := by simp [created, hm, hf]
      refine create_effect h hplain rfl hn (freeSlot_state hf) ?_ ?_ ?_ ?_ ?_ hx
      · exact h.rows
      · rfl
      · exact hi
      · simp
      · rw [update_idem]
        exact (Drift.refl k.proc).update np _
    | false =>
      simp only [Bool.false_eq_true, if_false, update_idem, update_self, Except.ok.injEq] at hx
      subst hx
      exact clear_effect h hplain rfl (.inl (freeSlot_state hf)) _ _ hi
  · simp only [fork, heq, Except.ok.injEq] at hx
    subst hx
    exact clear_effect h hplain rfl (.inl (freeSlot_state hf)) _ _ hi

/-- The running process gives up the CPU without exiting. -/
lemma leave_effect (hplain : Plain k a) (ht : isTick a = false)
    (hc : k.cpu = some p) (x : Proc) (hx : x.state = .sleeping ∨ x.state = .runnable)
    (hq : x.currQ = (k.proc p).currQ) (hat : x.atime = (k.proc p).atime) :
    ∃ L', Wf { k with proc := update k.proc p x, cpu := none } L' ∧
      Effect k L a { k with proc := update k.proc p x, cpu := none } L' := by
  have hd : DriftOff (isTick a) p k.proc (update k.proc p x) := by
    rw [ht]
    exact (Drift.refl k.proc).update p _
  refine ⟨L, h.slot hd h.rows ?_ ?_ ?_ ?_ (h.initproc_ne hc),
    .leave p hplain ht hc (by simpa using hx) (by simpa using hq) hd rfl⟩
  · intro r hr
    simp [hc, Ne.symm hr]
  · rcases hx with hx | hx <;> simp [hx]
  · simp [hat, h.atime]
  · simpa [hq] using h.currQ p

lemma sleep_effect (hplain : Plain k a) (ht : isTick a = false)
    (hc : k.cpu = some p) (chan : Chan) :
    ∃ L', Wf (sleep k p chan) L' ∧ Effect k L a (sleep k p chan) L' :=
  leave_effect h hplain ht hc _ (.inl rfl) rfl rfl

/-- A step that changes nothing. -/
lemma idle_effect (hplain : Plain k a) (ht : isTick a = false) :
    ∃ L', Wf k L' ∧ Effect k L a k L' :=
  ⟨L, h, .quiet hplain (by rw [ht]; exact .refl k.proc) rfl⟩

lemma wait_effect (hplain : Plain k a) (ht : isTick a = false)
    (hc : k.cpu = some p) (copied : Bool) :
    ∃ L', Wf (wait k p copied) L' ∧ Effect k L a (wait k p copied) L' := by
  rcases hz : findZombie k.proc p with _ | np
  · simp only [wait, hz]
    split_ifs
    · exact idle_effect h hplain ht
    · exact sleep_effect h hplain ht hc _
  have hs : (k.proc np).state = .zombie := by
    have := find?_some hz
    simp only [decide_eq_true_eq] at this
    exact this.2
  cases copied with
  | true =>
    simp only [wait, hz, if_true]
    exact clear_effect h hplain ht (.inr hs) _ k.nextpid (h.initproc_ne hc)
  | false =>
    simp only [wait, hz, Bool.false_eq_true, if_false]
    exact idle_effect h hplain ht

end

/-- `waitx` changes the state as `wait` does. -/
lemma waitx_eq_wait (k : Kernel) (p : Slot) (copied : Bool) :
    (waitx k p copied).1 = wait k p copied := by
  simp only [waitx, wait]
  split
  · cases copied <;> rfl
  · split_ifs <;> rfl

section

variable (h : Wf k L)
include h

lemma kill_effect (hi : k.initproc ≠ none) {pid : ℤ} (hk : kill k pid = .ok k') :
    ∃ L', Wf k' L' ∧ Effect k L (.kill pid) k' L' := by
  rcases hf : findPid k.proc pid with _ | p
  · simp only [kill, hf, Except.ok.injEq] at hk
    subst hk
    exact idle_effect h ⟨rfl, by simp [victim, hf], rfl⟩ rfl
  simp only [kill, hf] at hk
  split_ifs at hk with hs
  · have hv : victim k (.kill pid) = some p := by simp [victim, hf, hs]
    have hne : k.cpu ≠ some p := h.cpu_ne (by simp [hs])
    obtain ⟨hroom, qs, is, rfl, hrows⟩ := push_ok hk h.rows
    have hd : ∀ x y : Proc, DriftOff false p k.proc (update (update k.proc p x) p y) := by
      intro x y
      rw [update_idem]
      exact (Drift.refl k.proc).update p _
    refine ⟨_, h.slot (hd _ _) hrows (fun r _ => Iff.rfl) ?_ ?_ ?_ hi,
      .wake p hv hs ?_ ?_ hroom (hd _ _) rfl⟩
    · simp [Proc.enter, hne]
    · simp [Proc.enter]
    · simp [Proc.enter, clamp]
    · simp [Proc.enter]
    · simp [Proc.enter, clamp]
  · simp only [Except.ok.injEq] at hk
    subst hk
    have hd : Drift false k.proc (update k.proc p { k.proc p with killed := 1 }) := by
      intro r
      by_cases hr : r = p
      · subst hr
        rw [update_self]
        exact ⟨.inl rfl, rfl, rfl, rfl, by simp⟩
      · rw [update_of_ne hr]
        exact .refl _
    exact ⟨L, h.drift ⟨hd, rfl, rfl, rfl, rfl⟩, .quiet ⟨rfl, by simp [victim, hf, hs], rfl⟩ hd rfl⟩

lemma exit_effect (hd : Drifted (isTick a) k k₁) (he : exiting k a = some p)
    (hc : k.cpu = some p) {status : ℤ} (hx : exit k₁ p status = .ok k') :
    ∃ L', Wf k' L' ∧ Effect k L a k' L' := by
  simp only [exit] at hx
  split_ifs at hx
  simp only [Except.ok.injEq] at hx
  subst hx
  -- reparenting and waking the parent is drift, on top of a possible tick
  have hdrift : Drift (isTick a) k.proc (wakeup (reparent k₁.proc k₁.cpu k₁.initproc p) k₁.cpu
        (.ofPtr (reparent k₁.proc k₁.cpu k₁.initproc p p).parent)) :=
    (hd.drift.trans (drift_reparent _ _ _ _)).trans (drift_wakeup _ _ _)
  generalize hg : wakeup (reparent k₁.proc k₁.cpu k₁.initproc p) k₁.cpu
        (.ofPtr (reparent k₁.proc k₁.cpu k₁.initproc p p).parent) = t at hdrift ⊢
  have hoff := fun x => hdrift.update p x
  have hinit : k₁.initproc ≠ none := by
    rw [hd.initproc]
    exact h.initproc_ne hc
  refine ⟨L, h.slot (hoff _) ?_ ?_ ?_ ?_ ?_ hinit, .exit p he hc ?_ ?_ (hoff _) rfl⟩
  · simp only [hd.queues, hd.qIndex]
    exact h.rows
  · intro r hr
    simp [hc, Ne.symm hr]
  · simp
  · simp [(hdrift p).atime, h.atime]
  · simpa [(hdrift p).currQ] using h.currQ p
  · simp
  · simp [(hdrift p).currQ]

lemma demote_effect (hd : Drifted (isTick a) k k₁) (hm : demoted k a = some p)
    (hc : k.cpu = some p) (hx : demote k₁ p = .ok k') :
    ∃ L', Wf k' L' ∧ Effect k L a k' L' := by
  have h1 : Wf k₁ L := h.drift hd
  have hq : (k₁.proc p).currQ = (k.proc p).currQ := (hd.drift p).currQ
  have hpid : samePid k₁.proc p = samePid k.proc p := by
    funext e
    simp [samePid, (hd.drift p).pid, (hd.drift e).pid]
  obtain ⟨qs, is, hpop, hrows⟩ := pop_spec h1.rows p
  simp only [demote, hpop, ok_bind, bind_eq_ok, pure_eq_ok, Except.ok.injEq] at hx
  obtain ⟨k2, hpush, rfl⟩ := hx
  rw [hpid, hq] at hrows
  obtain ⟨hroom, qs', is', rfl, hrows'⟩ := push_ok hpush hrows
  simp only [hq] at hroom hrows'
  have hoff : ∀ x y : Proc, DriftOff (isTick a) p k.proc (update (update k₁.proc p x) p y) := by
    intro x y
    rw [update_idem]
    exact hd.drift.update p _
  have hinit : k₁.initproc ≠ none := by
    rw [hd.initproc]
    exact h.initproc_ne hc
  refine ⟨_, h.slot (hoff _ _) hrows' ?_ ?_ ?_ ?_ hinit,
    .demote p hm hc ?_ ?_ (hoff _ _) rfl rfl hroom⟩
  · intro r hr
    simp [yield, hc, Ne.symm hr]
  · simp [yield]
  · simp [yield, Proc.enter]
  · have := (clamp ((k₁.proc p).currQ + 1)).isLt
    simp only [yield, Proc.enter, update_self]
    omega
  · simp [yield]
  · simp [yield, Proc.enter, hq]

lemma usertrap_effect (hc : k.cpu = some p) (hx : usertrap k p = .ok k') :
    ∃ L', Wf k' L' ∧ Effect k L .usertrap k' L' := by
  have hkilled : ((clockintr k).proc p).killed = (k.proc p).killed := by
    simp [clockintr, wakeup_killed, updateVals]
  simp only [usertrap, hkilled] at hx
  split_ifs at hx with hk
  · exact exit_effect h (drifted_clockintr k) (by simpa [exiting, hc] using hk) hc hx
  · exact demote_effect h (drifted_clockintr k) (by simpa [demoted, hc] using hk) hc hx

/-- A timer interrupt in kernel mode demotes the running process when its running time,
with the present tick, is over the quota of its queue. -/
lemma kerneltrap_eq (hc : k.cpu = some p) :
    kerneltrap k = if qTick (level k p) < u64 ((k.proc p).rtime + 1) then
      demote (clockintr k) p else .ok (clockintr k) := by
  have hd := drifted_clockintr k
  have hc1 : (clockintr k).cpu = some p := hc
  have hrun : (k.proc p).state = .running := (h.running p).2 hc
  have hrun1 : ((clockintr k).proc p).state = .running := (hd.drift p).not_running.2 hrun
  have hlevel : level (clockintr k) p = level k p := by rw [level, level, (hd.drift p).currQ]
  have hrtime : ((clockintr k).proc p).rtime = u64 ((k.proc p).rtime + 1) := by
    rw [(hd.drift p).rtime]
    simp [hrun]
  simp only [kerneltrap, hc1, if_pos hrun1, (h.drift hd).index_eq p, ok_bind, hlevel, hrtime,
    pure_eq_ok, gt_iff_lt]

lemma kerneltrap_effect (hx : kerneltrap k = .ok k') :
    ∃ L', Wf k' L' ∧ Effect k L .kerneltrap k' L' := by
  have hd := drifted_clockintr k
  rcases hc : k.cpu with _ | p
  · have hc1 : (clockintr k).cpu = none := hc
    simp only [kerneltrap, hc1, Except.ok.injEq] at hx
    subst hx
    exact ⟨L, h.drift hd, .quiet ⟨rfl, rfl, by simp [demoted, hc]⟩ hd.drift rfl⟩
  rw [kerneltrap_eq h hc] at hx
  split_ifs at hx with hq
  · exact demote_effect h hd (by simpa [demoted, hc] using hq) hc hx
  cases hx
  refine ⟨L, h.drift hd, .quiet ⟨rfl, rfl, ?_⟩ hd.drift rfl⟩
  simpa [demoted, hc] using hq

/-! ### Scheduler rounds -/

/-- No process has an age, so the aging pass finds nothing to do. -/
lemma ageRow_eq (i : Fin 5) : ∀ fuel j, ageRow fuel k i j = .ok k := by
  intro fuel
  induction fuel with
  | zero => intro j; rfl
  | succ fuel ih =>
    intro j
    rw [ageRow]
    split_ifs with hj
    · rw [h.rows.rowLen_eq] at hj
      rw [h.rows.entry_eq hj, ok_bind, h.atime, if_neg (by simp), ih]
    · rfl

theorem agingPass_eq : agingPass k = .ok k := by
  rw [agingPass]
  induction finRange 5 with
  | nil => rfl
  | cons i is ih => rw [foldlM_cons, ageRow_eq h, ok_bind, ih]

end

/-- The switch to a process that is runnable, and no switch to one that is not. -/
lemma dispatch_effect (h : Wf k L) (hc : k.cpu = none) (hx : dispatch k p = .ok k') :
    Wf k' L ∧ Effect k L .scheduler k' L := by
  by_cases hs : (k.proc p).state = .runnable
  swap
  · rw [dispatch, if_neg hs] at hx
    cases hx
    exact ⟨h, .quiet ⟨rfl, rfl, rfl⟩ (.refl k.proc) rfl⟩
  have hinit : k.initproc ≠ none := by
    intro hn
    rw [(h.fresh hn).1 p] at hs
    cases hs
  have hoff : ∀ x : Proc, DriftOff false p k.proc (update k.proc p x) :=
    fun x => (Drift.refl k.proc).update p x
  simp only [dispatch, if_pos hs, h.index_eq, ok_bind, pure_eq_ok] at hx
  cases hx
  refine ⟨h.slot (hoff _) h.rows ?_ ?_ ?_ ?_ hinit, .dispatch p rfl hc hs ?_ ?_ ?_ (hoff _) rfl⟩
  · intro r hr
    simp [hc, Ne.symm hr]
  · simp
  · simp
  · simpa using h.currQ p
  · simp
  · simp
  · simp

lemma scheduler_effect (h : Wf k L) (hc : k.cpu = none) (hx : scheduler k = .ok k') :
    Wf k' L ∧ Effect k L .scheduler k' L := by
  rw [scheduler, agingPass_eq h, ok_bind] at hx
  rcases hsel : select k (finRange 5) with e | (_ | p)
  · rw [hsel] at hx
    cases hx
  · rw [hsel, ok_bind] at hx
    cases hx
    exact ⟨h, .quiet ⟨rfl, rfl, rfl⟩ (.refl k.proc) rfl⟩
  · rw [hsel, ok_bind] at hx
    exact dispatch_effect h hc hx

/-! ### Steps and runs -/

lemma running_eq_ok {f : Slot → Except Fault Kernel} (hx : running k f = .ok k') :
    ∃ p, k.cpu = some p ∧ f p = .ok k' := by
  rcases hc : k.cpu with _ | p
  · simp [running, hc] at hx
  · exact ⟨p, rfl, by simpa [running, hc] using hx⟩

/-- A step from a well-formed state leads to a well-formed state by one of the effects. -/
theorem step_effect (h : Wf k L) (hx : step k a = .ok k') :
    ∃ L', Wf k' L' ∧ Effect k L a k' L' := by
  cases a with simp only [step] at hx
  | userinit =>
    split_ifs at hx with hi
    exact userinit_effect h hi hx
  | fork mem copied =>
    obtain ⟨p, hc, hf⟩ := running_eq_ok hx
    exact fork_effect h hc hf
  | exit status =>
    obtain ⟨p, hc, hf⟩ := running_eq_ok hx
    exact exit_effect h (.refl k) hc hc hf
  | wait copied =>
    obtain ⟨p, hc, hf⟩ := running_eq_ok hx
    cases hf
    exact wait_effect h ⟨rfl, rfl, rfl⟩ rfl hc copied
  | waitx copied =>
    obtain ⟨p, hc, hf⟩ := running_eq_ok hx
    cases hf
    rw [waitx_eq_wait]
    exact wait_effect h ⟨rfl, rfl, rfl⟩ rfl hc copied
  | sleep chan =>
    obtain ⟨p, hc, hf⟩ := running_eq_ok hx
    cases hf
    exact sleep_effect h ⟨rfl, rfl, rfl⟩ rfl hc chan
  | wakeup chan =>
    cases hx
    have hd := drift_wakeup k.proc k.cpu chan
    exact ⟨L, h.drift ⟨hd, rfl, rfl, rfl, rfl⟩, .quiet ⟨rfl, rfl, rfl⟩ hd rfl⟩
  | kill pid =>
    obtain ⟨p, hc, hf⟩ := running_eq_ok hx
    exact kill_effect h (h.initproc_ne hc) hf
  | yield =>
    obtain ⟨p, hc, hf⟩ := running_eq_ok hx
    cases hf
    exact leave_effect h ⟨rfl, rfl, rfl⟩ rfl hc _ (.inr rfl) rfl rfl
  | usertrap =>
    obtain ⟨p, hc, hf⟩ := running_eq_ok hx
    exact usertrap_effect h hc hf
  | kerneltrap => exact kerneltrap_effect h hx
  | scheduler =>
    split_ifs at hx with hc
    exact ⟨L, scheduler_effect h hc hx⟩

/-- Every state of every run from boot is well formed. -/
theorem wf_of_run {tr : List (Kernel × Action)} (h : Run step boot tr k) :
    (∀ x ∈ tr, ∃ L, Wf x.1 L) ∧ ∃ L, Wf k L :=
  h.invariant' (I := fun k => ∃ L, Wf k L)
    (fun _ _ _ ⟨_, hL⟩ hx => (step_effect hL hx).imp fun _ h => h.1) ⟨_, wf_boot⟩

end Hexv6.Sched
