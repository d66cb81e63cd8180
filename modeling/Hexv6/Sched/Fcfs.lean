import Hexv6.Lib.Champion
import Hexv6.Lib.Transition
import Hexv6.Sched.Priority

/-!
# First come, first served

The FCFS build on one CPU.  The scheduler looks at the slots one after the other, and interrupts can
come in between: a process in a slot that it has passed can be woken up before the scan is at its
end.  Everything else that a process does runs up to the next point where it gives up the CPU.

The order of creation is known to the kernel only as `ctime`, in ticks, and of processes that were
created in the same tick the one in the lower slot is preferred.  So the process that is dispatched
need not be the one that was allocated first (`not_first_of_reuse`); nor is a process considered
that is woken behind the scan (`not_first_of_wakeup`).  But no process that the scan found RUNNABLE
was allocated in an earlier tick, and a process keeps the CPU until it sleeps, exits or lowers a
priority number (`servedInOrder_of_run`).

`clock`, `count`, `born`, `bornAt` and `seen` are not part of the kernel: they count ticks and
allocations, record the number and the tick of the last allocation of each slot, and the slots that
the scan found RUNNABLE.
-/

namespace Hexv6.Sched.Fcfs

open Lib Function

/-- What the CPU does. -/
inductive Place
  /-- the loop of `scheduler`, at slot `k`, with `temp` -/
  | scan (k : ℕ) (temp : Option Slot)
  | run (p : Slot)
deriving DecidableEq

structure State where
  proc : ProcTable := fun _ => {}
  nextpid : ℤ := 1
  initproc : Option Slot := none
  ticks : ℕ := 0
  place : Place := .scan 0 none
  clock : ℕ := 0
  count : ℕ := 0
  born : Slot → ℕ := fun _ => 0
  bornAt : Slot → ℕ := fun _ => 0
  seen : Slot → Bool := fun _ => false

inductive Action
  | userinit
  /-- one turn of the loop of `scheduler` over the slots, or what follows the loop -/
  | sched
  /-- `clockintr` -/
  | tick
  /-- `wakeup`, by an interrupt or by the running process -/
  | wakeup (chan : Chan)
  | fork (mem copied : Bool)
  | exit (status : ℤ)
  | wait (copied : Bool)
  | sleep (chan : Chan)
  | kill (pid : ℤ)
  | setPriority (new pid : ℤ)
deriving DecidableEq

inductive Fault
  | disabled
  | initExiting
deriving DecidableEq

/-- `myproc()`. -/
def State.cur (s : State) : Option Slot :=
  match s.place with
  | .scan _ _ => none
  | .run p => some p

/-- The running process gives up the CPU, and the scheduler begins anew. -/
def State.leave (s : State) (t : ProcTable) : State := { s with proc := t, place := .scan 0 none }

/-- `allocproc`. -/
def State.alloc (s : State) (mem : Bool) : State × Option Slot :=
  match allocproc s.proc s.nextpid s.ticks mem with
  | (t, n, none) => ({ s with proc := t, nextpid := n }, none)
  | (t, n, some np) =>
    ({ s with
      proc := t, nextpid := n, count := s.count + 1
      born := update s.born np s.count
      bornAt := update s.bornAt np s.clock }, some np)

/-- Change one slot. -/
def State.modify (s : State) (q : Slot) (f : Proc → Proc) : State :=
  { s with proc := update s.proc q (f (s.proc q)) }

/-- The test of the scan: `temp->ctime > p->ctime`. -/
def beats (t : ProcTable) (p temp : Slot) : Bool := (t temp).ctime > (t p).ctime

/-- One turn of the loop over the slots. -/
def State.look (s : State) (k : Slot) (temp : Option Slot) : State :=
  { s with
    place := .scan (k + 1)
      (if (s.proc k).state = .runnable then challenge (beats s.proc) temp k else temp)
    seen := update s.seen k ((s.proc k).state = .runnable) }

/-- The switch to the process that was chosen.  One that slept clears its `chan` when it is back in
`sleep`, and the others have none. -/
def State.dispatch (s : State) (p : Slot) : State :=
  if (s.proc p).state = .runnable then
    { s.modify p fun r =>
        { r with state := .running, chan := .null, nrunWhole := i32 (r.nrunWhole + 1) } with
      place := .run p }
  else { s with place := .scan 0 none }

def scheduler (s : State) (k : ℕ) (temp : Option Slot) : State :=
  if h : k < NPROC then s.look ⟨k, h⟩ temp
  else
    match temp with
    | none => { s with place := .scan 0 none }
    | some p => s.dispatch p

/-- `fork`, called by `p`. -/
def fork (s : State) (p : Slot) (mem copied : Bool) : State :=
  match s.alloc mem with
  | (s, none) => s
  | (s, some np) =>
    if copied then
      s.modify np fun r =>
        { r with
          sz := (s.proc p).sz, mask := (s.proc p).mask, parent := some p, state := .runnable }
    else s.modify np Proc.freeproc

/-- `exit(status)`, called by `p`. -/
def exit (s : State) (p : Slot) (status : ℤ) : Except Fault State :=
  if s.initproc = some p then .error .initExiting
  else
    let t := reparent s.proc (some p) s.initproc p
    let t := wakeup t (some p) (.ofPtr (t p).parent)
    .ok (s.leave
      (update t p { t p with xstate := status, state := .zombie, etime := s.ticks }))

/-- `sleep(chan, lk)`, called by `p`. -/
def sleep (s : State) (p : Slot) (chan : Chan) : State :=
  s.leave (update s.proc p { s.proc p with chan := chan, state := .sleeping })

/-- One turn of the loop of `wait` and `waitx`, called by `p`. -/
def wait (s : State) (p : Slot) (copied : Bool) : State :=
  match findZombie s.proc p with
  | some np => if copied then s.modify np Proc.freeproc else s
  | none => if ¬ havekids s.proc p ∨ (s.proc p).killed ≠ 0 then s else sleep s p (.proc p)

/-- `kill(pid)`. -/
def kill (s : State) (pid : ℤ) : State :=
  match findPid s.proc pid with
  | none => s
  | some q => s.modify q fun r =>
    if r.state = .sleeping then { r with killed := 1, state := .runnable }
    else { r with killed := 1 }

/-- `priority_updater(new, pid)`, called by `p`, with its `yield`. -/
def setPriority (s : State) (p : Slot) (new pid : ℤ) : State :=
  let out := priorityUpdater s.proc new pid
  if out.yields then s.leave (update out.table p { out.table p with state := .runnable })
  else { s with proc := out.table }

/-- Something that the running process does. -/
def running (s : State) (f : Slot → Except Fault State) : Except Fault State :=
  match s.place with
  | .scan _ _ => .error .disabled
  | .run p => f p

def step (s : State) : Action → Except Fault State
  | .userinit =>
    if s.initproc = none then
      match s.alloc true with
      | (s, some p) => .ok
          { s.modify p fun r => { r with sz := PGSIZE, state := .runnable } with
            initproc := some p }
      | (_, none) => .error .disabled
    else .error .disabled
  | .sched =>
    match s.place with
    | .scan k temp => .ok (scheduler s k temp)
    | .run _ => .error .disabled
  | .tick => .ok
      { s with
        ticks := u32 (s.ticks + 1), clock := s.clock + 1
        proc := Sched.wakeup (updateVals s.proc) s.cur .ticks }
  | .wakeup chan => .ok { s with proc := Sched.wakeup s.proc s.cur chan }
  | .fork mem copied => running s fun p => .ok (fork s p mem copied)
  | .exit status => running s fun p => exit s p status
  | .wait copied => running s fun p => .ok (wait s p copied)
  | .sleep chan => running s fun p => .ok (sleep s p chan)
  | .kill pid => running s fun _ => .ok (kill s pid)
  | .setPriority new pid => running s fun p => .ok (setPriority s p new pid)

def boot : State := {}

/-! ### What the table keeps -/

/-- No process appears, and the creation times of those that remain are the same. -/
def Keeps (t t' : ProcTable) : Prop :=
  ∀ q, (t' q).state ≠ .unused → (t q).state ≠ .unused ∧ (t' q).ctime = (t q).ctime

/-- RUNNABLE and RUNNING processes stay so, with their creation times. -/
def Stays (t t' : ProcTable) : Prop :=
  ∀ q, (t q).state = .runnable ∨ (t q).state = .running →
    (t' q).state = (t q).state ∧ (t' q).ctime = (t q).ctime

variable {t t' t'' : ProcTable} {p q : Slot} {r : Proc} {temp : Option Slot} {a : Action}

lemma Keeps.refl (t : ProcTable) : Keeps t t := fun _ h => ⟨h, rfl⟩

lemma Keeps.trans (h : Keeps t t') (h' : Keeps t' t'') : Keeps t t'' := by
  intro q hq
  obtain ⟨hlive, htime⟩ := h' q hq
  obtain ⟨hlive', htime'⟩ := h q hlive
  exact ⟨hlive', htime.trans htime'⟩

lemma Keeps.update (h : r.state ≠ .unused → (t q).state ≠ .unused ∧ r.ctime = (t q).ctime) :
    Keeps t (update t q r) := by
  intro x hx
  by_cases hxq : x = q
  · subst hxq
    simp only [update_self] at hx ⊢
    exact h hx
  · rw [update_of_ne hxq] at hx ⊢
    exact ⟨hx, rfl⟩

lemma Keeps.freeproc : Keeps t (Function.update t q (t q).freeproc) :=
  Keeps.update fun h => absurd rfl h

lemma Stays.refl (t : ProcTable) : Stays t t := fun _ _ => ⟨rfl, rfl⟩

lemma Stays.trans (h : Stays t t') (h' : Stays t' t'') : Stays t t'' := by
  intro q hq
  obtain ⟨hstate, htime⟩ := h q hq
  obtain ⟨hstate', htime'⟩ := h' q (hstate ▸ hq)
  exact ⟨hstate'.trans hstate, htime'.trans htime⟩

lemma Stays.update (h : (t q).state = .runnable ∨ (t q).state = .running →
      r.state = (t q).state ∧ r.ctime = (t q).ctime) : Stays t (update t q r) := by
  intro x hx
  by_cases hxq : x = q
  · subst hxq
    rw [update_self]
    exact h hx
  · rw [update_of_ne hxq]
    exact ⟨rfl, rfl⟩

section Wakeup

variable (t) (cur : Option Slot) (chan : Chan)

lemma wakeup_keeps : Keeps t (Sched.wakeup t cur chan) := by
  intro q hq
  simp only [Sched.wakeup] at hq ⊢
  split_ifs at hq ⊢ with h
  · simp [h.2.1]
  · exact ⟨hq, rfl⟩

lemma wakeup_stays : Stays t (Sched.wakeup t cur chan) := by
  intro q hq
  simp only [Sched.wakeup]
  rw [if_neg]
  · exact ⟨rfl, rfl⟩
  · rintro ⟨-, hs, -⟩
    simp [hs] at hq

variable (initproc : Option Slot) (p : Slot)

lemma reparent_keeps : Keeps t (reparent t cur initproc p) := by
  rw [reparent]
  refine List.foldlRecOn slots _ (motive := Keeps t) (Keeps.refl t) fun t' h pp _ => ?_
  split_ifs with hpp
  · exact (h.trans (Keeps.update (r := { t' pp with parent := initproc }) fun h => ⟨h, rfl⟩)).trans
      (wakeup_keeps _ _ _)
  · exact h

lemma reparent_stays : Stays t (reparent t cur initproc p) := by
  rw [reparent]
  refine List.foldlRecOn slots _ (motive := Stays t) (Stays.refl t) fun t' h pp _ => ?_
  split_ifs with hpp
  · exact (h.trans
      (Stays.update (r := { t' pp with parent := initproc }) fun _ => ⟨rfl, rfl⟩)).trans
      (wakeup_stays _ _ _)
  · exact h

end Wakeup

lemma updateVals_ctime (r : Proc) : r.updateVals.ctime = r.ctime := by rw [updateVals_eq]

lemma updateVals_keeps (t : ProcTable) : Keeps t (updateVals t) := fun q hq =>
  ⟨by simpa [updateVals] using hq, updateVals_ctime (t q)⟩

lemma updateVals_stays (t : ProcTable) : Stays t (updateVals t) := fun q _ =>
  ⟨updateVals_state (t q), updateVals_ctime (t q)⟩

lemma priorityUpdater_keeps (t : ProcTable) (new pid : ℤ) :
    Keeps t (priorityUpdater t new pid).table := by
  intro q hq
  rw [priorityUpdater_table] at hq ⊢
  split_ifs at hq ⊢
  · exact ⟨hq, rfl⟩
  · exact ⟨hq, rfl⟩

lemma priorityUpdater_stays (t : ProcTable) (new pid : ℤ) :
    Stays t (priorityUpdater t new pid).table := by
  intro q hq
  rw [priorityUpdater_table]
  split_ifs
  · exact ⟨rfl, rfl⟩
  · exact ⟨rfl, rfl⟩

/-! ### Allocations and creation times -/

/-- The creation times are the ticks of the allocations, and an earlier allocation has not a later
tick. -/
structure History (t : ProcTable) (ticks clock count : ℕ) (born bornAt : Slot → ℕ) : Prop where
  ticks : ticks = clock
  ctime : ∀ q, (t q).state ≠ .unused → (t q).ctime = bornAt q
  past : ∀ q, (t q).state ≠ .unused → bornAt q ≤ clock
  fresh : ∀ q, (t q).state ≠ .unused → born q < count
  order : ∀ q q', (t q).state ≠ .unused → (t q').state ≠ .unused → born q < born q' →
    bornAt q ≤ bornAt q'

section History

variable {ticks clock count : ℕ} {born bornAt : Slot → ℕ}

section

variable (h : History t ticks clock count born bornAt)
include h

lemma History.keeps (hk : Keeps t t') :
    History t' ticks clock count born bornAt where
  ticks := h.ticks
  ctime q hq := (hk q hq).2.trans (h.ctime q (hk q hq).1)
  past q hq := h.past q (hk q hq).1
  fresh q hq := h.fresh q (hk q hq).1
  order q q' hq hq' := h.order q q' (hk q hq).1 (hk q' hq').1

lemma History.tick (hticks : ticks + 1 < 2 ^ 32) :
    History t (u32 (ticks + 1)) (clock + 1) count born bornAt where
  ticks := by rw [u32, Nat.mod_eq_of_lt hticks, h.ticks]
  ctime := h.ctime
  past q hq := (h.past q hq).trans (Nat.le_succ _)
  fresh := h.fresh
  order := h.order

/-- An allocation has the highest number and the latest tick. -/
lemma History.alloc (hr : r.ctime = ticks) :
    History (update t p r) ticks clock (count + 1) (update born p count)
      (update bornAt p clock) where
  ticks := h.ticks
  ctime q hq := by
    by_cases hqp : q = p
    · subst hqp
      simpa using hr.trans h.ticks
    · simp only [update_of_ne hqp] at hq ⊢
      exact h.ctime q hq
  past q hq := by
    by_cases hqp : q = p
    · subst hqp
      simp
    · simp only [update_of_ne hqp] at hq ⊢
      exact h.past q hq
  fresh q hq := by
    by_cases hqp : q = p
    · subst hqp
      simp
    · simp only [update_of_ne hqp] at hq ⊢
      exact (h.fresh q hq).trans (Nat.lt_succ_self _)
  order q q' hq hq' hlt := by
    by_cases hqp : q = p
    · subst hqp
      by_cases hqp' : q' = q
      · subst hqp'
        simp
      -- the new process would have a lower number than an old one
      simp only [update_of_ne hqp', update_self] at hq' hlt
      exact absurd (h.fresh q' hq') (by omega)
    by_cases hqp' : q' = p
    · subst hqp'
      simp only [update_of_ne hqp, update_self] at hq ⊢
      exact h.past q hq
    · simp only [update_of_ne hqp, update_of_ne hqp'] at hq hq' hlt ⊢
      exact h.order q q' hq hq' hlt

end

end History

/-! ### The scan -/

/-- `p` is before `q` in the order of the scheduler: created in an earlier tick, or in the same tick
and in a lower slot. -/
def Before (t : ProcTable) (p q : Slot) : Prop :=
  (t p).ctime < (t q).ctime ∨ (t p).ctime = (t q).ctime ∧ p ≤ q

/-- After the slots below `k`: the processes that were found RUNNABLE still are, and `temp` is the
first of them.  Outside the scan the process of the CPU is RUNNING. -/
def Scanned (t : ProcTable) (seen : Slot → Bool) : Place → Prop
  | .run p => (t p).state = .running
  | .scan k temp =>
    (∀ p, temp = some p → (p : ℕ) < k ∧ seen p = true) ∧
    ∀ q : Slot, (q : ℕ) < k → seen q = true → (t q).state = .runnable ∧
      ∃ p, temp = some p ∧ Before t p q

lemma Scanned.start (t : ProcTable) (seen : Slot → Bool) : Scanned t seen (.scan 0 none) :=
  ⟨fun _ h => Option.noConfusion rfl (heq_of_eq h), fun _ h => absurd h (Nat.not_lt_zero _)⟩

lemma Scanned.stays {seen : Slot → Bool} {place : Place} (h : Scanned t seen place)
    (hs : Stays t t') : Scanned t' seen place := by
  cases place with
  | run p => exact (hs p (.inr h)).1.trans h
  | scan k temp =>
    obtain ⟨htemp, hseen⟩ := h
    refine ⟨htemp, fun q hq hq' => ?_⟩
    obtain ⟨hrun, p, hp, hbefore⟩ := hseen q hq hq'
    obtain ⟨hpk, hps⟩ := htemp p hp
    refine ⟨(hs q (.inl hrun)).1.trans hrun, p, hp, ?_⟩
    rw [Before, (hs q (.inl hrun)).2, (hs p (.inl (hseen p hpk hps).1)).2]
    exact hbefore

lemma before_challenge {k p q : Slot} (hp : temp = some p)
    (hpq : Before t p q) : ∃ p', challenge (beats t) temp k = some p' ∧ Before t p' q := by
  subst hp
  by_cases h : beats t k p = true
  · refine ⟨k, by simp [challenge, h], ?_⟩
    simp only [beats, gt_iff_lt, decide_eq_true_eq] at h
    rcases hpq with hlt | ⟨heq, -⟩
    · exact .inl (h.trans hlt)
    · exact .inl (heq ▸ h)
  · exact ⟨p, by simp [challenge, h], hpq⟩

lemma challenge_before {k : Slot} (hk : ∀ p, temp = some p → p < k) :
    ∃ p', challenge (beats t) temp k = some p' ∧ Before t p' k := by
  rcases temp with _ | p
  · exact ⟨k, by simp [challenge], .inr ⟨rfl, le_rfl⟩⟩
  by_cases h : beats t k p = true
  · exact ⟨k, by simp [challenge, h], .inr ⟨rfl, le_rfl⟩⟩
  refine ⟨p, by simp [challenge, h], ?_⟩
  simp only [beats, gt_iff_lt, decide_eq_true_eq, not_lt] at h
  rcases h.lt_or_eq with hlt | heq
  · exact .inl hlt
  · exact .inr ⟨heq, (hk p rfl).le⟩

/-- One turn of the loop keeps `temp` the first of those found RUNNABLE. -/
lemma Scanned.look {s : State} {k : Slot}
    (h : Scanned s.proc s.seen (.scan k temp)) :
    Scanned (s.look k temp).proc (s.look k temp).seen (s.look k temp).place := by
  obtain ⟨htemp, hseen⟩ := h
  have hbelow : ∀ q : Slot, (q : ℕ) < k → q ≠ k := fun q hq hqk => by simp [hqk] at hq
  have hcases : ∀ q : Slot, (q : ℕ) < k + 1 → (q : ℕ) < k ∨ q = k := fun q hq => by
    rcases Nat.lt_succ_iff_lt_or_eq.1 hq with hq | hq
    · exact .inl hq
    · exact .inr (Fin.ext hq)
  simp only [State.look]
  by_cases hk : (s.proc k).state = .runnable
  · simp only [hk, if_true, decide_true]
    refine ⟨fun p hp => ?_, fun q hq hq' => ?_⟩
    · rcases challenge_cases (beats s.proc) temp k with hc | hc
      · rw [hc, Option.some.injEq] at hp
        subst hp
        simp
      · obtain ⟨hpk, hps⟩ := htemp p (hc ▸ hp)
        exact ⟨hpk.trans (Nat.lt_succ_self _), by simp [hbelow p hpk, hps]⟩
    rcases hcases q hq with hqk | rfl
    · rw [update_of_ne (hbelow q hqk)] at hq'
      obtain ⟨hrun, p, hp, hpq⟩ := hseen q hqk hq'
      exact ⟨hrun, before_challenge hp hpq⟩
    · exact ⟨hk, challenge_before fun p hp => (htemp p hp).1⟩
  · simp only [hk, if_false, decide_false]
    refine ⟨fun p hp => ?_, fun q hq hq' => ?_⟩
    · obtain ⟨hpk, hps⟩ := htemp p hp
      exact ⟨hpk.trans (Nat.lt_succ_self _), by simp [hbelow p hpk, hps]⟩
    rcases hcases q hq with hqk | rfl
    · rw [update_of_ne (hbelow q hqk)] at hq'
      exact hseen q hqk hq'
    · simp at hq'

/-! ### Runs -/

/-- What holds between the steps. -/
structure Inv (s : State) : Prop where
  history : History s.proc s.ticks s.clock s.count s.born s.bornAt
  scanned : Scanned s.proc s.seen s.place

variable {s s' : State}

lemma inv_boot : Inv boot where
  history :=
    { ticks := rfl
      ctime := fun _ h => absurd rfl h
      past := fun _ h => absurd rfl h
      fresh := fun _ h => absurd rfl h
      order := fun _ _ h => absurd rfl h }
  scanned := Scanned.start _ _

/-- The running process gives up the CPU. -/
lemma Inv.leave (h : Inv s) (hk : Keeps s.proc t) : Inv (s.leave t) :=
  ⟨h.history.keeps hk, Scanned.start _ _⟩

/-- An interrupt or a call that leaves RUNNABLE processes alone. -/
lemma Inv.stays (h : Inv s) (hk : Keeps s.proc t) (hs : Stays s.proc t) :
    Inv { s with proc := t } :=
  ⟨h.history.keeps hk, h.scanned.stays hs⟩

/-- What `allocproc` does: it finds no slot, or no memory, or it gives out a free slot. -/
lemma State.alloc_cases (s : State) (mem : Bool) :
    (∃ t n, s.alloc mem = ({ s with proc := t, nextpid := n }, none) ∧
      Keeps s.proc t ∧ Stays s.proc t) ∨
    ∃ np r n, (s.proc np).state = .unused ∧ r.ctime = s.ticks ∧ r.state = .used ∧ s.alloc mem =
      ({ s with
        proc := update s.proc np r, nextpid := n, count := s.count + 1
        born := update s.born np s.count
        bornAt := update s.bornAt np s.clock }, some np) := by
  rcases allocproc_cases s.proc s.nextpid s.ticks mem with
    ⟨-, h⟩ | ⟨np, hfree, ⟨-, h⟩ | ⟨-, h⟩⟩
  · exact .inl ⟨s.proc, s.nextpid, by rw [State.alloc, h], Keeps.refl _, Stays.refl _⟩
  · exact .inr ⟨np, _, _, freeSlot_state hfree, rfl, rfl, by rw [State.alloc, h]⟩
  · exact .inl ⟨_, _, by rw [State.alloc, h], Keeps.update fun h => absurd rfl h,
      Stays.update (by simp [freeSlot_state hfree])⟩

section

variable (h : Inv s)
include h

/-- A slot given out by `allocproc`, after what the caller does to it. -/
lemma Inv.alloc {np : Slot} {n : ℤ} {i : Option Slot}
    (hfree : (s.proc np).state = .unused) (hr : r.ctime = s.ticks) :
    Inv { s with
      proc := update s.proc np r, nextpid := n, initproc := i, count := s.count + 1
      born := update s.born np s.count
      bornAt := update s.bornAt np s.clock } :=
  ⟨h.history.alloc hr, h.scanned.stays (Stays.update (by simp [hfree]))⟩

lemma Inv.running (hp : s.place = .run p) : (s.proc p).state = .running := by
  have hs := h.scanned
  rwa [hp] at hs

lemma Inv.fork (mem copied : Bool) : Inv (fork s p mem copied) := by
  rw [Fcfs.fork]
  rcases s.alloc_cases mem with ⟨t, n, ha, hk, hs⟩ | ⟨np, r, n, hfree, hr, hused, ha⟩
  · rw [ha]
    exact ⟨h.history.keeps hk, h.scanned.stays hs⟩
  rw [ha]
  cases copied with
  | true =>
    simp only [if_true, State.modify, update_idem, update_self]
    exact h.alloc hfree hr
  | false =>
    have hi : Inv _ := h.alloc (n := n) (i := s.initproc) hfree hr
    exact hi.stays Keeps.freeproc (Stays.update (by simp [hused]))

lemma Inv.exit (hp : s.place = .run p) {status : ℤ}
    (hs : exit s p status = .ok s') : Inv s' := by
  rw [Fcfs.exit] at hs
  split_ifs at hs
  cases hs
  have hstays := (reparent_stays s.proc (some p) s.initproc p).trans
    (wakeup_stays _ (some p) (.ofPtr (reparent s.proc (some p) s.initproc p p).parent))
  have hrun := (hstays p (.inr (h.running hp))).1.trans (h.running hp)
  refine h.leave (((reparent_keeps _ _ _ _).trans (wakeup_keeps _ _ _)).trans
    (Keeps.update fun _ => ⟨?_, rfl⟩))
  simp [hrun]

lemma Inv.sleep (hp : s.place = .run p) (chan : Chan) : Inv (sleep s p chan) :=
  h.leave (Keeps.update fun _ => ⟨by simp [h.running hp], rfl⟩)

lemma Inv.wait (hp : s.place = .run p) (copied : Bool) : Inv (wait s p copied) := by
  rw [Fcfs.wait]
  split
  · next np hz =>
    have hzombie : (s.proc np).state = .zombie := by
      have := List.find?_some hz
      simp only [decide_eq_true_eq] at this
      exact this.2
    split_ifs
    · exact h.stays Keeps.freeproc (Stays.update (by simp [hzombie]))
    · exact h
  split_ifs
  · exact h
  · exact h.sleep hp _

lemma Inv.kill (pid : ℤ) : Inv (kill s pid) := by
  rw [Fcfs.kill]
  split
  · exact h
  next q _ =>
  refine h.stays (Keeps.update fun hlive => ?_) (Stays.update fun hq => ?_)
  · dsimp only at hlive ⊢
    split_ifs at hlive ⊢ with hs
    · exact ⟨by simp [hs], rfl⟩
    · exact ⟨hlive, rfl⟩
  dsimp only
  rw [if_neg (by rintro hs; simp [hs] at hq)]
  exact ⟨rfl, rfl⟩

lemma Inv.setPriority (hp : s.place = .run p) (new pid : ℤ) :
    Inv (setPriority s p new pid) := by
  have hk := priorityUpdater_keeps s.proc new pid
  have hst := priorityUpdater_stays s.proc new pid
  rw [Fcfs.setPriority]
  generalize priorityUpdater s.proc new pid = out at hk hst ⊢
  have hrun := (hst p (.inr (h.running hp))).1
  rw [h.running hp] at hrun
  split_ifs
  · exact h.leave (hk.trans (Keeps.update fun _ => ⟨by simp [hrun], rfl⟩))
  · exact h.stays hk hst

lemma Inv.dispatch (p : Slot) : Inv (s.dispatch p) := by
  rw [State.dispatch]
  split_ifs with hrun
  · refine ⟨h.history.keeps (Keeps.update fun _ => ⟨by simp [hrun], rfl⟩), ?_⟩
    simp [Scanned, State.modify]
  · exact ⟨h.history, Scanned.start _ _⟩

lemma Inv.scheduler {k : ℕ} (hp : s.place = .scan k temp) :
    Inv (scheduler s k temp) := by
  simp only [Fcfs.scheduler]
  split_ifs with hk
  · have hs := h.scanned
    rw [hp] at hs
    exact ⟨h.history, Scanned.look hs⟩
  cases temp with
  | none => exact ⟨h.history, Scanned.start _ _⟩
  | some p => exact h.dispatch p

lemma Inv.userinit (hs : step s .userinit = .ok s') : Inv s' := by
  simp only [step] at hs
  split_ifs at hs
  rcases s.alloc_cases true with ⟨t, n, ha, -⟩ | ⟨np, r, n, hfree, hr, -, ha⟩
  · rw [ha] at hs
    cases hs
  rw [ha] at hs
  cases hs
  simp only [State.modify, update_idem, update_self]
  exact h.alloc hfree hr

end

lemma exists_of_running {f : Slot → Except Fault State} (hs : running s f = .ok s') :
    ∃ p, s.place = .run p ∧ f p = .ok s' := by
  rw [running] at hs
  split at hs
  · cases hs
  · next p hp => exact ⟨p, hp, hs⟩

/-- One step, with `ticks` not wrapping. -/
theorem Inv.step (h : Inv s) (hticks : a = .tick → s.ticks + 1 < 2 ^ 32)
    (hs : step s a = .ok s') : Inv s' := by
  cases a with
  | userinit => exact h.userinit hs
  | sched =>
    simp only [Fcfs.step] at hs
    split at hs
    · next k temp hp =>
      cases hs
      exact h.scheduler hp
    · cases hs
  | tick =>
    cases hs
    have hk := (updateVals_keeps s.proc).trans (wakeup_keeps _ s.cur .ticks)
    have hst := (updateVals_stays s.proc).trans (wakeup_stays _ s.cur .ticks)
    exact ⟨(h.history.keeps hk).tick (hticks rfl), h.scanned.stays hst⟩
  | wakeup chan =>
    cases hs
    exact h.stays (wakeup_keeps _ _ _) (wakeup_stays _ _ _)
  | fork mem copied =>
    obtain ⟨p, -, ⟨⟩⟩ := exists_of_running hs
    exact h.fork mem copied
  | exit status =>
    obtain ⟨p, hp, hs⟩ := exists_of_running hs
    exact h.exit hp hs
  | wait copied =>
    obtain ⟨p, hp, ⟨⟩⟩ := exists_of_running hs
    exact h.wait hp copied
  | sleep chan =>
    obtain ⟨p, hp, ⟨⟩⟩ := exists_of_running hs
    exact h.sleep hp chan
  | kill pid =>
    obtain ⟨p, hp, ⟨⟩⟩ := exists_of_running hs
    exact h.kill pid
  | setPriority new pid =>
    obtain ⟨p, hp, hs⟩ := exists_of_running hs
    rw [← Except.ok.inj hs]
    exact h.setPriority hp new pid

/-- The scheduler switches to `p`. -/
def Dispatches (s s' : State) (p : Slot) : Prop := s.cur = none ∧ s'.place = .run p

/-- At a switch to `p`: of the RUNNABLE processes that were RUNNABLE when the scan came to their
slots, those that were allocated before `p` were allocated in the same tick, and are in later
slots. -/
def InOrder (s : State) (p : Slot) : Prop :=
  ∀ q, (s.proc q).state = .runnable → s.seen q = true → s.born q < s.born p →
    s.bornAt q = s.bornAt p ∧ p < q

/-- With the action `a` the process `p` sleeps, exits or lowers a priority number. -/
def GivesUp (s : State) (a : Action) (s' : State) (p : Slot) : Prop :=
  (s'.proc p).state = .sleeping ∨ (s'.proc p).state = .zombie ∨
    ∃ new pid q, a = .setPriority new pid ∧ (s.proc q).pid = pid ∧ new < (s.proc q).spriority

lemma userinit_place (hs : step s .userinit = .ok s') : s'.place = s.place := by
  simp only [step] at hs
  split_ifs at hs
  rcases s.alloc_cases true with ⟨t, n, ha, -⟩ | ⟨np, r, n, -, -, -, ha⟩
  · rw [ha] at hs
    cases hs
  rw [ha] at hs
  cases hs
  rfl

lemma fork_place (s : State) (p : Slot) (mem copied : Bool) :
    (fork s p mem copied).place = s.place := by
  rw [fork]
  rcases s.alloc_cases mem with ⟨t, n, ha, -⟩ | ⟨np, r, n, -, -, -, ha⟩
  · rw [ha]
  rw [ha]
  cases copied with
  | true => rfl
  | false => rfl

lemma kill_place (s : State) (pid : ℤ) : (kill s pid).place = s.place := by
  rw [kill]
  split
  · rfl
  · rfl

lemma wait_place_or (s : State) (p : Slot) (copied : Bool) :
    (wait s p copied).place = s.place ∨ wait s p copied = sleep s p (.proc p) := by
  rw [wait]
  split
  · split_ifs
    · exact .inl rfl
    · exact .inl rfl
  split_ifs
  · exact .inl rfl
  · exact .inr rfl

/-- `priority_updater` yields only when it lowers a priority number. -/
lemma exists_of_yields {new pid : ℤ} (h : (priorityUpdater t new pid).yields = true) :
    ∃ q, (t q).pid = pid ∧ new < (t q).spriority := by
  rw [priorityUpdater_yields, lastPriority] at h
  rcases hl : lastSlot t pid with _ | q
  · simp [hl] at h
  rw [hl] at h
  have hq := List.find?_some hl
  exact ⟨q, of_decide_eq_true hq, h.2⟩

lemma eq_sched_of_dispatches (hs : step s a = .ok s') (hd : Dispatches s s' p) :
    a = .sched := by
  obtain ⟨hcur, hp⟩ := hd
  obtain ⟨k, temp, hplace⟩ : ∃ k temp, s.place = .scan k temp := by
    rw [State.cur] at hcur
    split at hcur
    · next k temp hplace => exact ⟨k, temp, hplace⟩
    · cases hcur
  cases a with
  | sched => rfl
  | userinit => simp [userinit_place hs, hplace] at hp
  | tick | wakeup chan =>
    cases hs
    simp [hplace] at hp
  | _ =>
    obtain ⟨p', hp', -⟩ := exists_of_running hs
    rw [hplace] at hp'
    cases hp'

/-- The scheduler switches to a process only at the end of a scan, and to `temp`. -/
lemma place_of_dispatches (hs : step s a = .ok s') (hd : Dispatches s s' p) :
    ∃ k, NPROC ≤ k ∧ s.place = .scan k (some p) := by
  obtain rfl := eq_sched_of_dispatches hs hd
  simp only [step] at hs
  split at hs
  · next k temp hplace =>
    cases hs
    have hp := hd.2
    simp only [scheduler] at hp
    split_ifs at hp with hk
    · cases hp
    cases temp with
    | none => cases hp
    | some p' =>
      dsimp only [State.dispatch] at hp
      split_ifs at hp
      cases hp
      exact ⟨k, not_lt.1 hk, hplace⟩
  · cases hs

lemma Inv.inOrder (h : Inv s) (hs : Fcfs.step s a = .ok s') (hd : Dispatches s s' p) :
    InOrder s p := by
  obtain ⟨k, hk, hplace⟩ := place_of_dispatches hs hd
  have hscan := h.scanned
  rw [hplace] at hscan
  obtain ⟨htemp, hseen⟩ := hscan
  intro q hq hq' hborn
  obtain ⟨-, p', hp', hbefore⟩ := hseen q (q.2.trans_le hk) hq'
  cases hp'
  have hp := (hseen p (p.2.trans_le hk) (htemp p rfl).2).1
  -- the numbers and the creation times have the same order
  have hlive : ∀ {x : Slot}, (s.proc x).state = .runnable → (s.proc x).state ≠ .unused :=
    fun hx => by simp [hx]
  have horder := h.history.order q p (hlive hq) (hlive hp) hborn
  rw [← h.history.ctime q (hlive hq), ← h.history.ctime p (hlive hp)] at horder ⊢
  rcases hbefore with hlt | ⟨heq, hle⟩
  · omega
  refine ⟨heq.symm, lt_of_le_of_ne hle ?_⟩
  rintro rfl
  exact hborn.false

lemma givesUp_of_leaves (hs : step s a = .ok s') (hp : s.place = .run p)
    (hp' : s'.place ≠ .run p) : GivesUp s a s' p := by
  cases a with
  | userinit => exact absurd ((userinit_place hs).trans hp) hp'
  | sched =>
    simp only [step, hp] at hs
    cases hs
  | tick | wakeup chan =>
    cases hs
    exact absurd hp hp'
  | fork mem copied =>
    obtain ⟨p1, -, ⟨⟩⟩ := exists_of_running hs
    exact absurd ((fork_place s p1 mem copied).trans hp) hp'
  | exit status =>
    obtain ⟨p1, hp1, hs⟩ := exists_of_running hs
    rw [hp] at hp1
    cases hp1
    rw [exit] at hs
    split_ifs at hs
    cases hs
    exact .inr (.inl (by simp [State.leave]))
  | wait copied =>
    obtain ⟨p1, hp1, ⟨⟩⟩ := exists_of_running hs
    rw [hp] at hp1
    cases hp1
    rcases wait_place_or s p copied with hw | hw
    · exact absurd (hw.trans hp) hp'
    · rw [hw]
      exact .inl (by simp [sleep, State.leave])
  | sleep chan =>
    obtain ⟨p1, hp1, ⟨⟩⟩ := exists_of_running hs
    rw [hp] at hp1
    cases hp1
    exact .inl (by simp [sleep, State.leave])
  | kill pid =>
    obtain ⟨p1, -, ⟨⟩⟩ := exists_of_running hs
    exact absurd ((kill_place s pid).trans hp) hp'
  | setPriority new pid =>
    obtain ⟨p1, hp1, hs⟩ := exists_of_running hs
    rw [← Except.ok.inj hs, setPriority] at hp'
    by_cases hy : (priorityUpdater s.proc new pid).yields = true
    · obtain ⟨q, hq, hlt⟩ := exists_of_yields hy
      exact .inr (.inr ⟨new, pid, q, rfl, hq, hlt⟩)
    · rw [if_neg hy] at hp'
      exact absurd hp hp'

/-- In every run in which `ticks` does not wrap, the processes are served in order, and each keeps
the CPU until it gives it up. -/
theorem servedInOrder_of_run {tr : List (State × Action)} (h : Run step boot tr s)
    (hticks : ∀ x ∈ tr, x.2 = .tick → x.1.ticks + 1 < 2 ^ 32) :
    ∀ x ∈ tr, ∀ s', step x.1 x.2 = .ok s' → (∀ p, Dispatches x.1 s' p → InOrder x.1 p) ∧
      ∀ p, x.1.place = .run p → s'.place ≠ .run p → GivesUp x.1 x.2 s' p := by
  have hinv := (h.invariant (fun _ _ _ hi hc hs => hi.step hc hs) inv_boot hticks).1
  intro x hx s' hs
  exact ⟨fun p hd => (hinv x hx).inOrder hs hd, fun p hp hp' => givesUp_of_leaves hs hp hp'⟩

/-- A whole scan, with the switch at its end. -/
def pass : List Action := List.replicate (NPROC + 1) .sched

/-- After a tick the first process forks twice and waits; the first child exits and is reaped, and
the process forks again into its slot and waits. -/
def reuse : List Action :=
  List.flatten [[.userinit, .tick], pass, [.fork true true, .fork true true, .wait true], pass,
    [.exit 0], pass, [.wait true, .fork true true, .wait true], List.replicate NPROC .sched]

/-- While the scheduler has passed slot 0, where the first process sleeps, an interrupt wakes that
process; its child was allocated in a later tick. -/
def behind : List Action :=
  List.flatten [[.userinit, .tick], pass, [.fork true true, .sleep .ticks, .sched, .wakeup .ticks],
    List.replicate (NPROC - 1) .sched]

/-- A switch at the end of a scan, after the actions `as`, in which `ticks` does not wrap. -/
lemma exists_switch {as : List Action} (hs : runList step boot as = .ok s)
    (hplace : s.place = .scan NPROC (some p)) (hp : (s.proc p).state = .runnable)
    (hwrap : (traceList step boot as).all
      (fun x => decide (x.2 = .tick → x.1.ticks + 1 < 2 ^ 32)) = true) :
    ∃ tr s', Run step boot tr s' ∧ (∀ x ∈ tr, x.2 = .tick → x.1.ticks + 1 < 2 ^ 32) ∧
      (s, .sched) ∈ tr ∧ step s .sched = .ok s' ∧ Dispatches s s' p := by
  have hstep : step s .sched = .ok (s.dispatch p) := by
    simp only [step, hplace, scheduler, lt_irrefl, dite_false]
  refine ⟨_, _, (Run.of_runList hs).snoc hstep, fun x hx => ?_, by simp, hstep,
    by simp only [State.cur, hplace], by simp only [State.dispatch, hp, if_true]⟩
  rcases List.mem_append.1 hx with hx | hx
  · exact of_decide_eq_true (List.all_eq_true.1 hwrap x hx)
  · rw [List.mem_singleton.1 hx]
    rintro ⟨⟩

/-- In the run `reuse` the scan chooses the last child, in slot 1, though the second child in slot 2
is RUNNABLE and was allocated before it. -/
lemma exists_reuse : ∃ tr s s', Run step boot tr s' ∧
    (∀ x ∈ tr, x.2 = .tick → x.1.ticks + 1 < 2 ^ 32) ∧ (s, .sched) ∈ tr ∧
    step s .sched = .ok s' ∧ Dispatches s s' 1 ∧
    (s.proc 2).state = .runnable ∧ s.seen 2 = true ∧ s.born 2 < s.born 1 := by
  obtain ⟨s, hs, htest⟩ := exists_of_okAnd (runList step boot reuse) (fun s =>
    decide (s.place = .scan NPROC (some 1) ∧ (s.proc 1).state = .runnable ∧
      (s.proc 2).state = .runnable ∧ s.seen 2 = true ∧ s.born 2 < s.born 1)) (by decide +kernel)
  obtain ⟨hplace, h1, h2⟩ := of_decide_eq_true htest
  obtain ⟨tr, s', hrun, hticks, hmem, hstep, hd⟩ := exists_switch hs hplace h1 (by decide +kernel)
  exact ⟨tr, s, s', hrun, hticks, hmem, hstep, hd, h2⟩

/-- The second child was allocated in the same tick, and is in a later slot. -/
theorem servedInOrder_of_run_reuse : ∃ (tr : List (State × Action)) (s : State),
    Run step boot tr s ∧
    ∃ x ∈ tr, ∃ s', step x.1 x.2 = .ok s' ∧ Dispatches x.1 s' 1 ∧ x.1.born 2 < x.1.born 1 ∧
      x.1.bornAt 2 = x.1.bornAt 1 := by
  obtain ⟨tr, s, s', hrun, hticks, hmem, hs, hd, h2, hseen, hborn⟩ := exists_reuse
  have hserved := servedInOrder_of_run hrun hticks _ hmem _ hs
  exact ⟨_, _, hrun, _, hmem, _, hs, hd, hborn, (hserved.1 1 hd 2 h2 hseen hborn).1⟩

/-- Within one tick, a process can be dispatched before one that was allocated earlier. -/
theorem not_first_of_reuse : ¬ ∀ (tr : List (State × Action)) (s : State), Run step boot tr s →
    (∀ x ∈ tr, x.2 = .tick → x.1.ticks + 1 < 2 ^ 32) →
    ∀ x ∈ tr, ∀ s' p, step x.1 x.2 = .ok s' → Dispatches x.1 s' p →
      ∀ q, (x.1.proc q).state = .runnable → x.1.born p ≤ x.1.born q := by
  intro hall
  obtain ⟨tr, s, s', hrun, hticks, hmem, hs, hd, h2, -, hborn⟩ := exists_reuse
  exact absurd hborn (not_lt.2 (hall tr s' hrun hticks _ hmem s' 1 hs hd 2 h2))

/-- A process that is woken behind the scan is passed over, even for one of a later tick. -/
theorem not_first_of_wakeup : ¬ ∀ (tr : List (State × Action)) (s : State), Run step boot tr s →
    (∀ x ∈ tr, x.2 = .tick → x.1.ticks + 1 < 2 ^ 32) →
    ∀ x ∈ tr, ∀ s' p, step x.1 x.2 = .ok s' → Dispatches x.1 s' p →
      ∀ q, (x.1.proc q).state = .runnable → x.1.bornAt p ≤ x.1.bornAt q := by
  intro hall
  obtain ⟨s, hs, htest⟩ := exists_of_okAnd (runList step boot behind) (fun s =>
    decide (s.place = .scan NPROC (some 1) ∧ (s.proc 1).state = .runnable ∧
      (s.proc 0).state = .runnable ∧ s.bornAt 0 < s.bornAt 1)) (by decide +kernel)
  obtain ⟨hplace, h1, h0, hborn⟩ := of_decide_eq_true htest
  obtain ⟨tr, s', hrun, hticks, hmem, hstep, hd⟩ := exists_switch hs hplace h1 (by decide +kernel)
  exact absurd hborn (not_lt.2 (hall tr s' hrun hticks _ hmem s' 1 hstep hd 0 h0))

end Hexv6.Sched.Fcfs
