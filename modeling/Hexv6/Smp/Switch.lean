import Hexv6.Smp.Effect

/-!
# Schedulers and CPUs

The scheduler loops of the four builds on any number of CPUs, at the level of the locks of the
slots.  A CPU is in its scheduler, where it chooses a slot, takes its lock and looks at it, or it
runs a process.  A process takes and releases the locks of slots one at a time, and changes a slot
while it holds its lock; it gives up the CPU with its own lock held, and the scheduler releases that
lock after the switch.

FCFS and PBS compare slots that they do not have locked, and MLFQ reads its queues without any
lock; `pick` lets it choose any slot that it sees RUNNABLE.  The fields that the builds compare may
change at any time (`touch`).  A scheduler that holds no lock has interrupts on, and an interrupt
handler can wake processes there (`intr`).
-/

namespace Hexv6.Smp.Switch

open Lib Function
open Sched (Slot Proc Chan)

/-- Where a CPU is. -/
inductive Place
  /-- at the top of `for(;;)` -/
  | loop
  /-- at slot `k` of the loop over the table, with the best slot so far -/
  | scan (k : ℕ) (temp : Option Slot)
  /-- before `acquire(&p->lock)` -/
  | chosen (p : Slot)
  /-- before `if(p->state == RUNNABLE)` -/
  | test (p : Slot)
  /-- after `swtch`, before `c->proc = 0` -/
  | back (p : Slot)
  /-- before `release(&p->lock)` -/
  | done (p : Slot)
  /-- in the process, after `swtch`, with its own lock -/
  | resumed
  /-- in the process, without the lock of a slot -/
  | run
  /-- in the process, with the lock of slot `q` -/
  | hold (q : Slot)
deriving DecidableEq

structure State where
  proc : Slot → Task
  /-- `p->lock`: the CPU that holds it -/
  lock : Slot → Option ℕ
  /-- `c->proc` -/
  cpu : ℕ → Option Slot
  place : ℕ → Place
  /-- the new process of a `fork` in progress -/
  child : Slot → Option Slot

/-- What a process does to a slot of which it holds the lock. -/
inductive Change
  | wakeup (chan : Chan)
  | kill
  /-- `freeproc` in `wait` and `waitx` -/
  | reap
  /-- `allocproc` -/
  | alloc (pid : ℤ) (ticks : ℕ)
  /-- `freeproc` in a `fork` that fails -/
  | undo
  /-- `np->state = RUNNABLE` at the end of `fork` -/
  | ready
deriving DecidableEq

/-- How a process gives up its CPU. -/
inductive Leave
  | yield
  | sleep (chan : Chan)
  | exit (status : ℤ) (ticks : ℕ)
deriving DecidableEq

inductive Action
  /-- the next step of the scheduler of a CPU -/
  | sched (c : ℕ)
  /-- the MLFQ scheduler finds a RUNNABLE process in its queues -/
  | pick (c : ℕ) (p : Slot)
  | acquire (c : ℕ) (q : Slot)
  | change (c : ℕ) (x : Change)
  | release (c : ℕ)
  | leave (c : ℕ) (x : Leave)
  /-- an interrupt on a CPU without a process is at slot `q` of `wakeup` -/
  | intr (c : ℕ) (q : Slot) (chan : Chan)
  /-- other fields of a slot change -/
  | touch (q : Slot) (ctime : ℕ) (priority nrun : ℤ)
deriving DecidableEq

namespace State

def modify (s : State) (q : Slot) (f : Task → Task) : State :=
  { s with proc := update s.proc q (f (s.proc q)) }

/-- CPU `c` goes on to `x`. -/
def goto (s : State) (c : ℕ) (x : Place) : State :=
  { s with place := update s.place c x }

def setLock (s : State) (q : Slot) (x : Option ℕ) : State :=
  { s with lock := update s.lock q x }

def setCpu (s : State) (c : ℕ) (x : Option Slot) : State :=
  { s with cpu := update s.cpu c x }

def setChild (s : State) (p : Slot) (x : Option Slot) : State :=
  { s with child := update s.child p x }

end State

/-- The slot `p` is preferred to `temp`. -/
def better (build : Build) (t : Slot → Task) (p temp : Slot) : Bool :=
  match build with
  | .fcfs => (t temp).ctime > (t p).ctime
  | .pbs =>
    (t temp).priority > (t p).priority ∨
      (t temp).priority = (t p).priority ∧ (t temp).nrun > (t p).nrun ∨
      (t temp).priority = (t p).priority ∧ (t temp).ctime > (t p).ctime
  | _ => false

/-- The best slot after the loop has seen `p`. -/
def consider (build : Build) (t : Slot → Task) (p : Slot) (temp : Option Slot) : Option Slot :=
  if (t p).state = .runnable ∧ (temp.all fun q => better build t p q) = true then some p else temp

/-- One step of `scheduler` on CPU `c`. -/
def scheduler (build : Build) (s : State) (c : ℕ) : Except Fault State :=
  match s.place c with
  | .loop => if build = .mlfq then .ok s else .ok (s.goto c (.scan 0 none))
  | .scan k temp =>
    if h : k < NPROC then
      match build with
      | .default => .ok (s.goto c (.chosen ⟨k, h⟩))
      | _ =>
        -- the lock is taken and released again
        if s.lock ⟨k, h⟩ = none then
          .ok (s.goto c (.scan (k + 1) (consider build s.proc ⟨k, h⟩ temp)))
        else .error .disabled
    else
      match temp with
      | some p => .ok (s.goto c (.chosen p))
      | none => .ok (s.goto c .loop)
  | .chosen p =>
    if s.lock p = none then .ok ((s.setLock p (some c)).goto c (.test p)) else .error .disabled
  | .test p =>
    if (s.proc p).state = .runnable then
      .ok (((s.modify p (Task.dispatch build)).setCpu c (some p)).goto c .resumed)
    else .ok (s.goto c (.done p))
  | .back p => .ok ((s.setCpu c none).goto c (.done p))
  | .done p =>
    .ok ((s.setLock p none).goto c (if build = .default then .scan (p + 1) none else .loop))
  | _ => .error .disabled

/-- What process `p` does to slot `q`, of which it holds the lock. -/
def change (build : Build) (s : State) (p q : Slot) : Change → Except Fault State
  | .wakeup chan =>
    if p ≠ q ∧ (s.proc q).state = .sleeping ∧ (s.proc q).chan = chan then
      .ok (s.modify q fun r => { r with state := .runnable })
    else .ok s
  | .kill => .ok (s.modify q (Task.kill build))
  | .reap => if (s.proc q).state = .zombie then .ok (s.modify q Task.freeproc) else .ok s
  | .alloc pid ticks =>
    if s.child p = none ∧ (s.proc q).state = .unused then
      .ok ((s.modify q fun r => r.allocproc pid ticks).setChild p (some q))
    else .error .disabled
  | .undo =>
    if s.child p = some q then .ok ((s.modify q Task.freeproc).setChild p none)
    else .error .disabled
  | .ready =>
    if s.child p = some q then
      .ok ((s.modify q fun r => .push build 0 { r with state := .runnable }).setChild p none)
    else .error .disabled

def Leave.isExit : Leave → Bool
  | .exit _ _ => true
  | _ => false

/-- The state in which process `p` gives up its CPU. -/
def Leave.apply : Leave → Task → Task
  | .yield, r => { r with state := .runnable }
  | .sleep chan, r => { r with chan := chan, state := .sleeping }
  | .exit status ticks, r => r.zombie status ticks

/-- In the scheduler, without a lock. -/
def Place.idle : Place → Bool
  | .loop | .scan _ _ | .chosen _ => true
  | _ => false

def step (build : Build) (s : State) : Action → Except Fault State
  | .sched c => scheduler build s c
  | .pick c p =>
    if build = .mlfq ∧ s.place c = .loop ∧ (s.proc p).state = .runnable then
      .ok (s.goto c (.chosen p))
    else .error .disabled
  | .acquire c q =>
    if s.place c = .run ∧ s.lock q = none then .ok ((s.setLock q (some c)).goto c (.hold q))
    else .error .disabled
  | .change c x =>
    match s.place c, s.cpu c with
    | .hold q, some p => change build s p q x
    | _, _ => .error .disabled
  | .release c =>
    match s.place c, s.cpu c with
    | .hold q, _ => .ok ((s.setLock q none).goto c .run)
    | .resumed, some p => .ok ((s.setLock p none).goto c .run)
    | _, _ => .error .disabled
  | .leave c x =>
    match s.place c, s.cpu c with
    | .hold q, some p =>
      -- `exit` is not called in the middle of a `fork`
      if q = p ∧ (s.child p = none ∨ x.isExit = false) then
        .ok ((s.modify p x.apply).goto c (.back p))
      else .error .disabled
    | _, _ => .error .disabled
  | .intr c q chan =>
    -- the lock of the slot is taken and released again
    if (s.place c).idle = true ∧ s.lock q = none ∧ (s.proc q).state = .sleeping ∧
        (s.proc q).chan = chan then
      .ok (s.modify q fun r => { r with state := .runnable })
    else .error .disabled
  | .touch q ctime priority nrun =>
    .ok (s.modify q fun r => { r with ctime := ctime, priority := priority, nrun := nrun })

/-- The state when the CPUs enter `scheduler`, with the first process in slot 0. -/
def boot : State :=
  { proc := fun q => if q = 0 then { state := .runnable, pid := 1 } else {}
    lock := fun _ => none, cpu := fun _ => none, place := fun _ => .loop, child := fun _ => none }

/-! ### The invariant -/

/-- What holds on CPU `c` at a place. -/
def Fits (s : State) (c : ℕ) : Place → Prop
  | .loop | .scan _ _ | .chosen _ => s.cpu c = none
  | .test p | .done p => s.cpu c = none ∧ s.lock p = some c
  | .back p => s.cpu c = some p ∧ s.lock p = some c ∧ (s.proc p).state ≠ .running
  | .resumed => ∃ p, s.cpu c = some p ∧ (s.proc p).state = .running ∧ s.lock p = some c
  | .run => ∃ p, s.cpu c = some p ∧ (s.proc p).state = .running
  | .hold q => ∃ p, s.cpu c = some p ∧ (s.proc p).state = .running ∧ s.lock q = some c

structure Inv (s : State) : Prop where
  fits : ∀ c, Fits s c (s.place c)
  once : ∀ c c' p, s.cpu c = some p → s.cpu c' = some p → c = c'
  running : ∀ p, (s.proc p).state = .running → ∃ c, s.cpu c = some p
  used : ∀ p np, s.child p = some np → (s.proc np).state = .used
  single : ∀ p p' np, s.child p = some np → s.child p' = some np → p = p'

/-- A step of CPU `c` leaves the other CPUs, what they have locked and what they run alone. -/
structure Frame (s s' : State) (c : ℕ) : Prop where
  cpu : ∀ c', c' ≠ c → s'.cpu c' = s.cpu c'
  place : ∀ c', c' ≠ c → s'.place c' = s.place c'
  lock : ∀ c', c' ≠ c → ∀ q, s.lock q = some c' → s'.lock q = some c'
  state : ∀ c', c' ≠ c → ∀ q, s.cpu c' = some q →
    ((s'.proc q).state = .running ↔ (s.proc q).state = .running)

variable {build : Build} {s s' : State} {c c' : ℕ} {p q : Slot} {x : Place}
  {y : Change} {a : Action}

lemma Inv.fits_of (h : Inv s) (hx : s.place c = x) : Fits s c x := hx ▸ h.fits c

/-- The other CPUs are where they were. -/
lemma Fits.frame (h : Fits s c' x) (hf : Frame s s' c) (hne : c' ≠ c) : Fits s' c' x := by
  have hcpu := hf.cpu c' hne
  cases x with
  | loop | scan | chosen => exact hcpu.trans h
  | test p | done p => exact ⟨hcpu.trans h.1, hf.lock c' hne p h.2⟩
  | back p =>
    obtain ⟨hp, hl, hr⟩ := h
    exact ⟨hcpu.trans hp, hf.lock c' hne p hl, fun hr' => hr ((hf.state c' hne p hp).1 hr')⟩
  | resumed =>
    obtain ⟨p, hp, hr, hl⟩ := h
    exact ⟨p, hcpu.trans hp, (hf.state c' hne p hp).2 hr, hf.lock c' hne p hl⟩
  | run =>
    obtain ⟨p, hp, hr⟩ := h
    exact ⟨p, hcpu.trans hp, (hf.state c' hne p hp).2 hr⟩
  | hold q =>
    obtain ⟨p, hp, hr, hl⟩ := h
    exact ⟨p, hcpu.trans hp, (hf.state c' hne p hp).2 hr, hf.lock c' hne q hl⟩

/-- What a step of the scheduler on CPU `c` does. -/
inductive Turn (build : Build) (s : State) (c : ℕ) : State → Prop
  | move {x : Place} (hc : (s.place c).idle = true) (hx : x.idle = true) :
    Turn build s c (s.goto c x)
  | acquire {p : Slot} (hc : s.place c = .chosen p) (hfree : s.lock p = none) :
    Turn build s c ((s.setLock p (some c)).goto c (.test p))
  | dispatch {p : Slot} (hc : s.place c = .test p) (hp : (s.proc p).state = .runnable) :
    Turn build s c (((s.modify p (Task.dispatch build)).setCpu c (some p)).goto c .resumed)
  | skip {p : Slot} (hc : s.place c = .test p) : Turn build s c (s.goto c (.done p))
  | back {p : Slot} (hc : s.place c = .back p) :
    Turn build s c ((s.setCpu c none).goto c (.done p))
  | release {p : Slot} {x : Place} (hc : s.place c = .done p) (hx : x.idle = true) :
    Turn build s c ((s.setLock p none).goto c x)

lemma turn_of_scheduler (hs : scheduler build s c = .ok s') : Turn build s c s' := by
  rw [scheduler] at hs
  split at hs
  case h_1 hx =>
    split_ifs at hs <;> cases hs
    · have hself : s.goto c .loop = s := by simp [State.goto, ← hx]
      have hmove : Turn build s c (s.goto c .loop) := .move (by rw [hx]; rfl) rfl
      rwa [hself] at hmove
    · exact .move (by rw [hx]; rfl) rfl
  case h_2 hx =>
    have hc : (s.place c).idle = true := by rw [hx]; rfl
    split at hs
    · split at hs
      · cases hs
        exact .move hc rfl
      split_ifs at hs
      cases hs
      exact .move hc rfl
    · split at hs <;> cases hs <;> exact .move hc rfl
  case h_3 hx =>
    split_ifs at hs with hfree
    cases hs
    exact .acquire hx hfree
  case h_4 hx =>
    split_ifs at hs with hp <;> cases hs
    · exact .dispatch hx hp
    · exact .skip hx
  case h_5 hx =>
    cases hs
    exact .back hx
  case h_6 hx =>
    cases hs
    exact .release hx (by split_ifs <;> rfl)
  case h_7 => cases hs

lemma fits_idle (hx : x.idle = true) : Fits s c x ↔ s.cpu c = none := by
  cases x with
  | loop | scan | chosen => exact Iff.rfl
  | _ => cases hx

section

variable (h : Inv s)
include h

/-- A step of one CPU keeps the invariant. -/
lemma Inv.of_frame (hf : Frame s s' c) (hfit : Fits s' c (s'.place c))
    (hnew : ∀ p, s'.cpu c = some p → ∀ c', c' ≠ c → s.cpu c' ≠ some p)
    (hrun : ∀ p, (s'.proc p).state = .running → (s.proc p).state = .running ∨ s'.cpu c = some p)
    (hkeep : ∀ p, s.cpu c = some p → (s'.proc p).state = .running → s'.cpu c = some p)
    (hused : ∀ p np, s'.child p = some np → (s'.proc np).state = .used)
    (hsingle : ∀ p p' np, s'.child p = some np → s'.child p' = some np → p = p') : Inv s' := by
  refine
    { fits := fun c' => ?_, once := fun c1 c2 p h1 h2 => ?_, running := fun p hp => ?_
      used := hused, single := hsingle }
  · rcases eq_or_ne c' c with rfl | hne
    · exact hfit
    · rw [hf.place c' hne]
      exact (h.fits c').frame hf hne
  · rcases eq_or_ne c1 c with rfl | hc1 <;> rcases eq_or_ne c2 c1 with rfl | hc2
    · rfl
    · rw [hf.cpu c2 hc2] at h2
      exact absurd h2 (hnew p h1 c2 hc2)
    · rfl
    · rw [hf.cpu c1 hc1] at h1
      rcases eq_or_ne c2 c with rfl | hc
      · exact absurd h1 (hnew p h2 c1 hc1)
      · rw [hf.cpu c2 hc] at h2
        exact h.once c1 c2 p h1 h2
  · rcases hrun p hp with hr | hc
    · obtain ⟨c', hc'⟩ := h.running p hr
      rcases eq_or_ne c' c with rfl | hne
      · exact ⟨c', hkeep p hc' hp⟩
      · exact ⟨c', (hf.cpu c' hne).trans hc'⟩
    · exact ⟨c, hc⟩

/-- A step that changes the place of a CPU and the locks that it holds. -/
lemma Inv.of_place (hproc : s'.proc = s.proc) (hcpu : s'.cpu = s.cpu)
    (hchild : s'.child = s.child) (hplace : ∀ c', c' ≠ c → s'.place c' = s.place c')
    (hlock : ∀ c', c' ≠ c → ∀ q, s.lock q = some c' → s'.lock q = some c')
    (hfit : Fits s' c (s'.place c)) : Inv s' := by
  refine h.of_frame ⟨fun _ _ => by rw [hcpu], hplace, hlock, fun _ _ q _ => by rw [hproc]⟩
    hfit ?_ ?_ ?_ ?_ ?_
  · intro p hp c' hne hp'
    rw [hcpu] at hp
    exact hne (h.once c' c p hp' hp)
  · intro p hp
    rw [hproc] at hp
    exact .inl hp
  · intro p hp _
    rwa [hcpu]
  · rw [hchild, hproc]
    exact h.used
  · rw [hchild]
    exact h.single

lemma Inv.goto (hfit : Fits s c x) : Inv (s.goto c x) := by
  refine h.of_place rfl rfl rfl (fun c' hne => update_of_ne hne ..) (fun _ _ _ hl => hl) ?_
  simp only [State.goto, update_self]
  cases x <;> exact hfit

/-- A lock that no other CPU holds is taken or released. -/
lemma Inv.relock {l : Option ℕ} (hown : s.lock q = none ∨ s.lock q = some c)
    (hfit : Fits (s.setLock q l) c x) : Inv ((s.setLock q l).goto c x) := by
  refine h.of_place rfl rfl rfl (fun c' hne => update_of_ne hne ..) ?_ ?_
  · intro c' hc' q' hl
    have hne : q' ≠ q := by
      rintro rfl
      rw [hl] at hown
      rcases hown with hown | hown
      · cases hown
      · exact hc' (Option.some.inj hown)
    exact (update_of_ne hne ..).trans hl
  · simp only [State.goto, update_self]
    cases x <;> exact hfit

/-- A change of a slot that does not make a process run or stop. -/
lemma Inv.modify {f : Task → Task} (hrun : (f (s.proc q)).state = .running ↔
    (s.proc q).state = .running)
    (hused : ∀ p, s.child p = some q → (f (s.proc q)).state = .used) : Inv (s.modify q f) := by
  have hsame : ∀ p, ((s.modify q f).proc p).state = .running ↔ (s.proc p).state = .running := by
    intro p
    rcases eq_or_ne p q with rfl | hne
    · simpa only [State.modify, update_self] using hrun
    · simp only [State.modify, update_of_ne hne]
  refine
    { fits := fun c => ?_, once := h.once, running := fun p hp => h.running p ((hsame p).1 hp)
      used := fun p np hc => ?_, single := h.single }
  · have hfit := h.fits c
    change Fits (s.modify q f) c (s.place c)
    generalize s.place c = x at hfit ⊢
    cases x with
    | loop | scan | chosen | test | done => exact hfit
    | back p => exact ⟨hfit.1, hfit.2.1, fun hr => hfit.2.2 ((hsame p).1 hr)⟩
    | resumed | hold q' =>
      obtain ⟨p, hp, hr, hl⟩ := hfit
      exact ⟨p, hp, (hsame p).2 hr, hl⟩
    | run =>
      obtain ⟨p, hp, hr⟩ := hfit
      exact ⟨p, hp, (hsame p).2 hr⟩
  · rcases eq_or_ne np q with rfl | hne
    · simpa only [State.modify, update_self] using hused p hc
    · simpa only [State.modify, update_of_ne hne] using h.used p np hc

/-- `fork` has a new process, or no longer. -/
lemma Inv.setChild {y : Option Slot} (hused : ∀ np, y = some np →
    (s.proc np).state = .used ∧ ∀ p', s.child p' ≠ some np) : Inv (s.setChild p y) := by
  have hother : ∀ p' np, (s.setChild p y).child p' = some np →
      p' = p ∧ y = some np ∨ p' ≠ p ∧ s.child p' = some np := by
    intro p' np hc
    rcases eq_or_ne p' p with rfl | hne
    · exact .inl ⟨rfl, by simpa only [State.setChild, update_self] using hc⟩
    · exact .inr ⟨hne, by simpa only [State.setChild, update_of_ne hne] using hc⟩
  refine
    { fits := fun c => ?_, once := h.once, running := h.running, used := fun p' np hc => ?_
      single := fun p1 p2 np h1 h2 => ?_ }
  · have hfit := h.fits c
    change Fits (s.setChild p y) c (s.place c)
    cases hx : s.place c <;> rw [hx] at hfit <;> exact hfit
  · rcases hother p' np hc with ⟨-, hy⟩ | ⟨-, hc⟩
    · exact (hused np hy).1
    · exact h.used p' np hc
  rcases hother p1 np h1 with ⟨rfl, hy⟩ | ⟨-, hc1⟩ <;>
    rcases hother p2 np h2 with ⟨rfl, hy'⟩ | ⟨-, hc2⟩
  · rfl
  · exact absurd hc2 ((hused np hy).2 p2)
  · exact absurd hc1 ((hused np hy').2 p1)
  · exact h.single p1 p2 np hc1 hc2

/-- The new process of a `fork` is not that of another one. -/
lemma Inv.no_other (hc : s.child p = some q) (p' : Slot) :
    (s.setChild p none).child p' ≠ some q := by
  intro hc'
  rcases eq_or_ne p' p with rfl | hne
  · simp [State.setChild] at hc'
  · simp only [State.setChild, update_of_ne hne] at hc'
    exact hne (h.single p' p q hc' hc)

/-- A slot that is not USED is not the new process of a `fork`. -/
lemma Inv.not_child (hq : (s.proc q).state ≠ .used) : s.child p ≠ some q :=
  fun hc => hq (h.used p q hc)

lemma Inv.change (hs : Switch.change build s p q y = .ok s') : Inv s' := by
  cases y with simp only [Switch.change] at hs
  | wakeup chan =>
    split_ifs at hs with hq <;> cases hs
    · exact h.modify (by simp [hq.2.1]) fun _ hc => absurd hc (h.not_child (by simp [hq.2.1]))
    · exact h
  | kill =>
    cases hs
    by_cases hsleep : (s.proc q).state = .sleeping
    · have hkill : (Task.kill build (s.proc q)).state = .runnable := by
        simp only [Task.kill, hsleep, if_true, push_state]
      exact h.modify (by simp [hkill, hsleep]) fun _ hc =>
        absurd hc (h.not_child (by simp [hsleep]))
    have hkill : (Task.kill build (s.proc q)).state = (s.proc q).state := by
      simp [Task.kill, hsleep]
    exact h.modify (by rw [hkill]) fun p' hc => by rw [hkill, h.used p' q hc]
  | reap =>
    split_ifs at hs with hq <;> cases hs
    · exact h.modify (by simp [hq, Task.freeproc, Proc.freeproc]) fun _ hc =>
        absurd hc (h.not_child (by simp [hq]))
    · exact h
  | alloc pid ticks =>
    split_ifs at hs with hq
    cases hs
    have hstate : ((s.proc q).allocproc pid ticks).state = .used := rfl
    refine (h.modify (by simp [hq.2, hstate]) fun _ _ => hstate).setChild ?_
    rintro np hnp
    cases hnp
    exact ⟨by simp [State.modify, hstate], fun p' => h.not_child (by simp [hq.2])⟩
  | undo =>
    split_ifs at hs with hq
    cases hs
    -- the `fork` is over before the slot changes
    have h' : Inv (s.setChild p none) := h.setChild fun np hnp => by cases hnp
    refine h'.modify ?_ fun p' hc => ?_
    · simp [State.setChild, h.used p q hq, Task.freeproc, Proc.freeproc]
    · exact absurd hc (h.no_other hq p')
  | ready =>
    split_ifs at hs with hq
    cases hs
    have h' : Inv (s.setChild p none) := h.setChild fun np hnp => by cases hnp
    refine h'.modify (f := fun r => Task.push build 0 { r with state := .runnable }) ?_
      fun p' hc => ?_
    · simp [State.setChild, h.used p q hq, push_state]
    · exact absurd hc (h.no_other hq p')

/-- A process that has a CPU is running, or on its way out with its lock held. -/
lemma Inv.of_cpu (hc : s.cpu c = some p) :
    (s.proc p).state = .running ∨ s.lock p = some c := by
  have hfit := h.fits c
  generalize s.place c = x at hfit
  cases x with
  | loop | scan | chosen => exact absurd (hc.symm.trans hfit) (by simp)
  | test | done => exact absurd (hc.symm.trans hfit.1) (by simp)
  | back p' =>
    obtain rfl := Option.mem_unique hc hfit.1
    exact .inr hfit.2.1
  | resumed | hold =>
    obtain ⟨p', hp', hr, -⟩ := hfit
    obtain rfl := Option.mem_unique hc hp'
    exact .inl hr
  | run =>
    obtain ⟨p', hp', hr⟩ := hfit
    obtain rfl := Option.mem_unique hc hp'
    exact .inl hr

/-- The process `p` of CPU `c` alone changes its state, and gets the CPU or still has it. -/
lemma Inv.swtch {f : Task → Task} (hproc : s'.proc = (s.modify p f).proc) (hlock : s'.lock = s.lock)
    (hchild : s'.child = s.child) (hcpu : s'.cpu = update s.cpu c (some p))
    (hplace : s'.place = update s.place c x) (hold : s.cpu c = none ∨ s.cpu c = some p)
    (hnone : ∀ c', c' ≠ c → s.cpu c' ≠ some p) (hused : (s.proc p).state ≠ .used)
    (hfit : Fits s' c x) : Inv s' := by
  have hself : s'.cpu c = some p := by rw [hcpu, update_self]
  have hother : ∀ q, q ≠ p → s'.proc q = s.proc q := fun q hq => by
    rw [hproc]
    exact update_of_ne hq ..
  refine h.of_frame (c := c) ⟨fun c' hne => ?_, fun c' hne => ?_, fun _ _ _ hl => ?_,
    fun c' hne q hq => ?_⟩ ?_ ?_ ?_ ?_ ?_ ?_
  · rw [hcpu, update_of_ne hne]
  · rw [hplace, update_of_ne hne]
  · rwa [hlock]
  · have hqp : q ≠ p := by
      rintro rfl
      exact hnone c' hne hq
    rw [hother q hqp]
  · rwa [hplace, update_self]
  · intro p' hp' c' hne
    obtain rfl := Option.mem_unique hself hp'
    exact hnone c' hne
  · intro q hq
    rcases eq_or_ne q p with rfl | hne
    · exact .inr hself
    · left
      rwa [← hother q hne]
  · intro q hq _
    rcases hold with hold | hold
    · rw [hq] at hold
      cases hold
    · rwa [← Option.mem_unique hold hq]
  · intro p' np hc
    rw [hchild] at hc
    have hne : np ≠ p := by
      rintro rfl
      exact h.not_child hused hc
    rw [hother np hne]
    exact h.used p' np hc
  · rw [hchild]
    exact h.single

/-- A RUNNABLE process of which the scheduler has the lock is dispatched. -/
lemma Inv.dispatch (hcpu : s.cpu c = none) (hlock : s.lock p = some c)
    (hstate : (s.proc p).state = .runnable) :
    Inv (((s.modify p (Task.dispatch build)).setCpu c (some p)).goto c .resumed) := by
  have hself : ((s.modify p (Task.dispatch build)).proc p).state = .running := by
    simpa only [State.modify, update_self] using dispatch_state build (s.proc p)
  refine h.swtch rfl rfl rfl rfl rfl (.inl hcpu) (fun c' hne hc' => ?_) (by simp [hstate])
    ⟨p, update_self .., hself, hlock⟩
  rcases h.of_cpu hc' with hr | hl
  · rw [hstate] at hr
    cases hr
  · exact hne (Option.mem_unique hl hlock)

/-- The process of a CPU gives it up with its own lock held. -/
lemma Inv.leave {y : Leave} (hcpu : s.cpu c = some p) (hlock : s.lock p = some c)
    (hstate : (s.proc p).state = .running) : Inv ((s.modify p y.apply).goto c (.back p)) := by
  have hself : ((s.modify p y.apply).proc p).state ≠ .running := by
    simp only [State.modify, update_self]
    cases y <;> simp [Leave.apply, Task.zombie]
  exact h.swtch rfl rfl rfl (update_eq_self_iff.2 hcpu.symm).symm rfl (.inr hcpu)
    (fun c' hne hc' => hne (h.once c' c p hc' hcpu)) (by simp [hstate]) ⟨hcpu, hlock, hself⟩

/-! ### Every step -/

lemma Inv.scheduler (hs : scheduler build s c = .ok s') : Inv s' := by
  cases turn_of_scheduler hs with
  | move hc hx => exact h.goto ((fits_idle hx).2 ((fits_idle hc).1 (h.fits c)))
  | acquire hc hfree => exact h.relock (.inl hfree) ⟨h.fits_of hc, update_self ..⟩
  | dispatch hc hp => exact h.dispatch (h.fits_of hc).1 (h.fits_of hc).2 hp
  | skip hc => exact h.goto ⟨(h.fits_of hc).1, (h.fits_of hc).2⟩
  | back hc =>
    obtain ⟨hp, hl, hr⟩ := h.fits_of hc
    refine h.of_frame ⟨fun c' hne => update_of_ne hne .., fun c' hne =>
      update_of_ne hne .., fun _ _ _ hl => hl, fun _ _ _ _ => Iff.rfl⟩ ?_ ?_ ?_ ?_ h.used
      h.single
    · simp only [State.goto, update_self]
      exact ⟨update_self .., hl⟩
    · intro p' hp'
      simp [State.goto, State.setCpu] at hp'
    · exact fun q hq => .inl hq
    · intro q hq hq'
      obtain rfl := Option.mem_unique hp hq
      exact absurd hq' hr
  | release hc hx =>
    exact h.relock (.inr (h.fits_of hc).2) ((fits_idle hx).2 (h.fits_of hc).1)

theorem Inv.step (hs : step build s a = .ok s') : Inv s' := by
  cases a with simp only [Switch.step] at hs
  | sched c => exact h.scheduler hs
  | pick c p =>
    split_ifs at hs with hc
    cases hs
    exact h.goto (show s.cpu c = none from h.fits_of hc.2.1)
  | acquire c q =>
    split_ifs at hs with hc
    cases hs
    obtain ⟨p, hp, hr⟩ := h.fits_of hc.1
    exact h.relock (.inl hc.2) ⟨p, hp, hr, update_self ..⟩
  | change c y =>
    split at hs
    · exact h.change hs
    · cases hs
  | release c =>
    split at hs
    · rename_i q hx
      cases hs
      obtain ⟨p, hp, hr, hl⟩ := h.fits_of hx
      exact h.relock (.inr hl) ⟨p, hp, hr⟩
    · rename_i p hx hp
      cases hs
      obtain ⟨p', hp', hr, hl⟩ := h.fits_of hx
      obtain rfl := Option.mem_unique hp hp'
      exact h.relock (.inr hl) ⟨p, hp, hr⟩
    · cases hs
  | leave c y =>
    split at hs
    · rename_i q p hx hp
      split_ifs at hs with hq
      obtain ⟨rfl, -⟩ := hq
      cases hs
      obtain ⟨p', hp', hr, hl⟩ := h.fits_of hx
      obtain rfl := Option.mem_unique hp hp'
      exact h.leave hp hl hr
    · cases hs
  | intr c q chan =>
    split_ifs at hs with hq
    cases hs
    exact h.modify (by simp [hq.2.2.1]) fun _ hc => absurd hc (h.not_child (by simp [hq.2.2.1]))
  | touch q ctime priority nrun =>
    cases hs
    exact h.modify Iff.rfl fun p hc => h.used p q hc

end

/-- How a step of a scheduler changes `c->proc`. -/
lemma cpu_of_scheduler (hs : scheduler build s c = .ok s') : s'.cpu = s.cpu ∨
    (∃ p, (s.proc p).state = .runnable ∧ s'.cpu = update s.cpu c (some p)) ∨
    s'.cpu = update s.cpu c none := by
  cases turn_of_scheduler hs with
  | dispatch _ hp => exact .inr (.inl ⟨_, hp, rfl⟩)
  | back => exact .inr (.inr rfl)
  | _ => exact .inl rfl

lemma cpu_of_change (hs : change build s p q y = .ok s') : s'.cpu = s.cpu := by
  cases y with
  | kill =>
    cases hs
    rfl
  | _ =>
    simp only [change] at hs
    split_ifs at hs <;> cases hs <;> rfl

/-- A step that gives a CPU a process finds the process RUNNABLE. -/
lemma runnable_of_dispatch (hs : step build s a = .ok s')
    (hp : s'.cpu c = some p) (hne : s.cpu c ≠ some p) : (s.proc p).state = .runnable := by
  cases a with simp only [step] at hs
  | sched c0 =>
    rcases cpu_of_scheduler hs with hc | ⟨q, hq, hc⟩ | hc
    · exact absurd (hc ▸ hp) hne
    · rw [hc] at hp
      rcases eq_or_ne c c0 with rfl | hcc
      · rw [update_self] at hp
        exact Option.some.inj hp ▸ hq
      · rw [update_of_ne hcc] at hp
        exact absurd hp hne
    rw [hc] at hp
    rcases eq_or_ne c c0 with rfl | hcc
    · rw [update_self] at hp
      cases hp
    · rw [update_of_ne hcc] at hp
      exact absurd hp hne
  | change c0 y =>
    split at hs
    · exact absurd (cpu_of_change hs ▸ hp) hne
    · cases hs
  | release c0 =>
    split at hs
    · cases hs
      exact absurd hp hne
    · cases hs
      exact absurd hp hne
    · cases hs
  | leave c0 y =>
    split at hs
    · split_ifs at hs
      cases hs
      exact absurd hp hne
    · cases hs
  | touch q ctime priority nrun =>
    cases hs
    exact absurd hp hne
  | _ =>
    split_ifs at hs
    cases hs
    exact absurd hp hne

/-! ### Runs -/

lemma inv_boot : Inv boot := by
  refine
    { fits := fun _ => rfl, once := fun _ _ _ h => (by cases h), running := fun p hp => ?_
      used := fun _ _ h => (by cases h), single := fun _ _ _ h => (by cases h) }
  simp only [boot] at hp
  split_ifs at hp

/-- No two CPUs have the same process, and a RUNNING process has a CPU. -/
structure OneCpu (s : State) : Prop where
  once : ∀ c c' p, s.cpu c = some p → s.cpu c' = some p → c = c'
  running : ∀ p, (s.proc p).state = .running → ∃ c, s.cpu c = some p

/-- A process that the step gives a CPU is neither ZOMBIE nor UNUSED. -/
def DispatchesLive (build : Build) (s : State) (a : Action) : Prop :=
  ∀ s' c p, step build s a = .ok s' → s'.cpu c = some p → s.cpu c ≠ some p →
    (s.proc p).state ≠ .zombie ∧ (s.proc p).state ≠ .unused

/-- In every run of every build, each process is on one CPU at most and RUNNING only there, and no
ZOMBIE or UNUSED process is dispatched. -/
theorem oneCpu_of_run (build : Build) {tr : List (State × Action)} {s : State}
    (h : Run (step build) boot tr s) :
    (∀ x ∈ tr, OneCpu x.1 ∧ DispatchesLive build x.1 x.2) ∧ OneCpu s := by
  have hinv := h.invariant' (fun _ _ _ hs hstep => hs.step hstep) inv_boot
  refine ⟨fun x hx => ⟨⟨(hinv.1 x hx).once, (hinv.1 x hx).running⟩, ?_⟩, hinv.2.once,
    hinv.2.running⟩
  intro s' c p hs hp hne
  have hrunnable := runnable_of_dispatch hs hp hne
  exact ⟨by simp [hrunnable], by simp [hrunnable]⟩

/-- On CPU 0 the first process forks a child; CPU 1 chooses the child before it is reaped and
looks at it after that. -/
def reuseScript : List Action :=
  [.pick 0 0, .sched 0, .sched 0, .release 0, .acquire 0 1, .change 0 (.alloc 2 0), .release 0,
    .acquire 0 1, .change 0 .ready, .release 0, .pick 1 1, .pick 2 1, .sched 1, .sched 1,
    .release 1, .acquire 1 1, .leave 1 (.exit 0 0), .sched 1, .sched 1, .acquire 0 1,
    .change 0 .reap, .release 0, .sched 2, .sched 2, .sched 2]

/-- The theorem at a run in which MLFQ chooses a slot that is UNUSED when it looks again. -/
theorem oneCpu_of_run_reuse : ∃ tr s, Run (step .mlfq) boot tr s ∧ s.cpu 0 = some 0 ∧
    (s.proc 1).state = .unused ∧ s.cpu 2 = none ∧ OneCpu s := by
  obtain ⟨s, hs, htest⟩ := exists_of_okAnd (runList (step .mlfq) boot reuseScript)
    (fun s => decide (s.cpu 0 = some 0 ∧ (s.proc 1).state = .unused ∧ s.cpu 2 = none))
    (by decide +kernel)
  obtain ⟨h0, h1, h2⟩ := of_decide_eq_true htest
  exact ⟨_, s, .of_runList hs, h0, h1, h2, (oneCpu_of_run .mlfq (.of_runList hs)).2⟩

end Hexv6.Smp.Switch
