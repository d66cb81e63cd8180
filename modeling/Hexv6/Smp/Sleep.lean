import Hexv6.Smp.Switch

/-!
# Sleep and wakeup

Processes that share data under a spin lock `lk`, on top of the CPUs, schedulers and slot locks of
`Hexv6.Smp.Switch`.  A process that waits tests its condition with `lk` held; if it does not hold,
`sleep(chan, lk)` takes the lock of the process, releases `lk`, and only then marks the process as
SLEEPING and switches to the scheduler, which releases the lock of the process.  A process that
changes the data calls `wakeup(chan)` before it releases `lk`, and `wakeup` takes the lock of every
slot in turn.  Changes after which no condition holds that did not hold before need no wakeup.

Everything that processes do outside of this is left open: they yield, are killed, sleep on other
channels, fork and exit.  The result is that nobody sleeps through a wakeup (`awake_of_run`).
-/

namespace Hexv6.Smp.Sleep

open Lib Function
open Sched (Slot Chan)
open Smp.Switch (Place)

/-- Where a process is with respect to `lk`. -/
inductive Phase
  | out
  /-- before `acquire(lk)` -/
  | want
  /-- with `lk`, before the test of the condition -/
  | crit
  /-- with `lk`, in `sleep` before `acquire(&p->lock)` -/
  | drowsy
  /-- with `lk` and its own lock, in `sleep` before `release(lk)` -/
  | nodding
  /-- with its own lock, in `sleep` before `p->state = SLEEPING` -/
  | dozing
  /-- has left its CPU in `sleep` -/
  | slept
  /-- with `lk`, when the condition holds or the process does not wait -/
  | act
  /-- with `lk`, in `wakeup(chan)` before slot `k` -/
  | waking (k : ℕ)
  /-- with `lk` and the lock of slot `k`, in `wakeup(chan)` before the test -/
  | looking (k : Slot)
  /-- with `lk` and the lock of slot `k`, in `wakeup(chan)` after the test -/
  | looked (k : Slot)
deriving DecidableEq

structure State (D : Type) where
  base : Switch.State
  /-- the CPU that holds `lk` -/
  lk : Option ℕ
  data : D
  phase : Slot → Phase

inductive Action (D : Type)
  /-- a step of `Hexv6.Smp.Switch` -/
  | base (a : Switch.Action)
  | enter (c : ℕ)
  | acquire (c : ℕ)
  /-- the condition does not hold -/
  | sleep (c : ℕ)
  /-- the condition holds, or the process does not wait -/
  | pass (c : ℕ)
  | nod (c : ℕ)
  | doze (c : ℕ)
  | rest (c : ℕ)
  /-- `sleep` goes on to `acquire(lk)` -/
  | resume (c : ℕ)
  /-- change the data so that no condition becomes true -/
  | consume (c : ℕ) (d : D)
  /-- change the data in any way -/
  | set (c : ℕ) (d : D)
  | visit (c : ℕ)
  | look (c : ℕ)
  | next (c : ℕ)
  | release (c : ℕ)

/-- The CPU that a step is about. -/
def owner : Switch.Action → Option ℕ
  | .sched c | .pick c _ | .acquire c _ | .change c _ | .release c | .leave c _ => some c
  | .intr _ _ _ | .touch _ _ _ _ => none

/-- What the process `p` may do in a phase, apart from the steps of its protocol. -/
def Allowed (chan : Chan) (p : Slot) : Phase → Switch.Action → Bool
  | .out, .leave _ (.sleep chan') => chan' ≠ chan
  | .out, _ => true
  | .want, .acquire _ q => q = p
  | .want, .leave _ .yield => true
  | .want, .release _ => true
  | .slept, .release _ => true
  | _, .sched _ => true
  | _, .pick _ _ => true
  | _, .touch _ _ _ _ => true
  | _, _ => false

section Machine

variable {D : Type} (build : Build) (chan : Chan) (cond : Slot → D → Bool)

/-- A step of the CPUs. -/
def State.onBase (s : State D) (a : Switch.Action) : Except Fault (State D) :=
  (Switch.step build s.base a).map fun b => { s with base := b }

/-- Process `p` goes on to `x`. -/
def State.goto (s : State D) (p : Slot) (x : Phase) : State D :=
  { s with phase := update s.phase p x }

/-- What the process of CPU `c` does in its phase. -/
def proceed (s : State D) (c : ℕ) (f : Slot → Phase → Except Fault (State D)) :
    Except Fault (State D) :=
  match s.base.cpu c with
  | some p => f p (s.phase p)
  | none => .error .disabled

def step (s : State D) : Action D → Except Fault (State D)
  | .base a =>
    match owner a with
    | none => s.onBase build a
    | some c =>
      match s.base.cpu c with
      | none => s.onBase build a
      | some p => if Allowed chan p (s.phase p) a = true then s.onBase build a else .error .disabled
  | .enter c => proceed s c fun p x =>
    if x = .out ∧ s.base.place c = .run then .ok (s.goto p .want) else .error .disabled
  | .acquire c => proceed s c fun p x =>
    if x = .want ∧ s.base.place c = .run ∧ s.lk = none then
      .ok { s.goto p .crit with lk := some c }
    else .error .disabled
  | .sleep c => proceed s c fun p x =>
    if x = .crit ∧ cond p s.data = false then .ok (s.goto p .drowsy) else .error .disabled
  | .pass c => proceed s c fun p x => if x = .crit then .ok (s.goto p .act) else .error .disabled
  | .nod c => proceed s c fun p x =>
    if x = .drowsy then (s.goto p .nodding).onBase build (.acquire c p) else .error .disabled
  | .doze c => proceed s c fun p x =>
    if x = .nodding then .ok { s.goto p .dozing with lk := none } else .error .disabled
  | .rest c => proceed s c fun p x =>
    if x = .dozing then (s.goto p .slept).onBase build (.leave c (.sleep chan))
    else .error .disabled
  | .resume c => proceed s c fun p x =>
    if x = .slept ∧ s.base.place c = .run then .ok (s.goto p .want) else .error .disabled
  | .consume c d => proceed s c fun _ x =>
    if x = .act ∧ ∀ q, cond q d = true → cond q s.data = true then .ok { s with data := d }
    else .error .disabled
  | .set c d => proceed s c fun p x =>
    if x = .act then .ok { s.goto p (.waking 0) with data := d } else .error .disabled
  | .visit c => proceed s c fun p x =>
    match x with
    | .waking k =>
      if h : k < NPROC then
        if p = ⟨k, h⟩ then .ok (s.goto p (.waking (k + 1)))
        else (s.goto p (.looking ⟨k, h⟩)).onBase build (.acquire c ⟨k, h⟩)
      else .ok (s.goto p .act)
    | _ => .error .disabled
  | .look c => proceed s c fun p x =>
    match x with
    | .looking k => (s.goto p (.looked k)).onBase build (.change c (.wakeup chan))
    | _ => .error .disabled
  | .next c => proceed s c fun p x =>
    match x with
    | .looked k => (s.goto p (.waking (k + 1))).onBase build (.release c)
    | _ => .error .disabled
  | .release c => proceed s c fun p x =>
    if x = .act then .ok { s.goto p .out with lk := none } else .error .disabled

/-- The state at boot: `lk` is free. -/
def boot (d : D) : State D := { base := Switch.boot, lk := none, data := d, phase := fun _ => .out }

end Machine

/-! ### The CPUs -/

section Base

variable {build : Build} {chan : Chan} {b b' : Switch.State} {a : Switch.Action} {c : ℕ} {p : Slot}

/-- The process sleeps on the channel. -/
def Asleep (chan : Chan) (b : Switch.State) (p : Slot) : Prop :=
  (b.proc p).state = .sleeping ∧ (b.proc p).chan = chan

lemma scheduler_frame (hs : Switch.scheduler build b c = .ok b') :
    (∀ c', c' ≠ c → b'.cpu c' = b.cpu c' ∧ b'.place c' = b.place c') ∧
      b.place c ≠ .run ∧ ∀ q, b.place c ≠ .hold q := by
  have hgoto : ∀ (b0 : Switch.State) (x : Place) (c' : ℕ), c' ≠ c →
      (b0.goto c x).place c' = b0.place c' := fun b0 x c' hne => update_of_ne hne ..
  cases Switch.turn_of_scheduler hs with
  | move hc =>
    refine ⟨fun c' hne => ⟨rfl, hgoto _ _ c' hne⟩, fun hx => ?_, fun q hx => ?_⟩
    · rw [hx] at hc
      cases hc
    · rw [hx] at hc
      cases hc
  | dispatch hc | back hc =>
    exact ⟨fun c' hne => ⟨update_of_ne hne .., hgoto _ _ c' hne⟩, by simp [hc], by simp [hc]⟩
  | acquire hc | skip hc | release hc =>
    exact ⟨fun c' hne => ⟨rfl, hgoto _ _ c' hne⟩, by simp [hc], by simp [hc]⟩

lemma change_frame {y : Switch.Change} {q : Slot} (hs : Switch.change build b p q y = .ok b') :
    b'.cpu = b.cpu ∧ b'.place = b.place := by
  cases y with
  | kill =>
    cases hs
    exact ⟨rfl, rfl⟩
  | _ =>
    simp only [Switch.change] at hs
    split_ifs at hs <;> cases hs <;> exact ⟨rfl, rfl⟩

/-- A step leaves the other CPUs where they are. -/
lemma step_frame (hs : Switch.step build b a = .ok b') (hc : owner a ≠ some c) :
    b'.cpu c = b.cpu c ∧ b'.place c = b.place c := by
  have hgoto : ∀ (b0 : Switch.State) (x : Place) (c0 : ℕ), some c0 ≠ some c →
      (b0.goto c0 x).place c = b0.place c := fun b0 x c0 hne =>
    update_of_ne (fun h => hne (congrArg some h.symm)) ..
  cases a with simp only [Switch.step] at hs
  | sched c0 => exact (scheduler_frame hs).1 c fun h => hc (congrArg some h.symm)
  | change c0 y =>
    split at hs
    · obtain ⟨h1, h2⟩ := change_frame hs
      rw [h1, h2]
      exact ⟨rfl, rfl⟩
    · cases hs
  | release c0 =>
    split at hs
    · cases hs
      exact ⟨rfl, hgoto _ _ c0 hc⟩
    · cases hs
      exact ⟨rfl, hgoto _ _ c0 hc⟩
    · cases hs
  | leave c0 y =>
    split at hs
    · split_ifs at hs
      cases hs
      exact ⟨rfl, hgoto _ _ c0 hc⟩
    · cases hs
  | intr =>
    split_ifs at hs
    cases hs
    exact ⟨rfl, rfl⟩
  | touch =>
    cases hs
    exact ⟨rfl, rfl⟩
  | pick c0 _ | acquire c0 _ =>
    split_ifs at hs
    cases hs
    exact ⟨rfl, hgoto _ _ c0 hc⟩

/-- A changed slot does not sleep on the channel, unless it did before. -/
lemma asleep_modify {f : Task → Task} {q : Slot}
    (hf : (f (b.proc q)).state = .sleeping → (f (b.proc q)).chan = chan → Asleep chan b q)
    (h : Asleep chan (b.modify q f) p) : Asleep chan b p := by
  rcases eq_or_ne p q with rfl | hne
  · simp only [Asleep, Switch.State.modify, update_self] at h
    exact hf h.1 h.2
  · simpa only [Asleep, Switch.State.modify, update_of_ne hne] using h

lemma asleep_change {y : Switch.Change} {q r : Slot}
    (hs : Switch.change build b p q y = .ok b') (h : Asleep chan b' r) : Asleep chan b r := by
  cases y with simp only [Switch.change] at hs
  | wakeup chan' | reap =>
    split_ifs at hs <;> cases hs
    · exact asleep_modify (fun hx => by cases hx) h
    · exact h
  | kill =>
    cases hs
    refine asleep_modify (fun hx => ?_) h
    by_cases hsleep : (b.proc q).state = .sleeping
    · simp [Task.kill, hsleep, push_state] at hx
    · simp [Task.kill, hsleep] at hx
  | alloc pid ticks =>
    split_ifs at hs
    cases hs
    exact asleep_modify (f := fun r => r.allocproc pid ticks) (fun hx => by cases hx) h
  | undo =>
    split_ifs at hs
    cases hs
    exact asleep_modify (fun hx => by cases hx) h
  | ready =>
    split_ifs at hs
    cases hs
    refine asleep_modify (f := fun r => Task.push build 0 { r with state := .runnable })
      (fun hx => ?_) h
    rw [push_state] at hx
    cases hx

/-- Nobody falls asleep on the channel but by `sleep(chan, lk)`. -/
lemma asleep_step (hs : Switch.step build b a = .ok b')
    (ha : ∀ c, a ≠ .leave c (.sleep chan)) (h : Asleep chan b' p) : Asleep chan b p := by
  cases a with simp only [Switch.step] at hs
  | sched c =>
    cases Switch.turn_of_scheduler hs with
    | dispatch =>
      refine asleep_modify (fun hx => ?_) h
      rw [dispatch_state] at hx
      cases hx
    | _ => exact h
  | change c y =>
    split at hs
    · exact asleep_change hs h
    · cases hs
  | release c =>
    split at hs
    · cases hs
      exact h
    · cases hs
      exact h
    · cases hs
  | leave c y =>
    split at hs
    · split_ifs at hs
      cases hs
      refine asleep_modify (fun hx hchan => ?_) h
      cases y with
      | sleep chan' =>
        obtain rfl : chan' = chan := hchan
        exact absurd rfl (ha c)
      | _ => cases hx
    · cases hs
  | intr =>
    split_ifs at hs
    cases hs
    exact asleep_modify (fun hx => by cases hx) h
  | touch q =>
    cases hs
    exact asleep_modify (fun hx hc => ⟨hx, hc⟩) h
  | _ =>
    split_ifs at hs
    cases hs
    exact h

end Base

/-! ### The invariant -/

section Inv

variable {D : Type} {build : Build} {chan : Chan} {cond : Slot → D → Bool} {s s' : State D}
  {c : ℕ} {p q r : Slot} {x : Phase} {b b' : Switch.State} {a : Switch.Action}

/-- Where the CPU of process `p` is, and whether it has `lk`. -/
def Fits (b : Switch.State) (lk : Option ℕ) (p : Slot) : Phase → Prop
  | .out | .want | .slept => True
  | .crit | .drowsy | .act | .waking _ => ∃ c, b.cpu c = some p ∧ b.place c = .run ∧ lk = some c
  | .nodding => ∃ c, b.cpu c = some p ∧ b.place c = .hold p ∧ lk = some c
  | .dozing => ∃ c, b.cpu c = some p ∧ b.place c = .hold p
  | .looking k | .looked k => ∃ c, b.cpu c = some p ∧ b.place c = .hold k ∧ lk = some c

/-- The process has `lk`. -/
def Phase.holds : Phase → Bool
  | .out | .want | .slept | .dozing => false
  | _ => true

/-- A process in this phase has still to wake the process `r`. -/
def Phase.Covers (r : Slot) : Phase → Prop
  | .waking k => k ≤ (r : ℕ)
  | .looking k => k ≤ r
  | .looked k => k < r
  | _ => False

/-- The process sleeps on the channel, or nothing can keep it from it any more. -/
def Down (chan : Chan) (s : State D) (r : Slot) : Prop :=
  Asleep chan s.base r ∨ s.phase r = .dozing

structure Inv (chan : Chan) (cond : Slot → D → Bool) (s : State D) : Prop where
  base : Switch.Inv s.base
  fits : ∀ p, Fits s.base s.lk p (s.phase p)
  calm : ∀ p, s.phase p = .drowsy ∨ s.phase p = .nodding → cond p s.data = false
  covered : ∀ r, Down chan s r → cond r s.data = true → ∃ q, (s.phase q).Covers r

lemma Phase.Covers.holds (h : x.Covers r) : x.holds = true := by cases x <;> first | rfl | cases h

lemma Fits.cpu_of_holds {lk : Option ℕ} (h : Fits b lk p x)
    (hx : x.holds = true) : ∃ c, b.cpu c = some p ∧ lk = some c := by
  cases x with
  | out | want | slept | dozing => cases hx
  | _ =>
    obtain ⟨c, hc, -, hl⟩ := h
    exact ⟨c, hc, hl⟩

/-- One process at a time has `lk`. -/
lemma Inv.holds_unique (h : Inv chan cond s) (hp : (s.phase p).holds = true)
    (hq : (s.phase q).holds = true) : p = q := by
  obtain ⟨c, hc, hl⟩ := (h.fits p).cpu_of_holds hp
  obtain ⟨c', hc', hl'⟩ := (h.fits q).cpu_of_holds hq
  obtain rfl := Option.mem_unique hl hl'
  exact Option.mem_unique hc hc'

/-- A process whose CPU is at `run` or `hold` is RUNNING. -/
lemma Inv.not_asleep (h : Inv chan cond s) (hc : s.base.cpu c = some p)
    (hx : s.base.place c = .run ∨ ∃ k, s.base.place c = .hold k) : ¬ Asleep chan s.base p := by
  intro ha
  have hfit := h.base.fits c
  rcases hx with hx | ⟨k, hx⟩
  · rw [hx] at hfit
    obtain ⟨p', hp', hr⟩ := hfit
    obtain rfl := Option.mem_unique hc hp'
    exact absurd (ha.1.symm.trans hr) (by decide)
  rw [hx] at hfit
  obtain ⟨p', hp', hr, -⟩ := hfit
  obtain rfl := Option.mem_unique hc hp'
  exact absurd (ha.1.symm.trans hr) (by decide)

/-- The CPU that takes a step is not at a place where its process is in the protocol. -/
lemma Fits.base_step {lk : Option ℕ}
    (h : Fits b lk p x) (hs : Switch.step build b a = .ok b')
    (ha : ∀ c, owner a = some c → b.cpu c = some p → Allowed chan p x a = true) :
    Fits b' lk p x := by
  have hframe : ∀ c, b.cpu c = some p → b.place c = .run ∨ (∃ k, b.place c = .hold k) →
      x ≠ .out → x ≠ .want → x ≠ .slept → b'.cpu c = b.cpu c ∧ b'.place c = b.place c := by
    intro c hc hplace h1 h2 h3
    by_cases howner : owner a = some c
    · have hallowed := ha c howner hc
      cases a with
      | sched c0 =>
        cases howner
        obtain ⟨-, hrun, hhold⟩ := scheduler_frame hs
        rcases hplace with hplace | ⟨k, hplace⟩
        · exact absurd hplace hrun
        · exact absurd hplace (hhold k)
      | pick c0 q =>
        cases howner
        simp only [Switch.step] at hs
        split_ifs at hs with hpick
        rcases hplace with hplace | ⟨k, hplace⟩
        · exact absurd (hplace.symm.trans hpick.2.1) (by simp)
        · exact absurd (hplace.symm.trans hpick.2.1) (by simp)
      | intr | touch => cases howner
      | _ => cases x <;> contradiction
    · exact step_frame hs howner
  cases x with
  | out | want | slept => trivial
  | dozing =>
    obtain ⟨c, hc, hx⟩ := h
    obtain ⟨h1, h2⟩ := hframe c hc (.inr ⟨_, hx⟩) (by simp) (by simp) (by simp)
    exact ⟨c, h1.trans hc, h2.trans hx⟩
  | crit | drowsy | act | waking =>
    obtain ⟨c, hc, hx, hl⟩ := h
    obtain ⟨h1, h2⟩ := hframe c hc (.inl hx) (by simp) (by simp) (by simp)
    exact ⟨c, h1.trans hc, h2.trans hx, hl⟩
  | nodding | looking | looked =>
    obtain ⟨c, hc, hx, hl⟩ := h
    obtain ⟨h1, h2⟩ := hframe c hc (.inr ⟨_, hx⟩) (by simp) (by simp) (by simp)
    exact ⟨c, h1.trans hc, h2.trans hx, hl⟩

lemma Inv.fits_of (h : Inv chan cond s) (hx : s.phase p = x) : Fits s.base s.lk p x := hx ▸ h.fits p

lemma onBase_ok (hs : s.onBase build a = .ok s') :
    ∃ b, Switch.step build s.base a = .ok b ∧ s' = { s with base := b } := by
  rw [State.onBase] at hs
  cases hb : Switch.step build s.base a with rw [hb] at hs
  | error e =>
    cases hs
  | ok b =>
    exact ⟨b, rfl, (Except.ok.inj hs).symm⟩

/-- A step outside of the protocol. -/
lemma Inv.onBase (h : Inv chan cond s) (hs : s.onBase build a = .ok s')
    (ha : ∀ c p, owner a = some c → s.base.cpu c = some p → Allowed chan p (s.phase p) a = true) :
    Inv chan cond s' := by
  obtain ⟨b, hb, rfl⟩ := onBase_ok hs
  have hleave : ∀ c, a ≠ .leave c (.sleep chan) := by
    rintro c rfl
    simp only [Switch.step] at hb
    split at hb
    · rename_i p _ hp
      have hallowed := ha c p rfl hp
      cases hx : s.phase p <;> rw [hx] at hallowed <;> simp [Allowed] at hallowed
    · cases hb
  refine
    { base := h.base.step hb, fits := fun p => ?_, calm := h.calm, covered := fun r hr hc => ?_ }
  · exact (h.fits p).base_step hb fun c hc hp => ha c p hc hp
  refine h.covered r ?_ hc
  rcases hr with hr | hr
  · exact .inl (asleep_step hb hleave hr)
  · exact .inr hr

lemma proceed_ok {f : Slot → Phase → Except Fault (State D)} (hs : proceed s c f = .ok s') :
    ∃ p, s.base.cpu c = some p ∧ f p (s.phase p) = .ok s' := by
  rw [proceed] at hs
  split at hs
  · exact ⟨_, ‹_›, hs⟩
  · cases hs

@[simp] lemma goto_self : (s.goto p x).phase p = x := update_self ..

lemma goto_of_ne (hne : q ≠ p) : (s.goto p x).phase q = s.phase q := update_of_ne hne ..

/-- A process without `lk` does not depend on it. -/
lemma Fits.of_not_holds {lk lk' : Option ℕ} (h : Fits b lk p x)
    (hx : x.holds = false) : Fits b lk' p x := by
  cases x with
  | out | want | slept => trivial
  | dozing => exact h
  | _ => cases hx

/-- Whoever had to wake `r` still has to, or goes on to a phase in which it has to. -/
lemma covers_goto (h : ∃ q, (s.phase q).Covers r) (hp : (s.phase p).Covers r → x.Covers r) :
    ∃ q, ((s.goto p x).phase q).Covers r := by
  obtain ⟨q, hq⟩ := h
  rcases eq_or_ne q p with rfl | hne
  · exact ⟨q, by rw [goto_self]; exact hp hq⟩
  · exact ⟨q, by rwa [goto_of_ne hne]⟩

/-- The process `p` goes on to the phase `x`, while its CPU and the locks may change. -/
lemma inv_goto {lk : Option ℕ} {d : D} (hb : Switch.Inv b)
    (hother : ∀ q, q ≠ p → Fits b lk q (s.phase q)) (hself : Fits b lk p x)
    (hcalm : ∀ q, q ≠ p → s.phase q = .drowsy ∨ s.phase q = .nodding → cond q d = false)
    (hx : x = .drowsy ∨ x = .nodding → cond p d = false)
    (hcov : ∀ r, Asleep chan b r ∨ r ≠ p ∧ s.phase r = .dozing ∨ r = p ∧ x = .dozing →
      cond r d = true → ∃ q, ((s.goto p x).phase q).Covers r) :
    Inv chan cond { s.goto p x with base := b, lk := lk, data := d } := by
  refine { base := hb, fits := fun q => ?_, calm := fun q hq => ?_, covered := fun r hr hc => ?_ }
  · rcases eq_or_ne q p with rfl | hne
    · simpa only [goto_self] using hself
    · simpa only [goto_of_ne hne] using hother q hne
  · rcases eq_or_ne q p with rfl | hne
    · exact hx (by simpa only [goto_self] using hq)
    · exact hcalm q hne (by simpa only [goto_of_ne hne] using hq)
  refine hcov r ?_ hc
  rcases hr with hr | hr
  · exact .inl hr
  rcases eq_or_ne r p with rfl | hne
  · exact .inr (.inr ⟨rfl, by simpa only [goto_self] using hr⟩)
  · exact .inr (.inl ⟨hne, by simpa only [goto_of_ne hne] using hr⟩)

section

variable (h : Inv chan cond s)
include h

/-- Only the phase of `p` changes. -/
lemma Inv.goto (hself : Fits s.base s.lk p x) (hdoze : x ≠ .dozing)
    (hx : x = .drowsy ∨ x = .nodding → cond p s.data = false)
    (hcov : ∀ r, Down chan s r → (s.phase p).Covers r → x.Covers r) :
    Inv chan cond (s.goto p x) := by
  refine inv_goto h.base (fun q _ => h.fits q) hself (fun q _ => h.calm q) hx fun r hr hc => ?_
  have hdown : Down chan s r := by
    rcases hr with hr | ⟨-, hr⟩ | ⟨-, hr⟩
    · exact .inl hr
    · exact .inr hr
    · exact absurd hr hdoze
  exact covers_goto (h.covered r hdown hc) (hcov r hdown)

lemma Inv.lock_of_hold (hx : s.base.place c = .hold q) :
    s.base.lock q = some c := by
  have hfit := h.base.fits c
  rw [hx] at hfit
  obtain ⟨-, -, -, hl⟩ := hfit
  exact hl

/-- The CPU of a process that has `lk` is the one that has it. -/
lemma Inv.fits_cpu (hc : s.base.cpu c = some p) {c' : ℕ}
    (hc' : s.base.cpu c' = some p) : c' = c :=
  h.base.once c' c p hc' hc

/-- A step that the CPU of `p` takes leaves the other processes where they are. -/
lemma Inv.fits_of_ne
    (hb : Switch.step build s.base a = .ok b) (ha : owner a = some c) (hc : s.base.cpu c = some p)
    (hne : q ≠ p) : Fits b s.lk q (s.phase q) := by
  have hallowed : ∀ c', owner a = some c' → s.base.cpu c' = some q →
      Allowed chan q (s.phase q) a = true := by
    intro c' hc' hq
    obtain rfl := Option.mem_unique ha hc'
    exact absurd (Option.mem_unique hq hc) hne
  exact (h.fits q).base_step hb hallowed

/-- The process goes on with a step of its CPU that does not put it to sleep. -/
lemma Inv.stepGoto
    (hb : Switch.step build s.base a = .ok b) (ha : owner a = some c) (hc : s.base.cpu c = some p)
    (hleave : ∀ c, a ≠ .leave c (.sleep chan)) (hself : Fits b s.lk p x) (hdoze : x ≠ .dozing)
    (hx : x = .drowsy ∨ x = .nodding → cond p s.data = false)
    (hcov : ∀ r, Asleep chan b r ∨ r ≠ p ∧ s.phase r = .dozing → (s.phase p).Covers r →
      x.Covers r) :
    Inv chan cond { s.goto p x with base := b } := by
  refine inv_goto (h.base.step hb) (fun q hne => h.fits_of_ne hb ha hc hne) hself
    (fun q _ => h.calm q) hx fun r hr hcond => ?_
  rcases hr with hr | hr | ⟨-, hr⟩
  · exact covers_goto (h.covered r (.inl (asleep_step hb hleave hr)) hcond) (hcov r (.inl hr))
  · exact covers_goto (h.covered r (.inr hr.2) hcond) (hcov r (.inr hr))
  · exact absurd hr hdoze

end

lemma acquire_ok (hs : Switch.step build b (.acquire c q) = .ok b') :
    b'.cpu = b.cpu ∧ b'.place c = .hold q := by
  simp only [Switch.step] at hs
  split_ifs at hs
  cases hs
  exact ⟨rfl, update_self ..⟩

lemma release_ok (hs : Switch.step build b (.release c) = .ok b') :
    b'.cpu = b.cpu ∧ b'.place c = .run := by
  simp only [Switch.step] at hs
  split at hs
  · cases hs
    exact ⟨rfl, update_self ..⟩
  · cases hs
    exact ⟨rfl, update_self ..⟩
  · cases hs

lemma changed_ok {y : Switch.Change}
    (hs : Switch.step build b (.change c y) = .ok b') : b'.cpu = b.cpu ∧ b'.place = b.place := by
  simp only [Switch.step] at hs
  split at hs
  · exact change_frame hs
  · cases hs

/-- When `p` leaves its CPU, the other processes sleep as before. -/
lemma asleep_of_leave {y : Switch.Leave} (hc : b.cpu c = some p) (hne : r ≠ p)
    (hs : Switch.step build b (.leave c y) = .ok b') (hr : Asleep chan b' r) : Asleep chan b r := by
  simp only [Switch.step, hc] at hs
  split at hs
  · rename_i p' _ hp'
    cases hp'
    split_ifs at hs
    cases hs
    have hsame : update b.proc p (y.apply (b.proc p)) r = b.proc r := update_of_ne hne ..
    exact ⟨hsame ▸ hr.1, hsame ▸ hr.2⟩
  · cases hs

/-- The slot that `wakeup` has looked at does not sleep on the channel. -/
lemma not_asleep_of_wakeup (hc : b.cpu c = some p) (hplace : b.place c = .hold q)
    (hpq : p ≠ q) (hs : Switch.step build b (.change c (.wakeup chan)) = .ok b') :
    ¬ Asleep chan b' q := by
  simp only [Switch.step, hplace, hc, Switch.change] at hs
  split_ifs at hs with hq <;> cases hs
  · simp [Asleep, Switch.State.modify]
  · exact fun ha => hq ⟨hpq, ha⟩

theorem Inv.step {a : Action D} (h : Inv chan cond s) (hs : step build chan cond s a = .ok s') :
    Inv chan cond s' := by
  unfold Sleep.step at hs
  cases a with
  | base a =>
    dsimp only at hs
    split at hs
    · rename_i howner
      refine h.onBase hs fun c p hc => ?_
      rw [howner] at hc
      cases hc
    rename_i c howner
    split at hs
    · rename_i hcpu
      refine h.onBase hs fun c' p hc hp => ?_
      obtain rfl := Option.mem_unique howner hc
      rw [hcpu] at hp
      cases hp
    rename_i p hcpu
    split_ifs at hs with hallowed
    refine h.onBase hs fun c' p' hc hp => ?_
    obtain rfl := Option.mem_unique howner hc
    obtain rfl := Option.mem_unique hcpu hp
    exact hallowed
  | enter c | resume c =>
    obtain ⟨p, hc, hp⟩ := proceed_ok hs
    split_ifs at hp with hx
    cases hp
    refine h.goto trivial (by simp) (by simp) fun r _ hcov => ?_
    rw [hx.1] at hcov
    exact hcov
  | acquire c =>
    obtain ⟨p, hc, hp⟩ := proceed_ok hs
    split_ifs at hp with hx
    cases hp
    have hfree : ∀ q, (s.phase q).holds = false := by
      intro q
      by_contra hq
      obtain ⟨c', -, hl⟩ := (h.fits q).cpu_of_holds (by simpa using hq)
      rw [hx.2.2] at hl
      cases hl
    refine inv_goto h.base (fun q _ => (h.fits q).of_not_holds (hfree q)) ⟨c, hc, hx.2.1, rfl⟩
      (fun q _ => h.calm q) (by simp) fun r hr hcond => ?_
    have hdown : Down chan s r := by
      rcases hr with hr | ⟨-, hr⟩ | ⟨-, hr⟩
      · exact .inl hr
      · exact .inr hr
      · cases hr
    -- nobody has `lk`, so nobody is in `wakeup`
    obtain ⟨q, hq⟩ := h.covered r hdown hcond
    exact absurd hq.holds (by simp [hfree q])
  | sleep c =>
    obtain ⟨p, hc, hp⟩ := proceed_ok hs
    split_ifs at hp with hx
    cases hp
    have hfit := h.fits p
    rw [hx.1] at hfit
    refine h.goto hfit (by simp) (fun _ => hx.2) fun r _ hcov => ?_
    rw [hx.1] at hcov
    exact hcov
  | pass c =>
    obtain ⟨p, hc, hp⟩ := proceed_ok hs
    split_ifs at hp with hx
    cases hp
    have hfit := h.fits p
    rw [hx] at hfit
    refine h.goto hfit (by simp) (by simp) fun r _ hcov => ?_
    rw [hx] at hcov
    exact hcov
  | nod c =>
    obtain ⟨p, hc, hp⟩ := proceed_ok hs
    split_ifs at hp with hx
    obtain ⟨b, hb, rfl⟩ := onBase_ok hp
    obtain ⟨c', hc', -, hl⟩ := h.fits_of hx
    obtain rfl := h.fits_cpu hc hc'
    obtain ⟨hcpu, hplace⟩ := acquire_ok hb
    refine h.stepGoto hb rfl hc (by simp) ⟨c', by rw [hcpu]; exact hc, hplace, hl⟩ (by simp)
      (fun _ => h.calm p (.inl hx)) fun r _ hcov => ?_
    rw [hx] at hcov
    exact hcov
  | doze c =>
    obtain ⟨p, hc, hp⟩ := proceed_ok hs
    split_ifs at hp with hx
    cases hp
    obtain ⟨c', hc', hplace, -⟩ := h.fits_of hx
    have hfree : ∀ q, q ≠ p → (s.phase q).holds = false := by
      intro q hne
      by_contra hq
      exact hne (h.holds_unique (by simpa using hq) (by rw [hx]; rfl))
    refine inv_goto h.base (fun q hne => (h.fits q).of_not_holds (hfree q hne)) ⟨c', hc', hplace⟩
      (fun q _ => h.calm q) (by simp) fun r hr hcond => ?_
    -- the condition of the process did not hold when it had `lk`
    have hdown : Down chan s r := by
      rcases hr with hr | ⟨-, hr⟩ | ⟨rfl, -⟩
      · exact .inl hr
      · exact .inr hr
      · exact absurd ((h.calm r (.inr hx)).symm.trans hcond) (by decide)
    refine covers_goto (h.covered r hdown hcond) fun hcov => ?_
    rw [hx] at hcov
    exact hcov
  | rest c =>
    obtain ⟨p, hc, hp⟩ := proceed_ok hs
    split_ifs at hp with hx
    obtain ⟨b, hb, rfl⟩ := onBase_ok hp
    refine inv_goto (h.base.step hb) (fun q hne => h.fits_of_ne hb rfl hc hne) trivial
      (fun q _ => h.calm q) (by simp) fun r hr hcond => ?_
    have hdown : Down chan s r := by
      rcases eq_or_ne r p with rfl | hne
      · exact .inr hx
      rcases hr with hr | ⟨-, hr⟩ | ⟨-, hr⟩
      · exact .inl (asleep_of_leave hc hne hb hr)
      · exact .inr hr
      · cases hr
    refine covers_goto (h.covered r hdown hcond) fun hcov => ?_
    rw [hx] at hcov
    exact hcov
  | consume c d =>
    obtain ⟨p, hc, hp⟩ := proceed_ok hs
    split_ifs at hp with hx
    cases hp
    refine
      { base := h.base, fits := h.fits, calm := fun q hq => ?_
        covered := fun r hr hcond => h.covered r hr (hx.2 r hcond) }
    by_contra hcond
    have htrue := hx.2 q (by simpa using hcond)
    rw [h.calm q hq] at htrue
    cases htrue
  | set c d =>
    obtain ⟨p, hc, hp⟩ := proceed_ok hs
    split_ifs at hp with hx
    cases hp
    have hfit := h.fits p
    rw [hx] at hfit
    refine inv_goto h.base (fun q _ => h.fits q) hfit (fun q hne hq => ?_) (by simp)
      fun r _ _ => ⟨p, ?_⟩
    · refine absurd (h.holds_unique ?_ (by rw [hx]; rfl)) hne
      rcases hq with hq | hq <;> rw [hq] <;> rfl
    · rw [goto_self]
      exact Nat.zero_le _
  | visit c =>
    obtain ⟨p, hc, hp⟩ := proceed_ok hs
    split at hp
    · rename_i k hx
      obtain ⟨c', hc', hplace, hl⟩ := h.fits_of hx
      obtain rfl := h.fits_cpu hc hc'
      split_ifs at hp with hk hself
      · cases hp
        refine h.goto ⟨c', hc, hplace, hl⟩ (by simp) (by simp) fun r hr hcov => ?_
        rw [hx] at hcov
        have hne : (r : ℕ) ≠ k := by
          rintro rfl
          -- the waker itself is awake
          obtain rfl : p = r := hself
          rcases hr with hr | hr
          · exact h.not_asleep hc (.inl hplace) hr
          · rw [hx] at hr
            cases hr
        exact Nat.lt_of_le_of_ne hcov hne.symm
      · obtain ⟨b, hb, rfl⟩ := onBase_ok hp
        obtain ⟨hcpu, hplace'⟩ := acquire_ok hb
        refine h.stepGoto hb rfl hc (by simp) ⟨c', by rw [hcpu]; exact hc, hplace', hl⟩ (by simp)
          (by simp) fun r _ hcov => ?_
        rw [hx] at hcov
        exact hcov
      · cases hp
        refine h.goto ⟨c', hc, hplace, hl⟩ (by simp) (by simp) fun r _ hcov => ?_
        rw [hx] at hcov
        exact absurd (Nat.lt_of_le_of_lt hcov r.isLt) hk
    · cases hp
  | look c =>
    obtain ⟨p, hc, hp⟩ := proceed_ok hs
    split at hp
    · rename_i k hx
      obtain ⟨b, hb, rfl⟩ := onBase_ok hp
      obtain ⟨c', hc', hplace, hl⟩ := h.fits_of hx
      obtain rfl := h.fits_cpu hc hc'
      have hframe : b.cpu = s.base.cpu ∧ b.place = s.base.place := changed_ok hb
      refine h.stepGoto hb rfl hc (by simp)
        ⟨c', by rw [hframe.1]; exact hc, by rw [hframe.2]; exact hplace, hl⟩ (by simp) (by simp)
        fun r hr hcov => ?_
      have hne : r ≠ k := by
        rintro rfl
        rcases hr with hr | ⟨hrp, hr⟩
        · rcases eq_or_ne p r with rfl | hpr
          · exact h.not_asleep hc (.inr ⟨p, hplace⟩) (asleep_step hb (by simp) hr)
          · exact not_asleep_of_wakeup hc hplace hpr hb hr
        -- the lock of the slot is not held by its process
        obtain ⟨c2, hc2, hplace2⟩ := h.fits_of hr
        have hlock := h.lock_of_hold hplace
        rw [h.lock_of_hold hplace2] at hlock
        cases hlock
        exact hrp (Option.mem_unique hc2 hc)
      rw [hx] at hcov
      exact lt_of_le_of_ne hcov hne.symm
    · cases hp
  | next c =>
    obtain ⟨p, hc, hp⟩ := proceed_ok hs
    split at hp
    · rename_i k hx
      obtain ⟨b, hb, rfl⟩ := onBase_ok hp
      obtain ⟨c', hc', -, hl⟩ := h.fits_of hx
      obtain rfl := h.fits_cpu hc hc'
      obtain ⟨hcpu, hplace⟩ := release_ok hb
      refine h.stepGoto hb rfl hc (by simp) ⟨c', by rw [hcpu]; exact hc, hplace, hl⟩ (by simp)
        (by simp) fun r _ hcov => ?_
      rw [hx] at hcov
      exact hcov
    · cases hp
  | release c =>
    obtain ⟨p, hc, hp⟩ := proceed_ok hs
    split_ifs at hp with hx
    cases hp
    have hfree : ∀ q, q ≠ p → (s.phase q).holds = false := by
      intro q hne
      by_contra hq
      exact hne (h.holds_unique (by simpa using hq) (by rw [hx]; rfl))
    refine inv_goto h.base (fun q hne => (h.fits q).of_not_holds (hfree q hne)) trivial
      (fun q _ => h.calm q) (by simp) fun r hr hcond => ?_
    have hdown : Down chan s r := by
      rcases hr with hr | ⟨-, hr⟩ | ⟨-, hr⟩
      · exact .inl hr
      · exact .inr hr
      · cases hr
    -- whoever had to wake the process would have `lk`
    obtain ⟨q, hq⟩ := h.covered r hdown hcond
    rcases eq_or_ne q p with rfl | hne
    · rw [hx] at hq
      cases hq
    · exact absurd hq.holds (by simp [hfree q hne])

/-! ### Runs -/

lemma inv_boot (d : D) : Inv chan cond (boot d) := by
  refine
    { base := Switch.inv_boot, fits := fun _ => trivial, calm := fun p hp => ?_
      covered := fun r hr => ?_ }
  · simp [boot] at hp
  rcases hr with hr | hr
  · have hstate := hr.1
    simp only [boot, Switch.boot] at hstate
    split_ifs at hstate
  · cases hr

/-- Nobody sleeps on the channel while its condition holds, when `lk` is free. -/
def Awake (chan : Chan) (cond : Slot → D → Bool) (s : State D) : Prop :=
  s.lk = none → ∀ p, (s.base.proc p).state = .sleeping → (s.base.proc p).chan = chan →
    cond p s.data = false

lemma Inv.awake (h : Inv chan cond s) : Awake chan cond s := by
  intro hfree p hp hchan
  by_contra hcond
  obtain ⟨q, hq⟩ := h.covered p (.inl ⟨hp, hchan⟩) (by simpa using hcond)
  obtain ⟨c, -, hl⟩ := (h.fits q).cpu_of_holds hq.holds
  rw [hfree] at hl
  cases hl

/-- No wakeup is lost in any run of any build. -/
theorem awake_of_run (build : Build) (chan : Chan) (cond : Slot → D → Bool) (d : D)
    {tr : List (State D × Action D)} {s : State D}
    (h : Run (step build chan cond) (boot d) tr s) :
    (∀ x ∈ tr, Awake chan cond x.1) ∧ Awake chan cond s := by
  have hinv := h.invariant' (fun _ _ _ hs hstep => hs.step hstep) (inv_boot d)
  exact ⟨fun x hx => (hinv.1 x hx).awake, hinv.2.awake⟩

end Inv

/-- The first process forks a child on another CPU and waits until the number is not zero.  The
child sets the number while the first process is in `sleep` and not yet SLEEPING. -/
def wakeScript : List (Action ℕ) :=
  [.base (.pick 0 0), .base (.sched 0), .base (.sched 0), .base (.release 0),
    .base (.acquire 0 1), .base (.change 0 (.alloc 2 0)), .base (.release 0), .base (.acquire 0 1),
    .base (.change 0 .ready), .base (.release 0),
    .base (.pick 1 1), .base (.sched 1), .base (.sched 1), .base (.release 1),
    .enter 0, .acquire 0, .sleep 0, .nod 0, .doze 0, .enter 1, .acquire 1, .pass 1, .set 1 1,
    .rest 0, .base (.sched 0), .base (.sched 0), .visit 1, .look 1, .next 1, .visit 1] ++
    (List.replicate (NPROC - 2) [.visit 1, .look 1, .next 1]).flatten ++ [.visit 1, .release 1]

/-- The theorem at that run. -/
theorem awake_of_run_wake :
    ∃ tr s, Run (step .mlfq (.addr 7) fun _ n => decide (n ≠ 0)) (boot 0) tr s ∧ s.lk = none ∧
      s.data = 1 ∧ (s.base.proc 0).state = .runnable ∧
      Awake (.addr 7) (fun _ n => decide (n ≠ 0)) s := by
  obtain ⟨s, hs, htest⟩ := exists_of_okAnd
    (runList (step .mlfq (.addr 7) fun _ n => decide (n ≠ 0)) (boot 0) wakeScript)
    (fun s => decide (s.lk = none ∧ s.data = 1 ∧ (s.base.proc 0).state = .runnable))
    (by decide +kernel)
  obtain ⟨h1, h2, h3⟩ := of_decide_eq_true htest
  exact ⟨_, s, .of_runList hs, h1, h2, h3, (awake_of_run .mlfq _ _ 0 (.of_runList hs)).2⟩

end Hexv6.Smp.Sleep
