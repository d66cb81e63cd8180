import Hexv6.Smp.Family

/-!
# No orphan and no exit is missed

Every step of `fork`, `exit`, `wait` and of the processes around them keeps the invariant of
`Hexv6.Smp.Family`.  The steps outside of the protocol are `Calm`: they neither end nor free a
process, and change parents only in a `fork`.  Within the protocol one process at a time has
`wait_lock`; the others are out of it, or in `sleep` with their own lock held.
-/

namespace Hexv6.Smp.Family

open Lib Function
open Sched (Slot ProcState Chan)

variable {build : Build} {s s' : State} {p q r : Slot} {x : Phase}
  {k : ℕ} {κ : Cause} {f : Task → Task} {t : Task} {ticks : ℕ} {l : Option Slot}
  {L : Slot → Option Slot} {j : Slot} {a : Action} {pid : ℤ}

/-! ### Steps outside of the protocol -/

/-- A step that neither ends nor frees a process. -/
structure Calm (s s' : State) : Prop where
  phase : s'.phase = s.phase
  waitLock : s'.waitLock = s.waitLock
  life : s'.life = s.life
  exited : s'.exited = s.exited
  returned : s'.returned = s.returned
  run : ∀ p, (s.phase p).idle = false → (s.proc p).state = .running →
    (s'.proc p).state = .running
  lock : ∀ q p, s.lock q = some p → (s.phase p).idle = false → (s.proc p).state = .running →
    s'.lock q = some p
  parent : ∀ q r, (s'.proc q).parent = some r → (s.proc q).parent = some r ∨
    s.waitLock = none ∧ Live (s.proc r).state ∧ (s'.proc q).state ≠ .zombie
  keep : ∀ q r, (s.proc q).parent = some r → (s'.proc q).parent = some r ∨
    (s.proc q).state = .used ∧ (s.lock q = none ∨ s.waitLock = none)
  live : ∀ q, Live (s.proc q).state → Live (s'.proc q).state
  zombie : ∀ q, (s'.proc q).state = .zombie ↔ (s.proc q).state = .zombie
  status : ∀ q, (s.proc q).state = .zombie →
    (s'.proc q).pid = (s.proc q).pid ∧ (s'.proc q).xstate = (s.proc q).xstate
  born : ∀ q, Live (s'.proc q).state → Live (s.proc q).state ∨ (s'.proc q).parent ≠ none
  down : ∀ r, Down s' r → Down s r

lemma not_used_of_live {y : ProcState} (h : Live y) : y ≠ .used := h.2.1

lemma live_running : Live .running := by simp [Live]

/-- A step that leaves alone what process `p` relies on. -/
structure Keeps (s s' : State) (p : Slot) : Prop where
  run : (s.proc p).state = .running → (s'.proc p).state = .running
  waitLock : s.waitLock = some p → s'.waitLock = some p
  lock : ∀ j, s.lock j = some p → s'.lock j = some p
  parent : s.waitLock = some p → ∀ q r, (s'.proc q).parent = some r → (s.proc q).parent = some r
  child : s.waitLock = some p → ∀ k, s.lock k = some p → (s.proc k).parent = some p →
    (s'.proc k).parent = some p
  zombie : ∀ q, (s'.proc q).state = .zombie → (s.proc q).state = .zombie ∨ s.waitLock ≠ some p
  down : s.waitLock = some p → ∀ r, Down s' r → Down s r

section

variable (hk : Keeps s s' p)
include hk

lemma Keeps.acting (ha : Acting s p) : Acting s' p :=
  ⟨hk.run ha.running, hk.waitLock ha.waitLock⟩

lemma Keeps.givenUpTo (ha : Acting s p) (h : GivenUpTo s p k) :
    GivenUpTo s' p k := fun q hq hp => h q hq (hk.parent ha.waitLock q p hp)

lemma Keeps.seenUpTo (ha : Acting s p) (h : SeenUpTo s p k) :
    SeenUpTo s' p k := by
  intro q hq hp hz
  rcases hk.zombie q hz with hz' | hne
  · exact h q hq (hk.parent ha.waitLock q p hp) hz'
  · exact hne ha.waitLock

lemma Keeps.done (ha : Acting s p) (h : Done s p k κ) :
    Done s' p k κ := by
  cases κ with
  | orphan k => exact hk.givenUpTo ha h
  | parent =>
    refine ⟨hk.givenUpTo ha h.1, fun r hr hp hd => ?_⟩
    exact h.2 r hr (hk.parent ha.waitLock p r hp) (hk.down ha.waitLock r hd)

lemma Keeps.fits (h : Fits s p x) : Fits s' p x := by
  cases x with
  | out | slept => trivial
  | reparenting k => exact ⟨hk.acting h.1, h.2.1, hk.givenUpTo h.1 h.2.2⟩
  | waking κ j | last => exact ⟨hk.acting h.1, h.2.1, hk.done h.1 h.2.2⟩
  | looking κ j =>
    obtain ⟨ha, hne, hd, hl, hj⟩ := h
    exact ⟨hk.acting ha, hne, hk.done ha hd, hk.lock j hl, hj⟩
  | looked κ j =>
    obtain ⟨ha, hne, hd, hl⟩ := h
    exact ⟨hk.acting ha, hne, hk.done ha hd, hk.lock j hl⟩
  | dying =>
    obtain ⟨ha, hne, hd, hl⟩ := h
    exact ⟨hk.acting ha, hne, hk.done ha hd, hk.lock p hl⟩
  | scan k _ | drowsy => exact ⟨hk.acting h.1, hk.seenUpTo h.1 h.2⟩
  | child k =>
    obtain ⟨ha, hs, hl, hp⟩ := h
    exact ⟨hk.acting ha, hk.seenUpTo ha hs, hk.lock k hl, hk.child ha.waitLock k hl hp⟩
  | passing k =>
    obtain ⟨ha, hs, hl⟩ := h
    exact ⟨hk.acting ha, hk.seenUpTo ha hs, hk.lock k hl⟩
  | leaving k => exact ⟨hk.acting h.1, hk.lock k h.2⟩
  | nodding =>
    obtain ⟨ha, hs, hl⟩ := h
    exact ⟨hk.acting ha, hk.seenUpTo ha hs, hk.lock p hl⟩
  | dozing => exact ⟨hk.run h.1, hk.lock p h.2⟩

end

lemma Fits.running (h : Fits s p x) (hx : x.idle = false) : (s.proc p).state = .running := by
  cases x with
  | out | slept => cases hx
  | dozing => exact h.1
  | _ => exact h.1.running

lemma Calm.fits (hc : Calm s s') (h : Fits s p (s.phase p)) : Fits s' p (s.phase p) := by
  cases hx : (s.phase p).idle with
  | true =>
    cases hp : s.phase p with
    | out | slept => trivial
    | _ =>
      rw [hp] at hx
      cases hx
  | false =>
    have hrun := h.running hx
    refine Keeps.fits ?_ h
    refine ⟨hc.run p hx, hc.waitLock.trans, fun j hj => hc.lock j p hj hx hrun,
      fun hw q r hq => ?_, fun hw k hl hp => ?_, fun q hz => .inl ((hc.zombie q).mp hz),
      fun _ => hc.down⟩
    · rcases hc.parent q r hq with hq' | ⟨hnone, -⟩
      · exact hq'
      · rw [hw] at hnone
        cases hnone
    rcases hc.keep k p hp with hp' | ⟨-, hfree | hfree⟩
    · exact hp'
    · rw [hl] at hfree
      cases hfree
    · rw [hw] at hfree
      cases hfree

lemma Inv.fits_of (h : Inv s) (hp : s.phase p = x) : Fits s p x := hp ▸ h.fits p

lemma Inv.calm (h : Inv s) (hc : Calm s s')
    (hused : ∀ p np, s'.child p = some np → (s'.proc np).state = .used)
    (hsingle : ∀ p p' np, s'.child p = some np → s'.child p' = some np → p = p') : Inv s' where
  fits p := by
    rw [hc.phase]
    exact hc.fits (h.fits p)
  init := hc.live _ h.init
  parent q hq hne := by
    rcases hq with hq | hq
    · rcases hc.born q hq with hq' | hpar
      · intro hnone
        obtain ⟨r, hr⟩ := Option.ne_none_iff_exists'.mp (h.parent q (.inl hq') hne)
        rcases hc.keep q r hr with hr' | ⟨hu, -⟩
        · rw [hnone] at hr'
          cases hr'
        · exact not_used_of_live hq' hu
      · exact hpar
    have hz := (hc.zombie q).mp hq
    intro hnone
    obtain ⟨r, hr⟩ := Option.ne_none_iff_exists'.mp (h.parent q (.inr hz) hne)
    rcases hc.keep q r hr with hr' | ⟨hu, -⟩
    · rw [hnone] at hr'
      cases hr'
    · rw [hz] at hu
      cases hu
  alive q r hq := by
    rcases hc.parent q r hq with hq' | ⟨-, hl, -⟩
    · exact hc.live r (h.alive q r hq')
    · exact hc.live r hl
  used := hused
  single := hsingle
  covered r q hd hq hz := by
    rw [hc.phase]
    rcases hc.parent q r hq with hq' | ⟨-, -, hz'⟩
    · exact h.covered r q (hc.down r hd) hq' ((hc.zombie q).mp hz)
    · exact absurd hz hz'
  exited q hz := by
    have hz' := (hc.zombie q).mp hz
    obtain ⟨h1, h2⟩ := hc.status q hz'
    rw [hc.exited, hc.life, h1, h2]
    exact h.exited q hz'
  past t ht := by
    rw [hc.returned] at ht
    rw [hc.exited, hc.life]
    exact h.past t ht
  once := by
    rw [hc.returned]
    exact h.once

/-- The parent of a slot changes in a `fork` only, before the new process is RUNNABLE. -/
structure Kin (s : State) (q : Slot) (t : Task) : Prop where
  parent : ∀ r, t.parent = some r → (s.proc q).parent = some r ∨
    s.waitLock = none ∧ Live (s.proc r).state ∧ t.state ≠ .zombie
  keep : ∀ r, (s.proc q).parent = some r → t.parent = some r ∨
    (s.proc q).state = .used ∧ (s.lock q = none ∨ s.waitLock = none)

/-- A change of one slot outside of the protocol. -/
structure Mild (s : State) (q : Slot) (t : Task) : Prop where
  run : (s.phase q).idle = false → (s.proc q).state = .running → t.state = .running
  kin : Kin s q t
  live : Live (s.proc q).state → Live t.state
  zombie : t.state = .zombie ↔ (s.proc q).state = .zombie
  status : (s.proc q).state = .zombie → t.pid = (s.proc q).pid ∧ t.xstate = (s.proc q).xstate
  born : Live t.state → Live (s.proc q).state ∨ t.parent ≠ none
  down : t.state = .sleeping → t.chan = .proc q → (s.proc q).state = .sleeping ∧
    (s.proc q).chan = .proc q

lemma Kin.of_eq (hpar : t.parent = (s.proc q).parent) : Kin s q t :=
  ⟨fun _ hr => .inl (hpar ▸ hr), fun _ hr => .inl (hpar.trans hr)⟩

lemma modify_self : (s.modify q f).proc q = f (s.proc q) := update_self ..

lemma modify_of_ne (hne : p ≠ q) : (s.modify q f).proc p = s.proc p :=
  update_of_ne hne ..

lemma Mild.refl (s : State) (p : Slot) : Mild s p (s.proc p) where
  run _ hr := hr
  kin := .of_eq rfl
  live hl := hl
  zombie := Iff.rfl
  status _ := ⟨rfl, rfl⟩
  born hl := .inl hl
  down h1 h2 := ⟨h1, h2⟩

lemma Calm.of_mild (hm : Mild s q (f (s.proc q))) : Calm s (s.modify q f) := by
  have hall : ∀ p, Mild s p ((s.modify q f).proc p) := by
    intro p
    rcases eq_or_ne p q with rfl | hne
    · rw [modify_self]
      exact hm
    · rw [modify_of_ne hne]
      exact .refl s p
  exact
    { phase := rfl, waitLock := rfl, life := rfl, exited := rfl, returned := rfl
      run := fun p => (hall p).run
      lock := fun _ _ hl _ _ => hl
      parent := fun p => (hall p).kin.parent
      keep := fun p => (hall p).kin.keep
      live := fun p => (hall p).live
      zombie := fun p => (hall p).zombie
      status := fun p => (hall p).status
      born := fun p => (hall p).born
      down := fun r hd => hd.imp (fun hs => (hall r).down hs.1 hs.2) id }

/-! ### What the functions on slots keep -/

lemma push_family (build : Build) (level : ℤ) (t : Task) :
    (Task.push build level t).parent = t.parent ∧ (Task.push build level t).pid = t.pid ∧
      (Task.push build level t).xstate = t.xstate ∧ (Task.push build level t).chan = t.chan := by
  rw [Task.push]
  split_ifs <;> simp

/-- A process that neither runs nor is a ZOMBIE, changes to a state of that kind and does not sleep.
-/
lemma Mild.of_state {y z : ProcState} (hq : (s.proc q).state = y) (ht : t.state = z)
    (hy : y ≠ .running ∧ y ≠ .zombie) (hz : z ≠ .zombie ∧ z ≠ .sleeping)
    (hkin : Kin s q t) (hlive : Live y → Live z)
    (hborn : Live z → Live y ∨ t.parent ≠ none) : Mild s q t := by
  subst hq ht
  exact ⟨fun _ hr => absurd hr hy.1, hkin, hlive, iff_of_false hz.1 hy.2, fun h => absurd h hy.2,
    hborn, fun h => absurd h hz.2⟩

lemma mild_dispatch (hq : (s.proc q).state = .runnable) :
    Mild s q (Task.dispatch build (s.proc q)) :=
  .of_state hq (dispatch_state build _) (by decide) (by decide) (.of_eq (by cases build <;> rfl))
    (fun _ => live_running) fun _ => .inl (by simp [Live])

/-- A process that is not in the protocol gives up its CPU. -/
lemma mild_leave (hq : (s.proc q).state = .running) (hi : (s.phase q).idle = true)
    (hpar : t.parent = (s.proc q).parent) (hstate : t.state = .runnable ∨ t.state = .sleeping)
    (hchan : t.state = .sleeping → t.chan ≠ .proc q) : Mild s q t := by
  refine ⟨fun hi' => ?_, .of_eq hpar, fun _ => ?_, ?_, fun hz => ?_, fun _ => .inl ?_,
    fun hs hc => ?_⟩
  · rw [hi] at hi'
    cases hi'
  · rcases hstate with hstate | hstate <;> simp [hstate, Live]
  · rcases hstate with hstate | hstate <;> simp [hstate, hq]
  · rw [hq] at hz
    cases hz
  · rw [hq]
    exact live_running
  · exact absurd hc (hchan hs)

/-- A process that sleeps becomes RUNNABLE. -/
lemma mild_wake (hq : (s.proc q).state = .sleeping) (hstate : t.state = .runnable)
    (hpar : t.parent = (s.proc q).parent) : Mild s q t :=
  .of_state hq hstate (by decide) (by decide) (.of_eq hpar) (by simp [Live]) (by simp [Live])

lemma mild_kill : Mild s q (Task.kill build (s.proc q)) := by
  rw [Task.kill]
  by_cases hs : (s.proc q).state = .sleeping
  · simp only [hs, if_true]
    refine mild_wake hs (push_state _ _ _) ?_
    exact (push_family build 0 _).1
  simp only [hs, if_false]
  exact ⟨fun _ hr => hr, .of_eq rfl, fun hl => hl, Iff.rfl, fun _ => ⟨rfl, rfl⟩, .inl,
    fun h1 h2 => ⟨h1, h2⟩⟩

lemma mild_wakeup {chan : Chan} : Mild s q (wake chan (s.proc q)) := by
  rw [wake]
  split_ifs with hs
  · exact mild_wake hs.1 rfl rfl
  · exact .refl s q

lemma mild_alloc (hq : (s.proc q).state = .unused) :
    Mild s q ((s.proc q).allocproc pid ticks) :=
  .of_state (z := .used) hq rfl (by decide) (by decide) (.of_eq rfl) (by simp [Live])
    (by simp [Live])

lemma mild_ready (hq : (s.proc q).state = .used) (hstate : t.state = .runnable)
    (hpar : t.parent = (s.proc q).parent) (hsome : (s.proc q).parent = some p) : Mild s q t :=
  .of_state hq hstate (by decide) (by decide) (.of_eq hpar) (by simp [Live])
    fun _ => .inr (by simp [hpar, hsome])

/-- A change of the new process of a `fork` before it is RUNNABLE. -/
lemma mild_used {z : ProcState} (hu : (s.proc q).state = .used) (ht : t.state = z)
    (hz : z = .used ∨ z = .unused)
    (hpar : t.parent = none ∧ s.lock q = none ∨
      s.waitLock = none ∧ ∃ r, t.parent = some r ∧ Live (s.proc r).state) : Mild s q t := by
  have hnot : ¬ Live z ∧ z ≠ .zombie ∧ z ≠ .sleeping := by
    rcases hz with rfl | rfl <;> simp [Live]
  refine .of_state hu ht (by decide) hnot.2 ⟨fun r hr => ?_, fun _ _ => ?_⟩ (by simp [Live])
    fun hl => absurd hl hnot.1
  · rcases hpar with ⟨hnone, -⟩ | ⟨hw, r', hr', hl⟩
    · rw [hnone] at hr
      cases hr
    · obtain rfl := Option.mem_unique hr' hr
      exact .inr ⟨hw, hl, ht ▸ hnot.2.1⟩
  · exact .inr ⟨hu, hpar.imp And.right And.left⟩

/-- The children in progress are only relevant to `fork`. -/
lemma Calm.setChild {y : Option Slot} (hc : Calm s s') : Calm s (s'.setChild p y) :=
  ⟨hc.phase, hc.waitLock, hc.life, hc.exited, hc.returned, hc.run, hc.lock, hc.parent, hc.keep,
    hc.live, hc.zombie, hc.status, hc.born, hc.down⟩

lemma when_ok {c : Bool} {s' : State} (h : s.when c = .ok s') : c = true ∧ s = s' := by
  rw [State.when] at h
  split_ifs at h with hc
  exact ⟨hc, Except.ok.inj h⟩

/-- `fork` is over for `p`, and its new process changes. -/
lemma Inv.used_over (h : Inv s) (hc : s.child p = some q) {p' np : Slot}
    (hnp : (((s.modify q f).setChild p none)).child p' = some np) :
    s.child p' = some np ∧ ((s.modify q f).proc np).state = .used := by
  have hp' : p' ≠ p := by
    rintro rfl
    have hself : ((s.modify q f).setChild p' none).child p' = none := update_self ..
    rw [hself] at hnp
    cases hnp
  have hkeep : ((s.modify q f).setChild p none).child p' = s.child p' := update_of_ne hp' ..
  rw [hkeep] at hnp
  have hne : np ≠ q := by
    rintro rfl
    exact hp' (h.single p' p np hnp hc)
  rw [modify_of_ne hne]
  exact ⟨hnp, h.used p' np hnp⟩

lemma Inv.over (h : Inv s) (hc : s.child p = some q) (hm : Mild s q (f (s.proc q))) :
    Inv ((s.modify q f).setChild p none) := by
  refine h.calm (Calm.of_mild hm).setChild (fun p' np hnp => (h.used_over hc hnp).2)
    fun p' p'' np h1 h2 => ?_
  exact h.single p' p'' np (h.used_over hc h1).1 (h.used_over hc h2).1

/-! ### Steps of the protocol -/

lemma Phase.Covers.acting (hx : x.Covers) (h : Fits s p x) : Acting s p := by
  cases x with
  | waking | looking | looked => exact h.1
  | _ => cases hx

/-- Nobody but the process with `wait_lock` acts. -/
lemma Acting.eq (ha : Acting s p) (hq : Acting s q) : q = p :=
  Option.mem_unique hq.waitLock ha.waitLock

lemma goto_self : (s.goto p x).phase p = x := update_self ..

lemma goto_of_ne (hne : q ≠ p) : (s.goto p x).phase q = s.phase q := update_of_ne hne ..

lemma Acting.goto (ha : Acting s p) :
    Acting { s.goto q x with waitLock := s.waitLock, lock := L } p := ⟨ha.running, ha.waitLock⟩

/-- The process with `wait_lock`, or one that takes it, goes on. -/
lemma Inv.move (h : Inv s)
    (hw : s.waitLock = some p ∨ s.waitLock = none)
    (hL : ∀ q j, q ≠ p → s.lock j = some q → L j = some q)
    (hx : Fits { s.goto p x with waitLock := l, lock := L } p x)
    (hdoze : x = .dozing → SeenUpTo s p NPROC)
    (hcov : (s.phase p).Covers → x.Covers ∨ ¬ Down s initproc) :
    Inv { s.goto p x with waitLock := l, lock := L } := by
  have hnot : ∀ q, q ≠ p → s.waitLock ≠ some q := by
    intro q hne hq
    rcases hw with hw | hw
    · exact hne (Option.mem_unique hq hw)
    · rw [hw] at hq
      cases hq
  refine { h with fits := fun q => ?_, covered := fun r q hd hq hz => ?_ }
  · rcases eq_or_ne q p with rfl | hne
    · rw [show ({ s.goto q x with waitLock := l, lock := L } : State).phase q = x from goto_self]
      exact hx
    have hphase : ({ s.goto p x with waitLock := l, lock := L } : State).phase q = s.phase q :=
      goto_of_ne hne
    rw [hphase]
    refine Keeps.fits ?_ (h.fits q)
    exact ⟨id, fun hq => absurd hq (hnot q hne), fun j hj => hL q j hne hj, fun _ _ _ => id,
      fun _ _ _ => id, fun _ => .inl, fun hq => absurd hq (hnot q hne)⟩
  · have hd' : Down s r ∨ r = p ∧ x = .dozing := by
      rcases hd with hd | hd
      · exact .inl (.inl hd)
      rcases eq_or_ne r p with rfl | hne
      · exact .inr ⟨rfl, goto_self.symm.trans hd⟩
      · exact .inl (.inr ((goto_of_ne hne).symm.trans hd))
    rcases hd' with hd' | ⟨rfl, hdz⟩
    · obtain ⟨rfl, p', hp'⟩ := h.covered r q hd' hq hz
      refine ⟨rfl, ?_⟩
      -- the process that covers has the lock, so it is the one that moves
      have heq : p' = p := by
        by_contra hne
        exact hnot p' hne (hp'.acting (h.fits p')).waitLock
      subst heq
      rcases hcov hp' with hx' | hno
      · exact ⟨p', by rw [show ({ s.goto p' x with waitLock := l, lock := L } : State).phase p' = x
          from goto_self]; exact hx'⟩
      · exact absurd hd' hno
    · exact absurd hz (hdoze hdz q q.isLt hq)

/-- The others do not rely on anything while `p` has `wait_lock`, but on their own state. -/
lemma Keeps.of_waitLock (hw : s.waitLock = some p) (hne : q ≠ p)
    (hrun : (s.proc q).state = .running → (s'.proc q).state = .running)
    (hlock : ∀ j, s.lock j = some q → s'.lock j = some q) : Keeps s s' q := by
  have hnot : s.waitLock ≠ some q := by
    rw [hw]
    exact fun heq => hne (Option.some.inj heq).symm
  exact ⟨hrun, fun hq => absurd hq hnot, hlock, fun hq => absurd hq hnot,
    fun hq => absurd hq hnot, fun _ _ => .inr hnot, fun hq => absurd hq hnot⟩

/-- A child is given to the first process. -/
lemma Inv.giveAway {k : Slot} (h : Inv s) (hp : s.phase p = .reparenting k) :
    Inv ((s.modify k fun t => { t with parent := some initproc }).goto p
      (.waking (.orphan k) 0)) := by
  obtain ⟨ha, hne, hgiven⟩ := h.fits_of hp
  set s' := (s.modify k fun t => { t with parent := some initproc }).goto p (.waking (.orphan k) 0)
    with hs'
  -- only the parent of slot `k` changes
  have hself : s'.proc k = { s.proc k with parent := some initproc } := update_self ..
  have hother : ∀ q, q ≠ k → s'.proc q = s.proc q := fun q hq => update_of_ne hq ..
  have hsame : ∀ q, (s'.proc q).state = (s.proc q).state ∧ (s'.proc q).chan = (s.proc q).chan ∧
      (s'.proc q).pid = (s.proc q).pid ∧ (s'.proc q).xstate = (s.proc q).xstate := by
    intro q
    rcases eq_or_ne q k with rfl | hq
    · rw [hself]
      exact ⟨rfl, rfl, rfl, rfl⟩
    · rw [hother q hq]
      exact ⟨rfl, rfl, rfl, rfl⟩
  have hparent : ∀ q r, (s'.proc q).parent = some r → r = initproc ∧ q = k ∨ q ≠ k ∧
      (s.proc q).parent = some r := by
    intro q r hq
    rcases eq_or_ne q k with rfl | hqk
    · rw [hself] at hq
      exact .inl ⟨(Option.some.inj hq).symm, rfl⟩
    · rw [hother q hqk] at hq
      exact .inr ⟨hqk, hq⟩
  have hphase : s'.phase p = .waking (.orphan k) 0 := goto_self
  refine
    { fits := fun q => ?_, init := ?_, parent := fun q hq hq' => ?_, alive := fun q r hq => ?_
      used := fun p' np hc => ?_, single := h.single, covered := fun r q hd hq hz => ?_
      exited := fun q hz => ?_, past := h.past, once := h.once }
  · rcases eq_or_ne q p with rfl | hqp
    · rw [hphase]
      refine ⟨⟨?_, ha.waitLock⟩, hne, fun q' hq' hpar => ?_⟩
      · rw [(hsame q).1]
        exact ha.running
      rcases hparent q' q hpar with ⟨heq, -⟩ | ⟨hqk, hpar'⟩
      · exact hne heq
      have hlt : (q' : ℕ) < k := by
        have := Fin.val_ne_of_ne hqk
        omega
      exact hgiven q' hlt hpar'
    · rw [show s'.phase q = s.phase q from goto_of_ne hqp]
      refine Keeps.fits (.of_waitLock ha.waitLock hqp ?_ fun _ => id) (h.fits q)
      rw [(hsame q).1]
      exact id
  · rw [(hsame _).1]
    exact h.init
  · rw [(hsame q).1] at hq
    rcases eq_or_ne q k with rfl | hqk
    · rw [hself]
      simp
    · rw [hother q hqk]
      exact h.parent q hq hq'
  · rw [(hsame r).1]
    rcases hparent q r hq with ⟨rfl, -⟩ | ⟨-, hq'⟩
    · exact h.init
    · exact h.alive q r hq'
  · rw [(hsame np).1]
    exact h.used p' np hc
  · have hd' : Down s r := by
      rcases hd with ⟨h1, h2⟩ | hd
      · rw [(hsame r).1] at h1
        rw [(hsame r).2.1] at h2
        exact .inl ⟨h1, h2⟩
      rcases eq_or_ne r p with rfl | hrp
      · rw [hphase] at hd
        cases hd
      · exact .inr ((goto_of_ne hrp).symm.trans hd)
    rw [(hsame q).1] at hz
    rcases hparent q r hq with ⟨rfl, -⟩ | ⟨-, hq'⟩
    · exact ⟨rfl, p, by rw [hphase]; exact Nat.zero_le _⟩
    obtain ⟨rfl, p', hp'⟩ := h.covered r q hd' hq' hz
    obtain rfl := ha.eq (hp'.acting (h.fits p'))
    rw [hp] at hp'
    cases hp'
  · rw [(hsame q).1] at hz
    rw [(hsame q).2.2.1, (hsame q).2.2.2]
    exact h.exited q hz

/-- The end of `exit`. -/
lemma Inv.die {status : ℤ} (h : Inv s) (hp : s.phase p = .dying) :
    Inv { (s.modify p (Task.zombie status ticks)).goto p .out with
      waitLock := none
      exited := s.exited ++ [(p, s.life p, (s.proc p).pid, status)] } := by
  obtain ⟨ha, hne, ⟨hgiven, hwoken⟩, -⟩ := h.fits_of hp
  set s' : State := { (s.modify p (Task.zombie status ticks)).goto p .out with
    waitLock := none
    exited := s.exited ++ [(p, s.life p, (s.proc p).pid, status)] } with hs'
  have hself : s'.proc p = Task.zombie status ticks (s.proc p) := modify_self
  have hzombie : (s'.proc p).state = .zombie := by rw [hself]; rfl
  have hother : ∀ q, q ≠ p → s'.proc q = s.proc q := fun q hq => modify_of_ne hq
  have hparent : ∀ q, (s'.proc q).parent = (s.proc q).parent := by
    intro q
    rcases eq_or_ne q p with rfl | hq
    · rw [hself]
      rfl
    · rw [hother q hq]
  -- nobody is a child of `p` any more
  have hchild : ∀ q r, (s'.proc q).parent = some r → r ≠ p := by
    rintro q r hq rfl
    exact hgiven q q.isLt ((hparent q).symm.trans hq)
  refine
    { fits := fun q => ?_, init := ?_, parent := fun q hq hq' => ?_, alive := fun q r hq => ?_
      used := fun p' np hc => ?_, single := h.single, covered := fun r q hd hq hz => ?_
      exited := fun q hz => ?_, past := fun t ht => ?_, once := h.once }
  · rcases eq_or_ne q p with rfl | hqp
    · rw [show s'.phase q = .out from goto_self]
      trivial
    rw [show s'.phase q = s.phase q from goto_of_ne hqp]
    refine Keeps.fits (.of_waitLock ha.waitLock hqp ?_ fun _ => id) (h.fits q)
    rw [hother q hqp]
    exact id
  · rw [hother _ hne.symm]
    exact h.init
  · rw [hparent]
    rcases eq_or_ne q p with rfl | hqp
    · exact h.parent q (.inl (ha.running ▸ live_running)) hq'
    · rw [hother q hqp] at hq
      exact h.parent q hq hq'
  · rw [hother r (hchild q r hq)]
    exact h.alive q r ((hparent q).symm.trans hq)
  · have hnp : np ≠ p := by
      rintro rfl
      exact absurd ((h.used p' np hc).symm.trans ha.running) (by decide)
    rw [hother np hnp]
    exact h.used p' np hc
  · have hrp := hchild q r hq
    have hd' : Down s r := by
      rcases hd with hd | hd
      · rw [hother r hrp] at hd
        exact .inl hd
      · exact .inr ((goto_of_ne hrp).symm.trans hd)
    rw [hparent] at hq
    rcases eq_or_ne q p with rfl | hqp
    · exact absurd hd' (hwoken r r.isLt hq)
    rw [hother q hqp] at hz
    obtain ⟨-, p', hp'⟩ := h.covered r q hd' hq hz
    obtain rfl := ha.eq (hp'.acting (h.fits p'))
    rw [hp] at hp'
    cases hp'
  · rcases eq_or_ne q p with rfl | hqp
    · rw [hself]
      exact List.mem_append_right _ (List.mem_singleton.mpr rfl)
    · rw [hother q hqp] at hz ⊢
      exact List.mem_append_left _ (h.exited q hz)
  · exact ⟨(h.past t ht).1, List.mem_append_left _ (h.past t ht).2⟩

/-- `wait` finds a ZOMBIE and frees its slot. -/
lemma Inv.collect {k : Slot} (h : Inv s) (hp : s.phase p = .child k)
    (hk : (s.proc k).state = .zombie) :
    Inv { (s.modify k Task.freeproc).goto p (.leaving k) with
      life := update s.life k (s.life k + 1)
      returned := s.returned ++ [s.result p k] } := by
  obtain ⟨ha, -, hlock, -⟩ := h.fits_of hp
  set s' : State := { (s.modify k Task.freeproc).goto p (.leaving k) with
    life := update s.life k (s.life k + 1)
    returned := s.returned ++ [s.result p k] } with hs'
  have hself : s'.proc k = Task.freeproc (s.proc k) := modify_self
  have hother : ∀ q, q ≠ k → s'.proc q = s.proc q := fun q hq => modify_of_ne hq
  have hunused : (s'.proc k).state = .unused := by rw [hself]; rfl
  have hnone : (s'.proc k).parent = none := by rw [hself]; rfl
  have hlife : ∀ q, q ≠ k → s'.life q = s.life q := fun q hq => update_of_ne hq ..
  have hne : ∀ {q}, (s.proc q).state ≠ .zombie → q ≠ k := by
    rintro q hq rfl
    exact hq hk
  have hpk : p ≠ k := hne (by rw [ha.running]; decide)
  refine
    { fits := fun q => ?_, init := ?_, parent := fun q hq hq' => ?_, alive := fun q r hq => ?_
      used := fun p' np hc => ?_, single := h.single, covered := fun r q hd hq hz => ?_
      exited := fun q hz => ?_, past := fun t ht => ?_, once := ?_ }
  · rcases eq_or_ne q p with rfl | hqp
    · rw [show s'.phase q = .leaving k from goto_self]
      refine ⟨⟨?_, ha.waitLock⟩, hlock⟩
      rw [hother q hpk]
      exact ha.running
    rw [show s'.phase q = s.phase q from goto_of_ne hqp]
    refine Keeps.fits (.of_waitLock ha.waitLock hqp (fun hr => ?_) fun _ => id) (h.fits q)
    rw [hother q (hne (by rw [hr]; decide))]
    exact hr
  · rw [hother _ (hne h.init.2.2)]
    exact h.init
  · rcases eq_or_ne q k with rfl | hqk
    · rw [hunused] at hq
      simp [Live] at hq
    · rw [hother q hqk] at hq ⊢
      exact h.parent q hq hq'
  · have hqk : q ≠ k := by
      rintro rfl
      rw [hnone] at hq
      cases hq
    rw [hother q hqk] at hq
    have hlive := h.alive q r hq
    rw [hother r (hne hlive.2.2)]
    exact hlive
  · have hused := h.used p' np hc
    rw [hother np (hne (by rw [hused]; decide))]
    exact hused
  · have hqk : q ≠ k := by
      rintro rfl
      rw [hnone] at hq
      cases hq
    rw [hother q hqk] at hq hz
    have hrk := hne (h.alive q r hq).2.2
    have hd' : Down s r := by
      rcases hd with hd | hd
      · rw [hother r hrk] at hd
        exact .inl hd
      rcases eq_or_ne r p with rfl | hrp
      · rw [show s'.phase r = .leaving k from goto_self] at hd
        cases hd
      · exact .inr ((goto_of_ne hrp).symm.trans hd)
    obtain ⟨-, p', hp'⟩ := h.covered r q hd' hq hz
    obtain rfl := ha.eq (hp'.acting (h.fits p'))
    rw [hp] at hp'
    cases hp'
  · have hqk : q ≠ k := by
      rintro rfl
      rw [hunused] at hz
      cases hz
    rw [hother q hqk] at hz ⊢
    rw [hlife q hqk]
    exact h.exited q hz
  · have hle : ∀ q, s.life q ≤ s'.life q := by
      intro q
      rcases eq_or_ne q k with rfl | hqk
      · rw [show s'.life q = s.life q + 1 from update_self ..]
        exact Nat.le_succ _
      · rw [hlife q hqk]
    rcases List.mem_append.mp ht with ht | ht
    · exact ⟨(h.past t ht).1.trans_le (hle _), (h.past t ht).2⟩
    obtain rfl := List.mem_singleton.mp ht
    refine ⟨?_, h.exited k hk⟩
    rw [show s'.life (s.result p k).slot = s.life k + 1 from update_self ..]
    exact Nat.lt_succ_self _
  · rw [List.map_append]
    refine List.nodup_append'.mpr ⟨h.once, List.nodup_singleton _, ?_⟩
    refine List.disjoint_singleton.mpr fun hmem => ?_
    obtain ⟨t, ht, heq⟩ := List.mem_map.mp hmem
    have hlt := (h.past t ht).1
    rw [Prod.mk.injEq] at heq
    rw [heq.1, heq.2] at hlt
    exact lt_irrefl _ hlt

/-- A process in `wait` falls asleep. -/
lemma Inv.rest (h : Inv s) (hp : s.phase p = .dozing) :
    Inv ((s.modify p fun t => { t with chan := .proc p, state := .sleeping }).goto p .slept) := by
  obtain ⟨hrun, -⟩ := h.fits_of hp
  set s' := (s.modify p fun t => { t with chan := .proc p, state := .sleeping }).goto p .slept
    with hs'
  have hself : s'.proc p = { s.proc p with chan := .proc p, state := .sleeping } := update_self ..
  have hother : ∀ q, q ≠ p → s'.proc q = s.proc q := fun q hq => update_of_ne hq ..
  have hstate : (s'.proc p).state = .sleeping := by rw [hself]
  have hparent : ∀ q, (s'.proc q).parent = (s.proc q).parent := by
    intro q
    rcases eq_or_ne q p with rfl | hq
    · rw [hself]
    · rw [hother q hq]
  have hlive : ∀ q, Live (s.proc q).state → Live (s'.proc q).state := by
    intro q hl
    rcases eq_or_ne q p with rfl | hq
    · rw [hstate]
      simp [Live]
    · rw [hother q hq]
      exact hl
  have hzombie : ∀ q, (s'.proc q).state = .zombie → q ≠ p ∧ (s.proc q).state = .zombie := by
    intro q hz
    rcases eq_or_ne q p with rfl | hq
    · rw [hstate] at hz
      cases hz
    · rw [hother q hq] at hz
      exact ⟨hq, hz⟩
  have hdown : ∀ r, Down s' r → Down s r := by
    intro r hd
    rcases eq_or_ne r p with rfl | hr
    · exact .inr hp
    rcases hd with hd | hd
    · rw [hother r hr] at hd
      exact .inl hd
    · exact .inr ((goto_of_ne hr).symm.trans hd)
  refine
    { fits := fun q => ?_, init := hlive _ h.init, parent := fun q hq hq' => ?_
      alive := fun q r hq => hlive r (h.alive q r ((hparent q).symm.trans hq))
      used := fun p' np hc => ?_, single := h.single, covered := fun r q hd hq hz => ?_
      exited := fun q hz => ?_, past := h.past, once := h.once }
  · rcases eq_or_ne q p with rfl | hqp
    · rw [show s'.phase q = .slept from goto_self]
      trivial
    rw [show s'.phase q = s.phase q from goto_of_ne hqp]
    refine Keeps.fits ?_ (h.fits q)
    refine ⟨fun hr => ?_, id, fun _ => id, fun _ q' r hq' => (hparent q').symm.trans hq',
      fun _ k _ hk => (hparent k).trans hk, fun q' hz => .inl (hzombie q' hz).2, fun _ => hdown⟩
    rw [hother q hqp]
    exact hr
  · rw [hparent]
    rcases eq_or_ne q p with rfl | hqp
    · exact h.parent q (.inl (hrun ▸ live_running)) hq'
    · rw [hother q hqp] at hq
      exact h.parent q hq hq'
  · have hused := h.used p' np hc
    have hnp : np ≠ p := by
      rintro rfl
      rw [hrun] at hused
      cases hused
    rw [hother np hnp]
    exact hused
  · obtain ⟨rfl, p', hp'⟩ := h.covered r q (hdown r hd) ((hparent q).symm.trans hq) (hzombie q hz).2
    refine ⟨rfl, p', ?_⟩
    have hne : p' ≠ p := by
      rintro rfl
      rw [hp] at hp'
      cases hp'
    rw [show s'.phase p' = s.phase p' from goto_of_ne hne]
    exact hp'
  · obtain ⟨hqp, hz'⟩ := hzombie q hz
    rw [hother q hqp]
    exact h.exited q hz'

/-! ### Every step -/

lemma down_goto (hx : x ≠ .dozing)
    (hd : Down { s.goto p x with waitLock := l, lock := L } r) : Down s r := by
  rcases hd with hd | hd
  · exact .inl hd
  rcases eq_or_ne r p with rfl | hne
  · exact absurd (goto_self.symm.trans hd) hx
  · exact .inr ((goto_of_ne hne).symm.trans hd)

lemma Done.goto {j : ℕ} (hx : x ≠ .dozing)
    (hd : Done s p j κ) : Done { s.goto p x with waitLock := l, lock := L } p j κ := by
  cases κ with
  | orphan k => exact hd
  | parent => exact ⟨hd.1, fun r hr hp hdown => hd.2 r hr hp (down_goto hx hdown)⟩

/-- One more slot has been visited. -/
lemma Done.succ (hd : Done s p j κ)
    (hj : κ = .parent → (s.proc p).parent = some j → ¬ Down s j) : Done s p (j + 1) κ := by
  cases κ with
  | orphan k => exact hd
  | parent =>
    refine ⟨hd.1, fun r hr hp hdown => ?_⟩
    rcases Nat.lt_succ_iff_lt_or_eq.mp hr with hlt | heq
    · exact hd.2 r hlt hp hdown
    · obtain rfl : r = j := Fin.ext heq
      exact hj rfl hp hdown

lemma Inv.modify (h : Inv s) (hm : Mild s q (f (s.proc q)))
    (hu : (s.proc q).state = .used → (f (s.proc q)).state = .used) : Inv (s.modify q f) := by
  refine h.calm (.of_mild hm) (fun p np hc => ?_) h.single
  rcases eq_or_ne np q with rfl | hne
  · rw [modify_self]
    exact hu (h.used p np hc)
  · rw [modify_of_ne hne]
    exact h.used p np hc

/-- A process whose slot somebody else has locked is not about to sleep, so that it is awake after
it has been woken. -/
lemma Inv.not_down_of_wake (h : Inv s) (hl : s.lock j = some p) (hne : j ≠ p) :
    ¬ Down (s.modify j (wake (.proc j))) j := by
  rintro (⟨hs, hc⟩ | hd)
  · rw [modify_self] at hs hc
    by_cases hw : (s.proc j).state = .sleeping ∧ (s.proc j).chan = .proc j
    · rw [wake, if_pos hw] at hs
      cases hs
    · rw [wake, if_neg hw] at hs hc
      exact hw ⟨hs, hc⟩
  exact hne (Option.mem_unique (h.fits_of (show s.phase j = .dozing from hd)).2 hl)

/-- `wakeup` looks at one slot. -/
lemma Inv.look (h : Inv s) (hp : s.phase p = .looking κ j) :
    Inv ((s.modify j (wake (s.chan p κ))).goto p (.looked κ j)) := by
  have hl : s.lock j = some p ∧ j ≠ p := (h.fits_of hp).2.2.2
  have hinv : Inv (s.modify j (wake (s.chan p κ))) := by
    refine h.modify mild_wakeup fun hu => ?_
    rw [wake, if_neg fun hw => ?_, hu]
    rw [hu] at hw
    cases hw.1
  obtain ⟨ha, hne, hd, -, -⟩ := hinv.fits_of hp
  refine hinv.move (.inl ha.waitLock) (fun _ _ _ => id) ?_
    nofun fun hcov => ?_
  · refine ⟨ha.goto, hne, Done.goto (by simp) (hd.succ ?_), hl.1⟩
    rintro rfl hpar
    rw [modify_of_ne hl.2.symm] at hpar
    rw [State.chan, hpar]
    exact h.not_down_of_wake hl.1 hl.2
  rw [show (s.modify j (wake (s.chan p κ))).phase p = .looking κ j from hp] at hcov
  cases κ with
  | parent => cases hcov
  | orphan k =>
    rcases lt_or_eq_of_le (show j ≤ initproc from hcov) with hlt | rfl
    · exact .inl hlt
    · exact .inr (h.not_down_of_wake hl.1 hl.2)

lemma lock_acquire {j k : Slot} (hfree : s.lock j = none) (hq : s.lock k = some q) :
    update s.lock j (some p) k = some q := by
  have hne : k ≠ j := by
    rintro rfl
    rw [hfree] at hq
    cases hq
  exact (update_of_ne hne ..).trans hq

lemma lock_release {j k : Slot} (hown : s.lock j = some p) (hne : q ≠ p)
    (hq : s.lock k = some q) : update s.lock j none k = some q := by
  have hk : k ≠ j := by
    rintro rfl
    exact hne (Option.mem_unique hq hown)
  exact (update_of_ne hk ..).trans hq

section

variable (h : Inv s)
include h

/-- `exit` takes `wait_lock`. -/
lemma Inv.exit (hs : step build s (.exit p) = .ok s') : Inv s' := by
  simp only [step] at hs
  split_ifs at hs with hinit
  obtain ⟨hc, rfl⟩ := when_ok hs
  obtain ⟨hr, hout, -, hw⟩ := of_decide_eq_true hc
  have hne : p ≠ initproc := fun heq => hinit ⟨heq, hr⟩
  refine h.move (.inr hw) (fun _ _ _ => id)
    ⟨⟨hr, rfl⟩, hne, fun q hq => absurd hq (Nat.not_lt_zero _)⟩ nofun ?_
  rw [hout]
  exact fun hcov => hcov.elim

/-- The loop of `reparent`. -/
lemma Inv.reparent (hs : step build s (.reparent p) = .ok s') : Inv s' := by
  simp only [step] at hs
  split at hs
  case h_2 => cases hs
  case h_1 k hp =>
    obtain ⟨ha, hne, hgiven⟩ := h.fits_of hp
    split_ifs at hs with hk hpar <;> cases hs
    · exact h.giveAway hp
    · refine h.move (.inl ha.waitLock) (fun _ _ _ => id)
        ⟨ha.goto, hne, fun q hq hpar' => ?_⟩ nofun ?_
      · rcases Nat.lt_succ_iff_lt_or_eq.mp hq with hlt | heq
        · exact hgiven q hlt hpar'
        · obtain rfl : q = ⟨k, hk⟩ := Fin.ext heq
          exact hpar hpar'
      · rw [hp]
        exact fun hcov => hcov.elim
    refine h.move (.inl ha.waitLock) (fun _ _ _ => id)
      ⟨ha.goto, hne, fun q hq => hgiven q (hq.trans_le (not_lt.mp hk)),
        fun r hr => absurd hr (Nat.not_lt_zero _)⟩ nofun ?_
    rw [hp]
    exact fun hcov => hcov.elim

/-- The loop of `wakeup` in `exit`. -/
lemma Inv.visit (hs : step build s (.visit p) = .ok s') : Inv s' := by
  simp only [step] at hs
  split at hs
  case h_2 => cases hs
  case h_1 κ j hp =>
    obtain ⟨ha, hne, hdone⟩ := h.fits_of hp
    split_ifs at hs with hj hself
    · -- `wakeup` passes over the process itself, which is not its own parent
      cases hs
      subst hself
      refine h.move (.inl ha.waitLock) (fun _ _ _ => id)
        ⟨ha.goto, hne, Done.goto (by simp) ?_⟩ nofun ?_
      · refine Done.succ (j := ⟨j, hj⟩) hdone ?_
        rintro rfl hpar
        exact absurd hpar (hdone.1 ⟨j, hj⟩ hj)
      rw [hp]
      cases κ with
      | parent => exact fun hcov => hcov.elim
      | orphan k =>
        intro hcov
        left
        have := Fin.val_ne_of_ne hne
        exact Nat.lt_of_le_of_ne hcov this
    · obtain ⟨hc, rfl⟩ := when_ok hs
      have hfree := of_decide_eq_true hc
      refine h.move
        (.inl ha.waitLock) (fun _ _ _ => lock_acquire hfree)
        ⟨ha.goto, hne, Done.goto (by simp) hdone, update_self ..,
          fun heq => hself heq.symm⟩ nofun ?_
      rw [hp]
      cases κ with
      | parent => exact fun hcov => hcov.elim
      | orphan k => exact fun hcov => .inl hcov
    · cases κ with
      | orphan k =>
        cases hs
        refine h.move (.inl ha.waitLock) (fun _ _ _ => id)
          ⟨ha.goto, hne, hdone⟩ nofun ?_
        rw [hp]
        intro hcov
        exact absurd (lt_of_le_of_lt hcov initproc.isLt) hj
      | parent =>
        cases hs
        refine h.move (.inl ha.waitLock) (fun _ _ _ => id)
          ⟨ha.goto, hne, Done.goto (by simp) ⟨hdone.1, fun r hr =>
            hdone.2 r (hr.trans_le (not_lt.mp hj))⟩⟩ nofun ?_
        rw [hp]
        exact fun hcov => hcov.elim

lemma Inv.next (hs : step build s (.next p) = .ok s') : Inv s' := by
  simp only [step] at hs
  split at hs
  case h_2 => cases hs
  case h_1 κ j hp =>
    cases hs
    obtain ⟨ha, hne, hdone, hl⟩ := h.fits_of hp
    refine h.move (.inl ha.waitLock)
      (fun _ _ hq => lock_release hl hq)
      ⟨ha.goto, hne, Done.goto (by simp) hdone⟩ nofun ?_
    rw [hp]
    cases κ with
    | parent => exact fun hcov => hcov.elim
    | orphan k => exact fun hcov => .inl hcov

lemma Inv.lockSelf (hs : step build s (.lockSelf p) = .ok s') : Inv s' := by
  obtain ⟨hc, rfl⟩ := when_ok hs
  obtain ⟨hp, hfree⟩ := of_decide_eq_true hc
  obtain ⟨ha, hne, hdone⟩ := h.fits_of hp
  refine h.move (.inl ha.waitLock)
    (fun _ _ _ => lock_acquire hfree)
    ⟨ha.goto, hne, Done.goto (by simp) hdone, update_self ..⟩
    nofun ?_
  rw [hp]
  exact fun hcov => hcov.elim

/-- A process in `wait` goes on with `wait_lock`. -/
lemma Inv.waiting (hw : s.waitLock = some p)
    (hcov : ¬ (s.phase p).Covers) (hL : ∀ q j, q ≠ p → s.lock j = some q → L j = some q)
    (hx : Fits { s.goto p x with waitLock := l, lock := L } p x)
    (hdoze : x = .dozing → SeenUpTo s p NPROC) :
    Inv { s.goto p x with waitLock := l, lock := L } :=
  h.move (.inl hw) hL hx hdoze fun hc => absurd hc hcov

/-- `wait` takes `wait_lock`. -/
lemma Inv.wait (hs : step build s (.wait p) = .ok s') : Inv s' := by
  obtain ⟨hc, rfl⟩ := when_ok hs
  obtain ⟨hr, hidle, -, hw⟩ := of_decide_eq_true hc
  refine h.move (.inr hw) (fun _ _ _ => id)
    ⟨⟨hr, rfl⟩, fun q hq => absurd hq (Nat.not_lt_zero _)⟩ nofun fun hcov => ?_
  -- a process that covers is not idle
  cases hp : s.phase p with
  | waking | looking | looked =>
    rw [hp] at hidle
    cases hidle
  | _ =>
    rw [hp] at hcov
    exact hcov.elim

/-- The loop of `wait`. -/
lemma Inv.scan (hs : step build s (.scan p) = .ok s') : Inv s' := by
  simp only [step] at hs
  split at hs
  case h_2 => cases hs
  case h_1 k havekids hp =>
    obtain ⟨ha, hseen⟩ := h.fits_of hp
    have hcov : ¬ (s.phase p).Covers := by rw [hp]; exact id
    split_ifs at hs with hk hpar hend
    · obtain ⟨hc, rfl⟩ := when_ok hs
      have hfree := of_decide_eq_true hc
      exact h.waiting ha.waitLock
        hcov (fun _ _ _ => lock_acquire hfree)
        ⟨ha.goto, hseen, update_self .., hpar⟩ nofun
    · cases hs
      refine h.waiting ha.waitLock hcov (fun _ _ _ => id)
        ⟨ha.goto, fun q hq hpar' => ?_⟩ nofun
      rcases Nat.lt_succ_iff_lt_or_eq.mp hq with hlt | heq
      · exact hseen q hlt hpar'
      · obtain rfl : q = ⟨k, hk⟩ := Fin.ext heq
        exact absurd hpar' hpar
    · cases hs
      exact h.waiting ha.waitLock hcov (fun _ _ _ => id) trivial nofun
    cases hs
    exact h.waiting ha.waitLock hcov (fun _ _ _ => id)
      ⟨ha.goto, fun q hq => hseen q (hq.trans_le (not_lt.mp hk))⟩
      nofun

lemma Inv.refuse (hs : step build s (.refuse p) = .ok s') : Inv s' := by
  simp only [step] at hs
  split at hs
  case h_2 => cases hs
  case h_1 k hp =>
    obtain ⟨-, rfl⟩ := when_ok hs
    obtain ⟨ha, -, hl, -⟩ := h.fits_of hp
    exact h.waiting ha.waitLock (by rw [hp]; exact id)
      (fun _ _ _ => id) ⟨ha.goto, hl⟩ nofun

lemma Inv.pass (hs : step build s (.pass p) = .ok s') : Inv s' := by
  simp only [step] at hs
  split at hs
  case h_2 => cases hs
  case h_1 k hp =>
    obtain ⟨hc, rfl⟩ := when_ok hs
    have hstate := of_decide_eq_true hc
    obtain ⟨ha, hseen, hl, -⟩ := h.fits_of hp
    refine h.waiting ha.waitLock (by rw [hp]; exact id)
      (fun _ _ _ => id) ⟨ha.goto, fun q hq hpar => ?_, hl⟩ nofun
    rcases Nat.lt_succ_iff_lt_or_eq.mp hq with hlt | heq
    · exact hseen q hlt hpar
    · obtain rfl : q = k := Fin.ext heq
      exact hstate

lemma Inv.following (hs : step build s (.following p) = .ok s') : Inv s' := by
  simp only [step] at hs
  split at hs
  case h_2 => cases hs
  case h_1 k hp =>
    cases hs
    obtain ⟨ha, hseen, hl⟩ := h.fits_of hp
    exact h.waiting ha.waitLock
      (by rw [hp]; exact id) (fun _ _ hq => lock_release hl hq)
      ⟨ha.goto, hseen⟩ nofun

lemma Inv.leave (hs : step build s (.leave p) = .ok s') : Inv s' := by
  simp only [step] at hs
  split at hs
  case h_2 => cases hs
  case h_1 k hp =>
    cases hs
    obtain ⟨ha, hl⟩ := h.fits_of hp
    exact h.waiting ha.waitLock
      (by rw [hp]; exact id) (fun _ _ hq => lock_release hl hq) trivial nofun

lemma Inv.nod (hs : step build s (.nod p) = .ok s') : Inv s' := by
  obtain ⟨hc, rfl⟩ := when_ok hs
  obtain ⟨hp, hfree⟩ := of_decide_eq_true hc
  obtain ⟨ha, hseen⟩ := h.fits_of hp
  exact h.waiting ha.waitLock
    (by rw [hp]; exact id) (fun _ _ _ => lock_acquire hfree)
    ⟨ha.goto, hseen, update_self ..⟩ nofun

/-- `sleep` releases `wait_lock` after all children have been seen. -/
lemma Inv.doze (hs : step build s (.doze p) = .ok s') : Inv s' := by
  obtain ⟨hc, rfl⟩ := when_ok hs
  have hp := of_decide_eq_true hc
  obtain ⟨ha, hseen, hl⟩ := h.fits_of hp
  exact h.waiting ha.waitLock (by rw [hp]; exact id) (fun _ _ _ => id)
    ⟨ha.running, hl⟩ fun _ => hseen

/-- The scheduler releases the lock of a process that does not run. -/
lemma Inv.switched (hs : step build s (.switched q) = .ok s') : Inv s' := by
  obtain ⟨hc, rfl⟩ := when_ok hs
  obtain ⟨hr, hl⟩ := of_decide_eq_true hc
  have hkeep : ∀ j p, s.lock j = some p → (s.proc p).state = .running →
      (s.setLock q none).lock j = some p := by
    intro j p hj hp
    have hne : j ≠ q := by
      rintro rfl
      obtain rfl := Option.mem_unique hl hj
      exact hr hp
    exact (update_of_ne hne ..).trans hj
  refine h.calm ?_ h.used h.single
  exact
    { phase := rfl, waitLock := rfl, life := rfl, exited := rfl, returned := rfl
      run := fun _ _ => id, lock := fun j p hj _ hp => hkeep j p hj hp
      parent := fun _ _ => .inl, keep := fun _ _ => .inl, live := fun _ => id
      zombie := fun _ => Iff.rfl, status := fun _ _ => ⟨rfl, rfl⟩, born := fun _ => .inl
      down := fun _ => id }

/-- The steps of `fork`. -/
lemma Inv.alloc (hs : step build s (.alloc p q pid ticks) = .ok s') :
    Inv s' := by
  obtain ⟨hc, rfl⟩ := when_ok hs
  obtain ⟨-, -, -, hq, -⟩ := of_decide_eq_true hc
  have hnew : ∀ p', s.child p' ≠ some q := by
    intro p' hc
    have := h.used p' q hc
    rw [hq] at this
    cases this
  have hcalm : Calm s (s.modify q fun t => t.allocproc pid ticks) := .of_mild (mild_alloc hq)
  have hchild : ∀ p' np,
      ((s.modify q fun t => t.allocproc pid ticks).setChild p (some q)).child p' =
      some np → p' = p ∧ np = q ∨ s.child p' = some np := by
    intro p' np hnp
    rcases eq_or_ne p' p with rfl | hne
    · have hself : ((s.modify q fun t => t.allocproc pid ticks).setChild p' (some q)).child p' =
          some q := update_self ..
      exact .inl ⟨rfl, (Option.mem_unique hself hnp).symm⟩
    · exact .inr ((update_of_ne hne ..).symm.trans hnp)
  refine h.calm hcalm.setChild (fun p' np hnp => ?_) (fun p' p'' np h1 h2 => ?_)
  · rcases hchild p' np hnp with ⟨-, rfl⟩ | hnp'
    · show ((s.modify np fun t => t.allocproc pid ticks).proc np).state = .used
      rw [modify_self]
      rfl
    have hne : np ≠ q := fun heq => hnew p' (heq ▸ hnp')
    show ((s.modify q fun t => t.allocproc pid ticks).proc np).state = .used
    rw [modify_of_ne hne]
    exact h.used p' np hnp'
  rcases hchild p' np h1 with ⟨rfl, rfl⟩ | h1' <;> rcases hchild p'' np h2 with ⟨rfl, h2'⟩ | h2'
  · rfl
  · exact absurd h2' (hnew p'')
  · exact absurd h1' (h2' ▸ hnew p')
  · exact h.single p' p'' np h1' h2'

lemma Inv.undo (hs : step build s (.undo p) = .ok s') : Inv s' := by
  simp only [step] at hs
  split at hs
  case h_2 => cases hs
  case h_1 np hnp =>
    obtain ⟨hc, rfl⟩ := when_ok hs
    obtain ⟨-, -, hl⟩ := of_decide_eq_true hc
    exact h.over hnp (mild_used (h.used p np hnp) rfl (.inr rfl) (.inl ⟨rfl, hl⟩))

lemma Inv.setParent (hs : step build s (.setParent p) = .ok s') : Inv s' := by
  simp only [step] at hs
  split at hs
  case h_2 => cases hs
  case h_1 np hnp =>
    obtain ⟨hc, rfl⟩ := when_ok hs
    obtain ⟨hr, -, hw⟩ := of_decide_eq_true hc
    have hu := h.used p np hnp
    exact h.modify (mild_used hu hu (.inl rfl) (.inr ⟨hw, p, rfl, hr ▸ live_running⟩)) id

lemma Inv.ready (hs : step build s (.ready p) = .ok s') : Inv s' := by
  simp only [step] at hs
  split at hs
  case h_2 => cases hs
  case h_1 np hnp =>
    obtain ⟨hc, rfl⟩ := when_ok hs
    obtain ⟨-, -, -, hpar⟩ := of_decide_eq_true hc
    exact h.over hnp
      (mild_ready (h.used p np hnp) (push_state _ _ _) (push_family build 0 _).1 hpar)

theorem Inv.step (hs : step build s a = .ok s') : Inv s' := by
  cases a with
  | dispatch q =>
    obtain ⟨hc, rfl⟩ := when_ok hs
    have hq := (of_decide_eq_true hc).1
    refine h.modify (mild_dispatch hq) fun hu => ?_
    rw [hq] at hu
    cases hu
  | yield p =>
    obtain ⟨hc, rfl⟩ := when_ok hs
    obtain ⟨hr, hi, -⟩ := of_decide_eq_true hc
    refine h.modify (mild_leave hr hi rfl (.inl rfl) fun hx => by cases hx) fun hu => ?_
    rw [hr] at hu
    cases hu
  | sleep p chan =>
    obtain ⟨hc, rfl⟩ := when_ok hs
    obtain ⟨hr, hout, -, hother⟩ := of_decide_eq_true hc
    refine h.modify (mild_leave hr (by rw [hout]; rfl) rfl (.inr rfl) fun _ hx => ?_) fun hu => ?_
    · rw [show chan = .proc p from hx] at hother
      cases hother
    · rw [hr] at hu
      cases hu
  | switched q => exact h.switched hs
  | kill q =>
    obtain ⟨-, rfl⟩ := when_ok hs
    refine h.modify mild_kill fun hu => ?_
    rw [kill_state (by rw [hu]; decide)]
    exact hu
  | wakeup q chan =>
    obtain ⟨-, rfl⟩ := when_ok hs
    refine h.modify mild_wakeup fun hu => ?_
    rw [wake, if_neg fun hw => ?_, hu]
    rw [hu] at hw
    cases hw.1
  | alloc p q pid ticks => exact h.alloc hs
  | undo p => exact h.undo hs
  | setParent p => exact h.setParent hs
  | ready p => exact h.ready hs
  | exit p => exact h.exit hs
  | reparent p => exact h.reparent hs
  | visit p => exact h.visit hs
  | next p => exact h.next hs
  | lockSelf p => exact h.lockSelf hs
  | wait p => exact h.wait hs
  | scan p => exact h.scan hs
  | refuse p => exact h.refuse hs
  | pass p => exact h.pass hs
  | following p => exact h.following hs
  | leave p => exact h.leave hs
  | nod p => exact h.nod hs
  | doze p => exact h.doze hs
  | look p =>
    simp only [Family.step] at hs
    split at hs
    case h_2 => cases hs
    case h_1 κ j hp =>
      cases hs
      exact h.look hp
  | die p status ticks =>
    obtain ⟨hc, rfl⟩ := when_ok hs
    exact h.die (of_decide_eq_true hc)
  | collect p =>
    simp only [Family.step] at hs
    split at hs
    case h_2 => cases hs
    case h_1 k hp =>
      obtain ⟨hc, rfl⟩ := when_ok hs
      exact h.collect hp (of_decide_eq_true hc)
  | rest p =>
    obtain ⟨hc, rfl⟩ := when_ok hs
    exact h.rest (of_decide_eq_true hc)

end

lemma inv_boot : Inv boot := by
  have hstate : ∀ q, q ≠ initproc → (boot.proc q).state = .unused := fun q hq => by simp [boot, hq]
  have hparent : ∀ q, (boot.proc q).parent = none := by
    intro q
    simp only [boot]
    split_ifs <;> rfl
  have hzombie : ∀ q, (boot.proc q).state ≠ .zombie := by
    intro q
    simp only [boot]
    split_ifs <;> decide
  refine
    { fits := fun _ => trivial, init := by simp [boot, Live], parent := fun q hq hne => ?_
      alive := fun q p hq => ?_, used := fun _ _ hc => nomatch hc
      single := fun _ _ _ hc => nomatch hc
      covered := fun _ q _ hq => ?_
      exited := fun q hz => absurd hz (hzombie q), past := fun _ ht => nomatch ht
      once := List.nodup_nil }
  · rw [hstate q hne] at hq
    simp [Live] at hq
  · rw [hparent] at hq
    cases hq
  · rw [hparent] at hq
    cases hq

/-! ### Runs -/

/-- What `exit` and `wait` guarantee. -/
structure Protocol (build : Build) (s : State) : Prop where
  /-- every process but the first has a parent that is alive -/
  parent : ∀ q, (s.proc q).state ≠ .unused → (s.proc q).state ≠ .used → q ≠ initproc →
    ∃ p, (s.proc q).parent = some p ∧ (s.proc p).state ≠ .unused ∧ (s.proc p).state ≠ .zombie
  /-- nobody sleeps in `wait` with a ZOMBIE child -/
  awake : s.waitLock = none → ∀ p q, (s.proc p).state = .sleeping → (s.proc p).chan = .proc p →
    (s.proc q).parent = some p → (s.proc q).state ≠ .zombie
  /-- what `wait` has returned is the status of an exit, and of each exit at most once -/
  once : (s.returned.map fun r => (r.slot, r.life)).Nodup ∧
    ∀ r ∈ s.returned, (r.slot, r.life, r.pid, r.xstate) ∈ s.exited
  /-- it is returned to the parent, by the step that frees the slot -/
  returns : ∀ a s', step build s a = .ok s' → s'.returned = s.returned ∨
    ∃ r, s'.returned = s.returned ++ [r] ∧ a = .collect r.caller ∧
      (s.proc r.slot).parent = some r.caller ∧ (s.proc r.slot).state = .zombie ∧
      r.pid = (s.proc r.slot).pid ∧ r.xstate = (s.proc r.slot).xstate ∧
      r.life = s.life r.slot ∧ (s'.proc r.slot).state = .unused

/-- Only `wait` returns a status. -/
lemma returned_of_step (hs : step build s a = .ok s') :
    s'.returned = s.returned ∨ ∃ p, a = .collect p := by
  cases a with simp only [step] at hs
  | collect p => exact .inr ⟨p, rfl⟩
  | undo | setParent | ready | look | next | refuse | pass | following | leave =>
    split at hs
    case h_2 => cases hs
    case h_1 =>
      first
        | (obtain ⟨-, rfl⟩ := when_ok hs; exact .inl rfl)
        | (cases hs; exact .inl rfl)
  | exit =>
    split_ifs at hs
    obtain ⟨-, rfl⟩ := when_ok hs
    exact .inl rfl
  | reparent =>
    split at hs
    case h_2 => cases hs
    case h_1 => split_ifs at hs <;> cases hs <;> exact .inl rfl
  | visit =>
    split at hs
    case h_2 => cases hs
    case h_1 κ _ _ =>
      split_ifs at hs
      · cases hs
        exact .inl rfl
      · obtain ⟨-, rfl⟩ := when_ok hs
        exact .inl rfl
      · cases κ <;> cases hs <;> exact .inl rfl
  | scan =>
    split at hs
    case h_2 => cases hs
    case h_1 =>
      split_ifs at hs
      · obtain ⟨-, rfl⟩ := when_ok hs
        exact .inl rfl
      all_goals
        cases hs
        exact .inl rfl
  | _ =>
    obtain ⟨-, rfl⟩ := when_ok hs
    exact .inl rfl

lemma Inv.protocol (h : Inv s) : Protocol build s where
  parent q hu hu' hne := by
    have hlive : Live (s.proc q).state ∨ (s.proc q).state = .zombie := by
      by_cases hz : (s.proc q).state = .zombie
      · exact .inr hz
      · exact .inl ⟨hu, hu', hz⟩
    obtain ⟨p, hp⟩ := Option.ne_none_iff_exists'.mp (h.parent q hlive hne)
    exact ⟨p, hp, (h.alive q p hp).1, (h.alive q p hp).2.2⟩
  awake hw p q hs hc hp hz := by
    obtain ⟨-, p', hp'⟩ := h.covered p q (.inl ⟨hs, hc⟩) hp hz
    rw [(hp'.acting (h.fits p')).waitLock] at hw
    cases hw
  once := ⟨h.once, fun r hr => (h.past r hr).2⟩
  returns _ _ hs := by
    refine (returned_of_step hs).imp_right ?_
    rintro ⟨p, rfl⟩
    simp only [Family.step] at hs
    split at hs
    case h_2 => cases hs
    case h_1 k hp =>
      obtain ⟨hc, rfl⟩ := when_ok hs
      obtain ⟨-, -, -, hpar⟩ := h.fits_of hp
      refine ⟨s.result p k, rfl, rfl, hpar, of_decide_eq_true hc, rfl, rfl, rfl, ?_⟩
      show ((s.modify k Task.freeproc).proc k).state = .unused
      rw [modify_self]
      rfl

/-- In every state of every run, processes have living parents, nobody sleeps through the exit of
a child, and every exit is returned at most once, to the parent. -/
theorem reaped_of_run (build : Build) {tr : List (State × Action)} {s : State}
    (h : Run (step build) boot tr s) : Protocol build s :=
  (h.invariant' (fun _ _ _ hi hs => hi.step hs) inv_boot).2.protocol

/-- `q` is forked by `p`, which sleeps in `wait` when `q` exits. -/
def reapScript (p q : Slot) : List Action :=
  List.flatten
    [[.dispatch p, .alloc p q 2 0, .setParent p, .ready p],
      [.wait p, .scan p, .scan p, .pass p, .following p], List.replicate 63 (.scan p),
      [.nod p, .doze p, .rest p, .switched p],
      [.dispatch q, .exit q], List.replicate 65 (.reparent q),
      [.visit q, .look q, .next q, .visit q],
      List.flatten (List.replicate 62 [.visit q, .look q, .next q]),
      [.visit q, .lockSelf q, .die q 7 0, .switched q],
      [.dispatch p, .wait p, .scan p, .scan p, .collect p, .leave p]]

theorem reaped_of_run_wait : ∃ tr s, Run (step .mlfq) boot tr s ∧
    s.returned = [⟨1, 0, 0, 2, 7⟩] ∧ Protocol .mlfq s := by
  obtain ⟨s, hs, htest⟩ := exists_of_okAnd (runList (step .mlfq) boot (reapScript 0 1))
      (fun s => decide (s.returned = [⟨1, 0, 0, 2, 7⟩])) (by decide +kernel)
  exact ⟨_, s, .of_runList hs, of_decide_eq_true htest, reaped_of_run .mlfq (.of_runList hs)⟩

end Hexv6.Smp.Family
