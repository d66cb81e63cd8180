import Hexv6.Smp.Table

/-!
# What a step on the process table can do

`Effect` lists what a step of the machine can do, with everything that the step has tested,
and `Effect.of_step` shows that every step does one of these things.  Invariants of the
table are proved by cases on it.
-/

namespace Hexv6.Smp

open Function
open Sched (Slot Proc Chan u32 i32)

/-- The places that a process can reach from anywhere without having done anything. -/
def Pc.Plain : Pc → Prop
  | .user => True
  | .alloc _ => True
  | .kill _ _ => True
  | .setPriority _ _ _ => True
  | .closing _ fd => fd = 0
  | _ => False

/-- Changes that a running process makes to its own slot. -/
inductive Own : (Task → Task) → Prop
  | file (fd : Fin NOFILE) (f : Option ℕ) :
      Own fun r => { r with ofile := update r.ofile fd f }
  | chdir (ip : ℕ) : Own fun r => { r with cwd := some ip }
  | size (sz : ℕ) : Own fun r => { r with sz := sz }
  | trace (mask : ℤ) : Own fun r => { r with mask := mask }
  | fault : Own fun r => { r with killed := 1 }

/-- Changes with which a process gives up its CPU. -/
inductive Rest : (Task → Task) → Prop
  | sleep (chan : Chan) : Rest fun r => { r with chan := chan, state := .sleeping }
  | yield : Rest fun r => { r with state := .runnable }

inductive Effect (build : Build) (st : State) : Action → State → Prop
  | stay {a} : Effect build st a st
  | userinit (hinit : st.initproc = none) (h₀ : (st.proc 0).state = .unused)
      (hs : st.scan = none) :
      Effect build st .userinit
        { (st.modify 0 fun r => Task.push build 0
            { r.allocproc st.nextpid st.ticks with
              sz := PGSIZE, cwd := some 1, state := .runnable }) with
          pc := update st.pc 0 .user
          nextpid := i32 (st.nextpid + 1), initproc := some 0
          born := update st.born 0 st.clock }
  /-- a process enters a call, goes on in a loop, or leaves a call -/
  | goto {a c p x} (hc : st.cpu c = some p) (hx : x.Plain) : Effect build st a (st.goto p x)
  | own {a c p f} (hc : st.cpu c = some p) (hp : st.pc p = .user) (hf : Own f) :
      Effect build st a (st.modify p f)
  | rest {a c p f} (hc : st.cpu c = some p) (hf : Rest f) : Effect build st a (st.leave c p f)
  | reap {a np} (hz : (st.proc np).state = .zombie) :
      Effect build st a (st.modify np Task.freeproc)
  | create {c p mem copied} {np : Slot} (hc : st.cpu c = some p)
      (hcur : st.current c = some p) (hpc : st.pc p = .alloc np)
      (hfree : (st.proc np).state = .unused) :
      Effect build st (.go c mem copied) (create st p np mem copied)
  | parent {a c p np} (hc : st.cpu c = some p) (hpc : st.pc p = .parent np) :
      Effect build st a ((st.modify np fun r => { r with parent := some p }).goto p (.ready np))
  | ready {a c p np} (hc : st.cpu c = some p) (hpc : st.pc p = .ready np) :
      Effect build st a
        ((st.modify np fun r => .push build 0 { r with state := .runnable }).goto p .user)
  | close {a c p status} {i : Fin NOFILE} (hc : st.cpu c = some p)
      (hpc : st.pc p = .closing status i) :
      Effect build st a ((st.modify p fun r =>
        { r with ofile := update r.ofile i none }).goto p (.closing status (i + 1)))
  | closed {a c p status fd} (hc : st.cpu c = some p) (hpc : st.pc p = .closing status fd)
      (hfd : NOFILE ≤ fd) : Effect build st a (st.goto p (.leaving status))
  | leaving {a c p status} (hc : st.cpu c = some p) (hpc : st.pc p = .leaving status) :
      Effect build st a ((st.modify p fun r => { r with cwd := none }).goto p (.exiting status))
  | exit {a c p status} (hc : st.cpu c = some p) (hpc : st.pc p = .exiting status) :
      Effect build st a { ({ st with proc := reparent st.proc st.initproc p }).leave c p
          (Task.zombie status st.ticks) with
        died := update st.died p st.clock }
  | kill {c p mem copied} {pid : ℤ} {k : Slot} (hc : st.cpu c = some p)
      (hcur : st.current c = some p) (hpc : st.pc p = .kill pid k)
      (hpid : (st.proc k).pid = pid) :
      Effect build st (.go c mem copied) ((st.modify k (Task.kill build)).goto p .user)
  | setPriority {c p mem copied} {new pid : ℤ} {k : Slot} (hc : st.cpu c = some p)
      (hcur : st.current c = some p) (hpc : st.pc p = .setPriority new pid k)
      (hpid : (st.proc k).pid = pid) :
      Effect build st (.go c mem copied)
        ((st.modify k (Task.setPriority new)).goto p (.setPriority new pid (k + 1)))
  | requeue {a q level} : Effect build st a (st.modify q (.push build level))
  | wake {a q} (hq : (st.proc q).state = .sleeping) :
      Effect build st a (st.modify q fun r => { r with state := .runnable })
  | dispatch {c q} (hc : st.cpu c = none) (hq : (st.proc q).state = .runnable) :
      Effect build st (.dispatch c q)
        { st.modify q (Task.dispatch build) with cpu := update st.cpu c (some q) }
  | tick {a} (hs : st.scan = none) : Effect build st a
      { st with ticks := u32 (st.ticks + 1), clock := st.clock + 1, scan := some 0 }
  | visit {a} {k : Slot} (hs : st.scan = some (k : ℕ)) : Effect build st a
      { (st.modify k fun r => { r with toProc := r.toProc.updateVals }) with
        scan := some (k + 1) }
  | tock {a} (hs : st.scan = some NPROC) : Effect build st a { st with scan := none }

variable {build : Build} {st st' : State} {c : ℕ} {a : Action}

lemma cpu_of_current {p : Slot} (h : st.current c = some p) : st.cpu c = some p := by
  rw [State.current] at h
  split_ifs at h
  exact h

lemma Effect.of_call {p : Slot} {x : Call} (hc : st.cpu c = some p)
    (hp : st.pc p = .user) (h : call st c p x = .ok st') : Effect build st a st' := by
  cases x with simp only [call] at h
  | fork | kill pid | setPriority new pid => cases h; exact .goto hc trivial
  | exit status =>
    split_ifs at h
    cases h
    exact .goto hc rfl
  | wait copied =>
    split at h
    · rename_i np hz
      have hz' := List.find?_some hz
      rw [decide_eq_true_eq] at hz'
      split_ifs at h
      · cases h
        exact .reap hz'.2
      · cases h
        exact .stay
    split_ifs at h
    · cases h
      exact .stay
    · cases h
      exact .rest hc (.sleep _)
  | file fd f => cases h; exact .own hc hp (.file fd f)
  | chdir ip => cases h; exact .own hc hp (.chdir ip)
  | size sz => cases h; exact .own hc hp (.size sz)
  | trace mask => cases h; exact .own hc hp (.trace mask)
  | fault => cases h; exact .own hc hp .fault

lemma Effect.of_go {p : Slot} {mem copied : Bool} (hcur : st.current c = some p)
    (h : go build st c p mem copied = .ok st') : Effect build st (.go c mem copied) st' := by
  have hc := cpu_of_current hcur
  rw [go] at h
  split at h
  case h_1 => cases h
  case h_2 k hpc =>
    split_ifs at h with hk hfree <;> cases h
    · exact .create hc hcur hpc hfree
    · exact .goto hc trivial
    · exact .goto hc trivial
  case h_3 np hpc => cases h; exact .parent hc hpc
  case h_4 np hpc => cases h; exact .ready hc hpc
  case h_5 status fd hpc =>
    split_ifs at h with hfd <;> cases h
    · exact .close hc hpc
    · exact .closed hc hpc (by omega)
  case h_6 status hpc => cases h; exact .leaving hc hpc
  case h_7 status hpc => cases h; exact .exit hc hpc
  case h_8 pid k hpc =>
    split_ifs at h with hk hpid <;> cases h
    · exact .kill hc hcur hpc hpid
    · exact .goto hc trivial
    · exact .goto hc trivial
  case h_9 new pid k hpc =>
    split_ifs at h with hk hpid <;> cases h
    · exact .setPriority hc hcur hpc hpid
    · exact .goto hc trivial
    · exact .goto hc trivial

/-- Every step has one of the effects. -/
theorem Effect.of_step (h : step build st a = .ok st') : Effect build st a st' := by
  have hrun : ∀ {c : ℕ} {f : Slot → Except Fault State}, running st c f = .ok st' →
      ∃ p, st.current c = some p ∧ f p = .ok st' := by
    intro c f hf
    rw [running] at hf
    split at hf
    · exact ⟨_, ‹_›, hf⟩
    · cases hf
  cases a with rw [step] at h
  | userinit =>
    split_ifs at h with h0
    cases h
    exact .userinit h0.1 h0.2.1 h0.2.2
  | call c x =>
    obtain ⟨p, hcur, hp⟩ := hrun h
    split_ifs at hp with hpc
    exact .of_call (cpu_of_current hcur) hpc hp
  | go c mem copied =>
    obtain ⟨p, hcur, hp⟩ := hrun h
    exact .of_go hcur hp
  | sleep c chan =>
    obtain ⟨p, hcur, hp⟩ := hrun h
    cases hp
    exact .rest (cpu_of_current hcur) (.sleep chan)
  | yield c =>
    obtain ⟨p, hcur, hp⟩ := hrun h
    cases hp
    exact .rest (cpu_of_current hcur) .yield
  | requeue q level =>
    cases h
    exact .requeue
  | wake q =>
    split_ifs at h with hq
    cases h
    exact .wake hq
  | dispatch c q =>
    split_ifs at h with hq
    cases h
    exact .dispatch hq.1 hq.2.1
  | tick =>
    split at h
    · cases h
      exact .tick ‹_›
    · cases h
  | visit =>
    split at h
    · split_ifs at h with hk
      cases h
      exact .visit ‹_›
    · cases h
  | tock =>
    split_ifs at h with hs
    cases h
    exact .tock hs

/-! ### CPUs -/

/-- The process of a CPU is RUNNING, and on no other CPU. -/
structure OnCpu (t : Slot → Task) (cpu : ℕ → Option Slot) : Prop where
  running : ∀ c p, cpu c = some p → (t p).state = .running
  once : ∀ c c' p, cpu c = some p → cpu c' = some p → c = c'

namespace OnCpu

variable {t : Slot → Task} {cpu : ℕ → Option Slot} {q : Slot} {r : Task}

/-- A running process stays RUNNING. -/
lemma update (h : OnCpu t cpu) (hr : (t q).state = .running → r.state = .running) :
    OnCpu (update t q r) cpu := by
  refine ⟨fun c p hc => ?_, h.once⟩
  rcases eq_or_ne p q with rfl | hp
  · rw [update_self]
    exact hr (h.running c p hc)
  · rw [update_of_ne hp]
    exact h.running c p hc

/-- A process leaves its CPU. -/
lemma leave (h : OnCpu t cpu) (hc : cpu c = some q) :
    OnCpu (Function.update t q r) (Function.update cpu c none) := by
  have hne : ∀ c' p, Function.update cpu c none c' = some p → c' ≠ c ∧ cpu c' = some p := by
    intro c' p hp
    rcases eq_or_ne c' c with rfl | hc'
    · simp at hp
    · exact ⟨hc', by rwa [update_of_ne hc'] at hp⟩
  refine ⟨fun c' p hp => ?_, fun c1 c2 p h1 h2 => h.once c1 c2 p (hne c1 p h1).2 (hne c2 p h2).2⟩
  obtain ⟨hc', hp'⟩ := hne c' p hp
  have hpq : p ≠ q := by
    rintro rfl
    exact hc' (h.once c' c p hp' hc)
  rw [update_of_ne hpq]
  exact h.running c' p hp'

/-- A process that is not RUNNING is dispatched. -/
lemma dispatch (h : OnCpu t cpu) (c : ℕ) (hq : (t q).state ≠ .running) (hr : r.state = .running) :
    OnCpu (Function.update t q r) (Function.update cpu c (some q)) := by
  have hnot : ∀ c', cpu c' ≠ some q := fun c' hc' => hq (h.running c' q hc')
  have hcases : ∀ c' p, Function.update cpu c (some q) c' = some p →
      c' = c ∧ p = q ∨ c' ≠ c ∧ p ≠ q ∧ cpu c' = some p := by
    intro c' p hp
    rcases eq_or_ne c' c with rfl | hc'
    · rw [update_self] at hp
      exact .inl ⟨rfl, (Option.some.inj hp).symm⟩
    rw [update_of_ne hc'] at hp
    refine .inr ⟨hc', ?_, hp⟩
    rintro rfl
    exact hnot c' hp
  constructor
  · intro c' p hp
    rcases hcases c' p hp with ⟨-, rfl⟩ | ⟨-, hpq, hp'⟩
    · rw [update_self, hr]
    · rw [update_of_ne hpq]
      exact h.running c' p hp'
  intro c1 c2 p h1 h2
  rcases hcases c1 p h1 with ⟨rfl, hp⟩ | ⟨-, hp, h1'⟩ <;>
    rcases hcases c2 p h2 with ⟨rfl, hp'⟩ | ⟨-, hp', h2'⟩
  · rfl
  · exact absurd hp hp'
  · exact absurd hp' hp
  · exact h.once c1 c2 p h1' h2'

lemma reparent (h : OnCpu t cpu) (initproc : Option Slot) (p : Slot) :
    OnCpu (Smp.reparent t initproc p) cpu := by
  refine ⟨fun c q hq => ?_, h.once⟩
  rw [Smp.reparent]
  split_ifs <;> exact h.running c q hq

end OnCpu

lemma push_state (build : Build) (q : ℤ) (r : Task) : (Task.push build q r).state = r.state := by
  rw [Task.push]
  split_ifs <;> rfl

lemma kill_state {r : Task} (h : r.state ≠ .sleeping) : (Task.kill build r).state = r.state := by
  rw [Task.kill]
  split_ifs with hs
  · exact absurd hs h
  · rfl

lemma dispatch_state (build : Build) (r : Task) : (Task.dispatch build r).state = .running := by
  cases build <;> rfl

/-! ### Children that are being made -/

/-- The child that a process in `fork` is working on. -/
def Pc.child : Pc → Option Slot
  | .parent np => some np
  | .ready np => some np
  | _ => none

lemma Pc.Plain.child {x : Pc} (h : x.Plain) : x.child = none := by
  cases x with
  | parent np => cases h
  | ready np => cases h
  | _ => rfl

/-- The child of a `fork` in progress is USED, and no other `fork` works on it. -/
structure Forks (t : Slot → Task) (pc : Slot → Pc) : Prop where
  used : ∀ p np, (pc p).child = some np → (t np).state = .used
  apart : ∀ p p' np, (pc p).child = some np → (pc p').child = some np → p = p'

namespace Forks

variable {t : Slot → Task} {pc : Slot → Pc} {p q : Slot} {r : Task} {x : Pc}

section

variable (h : Forks t pc)
include h

/-- One slot changes. -/
lemma update (hr : (∃ p, (pc p).child = some q) → r.state = .used) :
    Forks (update t q r) pc := by
  refine ⟨fun p np hp => ?_, h.apart⟩
  rcases eq_or_ne np q with rfl | hnp
  · rw [update_self]
    exact hr ⟨p, hp⟩
  · rw [update_of_ne hnp]
    exact h.used p np hp

/-- One slot changes, but does not stop being USED. -/
lemma update_of_used (hr : (t q).state = .used → r.state = .used) :
    Forks (Function.update t q r) pc :=
  h.update fun ⟨p, hp⟩ => hr (h.used p q hp)

/-- A process goes on. -/
lemma goto (hchild : ∀ np, x.child = some np → (t np).state = .used ∧
      ∀ p', p' ≠ p → (pc p').child ≠ some np) : Forks t (Function.update pc p x) := by
  constructor
  · intro q np hq
    rcases eq_or_ne q p with rfl | hqp
    · rw [update_self] at hq
      exact (hchild np hq).1
    · rw [update_of_ne hqp] at hq
      exact h.used q np hq
  intro q q' np hq hq'
  rcases eq_or_ne q p with hqp | hqp <;> rcases eq_or_ne q' p with hqp' | hqp'
  · rw [hqp, hqp']
  · rw [hqp, update_self] at hq
    rw [update_of_ne hqp'] at hq'
    exact absurd hq' ((hchild np hq).2 q' hqp')
  · rw [hqp', update_self] at hq'
    rw [update_of_ne hqp] at hq
    exact absurd hq ((hchild np hq').2 q hqp)
  · rw [update_of_ne hqp] at hq
    rw [update_of_ne hqp'] at hq'
    exact h.apart q q' np hq hq'

lemma goto_none (hx : x.child = none) : Forks t (Function.update pc p x) :=
  h.goto fun np hnp => by rw [hx] at hnp; cases hnp

lemma reparent (initproc : Option Slot) (p : Slot) :
    Forks (Smp.reparent t initproc p) pc := by
  refine ⟨fun q np hq => ?_, h.apart⟩
  rw [Smp.reparent]
  split_ifs <;> exact h.used q np hq

/-- Nobody works on a slot that is not USED. -/
lemma not_child (hq : (t q).state ≠ .used) : ¬ ∃ p, (pc p).child = some q :=
  fun ⟨p, hp⟩ => hq (h.used p q hp)

end

end Forks

/-! ### Invariants of every run -/

/-- The CPUs and the forks in progress. -/
structure Sane (st : State) : Prop where
  cpus : OnCpu st.proc st.cpu
  forks : Forks st.proc st.pc

lemma sane_boot : Sane boot := by refine ⟨⟨?_, ?_⟩, ?_, ?_⟩ <;> simp [boot, Pc.child]

lemma Sane.cpuStep (h : Sane st) (hs : step build st a = .ok st') :
    OnCpu st'.proc st'.cpu := by
  have hC := h.cpus
  cases Effect.of_step hs with
  | stay => exact hC
  | userinit _ h0 _ => exact hC.update (by simp [h0])
  | goto _ _ => exact hC
  | own _ _ hf => exact hC.update (by cases hf <;> exact id)
  | rest hc _ => exact hC.leave hc
  | reap hz => exact hC.update (by simp [hz])
  | create _ _ _ hfree =>
    simp only [create]
    split_ifs <;> exact hC.update (by simp [hfree])
  | parent _ _ | close _ _ | leaving _ _ | setPriority _ _ _ _ => exact hC.update id
  | @ready _ _ p np _ hpc =>
    have hused := h.forks.used p np (by rw [hpc]; rfl)
    exact hC.update (by simp [hused])
  | closed _ _ _ => exact hC
  | exit hc _ => exact (hC.reparent _ _).leave hc
  | kill _ _ _ _ =>
    refine hC.update fun hr => ?_
    rw [kill_state (by simp [hr]), hr]
  | requeue => exact hC.update (by rw [push_state]; exact id)
  | wake hq => exact hC.update (by simp [hq])
  | dispatch hc hq => exact hC.dispatch _ (by simp [hq]) (dispatch_state _ _)
  | tick _ => exact hC
  | visit _ => exact hC.update (by simp)
  | tock _ => exact hC

/-- The process of a CPU is not a child of a `fork` in progress. -/
lemma Sane.state_ne (h : Sane st) {p : Slot} (hc : st.cpu c = some p) :
    (st.proc p).state ≠ .unused ∧ (st.proc p).state ≠ .zombie ∧ (st.proc p).state ≠ .used := by
  rw [h.cpus.running c p hc]
  simp

/-- A new child, or a slot that is free again. -/
lemma Forks.create (h : Forks st.proc st.pc) {p np : Slot}
    (hfree : (st.proc np).state = .unused) (mem copied : Bool) :
    Forks (Smp.create st p np mem copied).proc (Smp.create st p np mem copied).pc := by
  have hnone : ¬ ∃ p', (st.pc p').child = some np := h.not_child (by simp [hfree])
  simp only [Smp.create]
  split_ifs with hboth
  · have h1 : Forks st.proc (Function.update st.pc np .user) := h.goto_none rfl
    have hnone1 := h1.not_child (q := np) (by simp [hfree])
    refine (h1.update fun hp => absurd hp hnone1).goto ?_
    rintro _ ⟨⟩
    refine ⟨?_, fun p' _ hp' => hnone1 ⟨p', hp'⟩⟩
    simp [Task.copy, Task.allocproc, Proc.setup]
  · exact (h.update fun hp => absurd hp hnone).goto_none rfl
  · exact (h.update fun hp => absurd hp hnone).goto_none rfl

lemma Sane.forkStep (h : Sane st) (hs : step build st a = .ok st') :
    Forks st'.proc st'.pc := by
  have hF := h.forks
  cases Effect.of_step hs with
  | stay => exact hF
  | userinit _ h0 _ => exact (hF.update_of_used (by simp [h0])).goto_none rfl
  | goto _ hx => exact hF.goto_none hx.child
  | own hc _ _ | rest hc _ => exact hF.update_of_used fun hu => absurd hu (h.state_ne hc).2.2
  | reap hz => exact hF.update_of_used (by simp [hz])
  | create _ _ _ hfree => exact hF.create hfree _ _
  | @parent _ _ p np _ hpc =>
    have hchild : (st.pc p).child = some np := by rw [hpc]; rfl
    have h1 : Forks (st.modify np fun r => { r with parent := some p }).proc st.pc :=
      hF.update_of_used id
    refine h1.goto ?_
    rintro _ ⟨⟩
    exact ⟨h1.used p np hchild, fun p' hne hp' => hne (hF.apart p' p np hp' hchild)⟩
  | @ready _ _ p np _ hpc =>
    have hchild : (st.pc p).child = some np := by rw [hpc]; rfl
    have h1 : Forks st.proc (Function.update st.pc p .user) := hF.goto_none rfl
    refine h1.update ?_
    rintro ⟨p', hp'⟩
    -- nobody else works on this child
    rcases eq_or_ne p' p with rfl | hne
    · simp [Pc.child] at hp'
    · rw [update_of_ne hne] at hp'
      exact absurd (hF.apart p' p np hp' hchild) hne
  | close hc _
  | leaving hc _ => exact (hF.update_of_used fun hu => absurd hu (h.state_ne hc).2.2).goto_none rfl
  | closed _ _ _ => exact hF.goto_none rfl
  | @exit _ c p status hc _ =>
    refine (hF.reparent _ _).update ?_
    exact fun hp => absurd hp (hF.not_child (h.state_ne hc).2.2)
  | kill _ _ _ _ =>
    refine (hF.update_of_used fun hu => ?_).goto_none rfl
    rw [kill_state (by simp [hu]), hu]
  | @setPriority _ p _ _ new pid k _ _ _ _ =>
    exact Forks.goto_none (hF.update_of_used id) rfl
  | requeue => exact hF.update_of_used (by rw [push_state]; exact id)
  | wake hq | dispatch _ hq => exact hF.update_of_used (by simp [hq])
  | tick _ => exact hF
  | visit _ => exact hF.update_of_used (by simp)
  | tock _ => exact hF

theorem Sane.step (h : Sane st) (hs : step build st a = .ok st') : Sane st' :=
  ⟨h.cpuStep hs, h.forkStep hs⟩

end Hexv6.Smp
