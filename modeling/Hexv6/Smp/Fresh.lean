import Hexv6.Smp.Effect

/-!
# New processes do not depend on the history of their slot

`allocproc` does not assign all fields of a process: it relies on `freeproc` and `exit` to
have cleared the others.  Between the two, a slot is UNUSED, and nobody should change it
then.  `kill` does: a slot that is UNUSED has `pid == 0`, so `kill(0)` finds it and sets its
flag `killed`, which the next process in the slot inherits.  A run in which that does not
happen leaves every new process with the same initial values, and only such a run does
(`fresh_iff_sparesUnused`).
-/

namespace Hexv6.Smp

open Lib Function
open Sched (Slot Proc)

/-- The values with which a process starts: apart from its pid and the time of its creation,
fixed ones. -/
def fresh (pid : ℤ) (ticks : ℕ) : Task :=
  { state := .used, pid := pid, ctime := ticks, priority := 60, spriority := 60, niceness := 5 }

/-- Whatever happened before, `allocproc` leaves a process with the initial values. -/
def AllFresh (st : State) : Prop :=
  ∀ q, (st.proc q).state = .unused → ∀ pid ticks, (st.proc q).allocproc pid ticks = fresh pid ticks

/-- `kill` does not find an UNUSED slot. -/
def SparesUnused (st : State) : Action → Prop
  | .go c _ _ => ∀ (p : Slot) (pid : ℤ) (k : Slot), st.current c = some p →
      st.pc p = .kill pid k → (st.proc k).state = .unused → (st.proc k).pid ≠ pid
  | _ => True

/-! ### The fields that `allocproc` relies on -/

/-- What `exit` has cleared. -/
def Shut (r : Task) : Prop := (∀ fd, r.ofile fd = none) ∧ r.cwd = none

/-- What `freeproc` and `exit` have cleared. -/
structure Clean (r : Task) : Prop where
  killed : r.killed = 0
  xstate : r.xstate = 0
  chan : r.chan = .null
  parent : r.parent = none
  sz : r.sz = 0
  shut : Shut r

lemma allocproc_eq_fresh {r : Task} (h : Clean r) (pid : ℤ) (ticks : ℕ) :
    r.allocproc pid ticks = fresh pid ticks := by
  obtain ⟨hk, hx, hc, hp, hs, hf, hd⟩ := h
  have hofile : r.ofile = fun _ => none := funext hf
  simp only [Task.allocproc, Proc.setup, fresh, hk, hx, hc, hp, hs, hofile, hd]

lemma Clean.freeproc {r : Task} (h : Shut r) : Clean r.freeproc := ⟨rfl, rfl, rfl, rfl, rfl, h⟩

/-- A slot that holds no process is cleared, as far as it should be. -/
structure Good (r : Task) : Prop where
  clean : r.state = .unused → Clean r
  shut : r.state = .zombie → Shut r

lemma Good.of_state {r : Task} (hu : r.state ≠ .unused) (hz : r.state ≠ .zombie) : Good r :=
  ⟨fun h => absurd h hu, fun h => absurd h hz⟩

/-- What a process that is in `exit` has cleared so far. -/
def Pc.Done (r : Task) : Pc → Prop
  | .closing _ fd => ∀ i : Fin NOFILE, (i : ℕ) < fd → r.ofile i = none
  | .leaving _ => ∀ i, r.ofile i = none
  | .exiting _ => Shut r
  | _ => True

lemma Pc.Done.of_eq {r r' : Task} {x : Pc} (h : x.Done r) (hf : r'.ofile = r.ofile)
    (hd : r'.cwd = r.cwd) : x.Done r' := by
  cases x with
  | closing status fd | leaving status => simpa only [Pc.Done, hf] using h
  | exiting status => simpa only [Pc.Done, Shut, hf, hd] using h
  | _ => trivial

lemma Pc.Plain.done {x : Pc} (h : x.Plain) (r : Task) : x.Done r := by
  cases x with
  | closing status fd =>
    obtain rfl : fd = 0 := h
    intro i hi
    omega
  | leaving status => cases h
  | exiting status => cases h
  | _ => trivial

/-- The table and the places of the processes. -/
structure Table (t : Slot → Task) (pc : Slot → Pc) : Prop where
  good : ∀ q, Good (t q)
  done : ∀ p, (pc p).Done (t p)

namespace Table

variable {t : Slot → Task} {pc : Slot → Pc} {p q : Slot} {r : Task} {x : Pc}

section

variable (h : Table t pc)
include h

/-- One slot changes. -/
lemma update (hgood : Good r) (hdone : (pc q).Done r) :
    Table (Function.update t q r) pc := by
  constructor
  · intro p
    rcases eq_or_ne p q with rfl | hpq
    · rwa [update_self]
    · rw [update_of_ne hpq]
      exact h.good p
  intro p
  rcases eq_or_ne p q with rfl | hpq
  · rwa [update_self]
  · rw [update_of_ne hpq]
    exact h.done p

/-- One slot changes, but not its files. -/
lemma update_of_eq (hgood : Good r) (hf : r.ofile = (t q).ofile)
    (hd : r.cwd = (t q).cwd) : Table (Function.update t q r) pc :=
  h.update hgood ((h.done q).of_eq hf hd)

/-- A process goes on. -/
lemma goto (hdone : x.Done (t p)) : Table t (Function.update pc p x) := by
  refine ⟨h.good, fun q => ?_⟩
  rcases eq_or_ne q p with rfl | hqp
  · rwa [update_self]
  · rw [update_of_ne hqp]
    exact h.done q

/-- A process changes its slot and goes on. -/
lemma update_goto (hgood : Good r) (hdone : x.Done r) :
    Table (Function.update t q r) (Function.update pc q x) := by
  have h1 : Table t (Function.update pc q .user) := h.goto trivial
  have h2 : Table (Function.update t q r) (Function.update pc q .user) :=
    h1.update hgood (by simp [Pc.Done])
  have h3 := h2.goto (p := q) (by simpa using hdone)
  rwa [update_idem] at h3

/-- `reparent` finds no UNUSED slot, since those have no parent. -/
lemma reparent (initproc : Option Slot) (p : Slot) :
    Table (Smp.reparent t initproc p) pc := by
  have hsame : ∀ q, (Smp.reparent t initproc p q).state = (t q).state ∧
      (Smp.reparent t initproc p q).ofile = (t q).ofile ∧
      (Smp.reparent t initproc p q).cwd = (t q).cwd := by
    intro q
    rw [Smp.reparent]
    split_ifs <;> simp
  refine ⟨fun q => ⟨fun hu => ?_, fun hz => ?_⟩, fun q => ?_⟩
  · rw [(hsame q).1] at hu
    have hclean := (h.good q).clean hu
    rwa [Smp.reparent, if_neg (by simp [hclean.parent])]
  · rw [(hsame q).1] at hz
    have hshut := (h.good q).shut hz
    rwa [Shut, (hsame q).2.1, (hsame q).2.2]
  · exact (h.done q).of_eq (hsame q).2.1 (hsame q).2.2

end

end Table

/-! ### Changes that an UNUSED slot can undergo -/

section Harmless

variable (build : Build) {r : Task}

/-- A change that only concerns fields which `allocproc` assigns. -/
lemma Good.of_eq {r' : Task} (h : Good r) (hstate : r'.state = r.state)
    (hkilled : r'.killed = r.killed) (hxstate : r'.xstate = r.xstate) (hchan : r'.chan = r.chan)
    (hparent : r'.parent = r.parent) (hsz : r'.sz = r.sz) (hfile : r'.ofile = r.ofile)
    (hcwd : r'.cwd = r.cwd) : Good r' := by
  constructor
  · intro hu
    obtain ⟨h1, h2, h3, h4, h5, h6⟩ := h.clean (hstate ▸ hu)
    refine ⟨hkilled.trans h1, hxstate.trans h2, hchan.trans h3, hparent.trans h4, hsz.trans h5, ?_⟩
    rwa [Shut, hfile, hcwd]
  intro hz
  have hs := h.shut (hstate ▸ hz)
  rwa [Shut, hfile, hcwd]

lemma push_frame (q : ℤ) (r : Task) : (Task.push build q r).killed = r.killed ∧
    (Task.push build q r).xstate = r.xstate ∧ (Task.push build q r).chan = r.chan ∧
    (Task.push build q r).parent = r.parent ∧ (Task.push build q r).sz = r.sz ∧
    (Task.push build q r).ofile = r.ofile ∧ (Task.push build q r).cwd = r.cwd := by
  rw [Task.push]
  split_ifs <;> simp

lemma Good.push (h : Good r) (q : ℤ) : Good (Task.push build q r) := by
  obtain ⟨h1, h2, h3, h4, h5, h6, h7⟩ := push_frame build q r
  exact h.of_eq (push_state build q r) h1 h2 h3 h4 h5 h6 h7

/-- What `kill` changes besides the flag: it may wake its victim. -/
lemma kill_frame (r : Task) : (Task.kill build r).ofile = r.ofile ∧
    (Task.kill build r).cwd = r.cwd ∧
    ((Task.kill build r).state = r.state ∨
      r.state = .sleeping ∧ (Task.kill build r).state = .runnable) := by
  rw [Task.kill]
  split_ifs with hs
  · obtain ⟨-, -, -, -, -, hf, hd⟩ := push_frame build 0 { r with killed := 1, state := .runnable }
    exact ⟨hf, hd, .inr ⟨hs, push_state _ _ _⟩⟩
  · exact ⟨rfl, rfl, .inl rfl⟩

end Harmless

/-! ### Every step -/

variable {build : Build} {st st' : State} {a : Action}

structure Inv (st : State) : Prop extends Sane st where
  table : Table st.proc st.pc

lemma inv_boot : Inv boot := by
  refine ⟨sane_boot, ⟨fun q => ⟨fun _ => ?_, ?_⟩, fun p => trivial⟩⟩
  · exact ⟨rfl, rfl, rfl, rfl, rfl, fun _ => rfl, rfl⟩
  · simp [boot]

/-- A new process, or a slot that is free again. -/
lemma Table.create (h : Table st.proc st.pc) {p np : Slot}
    (hfree : (st.proc np).state = .unused) (mem copied : Bool) :
    Table (Smp.create st p np mem copied).proc (Smp.create st p np mem copied).pc := by
  have hshut : Shut (st.proc np) := ((h.good np).clean hfree).shut
  simp only [Smp.create]
  split_ifs with hboth hmem
  · refine Table.goto (Table.update_goto h (.of_state ?_ ?_) trivial) trivial
    · simp [Task.copy, Task.allocproc, Proc.setup]
    · simp [Task.copy, Task.allocproc, Proc.setup]
  · refine Table.goto (h.update_of_eq ?_ rfl rfl) trivial
    exact ⟨fun _ => .freeproc hshut, by simp [Task.freeproc, Proc.freeproc]⟩
  · refine Table.goto (h.update_of_eq ?_ rfl rfl) trivial
    exact ⟨fun _ => .freeproc hshut, by simp [Task.freeproc, Proc.freeproc]⟩

/-- Every step keeps the table, unless `kill` finds an UNUSED slot. -/
theorem Inv.tableStep (h : Inv st) (hC : SparesUnused st a) (hs : step build st a = .ok st') :
    Table st'.proc st'.pc := by
  have hT := h.table
  cases Effect.of_step hs with
  | stay => exact hT
  | userinit _ h0 _ =>
    refine hT.update_goto (.of_state ?_ ?_) trivial
    · simp [push_state]
    · simp [push_state]
  | goto _ hx => exact hT.goto (hx.done _)
  | @own _ c p f hc hp hf =>
    have hstate : (f (st.proc p)).state = (st.proc p).state := by cases hf <;> rfl
    obtain ⟨hu, hz, -⟩ := h.state_ne hc
    refine hT.update (.of_state (hstate ▸ hu) (hstate ▸ hz)) ?_
    rw [hp]
    trivial
  | @rest _ c p f hc hf =>
    have hf' : (f (st.proc p)).ofile = (st.proc p).ofile ∧ (f (st.proc p)).cwd = (st.proc p).cwd ∧
        (f (st.proc p)).state ≠ .unused ∧ (f (st.proc p)).state ≠ .zombie := by
      cases hf <;> simp
    exact hT.update_of_eq (.of_state hf'.2.2.1 hf'.2.2.2) hf'.1 hf'.2.1
  | @reap _ np hz =>
    refine hT.update_of_eq ⟨fun _ => .freeproc ((hT.good np).shut hz), ?_⟩ rfl rfl
    simp [Task.freeproc, Proc.freeproc]
  | create _ _ _ hfree => exact hT.create hfree _ _
  | @parent _ c p np hc hpc =>
    have hused := h.forks.used p np (by rw [hpc]; rfl)
    exact Table.goto
      (hT.update_of_eq (.of_state (by simp [hused]) (by simp [hused])) rfl rfl) trivial
  | @ready _ c p np hc hpc =>
    have hf := push_frame build 0 { st.proc np with state := .runnable }
    have hs' := push_state build 0 { st.proc np with state := .runnable }
    exact Table.goto (hT.update_of_eq (.of_state (by simp [hs']) (by simp [hs']))
      hf.2.2.2.2.2.1 hf.2.2.2.2.2.2) trivial
  | @close _ c p status i hc hpc =>
    obtain ⟨hu, hz, -⟩ := h.state_ne hc
    refine hT.update_goto (.of_state hu hz) fun j hj => ?_
    have hprev := hT.done p
    rw [hpc] at hprev
    rcases eq_or_ne j i with rfl | hne
    · exact update_self ..
    change Function.update (st.proc p).ofile i none j = none
    rw [update_of_ne hne]
    exact hprev j (lt_of_le_of_ne (by omega) fun heq => hne (Fin.ext heq))
  | @closed _ c p status fd hc hpc hfd =>
    have hprev := hT.done p
    rw [hpc] at hprev
    exact hT.goto fun i => hprev i (by omega)
  | @leaving _ c p status hc hpc =>
    obtain ⟨hu, hz, -⟩ := h.state_ne hc
    have hprev := hT.done p
    rw [hpc] at hprev
    exact hT.update_goto (.of_state hu hz) ⟨hprev, rfl⟩
  | @exit _ c p status hc hpc =>
    have h1 := hT.reparent st.initproc p
    have hshut := h1.done p
    rw [hpc] at hshut
    refine h1.update ⟨by simp [Task.zombie], fun _ => hshut⟩ ?_
    rw [hpc]
    exact hshut
  | @kill c p mem copied pid k hc hcur hpc hpid =>
    obtain ⟨hf, hd, hstate⟩ := kill_frame build (st.proc k)
    have hu : (st.proc k).state ≠ .unused := fun hu => hC p pid k hcur hpc hu hpid
    refine Table.goto (hT.update_of_eq ?_ hf hd) trivial
    rcases hstate with hstate | ⟨-, hstate⟩
    · refine ⟨fun h' => absurd (hstate ▸ h') hu, fun hz => ?_⟩
      have hshut := (hT.good k).shut (hstate ▸ hz)
      rwa [Shut, hf, hd]
    · exact .of_state (by simp [hstate]) (by simp [hstate])
  | @setPriority c p _ _ new pid k hc _ hpc _ =>
    exact Table.goto (hT.update_of_eq
      ((hT.good k).of_eq rfl rfl rfl rfl rfl rfl rfl rfl) rfl rfl) trivial
  | @requeue _ q level =>
    have hf := push_frame build level (st.proc q)
    exact hT.update_of_eq ((hT.good q).push build level) hf.2.2.2.2.2.1 hf.2.2.2.2.2.2
  | @wake _ q hq => exact hT.update_of_eq (.of_state (by simp) (by simp)) rfl rfl
  | @dispatch c q hc hq =>
    have hs' := dispatch_state build (st.proc q)
    refine hT.update_of_eq (.of_state (by simp [hs']) (by simp [hs'])) ?_ ?_
    all_goals cases build <;> rfl
  | tick _ => exact hT
  | @visit _ k hs' =>
    refine hT.update_of_eq ((hT.good k).of_eq ?_ ?_ ?_ ?_ ?_ ?_ rfl rfl) rfl rfl
    all_goals
      dsimp only
      rw [Sched.updateVals_eq]
  | tock _ => exact hT

theorem Inv.step (h : Inv st) (hC : SparesUnused st a) (hs : step build st a = .ok st') : Inv st' :=
  ⟨h.toSane.step hs, h.tableStep hC hs⟩

lemma Inv.allFresh (h : Inv st) : AllFresh st := fun q hq pid ticks =>
  allocproc_eq_fresh ((h.table.good q).clean hq) pid ticks

/-- A slot that is killed while it is UNUSED gives its next process a flag `killed`. -/
lemma not_allFresh_of_kill (hC : ¬ SparesUnused st a) (hs : step build st a = .ok st') :
    ¬ AllFresh st' := by
  cases a with
  | go c mem copied =>
    simp only [SparesUnused, not_forall, not_not] at hC
    obtain ⟨p, pid, k, hcur, hpc, hu, hpid⟩ := hC
    rw [Smp.step, running, hcur] at hs
    simp only [go, hpc, k.isLt, dif_pos, hpid, if_true, Except.ok.injEq] at hs
    subst hs
    intro hall
    have hstate : (Task.kill build (st.proc k)).state = .unused := by
      rw [kill_state (by simp [hu]), hu]
    have hk := congrArg (fun r : Task => r.killed)
      (hall k (by simpa [State.modify, State.goto] using hstate) 0 0)
    simp [State.modify, State.goto, Task.kill, hu, Task.allocproc, Proc.setup, fresh] at hk
  | _ => exact absurd trivial hC

/-- In every run, all new processes start with the initial values in all states reached, if
and only if no `kill` finds an UNUSED slot. -/
theorem fresh_iff_sparesUnused {tr : List (State × Action)} (hrun : Run (step build) boot tr st) :
    ((∀ x ∈ tr, AllFresh x.1) ∧ AllFresh st) ↔ ∀ x ∈ tr, SparesUnused x.1 x.2 :=
  hrun.forall_state_iff (fun _ h => h.allFresh) (fun _ _ _ h hC hs => h.step hC hs)
    (fun _ _ _ _ hC hs => not_allFresh_of_kill hC hs) inv_boot

/-- A test for `SparesUnused`. -/
def sparesTest (st : State) : Action → Bool
  | .go c _ _ =>
    match st.current c with
    | none => true
    | some p =>
      match st.pc p with
      | .kill pid k =>
        if h : k < NPROC then
          decide ((st.proc ⟨k, h⟩).state = .unused → (st.proc ⟨k, h⟩).pid ≠ pid)
        else true
      | _ => true
  | _ => true

lemma sparesUnused_of_test (h : sparesTest st a = true) : SparesUnused st a := by
  cases a with
  | go c mem copied =>
    intro p pid k hcur hpc
    simp only [sparesTest, hcur, hpc, k.isLt, dif_pos, decide_eq_true_eq] at h
    exact h
  | _ => trivial

/-- The first process makes a child and kills it. -/
def killChild : List Action :=
  [.userinit, .dispatch 0 0, .call 0 .fork, .go 0 true true, .go 0 true true, .go 0 true true,
    .go 0 true true, .call 0 (.kill 2), .go 0 true true, .go 0 true true]

/-- The theorem at that run. -/
theorem fresh_iff_sparesUnused_child : ∃ tr st, Run (step .mlfq) boot tr st ∧
    (st.proc 1).killed = 1 ∧ AllFresh st := by
  obtain ⟨st, hst, htest⟩ := exists_of_okAnd (runList (step .mlfq) boot killChild)
    (fun st => (st.proc 1).killed = 1) (by decide +kernel)
  have hspares : ((traceList (step .mlfq) boot killChild).all fun x => sparesTest x.1 x.2) =
      true := by
    decide +kernel
  have hfresh := (fresh_iff_sparesUnused (.of_runList hst)).2 fun x hx =>
    sparesUnused_of_test (List.all_eq_true.1 hspares x hx)
  exact ⟨_, st, .of_runList hst, of_decide_eq_true htest, hfresh.2⟩

/-- The first process calls `kill(0)`, which finds slot 1, and then makes a child. -/
def killZero : List Action :=
  [.userinit, .dispatch 0 0, .call 0 (.kill 0), .go 0 true true, .go 0 true true]

/-- After `kill(0)` a free slot is marked, and a child made there is born killed. -/
theorem not_allFresh_of_killZero : (¬ ∀ tr st, Run (step .default) boot tr st → AllFresh st) ∧
    ∃ tr st, Run (step .default) boot tr st ∧ (st.proc 1).state = .runnable ∧
      (st.proc 1).pid = 2 ∧ (st.proc 1).killed = 1 := by
  constructor
  · intro hall
    obtain ⟨st, hst, htest⟩ := exists_of_okAnd (runList (step .default) boot killZero)
        (fun st => (st.proc 1).state = .unused ∧ (st.proc 1).killed = 1) (by decide +kernel)
    rw [decide_eq_true_eq] at htest
    have hk := congrArg (fun r : Task => r.killed) (hall _ st (.of_runList hst) 1 htest.1 0 0)
    simp [Task.allocproc, Proc.setup, fresh, htest.2] at hk
  obtain ⟨st, hst, htest⟩ := exists_of_okAnd (runList (step .default) boot (killZero ++
        [.call 0 .fork, .go 0 true true, .go 0 true true, .go 0 true true, .go 0 true true]))
      (fun st => (st.proc 1).state = .runnable ∧ (st.proc 1).pid = 2 ∧ (st.proc 1).killed = 1)
      (by decide +kernel)
  exact ⟨_, st, .of_runList hst, of_decide_eq_true htest⟩

end Hexv6.Smp
