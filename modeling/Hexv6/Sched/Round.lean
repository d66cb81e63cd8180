import Hexv6.Sched.Effect

/-!
# Rounds of the scheduler with interrupts

`step` of `Hexv6.Sched.Mlfq` takes a round of the scheduler at once.  The scheduler itself turns
interrupts on at the start of a round and holds no lock while it goes through the queues, so that an
interrupt can come between any two looks at an entry: it wakes sleepers, or brings a clock tick.  It
finds no process on the CPU and does not touch the queues.

Here the round is cut into its looks.  A look leaves the kernel as it is, except for the switch at
the end of the round; so every step has one of the effects of the machine with whole rounds
(`Round.Sound.effect`), and a round without interrupts is the `scheduler` of that machine
(`looks_of_scheduler`).
-/

namespace Hexv6.Sched

open Lib Relation

/-- Where the scheduler is in its round. -/
inductive Place
  /-- before a round, or switched to a process -/
  | idle
  /-- the aging pass, at position `j` of queue `i` -/
  | aging (i j : ℕ)
  /-- the selection, at position `j` of queue `i` -/
  | scanning (i j : ℕ)
  /-- the selection has found `p` -/
  | chosen (p : Slot)
deriving DecidableEq

/-- The kernel with the place of its scheduler. -/
structure Round where
  kernel : Kernel := boot
  place : Place := .idle

/-- The scheduler goes on to its next look at an entry, or to the switch. -/
def look (s : Round) : Except Fault Round :=
  let k := s.kernel
  match s.place with
  | .idle => if k.cpu = none then .ok ⟨k, .aging 0 0⟩ else .error .disabled
  | .aging i j =>
    if h : i < 5 then
      if j < rowLen k ⟨i, h⟩ then do
        let p ← entry k ⟨i, h⟩ j
        if (k.proc p).atime > ageLimit then do
          let k ← pop k p
          let k ← push k p ((i : ℤ) - 1)
          return ⟨k, .aging i (j + 1)⟩
        else return ⟨k, .aging i (j + 1)⟩
      else .ok ⟨k, .aging (i + 1) 0⟩
    else .ok ⟨k, .scanning 0 0⟩
  | .scanning i j =>
    if h : i < 5 then
      if j < rowLen k ⟨i, h⟩ then do
        let p ← entry k ⟨i, h⟩ j
        if (k.proc p).state = .runnable then return ⟨k, .chosen p⟩
        else return ⟨k, .scanning i (j + 1)⟩
      else .ok ⟨k, .scanning (i + 1) 0⟩
    else .ok ⟨k, .idle⟩
  | .chosen p => do return ⟨← dispatch k p, .idle⟩

/-- The actions: what processes and interrupts do, and the looks of the scheduler. -/
inductive RoundAction
  | act (a : Action)
  | look
deriving DecidableEq

/-- The action of the machine with whole rounds. -/
def RoundAction.base : RoundAction → Action
  | .act a => a
  | .look => .scheduler

/-- One step.  `userinit` does not come during a round. -/
def Round.step (s : Round) : RoundAction → Except Fault Round
  | .act a =>
    if a = .scheduler ∨ a = .userinit ∧ s.place ≠ .idle then .error .disabled
    else
      match Sched.step s.kernel a with
      | .ok k => .ok { s with kernel := k }
      | .error e => .error e
  | .look => Sched.look s

/-- Some looks of the scheduler. -/
def looks (n : ℕ) : List RoundAction := List.replicate n .look

/-- The channel on which an interrupt wakes sleepers. -/
def wakes : Action → Option Chan
  | .wakeup chan => some chan
  | .kerneltrap => some .ticks
  | _ => none

/-! ### Looks -/

variable {s s' : Round} {k k' : Kernel} {L L' : Fin 5 → List Slot} {a : Action} {b : RoundAction}
  {p : Slot} {i j : ℕ}

/-- What a look does in a state with the lists `L`. -/
inductive Looked (k : Kernel) (L : Fin 5 → List Slot) : Place → Round → Prop
  | start (hc : k.cpu = none) : Looked k L .idle ⟨k, .aging 0 0⟩
  | age {i j : ℕ} (h : i < 5) (hj : j < (L ⟨i, h⟩).length) :
      Looked k L (.aging i j) ⟨k, .aging i (j + 1)⟩
  | ageNext {i j : ℕ} (h : i < 5) : Looked k L (.aging i j) ⟨k, .aging (i + 1) 0⟩
  | aged {i j : ℕ} (h : ¬ i < 5) : Looked k L (.aging i j) ⟨k, .scanning 0 0⟩
  | found {i j : ℕ} (h : i < 5) (hj : j < (L ⟨i, h⟩).length)
      (hs : (k.proc (L ⟨i, h⟩)[j]).state = .runnable) :
      Looked k L (.scanning i j) ⟨k, .chosen (L ⟨i, h⟩)[j]⟩
  | pass {i j : ℕ} (h : i < 5) (hj : j < (L ⟨i, h⟩).length)
      (hs : (k.proc (L ⟨i, h⟩)[j]).state ≠ .runnable) :
      Looked k L (.scanning i j) ⟨k, .scanning i (j + 1)⟩
  | next {i j : ℕ} (h : i < 5) (hj : (L ⟨i, h⟩).length ≤ j) :
      Looked k L (.scanning i j) ⟨k, .scanning (i + 1) 0⟩
  | none {i j : ℕ} (h : ¬ i < 5) : Looked k L (.scanning i j) ⟨k, .idle⟩
  | switch {p : Slot} {k' : Kernel} (hx : dispatch k p = .ok k') :
      Looked k L (.chosen p) ⟨k', .idle⟩

lemma dispatch_ok (h : Wf k L) (p : Slot) : ∃ k', dispatch k p = .ok k' := by
  rw [dispatch]
  split_ifs
  · rw [h.index_eq, ok_bind]
    exact ⟨_, rfl⟩
  · exact ⟨_, rfl⟩

/-- No process has an age, so that the aging pass changes nothing. -/
lemma look_spec (h : Wf s.kernel L) (hc : s.place = .idle → s.kernel.cpu = none) :
    ∃ s', look s = .ok s' ∧ Looked s.kernel L s.place s' := by
  obtain ⟨k, x⟩ := s
  cases x with
  | idle => exact ⟨_, if_pos (hc rfl), .start (hc rfl)⟩
  | aging i j =>
    simp only [look]
    split_ifs with hi hj
    · rw [h.rows.rowLen_eq] at hj
      rw [h.rows.entry_eq hj, ok_bind, h.atime, if_neg (by simp)]
      exact ⟨_, rfl, .age hi hj⟩
    · exact ⟨_, rfl, .ageNext hi⟩
    · exact ⟨_, rfl, .aged hi⟩
  | scanning i j =>
    simp only [look]
    split_ifs with hi hj
    · rw [h.rows.rowLen_eq] at hj
      rw [h.rows.entry_eq hj, ok_bind]
      split_ifs with hs
      · exact ⟨_, rfl, .found hi hj hs⟩
      · exact ⟨_, rfl, .pass hi hj hs⟩
    · rw [h.rows.rowLen_eq] at hj
      exact ⟨_, rfl, .next hi (not_lt.1 hj)⟩
    · exact ⟨_, rfl, .none hi⟩
  | chosen p =>
    obtain ⟨k', hk'⟩ := dispatch_ok h p
    refine ⟨⟨k', .idle⟩, ?_, .switch hk'⟩
    simp only [look, hk', ok_bind]
    rfl

lemma looked_of_look (h : Wf s.kernel L) (hx : look s = .ok s') : Looked s.kernel L s.place s' := by
  have hc : s.place = .idle → s.kernel.cpu = none := by
    intro hp
    by_contra hc
    simp [look, hp, hc] at hx
  obtain ⟨s1, hs1, hlooked⟩ := look_spec h hc
  obtain rfl := Except.ok.inj (hs1.symm.trans hx)
  exact hlooked

/-! ### A round without interrupts -/

/-- Some looks with nothing between them. -/
def Looks : Round → Round → Prop := ReflTransGen fun s s' => look s = .ok s'

lemma looks_aging (h : Wf k L) (i j : ℕ) : Looks ⟨k, .aging i j⟩ ⟨k, .scanning 0 0⟩ := by
  obtain ⟨s', hs', hlooked⟩ := look_spec (s := ⟨k, .aging i j⟩) h (by simp)
  refine .head hs' ?_
  cases hlooked with
  | age hi hj =>
    have hle := h.rows.length_le ⟨i, hi⟩
    exact looks_aging h i (j + 1)
  | ageNext hi => exact looks_aging h (i + 1) 0
  | aged => exact .refl
termination_by (5 - i, NPROC - j)

lemma looks_selectRow (h : Wf k L) (hi : i < 5) {n : ℕ} (hn : j + n = (L ⟨i, hi⟩).length) :
    ∃ r, selectRow k ⟨i, hi⟩ (List.range' j n) = .ok r ∧
      Looks ⟨k, .scanning i j⟩ ⟨k, r.elim (.scanning (i + 1) 0) .chosen⟩ := by
  induction n generalizing j with
  | zero =>
    refine ⟨none, rfl, .single ?_⟩
    simp [look, hi, h.rows.rowLen_eq, ← hn]
  | succ n ih =>
    have hj : j < (L ⟨i, hi⟩).length := by omega
    have hlook : look ⟨k, .scanning i j⟩ = if (k.proc (L ⟨i, hi⟩)[j]).state = .runnable then
        .ok ⟨k, .chosen (L ⟨i, hi⟩)[j]⟩ else .ok ⟨k, .scanning i (j + 1)⟩ := by
      simp only [look, hi, h.rows.rowLen_eq, hj, h.rows.entry_eq hj, dif_pos, if_pos, ok_bind]
      rfl
    rw [List.range'_succ, selectRow, h.rows.entry_eq hj, ok_bind]
    split_ifs at hlook ⊢ with hs
    · exact ⟨_, rfl, .single hlook⟩
    · obtain ⟨r, hr, hlooks⟩ := ih (by omega : j + 1 + n = _)
      exact ⟨r, hr, .head hlook hlooks⟩

lemma looks_select (h : Wf k L) {is : List (Fin 5)}
    (his : is.map Fin.val = List.range' i is.length) (hn : i + is.length = 5) :
    ∃ r, select k is = .ok r ∧ Looks ⟨k, .scanning i 0⟩ ⟨k, r.elim .idle .chosen⟩ := by
  induction is generalizing i with
  | nil => exact ⟨none, rfl, .single (dif_neg (by simp at hn; omega))⟩
  | cons q is ih =>
    simp only [List.map_cons, List.length_cons, List.range'_succ, List.cons.injEq] at his
    rw [List.length_cons] at hn
    obtain ⟨rfl, hrest⟩ := his
    obtain ⟨r, hr, hlooks⟩ := looks_selectRow h q.isLt (Nat.zero_add _)
    rw [select, h.rows.rowLen_eq, List.range_eq_range', hr, ok_bind]
    cases r with
    | some p => exact ⟨_, rfl, hlooks⟩
    | none =>
      obtain ⟨r, hr, hlooks'⟩ := ih hrest (by omega)
      exact ⟨r, hr, hlooks.trans hlooks'⟩

/-- The looks of a round without interrupts do what `scheduler` does. -/
theorem looks_of_scheduler (h : Wf k L) (hc : k.cpu = none) :
    ∃ k', scheduler k = .ok k' ∧ Looks ⟨k, .idle⟩ ⟨k', .idle⟩ := by
  obtain ⟨r, hr, hlooks⟩ := looks_select h (show (List.finRange 5).map Fin.val = _ by decide) rfl
  have hround := (looks_aging h 0 0).trans hlooks
  have hstart : look ⟨k, .idle⟩ = .ok ⟨k, .aging 0 0⟩ := if_pos hc
  rw [scheduler, agingPass_eq h, ok_bind, hr, ok_bind]
  cases r with
  | none => exact ⟨k, rfl, .head hstart hround⟩
  | some p =>
    obtain ⟨k', hk'⟩ := dispatch_ok h p
    refine ⟨k', hk', .tail (.head hstart hround) ?_⟩
    simp only [look, Option.elim_some, hk', ok_bind]
    rfl

/-! ### Every step -/

/-- The kernel is well formed, and no process is on the CPU during a round. -/
structure Round.Sound (s : Round) (L : Fin 5 → List Slot) : Prop where
  wf : Wf s.kernel L
  idle : s.place ≠ .idle → s.kernel.cpu = none

lemma Round.sound_boot : ({} : Round).Sound fun _ => [] := ⟨wf_boot, fun h => absurd rfl h⟩

lemma Round.act_ok (hx : s.step (.act a) = .ok s') :
    a ≠ .scheduler ∧ (a = .userinit → s.place = .idle) ∧ Sched.step s.kernel a = .ok s'.kernel ∧
      s'.place = s.place := by
  simp only [Round.step] at hx
  split_ifs at hx with ha
  rw [not_or, not_and, not_not] at ha
  rcases hk : Sched.step s.kernel a with e | k'
  · rw [hk] at hx
    cases hx
  · rw [hk] at hx
    cases hx
    exact ⟨ha.1, ha.2, rfl, rfl⟩

/-- During a round only interrupts act: they wake sleepers and leave the queues alone. -/
lemma Round.Sound.interrupt (h : s.Sound L) (hp : s.place ≠ .idle)
    (hx : s.step (.act a) = .ok s') : Drifted (isTick a) s.kernel s'.kernel ∧ ∃ chan,
      wakes a = some chan ∧ ∀ r, (s'.kernel.proc r).state = .runnable →
        (s.kernel.proc r).state = .runnable ∨
          (s.kernel.proc r).state = .sleeping ∧ (s.kernel.proc r).chan = chan := by
  obtain ⟨hsched, hinit, hstep, -⟩ := act_ok hx
  have hc := h.idle hp
  have hwoken : ∀ (t : ProcTable) cur chan r, (wakeup t cur chan r).state = .runnable →
      (t r).state = .runnable ∨ (t r).state = .sleeping ∧ (t r).chan = chan := by
    intro t cur chan r hr
    rw [wakeup] at hr
    split_ifs at hr with hw
    · exact .inr hw.2
    · exact .inl hr
  cases a with simp only [Sched.step] at hstep
  | userinit => exact absurd (hinit rfl) hp
  | scheduler => exact absurd rfl hsched
  | wakeup chan =>
    rw [← Except.ok.inj hstep]
    exact ⟨⟨drift_wakeup _ _ _, rfl, rfl, rfl, rfl⟩, chan, rfl, hwoken _ _ chan⟩
  | kerneltrap =>
    have hcpu : (clockintr s.kernel).cpu = none := hc
    rw [kerneltrap] at hstep
    simp only [hcpu] at hstep
    rw [← Except.ok.inj hstep]
    refine ⟨drifted_clockintr _, .ticks, rfl, fun r hr => ?_⟩
    simpa [updateVals] using hwoken _ _ .ticks r hr
  | _ =>
    obtain ⟨p, hc', -⟩ := running_eq_ok hstep
    rw [hc] at hc'
    cases hc'

/-- Every step has one of the effects of the machine with whole rounds. -/
theorem Round.Sound.effect (h : s.Sound L) (hx : s.step b = .ok s') :
    ∃ L', s'.Sound L' ∧ Effect s.kernel L b.base s'.kernel L' := by
  cases b with
  | act a =>
    obtain ⟨-, -, hstep, hplace⟩ := act_ok hx
    obtain ⟨L', hwf, he⟩ := step_effect h.wf hstep
    refine ⟨L', ⟨hwf, fun hp => ?_⟩, he⟩
    rw [hplace] at hp
    rw [(h.interrupt hp hx).1.cpu]
    exact h.idle hp
  | look =>
    have hquiet : Effect s.kernel L .scheduler s.kernel L :=
      .quiet ⟨rfl, rfl, rfl⟩ (.refl _) rfl
    have hlooked := looked_of_look h.wf hx
    generalize hplace : s.place = x at hlooked
    have hidle : x ≠ .idle → s.kernel.cpu = none := hplace ▸ h.idle
    cases hlooked with
    | start hc => exact ⟨L, ⟨h.wf, fun _ => hc⟩, hquiet⟩
    | none => exact ⟨L, ⟨h.wf, fun hp => absurd rfl hp⟩, hquiet⟩
    | switch hk =>
      obtain ⟨hwf, he⟩ := dispatch_effect h.wf (hidle (by simp)) hk
      exact ⟨L, ⟨hwf, fun hp => absurd rfl hp⟩, he⟩
    | _ => exact ⟨L, ⟨h.wf, fun _ => hidle (by simp)⟩, hquiet⟩

end Hexv6.Sched
