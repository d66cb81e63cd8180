import Hexv6.Sched.Membership
import Hexv6.Sched.Round

/-!
# The scheduler picks the lowest queue

A round of the scheduler goes through the queues from 0 to 4 and takes the first runnable
entry.  It therefore takes a process with the smallest `curr_q` only if every runnable
process has its entries in the queue of its `curr_q` and nowhere else.  Entries of dead
processes do no harm as long as their slot is not used again, so this asks for less than
the membership of `Hexv6.Sched.Membership`: processes may exit.

Besides, interrupts are on while the scheduler goes through the queues.  A process that an interrupt
wakes behind it is not seen in this round, and another one of a later queue is taken.
-/

namespace Hexv6.Sched

open Lib

/-- What is still to be done in a round, in lexicographic order. -/
def Round.left (s : Round) : ℕ ×ₗ ℕ :=
  let len i := if h : i < 5 then rowLen s.kernel ⟨i, h⟩ else 0
  match s.place with
  | .idle => toLex (0, 0)
  | .aging i j => toLex (8 + (5 - i), len i - j)
  | .scanning i j => toLex (2 + (5 - i), len i - j)
  | .chosen _ => toLex (1, 0)

/-- What a round should do: the process that it is going to dispatch is runnable and no runnable
process has a smaller `curr_q`; it ends without a process only if none is runnable; and it does
end, since every look leaves less to be done, and interrupts do not change what is left. -/
structure RoundOk (s : Round) : Prop where
  runnable : ∀ p, s.place = .chosen p → (s.kernel.proc p).state = .runnable
  lowest : ∀ p, s.place = .chosen p → ∀ r, (s.kernel.proc r).state = .runnable →
    (s.kernel.proc p).currQ ≤ (s.kernel.proc r).currQ
  switches : ∀ p s', s.place = .chosen p → s.step .look = .ok s' → s'.kernel.cpu = some p
  progress : ∀ i j, s.place = .scanning i j → 5 ≤ i → ∀ r, (s.kernel.proc r).state ≠ .runnable
  looks : s.place ≠ .idle → ∃ s', s.step .look = .ok s' ∧ s'.left < s.left
  waits : s.place ≠ .idle → ∀ a s', s.step (.act a) = .ok s' → s'.place = s.place ∧ s'.left = s.left

/-- The step kills no sleeping process, a new process gets a slot that is in no queue, and
a process that is demoted is not hidden behind another one with the same pid. -/
def Tidy (k : Kernel) (a : Action) : Prop :=
  victim k a = none ∧ (∀ p, created k a = some p → ∀ q i, ¬ At k q i p) ∧
    ∀ p, demoted k a = some p → Unshadowed k p

instance (k : Kernel) (q : Fin 5) (p : Slot) : Decidable (∀ i, ¬ At k q i p) :=
  decidable_of_iff (∀ i < rowLen k q, ¬ At k q i p)
    ⟨fun h i hi => h i hi.1 hi, fun h i _ => h i⟩

instance (k : Kernel) (a : Action) : Decidable (Tidy k a) :=
  inferInstanceAs (Decidable (_ ∧ (∀ p, created k a = some p → ∀ q, ∀ i, ¬ At k q i p) ∧
    ∀ p, demoted k a = some p → Unshadowed k p))

/-- At its place the scheduler is past `r`: it has looked at an entry of `r`, or it has chosen a
process of a later queue. -/
def Passed (k : Kernel) (r : Slot) : Place → Prop
  | .scanning i j => ∃ (q : Fin 5) (j' : ℕ), At k q j' r ∧ ((q : ℕ) < i ∨ (q : ℕ) = i ∧ j' < j)
  | .chosen p => (k.proc r).currQ < (k.proc p).currQ
  | _ => False

instance (k : Kernel) (r : Slot) : (x : Place) → Decidable (Passed k r x)
  | .idle | .aging _ _ => .isFalse id
  | .scanning i j => decidable_of_iff
      (∃ q : Fin 5, ∃ j' < rowLen k q, At k q j' r ∧ ((q : ℕ) < i ∨ (q : ℕ) = i ∧ j' < j))
      ⟨fun ⟨q, j', _, h⟩ => ⟨q, j', h⟩, fun ⟨q, j', h⟩ => ⟨q, j', h.1.1, h⟩⟩
  | .chosen p => inferInstanceAs (Decidable ((k.proc r).currQ < (k.proc p).currQ))

/-- The step is tidy, and wakes no process that the scheduler is past. -/
def TidyRound (s : Round) : RoundAction → Prop
  | .act a => Tidy s.kernel a ∧ ∀ r, (s.kernel.proc r).state = .sleeping →
      wakes a = some (s.kernel.proc r).chan → ¬ Passed s.kernel r s.place
  | .look => True

instance (s : Round) : (b : RoundAction) → Decidable (TidyRound s b)
  | .act a => inferInstanceAs (Decidable (Tidy s.kernel a ∧
    ∀ r, (s.kernel.proc r).state = .sleeping →
      wakes a = some (s.kernel.proc r).chan → ¬ Passed s.kernel r s.place))
  | .look => .isTrue trivial

variable {k k' : Kernel} {L L' : Fin 5 → List Slot} {a : Action} {p : Slot} {q : Fin 5}
  {s s' : Round} {b : RoundAction} {tr : List (Round × RoundAction)}

/-- The live processes have the entries they should have. -/
structure LivePlaced (k : Kernel) (L : Fin 5 → List Slot) : Prop where
  wf : Wf k L
  counted : ∀ p, (k.proc p).state.Live → Counted k L p

/-- A process that is live after a step was live before or is the one that the step
creates. -/
lemma Effect.live_before (h : Wf k L) (he : Effect k L a k' L')
    (hp : (k'.proc p).state.Live) : (k.proc p).state.Live ∨ created k a = some p := by
  -- in a slot that only drifts nothing comes to life
  have hdrift : ∀ {b : Bool}, ProcDrift b (k.proc p) (k'.proc p) → (k.proc p).state.Live :=
    fun hd => hd.live_iff.1 hp
  have hoff : ∀ {b : Bool} {r : Slot}, DriftOff b r k.proc k'.proc → (k.proc r).state.Live →
      (k.proc p).state.Live := by
    intro b r hd hr
    by_cases hpr : p = r
    · subst hpr
      exact hr
    · exact hdrift (hd p hpr)
  cases he with
  | quiet _ hd _ => exact .inl (hdrift (hd p))
  | clear r _ _ _ hs' hd _ =>
    refine .inl (hdrift (hd p ?_))
    rintro rfl
    simp [ProcState.Live, hs'] at hp
  | create r _ _ hn _ _ _ _ hd _ =>
    by_cases hpr : p = r
    · subst hpr
      exact .inr hn
    · exact .inl (hdrift (hd p hpr))
  | leave r _ _ hc _ _ hd _
  | exit r _ hc _ _ hd _
  | demote r _ hc _ _ hd _ _ _ => exact .inl (hoff hd (.inr (.inl ((h.running r).2 hc))))
  | wake r _ hs _ _ _ hd _ => exact .inl (hoff hd (.inr (.inr hs)))
  | dispatch r _ _ hs _ _ _ hd _ => exact .inl (hoff hd (.inl hs))

/-- A process that exits is not live any more. -/
lemma Effect.exiting_not_live (he : Effect k L a k' L') (hp : exiting k a = some p) :
    ¬ (k'.proc p).state.Live := by
  have hplain : ¬ Plain k a := fun h => by
    rw [h.1] at hp
    cases hp
  cases he with
  | exit r he _ hs' _ _ _ =>
    obtain rfl := Option.mem_unique hp he
    simp [ProcState.Live, hs']
  | wake r hv _ _ _ _ _ _ =>
    cases a with
    | kill pid => cases hp
    | _ => cases hv
  | demote r hm _ _ _ _ _ _ _ =>
    rw [(demoted_plain hm).1] at hp
    cases hp
  | dispatch r ha _ _ _ _ _ _ _ =>
    subst ha
    cases hp
  | quiet hp' _ _ | clear _ hp' _ _ _ _ _ | create _ hp' _ _ _ _ _ _ _ _
  | leave _ hp' _ _ _ _ _ _ => exact absurd hp' hplain

lemma LivePlaced.of_tidy (h : LivePlaced k L) (hC : Tidy k a) (hwf : Wf k' L')
    (he : Effect k L a k' L') : LivePlaced k' L' := by
  obtain ⟨hvictim, hcreated, hdemoted⟩ := hC
  refine ⟨hwf, fun p hp => ?_⟩
  have hcounted : Counted k L p := by
    by_cases hlive : (k.proc p).state.Live
    · exact h.counted p hlive
    have hnew := (he.live_before h.wf hp).resolve_left hlive
    refine counted_of_forall_not_mem hlive fun q hm => ?_
    obtain ⟨i, hi⟩ := h.wf.rows.at_of_mem hm
    exact hcreated p hnew q i hi
  exact hcounted.of_effect h.wf he (fun hexit => he.exiting_not_live hexit hp)
    (by simp [hvictim]) hdemoted

/-- The live processes are in their places, a chosen process is runnable, and the scheduler is past
no runnable process. -/
structure Scanned (s : Round) (L : Fin 5 → List Slot) : Prop where
  sound : s.Sound L
  counted : ∀ p, (s.kernel.proc p).state.Live → Counted s.kernel L p
  chosen : ∀ p, s.place = .chosen p → (s.kernel.proc p).state = .runnable
  passed : ∀ r, (s.kernel.proc r).state = .runnable → ¬ Passed s.kernel r s.place

lemma Scanned.mem_iff (h : Scanned s L) (hp : (s.kernel.proc p).state = .runnable) :
    p ∈ L q ↔ level s.kernel p = q := by
  rw [(h.counted p (.inl hp)).mem_iff, and_iff_right (.inl hp)]

/-- An interrupt leaves the scheduler past the same processes. -/
lemma passed_of_drifted {b : Bool} {r : Slot} (hd : Drifted b s.kernel s'.kernel)
    (hp : s'.place = s.place) : Passed s'.kernel r s'.place ↔ Passed s.kernel r s.place := by
  have hlen : ∀ q, rowLen s'.kernel q = rowLen s.kernel q :=
    fun q => by rw [rowLen, hd.qIndex, rowLen]
  rw [hp]
  cases s.place <;> simp only [Passed, At, hlen, hd.queues, (hd.drift _).currQ]

/-- A look comes past no runnable process. -/
lemma Scanned.looked (h : Scanned s L) (hlook : Looked s.kernel L s.place s') (r : Slot)
    (hr : (s'.kernel.proc r).state = .runnable) : ¬ Passed s'.kernel r s'.place := by
  have hpast := h.passed r
  have hrows := h.sound.wf.rows
  generalize hplace : s.place = x at hlook
  simp only [Passed, hplace] at hpast
  cases hlook with
  | start | age | ageNext | none | switch => exact id
  | aged => rintro ⟨q, j', -, hlt | ⟨-, hlt⟩⟩ <;> exact absurd hlt (Nat.not_lt_zero _)
  | @found i j hi hj hs =>
    -- `r` is in the queue of its level, which is not before this one
    obtain ⟨j', hj'⟩ := hrows.at_of_mem ((h.mem_iff hr).2 rfl)
    have hle : i ≤ level s.kernel r := not_lt.1 fun hlt => hpast hr ⟨_, j', hj', .inl hlt⟩
    have hlevel : (level s.kernel (L ⟨i, hi⟩)[j] : ℕ) = i :=
      congrArg Fin.val ((h.mem_iff hs).1 (List.getElem_mem hj))
    have hcur := h.sound.wf.coe_level (L ⟨i, hi⟩)[j]
    have hcur' := h.sound.wf.coe_level r
    simp only [Passed]
    omega
  | @pass i j hi hj hs =>
    rintro ⟨q, j', hat, hlt⟩
    refine hpast hr ⟨q, j', hat, hlt.imp_right fun hq => ⟨hq.1, ?_⟩⟩
    refine lt_of_le_of_ne (Nat.lt_succ_iff.1 hq.2) ?_
    rintro rfl
    obtain rfl : q = ⟨i, hi⟩ := Fin.ext hq.1
    have heq := hrows.at_iff.1 hat
    rw [List.getElem?_eq_getElem hj] at heq
    exact hs (Option.some.inj heq ▸ hr)
  | @next i j hi hj =>
    rintro ⟨q, j', hat, hlt | ⟨-, hlt⟩⟩
    · refine hpast hr ⟨q, j', hat, (Nat.lt_succ_iff_lt_or_eq.1 hlt).imp_right fun hq => ⟨hq, ?_⟩⟩
      obtain rfl : q = ⟨i, hi⟩ := Fin.ext hq
      have hlt' := hat.1
      rw [hrows.rowLen_eq] at hlt'
      exact hlt'.trans_le hj
    · exact absurd hlt (Nat.not_lt_zero _)

/-- An interrupt wakes nobody behind the scheduler. -/
lemma Scanned.interrupt (h : Scanned s L) (hC : TidyRound s (.act a))
    (hx : s.step (.act a) = .ok s') :
    (∀ p, s'.place = .chosen p → (s'.kernel.proc p).state = .runnable) ∧
      ∀ r, (s'.kernel.proc r).state = .runnable → ¬ Passed s'.kernel r s'.place := by
  obtain ⟨-, -, -, hplace⟩ := Round.act_ok hx
  by_cases hidle : s.place = .idle
  · rw [hidle] at hplace
    simp [Passed, hplace]
  obtain ⟨hd, chan, hwakes, hwoken⟩ := h.sound.interrupt hidle hx
  refine ⟨fun p hp => ?_, fun r hr => ?_⟩
  · have hs := h.chosen p (hplace ▸ hp)
    rcases (hd.drift p).state with hs' | ⟨-, hs'⟩
    · rw [hs', hs]
    · exact hs'
  rw [passed_of_drifted hd hplace]
  rcases hwoken r hr with hr' | ⟨hr', hchan⟩
  · exact h.passed r hr'
  · exact hC.2 r hr' (hchan ▸ hwakes)

lemma Scanned.of_step (h : Scanned s L) (hC : TidyRound s b) (hx : s.step b = .ok s') :
    ∃ L', Scanned s' L' := by
  obtain ⟨L', hsound, he⟩ := h.sound.effect hx
  have htidy : Tidy s.kernel b.base := by
    cases b with
    | act a => exact hC.1
    | look => exact ⟨rfl, by simp [created, RoundAction.base], by simp [demoted, RoundAction.base]⟩
  have hplaced := LivePlaced.of_tidy ⟨h.sound.wf, h.counted⟩ htidy hsound.wf he
  cases b with
  | act a =>
    obtain ⟨hchosen, hpassed⟩ := h.interrupt hC hx
    exact ⟨L', hsound, hplaced.counted, hchosen, hpassed⟩
  | look =>
    have hlook := looked_of_look h.sound.wf hx
    refine ⟨L', hsound, hplaced.counted, fun p hp => ?_, h.looked hlook⟩
    generalize s.place = x at hlook
    cases hlook with
    | found hi hj hs =>
      cases hp
      exact hs
    | _ => cases hp

/-! ### Rounds end -/

/-- A look of a round leaves less to be done. -/
lemma Looked.left_lt (h : Wf k L) {x : Place} (hx : x ≠ .idle) (hl : Looked k L x s) :
    s.left < Round.left ⟨k, x⟩ := by
  cases hl with
  | start => exact absurd rfl hx
  | age hi hj | pass hi hj _ =>
    simp only [Round.left, Prod.Lex.toLex_lt_toLex, dif_pos hi, h.rows.rowLen_eq]
    exact .inr ⟨trivial, by omega⟩
  | _ =>
    simp only [Round.left, Prod.Lex.toLex_lt_toLex]
    omega

lemma Scanned.roundOk (h : Scanned s L) : RoundOk s where
  runnable := h.chosen
  lowest p hp r hr := by
    have hpast := h.passed r hr
    simpa only [Passed, hp, not_lt] using hpast
  switches p s' hp hx := by
    have hlook := looked_of_look h.sound.wf hx
    rw [hp] at hlook
    cases hlook with
    | switch hk =>
      rw [dispatch, if_pos (h.chosen p hp), h.sound.wf.index_eq, ok_bind] at hk
      cases hk
      rfl
  progress i j hp hi r hr := by
    obtain ⟨j', hj'⟩ := h.sound.wf.rows.at_of_mem ((h.mem_iff hr).2 rfl)
    have hpast := h.passed r hr
    simp only [Passed, hp] at hpast
    exact hpast ⟨_, j', hj', .inl ((level s.kernel r).isLt.trans_le hi)⟩
  looks hp := by
    obtain ⟨s', hs', hlook⟩ := look_spec h.sound.wf fun hidle => absurd hidle hp
    exact ⟨s', hs', hlook.left_lt h.sound.wf hp⟩
  waits hp a s' hx := by
    obtain ⟨-, -, -, hplace⟩ := Round.act_ok hx
    have hd := (h.sound.interrupt hp hx).1
    refine ⟨hplace, ?_⟩
    simp only [Round.left, hplace, rowLen, hd.qIndex]

/-- In every state of every run whose steps are all tidy and wake nobody behind the scheduler, the
round of the scheduler takes a runnable process with the smallest `curr_q`, and takes one if there
is one. -/
theorem roundOk_of_tidy (h : Run Round.step {} tr s) (hC : ∀ x ∈ tr, TidyRound x.1 x.2) :
    (∀ x ∈ tr, RoundOk x.1) ∧ RoundOk s := by
  have hscanned := h.invariant (I := fun s => ∃ L, Scanned s L)
    (fun _ _ _ ⟨_, hL⟩ hC hx => hL.of_step hC hx)
    ⟨_, Round.sound_boot, fun p _ => placed_boot.counted p, by simp, by simp [Passed]⟩ hC
  constructor
  · intro x hx
    obtain ⟨L, hL⟩ := hscanned.1 x hx
    exact hL.roundOk
  · obtain ⟨L, hL⟩ := hscanned.2
    exact hL.roundOk

/-- `init` is demoted, and its child sleeps.  An interrupt wakes the child in a round that has come
to its queue; it is dispatched, and exits. -/
def tidyScript : List RoundAction :=
  .act .userinit :: looks 10 ++ .act (.fork true true) :: .act .usertrap :: looks 11 ++
    .act (.sleep (.addr 7)) :: looks 9 ++ .act (.wakeup (.addr 7)) :: looks 2 ++
    .act (.exit 0) :: looks 12

/-- The theorem at this run. -/
theorem roundOk_of_tidy_exit : ∃ tr s, Run Round.step {} tr s ∧ tr.length = 50 ∧
    s.place = .chosen 0 ∧ (∀ x ∈ tr, RoundOk x.1) ∧ RoundOk s := by
  obtain ⟨s, hs, htest⟩ := exists_of_okAnd (runList Round.step {} tidyScript)
    (fun s => decide (s.place = .chosen 0)) (by decide +kernel)
  have hC : ∀ x ∈ traceList Round.step {} tidyScript, TidyRound x.1 x.2 := by decide +kernel
  exact ⟨_, s, .of_runList hs, by decide +kernel, of_decide_eq_true htest,
    roundOk_of_tidy (.of_runList hs) hC⟩

/-- `init` is killed while it sleeps and so has two entries in queue 0.  When it is
demoted to queue 1, one of them stays, and the next round chooses it although another
process is runnable in queue 0. -/
def killScript : List RoundAction :=
  .act .userinit :: looks 10 ++
    .act (.fork true true) :: .act (.fork true true) :: .act (.sleep .ticks) :: looks 13 ++
    .act (.kill 1) :: .act .usertrap :: looks 13 ++ .act .kerneltrap :: .act .kerneltrap :: looks 12

theorem not_roundOk_of_kill : ¬ ∀ tr s, Run Round.step {} tr s → RoundOk s := by
  intro hall
  obtain ⟨s, hs, htest⟩ := exists_of_okAnd (runList Round.step {} killScript)
    (fun s => decide (s.place = .chosen 0 ∧ (s.kernel.proc 2).state = .runnable ∧
      ¬ (s.kernel.proc 0).currQ ≤ (s.kernel.proc 2).currQ)) (by decide +kernel)
  obtain ⟨hp, hr, hlt⟩ := of_decide_eq_true htest
  exact hlt ((hall _ s (.of_runList hs)).lowest 0 hp 2 hr)

end Hexv6.Sched
