import Hexv6.Sched.Effect

/-!
# Which processes are in which queue

Every process that is runnable, running or sleeping should be in exactly one place of
exactly one queue, the queue of its `curr_q`, and no other slot in any queue.  The queues
are kept by `push` and `pop` alone, and these are not called where they should be: `exit`
leaves the entry of the process behind, and `kill` puts a sleeping victim into queue 0
while its old entry stays.  Besides, `pop` looks for a pid, so that it may take away the
entry of another process with the same pid, once pids have wrapped around.

`membership_iff_clean` says that these three are the only ways: the queues are right
along a run exactly when all its steps are `Clean`.
-/

namespace Hexv6.Sched

open Lib List Function

/-- Entry `i` of queue `q` is `p`. -/
def At (k : Kernel) (q : Fin 5) (i : ℕ) (p : Slot) : Prop :=
  i < rowLen k q ∧ (k.queues q).read i = some (some p)

instance (k : Kernel) (q : Fin 5) (i : ℕ) (p : Slot) : Decidable (At k q i p) :=
  inferInstanceAs (Decidable (_ ∧ _))

/-- The process exists and has not exited. -/
def ProcState.Live (s : ProcState) : Prop := s = .runnable ∨ s = .running ∨ s = .sleeping

instance (s : ProcState) : Decidable s.Live := inferInstanceAs (Decidable (_ ∨ _))

/-- Each live process is at exactly one position of exactly one queue, the one of its
`curr_q`, and an unused slot or a zombie is in no queue. -/
structure Membership (k : Kernel) : Prop where
  live : ∀ p, (k.proc p).state.Live → ∃ (q : Fin 5) (i : ℕ),
    ((q : ℕ) : ℤ) = (k.proc p).currQ ∧ At k q i p ∧ ∀ q' i', At k q' i' p → q' = q ∧ i' = i
  dead : ∀ p, (k.proc p).state = .unused ∨ (k.proc p).state = .zombie →
    ∀ q i, ¬ At k q i p

/-- The last entry with the pid of `p` in the queue of `p` is an entry of `p` itself. -/
def Unshadowed (k : Kernel) (p : Slot) : Prop :=
  ∃ i, At k (level k p) i p ∧
    ∀ j e, i < j → At k (level k p) j e → (k.proc e).pid ≠ (k.proc p).pid

instance (k : Kernel) (p : Slot) : Decidable (Unshadowed k p) :=
  decidable_of_iff (∃ i < rowLen k (level k p), At k (level k p) i p ∧
      ∀ j < rowLen k (level k p), ∀ e, i < j → At k (level k p) j e →
        (k.proc e).pid ≠ (k.proc p).pid)
    ⟨fun ⟨i, _, hi, h⟩ => ⟨i, hi, fun j e hj he => h j he.1 e hj he⟩,
      fun ⟨i, hi, h⟩ => ⟨i, hi.1, hi, fun j _ e hj he => h j e hj he⟩⟩

/-- The step neither ends a process nor kills a sleeping one, and a process that it
demotes is not hidden behind another one with the same pid. -/
def Clean (k : Kernel) (a : Action) : Prop :=
  exiting k a = none ∧ victim k a = none ∧ ∀ p, demoted k a = some p → Unshadowed k p

instance (k : Kernel) (a : Action) : Decidable (Clean k a) :=
  inferInstanceAs (Decidable (_ ∧ _ ∧ ∀ p, demoted k a = some p → Unshadowed k p))

lemma Plain.clean {k : Kernel} {a : Action} (h : Plain k a) : Clean k a :=
  ⟨h.1, h.2.1, by simp [h.2.2]⟩

variable {k k' : Kernel} {L L' : Fin 5 → List Slot} {a : Action} {p : Slot} {q : Fin 5} {i : ℕ}
  {L₁ : Fin 5 → List Slot} {l : List Slot} {b : Bool} {q' : Fin 5}

/-- A step that demotes a process neither ends one nor wakes a victim. -/
lemma demoted_plain (h : demoted k a = some p) : exiting k a = none ∧ victim k a = none := by
  cases a with
  | usertrap =>
    obtain ⟨hc, hk⟩ := Option.filter_eq_some_iff.1 h
    simp only [decide_eq_true_eq] at hk
    exact ⟨by simp [exiting, hc, hk], rfl⟩
  | kerneltrap => exact ⟨rfl, rfl⟩
  | _ => cases h

/-- The entries of a queue are the members of the list it represents. -/
lemma Rows.at_iff (h : Rows k.queues k.qIndex L) : At k q i p ↔ (L q)[i]? = some p := by
  rw [At, h.rowLen_eq]
  constructor
  · rintro ⟨hi, hr⟩
    rw [((rows_iff.1 h).holds q).read_eq hi] at hr
    rw [getElem?_eq_getElem hi]
    exact Option.some.inj hr
  intro hr
  obtain ⟨hi, rfl⟩ := List.getElem?_eq_some_iff.1 hr
  exact ⟨hi, ((rows_iff.1 h).holds q).read_eq hi⟩

lemma Rows.at_of_mem (h : Rows k.queues k.qIndex L) (hp : p ∈ L q) : ∃ i, At k q i p := by
  obtain ⟨i, hi⟩ := mem_iff_getElem?.1 hp
  exact ⟨i, h.at_iff.2 hi⟩

lemma Rows.mem_of_at (h : Rows k.queues k.qIndex L) (hp : At k q i p) : p ∈ L q :=
  mem_of_getElem? (h.at_iff.1 hp)

/-! ### The invariant -/

/-- The entries of `p` in the lists: one in the list of its level while it is live, and
no other. -/
def Counted (k : Kernel) (L : Fin 5 → List Slot) (p : Slot) : Prop :=
  ∀ q, (L q).count p = if (k.proc p).state.Live ∧ level k p = q then 1 else 0

lemma Counted.mem_iff (h : Counted k L p) : p ∈ L q ↔ (k.proc p).state.Live ∧ level k p = q := by
  rw [← count_pos_iff, h q]
  split_ifs with hp
  · simp [hp]
  · simp [hp]

lemma counted_of_forall_not_mem (hs : ¬ (k.proc p).state.Live) (h : ∀ q, p ∉ L q) :
    Counted k L p := by
  intro q
  rw [count_eq_zero.2 (h q), if_neg fun hp => hs hp.1]

/-- The rows represent lists in which every slot has the entries it should have. -/
structure Placed (k : Kernel) (L : Fin 5 → List Slot) : Prop where
  wf : Wf k L
  counted : ∀ p, Counted k L p

lemma placed_boot : Placed boot fun _ => [] :=
  ⟨wf_boot, fun _ => counted_of_forall_not_mem (by simp [boot, ProcState.Live]) (by simp)⟩

lemma Wf.coe_level (h : Wf k L) (p : Slot) : ((level k p : ℕ) : ℤ) = (k.proc p).currQ := by
  have hq := h.currQ p
  simp only [level, clamp]
  split_ifs
  · omega
  · omega
  · simp only
    omega

lemma Placed.membership (h : Placed k L) : Membership k where
  live p hp := by
    have hmem : p ∈ L (level k p) := (h.counted p).mem_iff.2 ⟨hp, rfl⟩
    obtain ⟨i, hi⟩ := h.wf.rows.at_of_mem hmem
    refine ⟨level k p, i, h.wf.coe_level p, hi, fun q' i' h' => ?_⟩
    have hq : level k p = q' := ((h.counted p).mem_iff.1 (h.wf.rows.mem_of_at h')).2
    subst hq
    -- a second position would be a second entry
    have hnodup : (L (level k p)).Nodup := by
      rw [nodup_iff_count_le_one]
      intro r
      rw [h.counted r (level k p)]
      split_ifs
      · exact le_refl 1
      · exact Nat.zero_le 1
    have hi1 := h.wf.rows.at_iff.1 hi
    have hi2 := h.wf.rows.at_iff.1 h'
    have hlt : i' < (L (level k p)).length := (List.getElem?_eq_some_iff.1 hi2).1
    exact ⟨rfl, (List.getElem?_inj hlt hnodup).1 (hi2.trans hi1.symm)⟩
  dead p hp q i hat := by
    have hlive := ((h.counted p).mem_iff.1 (h.wf.rows.mem_of_at hat)).1
    rcases hp with hp | hp <;> simp [ProcState.Live, hp] at hlive

lemma ProcDrift.live_iff {r r' : Proc} (h : ProcDrift b r r') :
    r'.state.Live ↔ r.state.Live := by
  rcases h.state with hs | ⟨hs, hs'⟩
  · rw [hs]
  · simp [ProcState.Live, hs, hs']

/-- Drift neither ends a process nor changes its level. -/
lemma live_level_of_drift {r : Slot} (h : ProcDrift b (k.proc r) (k'.proc r)) :
    ((k'.proc r).state.Live ∧ level k' r = q) ↔ ((k.proc r).state.Live ∧ level k r = q) := by
  rw [h.live_iff, level, level, h.currQ]

/-! ### What one step does to the entries of a slot -/

variable {r : Slot}

lemma Counted.congr (h : Counted k L r) (hp : ∀ q, ((k'.proc r).state.Live ∧ level k' r = q) ↔
      ((k.proc r).state.Live ∧ level k r = q)) : Counted k' L r := by
  intro q
  rw [h q]
  simp only [hp]

/-- A change of the slot `p`, which keeps its level and stays live or stays dead. -/
lemma Counted.of_driftOff (h : Counted k L r) (hd : DriftOff b p k.proc k'.proc)
    (hp : ∀ q, ((k'.proc p).state.Live ∧ level k' p = q) ↔
      ((k.proc p).state.Live ∧ level k p = q)) : Counted k' L r := by
  refine h.congr fun q => ?_
  by_cases hr : r = p
  · subst hr
    exact hp q
  · exact live_level_of_drift (hd r hr)

lemma count_update_append : (update L q (l ++ [p]) q').count r =
      if q' = q then l.count r + (if r = p then 1 else 0) else (L q').count r := by
  by_cases hq : q' = q
  · subst hq
    by_cases hr : r = p
    · simp [hr]
    · simp [hr, Ne.symm hr]
  · simp [hq]

lemma mem_update_append : r ∈ update L q (l ++ [p]) q' ↔
      if q' = q then r ∈ l ∨ r = p else r ∈ L q' := by
  by_cases hq : q' = q
  · subst hq
    simp
  · simp [hq]

/-- A slot without entries is put into the queue of its level. -/
lemma Counted.append
    (hd : DriftOff b p k.proc k'.proc) (hs : (k'.proc p).state.Live) (hq : level k' p = q)
    (hp : r = p → ∀ q', (L₁ q').count r = 0) (hr : r ≠ p → Counted k L₁ r) :
    Counted k' (update L₁ q (L₁ q ++ [p])) r := by
  intro q'
  rw [count_update_append]
  by_cases hrp : r = p
  · have hzero := hp hrp
    subst hrp
    by_cases hq' : q' = q
    · simp [hq', hzero, hs, hq]
    · simp [hq', hzero, hq, Ne.symm hq']
  · have hcount := (hr hrp).congr (fun q => live_level_of_drift (hd r hrp)) q'
    split_ifs at hcount ⊢ with hq' <;> simp_all

/-- The split of the queue of `p` at the entry that `pop` finds. -/
lemma Unshadowed.split (h : Rows k.queues k.qIndex L) (hu : Unshadowed k p) :
    ∃ l₁ l₂, L (level k p) = l₁ ++ p :: l₂ ∧ ∀ e ∈ l₂, samePid k.proc p e = false := by
  obtain ⟨i, hi, hlast⟩ := hu
  obtain ⟨hlt, hget⟩ := List.getElem?_eq_some_iff.1 (h.at_iff.1 hi)
  refine ⟨(L (level k p)).take i, (L (level k p)).drop (i + 1), ?_, fun e he => ?_⟩
  · have hcons := List.cons_getElem_drop_succ (h := hlt)
    rw [hget] at hcons
    rw [hcons, take_append_drop]
  obtain ⟨j, hj⟩ := mem_iff_getElem?.1 he
  rw [getElem?_drop] at hj
  have hne := hlast (i + 1 + j) e (by omega) (h.at_iff.2 hj)
  simpa [samePid] using Ne.symm hne

/-- `pop` takes away one entry of a process that is not shadowed, and nothing else. -/
lemma Unshadowed.count_erase (h : Rows k.queues k.qIndex L) (hu : Unshadowed k p)
    (r : Slot) (q' : Fin 5) :
    (update L (level k p) (eraseLast (samePid k.proc p) (L (level k p))) q').count r =
      (L q').count r - if r = p ∧ level k p = q' then 1 else 0 := by
  obtain ⟨l1, l2, hL, hno⟩ := hu.split h
  by_cases hq : q' = level k p
  · subst hq
    rw [update_self, hL, eraseLast_append_cons (by simp [samePid]) hno]
    by_cases hr : r = p
    · subst hr
      simp [count_append]
    · simp [count_append, count_cons_of_ne (Ne.symm hr), hr]
  · rw [update_of_ne hq]
    simp [Ne.symm hq]

/-- A step keeps the entries of a slot right, unless the slot exits or is killed asleep,
as long as the process that it demotes is not shadowed. -/
lemma Counted.of_effect (h : Wf k L) (he : Effect k L a k' L') (hr : Counted k L r)
    (hexit : exiting k a ≠ some r) (hvictim : victim k a ≠ some r)
    (hdemoted : ∀ p, demoted k a = some p → Unshadowed k p) : Counted k' L' r := by
  cases he with
  | quiet _ hd _ => exact hr.congr fun q => live_level_of_drift (hd r)
  | clear p _ _ hs hs' hd _ =>
    refine hr.of_driftOff hd fun q => ?_
    rcases hs with hs | hs <;> simp [ProcState.Live, hs, hs']
  | create p _ _ _ hs hs' hq' _ hd _ =>
    refine .append hd (.inl hs') (by simp [level, hq', clamp]) ?_ fun _ => hr
    rintro rfl q
    rw [hr q]
    simp [ProcState.Live, hs]
  | leave p _ _ hc hs' hq' hd _ =>
    have hs := (h.running p).2 hc
    refine hr.of_driftOff hd fun q => ?_
    rcases hs' with hs' | hs' <;> simp [ProcState.Live, hs, hs', level, hq']
  | exit p he _ _ _ hd _ =>
    have hne : r ≠ p := by
      rintro rfl
      exact hexit he
    exact hr.congr fun q => live_level_of_drift (hd r hne)
  | wake p hv _ hs' hq' _ hd _ =>
    have hne : r ≠ p := by
      rintro rfl
      exact hvictim hv
    exact .append hd (.inl hs') (by simp [level, hq', clamp]) (fun hc => absurd hc hne) fun _ => hr
  | @demote p hm _ hs' hq' hd _ L1 hL1 _ =>
    have herase := (hdemoted p hm).count_erase h.rows r
    rw [← hL1] at herase
    refine .append hd (.inl hs') (by rw [level, hq', clamp_coe]) ?_ ?_
    · rintro rfl q
      rw [herase, hr q]
      split_ifs <;> simp_all
    intro hne q
    rw [herase, hr q]
    simp [hne]
  | dispatch p _ _ hs hs' hq' _ hd _ =>
    refine hr.of_driftOff hd fun q => ?_
    simp [ProcState.Live, hs, hs', level, hq']

/-- A clean step keeps every process in its place. -/
lemma Placed.of_clean (h : Placed k L) (hC : Clean k a) (hx : step k a = .ok k') :
    ∃ L', Placed k' L' := by
  obtain ⟨L', hwf, he⟩ := step_effect h.wf hx
  exact ⟨L', hwf, fun r => (h.counted r).of_effect h.wf he (by simp [hC.1]) (by simp [hC.2.1])
    hC.2.2⟩

/-! ### A step that is not clean destroys the membership -/

/-- Two positions of one process contradict the membership. -/
lemma not_membership_of_twice {q₁ q₂ : Fin 5} {i₁ i₂ : ℕ} (hs : (k'.proc p).state.Live)
    (h₁ : At k' q₁ i₁ p) (h₂ : At k' q₂ i₂ p) (hne : q₁ ≠ q₂ ∨ i₁ ≠ i₂) : ¬ Membership k' := by
  intro hm
  obtain ⟨q, i, -, -, huniq⟩ := hm.live p hs
  obtain ⟨hq1, hi1⟩ := huniq q₁ i₁ h₁
  obtain ⟨hq2, hi2⟩ := huniq q₂ i₂ h₂
  rcases hne with hne | hne
  · exact hne (hq1.trans hq2.symm)
  · exact hne (hi1.trans hi2.symm)

/-- An entry that is left behind when the process is appended once more. -/
lemma not_membership_of_append (hs : (k'.proc p).state.Live)
    (hrows : Rows k'.queues k'.qIndex (update L₁ q (L₁ q ++ [p]))) {q₀ : Fin 5}
    (hp : p ∈ L₁ q₀) : ¬ Membership k' := by
  obtain ⟨i, hi⟩ := List.mem_iff_getElem?.1 hp
  have hlt : i < (L₁ q₀).length := (List.getElem?_eq_some_iff.1 hi).1
  have hnew : At k' q (L₁ q).length p := hrows.at_iff.2 (by simp)
  by_cases hq : q₀ = q
  · subst hq
    have hold : At k' q₀ i p :=
      hrows.at_iff.2 (by rw [update_self, getElem?_append_left hlt, hi])
    exact not_membership_of_twice hs hold hnew (.inr (by omega))
  · have hold : At k' q₀ i p := hrows.at_iff.2 (by rw [update_of_ne hq, hi])
    exact not_membership_of_twice hs hold hnew (.inl hq)

lemma Placed.not_membership (h : Placed k L) (hC : ¬ Clean k a) (hx : step k a = .ok k') :
    ¬ Membership k' := by
  obtain ⟨L', hwf, he⟩ := step_effect h.wf hx
  cases he with
  | quiet hp _ _ | clear _ hp _ _ _ _ _ | create _ hp _ _ _ _ _ _ _ _
  | leave _ hp _ _ _ _ _ _ => exact absurd hp.clean hC
  | exit p _ hc hs' _ _ _ =>
    -- the entry of the zombie is still there
    have hlive : (k.proc p).state.Live := .inr (.inl ((h.wf.running p).2 hc))
    obtain ⟨i, hi⟩ := hwf.rows.at_of_mem ((h.counted p).mem_iff.2 ⟨hlive, rfl⟩)
    exact fun hm => hm.dead p (.inr hs') _ i hi
  | wake p _ hs hs' _ _ _ _ =>
    have hmem : p ∈ L (level k p) := (h.counted p).mem_iff.2 ⟨.inr (.inr hs), rfl⟩
    exact not_membership_of_append (.inl hs') hwf.rows hmem
  | @demote p hm hc hs' _ _ _ L1 hL1 _ =>
    have hplain : exiting k a = none ∧ victim k a = none := demoted_plain hm
    have hshadow : ¬ Unshadowed k p := by
      intro hu
      refine hC ⟨hplain.1, hplain.2, fun r hr => ?_⟩
      rw [hm] at hr
      cases hr
      exact hu
    have hmem : p ∈ L (level k p) :=
      (h.counted p).mem_iff.2 ⟨.inr (.inl ((h.wf.running p).2 hc)), rfl⟩
    have hself : samePid k.proc p p = true := by simp [samePid]
    obtain ⟨l1, e, l2, hL, he, hno⟩ := exists_last_split ⟨p, hmem, hself⟩
    -- what `pop` takes away is an entry behind the one of `p`
    have hp1 : p ∈ l1 := by
      rw [hL] at hmem
      rcases mem_append.1 hmem with hp | hp
      · exact hp
      rcases mem_cons.1 hp with rfl | hp
      · exfalso
        refine hshadow ⟨l1.length, h.wf.rows.at_iff.2 (by simp [hL]), fun j e hj hat => ?_⟩
        have hget := h.wf.rows.at_iff.1 hat
        rw [hL, getElem?_append_right (by omega),
          show j - l1.length = (j - l1.length - 1) + 1 by omega,
          getElem?_cons_succ] at hget
        have := hno e (mem_of_getElem? hget)
        simp only [samePid, decide_eq_false_iff_not] at this
        exact Ne.symm this
      · rw [hno p hp] at hself
        cases hself
    have hmem1 : p ∈ L1 (level k p) := by
      rw [hL1, update_self, hL, eraseLast_append_cons he hno]
      exact mem_append_left _ hp1
    exact not_membership_of_append (.inl hs') hwf.rows hmem1
  | dispatch p ha _ _ _ _ _ _ _ =>
    subst ha
    exact absurd ⟨rfl, rfl, by simp [demoted]⟩ hC

/-- The queues of the MLFQ build hold each live process exactly once and no other slot,
in every state of a run, if and only if no step of the run ends a process, kills a
sleeping process, or demotes a process hidden behind another one with its pid. -/
theorem membership_iff_clean {tr : List (Kernel × Action)} (h : Run step boot tr k) :
    ((∀ x ∈ tr, Membership x.1) ∧ Membership k) ↔ ∀ x ∈ tr, Clean x.1 x.2 :=
  h.forall_state_iff (I := fun k => ∃ L, Placed k L) (fun _ ⟨_, hL⟩ => hL.membership)
    (fun _ _ _ ⟨_, hL⟩ hC hx => hL.of_clean hC hx)
    (fun _ _ _ ⟨_, hL⟩ hC hx => hL.not_membership hC hx)
    ⟨_, placed_boot⟩

/-- The theorem at a run in which `init` starts, forks and is demoted by a timer
interrupt in user mode. -/
theorem membership_iff_clean_fork : ∃ tr k, Run step boot tr k ∧ tr.length = 4 ∧
    (((∀ x ∈ tr, Membership x.1) ∧ Membership k) ↔ ∀ x ∈ tr, Clean x.1 x.2) := by
  obtain ⟨k, hk, -⟩ := exists_of_okAnd (runList step boot
    [.userinit, .scheduler, .fork true true, .usertrap]) (fun _ => true) (by decide +kernel)
  exact ⟨_, k, .of_runList hk, by decide +kernel, membership_iff_clean (.of_runList hk)⟩

/-- A child that exits stays in queue 0 as a zombie. -/
theorem not_membership_of_exit : ¬ ∀ tr k, Run step boot tr k → Membership k := by
  intro hall
  obtain ⟨k, hk, htest⟩ := exists_of_okAnd (runList step boot
    [.userinit, .scheduler, .fork true true, .sleep .ticks, .scheduler, .exit 0])
    (fun k => decide ((k.proc 1).state = .zombie ∧ At k 0 1 1)) (by decide +kernel)
  have hz : (k.proc 1).state = .zombie ∧ At k 0 1 1 := by simpa using htest
  exact (hall _ k (.of_runList hk)).dead 1 (.inr hz.1) 0 1 hz.2

end Hexv6.Sched
