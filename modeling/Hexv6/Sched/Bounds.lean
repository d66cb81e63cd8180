import Hexv6.Lib.Count
import Hexv6.Sched.Membership
import Hexv6.Sched.Round

/-!
# The queues stay within their rows

`push` increments `q_index[q]` and writes `queues[q][q_index[q]]` without looking at the
bound.  Each queue has one entry for every live process in it and one for every process
that has exited or was killed asleep while it was in it: these entries are left behind
and never taken away.  So `push` leaves its row exactly when `NPROC` entries of the two
kinds have come together in it, which `inBounds_iff_room` says for every sequence of
actions.
-/

namespace Hexv6.Sched

open Lib Function

/-- The value of a `uint64` read as a signed number. -/
def signed (n : ℕ) : ℤ := if n < 2 ^ 63 then n else n - 2 ^ 64

/-- Every `q_index[q]` is in `-1..NPROC-1`, and the entries up to it are not null. -/
structure InBounds (k : Kernel) : Prop where
  index : ∀ q, -1 ≤ signed (k.qIndex q) ∧ signed (k.qIndex q) ≤ NPROC - 1
  entries : ∀ (q : Fin 5) (i : ℕ), (i : ℤ) ≤ signed (k.qIndex q) → ∃ p, entry k q i = .ok p

/-- Along the actions `as` from boot every state is in bounds, and no step ends with an
access outside a row or with the use of a null entry. -/
def StaysInBounds (as : List Action) : Prop :=
  (∀ x ∈ traceList step boot as, InBounds x.1) ∧
    (∀ k, runList step boot as = .ok k → InBounds k) ∧
    runList step boot as ≠ .error .outOfRow ∧ runList step boot as ≠ .error .nullEntry

/-! ### The condition -/

/-- The number of live processes in queue `q`. -/
def liveAt (k : Kernel) (q : Fin 5) : ℕ :=
  (Finset.univ.filter fun p => (k.proc p).state.Live ∧ level k p = q).card

/-- The queue in which a process leaves an entry behind: it exits, or it is killed while
it sleeps. -/
def leak (k : Kernel) (a : Action) : Option (Fin 5) :=
  match exiting k a with
  | some p => some (level k p)
  | none => (victim k a).map (level k)

/-- The number of entries left behind in queue `q`. -/
def leakedAt (tr : List (Kernel × Action)) (q : Fin 5) : ℕ :=
  tr.countP fun x => leak x.1 x.2 = some q

/-- The queue that gets an entry more: queue 0 by a new process or by the victim of
`kill`, the next queue by a process that is demoted from one of the first four. -/
def grows (k : Kernel) : Action → Option (Fin 5)
  | .userinit => if k.initproc = none then some (clamp 0) else none
  | .fork mem copied =>
    if k.cpu ≠ none then (created k (.fork mem copied)).map fun _ => clamp 0 else none
  | .kill pid => if k.cpu ≠ none then (victim k (.kill pid)).map fun _ => clamp 0 else none
  | a => (demoted k a).bind fun p =>
    if (level k p : ℕ) = 4 then none else some (clamp ((k.proc p).currQ + 1))

/-- There is room for one more live process or entry left behind in the queue that grows,
after the steps `tr`. -/
def Room (tr : List (Kernel × Action)) (k : Kernel) (a : Action) : Prop :=
  ∀ c, grows k a = some c → liveAt k c + leakedAt tr c < NPROC

/-- No other slot has the pid of the process that is demoted. -/
def OwnPid (k : Kernel) (a : Action) : Prop :=
  ∀ p, demoted k a = some p → ∀ r, r ≠ p → (k.proc r).pid ≠ (k.proc p).pid

instance (k : Kernel) (a : Action) : Decidable (OwnPid k a) :=
  inferInstanceAs (Decidable (∀ p, demoted k a = some p → ∀ r, r ≠ p → _))

/-! ### Counting -/

variable {k k₁ k' : Kernel} {L L' : Fin 5 → List Slot} {a : Action} {p : Slot} {q : Fin 5}
  {tr : List (Kernel × Action)} {b : Bool} {full : Prop} {x : Except Fault Kernel} {r : Slot}

/-- What `p` contributes to the number of live processes in queue `q`. -/
def share (k : Kernel) (p : Slot) (q : Fin 5) : ℕ :=
  if (k.proc p).state.Live ∧ level k p = q then 1 else 0

lemma liveAt_eq_sum (k : Kernel) (q : Fin 5) : liveAt k q = ∑ p, share k p q :=
  Finset.card_filter _ _

lemma share_of_drift (h : ProcDrift b (k.proc r) (k'.proc r)) (q : Fin 5) :
    share k' r q = share k r q := by
  simp only [share, live_level_of_drift h]

lemma liveAt_of_drift (h : Drift b k.proc k'.proc) (q : Fin 5) :
    liveAt k' q = liveAt k q := by
  rw [liveAt_eq_sum, liveAt_eq_sum]
  exact Finset.sum_congr rfl fun r _ => share_of_drift (h r) q

/-- A change of one slot changes the numbers by what this slot contributes. -/
lemma liveAt_of_driftOff (h : DriftOff b p k.proc k'.proc) (q : Fin 5) :
    liveAt k' q + share k p q = liveAt k q + share k' p q := by
  rw [liveAt_eq_sum, liveAt_eq_sum]
  exact sum_add_of_eq_off (Finset.mem_univ p) fun r hr => share_of_drift (h r hr) q

lemma leakedAt_snoc (tr : List (Kernel × Action)) (k : Kernel) (a : Action) (q : Fin 5) :
    leakedAt (tr ++ [(k, a)]) q = leakedAt tr q + if leak k a = some q then 1 else 0 := by
  simp [leakedAt, List.countP_append, List.countP_singleton]

lemma leak_of_plain (he : exiting k a = none) (hv : victim k a = none) : leak k a = none := by
  simp [leak, he, hv]

lemma exiting_of_victim (h : victim k a = some p) : exiting k a = none := by
  cases a with
  | kill pid => rfl
  | _ => cases h

/-! ### The invariant -/

/-- After the steps `tr` each list has as many members as there are live processes in the
queue and entries left behind in it, and each live process is in the list of its level. -/
structure Tally (tr : List (Kernel × Action)) (k : Kernel) (L : Fin 5 → List Slot) : Prop where
  wf : Wf k L
  count : ∀ q, (L q).length = liveAt k q + leakedAt tr q
  mem : ∀ p, (k.proc p).state.Live → p ∈ L (level k p)

lemma tally_boot : Tally [] boot fun _ => [] := by
  refine ⟨wf_boot, fun q => ?_, fun p hp => ?_⟩
  · simp [liveAt, leakedAt, boot, ProcState.Live]
  · simp [boot, ProcState.Live] at hp

/-- The live processes other than `p` stay in their lists when these do not shrink. -/
lemma Tally.mem_of_driftOff (h : Tally tr k L) (hd : DriftOff b p k.proc k'.proc)
    (hL : ∀ q, ∀ r ∈ L q, r ≠ p → r ∈ L' q) (hr : r ≠ p)
    (hs : (k'.proc r).state.Live) : r ∈ L' (level k' r) := by
  obtain ⟨hs', hq⟩ := (live_level_of_drift (hd r hr)).1 ⟨hs, rfl⟩
  rw [← hq]
  exact hL _ r (h.mem r hs') hr

/-- A step that changes the slot `p` and no list. -/
lemma Tally.keep (h : Tally tr k L) (hwf : Wf k' L) (hd : DriftOff b p k.proc k'.proc)
    (hshare : ∀ q, share k' p q + (if leak k a = some q then 1 else 0) = share k p q)
    (hp : (k'.proc p).state.Live → (k.proc p).state.Live ∧ level k' p = level k p) :
    Tally (tr ++ [(k, a)]) k' L := by
  refine ⟨hwf, fun q => ?_, fun r hs => ?_⟩
  · have := h.count q
    have := liveAt_of_driftOff hd q
    have := hshare q
    rw [leakedAt_snoc]
    omega
  by_cases hr : r = p
  · subst hr
    rw [(hp hs).2]
    exact h.mem r (hp hs).1
  · exact h.mem_of_driftOff hd (fun _ _ hm _ => hm) hr hs

/-- A step that puts the slot `p` into a queue. -/
lemma Tally.append {L₁ : Fin 5 → List Slot} (h : Tally tr k L)
    (hwf : Wf k' (update L₁ q (L₁ q ++ [p])))
    (hd : DriftOff b p k.proc k'.proc) (hs : (k'.proc p).state.Live) (hq : level k' p = q)
    (hL₁ : ∀ q', ∀ r ∈ L q', r ≠ p → r ∈ L₁ q')
    (hcount : ∀ q', (L₁ q').length + share k p q' =
      (L q').length + if leak k a = some q' then 1 else 0) :
    Tally (tr ++ [(k, a)]) k' (update L₁ q (L₁ q ++ [p])) := by
  refine ⟨hwf, fun q' => ?_, fun r hr => ?_⟩
  · have := h.count q'
    have := liveAt_of_driftOff hd q'
    have hone : share k' p q' = if q = q' then 1 else 0 := by simp [share, hs, hq]
    have := hcount q'
    rw [leakedAt_snoc]
    by_cases hq' : q = q'
    · subst hq'
      rw [update_self, List.length_append, List.length_singleton]
      simp only [if_true] at hone
      omega
    rw [update_of_ne (Ne.symm hq')]
    simp only [hq', if_false] at hone
    omega
  · rw [mem_update_append]
    by_cases hrp : r = p
    · subst hrp
      simp [hq]
    have hmem : r ∈ L₁ (level k' r) := h.mem_of_driftOff hd hL₁ hrp hr
    split_ifs with hlevel
    · exact .inl (hlevel ▸ hmem)
    · exact hmem

/-- Every step keeps the count, as long as pids are not shared. -/
lemma Tally.of_ownPid (h : Tally tr k L) (hC : OwnPid k a) (hx : step k a = .ok k') :
    ∃ L', Tally (tr ++ [(k, a)]) k' L' := by
  obtain ⟨L', hwf, he⟩ := step_effect h.wf hx
  cases he with
  | quiet hp hd _ =>
    refine ⟨L, hwf, fun q => ?_, fun r hr => ?_⟩
    · rw [leakedAt_snoc, leak_of_plain hp.1 hp.2.1, liveAt_of_drift hd, h.count q]
      simp
    obtain ⟨hs, hq⟩ := (live_level_of_drift (hd r)).1 ⟨hr, rfl⟩
    rw [← hq]
    exact h.mem r hs
  | clear p hp _ hs hs' hd _ =>
    refine ⟨L, h.keep hwf hd (fun q => ?_) fun hlive => ?_⟩
    · rw [leak_of_plain hp.1 hp.2.1]
      rcases hs with hs | hs <;> simp [share, ProcState.Live, hs, hs']
    · simp [ProcState.Live, hs'] at hlive
  | create p hp _ _ hs hs' hq' _ hd _ =>
    refine ⟨_, h.append hwf hd (.inl hs') (by simp [level, hq', clamp]) (fun _ _ hr _ => hr)
      fun q => ?_⟩
    rw [leak_of_plain hp.1 hp.2.1]
    simp [share, ProcState.Live, hs]
  | leave p hp _ hc hs' hq' hd _ =>
    have hs := (h.wf.running p).2 hc
    refine ⟨L, h.keep hwf hd (fun q => ?_) fun _ => ⟨.inr (.inl hs), by simp [level, hq']⟩⟩
    rw [leak_of_plain hp.1 hp.2.1]
    rcases hs' with hs' | hs' <;> simp [share, ProcState.Live, level, hs, hs', hq']
  | exit p he hc hs' _ hd _ =>
    have hs := (h.wf.running p).2 hc
    refine ⟨L, h.keep hwf hd (fun q => ?_) fun hlive => ?_⟩
    · simp [leak, he, share, ProcState.Live, hs, hs']
    · simp [ProcState.Live, hs'] at hlive
  | wake p hv hs hs' hq' _ hd _ =>
    refine ⟨_, h.append hwf hd (.inl hs') (by simp [level, hq', clamp]) (fun _ _ hr _ => hr)
      fun q => ?_⟩
    have hleak : leak k a = some (level k p) := by
      rw [leak, exiting_of_victim hv, hv, Option.map_some]
    simp [hleak, share, ProcState.Live, hs]
  | @demote p hm hc hs' hq' hd _ L1 hL1 _ =>
    have hrun : (k.proc p).state.Live := .inr (.inl ((h.wf.running p).2 hc))
    have hself : samePid k.proc p p = true := by simp [samePid]
    have hmem : ∃ e ∈ L (level k p), samePid k.proc p e = true := ⟨p, h.mem p hrun, hself⟩
    refine ⟨_, h.append hwf hd (.inl hs') (by rw [level, hq', clamp_coe]) (fun q r hr hne => ?_)
      fun q => ?_⟩
    · -- the entry taken away has the pid of `p`, so it is not one of `r`
      have hother : samePid k.proc p r = false := by simpa [samePid] using Ne.symm (hC p hm r hne)
      rw [hL1]
      by_cases hq : q = level k p
      · subst hq
        rw [update_self]
        exact mem_eraseLast_of_not hr hother
      · rwa [update_of_ne hq]
    obtain ⟨he, hv⟩ := demoted_plain hm
    rw [leak_of_plain he hv, hL1]
    by_cases hq : q = level k p
    · subst hq
      have hlen := length_eraseLast hmem
      rw [update_self]
      simp only [share, hrun, and_self, if_true]
      simpa using hlen
    · rw [update_of_ne hq]
      simp [share, Ne.symm hq]
  | dispatch p ha _ hs hs' hq' _ hd _ =>
    subst ha
    refine ⟨L, h.keep hwf hd (fun q => ?_) fun _ => ⟨.inl hs, by simp [level, hq']⟩⟩
    simp [leak, exiting, victim, share, ProcState.Live, level, hs, hs', hq']

lemma tally_of_run (h : Run step boot tr k) (hC : ∀ x ∈ tr, OwnPid x.1 x.2) :
    ∃ L, Tally tr k L := by
  refine h.history (P := fun tr k => (∀ x ∈ tr, OwnPid x.1 x.2) → ∃ L, Tally tr k L)
    (fun _ => ⟨_, tally_boot⟩) ?_ hC
  intro tr k a k' ih hx hC'
  obtain ⟨L, hL⟩ := ih fun x hx' => hC' x (by simp [hx'])
  exact hL.of_ownPid (hC' (k, a) (by simp)) hx

/-! ### Which steps fault -/

/-- A computation never uses a null entry, and leaves a row exactly when `full` holds. -/
structure FaultIff (x : Except Fault Kernel) (full : Prop) : Prop where
  null : x ≠ .error .nullEntry
  out : x = .error .outOfRow ↔ full

lemma FaultIff.of_ok (hx : ∃ k', x = .ok k')
    (h : ¬ full) : FaultIff x full := by
  obtain ⟨k', rfl⟩ := hx
  exact ⟨by simp, by simp [h]⟩

lemma FaultIff.of_disabled (hx : x = .error .disabled)
    (h : ¬ full) : FaultIff x full := by
  subst hx
  exact ⟨by simp, by simp [h]⟩

/-- `push` stops at a full row and nowhere else. -/
lemma FaultIff.of_push {q : ℤ} (h : Rows k.queues k.qIndex L)
    (hfull : (L (clamp q)).length = NPROC ↔ full) : FaultIff (push k p q) full := by
  rcases (h.length_le (clamp q)).lt_or_eq with hroom | heq
  · obtain ⟨qs, is, hpush, -⟩ := push_spec h p q hroom
    exact .of_ok ⟨_, hpush⟩ (by rw [← hfull]; exact hroom.ne)
  · rw [push_full h p q heq]
    exact ⟨by simp, by simp [← hfull, heq]⟩

/-- Only from the last queue a demotion leads back to the same queue. -/
lemma Wf.clamp_succ_eq_iff (h : Wf k L) (p : Slot) :
    clamp ((k.proc p).currQ + 1) = level k p ↔ (level k p : ℕ) = 4 := by
  have hlevel := h.coe_level p
  have hcurrQ := h.currQ p
  have hlt := (level k p).isLt
  rw [← hlevel, Fin.ext_iff]
  simp only [clamp]
  split_ifs
  · omega
  · rw [show ((4 : Fin 5) : ℕ) = 4 from rfl]
    omega
  · simp only
    omega

/-- A demotion stops when the next row is full; in the last queue, the entry that is
taken away makes room. -/
lemma demote_fault (h : Wf k L) (hp : p ∈ L (level k p)) : FaultIff (demote k p)
      ((level k p : ℕ) ≠ 4 ∧ (L (clamp ((k.proc p).currQ + 1))).length = NPROC) := by
  obtain ⟨qs, is, hpop, hrows⟩ := pop_spec h.rows p
  suffices hpush : FaultIff (push { k with queues := qs, qIndex := is } p ((k.proc p).currQ + 1))
      ((level k p : ℕ) ≠ 4 ∧ (L (clamp ((k.proc p).currQ + 1))).length = NPROC) by
    simp only [demote, hpop, ok_bind]
    revert hpush
    cases push { k with queues := qs, qIndex := is } p ((k.proc p).currQ + 1) with
    | error e => exact id
    | ok k2 =>
      intro hpush
      refine .of_ok ⟨_, rfl⟩ ?_
      rw [← hpush.out]
      simp
  refine .of_push hrows ?_
  have hnext := h.clamp_succ_eq_iff p
  by_cases h4 : (level k p : ℕ) = 4
  · have hlen := length_eraseLast ⟨p, hp, (by simp [samePid] : samePid k.proc p p = true)⟩
    have hle := h.rows.length_le (level k p)
    rw [hnext.2 h4, show clamp (k.proc p).currQ = level k p from rfl, update_self]
    simp only [h4, ne_eq, not_true_eq_false, false_and, iff_false]
    omega
  · rw [show clamp (k.proc p).currQ = level k p from rfl, update_of_ne (fun hc => h4 (hnext.1 hc))]
    simp [h4]

lemma fork_fault (h : Wf k L) (hc : k.cpu = some p) (mem copied : Bool) :
    FaultIff (fork k p mem copied)
      (∃ c, grows k (.fork mem copied) = some c ∧ (L c).length = NPROC) := by
  rcases allocproc_cases k.proc k.nextpid k.ticks mem with
    ⟨hf, heq⟩ | ⟨np, hf, ⟨hm, heq⟩ | ⟨hm, heq⟩⟩
  · simp only [fork, heq]
    exact .of_ok ⟨_, rfl⟩ (by simp [grows, created, hf])
  · subst hm
    cases copied with
    | true =>
      have hgrows : grows k (.fork true true) = some (clamp 0) := by simp [grows, created, hc, hf]
      simp only [fork, heq, if_true]
      refine FaultIff.of_push (L := L) ?_ (by simp [hgrows, clamp])
      exact h.rows
    | false =>
      simp only [fork, heq, Bool.false_eq_true, if_false]
      exact .of_ok ⟨_, rfl⟩ (by simp [grows, created])
  · subst hm
    simp only [fork, heq]
    exact .of_ok ⟨_, rfl⟩ (by simp [grows, created])

lemma kill_fault (h : Wf k L) (hc : k.cpu ≠ none) (pid : ℤ) :
    FaultIff (kill k pid) (∃ c, grows k (.kill pid) = some c ∧ (L c).length = NPROC) := by
  rcases hf : findPid k.proc pid with _ | p
  · simp only [kill, hf]
    exact .of_ok ⟨_, rfl⟩ (by simp [grows, victim, hf])
  by_cases hs : (k.proc p).state = .sleeping
  · have hgrows : grows k (.kill pid) = some (clamp 0) := by simp [grows, victim, hf, hs, hc]
    simp only [kill, hf, hs, if_true]
    refine FaultIff.of_push (L := L) ?_ (by simp [hgrows, clamp])
    exact h.rows
  · simp only [kill, hf, if_neg hs]
    exact .of_ok ⟨_, rfl⟩ (by simp [grows, victim, hf, hs])

/-- A demotion after the clock tick of a trap. -/
lemma trap_fault (h : Tally tr k L) (hd : Drifted true k k₁) (hc : k.cpu = some p)
    (hm : demoted k a = some p) :
    FaultIff (demote k₁ p) (∃ c, ((demoted k a).bind fun p => if (level k p : ℕ) = 4 then none
      else some (clamp ((k.proc p).currQ + 1))) = some c ∧ (L c).length = NPROC) := by
  have hq : (k₁.proc p).currQ = (k.proc p).currQ := (hd.drift p).currQ
  have hlevel : level k₁ p = level k p := by rw [level, level, hq]
  have hrun : (k.proc p).state.Live := .inr (.inl ((h.wf.running p).2 hc))
  obtain ⟨hnull, hout⟩ := demote_fault (h.wf.drift hd) (hlevel ▸ h.mem p hrun)
  refine ⟨hnull, hout.trans ?_⟩
  rw [hlevel, hq, hm, Option.bind_some]
  by_cases h4 : (level k p : ℕ) = 4
  · simp [h4]
  · simp [h4]

/-- A step never uses a null entry, and it leaves a row exactly when it puts an entry into
a full row. -/
lemma step_fault (h : Tally tr k L) (a : Action) :
    FaultIff (step k a) (∃ c, grows k a = some c ∧ (L c).length = NPROC) := by
  cases a with
  | userinit =>
    simp only [step]
    split_ifs with hi
    · obtain ⟨hunused, hempty⟩ := h.wf.fresh hi
      have hrows : Rows (fun _ _ => none) k.qIndex L := by
        refine ⟨fun q => ?_, h.wf.rows.index⟩
        rw [hempty q]
        exact .empty
      rcases allocproc_cases k.proc k.nextpid k.ticks true with
        ⟨hf, -⟩ | ⟨p, -, ⟨-, heq⟩ | ⟨hm, -⟩⟩
      · exact absurd (hunused 0) (freeSlot_eq_none hf 0)
      · simp only [userinit, heq]
        refine FaultIff.of_push (L := L) ?_ (by simp [grows, hi, clamp])
        exact hrows
      · cases hm
    · exact .of_disabled rfl (by simp [grows, hi])
  | fork mem copied =>
    rcases hc : k.cpu with _ | p
    · exact .of_disabled (by simp [step, running, hc]) (by simp [grows, hc])
    · simp only [step, running, hc]
      exact fork_fault h.wf hc mem copied
  | kill pid =>
    rcases hc : k.cpu with _ | p
    · exact .of_disabled (by simp [step, running, hc]) (by simp [grows, hc])
    · simp only [step, running, hc]
      exact kill_fault h.wf (by simp [hc]) pid
  | exit status =>
    simp only [step, running, exit]
    split
    · exact .of_disabled rfl (by simp [grows, demoted])
    split_ifs
    · exact ⟨by simp, by simp [grows, demoted]⟩
    · exact .of_ok ⟨_, rfl⟩ (by simp [grows, demoted])
  | usertrap =>
    rcases hc : k.cpu with _ | p
    · exact .of_disabled (by simp [step, running, hc]) (by simp [grows, demoted, hc])
    have hkilled : ((clockintr k).proc p).killed = (k.proc p).killed := by
      simp [clockintr, wakeup_killed, updateVals]
    simp only [step, running, hc, usertrap, hkilled]
    split_ifs with hk
    · have hnone : demoted k .usertrap = none := by simp [demoted, hc, hk]
      simp only [exit]
      split_ifs
      · exact ⟨by simp, by simp [grows, hnone]⟩
      · exact .of_ok ⟨_, rfl⟩ (by simp [grows, hnone])
    · exact trap_fault h (drifted_clockintr k) hc (by simpa [demoted, hc] using hk)
  | kerneltrap =>
    have hd := drifted_clockintr k
    rcases hc : k.cpu with _ | p
    · have hc1 : (clockintr k).cpu = none := hc
      simp only [step, kerneltrap, hc1]
      exact .of_ok ⟨_, rfl⟩ (by simp [grows, demoted, hc])
    rw [step, kerneltrap_eq h.wf hc]
    split_ifs with hq
    · exact trap_fault h hd hc (by simpa [demoted, hc] using hq)
    · have hnone : demoted k .kerneltrap = none := by simpa [demoted, hc] using hq
      exact .of_ok ⟨_, rfl⟩ (by simp [grows, hnone])
  | scheduler =>
    simp only [step]
    split_ifs with hc
    · obtain ⟨k', hx, -⟩ := looks_of_scheduler h.wf hc
      exact .of_ok ⟨k', hx⟩ (by simp [grows, demoted])
    · exact .of_disabled rfl (by simp [grows, demoted])
  | wakeup chan => exact .of_ok ⟨_, rfl⟩ (by simp [grows, demoted])
  | _ =>
    simp only [step, running]
    split
    · exact .of_disabled rfl (by simp [grows, demoted])
    · exact .of_ok ⟨_, rfl⟩ (by simp [grows, demoted])

/-! ### Runs -/

lemma Rows.inBounds (h : Rows k.queues k.qIndex L) : InBounds k := by
  have hsigned : ∀ q, signed (k.qIndex q) = (L q).length - 1 := by
    intro q
    have hle := h.length_le q
    rw [h.index q, signed, u64]
    simp only [NPROC] at hle
    split_ifs
    · omega
    · omega
  refine ⟨fun q => ?_, fun q i hi => ?_⟩
  · have hle := h.length_le q
    rw [hsigned]
    omega
  · rw [hsigned] at hi
    exact ⟨_, h.entry_eq (by omega)⟩

/-- For every sequence of actions in which a process that is demoted does not share its
pid: the queues stay within their rows, and no entry in use is null, if and only if,
whenever a queue gets an entry more, less than `NPROC` processes are live in it or have
left an entry behind in it. -/
theorem inBounds_iff_room (as : List Action) (hpid : ∀ x ∈ traceList step boot as, OwnPid x.1 x.2) :
    StaysInBounds as ↔ ∀ tr₁ k a tr₂, traceList step boot as = tr₁ ++ (k, a) :: tr₂ →
      Room tr₁ k a := by
  have hfault : ∀ tr₁ k a tr₂, traceList step boot as = tr₁ ++ (k, a) :: tr₂ →
      FaultIff (step k a) (¬ Room tr₁ k a) := by
    intro tr₁ k a tr₂ htr
    obtain ⟨L, hL⟩ := tally_of_run (.of_traceList htr) (fun x hx => hpid x (by rw [htr]; simp [hx]))
    have hiff : (∃ c, grows k a = some c ∧ (L c).length = NPROC) ↔ ¬ Room tr₁ k a := by
      simp only [Room, not_forall, Nat.not_lt, exists_prop]
      refine exists_congr fun c => and_congr_right fun _ => ?_
      have hle := hL.wf.rows.length_le c
      rw [← hL.count c]
      omega
    obtain ⟨hnull, hout⟩ := step_fault hL a
    exact ⟨hnull, hout.trans hiff⟩
  constructor
  · rintro ⟨-, -, hout, -⟩ tr₁ k a tr₂ htr
    by_contra hroom
    exact hout (runList_eq_error_iff.2 ⟨tr₁, k, a, tr₂, htr, (hfault _ _ _ _ htr).out.2 hroom⟩)
  intro hroom
  refine ⟨fun x hx => ?_, fun k hk => ?_, fun hout => ?_, fun hnull => ?_⟩
  · obtain ⟨tr₁, tr₂, htr⟩ := List.append_of_mem hx
    obtain ⟨L, hL⟩ := (wf_of_run (.of_traceList htr)).2
    exact hL.rows.inBounds
  · obtain ⟨L, hL⟩ := (wf_of_run (.of_runList hk)).2
    exact hL.rows.inBounds
  · obtain ⟨tr₁, k, a, tr₂, htr, hx⟩ := runList_eq_error_iff.1 hout
    exact (hfault _ _ _ _ htr).out.1 hx (hroom _ _ _ _ htr)
  · obtain ⟨tr₁, k, a, tr₂, htr, hx⟩ := runList_eq_error_iff.1 hnull
    exact (hfault _ _ _ _ htr).null hx

/-- The theorem at a run in which `init` starts, forks and is demoted. -/
theorem inBounds_iff_room_fork :
    (∀ x ∈ traceList step boot [.userinit, .scheduler, .fork true true, .usertrap],
      OwnPid x.1 x.2) ∧
    (StaysInBounds [.userinit, .scheduler, .fork true true, .usertrap] ↔
      ∀ tr₁ k a tr₂, traceList step boot [.userinit, .scheduler, .fork true true, .usertrap]
        = tr₁ ++ (k, a) :: tr₂ → Room tr₁ k a) := by
  have hpid : ∀ x ∈ traceList step boot [.userinit, .scheduler, .fork true true, .usertrap],
      OwnPid x.1 x.2 := by decide +kernel
  exact ⟨hpid, inBounds_iff_room _ hpid⟩

/-- With all slots in use, a child that kills its sleeping parent makes `push` write
behind the row of queue 0. -/
theorem not_staysInBounds_of_kill : ¬ ∀ as, StaysInBounds as := by
  intro hall
  have hout := eq_error_of_failsWith (show failsWith (runList step boot
    ([.userinit, .scheduler] ++ List.replicate 63 (.fork true true) ++
      [.sleep .ticks, .scheduler, .kill 1])) .outOfRow = true by decide +kernel)
  exact (hall _).2.2.1 hout

end Hexv6.Sched
