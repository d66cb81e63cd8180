import Hexv6.Lib.Champion
import Hexv6.Sched.Proc

/-!
# The choice of the priority scheduler

The loop of `scheduler` in the PBS build over the process table.  A process is to be preferred
if its priority number is lower, among equal ones if it has run less often, and among those if it
was created earlier.  The test of the loop compares creation times also when the processes have
run differently often, so that it is not an order: the outcome can depend on the slots, and a
process that has run more often can be preferred (`not_selects_of_older`).  The choice is right
exactly if the process that has run least often, among those with the lowest priority number, is
also the oldest of them (`selects_iff_agreeing`).
-/

namespace Hexv6.Sched

open Lib

/-- The test with which the loop replaces `temp` by `p`. -/
def pbsBeats (t : ProcTable) (p temp : Slot) : Bool :=
  (t temp).priority > (t p).priority ∨
    (t temp).priority = (t p).priority ∧ (t temp).nrun > (t p).nrun ∨
    (t temp).priority = (t p).priority ∧ (t temp).ctime > (t p).ctime

/-- The loop of `scheduler` in the PBS build: the value of `temp` after it. -/
def pbsScan (t : ProcTable) : Option Slot :=
  slots.foldl (fun temp p =>
    if (t p).state = .runnable then challenge (pbsBeats t) temp p else temp) none

/-- What the processes are ordered by. -/
def Proc.key (p : Proc) : ℤ ×ₗ ℤ ×ₗ ℕ := toLex (p.priority, toLex (p.nrun, p.ctime))

/-- The process chosen is RUNNABLE and comes first, and its key does not depend on the order of
the slots. -/
structure Selects (t : ProcTable) : Prop where
  chosen : (∃ p, (t p).state = .runnable) → pbsScan t ≠ none
  runnable : ∀ p, pbsScan t = some p → (t p).state = .runnable
  first : ∀ p, pbsScan t = some p → ∀ q, (t q).state = .runnable → (t p).key ≤ (t q).key
  order : ∀ σ : Equiv.Perm Slot,
    (pbsScan (t ∘ σ)).map (fun p => (t (σ p)).key) = (pbsScan t).map fun p => (t p).key

/-- If a process is RUNNABLE, there is one with the lowest priority number that has both run least
often and been created first among the RUNNABLE processes with that number. -/
def Agreeing (t : ProcTable) : Prop :=
  (∃ p, (t p).state = .runnable) → ∃ m, (t m).state = .runnable ∧
    ∀ q, (t q).state = .runnable → (t m).priority < (t q).priority ∨
      (t m).priority = (t q).priority ∧ (t m).nrun ≤ (t q).nrun ∧ (t m).ctime ≤ (t q).ctime

/-! ### The scan -/

/-- The slots that the scan compares. -/
def runnables (t : ProcTable) : List Slot := slots.filter fun p => (t p).state = .runnable

variable {t : ProcTable} {p : Slot}

@[simp] lemma mem_runnables :
    p ∈ runnables t ↔ (t p).state = .runnable := by
  simp [runnables]

lemma pbsScan_eq (t : ProcTable) : pbsScan t = champion (pbsBeats t) (runnables t) := by
  rw [champion, runnables, List.foldl_filter, pbsScan]
  simp only [decide_eq_true_eq]

lemma pbsScan_runnable (h : pbsScan t = some p) :
    (t p).state = .runnable := by
  rw [pbsScan_eq] at h
  exact mem_runnables.1 (mem_of_champion h)

lemma pbsScan_ne_none (hp : (t p).state = .runnable) :
    pbsScan t ≠ none := by
  rw [pbsScan_eq, Ne, champion_eq_none_iff]
  exact List.ne_nil_of_mem (mem_runnables.2 hp)

/-- The slot that the scan sees last takes the place of every slot it beats. -/
lemma pbsScan_last {z r : Slot} (hz : slots.getLast? = some z)
    (hrun : (t z).state = .runnable) (h : pbsScan t = some r) :
    r = z ∨ pbsBeats t z r = false := by
  obtain ⟨l, hl⟩ := List.getLast?_eq_some_iff.1 hz
  have hfilter : runnables t = l.filter (fun p => (t p).state = .runnable) ++ [z] := by
    rw [runnables, hl, List.filter_append]
    simp [hrun]
  rw [pbsScan_eq, hfilter, champion_concat, challenge] at h
  split_ifs at h with hb
  · exact .inl (Option.some.inj h).symm
  right
  rw [h] at hb
  simpa using hb

/-! ### The order of the keys -/

lemma Proc.key_le_iff {p q : Proc} : p.key ≤ q.key ↔ p.priority < q.priority ∨
    p.priority = q.priority ∧ (p.nrun < q.nrun ∨ p.nrun = q.nrun ∧ p.ctime ≤ q.ctime) := by
  rw [Proc.key, Proc.key, Prod.Lex.toLex_le_toLex, Prod.Lex.toLex_le_toLex]

lemma Proc.key_eq_iff {p q : Proc} : p.key = q.key ↔
    p.priority = q.priority ∧ p.nrun = q.nrun ∧ p.ctime = q.ctime := by
  simp [Proc.key]

/-- The processes with the key of one that is best in all respects are on top. -/
lemma onTop_of_le {m : Slot}
    (h : ∀ q, (t q).state = .runnable → (t m).priority < (t q).priority ∨
      (t m).priority = (t q).priority ∧ (t m).nrun ≤ (t q).nrun ∧ (t m).ctime ≤ (t q).ctime) :
    OnTop (pbsBeats t) (fun p => (t p).key) (t m).key (runnables t) := by
  intro x _ hx y hy hxy
  obtain ⟨h1, h2, h3⟩ := Proc.key_eq_iff.1 hx
  rw [Ne, Proc.key_eq_iff] at hxy
  have hle := h y (mem_runnables.1 hy)
  simp only [pbsBeats, decide_eq_true_eq, decide_eq_false_iff_not]
  constructor <;> omega

lemma Agreeing.comp (h : Agreeing t) (σ : Equiv.Perm Slot) : Agreeing (t ∘ σ) := by
  rintro ⟨p, hp⟩
  obtain ⟨m, hm, hle⟩ := h ⟨σ p, hp⟩
  refine ⟨σ.symm m, by simpa using hm, fun q hq => ?_⟩
  simpa using hle (σ q) hq

/-- If the measures agree, the scan finds the best process. -/
lemma Agreeing.scan (h : Agreeing t) :
    (∀ p, (t p).state ≠ .runnable) ∧ pbsScan t = none ∨
      ∃ r, pbsScan t = some r ∧ (t r).state = .runnable ∧
        ∀ q, (t q).state = .runnable → (t r).key ≤ (t q).key := by
  by_cases hex : ∃ p, (t p).state = .runnable
  · obtain ⟨m, hm, hle⟩ := h hex
    obtain ⟨r, hr, hkey⟩ := champion_of_onTop (onTop_of_le hle) (mem_runnables.2 hm)
    rw [← pbsScan_eq] at hr
    refine .inr ⟨r, hr, pbsScan_runnable hr, fun q hq => ?_⟩
    rw [hkey, Proc.key_le_iff]
    have := hle q hq
    omega
  refine .inl ⟨fun p hp => hex ⟨p, hp⟩, ?_⟩
  rw [pbsScan_eq, champion_eq_none_iff, List.eq_nil_iff_forall_not_mem]
  exact fun p hp => hex ⟨p, mem_runnables.1 hp⟩

/-! ### When the choice is right -/

lemma Agreeing.selects (h : Agreeing t) : Selects t where
  chosen := fun ⟨_, hp⟩ => pbsScan_ne_none hp
  runnable _ hp := pbsScan_runnable hp
  first p hp := by
    rcases h.scan with ⟨-, hnone⟩ | ⟨r, hr, -, hfirst⟩
    · simp [hnone] at hp
    · obtain rfl := Option.mem_unique hr hp
      exact hfirst
  order σ := by
    rcases h.scan with ⟨hno, hnone⟩ | ⟨r, hr, hrun, hfirst⟩
    · rcases (h.comp σ).scan with ⟨-, hnone'⟩ | ⟨r', -, hrun', -⟩
      · rw [hnone, hnone']
        rfl
      · exact absurd hrun' (hno _)
    rcases (h.comp σ).scan with ⟨hno', -⟩ | ⟨r', hr', hrun', hfirst'⟩
    · exact absurd (by simpa using hrun) (hno' (σ.symm r))
    -- both are first among the same processes
    rw [hr, hr', Option.map_some, Option.map_some, Option.some.injEq]
    refine le_antisymm ?_ (hfirst _ hrun')
    simpa using hfirst' (σ.symm r) (by simpa using hrun)

lemma Selects.agreeing (h : Selects t) : Agreeing t := by
  intro hex
  obtain ⟨p, hp⟩ := Option.ne_none_iff_exists'.1 (h.chosen hex)
  refine ⟨p, h.runnable p hp, fun q hq => ?_⟩
  have hle := Proc.key_le_iff.1 (h.first p hp q hq)
  by_contra hnot
  -- `q` is older than `p` but has run more often: put it into the last slot
  obtain ⟨z, hz⟩ : ∃ z, slots.getLast? = some z :=
    ⟨_, List.getLast?_eq_some_getLast (List.ne_nil_of_mem (mem_slots 0))⟩
  obtain ⟨r, hr⟩ := Option.ne_none_iff_exists'.1
    (pbsScan_ne_none (t := t ∘ Equiv.swap q z) (p := z) (by simpa using hq))
  have hkey := h.order (Equiv.swap q z)
  rw [hr, hp, Option.map_some, Option.map_some, Option.some.injEq, Proc.key_eq_iff] at hkey
  rcases pbsScan_last hz (by simpa using hq) hr with rfl | hb
  · rw [Equiv.swap_apply_right] at hkey
    omega
  · simp only [pbsBeats, Function.comp_apply, Equiv.swap_apply_right, decide_eq_false_iff_not] at hb
    omega

/-- The scan chooses rightly exactly if the measures agree. -/
theorem selects_iff_agreeing (t : ProcTable) : Selects t ↔ Agreeing t :=
  ⟨Selects.agreeing, Agreeing.selects⟩

/-- Two RUNNABLE processes with the same priority: the one in slot 1 is older, and has run. -/
def olderTable : ProcTable :=
  Function.update (Function.update (fun _ => {}) 0
    { state := .runnable, priority := 60, nrun := 0, ctime := 2 }) 1
    { state := .runnable, priority := 60, nrun := 1, ctime := 1 }

/-- The scan chooses the one that has run. -/
theorem not_selects_of_older : ¬ ∀ t : ProcTable, Selects t := by
  intro h
  have hfirst := (h olderTable).first 1 (by decide +kernel) 0 (by decide)
  rw [Proc.key_le_iff] at hfirst
  revert hfirst
  decide

end Hexv6.Sched
