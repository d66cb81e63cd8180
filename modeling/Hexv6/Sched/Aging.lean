import Hexv6.Sched.Effect

/-!
# The aging pass

The loops of the MLFQ scheduler that move processes which have waited too long to the queue
above.  `pop` shifts the later entries of the queue down by one, but the index of the loop goes on,
so the entry after one that is moved is not looked at: of two neighbours that are both overdue the
second stays where it is (`not_agesRight_of_neighbours`).  The pass does what it is for exactly if
no two neighbours are overdue (`agesRight_iff_apart`).

`AgeLoop` and `AgePass` are the loops without a bound on the number of their turns; that they are
related to a state means that the pass ends.
-/

namespace Hexv6.Sched.Aging

open Lib List Function

/-- The test of the pass. -/
def overdue (k : Kernel) (p : Slot) : Bool := (k.proc p).atime > ageLimit

/-- `max(i-1, 0)`. -/
def up (i : Fin 5) : Fin 5 := clamp ((i : ℕ) - 1 : ℤ)

/-- The inner loop over queue `i`, from position `j` on. -/
inductive AgeLoop (i : Fin 5) : Kernel → ℕ → Kernel → Prop
  | done {k : Kernel} {j : ℕ} (h : ¬ j < rowLen k i) : AgeLoop i k j k
  | keep {k k' : Kernel} {j : ℕ} {p : Slot} (h : j < rowLen k i) (hp : entry k i j = .ok p)
      (hage : overdue k p = false) (hrest : AgeLoop i k (j + 1) k') : AgeLoop i k j k'
  | move {k k₁ k₂ k' : Kernel} {j : ℕ} {p : Slot} (h : j < rowLen k i) (hp : entry k i j = .ok p)
      (hage : overdue k p = true) (hpop : pop k p = .ok k₁)
      (hpush : push k₁ p ((i : ℕ) - 1 : ℤ) = .ok k₂) (hrest : AgeLoop i k₂ (j + 1) k') :
      AgeLoop i k j k'

/-- The outer loop over the queues `is`. -/
inductive AgePass : List (Fin 5) → Kernel → Kernel → Prop
  | nil (k : Kernel) : AgePass [] k k
  | cons {i : Fin 5} {is : List (Fin 5)} {k k₁ k' : Kernel} (h : AgeLoop i k 0 k₁)
      (hrest : AgePass is k₁ k') : AgePass (i :: is) k k'

/-! ### The passes over one list -/

section Sweep

variable {α : Type*} (f : α → Bool)

/-- What the pass over one queue leaves in it and what it moves, in order: an entry that is moved
hides the next one. -/
def sweep : List α → List α × List α
  | [] => ([], [])
  | [p] => if f p then ([], [p]) else ([p], [])
  | p :: q :: l =>
    if f p then (q :: (sweep l).1, p :: (sweep l).2)
    else (p :: (sweep (q :: l)).1, (sweep (q :: l)).2)

/-- No two neighbours satisfy `f`. -/
def Apart (l : List α) : Prop := l.IsChain fun x y => ¬ (f x = true ∧ f y = true)

variable {f} {l : List α} {p q : α}

lemma sweep_of_true (hp : f p = true) :
    sweep f (p :: q :: l) = (q :: (sweep f l).1, p :: (sweep f l).2) := by
  rw [sweep, if_pos hp]

lemma sweep_of_false (hp : ¬ f p = true) :
    sweep f (p :: q :: l) = (p :: (sweep f (q :: l)).1, (sweep f (q :: l)).2) := by
  rw [sweep, if_neg hp]

lemma count_sweep [DecidableEq α] (a : α) :
    (sweep f l).1.count a + (sweep f l).2.count a = l.count a := by
  induction l using sweep.induct f with
  | case1 => rfl
  | case2 p hp => simp [sweep, hp]
  | case3 p hp => simp [sweep, hp]
  | case4 p q l hp ih =>
    simp only [sweep_of_true hp, count_cons]
    omega
  | case5 p q l hp ih =>
    simp only [sweep_of_false hp, count_cons] at ih ⊢
    omega

lemma of_mem_moved (h : p ∈ (sweep f l).2) : f p = true := by
  induction l using sweep.induct f with
  | case1 => cases h
  | case2 q hq =>
    obtain rfl : p = q := by simpa [sweep, hq] using h
    exact hq
  | case3 q hq => simp [sweep, hq] at h
  | case4 q r l hq ih =>
    rw [sweep_of_true hq] at h
    rcases mem_cons.1 h with rfl | h
    · exact hq
    · exact ih h
  | case5 q r l hq ih =>
    rw [sweep_of_false hq] at h
    exact ih h

/-- The others keep their order. -/
lemma filter_kept : (sweep f l).1.filter (fun p => !f p) = l.filter fun p => !f p := by
  induction l using sweep.induct f with
  | case1 => rfl
  | case2 p hp => simp [sweep, hp]
  | case3 p hp => simp [sweep, hp]
  | case4 p q l hp ih => simp [sweep, hp, filter_cons, ih]
  | case5 p q l hp ih =>
    simp only [sweep_of_false hp]
    rw [filter_cons_of_pos (by simpa using hp), ih]
    exact (filter_cons_of_pos (by simpa using hp)).symm

/-- Nothing that satisfies `f` is left exactly if no two neighbours satisfy it. -/
lemma kept_iff_apart : (∀ p ∈ (sweep f l).1, f p = false) ↔ Apart f l := by
  induction l using sweep.induct f with
  | case1 => simp [sweep, Apart]
  | case2 p hp => simp [sweep, hp, Apart]
  | case3 p hp => simp [sweep, hp, Apart]
  | case4 p q l hp ih =>
    simp only [sweep_of_true hp, forall_mem_cons]
    rw [ih, Apart, Apart, isChain_cons_cons]
    constructor
    · rintro ⟨hq, hl⟩
      refine ⟨by simp [hq], ?_⟩
      cases l with
      | nil => exact .singleton q
      | cons r l => exact .cons_cons (by simp [hq]) hl
    · rintro ⟨hpq, hql⟩
      exact ⟨by simpa [hp] using hpq, hql.tail⟩
  | case5 p q l hp ih =>
    simp only [sweep_of_false hp, forall_mem_cons]
    rw [ih, Apart, Apart, isChain_cons_cons]
    simp [hp]

lemma mem_sweep : p ∈ l ↔ p ∈ (sweep f l).1 ∨ p ∈ (sweep f l).2 := by
  classical
  rw [← count_pos_iff, ← count_pos_iff, ← count_pos_iff, ← count_sweep (f := f)]
  omega

lemma sweep_congr {g : α → Bool} (h : ∀ p ∈ l, f p = g p) : sweep f l = sweep g l := by
  induction l using sweep.induct f with
  | case1 => rfl
  | case2 p hp | case3 p hp => simp [sweep, ← h p (by simp)]
  | case4 p q l hp ih =>
    rw [sweep, sweep, h p (by simp), ih fun r hr => h r (by simp [hr])]
    simp [← h p (by simp), hp]
  | case5 p q l hp ih =>
    rw [sweep, sweep, h p (by simp), ih fun r hr => h r (mem_cons_of_mem _ hr)]
    simp [← h p (by simp), hp]

end Sweep

/-! ### One process is moved -/

/-- Queues whose processes are in one place each, have different pids, and know their queue. -/
structure Orderly (k : Kernel) (L : Fin 5 → List Slot) : Prop where
  rows : Rows k.queues k.qIndex L
  pids : ∀ i j p q, p ∈ L i → q ∈ L j → (k.proc p).pid = (k.proc q).pid → p = q
  once : ∀ p, ∑ i, (L i).count p ≤ 1
  home : ∀ i p, p ∈ L i → (k.proc p).currQ = (i : ℕ)

/-- The lists after queue `i` has become `l` and `moved` has been appended to queue `up i`. -/
def moveUp (L : Fin 5 → List Slot) (i : Fin 5) (l moved : List Slot) : Fin 5 → List Slot := fun j =>
  (if j = i then l else L j) ++ if j = up i then moved else []

variable {k : Kernel} {L : Fin 5 → List Slot} {i : Fin 5} {p : Slot} {l l₁ l₂ moved : List Slot}
  {ds is : List (Fin 5)} {j : Fin 5} {k₂ : Kernel} {k₁ : Kernel}

lemma Orderly.count_le (h : Orderly k L) (i : Fin 5) (p : Slot) : (L i).count p ≤ 1 :=
  (Finset.single_le_sum (f := fun i => (L i).count p) (fun _ _ => Nat.zero_le _)
    (Finset.mem_univ i)).trans (h.once p)

/-- Queue `i` is emptied of one process. -/
lemma sum_count_update (L : Fin 5 → List Slot) (i : Fin 5) (l : List Slot) (p : Slot) :
    ∑ j, (update L i l j).count p + (L i).count p = ∑ j, (L j).count p + l.count p := by
  rw [← Finset.add_sum_erase _ _ (Finset.mem_univ i), ← Finset.add_sum_erase
    (f := fun j => (L j).count p) _ (Finset.mem_univ i), update_self]
  have hoff : ∑ j ∈ Finset.univ.erase i, (update L i l j).count p =
      ∑ j ∈ Finset.univ.erase i, (L j).count p := by
    refine Finset.sum_congr rfl fun j hj => ?_
    rw [update_of_ne (Finset.ne_of_mem_erase hj)]
  rw [hoff]
  omega

lemma moveUp_eq (L : Fin 5 → List Slot) (i : Fin 5) (l moved : List Slot) :
    moveUp L i l moved = update (update L i l) (up i) (update L i l (up i) ++ moved) := by
  ext1 j
  simp only [moveUp, update_apply]
  by_cases hj : j = up i
  · subst hj
    simp
  · simp [hj]

lemma sum_count_moveUp (L : Fin 5 → List Slot) (i : Fin 5) (l moved : List Slot) (p : Slot) :
    ∑ j, (moveUp L i l moved j).count p + (L i).count p =
      ∑ j, (L j).count p + l.count p + moved.count p := by
  have h1 := sum_count_update L i l p
  have h2 := sum_count_update (update L i l) (up i) (update L i l (up i) ++ moved) p
  rw [← moveUp_eq, count_append] at h2
  omega

lemma mem_moveUp (h : p ∈ moveUp L i l moved j) :
    j = i ∧ p ∈ l ∨ j ≠ i ∧ p ∈ L j ∨ j = up i ∧ p ∈ moved := by
  rcases mem_append.1 h with h | h
  · split_ifs at h with hj
    · exact .inl ⟨hj, h⟩
    · exact .inr (.inl ⟨hj, h⟩)
  split_ifs at h with hj
  · exact .inr (.inr ⟨hj, h⟩)
  · cases h

/-- `pop` and `push` move one process. -/
lemma Orderly.move (h : Orderly k L) (hL : L i = l₁ ++ p :: l₂) :
    ∃ k₁ k₂, pop k p = .ok k₁ ∧ push k₁ p ((i : ℕ) - 1 : ℤ) = .ok k₂ ∧
      Orderly k₂ (moveUp L i (l₁ ++ l₂) [p]) ∧
      k₂.proc = update k.proc p ((k.proc p).enter (up i)) := by
  have hp : p ∈ L i := by simp [hL]
  have hclamp : clamp (k.proc p).currQ = i := by
    rw [h.home i p hp]
    exact clamp_coe i
  have hcount := h.count_le i p
  rw [hL, count_append, count_cons_self] at hcount
  have hnot : p ∉ l₁ ++ l₂ := by
    rw [← count_eq_zero, count_append]
    omega
  -- no other entry has the pid
  have herase : eraseLast (samePid k.proc p) (L i) = l₁ ++ l₂ := by
    rw [hL]
    refine eraseLast_append_cons (by simp [samePid]) fun q hq => ?_
    simp only [samePid, decide_eq_false_iff_not]
    intro hpid
    have hpq := h.pids i i p q hp (by simp [hL, hq]) hpid
    exact hnot (by simp [hpq, hq])
  obtain ⟨qs, is, hpop, hrows⟩ := pop_spec h.rows p
  rw [hclamp, herase] at hrows
  have hzero : ∑ j, (update L i (l₁ ++ l₂) j).count p = 0 := by
    have h1 := sum_count_update L i (l₁ ++ l₂) p
    have h2 := h.once p
    have h3 : 0 < (L i).count p := count_pos_iff.2 hp
    rw [count_eq_zero.2 hnot] at h1
    omega
  -- the row of the queue above has room
  have hroom : (update L i (l₁ ++ l₂) (up i)).length < NPROC := by
    have hno : p ∉ update L i (l₁ ++ l₂) (up i) := by
      rw [← count_eq_zero]
      exact Finset.sum_eq_zero_iff.1 hzero (up i) (Finset.mem_univ _)
    have hnodup : (p :: update L i (l₁ ++ l₂) (up i)).Nodup := by
      refine nodup_cons.2 ⟨hno, nodup_iff_count_le_one.2 fun q => ?_⟩
      rw [update_apply]
      split_ifs
      · have := h.count_le i q
        rw [hL, count_append, count_cons] at this
        rw [count_append]
        omega
      · exact h.count_le _ q
    have hle := hnodup.length_le_card
    rw [length_cons, Fintype.card_fin] at hle
    omega
  obtain ⟨qs', is', hpush, hrows'⟩ := push_spec (k := { k with queues := qs, qIndex := is })
    hrows p ((i : ℕ) - 1 : ℤ) hroom
  have hpid : ∀ q, (update k.proc p ((k.proc p).enter (up i)) q).pid = (k.proc q).pid := by
    intro q
    rcases eq_or_ne q p with rfl | hq
    · rw [update_self, Proc.enter]
    · rw [update_of_ne hq]
  have hsub : ∀ q ∈ l₁ ++ l₂, q ∈ L i := by
    intro q hq
    rw [hL, mem_append, mem_cons]
    rcases mem_append.1 hq with hq | hq
    · exact .inl hq
    · exact .inr (.inr hq)
  have hmem : ∀ j q, q ∈ moveUp L i (l₁ ++ l₂) [p] j → ∃ j', q ∈ L j' := by
    intro j q hq
    rcases mem_moveUp hq with ⟨-, hq⟩ | ⟨-, hq⟩ | ⟨-, hq⟩
    · exact ⟨i, hsub q hq⟩
    · exact ⟨j, hq⟩
    · exact ⟨i, by rwa [mem_singleton.1 hq]⟩
  refine ⟨_, _, hpop, hpush, ⟨?_, fun j j' q q' hq hq' heq => ?_, fun q => ?_, fun j q hq => ?_⟩,
    rfl⟩
  · rw [moveUp_eq]
    exact hrows'
  · obtain ⟨m, hm⟩ := hmem j q hq
    obtain ⟨m', hm'⟩ := hmem j' q' hq'
    exact h.pids m m' q q' hm hm' ((hpid q).symm.trans (heq.trans (hpid q')))
  · have hsum := sum_count_moveUp L i (l₁ ++ l₂) [p] q
    have hone := h.once q
    simp only [hL, count_append, count_cons, count_nil] at hsum
    omega
  · show ((update k.proc p ((k.proc p).enter (up i)) q).currQ : ℤ) = (j : ℕ)
    rcases mem_moveUp hq with ⟨rfl, hin⟩ | ⟨hj, hin⟩ | ⟨rfl, hin⟩
    · have hne : q ≠ p := by
        rintro rfl
        exact hnot hin
      rw [update_of_ne hne]
      exact h.home j q (hsub q hin)
    · have hne : q ≠ p := by
        rintro rfl
        have hoff := Finset.sum_eq_zero_iff.1 hzero j (Finset.mem_univ _)
        rw [update_of_ne hj, count_eq_zero] at hoff
        exact hoff hin
      rw [update_of_ne hne]
      exact h.home j q hin
    · rw [mem_singleton.1 hin, update_self, Proc.enter]

/-! ### The loop over one queue -/

/-- The loop passes over entries that are not overdue. -/
lemma Orderly.ageRow_skip (h : Orderly k L) {j : ℕ} (fuel : ℕ)
    (hfuel : ((L i).drop j).length < fuel)
    (hno : ∀ p ∈ (L i).drop j, overdue k p = false) :
    ageRow fuel k i j = .ok k ∧ AgeLoop i k j k := by
  induction fuel generalizing j with
  | zero => omega
  | succ fuel ih =>
    rw [ageRow, h.rows.rowLen_eq]
    split_ifs with hj
    · have hentry := h.rows.entry_eq hj
      rw [drop_eq_getElem_cons hj] at hfuel hno
      have hage := hno _ mem_cons_self
      obtain ⟨hrow, hloop⟩ := ih (Nat.lt_of_succ_lt_succ hfuel) fun p hp =>
        hno p (mem_cons_of_mem _ hp)
      refine ⟨?_, .keep (by rwa [h.rows.rowLen_eq]) hentry hage hloop⟩
      rw [hentry, ok_bind, if_neg (by simpa [overdue] using hage), hrow]
    · exact ⟨rfl, .done (by rwa [h.rows.rowLen_eq])⟩

/-- The processes that have been moved start again in the queue above. -/
def movedProcs (t : ProcTable) (i : Fin 5) (moved : List Slot) : ProcTable := fun p =>
  if p ∈ moved then (t p).enter (up i) else t p

@[simp] lemma movedProcs_nil (t : ProcTable) (i : Fin 5) : movedProcs t i [] = t := by
  ext1 p
  simp [movedProcs]

lemma movedProcs_cons (t : ProcTable) (i : Fin 5) (p : Slot) {moved : List Slot} (hp : p ∉ moved) :
    movedProcs (update t p ((t p).enter (up i))) i moved = movedProcs t i (p :: moved) := by
  ext1 q
  rcases eq_or_ne q p with rfl | hq
  · simp [movedProcs, hp]
  · simp [movedProcs, hq]

/-- What stays behind the entries still to be looked at, after `p` has been moved. -/
def behind (i : Fin 5) (tail : List Slot) (p : Slot) : List Slot :=
  tail ++ if i = up i then [p] else []

lemma moveUp_self (L : Fin 5 → List Slot) (i : Fin 5) (l₁ l₂ : List Slot) (p : Slot) :
    moveUp L i (l₁ ++ l₂) [p] i = l₁ ++ behind i l₂ p := by
  simp [moveUp, behind]

lemma moveUp_moveUp (L : Fin 5 → List Slot) (i : Fin 5) (l l₁ tail moved : List Slot) (p : Slot) :
    moveUp (moveUp L i l [p]) i (l₁ ++ behind i tail p) moved =
      moveUp L i (l₁ ++ tail) (p :: moved) := by
  ext1 j
  simp only [moveUp, behind]
  by_cases hi : j = i
  · subst hi
    by_cases hu : j = up j
    · simp [← hu]
    · simp [hu]
  by_cases hu : j = up i
  · simp [hi, ← hu]
  · simp [hi, hu]

lemma moveUp_eq_self (h : L i = l) : moveUp L i l [] = L := by
  ext1 j
  simp only [moveUp, ite_self, append_nil]
  split_ifs with hj
  · rw [hj, h]
  · rfl

lemma Orderly.entry_eq (h : Orderly k L) (hL : L i = l₁ ++ p :: l₂) :
    l₁.length < rowLen k i ∧ entry k i l₁.length = .ok p := by
  have hlt : l₁.length < (L i).length := by simp [hL]
  rw [h.rows.rowLen_eq, h.rows.entry_eq hlt]
  exact ⟨hlt, by simp [hL]⟩

/-- One turn of the loop at an entry that is moved. -/
lemma Orderly.ageRow_move (h : Orderly k L) (fuel : ℕ) (hL : L i = l₁ ++ p :: l₂)
    (hage : overdue k p = true) :
    ∃ k₂, Orderly k₂ (moveUp L i (l₁ ++ l₂) [p]) ∧
      k₂.proc = update k.proc p ((k.proc p).enter (up i)) ∧
      ageRow (fuel + 1) k i l₁.length = ageRow fuel k₂ i (l₁.length + 1) ∧
      ∀ k', AgeLoop i k₂ (l₁.length + 1) k' → AgeLoop i k l₁.length k' := by
  obtain ⟨k1, k₂, hpop, hpush, hord, hproc⟩ := h.move hL
  obtain ⟨hrow, hentry⟩ := h.entry_eq hL
  refine ⟨k₂, hord, hproc, ?_, fun k' hrest => .move hrow hentry hage hpop hpush hrest⟩
  rw [ageRow, if_pos hrow, hentry, ok_bind, if_pos (by simpa [overdue] using hage), hpop, ok_bind,
    hpush, ok_bind]

/-- One turn of the loop at an entry that stays. -/
lemma Orderly.ageRow_keep (h : Orderly k L) (fuel : ℕ) (hL : L i = l₁ ++ p :: l₂)
    (hage : overdue k p = false) :
    ageRow (fuel + 1) k i l₁.length = ageRow fuel k i (l₁.length + 1) ∧
      ∀ k', AgeLoop i k (l₁.length + 1) k' → AgeLoop i k l₁.length k' := by
  obtain ⟨hrow, hentry⟩ := h.entry_eq hL
  refine ⟨?_, fun k' hrest => .keep hrow hentry hage hrest⟩
  rw [ageRow, if_pos hrow, hentry, ok_bind, if_neg (by simpa [overdue] using hage)]

/-- Nothing that has been moved is overdue, and nothing else changes. -/
lemma overdue_moved
    (hproc : k₂.proc = update k.proc p ((k.proc p).enter (up i))) (q : Slot) :
    overdue k₂ q = (decide (q ≠ p) && overdue k q) := by
  rw [overdue, overdue, hproc]
  rcases eq_or_ne q p with rfl | hq
  · simp [Proc.enter]
  · simp [hq]

lemma not_overdue_behind {tail : List Slot}
    (hproc : k₂.proc = update k.proc p ((k.proc p).enter (up i)))
    (htail : ∀ q ∈ tail, overdue k q = false) : ∀ q ∈ behind i tail p, overdue k₂ q = false := by
  intro q hq
  rw [overdue_moved hproc]
  rcases mem_append.1 hq with hq | hq
  · rw [htail q hq, Bool.and_false]
  split_ifs at hq
  · simp [mem_singleton.1 hq]
  · cases hq

lemma length_behind_le (i : Fin 5) (tail : List Slot) (p : Slot) :
    (behind i tail p).length ≤ tail.length + 1 := by
  rw [behind]
  split_ifs <;> simp

/-- The loop over queue `i` from the entries `rest` on; `tail` are the entries that it has appended
to the queue itself. -/
lemma ageRow_spec {done rest tail : List Slot} {fuel : ℕ} (h : Orderly k L)
    (hL : L i = done ++ (rest ++ tail)) (htail : ∀ p ∈ tail, overdue k p = false)
    (hfuel : rest.length + tail.length < fuel) :
    ∃ k', ageRow fuel k i done.length = .ok k' ∧ AgeLoop i k done.length k' ∧
      Orderly k' (moveUp L i (done ++ ((sweep (overdue k) rest).1 ++ tail))
        (sweep (overdue k) rest).2) ∧
      k'.proc = movedProcs k.proc i (sweep (overdue k) rest).2 := by
  induction hn : rest.length using Nat.strong_induction_on generalizing k L done rest tail fuel with
  | _ n ih =>
  rcases fuel with _ | fuel
  · omega
  rcases rest with _ | ⟨p, _ | ⟨q, l⟩⟩
  · -- only entries that have been appended are left
    have hdrop : (L i).drop done.length = tail := by simp [hL]
    obtain ⟨hrow, hloop⟩ :=
      h.ageRow_skip (fuel + 1) (by rw [hdrop]; simpa using hfuel) (by rwa [hdrop])
    refine ⟨k, hrow, hloop, ?_, by rw [sweep, movedProcs_nil]⟩
    rw [sweep, moveUp_eq_self (by simpa using hL)]
    exact h
  · rw [singleton_append] at hL
    cases hage : overdue k p with
    | true =>
      obtain ⟨k2, hord, hproc, hstep, hloops⟩ := h.ageRow_move fuel hL hage
      have hdrop : (moveUp L i (done ++ tail) [p] i).drop (done.length + 1) =
          (behind i tail p).drop 1 := by
        rw [moveUp_self, drop_length_add_append]
      have hlen := length_behind_le i tail p
      obtain ⟨hrow, hloop⟩ := hord.ageRow_skip fuel
        (by rw [hdrop, length_drop]; simp at hfuel; omega)
        (fun q hq => not_overdue_behind hproc htail q (mem_of_mem_drop (by rwa [hdrop] at hq)))
      have hsweep : sweep (overdue k) [p] = ([], [p]) := by rw [sweep, if_pos hage]
      rw [hsweep]
      refine ⟨k2, hstep.trans hrow, hloops _ hloop, hord, ?_⟩
      rw [hproc, ← movedProcs_cons _ _ _ (by simp), movedProcs_nil]
    | false =>
      have hdrop : (L i).drop done.length = p :: tail := by simp [hL]
      obtain ⟨hrow, hloop⟩ := h.ageRow_skip (fuel + 1)
        (by rw [hdrop, length_cons, Nat.add_comm]; simpa using hfuel)
        (by
          rw [hdrop]
          exact forall_mem_cons.2 ⟨hage, htail⟩)
      have hsweep : sweep (overdue k) [p] = ([p], []) := by rw [sweep, if_neg (by simp [hage])]
      rw [hsweep]
      refine ⟨k, hrow, hloop, ?_, by rw [movedProcs_nil]⟩
      rw [moveUp_eq_self (by simpa using hL)]
      exact h
  · rw [cons_append] at hL
    simp only [length_cons] at hn hfuel
    cases hage : overdue k p with
    | true =>
      -- the next entry moves to the place of `p` and is not looked at
      obtain ⟨k2, hord, hproc, hstep, hloops⟩ := h.ageRow_move fuel hL hage
      have hcount := h.count_le i p
      simp only [hL, count_append, count_cons_self] at hcount
      have hp : p ∉ l := by
        intro hp
        have := count_pos_iff.2 hp
        rw [count_cons] at hcount
        omega
      have hL2 : moveUp L i (done ++ (q :: l ++ tail)) [p] i =
          (done ++ [q]) ++ (l ++ behind i tail p) := by
        rw [← append_assoc, moveUp_self]
        simp
      have hlen := length_behind_le i tail p
      obtain ⟨k', hrow, hloop, hord', hproc'⟩ := ih l.length (by omega) hord hL2
        (not_overdue_behind hproc htail)
        (show l.length + (behind i tail p).length < fuel by omega) rfl
      have hcongr : sweep (overdue k2) l = sweep (overdue k) l := by
        refine sweep_congr fun r hr => ?_
        rw [overdue_moved hproc]
        have hne : r ≠ p := by
          rintro rfl
          exact hp hr
        simp [hne]
      have hmoved : p ∉ (sweep (overdue k) l).2 := fun hm => hp (mem_sweep.2 (.inr hm))
      rw [hcongr] at hord' hproc'
      rw [length_append, length_singleton] at hrow hloop
      rw [sweep_of_true hage]
      refine ⟨k', hstep.trans hrow, hloops _ hloop, ?_, ?_⟩
      · rw [← append_assoc (done ++ [q]), moveUp_moveUp] at hord'
        simpa using hord'
      · rw [hproc', hproc, movedProcs_cons _ _ _ hmoved]
    | false =>
      obtain ⟨hstep, hloops⟩ := h.ageRow_keep fuel hL hage
      obtain ⟨k', hrow, hloop, hord, hproc⟩ := ih (q :: l).length (by simp; omega) h
        (show L i = (done ++ [p]) ++ (q :: l ++ tail) by simp [hL]) htail
        (show (q :: l).length + tail.length < fuel by simp; omega) rfl
      rw [length_append, length_singleton] at hrow hloop
      rw [sweep_of_false (by simp [hage])]
      refine ⟨k', hstep.trans hrow, hloops _ hloop, ?_, hproc⟩
      simpa using hord

/-! ### All queues -/

/-- What is moved out of queue `i`. -/
def movedFrom (k : Kernel) (L : Fin 5 → List Slot) (i : Fin 5) : List Slot :=
  (sweep (overdue k) (L i)).2

/-- The lists after the queues `ds` have been gone through. -/
def after (k : Kernel) (L : Fin 5 → List Slot) (ds : List (Fin 5)) : Fin 5 → List Slot := fun j =>
  (if j ∈ ds then (sweep (overdue k) (L j)).1 else L j) ++
    (ds.filter (up · = j)).flatMap (movedFrom k L)

/-- The state after the queues `ds` have been gone through. -/
structure Passed (k : Kernel) (L : Fin 5 → List Slot) (ds : List (Fin 5)) (k' : Kernel) : Prop where
  orderly : Orderly k' (after k L ds)
  moved : ∀ d ∈ ds, ∀ p ∈ movedFrom k L d, k'.proc p = (k.proc p).enter (up d)
  same : ∀ p, (∀ d ∈ ds, p ∉ movedFrom k L d) → k'.proc p = k.proc p

lemma mem_of_mem_movedFrom (h : p ∈ movedFrom k L i) : p ∈ L i := mem_sweep.2 (.inr h)

/-- A process is in one queue only. -/
lemma Orderly.queue_eq (h : Orderly k L) (hi : p ∈ L i) (hj : p ∈ L j) : i = j := by
  by_contra hne
  have hsub := Finset.sum_le_sum_of_subset (f := fun m => (L m).count p) (Finset.subset_univ {i, j})
  rw [Finset.sum_pair hne] at hsub
  have h1 := count_pos_iff.2 hi
  have h2 := count_pos_iff.2 hj
  have h3 := h.once p
  omega

lemma up_le (i : Fin 5) : up i ≤ i := by
  revert i
  decide

lemma passed_nil (h : Orderly k L) : Passed k L [] k := by
  refine ⟨?_, by simp, fun _ _ => rfl⟩
  have hafter : after k L [] = L := by
    ext1 j
    simp [after]
  rwa [hafter]

/-- The loop over one more queue. -/
lemma Passed.step (h₀ : Orderly k L) (h : Passed k L ds k₁)
    (hds : ds ++ i :: is = finRange 5) :
    ∃ k₂, ageRow (NPROC + 1) k₁ i 0 = .ok k₂ ∧ AgeLoop i k₁ 0 k₂ ∧ Passed k L (ds ++ [i]) k₂ := by
  have hlt : ∀ d ∈ ds, d < i := by
    intro d hd
    have hsorted := pairwise_lt_finRange 5
    rw [← hds] at hsorted
    exact (pairwise_append.1 hsorted).2.2 d hd i (by simp)
  have hi : i ∉ ds := fun hd => lt_irrefl i (hlt i hd)
  have hnone : ds.filter (up · = i) = [] := by
    refine filter_eq_nil_iff.2 fun d hd hup => ?_
    have hle := up_le d
    rw [of_decide_eq_true hup] at hle
    exact absurd (hlt d hd) (not_lt.2 hle)
  -- the queue is still as it was
  have hL : after k L ds i = L i := by simp [after, hi, hnone]
  have hproc : ∀ p ∈ L i, k₁.proc p = k.proc p := by
    refine fun p hp => h.same p fun d hd hm => ?_
    exact (hlt d hd).ne (h₀.queue_eq (mem_of_mem_movedFrom hm) hp)
  have hsweep : sweep (overdue k₁) (L i) = sweep (overdue k) (L i) :=
    sweep_congr fun p hp => by rw [overdue, overdue, hproc p hp]
  have hlen : (L i).length ≤ NPROC := h₀.rows.length_le i
  obtain ⟨k₂, hrow, hloop, hord, hproc2⟩ := ageRow_spec h.orderly
    (show after k L ds i = [] ++ (L i ++ []) by simp [hL]) (by simp)
    (show (L i).length + [].length < NPROC + 1 by simp; omega)
  rw [hsweep] at hord hproc2
  refine ⟨k₂, hrow, hloop, ?_, fun d hd p hp => ?_, fun p hp => ?_⟩
  · have hafter : after k L (ds ++ [i]) = moveUp (after k L ds) i
        ([] ++ ((sweep (overdue k) (L i)).1 ++ [])) (sweep (overdue k) (L i)).2 := by
      ext1 j
      simp only [after, moveUp, filter_append, flatMap_append]
      by_cases hj : j = i
      · subst hj
        by_cases hu : up j = j
        · simp [hnone, hu, movedFrom]
        · simp [hnone, hu, Ne.symm hu]
      by_cases hu : up i = j
      · subst hu
        simp [hj, movedFrom]
      · simp [hj, hu, Ne.symm hu]
    rwa [hafter]
  · rw [hproc2, movedProcs]
    rcases mem_append.1 hd with hd | hd
    · have hne : p ∉ (sweep (overdue k) (L i)).2 := fun hm =>
        (hlt d hd).ne (h₀.queue_eq (mem_of_mem_movedFrom hp) (mem_sweep.2 (.inr hm)))
      rw [if_neg hne]
      exact h.moved d hd p hp
    · obtain rfl := mem_singleton.1 hd
      rw [if_pos (show p ∈ (sweep (overdue k) (L d)).2 from hp), hproc p (mem_of_mem_movedFrom hp)]
  · rw [hproc2, movedProcs, if_neg (show p ∉ (sweep (overdue k) (L i)).2 from hp i (by simp))]
    exact h.same p fun d hd => hp d (by simp [hd])

lemma Passed.rest (h₀ : Orderly k L) (h : Passed k L ds k₁)
    (hds : ds ++ is = finRange 5) :
    ∃ k', is.foldlM (fun k i => ageRow (NPROC + 1) k i 0) k₁ = .ok k' ∧ AgePass is k₁ k' ∧
      Passed k L (finRange 5) k' := by
  induction is generalizing ds k₁ with
  | nil =>
    rw [append_nil] at hds
    exact ⟨k₁, rfl, .nil k₁, hds ▸ h⟩
  | cons i is ih =>
    obtain ⟨k2, hrow, hloop, hpassed⟩ := h.step h₀ hds
    obtain ⟨k', hfold, hpass, hend⟩ := ih hpassed (by simp [← hds])
    refine ⟨k', ?_, .cons hloop hpass, hend⟩
    rw [foldlM_cons, hrow, ok_bind, hfold]

/-- The pass ends, and what it does to the queues. -/
lemma agingPass_spec (h : Orderly k L) : ∃ k', agingPass k = .ok k' ∧
    AgePass (finRange 5) k k' ∧ Passed k L (finRange 5) k' :=
  (passed_nil h).rest h rfl

/-! ### When the pass does what it is for -/

/-- Every process that was overdue has been put into the queue above, or again into queue 0, and
starts again there; the others are in their queues, in the same order; and no process is lost or
duplicated. -/
structure AgesRight (k : Kernel) (L : Fin 5 → List Slot) (k' : Kernel) (L' : Fin 5 → List Slot) :
    Prop where
  moved : ∀ i p, p ∈ L i → overdue k p = true →
    p ∈ L' (up i) ∧ (k'.proc p).currQ = (up i : ℕ) ∧ (k'.proc p).atime = 0
  stays : ∀ i p, p ∈ L i → overdue k p = false → p ∈ L' i
  order : ∀ i, (L' i).filter (fun p => !overdue k p) = (L i).filter fun p => !overdue k p
  all : ∀ p, ∑ i, (L' i).count p = ∑ i, (L i).count p

lemma mem_after {ds : List (Fin 5)} : p ∈ after k L ds j ↔
    (p ∈ if j ∈ ds then (sweep (overdue k) (L j)).1 else L j) ∨
      ∃ i ∈ ds, up i = j ∧ p ∈ movedFrom k L i := by
  rw [after, mem_append, mem_flatMap]
  simp only [mem_filter, decide_eq_true_eq, and_assoc]

lemma sum_count_after (p : Slot) :
    ∑ j, (after k L (finRange 5) j).count p = ∑ j, (L j).count p := by
  have hmoved : ∑ j, (((finRange 5).filter (up · = j)).flatMap (movedFrom k L)).count p =
      ∑ i, (movedFrom k L i).count p := by
    simp only [count_flatMap]
    have hinner : ∀ j, (((finRange 5).filter (up · = j)).map fun i =>
          (movedFrom k L i).count p).sum =
        ∑ i, if up i = j then (movedFrom k L i).count p else 0 := by
      intro j
      rw [← Finset.sum_filter, ← sum_toFinset _ ((nodup_finRange 5).filter _)]
      refine Finset.sum_congr ?_ fun _ _ => rfl
      ext i
      simp
    calc _ = ∑ j, ∑ i, if up i = j then (movedFrom k L i).count p else 0 :=
          Finset.sum_congr rfl fun j _ => hinner j
      _ = ∑ i, ∑ j, if up i = j then (movedFrom k L i).count p else 0 := Finset.sum_comm
      _ = _ := by simp
  simp only [after, mem_finRange, if_true, count_append, Finset.sum_add_distrib]
  rw [hmoved, ← Finset.sum_add_distrib]
  exact Finset.sum_congr rfl fun j _ => count_sweep p

/-- The result of the pass is right exactly if no two neighbours were overdue. -/
lemma Passed.agesRight_iff {k' : Kernel} (h₀ : Orderly k L) (h : Passed k L (finRange 5) k') :
    AgesRight k L k' (after k L (finRange 5)) ↔ ∀ i, Apart (overdue k) (L i) := by
  constructor
  · intro hright i
    refine kept_iff_apart.1 fun p hp => ?_
    by_contra hage
    rw [Bool.not_eq_false] at hage
    have hpi : p ∈ L i := mem_sweep.2 (.inl hp)
    -- a process that stays keeps its age
    have hsame : k'.proc p = k.proc p := by
      refine h.same p fun d _ hm => ?_
      obtain rfl := h₀.queue_eq (mem_of_mem_movedFrom hm) hpi
      have hcount := h₀.count_le d p
      have h1 := count_pos_iff.2 hp
      have h2 := count_pos_iff.2 hm
      rw [← count_sweep (f := overdue k)] at hcount
      rw [movedFrom] at h2
      omega
    have hzero := (hright.moved i p hpi hage).2.2
    rw [hsame] at hzero
    simp [overdue, hzero] at hage
  · intro hapart
    have hkept : ∀ i p, p ∈ (sweep (overdue k) (L i)).1 → overdue k p = false := fun i =>
      kept_iff_apart.2 (hapart i)
    refine ⟨fun i p hp hage => ?_, fun i p hp hage => ?_, fun i => ?_, sum_count_after⟩
    · have hm : p ∈ movedFrom k L i := by
        refine (mem_sweep.1 hp).resolve_left fun hk => ?_
        rw [hkept i p hk] at hage
        cases hage
      refine ⟨mem_after.2 (.inr ⟨i, by simp, rfl, hm⟩), ?_⟩
      rw [h.moved i (by simp) p hm]
      exact ⟨rfl, rfl⟩
    · refine mem_after.2 (.inl ?_)
      rw [if_pos (by simp)]
      refine (mem_sweep.1 hp).resolve_right fun hm => ?_
      rw [of_mem_moved hm] at hage
      cases hage
    rw [after, if_pos (by simp), filter_append, filter_kept]
    refine append_right_eq_self.2 (filter_eq_nil_iff.2 fun p hp => ?_)
    obtain ⟨d, -, hm⟩ := mem_flatMap.1 hp
    simp [of_mem_moved hm]

/-- The pass ends, and it does what it is for exactly if no two neighbours in a queue were
overdue. -/
theorem agesRight_iff_apart (h : Orderly k L) :
    ∃ k' L', agingPass k = .ok k' ∧ AgePass (finRange 5) k k' ∧ Rows k'.queues k'.qIndex L' ∧
      (AgesRight k L k' L' ↔ ∀ i, Apart (overdue k) (L i)) := by
  obtain ⟨k', hok, hpass, hpassed⟩ := agingPass_spec h
  exact ⟨k', _, hok, hpass, hpassed.orderly.rows, hpassed.agesRight_iff h⟩

/-- The processes with pids 1 and 2 are in queue 1, and both are overdue. -/
def neighbours : Kernel where
  proc := fun p => { pid := (p : ℕ) + 1, currQ := 1, atime := 40 }
  queues := fun q => if (q : ℕ) = 1 then fun i => [(0 : Slot), 1][(i : ℕ)]? else fun _ => none
  qIndex := fun q => if (q : ℕ) = 1 then 1 else 2 ^ 64 - 1

/-- The lists of `neighbours`. -/
def neighbourLists : Fin 5 → List Slot := fun q => if (q : ℕ) = 1 then [0, 1] else []

lemma orderly_neighbours : Orderly neighbours neighbourLists where
  rows := by
    refine ⟨fun q => ?_, fun q => ?_⟩
    · by_cases hq : (q : ℕ) = 1
      · simp only [neighbours, neighbourLists, hq, if_true]
        exact ⟨by decide, fun i => rfl⟩
      · simp only [neighbours, neighbourLists, hq, if_false]
        exact .empty
    · by_cases hq : (q : ℕ) = 1 <;> simp [neighbours, neighbourLists, hq, u64]
  pids i j p q _ _ hpid := by
    simp only [neighbours] at hpid
    exact Fin.ext (by omega)
  once p := by
    have hone : ∑ i, (neighbourLists i).count p = [(0 : Slot), 1].count p := by
      rw [Finset.sum_eq_single 1]
      · rfl
      · intro i _ hi
        have hne : (i : ℕ) ≠ 1 := fun hc => hi (Fin.ext hc)
        simp [neighbourLists, hne]
      · simp
    rw [hone]
    exact nodup_iff_count_le_one.1 (by decide) p
  home i p hp := by
    by_cases hi : (i : ℕ) = 1
    · rw [show i = 1 from Fin.ext hi]
      rfl
    · simp [neighbourLists, hi] at hp

/-- The theorem at two neighbours. -/
theorem agesRight_iff_apart_neighbours : Orderly neighbours neighbourLists ∧
    ∃ k' L', agingPass neighbours = .ok k' ∧ AgePass (finRange 5) neighbours k' ∧
      Rows k'.queues k'.qIndex L' ∧ (AgesRight neighbours neighbourLists k' L' ↔
        ∀ i, Apart (overdue neighbours) (neighbourLists i)) :=
  ⟨orderly_neighbours, agesRight_iff_apart orderly_neighbours⟩

/-- The second of two neighbours that are overdue is left behind. -/
theorem not_agesRight_of_neighbours : ¬ ∀ (k : Kernel) (L : Fin 5 → List Slot), Orderly k L →
    ∃ k' L', agingPass k = .ok k' ∧ Rows k'.queues k'.qIndex L' ∧ AgesRight k L k' L' := by
  intro h
  obtain ⟨k', L', hok, hrows, hright⟩ := h neighbours neighbourLists orderly_neighbours
  obtain ⟨k'', hok', -, hpassed⟩ := agingPass_spec orderly_neighbours
  obtain rfl := Except.ok.inj (hok.symm.trans hok')
  rw [hrows.unique hpassed.orderly.rows] at hright
  have hapart := (hpassed.agesRight_iff orderly_neighbours).1 hright 1
  rw [show neighbourLists 1 = [0, 1] from rfl, Apart, isChain_cons_cons] at hapart
  exact hapart.1 (by decide)

end Hexv6.Sched.Aging
