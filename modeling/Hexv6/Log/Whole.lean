import Hexv6.Log.Group

/-!
# Group commit keeps operations whole

Whatever the interleaving, `commit` runs only while no process is in an operation, at most
one process runs it, and all blocks that an operation logs go into one transaction
(`groupOk_of_run`).  The key is that `log.outstanding` counts the processes between
`begin_op` and `end_op`, that `log.committing` is set exactly while some process is in
`commit`, and that the two exclude each other.
-/

namespace Hexv6.Log

open Lib List Function

variable {P : Type*} {s s' : Sys P} {p : P} {lh : List ℕ}

lemma mem_absorb {b c : ℕ} : c ∈ absorb lh b ↔ c ∈ lh ∨ c = b := by
  rw [absorb]
  split_ifs with hb
  · constructor
    · exact Or.inl
    rintro (h | rfl)
    · exact h
    · exact hb
  · simp

lemma nodup_absorb (h : lh.Nodup) (b : ℕ) : (absorb lh b).Nodup := by
  rw [absorb]
  split_ifs with hb
  · exact h
  rw [nodup_append]
  refine ⟨h, by simp, fun c hc d hd => ?_⟩
  rw [mem_singleton] at hd
  rintro rfl
  exact hb (hd ▸ hc)

lemma length_absorb_le (lh : List ℕ) (b : ℕ) : (absorb lh b).length ≤ lh.length + 1 := by
  rw [absorb]
  split_ifs
  · omega
  · simp

variable {pc : P → Pc}

lemma wakeup_of_ne (h : pc p ≠ .asleep) : wakeup pc p = pc p := if_neg h

/-- A process that is somewhere else than the one that moved was there before. -/
lemma of_update_eq [DecidableEq P] {c d : Pc} {q : P} (h : update pc p c q = d)
    (hc : c ≠ d) : pc q = d := by
  rcases eq_or_ne q p with rfl | hq
  · rw [update_self] at h
    exact absurd h hc
  · rwa [update_of_ne hq] at h

/-- 1 for a process in an operation. -/
def Pc.ops : Pc → ℕ
  | .inOp _ => 1
  | _ => 0

/-- 1 for a process in `commit`. -/
def Pc.commits : Pc → ℕ
  | .commit _ => 1
  | _ => 0

lemma Pc.ops_inOp (ops : List (ℕ × ℕ)) : (Pc.inOp ops).ops = 1 := rfl

lemma Pc.ops_commit (ph : Phase) : (Pc.commit ph).ops = 0 := rfl

lemma Pc.commits_inOp (ops : List (ℕ × ℕ)) : (Pc.inOp ops).commits = 0 := rfl

lemma Pc.commits_commit (ph : Phase) : (Pc.commit ph).commits = 1 := rfl

/-- The header of the transaction has been written and not been erased yet. -/
def Phase.Written : Phase → Prop
  | .install _ => True
  | .clear => True
  | _ => False

/-- The blocks that an operation has logged were all logged into one transaction, and are
in its list. -/
def Whole (s : Sys P) (ops : List (ℕ × ℕ)) : Prop :=
  ∃ e, ∀ x ∈ ops, x.2 = e ∧ ∃ l, (s.txns ++ [s.lh])[e]? = some l ∧ x.1 ∈ l

/-- The transactions only grow: their lists, and their number. -/
lemma Whole.mono {ops : List (ℕ × ℕ)} (h : Whole s ops)
    (hgrow : ∀ (e : ℕ) l, (s.txns ++ [s.lh])[e]? = some l →
      ∃ l', (s'.txns ++ [s'.lh])[e]? = some l' ∧ l ⊆ l') : Whole s' ops := by
  obtain ⟨e, he⟩ := h
  refine ⟨e, fun x hx => ?_⟩
  obtain ⟨hxe, l, hl, hmem⟩ := he x hx
  obtain ⟨l', hl', hsub⟩ := hgrow e l hl
  exact ⟨hxe, l', hl', hsub hmem⟩

/-- The invariant of the log. -/
structure Inv [Fintype P] (s : Sys P) : Prop where
  outstanding : s.outstanding = ∑ p, (s.pc p).ops
  committing : ∑ p, (s.pc p).commits = if s.committing then 1 else 0
  excl : s.committing = true → s.outstanding = 0
  nodup : s.lh.Nodup
  logged : s.logged.toFinset = s.lh.toFinset
  current : ∀ p ops, s.pc p = .inOp ops → ∀ x ∈ ops, x.2 = s.txns.length ∧ x.1 ∈ s.lh
  ended : ∀ ops ∈ s.finished, Whole s ops
  written : ∀ p ph, s.pc p = .commit ph → ph.Written →
    ∀ ops ∈ s.finished, ∀ x ∈ ops, x.2 < s.txns.length
  erased : ∀ p ph, s.pc p = .commit ph → ph = .erase ∨ ph = .finish → s.lh = []
  fresh : s.committing = false → s.outstanding = 0 → s.lh = []

variable [Fintype P]

lemma inv_init (size : ℕ) : Inv (init size : Sys P) where
  outstanding := by simp [init, Pc.ops]
  committing := by simp [init, Pc.commits]
  excl := by simp [init]
  nodup := by simp [init]
  logged := by simp [init]
  current := by simp [init]
  ended := by simp [init]
  written := by simp [init]
  erased := by simp [init]
  fresh := by simp [init]

/-- While a process is in an operation, nobody commits. -/
lemma Inv.not_committing (h : Inv s) {ops : List (ℕ × ℕ)} (hp : s.pc p = .inOp ops) :
    s.committing = false ∧ 1 ≤ s.outstanding := by
  have hle : (s.pc p).ops ≤ ∑ q, (s.pc q).ops :=
    Finset.single_le_sum (f := fun q => (s.pc q).ops) (fun _ _ => Nat.zero_le _) (Finset.mem_univ p)
  rw [hp, Pc.ops] at hle
  have hout := h.outstanding
  refine ⟨?_, by omega⟩
  by_contra hc
  have := h.excl (by simpa using hc)
  omega

/-- An operation in progress has logged into the current transaction. -/
lemma Inv.ended_concat (h : Inv s) {ops : List (ℕ × ℕ)} (hp : s.pc p = .inOp ops) :
    ∀ ops' ∈ s.finished ++ [ops], Whole s ops' := by
  intro ops' hops'
  rw [mem_append, mem_singleton] at hops'
  rcases hops' with hops' | rfl
  · exact h.ended ops' hops'
  refine ⟨s.txns.length, fun x hx => ?_⟩
  obtain ⟨hx1, hx2⟩ := h.current p ops' hp x hx
  exact ⟨hx1, s.lh, by simp, hx2⟩

/-- Every block of an ended operation is in a transaction up to the current one. -/
lemma Inv.le_length (h : Inv s) {ops : List (ℕ × ℕ)} (hops : ops ∈ s.finished) {x : ℕ × ℕ}
    (hx : x ∈ ops) : x.2 ≤ s.txns.length := by
  obtain ⟨e, he⟩ := h.ended ops hops
  obtain ⟨rfl, l, hl, -⟩ := he x hx
  have := (List.getElem?_eq_some_iff.1 hl).1
  simp only [List.length_append, List.length_singleton] at this
  omega

/-- The flag is set only while some process is in `commit`. -/
lemma Inv.exists_commit (h : Inv s) (hc : s.committing = true) : ∃ p ph, s.pc p = .commit ph := by
  have hsum := h.committing
  rw [hc, if_pos rfl] at hsum
  obtain ⟨p, -, hp⟩ := Finset.exists_ne_zero_of_sum_ne_zero (hsum.trans_ne one_ne_zero)
  rcases hpc : s.pc p with _ | _ | _ | ops | ph
  case commit => exact ⟨p, ph, hpc⟩
  all_goals exact absurd (by rw [hpc]; rfl) hp

/-- The entries of the header are the distinct blocks logged. -/
lemma Inv.card_logged (h : Inv s) : s.logged.toFinset.card = s.lh.length := by
  rw [h.logged, toFinset_card_of_nodup h.nodup]

/-! ### Steps keep the invariant -/

/-- A process that is neither in an operation nor in `commit`. -/
def Pc.Quiet (c : Pc) : Prop := c = .idle ∨ c = .asleep ∨ c = .retry

lemma Pc.Quiet.ops {c : Pc} (h : c.Quiet) : c.ops = 0 := by rcases h with rfl | rfl | rfl <;> rfl

lemma Pc.Quiet.commits {c : Pc} (h : c.Quiet) : c.commits = 0 := by
  rcases h with rfl | rfl | rfl <;> rfl

/-- Processes outside of operations may fall asleep and wake up. -/
lemma Inv.quiet (h : Inv s)
    (hq : ∀ q, pc q = s.pc q ∨ (s.pc q).Quiet ∧ (pc q).Quiet) : Inv { s with pc := pc } := by
  have hsame : ∀ q, (∀ ops, pc q = .inOp ops → s.pc q = .inOp ops) ∧
      ∀ ph, pc q = .commit ph → s.pc q = .commit ph := by
    intro q
    rcases hq q with heq | ⟨-, hquiet⟩
    · rw [heq]
      exact ⟨fun _ h => h, fun _ h => h⟩
    · rcases hquiet with hc | hc | hc <;> simp [hc]
  have hops : ∀ q, (pc q).ops = (s.pc q).ops := by
    intro q
    rcases hq q with heq | ⟨h1, h2⟩
    · rw [heq]
    · rw [h1.ops, h2.ops]
  have hcommits : ∀ q, (pc q).commits = (s.pc q).commits := by
    intro q
    rcases hq q with heq | ⟨h1, h2⟩
    · rw [heq]
    · rw [h1.commits, h2.commits]
  exact
    { outstanding := by simpa only [hops] using h.outstanding
      committing := by simpa only [hcommits] using h.committing
      excl := h.excl
      nodup := h.nodup
      logged := h.logged
      current := fun q ops hp => h.current q ops ((hsame q).1 ops hp)
      ended := h.ended
      written := fun q ph hp => h.written q ph ((hsame q).2 ph hp)
      erased := fun q ph hp => h.erased q ph ((hsame q).2 ph hp)
      fresh := h.fresh }

lemma Inv.wakeup (h : Inv s) : Inv { s with pc := wakeup s.pc } := by
  refine h.quiet fun q => ?_
  rw [Log.wakeup]
  split_ifs with hq
  · exact .inr ⟨.inr (.inl hq), .inr (.inr rfl)⟩
  · exact .inl rfl

variable [DecidableEq P] {a : Action P} {ph : Phase}

/-- While a process is in `commit`, the flag is set, and no other process is. -/
lemma Inv.committing_of_commit (h : Inv s) (hp : s.pc p = .commit ph) :
    s.committing = true ∧ ∀ q ph', s.pc q = .commit ph' → q = p := by
  have hle : (s.pc p).commits ≤ ∑ q, (s.pc q).commits :=
    Finset.single_le_sum (f := fun q => (s.pc q).commits) (fun _ _ => Nat.zero_le _)
      (Finset.mem_univ p)
  rw [hp, Pc.commits, h.committing] at hle
  have hc : s.committing = true := by
    by_contra hc
    simp [hc] at hle
  refine ⟨hc, fun q ph' hq => ?_⟩
  by_contra hne
  have hpair : ∑ r ∈ {p, q}, (s.pc r).commits ≤ ∑ r, (s.pc r).commits :=
    Finset.sum_le_sum_of_subset (Finset.subset_univ _)
  rw [Finset.sum_pair (Ne.symm hne), hp, hq, h.committing, hc] at hpair
  simp [Pc.commits] at hpair

/-- A count over the processes when one of them moves on. -/
lemma sum_update (f : Pc → ℕ) (pc : P → Pc) (p : P) (c : Pc) :
    ∑ q, f (update pc p c q) + f (pc p) = ∑ q, f (pc q) + f c := by
  have hother : ∀ q, q ≠ p → f (update pc p c q) = f (pc q) := fun q hq => by rw [update_of_ne hq]
  simpa only [update_self] using sum_add_of_eq_off (Finset.mem_univ p) hother

section

variable (h : Inv s) {ops : List (ℕ × ℕ)}
include h

/-- A process in `commit` moves on to another phase. -/
lemma Inv.goto {ph ph' : Phase} (hp : s.pc p = .commit ph)
    (hw : ph'.Written → ph.Written) (he : ph' = .erase ∨ ph' = .finish → s.lh = []) :
    Inv { s with pc := update s.pc p (.commit ph') } := by
  have hother : ∀ q, q ≠ p → update s.pc p (.commit ph') q = s.pc q :=
    fun q hq => update_of_ne hq _ _
  refine
    { outstanding := ?_, committing := ?_, excl := h.excl, nodup := h.nodup, logged := h.logged
      current := fun q ops hq => ?_, ended := h.ended, written := fun q ph1 hq hw1 => ?_
      erased := fun q ph1 hq he1 => ?_, fresh := h.fresh }
  · have hsum := sum_update Pc.ops s.pc p (.commit ph')
    rw [hp, Pc.ops_commit, Pc.ops_commit] at hsum
    exact h.outstanding.trans (congrArg _ hsum.symm)
  · have hsum := sum_update Pc.commits s.pc p (.commit ph')
    rw [hp, Pc.commits_commit, Pc.commits_commit] at hsum
    exact (Nat.add_right_cancel hsum).trans h.committing
  · by_cases hqp : q = p
    · subst hqp
      simp at hq
    · exact h.current q ops ((hother q hqp).symm.trans hq)
  · by_cases hqp : q = p
    · subst hqp
      simp only [update_self, Pc.commit.injEq] at hq
      subst hq
      exact h.written q ph hp (hw hw1)
    · exact h.written q ph1 ((hother q hqp).symm.trans hq) hw1
  · by_cases hqp : q = p
    · subst hqp
      simp only [update_self, Pc.commit.injEq] at hq
      subst hq
      exact he he1
    · exact h.erased q ph1 ((hother q hqp).symm.trans hq) he1

/-- `begin_op` lets a process in. -/
lemma Inv.enter (hp : (s.pc p).Quiet) (hc : s.committing = false) : Inv
    { s with
      outstanding := s.outstanding + 1, pc := update s.pc p (.inOp []) } := by
  have hops := sum_update Pc.ops s.pc p (.inOp [])
  have hcommits := sum_update Pc.commits s.pc p (.inOp [])
  rw [hp.ops, Pc.ops_inOp] at hops
  rw [hp.commits, Pc.commits_inOp] at hcommits
  have hout := h.outstanding
  refine
    { outstanding := by simp only; omega
      committing := hcommits.trans h.committing
      excl := fun hc' => absurd hc' (by simp [hc])
      nodup := h.nodup, logged := h.logged, current := fun q ops hq => ?_, ended := h.ended
      written := fun q ph hq => h.written q ph (of_update_eq hq (by simp))
      erased := fun q ph hq => h.erased q ph (of_update_eq hq (by simp))
      fresh := fun _ hout' => absurd hout' (by simp only; omega) }
  rcases eq_or_ne ops [] with rfl | hne
  · simp
  · exact h.current q ops (of_update_eq hq (by simpa using hne.symm))

/-- While a process is in an operation, none is in `commit`. -/
lemma Inv.not_commit (hp : s.pc p = .inOp ops) (q : P)
    (ph : Phase) : s.pc q ≠ .commit ph := by
  intro hq
  have hc := (h.not_committing hp).1
  rw [(h.committing_of_commit hq).1] at hc
  cases hc

/-- `log_write` records a block. -/
lemma Inv.record (hp : s.pc p = .inOp ops) (b : ℕ) : Inv
    { s with
      lh := absorb s.lh b
      pc := update s.pc p (.inOp (ops ++ [(b, s.txns.length)]))
      logged := s.logged ++ [b] } := by
  obtain ⟨-, hout⟩ := h.not_committing hp
  have hops := sum_update Pc.ops s.pc p (.inOp (ops ++ [(b, s.txns.length)]))
  have hcommits := sum_update Pc.commits s.pc p (.inOp (ops ++ [(b, s.txns.length)]))
  rw [hp, Pc.ops_inOp, Pc.ops_inOp] at hops
  rw [hp, Pc.commits_inOp, Pc.commits_inOp] at hcommits
  have hsum := h.outstanding
  refine
    { outstanding := by simp only; omega
      committing := hcommits.trans h.committing
      excl := h.excl, nodup := nodup_absorb h.nodup b, logged := ?_
      current := fun q ops' hq x hx => ?_, ended := fun ops' hops' => ?_
      written := fun q ph hq => absurd (of_update_eq hq (by simp)) (h.not_commit hp q ph)
      erased := fun q ph hq => absurd (of_update_eq hq (by simp)) (h.not_commit hp q ph)
      fresh := fun _ hout' => absurd hout' (by simp only; omega) }
  · ext c
    have := Finset.ext_iff.1 h.logged c
    simp only [mem_toFinset] at this
    simp [mem_absorb, this, or_comm]
  · have hmem : ∀ x ∈ ops', x = (b, s.txns.length) ∨ x.2 = s.txns.length ∧ x.1 ∈ s.lh := by
      intro x hx
      rcases eq_or_ne q p with rfl | hqp
      · simp only [update_self, Pc.inOp.injEq] at hq
        rw [← hq, mem_append, mem_singleton] at hx
        rcases hx with hx | hx
        · exact .inr (h.current q ops hp x hx)
        · exact .inl hx
      · exact .inr (h.current q ops' (by simpa only [update_of_ne hqp] using hq) x hx)
    rcases hmem x hx with rfl | ⟨hx1, hx2⟩
    · exact ⟨rfl, mem_absorb.2 (.inr rfl)⟩
    · exact ⟨hx1, mem_absorb.2 (.inl hx2)⟩
  · refine (h.ended ops' hops').mono fun e l hl => ?_
    rcases Nat.lt_trichotomy e s.txns.length with he | rfl | he
    · rw [getElem?_append_left he] at hl ⊢
      exact ⟨l, hl, fun _ => id⟩
    · simp only [getElem?_concat_length, Option.some.injEq] at hl ⊢
      exact ⟨_, rfl, fun c hc => mem_absorb.2 (.inl (hl ▸ hc))⟩
    · rw [getElem?_eq_none (by simpa using he)] at hl
      cases hl

/-- The process that ends an operation goes on to `commit`, unless others are still in theirs. -/
lemma Inv.leave {c : Pc} {b : Bool} (hp : s.pc p = .inOp ops)
    (hc : b = false ∧ c = .idle ∧ s.outstanding ≠ 1 ∨
      b = true ∧ c = .commit .start ∧ s.outstanding = 1) :
    Inv { s with
      outstanding := s.outstanding - 1, committing := b
      pc := update s.pc p c, finished := s.finished ++ [ops] } := by
  obtain ⟨hfalse, hpos⟩ := h.not_committing hp
  have hops := sum_update Pc.ops s.pc p c
  have hcommits := sum_update Pc.commits s.pc p c
  have hsum := h.outstanding
  have hnone := h.committing
  rw [hp, Pc.ops_inOp] at hops
  rw [hp, Pc.commits_inOp] at hcommits
  simp only [hfalse, Bool.false_eq_true, if_false] at hnone
  have hout : c.ops = 0 ∧ c.commits = if b then 1 else 0 := by
    rcases hc with ⟨rfl, rfl, -⟩ | ⟨rfl, rfl, -⟩ <;> exact ⟨rfl, rfl⟩
  have hstart : ∀ q ph, update s.pc p c q = .commit ph → ph = .start := by
    intro q ph hq
    by_contra hne
    refine h.not_commit hp q ph (of_update_eq hq ?_)
    rcases hc with ⟨-, rfl, -⟩ | ⟨-, rfl, -⟩ <;> simp [Ne.symm hne]
  exact
    { outstanding := by simp only; omega
      committing := by simp only; omega
      excl := fun hb => by simp only at hb ⊢; grind
      nodup := h.nodup, logged := h.logged
      current := fun q ops' hq => h.current q ops' (of_update_eq hq (by rintro rfl; cases hout.1))
      ended := h.ended_concat hp
      written := fun q ph hq hw => by cases hstart q ph hq; exact hw.elim
      erased := fun q ph hq he => by cases hstart q ph hq; simp at he
      fresh := fun hb ho => by simp only at hb ho; grind }

/-- While a process is in `commit`, none is in an operation. -/
lemma Inv.not_inOp (hp : s.pc p = .commit ph) (q : P)
    (ops : List (ℕ × ℕ)) : s.pc q ≠ .inOp ops :=
  fun hq => h.not_commit hq p ph hp

/-- The commit point: the header with the current list is written. -/
lemma Inv.writeHead (hp : s.pc p = .commit .writeHead) : Inv
    { s with
      txns := s.txns ++ [s.lh], pc := update s.pc p (.commit (.install 0)) } := by
  have hcommit : ∀ {q : P} {ph : Phase},
      update s.pc p (.commit (.install 0)) q = .commit ph → q = p := by
    intro q ph hq
    by_contra hqp
    rw [update_of_ne hqp] at hq
    exact hqp ((h.committing_of_commit hp).2 q ph hq)
  have hops := sum_update Pc.ops s.pc p (.commit (.install 0))
  have hcommits := sum_update Pc.commits s.pc p (.commit (.install 0))
  rw [hp, Pc.ops_commit, Pc.ops_commit] at hops
  rw [hp, Pc.commits_commit, Pc.commits_commit] at hcommits
  refine
    { outstanding := h.outstanding.trans (congrArg _ hops.symm)
      committing := (Nat.add_right_cancel hcommits).trans h.committing
      excl := h.excl, nodup := h.nodup, logged := h.logged
      current := fun q ops hq => absurd (of_update_eq hq (by simp)) (h.not_inOp hp q ops)
      ended := fun ops hops => (h.ended ops hops).mono fun e l hl => ⟨l, ?_, fun _ => id⟩
      written := fun q ph _ _ ops hops x hx => ?_
      erased := fun q ph hq he => ?_
      fresh := h.fresh }
  · exact List.getElem?_append_left (List.getElem?_eq_some_iff.1 hl).1 ▸ hl
  · have := h.le_length hops hx
    simp only [List.length_append, List.length_singleton]
    omega
  obtain rfl := hcommit hq
  simp only [update_self, Pc.commit.injEq] at hq
  simp [← hq] at he

/-- `log.lh.n = 0`. -/
lemma Inv.clear (hp : s.pc p = .commit .clear) :
    Inv { s with lh := [], logged := [], pc := update s.pc p (.commit .erase) } := by
  have hops := sum_update Pc.ops s.pc p (.commit .erase)
  have hcommits := sum_update Pc.commits s.pc p (.commit .erase)
  rw [hp, Pc.ops_commit, Pc.ops_commit] at hops
  rw [hp, Pc.commits_commit, Pc.commits_commit] at hcommits
  have hlt := h.written p .clear hp trivial
  refine
    { outstanding := h.outstanding.trans (congrArg _ hops.symm)
      committing := (Nat.add_right_cancel hcommits).trans h.committing
      excl := h.excl, nodup := nodup_nil, logged := rfl
      current := fun q ops hq => absurd (of_update_eq hq (by simp)) (h.not_inOp hp q ops)
      ended := fun ops hops => ?_
      written := fun _ _ _ _ => hlt
      erased := fun _ _ _ _ => rfl
      fresh := fun _ _ => rfl }
  obtain ⟨e, he⟩ := h.ended ops hops
  refine ⟨e, fun x hx => ?_⟩
  obtain ⟨rfl, l, hl, hmem⟩ := he x hx
  rw [getElem?_append_left (hlt ops hops x hx)] at hl
  exact ⟨rfl, l, by rw [getElem?_append_left (hlt ops hops x hx), hl], hmem⟩

/-- `end_op` after `commit`. -/
lemma Inv.finish (hp : s.pc p = .commit .finish) :
    Inv { s with committing := false, pc := update s.pc p .idle } := by
  obtain ⟨hc, hone⟩ := h.committing_of_commit hp
  have hops := sum_update Pc.ops s.pc p .idle
  have hcommits := sum_update Pc.commits s.pc p .idle
  rw [hp, Pc.ops_commit, Pc.Quiet.ops (.inl rfl)] at hops
  rw [hp, Pc.commits_commit, Pc.Quiet.commits (.inl rfl), h.committing, hc] at hcommits
  have hnone : ∀ q ph, update s.pc p .idle q ≠ .commit ph := by
    intro q ph hq
    obtain rfl := hone q ph (of_update_eq hq (by simp))
    simp at hq
  exact
    { outstanding := h.outstanding.trans (congrArg _ hops.symm)
      committing := by simpa using hcommits
      excl := fun hc' => by cases hc'
      nodup := h.nodup, logged := h.logged
      current := fun q ops hq => h.current q ops (of_update_eq hq (by simp))
      ended := h.ended
      written := fun q ph hq => absurd hq (hnone q ph)
      erased := fun q ph hq => absurd hq (hnone q ph)
      fresh := fun _ _ => h.erased p .finish hp (.inr rfl) }

lemma Inv.commitStep (hp : s.pc p = .commit ph) :
    Inv (commitStep s p ph) := by
  cases ph with
  | start =>
    rw [Log.commitStep]
    split_ifs with hn
    · exact h.goto hp (fun hw => hw.elim) (by simp)
    · exact h.goto hp (fun hw => hw.elim) fun _ => length_eq_zero_iff.1 (by omega)
  | writeLog tail =>
    rw [Log.commitStep]
    split_ifs
    · exact h.goto hp (fun hw => hw.elim) (by simp)
    · exact h.goto hp (fun hw => hw.elim) (by simp)
  | writeHead => exact h.writeHead hp
  | install tail =>
    rw [Log.commitStep]
    split_ifs
    · exact h.goto hp (fun _ => trivial) (by simp)
    · exact h.goto hp (fun _ => trivial) (by simp)
  | clear => exact h.clear hp
  | erase => exact h.goto hp (fun hw => hw.elim) fun _ => h.erased p .erase hp (.inl rfl)
  | finish =>
    have hp' : Log.wakeup s.pc p = .commit .finish := by rw [wakeup_of_ne (by simp [hp]), hp]
    exact h.wakeup.finish hp'

lemma Inv.of_effect (he : Effect s a s') : Inv s' := by
  cases he with
  | sleep p hp =>
    refine h.quiet fun q => ?_
    rcases eq_or_ne q p with rfl | hq
    · refine .inr ⟨hp.imp_right .inr, ?_⟩
      rw [update_self]
      exact .inr (.inl rfl)
    · exact .inl (update_of_ne hq _ _)
  | enter p hp hc _ => exact h.enter (hp.imp_right .inr) hc
  | record p b hp _ => exact h.record hp b
  | last p hp _ hout => exact h.leave hp (.inr ⟨rfl, rfl, hout⟩)
  | @leave p ops hp hc hout =>
    have hp' : Log.wakeup s.pc p = .inOp ops := by rw [wakeup_of_ne (by simp [hp]), hp]
    exact h.wakeup.leave hp' (.inl ⟨hc, rfl, hout⟩)
  | commit p ph hp => exact h.commitStep hp
  | kill p hp =>
    refine h.quiet fun q => ?_
    rcases eq_or_ne q p with rfl | hq
    · refine .inr ⟨.inr (.inl hp), ?_⟩
      rw [update_self]
      exact .inr (.inr rfl)
    · exact .inl (update_of_ne hq _ _)

/-- What group commit promises of a state: `commit` runs alone and in one process only,
the flag says whether it runs, `end_op` does not panic, the list of the current transaction
has no repetition, and every operation, ended or not, has logged into one transaction. -/
structure GroupOk (s : Sys P) : Prop where
  alone : ∀ p ph, s.pc p = .commit ph → ∀ q ops, s.pc q ≠ .inOp ops
  flag : s.committing = true ↔ ∃ p ph, s.pc p = .commit ph
  one : ∀ p ph, s.pc p = .commit ph → ∀ q ph', s.pc q = .commit ph' → q = p
  endOp : ∀ p, step s (.endOp p) ≠ .error .committing
  nodup : s.lh.Nodup
  whole : ∀ ops, (ops ∈ s.finished ∨ ∃ p, s.pc p = .inOp ops) → Whole s ops

lemma Inv.endOp_ne (p : P) : step s (.endOp p) ≠ .error .committing := by
  intro hstep
  simp only [step] at hstep
  split at hstep
  · rename_i ops hp
    rw [endOp, if_neg (by simp [(h.not_committing hp).1])] at hstep
    split_ifs at hstep
  · cases hstep

lemma Inv.groupOk : GroupOk s where
  alone p ph hp := h.not_inOp hp
  flag := ⟨h.exists_commit, fun ⟨_, _, hp⟩ => (h.committing_of_commit hp).1⟩
  one p ph hp := (h.committing_of_commit hp).2
  endOp := h.endOp_ne
  nodup := h.nodup
  whole := by
    rintro ops (hops | ⟨p, hp⟩)
    · exact h.ended ops hops
    · exact h.ended_concat hp ops (by simp)

end

lemma inv_of_run {size : ℕ} {tr : List (Sys P × Action P)} (h : Run step (init size) tr s) :
    Inv s :=
  (h.invariant' (I := Inv) (fun _ _ _ hs hstep => hs.of_effect (step_effect hstep))
    (inv_init size)).2

/-- Group commit keeps operations whole, in every state of every interleaving. -/
theorem groupOk_of_run {size : ℕ} {tr : List (Sys P × Action P)}
    (h : Run step (init size) tr s) : GroupOk s :=
  (inv_of_run h).groupOk

/-- Two operations that share a block, committed in one transaction. -/
def shared (p q : P) : List (Action P) :=
  [.beginOp p, .beginOp q, .logWrite p 45, .logWrite q 33, .logWrite q 45, .endOp p, .endOp q,
    .commitStep q, .commitStep q, .commitStep q, .commitStep q, .commitStep q]

theorem groupOk_of_run_shared :
    ∃ s, Run step (init LOGSIZE) (traceList step (init LOGSIZE) (shared (0 : Fin 2) 1)) s ∧
      s.txns = [[45, 33]] ∧ s.committing = true ∧ GroupOk s := by
  obtain ⟨s, hs, htest⟩ := exists_of_okAnd (runList step (init LOGSIZE) (shared (0 : Fin 2) 1))
    (fun s => decide (s.txns = [[45, 33]]) && s.committing) (by decide +kernel)
  simp only [Bool.and_eq_true, decide_eq_true_eq] at htest
  exact ⟨s, .of_runList hs, htest.1, htest.2, groupOk_of_run (.of_runList hs)⟩

end Hexv6.Log
