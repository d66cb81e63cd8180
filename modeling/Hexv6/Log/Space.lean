import Hexv6.Log.Crash
import Hexv6.Log.Whole

/-!
# Log space

`begin_op` lets an operation in when `LOGSIZE` entries are enough for `MAXOPBLOCKS` more
blocks of every operation in progress.  `log_write` however stops the system as soon as
`log.size - 1` blocks are recorded, one block of the log being taken by the header, and
`mkfs` makes `log.size` equal to `LOGSIZE`.  So three operations that log `MAXOPBLOCKS`
blocks each are let in together and do not fit (`not_reserved_of_three`).

`reserved_iff_fits` says when the panic is reached, and that operations of at most
`MAXOPBLOCKS - 1` blocks always fit: two or more operations let in together leave a spare
block each, and a single one starts with an empty log.

Because of this space, the blocks that any interleaving of operations has recorded can be committed,
and so the operations of one group commit survive a crash together (`crash_atomic_of_run`).
-/

namespace Hexv6.Log

open Lib

variable {P : Type*} {s s' : Sys P} {p : P} {g : Layout} {tr : List (Sys P × Action P)}
  {ops : List (ℕ × ℕ)} {a : Action P} {l : List ℕ} {c : Pc} {b : ℕ} {v : ℕ → Block}

/-! ### What an operation may still log -/

/-- The blocks logged so far by the operation that `p` is in. -/
def loggedBy (s : Sys P) (p : P) : List ℕ :=
  match s.pc p with
  | .inOp ops => ops.map Prod.fst
  | _ => []

/-- What a process may still log if its operation is to log at most `MAXOPBLOCKS - 1`
distinct blocks. -/
def Pc.allowance : Pc → ℕ
  | .inOp ops => MAXOPBLOCKS - 1 - (ops.map Prod.fst).toFinset.card
  | _ => 0

lemma Pc.Quiet.allowance (h : c.Quiet) : c.allowance = 0 := by
  rcases h with rfl | rfl | rfl <;> rfl

lemma wakeup_allowance (pc : P → Pc) (q : P) : (wakeup pc q).allowance = (pc q).allowance := by
  rw [wakeup]
  split_ifs with hq
  · rw [hq]
    rfl
  · rfl

/-- The recorded blocks and all allowances leave a spare entry besides the header. -/
def Spare [Fintype P] (s : Sys P) : Prop :=
  s.lh.length + ∑ p, (s.pc p).allowance ≤ LOGSIZE - 2

lemma Inv.sum_allowance_le [Fintype P] (h : Inv s) :
    ((∑ p, (s.pc p).allowance : ℕ) : ℤ) ≤ s.outstanding * (MAXOPBLOCKS - 1) := by
  have hle : ∑ p, (s.pc p).allowance ≤ ∑ p, (s.pc p).ops * (MAXOPBLOCKS - 1) := by
    refine Finset.sum_le_sum fun p _ => ?_
    rcases s.pc p with _ | _ | _ | ops | ph
    case inOp => simp [Pc.allowance, Pc.ops]
    all_goals exact Nat.zero_le _
  rw [← Finset.sum_mul] at hle
  rw [h.outstanding]
  have : (MAXOPBLOCKS : ℤ) - 1 = ((MAXOPBLOCKS - 1 : ℕ) : ℤ) := by decide
  rw [this]
  exact_mod_cast hle

lemma Spare.mono [Fintype P] (h : Spare s) (hlh : s'.lh.length ≤ s.lh.length)
    (hpc : ∀ q, (s'.pc q).allowance ≤ (s.pc q).allowance) : Spare s' :=
  (Nat.add_le_add hlh (Finset.sum_le_sum fun q _ => hpc q)).trans h

/-! ### The transactions fit the log -/

/-- The blocks `l` with their cached contents `v` can be committed on a disk with layout `g`. -/
def Committable (g : Layout) (v : ℕ → Block) (l : List ℕ) : Prop :=
  ∃ T : Txn g, T.blocks = l.map fun b => (b, v b)

lemma Committable.absorb (h : Committable g v l) (hb : ¬ g.InLog b ∧ b ≠ 1 ∧ b < 2 ^ 32)
    (hroom : l.length < LOGSIZE ∧ l.length + 1 < g.size) : Committable g v (absorb l b) := by
  obtain ⟨⟨_, hnodup, hhome, _⟩, rfl⟩ := h
  have hlen := length_absorb_le l b
  refine ⟨⟨(Log.absorb l b).map fun b => (b, v b), ?_, ?_, by rw [List.length_map]; omega⟩, rfl⟩
  · simp only [List.map_map, Function.comp_def, List.map_id'] at hnodup ⊢
    exact nodup_absorb hnodup b
  · simp only [List.forall_mem_map, mem_absorb] at hhome ⊢
    rintro c (hc | rfl)
    · exact hhome c hc
    · exact hb

variable [DecidableEq P]

/-- A call of `log_write` with a block that file system code may log. -/
def Home (g : Layout) : Action P → Prop
  | .logWrite _ b => ¬ g.InLog b ∧ b ≠ 1 ∧ b < 2 ^ 32
  | _ => True

lemma commitStep_lists (s : Sys P) (p : P) (ph : Phase) :
    ((commitStep s p ph).lh = s.lh ∨ (commitStep s p ph).lh = []) ∧
      ∀ l ∈ (commitStep s p ph).txns, l ∈ s.txns ∨ l = s.lh := by
  cases ph <;> simp only [commitStep]
  all_goals first | split_ifs <;> simp +contextual | simp +contextual

lemma update_allowance_le (pc : P → Pc) (hc : c.allowance = 0) (q : P) :
    (Function.update pc p c q).allowance ≤ (pc q).allowance := by
  rcases eq_or_ne q p with rfl | hq
  · rw [Function.update_self, hc]
    exact Nat.zero_le _
  · rw [Function.update_of_ne hq]

lemma commitStep_allowance (s : Sys P) (p : P) (ph : Phase) (q : P) :
    ((commitStep s p ph).pc q).allowance ≤ (s.pc q).allowance := by
  cases ph with
  | start | writeLog | install =>
    simp only [commitStep]
    split_ifs <;> exact update_allowance_le s.pc rfl q
  | writeHead | clear | erase => exact update_allowance_le s.pc rfl q
  | finish => exact (update_allowance_le _ rfl q).trans_eq (wakeup_allowance s.pc q)

lemma size_of_effect (h : Effect s a s') : s'.size = s.size := by
  cases h with
  | commit p ph _ => cases ph <;> simp only [commitStep] <;> try split_ifs <;> rfl
  | _ => rfl

lemma committable_of_run (v : ℕ → Block) (h : Run step (init g.size) tr s)
    (hb : ∀ x ∈ tr, Home g x.2) : Committable g v s.lh := by
  have hnil : Committable g v [] := ⟨⟨[], by simp, by simp, by simp, g.size_pos⟩, rfl⟩
  refine (h.invariant (C := fun _ a => Home g a)
    (I := fun s => s.size = g.size ∧ Committable g v s.lh) ?_ ⟨rfl, hnil⟩ hb).2.2
  rintro s a s' ⟨hsize, hs⟩ ha hstep
  have he := step_effect hstep
  refine ⟨(size_of_effect he).trans hsize, ?_⟩
  cases he with
  | record p b _ hroom => exact hs.absorb ha (hsize ▸ hroom)
  | commit p ph _ =>
    rcases (commitStep_lists s p ph).1 with hlh | hlh <;> rw [hlh]
    · exact hs
    · exact hnil
  | _ => exact hs

/-- The operations that group commit has put into one transaction survive a crash together:
when the power fails in its commit, and in recoveries after it, the blocks on disk are in the end
those before it, or those after it with the cached contents `v`. -/
theorem crash_atomic_of_run (h : Run step (init g.size) tr s) (hb : ∀ x ∈ tr, Home g x.2)
    (v : ℕ → Block) : ∃ T : Txn g, (T.blocks = s.lh.map fun b => (b, v b)) ∧
      ∀ d m power m₁ m', Super g d → Idle g m.disk d →
        commit g.start s.lh (load m T power) = .crash m₁ → Recovers m₁.disk m' →
          Idle g m'.disk d ∨ Idle g m'.disk (T.apply d) := by
  obtain ⟨T, hT⟩ := committable_of_run v h hb
  have hlh : T.lh = s.lh := by simp [Txn.lh, hT, Function.comp_def]
  refine ⟨T, hT, fun d m power m1 m' hs hi hc hr => ?_⟩
  have hsuper : T.apply d 1 = d 1 := applied_super [(T, true)] d
  rcases (wp_commit hi T power).of_crash (hlh ▸ hc) with ⟨-, hm⟩ | ⟨-, hm⟩
  · exact .inl (hr.idle (.inl hm) hs)
  · exact .inr (hr.idle hm ⟨hsuper ▸ hs.magic, hsuper ▸ hs.logstart⟩)

/-- Two operations begin together, record a block each, and the last one to end commits both. -/
def pairScript (p q : P) : List (Action P) :=
  [.beginOp p, .beginOp q, .logWrite p 100, .logWrite q 40, .endOp p, .endOp q]

/-- The theorem at this run, where the power fails in the commit and once more in the recovery. -/
theorem crash_atomic_of_run_twice : ∃ (tr : List (Sys (Fin 2) × Action (Fin 2))) (s : Sys (Fin 2))
    (m₁ m' : Machine ℕ Block), Run step (init mkfsLayout.size) tr s ∧ s.committing = true ∧
      commit mkfsLayout.start s.lh (load (.boot mkfsDisk 0) twoBlocks 4) = .crash m₁ ∧
      Recovers m₁.disk m' ∧
      (Idle mkfsLayout m'.disk mkfsDisk ∨ Idle mkfsLayout m'.disk (twoBlocks.apply mkfsDisk)) := by
  obtain ⟨m₁, m', hc, -, hr⟩ := exists_twice
  obtain ⟨s, hs, htest⟩ := exists_of_okAnd (runList step (init mkfsLayout.size)
    (pairScript (0 : Fin 2) 1)) (fun s => decide (s.committing = true ∧ s.lh = twoBlocks.lh))
    (by decide)
  obtain ⟨hcommit, hlh⟩ := of_decide_eq_true htest
  have hrun := Run.of_runList hs
  have hhome : ∀ x ∈ traceList step (init mkfsLayout.size) (pairScript (0 : Fin 2) 1),
      Home mkfsLayout x.2 := by
    intro x hx
    have hmem := mem_of_mem_traceList hx
    simp only [pairScript, List.mem_cons, List.not_mem_nil, or_false] at hmem
    rcases hmem with h | h | h | h | h | h <;>
      simp [h, Home, Layout.InLog, mkfsLayout, LOGSIZE, MAXOPBLOCKS]
  obtain ⟨T, hT, hatomic⟩ := crash_atomic_of_run hrun hhome
    fun b => if b = 100 then fun _ => 7 else fun _ => 9
  obtain rfl : T = twoBlocks := by
    cases T
    simpa [hlh, twoBlocks, Txn.lh] using hT
  have hidle : Idle mkfsLayout (Machine.boot mkfsDisk 0).disk mkfsDisk :=
    ⟨by decide, fun _ _ => rfl⟩
  rw [← hlh] at hc
  exact ⟨_, s, m₁, m', hrun, hcommit, hc, hr, hatomic mkfsDisk _ 4 m₁ m' super_mkfsDisk hidle hc hr⟩

/-! ### When the panic is reached -/

/-- A step after which no operation has logged more than `k` distinct blocks. -/
def Modest (k : ℕ) (s : Sys P) : Action P → Prop
  | .logWrite p b => (insert b (loggedBy s p).toFinset).card ≤ k
  | _ => True

/-- A `log_write` of an operation finds less than `LOGSIZE - 1` distinct blocks logged since
the last transaction was erased. -/
def Fits (s : Sys P) : Action P → Prop
  | .logWrite p _ => (s.pc p).ops = 1 → s.logged.toFinset.card < LOGSIZE - 1
  | _ => True

instance (k : ℕ) (s : Sys P) : (a : Action P) → Decidable (Modest k s a)
  | .logWrite p b => inferInstanceAs (Decidable ((insert b (loggedBy s p).toFinset).card ≤ k))
  | .beginOp _ | .endOp _ | .commitStep _ | .kill _ => .isTrue trivial

/-- The space reserved on the disk that `mkfs` makes is enough for the actions: `log_write`
does not panic, and the log always has room for the recorded blocks and the header. -/
def Reserved (as : List (Action P)) : Prop :=
  runList step (init LOGSIZE) as ≠ .error .tooBig ∧
    ∀ as₁ t, as₁ <+: as → runList step (init LOGSIZE) as₁ = .ok t → t.lh.length + 1 ≤ t.size

/-- The recorded blocks and the header never exceed the log area. -/
lemma length_lt_of_run {size : ℕ} (hsize : 0 < size)
    (h : Run step (init size) tr s) : s.size = size ∧ s.lh.length + 1 ≤ s.size := by
  refine (h.invariant' (I := fun s => s.size = size ∧ s.lh.length + 1 ≤ s.size) ?_ ⟨rfl, hsize⟩).2
  rintro s a s' ⟨hs, hlen⟩ hstep
  have he := step_effect hstep
  refine ⟨(size_of_effect he).trans hs, ?_⟩
  rw [size_of_effect he]
  cases he with
  | record p b _ hroom =>
    have := length_absorb_le s.lh b
    simp only
    omega
  | commit p ph _ =>
    rcases (commitStep_lists s p ph).1 with hlh | hlh <;> rw [hlh]
    · exact hlen
    · simp only [List.length_nil]
      omega
  | _ => exact hlen

variable [Fintype P]

lemma Inv.step_tooBig_iff (h : Inv s) (hsize : s.size = LOGSIZE) (a : Action P) :
    step s a = .error .tooBig ↔ ¬ Fits s a := by
  cases a with
  | logWrite p b =>
    rcases hp : s.pc p with _ | _ | _ | ops | ph
    case inOp =>
      have hout := (h.not_committing hp).2
      simp only [step, hp, logWrite, Fits, Pc.ops_inOp, forall_const, h.card_logged, hsize,
        LOGSIZE, not_lt]
      split_ifs with hbig hout'
      · simp only [true_iff]
        omega
      · omega
      · simp only [false_iff]
        omega
    all_goals simp [step, hp, Fits, Pc.ops]
  | beginOp p | kill p =>
    simp only [step, Fits, not_true, iff_false]
    split_ifs <;> simp
  | endOp p =>
    simp only [step, Fits, not_true, iff_false]
    split
    · simp only [endOp]
      split_ifs <;> simp
    · simp
  | commitStep p =>
    simp only [step, Fits, not_true, iff_false]
    split <;> simp

lemma reserved_iff (as : List (Action P)) :
    Reserved as ↔ ∀ x ∈ traceList step (init LOGSIZE) as, Fits x.1 x.2 := by
  have hlen : ∀ as1 t, as1 <+: as → runList step (init LOGSIZE) as1 = .ok t →
      t.lh.length + 1 ≤ t.size :=
    fun as1 t _ hrun => (length_lt_of_run (by decide) (Run.of_runList hrun)).2
  rw [Reserved, and_iff_left hlen, Ne, runList_eq_error_iff]
  constructor
  · intro hno x hx
    by_contra hfits
    obtain ⟨tr1, tr2, htr⟩ := List.append_of_mem hx
    have hr := Run.of_traceList htr
    exact hno ⟨tr1, x.1, x.2, tr2, htr,
      ((inv_of_run hr).step_tooBig_iff (length_lt_of_run (by decide) hr).1 x.2).2 hfits⟩
  rintro hfits ⟨tr1, t, a, tr2, htr, hbig⟩
  have hr := Run.of_traceList htr
  exact ((inv_of_run hr).step_tooBig_iff (length_lt_of_run (by decide) hr).1 a).1 hbig
    (hfits (t, a) (by simp [htr]))

/-! ### Operations of at most `MAXOPBLOCKS - 1` blocks -/

/-- A new operation: if it is alone then the log is empty, and otherwise `begin_op` has
reserved one block more than the allowance for each of at least two operations. -/
lemma Inv.spare_enter (h : Inv s) (hp : (s.pc p).Quiet) (hc : s.committing = false)
    (hroom : s.lh.length + (s.outstanding + 1) * MAXOPBLOCKS ≤ LOGSIZE) :
    Spare { s with
      outstanding := s.outstanding + 1, pc := Function.update s.pc p (.inOp []) } := by
  have hsum := sum_update Pc.allowance s.pc p (.inOp [])
  rw [hp.allowance, show (Pc.inOp []).allowance = 9 from rfl] at hsum
  have hle := h.sum_allowance_le
  have hout := h.outstanding
  simp only [Spare, MAXOPBLOCKS, LOGSIZE] at *
  rcases eq_or_ne s.outstanding 0 with h0 | h0
  · have hlh := congrArg List.length (h.fresh hc h0)
    simp only [List.length_nil] at hlh
    omega
  · omega

/-- A `log_write` of a block that is new to the transaction uses up some allowance. -/
lemma Inv.spare_record (h : Inv s) (hs : Spare s)
    (hp : s.pc p = .inOp ops) (hm : Modest (MAXOPBLOCKS - 1) s (.logWrite p b)) :
    Spare { s with
      lh := absorb s.lh b
      pc := Function.update s.pc p (.inOp (ops ++ [(b, s.txns.length)]))
      logged := s.logged ++ [b] } := by
  have hsum := sum_update Pc.allowance s.pc p (.inOp (ops ++ [(b, s.txns.length)]))
  have hset : ((ops ++ [(b, s.txns.length)]).map Prod.fst).toFinset =
      insert b (ops.map Prod.fst).toFinset := by
    ext c
    simp
  rw [hp, Pc.allowance, Pc.allowance, hset] at hsum
  rw [Modest, loggedBy, hp] at hm
  simp only [Spare] at *
  by_cases hb : b ∈ (ops.map Prod.fst).toFinset
  · rw [Finset.insert_eq_of_mem hb] at hsum
    have hmem : b ∈ s.lh := by
      obtain ⟨x, hx, rfl⟩ := List.mem_map.1 (List.mem_toFinset.1 hb)
      exact (h.current p ops hp x hx).2
    rw [absorb, if_pos hmem]
    omega
  rw [Finset.card_insert_of_notMem hb] at hsum hm
  have := length_absorb_le s.lh b
  omega

lemma Inv.spare_of_effect (h : Inv s) (hs : Spare s)
    (hm : Modest (MAXOPBLOCKS - 1) s a) (he : Effect s a s') : Spare s' := by
  cases he with
  | sleep p _ | last p _ _ _ | kill p _ => exact hs.mono le_rfl (update_allowance_le s.pc rfl)
  | enter p hp hc hroom => exact h.spare_enter (hp.imp_right .inr) hc hroom
  | record p b hp _ => exact h.spare_record hs hp hm
  | leave p _ _ _ =>
    exact hs.mono le_rfl fun q => (update_allowance_le _ rfl q).trans_eq (wakeup_allowance s.pc q)
  | commit p ph _ =>
    refine hs.mono ?_ fun q => commitStep_allowance s p ph q
    rcases (commitStep_lists s p ph).1 with hlh | hlh <;> simp [hlh]

omit [DecidableEq P] in
lemma Inv.fits_of_spare (h : Inv s) (hs : Spare s) (a : Action P) : Fits s a := by
  cases a with
  | logWrite p b =>
    intro _
    rw [h.card_logged]
    have hlen : s.lh.length ≤ LOGSIZE - 2 := (Nat.le_add_right _ _).trans hs
    exact hlen.trans_lt (by decide)
  | _ => trivial

/-- On the disk that `mkfs` makes, the log space is enough exactly when every `log_write`
finds less than `LOGSIZE - 1` distinct blocks in the transaction; and it is enough when
operations log at most `MAXOPBLOCKS - 1` distinct blocks. -/
theorem reserved_iff_fits (as : List (Action P)) :
    (Reserved as ↔ ∀ x ∈ traceList step (init LOGSIZE) as, Fits x.1 x.2) ∧
      ((∀ x ∈ traceList step (init LOGSIZE) as, Modest (MAXOPBLOCKS - 1) x.1 x.2) →
        Reserved as) := by
  refine ⟨reserved_iff as, fun hm => (reserved_iff as).2 fun x hx => ?_⟩
  obtain ⟨tr1, tr2, htr⟩ := List.append_of_mem hx
  have hr : Run step (init LOGSIZE) tr1 x.1 := Run.of_traceList htr
  have hstart : Inv (init LOGSIZE : Sys P) ∧ Spare (init LOGSIZE : Sys P) := by
    refine ⟨inv_init LOGSIZE, ?_⟩
    simp [Spare, init, Pc.allowance]
  obtain ⟨hinv, hspare⟩ := (hr.invariant (I := fun s => Inv s ∧ Spare s)
    (fun s a t hs hC hstep =>
      ⟨hs.1.of_effect (step_effect hstep), hs.1.spare_of_effect hs.2 hC (step_effect hstep)⟩)
    hstart fun y hy => hm y (by simp [htr, hy])).2
  exact hinv.fits_of_spare hspare x.2

/-- Three operations that are let in together and log ten blocks each. -/
def three : List (Action (Fin 3)) :=
  [.beginOp 0, .beginOp 1, .beginOp 2] ++ (List.range 10).map (fun i => .logWrite 0 (46 + i)) ++
    (List.range 10).map (fun i => .logWrite 1 (56 + i)) ++
    (List.range 10).map (fun i => .logWrite 2 (66 + i))

/-- The last of the thirty blocks does not fit. -/
theorem not_reserved_of_three : ¬ ∀ as : List (Action (Fin 3)),
      (∀ x ∈ traceList step (init LOGSIZE) as, Modest MAXOPBLOCKS x.1 x.2) → Reserved as := by
  intro hall
  have hm : ∀ x ∈ traceList step (init LOGSIZE) three, Modest MAXOPBLOCKS x.1 x.2 := by
    decide +kernel
  refine (hall three hm).1 (eq_error_of_failsWith ?_)
  decide +kernel

end Hexv6.Log
