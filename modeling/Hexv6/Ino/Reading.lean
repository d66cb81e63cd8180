import Hexv6.Ino.Ownership

/-!
# Reading never allocates

`bmap` allocates blocks for readers and writers alike, and a reader is in no transaction.  In every
run from an image that is in order, all blocks below the sizes are allocated whenever no transaction
is open, and a process that is in `readi` comes to no operation that calls `log_write`
(`reading_of_run`).

If blocks are shared this fails: here a file has its indirect block among its contents, and clears
it with a write (`not_reading_of_shared`).
-/

namespace Hexv6.Ino

open Lib Multiset
open Blk (Block Inode)

section Runs

variable {P : Type} [Fintype P] [DecidableEq P] {sb : Super}

/-- The last call of a process. -/
def lastCall (tr : List (Sys P × Act P BCall)) (p : P) : Option BCall :=
  tr.foldl (fun last x => match x.2 with
    | .call q c => if q = p then some c else last
    | .step _ => last) none

/-- The process is in `readi`, or has just left it. -/
def Reading (tr : List (Sys P × Act P BCall)) (p : P) : Prop :=
  ∃ ip off dst, lastCall tr p = some (.readi ip off dst)

/-- The rules for a process: in `readi` it does not log. -/
def callRule (sb : Super) (reading : Prop) (r : Multiset BToken) (o : Op)
    (Φ : o.Result → Multiset BToken → Prop) : Prop :=
  framed (BRule sb) r o Φ ∧ (reading → o.logs = false)

/-- The tokens can be divided among the processes, by the rules for what they do. -/
def Divides (sb : Super) (tr : List (Sys P × Act P BCall)) (s : Sys P) : Prop :=
  ∃ res : P → Multiset BToken, BlockInv sb s.shared (∑ p, res p) ∧
    ∀ p, own (callRule sb (Reading tr p)) (s.thread p) BHolds (res p)

omit [Fintype P] in
lemma lastCall_call (tr : List (Sys P × Act P BCall)) (s : Sys P) (p q : P) (c : BCall) :
    lastCall (tr ++ [(s, .call p c)]) q = if p = q then some c else lastCall tr q := by
  simp [lastCall]

omit [Fintype P] in
lemma lastCall_step (tr : List (Sys P × Act P BCall)) (s : Sys P) (p q : P) :
    lastCall (tr ++ [(s, .step p)]) q = lastCall tr q := by
  simp [lastCall]

omit [Fintype P] [DecidableEq P] in
/-- A call follows the rules, with those for `readi` if it is that. -/
lemma own_bbody {c : BCall} {a : Held} {g : Kernel Held} {r : Multiset BToken} {reading : Prop}
    (hreading : reading → ∃ ip off dst, c = .readi ip off dst) (hg : bbody sb c a = some g)
    (hr : BHolds a r) : own (callRule sb reading) g BHolds r := by
  by_cases h : reading
  · obtain ⟨ip, off, dst, rfl⟩ := hreading h
    rw [bbody] at hg
    split_ifs at hg with hip
    cases hg
    refine (bspec_readiCall hip hr).own.lift ?_ (Prog.within_true _)
    rintro _ o Φ - ⟨A, F, Ψ, hbase, hA, hΦ⟩
    exact ⟨⟨A, F, Ψ, hbase.1, hA, hΦ⟩, fun _ => hbase.2⟩
  · exact (bspec_bbody hg hr).own.lift (fun _ _ _ _ hrule => ⟨hrule, fun hr => absurd hr h⟩)
      (Prog.within_true _)

lemma Divides.snoc {tr : List (Sys P × Act P BCall)} {s t : Sys P} {a : Act P BCall}
    (h : Divides sb tr s) (hstep : bstep sb s a = .ok t) : Divides sb (tr ++ [(s, a)]) t := by
  obtain ⟨res, hinv, hown⟩ := h
  cases a with
  | call p c =>
    rw [bstep, poolStep] at hstep
    split at hstep
    · rename_i b hp
      split at hstep
      · rename_i m hm
        cases hstep
        have hb : BHolds b (res p) := by simpa only [hp, own] using hown p
        refine ⟨res, hinv, fun q => ?_⟩
        simp only [Reading, lastCall_call]
        rcases eq_or_ne q p with rfl | hne
        · rw [Function.update_self]
          refine own_bbody ?_ hm hb
          rintro ⟨ip, off, dst, hc⟩
          exact ⟨ip, off, dst, by simpa using hc⟩
        rw [Function.update_of_ne hne]
        simp only [if_neg hne.symm]
        exact hown q
      · cases hstep
    · cases hstep
  | step p =>
    simp only [Divides, Reading, lastCall_step]
    rw [bstep, poolStep] at hstep
    split at hstep
    · cases hstep
    rename_i o k hp
    split at hstep
    · rename_i u x hx
      cases hstep
      have hop := hown p
      rw [hp] at hop
      obtain ⟨Φ, hrule, hk⟩ := hop
      have hsound : Sound (exec sb) (framed (BRule sb))
          (fun (s : State P) res => BlockInv sb s (∑ p, res p)) fun _ _ => True :=
        sound_framed (M := fun _ _ => True) fun hrule hinv _ hx => hrule.sound hinv hx
      obtain ⟨r', hr', hinv'⟩ := hsound hinv hrule.1 trivial hx
      refine ⟨_, hinv', fun q => ?_⟩
      dsimp only
      rcases eq_or_ne q p with rfl | hne
      · rw [Function.update_self, Function.update_self]
        exact hk x r' hr'
      · rw [Function.update_of_ne hne, Function.update_of_ne hne]
        exact hown q
    · cases hstep

/-- In every run from an image that is in order, the blocks below the sizes are allocated whenever
no transaction is open, and a process in `readi` never comes to `balloc`, nor to another call of
`log_write`. -/
theorem reading_of_run {s₀ : State P} (hstart : Start s₀) (hidle : s₀.outstanding = 0)
    (hmarked : Marked sb s₀) (hfilled : AllFilled sb s₀) (hproper : Proper sb s₀)
    {tr : List (Sys P × Act P BCall)} {s : Sys P} (h : Run (bstep sb) (boot s₀) tr s) :
    (s.shared.outstanding = 0 → AllFilled sb s.shared) ∧
    ∀ p, Reading tr p → ∀ o, s.next p = some o → o.logs = false := by
  have hboot : Divides sb [] (boot s₀ : Sys P) := by
    refine ⟨fun _ => 0, ?_, fun p => ⟨0, 0, .zero, .zero, rfl⟩⟩
    rw [Finset.sum_const_zero]
    exact blockInv_start hstart hidle hmarked hfilled hproper
  obtain ⟨res, hinv, hown⟩ := h.history hboot fun tr s a t hs hstep => hs.snoc hstep
  refine ⟨fun hout => (hinv.image hout).2.1, fun p hread o ho => ?_⟩
  have hp := hown p
  rw [Pool.next] at ho
  rcases hthread : s.thread p with _ | ⟨o', k⟩
  · rw [hthread] at ho
    cases ho
  rw [hthread] at ho hp
  cases ho
  obtain ⟨Φ, hrule, -⟩ := hp
  exact hrule.2 hread

end Runs

/-! ### Two runs -/

lemma reading_call (tr : List (Sys (Fin 1) × Act (Fin 1) BCall)) (s : Sys (Fin 1)) (off : ℕ) :
    Reading (tr ++ [(s, .call 0 (.readi 0 off [true]))]) 0 :=
  ⟨0, off, [true], by rw [lastCall_call, if_pos rfl]⟩

lemma Reading.step {tr : List (Sys (Fin 1) × Act (Fin 1) BCall)} (h : Reading tr 0)
    (s : Sys (Fin 1)) :
    Reading (tr ++ [(s, .step 0)]) 0 := by
  obtain ⟨ip, off, dst, hlast⟩ := h
  exact ⟨ip, off, dst, (lastCall_step ..).trans hlast⟩

/-- A byte is written to an empty file, and the next write fails. -/
def oneByte {P : Type} (p : P) : List (Act P BCall) :=
  script p (locking ++ [(.base (.writei 0 0 [some 7]), 10), (.base (.writei 0 1 [none]), 6),
    (.base .endOp, 1)])

/-- The theorem at a read of this file that is in `bmap`. -/
theorem reading_of_run_failed : ∃ tr s,
    Run (bstep smallSuper) (boot (oneFile (.fresh 2)) : Sys (Fin 1)) tr s ∧ Reading tr 0 ∧
    (s.shared.dinode 1).size = 1 ∧ AllFilled smallSuper s.shared ∧
    (∃ o, s.next 0 = some o) ∧ ∀ o, s.next 0 = some o → o.logs = false := by
  obtain ⟨s, hs, htest⟩ := exists_of_okAnd
    (runList (bstep smallSuper) (boot (oneFile (.fresh 2))) (oneByte (0 : Fin 1))) (fun s =>
      okAnd (bstep smallSuper s (.call 0 (.readi 0 0 [true]))) fun t1 =>
      okAnd (bstep smallSuper t1 (.step 0)) fun t2 => decide ((t2.next 0).isSome = true ∧
        (t2.shared.dinode 1).size = 1 ∧ t2.shared.outstanding = 0)) (by decide +kernel)
  obtain ⟨t1, h1, htest⟩ := exists_of_okAnd _ _ htest
  obtain ⟨t2, h2, hend⟩ := exists_of_okAnd _ _ htest
  obtain ⟨hnext, hsize, hout⟩ := of_decide_eq_true hend
  have hrun := ((Run.of_runList hs).snoc h1).snoc h2
  have htype : (Inode.fresh 2).type ≠ 0 := by decide
  have hproper : Proper smallSuper (oneFile (.fresh 2) : State (Fin 1)) := fun a hne =>
    absurd (by rw [refs_oneFile htype, footprint_fresh, count_zero]) hne
  have hreading := (reading_call
    (traceList (bstep smallSuper) (boot (oneFile (.fresh 2))) (oneByte 0)) s 0).step t1
  obtain ⟨hfilled, hlogs⟩ := reading_of_run (fun _ => rfl) rfl (marked_oneFile htype (by simp))
    (allFilled_oneFile rfl) hproper hrun
  exact ⟨_, t2, hrun, hreading, hsize, hfilled hout, Option.isSome_iff_exists.1 hnext,
    hlogs 0 hreading⟩

/-- A file of 13 blocks, all of which are block 41. -/
def tangled : Inode := { Inode.fresh 2 with size := 12289, addrs := fun _ => 41 }

def tangledDisk : State (Fin 1) := { oneFile tangled with blk := fun _ => Block.zero.setWord 0 41 }

/-- The first bytes of the file are cleared, and with them the first entry of its indirect block. -/
def clearing {P : Type} (p : P) : List (Act P BCall) :=
  script p (locking ++ [(.base (.writei 0 0 (List.replicate 4 (some 0))), 6), (.base .endOp, 1)])

lemma allFilled_tangledDisk : AllFilled smallSuper tangledDisk := by
  intro i _ htype bn hbn hlt
  have hi : i = 1 := by_contra fun hi => htype (by rw [tangledDisk, oneFile]; simp [hi]; rfl)
  subst hi
  have hle : bn < 13 := by
    have hsize : (tangledDisk.dinode 1).size.toNat = 12289 := rfl
    simp only [hsize, BSIZE] at hlt
    omega
  interval_cases bn <;> decide

/-- It is not enough that all blocks below the sizes are allocated. -/
theorem not_reading_of_shared : ¬ ∀ sb (s₀ : State (Fin 1)), Start s₀ → s₀.outstanding = 0 →
    AllFilled sb s₀ → ∀ tr s, Run (bstep sb) (boot s₀) tr s →
      ∀ p, Reading tr p → ∀ o, s.next p = some o → o.logs = false := by
  intro hall
  obtain ⟨s, hs, htest⟩ := exists_of_okAnd
    (runList (bstep smallSuper) (boot tangledDisk) (clearing 0)) (fun s =>
      okAnd (bstep smallSuper s (.call 0 (.readi 0 12288 [true]))) fun t1 =>
      okAnd (bstep smallSuper t1 (.step 0)) fun t2 =>
      okAnd (bstep smallSuper t2 (.step 0)) fun t3 =>
      okAnd (bstep smallSuper t3 (.step 0)) fun t4 => (t4.next 0).any Op.logs) (by decide +kernel)
  obtain ⟨t1, h1, htest⟩ := exists_of_okAnd _ _ htest
  obtain ⟨t2, h2, htest⟩ := exists_of_okAnd _ _ htest
  obtain ⟨t3, h3, htest⟩ := exists_of_okAnd _ _ htest
  obtain ⟨t4, h4, hlogs⟩ := exists_of_okAnd _ _ htest
  obtain ⟨o, ho, hlogs⟩ := (Option.any_eq_true _ _).1 hlogs
  have hrun := ((((Run.of_runList hs).snoc h1).snoc h2).snoc h3).snoc h4
  have hreading := (((reading_call (traceList (bstep smallSuper) (boot tangledDisk) (clearing 0)) s
    12288).step t1).step t2).step t3
  rw [hall smallSuper tangledDisk
    (fun _ => rfl) rfl allFilled_tangledDisk _ t4 hrun 0 hreading o ho]
    at hlogs
  cases hlogs

end Hexv6.Ino
