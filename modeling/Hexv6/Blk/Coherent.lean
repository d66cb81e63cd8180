import Hexv6.Blk.Shares

/-!
# Coherence of the buffer cache

In every run in which each call of `copyin` copies all of its part of the source or nothing, a
valid buffer is pinned for a block of the log header or holds what is on the disk, whenever no
buffer is locked; and `bget` may recycle any buffer that nobody refers to without changing what
a later `bread` returns.

Without the condition this fails.  `copyin` copies page by page, and when it meets a page that is
not mapped, `writei` releases the buffer with the bytes that were copied before and does not log
it.
-/

namespace Hexv6.Blk

open Lib Multiset
open Bio (Bcache BufId)
open Sched (Slot)

variable {sb : Super} {s : State} {b : BufId} {bn : BitVec 32}
  {c : Bcache Slot Block} {h : List (BitVec 32)} {W : Multiset Token} {k : ℕ}

/-! ### Transactions -/

lemma two_writeLogFrom (lh : List (BitVec 32)) : ∀ tail, Two (writeLogFrom sb tail lh) := by
  induction lh with
  | nil => exact fun tail => .pure ()
  | cons bn lh ih =>
    intro tail
    refine Two.bread fun l => ?_
    rw [add_comm]
    refine spec_bread.seq ?_
    rintro c _ rfl
    refine Spec.opSeq (.data c _ _) ?_
    rintro d _ rfl
    rw [add_comm]
    refine Spec.opSeq (.store l _ _ rfl d) ?_
    rintro _ _ rfl
    refine Spec.opSeq (.bwrite l _ _ rfl) ?_
    rintro _ _ rfl
    rw [add_comm]
    refine (spec_brelse rfl (by decide)).seqNext fun _ => ?_
    rw [add_comm]
    exact brelse_beside rfl (by decide) (ih _)

/-- A share and the token of the process that commits. -/
lemma spec_writeHead {h l : List (BitVec 32)} :
    Spec Rule (pair + {.commit h l}) (writeHead sb) fun _ B => B = pair + {.commit h l} := by
  have hwrite : Spec Rule ({.credit} + {.commit h l}) (writeHead sb) fun _ B =>
      B = {.credit} + {.commit h l} := by
    refine spec_bread.seq ?_
    rintro b _ rfl
    rw [add_comm]
    refine Spec.opSeq (.lh h l) ?_
    rintro _ _ ⟨rfl, rfl⟩
    rw [add_comm]
    refine (spec_change rfl).seqNext fun _ => ?_
    refine Spec.opSeq (.bwrite b _ _ rfl) ?_
    rintro _ _ rfl
    exact (spec_brelse rfl (by decide)).last fun _ B hB => by rw [hB]
  have hpair : pair + {.commit h l} = {.credit} + {.commit h l} + {.credit} := by
    rw [pair]
    abel
  rw [hpair]
  exact hwrite.last fun _ B hB => by rw [hB]

/-- One block after the other is installed and unpinned. -/
lemma spec_installTransFrom (lh : List (BitVec 32)) : ∀ tail,
    Spec Rule (pair + {.commit h lh}) (installTransFrom sb tail lh) fun _ B =>
      B = pair + {.commit h []} := by
  induction lh with
  | nil => exact fun tail => Spec.ret rfl
  | cons bn lh ih =>
    intro tail
    rw [pair, add_assoc]
    refine spec_bread.seq ?_
    rintro l _ rfl
    rw [add_left_comm]
    refine spec_bread.seq ?_
    rintro d _ rfl
    rw [add_left_comm]
    refine Spec.opSeq (.data l _ _) ?_
    rintro x _ rfl
    rw [add_left_comm]
    refine Spec.opSeq (.store d _ _ rfl x) ?_
    rintro _ _ rfl
    refine Spec.opSeq (.bwrite d _ _ rfl) ?_
    rintro _ _ rfl
    rw [add_left_comm, add_comm]
    refine Spec.opSeq (.bunpin d bn h lh) ?_
    rintro _ _ rfl
    rw [add_comm]
    refine (spec_brelse rfl (by decide)).seqNext fun _ => ?_
    rw [add_left_comm]
    refine (spec_brelse rfl (by decide)).seqNext fun _ => ?_
    rw [← add_assoc]
    exact ih _

/-- `commit` installs the whole header. -/
lemma spec_commit :
    Spec Rule (pair + {.commit h h}) (commit sb) fun _ B => B = pair + {.commit [] []} := by
  rw [add_comm]
  refine Spec.opSeq (.lh h h) ?_
  rintro _ _ ⟨rfl, rfl⟩
  split_ifs with hlen
  · refine Spec.opSeq (.lh _ _) ?_
    rintro _ _ ⟨rfl, rfl⟩
    rw [add_comm]
    refine Spec.seq (two_writeLogFrom _ 0) ?_
    rintro _ _ rfl
    refine spec_writeHead.next fun _ => ?_
    rw [add_comm]
    refine Spec.opSeq (.lh _ _) ?_
    rintro _ _ ⟨rfl, rfl⟩
    rw [add_comm]
    refine (spec_installTransFrom _ 0).next fun _ => ?_
    rw [add_comm]
    refine Spec.opSeq (.clearLh _) ?_
    rintro _ _ rfl
    rw [add_comm]
    exact spec_writeHead
  · rename_i l
    obtain rfl : l = [] := by simpa using hlen
    exact Spec.ret (add_comm _ _)

lemma spec_endOp : Spec Rule (pair + {.inOp}) (endOp sb) fun _ B => B = pair := by
  rw [add_comm]
  refine Spec.opSeq .endOp ?_
  rintro _ _ (⟨rfl, h, rfl⟩ | ⟨rfl, rfl⟩)
  · rw [if_pos rfl, add_comm]
    refine spec_commit.next fun _ => ?_
    rw [add_comm]
    exact (Spec.perform .endCommit).last fun _ B hB => by rw [hB, zero_add]
  · exact Spec.ret (zero_add _)

/-! ### Calls -/

/-- What a process holds between its calls. -/
def Holds (a : InOp) (r : Multiset Token) : Prop := r = pair + if a = true then {.inOp} else 0

lemma spec_holds {α : Type} {f : Kernel α} (hf : Two f) (a : InOp) :
    Spec Rule (pair + if a = true then {.inOp} else 0) (do let _ ← f; pure a) Holds := by
  refine Spec.seq hf ?_
  rintro _ _ rfl
  exact Spec.ret rfl

/-- Every call ends with what it started with. -/
lemma spec_body {c : Call} {a : InOp} {f : Kernel InOp} {r : Multiset Token}
    (hf : body sb c a = some f) (hr : Holds a r) : Spec Rule r f Holds := by
  subst hr
  cases c with
  | beginOp =>
    cases a with
    | true => cases hf
    | false =>
      cases hf
      rw [if_neg (by decide), add_comm]
      refine Spec.opSeq .beginOp ?_
      rintro _ _ rfl
      exact Spec.ret (add_comm _ _)
  | endOp =>
    cases a with
    | false => cases hf
    | true =>
      cases hf
      refine spec_endOp.next fun _ => ?_
      exact Spec.ret (add_zero _).symm
  | bzero bn =>
    cases hf
    exact spec_holds one_bzero.two a
  | balloc =>
    cases hf
    exact spec_holds one_balloc.two a
  | bfree b =>
    cases hf
    exact spec_holds one_bfree.two a
  | ialloc type =>
    cases hf
    exact spec_holds (one_iallocFrom _).two a
  | readInode inum =>
    cases hf
    exact spec_holds one_readInode.two a
  | iupdate inum ip =>
    cases hf
    exact spec_holds one_iupdate.two a
  | bmap ip bn =>
    cases hf
    exact spec_holds two_bmap a
  | itrunc inum ip =>
    cases hf
    exact spec_holds two_itrunc a
  | readi ip off dst =>
    cases hf
    exact spec_holds two_readi a
  | writei inum ip off src =>
    cases hf
    exact spec_holds two_writei a

/-! ### Runs -/

/-- A state in which nothing is going on: the log is empty, and no buffer is in use or differs from
the disk. -/
structure Start (s : State) : Prop where
  ring : s.cache.Ring
  uniq : s.cache.Unique
  refcnt : ∀ b, (s.cache.buf b).refcnt = 0
  lock : ∀ b, (s.cache.buf b).lock = none
  valid : ∀ b, (s.cache.buf b).valid = true → (s.cache.buf b).dev = ROOTDEV ∧
    (s.cache.buf b).data = s.disk (s.cache.buf b).blockno
  lh : s.lh = []
  outstanding : s.outstanding = 0
  committing : s.committing = false
  pins : ∀ b, s.pins b = 0

/-- No process has called anything yet. -/
def boot (s : State) : Sys := { shared := s, thread := fun _ => .ret false }

/-- What a `bread` of a block returns. -/
def State.view (s : State) (bn : BitVec 32) : Block :=
  match (List.finRange NBUF).find? fun b => (s.cache.buf b).dev = ROOTDEV ∧
      (s.cache.buf b).blockno = bn ∧ (s.cache.buf b).valid = true with
  | some b => (s.cache.buf b).data
  | none => s.disk bn

/-- Valid buffers belong to the open transaction and are pinned, or agree with the disk, when no
buffer is locked; and `bget` does not change what `bread` returns. -/
def Coherent (s : State) : Prop :=
  ((∀ b, (s.cache.buf b).lock = none) → ∀ b, (s.cache.buf b).valid = true →
    (s.cache.buf b).blockno ∈ s.lh ∧ 0 < s.pins b ∨
      (s.cache.buf b).data = s.disk (s.cache.buf b).blockno) ∧
  ∀ bn b c, s.cache.bget ROOTDEV bn = some (b, c) → State.view { s with cache := c } = s.view

lemma view_of_valid (hu : s.cache.Unique) (hdev : (s.cache.buf b).dev = ROOTDEV)
    (hbn : (s.cache.buf b).blockno = bn) (hv : (s.cache.buf b).valid = true) :
    s.view bn = (s.cache.buf b).data := by
  rw [State.view]
  split
  · rename_i b' hfind
    have hb' := List.find?_some hfind
    rw [decide_eq_true_eq] at hb'
    have heq : b = b' :=
      hu b b' (by rw [hdev]; decide) (hdev.trans hb'.1.symm) (hbn.trans hb'.2.1.symm)
    rw [heq]
  rename_i hnone
  have := List.find?_eq_none.1 hnone b (List.mem_finRange b)
  exact absurd (decide_eq_true ⟨hdev, hbn, hv⟩) this

lemma view_of_not (h : ∀ b, (s.cache.buf b).dev = ROOTDEV → (s.cache.buf b).blockno = bn →
    (s.cache.buf b).valid = false) : s.view bn = s.disk bn := by
  rw [State.view]
  split
  · rename_i b' hfind
    have hb' := List.find?_some hfind
    rw [decide_eq_true_eq] at hb'
    rw [h b' hb'.1 hb'.2.1] at hb'
    exact absurd hb'.2.2 (by decide)
  · rfl

/-- A change of the cache that only loses buffers which agree with the disk. -/
lemma view_eq (hu : s.cache.Unique) (hu' : c.Unique)
    (hkeep : ∀ b, (c.buf b).valid = true → (c.buf b).dev = (s.cache.buf b).dev ∧
      (c.buf b).blockno = (s.cache.buf b).blockno ∧ (c.buf b).data = (s.cache.buf b).data ∧
      (s.cache.buf b).valid = true)
    (hlost : ∀ b, (s.cache.buf b).valid = true → (c.buf b).valid = false →
      (s.cache.buf b).data = s.disk (s.cache.buf b).blockno) :
    State.view { s with cache := c } = s.view := by
  funext bn
  by_cases hex : ∃ b, (c.buf b).dev = ROOTDEV ∧ (c.buf b).blockno = bn ∧ (c.buf b).valid = true
  · obtain ⟨b, hdev, hbn, hv⟩ := hex
    obtain ⟨hd, hn, hdata, hv'⟩ := hkeep b hv
    rw [view_of_valid hu' hdev hbn hv,
      view_of_valid hu (hd.symm.trans hdev) (hn.symm.trans hbn) hv']
    exact hdata
  have hnone : ∀ b, (c.buf b).dev = ROOTDEV → (c.buf b).blockno = bn →
      (c.buf b).valid = false := by
    intro b hdev hbn
    by_contra hv
    exact hex ⟨b, hdev, hbn, by simpa using hv⟩
  rw [view_of_not hnone]
  by_cases hex' : ∃ b, (s.cache.buf b).dev = ROOTDEV ∧ (s.cache.buf b).blockno = bn ∧
      (s.cache.buf b).valid = true
  · obtain ⟨b, hdev, hbn, hv⟩ := hex'
    rw [view_of_valid hu hdev hbn hv, ← hbn]
    refine (hlost b hv ?_).symm
    by_contra hv'
    obtain ⟨hd, hn, -⟩ := hkeep b (by simpa using hv')
    exact hv' (hnone b (hd.trans hdev) (hn.trans hbn))
  symm
  refine view_of_not fun b hdev hbn => ?_
  by_contra hv
  exact hex' ⟨b, hdev, hbn, by simpa using hv⟩

lemma Inv.view (h : Inv s W)
    (hget : s.cache.bget ROOTDEV bn = some (b, c)) : State.view { s with cache := c } = s.view := by
  obtain ⟨pend, h, -⟩ := h
  refine view_eq h.uniq (h.uniq.bget h.ring hget) (fun b' hv => ?_) fun b' hv hv' => ?_
  · rcases Bcache.bget_cases h.ring hget with ⟨-, -, rfl⟩ | ⟨-, -, rfl⟩
    · rcases eq_or_ne b' b with rfl | hb'
      · rw [Bcache.modify_buf_self] at hv ⊢
        exact ⟨rfl, rfl, rfl, hv⟩
      · rw [Bcache.modify_buf_of_ne _ _ _ hb'] at hv ⊢
        exact ⟨rfl, rfl, rfl, hv⟩
    rcases eq_or_ne b' b with rfl | hb'
    · rw [Bcache.modify_buf_self] at hv
      cases hv
    · rw [Bcache.modify_buf_of_ne _ _ _ hb'] at hv ⊢
      exact ⟨rfl, rfl, rfl, hv⟩
  · rcases Bcache.bget_cases h.ring hget with ⟨-, -, rfl⟩ | ⟨-, hzero, rfl⟩
    · have hsame : ((s.cache.modify b fun x => { x with refcnt := x.refcnt + 1 }).buf b').valid =
          (s.cache.buf b').valid := by
        rcases eq_or_ne b' b with rfl | hb'
        · rw [Bcache.modify_buf_self]
        · rw [Bcache.modify_buf_of_ne _ _ _ hb']
      rw [hsame, hv] at hv'
      cases hv'
    rcases eq_or_ne b' b with rfl | hb'
    · exact h.coh_of_refcnt hzero hv
    · rw [Bcache.modify_buf_of_ne _ _ _ hb', hv] at hv'
      cases hv'

lemma Inv.coherent (h : Inv s W) : Coherent s := by
  refine ⟨fun hlock b hv => ?_, fun bn b c hget => h.view hget⟩
  obtain ⟨pend, h, hlog⟩ := h
  have hdirty : ∀ t ∈ W, t.dirty b = false := by
    intro t ht
    by_contra hd
    have hl := Token.locks_of_dirty (by simpa using hd)
    rw [h.no_lock_of_free (hlock b) t ht] at hl
    cases hl
  rcases h.coh b hv hdirty with hdata | hmem
  · exact .inr hdata
  refine .inl ⟨hlog.sub _ hmem, ?_⟩
  rw [h.pins, if_pos ⟨h.dev b hv, hmem⟩]
  exact Nat.one_pos

lemma eq_credit_of_mem {t : Token} (h : t ∈ k • pair) : t = .credit := by
  simpa [pair] using mem_of_mem_nsmul h

/-- With unused shares only, the invariant holds at the start. -/
lemma Start.inv_shares (h : Start s) (hk : k ≤ NPROC) : Inv s (k • pair) := by
  have hcount : ∀ q : Token → Prop, [DecidablePred q] → ¬ q .credit → (k • pair).countP q = 0 := by
    intro q _ hq
    refine countP_eq_zero.2 fun t ht => ?_
    rwa [eq_credit_of_mem ht]
  refine ⟨[], ?_, ?_⟩
  · refine
      { ring := h.ring, uniq := h.uniq, dev := fun b hv => (h.valid b hv).1
        means := fun t ht => ?_, total := ?_, refs := fun b => ?_
        locks := fun b => ?_, pins := fun b => ?_, cached := by simp, nodup := List.nodup_nil
        coh := fun b hv _ => .inl (h.valid b hv).2 }
    · rw [eq_credit_of_mem ht]
      trivial
    · rw [countP_nsmul, Nat.mul_comm]
      exact Nat.mul_le_mul_left 2 hk
    · rw [hcount _ (by simp), h.refcnt, h.pins]
      rfl
    · rw [hcount _ (by simp)]
      exact Nat.zero_le _
    · rw [h.pins, if_neg (by simp)]
  · refine ⟨by simp, ?_, .inl ⟨h.committing, ?_, h.lh.symm⟩⟩
    · rw [hcount _ (by decide), h.outstanding]
      rfl
    refine filter_eq_nil.2 fun t ht => ?_
    rw [eq_credit_of_mem ht]
    decide

/-- The shares can be divided among the processes. -/
def Divided (s : Sys) : Prop :=
  Owned (framed Rule) (fun s res => Inv s (∑ p, res p)) Holds s

lemma Start.divided (h : Start s) : Divided (boot s) := by
  refine ⟨fun _ => pair, ?_, fun p => (add_zero pair).symm⟩
  change Inv s (∑ _p : Slot, pair)
  rw [Finset.sum_const, Finset.card_univ, Fintype.card_fin]
  exact h.inv_shares le_rfl

/-- The cache is coherent in every state of a run in which no part of a source is copied half. -/
theorem coherent_of_run {s₀ : State} (h₀ : Start s₀) {tr : List (Sys × Action)} {s : Sys}
    (h : Run (step sb) (boot s₀) tr s)
    (hM : ∀ x ∈ tr, Meets AllOrNothing x.1 x.2) :
    (∀ x ∈ tr, Coherent x.1.shared) ∧ Coherent s.shared := by
  have hcoh : ∀ s : Sys, Divided s → Coherent s.shared := fun s ⟨_, hinv, _⟩ => hinv.coherent
  have hdiv := h.invariant (fun s a t hs hM hstep => ?_) h₀.divided hM
  · exact ⟨fun x hx => hcoh _ (hdiv.1 x hx), hcoh _ hdiv.2⟩
  · refine Owned.of_poolStep ?_ (fun c a m r hm hr => (spec_body hm hr).own) hs hM hstep
    exact sound_framed fun hrule hinv hM hx => hrule.sound hinv hM hx

/-! ### A write -/

/-- The layout that `mkfs` gives to a disk of 1000 blocks. -/
def layout : Super :=
  { size := 1000, ninodes := 200, nlog := 30, logstart := 2, inodestart := 32, bmapstart := 45 }

/-- The cache as `binit` leaves it. -/
def empty : State := { cache := .binit .zero, disk := fun _ => .zero }

lemma start_empty : Start empty := by
  have hbuf : ∀ b, empty.cache.buf b = { data := .zero } := Bcache.binit_buf Block.zero
  refine
    { ring := Bcache.ring_binit _, uniq := fun b b' h0 => ?_, refcnt := fun b => ?_
      lock := fun b => ?_, valid := fun b hv => ?_, lh := rfl, outstanding := rfl
      committing := rfl, pins := fun _ => rfl }
  · rw [hbuf] at h0
    exact absurd rfl h0
  · rw [hbuf]
  · rw [hbuf]
  · rw [hbuf] at hv
    cases hv

/-- A file of one byte, in block 46. -/
def file : Inode :=
  { type := 2, major := 0, minor := 0, nlink := 1, size := 1
    addrs := Function.update (fun _ => 0) 0 46 }

def allOrNothingTest : Op → Bool
  | .copyin _ _ src => src.all Option.isSome
  | _ => true

lemma meets_of_test {s : Sys} {a : Action} (h : (match a with
    | .call _ _ => true
    | .step p => match s.next p with
      | some o => allOrNothingTest o
      | none => true) = true) : Meets AllOrNothing s a := by
  cases a with
  | call p c => trivial
  | step p =>
    intro o ho
    simp only [ho] at h
    cases o with
    | copyin b off src => exact .inl h
    | _ => trivial

/-- A transaction that writes to the file, with its commit. -/
def commitScript : List Action :=
  script 0 [(.beginOp, 1), (.writei 1 file 0 [some 1, some 2], 15), (.endOp, 78)]

/-- The theorem at a run that writes two bytes and commits them. -/
theorem coherent_of_run_commit : ∃ tr s, Run (step layout) (boot empty) tr s ∧
    s.shared.disk 46 1 = 2 ∧ (∀ x ∈ tr, Coherent x.1.shared) ∧ Coherent s.shared := by
  obtain ⟨s, hs, htest⟩ := exists_of_okAnd (runList (step layout) (boot empty) commitScript)
      (fun s => decide (s.shared.disk 46 1 = 2)) (by decide +kernel)
  have hall : ((traceList (step layout) (boot empty) commitScript).all fun x => match x.2 with
        | .call _ _ => true
        | .step p => match x.1.next p with
          | some o => allOrNothingTest o
          | none => true) = true := by decide +kernel
  have hrun := coherent_of_run start_empty (.of_runList hs) fun x hx =>
    meets_of_test (List.all_eq_true.1 hall x hx)
  exact ⟨_, s, .of_runList hs, of_decide_eq_true htest, hrun⟩

/-- The second byte of the source is on a page that is not mapped.  The block of the file is not
logged, and differs from the disk. -/
theorem not_coherent_of_writei :
    ¬ ∀ sb s₀, Start s₀ → ∀ tr s, Run (step sb) (boot s₀) tr s → Coherent s.shared := by
  intro hall
  obtain ⟨s, hs, htest⟩ := exists_of_okAnd
      (runList (step layout) (boot empty)
        (script 0 [(.beginOp, 1), (.writei 1 file 0 [some 1, none], 14)]))
      (fun s => decide ((∀ b, (s.shared.cache.buf b).lock = none) ∧
      ∃ b, (s.shared.cache.buf b).valid = true ∧ (s.shared.cache.buf b).blockno ∉ s.shared.lh ∧
        (s.shared.cache.buf b).data 0 ≠ s.shared.disk (s.shared.cache.buf b).blockno 0))
      (by decide +kernel)
  obtain ⟨hlock, b, hv, hlh, hdata⟩ := of_decide_eq_true htest
  rcases (hall layout empty start_empty _ s (.of_runList hs)).1 hlock b hv with hmem | heq
  · exact hlh hmem.1
  · exact hdata (congrFun heq 0)

end Hexv6.Blk
