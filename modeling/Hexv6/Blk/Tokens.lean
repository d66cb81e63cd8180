import Hexv6.Lib.Frame
import Hexv6.Blk.Programs

/-!
# What the processes hold

Every process has two shares of the cache, since no function of the file system has more than
two buffers at a time.  A share is unused (`credit`) or stands for a reference to a buffer, and
then its mode says how far the process is with the buffer.  A further token is held between
`begin_op` and `end_op`, and one by the process that commits.

`CacheInv` relates the cache, the disk and the pins to the tokens of all processes, and `LogInv`
the log.  Both speak of the blocks `pend` that are still to be installed: those of the header,
and while a transaction is installed only the rest of them.
-/

namespace Hexv6.Blk

open Lib Multiset
open Bio (BufId)

/-- How far a process is with a buffer: it waits for the lock; it has it but has not looked at
`valid`; what it has changed is logged (`clean`), or not yet (`dirty`), or is written to the
disk (`synced`); it has given up the lock but not the reference. -/
inductive Mode
  | wait
  | raw
  | clean
  | dirty
  | synced
  | gone
deriving DecidableEq

/-- The mode includes the sleep lock. -/
def Mode.locks : Mode → Bool
  | .wait | .gone => false
  | _ => true

inductive Token
  | credit
  | buf (b : BufId) (bn : BitVec 32) (m : Mode)
  | inOp
  /-- `commit` is under way for the header `h`, of which `l` is still to be installed -/
  | commit (h l : List (BitVec 32))
deriving DecidableEq

namespace Token

/-- The token is a share of the cache. -/
def share : Token → Bool
  | credit | buf _ _ _ => true
  | _ => false

def onBuf (b : BufId) : Token → Bool
  | buf b' _ _ => b' = b
  | _ => false

def locks (b : BufId) : Token → Bool
  | buf b' _ m => b' = b ∧ m.locks
  | _ => false

def dirty (b : BufId) : Token → Bool
  | buf b' _ m => b' = b ∧ m = .dirty
  | _ => false

def isOp : Token → Bool
  | inOp => true
  | _ => false

def isCommit : Token → Bool
  | commit _ _ => true
  | _ => false

section Kinds

variable {b b' : BufId} {bn : BitVec 32} {m : Mode} {h l : List (BitVec 32)}

@[simp] lemma share_credit : credit.share = true := rfl
@[simp] lemma share_buf : (buf b bn m).share = true := rfl
@[simp] lemma share_inOp : inOp.share = false := rfl
@[simp] lemma share_commit : (commit h l).share = false := rfl

@[simp] lemma onBuf_credit : credit.onBuf b = false := rfl
@[simp] lemma onBuf_buf : (buf b' bn m).onBuf b = decide (b' = b) := rfl

@[simp] lemma locks_credit : credit.locks b = false := rfl
@[simp] lemma locks_buf : (buf b' bn m).locks b = decide (b' = b ∧ m.locks) := rfl

@[simp] lemma dirty_credit : credit.dirty b = false := rfl
@[simp] lemma dirty_buf : (buf b' bn m).dirty b = decide (b' = b ∧ m = .dirty) := rfl

@[simp] lemma isOp_inOp : inOp.isOp = true := rfl
@[simp] lemma isOp_commit : (commit h l).isOp = false := rfl
@[simp] lemma isCommit_inOp : inOp.isCommit = false := rfl
@[simp] lemma isCommit_commit : (commit h l).isCommit = true := rfl

end Kinds

lemma locks_of_dirty {b : BufId} {t : Token} (h : t.dirty b = true) : t.locks b = true := by
  cases t with
  | buf b' bn m =>
    simp only [dirty_buf, locks_buf, decide_eq_true_eq] at h ⊢
    exact ⟨h.1, by rw [h.2]; rfl⟩
  | _ => cases h

/-- A buffer that a process refers to is the buffer of its block. -/
def Means (s : State) : Token → Prop
  | buf b bn m => (s.cache.buf b).dev = ROOTDEV ∧ (s.cache.buf b).blockno = bn ∧
      (m = .synced → (s.cache.buf b).data = s.disk bn)
  | _ => True

end Token

/-- The cache, the disk and the shares of all processes. -/
structure CacheInv (pend : List (BitVec 32)) (s : State) (W : Multiset Token) : Prop where
  ring : s.cache.Ring
  uniq : s.cache.Unique
  dev : ∀ b, (s.cache.buf b).valid = true → (s.cache.buf b).dev = ROOTDEV
  means : ∀ t ∈ W, t.Means s
  total : W.countP (·.share) ≤ 2 * NPROC
  refs : ∀ b, (s.cache.buf b).refcnt = BitVec.ofNat 32 (W.countP (·.onBuf b) + s.pins b)
  locks : ∀ b, W.countP (·.locks b) ≤ if (s.cache.buf b).lock = none then 0 else 1
  pins : ∀ b, s.pins b =
    if (s.cache.buf b).dev = ROOTDEV ∧ (s.cache.buf b).blockno ∈ pend then 1 else 0
  cached : ∀ bn ∈ pend, ∃ b, (s.cache.buf b).dev = ROOTDEV ∧ (s.cache.buf b).blockno = bn
  nodup : pend.Nodup
  coh : ∀ b, (s.cache.buf b).valid = true → (∀ t ∈ W, t.dirty b = false) →
    (s.cache.buf b).data = s.disk (s.cache.buf b).blockno ∨ (s.cache.buf b).blockno ∈ pend

/-- The log and the tokens of the transactions. -/
structure LogInv (pend : List (BitVec 32)) (s : State) (W : Multiset Token) : Prop where
  sub : ∀ bn ∈ pend, bn ∈ s.lh
  ops : s.outstanding = W.countP (·.isOp)
  log : s.committing = false ∧ W.filter (·.isCommit) = 0 ∧ pend = s.lh ∨
    s.committing = true ∧ s.outstanding = 0 ∧ W.filter (·.isCommit) = {.commit s.lh pend}

def Inv (s : State) (W : Multiset Token) : Prop := ∃ pend, CacheInv pend s W ∧ LogInv pend s W

variable {pend : List (BitVec 32)} {s : State} {W F : Multiset Token} {t t' : Token} {b b' : BufId}
  {bn : BitVec 32} {m m' : Mode}

/-! ### Tokens that do not matter -/

section

variable (h : t.share = false)
include h

lemma Token.onBuf_of_share : t.onBuf b = false := by
  cases t <;> first | rfl | cases h

lemma Token.locks_of_share : t.locks b = false := by
  cases t <;> first | rfl | cases h

lemma Token.dirty_of_share : t.dirty b = false := by
  cases t <;> first | rfl | cases h

lemma Token.means_of_share : t.Means s := by
  cases t with
  | inOp | commit => trivial
  | _ => cases h

/-- The cache does not depend on the tokens of the log. -/
lemma cacheInv_cons_iff : CacheInv pend s (t ::ₘ F) ↔ CacheInv pend s F := by
  have hcount : ∀ p : Token → Bool, p t = false →
      (t ::ₘ F).countP (p · = true) = F.countP (p · = true) :=
    fun p hp => countP_cons_of_neg _ (by simp [hp])
  constructor
  · intro hc
    refine
      { hc with
        means := fun t' ht' => hc.means t' (mem_cons_of_mem ht')
        total := ?_, refs := fun b => ?_, locks := fun b => ?_, coh := fun b hv hd => ?_ }
    · rw [← hcount _ h]
      exact hc.total
    · rw [hc.refs b, hcount _ (Token.onBuf_of_share h)]
    · rw [← hcount _ (Token.locks_of_share h)]
      exact hc.locks b
    · exact hc.coh b hv (forall_mem_cons.2 ⟨Token.dirty_of_share h, hd⟩)
  · intro hc
    refine
      { hc with
        means := forall_mem_cons.2 ⟨Token.means_of_share h, hc.means⟩
        total := ?_, refs := fun b => ?_, locks := fun b => ?_, coh := fun b hv hd => ?_ }
    · rw [hcount _ h]
      exact hc.total
    · rw [hc.refs b, hcount _ (Token.onBuf_of_share h)]
    · rw [hcount _ (Token.locks_of_share h)]
      exact hc.locks b
    · exact hc.coh b hv fun t' ht' => hd t' (mem_cons_of_mem ht')

end

/-- The log does not depend on the shares of the cache. -/
lemma logInv_cons_iff (h : t.share = true) : LogInv pend s (t ::ₘ F) ↔ LogInv pend s F := by
  have hops : (t ::ₘ F).countP (·.isOp) = F.countP (·.isOp) := by
    refine countP_cons_of_neg F ?_
    cases t <;> first | exact Bool.false_ne_true | cases h
  have hcommit : (t ::ₘ F).filter (·.isCommit) = F.filter (·.isCommit) := by
    refine filter_cons_of_neg F ?_
    cases t <;> first | exact Bool.false_ne_true | cases h
  constructor
  · rintro ⟨hsub, ho, hl⟩
    rw [hops] at ho
    rw [hcommit] at hl
    exact ⟨hsub, ho, hl⟩
  rintro ⟨hsub, ho, hl⟩
  refine ⟨hsub, ?_, ?_⟩
  · rw [hops, ho]
  · rw [hcommit]
    exact hl

/-- The cache does not depend on the log. -/
lemma CacheInv.of_eq {s' : State} (h : CacheInv pend s W) (hcache : s'.cache = s.cache)
    (hdisk : s'.disk = s.disk) (hpins : s'.pins = s.pins) : CacheInv pend s' W := by
  have hmeans : ∀ t ∈ W, t.Means s' := by
    intro t ht
    have hm := h.means t ht
    cases t with
    | buf b bn m =>
      rw [Token.Means, hcache, hdisk]
      exact hm
    | _ => trivial
  exact
    { ring := hcache ▸ h.ring, uniq := hcache ▸ h.uniq, dev := hcache ▸ h.dev, means := hmeans
      total := h.total, refs := by rw [hcache, hpins]; exact h.refs, locks := hcache ▸ h.locks
      pins := by rw [hcache, hpins]; exact h.pins, cached := hcache ▸ h.cached, nodup := h.nodup
      coh := by rw [hcache, hdisk]; exact h.coh }

/-! ### Consequences -/

namespace CacheInv

/-- A sleep lock is held once. -/
lemma no_lock (h : CacheInv pend s (t ::ₘ F)) (ht : t.locks b = true) :
    ∀ t' ∈ F, t'.locks b = false := by
  intro t' ht'
  by_contra hlock
  have hpos : 0 < F.countP (·.locks b) := countP_pos.2 ⟨t', ht', by simpa using hlock⟩
  have hle := h.locks b
  rw [countP_cons, if_pos ht] at hle
  split_ifs at hle <;> omega

section

variable (h : CacheInv pend s W)
include h

lemma no_lock_of_free (hfree : (s.cache.buf b).lock = none) :
    ∀ t ∈ W, t.locks b = false := by
  have hle := h.locks b
  rw [if_pos hfree, Nat.le_zero, countP_eq_zero] at hle
  intro t ht
  simpa using hle t ht

/-- The counts do not wrap around. -/
lemma count_lt (b : BufId) : W.countP (·.onBuf b) + s.pins b < 2 ^ 32 := by
  have hsub : W.countP (·.onBuf b) ≤ W.countP (·.share) := by
    rw [countP_eq_card_filter, countP_eq_card_filter]
    refine card_le_card (monotone_filter_right W fun t ht => ?_)
    cases t <;> first | rfl | cases ht
  have hpins : s.pins b ≤ 1 := by
    rw [h.pins]
    split_ifs <;> omega
  have htotal := h.total
  simp only [NPROC] at htotal
  omega

lemma eq_zero_of_refcnt (hb : (s.cache.buf b).refcnt = 0) :
    W.countP (·.onBuf b) = 0 ∧ s.pins b = 0 := by
  have hnat := congrArg BitVec.toNat ((h.refs b).symm.trans hb)
  rw [BitVec.toNat_ofNat, Nat.mod_eq_of_lt (h.count_lt b)] at hnat
  simpa using hnat

/-- Two buffers do not hold one block. -/
lemma blockno_ne (hb : (s.cache.buf b).dev = ROOTDEV) (hne : b' ≠ b)
    (hb' : (s.cache.buf b').dev = ROOTDEV) :
    (s.cache.buf b').blockno ≠ (s.cache.buf b).blockno := by
  intro heq
  refine hne (h.uniq b' b ?_ (hb'.trans hb.symm) heq)
  rw [hb']
  decide

/-- A buffer that nobody refers to is not pinned, and holds what is on the disk. -/
lemma coh_of_refcnt (hb : (s.cache.buf b).refcnt = 0)
    (hvalid : (s.cache.buf b).valid = true) :
    (s.cache.buf b).data = s.disk (s.cache.buf b).blockno := by
  obtain ⟨hcount, hpins⟩ := h.eq_zero_of_refcnt hb
  have hdirty : ∀ t ∈ W, t.dirty b = false := by
    intro t ht
    have hon := countP_eq_zero.1 hcount t ht
    cases t with
    | buf b' bn m =>
      have hne : b' ≠ b := by simpa using hon
      simp [hne]
    | _ => rfl
  refine (h.coh b hvalid hdirty).resolve_right fun hmem => ?_
  have hpin := h.pins b
  rw [if_pos ⟨h.dev b hvalid, hmem⟩] at hpin
  omega

end

end CacheInv

end Hexv6.Blk
