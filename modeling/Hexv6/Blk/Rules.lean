import Hexv6.Blk.Keep

/-!
# The rules of the operations

For every operation, the tokens that it uses and the tokens that it leaves, and that it keeps
the invariant.  The exception is `copyin`: when it fails, it must not have copied anything.
-/

namespace Hexv6.Blk

open Lib Multiset
open Bio (BufId)
open Sched (Slot)

variable {pend : List (BitVec 32)} {s s' : State} {W F A B : Multiset Token} {t t' : Token}
  {b : BufId} {bn : BitVec 32} {m : Mode}
  {src : List (Option Byte)} {h l : List (BitVec 32)} {off : ℕ}

/-- The operation, the tokens that it uses, and its result with the tokens that it leaves. -/
inductive Rule : (o : Op) → Multiset Token → (o.Result → Multiset Token → Prop) → Prop
  | bget (bn : BitVec 32) : Rule (.bget bn) {.credit} fun b B => B = {.buf b bn .wait}
  | acquiresleep (b : BufId) (bn : BitVec 32) :
      Rule (.acquiresleep b) {.buf b bn .wait} fun _ B => B = {.buf b bn .raw}
  | fill (b : BufId) (bn : BitVec 32) :
      Rule (.fill b) {.buf b bn .raw} fun _ B => B = {.buf b bn .clean}
  | data (b : BufId) (bn : BitVec 32) (m : Mode) :
      Rule (.data b) {.buf b bn m} fun _ B => B = {.buf b bn m}
  | store (b : BufId) (bn : BitVec 32) (m : Mode) (hm : m.locks = true) (d : Block) :
      Rule (.store b d) {.buf b bn m} fun _ B => B = {.buf b bn .dirty}
  | copyin (b : BufId) (bn : BitVec 32) (m : Mode) (hm : m.locks = true) (off : ℕ)
      (src : List (Option Byte)) :
      Rule (.copyin b off src) {.buf b bn m} fun x B =>
        x = true ∧ B = {.buf b bn .dirty} ∨ x = false ∧ B = {.buf b bn m}
  | bwrite (b : BufId) (bn : BitVec 32) (m : Mode) (hm : m.locks = true) :
      Rule (.bwrite b) {.buf b bn m} fun _ B => B = {.buf b bn .synced}
  | logWrite (b : BufId) (bn : BitVec 32) (m : Mode) (hm : m.locks = true) :
      Rule (.logWrite b) {.buf b bn m} fun _ B => B = {.buf b bn .clean}
  | releasesleep (b : BufId) (bn : BitVec 32) (m : Mode) (hm : m.locks = true)
      (hd : m ≠ .dirty) : Rule (.releasesleep b) {.buf b bn m} fun _ B => B = {.buf b bn .gone}
  | unref (b : BufId) (bn : BitVec 32) :
      Rule (.unref b) {.buf b bn .gone} fun _ B => B = {.credit}
  | beginOp : Rule .beginOp 0 fun _ B => B = {.inOp}
  | endOp : Rule .endOp {.inOp} fun x B => x = true ∧ (∃ h, B = {.commit h h}) ∨ x = false ∧ B = 0
  | lh (h l : List (BitVec 32)) :
      Rule .lh {.commit h l} fun x B => x = h ∧ B = {.commit h l}
  | bunpin (b : BufId) (bn : BitVec 32) (h l : List (BitVec 32)) :
      Rule (.bunpin b) ({.buf b bn .synced} + {.commit h (bn :: l)}) fun _ B =>
        B = {.buf b bn .synced} + {.commit h l}
  | clearLh (h : List (BitVec 32)) : Rule .clearLh {.commit h []} fun _ B => B = {.commit [] []}
  | endCommit : Rule .endCommit {.commit [] []} fun _ B => B = 0
  | panic (e : Panic) (A : Multiset Token) : Rule (.panic e) A fun _ _ => False

/-- Either all of the source is mapped, or not even its first byte is. -/
def AllOrNothing (_ : State) : Op → Prop
  | .copyin _ _ src => src.all Option.isSome = true ∨ src.head? = some none
  | _ => True

/-! ### The log -/

lemma LogInv.of_eq (h : LogInv pend s W) (hlh : s'.lh = s.lh) (ho : s'.outstanding = s.outstanding)
    (hc : s'.committing = s.committing) : LogInv pend s' W := by
  obtain ⟨hsub, hops, hlog⟩ := h
  exact ⟨by rwa [hlh], by rw [ho, hops], by rw [hlh, ho, hc]; exact hlog⟩

lemma LogInv.idle (h : LogInv pend s W) (hc : s.committing = false) :
    W.filter (·.isCommit) = 0 ∧ pend = s.lh :=
  (h.log.resolve_right fun hl => by simp [hc] at hl).2

lemma LogInv.beginOp (h : LogInv pend s (0 + F)) (hc : s.committing = false) :
    LogInv pend { s with outstanding := s.outstanding + 1 } ({.inOp} + F) := by
  rw [zero_add] at h
  obtain ⟨hnone, hp⟩ := h.idle hc
  refine ⟨h.sub, ?_, .inl ⟨hc, ?_, hp⟩⟩
  · rw [singleton_add, countP_cons_of_pos _ (by simp), h.ops]
    push_cast
    rfl
  · rwa [singleton_add, filter_cons_of_neg _ (by simp)]

lemma LogInv.endOp (h : LogInv pend s ({.inOp} + F)) (hc : s.committing = false) :
    LogInv pend { s with outstanding := s.outstanding - 1 } (0 + F) := by
  rw [singleton_add] at h
  obtain ⟨hnone, hp⟩ := h.idle hc
  have hops := h.ops
  rw [countP_cons_of_pos _ (by simp)] at hops
  rw [filter_cons_of_neg _ (by simp)] at hnone
  rw [zero_add]
  refine ⟨h.sub, ?_, .inl ⟨hc, hnone, hp⟩⟩
  change s.outstanding - 1 = _
  push_cast at hops
  omega

/-- The last transaction ends. -/
lemma LogInv.endOp_last (h : LogInv pend s ({.inOp} + F)) (hc : s.committing = false)
    (hlast : s.outstanding - 1 = 0) :
    LogInv pend { s with outstanding := s.outstanding - 1, committing := true }
      ({.commit s.lh s.lh} + F) := by
  have hend := h.endOp hc
  rw [zero_add] at hend
  obtain ⟨hnone, rfl⟩ := hend.idle hc
  refine ⟨h.sub, ?_, .inr ⟨rfl, hlast, ?_⟩⟩
  · rw [singleton_add, countP_cons_of_neg _ (by simp)]
    exact hend.ops
  · rw [singleton_add, filter_cons_of_pos _ (by simp), hnone]
    rfl

/-- What the process that commits knows. -/
lemma LogInv.of_commit (hlog : LogInv pend s (.commit h l ::ₘ F)) :
    s.committing = true ∧ s.outstanding = 0 ∧ s.lh = h ∧ pend = l ∧ F.filter (·.isCommit) = 0 := by
  obtain ⟨-, -, ⟨-, hnone, -⟩ | ⟨hc, ho, hone⟩⟩ := hlog
  · rw [filter_cons_of_pos _ (by simp)] at hnone
    exact absurd hnone cons_ne_zero
  rw [filter_cons_of_pos _ (by simp), ← cons_zero] at hone
  have hmem : Token.commit h l ∈ Token.commit s.lh pend ::ₘ 0 := hone ▸ mem_cons_self _ _
  have heq : Token.commit h l = .commit s.lh pend := by simpa using hmem
  rw [← heq, cons_inj_right] at hone
  injection heq with hh hl
  exact ⟨hc, ho, hh.symm, hl.symm, hone⟩

/-- The process that commits goes on, with the header `h` and the pending blocks `l`. -/
lemma LogInv.recommit {h l h' l' : List (BitVec 32)} (hlog : LogInv pend s (.commit h l ::ₘ F))
    (hh : s'.lh = h') (ho : s'.outstanding = s.outstanding) (hc : s'.committing = s.committing)
    (hsub : ∀ bn ∈ l', bn ∈ h') : LogInv l' s' (.commit h' l' ::ₘ F) := by
  obtain ⟨hc', ho', -, -, hnone⟩ := hlog.of_commit
  have hops := hlog.ops
  rw [countP_cons_of_neg _ (by simp)] at hops
  refine ⟨by rwa [hh], ?_, .inr ⟨hc.trans hc', ho.trans ho', ?_⟩⟩
  · rw [countP_cons_of_neg _ (by simp), ho, hops]
  · rw [filter_cons_of_pos _ (by simp), hnone, hh]
    rfl

lemma LogInv.endCommit {h : List (BitVec 32)} (hlog : LogInv pend s (.commit h h ::ₘ F)) :
    LogInv pend { s with committing := false } (0 + F) := by
  obtain ⟨-, -, hh, hp, hnone⟩ := hlog.of_commit
  have hops := hlog.ops
  rw [countP_cons_of_neg _ (by simp)] at hops
  rw [zero_add]
  exact ⟨hlog.sub, hops, .inl ⟨rfl, hnone, hp.trans hh.symm⟩⟩

/-! ### Shares of the cache -/

/-- An operation on a buffer. -/
lemma Inv.share (h : Inv s ({t} + F)) (ht : t.share = true) (ht' : t'.share = true)
    (hlh : s'.lh = s.lh) (ho : s'.outstanding = s.outstanding) (hc : s'.committing = s.committing)
    (hcache : ∀ pend, CacheInv pend s (t ::ₘ F) → CacheInv pend s' (t' ::ₘ F)) :
    Inv s' ({t'} + F) := by
  obtain ⟨pend, hinv, hlog⟩ := h
  refine ⟨pend, hcache pend hinv, (logInv_cons_iff ht').2 ?_⟩
  exact ((logInv_cons_iff ht).1 hlog).of_eq hlh ho hc

lemma copied_of_allOrNothing {d : Block}
    (h : AllOrNothing s (.copyin b off src)) (hfail : src.all Option.isSome = false) :
    d.paste off (mapped src) = d := by
  have hnone : src.head? = some none := by
    rcases h with hall | hnone
    · rw [hall] at hfail
      cases hfail
    · exact hnone
  obtain ⟨l, rfl⟩ := List.head?_eq_some_iff.1 hnone
  exact Block.paste_nil d off

lemma Inv.copyin_fail (h : Inv s ({.buf b bn m} + F))
    (hsrc : AllOrNothing s (.copyin b off src)) (hfail : src.all Option.isSome = false) :
    Inv (s.modify b fun x => { x with data := x.data.paste off (mapped src) })
      ({.buf b bn m} + F) := by
  have hid : (s.modify b fun x => { x with data := x.data.paste off (mapped src) }) = s := by
    simp [State.modify, Bio.Bcache.modify, copied_of_allOrNothing hsrc hfail]
  rwa [hid]

/-- `log_write`: the block is pending from now on. -/
lemma Inv.logWrite (h : Inv s ({.buf b bn m} + F)) (hm : m.locks = true)
    (ho : ¬ s.outstanding < 1) : Inv (s.log b) ({.buf b bn .clean} + F) := by
  obtain ⟨pend, hinv, hlog⟩ := h
  rw [singleton_add] at hinv hlog
  obtain ⟨hdev, hbn, -⟩ := hinv.means _ (mem_cons_self _ _)
  have hidle : s.committing = false ∧ (Token.buf b bn m ::ₘ F).filter (·.isCommit) = 0 ∧
      pend = s.lh := by
    refine hlog.log.resolve_right fun hc => ?_
    rw [hc.2.1] at ho
    exact ho (by decide)
  obtain ⟨hc, -, rfl⟩ := hidle
  rw [logInv_cons_iff rfl] at hlog
  rw [State.log]
  split_ifs with hmem
  · refine ⟨s.lh, ?_, ?_⟩
    · rw [singleton_add]
      exact hinv.remode hm nofun fun _ _ => .inr (hbn ▸ hmem)
    · rwa [singleton_add, logInv_cons_iff rfl]
  refine ⟨s.lh ++ [(s.cache.buf b).blockno], ?_, ?_⟩
  · rw [singleton_add]
    have hpinned : CacheInv _ _ (.buf b bn .clean ::ₘ F) :=
      (hinv.bpin hdev hmem).remode hm nofun fun _ _ => .inr (by simp [hbn])
    exact hpinned.of_eq rfl rfl rfl
  rw [singleton_add, logInv_cons_iff rfl]
  exact ⟨fun _ => id, hlog.ops, .inl ⟨hc, (hlog.idle hc).1, rfl⟩⟩

/-! ### Transactions -/

lemma cacheInv_add_iff (hA : ∀ t ∈ A, t.share = false) :
    CacheInv pend s (A + F) ↔ CacheInv pend s F := by
  induction A using Multiset.induction_on with
  | empty => rw [zero_add]
  | cons t A ih =>
    rw [cons_add, cacheInv_cons_iff (hA t (mem_cons_self t A))]
    exact ih fun u hu => hA u (mem_cons_of_mem hu)

/-- An operation on the log. -/
lemma Inv.op (h : Inv s (A + F)) (hA : ∀ t ∈ A, t.share = false) (hB : ∀ t ∈ B, t.share = false)
    (hcache : s'.cache = s.cache ∧ s'.disk = s.disk ∧ s'.pins = s.pins)
    (hlog : ∀ pend, LogInv pend s (A + F) → LogInv pend s' (B + F)) : Inv s' (B + F) := by
  obtain ⟨pend, hinv, hl⟩ := h
  refine ⟨pend, (cacheInv_add_iff hB).2 ?_, hlog pend hl⟩
  exact ((cacheInv_add_iff hA).1 hinv).of_eq hcache.1 hcache.2.1 hcache.2.2

/-! ### Soundness -/

lemma Inv.bunpin
    (hinv : Inv s ({.buf b bn .synced} + {.commit h (bn :: l)} + F)) :
    Inv { s with cache := s.cache.bunpin b, pins := Function.update s.pins b (s.pins b - 1) }
      ({.buf b bn .synced} + {.commit h l} + F) := by
  obtain ⟨pend, hcache, hlog⟩ := hinv
  rw [add_assoc, singleton_add, singleton_add] at hcache hlog
  rw [logInv_cons_iff rfl] at hlog
  obtain ⟨-, -, hh, rfl, -⟩ := hlog.of_commit
  rw [cons_swap, cacheInv_cons_iff rfl] at hcache
  refine ⟨l, ?_, ?_⟩
  · rw [add_assoc, singleton_add, singleton_add, cons_swap, cacheInv_cons_iff rfl]
    exact hcache.bunpin
  · rw [add_assoc, singleton_add, singleton_add, logInv_cons_iff rfl]
    exact hlog.recommit hh rfl rfl fun n hn => hh ▸ hlog.sub n (List.mem_cons_of_mem bn hn)

/-- Every operation keeps the invariant, and leaves the tokens that its rule says. -/
lemma Rule.sound {sb : Super} {p : Slot} {o : Op} {Ψ : o.Result → Multiset Token → Prop}
    {x : o.Result} (hrule : Rule o A Ψ) (h : Inv s (A + F)) (hM : AllOrNothing s o)
    (hx : exec sb p o s = .ok (s', x)) : ∃ B, Ψ x B ∧ Inv s' (B + F) := by
  cases hrule with rw [exec] at hx
  | bget bn =>
    split at hx
    · rename_i b c hget
      cases hx
      exact ⟨_, rfl, h.share rfl rfl rfl rfl rfl fun _ hc => hc.bget hget⟩
    · cases hx
  | acquiresleep b bn =>
    split_ifs at hx with hfree
    cases hx
    exact ⟨_, rfl, h.share rfl rfl rfl rfl rfl fun _ hc => hc.acquiresleep p hfree⟩
  | fill b bn =>
    cases hx
    exact ⟨_, rfl, h.share rfl rfl rfl rfl rfl fun _ hc => hc.fill⟩
  | data b bn m =>
    cases hx
    exact ⟨_, rfl, h⟩
  | store b bn m hm d =>
    cases hx
    exact ⟨_, rfl, h.share rfl rfl rfl rfl rfl fun _ hc => hc.store hm d⟩
  | copyin b bn m hm off src =>
    cases hx
    by_cases hall : src.all Option.isSome = true
    · exact ⟨_, .inl ⟨hall, rfl⟩, h.share rfl rfl rfl rfl rfl fun _ hc => hc.store hm _⟩
    · rw [Bool.not_eq_true] at hall
      exact ⟨_, .inr ⟨hall, rfl⟩, h.copyin_fail hM hall⟩
  | bwrite b bn m hm =>
    split_ifs at hx
    cases hx
    exact ⟨_, rfl, h.share rfl rfl rfl rfl rfl fun _ hc => hc.bwrite hm⟩
  | logWrite b bn m hm =>
    split_ifs at hx with hbig ho
    cases hx
    exact ⟨_, rfl, h.logWrite hm ho⟩
  | releasesleep b bn m hm hd =>
    split_ifs at hx
    cases hx
    exact ⟨_, rfl, h.share rfl rfl rfl rfl rfl fun _ hc => hc.releasesleep hm hd⟩
  | unref b bn =>
    cases hx
    exact ⟨_, rfl, h.share rfl rfl rfl rfl rfl fun _ hc => hc.unref⟩
  | beginOp =>
    split_ifs at hx with hc hspace
    cases hx
    refine ⟨_, rfl, h.op (by simp) (by simp) ⟨rfl, rfl, rfl⟩ fun _ hl => ?_⟩
    exact hl.beginOp (by simpa using hc)
  | endOp =>
    split_ifs at hx with hc hlast
    · cases hx
      refine ⟨_, .inl ⟨rfl, s.lh, rfl⟩, h.op (by simp) (by simp) ⟨rfl, rfl, rfl⟩ fun _ hl => ?_⟩
      exact hl.endOp_last (by simpa using hc) hlast
    cases hx
    refine ⟨_, .inr ⟨rfl, rfl⟩, h.op (by simp) (by simp) ⟨rfl, rfl, rfl⟩ fun _ hl => ?_⟩
    exact hl.endOp (by simpa using hc)
  | lh l l' =>
    cases hx
    obtain ⟨pend, -, hlog⟩ := id h
    obtain ⟨-, -, hh, -, -⟩ := hlog.of_commit
    exact ⟨_, ⟨hh, rfl⟩, h⟩
  | bunpin b bn l l' =>
    cases hx
    exact ⟨_, rfl, h.bunpin⟩
  | clearLh l =>
    cases hx
    refine ⟨_, rfl, h.op (by simp) (by simp) ⟨rfl, rfl, rfl⟩ fun pend hl => ?_⟩
    obtain ⟨-, -, -, rfl, -⟩ := hl.of_commit
    exact hl.recommit rfl rfl rfl (by simp)
  | endCommit =>
    cases hx
    exact ⟨_, rfl, h.op (by simp) (by simp) ⟨rfl, rfl, rfl⟩ fun _ hl => hl.endCommit⟩
  | panic e A => cases hx

end Hexv6.Blk
