import Hexv6.Lib.Frame
import Hexv6.Ino.Calls

/-!
# In-memory inodes

An inode is in at most one entry of the table that somebody refers to, and a valid entry of which
nobody holds the lock agrees with the disk.  Whoever gets the lock of an inode sees what is on the
disk then, even if the inode is being freed and allocated again at the same time: `iput` marks the
entry as invalid before it gives up the lock.

What a process knows of an entry is recorded by tokens.  `lock d true` is the lock of a valid inode
`d` that agrees with the disk, `lock d false` one that may have been changed; `iput` goes through
`freed` after it has written the free inode to the disk, and `dead` when the entry is invalid.
-/

namespace Hexv6.Ino

open Lib Multiset Function
open Blk (Inode)

inductive Mode
  | ref
  | raw
  | lock (d : Inode) (clean : Bool)
  | freed
  | dead

/-- The mode includes the sleep lock. -/
def Mode.locks : Mode → Bool
  | .ref => false
  | _ => true

/-- The entry may differ from the disk. -/
def Mode.loose : Mode → Bool
  | .lock _ clean => !clean
  | .freed => true
  | _ => false

/-- A reference to the inode `i`, in entry `k`. -/
structure Token where
  k : ISlot
  i : ℕ
  m : Mode

namespace Token

def onSlot (k : ISlot) (t : Token) : Bool := t.k = k

def locks (k : ISlot) (t : Token) : Bool := t.k = k ∧ t.m.locks

def loose (k : ISlot) (t : Token) : Bool := t.k = k ∧ t.m.loose

variable {P : Type}

def Means (s : State P) (t : Token) : Prop :=
  (s.itable t.k).inum = t.i ∧
    match t.m with
    | .lock d clean => (s.itable t.k).valid = true ∧ (s.itable t.k).node = d ∧
        (s.dinode t.i).type ≠ 0 ∧ (clean = true → s.dinode t.i = d)
    | .dead => (s.itable t.k).valid = false
    | _ => True

lemma locks_of_loose {k : ISlot} {t : Token} (h : t.loose k = true) : t.locks k = true := by
  obtain ⟨k', i, m⟩ := t
  simp only [loose, locks, decide_eq_true_eq] at h ⊢
  refine ⟨h.1, ?_⟩
  cases m <;> first | rfl | cases h.2

end Token

variable {P : Type} {s s' : State P} {W W' F : Multiset Token} {t : Token} {k k' : ISlot} {i : ℕ}
  {m m' : Mode} {d : Inode} {e : Entry P} {clean : Bool}

/-- The table, the disk and the tokens of all processes. -/
structure TableInv (s : State P) (W : Multiset Token) : Prop where
  means : ∀ t ∈ W, t.Means s
  refs : ∀ k, (s.itable k).ref = W.countP (·.onSlot k)
  locks : ∀ k, W.countP (·.locks k) ≤ if (s.itable k).lock = none then 0 else 1
  unique : ∀ k k', 0 < (s.itable k).ref → 0 < (s.itable k').ref →
    (s.itable k).inum = (s.itable k').inum → k = k'
  coh : ∀ k, 0 < (s.itable k).ref → (s.itable k).valid = true → (∀ t ∈ W, t.loose k = false) →
    (s.itable k).node = s.dinode (s.itable k).inum ∧ (s.dinode (s.itable k).inum).type ≠ 0

/-! ### Consequences -/

namespace TableInv

lemma ref_pos (h : TableInv s W) (ht : ⟨k, i, m⟩ ∈ W) : 0 < (s.itable k).ref := by
  rw [h.refs, countP_pos]
  exact ⟨_, ht, by simp [Token.onSlot]⟩

lemma inum_eq (h : TableInv s W) (ht : ⟨k, i, m⟩ ∈ W) : (s.itable k).inum = i := (h.means _ ht).1

/-- A sleep lock is held once. -/
lemma no_lock (h : TableInv s (⟨k, i, m⟩ ::ₘ F)) (hm : m.locks = true) :
    ∀ t ∈ F, t.locks k = false := by
  intro t ht
  by_contra hlock
  have hpos : 0 < F.countP (·.locks k) := countP_pos.2 ⟨t, ht, by simpa using hlock⟩
  have hle := h.locks k
  rw [countP_cons_of_pos _ (by simp [Token.locks, hm])] at hle
  split_ifs at hle <;> omega

lemma no_lock_of_free (h : TableInv s W) (hfree : (s.itable k).lock = none) :
    ∀ t ∈ W, t.locks k = false := by
  have hle := h.locks k
  rw [if_pos hfree, Nat.le_zero, countP_eq_zero] at hle
  intro t ht
  simpa using hle t ht

lemma lock_ne_none (h : TableInv s (⟨k, i, m⟩ ::ₘ F)) (hm : m.locks = true) :
    (s.itable k).lock ≠ none := by
  intro hfree
  have hnone := h.no_lock_of_free hfree _ (mem_cons_self _ _)
  simp [Token.locks, hm] at hnone

lemma not_loose_of_free (h : TableInv s W) (hfree : (s.itable k).lock = none) :
    ∀ t ∈ W, t.loose k = false := by
  intro t ht
  by_contra hloose
  have hlock := Token.locks_of_loose (by simpa using hloose)
  rw [h.no_lock_of_free hfree t ht] at hlock
  cases hlock

/-- Tokens for one inode are for one entry. -/
lemma slot_eq (h : TableInv s W) (ht : ⟨k, i, m⟩ ∈ W) (ht' : ⟨k', i, m'⟩ ∈ W) : k = k' :=
  h.unique k k' (h.ref_pos ht) (h.ref_pos ht') ((h.inum_eq ht).trans (h.inum_eq ht').symm)

end TableInv

/-! ### Changes of an entry -/

@[simp] lemma modify_self (f : Entry P → Entry P) : (s.modify k f).itable k = f (s.itable k) :=
  update_self ..

lemma modify_of_ne (hk : k' ≠ k) (f : Entry P → Entry P) : (s.modify k f).itable k' = s.itable k' :=
  update_of_ne hk ..

/-- Tokens of other entries keep their meaning. -/
lemma Token.Means.modify (h : t.Means s) (hk : t.k ≠ k) (f : Entry P → Entry P) :
    t.Means (s.modify k f) := by
  rw [Token.Means, modify_of_ne hk]
  exact h

namespace TableInv

/-- The process that has the lock, or takes it, changes an entry. -/
lemma swap {f : Entry P → Entry P} (h : TableInv s (⟨k, i, m⟩ ::ₘ F))
    (hF : ∀ t ∈ F, t.locks k = false) (hinum : (f (s.itable k)).inum = (s.itable k).inum)
    (href : (f (s.itable k)).ref = (s.itable k).ref)
    (hlock : m'.locks = true → (f (s.itable k)).lock ≠ none)
    (hmeans : Token.Means (s.modify k f) ⟨k, i, m'⟩)
    (hcoh : (f (s.itable k)).valid = true → m'.loose = false →
      (f (s.itable k)).node = s.dinode i ∧ (s.dinode i).type ≠ 0) :
    TableInv (s.modify k f) (⟨k, i, m'⟩ ::ₘ F) := by
  have hi := h.inum_eq (mem_cons_self _ _)
  have hfields : ∀ k', ((s.modify k f).itable k').inum = (s.itable k').inum ∧
      ((s.modify k f).itable k').ref = (s.itable k').ref := by
    intro k'
    rcases eq_or_ne k' k with rfl | hk'
    · rw [modify_self]
      exact ⟨hinum, href⟩
    · rw [modify_of_ne hk']
      exact ⟨rfl, rfl⟩
  refine
    { means := forall_mem_cons.2 ⟨hmeans, fun t ht => ?_⟩, refs := fun k' => ?_
      locks := fun k' => ?_, unique := fun k1 k2 h1 h2 heq => ?_
      coh := fun k' hpos hv hloose => ?_ }
  · have hm := h.means t (mem_cons_of_mem ht)
    by_cases hk : t.k = k
    · -- another process has a plain reference to the entry
      subst hk
      have hplain := hF t ht
      obtain ⟨k0, i0, m0⟩ := t
      cases m0 with
      | ref => exact ⟨(hfields k0).1.trans hm.1, trivial⟩
      | _ => simp [Token.locks, Mode.locks] at hplain
    · exact hm.modify hk f
  · rw [(hfields k').2, h.refs k', countP_cons, countP_cons]
    rfl
  · rcases eq_or_ne k' k with rfl | hk'
    · have hzero : F.countP (·.locks k') = 0 := countP_eq_zero.2 fun t ht => by simp [hF t ht]
      rw [modify_self, countP_cons, hzero]
      by_cases hm : m'.locks = true
      · rw [if_pos (by simp [Token.locks, hm]), if_neg (hlock hm)]
      · rw [if_neg (by simp [Token.locks, hm])]
        exact Nat.zero_le _
    have hle := h.locks k'
    rw [countP_cons_of_neg _ (by simp [Token.locks, hk'.symm])] at hle
    rw [countP_cons_of_neg _ (by simp [Token.locks, hk'.symm]), modify_of_ne hk']
    exact hle
  · rw [(hfields k1).1, (hfields k2).1] at heq
    rw [(hfields k1).2] at h1
    rw [(hfields k2).2] at h2
    exact h.unique k1 k2 h1 h2 heq
  · rcases eq_or_ne k' k with rfl | hk'
    · rw [modify_self] at hv ⊢
      rw [hinum, hi]
      refine hcoh hv ?_
      simpa [Token.loose] using hloose _ (mem_cons_self _ _)
    rw [modify_of_ne hk'] at hpos hv ⊢
    refine h.coh k' hpos hv (forall_mem_cons.2 ⟨by simp [Token.loose, hk'.symm], fun t ht => ?_⟩)
    exact hloose t (mem_cons_of_mem ht)

/-- What the process that has the lock of an unchanged entry knows. -/
lemma coh_of_mem (h : TableInv s (⟨k, i, m⟩ ::ₘ F)) (hF : ∀ t ∈ F, t.locks k = false)
    (hm : m.loose = false) (hv : (s.itable k).valid = true) :
    (s.itable k).node = s.dinode i ∧ (s.dinode i).type ≠ 0 := by
  have hi := h.inum_eq (mem_cons_self _ _)
  rw [← hi]
  refine h.coh k (h.ref_pos (mem_cons_self _ _)) hv (forall_mem_cons.2 ⟨?_, fun t ht => ?_⟩)
  · simp [Token.loose, hm]
  by_contra hloose
  have hlock := Token.locks_of_loose (by simpa using hloose)
  rw [hF t ht] at hlock
  cases hlock

lemma acquiresleep (h : TableInv s (⟨k, i, .ref⟩ ::ₘ F)) (p : P)
    (hfree : (s.itable k).lock = none) :
    TableInv (s.modify k fun e => { e with lock := some p }) (⟨k, i, .raw⟩ ::ₘ F) := by
  have hF : ∀ t ∈ F, t.locks k = false := fun t ht => h.no_lock_of_free hfree t (mem_cons_of_mem ht)
  refine h.swap hF rfl rfl (fun _ => by simp) ⟨?_, trivial⟩ fun hv _ => h.coh_of_mem hF rfl hv
  rw [modify_self]
  exact h.inum_eq (mem_cons_self _ _)

lemma readInode_valid (h : TableInv s (⟨k, i, .raw⟩ ::ₘ F)) (hv : (s.itable k).valid = true) :
    ∃ d, d.type ≠ 0 ∧ TableInv s (⟨k, i, .lock d true⟩ ::ₘ F) := by
  obtain ⟨hnode, htype⟩ := h.coh_of_mem (h.no_lock rfl) rfl hv
  have hi := h.inum_eq (mem_cons_self _ _)
  have hid : s.modify k id = s := by simp [State.modify]
  have hset : TableInv (s.modify k id) (⟨k, i, .lock (s.dinode i) true⟩ ::ₘ F) := by
    refine h.swap (h.no_lock rfl) rfl rfl (fun _ => h.lock_ne_none rfl) ?_ fun _ _ => ⟨hnode, htype⟩
    rw [hid]
    exact ⟨hi, hv, hnode, htype, fun _ => rfl⟩
  rw [hid] at hset
  exact ⟨_, htype, hset⟩

lemma readInode (h : TableInv s (⟨k, i, .raw⟩ ::ₘ F)) (htype : (s.dinode i).type ≠ 0) :
    TableInv (s.modify k fun e => { e with node := s.dinode e.inum, valid := true })
      (⟨k, i, .lock (s.dinode i) true⟩ ::ₘ F) := by
  have hi := h.inum_eq (mem_cons_self _ _)
  refine h.swap (h.no_lock rfl) rfl rfl (fun _ => h.lock_ne_none rfl) ⟨?_, ?_⟩ fun _ _ => ?_
  · rw [modify_self]
    exact hi
  · rw [modify_self]
    exact ⟨rfl, congrArg s.dinode hi, htype, fun _ => rfl⟩
  · exact ⟨congrArg s.dinode hi, htype⟩

lemma iunlock (h : TableInv s (⟨k, i, .lock d true⟩ ::ₘ F)) :
    TableInv (s.modify k fun e => { e with lock := none }) (⟨k, i, .ref⟩ ::ₘ F) := by
  have hF := h.no_lock rfl
  refine h.swap hF rfl rfl nofun ⟨?_, trivial⟩ fun hv _ => ?_
  · rw [modify_self]
    exact h.inum_eq (mem_cons_self _ _)
  · exact h.coh_of_mem hF rfl hv

lemma setNode (h : TableInv s (⟨k, i, .lock d clean⟩ ::ₘ F)) (d' : Inode) :
    TableInv (s.modify k fun e => { e with node := d' }) (⟨k, i, .lock d' false⟩ ::ₘ F) := by
  obtain ⟨hi, hv, -, htype, -⟩ := h.means _ (mem_cons_self _ _)
  refine h.swap (h.no_lock rfl) rfl rfl (fun _ => h.lock_ne_none rfl) ⟨?_, ?_⟩
    fun _ hl => by cases hl
  · rw [modify_self]
    exact hi
  · rw [modify_self]
    exact ⟨hv, rfl, htype, fun hc => by cases hc⟩

lemma invalidate (h : TableInv s (⟨k, i, .freed⟩ ::ₘ F)) :
    TableInv (s.modify k fun e => { e with valid := false }) (⟨k, i, .dead⟩ ::ₘ F) := by
  refine h.swap (h.no_lock rfl) rfl rfl (fun _ => h.lock_ne_none rfl) ⟨?_, ?_⟩
    fun hv _ => by cases hv
  · rw [modify_self]
    exact h.inum_eq (mem_cons_self _ _)
  · rw [modify_self]

lemma releasesleep (h : TableInv s (⟨k, i, .dead⟩ ::ₘ F)) :
    TableInv (s.modify k fun e => { e with lock := none }) (⟨k, i, .ref⟩ ::ₘ F) := by
  have hdead : (s.itable k).valid = false := (h.means _ (mem_cons_self _ _)).2
  refine h.swap (h.no_lock rfl) rfl rfl nofun ⟨?_, trivial⟩ fun hv _ => ?_
  · rw [modify_self]
    exact h.inum_eq (mem_cons_self _ _)
  · exact absurd (hdead.symm.trans hv) (by decide)

/-! ### References -/

/-- The number of references to an entry changes, and with it plain tokens. -/
lemma recount {r : ℕ} (h : TableInv s W) (hpos : 0 < r → 0 < (s.itable k).ref)
    (hmeans : ∀ t ∈ W', t ∈ W ∨ t.m = .ref ∧ t.i = (s.itable t.k).inum)
    (href : r = W'.countP (·.onSlot k))
    (hrefs : ∀ k', k' ≠ k → W'.countP (·.onSlot k') = W.countP (·.onSlot k'))
    (hlocks : ∀ k', W'.countP (·.locks k') = W.countP (·.locks k'))
    (hloose : ∀ k', (∀ t ∈ W', t.loose k' = false) → ∀ t ∈ W, t.loose k' = false) :
    TableInv (s.modify k fun e => { e with ref := r }) W' := by
  have hsame : ∀ k', (s.modify k fun e => { e with ref := r }).itable k' =
      { s.itable k' with ref := ((s.modify k fun e => { e with ref := r }).itable k').ref } := by
    intro k'
    rcases eq_or_ne k' k with rfl | hk'
    · rw [modify_self]
    · rw [modify_of_ne hk']
  have hpos' : ∀ k', 0 < ((s.modify k fun e => { e with ref := r }).itable k').ref →
      0 < (s.itable k').ref := by
    intro k'
    rcases eq_or_ne k' k with rfl | hk'
    · rw [modify_self]
      exact hpos
    · rw [modify_of_ne hk']
      exact id
  refine
    { means := fun t ht => ?_, refs := fun k' => ?_, locks := fun k' => ?_
      unique := fun k1 k2 h1 h2 heq => ?_, coh := fun k' hp hv hl => ?_ }
  · rw [Token.Means, hsame]
    rcases hmeans t ht with hmem | ⟨hm, hi⟩
    · exact h.means t hmem
    · rw [hm]
      exact ⟨hi.symm, trivial⟩
  · rcases eq_or_ne k' k with rfl | hk'
    · rw [modify_self]
      exact href
    · rw [modify_of_ne hk', h.refs, hrefs k' hk']
  · rw [hlocks, hsame]
    exact h.locks k'
  · rw [hsame k1, hsame k2] at heq
    exact h.unique k1 k2 (hpos' k1 h1) (hpos' k2 h2) heq
  · rw [hsame] at hv ⊢
    exact h.coh k' (hpos' k' hp) hv (hloose k' hl)

/-- Another reference. -/
lemma addRef (h : TableInv s W) (hpos : 0 < (s.itable k).ref) (hi : (s.itable k).inum = i) :
    TableInv (s.modify k fun e => { e with ref := e.ref + 1 }) (⟨k, i, .ref⟩ ::ₘ W) := by
  refine h.recount (fun _ => hpos) (fun t ht => ?_) ?_ (fun k' hk' => ?_) (fun k' => ?_)
    fun k' hl t ht => hl t (mem_cons_of_mem ht)
  · rcases mem_cons.1 ht with rfl | ht
    · exact .inr ⟨rfl, hi.symm⟩
    · exact .inl ht
  · rw [countP_cons_of_pos _ (by simp [Token.onSlot]), h.refs]
  · exact countP_cons_of_neg _ (by simp [Token.onSlot, hk'.symm])
  · exact countP_cons_of_neg _ (by simp [Token.locks, Mode.locks])

/-- A reference is given up. -/
lemma dropRef (h : TableInv s (⟨k, i, .ref⟩ ::ₘ F)) :
    TableInv (s.modify k fun e => { e with ref := e.ref - 1 }) F := by
  refine h.recount (fun _ => h.ref_pos (mem_cons_self _ _)) (fun t ht => .inl (mem_cons_of_mem ht))
    ?_ (fun k' hk' => ?_) (fun k' => ?_) fun k' hl => ?_
  · rw [h.refs, countP_cons_of_pos _ (by simp [Token.onSlot]), Nat.add_sub_cancel]
  · exact (countP_cons_of_neg _ (by simp [Token.onSlot, hk'.symm])).symm
  · exact (countP_cons_of_neg _ (by simp [Token.locks, Mode.locks])).symm
  · exact forall_mem_cons.2 ⟨by simp [Token.loose, Mode.loose], hl⟩

/-- `iget` recycles an entry that nobody refers to, for an inode that is in no other entry. -/
lemma iget_new (h : TableInv s W) (hzero : (s.itable k).ref = 0)
    (hnew : ∀ k', 0 < (s.itable k').ref → (s.itable k').inum ≠ i) :
    TableInv (s.modify k fun e => { e with inum := i, ref := 1, valid := false })
      (⟨k, i, .ref⟩ ::ₘ W) := by
  have hnone : ∀ t ∈ W, t.k ≠ k := by
    intro t ht hk
    have hcount := (h.refs k).symm.trans hzero
    exact countP_eq_zero.1 hcount t ht (by simp [Token.onSlot, hk])
  refine
    { means := forall_mem_cons.2 ⟨⟨?_, trivial⟩, fun t ht => (h.means t ht).modify (hnone t ht) _⟩
      refs := fun k' => ?_, locks := fun k' => ?_, unique := fun k1 k2 h1 h2 heq => ?_
      coh := fun k' hp hv hl => ?_ }
  · rw [modify_self]
  · rcases eq_or_ne k' k with rfl | hk'
    · rw [modify_self, countP_cons_of_pos _ (by simp [Token.onSlot]), ← h.refs, hzero]
    · rw [modify_of_ne hk', countP_cons_of_neg _ (by simp [Token.onSlot, hk'.symm]), h.refs]
  · have hle := h.locks k'
    rw [countP_cons_of_neg _ (by simp [Token.locks, Mode.locks])]
    rcases eq_or_ne k' k with rfl | hk'
    · rw [modify_self]
      exact hle
    · rw [modify_of_ne hk']
      exact hle
  · rcases eq_or_ne k1 k with hk1 | hk1 <;> rcases eq_or_ne k2 k with hk2 | hk2
    · rw [hk1, hk2]
    · rw [hk1, modify_self, modify_of_ne hk2] at heq
      rw [modify_of_ne hk2] at h2
      exact absurd heq.symm (hnew k2 h2)
    · rw [hk2, modify_self, modify_of_ne hk1] at heq
      rw [modify_of_ne hk1] at h1
      exact absurd heq (hnew k1 h1)
    · rw [modify_of_ne hk1] at h1 heq
      rw [modify_of_ne hk2] at h2 heq
      exact h.unique k1 k2 h1 h2 heq
  · rcases eq_or_ne k' k with rfl | hk'
    · rw [modify_self] at hv
      cases hv
    · rw [modify_of_ne hk'] at hp hv ⊢
      exact h.coh k' hp hv fun t ht => hl t (mem_cons_of_mem ht)

lemma iget (h : TableInv s W) (hx : s.iget i = .ok (s', k)) : TableInv s' (⟨k, i, .ref⟩ ::ₘ W) := by
  rw [State.iget] at hx
  split at hx
  · rename_i k0 hfind
    cases hx
    have hk := List.find?_some hfind
    rw [decide_eq_true_eq] at hk
    exact h.addRef hk.1 hk.2
  rename_i hnone
  split at hx
  · rename_i k0 hfree
    cases hx
    have hk := List.find?_some hfree
    rw [decide_eq_true_eq] at hk
    refine h.iget_new hk fun k' hpos hi => ?_
    exact List.find?_eq_none.1 hnone k' (List.mem_finRange k') (decide_eq_true ⟨hpos, hi⟩)
  · cases hx

/-! ### The disk -/

/-- Tokens that do not know the inode `i` keep their meaning when it changes on the disk. -/
lemma means_setDinode (h : TableInv s W) (ht : t ∈ W) (d' : Inode)
    (hne : ∀ d clean, t.m = .lock d clean → t.i ≠ i) :
    t.Means { s with dinode := Function.update s.dinode i d' } := by
  have hm := h.means t ht
  obtain ⟨k0, i0, m0⟩ := t
  cases m0 with
  | lock d clean =>
    have hi : i0 ≠ i := hne d clean rfl
    refine ⟨hm.1, hm.2.1, hm.2.2.1, ?_⟩
    simp only [update_of_ne hi]
    exact hm.2.2.2
  | _ => exact hm

section

variable (h : TableInv s (⟨k, i, .lock d clean⟩ ::ₘ F))
include h

/-- The process that has the lock writes the inode to the disk. -/
lemma iupdate (hlocks : m'.locks = true)
    (hmeans : Token.Means { s with dinode := Function.update s.dinode i d } ⟨k, i, m'⟩)
    (htype : m'.loose = false → d.type ≠ 0) :
    TableInv { s with dinode := Function.update s.dinode i d } (⟨k, i, m'⟩ ::ₘ F) := by
  have hmem : (⟨k, i, .lock d clean⟩ : Token) ∈ (⟨k, i, .lock d clean⟩ ::ₘ F : Multiset Token) :=
    mem_cons_self _ _
  obtain ⟨hi, hv, hnode, -⟩ := h.means _ hmem
  have hF := h.no_lock rfl
  -- the inode is in no other entry
  have hother : ∀ k', k' ≠ k → 0 < (s.itable k').ref → (s.itable k').inum ≠ i := by
    intro k' hk' hpos hi'
    exact hk' (h.unique k' k hpos (h.ref_pos hmem) (hi'.trans hi.symm))
  refine
    { means := forall_mem_cons.2 ⟨hmeans, fun t ht => ?_⟩, refs := fun k' => ?_
      locks := fun k' => ?_, unique := h.unique, coh := fun k' hp hv' hl => ?_ }
  · refine h.means_setDinode (mem_cons_of_mem ht) d fun d' clean' hm hti => ?_
    obtain ⟨k0, i0, m0⟩ := t
    obtain rfl : m0 = .lock d' clean' := hm
    obtain rfl : i0 = i := hti
    obtain rfl := h.slot_eq hmem (mem_cons_of_mem ht)
    simpa [Token.locks, Mode.locks] using hF _ ht
  · rw [h.refs k', countP_cons, countP_cons]
    rfl
  · have hle := h.locks k'
    have hsame : Token.locks k' ⟨k, i, m'⟩ = Token.locks k' ⟨k, i, .lock d clean⟩ := by
      simp only [Token.locks, hlocks, show (Mode.lock d clean).locks = true from rfl]
    rw [countP_cons] at hle ⊢
    rw [hsame]
    exact hle
  · rcases eq_or_ne k' k with rfl | hk'
    · simp only [hi, update_self]
      refine ⟨hnode, htype ?_⟩
      simpa [Token.loose] using hl _ (mem_cons_self _ _)
    simp only [update_of_ne (hother k' hk' hp)]
    refine h.coh k' hp hv' (forall_mem_cons.2 ⟨by simp [Token.loose, hk'.symm], fun t ht => ?_⟩)
    exact hl t (mem_cons_of_mem ht)

/-- The inode stays allocated. -/
lemma iupdate_alloc (htype : d.type ≠ 0) :
    TableInv { s with dinode := Function.update s.dinode i d } (⟨k, i, .lock d true⟩ ::ₘ F) := by
  obtain ⟨hi, hv, hnode, -⟩ := h.means _ (mem_cons_self _ _)
  refine h.iupdate rfl ⟨hi, hv, hnode, ?_, fun _ => ?_⟩ fun _ => htype
  · simpa only [update_self] using htype
  · simp only [update_self]

/-- The inode is free from now on. -/
lemma iupdate_free :
    TableInv { s with dinode := Function.update s.dinode i d } (⟨k, i, .freed⟩ ::ₘ F) :=
  h.iupdate rfl ⟨h.inum_eq (mem_cons_self _ _), trivial⟩ fun hl => by cases hl

end

/-- Nobody relies on an inode that is free on the disk. -/
lemma ialloc (h : TableInv s W) (hfree : (s.dinode i).type = 0) (d : Inode) :
    TableInv { s with dinode := Function.update s.dinode i d } W := by
  refine
    { means := fun t ht => ?_, refs := h.refs, locks := h.locks, unique := h.unique
      coh := fun k' hp hv hl => ?_ }
  · refine h.means_setDinode ht d fun d' clean hm hti => ?_
    have hmeans := h.means t ht
    rw [Token.Means, hm] at hmeans
    rw [hti] at hmeans
    exact hmeans.2.2.2.1 hfree
  obtain ⟨hnode, htype⟩ := h.coh k' hp hv hl
  have hne : (s.itable k').inum ≠ i := by
    intro hi
    rw [hi] at htype
    exact htype hfree
  simp only [update_of_ne hne]
  exact ⟨hnode, htype⟩

/-- The last reference to an inode without links: nobody else has the lock. -/
lemma iputTest (h : TableInv s (⟨k, i, .ref⟩ ::ₘ F)) (p : P) (hv : (s.itable k).valid = true)
    (hfree : (s.itable k).lock = none) :
    ∃ d, d.type ≠ 0 ∧
      TableInv (s.modify k fun e => { e with lock := some p }) (⟨k, i, .lock d true⟩ ::ₘ F) := by
  have hraw := h.acquiresleep p hfree
  refine hraw.readInode_valid ?_
  rw [modify_self]
  exact hv

end TableInv

end Hexv6.Ino
