import Hexv6.Fs.Tokens

/-!
# The operations keep the invariant

For every operation, from which tokens to which tokens it leads.  The lemmas about the inode
table come first; the operations that write to the disk are all covered by `Core.iupdate`,
which asks for the tree, the link counts and the meaning of the new tokens only.
-/

namespace Hexv6.Fs

open Lib Multiset

variable {P : Type} {n : ℕ} {s s' : State P} {k k' : Slot} {i j : ℕ} {t : Token}
  {F W : Multiset Token} {m m' : Mode} {d d' : Dinode}

/-! ### References -/

/-- One more reference to an entry that is in use. -/
lemma Core.refUp (h : Core n s W) (hpos : 0 < (s.itable k).ref) (hi : (s.itable k).inum = i)
    (hm : (Mode.ref none).Means n s.disk (s.itable k).valid i)
    (hexcl : ∀ t ∈ W, t.excl i = false) :
    Core n (s.setInode k { s.itable k with ref := (s.itable k).ref + 1 })
      (.slot k i (.ref none) ::ₘ W) := by
  refine h.setInode rfl id (h.coh k hpos) (fun _ => hpos) (fun t ht => .inl ?_) ?_
    (fun k' hk => ?_) ?_ (fun k' _ => ?_) (fun j => ?_) (fun j t ht hj => ?_) fun j hj => ?_
  · rcases mem_cons.1 ht with rfl | ht
    · exact ⟨hi, hm⟩
    · exact h.means t ht
  · simp [h.refs]
  · simp [hk.symm]
  · simpa [countP_cons, Mode.locks] using h.locks k
  · simp [Mode.locks]
  · simp [Mode.ahead]
  · rcases mem_cons.1 ht with rfl | ht
    · simp [Mode.excl] at hj
    have hji : i ≠ j := by
      rintro rfl
      rw [hexcl t ht] at hj
      cases hj
    simpa [countP_cons, hji] using h.excl j t ht hj
  · obtain ⟨t, ht, htj⟩ := hj
    exact ⟨t, mem_cons_of_mem ht, htj⟩

lemma Core.idup (h : Core n s (.slot k i (.ref none) ::ₘ F)) :
    Core n (s.setInode k { s.itable k with ref := (s.itable k).ref + 1 })
      (.slot k i (.ref none) ::ₘ .slot k i (.ref none) ::ₘ F) := by
  obtain ⟨hi, hm⟩ := h.means _ (mem_cons_self _ _)
  refine h.refUp (h.ref_pos (mem_cons_self _ _)) hi hm fun t ht => ?_
  rcases mem_cons.1 ht with rfl | ht
  · simp [Mode.excl]
  · exact h.no_excl (by simp [Mode.proper]) t ht

/-- A reference is given up. -/
lemma Core.refDown (h : Core n s (.slot k i m ::ₘ F)) (hlocks : m.locks = false)
    (hexcl : m.excl = false) (hahead : m.ahead = false) :
    Core n (s.setInode k { s.itable k with ref := (s.itable k).ref - 1 }) F := by
  have hpos := h.ref_pos (mem_cons_self _ _)
  refine h.setInode rfl id (h.coh k hpos) (fun _ => hpos)
    (fun t ht => .inl (h.means t (mem_cons_of_mem ht))) ?_ (fun k' hk => ?_) ?_ (fun k' _ => ?_)
    (fun j => ?_) (fun j t ht hj => ?_) fun j hj => ?_
  · simp [h.refs]
  · simp [hk.symm]
  · simpa [countP_cons, hlocks] using h.locks k
  · simp [hlocks]
  · simp [hahead]
  · have hle := h.excl j t (mem_cons_of_mem ht) hj
    rw [countP_cons] at hle
    omega
  · obtain ⟨t, ht, htj⟩ := hj
    rcases mem_cons.1 ht with rfl | ht
    · simp [hexcl] at htj
    · exact ⟨t, ht, htj⟩

/-- A reference changes its mode, and maybe the lock is taken or released. -/
lemma Core.swap (h : Core n s (.slot k i m ::ₘ F)) {ip : Inode P}
    (hinum : ip.inum = (s.itable k).inum)
    (hvalid : (s.itable k).valid = true → ip.valid = true)
    (hcoh : ip.valid = true → ip.node = s.disk (s.itable k).inum ∧
      (s.disk (s.itable k).inum).type ≠ .free)
    (href : ip.ref = (s.itable k).ref)
    (hm : m'.Means n s.disk ip.valid i) (hF : ∀ t ∈ F, t.locks k = false)
    (hlock : m'.locks = true → ip.lock ≠ none) (hahead : m'.ahead = m.ahead)
    (hproper : m'.proper = true → m.proper = true)
    (hexcl : m'.excl = true → m.excl = true ∨ F.countP (·.proper i) = 0)
    (hpart : m.excl = true → m'.excl = true) :
    Core n (s.setInode k ip) (.slot k i m' ::ₘ F) := by
  refine h.setInode hinum hvalid hcoh (by rw [href]; exact id) (fun t ht => ?_) ?_
    (fun k' hk => ?_) ?_ (fun k' hk => ?_) (fun j => ?_) (fun j t ht hj => ?_) fun j hj => ?_
  · rcases mem_cons.1 ht with rfl | ht
    · right
      rw [Token.Means, setInode_self]
      exact ⟨hinum.trans (h.inum_eq (mem_cons_self _ _)), hm⟩
    · exact .inl (h.means t (mem_cons_of_mem ht))
  · rw [href, h.refs]
    simp
  · simp [hk.symm]
  · have hzero : F.countP (·.locks k) = 0 := by
      rw [countP_eq_zero]
      intro t ht
      simp [hF t ht]
    rw [countP_cons, hzero]
    cases hl : m'.locks with
    | false => simp [hl]
    | true => simp [hl, hlock hl]
  · simp [hk.symm]
  · simp [countP_cons, hahead]
  · -- the exclusive token is the changed one, or it was there before
    have hle : countP (·.proper j) (.slot k i m' ::ₘ F) ≤
        countP (·.proper j) (.slot k i m ::ₘ F) := by
      rw [countP_cons, countP_cons]
      by_cases hji : i = j
      · simp only [Token.proper_slot, hji, true_and, Bool.decide_eq_true]
        cases hp : m'.proper with
        | false => simp
        | true => simp [hproper hp]
      · simp [hji]
    rcases mem_cons.1 ht with rfl | ht
    · simp only [Token.excl_slot, decide_eq_true_eq] at hj
      obtain ⟨rfl, hexcl'⟩ := hj
      rcases hexcl hexcl' with hold | hzero
      · exact hle.trans (h.excl i _ (mem_cons_self _ _) (by simp [hold]))
      · rw [countP_cons, hzero]
        split_ifs <;> omega
    · exact hle.trans (h.excl j t (mem_cons_of_mem ht) hj)
  · obtain ⟨t, ht, htj⟩ := hj
    rcases mem_cons.1 ht with rfl | ht
    · simp only [Token.excl_slot, decide_eq_true_eq] at htj
      exact ⟨_, mem_cons_self _ _, by simp [htj.1, hpart htj.2]⟩
    · exact ⟨t, mem_cons_of_mem ht, htj⟩

/-- An entry of the table that is not in use is taken for an inode that is in no entry. -/
lemma Core.recycle {A : Multiset Token} (h : Core n s (A + F)) (href : (s.itable k).ref = 0)
    (hno : ∀ k', 0 < (s.itable k').ref → (s.itable k').inum ≠ i)
    (hm : m.Means n s.disk false i) (hlocks : m.locks = false) (hahead : m.ahead = false)
    (hA : ∀ t ∈ A, ∃ type, t = .born i type) (hexcl : m.excl = true → F.countP (·.proper i) = 0)
    (hexcl' : m.excl = false → ∀ t ∈ A + F, t.excl i = false)
    (hpart : A ≠ 0 → m.excl = true) :
    Core n (s.setInode k { s.itable k with inum := i, ref := 1, valid := false })
      (.slot k i m ::ₘ F) := by
  have hmem : ∀ t ∈ F, t ∈ A + F := fun t ht => mem_add.2 (.inr ht)
  have hA0 : ∀ {q : Token → Bool}, (∀ type, q (.born i type) = false) → A.countP (q ·) = 0 := by
    intro q hq
    rw [countP_eq_zero]
    intro t ht
    obtain ⟨type, rfl⟩ := hA t ht
    simp [hq type]
  -- no token is on the entry, since nobody has a reference to it
  have hoff : ∀ t ∈ F, t.onSlot k = false := by
    intro t ht
    by_contra hon
    have hpos : 0 < (A + F).countP (·.onSlot k) := countP_pos.2 ⟨t, hmem t ht, by simpa using hon⟩
    rw [← h.refs, href] at hpos
    exact lt_irrefl 0 hpos
  have hzero : F.countP (·.onSlot k) = 0 := by
    rw [countP_eq_zero]
    intro t ht
    simp [hoff t ht]
  refine
    { means := fun t ht => ?_, refs := fun k' => ?_, locks := fun k' => ?_
      unique := fun k1 k2 h1 h2 heq => ?_, coh := fun k' hk' hv => ?_, links := fun j hj => ?_
      tree := h.tree, excl := fun j t ht hj => ?_, part := fun j hdir hlen => ?_ }
  · rcases mem_cons.1 ht with rfl | ht
    · rw [Token.Means, setInode_self]
      exact ⟨rfl, hm⟩
    refine (h.means t (hmem t ht)).of_table rfl fun k' i' m' hk' => ?_
    have hne : k' ≠ k := by
      intro heq
      simpa [hk', heq] using hoff t ht
    rw [setInode_of_ne hne]
    exact ⟨rfl, id⟩
  · rcases eq_or_ne k' k with rfl | hk
    · rw [setInode_self]
      simp [hzero]
    · rw [setInode_of_ne hk, h.refs, countP_add, hA0 fun _ => rfl]
      simp [hk.symm]
  · have hle := h.locks k'
    rw [countP_add, hA0 fun _ => rfl] at hle
    rcases eq_or_ne k' k with rfl | hk
    · rw [setInode_self]
      simpa [hlocks] using hle
    · rw [setInode_of_ne hk]
      simpa [hlocks] using hle
  · by_cases hk1 : k1 = k <;> by_cases hk2 : k2 = k
    · rw [hk1, hk2]
    · rw [setInode_of_ne hk2] at h2 heq
      rw [hk1, setInode_self] at heq
      exact absurd heq.symm (hno k2 h2)
    · rw [setInode_of_ne hk1] at h1 heq
      rw [hk2, setInode_self] at heq
      exact absurd heq (hno k1 h1)
    · rw [setInode_of_ne hk1] at h1 heq
      rw [setInode_of_ne hk2] at h2 heq
      exact h.unique k1 k2 h1 h2 heq
  · rcases eq_or_ne k' k with rfl | hk
    · rw [setInode_self] at hv
      cases hv
    · rw [setInode_of_ne hk] at hk' hv ⊢
      exact h.coh k' hk' hv
  · have hlinks := h.links j hj
    rw [countP_add, hA0 fun _ => rfl, Nat.zero_add] at hlinks
    simpa [hahead] using hlinks
  · rcases mem_cons.1 ht with rfl | ht
    · simp only [Token.excl_slot, decide_eq_true_eq] at hj
      obtain ⟨rfl, hj⟩ := hj
      rw [countP_cons, hexcl hj]
      split_ifs <;> omega
    have hle := h.excl j t (hmem t ht) hj
    rw [countP_add] at hle
    rcases eq_or_ne i j with rfl | hij
    · cases hx : m.excl with
      | true =>
        have hpos : 0 < F.countP (·.proper i) := countP_pos.2 ⟨t, ht, Token.proper_of_excl hj⟩
        rw [hexcl hx] at hpos
        exact absurd hpos (lt_irrefl 0)
      | false =>
        rw [hexcl' hx t (hmem t ht)] at hj
        cases hj
    simp only [countP_cons, Token.proper_slot, hij, false_and, decide_false]
    simp only [Bool.false_eq_true, if_false]
    omega
  · obtain ⟨t, ht, htj⟩ := h.part j hdir hlen
    rcases mem_add.1 ht with ht | ht
    · obtain ⟨type, rfl⟩ := hA t ht
      simp only [Token.excl_born, decide_eq_true_eq] at htj
      subst htj
      have hne : A ≠ 0 := by
        rintro rfl
        simp at ht
      exact ⟨_, mem_cons_self _ _, by simp [hpart hne]⟩
    · exact ⟨t, mem_cons_of_mem ht, htj⟩

/-! ### `iget` -/

/-- `iget` finds the entry of the inode, or takes one that is not in use. -/
lemma iget_cases (hx : iget s i = .ok (s', k)) : (0 < (s.itable k).ref ∧ (s.itable k).inum = i ∧
      s' = s.setInode k { s.itable k with ref := (s.itable k).ref + 1 }) ∨
    ((s.itable k).ref = 0 ∧ (∀ k', 0 < (s.itable k').ref → (s.itable k').inum ≠ i) ∧
      s' = s.setInode k { s.itable k with inum := i, ref := 1, valid := false }) := by
  rw [iget] at hx
  split at hx
  · rename_i k1 hfind
    have hk := List.find?_some hfind
    simp only [decide_eq_true_eq] at hk
    cases hx
    exact .inl ⟨hk.1, hk.2, rfl⟩
  rename_i hnone
  split at hx
  · rename_i k1 hfind
    have hk := List.find?_some hfind
    simp only [decide_eq_true_eq] at hk
    cases hx
    refine .inr ⟨hk, fun k' hpos hi => ?_, rfl⟩
    have := List.find?_eq_none.1 hnone k' (List.mem_finRange k')
    simp [hpos, hi] at this
  · cases hx

/-- A reference to an inode that may be looked up. -/
lemma Core.iget (h : Core n s W) (hx : iget s i = .ok (s', k)) (hfree : (s.disk i).type ≠ .free)
    (hexcl : ∀ t ∈ W, t.excl i = false)
    (hvalid : (s.disk i).nlink = 0 →
      ∃ k', 0 < (s.itable k').ref ∧ (s.itable k').inum = i ∧ (s.itable k').valid = true) :
    Core n s' (.slot k i (.ref none) ::ₘ W) := by
  rcases iget_cases hx with ⟨hpos, hi, rfl⟩ | ⟨href, hno, rfl⟩
  · refine h.refUp hpos hi ⟨hfree, fun h0 => ?_⟩ hexcl
    obtain ⟨k', hpos', hi', hv⟩ := hvalid h0
    rwa [h.unique k k' hpos hpos' (hi.trans hi'.symm)]
  have h' : Core n s (0 + W) := by rwa [zero_add]
  refine h'.recycle href hno ⟨hfree, fun h0 => ?_⟩ rfl rfl (by simp) (by simp [Mode.excl])
    (fun _ t ht => hexcl t (by simpa using ht)) (by simp)
  obtain ⟨k', hpos', hi', -⟩ := hvalid h0
  exact absurd hi' (hno k' hpos')

/-- The reference of `ialloc` to the inode that it has marked. -/
lemma Core.igetNew {type : IType} (h : Core n s (.born i type ::ₘ F))
    (hx : Fs.iget s i = .ok (s', k)) : Core n s' (.slot k i (.ref (some type)) ::ₘ F) := by
  have hfresh : Fresh n s.disk i type := h.means _ (mem_cons_self _ _)
  have hnone : F.countP (·.proper i) = 0 := by
    rw [countP_eq_zero]
    intro t ht
    simp [h.no_proper (i := i) (by simp) t ht]
  have hF : ∀ t ∈ F, t.excl i = false := by
    intro t ht
    by_contra hexcl
    have := Token.proper_of_excl (by simpa using hexcl)
    rw [h.no_proper (by simp) t ht] at this
    cases this
  rcases iget_cases hx with ⟨hpos, hi, rfl⟩ | ⟨href, hno, rfl⟩
  · refine h.setInode rfl id (h.coh k hpos) (fun _ => hpos) (fun t ht => .inl ?_) ?_
      (fun k' hk => ?_) ?_ (fun k' _ => ?_) (fun j => ?_) (fun j t ht hj => ?_) fun j hj => ?_
    · rcases mem_cons.1 ht with rfl | ht
      · exact ⟨hi, hfresh⟩
      · exact h.means t (mem_cons_of_mem ht)
    · simp [h.refs]
    · simp [hk.symm]
    · simpa [Mode.locks] using h.locks k
    · simp [Mode.locks]
    · simp [Mode.ahead]
    · rcases mem_cons.1 ht with rfl | ht
      · simp only [Token.excl_slot, decide_eq_true_eq] at hj
        simp [← hj.1, hnone, Mode.proper]
      have hij : i ≠ j := by
        rintro rfl
        rw [hF t ht] at hj
        cases hj
      simpa [hij] using h.excl j t (mem_cons_of_mem ht) hj
    · obtain ⟨t, ht, htj⟩ := hj
      rcases mem_cons.1 ht with rfl | ht
      · exact ⟨_, mem_cons_self _ _, by simpa [Mode.excl] using htj⟩
      · exact ⟨t, mem_cons_of_mem ht, htj⟩
  · have h' : Core n s ({.born i type} + F) := by rwa [singleton_add]
    exact h'.recycle href hno hfresh rfl rfl (by simp) (fun _ => hnone) (by simp [Mode.excl])
      (by simp [Mode.excl])

/-! ### Locks -/

lemma Core.acquiresleep {new : Option IType} (h : Core n s (.slot k i (.ref new) ::ₘ F)) (p : P)
    (hlock : (s.itable k).lock = none) :
    Core n (s.setInode k { s.itable k with lock := some p }) (.slot k i (.raw new) ::ₘ F) := by
  have hpos := h.ref_pos (mem_cons_self _ _)
  refine h.swap rfl id (h.coh k hpos) rfl ?_ (fun t ht => ?_) (by simp) rfl (by simp [Mode.proper])
    .inl id
  · have hm := (h.means _ (mem_cons_self _ _)).2
    cases new <;> exact hm
  have hle := h.locks k
  rw [hlock, if_pos rfl, Nat.le_zero, countP_eq_zero] at hle
  simpa using hle t (mem_cons_of_mem ht)

/-- What is known of an inode after `ilock`. -/
def Good (i : ℕ) (d : Dinode) : Prop :=
  d.type ≠ .free ∧ (d.type = .dir → Complete i d.slots) ∧ (d.type ≠ .dir → d.slots = []) ∧
    0 < i ∧ i < 2 ^ 16

lemma Core.good (h : Core n s (t ::ₘ F)) (hn : n ≤ 2 ^ 16) (ht : t.proper i = true)
    (hne : t.excl i = false) (hfree : (s.disk i).type ≠ .free) : Good i (s.disk i) := by
  obtain ⟨hpos, hlt⟩ := h.tree.alloc i hfree
  exact ⟨hfree, h.complete ht hne, h.tree.slots i, hpos, hlt.trans_le hn⟩

/-- The inode of a reference is allocated. -/
lemma Core.type_ne_free (h : Core n s W) (ht : .slot k i m ∈ W) (hm : m.proper = true) :
    (s.disk i).type ≠ .free := by
  have hmeans := (h.means _ ht).2
  cases m with
  | ref new | raw new =>
    cases new with
    | none => exact hmeans.1
    | some type =>
      rw [hmeans.1]
      exact hmeans.2.1
  | lock d st =>
    rw [hmeans.2.1]
    exact hmeans.2.2.1
  | doomed => exact hmeans.2.1
  | freed => cases hm
  | zombie => cases hm

/-- `ilock` reads an inode that is not valid. -/
lemma Core.readAs {new : Option IType} {st : Stage} (h : Core n s (.slot k i (.raw new) ::ₘ F))
    (hst : st.Means n s.disk i (s.disk i)) (hahead : (Mode.lock (s.disk i) st).ahead = false)
    (hexcl : (Mode.lock (s.disk i) st).excl = (Mode.raw new).excl) :
    Core n (s.setInode k { s.itable k with node := s.disk i, valid := true })
      (.slot k i (.lock (s.disk i) st) ::ₘ F) := by
  have hi := h.inum_eq (mem_cons_self _ _)
  have hfree := h.type_ne_free (mem_cons_self _ _) rfl
  refine h.swap rfl (fun _ => rfl) (fun _ => ⟨by rw [hi], by rwa [hi]⟩) rfl ⟨rfl, rfl, hfree, hst⟩
    (h.no_lock (by simp [Mode.locks])) (fun _ hnone => ?_) hahead (by simp [Mode.proper])
    (fun hx => .inl (hexcl ▸ hx)) hexcl.trans
  have hle := h.locks k
  simp only [] at hnone
  rw [hnone] at hle
  simp [Mode.locks] at hle

lemma Core.readInode (h : Core n s (.slot k i (.raw none) ::ₘ F)) :
    Core n (s.setInode k { s.itable k with node := s.disk i, valid := true })
      (.slot k i (.lock (s.disk i) .plain) ::ₘ F) := h.readAs trivial rfl rfl

/-- The same for an inode that was just allocated. -/
lemma Core.readInodeNew {type : IType} (h : Core n s (.slot k i (.raw (some type)) ::ₘ F)) :
    Core n (s.setInode k { s.itable k with node := s.disk i, valid := true })
      (.slot k i (.lock { type := type } .new) ::ₘ F) := by
  have hfresh : Fresh n s.disk i type := (h.means _ (mem_cons_self _ _)).2
  have hnew : Stage.new.Means n s.disk i (s.disk i) := by
    have htype : (s.disk i).type = type := by rw [hfresh.1]
    rwa [Stage.Means, htype]
  have hcore := h.readAs hnew rfl rfl
  rwa [hfresh.1] at hcore ⊢

lemma Core.iunlock (h : Core n s (.slot k i (.lock d .plain) ::ₘ F)) :
    Core n (s.setInode k { s.itable k with lock := none }) (.slot k i (.ref none) ::ₘ F) := by
  have hpos := h.ref_pos (mem_cons_self _ _)
  obtain ⟨-, hvalid, hd, hfree, -⟩ := h.means _ (mem_cons_self _ _)
  refine h.swap rfl id (h.coh k hpos) rfl ⟨?_, fun _ => hvalid⟩ (h.no_lock (by simp [Mode.locks]))
    (by simp [Mode.locks]) rfl (by simp [Mode.proper]) (by simp [Mode.excl]) (by simp [Mode.excl])
  rwa [hd]

/-! ### `iput` -/

/-- The only reference to an inode without links. -/
lemma Core.iputTest (h : Core n s (.slot k i (.ref none) ::ₘ F)) (p : P)
    (hone : (s.itable k).ref = 1) (hvalid : (s.itable k).valid = true)
    (hnlink : (s.itable k).node.nlink = 0) (hlock : (s.itable k).lock = none) :
    Core n (s.setInode k { s.itable k with lock := some p }) (.slot k i (.doomed false) ::ₘ F) := by
  have hself : Token.slot k i (.ref none) ∈ Token.slot k i (.ref none) ::ₘ F := mem_cons_self _ _
  have hpos := h.ref_pos hself
  have hi := h.inum_eq hself
  have hfree := h.type_ne_free hself rfl
  have hcoh := (h.coh k hpos hvalid).1
  rw [hi] at hcoh
  rw [hcoh] at hnlink
  have hdead : ¬ Alive n s.disk i := by
    intro halive
    have hlinks := h.links i hfree
    rw [hnlink, show (0 : BitVec 16).toNat = 0 from rfl] at hlinks
    have := linkCount_ne_zero halive
    omega
  refine h.swap rfl id (h.coh k hpos) rfl ⟨hvalid, hfree, hnlink, by simp, hdead⟩
    (fun t ht => ?_) (by simp) rfl (by simp [Mode.proper]) (fun _ => .inr ?_) (by simp [Mode.excl])
  · have hle := h.locks k
    rw [hlock, if_pos rfl, Nat.le_zero, countP_eq_zero] at hle
    simpa using hle t (mem_cons_of_mem ht)
  -- every other reference to the inode would be on the same entry
  rw [countP_eq_zero]
  intro t ht hproper
  have hrefs := h.refs k
  rw [hone, countP_cons, if_pos (by simp)] at hrefs
  have hnone : F.countP (·.onSlot k) = 0 := by omega
  cases t with
  | slot k' i' m' =>
    simp only [Token.proper_slot, decide_eq_true_eq] at hproper
    obtain ⟨rfl, -⟩ := hproper
    obtain rfl := h.slot_eq hself (mem_cons_of_mem ht)
    exact countP_eq_zero.1 hnone _ ht (by simp)
  | born i' type =>
    have := h.no_excl (i := i) (by simp [Mode.proper]) _ ht
    simp only [Token.excl_born, Token.proper_born] at this hproper
    rw [hproper] at this
    cases this
  | credit | file => cases hproper

lemma Core.releasesleep (h : Core n s (.slot k i .freed ::ₘ F)) :
    Core n (s.setInode k { s.itable k with lock := none }) (.slot k i .zombie ::ₘ F) := by
  have hpos := h.ref_pos (mem_cons_self _ _)
  exact h.swap rfl id (h.coh k hpos) rfl trivial (h.no_lock (by simp [Mode.locks]))
    (by simp [Mode.locks]) rfl (by simp [Mode.proper]) (by simp [Mode.excl]) (by simp [Mode.excl])

end Hexv6.Fs
