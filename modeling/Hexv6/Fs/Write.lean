import Hexv6.Fs.Keep

/-!
# Writing to the disk keeps the invariant

`Core.iupdate` is the general lemma for an operation that changes an inode whose sleep lock
is held; the other operations are instances of it, except those that allocate and free an
inode.
-/

namespace Hexv6.Fs

open Lib Multiset Function

variable {P : Type} {n : ℕ} {s s' : State P} {k k' : Slot} {i j : ℕ} {t : Token}
  {A B F W : Multiset Token} {m m' : Mode} {d d' : Dinode} {C : Multiset Token} {x : BitVec 16}

lemma iupdate_disk (d' : Dinode) (hi : (s.itable k).inum = i) :
    (s.iupdate k d').disk = update s.disk i d' := by
  rw [State.iupdate, hi]

lemma iupdate_fields (k' : Slot) : ((s.iupdate k d').itable k').inum = (s.itable k').inum ∧
    ((s.iupdate k d').itable k').valid = (s.itable k').valid ∧
    ((s.iupdate k d').itable k').ref = (s.itable k').ref ∧
    ((s.iupdate k d').itable k').lock = (s.itable k').lock := by
  rcases eq_or_ne k' k with rfl | hk
  · simp [State.iupdate]
  · simp [State.iupdate, hk]

/-- The owner of a locked inode changes it. -/
lemma Core.iupdate (h : Core n s (A + F)) (hk : .slot k i m ∈ A) (hlock : m.locks = true)
    (hm : m.proper = true) (hvalid : (s.itable k).valid = true)
    (htype : d'.type = (s.disk i).type) (htree : Tree n (s.iupdate k d').disk)
    (hdead : ∀ t ∈ F, ∀ j, t.excl j = true → ¬ Alive n (s.iupdate k d').disk j)
    (hlinks : ∀ j, ((s.iupdate k d').disk j).type ≠ .free → ((s.iupdate k d').disk j).nlink.toNat =
        linkCount n (s.iupdate k d').disk j + (B + F).countP (·.ahead j))
    (hB : ∀ t ∈ B, t.Means n (s.iupdate k d'))
    (hrefs : ∀ k', B.countP (·.onSlot k') = A.countP (·.onSlot k'))
    (hlocks : ∀ k', B.countP (·.locks k') = A.countP (·.locks k'))
    (hproper : ∀ j, B.countP (·.proper j) = A.countP (·.proper j))
    (hexcl : ∀ j, ∀ t ∈ B, t.excl j = true → ∃ t' ∈ A, t'.excl j = true)
    (hpart : ∀ j, ((s.iupdate k d').disk j).type = .dir →
      ((s.iupdate k d').disk j).slots.length < 2 → ∃ t ∈ B + F, t.excl j = true) :
    Core n (s.iupdate k d') (B + F) := by
  have hkW : Token.slot k i m ∈ A + F := mem_add.2 (.inl hk)
  have hi := h.inum_eq hkW
  have hpos := h.ref_pos hkW
  have hself : (s.iupdate k d').disk i = d' := by rw [iupdate_disk d' hi, update_self]
  have hoff : ∀ j, j ≠ i → (s.iupdate k d').disk j = s.disk j := by
    intro j hj
    rw [iupdate_disk d' hi, update_of_ne hj]
  -- the owner's token in front
  obtain ⟨A', hA⟩ := exists_cons_of_mem hk
  have h' : Core n s (.slot k i m ::ₘ (A' + F)) := by rwa [← cons_add, ← hA]
  have hmem : ∀ t ∈ F, t ∈ A' + F := fun t ht => mem_add.2 (.inr ht)
  have hnolock := h'.no_lock (k := k) (by simp [hlock])
  have hnoexcl := h'.no_excl (i := i) (by simp [hm])
  refine
    { means := fun t ht => ?_, refs := fun k' => ?_, locks := fun k' => ?_
      unique := fun k1 k2 h1 h2 heq => ?_, coh := fun k' hk' hv => ?_, links := hlinks
      tree := htree, excl := fun j t ht hj => ?_, part := hpart }
  · rcases mem_add.1 ht with ht | ht
    · exact hB t ht
    have hmeans := h.means t (mem_add.2 (.inr ht))
    cases t with
    | slot k' i' m' =>
      obtain ⟨hi', hm'⟩ := hmeans
      rw [Token.Means, (iupdate_fields k').1, (iupdate_fields k').2.1]
      refine ⟨hi', ?_⟩
      rcases eq_or_ne i' i with rfl | hne
      · -- the same inode: the others have plain references to it
        obtain rfl := h.slot_eq hkW (mem_add.2 (.inr ht))
        have hl := hnolock _ (hmem _ ht)
        have hx := hnoexcl _ (hmem _ ht)
        simp only [Token.locks_slot, Token.excl_slot, true_and, decide_eq_false_iff_not,
          Bool.not_eq_true] at hl hx
        cases m' with
        | ref new =>
          cases new with
          | none =>
            refine ⟨?_, fun _ => hvalid⟩
            rw [hself, htype]
            exact hm'.1
          | some type => cases hx
        | raw | lock | doomed | freed => cases hl
        | zombie => trivial
      · exact hm'.mono (hoff i' hne) id fun hx _ => hdead _ ht i' (by simp [hx])
    | credit j =>
      rw [Token.Means]
      rcases eq_or_ne j i with rfl | hne
      · rw [hself, htype]
        exact hmeans
      · rw [hoff j hne]
        exact hmeans
    | born j type =>
      have hne : j ≠ i := by
        rintro rfl
        simpa using hnoexcl _ (hmem _ ht)
      exact ⟨(hoff j hne).trans hmeans.1, hmeans.2.1, hdead _ ht j (by simp)⟩
    | _ => trivial
  · rw [(iupdate_fields k').2.2.1, h.refs, countP_add, countP_add, hrefs]
  · rw [(iupdate_fields k').2.2.2, countP_add, hlocks, ← countP_add]
    exact h.locks k'
  · rw [(iupdate_fields k1).2.2.1] at h1
    rw [(iupdate_fields k2).2.2.1] at h2
    rw [(iupdate_fields k1).1, (iupdate_fields k2).1] at heq
    exact h.unique k1 k2 h1 h2 heq
  · rw [(iupdate_fields k').1]
    rcases eq_or_ne k' k with rfl | hne
    · rw [hi, hself, htype]
      exact ⟨by simp [State.iupdate], h.type_ne_free hkW hm⟩
    rw [(iupdate_fields k').2.2.1] at hk'
    rw [(iupdate_fields k').2.1] at hv
    have hne' : (s.itable k').inum ≠ i := by
      intro heq
      exact hne (h.unique k' k hk' hpos (heq.trans hi.symm))
    rw [hoff _ hne']
    simpa [State.iupdate, hne] using h.coh k' hk' hv
  · rw [countP_add, hproper, ← countP_add]
    rcases mem_add.1 ht with ht | ht
    · obtain ⟨t', ht', hj'⟩ := hexcl j t ht hj
      exact h.excl j t' (mem_add.2 (.inl ht')) hj'
    · exact h.excl j t (mem_add.2 (.inr ht)) hj

/-! ### Link counts and device numbers -/

lemma Core.node_eq (h : Core n s W) {st : Stage} (hk : .slot k i (.lock d st) ∈ W) :
    (s.itable k).node = d ∧ s.disk i = d := by
  obtain ⟨hi, hvalid, hd, -⟩ := h.means _ hk
  exact ⟨by rw [(h.coh k (h.ref_pos hk) hvalid).1, hi, hd], hd⟩

/-- The inode of a locked entry after it has been changed. -/
lemma Core.iupdate_self (h : Core n s W) (hk : .slot k i m ∈ W) : (s.iupdate k d').disk i = d' := by
  rw [iupdate_disk d' (h.inum_eq hk), update_self]

/-- Tokens that only say that `nlink` of the inode is ahead. -/
def Credits (i : ℕ) (C : Multiset Token) : Prop := ∀ t ∈ C, t = .credit i

lemma Credits.countP_ahead (hC : Credits i C) (j : ℕ) :
    C.countP (·.ahead j) = if i = j then card C else 0 := by
  split_ifs with hij
  · rw [countP_eq_card]
    intro t ht
    simp [hC t ht, hij]
  rw [countP_eq_zero]
  intro t ht
  simp [hC t ht, hij]

lemma Credits.countP_eq_zero (hC : Credits i C) {q : Token → Bool}
    (hq : q (.credit i) = false) : C.countP (q ·) = 0 := by
  rw [Multiset.countP_eq_zero]
  intro t ht
  simp [hC t ht, hq]

/-- A field that the tree does not depend on changes, and `nlink` by as much as it is more
or less ahead. -/
lemma Core.setMeta {st st' : Stage} {C C' : Multiset Token} (hC : Credits i C)
    (hC' : Credits i C') (h : Core n s ({.slot k i (.lock d st)} + C + F))
    (htype : d'.type = d.type) (hslots : d'.slots = d.slots)
    (hnlink : d'.nlink.toNat + ((Mode.lock d st).ahead.toNat + card C) =
      d.nlink.toNat + ((Mode.lock d' st').ahead.toNat + card C'))
    (hcredit : C' ≠ 0 → d.type ≠ .dir)
    (hst : SameTree s.disk (s.iupdate k d').disk → st'.Means n (s.iupdate k d').disk i d')
    (hexcl : (Mode.lock d' st').excl = true → (Mode.lock d st).excl = true)
    (hpart : d.type = .dir → (Mode.lock d st).excl = true → (Mode.lock d' st').excl = true) :
    Core n (s.iupdate k d') ({.slot k i (.lock d' st')} + C' + F) := by
  rw [singleton_add] at h ⊢
  have hmem : Token.slot k i (.lock d st) ∈ .slot k i (.lock d st) ::ₘ C := mem_cons_self _ _
  have hkW : Token.slot k i (.lock d st) ∈ .slot k i (.lock d st) ::ₘ C + F := mem_add.2 (.inl hmem)
  have hi := h.inum_eq hkW
  obtain ⟨-, hvalid, hd, hfree, -⟩ := h.means _ hkW
  have hdisk := iupdate_disk d' hi
  have hsame : SameTree s.disk (s.iupdate k d').disk := by
    intro j
    rw [hdisk]
    rcases eq_or_ne j i with rfl | hj
    · rw [update_self, hd]
      exact ⟨htype, hslots⟩
    · rw [update_of_ne hj]
      exact ⟨rfl, rfl⟩
  refine h.iupdate hmem rfl rfl hvalid (htype.trans (by rw [hd])) (hsame.tree h.tree)
    (fun t ht j hj => ?_) (fun j hj => ?_) (fun t ht => ?_) (fun k' => ?_) (fun k' => ?_)
    (fun j => ?_) (fun j t ht hj => ?_) fun j hdir hlen => ?_
  · rw [alive_congr hsame.entries]
    exact h.dead_of_excl (mem_add.2 (.inr ht)) hj
  · rw [(hsame j).1] at hj
    have hlinks := h.links j hj
    rw [hsame.linkCount, countP_add, countP_cons, hC'.countP_ahead]
    rw [countP_add, countP_cons, hC.countP_ahead] at hlinks
    rcases eq_or_ne i j with rfl | hij
    · rw [hd] at hlinks
      rw [hdisk, update_self]
      simp only [Token.ahead_slot, true_and, Bool.decide_eq_true, if_true] at hlinks ⊢
      cases h1 : (Mode.lock d st).ahead <;> cases h2 : (Mode.lock d' st').ahead <;>
        simp only [h1, h2, Bool.toNat_false, Bool.toNat_true, Bool.false_eq_true, if_true,
          if_false] at hnlink hlinks ⊢ <;> omega
    · rw [hdisk, update_of_ne hij.symm]
      simpa [hij] using hlinks
  · rcases mem_cons.1 ht with rfl | ht
    · rw [Token.Means, (iupdate_fields k).1, (iupdate_fields k).2.1]
      exact ⟨hi, hvalid, h.iupdate_self hkW, by rwa [htype], hst hsame⟩
    · rw [hC' t ht, Token.Means, h.iupdate_self hkW, htype]
      exact ⟨hfree, hcredit (by rintro rfl; simp at ht)⟩
  · rw [countP_cons, countP_cons, hC.countP_eq_zero rfl, hC'.countP_eq_zero rfl]
    rfl
  · rw [countP_cons, countP_cons, hC.countP_eq_zero rfl, hC'.countP_eq_zero rfl]
    rfl
  · rw [countP_cons, countP_cons, hC.countP_eq_zero rfl, hC'.countP_eq_zero rfl]
    rfl
  · rcases mem_cons.1 ht with rfl | ht
    · simp only [Token.excl_slot, decide_eq_true_eq] at hj
      exact ⟨_, hmem, by simp [hj.1, hexcl hj.2]⟩
    · simp [hC' t ht] at hj
  · rw [(hsame j).1] at hdir
    rw [(hsame j).2] at hlen
    obtain ⟨t, ht, htj⟩ := h.part j hdir hlen
    rcases mem_add.1 ht with ht | ht
    · rcases mem_cons.1 ht with rfl | ht
      · simp only [Token.excl_slot, decide_eq_true_eq] at htj
        obtain ⟨rfl, htj⟩ := htj
        rw [hd] at hdir
        exact ⟨_, mem_add.2 (.inl (mem_cons_self _ _)), by simp [hpart hdir htj]⟩
      · simp [hC t ht] at htj
    · exact ⟨t, mem_add.2 (.inr ht), htj⟩

lemma credits_zero : Credits i 0 := by simp [Credits]

lemma credits_singleton : Credits i {.credit i} := by simp [Credits]

lemma toNat_add_one (h : x ≠ -1) : (x + 1).toNat = x.toNat + 1 := by
  have hne : x.toNat ≠ 65535 := fun heq => h (BitVec.eq_of_toNat_eq heq)
  have hlt := x.isLt
  rw [BitVec.toNat_add, show (1 : BitVec 16).toNat = 1 from rfl]
  omega

lemma toNat_sub_one (h : 1 ≤ x.toNat) : (x - 1).toNat + 1 = x.toNat := by
  have hlt := x.isLt
  rw [BitVec.toNat_sub, show (1 : BitVec 16).toNat = 1 from rfl]
  omega

section New

variable (h : Core n s ({.slot k i (.lock d .new)} + F)) (major minor : BitVec 16)

include h

lemma Core.nlink_new : d.nlink.toNat = 0 := by
  obtain ⟨-, -, hd, -, hfresh⟩ := h.means (.slot k i (.lock d .new)) (by simp)
  rw [← hd, hfresh.1]
  rfl

/-- The new file has a link that no entry accounts for yet. -/
lemma Core.initInode_file (hdir : d.type ≠ .dir) :
    Core n (s.iupdate k { d with major := major, minor := minor, nlink := 1 })
      ({.slot k i (.lock { d with major := major, minor := minor, nlink := 1 } .plain)} +
        {.credit i} + F) := by
  have hnlink := h.nlink_new
  rw [← add_zero {_}] at h
  exact h.setMeta credits_zero credits_singleton rfl rfl (by simp [Mode.ahead, hnlink])
    (fun _ => hdir) (fun _ => trivial) (by simp [Mode.excl]) (fun hd => absurd hd hdir)

lemma Core.initInode_dir (hdir : d.type = .dir) :
    Core n (s.iupdate k { d with major := major, minor := minor, nlink := 1 })
      ({.slot k i (.lock { d with major := major, minor := minor, nlink := 1 } .fill)} + F) := by
  have hnlink := h.nlink_new
  have hdead := h.dead_of_excl (i := i) (t := .slot k i (.lock d .new)) (by simp)
    (by simp [Mode.excl])
  rw [← add_zero {_}] at h ⊢
  exact h.setMeta credits_zero credits_zero rfl rfl (by simp [Mode.ahead, hnlink]) (by simp)
    (fun hsame => ⟨hdir, by rwa [alive_congr hsame.entries]⟩) (by simp [Mode.excl])
    (by simp [Mode.excl])

end New

section Up

variable (h : Core n s ({.slot k i (.lock d .plain)} + F)) (hmax : d.nlink ≠ -1)

include h hmax

lemma Core.nlinkUp_file (hdir : d.type ≠ .dir) :
    Core n (s.iupdate k { d with nlink := d.nlink + 1 })
      ({.slot k i (.lock { d with nlink := d.nlink + 1 } .plain)} + {.credit i} + F) := by
  rw [← add_zero {_}] at h
  refine h.setMeta credits_zero credits_singleton rfl rfl ?_ (fun _ => hdir) (fun _ => trivial)
    (by simp [Mode.excl]) (by simp [Mode.excl])
  rw [toNat_add_one hmax]
  simp [Mode.ahead]

lemma Core.nlinkUp_dir (hdir : d.type = .dir) : Core n (s.iupdate k { d with nlink := d.nlink + 1 })
      ({.slot k i (.lock { d with nlink := d.nlink + 1 } .extra)} + F) := by
  rw [← add_zero {_}] at h ⊢
  refine h.setMeta credits_zero credits_zero rfl rfl ?_ (by simp) (fun _ => hdir)
    (by simp [Mode.excl]) (by simp [Mode.excl])
  rw [toNat_add_one hmax]
  simp [Mode.ahead]

end Up

/-- `nlink` is at least what it is ahead by. -/
lemma Core.ahead_le (h : Core n s W) (hfree : (s.disk i).type ≠ .free) (ht : t ∈ W)
    (hahead : t.ahead i = true) : 1 ≤ (s.disk i).nlink.toNat := by
  have hpos : 0 < W.countP (·.ahead i) := countP_pos.2 ⟨t, ht, hahead⟩
  have hlinks := h.links i hfree
  omega

lemma Core.nlinkDown_file (h : Core n s ({.slot k i (.lock d .plain)} + {.credit i} + F)) :
    Core n (s.iupdate k { d with nlink := d.nlink - 1 })
      ({.slot k i (.lock { d with nlink := d.nlink - 1 } .plain)} + F) := by
  obtain ⟨-, -, hd, hfree, -⟩ := h.means (.slot k i (.lock d .plain)) (by simp)
  have hle := h.ahead_le (t := .credit i) (by rwa [hd]) (by simp) (by simp)
  rw [hd] at hle
  have hsub := toNat_sub_one hle
  rw [← add_zero {_}]
  refine h.setMeta credits_singleton credits_zero rfl rfl ?_ (by simp) (fun _ => trivial)
    (by simp [Mode.excl]) (by simp [Mode.excl])
  simpa [Mode.ahead] using hsub

lemma Core.nlinkDown_dir (h : Core n s ({.slot k i (.lock d .extra)} + F)) :
    Core n (s.iupdate k { d with nlink := d.nlink - 1 })
      ({.slot k i (.lock { d with nlink := d.nlink - 1 } .plain)} + F) := by
  have hkW : Token.slot k i (.lock d .extra) ∈ {.slot k i (.lock d .extra)} + F := by simp
  obtain ⟨-, -, hd, hfree, -⟩ := h.means _ hkW
  have hle := h.ahead_le (by rwa [hd]) hkW (by simp [Mode.ahead])
  rw [hd] at hle
  have hsub := toNat_sub_one hle
  rw [← add_zero {_}] at h ⊢
  refine h.setMeta credits_zero credits_zero rfl rfl ?_ (by simp) (fun _ => trivial)
    (by simp [Mode.excl]) (by simp [Mode.excl])
  simpa [Mode.ahead] using hsub

end Hexv6.Fs
