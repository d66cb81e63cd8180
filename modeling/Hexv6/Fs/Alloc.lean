import Hexv6.Fs.Entry

/-!
# Allocating and freeing inodes keeps the invariant

An inode that is not named is marked by `ialloc`, and is truncated and freed by `iput`.  In
all these cases the other directories do not notice.
-/

namespace Hexv6.Fs

open Lib Multiset Function

variable {P : Type} {n : ℕ} {s : State P} {k : Slot} {i : ℕ} {t : Token} {F W : Multiset Token}
  {d : Dinode} {cut : Bool} {type : IType}

/-- The entry of the table that `iput` is about to free holds the inode of the disk. -/
lemma Core.node_of_doomed (h : Core n s W) (hk : .slot k i (.doomed cut) ∈ W) :
    (s.itable k).node = s.disk i := by
  obtain ⟨hi, hvalid, -⟩ := h.means _ hk
  rw [(h.coh k (h.ref_pos hk) hvalid).1, hi]

/-- `itrunc` of an inode that is about to be freed. -/
lemma Core.itrunc (h : Core n s (.slot k i (.doomed cut) ::ₘ F)) :
    Core n (s.iupdate k { s.disk i with slots := [] }) (.slot k i (.doomed true) ::ₘ F) := by
  have hkA : Token.slot k i (.doomed cut) ∈ ({.slot k i (.doomed cut)} : Multiset Token) :=
    mem_singleton_self _
  have hkW : Token.slot k i (.doomed cut) ∈ .slot k i (.doomed cut) ::ₘ F := mem_cons_self _ _
  obtain ⟨hi, hvalid, hfree, hnlink, -, hdead⟩ := h.means _ hkW
  have hself : (s.iupdate k { s.disk i with slots := [] }).disk i = { s.disk i with slots := [] } :=
    h.iupdate_self hkW
  have hoff : ∀ a, a ≠ i → (s.iupdate k { s.disk i with slots := [] }).disk a = s.disk a := by
    intro a ha
    rw [iupdate_disk _ hi, update_of_ne ha]
  have hslots : ((s.iupdate k { s.disk i with slots := [] }).disk i).slots = [] := by rw [hself]
  have halloc := h.tree.alloc i hfree
  have hA : Core n s ({.slot k i (.doomed cut)} + F) := by rwa [singleton_add]
  rw [← singleton_add]
  refine hA.iupdate hkA rfl rfl hvalid rfl ?_ (fun t ht a ha => ?_) (fun a ha => ?_)
    (fun t ht => ?_) (fun k' => ?_) (fun k' => ?_) (fun a => ?_) (fun a t ht ha => ?_)
    fun a hdir hlen => ?_
  · exact blank_tree h.tree hoff hdead hslots fun _ => halloc
  · have ha0 := h.ne_zero_of_excl (mem_cons_of_mem ht) ha
    rw [blank_alive h.tree hoff hdead hslots ha0]
    exact h.dead_of_excl (mem_cons_of_mem ht) ha
  · rw [singleton_add, countP_cons]
    rcases eq_or_ne a i with rfl | hai
    · have hlinks := h.links a hfree
      rw [hnlink, countP_cons] at hlinks
      rw [blank_linkCount_self h.tree hoff hdead hslots halloc.1.ne', hself]
      simp only [show (0 : BitVec 16).toNat = 0 from rfl, hnlink, Token.ahead_slot, Mode.ahead]
        at hlinks ⊢
      omega
    rw [hoff a hai] at ha ⊢
    have hlinks := h.links a ha
    rw [countP_cons] at hlinks
    rw [blank_linkCount h.tree hoff hdead hslots hai (h.tree.alloc a ha).1.ne', hlinks]
    rfl
  · obtain rfl := mem_singleton.1 ht
    rw [Token.Means, (iupdate_fields k).1, (iupdate_fields k).2.1]
    refine ⟨hi, hvalid, by rwa [hself], by rwa [hself], fun _ => hslots, ?_⟩
    rwa [blank_alive h.tree hoff hdead hslots halloc.1.ne']
  · simp [countP_single]
  · simp [countP_single, Mode.locks]
  · simp [countP_single, Mode.proper]
  · obtain rfl := mem_singleton.1 ht
    exact ⟨_, hkA, by simpa [Mode.excl] using ha⟩
  · rcases eq_or_ne a i with rfl | hai
    · exact ⟨_, mem_add.2 (.inl (mem_singleton_self _)), by simp [Mode.excl]⟩
    rw [hoff a hai] at hdir hlen
    obtain ⟨t, ht, hta⟩ := h.part a hdir hlen
    rcases mem_cons.1 ht with rfl | ht
    · simp [hai.symm] at hta
    · exact ⟨t, mem_add.2 (.inr ht), hta⟩

/-- An inode to which nobody has a reference is changed on the disk. -/
lemma Core.blank {s' : State P} {W' : Multiset Token} (h : Core n s W)
    (hdisk : s'.disk = update s.disk i d) (hdead : ¬ Alive n s.disk i)
    (hslots : d.slots = []) (halloc : d.type ≠ .free → 0 < i ∧ i < n)
    (hlinks : d.type ≠ .free → d.nlink = 0 ∧ W'.countP (·.ahead i) = 0)
    (hfields : ∀ k, (s'.itable k).inum = (s.itable k).inum ∧
      (s'.itable k).ref = (s.itable k).ref ∧ (s'.itable k).lock = (s.itable k).lock)
    (hkeep : ∀ k, (s.itable k).inum ≠ i → s'.itable k = s.itable k)
    (hvalid : ∀ k, 0 < (s.itable k).ref → (s.itable k).inum = i → (s'.itable k).valid = false)
    (hmeans : ∀ t ∈ W', t.Means n s' ∨ t ∈ W ∧ t.proper i = false ∧ t ≠ .credit i)
    (hrefs : ∀ k, W'.countP (·.onSlot k) = W.countP (·.onSlot k))
    (hlocks : ∀ k, W'.countP (·.locks k) = W.countP (·.locks k))
    (hahead : ∀ a, W'.countP (·.ahead a) = W.countP (·.ahead a))
    (hexcl : ∀ a, ∀ t ∈ W', t.excl a = true → W'.countP (·.proper a) ≤ 1)
    (hpart : ∀ a, a ≠ i → (∃ t ∈ W, t.excl a = true) → ∃ t ∈ W', t.excl a = true)
    (hpart' : d.type = .dir → ∃ t ∈ W', t.excl i = true) : Core n s' W' := by
  have hself : s'.disk i = d := by rw [hdisk, update_self]
  have hoff : ∀ a, a ≠ i → s'.disk a = s.disk a := fun a ha => by rw [hdisk, update_of_ne ha]
  have hnil : (s'.disk i).slots = [] := by rw [hself, hslots]
  have htree : Tree n s'.disk := by
    refine blank_tree h.tree hoff hdead hnil fun hi => halloc ?_
    rwa [hself] at hi
  have halive : ∀ {a}, a ≠ 0 → (Alive n s'.disk a ↔ Alive n s.disk a) := fun ha =>
    blank_alive h.tree hoff hdead hnil ha
  refine
    { means := fun t ht => ?_, refs := fun k => ?_, locks := fun k => ?_
      unique := fun k1 k2 h1 h2 heq => ?_, coh := fun k hk hv => ?_, links := fun a ha => ?_
      tree := htree, excl := hexcl, part := fun a hdir hlen => ?_ }
  · rcases hmeans t ht with hm | ⟨htW, hproper, hcredit⟩
    · exact hm
    have hm := h.means t htW
    cases t with
    | slot k' i' m' =>
      obtain ⟨hi', hm'⟩ := hm
      refine ⟨(hfields k').1.trans hi', ?_⟩
      rcases eq_or_ne i' i with rfl | hne
      · cases m' with
        | freed => trivial
        | zombie => trivial
        | ref | raw | lock | doomed => simp [Mode.proper] at hproper
      rw [hkeep k' (by rwa [hi'])]
      -- the inode of the token is another one, and as much alive as before
      refine hm'.mono (hoff i' hne) id fun hx hdead' => ?_
      exact (halive (h.ne_zero_of_excl htW (by simp [hx]))).not.2 hdead'
    | credit a =>
      have hne : a ≠ i := by
        rintro rfl
        exact hcredit rfl
      rw [Token.Means, hoff a hne]
      exact hm
    | born a type =>
      have hne : a ≠ i := by
        rintro rfl
        simp at hproper
      have ha := h.ne_zero_of_excl (i := a) htW (by simp)
      exact ⟨(hoff a hne).trans hm.1, hm.2.1, (halive ha).not.2 hm.2.2⟩
    | file => trivial
  · rw [(hfields k).2.1, h.refs, hrefs]
  · rw [(hfields k).2.2, hlocks]
    exact h.locks k
  · rw [(hfields k1).2.1] at h1
    rw [(hfields k2).2.1] at h2
    rw [(hfields k1).1, (hfields k2).1] at heq
    exact h.unique k1 k2 h1 h2 heq
  · rw [(hfields k).2.1] at hk
    have hne : (s.itable k).inum ≠ i := by
      intro hki
      rw [hvalid k hk hki] at hv
      cases hv
    rw [hkeep k hne] at hv ⊢
    rw [hoff _ hne]
    exact h.coh k hk hv
  · rcases eq_or_ne a i with rfl | hai
    · rw [hself] at ha
      obtain ⟨hnlink, hzero⟩ := hlinks ha
      rw [blank_linkCount_self h.tree hoff hdead hnil (halloc ha).1.ne', hself, hnlink, hzero]
      rfl
    rw [hoff a hai] at ha ⊢
    rw [blank_linkCount h.tree hoff hdead hnil hai (h.tree.alloc a ha).1.ne', hahead]
    exact h.links a ha
  · rcases eq_or_ne a i with rfl | hai
    · rw [hself] at hdir
      exact hpart' hdir
    · rw [hoff a hai] at hdir hlen
      exact hpart a hai (h.part a hdir hlen)

/-- `iput` marks the inode as free on the disk, and the entry of the table as not valid. -/
lemma Core.ifree {s' : State P} (h : Core n s (.slot k i (.doomed true) ::ₘ F))
    (hs' : s' = (s.iupdate k { s.disk i with type := .free }).setInode k
      { (s.iupdate k { s.disk i with type := .free }).itable k with valid := false }) :
    Core n s' (.slot k i .freed ::ₘ F) := by
  have hkW : Token.slot k i (.doomed true) ∈ .slot k i (.doomed true) ::ₘ F := mem_cons_self _ _
  obtain ⟨hi, hvalid, hfree, hnlink, hslots, hdead⟩ := h.means _ hkW
  have hpos := h.ref_pos hkW
  have hnoproper := h.no_proper (i := i) (by simp [Mode.excl])
  have htable : ∀ k', k' ≠ k → s'.itable k' = s.itable k' := by
    intro k' hk'
    rw [hs', setInode_of_ne hk', State.iupdate]
    exact update_of_ne hk' ..
  have hk : s'.itable k =
      { s.itable k with node := { s.disk i with type := .free }, valid := false } := by
    rw [hs', setInode_self, State.iupdate]
    simp
  have hdisk : s'.disk = update s.disk i { s.disk i with type := .free } := by
    rw [hs', setInode_disk, iupdate_disk _ hi]
  refine h.blank hdisk hdead (hslots rfl) (by simp) (by simp) (fun k' => ?_) (fun k' hk' => ?_)
    (fun k' hk' hki => ?_) (fun t ht => ?_) (fun k' => ?_) (fun k' => ?_) (fun a => ?_)
    (fun a t ht hta => ?_) (fun a hai hta => ?_) (by simp)
  · by_cases hkk : k' = k
    · rw [hkk, hk]
      exact ⟨rfl, rfl, rfl⟩
    · rw [htable k' hkk]
      exact ⟨rfl, rfl, rfl⟩
  · refine htable k' ?_
    rintro rfl
    exact hk' hi
  · obtain rfl := h.unique k' k hk' hpos (hki.trans hi.symm)
    rw [hk]
  · rcases mem_cons.1 ht with rfl | ht
    · left
      rw [Token.Means, hk]
      exact ⟨hi, trivial⟩
    refine .inr ⟨mem_cons_of_mem ht, hnoproper t ht, ?_⟩
    rintro rfl
    have := h.not_excl_of_credit (mem_cons_of_mem ht) hkW
    simp [Mode.excl] at this
  · simp [countP_cons]
  · simp [countP_cons, Mode.locks]
  · simp [Mode.ahead]
  · rcases mem_cons.1 ht with rfl | ht
    · simp [Mode.excl] at hta
    have hle := h.excl a t (mem_cons_of_mem ht) hta
    rw [countP_cons] at hle ⊢
    simp only [Token.proper_slot, Mode.proper, Bool.false_eq_true, and_false, decide_false,
      if_false]
    omega
  · obtain ⟨t, ht, hta⟩ := hta
    rcases mem_cons.1 ht with rfl | ht
    · simp [hai.symm] at hta
    · exact ⟨t, mem_cons_of_mem ht, hta⟩

/-- `ialloc` marks a free inode. -/
lemma Core.ialloc (h : Core n s F) (hfree : (s.disk i).type = .free) (hi : 0 < i ∧ i < n)
    (htype : type ≠ .free) :
    Core n { s with disk := update s.disk i { type := type } } (.born i type ::ₘ F) := by
  have hdead := h.tree.not_alive_of_free hfree hi.1.ne'
  have hproper : ∀ t ∈ F, t.proper i = false := by
    intro t ht
    by_contra hp
    exact h.type_ne_free_of_proper ht (by simpa using hp) hfree
  have hcredit : ∀ t ∈ F, t ≠ .credit i := by
    rintro t ht rfl
    exact (h.means _ ht).1 hfree
  have hnone : F.countP (·.proper i) = 0 := by
    rw [countP_eq_zero]
    intro t ht
    simp [hproper t ht]
  refine h.blank rfl hdead rfl (fun _ => hi) (fun _ => ⟨rfl, ?_⟩) (fun k => ⟨rfl, rfl, rfl⟩)
    (fun _ _ => rfl) (fun k hk hki => ?_) (fun t ht => ?_) (fun k => ?_) (fun k => ?_)
    (fun a => ?_) (fun a t ht hta => ?_) (fun a hai hta => ?_) fun _ => ?_
  · -- a link of a free inode is not ahead
    rw [countP_eq_zero]
    intro t ht hahead
    rcases mem_cons.1 ht with rfl | ht
    · simp at hahead
    have hp := hproper t ht
    cases t with
    | slot k j m =>
      simp only [Token.ahead_slot, decide_eq_true_eq] at hahead
      obtain ⟨rfl, hahead⟩ := hahead
      cases m with
      | lock d st => simp [Mode.proper] at hp
      | _ => cases hahead
    | credit j =>
      simp only [Token.ahead_credit, decide_eq_true_eq] at hahead
      exact hcredit _ ht (by rw [hahead])
    | born | file => cases hahead
  · by_contra hv
    refine (h.coh k hk (by simpa using hv)).2 ?_
    rwa [hki]
  · rcases mem_cons.1 ht with rfl | ht
    · left
      have hoff : ∀ a, a ≠ i → update s.disk i { type := type } a = s.disk a :=
        fun a ha => update_of_ne ha ..
      refine ⟨update_self .., htype, ?_⟩
      rwa [blank_alive h.tree hoff hdead (by rw [update_self]) hi.1.ne']
    · exact .inr ⟨ht, hproper t ht, hcredit t ht⟩
  · simp
  · simp
  · simp
  · rcases mem_cons.1 ht with rfl | ht
    · simp only [Token.excl_born, decide_eq_true_eq] at hta
      subst hta
      simp [hnone]
    have hle := h.excl a t ht hta
    have hia : i ≠ a := by
      rintro rfl
      have := Token.proper_of_excl hta
      rw [hproper t ht] at this
      cases this
    simpa [hia] using hle
  · obtain ⟨t, ht, hta⟩ := hta
    exact ⟨t, mem_cons_of_mem ht, hta⟩
  · exact ⟨_, mem_cons_self _ _, by simp⟩

end Hexv6.Fs
