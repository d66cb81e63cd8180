import Hexv6.Fs.Orphan

/-!
# Runs that remove no directory

If no directory is removed, then every directory has links, apart from those that are being made.
So the conditions of `Allowed` that are about removed directories are met (`Rule.meet`), and what is
left are the link counts that overflow, and the inodes that are allocated before they are given up.
-/

namespace Hexv6.Fs

open Lib Multiset Prog Function

/-- No directory is removed. -/
def NoRmdir {P : Type} (s : State P) : Op → Prop
  | .nlinkDown k => (s.itable k).node.type ≠ .dir
  | .writei k off de => de.inum = 0 → ∀ e, (s.itable k).node.slots[off]? = some e →
      (s.disk e.inum).type ≠ .dir
  | _ => True

/-- A link count that is raised does not become 0. -/
def NoWrap {P : Type} (s : State P) : Op → Prop
  | .nlinkUp k => (s.itable k).node.nlink ≠ -1
  | _ => True

/-- No directory is removed, no link count overflows, and an inode that is allocated is not in the
inode table any more. -/
def Counting {P : Type} (s : State P) (o : Op) : Prop := NoRmdir s o ∧ NoWrap s o ∧ NotHeld s o

/-! ### Directories have links -/

/-- Every directory without links is one that has just been allocated, or is being freed. -/
def NoDead {P : Type} (s : State P) (W : Multiset Token) : Prop :=
  ∀ i, (s.disk i).type = .dir → (s.disk i).nlink = 0 → ∃ t ∈ W, t.excl i = true

section NoDead

variable {P : Type} {n : ℕ} {s t : State P} {A B F W : Multiset Token} {c : Prop} {k : Slot} {i : ℕ}
  {d : Dinode}

section

variable (h : NoDead s (A + F))
include h

lemma NoDead.step (hdisk : ∀ i, (t.disk i).type = .dir → (t.disk i).nlink = 0 →
      (s.disk i).type = .dir ∧ (s.disk i).nlink = 0 ∨ ∃ b ∈ B, b.excl i = true)
    (hexcl : ∀ i, ∀ a ∈ A, a.excl i = true → (t.disk i).type = .dir → (t.disk i).nlink = 0 →
      ∃ b ∈ B, b.excl i = true) : NoDead t (B + F) := by
  intro i hdir hnlink
  have hB : (∃ b ∈ B, b.excl i = true) → ∃ b ∈ B + F, b.excl i = true := fun ⟨b, hb, he⟩ =>
    ⟨b, mem_add.2 (.inl hb), he⟩
  rcases hdisk i hdir hnlink with ⟨hdir', hnlink'⟩ | hb
  · obtain ⟨a, ha, he⟩ := h i hdir' hnlink'
    rcases mem_add.1 ha with ha | ha
    · exact hB (hexcl i a ha he hdir hnlink)
    · exact ⟨a, mem_add.2 (.inr ha), he⟩
  · exact hB hb

/-- The disk stays as it is, and exclusive tokens stay. -/
lemma NoDead.same (hdisk : t.disk = s.disk)
    (hexcl : ∀ i, (∃ a ∈ A, a.excl i = true) → ∃ b ∈ B, b.excl i = true) : NoDead t (B + F) :=
  h.step (fun i hdir hnlink => .inl ⟨by rwa [hdisk] at hdir, by rwa [hdisk] at hnlink⟩)
    fun i a ha he _ _ => hexcl i ⟨a, ha, he⟩

/-- One inode is written to. -/
lemma NoDead.iupdate (hi : (s.itable k).inum = i)
    (hself : d.type = .dir → d.nlink = 0 →
      (s.disk i).type = .dir ∧ (s.disk i).nlink = 0 ∨ ∃ b ∈ B, b.excl i = true)
    (hexcl : ∀ j, ∀ a ∈ A, a.excl j = true →
      ((s.iupdate k d).disk j).type = .dir → ((s.iupdate k d).disk j).nlink = 0 →
      ∃ b ∈ B, b.excl j = true) : NoDead (s.iupdate k d) (B + F) := by
  refine h.step (fun j hdir hnlink => ?_) hexcl
  rcases eq_or_ne j i with rfl | hj
  · rw [iupdate_disk _ hi, update_self] at hdir hnlink
    exact hself hdir hnlink
  · rw [iupdate_disk _ hi, update_of_ne hj] at hdir hnlink
    exact .inl ⟨hdir, hnlink⟩

/-- An entry of a directory is written. -/
lemma NoDead.put (hinv : Inv c n s (A + F)) {st : Stage}
    (ht : .slot k i (.lock d st) ∈ A) {off : ℕ} {de : Dirent}
    (hexcl : ∀ j, ∀ a ∈ A, a.excl j = true → (s.disk j).nlink = 0 → ∃ b ∈ B, b.excl j = true) :
    NoDead (s.iupdate k ((s.itable k).node.put off de)) (B + F) := by
  obtain ⟨hnode, hdisk⟩ := hinv.core.node_eq (mem_add.2 (.inl ht))
  have hi := hinv.core.inum_eq (mem_add.2 (.inl ht))
  refine h.iupdate hi (fun hdir hnlink => .inl ?_) fun j a ha he _ hnlink => hexcl j a ha he ?_
  · rw [hdisk, ← hnode]
    exact ⟨hdir, hnlink⟩
  rw [iupdate_disk _ hi] at hnlink
  rcases eq_or_ne j i with rfl | hj
  · rw [update_self, hnode] at hnlink
    rw [hdisk]
    exact hnlink
  · rwa [update_of_ne hj] at hnlink

end

/-- A directory that somebody has locked, and is not new, has links. -/
lemma NoDead.nlink_ne_zero (h : NoDead s W) (hcore : Core n s W) {st : Stage}
    (ht : .slot k i (.lock d st) ∈ W) (hst : (Mode.lock d st).excl = false) (hdir : d.type = .dir) :
    d.nlink ≠ 0 := by
  obtain ⟨-, hdisk⟩ := hcore.node_eq ht
  intro hnlink
  obtain ⟨t, htW, he⟩ := h i (by rwa [hdisk]) (by rwa [hdisk])
  -- the exclusive token would be the only reference
  have hle := hcore.excl i t htW he
  obtain ⟨F, rfl⟩ := exists_cons_of_mem ht
  rcases mem_cons.1 htW with rfl | htF
  · simp [hst] at he
  rw [countP_cons, if_pos (by simp)] at hle
  have hpos : 0 < F.countP (·.proper i) := countP_pos.2 ⟨t, htF, Token.proper_of_excl he⟩
  omega

/-- Where the operation does not change the disk. -/
lemma exec_disk_eq [DecidableEq P] {p : P} {o : Op} {x : o.Result} (hx : exec p o s = .ok (t, x))
    (ho : written s o = none) : t.disk = s.disk :=
  funext fun i => exec_disk hx (by simp [ho])

/-- Operations that are counted are allowed. -/
lemma Rule.meet {o : Op} {Ψ : o.Result → Multiset Token → Prop} (hrule : Rule n o A Ψ)
    (h : Inv c n s (A + F)) (hd : NoDead s (A + F)) (hM : Counting s o) : Meet True s o := by
  have hfill : ∀ {k j e}, Token.slot k j (.lock e .fill) ∈ A + F → (s.itable k).node.nlink ≠ 0 := by
    intro k j e ht h0
    obtain ⟨hnode, hdisk⟩ := h.core.node_eq ht
    have hle := h.core.ahead_le (h.core.type_ne_free ht rfl) ht (by simp [Mode.ahead])
    rw [hdisk, ← hnode, h0] at hle
    simp at hle
  cases hrule with
  | iallocTry i type hi htype => exact ⟨trivial, fun _ => hM.2.2⟩
  | upFile k i d hne =>
    obtain ⟨hnode, -⟩ := h.core.node_eq (show Token.slot k i (.lock d .plain) ∈ _ by simp)
    exact ⟨⟨hM.2.1, fun hdir => absurd (hnode ▸ hdir) hne⟩, fun _ => trivial⟩
  | upDir k i d hdir =>
    have ht : Token.slot k i (.lock d .plain) ∈ {.slot k i (.lock d .plain)} + F := by simp
    obtain ⟨hnode, -⟩ := h.core.node_eq ht
    refine ⟨⟨hM.2.1, fun _ => ?_⟩, fun _ => trivial⟩
    rw [hnode]
    exact hd.nlink_ne_zero h.core ht rfl hdir
  | putFile k i j x d name hfree hj hname =>
    have ht : Token.slot k i (.lock d .plain) ∈ {.slot k i (.lock d .plain)} + {.credit j} + F := by
      simp
    obtain ⟨hnode, -⟩ := h.core.node_eq ht
    refine ⟨⟨fun _ => ?_, fun h0 => absurd h0 hj⟩, fun _ => trivial⟩
    rw [hnode]
    exact hd.nlink_ne_zero h.core ht rfl hfree.1
  | putDir k k' i j x d e name hfree hj hname hnlink he =>
    have ht : Token.slot k i (.lock d .extra) ∈
        {.slot k i (.lock d .extra)} + {.slot k' j (.lock e .fill)} + F := by simp
    obtain ⟨hnode, -⟩ := h.core.node_eq ht
    refine ⟨⟨fun _ => ?_, fun h0 => absurd h0 hj⟩, fun _ => trivial⟩
    rw [hnode]
    exact hd.nlink_ne_zero h.core ht rfl hfree.1
  | putDot k j e he =>
    exact ⟨⟨fun _ => hfill (mem_add.2 (.inl (mem_singleton_self _))),
      fun h0 de hde hdir => absurd hdir (hM.1 h0 de hde)⟩, fun _ => trivial⟩
  | putDotdot k k' i j d e he hdir hnlink =>
    exact ⟨⟨fun _ => hfill (mem_add.2 (.inl (mem_add.2 (.inl (mem_singleton_self _))))),
      fun h0 de hde hdir => absurd hdir (hM.1 h0 de hde)⟩, fun _ => trivial⟩
  | removeFile | removeDir =>
    exact ⟨⟨fun h0 => absurd rfl h0, fun h0 de hde hdir => absurd hdir (hM.1 h0 de hde)⟩,
      fun _ => trivial⟩
  | _ => exact ⟨trivial, fun _ => trivial⟩

variable [DecidableEq P]

/-- The rules keep the invariant, and no directory is without links. -/
theorem Rule.sound_noDead {p : P} {o : Op} {Ψ : o.Result → Multiset Token → Prop} {x : o.Result}
    (hn : n ≤ 2 ^ 16) (hrule : Rule n o A Ψ) (h : Inv True n s (A + F)) (hd : NoDead s (A + F))
    (hM : Counting s o) (hx : exec p o s = .ok (t, x)) :
    ∃ B, Ψ x B ∧ Inv True n t (B + F) ∧ NoDead t (B + F) := by
  obtain ⟨B, hB, hinv⟩ := hrule.sound hn h (hrule.meet h hd hM) hx
  have hsame := fun ho : written s o = none => exec_disk_eq hx ho
  cases hrule with
  | igetRoot | igetEntry | igetNew | idup | iunlock | releasesleep | iputDrop =>
    cases hB
    exact ⟨_, rfl, hinv, hd.same (hsame rfl) (by simp [Mode.excl])⟩
  | acquiresleep k i new =>
    cases hB
    refine ⟨_, rfl, hinv, hd.same (hsame rfl) ?_⟩
    rintro j ⟨a, ha, he⟩
    rw [mem_singleton.1 ha] at he
    exact ⟨_, mem_singleton_self _, he⟩
  | readInode k i =>
    obtain ⟨d, hgood, rfl⟩ := hB
    exact ⟨_, ⟨d, hgood, rfl⟩, hinv, hd.same (hsame rfl) (by simp [Mode.excl])⟩
  | readInodeNew k i type =>
    obtain ⟨hpos, hlt, rfl⟩ := hB
    exact ⟨_, ⟨hpos, hlt, rfl⟩, hinv, hd.same (hsame rfl) (by simp [Mode.excl])⟩
  | node k i d st =>
    obtain ⟨hd', rfl⟩ := hB
    exact ⟨_, ⟨hd', rfl⟩, hinv, hd.same (hsame rfl) (by simp)⟩
  | inum k i m =>
    obtain ⟨hi, rfl⟩ := hB
    exact ⟨_, ⟨hi, rfl⟩, hinv, hd.same (hsame rfl) (by simp)⟩
  | iputTest k i =>
    refine ⟨B, hB, hinv, hd.same (hsame rfl) ?_⟩
    simp [Mode.excl]
  | itrunc k i cut =>
    cases hB
    have ht : Token.slot k i (.doomed cut) ∈ {.slot k i (.doomed cut)} + F := by simp
    cases hx
    refine ⟨_, rfl, hinv, hd.iupdate (h.core.inum_eq ht) (fun _ _ => .inr ?_) ?_⟩
    · exact ⟨_, mem_singleton_self _, by simp [Mode.excl]⟩
    · simp [Mode.excl]
  | itruncFile k i d hs =>
    cases hB
    have ht : Token.slot k i (.lock d .plain) ∈ {.slot k i (.lock d .plain)} + F := by simp
    cases hx
    obtain ⟨hnode, hdisk⟩ := h.core.node_eq ht
    refine ⟨_, rfl, hinv, hd.iupdate (h.core.inum_eq ht) (fun hdir hnlink => .inl ?_) ?_⟩
    · rw [hdisk, ← hnode]
      exact ⟨hdir, hnlink⟩
    · simp [Mode.excl]
  | ifree k i =>
    cases hB
    have ht : Token.slot k i (.doomed true) ∈ {.slot k i (.doomed true)} + F := by simp
    have hi := h.core.inum_eq ht
    cases hx
    -- the inode is not a directory any more
    have hfree : NoDead (s.iupdate k { (s.itable k).node with type := .free })
        ({.slot k i .freed} + F) := by
      refine hd.iupdate hi (by simp) fun j a ha he hdir => ?_
      rw [mem_singleton.1 ha, Token.excl_slot, decide_eq_true_eq] at he
      rw [← he.1, iupdate_disk _ hi, update_self] at hdir
      cases hdir
    exact ⟨_, rfl, hinv, hfree⟩
  | iallocTry i type hi htype =>
    refine ⟨B, hB, hinv, ?_⟩
    simp only [exec] at hx
    split at hx
    · cases hx
      obtain ⟨-, rfl⟩ := hB.resolve_right (by simp)
      refine hd.step (fun j hdir hnlink => ?_) (by simp)
      rcases eq_or_ne j i with rfl | hj
      · exact .inr ⟨_, mem_singleton_self _, by simp⟩
      · simp only [update_of_ne hj] at hdir hnlink
        exact .inl ⟨hdir, hnlink⟩
    cases hx
    obtain ⟨-, rfl⟩ := hB.resolve_left (by simp)
    exact hd
  | initFile k i d major minor hne =>
    cases hB
    have ht : Token.slot k i (.lock d .new) ∈ {.slot k i (.lock d .new)} + F := by simp
    have hi := h.core.inum_eq ht
    cases hx
    refine ⟨_, rfl, hinv, hd.iupdate hi (by simp) fun j a ha he _ hnlink => ?_⟩
    rw [mem_singleton.1 ha, Token.excl_slot, decide_eq_true_eq] at he
    rw [← he.1, iupdate_disk _ hi, update_self] at hnlink
    cases hnlink
  | initDir k i d major minor hdir =>
    cases hB
    have ht : Token.slot k i (.lock d .new) ∈ {.slot k i (.lock d .new)} + F := by simp
    cases hx
    refine ⟨_, rfl, hinv, hd.iupdate (h.core.inum_eq ht) (by simp) ?_⟩
    simp [Mode.excl]
  | upFile k i d hne =>
    cases hB
    have ht : Token.slot k i (.lock d .plain) ∈ {.slot k i (.lock d .plain)} + F := by simp
    cases hx
    refine ⟨_, rfl, hinv, hd.iupdate (h.core.inum_eq ht) (fun hdir _ => ?_) (by simp [Mode.excl])⟩
    exact absurd ((h.core.node_eq ht).1 ▸ hdir) hne
  | upDir k i d hdir =>
    obtain ⟨hle, rfl⟩ := hB
    have ht : Token.slot k i (.lock d .plain) ∈ {.slot k i (.lock d .plain)} + F := by simp
    cases hx
    refine ⟨_, ⟨hle, rfl⟩, hinv, hd.iupdate (h.core.inum_eq ht) (fun _ h0 => ?_)
      (by simp [Mode.excl])⟩
    rw [(h.core.node_eq ht).1] at h0
    have hup : d.up.nlink = 0 := h0
    rw [hup] at hle
    simp at hle
  | downFile k i d =>
    cases hB
    have ht : Token.slot k i (.lock d .plain) ∈ {.slot k i (.lock d .plain)} + {.credit i} + F := by
      simp
    cases hx
    exact ⟨_, rfl, hinv, hd.iupdate (h.core.inum_eq ht) (fun hdir _ => absurd hdir hM.1)
      (by simp [Mode.excl])⟩
  | downDir k i d =>
    cases hB
    have ht : Token.slot k i (.lock d .extra) ∈ {.slot k i (.lock d .extra)} + F := by simp
    cases hx
    exact ⟨_, rfl, hinv, hd.iupdate (h.core.inum_eq ht) (fun hdir _ => absurd hdir hM.1)
      (by simp [Mode.excl])⟩
  | putFile | putDotdot | removeFile | removeDir =>
    rcases writei_cases (Except.ok.inj hx) with ⟨rfl, rfl⟩ | ⟨rfl, rfl⟩
    · exact ⟨_, by simp, h, hd⟩
    rw [hB rfl] at hinv
    exact ⟨_, fun _ => rfl, hinv, hd.put h (mem_add.2 (.inl (mem_singleton_self _)))
      (by simp [Mode.excl])⟩
  | putDir k k' i j x d e name hfree hj hname hnlink he =>
    rcases writei_cases (Except.ok.inj hx) with ⟨rfl, rfl⟩ | ⟨rfl, rfl⟩
    · exact ⟨_, by simp, h, hd⟩
    rw [hB rfl] at hinv
    refine ⟨_, fun _ => rfl, hinv, hd.put h (mem_add.2 (.inl (mem_singleton_self _))) ?_⟩
    intro j' a ha hexcl hzero
    rcases mem_add.1 ha with ha | ha
    · rw [mem_singleton.1 ha] at hexcl
      simp [Mode.excl] at hexcl
    -- the new directory has its first link already
    have ht : Token.slot k' j (.lock e .fill) ∈
        {.slot k i (.lock d .extra)} + {.slot k' j (.lock e .fill)} + F := by simp
    have hle := h.core.ahead_le (h.core.type_ne_free ht rfl) ht (by simp [Mode.ahead])
    rw [mem_singleton.1 ha, Token.excl_slot, decide_eq_true_eq] at hexcl
    rw [hexcl.1, hzero] at hle
    simp at hle
  | putDot k j e he =>
    rcases writei_cases (Except.ok.inj hx) with ⟨rfl, rfl⟩ | ⟨rfl, rfl⟩
    · exact ⟨_, by simp, h, hd⟩
    · rw [hB rfl] at hinv
      exact ⟨_, fun _ => rfl, hinv, hd.put h (mem_singleton_self _) (by simp [Mode.excl])⟩
  | filealloc => refine ⟨B, hB, hinv, hd.same (hsame rfl) (by simp)⟩
  | fileSet f k ip =>
    cases hB
    exact ⟨_, rfl, hinv, hd.same (hsame rfl) (by simp [Token.excl])⟩
  | fileDrop f ip =>
    obtain ⟨hy, rfl⟩ := hB
    exact ⟨_, ⟨hy, rfl⟩, hinv, hd.same (hsame rfl) (by simp [Token.excl])⟩
  | panic e he A => exact hB.elim

end NoDead

end Hexv6.Fs
