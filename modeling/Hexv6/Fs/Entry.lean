import Hexv6.Fs.Write

/-!
# Writing entries, allocating and freeing keep the invariant

A new entry is written for an inode whose `nlink` is ahead, and when an entry is erased
`nlink` is ahead until it is decremented.  These are the places where a directory must not
have been removed already: a directory that gets an entry must still have links, and no
other directory may name a directory that is removed as its "..".
-/

namespace Hexv6.Fs

open Lib Multiset

variable {P : Type} {n : ℕ} {s s' : State P} {k k' : Slot} {i j x : ℕ} {t : Token}
  {A B F W : Multiset Token} {m m' : Mode} {d e : Dinode} {st : Stage} {de : Dirent} {name : Name}
  {D : ℕ → Dinode} {st' : Stage} {a : ℕ}

lemma countP_single {q : Token → Bool} :
    ({t} : Multiset Token).countP (q ·) = if q t = true then 1 else 0 := by
  rw [← cons_zero, countP_cons, countP_zero, Nat.zero_add]

/-- The directory `d` after an entry is written. -/
def Dinode.put (d : Dinode) (off : ℕ) (de : Dirent) : Dinode :=
  { d with slots := putSlot d.slots off de }

lemma Core.disk_put (h : Core n s W) (hk : .slot k i (.lock d st) ∈ W) (hdir : d.type = .dir)
    (hcomp : Complete i d.slots) (hx : x ≤ (d.slots.drop 2).length) :
    Put s.disk (s.iupdate k (d.put (x + 2) de)).disk i x de := by
  have hd := (h.node_eq hk).2
  have hself : (s.iupdate k (d.put (x + 2) de)).disk i = d.put (x + 2) de := h.iupdate_self hk
  refine ⟨fun j hj => ?_, ?_, ?_, by rwa [hd], by rwa [entries, hd]⟩
  · rw [iupdate_disk _ (h.inum_eq hk), Function.update_of_ne hj]
  · rw [hself, hd]
    exact ⟨hdir, hdir⟩
  · rw [hself, hd]
    rfl

/-- The owner of a locked directory writes an entry. -/
lemma Core.put (h : Core n s (A + F)) (hk : .slot k i (.lock d st) ∈ A) (hdir : d.type = .dir)
    (hcomp : Complete i d.slots) (hx : x ≤ (d.slots.drop 2).length)
    (htree : Tree n (s.iupdate k (d.put (x + 2) de)).disk)
    (hdead : ∀ t ∈ F, ∀ j, t.excl j = true → ¬ Alive n (s.iupdate k (d.put (x + 2) de)).disk j)
    (hcount : ∀ j, j ≠ 0 →
      linkCount n (s.iupdate k (d.put (x + 2) de)).disk j + B.countP (·.ahead j) =
        linkCount n s.disk j + A.countP (·.ahead j))
    (hB : ∀ t ∈ B, t.Means n (s.iupdate k (d.put (x + 2) de)))
    (hrefs : ∀ k', B.countP (·.onSlot k') = A.countP (·.onSlot k'))
    (hlocks : ∀ k', B.countP (·.locks k') = A.countP (·.locks k'))
    (hproper : ∀ j, B.countP (·.proper j) = A.countP (·.proper j))
    (hexcl : ∀ j, ∀ t ∈ B, t.excl j = false)
    (hpart : ∀ j, ∀ t ∈ A, t.excl j = true → 2 ≤ (s.disk j).slots.length) :
    Core n (s.iupdate k (d.put (x + 2) de)) (B + F) := by
  have hkW : Token.slot k i (.lock d st) ∈ A + F := mem_add.2 (.inl hk)
  obtain ⟨-, hvalid, hd, -, -⟩ := h.means _ hkW
  have hput : Put s.disk _ i x de := h.disk_put hkW hdir hcomp hx
  refine h.iupdate hk rfl rfl hvalid (by rw [hd]; rfl) htree hdead (fun j hj => ?_) hB hrefs hlocks
    hproper (fun j t ht hj => ?_) fun j hjdir hlen => ?_
  · rw [hput.type_eq] at hj
    have hlinks := h.links j hj
    have hc := hcount j (h.tree.alloc j hj).1.ne'
    have hnlink : ((s.iupdate k (d.put (x + 2) de)).disk j).nlink = (s.disk j).nlink := by
      rcases eq_or_ne j i with rfl | hji
      · rw [h.iupdate_self hkW, hd]
        rfl
      · rw [hput.off j hji]
    rw [countP_add] at hlinks ⊢
    rw [hnlink]
    omega
  · rw [hexcl j t ht] at hj
    cases hj
  · rw [hput.type_eq] at hjdir
    have hlen' : (s.disk j).slots.length < 2 := by
      by_contra hge
      have hsome : ((s.disk j).slots[1]?).isSome = true := by simp; omega
      rw [← hput.getElem?_one j] at hsome
      simp at hsome
      omega
    obtain ⟨t, ht, htj⟩ := h.part j hjdir hlen'
    rcases mem_add.1 ht with ht | ht
    · exact absurd (hpart j t ht htj) (by omega)
    · exact ⟨t, mem_add.2 (.inr ht), htj⟩

/-- A directory whose lock is held has its first entries, unless it is new. -/
lemma Core.complete_of_lock (h : Core n s W) (hk : .slot k i (.lock d st) ∈ W)
    (hst : (Mode.lock d st).excl = false) (hdir : d.type = .dir) : Complete i d.slots := by
  obtain ⟨F, rfl⟩ := exists_cons_of_mem hk
  have hd := (h.node_eq hk).2
  rw [← hd]
  exact h.complete (by simp [Mode.proper]) (by simp [hst]) (by rwa [hd])

/-- What is ahead for a directory is ahead for the owner of its lock. -/
lemma Core.ahead_eq_zero (h : Core n s (.slot k i m ::ₘ F)) (hm : m.locks = true)
    (hdir : (s.disk i).type = .dir) : F.countP (·.ahead i) = 0 := by
  rw [countP_eq_zero]
  intro t ht hahead
  have ht' : t ∈ .slot k i m ::ₘ F := mem_cons_of_mem ht
  cases t with
  | slot k' i' m' =>
    simp only [Token.ahead_slot, decide_eq_true_eq] at hahead
    obtain ⟨rfl, hahead⟩ := hahead
    obtain rfl := h.slot_eq (mem_cons_self _ _) ht'
    have hl := h.no_lock (k := k) (by simp [hm]) _ ht
    cases m' with
    | lock d st => simp [Mode.locks] at hl
    | _ => cases hahead
  | credit i' =>
    simp only [Token.ahead_credit, decide_eq_true_eq] at hahead
    subst hahead
    exact (h.means _ ht').2 hdir
  | born | file => cases hahead

/-- A directory that has more links than are ahead is alive. -/
lemma Core.alive_of_lock (h : Core n s W) (hk : .slot k i (.lock d st) ∈ W) (hdir : d.type = .dir)
    (hlt : (Mode.lock d st).ahead.toNat < d.nlink.toNat) : Alive n s.disk i := by
  obtain ⟨F, rfl⟩ := exists_cons_of_mem hk
  have hd := (h.node_eq hk).2
  have hlinks := h.links i (by simp [hd, hdir])
  rw [countP_cons, h.ahead_eq_zero rfl (by rwa [hd]), hd] at hlinks
  refine h.tree.alive_of_linkCount ?_
  cases ha : (Mode.lock d st).ahead <;> simp [ha] at hlinks hlt <;> omega

/-- Two sleep locks are those of different inodes. -/
lemma Core.ne_of_locks (h : Core n s (.slot k i m ::ₘ F)) (hm : m.locks = true)
    (hk : .slot k' j m' ∈ F) (hm' : m'.locks = true) : i ≠ j := by
  rintro rfl
  obtain rfl := h.slot_eq (mem_cons_self _ _) (mem_cons_of_mem hk)
  have hl := h.no_lock (k := k) (by simp [hm]) _ hk
  simp [hm'] at hl

/-- The inode of a proper token is allocated. -/
lemma Core.type_ne_free_of_proper (h : Core n s W) (ht : t ∈ W) (hp : t.proper i = true) :
    (s.disk i).type ≠ .free := by
  cases t with
  | slot k j m =>
    simp only [Token.proper_slot, decide_eq_true_eq] at hp
    obtain ⟨rfl, hp⟩ := hp
    exact h.type_ne_free ht hp
  | born j type =>
    simp only [Token.proper_born, decide_eq_true_eq] at hp
    subst hp
    have hm : Fresh n s.disk j type := h.means _ ht
    rw [hm.1]
    exact hm.2.1
  | credit | file => cases hp

lemma Core.ne_zero_of_excl (h : Core n s W) (ht : t ∈ W) (hexcl : t.excl i = true) : i ≠ 0 :=
  (h.tree.alloc i (h.type_ne_free_of_proper ht (Token.proper_of_excl hexcl))).1.ne'

/-- The locked inode that is written. -/
lemma Core.means_self (h : Core n s W) (hk : .slot k i (.lock d st) ∈ W) (d' : Dinode)
    (htype : d'.type = d.type) (hst : st' = .plain ∨ st' = .extra ∧ d.type = .dir) :
    (Token.slot k i (.lock d' st')).Means n (s.iupdate k d') := by
  obtain ⟨hi, hvalid, hd, hfree, -⟩ := h.means _ hk
  rw [Token.Means, (iupdate_fields k).1, (iupdate_fields k).2.1]
  refine ⟨hi, hvalid, h.iupdate_self hk, by rwa [htype], ?_⟩
  rcases hst with rfl | ⟨rfl, hdir⟩
  · trivial
  · exact htype.trans hdir

/-- A locked inode that is not the one that is written. -/
lemma Core.means_of_ne (h : Core n s W) (hk : .slot k i m ∈ W) (hk' : .slot k' j (.lock e st) ∈ W)
    (hij : i ≠ j) (hst : st' = .plain ∨ st' = .extra ∧ e.type = .dir) :
    (Token.slot k' j (.lock e st')).Means n (s.iupdate k d) := by
  obtain ⟨hj, hvalid, he, hfree, -⟩ := h.means _ hk'
  rw [Token.Means, (iupdate_fields k').1, (iupdate_fields k').2.1, iupdate_disk _ (h.inum_eq hk)]
  refine ⟨hj, hvalid, by rwa [Function.update_of_ne hij.symm], hfree, ?_⟩
  rcases hst with rfl | ⟨rfl, hdir⟩
  · trivial
  · exact hdir

/-! ### A new entry -/

/-- The inodes of exclusive tokens stay unnamed. -/
lemma Core.dead_add (h : Core n s W) (hput : Put s.disk D i x ⟨j, name⟩)
    (hold : oldInum (entries s.disk i) x = 0) (ht : t ∈ W) (hexcl : t.excl a = true)
    (hne : j ≠ a) : ¬ Alive n D a := by
  have ha := h.ne_zero_of_excl ht hexcl
  have hdead := h.dead_of_excl ht hexcl
  rw [Alive] at hdead ⊢
  rw [hput.named_add h.tree hold ha]
  simpa [hne] using hdead

/-- A file gets its entry. -/
lemma Core.put_file (h : Core n s ({.slot k i (.lock d .plain)} + {.credit j} + F))
    (hdir : d.type = .dir) (hnlink : d.nlink ≠ 0) (hx : x ≤ (d.slots.drop 2).length)
    (hold : oldInum (d.slots.drop 2) x = 0) (hname : name ≠ dot ∧ name ≠ dotdot) :
    Core n (s.iupdate k (d.put (x + 2) ⟨j, name⟩))
      ({.slot k i (.lock (d.put (x + 2) ⟨j, name⟩) .plain)} + F) := by
  rw [singleton_add] at h
  have hkA : Token.slot k i (.lock d .plain) ∈ .slot k i (.lock d .plain) ::ₘ {.credit j} :=
    mem_cons_self _ _
  have hkW : Token.slot k i (.lock d .plain) ∈ .slot k i (.lock d .plain) ::ₘ {.credit j} + F :=
    mem_add.2 (.inl hkA)
  have hcredit : Token.credit j ∈ .slot k i (.lock d .plain) ::ₘ {.credit j} + F := by simp
  obtain ⟨hjfree, hjdir⟩ := h.means _ hcredit
  have hd := (h.node_eq hkW).2
  have hcomp := h.complete_of_lock hkW rfl hdir
  have halive : Alive n s.disk i := by
    refine h.alive_of_lock hkW hdir (Nat.pos_of_ne_zero fun h0 => hnlink ?_)
    exact BitVec.eq_of_toNat_eq h0
  have hput : Put s.disk _ i x ⟨j, name⟩ := h.disk_put hkW hdir hcomp hx
  have hold' : oldInum (entries s.disk i) x = 0 := by rwa [entries, hd]
  refine h.put hkA hdir hcomp hx ?_ (fun t ht jj hexcl => ?_) (fun jj hjj => ?_) (fun t ht => ?_)
    (fun k' => ?_) (fun k' => ?_) (fun jj => ?_) (fun jj t ht => ?_) fun jj t ht hexcl => ?_
  · refine hput.tree_add h.tree hold' hjfree halive hname ?_ fun hd => absurd hd hjdir
    rintro rfl
    exact hjdir h.tree.root.1
  · have htW : t ∈ .slot k i (.lock d .plain) ::ₘ {.credit j} + F := mem_add.2 (.inr ht)
    have hne : j ≠ jj := by
      rintro rfl
      rw [h.not_excl_of_credit hcredit htW] at hexcl
      cases hexcl
    exact h.dead_add hput hold' htW hexcl hne
  · rw [hput.linkCount_add h.tree hold' hjj]
    simp only [hjdir, and_false, decide_false, Bool.toNat_false]
    by_cases hj : j = jj <;> simp [Mode.ahead, countP_single, hj]
  · obtain rfl := mem_singleton.1 ht
    exact h.means_self hkW (d.put (x + 2) ⟨j, name⟩) rfl (.inl rfl)
  · simp [countP_cons, countP_single]
  · simp [Mode.locks, countP_cons, countP_single]
  · simp [Mode.proper, countP_cons, countP_single]
  · obtain rfl := mem_singleton.1 ht
    simp [Mode.excl]
  · rcases mem_cons.1 ht with rfl | ht
    · simp [Mode.excl] at hexcl
    · simp [mem_singleton.1 ht] at hexcl

/-- A new directory gets its entry in the directory that its ".." names. -/
lemma Core.put_dir (h : Core n s ({.slot k i (.lock d .extra)} + {.slot k' j (.lock e .fill)} + F))
    (hdir : d.type = .dir) (hnlink : 2 ≤ d.nlink.toNat) (hx : x ≤ (d.slots.drop 2).length)
    (hold : oldInum (d.slots.drop 2) x = 0) (hname : name ≠ dot ∧ name ≠ dotdot)
    (he : e.slots[1]? = some ⟨i, dotdot⟩) :
    Core n (s.iupdate k (d.put (x + 2) ⟨j, name⟩))
      ({.slot k i (.lock (d.put (x + 2) ⟨j, name⟩) .plain)} +
        {.slot k' j (.lock e .plain)} + F) := by
  rw [singleton_add] at h ⊢
  have hkA : Token.slot k i (.lock d .extra) ∈
      .slot k i (.lock d .extra) ::ₘ {.slot k' j (.lock e .fill)} := mem_cons_self _ _
  have hkW := mem_add.2 (.inl hkA (b := Token.slot k i (.lock d .extra) ∈ F))
  have hkW' : Token.slot k' j (.lock e .fill) ∈
      .slot k i (.lock d .extra) ::ₘ {.slot k' j (.lock e .fill)} + F := by simp
  obtain ⟨-, -, hej, -, hedir, hdead⟩ := h.means _ hkW'
  have hd := (h.node_eq hkW).2
  have hjdir : (s.disk j).type = .dir := by rwa [hej]
  have hcomp := h.complete_of_lock hkW rfl hdir
  have halive := h.alive_of_lock hkW hdir hnlink
  have hij : i ≠ j := by
    rintro rfl
    exact hdead halive
  have hput : Put s.disk _ i x ⟨j, name⟩ := h.disk_put hkW hdir hcomp hx
  have hold' : oldInum (entries s.disk i) x = 0 := by rwa [entries, hd]
  have hunnamed : named n s.disk j = 0 := by
    by_contra hne
    exact hdead (.inr hne)
  refine h.put hkA hdir hcomp hx ?_ (fun t ht jj hexcl => ?_) (fun jj hjj => ?_) (fun t ht => ?_)
    (fun k' => ?_) (fun k' => ?_) (fun jj => ?_) (fun jj t ht => ?_) fun jj t ht hexcl => ?_
  · refine hput.tree_add h.tree hold' (by simp [hjdir]) halive hname (fun hj => ?_) fun _ => ?_
    · exact hdead (.inl hj)
    · exact ⟨hunnamed, by rwa [hej]⟩
  · have htW := mem_add.2 (.inr ht (a := t ∈ Token.slot k i (.lock d .extra) ::ₘ
      {Token.slot k' j (.lock e .fill)}))
    have hne : j ≠ jj := by
      rintro rfl
      -- the new directory is the owner's alone
      have hcons : Core n s (.slot k' j (.lock e .fill) ::ₘ
          (.slot k i (.lock d .extra) ::ₘ F)) := by
        rwa [cons_add, singleton_add, cons_swap] at h
      have := hcons.no_excl (i := j) (by simp [Mode.proper]) t (mem_cons_of_mem ht)
      rw [this] at hexcl
      cases hexcl
    exact h.dead_add hput hold' htW hexcl hne
  · rw [hput.linkCount_add h.tree hold' hjj]
    simp only [hjdir, and_true]
    by_cases hj : j = jj <;> by_cases hi : i = jj <;> simp [Mode.ahead, countP_single, hj, hi]
  · rcases mem_cons.1 ht with rfl | ht
    · exact h.means_self hkW (d.put (x + 2) ⟨j, name⟩) rfl (.inl rfl)
    · obtain rfl := mem_singleton.1 ht
      exact h.means_of_ne hkW hkW' hij (.inl rfl)
  · simp [countP_cons, countP_single]
  · simp [Mode.locks, countP_cons, countP_single]
  · simp [Mode.proper, countP_cons, countP_single]
  · rcases mem_cons.1 ht with rfl | ht
    · simp [Mode.excl]
    · simp [mem_singleton.1 ht, Mode.excl]
  · rcases mem_cons.1 ht with rfl | ht
    · simp [Mode.excl] at hexcl
    obtain rfl := mem_singleton.1 ht
    simp only [Token.excl_slot, decide_eq_true_eq] at hexcl
    rw [← hexcl.1, hej]
    exact (List.getElem?_eq_some_iff.1 he).1

/-! ### An entry is erased -/

lemma Core.dead_remove (h : Core n s W) (hput : Put s.disk D i x {})
    (hold : oldInum (entries s.disk i) x = j) (ht : t ∈ W) (hexcl : t.excl a = true) :
    ¬ Alive n D a := by
  have ha := h.ne_zero_of_excl ht hexcl
  have hdead := h.dead_of_excl ht hexcl
  have hnamed := hput.named_remove h.tree hold ha
  rw [Alive, not_or, not_not] at hdead ⊢
  exact ⟨hdead.1, by omega⟩

/-- An entry of a directory is erased while the inode that it names is locked as well; the
directories are not behind their link counts any more. -/
lemma Core.remove {C : Multiset Token} (hC : Credits j C)
    (h : Core n s (.slot k i (.lock d .plain) ::ₘ {.slot k' j (.lock e .plain)} + F))
    (hdir : d.type = .dir) (hx : x ≤ (d.slots.drop 2).length)
    (hold : oldInum (d.slots.drop 2) x = j)
    (hst : st' = .plain ∧ card C = 1 ∧ e.type ≠ .dir ∨ st' = .extra ∧ C = 0 ∧ e.type = .dir)
    (hempty : e.type = .dir → (∀ de ∈ e.slots.drop 2, de.inum = 0) ∧
      ∀ a, (s.disk a).slots[1]? ≠ some ⟨j, dotdot⟩) :
    Core n (s.iupdate k (d.put (x + 2) {}))
      (.slot k i (.lock (d.put (x + 2) {}) st') ::ₘ .slot k' j (.lock e st') ::ₘ C + F) := by
  have hkA : Token.slot k i (.lock d .plain) ∈
      .slot k i (.lock d .plain) ::ₘ {.slot k' j (.lock e .plain)} := mem_cons_self _ _
  have hkW := mem_add.2 (.inl hkA (b := Token.slot k i (.lock d .plain) ∈ F))
  have hkW' : Token.slot k' j (.lock e .plain) ∈
      .slot k i (.lock d .plain) ::ₘ {.slot k' j (.lock e .plain)} + F := by simp
  have hd := (h.node_eq hkW).2
  have hej := (h.node_eq hkW').2
  have hcomp := h.complete_of_lock hkW rfl hdir
  have hij : i ≠ j := by
    have hcons := h
    rw [cons_add] at hcons
    exact hcons.ne_of_locks rfl (mem_add.2 (.inl (mem_singleton_self _))) rfl
  have hput : Put s.disk _ i x {} := h.disk_put hkW hdir hcomp hx
  have hold' : oldInum (entries s.disk i) x = j := by rwa [entries, hd]
  have hstage : st' = .plain ∨ st' = .extra ∧ e.type = .dir :=
    hst.imp (fun hs => hs.1) fun hs => ⟨hs.1, hs.2.2⟩
  have hexcl : (Mode.lock e st').excl = false ∧
      (Mode.lock (d.put (x + 2) {}) st').excl = false := by
    rcases hstage with rfl | ⟨rfl, -⟩ <;> exact ⟨rfl, rfl⟩
  refine h.put hkA hdir hcomp hx ?_ (fun t ht a ha => ?_) (fun a ha => ?_) (fun t ht => ?_)
    (fun k' => ?_) (fun k' => ?_) (fun a => ?_) (fun a t ht => ?_) fun a t ht ha => ?_
  · refine hput.tree_remove h.tree hold' fun hjdir => ?_
    rw [hej] at hjdir
    rw [entries, hej]
    exact hempty hjdir
  · exact h.dead_remove hput hold' (mem_add.2 (.inr ht)) ha
  · have hlinks := hput.linkCount_remove h.tree hold' ha
    rw [hej] at hlinks
    rw [countP_cons, countP_cons, hC.countP_ahead, countP_cons, countP_single]
    rcases hst with ⟨rfl, hcard, hefile⟩ | ⟨rfl, rfl, hedir⟩
    · by_cases hj : j = a <;> simp [hj, hefile, hcard, Mode.ahead] at hlinks ⊢ <;> omega
    · by_cases hj : j = a <;> by_cases hi : i = a <;>
        simp [hj, hi, hedir, Mode.ahead] at hlinks ⊢ <;> omega
  · rcases mem_cons.1 ht with rfl | ht
    · exact h.means_self hkW (d.put (x + 2) {}) rfl (hstage.imp_right fun hs => ⟨hs.1, hdir⟩)
    rcases mem_cons.1 ht with rfl | ht
    · exact h.means_of_ne hkW hkW' hij hstage
    rw [hC t ht, Token.Means, iupdate_disk _ (h.inum_eq hkW), Function.update_of_ne hij.symm, hej]
    rcases hst with ⟨-, -, hefile⟩ | ⟨-, rfl, -⟩
    · exact ⟨(h.means _ hkW').2.2.2.1, hefile⟩
    · simp at ht
  · rw [countP_cons, countP_cons, hC.countP_eq_zero rfl, countP_cons, countP_single, Nat.zero_add]
    rfl
  · rw [countP_cons, countP_cons, hC.countP_eq_zero rfl, countP_cons, countP_single, Nat.zero_add]
    rfl
  · rw [countP_cons, countP_cons, hC.countP_eq_zero rfl, countP_cons, countP_single, Nat.zero_add]
    rfl
  · rcases mem_cons.1 ht with rfl | ht
    · simp [hexcl.2]
    rcases mem_cons.1 ht with rfl | ht
    · simp [hexcl.1]
    · simp [hC t ht]
  · rcases mem_cons.1 ht with rfl | ht
    · simp [Mode.excl] at ha
    · simp [mem_singleton.1 ht, Mode.excl] at ha

/-! ### The first entries of a new directory -/

/-- A new directory gets "." or "..". -/
lemma Core.put_dots (h : Core n s (.slot k j (.lock e .fill) ::ₘ F)) (de : Dirent)
    (hold : e.slots.length < 2)
    (hnew : (e.put e.slots.length de).slots = [⟨j, dot⟩] ∨
      ∃ a, (e.put e.slots.length de).slots = [⟨j, dot⟩, ⟨a, dotdot⟩] ∧
        (s.disk a).type = .dir ∧ Alive n s.disk a) :
    Core n (s.iupdate k (e.put e.slots.length de))
      (.slot k j (.lock (e.put e.slots.length de) .fill) ::ₘ F) := by
  have hkA : Token.slot k j (.lock e .fill) ∈ ({.slot k j (.lock e .fill)} : Multiset Token) :=
    mem_singleton_self _
  have hkW : Token.slot k j (.lock e .fill) ∈ .slot k j (.lock e .fill) ::ₘ F := mem_cons_self _ _
  obtain ⟨hj, hvalid, hej, hfree, hedir, hdead⟩ := h.means _ hkW
  have hself : (s.iupdate k (e.put e.slots.length de)).disk j = e.put e.slots.length de :=
    h.iupdate_self hkW
  have hoff : ∀ a, a ≠ j → (s.iupdate k (e.put e.slots.length de)).disk a = s.disk a := by
    intro a ha
    rw [iupdate_disk _ hj, Function.update_of_ne ha]
  have hlt : (s.disk j).slots.length < 2 := by rwa [hej]
  have hle : ((s.iupdate k (e.put e.slots.length de)).disk j).slots.length ≤ 2 := by
    rw [hself]
    rcases hnew with hs | ⟨a, hs, -, -⟩ <;> simp [hs]
  have htype : ((s.iupdate k (e.put e.slots.length de)).disk j).type = (s.disk j).type := by
    rw [hself, hej]
    rfl
  have hent := dots_entries hoff hlt hle
  have hA : Core n s ({.slot k j (.lock e .fill)} + F) := by rwa [singleton_add]
  rw [← singleton_add]
  refine hA.iupdate hkA rfl rfl hvalid (by rw [hej]; rfl) ?_ (fun t ht a ha => ?_) (fun a ha => ?_)
    (fun t ht => ?_) (fun k' => ?_) (fun k' => ?_) (fun a => ?_) (fun a t ht ha => ?_)
    fun a hdir hlen => ?_
  · refine dots_tree h.tree hoff htype hlt hle (by rwa [hej]) ?_ fun a ha => ?_
    · rw [hself]
      refine hnew.imp_right fun ⟨a, hs, hadir, _⟩ => ⟨a, [], hs, ?_, by simp⟩
      exact (h.tree.alloc a (by simp [hadir])).1.ne'
    rw [hself] at ha
    rcases hnew with hs | ⟨b, hs, hbdir, hb⟩
    · simp [hs] at ha
    · obtain rfl : b = a := by simpa [hs] using ha
      exact ⟨hbdir, hb⟩
  · rw [alive_congr hent]
    exact h.dead_of_excl (mem_cons_of_mem ht) ha
  · have hnlink : ((s.iupdate k (e.put e.slots.length de)).disk a).nlink = (s.disk a).nlink := by
      rcases eq_or_ne a j with rfl | haj
      · rw [hself, hej]
        rfl
      · rw [hoff a haj]
    have htypes : ((s.iupdate k (e.put e.slots.length de)).disk a).type = (s.disk a).type := by
      rcases eq_or_ne a j with rfl | haj
      · exact htype
      · rw [hoff a haj]
    rw [htypes] at ha
    rw [hnlink, dots_linkCount hoff htype hlt hle, h.links a ha, singleton_add, countP_cons,
      countP_cons]
    rfl
  · obtain rfl := mem_singleton.1 ht
    rw [Token.Means, (iupdate_fields k).1, (iupdate_fields k).2.1]
    exact ⟨hj, hvalid, hself, hfree, hedir, by rwa [alive_congr hent]⟩
  · simp [countP_single]
  · simp [countP_single, Mode.locks]
  · simp [countP_single, Mode.proper]
  · obtain rfl := mem_singleton.1 ht
    exact ⟨_, hkA, ha⟩
  · rcases eq_or_ne a j with rfl | haj
    · exact ⟨_, mem_add.2 (.inl (mem_singleton_self _)), by simp [Mode.excl]⟩
    rw [hoff a haj] at hdir hlen
    obtain ⟨t, ht, hta⟩ := h.part a hdir hlen
    rcases mem_cons.1 ht with rfl | ht
    · simp [haj.symm] at hta
    · exact ⟨t, mem_add.2 (.inr ht), hta⟩

end Hexv6.Fs
