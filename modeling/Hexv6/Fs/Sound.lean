import Hexv6.Fs.Rules

/-!
# The rules are sound

Every operation that is performed with the tokens of its rule, in a state where it is
`Allowed`, keeps the invariant and leaves the tokens that the rule says.
-/

namespace Hexv6.Fs

open Lib Multiset Function

variable {P : Type} {c : Prop} {n : ℕ} {s t : State P} {p : P} {k k' : Slot}
  {f : FileSlot} {i j x : ℕ} {A B F W : Multiset Token} {d e : Dinode} {de : Dirent}
  {type : IType} {ip : Option Slot}

/-! ### References and locks -/

lemma iget_frame (hx : iget s i = .ok (t, k)) : t.disk = s.disk ∧ t.ftable = s.ftable := by
  rcases iget_cases hx with ⟨-, -, rfl⟩ | ⟨-, -, rfl⟩ <;> exact ⟨rfl, rfl⟩

/-- A reference to an inode that is the root or that some entry names. -/
lemma Core.igetAlive (h : Core n s W) (hx : Fs.iget s i = .ok (t, k))
    (hfree : (s.disk i).type ≠ .free) (halive : Alive n s.disk i) :
    Core n t (.slot k i (.ref none) ::ₘ W) := by
  refine h.iget hx hfree (fun t ht => ?_) fun h0 => ?_
  · by_contra hexcl
    exact h.dead_of_excl ht (by simpa using hexcl) halive
  have hlinks := h.links i hfree
  rw [h0, show (0 : BitVec 16).toNat = 0 from rfl] at hlinks
  have := linkCount_ne_zero halive
  omega

/-- A reference to an inode that an entry of a locked directory names. -/
lemma Core.igetEntry (h : Core n s (.slot k i (.lock d .plain) ::ₘ F))
    (hx : Fs.iget s de.inum = .ok (t, k')) (he : de ∈ d.slots) (h₀ : de.inum ≠ 0) :
    Core n t (.slot k' de.inum (.ref none) ::ₘ .slot k i (.lock d .plain) ::ₘ F) := by
  have hkW : Token.slot k i (.lock d .plain) ∈ .slot k i (.lock d .plain) ::ₘ F := mem_cons_self _ _
  obtain ⟨hi, hvalid, hd, hfree, -⟩ := h.means _ hkW
  have hdir : d.type = .dir := by
    by_contra hfile
    have hnil := h.tree.slots i (by rwa [hd])
    rw [hd] at hnil
    simp [hnil] at he
  have hcomp := h.complete_of_lock hkW rfl hdir
  obtain ⟨a, rest, hs, -, -⟩ := hcomp
  rw [hs, List.mem_cons, List.mem_cons] at he
  rcases he with rfl | rfl | he
  · -- "." is the directory itself, which the process has locked
    refine h.iget hx (by rwa [hd]) (fun t ht => ?_) fun _ => ?_
    · rcases mem_cons.1 ht with rfl | ht
      · simp [Mode.excl]
      · exact h.no_excl (by simp [Mode.proper]) t ht
    · exact ⟨k, h.ref_pos hkW, hi, hvalid⟩
  · obtain ⟨hadir, ha⟩ := h.tree.up i a (by rw [hd, hs]; rfl)
    exact h.igetAlive hx (by simp [hadir]) ha
  · have hmem : de ∈ entries s.disk i := by rwa [entries, hd, hs]
    exact h.igetAlive hx (h.tree.entry i de hmem h₀).1 (.inr (h.tree.named_of_mem hmem))

lemma Inv.igetRoot (h : Inv c n s (0 + F)) (hx : Fs.iget s ROOTINO = .ok (t, k)) :
    Inv c n t ({.slot k ROOTINO (.ref none)} + F) := by
  have hroot := h.core.tree.root.1
  have hcore := h.core.igetAlive hx (by simp [hroot]) (.inl rfl)
  refine h.step (by rwa [zero_add, ← singleton_add] at hcore) (iget_frame hx).2 (by simp) (by simp)
    (by simp) (fun i => .inl (by rw [(iget_frame hx).1])) (by simp)

lemma Inv.igetEntry (h : Inv c n s ({.slot k i (.lock d .plain)} + F))
    (hx : Fs.iget s de.inum = .ok (t, k')) (he : de ∈ d.slots) (h₀ : de.inum ≠ 0) :
    Inv c n t ({.slot k i (.lock d .plain)} + {.slot k' de.inum (.ref none)} + F) := by
  have hcore := h.core_cons
  have hcore' := hcore.igetEntry hx he h₀
  rw [cons_swap, ← singleton_add, ← singleton_add, ← add_assoc] at hcore'
  refine h.step hcore' (iget_frame hx).2 (by simp) (by simp) (fun i => ?_)
    (fun i => .inl (by rw [(iget_frame hx).1])) (by simp)
  rw [countP_add]
  omega

lemma Inv.igetNew (h : Inv c n s ({.born i type} + F))
    (hx : Fs.iget s i = .ok (t, k)) : Inv c n t ({.slot k i (.ref (some type))} + F) := by
  have hcore := h.core_cons
  refine h.step (by rw [singleton_add]; exact hcore.igetNew hx) (iget_frame hx).2 (by simp)
    (by simp) (fun j => ?_) (fun j => .inl (by rw [(iget_frame hx).1])) (by simp)
  simp [countP_single]

lemma Inv.idup (h : Inv c n s ({.slot k i (.ref none)} + F)) :
    Inv c n (s.setInode k { s.itable k with ref := (s.itable k).ref + 1 })
      ({.slot k i (.ref none)} + {.slot k i (.ref none)} + F) := by
  have hcore := h.core_cons
  have hcore' := hcore.idup
  rw [← singleton_add, ← singleton_add, ← add_assoc] at hcore'
  refine h.step hcore' rfl (by simp) (by simp) (fun i => ?_) (fun i => .inl rfl) (by simp)
  rw [countP_add]
  omega

/-! ### `iput` -/

variable {y : Bool}

lemma Inv.iputTest (h : Inv c n s ({.slot k i (.ref none)} + F)) (p : P)
    (hx : Fs.iputTest s p k = .ok (t, y)) :
    y = true ∧ Inv c n t ({.slot k i (.doomed false)} + F) ∨ y = false ∧ Inv c n t (0 + F) := by
  have hcore := h.core_cons
  have hkW : Token.slot k i (.ref none) ∈ .slot k i (.ref none) ::ₘ F := mem_cons_self _ _
  rw [Fs.iputTest] at hx
  split at hx
  · rename_i hlast
    split at hx
    · rename_i hlock
      cases hx
      exact .inl ⟨rfl, h.swap (hcore.iputTest p hlast.1 hlast.2.1 hlast.2.2 hlock) rfl rfl rfl⟩
    · cases hx
  rename_i hlast
  cases hx
  have hdown := hcore.refDown rfl rfl rfl
  refine .inr ⟨rfl, by rwa [zero_add], h.files.same rfl (by simp) (by simp), fun hc => ?_⟩
  have hkept := h.kept hc
  rw [zero_add]
  refine hkept.drop hcore rfl fun _ hnlink hone => hlast ?_
  -- an inode without links is in memory while there are references to it
  have hvalid : (s.itable k).valid = true := (hcore.means _ hkW).2.2 hnlink
  have hcoh := (hcore.coh k (hcore.ref_pos hkW) hvalid).1
  rw [hcore.inum_eq hkW] at hcoh
  exact ⟨hone, hvalid, by rw [hcoh, hnlink]⟩

lemma Inv.itrunc {cut : Bool} (h : Inv c n s ({.slot k i (.doomed cut)} + F)) :
    Inv c n (s.iupdate k { (s.itable k).node with slots := [] })
      ({.slot k i (.doomed true)} + F) := by
  have hcore := h.core_cons
  have hcore' := hcore.itrunc
  rw [← hcore.node_of_doomed (mem_cons_self _ _)] at hcore'
  exact h.write (mem_singleton_self _) rfl (by rwa [singleton_add]) (by simp [Trade, countP_single])

/-- Only directories have contents in the model. -/
lemma Inv.itruncFile (h : Inv c n s ({.slot k i (.lock d .plain)} + F)) (hd : d.slots = []) :
    Inv c n (s.iupdate k { (s.itable k).node with slots := [] })
      ({.slot k i (.lock d .plain)} + F) := by
  have hkW : Token.slot k i (.lock d .plain) ∈ {.slot k i (.lock d .plain)} + F := by simp
  obtain ⟨hnode, hdisk⟩ := h.core.node_eq hkW
  have hself : { d with slots := [] } = d := by rw [← hd]
  have hsame : s.iupdate k { (s.itable k).node with slots := [] } = s := by
    have hd' : update s.disk i d = s.disk := by rw [← hdisk, update_eq_self]
    have hip : update s.itable k { s.itable k with node := d } = s.itable := by
      rw [← hnode]
      exact update_eq_self ..
    rw [hnode, hself, State.iupdate, h.core.inum_eq hkW, hd', hip]
  rwa [hsame]

lemma Inv.ifree (h : Inv c n s ({.slot k i (.doomed true)} + F))
    (ht : t = (s.iupdate k { (s.itable k).node with type := .free }).setInode k
      { (s.iupdate k { (s.itable k).node with type := .free }).itable k with valid := false }) :
    Inv c n t ({.slot k i .freed} + F) := by
  have hcore := h.core_cons
  have hkW : Token.slot k i (.doomed true) ∈ .slot k i (.doomed true) ::ₘ F := mem_cons_self _ _
  rw [hcore.node_of_doomed hkW] at ht
  have hdisk : t.disk = update s.disk i { s.disk i with type := .free } := by
    rw [ht, setInode_disk, iupdate_disk _ (hcore.inum_eq hkW)]
  refine ⟨by rw [singleton_add]; exact hcore.ifree ht, ?_, fun hc => ⟨fun j hj hnlink => ?_, ?_⟩⟩
  · refine h.files.same ?_ (by simp) (by simp)
    rw [ht]
    rfl
  · have hkept := h.kept hc
    have hji : j ≠ i := by
      rintro rfl
      simp [hdisk] at hj
    rw [hdisk, update_of_ne hji] at hj hnlink
    obtain ⟨t', ht', htp⟩ := hkept.held j hj hnlink
    rcases mem_add.1 ht' with ht' | ht'
    · rw [mem_singleton.1 ht'] at htp
      simp [hji.symm] at htp
    · exact ⟨t', mem_add.2 (.inr ht'), htp⟩
  · intro j t' ht' htj
    rw [hdisk]
    rcases eq_or_ne j i with rfl | hji
    · rw [update_self]
    rw [update_of_ne hji]
    rcases mem_add.1 ht' with ht' | ht'
    · rw [mem_singleton.1 ht'] at htj
      simp [hji.symm] at htj
    · exact (h.kept hc).gone j t' (mem_add.2 (.inr ht')) htj

lemma Inv.iputDrop (h : Inv c n s ({.slot k i .zombie} + F)) :
    Inv c n (s.setInode k { s.itable k with ref := (s.itable k).ref - 1 }) (0 + F) := by
  have hcore := h.core_cons
  refine ⟨by rw [zero_add]; exact hcore.refDown rfl rfl rfl, h.files.same rfl (by simp) (by simp),
    fun hc => ?_⟩
  have hkept := h.kept hc
  rw [zero_add]
  exact hkept.drop hcore rfl (by simp)

/-! ### Allocation -/

lemma Inv.ialloc (h : Inv c n s (0 + F)) (hfree : (s.disk i).type = .free)
    (hi : 0 < i ∧ i < n) (htype : type ≠ .free)
    (hheld : c → ∀ k, 0 < (s.itable k).ref → (s.itable k).inum ≠ i) :
    Inv c n { s with disk := update s.disk i { type := type } } ({.born i type} + F) := by
  have hcore := h.core
  rw [zero_add] at hcore
  refine ⟨by rw [singleton_add]; exact hcore.ialloc hfree hi htype,
    h.files.same rfl (by simp) (by simp), fun hc => ⟨fun j hj hnlink => ?_, fun j t ht htj => ?_⟩⟩
  · rcases eq_or_ne j i with rfl | hji
    · exact ⟨_, mem_add.2 (.inl (mem_singleton_self _)), by simp⟩
    simp only [update_of_ne hji] at hj hnlink
    obtain ⟨t, ht, htp⟩ := (h.kept hc).held j hj hnlink
    exact ⟨t, mem_add.2 (.inr (by simpa using ht)), htp⟩
  rcases mem_add.1 ht with ht | ht
  · simp [mem_singleton.1 ht] at htj
  have htF : t ∈ 0 + F := by simpa using ht
  have hji : j ≠ i := by
    -- nobody has given up the inode only on the disk
    rintro rfl
    cases t with
    | slot k j' m =>
      simp only [Token.gone_slot, decide_eq_true_eq] at htj
      obtain ⟨rfl, -⟩ := htj
      exact hheld hc k (h.core.ref_pos htF) (h.core.inum_eq htF)
    | credit | born | file => cases htj
  simp only [update_of_ne hji]
  exact (h.kept hc).gone j t htF htj

/-! ### Directory entries -/

lemma writei_cases {off : ℕ} (hx : writei s k off de = (t, y)) :
    y = false ∧ t = s ∨ y = true ∧ t = s.iupdate k ((s.itable k).node.put off de) := by
  rw [writei] at hx
  split at hx
  · exact .inl ⟨(Prod.mk.inj hx).2.symm, (Prod.mk.inj hx).1.symm⟩
  · exact .inr ⟨(Prod.mk.inj hx).2.symm, (Prod.mk.inj hx).1.symm⟩

lemma Inv.node_eq {st : Stage} (h : Inv c n s ({.slot k i (.lock d st)} + A + F)) :
    (s.itable k).node = d :=
  (h.core.node_eq (mem_add.2 (.inl (mem_add.2 (.inl (mem_singleton_self _)))))).1

variable {name : Name}

lemma Inv.putDot (h : Inv c n s ({.slot k j (.lock e .fill)} + F)) (he : e.slots = []) :
    Inv c n (s.iupdate k (e.put 0 ⟨j, dot⟩))
      ({.slot k j (.lock { e with slots := [⟨j, dot⟩] } .fill)} + F) := by
  have hput : e.put 0 ⟨j, dot⟩ = { e with slots := [⟨j, dot⟩] } := by simp [Dinode.put, putSlot, he]
  have hcore := h.core_cons.put_dots ⟨j, dot⟩ (by simp [he])
    (.inl (by simp [Dinode.put, putSlot, he]))
  rw [he, List.length_nil, hput] at hcore
  rw [hput]
  exact h.write (mem_singleton_self _) rfl (by rwa [singleton_add]) (by simp [Trade, countP_single])

lemma Inv.putDotdot
    (h : Inv c n s ({.slot k j (.lock e .fill)} + {.slot k' i (.lock d .extra)} + F))
    (he : e.slots = [⟨j, dot⟩]) (hd : d.type = .dir) (hnlink : 2 ≤ d.nlink.toNat) :
    Inv c n (s.iupdate k (e.put 1 ⟨i, dotdot⟩))
      ({.slot k j (.lock { e with slots := [⟨j, dot⟩, ⟨i, dotdot⟩] } .fill)} +
        {.slot k' i (.lock d .extra)} + F) := by
  have hput : e.put 1 ⟨i, dotdot⟩ = { e with slots := [⟨j, dot⟩, ⟨i, dotdot⟩] } := by
    simp [Dinode.put, putSlot, he]
  have hcore := h.core
  rw [add_assoc, singleton_add] at hcore
  -- the parent has a link besides the one that is for ".."
  have hparent : Token.slot k' i (.lock d .extra) ∈
      .slot k j (.lock e .fill) ::ₘ ({.slot k' i (.lock d .extra)} + F) := by simp
  have halive := hcore.alive_of_lock hparent hd hnlink
  have hcore' := hcore.put_dots ⟨i, dotdot⟩ (by simp [he])
    (.inr ⟨i, by simp [Dinode.put, putSlot, he], by rwa [(hcore.node_eq hparent).2], halive⟩)
  rw [he, List.length_singleton, hput, ← singleton_add, ← add_assoc] at hcore'
  rw [hput]
  exact h.write (mem_add.2 (.inl (mem_singleton_self _))) rfl hcore'
    (by simp [Trade, countP_single, countP_cons])

section Remove

variable (h : Inv c n s ({.slot k i (.lock d .plain)} + {.slot k' j (.lock e .plain)} + F))
  (hx : NamedAt d x j)

include h hx

lemma Inv.removeFile (he : e.type ≠ .dir) : Inv c n (s.iupdate k (d.put (x + 2) {}))
      ({.slot k i (.lock (d.put (x + 2) {}) .plain)} +
        ({.slot k' j (.lock e .plain)} + {.credit j}) + F) := by
  have hcore := h.core
  have hcore' := hcore.remove credits_singleton hx.1 hx.2.1 hx.2.2 (.inl ⟨rfl, rfl, he⟩)
    fun hdir => absurd hdir he
  rw [← singleton_add, ← singleton_add] at hcore'
  exact h.write (mem_add.2 (.inl (mem_singleton_self _))) rfl hcore'
    (by simp [Trade, countP_single, countP_cons, add_comm])

lemma Inv.removeDir (he : e.type = .dir) (hempty : ∀ de ∈ e.slots.drop 2, de.inum = 0)
    (hleaf : ∀ a, (s.disk a).type = .dir → (s.disk a).slots[1]? ≠ some ⟨j, dotdot⟩) :
    Inv c n (s.iupdate k (d.put (x + 2) {}))
      ({.slot k i (.lock (d.put (x + 2) {}) .extra)} + {.slot k' j (.lock e .extra)} + F) := by
  have hcore := h.core
  have hnone : ∀ a, (s.disk a).slots[1]? ≠ some ⟨j, dotdot⟩ := by
    intro a
    by_cases ha : (s.disk a).type = .dir
    · exact hleaf a ha
    · simp [hcore.tree.slots a ha]
  have hcore' := hcore.remove credits_zero hx.1 hx.2.1 hx.2.2 (.inr ⟨rfl, rfl, he⟩)
    fun _ => ⟨hempty, hnone⟩
  rw [cons_zero, ← singleton_add] at hcore'
  exact h.write (mem_add.2 (.inl (mem_singleton_self _))) rfl hcore'
    (by simp [Trade, countP_single, countP_cons])

end Remove

/-! ### Open files -/

/-- Tokens of open files only. -/
def OnlyFiles (A : Multiset Token) : Prop := ∀ t ∈ A, ∃ f ip, t = .file f ip

lemma OnlyFiles.countP_eq_zero (hA : OnlyFiles A) {q : Token → Bool}
    (hq : ∀ f ip, q (.file f ip) = false) : A.countP (q ·) = 0 := by
  rw [Multiset.countP_eq_zero]
  intro t ht
  obtain ⟨f, ip, rfl⟩ := hA t ht
  simp [hq]

/-- The inodes do not depend on the open files. -/
lemma Core.of_files (h : Core n s (A + F)) (hA : OnlyFiles A) (hB : OnlyFiles B)
    (hdisk : t.disk = s.disk) (hitable : t.itable = s.itable) : Core n t (B + F) := by
  have hcount : ∀ {q : Token → Bool}, (∀ f ip, q (.file f ip) = false) →
      (B + F).countP (q ·) = (A + F).countP (q ·) := by
    intro q hq
    rw [countP_add, countP_add, hA.countP_eq_zero hq, hB.countP_eq_zero hq]
  have hmem : ∀ t ∈ B + F, ∀ i, t.excl i = true → t ∈ A + F := by
    intro t ht i hi
    rcases mem_add.1 ht with ht | ht
    · obtain ⟨f, ip, rfl⟩ := hB t ht
      cases hi
    · exact mem_add.2 (.inr ht)
  refine
    { means := fun u hu => ?_, refs := fun k => ?_, locks := fun k => ?_, unique := ?_, coh := ?_
      links := fun i hi => ?_, tree := ?_, excl := fun i u hu hi => ?_
      part := fun i hdir hlen => ?_ }
  · rcases mem_add.1 hu with hu | hu
    · obtain ⟨f, ip, rfl⟩ := hB u hu
      trivial
    refine (h.means u (mem_add.2 (.inr hu))).of_table hdisk fun k i m _ => ?_
    rw [hitable]
    exact ⟨rfl, id⟩
  · rw [hitable, hcount fun _ _ => rfl]
    exact h.refs k
  · rw [hitable, hcount fun _ _ => rfl]
    exact h.locks k
  · rw [hitable]
    exact h.unique
  · rw [hitable, hdisk]
    exact h.coh
  · rw [hdisk] at hi ⊢
    rw [hcount fun _ _ => rfl]
    exact h.links i hi
  · rw [hdisk]
    exact h.tree
  · rw [hcount fun _ _ => rfl]
    exact h.excl i u (hmem u hu i hi) hi
  · rw [hdisk] at hdir hlen
    obtain ⟨u, hu, hi⟩ := h.part i hdir hlen
    rcases mem_add.1 hu with hu | hu
    · obtain ⟨f, ip, rfl⟩ := hA u hu
      cases hi
    · exact ⟨u, mem_add.2 (.inr hu), hi⟩

lemma Inv.of_files (h : Inv c n s (A + F)) (hA : OnlyFiles A) (hB : OnlyFiles B)
    (hdisk : t.disk = s.disk) (hitable : t.itable = s.itable) (hfiles : Files t (B + F)) :
    Inv c n t (B + F) := by
  have hcore := h.core.of_files hA hB hdisk hitable
  refine ⟨hcore, hfiles, fun hc => (h.kept hc).step h.core hcore (fun i => ?_)
    (fun i => .inl (by rw [hdisk])) fun i u hu hi => ?_⟩
  · rw [hA.countP_eq_zero fun _ _ => rfl]
    exact Nat.zero_le _
  · obtain ⟨f, ip, rfl⟩ := hB u hu
    cases hi

lemma onlyFiles_zero : OnlyFiles 0 := by simp [OnlyFiles]

lemma onlyFiles_singleton : OnlyFiles {.file f ip} := by simp [OnlyFiles]

lemma countP_onFile :
    ({.file f ip} : Multiset Token).countP (·.onFile f) = 1 := by
  rw [countP_single]
  simp [Token.onFile]

lemma Inv.filealloc (h : Inv c n s (0 + F)) (hf : (s.ftable f).ref = 0) :
    Inv c n { s with ftable := update s.ftable f { s.ftable f with ref := 1 } }
      ({.file f none} + F) := by
  have hF : F.countP (·.onFile f) = 0 := by
    have hrefs := h.files.refs f
    rw [hf, zero_add] at hrefs
    exact hrefs.symm
  refine h.of_files onlyFiles_zero onlyFiles_singleton rfl rfl
    (h.files.update rfl ?_ le_rfl (fun f' ip hf' => ?_) (by simp) hF (by simp))
  · rw [countP_add, hF, countP_onFile]
  · obtain ⟨rfl, rfl⟩ := by simpa using hf'
    exact ⟨rfl, h.files.none f' hf⟩

/-- The only token of an open file. -/
lemma Files.alone (h : Files s ({.file f ip} + F)) :
    (s.ftable f).ref = 1 ∧ (s.ftable f).ip = ip ∧ F.countP (·.onFile f) = 0 := by
  have hrefs := h.refs f
  have hle := h.le f
  rw [countP_add, countP_onFile] at hrefs
  exact ⟨by omega, h.ip f ip (by simp), by omega⟩

lemma Inv.fileSet (h : Inv c n s ({.file f ip} + F)) :
    Inv c n { s with ftable := update s.ftable f { s.ftable f with ip := some k } }
      ({.file f (some k)} + F) := by
  obtain ⟨href, -, hF⟩ := h.files.alone
  refine h.of_files onlyFiles_singleton onlyFiles_singleton rfl rfl
    (h.files.update rfl ?_ (by simp [href]) (by simp) (by simp) hF (by simp [href]))
  rw [countP_add, hF, countP_onFile, href]

lemma Inv.fileDrop {y : Option Slot} (h : Inv c n s ({.file f ip} + F))
    (hx : Fs.fileDrop s f = .ok (t, y)) : y = ip ∧ Inv c n t (0 + F) := by
  obtain ⟨href, hip, hF⟩ := h.files.alone
  have ht : t = { s with ftable := update s.ftable f {} } ∧ y = (s.ftable f).ip := by
    simp only [Fs.fileDrop, href, lt_irrefl, Nat.sub_self, if_false, Except.ok.injEq,
      Prod.mk.injEq] at hx
    exact ⟨hx.1.symm, hx.2.symm⟩
  obtain ⟨rfl, rfl⟩ := ht
  refine ⟨hip, h.of_files onlyFiles_singleton onlyFiles_zero rfl rfl
    (h.files.update rfl ?_ (Nat.zero_le _) (by simp) (by simp) hF (by simp))⟩
  rw [zero_add, hF]

/-! ### All rules -/

/-- The conditions on an operation. -/
def Meet (c : Prop) (s : State P) (o : Op) : Prop := Allowed s o ∧ (c → NotHeld s o)

variable [DecidableEq P]

omit [DecidableEq P] in
lemma exists_of_oldInum {l : List Dirent} (h : oldInum l x = j) (hj : j ≠ 0) :
    ∃ de, l[x]? = some de ∧ de.inum = j := by
  rw [oldInum] at h
  rcases hx : l[x]? with _ | de
  · rw [hx] at h
    exact absurd h.symm hj
  · rw [hx] at h
    exact ⟨de, rfl, h⟩

/-- `ilock` reads the inode, or has it in memory already. -/
lemma readInode_ok {p : P} (hx : exec p (.readInode k) s = .ok (t, ())) :
    t = s ∧ (s.itable k).valid = true ∨
      t = s.setInode k { s.itable k with node := s.disk (s.itable k).inum, valid := true } := by
  simp only [exec] at hx
  split at hx
  · rename_i hvalid
    exact .inl ⟨(Prod.mk.inj (Except.ok.inj hx)).1.symm, hvalid⟩
  split at hx
  · cases hx
  · exact .inr (Prod.mk.inj (Except.ok.inj hx)).1.symm

lemma Core.readInode_eq {p : P} {m : Mode} (h : Core n s W) (hk : .slot k i m ∈ W)
    (hx : exec p (.readInode k) s = .ok (t, ())) :
    t = s.setInode k { s.itable k with node := s.disk i, valid := true } := by
  rw [← h.inum_eq hk]
  rcases readInode_ok hx with ⟨rfl, hvalid⟩ | rfl
  · rw [← (h.coh k (h.ref_pos hk) hvalid).1, ← hvalid]
    simp [State.setInode]
  · rfl

theorem Rule.sound {p : P} {o : Op} {Ψ : o.Result → Multiset Token → Prop} {x : o.Result}
    (hn : n ≤ 2 ^ 16) (hrule : Rule n o A Ψ) (h : Inv c n s (A + F)) (hM : Meet c s o)
    (hx : exec p o s = .ok (t, x)) : ∃ B, Ψ x B ∧ Inv c n t (B + F) := by
  cases hrule with
  | igetRoot => exact ⟨_, rfl, h.igetRoot hx⟩
  | igetEntry k i d e he h0 => exact ⟨_, rfl, h.igetEntry hx he h0⟩
  | igetNew i type => exact ⟨_, rfl, h.igetNew hx⟩
  | idup k i =>
    cases hx
    exact ⟨_, rfl, h.idup⟩
  | acquiresleep k i new =>
    simp only [exec] at hx
    split at hx
    · cases hx
    split at hx
    · rename_i hlock
      cases hx
      exact ⟨_, rfl, h.swap (h.core_cons.acquiresleep p hlock) rfl rfl rfl⟩
    · cases hx
  | readInode k i =>
    have hcore := h.core_cons
    have hgood := hcore.good hn (by simp) (by simp [Mode.excl])
      (hcore.type_ne_free (mem_cons_self _ _) rfl)
    rw [hcore.readInode_eq (mem_cons_self _ _) hx]
    exact ⟨_, ⟨s.disk i, hgood, rfl⟩, h.swap hcore.readInode rfl rfl rfl⟩
  | readInodeNew k i type =>
    have hcore := h.core_cons
    obtain ⟨hpos, hlt⟩ := hcore.tree.alloc i (hcore.type_ne_free (mem_cons_self _ _) rfl)
    rw [hcore.readInode_eq (mem_cons_self _ _) hx]
    exact ⟨_, ⟨hpos, hlt.trans_le hn, rfl⟩, h.swap hcore.readInodeNew rfl rfl rfl⟩
  | node k i d st =>
    cases hx
    exact ⟨_, ⟨(h.core_cons.node_eq (mem_cons_self _ _)).1, rfl⟩, h⟩
  | inum k i m =>
    cases hx
    exact ⟨_, ⟨h.core_cons.inum_eq (mem_cons_self _ _), rfl⟩, h⟩
  | iunlock k i d =>
    simp only [exec] at hx
    split at hx
    · cases hx
    · cases hx
      exact ⟨_, rfl, h.swap h.core_cons.iunlock rfl rfl rfl⟩
  | iputTest k i =>
    rcases h.iputTest p hx with ⟨rfl, h'⟩ | ⟨rfl, h'⟩
    · exact ⟨_, .inl ⟨rfl, rfl⟩, h'⟩
    · exact ⟨_, .inr ⟨rfl, rfl⟩, h'⟩
  | itrunc k i cut =>
    cases hx
    exact ⟨_, rfl, h.itrunc⟩
  | itruncFile k i d hd =>
    cases hx
    exact ⟨_, rfl, h.itruncFile hd⟩
  | ifree k i =>
    cases hx
    exact ⟨_, rfl, h.ifree rfl⟩
  | releasesleep k i =>
    cases hx
    exact ⟨_, rfl, h.swap h.core_cons.releasesleep rfl rfl rfl⟩
  | iputDrop k i =>
    cases hx
    exact ⟨_, rfl, h.iputDrop⟩
  | iallocTry i type hi htype =>
    simp only [exec] at hx
    split at hx
    · rename_i hfree
      cases hx
      exact ⟨_, .inl ⟨rfl, rfl⟩, h.ialloc hfree hi htype fun hc => hM.2 hc hfree⟩
    · cases hx
      exact ⟨_, .inr ⟨rfl, rfl⟩, h⟩
  | initFile k i d major minor hd =>
    cases hx
    rw [(h.core_cons.node_eq (mem_cons_self _ _)).1]
    exact ⟨_, rfl, h.write (mem_singleton_self _) rfl (h.core.initInode_file major minor hd)
      (by simp [Trade, countP_single, countP_cons])⟩
  | initDir k i d major minor hd =>
    cases hx
    rw [(h.core_cons.node_eq (mem_cons_self _ _)).1]
    exact ⟨_, rfl, h.write (mem_singleton_self _) rfl (h.core.initInode_dir major minor hd)
      (by simp [Trade, countP_single])⟩
  | upFile k i d hd =>
    cases hx
    have hnode := (h.core_cons.node_eq (mem_cons_self _ _)).1
    have hmax := hM.1.1
    rw [hnode] at hmax ⊢
    exact ⟨_, rfl, h.write (mem_singleton_self _) rfl (h.core.nlinkUp_file hmax hd)
      (by simp [Trade, countP_single, countP_cons])⟩
  | upDir k i d hd =>
    cases hx
    have hnode := (h.core_cons.node_eq (mem_cons_self _ _)).1
    obtain ⟨⟨hmax, hlinks⟩, -⟩ := hM
    rw [hnode] at hmax hlinks ⊢
    refine ⟨_, ⟨?_, rfl⟩, h.write (mem_singleton_self _) rfl (h.core.nlinkUp_dir hmax hd)
      (by simp [Trade, countP_single])⟩
    have hne : d.nlink.toNat ≠ 0 := fun h0 => hlinks hd (BitVec.eq_of_toNat_eq h0)
    rw [Dinode.up, toNat_add_one hmax]
    omega
  | downFile k i d =>
    cases hx
    rw [h.node_eq]
    exact ⟨_, rfl, h.write (mem_add.2 (.inl (mem_singleton_self _))) rfl h.core.nlinkDown_file
      (by simp [Trade, countP_single, countP_cons])⟩
  | downDir k i d =>
    cases hx
    rw [(h.core_cons.node_eq (mem_cons_self _ _)).1]
    exact ⟨_, rfl, h.write (mem_singleton_self _) rfl h.core.nlinkDown_dir
      (by simp [Trade, countP_single])⟩
  | putFile k i j x d name hfree hj hname =>
    rcases writei_cases (Except.ok.inj hx) with ⟨rfl, rfl⟩ | ⟨rfl, rfl⟩
    · exact ⟨_, by simp, h⟩
    have hnlink := hM.1.1 hj
    rw [h.node_eq] at hnlink ⊢
    obtain ⟨hd, hx, hold⟩ := hfree
    exact ⟨_, fun _ => rfl, h.write (mem_add.2 (.inl (mem_singleton_self _))) rfl
      (h.core.put_file hd hnlink hx hold hname) (by simp [Trade, countP_single, countP_cons])⟩
  | putDir k k' i j x d e name hfree hj hname hnlink he =>
    rcases writei_cases (Except.ok.inj hx) with ⟨rfl, rfl⟩ | ⟨rfl, rfl⟩
    · exact ⟨_, by simp, h⟩
    rw [h.node_eq]
    obtain ⟨hd, hx, hold⟩ := hfree
    exact ⟨_, fun _ => rfl, h.write (mem_add.2 (.inl (mem_singleton_self _))) rfl
      (h.core.put_dir hd hnlink hx hold hname he) (by simp [Trade, countP_single, countP_cons])⟩
  | putDot k j e he =>
    rcases writei_cases (Except.ok.inj hx) with ⟨rfl, rfl⟩ | ⟨rfl, rfl⟩
    · exact ⟨_, by simp, h⟩
    · rw [(h.core_cons.node_eq (mem_cons_self _ _)).1]
      exact ⟨_, fun _ => rfl, h.putDot he⟩
  | putDotdot k k' i j d e he hd hnlink =>
    rcases writei_cases (Except.ok.inj hx) with ⟨rfl, rfl⟩ | ⟨rfl, rfl⟩
    · exact ⟨_, by simp, h⟩
    · rw [h.node_eq]
      exact ⟨_, fun _ => rfl, h.putDotdot he hd hnlink⟩
  | removeFile k k' i j x d e hnamed hj he =>
    rcases writei_cases (Except.ok.inj hx) with ⟨rfl, rfl⟩ | ⟨rfl, rfl⟩
    · exact ⟨_, by simp, h⟩
    · rw [h.node_eq]
      exact ⟨_, fun _ => rfl, h.removeFile hnamed he⟩
  | removeDir k k' i j x d e hnamed hj he hempty =>
    rcases writei_cases (Except.ok.inj hx) with ⟨rfl, rfl⟩ | ⟨rfl, rfl⟩
    · exact ⟨_, by simp, h⟩
    have hleaf := hM.1.2 rfl
    rw [h.node_eq] at hleaf ⊢
    obtain ⟨de, hde, hinum⟩ := exists_of_oldInum hnamed.2.2 hj
    have hj' := (h.core.node_eq (mem_add.2 (.inl (mem_add.2 (.inr (mem_singleton_self _)))))).2
    refine ⟨_, fun _ => rfl, h.removeDir hnamed he hempty ?_⟩
    rw [← hinum]
    exact hleaf de (by rwa [List.getElem?_drop, add_comm] at hde) (by rwa [hinum, hj'])
  | filealloc =>
    have halloc : Fs.filealloc s = (t, x) := Except.ok.inj hx
    rw [Fs.filealloc] at halloc
    split at halloc
    · rename_i f hfind
      have hf := List.find?_some hfind
      obtain ⟨rfl, rfl⟩ := Prod.mk.inj halloc
      exact ⟨_, .inl ⟨f, rfl, rfl⟩, h.filealloc (by simpa using hf)⟩
    · obtain ⟨rfl, rfl⟩ := Prod.mk.inj halloc
      exact ⟨_, .inr ⟨rfl, rfl⟩, h⟩
  | fileSet f k ip =>
    cases hx
    exact ⟨_, rfl, h.fileSet⟩
  | fileDrop f ip =>
    obtain ⟨hy, h'⟩ := h.fileDrop hx
    exact ⟨_, ⟨hy, rfl⟩, h'⟩
  | panic e he A => cases hx

/-- The panics of single operations. -/
lemma exec_error {p : P} {o : Op} {e : Panic} (hx : exec p o s = .error e) :
    o = .panic e ∨ (∃ k, o = .readInode k ∧ (s.disk (s.itable k).inum).type = .free) ∧ e = .noType ∨
      e ≠ .noType ∧ e ≠ .unlinkNlink := by
  cases o with simp only [exec] at hx
  | iget =>
    simp only [Fs.iget] at hx
    split at hx
    · cases hx
    · split at hx <;> cases hx
      exact .inr (.inr (by decide))
  | acquiresleep =>
    split at hx
    · cases hx
      exact .inr (.inr (by decide))
    · split at hx <;> cases hx
      exact .inr (.inr (by decide))
  | readInode k =>
    split at hx
    · cases hx
    · split at hx <;> cases hx
      exact .inr (.inl ⟨⟨k, rfl, ‹_›⟩, rfl⟩)
  | iunlock =>
    split at hx <;> cases hx
    exact .inr (.inr (by decide))
  | iputTest =>
    simp only [Fs.iputTest] at hx
    split at hx
    · split at hx <;> cases hx
      exact .inr (.inr (by decide))
    · cases hx
  | iallocTry => split at hx <;> cases hx
  | fileDrop =>
    simp only [Fs.fileDrop] at hx
    split at hx
    · cases hx
      exact .inr (.inr (by decide))
    · split at hx <;> cases hx
  | panic e =>
    cases hx
    exact .inl rfl
  | _ => cases hx

/-- With the tokens of a rule, `ilock` finds an allocated inode. -/
theorem Rule.ne_noType {p : P} {o : Op} {Ψ : o.Result → Multiset Token → Prop}
    (hrule : Rule n o A Ψ) (h : Inv c n s (A + F)) : exec p o s ≠ .error .noType := by
  intro hx
  rcases exec_error hx with rfl | ⟨⟨k, rfl, hfree⟩, -⟩ | ⟨hne, -⟩
  · cases hrule with
    | panic e he => exact he rfl
  · cases hrule with
    | readInode k i | readInodeNew k i type =>
      rw [h.core_cons.inum_eq (mem_cons_self _ _)] at hfree
      exact h.core_cons.type_ne_free (mem_cons_self _ _) rfl hfree
  · exact hne rfl

end Hexv6.Fs
