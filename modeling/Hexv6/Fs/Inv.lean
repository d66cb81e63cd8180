import Hexv6.Fs.Alloc

/-!
# The invariant of the file system

`Core` of `Hexv6.Fs.Tokens`, together with what the tokens say about the file table, and with
the reason why no inode is lost: an inode without links is kept by some reference, and the
process that gives up the last one frees it.

Two things in the kernel break the invariant, and `Allowed` says when they do not happen.  A
directory can be removed while it is in use, and it can then be written to or be named by the
".." of another removed directory; and an inode that `iput` has marked as free can be
allocated again before `iput` has given up its reference.  The latter only loses inodes, so
it is a separate condition, `NotHeld`.
-/

namespace Hexv6.Fs

open Lib Multiset

variable {P : Type} {n : ℕ} {s s' : State P} {k : Slot} {f : FileSlot} {i : ℕ} {t : Token}
  {A B F W : Multiset Token} {m m' : Mode} {d : Dinode}

/-! ### Conditions -/

/-- The link count of an inode that is linked to another time does not overflow and, if it
is a directory, is not 0; a directory that gets an entry has links; and a directory whose
entry is erased is not the parent of any directory. -/
def Allowed (s : State P) : Op → Prop
  | .nlinkUp k =>
    (s.itable k).node.nlink ≠ -1 ∧
      ((s.itable k).node.type = .dir → (s.itable k).node.nlink ≠ 0)
  | .writei k off de =>
    (de.inum ≠ 0 → (s.itable k).node.nlink ≠ 0) ∧
      (de.inum = 0 → ∀ e, (s.itable k).node.slots[off]? = some e →
        (s.disk e.inum).type = .dir →
        ∀ i, (s.disk i).type = .dir → (s.disk i).slots[1]? ≠ some ⟨e.inum, dotdot⟩)
  | _ => True

/-- An inode that is allocated is not in the inode table any more. -/
def NotHeld (s : State P) : Op → Prop
  | .iallocTry inum _ =>
    (s.disk inum).type = .free → ∀ k, 0 < (s.itable k).ref → (s.itable k).inum ≠ inum
  | _ => True

/-! ### The file table -/

/-- An open file belongs to one process. -/
structure Files (s : State P) (W : Multiset Token) : Prop where
  refs : ∀ f, (s.ftable f).ref = W.countP (·.onFile f)
  le : ∀ f, (s.ftable f).ref ≤ 1
  ip : ∀ f ip, .file f ip ∈ W → (s.ftable f).ip = ip
  none : ∀ f, (s.ftable f).ref = 0 → (s.ftable f).ip = none

lemma countP_onFile_eq_zero (hA : ∀ f ip, Token.file f ip ∉ A) : A.countP (·.onFile f) = 0 := by
  rw [countP_eq_zero]
  intro t ht hf
  cases t with
  | file f' ip => exact hA f' ip ht
  | slot | credit | born => cases hf

/-- Operations that have nothing to do with open files. -/
lemma Files.same (h : Files s (A + F)) (hftable : s'.ftable = s.ftable)
    (hA : ∀ f ip, Token.file f ip ∉ A) (hB : ∀ f ip, Token.file f ip ∉ B) :
    Files s' (B + F) where
  refs f := by
    rw [hftable, h.refs, countP_add, countP_add, countP_onFile_eq_zero hA, countP_onFile_eq_zero hB]
  le f := by
    rw [hftable]
    exact h.le f
  ip f ip hf := by
    rw [hftable]
    refine h.ip f ip (mem_add.2 (.inr ?_))
    exact (mem_add.1 hf).resolve_left (hB f ip)
  none f := by
    rw [hftable]
    exact h.none f

/-- The tokens on an entry of the file table when it is assigned to. -/
lemma Files.update (h : Files s (A + F)) {file : File}
    (hftable : s'.ftable = Function.update s.ftable f file)
    (href : file.ref = (B + F).countP (·.onFile f)) (hle : file.ref ≤ 1)
    (hB : ∀ f' ip, .file f' ip ∈ B → f' = f ∧ file.ip = ip)
    (hA : ∀ f' ip, .file f' ip ∈ A → f' = f) (hF : F.countP (·.onFile f) = 0)
    (hnone : file.ref = 0 → file.ip = Option.none) : Files s' (B + F) := by
  have hoff : ∀ f', f' ≠ f → s'.ftable f' = s.ftable f' := fun f' hf => by
    rw [hftable, Function.update_of_ne hf]
  have hself : s'.ftable f = file := by rw [hftable, Function.update_self]
  have hcount : ∀ {f' : FileSlot} {C : Multiset Token}, f' ≠ f →
      (∀ g ip, Token.file g ip ∈ C → g = f) → C.countP (·.onFile f') = 0 := by
    intro f' C hf hC
    rw [countP_eq_zero]
    intro t ht hon
    cases t with
    | file g ip =>
      rw [hC g ip ht] at hon
      simp [Token.onFile, hf.symm] at hon
    | slot | credit | born => cases hon
  refine ⟨fun f' => ?_, fun f' => ?_, fun f' ip hf => ?_, fun f' => ?_⟩
  · rcases eq_or_ne f' f with rfl | hf
    · rw [hself, href]
    · rw [hoff f' hf, h.refs, countP_add, countP_add, hcount hf hA,
        hcount hf fun g ip hg => (hB g ip hg).1]
  · rcases eq_or_ne f' f with rfl | hf
    · rwa [hself]
    · rw [hoff f' hf]
      exact h.le f'
  · rcases mem_add.1 hf with hf | hf
    · obtain ⟨rfl, hip⟩ := hB f' ip hf
      rw [hself, hip]
    have hne : f' ≠ f := by
      rintro rfl
      exact countP_eq_zero.1 hF _ hf (by simp [Token.onFile])
    rw [hoff f' hne]
    exact h.ip f' ip (mem_add.2 (.inr hf))
  · rcases eq_or_ne f' f with rfl | hf
    · rwa [hself]
    · rw [hoff f' hf]
      exact h.none f'

/-! ### Inodes without links -/

/-- An inode without links is kept by a reference, and a reference that is not known to be
to an allocated inode is to a free one. -/
structure Kept (s : State P) (W : Multiset Token) : Prop where
  held : ∀ i, (s.disk i).type ≠ .free → (s.disk i).nlink = 0 → ∃ t ∈ W, t.proper i = true
  gone : ∀ i, ∀ t ∈ W, t.gone i = true → (s.disk i).type = .free

/-- An operation that changes at most an inode that its process refers to, and that gives up
no reference. -/
lemma Kept.step (h : Kept s (A + F)) (hcore : Core n s (A + F)) (hcore' : Core n s' (B + F))
    (hproper : ∀ i, A.countP (·.proper i) ≤ B.countP (·.proper i))
    (hdisk : ∀ i, s'.disk i = s.disk i ∨ ∃ t ∈ A, t.proper i = true)
    (hgone : ∀ i, ∀ t ∈ B, t.gone i = true → ∃ t' ∈ A, t'.gone i = true) : Kept s' (B + F) := by
  have hup : ∀ {i}, (∃ t ∈ A, t.proper i = true) → ∃ t ∈ B, t.proper i = true := fun hA => by
    have hpos := (countP_pos.2 hA).trans_le (hproper _)
    exact countP_pos.1 hpos
  have hlive : ∀ {i}, (∃ t ∈ A, t.proper i = true) → (s'.disk i).type ≠ .free := by
    intro i hA
    obtain ⟨t, ht, htp⟩ := hup hA
    exact hcore'.type_ne_free_of_proper (mem_add.2 (.inl ht)) htp
  refine ⟨fun i hi hnlink => ?_, fun i t ht hti => ?_⟩
  · by_cases hA : ∃ t ∈ A, t.proper i = true
    · obtain ⟨t, ht, htp⟩ := hup hA
      exact ⟨t, mem_add.2 (.inl ht), htp⟩
    have hsame := (hdisk i).resolve_right hA
    rw [hsame] at hi hnlink
    obtain ⟨t, ht, htp⟩ := h.held i hi hnlink
    rcases mem_add.1 ht with ht | ht
    · exact absurd ⟨t, ht, htp⟩ hA
    · exact ⟨t, mem_add.2 (.inr ht), htp⟩
  · have hfree : (s.disk i).type = .free := by
      rcases mem_add.1 ht with ht | ht
      · obtain ⟨t', ht', hti'⟩ := hgone i t ht hti
        exact h.gone i t' (mem_add.2 (.inl ht')) hti'
      · exact h.gone i t (mem_add.2 (.inr ht)) hti
    rcases hdisk i with hsame | ⟨t, ht, htp⟩
    · rwa [hsame]
    · exact absurd hfree (hcore.type_ne_free_of_proper (mem_add.2 (.inl ht)) htp)

/-- The process that gives up a reference to an inode without links is not the last one. -/
lemma Kept.drop (h : Kept s (.slot k i m ::ₘ F)) (hcore : Core n s (.slot k i m ::ₘ F))
    (hdisk : s'.disk = s.disk)
    (hlast : m.proper = true → (s.disk i).nlink = 0 → (s.itable k).ref ≠ 1) : Kept s' F := by
  refine ⟨fun j hj hnlink => ?_, fun j t ht htj => ?_⟩
  · rw [hdisk] at hj hnlink
    obtain ⟨t, ht, htp⟩ := h.held j hj hnlink
    rcases mem_cons.1 ht with rfl | ht
    · -- another token is on the same entry, and it is proper because the inode is allocated
      simp only [Token.proper_slot, decide_eq_true_eq] at htp
      obtain ⟨rfl, hm⟩ := htp
      have hrefs := hcore.refs k
      rw [countP_cons, if_pos (by simp)] at hrefs
      have hpos : 0 < F.countP (·.onSlot k) := by
        have := hlast hm hnlink
        omega
      obtain ⟨t', ht', hton⟩ := countP_pos.1 hpos
      cases t' with
      | slot k' i' m' =>
        simp only [Token.onSlot_slot, decide_eq_true_eq] at hton
        rw [hton] at ht'
        have hi : i' = i :=
          (hcore.inum_eq (mem_cons_of_mem ht')).symm.trans (hcore.inum_eq (mem_cons_self _ _))
        rw [hi] at ht'
        refine ⟨_, ht', ?_⟩
        simp only [Token.proper_slot, true_and, decide_eq_true_eq]
        by_contra hm'
        exact hj (h.gone i _ (mem_cons_of_mem ht') (by simpa using hm'))
      | credit | born | file => cases hton
    · exact ⟨t, ht, htp⟩
  · rw [hdisk]
    exact h.gone j t (mem_cons_of_mem ht) htj

/-! ### All of it -/

/-- The invariant; the part about inodes without links only if `c`. -/
structure Inv (c : Prop) (n : ℕ) (s : State P) (W : Multiset Token) : Prop where
  core : Core n s W
  files : Files s W
  kept : c → Kept s W

variable {c : Prop}

/-- An operation that has nothing to do with open files and gives up no reference. -/
lemma Inv.step (h : Inv c n s (A + F)) (hcore : Core n s' (B + F)) (hftable : s'.ftable = s.ftable)
    (hA : ∀ f ip, Token.file f ip ∉ A) (hB : ∀ f ip, Token.file f ip ∉ B)
    (hproper : ∀ i, A.countP (·.proper i) ≤ B.countP (·.proper i))
    (hdisk : ∀ i, s'.disk i = s.disk i ∨ ∃ t ∈ A, t.proper i = true)
    (hgone : ∀ i, ∀ t ∈ B, t.gone i = true → ∃ t' ∈ A, t'.gone i = true) : Inv c n s' (B + F) where
  core := hcore
  files := h.files.same hftable hA hB
  kept hc := (h.kept hc).step h.core hcore hproper hdisk hgone

lemma Inv.core_cons (h : Inv c n s ({t} + F)) : Core n s (t ::ₘ F) := by
  rw [← singleton_add]
  exact h.core

/-- A reference changes its mode. -/
lemma Inv.swap (h : Inv c n s ({.slot k i m} + F)) (hcore : Core n s' (.slot k i m' ::ₘ F))
    (hdisk : s'.disk = s.disk) (hftable : s'.ftable = s.ftable) (hm : m'.proper = m.proper) :
    Inv c n s' ({.slot k i m'} + F) := by
  refine h.step (by rwa [singleton_add]) hftable (by simp) (by simp) (fun j => ?_)
    (fun j => .inl (by rw [hdisk])) fun j t ht htj => ?_
  · simp [countP_single, hm]
  · rw [mem_singleton.1 ht, Token.gone_slot, hm] at htj
    exact ⟨_, mem_singleton_self _, htj⟩

/-- No file is among the tokens, and no reference is given up. -/
def Trade (A B : Multiset Token) : Prop :=
  (∀ f ip, Token.file f ip ∉ A) ∧ (∀ f ip, Token.file f ip ∉ B) ∧
    (∀ i, A.countP (·.proper i) ≤ B.countP (·.proper i)) ∧ ∀ i, ∀ t ∈ B, t.gone i = false

/-- An inode is written to by a process that holds its lock. -/
lemma Inv.write (h : Inv c n s (A + F)) (hk : .slot k i m ∈ A) (hm : m.proper = true)
    (hcore : Core n (s.iupdate k d) (B + F)) (hAB : Trade A B) :
    Inv c n (s.iupdate k d) (B + F) := by
  obtain ⟨hA, hB, hproper, hgone⟩ := hAB
  refine h.step hcore rfl hA hB hproper (fun j => ?_) fun j t ht htj => ?_
  · rcases eq_or_ne j i with rfl | hj
    · exact .inr ⟨_, hk, by simp [hm]⟩
    · left
      rw [iupdate_disk _ (h.core.inum_eq (mem_add.2 (.inl hk))), Function.update_of_ne hj]
  · rw [hgone j t ht] at htj
    cases htj

end Hexv6.Fs
