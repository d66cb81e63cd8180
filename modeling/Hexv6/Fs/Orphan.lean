import Hexv6.Fs.Dangling
import Hexv6.Fs.Effect

/-!
# No lost inodes

An inode without links is kept by a reference, and between the calls all references are those
of working directories and open files.  So an inode that is allocated and that no process
uses is the root or has a name.

Without the condition this fails: a file that is created in a directory which has been
removed already loses its only name when the directory is freed.
-/

namespace Hexv6.Fs

open Lib Multiset

variable {P : Type} {n : ℕ} {D : ℕ → Dinode} {s : Sys P} {i : ℕ} {o : Op}

/-- Some working directory or open file refers to the inode. -/
def Refers (s : Sys P) (i : ℕ) : Prop :=
  (∃ p r k, s.thread p = .ret r ∧ r.cwd = some k ∧ (s.shared.itable k).inum = i) ∨
    ∃ f k, 0 < (s.shared.ftable f).ref ∧ (s.shared.ftable f).ip = some k ∧
      (s.shared.itable k).inum = i

/-- The inode is the root, or an entry other than "." and ".." names it. -/
def HasName (D : ℕ → Dinode) (i : ℕ) : Prop :=
  i = ROOTINO ∨ ∃ d, (D d).type = .dir ∧ ∃ e ∈ (D d).slots, e.inum = i ∧ e.name ≠ dot ∧
    e.name ≠ dotdot

/-- Every allocated inode that nobody refers to has a name. -/
def NoOrphan (s : Sys P) : Prop :=
  ∀ i, (s.shared.disk i).type ≠ .free → ¬ Refers s i → HasName s.shared.disk i

lemma Tree.hasName (h : Tree n D) (hi : i ≠ 0) (halive : Alive n D i) : HasName D i := by
  refine halive.imp_right fun hne => ?_
  obtain ⟨d, -, e, he, rfl⟩ := exists_of_named_ne_zero hne
  have hdir := h.dir_of_mem he
  refine ⟨d, hdir, e, List.mem_of_mem_drop he, rfl, ?_⟩
  rcases h.shape d hdir with hs | hs | ⟨a, rest, hs, -, hrest⟩
  · simp [entries, hs] at he
  · simp [entries, hs] at he
  · exact hrest e (by simpa [entries, hs] using he) hi

/-! ### What is not written stays -/

section Frame

variable [DecidableEq P]

/-- The step does not write to the inode. -/
def Spares (i : ℕ) : Sys P → Act P Call → Prop :=
  Meets fun s o => written s o ≠ some i

lemma run_disk {tr : List (Sys P × Act P Call)} {s t : Sys P} (h : Run (step n) s tr t)
    (hi : ∀ x ∈ tr, Spares i x.1 x.2) :
    t.shared.disk i = s.shared.disk i := by
  refine (h.invariant (I := fun u => u.shared.disk i = s.shared.disk i)
    (fun u a v hu hspare hstep => ?_) rfl hi).2
  rw [← hu]
  cases a with
  | call p c =>
    rw [step, poolStep] at hstep
    split at hstep
    · split at hstep
      · cases hstep
        rfl
      · cases hstep
    · cases hstep
  | step p =>
    rw [step, poolStep] at hstep
    split at hstep
    · cases hstep
    rename_i o k hp
    split at hstep
    · rename_i w x hx
      cases hstep
      exact exec_disk hx (hspare o (by rw [Pool.next, hp]))
    · cases hstep

end Frame

/-! ### The invariant between calls -/

variable [Fintype P]

/-- Between the calls nothing is ahead, and every reference is a working directory or an
open file. -/
theorem Divided.noOrphan (h : Divided True n s) (hidle : s.Idle) : NoOrphan s := by
  obtain ⟨res, hinv, hret⟩ := h.idle hidle
  have htokens : ∀ t ∈ ∑ p, res p, ∃ p r, s.thread p = .ret r ∧ Owns r (res p) ∧ t ∈ res p := by
    intro t ht
    obtain ⟨p, -, htp⟩ := mem_sum.1 ht
    obtain ⟨r, hr, hown⟩ := hret p
    exact ⟨p, r, hr, hown, htp⟩
  intro i hi hrefers
  have hi0 := (hinv.core.tree.alloc i hi).1.ne'
  by_contra hname
  have hdead : ¬ Alive n s.shared.disk i := fun ha => hname (hinv.core.tree.hasName hi0 ha)
  have hahead : (∑ p, res p).countP (·.ahead i) = 0 := by
    rw [countP_eq_zero]
    intro t ht hta
    obtain ⟨p, r, -, hown, htp⟩ := htokens t ht
    rcases hown.mem htp with ⟨k, j, -, rfl⟩ | ⟨fd, f, k, j, -, -, rfl | rfl⟩
    · simp [Mode.ahead] at hta
    · cases hta
    · simp [Mode.ahead] at hta
  -- so the inode has no links, and some reference keeps it
  have hnlink : (s.shared.disk i).nlink = 0 := by
    have hlinks := hinv.core.links i hi
    have hzero : linkCount n s.shared.disk i = 0 := by
      by_contra hne
      exact hdead (hinv.core.tree.alive_of_linkCount hne)
    rw [hzero, hahead] at hlinks
    exact BitVec.eq_of_toNat_eq hlinks
  obtain ⟨t, ht, htp⟩ := (hinv.kept trivial).held i hi hnlink
  obtain ⟨p, r, hr, hown, htres⟩ := htokens t ht
  have hinum : ∀ {k j}, t = .slot k j (.ref none) → (s.shared.itable k).inum = i := by
    rintro k j rfl
    simp only [Token.proper_slot, decide_eq_true_eq] at htp
    exact (hinv.core.inum_eq ht).trans htp.1
  rcases hown.mem htres with ⟨k, j, hcwd, hslot⟩ | ⟨fd, f, k, j, -, hfile, hslot | hslot⟩
  · exact hrefers (.inl ⟨p, r, k, hr, hcwd, hinum hslot⟩)
  · rw [hslot] at htp
    cases htp
  have hfileW : Token.file f (some k) ∈ ∑ p, res p := mem_sum.2 ⟨p, Finset.mem_univ _, hfile⟩
  refine hrefers (.inr ⟨f, k, ?_, hinv.files.ip f _ hfileW, hinum hslot⟩)
  rw [hinv.files.refs, countP_pos]
  exact ⟨_, hfileW, by simp [Token.onFile]⟩

variable [DecidableEq P] {tr : List (Sys P × Act P Call)}

/-- Operations are allowed, and no inode is allocated that is still in the inode table. -/
def AllowedNotHeld (s : State P) (o : Op) : Prop := Allowed s o ∧ NotHeld s o

omit [Fintype P] [DecidableEq P] in
lemma meets_of_allowedNotHeld {a : Act P Call} (h : Meets AllowedNotHeld s a) :
    Meets (Meet True) s a := by
  cases a with
  | call p c => trivial
  | step p => exact fun o ho => ⟨(h o ho).1, fun _ => (h o ho).2⟩

/-- In every state between the calls of every run whose operations all meet the conditions,
no inode is lost. -/
theorem noOrphan_of_run (himg : Image n D) (h : Run (step n) (boot D) tr s)
    (hM : ∀ x ∈ tr, Meets AllowedNotHeld x.1 x.2) :
    (∀ x ∈ tr, x.1.Idle → NoOrphan x.1) ∧ (s.Idle → NoOrphan s) := by
  have hdiv := divided_of_run himg h fun x hx => meets_of_allowedNotHeld (hM x hx)
  exact ⟨fun x hx => (hdiv.1 x hx).noOrphan, hdiv.2.noOrphan⟩

/-! ### Runs of one process -/

def notHeldTest {P : Type} (s : State P) : Op → Bool
  | .iallocTry inum _ =>
    (s.disk inum).type = .free → ∀ k, 0 < (s.itable k).ref → (s.itable k).inum ≠ inum
  | _ => true

lemma notHeld_of_test {P : Type} {s : State P} (h : notHeldTest s o = true) : NotHeld s o := by
  cases o with
  | iallocTry inum type =>
    rw [notHeldTest, decide_eq_true_eq] at h
    exact h
  | _ => trivial

def keptTest (s : State (Fin 1)) (o : Op) : Bool := allowedTest s o && notHeldTest s o

lemma allowedNotHeld_of_test {s : State (Fin 1)} (h : keptTest s o = true) :
    AllowedNotHeld s o := by
  rw [keptTest, Bool.and_eq_true] at h
  exact ⟨allowed_of_test h.1, notHeld_of_test h.2⟩

/-- The theorem at a run of one process. -/
theorem noOrphan_of_run_files : ∃ tr s, Run (step 200) (boot rootImage : Sys (Fin 1)) tr s ∧
    tr.length = 124 ∧ s.Idle ∧ NoOrphan s := by
  obtain ⟨s, hs, hidle⟩ := exists_of_okAnd (runList (step 200) (boot rootImage)
    (fileScript (0 : Fin 1)))
      (fun s => decide (s.next 0 = none)) (by decide +kernel)
  have hs0 : s.Idle := fun p => by
    rw [Subsingleton.elim p 0]
    exact of_decide_eq_true hidle
  exact ⟨_, s, .of_runList hs, by decide +kernel, hs0,
    (noOrphan_of_run image_rootImage (.of_runList hs)
      (meets_of_trace (fun _ _ => allowedNotHeld_of_test) (by decide +kernel))).2 hs0⟩

/-- A test for the steps that write to the inodes below `b` only. -/
def spareTest (b : ℕ) (s : State (Fin 1)) (o : Op) : Bool :=
  match written s o with
  | some i => i < b
  | none => true

lemma written_ne_of_test {b : ℕ} (hi : b ≤ i) {s : State (Fin 1)}
    (h : spareTest b s o = true) : written s o ≠ some i := by
  intro hw
  simp only [spareTest, hw, decide_eq_true_eq] at h
  omega

/-- A test for the inodes that the process refers to. -/
def refersTest {P : Type} (p : P) (s : Sys P) (i : ℕ) : Bool :=
  (match s.thread p with
    | .ret r => r.cwd.any fun k => (s.shared.itable k).inum = i
    | .op _ _ => false) ||
  (List.finRange NFILE).any fun f => 0 < (s.shared.ftable f).ref ∧
    (s.shared.ftable f).ip.any fun k => (s.shared.itable k).inum = i

lemma refersTest_of_refers {s : Sys (Fin 1)} (h : Refers s i) : refersTest 0 s i = true := by
  rw [refersTest, Bool.or_eq_true]
  rcases h with ⟨p, r, k, hp, hcwd, hi⟩ | ⟨f, k, hpos, hip, hi⟩
  · left
    rw [Subsingleton.elim p 0] at hp
    simp [hp, hcwd, hi]
  right
  rw [List.any_eq_true]
  exact ⟨f, List.mem_finRange f, by simp [hpos, hip, hi]⟩

/-- A file is created in a removed directory. -/
def orphanScript {P : Type} (p : P) : List (Act P Call) :=
  script p [(.mkdir ['/', 'a'], 31), (.chdir ['/', 'a'], 13), (.unlink ['/', 'a'], 19),
    (.open ['x'] 0x202, 25), (.close 0, 2), (.chdir ['/'], 10)]

/-- When the directory is freed, nothing names the file any more. -/
theorem not_noOrphan_of_create :
    ¬ ∀ D, Image 200 D → ∀ tr s, Run (step 200) (boot D : Sys (Fin 1)) tr s → s.Idle →
      NoOrphan s := by
  intro hall
  obtain ⟨s, hs, htest⟩ := exists_of_okAnd
    (runList (step 200) (boot rootImage) (orphanScript (0 : Fin 1))) (fun s =>
      decide (s.next 0 = none ∧ (s.shared.disk 3).type ≠ .free ∧
      refersTest 0 s 3 = false ∧ ∀ d ∈ List.range 4, ∀ e ∈ (s.shared.disk d).slots,
        e.inum ≠ 3)) (by decide +kernel)
  obtain ⟨hidle, hfree, hrefers, hnames⟩ := of_decide_eq_true htest
  have hs0 : s.Idle := fun p => by
    rw [Subsingleton.elim p 0]
    exact hidle
  rcases hall rootImage image_rootImage _ s (.of_runList hs) hs0 3 hfree
    (fun h => by simp [refersTest_of_refers h] at hrefers) with h | ⟨d, hdir, e, he, hi, -⟩
  · cases h
  by_cases hd : d < 4
  · exact hnames d (List.mem_range.2 hd) e he hi
  -- the other inodes are still free
  have hsame := run_disk (i := d) (.of_runList hs)
    (meets_of_trace (fun _ _ => written_ne_of_test (b := 4) (by omega)) (by decide +kernel))
  rw [hsame, boot_disk, rootImage_of_ne (by rintro rfl; exact hd (by decide))] at hdir
  cases hdir

end Hexv6.Fs
