import Hexv6.Fs.Bundle

/-!
# No dangling entries

From a well-formed image, and as long as the operations are `Allowed`, the invariant holds in
every state of every run.  So every entry of every directory names an allocated inode, and
`ilock` never finds an inode without a type.

Without the condition this fails: a directory can be removed while it is the working
directory of a process, and then its parent can be removed as well, since it is empty; the
".." of the first directory then names a free inode.
-/

namespace Hexv6.Fs

open Lib Multiset

variable {P : Type} [Fintype P] {n : ℕ} {D : ℕ → Dinode} {c : Prop}

/-- A disk that no system call is working on: inode numbers fit into directory entries, the
directories form a tree, link counts are exact, all directories have their first entries and
all allocated inodes are named. -/
structure Image (n : ℕ) (D : ℕ → Dinode) : Prop where
  small : n ≤ 2 ^ 16
  tree : Tree n D
  links : ∀ i, (D i).type ≠ .free → (D i).nlink.toNat = linkCount n D i
  whole : ∀ i, (D i).type = .dir → 2 ≤ (D i).slots.length
  alive : ∀ i, (D i).type ≠ .free → Alive n D i

/-- The entry of the inode table that holds the root directory. -/
def rootSlot : Slot := 0

/-- What a process owns at the start. -/
def bootToken : Token := .slot rootSlot ROOTINO (.ref none)

lemma sum_bootToken :
    ∑ _p : P, ({bootToken} : Multiset Token) = replicate (Fintype.card P) bootToken := by
  rw [Finset.sum_const, nsmul_singleton, Finset.card_univ]

lemma countP_bootTokens {q : Token → Bool} :
    (∑ _p : P, ({bootToken} : Multiset Token)).countP (q ·) =
      if q bootToken = true then Fintype.card P else 0 := by
  rw [sum_bootToken]
  induction Fintype.card P with
  | zero => simp
  | succ m ih =>
    rw [replicate_succ, countP_cons, ih]
    split_ifs <;> simp

lemma mem_bootTokens {t : Token} (ht : t ∈ ∑ _p : P, ({bootToken} : Multiset Token)) :
    t = bootToken := by
  rw [sum_bootToken] at ht
  exact eq_of_mem_replicate ht

@[simp] lemma boot_disk : (boot D : Sys P).shared.disk = D := rfl

lemma boot_itable (k : Slot) : ((boot D : Sys P).shared.itable k).valid = false ∧
    ((boot D : Sys P).shared.itable k).ref = (if k = rootSlot then Fintype.card P else 0) ∧
    (0 < ((boot D : Sys P).shared.itable k).ref →
      k = rootSlot ∧ ((boot D : Sys P).shared.itable k).inum = ROOTINO) := by
  rcases eq_or_ne k rootSlot with rfl | hk
  · simp [boot, rootSlot]
  · have hk' : k ≠ 0 := hk
    simp [boot, hk', hk]

lemma Image.inv (h : Image n D) :
    Inv c n (boot D : Sys P).shared (∑ _p : P, ({bootToken} : Multiset Token)) := by
  have hroot : (D ROOTINO).type ≠ .free := by simp [h.tree.root.1]
  have hlinks : (D ROOTINO).nlink ≠ 0 := by
    intro h0
    have := h.links ROOTINO hroot
    rw [h0, show (0 : BitVec 16).toNat = 0 from rfl] at this
    exact linkCount_ne_zero (.inl rfl) this.symm
  refine ⟨?_, ?_, fun _ => ⟨fun i hi hnlink => ?_, fun i t ht hti => ?_⟩⟩
  · refine
      { means := fun t ht => ?_, refs := fun k => ?_, locks := fun k => ?_
        unique := fun k k' hk hk' _ => ?_, coh := fun k _ hv => ?_, links := fun i hi => ?_
        tree := h.tree, excl := fun i t ht hti => ?_, part := fun i hdir hlen => ?_ }
    · rw [mem_bootTokens ht]
      refine ⟨?_, hroot, fun h0 => absurd h0 hlinks⟩
      simp [boot, rootSlot]
    · rw [countP_bootTokens, (boot_itable k).2.1]
      simp [bootToken, eq_comm]
    · rw [countP_bootTokens]
      simp [bootToken, Mode.locks]
    · exact ((boot_itable k).2.2 hk).1.trans ((boot_itable k').2.2 hk').1.symm
    · rw [(boot_itable k).1] at hv
      cases hv
    · rw [boot_disk] at hi ⊢
      rw [countP_bootTokens, h.links i hi]
      simp [bootToken, Mode.ahead]
    · rw [mem_bootTokens ht] at hti
      simp [bootToken, Mode.excl] at hti
    · rw [boot_disk] at hdir hlen
      have := h.whole i hdir
      omega
  · refine ⟨fun f => ?_, fun f => Nat.zero_le 1, fun f ip hf => ?_, fun f _ => rfl⟩
    · rw [countP_bootTokens]
      rfl
    · have := mem_bootTokens hf
      simp [bootToken] at this
  · rw [boot_disk] at hi hnlink
    have hcount := h.links i hi
    rw [hnlink, show (0 : BitVec 16).toNat = 0 from rfl] at hcount
    exact absurd hcount.symm (linkCount_ne_zero (h.alive i hi))
  · rw [mem_bootTokens ht] at hti
    simp [bootToken] at hti

/-! ### Runs -/

variable {tr : List (Sys P × Act P Call)} {s : Sys P}

/-- The tokens can be divided among the processes, so that the invariant holds and every
process owns what the rest of its call needs. -/
def Divided (c : Prop) (n : ℕ) : Sys P → Prop :=
  Owned (framed (Rule n)) (fun s res => Inv c n s (∑ p, res p)) Owns

lemma Image.divided (h : Image n D) : Divided c n (boot D : Sys P) := by
  refine ⟨fun _ => {bootToken}, h.inv, fun p => ?_⟩
  refine ⟨{bootToken}, 0, ⟨ROOTINO, rfl⟩, ⟨fun _ => 0, by simp, fun _ => rfl⟩, by simp⟩

lemma Divided.tree (h : Divided c n s) : Tree n s.shared.disk := by
  obtain ⟨res, hinv, -⟩ := h
  exact hinv.core.tree

variable [DecidableEq P] {a : Act P Call} {i : ℕ}

/-- Every step that meets the conditions keeps the invariant. -/
theorem divided_of_run (himg : Image n D) (h : Run (step n) (boot D) tr s)
    (hM : ∀ x ∈ tr, Meets (Meet c) x.1 x.2) : (∀ x ∈ tr, Divided c n x.1) ∧ Divided c n s := by
  refine h.invariant (fun s a t hs hM hstep => ?_) himg.divided hM
  refine Owned.of_poolStep ?_ (fun c a m r hm hr => (spec_body hm hr).own) hs hM hstep
  exact sound_framed fun hrule hinv hM hx => hrule.sound himg.small hinv hM hx

lemma Divided.ne_noType (h : Divided c n s) (hM : Meets (Meet c) s a) :
    step n s a ≠ .error .noType := by
  refine Owned.ne_error Panic.noType (by decide) ?_ h hM
  intro s res p o Φ hinv hrule hM
  exact safe_framed (fun hr hi _ => hr.ne_noType hi) hinv hrule hM

omit [Fintype P] [DecidableEq P] in
lemma meets_of_allowed (h : Meets Allowed s a) : Meets (Meet False) s a := by
  cases a with
  | call p c => trivial
  | step p => exact fun o ho => ⟨h o ho, False.elim⟩

/-- In every state of every run whose operations are all allowed, no entry of a directory
names a free inode; and the next step does not end in the panic of `ilock`. -/
theorem noDangling_of_run (himg : Image n D) (h : Run (step n) (boot D) tr s)
    (hM : ∀ x ∈ tr, Meets Allowed x.1 x.2) :
    (∀ x ∈ tr, NoDangling x.1.shared.disk) ∧ NoDangling s.shared.disk ∧
      ∀ a, Meets Allowed s a → step n s a ≠ .error .noType := by
  have hdiv := divided_of_run himg h fun x hx => meets_of_allowed (hM x hx)
  refine ⟨fun x hx => (hdiv.1 x hx).tree.noDangling, hdiv.2.tree.noDangling, fun a ha => ?_⟩
  exact hdiv.2.ne_noType (meets_of_allowed ha)

/-! ### Runs of one process -/

/-- A disk that holds the root directory only. -/
def rootImage : ℕ → Dinode := fun i =>
  if i = ROOTINO then { type := .dir, nlink := 1, slots := [⟨ROOTINO, dot⟩, ⟨ROOTINO, dotdot⟩] }
  else {}

lemma rootImage_of_ne (hi : i ≠ ROOTINO) : rootImage i = {} := if_neg hi

lemma rootImage_entries (i : ℕ) : entries rootImage i = [] := by
  rw [entries]
  rcases eq_or_ne i ROOTINO with rfl | hi
  · rfl
  · rw [rootImage_of_ne hi]
    rfl

lemma rootImage_named (i : ℕ) : named 200 rootImage i = 0 := by simp [named, rootImage_entries]

lemma eq_of_rootImage (h : (rootImage i).type ≠ .free) : i = ROOTINO := by
  by_contra hi
  rw [rootImage_of_ne hi] at h
  exact h rfl

lemma image_rootImage : Image 200 rootImage := by
  have hdir : ∀ {i}, (rootImage i).type = .dir → i = ROOTINO := fun h =>
    eq_of_rootImage (by simp [h])
  refine ⟨by decide, ?_, fun i hi => ?_, fun i hi => ?_, fun i hi => .inl (eq_of_rootImage hi)⟩
  · refine
      { alloc := fun i hi => ?_, slots := fun i hi => ?_, shape := fun i hi => ?_
        up := fun i a hi => ?_, entry := fun d e he => ?_, root := ⟨rfl, rfl, rootImage_named _⟩
        once := fun i _ => ?_ }
    · rw [eq_of_rootImage hi]
      decide
    · have hne : i ≠ ROOTINO := by
        rintro rfl
        exact hi rfl
      rw [rootImage_of_ne hne]
    · rw [hdir hi]
      exact .inr (.inr ⟨ROOTINO, [], rfl, by decide, by simp⟩)
    · rcases eq_or_ne i ROOTINO with rfl | hne
      · obtain rfl : ROOTINO = a := by simpa [rootImage] using hi
        exact ⟨rfl, .inl rfl⟩
      · rw [rootImage_of_ne hne] at hi
        simp at hi
    · simp [rootImage_entries] at he
    · simp [rootImage_named]
  · rw [eq_of_rootImage hi]
    simp [linkCount, rootImage_named, subdirs, rootImage_entries, rootImage]
  · rw [hdir hi]
    decide

/-- A test for `Allowed` that does not look for the subdirectories of a directory whose entry
is erased. -/
def allowedTest {P : Type} (s : State P) : Op → Bool
  | .nlinkUp k =>
    (s.itable k).node.nlink ≠ -1 ∧ ((s.itable k).node.type = .dir → (s.itable k).node.nlink ≠ 0)
  | .writei k off de =>
    if de.inum ≠ 0 then (s.itable k).node.nlink ≠ 0
    else match (s.itable k).node.slots[off]? with
      | some e => (s.disk e.inum).type ≠ .dir
      | none => true
  | _ => true

lemma allowed_of_test {P : Type} {s : State P} {o : Op} (h : allowedTest s o = true) :
    Allowed s o := by
  cases o with
  | nlinkUp k =>
    rw [allowedTest, decide_eq_true_eq] at h
    exact h
  | writei k off de =>
    rw [allowedTest] at h
    split_ifs at h with hde
    · exact ⟨fun _ => of_decide_eq_true h, fun h0 => absurd h0 hde⟩
    refine ⟨fun hne => absurd hne hde, fun _ e he hdir => ?_⟩
    rw [he] at h
    exact absurd hdir (of_decide_eq_true h)
  | _ => trivial

/-- The test for the next step of a process. -/
def meetsTest {P : Type} (test : State P → Op → Bool) (s : Sys P) : Act P Call → Bool
  | .call _ _ => true
  | .step p => match s.next p with
    | some o => test s.shared o
    | none => true

lemma meets_of_test {P : Type} {test : State P → Op → Bool} {M : State P → Op → Prop}
    (htest : ∀ s o, test s o = true → M s o) {s : Sys P} {a : Act P Call}
    (h : meetsTest test s a = true) : Meets M s a := by
  cases a with
  | call p c => trivial
  | step p =>
    intro o ho
    simp only [meetsTest, ho] at h
    exact htest _ _ h

lemma meets_of_trace {P : Type} [DecidableEq P] {test : State P → Op → Bool}
    {M : State P → Op → Prop} (htest : ∀ s o, test s o = true → M s o) {n : ℕ} {s : Sys P}
    {as : List (Act P Call)}
    (h : ((traceList (step n) s as).all fun x => meetsTest test x.1 x.2) = true) :
    ∀ x ∈ traceList (step n) s as, Meets M x.1 x.2 := fun x hx =>
  meets_of_test htest (List.all_eq_true.1 h x hx)

/-- A file is created, gets a second name and loses the first; a directory is made and
becomes the working directory; and the process exits. -/
def fileScript {P : Type} (p : P) : List (Act P Call) :=
  script p [(.open ['/', 'x'] 0x202, 24), (.link ['/', 'x'] ['y'], 27), (.unlink ['x'], 18),
    (.mkdir ['/', 'd'], 32), (.chdir ['d'], 13), (.close 0, 2), (.exit, 1)]

/-- The theorem at a run of one process. -/
theorem noDangling_of_run_files : ∃ tr s, Run (step 200) (boot rootImage : Sys (Fin 1)) tr s ∧
    tr.length = 124 ∧ (∀ x ∈ tr, NoDangling x.1.shared.disk) ∧ NoDangling s.shared.disk := by
  obtain ⟨s, hs, -⟩ := exists_of_okAnd
    (runList (step 200) (boot rootImage) (fileScript (0 : Fin 1))) (fun _ => true)
    (by decide +kernel)
  have hrun := noDangling_of_run image_rootImage (.of_runList hs)
    (meets_of_trace (fun _ _ => allowed_of_test) (by decide +kernel))
  exact ⟨_, s, .of_runList hs, by decide +kernel, hrun.1, hrun.2.1⟩

/-- A directory and its parent are removed while the directory is the working directory. -/
def removeScript : List (Call × ℕ) :=
  [(.mkdir ['/', 'a'], 31), (.mkdir ['/', 'a', '/', 'b'], 39), (.chdir ['/', 'a', '/', 'b'], 20),
    (.unlink ['/', 'a', '/', 'b'], 26), (.unlink ['/', 'a'], 23)]

/-- The ".." of the working directory then names a free inode, and to follow it is a panic. -/
theorem not_noDangling_of_unlink :
    (¬ ∀ D, Image 200 D → ∀ tr s, Run (step 200) (boot D : Sys (Fin 1)) tr s → s.Idle →
      NoDangling s.shared.disk) ∧
    ¬ ∀ D, Image 200 D → ∀ tr s, Run (step 200) (boot D : Sys (Fin 1)) tr s →
      ∀ a, step 200 s a ≠ .error .noType := by
  constructor
  · intro hall
    obtain ⟨s, hs, htest⟩ := exists_of_okAnd
      (runList (step 200) (boot rootImage) (script (0 : Fin 1) removeScript)) (fun s =>
        decide (s.next 0 = none ∧ (s.shared.disk 3).type = .dir ∧
        ⟨2, dotdot⟩ ∈ (s.shared.disk 3).slots ∧ (s.shared.disk 2).type = .free)) (by decide +kernel)
    obtain ⟨hidle, hdir, hmem, hfree⟩ := of_decide_eq_true htest
    refine hall rootImage image_rootImage _ s (.of_runList hs) (fun p => ?_) 3 hdir _ hmem
      (by decide) hfree
    rwa [Subsingleton.elim p 0]
  intro hall
  have herror := eq_error_of_failsWith (show failsWith (runList (step 200) (boot rootImage)
    (script (0 : Fin 1) (removeScript ++ [(.chdir ['.', '.'], 10)]))) .noType = true
    by decide +kernel)
  obtain ⟨tr1, t, a, tr2, htr, hstep⟩ := runList_eq_error_iff.1 herror
  exact hall rootImage image_rootImage tr1 t (.of_traceList htr) a hstep

end Hexv6.Fs
