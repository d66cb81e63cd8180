import Hexv6.Fs.Opened

/-!
# Link counts under interleaving

Between the calls, the link count of a file is the number of its names.  A file without links is
freed when its last reference is given up, and no file is freed while it is open (`counted_of_run`).

The inode that `iput` has marked as free can be allocated again before `iput` has given up its
reference.  The new file can then lose its last name and its last open file, and is not freed
(`not_counted_of_create`).
-/

namespace Hexv6.Fs

open Lib Multiset

/-- The number of directory entries that name the inode. -/
def nameCount (n : ℕ) (D : ℕ → Dinode) (i : ℕ) : ℕ :=
  ∑ d ∈ Finset.range n, (D d).slots.countP fun e => decide (e.inum = i)

/-- The link counts of all inodes that are not directories are the numbers of their names. -/
def Counts (n : ℕ) (D : ℕ → Dinode) : Prop :=
  ∀ i, (D i).type ≠ .free → (D i).type ≠ .dir →
    (D i).nlink.toNat ≡ nameCount n D i [MOD 2 ^ 16]

section Steps

variable {P : Type}

/-- An inode that is freed has no links, its only reference is the one that is being given up, and
no open file refers to it. -/
def FreedLast (s t : State P) : Prop :=
  ∀ i, (s.disk i).type ≠ .free → (t.disk i).type = .free → (s.disk i).nlink = 0 ∧
    (∃ k, (s.itable k).inum = i ∧ (s.itable k).ref = 1 ∧
      ∀ k', 0 < (s.itable k').ref → (s.itable k').inum = i → k' = k) ∧
    ∀ f k, 0 < (s.ftable f).ref → (s.ftable f).ip = some k → (s.itable k).inum ≠ i

/-- When the last reference to an inode is given up, the inode is free or has links. -/
def LastFreed (s t : State P) : Prop :=
  ∀ k, (s.itable k).ref = 1 → (t.itable k).ref = 0 →
    (t.disk (s.itable k).inum).type ≠ .free → (t.disk (s.itable k).inum).nlink ≠ 0

end Steps

/-! ### Counts -/

section Counts

variable {n : ℕ} {D : ℕ → Dinode} {i : ℕ}

/-- The entries "." and ".." name directories. -/
lemma Tree.nameCount_eq (h : Tree n D) (hi : (D i).type ≠ .dir) :
    nameCount n D i = named n D i := by
  refine Finset.sum_congr rfl fun d _ => ?_
  by_cases hd : (D d).type = .dir
  · have hne : ∀ {a}, (D a).type = .dir → a ≠ i := by
      rintro a ha rfl
      exact hi ha
    rcases h.shape d hd with hs | hs | ⟨a, rest, hs, -, -⟩
    · simp [entries, hs]
    · simp [entries, hs, hne hd]
    · have hup := (h.up d a (by rw [hs]; rfl)).1
      simp [entries, hs, hne hd, hne hup]
  · simp [entries, h.slots d hd]

variable {P : Type} {s : Sys P}

lemma FOwns.not_ahead {p : Proc} {r : Multiset FTok} {w : FTok} {t : Token} (h : FOwns p r)
    (hw : w ∈ r) (ht : t ∈ w.tokens) : t.ahead i = false := by
  rcases h.mem hw with ⟨k, j, -, rfl⟩ | ⟨-, f, k, j, -, rfl⟩
  · rw [mem_singleton.1 ht]
    simp [Mode.ahead]
  rcases mem_add.1 ht with ht | ht
  · rw [mem_singleton.1 ht]
    rfl
  · rw [mem_singleton.1 ht]
    simp [Mode.ahead]

variable [Fintype P]

/-- As `Divided`, with bundled tokens. -/
def DividedOpen (n : ℕ) : Sys P → Prop :=
  Owned (framed (FRule n)) (fun s res => FInv n s (∑ p, res p)) FOwns

/-- Between the calls nothing is ahead. -/
lemma DividedOpen.counts (h : DividedOpen n s) (hidle : s.Idle) : Counts n s.shared.disk := by
  obtain ⟨res, ⟨hinv, -, -⟩, hret⟩ := h.idle hidle
  intro i hi hdir
  have hahead : (erase (∑ p, res p)).countP (·.ahead i) = 0 := by
    rw [countP_eq_zero]
    intro t ht hta
    obtain ⟨w, hw, htw⟩ := mem_bind.1 ht
    obtain ⟨p, -, hwp⟩ := mem_sum.1 hw
    obtain ⟨r, -, hown⟩ := hret p
    rw [hown.not_ahead hwp htw] at hta
    cases hta
  have hlinks := hinv.core.links i hi
  have hroot : i ≠ ROOTINO := by
    rintro rfl
    exact hdir hinv.core.tree.root.1
  have hsub : subdirs s.shared.disk i = 0 := by simp [subdirs, entries, hinv.core.tree.slots i hdir]
  rw [hahead, linkCount, if_neg hroot, hsub, add_zero, add_zero, zero_add] at hlinks
  rw [hinv.core.tree.nameCount_eq hdir, hlinks]

end Counts

/-! ### Steps -/

section Steps

variable {P : Type} {n : ℕ} {s t : State P} {i : ℕ} {k : Slot}

/-- Writing to an inode leaves the types, if it leaves the type in the inode table. -/
lemma iupdate_type {W : Multiset Token} (hcore : Core n s W) {m : Mode} (ht : .slot k i m ∈ W)
    (hvalid : (s.itable k).valid = true) {d : Dinode} (hd : d.type = (s.itable k).node.type)
    (j : ℕ) :
    ((s.iupdate k d).disk j).type = (s.disk j).type := by
  have hi := hcore.inum_eq ht
  rw [iupdate_disk d hi]
  rcases eq_or_ne j i with rfl | hj
  · rw [Function.update_self, hd, (hcore.coh k (hcore.ref_pos ht) hvalid).1, hi]
  · rw [Function.update_of_ne hj]

lemma Core.valid_of_lock {W : Multiset Token} (hcore : Core n s W) {d : Dinode} {st : Stage}
    (ht : .slot k i (.lock d st) ∈ W) : (s.itable k).valid = true :=
  (hcore.means _ ht).2.1

variable [DecidableEq P]

/-- An inode is freed by `iput` only. -/
lemma Rule.freed {A F : Multiset Token} {c : Prop} {p : P} {o : Op}
    {Ψ : o.Result → Multiset Token → Prop} {x : o.Result} (hrule : Rule n o A Ψ)
    (h : Inv c n s (A + F)) (hx : exec p o s = .ok (t, x)) (hi : (s.disk i).type ≠ .free)
    (hfree : (t.disk i).type = .free) : ∃ k, A = {.slot k i (.doomed true)} := by
  have hsame : (∀ j, (t.disk j).type = (s.disk j).type) → ∃ k, A = {.slot k i (.doomed true)} :=
    fun htype => absurd ((htype i).symm.trans hfree) hi
  have hput : ∀ {k i d st off} {de : Dirent} {y : Bool}, Token.slot k i (.lock d st) ∈ A + F →
      writei s k off de = (t, y) → ∀ j, (t.disk j).type = (s.disk j).type := by
    intro k i d st off de y ht hw
    rcases writei_cases hw with ⟨-, rfl⟩ | ⟨-, rfl⟩
    · exact fun _ => rfl
    · exact iupdate_type h.core ht (h.core.valid_of_lock ht) rfl
  by_cases hw : written s o = none
  · exact hsame fun j => by rw [exec_disk_eq hx hw]
  cases hrule with
  | itrunc k j cut =>
    cases hx
    have ht : Token.slot k j (.doomed cut) ∈ {.slot k j (.doomed cut)} + F := by simp
    exact hsame (iupdate_type h.core ht (h.core.means _ ht).2.1 rfl)
  | itruncFile k j d hs | upFile k j d hd | upDir k j d hd =>
    cases hx
    have ht : Token.slot k j (.lock d .plain) ∈ {.slot k j (.lock d .plain)} + F := by simp
    exact hsame (iupdate_type h.core ht (h.core.valid_of_lock ht) rfl)
  | ifree k j =>
    cases hx
    have hj := h.core.inum_eq (show Token.slot k j (.doomed true) ∈ _ by simp)
    refine ⟨k, ?_⟩
    rcases eq_or_ne i j with rfl | hne
    · rfl
    refine absurd hfree ?_
    show ((s.iupdate k _).disk i).type ≠ .free
    rwa [iupdate_disk _ hj, Function.update_of_ne hne]
  | iallocTry j type hj htype =>
    simp only [exec] at hx
    split at hx
    · rename_i hfree'
      cases hx
      rcases eq_or_ne i j with rfl | hne
      · exact absurd hfree' hi
      · simp only [Function.update_of_ne hne] at hfree
        exact absurd hfree hi
    · cases hx
      exact absurd hfree hi
  | initFile k j d major minor hd | initDir k j d major minor hd =>
    cases hx
    have ht : Token.slot k j (.lock d .new) ∈ {.slot k j (.lock d .new)} + F := by simp
    exact hsame (iupdate_type h.core ht (h.core.valid_of_lock ht) rfl)
  | downFile k j d =>
    cases hx
    have ht : Token.slot k j (.lock d .plain) ∈ {.slot k j (.lock d .plain)} + {.credit j} + F := by
      simp
    exact hsame (iupdate_type h.core ht (h.core.valid_of_lock ht) rfl)
  | downDir k j d =>
    cases hx
    have ht : Token.slot k j (.lock d .extra) ∈ {.slot k j (.lock d .extra)} + F := by simp
    exact hsame (iupdate_type h.core ht (h.core.valid_of_lock ht) rfl)
  | putFile k i' j x d name hfree' hj hname
  | removeFile k k' i' j x d e hnamed hj he | removeDir k k' i' j x d e hnamed hj he hempty =>
    exact hsame (hput (show Token.slot k i' (.lock d .plain) ∈ _ by simp) (Except.ok.inj hx))
  | putDir k k' i' j x d e name hfree' hj hname hnlink he =>
    exact hsame (hput (show Token.slot k i' (.lock d .extra) ∈ _ by simp) (Except.ok.inj hx))
  | putDot k j e he | putDotdot k k' i' j d e he hd hnlink =>
    exact hsame (hput (show Token.slot k j (.lock e .fill) ∈ _ by simp) (Except.ok.inj hx))
  | _ => exact absurd rfl hw

omit [DecidableEq P] in
/-- The inode that is being freed has one reference. -/
lemma Inv.ref_eq_one {F : Multiset Token} {cut : Bool}
    (h : Inv True n s ({.slot k i (.doomed cut)} + F)) : (s.itable k).ref = 1 := by
  have hcore := h.core_cons
  have hfree := hcore.type_ne_free (mem_cons_self _ _) rfl
  rw [hcore.refs, countP_cons, if_pos (by simp), Nat.add_eq_right, countP_eq_zero]
  intro t ht hon
  cases t with
  | slot k' j m =>
    simp only [Token.onSlot_slot, decide_eq_true_eq] at hon
    subst hon
    have hj : j = i :=
      (hcore.inum_eq (mem_cons_of_mem ht)).symm.trans (hcore.inum_eq (mem_cons_self _ _))
    subst hj
    -- a reference is to an allocated inode, and is excluded, or it is to a free one
    by_cases hm : m.proper = true
    · have hno := hcore.no_proper (i := j) (by simp [Mode.excl]) _ ht
      simp [hm] at hno
    · exact hfree ((h.kept trivial).gone j _ (mem_add.2 (.inr ht)) (by simpa using hm))
  | credit | born | file => cases hon

lemma FInv.freedLast {A F : Multiset FTok} {p : P} {o : Op} {Ψ : o.Result → Multiset FTok → Prop}
    {x : o.Result} (h : FInv n s (A + F)) (hrule : FRule n o A Ψ) (hx : exec p o s = .ok (t, x)) :
    FreedLast s t := by
  intro i hi hfree
  have hinv := h.inv
  rw [erase_add] at hinv
  have hsame : written s o = none → False := fun ho => by
    rw [exec_disk_eq hx ho] at hfree
    exact hi hfree
  cases hrule with
  | @base _ A _ hrule ho =>
    rw [erase_map_base] at hinv
    obtain ⟨k, rfl⟩ := hrule.freed hinv hx hi hfree
    have hcore := hinv.core_cons
    have hinum := hcore.inum_eq (mem_cons_self _ _)
    have href := hinv.ref_eq_one
    refine ⟨(hcore.means _ (mem_cons_self _ _)).2.2.2.1, ⟨k, hinum, href, fun k' hpos hk' => ?_⟩,
      fun f k' hpos hip hk' => ?_⟩
    · exact hcore.unique k' k hpos (by omega) (hk'.trans hinum.symm)
    -- the reference of the open file would be a second one
    obtain ⟨j, m, hm, hmem⟩ := h.opened f k' hpos hip
    have hF := (mem_add.1 hmem).resolve_left opened_notMem_map
    have ht : Token.slot k' j m ∈ erase F :=
      mem_bind.2 ⟨_, hF, mem_add.2 (.inr (mem_singleton_self _))⟩
    have hj : j = i := (hcore.inum_eq (mem_cons_of_mem ht)).symm.trans hk'
    have hno := hcore.no_proper (i := i) (by simp [Mode.excl]) _ ht
    simp [hj, hm] at hno
  | itrunc f k j d hs =>
    rw [erase_singleton, FTok.tokens, add_comm {_} {_}, add_assoc] at hinv
    obtain ⟨k', hk'⟩ := (Rule.itruncFile k j d hs).freed hinv hx hi hfree
    simp at hk'
  | fileSet | iunlock | dropNone | drop => exact (hsame rfl).elim

omit [DecidableEq P] in
/-- What is left when a reference is given up: no other reference to the inode. -/
lemma Inv.dropped {F : Multiset Token} {m : Mode} (h : Inv True n s ({.slot k i m} + F))
    (h' : Inv True n t F) (ht : (t.itable k).ref = 0) (hfree : (t.disk i).type ≠ .free)
    (hdisk : t.disk = s.disk) : (t.disk i).nlink ≠ 0 := by
  intro hnlink
  have hcore := h.core_cons
  obtain ⟨w, hw, hproper⟩ := (h'.kept trivial).held i hfree hnlink
  cases w with
  | slot k' j m' =>
    simp only [Token.proper_slot, decide_eq_true_eq] at hproper
    obtain ⟨rfl, -⟩ := hproper
    have hk : k = k' := hcore.slot_eq (mem_cons_self _ _) (mem_cons_of_mem hw)
    subst hk
    have hpos := h'.core.ref_pos hw
    omega
  | born j type =>
    simp only [Token.proper_born, decide_eq_true_eq] at hproper
    subst hproper
    by_cases hm : m.proper = true
    · have hle := hcore.excl j _ (mem_cons_of_mem hw) (by simp)
      have hpos : 0 < F.countP (·.proper j) := countP_pos.2 ⟨_, hw, by simp⟩
      rw [countP_cons, if_pos (by simp [hm])] at hle
      omega
    refine hfree ?_
    rw [hdisk]
    exact (h.kept trivial).gone j _ (mem_add.2 (.inl (mem_singleton_self _))) (by simpa using hm)
  | credit | file => cases hproper

lemma FInv.lastFreed {A F : Multiset FTok} {p : P} {o : Op} {Ψ : o.Result → Multiset FTok → Prop}
    {x : o.Result} (hn : n ≤ 2 ^ 16) (h : FInv n s (A + F)) (hrule : FRule n o A Ψ)
    (hM : Counting s o) (hx : exec p o s = .ok (t, x)) : LastFreed s t := by
  intro k hs ht hfree
  obtain ⟨B, hB, hinv', -, -⟩ := hrule.sound hn h hM hx
  have hinv := h.inv
  rw [erase_add] at hinv hinv'
  rcases exec_last hx hs ht with rfl | rfl
  · cases hrule with
    | base hrule ho =>
      cases hrule with
      | iputTest k i =>
        rw [erase_map_base] at hinv
        have hi := hinv.core_cons.inum_eq (mem_cons_self _ _)
        rw [hi] at hfree ⊢
        obtain ⟨B, ⟨rfl, rfl⟩ | ⟨rfl, rfl⟩, rfl⟩ := hB
        · rw [erase_map_base] at hinv'
          have hpos := hinv'.core_cons.ref_pos (mem_cons_self _ _)
          omega
        · rw [erase_map_base, zero_add] at hinv'
          exact hinv.dropped hinv' ht hfree (exec_disk_eq hx rfl)
  · cases hrule with
    | base hrule ho =>
      cases hrule with
      | iputDrop k i =>
        rw [erase_map_base] at hinv
        have hi := hinv.core_cons.inum_eq (mem_cons_self _ _)
        rw [hi] at hfree ⊢
        obtain ⟨B, rfl, rfl⟩ := hB
        rw [erase_map_base, zero_add] at hinv'
        exact hinv.dropped hinv' ht hfree (exec_disk_eq hx rfl)

end Steps

/-! ### Runs -/

section Runs

variable {P : Type} [Fintype P] {n : ℕ} {D : ℕ → Dinode} {s : Sys P}
  {tr : List (Sys P × Act P Call)}

lemma Image.dividedOpen (h : Image n D) : DividedOpen n (boot D : Sys P) := by
  refine ⟨fun _ => {.base bootToken}, ?_, fun p => ?_⟩
  · have herase : erase (∑ _p : P, ({.base bootToken} : Multiset FTok)) =
        ∑ _p : P, ({bootToken} : Multiset Token) := by
      rw [show ∑ _p : P, ({.base bootToken} : Multiset FTok) =
        (∑ _p : P, ({bootToken} : Multiset Token)).map .base by simp [Multiset.map_nsmul],
      erase_map_base]
    refine ⟨by rw [herase]; exact h.inv, fun i hdir hnlink => ?_, fun f k hpos => ?_⟩
    · rw [boot_disk] at hdir hnlink
      have hfree : (D i).type ≠ .free := by simp [hdir]
      have hcount := h.links i hfree
      rw [hnlink] at hcount
      exact absurd hcount.symm (linkCount_ne_zero (h.alive i hfree))
    · cases hpos
  · exact ⟨{bootToken}, 0, ⟨ROOTINO, rfl⟩, ⟨fun _ => 0, by simp, fun _ => rfl⟩, by simp⟩

variable [DecidableEq P]

lemma DividedOpen.step (hn : n ≤ 2 ^ 16) (h : DividedOpen n s) {a : Act P Call} {t : Sys P}
    (hM : Meets Counting s a) (hstep : step n s a = .ok t) : DividedOpen n t := by
  refine Owned.of_poolStep ?_ (fun c a m r hm hr => (spec_opened_body hm hr).own) h hM hstep
  exact sound_framed fun hrule hinv hM hx => hrule.sound hn hinv hM hx

lemma DividedOpen.freed (hn : n ≤ 2 ^ 16) (h : DividedOpen n s) {a : Act P Call} {t : Sys P}
    (hM : Meets Counting s a) (hstep : Fs.step n s a = .ok t) :
    FreedLast s.shared t.shared ∧ LastFreed s.shared t.shared := by
  rcases h.cases_step hstep with heq | ⟨p, o, res, Φ, x, hp, rfl, hinv, hrule, hx⟩
  · rw [heq]
    exact ⟨fun i hi hfree => absurd hfree hi, fun k h1 h0 => by omega⟩
  · obtain ⟨A, F, Ψ, hbase, hinv'⟩ := exists_of_framed hinv hrule
    exact ⟨hinv'.freedLast hbase hx, hinv'.lastFreed hn hbase (hM o hp) hx⟩

/-- In every run whose operations are all counted: between the calls the link counts of the files
are the numbers of their names; and whenever an inode is freed it has no links, its last reference
is being given up and it is not open, and whenever a last reference is given up, the inode is free
or has links. -/
theorem counted_of_run (himg : Image n D) (h : Run (step n) (boot D) tr s)
    (hM : ∀ x ∈ tr, Meets Counting x.1 x.2) :
    (∀ x ∈ tr, x.1.Idle → Counts n x.1.shared.disk) ∧ (s.Idle → Counts n s.shared.disk) ∧
      ∀ x ∈ tr, ∀ t, step n x.1 x.2 = .ok t →
        FreedLast x.1.shared t.shared ∧ LastFreed x.1.shared t.shared := by
  have hdiv := h.invariant
    (fun s a t hs hM hstep => hs.step himg.small hM hstep) himg.dividedOpen hM
  exact ⟨fun x hx => (hdiv.1 x hx).counts, hdiv.2.counts,
    fun x hx t hstep => (hdiv.1 x hx).freed himg.small (hM x hx) hstep⟩

end Runs

/-! ### Runs of two processes -/

section Tests

variable {P : Type} {s : State P} {o : Op}

def noRmdirTest (s : State P) : Op → Bool
  | .nlinkDown k => (s.itable k).node.type ≠ .dir
  | .writei k off de =>
    if de.inum = 0 then
      match (s.itable k).node.slots[off]? with
      | some e => (s.disk e.inum).type ≠ .dir
      | none => true
    else true
  | _ => true

lemma noRmdir_of_test (h : noRmdirTest s o = true) : NoRmdir s o := by
  cases o with
  | nlinkDown k =>
    rw [noRmdirTest, decide_eq_true_eq] at h
    exact h
  | writei k off de =>
    intro h0 e he
    rw [noRmdirTest, if_pos h0, he] at h
    exact of_decide_eq_true h
  | _ => trivial

def noWrapTest (s : State P) : Op → Bool
  | .nlinkUp k => (s.itable k).node.nlink ≠ -1
  | _ => true

lemma noWrap_of_test (h : noWrapTest s o = true) : NoWrap s o := by
  cases o with
  | nlinkUp k =>
    rw [noWrapTest, decide_eq_true_eq] at h
    exact h
  | _ => trivial

lemma counting_of_test
    (h : (noRmdirTest s o && noWrapTest s o && notHeldTest s o) = true) : Counting s o := by
  simp only [Bool.and_eq_true] at h
  exact ⟨noRmdir_of_test h.1.1, noWrap_of_test h.1.2, notHeld_of_test h.2⟩

end Tests

/-- While a process is opening a file, another one that has created it unlinks and closes it.  The
first process gives up the last reference. -/
def sharedCalls {P : Type} (p q : P) : List (Act P Call) :=
  script p [(.open ['x'] 0x202, 24)] ++ script q [(.open ['x'] 2, 8)] ++
    script p [(.unlink ['x'], 18), (.close 0, 2)] ++ List.replicate 7 (.step q) ++
    script q [(.close 0, 6)]

/-- The theorem at this run, in which the inode is freed. -/
theorem counted_of_run_files : ∃ tr s, Run (step 200) (boot rootImage : Sys (Fin 2)) tr s ∧
    (∃ x ∈ tr, (x.1.shared.disk 2).type = .file) ∧ (s.shared.disk 2).type = .free ∧
    s.Idle ∧ Counts 200 s.shared.disk ∧ ∀ x ∈ tr, ∀ t, step 200 x.1 x.2 = .ok t →
      FreedLast x.1.shared t.shared ∧ LastFreed x.1.shared t.shared := by
  obtain ⟨s, hs, hend⟩ := exists_of_okAnd (runList (step 200) (boot rootImage)
      (sharedCalls (0 : Fin 2) 1))
    (fun s => decide (s.next 0 = none ∧ s.next 1 = none ∧ (s.shared.disk 2).type = .free))
    (by decide +kernel)
  obtain ⟨h0, h1, hfree⟩ := of_decide_eq_true hend
  have hfile : ((traceList (step 200) (boot rootImage) (sharedCalls (0 : Fin 2) 1)).any fun x =>
      (x.1.shared.disk 2).type = .file) = true := by decide +kernel
  obtain ⟨x, hx, hxfile⟩ := List.any_eq_true.1 hfile
  have hidle : s.Idle := by
    intro p
    fin_cases p
    · exact h0
    · exact h1
  obtain ⟨-, hcounts, hfreed⟩ := counted_of_run image_rootImage (.of_runList hs)
    (meets_of_trace (fun _ _ => counting_of_test) (by decide +kernel))
  exact ⟨_, s, .of_runList hs, ⟨x, hx, of_decide_eq_true hxfile⟩, hfree, hidle, hcounts hidle,
    hfreed⟩

/-- The calls that link and unlink files, open and close them. -/
def linking {P : Type} : Act P Call → Bool
  | .call _ (.link _ _) | .call _ (.unlink _) | .call _ (.open _ _) | .call _ (.mknod _ _ _)
  | .call _ (.close _) | .step _ => true
  | _ => false

/-- A process closes a file without links, and is in `iput` with the reference left to give up, when
another process creates a file with the same inode, unlinks it and closes it. -/
def reuseCalls {P : Type} (p q : P) : List (Act P Call) :=
  script p [(.open ['x'] 0x202, 24), (.unlink ['x'], 18), (.close 0, 5)] ++
    script q [(.open ['y'] 0x202, 24), (.unlink ['y'], 18), (.close 0, 2)]

/-- The entry of the inode table that is used for both files. -/
def fileSlot : Slot := ⟨1, by decide⟩

/-- What holds in the state before the last reference is given up. -/
def reuseTest {P : Type} [DecidableEq P] (p : P) (s : Sys P) : Bool :=
  meetsTest (fun s o => noRmdirTest s o && noWrapTest s o) s (.step p) &&
    decide ((s.shared.itable fileSlot).ref = 1) && okAnd (step 200 s (.step p)) fun t =>
      decide ((t.shared.itable fileSlot).ref = 0 ∧
        (t.shared.disk (s.shared.itable fileSlot).inum).type ≠ .free ∧
        (t.shared.disk (s.shared.itable fileSlot).inum).nlink = 0)

/-- The second file has no links when its last reference is given up, and is not freed. -/
theorem not_counted_of_create : ¬ ∀ D, Image 200 D → ∀ tr s,
    Run (step 200) (boot D : Sys (Fin 2)) tr s → (∀ x ∈ tr, linking x.2 = true) →
    (∀ x ∈ tr, Meets NoRmdir x.1 x.2 ∧ Meets NoWrap x.1 x.2) →
    ∀ x ∈ tr, ∀ t, step 200 x.1 x.2 = .ok t → LastFreed x.1.shared t.shared := by
  intro hall
  obtain ⟨s, hs, htest⟩ := exists_of_okAnd (runList (step 200) (boot rootImage)
      (reuseCalls (0 : Fin 2) 1)) (reuseTest 0) (by decide +kernel)
  simp only [reuseTest, Bool.and_eq_true] at htest
  obtain ⟨⟨hact, href⟩, hstep⟩ := htest
  obtain ⟨t, ht, hend⟩ := exists_of_okAnd _ _ hstep
  obtain ⟨href', hfree, hnlink⟩ := of_decide_eq_true hend
  have hmeet : ((traceList (step 200) (boot rootImage) (reuseCalls (0 : Fin 2) 1)).all fun x =>
      meetsTest (fun s o => noRmdirTest s o && noWrapTest s o) x.1 x.2) = true := by decide +kernel
  have hlast := hall rootImage image_rootImage _ t ((Run.of_runList hs).snoc ht) (fun x hx => ?_)
    (fun x hx => ?_) (s, .step 0) (by simp) t ht fileSlot (of_decide_eq_true href) href' hfree
  · exact hlast hnlink
  · rcases List.mem_append.1 hx with hx | hx
    · exact List.all_eq_true.1 (show (reuseCalls (0 : Fin 2) 1).all linking = true by decide) _
        (mem_of_mem_traceList hx)
    · rw [List.mem_singleton.1 hx]
      rfl
  have hx' : meetsTest (fun s o => noRmdirTest s o && noWrapTest s o) x.1 x.2 = true := by
    rcases List.mem_append.1 hx with hx | hx
    · exact List.all_eq_true.1 hmeet x hx
    · rw [List.mem_singleton.1 hx]
      exact hact
  exact ⟨meets_of_test (fun _ _ h => noRmdir_of_test (Bool.and_eq_true _ _ ▸ h).1) hx',
    meets_of_test (fun _ _ h => noWrap_of_test (Bool.and_eq_true _ _ ▸ h).2) hx'⟩

end Hexv6.Fs
