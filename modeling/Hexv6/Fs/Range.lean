import Hexv6.Fs.Effect
import Hexv6.Fs.Orphan

/-!
# The range of link counts

`nlink` is a signed number of 16 bits, and no call checks that it does not overflow.  Three
directories can hold more entries for one file than it can count, and after one link too many the
count is negative: the next `sys_unlink` of the file is a panic (`not_linked_of_link`).

If the counts that are raised are below the largest one, and the operations are `Allowed`, every
inode that has a name has a positive count, and the panic is not reached (`linked_of_run`).  For the
panic the rules of the operations are extended: the process that holds the lock of the directory
with the entry reads a positive count (`NamedRule`).
-/

namespace Hexv6.Fs

open Lib Multiset Prog

/-! ### Programs without the panic -/

/-- Any operation but the panic of `sys_unlink` for the link count. -/
def Op.Quiet (o : Op) : Prop := o ≠ .panic .unlinkNlink

lemma quiet_of_basic (o : Op) (h : o.basic = true) : o.Quiet := by
  rintro rfl
  simp [Op.basic] at h

lemma quiet_of_filing (o : Op) (h : o.filing = true) : o.Quiet := by
  rintro rfl
  cases h

/-! ### Counts in range -/

/-- What the processes share has only link counts that are not negative. -/
structure Small {P : Type} (s : State P) : Prop where
  disk : ∀ i, (s.disk i).nlink.toNat < 2 ^ 15
  node : ∀ k, (s.itable k).node.nlink.toNat < 2 ^ 15

/-- A count that is raised is not the largest one. -/
def BelowMax {P : Type} (s : State P) : Op → Prop
  | .nlinkUp k => (s.itable k).node.nlink.toNat + 1 < 2 ^ 15
  | _ => True

section Small

variable {P : Type} {s t : State P} {k : Slot} {d : Dinode}

lemma Small.setInode (h : Small s) {ip : Inode P} (hd : ip.node.nlink.toNat < 2 ^ 15) :
    Small (s.setInode k ip) where
  disk := h.disk
  node k' := by
    rcases eq_or_ne k' k with rfl | hk
    · simpa [State.setInode] using hd
    · simpa [State.setInode, Function.update_of_ne hk] using h.node k'

lemma Small.iupdate (h : Small s) (hd : d.nlink.toNat < 2 ^ 15) : Small (s.iupdate k d) where
  disk i := by
    rcases eq_or_ne i (s.itable k).inum with rfl | hi
    · simpa [State.iupdate] using hd
    · simpa [State.iupdate, Function.update_of_ne hi] using h.disk i
  node k' := by
    rcases eq_or_ne k' k with rfl | hk
    · simpa [State.iupdate] using hd
    · simpa [State.iupdate, Function.update_of_ne hk] using h.node k'

lemma Small.of_eq (h : Small s) (hdisk : t.disk = s.disk) (hitable : t.itable = s.itable) :
    Small t :=
  ⟨by rw [hdisk]; exact h.disk, by rw [hitable]; exact h.node⟩

variable [DecidableEq P]

/-- An operation keeps the counts in range, unless it raises the largest one or lowers 0. -/
lemma Small.exec (h : Small s) {p : P} {o : Op} {x : o.Result} (hup : BelowMax s o)
    (hdown : ∀ k, o = .nlinkDown k → 1 ≤ (s.itable k).node.nlink.toNat)
    (hx : exec p o s = .ok (t, x)) : Small t := by
  cases exec_effect hx with
  | stay => exact h
  | inode o k ip hnode href =>
    rcases hnode with hnode | hnode
    · exact h.setInode (by rw [hnode]; exact h.node k)
    · exact h.setInode (by rw [hnode]; exact h.disk _)
  | store o k d ho hd =>
    refine h.iupdate ?_
    rcases hd with hd | hd | ⟨rfl, hd⟩ | ⟨rfl, hd⟩
    · rw [hd]
      exact h.node k
    · rw [hd]
      decide
    · have hlt : (s.itable k).node.nlink.toNat + 1 < 2 ^ 15 := hup
      rw [hd, BitVec.toNat_add, show (1 : BitVec 16).toNat = 1 from rfl]
      omega
    · have hsub := toNat_sub_one (hdown k rfl)
      have hlt := h.node k
      rw [hd]
      omega
  | free k ip hnlink href =>
    have h' : Small (s.iupdate k { (s.itable k).node with type := .free }) := h.iupdate (h.node k)
    exact h'.setInode (by rw [hnlink]; exact h.node k)
  | alloc i type =>
    refine ⟨fun j => ?_, h.node⟩
    rcases eq_or_ne j i with rfl | hj
    · simp
    · simpa [Function.update_of_ne hj] using h.disk j
  | take | file => exact h.of_eq rfl rfl

end Small

/-! ### The rules -/

/-- The rules without the panic, and the process that holds the locks of a directory and of an inode
with an entry in it reads a positive link count. -/
inductive NamedRule (n : ℕ) : (o : Op) → Multiset Token → (o.Result → Multiset Token → Prop) → Prop
  | base {o : Op} {A : Multiset Token} {Ψ : o.Result → Multiset Token → Prop}
      (h : Rule n o A Ψ) (ho : o.Quiet) : NamedRule n o A Ψ
  | nodeNamed (k k' : Slot) (i j x : ℕ) (d e : Dinode) (hx : NamedAt d x j) (hj : j ≠ 0) :
      NamedRule n (.node k') (locked k' j e + locked k i d) fun y B =>
        e = y ∧ 1 ≤ e.nlink.toInt ∧ B = locked k' j e + locked k i d

section Sound

variable {P : Type} {n : ℕ} {s t : State P} {A F : Multiset Token} {c : Prop} {i : ℕ}

lemma one_le_toInt {x : BitVec 16} (hpos : 1 ≤ x.toNat) (hlt : x.toNat < 2 ^ 15) : 1 ≤ x.toInt := by
  rw [BitVec.toInt_eq_toNat_of_lt (by omega)]
  exact_mod_cast hpos

/-- A name counts as a link. -/
lemma Core.one_le_nlink {W : Multiset Token} (h : Core n s W) {d : ℕ} {e : Dirent}
    (he : e ∈ entries s.disk d) (hne : e.inum ≠ 0) : 1 ≤ (s.disk e.inum).nlink.toNat := by
  have hlinks := h.links e.inum (h.tree.entry d e he hne).1
  have hnamed := h.tree.named_of_mem he
  rw [linkCount] at hlinks
  omega

/-- A count that is lowered is not 0. -/
lemma Rule.one_le_of_down {o : Op} {Ψ : o.Result → Multiset Token → Prop} (hrule : Rule n o A Ψ)
    (h : Inv c n s (A + F)) {k : Slot} (ho : o = .nlinkDown k) :
    1 ≤ (s.itable k).node.nlink.toNat := by
  subst ho
  cases hrule with
  | downFile k i d =>
    obtain ⟨hnode, hdisk⟩ := h.core.node_eq (show Token.slot k i (.lock d .plain) ∈ _ by simp)
    obtain ⟨-, -, -, hfree, -⟩ := h.core.means (.slot k i (.lock d .plain)) (by simp)
    have hle := h.core.ahead_le (t := .credit i) (by rwa [hdisk]) (by simp) (by simp)
    rwa [hnode, ← hdisk]
  | downDir k i d =>
    obtain ⟨hnode, hdisk⟩ := h.core.node_eq (show Token.slot k i (.lock d .extra) ∈ _ by simp)
    obtain ⟨-, -, -, hfree, -⟩ := h.core.means (.slot k i (.lock d .extra)) (by simp)
    have hle := h.core.ahead_le (t := .slot k i (.lock d .extra)) (by rwa [hdisk])
      (by simp) (by simp [Mode.ahead])
    rwa [hnode, ← hdisk]

/-- The operations are allowed, and keep the counts in range. -/
def AllowedBelow (s : State P) (o : Op) : Prop := Allowed s o ∧ BelowMax s o

/-- The invariant, with counts in range. -/
def InvSmall (n : ℕ) (s : State P) (W : Multiset Token) : Prop := Inv False n s W ∧ Small s

variable [DecidableEq P]

theorem NamedRule.sound {p : P} {o : Op} {Ψ : o.Result → Multiset Token → Prop} {x : o.Result}
    (hn : n ≤ 2 ^ 16) (hrule : NamedRule n o A Ψ) (h : InvSmall n s (A + F))
    (hM : AllowedBelow s o) (hx : exec p o s = .ok (t, x)) :
    ∃ B, Ψ x B ∧ InvSmall n t (B + F) := by
  obtain ⟨hinv, hsmall⟩ := h
  cases hrule with
  | base hrule _ =>
    obtain ⟨B, hB, hinv'⟩ := hrule.sound hn hinv ⟨hM.1, False.elim⟩ hx
    exact ⟨B, hB, hinv', hsmall.exec hM.2 (fun k hk => hrule.one_le_of_down hinv hk) hx⟩
  | nodeNamed k k' i j x d e hnamed hj =>
    cases hx
    obtain ⟨hnode, hdisk⟩ := hinv.core.node_eq
      (show Token.slot k' j (.lock e .plain) ∈ _ by simp [locked])
    obtain ⟨-, hdisk'⟩ := hinv.core.node_eq
      (show Token.slot k i (.lock d .plain) ∈ _ by simp [locked])
    obtain ⟨de, hde, rfl⟩ := exists_of_oldInum hnamed.2.2 hj
    have hmem : de ∈ entries s.disk i := by
      rw [entries, hdisk']
      exact List.mem_of_getElem? hde
    refine ⟨_, ⟨hnode.symm, ?_, rfl⟩, hinv, hsmall⟩
    have hpos := hinv.core.one_le_nlink hmem hj
    rw [hdisk] at hpos
    refine one_le_toInt hpos ?_
    rw [← hdisk]
    exact hsmall.disk _

lemma NamedRule.ne_unlinkNlink {p : P} {o : Op} {Ψ : o.Result → Multiset Token → Prop}
    (hrule : NamedRule n o A Ψ) : exec p o s ≠ .error .unlinkNlink := by
  intro hx
  cases hrule with
  | base _ ho =>
    rcases exec_error hx with rfl | ⟨-, he⟩ | ⟨-, hne⟩
    · exact ho rfl
    · cases he
    · exact hne rfl
  | nodeNamed => cases hx

end Sound

/-! ### The calls -/

section Calls

variable {n : ℕ} {k k' : Slot} {i j : ℕ} {d : Dinode} {p : Proc} {path : List Char}
  {A : Multiset Token}

/-- What holds with the rules, holds without the panic. -/
lemma spec_of_quiet {α : Type} {m : Kernel α} {Ψ : α → Multiset Token → Prop}
    (h : Spec (Rule n) A m Ψ) (hm : m.Within Op.Quiet) : Spec (NamedRule n) A m Ψ :=
  h.lift (fun _ _ _ ho hr => .base hr ho) hm

lemma spec_named_unlinkEntry {x : ℕ} (hx : NamedAt d x j) (hj : j ≠ 0) :
    Spec (NamedRule n) (locked k i d + ref k' j) (unlinkEntry p k k' (x + 2)) fun p' B =>
      Same p p' ∧ B = 0 := by
  rw [add_comm, unlinkEntry_eq]
  refine (spec_of_quiet spec_ilock (within_ilock quiet_of_basic k')).seq ?_
  rintro _ _ ⟨e, -, rfl⟩
  refine Spec.op (.nodeNamed k k' i j x d e hx hj) ?_
  rintro _ _ ⟨rfl, hpos, rfl⟩
  rw [if_neg (by omega)]
  exact spec_of_quiet (spec_unlinkChecked hx hj) (within_unlinkChecked quiet_of_basic k' k p _ _)

/-- Every call ends with what a process owns between calls, without the panic. -/
theorem spec_named_body {c : Call} {m : Kernel Proc} (hm : body n c p = some m) (h : Owns p A) :
    Spec (NamedRule n) A m Owns := by
  have hspec := spec_body hm h
  obtain ⟨cwd, hcwd, rfl⟩ := Option.map_eq_some_iff.1 hm
  cases c with
  | «open» path omode =>
    exact spec_of_quiet hspec (within_sysOpen quiet_of_basic quiet_of_filing cwd n p path omode)
  | mkdir path => exact spec_of_quiet hspec (within_sysMkdir quiet_of_basic cwd n p path)
  | mknod path major minor =>
    exact spec_of_quiet hspec (within_sysMknod quiet_of_basic cwd n p path major minor)
  | link old new => exact spec_of_quiet hspec (within_sysLink quiet_of_basic cwd p old new)
  | unlink path =>
    obtain ⟨C, B, hC, hB, rfl⟩ := h
    rw [hcwd] at hC
    obtain ⟨i, rfl⟩ := hC
    refine (spec_sysUnlink_of spec_of_quiet quiet_of_basic spec_named_unlinkEntry).last ?_
    rintro p' _ ⟨hsame, rfl⟩
    exact owns_of_same hcwd hB hsame
  | chdir path => exact spec_of_quiet hspec (within_sysChdir quiet_of_basic cwd p path)
  | close fd => exact spec_of_quiet hspec (within_sysClose quiet_of_basic quiet_of_filing p fd)
  | exit => exact spec_of_quiet hspec (within_exit quiet_of_basic quiet_of_filing cwd p)

end Calls

/-! ### Runs -/

section Runs

variable {P : Type} [Fintype P] {n : ℕ} {D : ℕ → Dinode} {s : Sys P}
  {tr : List (Sys P × Act P Call)}

/-- Every inode that an entry other than "." and ".." names has a positive link count. -/
def Linked (D : ℕ → Dinode) : Prop :=
  ∀ d, (D d).type = .dir → ∀ e ∈ (D d).slots, e.inum ≠ 0 → e.name ≠ dot → e.name ≠ dotdot →
    1 ≤ (D e.inum).nlink.toInt

/-- As `Divided`, for the extended rules and with counts in range. -/
def DividedSmall (n : ℕ) : Sys P → Prop :=
  Owned (framed (NamedRule n)) (fun s res => InvSmall n s (∑ p, res p)) Owns

lemma Image.dividedSmall (h : Image n D) (hmax : ∀ i, (D i).nlink.toNat < 2 ^ 15) :
    DividedSmall n (boot D : Sys P) := by
  refine ⟨fun _ => {bootToken}, ⟨h.inv, hmax, fun k => ?_⟩, fun p => ?_⟩
  · rcases eq_or_ne k rootSlot with rfl | hk
    · simp [boot, rootSlot]
    · have hk' : k ≠ 0 := hk
      simp [boot, hk']
  · exact ⟨{bootToken}, 0, ⟨ROOTINO, rfl⟩, ⟨fun _ => 0, by simp, fun _ => rfl⟩, by simp⟩

lemma DividedSmall.linked (h : DividedSmall n s) : Linked s.shared.disk := by
  obtain ⟨res, ⟨hinv, hsmall⟩, -⟩ := h
  intro d hdir e he hne hdot hdotdot
  have hmem : e ∈ entries s.shared.disk d := by
    rcases hinv.core.tree.shape d hdir with hs | hs | ⟨a, rest, hs, -, -⟩
    · simp [hs] at he
    · rw [hs, List.mem_singleton] at he
      subst he
      exact absurd rfl hdot
    rw [hs, List.mem_cons, List.mem_cons] at he
    rcases he with rfl | rfl | he
    · exact absurd rfl hdot
    · exact absurd rfl hdotdot
    · rwa [entries, hs]
  exact one_le_toInt (hinv.core.one_le_nlink hmem hne) (hsmall.disk _)

variable [DecidableEq P]

lemma DividedSmall.ne_unlinkNlink (h : DividedSmall n s) (a : Act P Call) :
    step n s a ≠ .error .unlinkNlink := by
  refine Owned.ne_error Panic.unlinkNlink (by decide) ?_ h meets_true
  rintro s res p o Φ - ⟨A, F, Ψ, hrule, -, -⟩ -
  exact hrule.ne_unlinkNlink

/-- In every run from an image with counts in range whose operations are all allowed and raise no
count that is the largest one, the inodes with names have positive counts, and the next step is not
the panic of `sys_unlink`. -/
theorem linked_of_run (himg : Image n D) (hmax : ∀ i, (D i).nlink.toNat < 2 ^ 15)
    (h : Run (step n) (boot D) tr s) (hM : ∀ x ∈ tr, Meets AllowedBelow x.1 x.2) :
    (∀ x ∈ tr, Linked x.1.shared.disk) ∧ Linked s.shared.disk ∧
      ∀ a, step n s a ≠ .error .unlinkNlink := by
  have hdiv := h.invariant (fun s a t hs hM hstep => ?_) (himg.dividedSmall hmax) hM
  · exact ⟨fun x hx => (hdiv.1 x hx).linked, hdiv.2.linked, hdiv.2.ne_unlinkNlink⟩
  · refine Owned.of_poolStep ?_ (fun c a m r hm hr => (spec_named_body hm hr).own) hs hM hstep
    exact sound_framed fun hrule hinv hM hx => hrule.sound himg.small hinv hM hx

end Runs

/-! ### A file with too many links -/

/-- The entries for the file. -/
def fileEntry (i : ℕ) : Dirent := ⟨2, 'n' :: Nat.toDigits 10 i⟩

def fullImage : ℕ → Dinode
  | 1 =>
    { type := .dir, nlink := 4
      slots := [⟨1, dot⟩, ⟨1, dotdot⟩, ⟨2, ['f']⟩, ⟨3, ['a']⟩, ⟨4, ['b']⟩, ⟨5, ['c']⟩] }
  | 2 => { type := .file, nlink := 32767 }
  | 3 =>
    { type := .dir, nlink := 1
      slots := ⟨3, dot⟩ :: ⟨1, dotdot⟩ :: (List.range 17150).map fileEntry }
  | 4 =>
    { type := .dir, nlink := 1
      slots := ⟨4, dot⟩ :: ⟨1, dotdot⟩ :: (List.range 15616).map fileEntry }
  | 5 => { type := .dir, nlink := 1, slots := [⟨5, dot⟩, ⟨1, dotdot⟩] }
  | _ => {}

lemma countP_fileEntries (m : ℕ) (q : ℕ → Bool) :
    ((List.range m).map fileEntry).countP (fun e => q e.inum) = if q 2 = true then m else 0 := by
  rw [List.countP_map]
  show (List.range m).countP (fun _ => q 2) = _
  cases q 2 <;> simp

lemma inum_of_mem_fileEntries {m : ℕ} {e : Dirent} (h : e ∈ (List.range m).map fileEntry) :
    e.inum = 2 ∧ e.name ≠ dot ∧ e.name ≠ dotdot := by
  obtain ⟨i, -, rfl⟩ := List.mem_map.1 h
  exact ⟨rfl, by simp [fileEntry, dot], by simp [fileEntry, dotdot]⟩

/-- The allocated inodes. -/
lemma fullImage_cases {i : ℕ} (h : fullImage i ≠ {}) : i = 1 ∨ i = 2 ∨ i = 3 ∨ i = 4 ∨ i = 5 := by
  by_contra hne
  simp only [not_or] at hne
  obtain ⟨h1, h2, h3, h4, h5⟩ := hne
  refine h ?_
  match i with
  | 0 => rfl
  | n + 6 => rfl

lemma fullImage_named (j : ℕ) : named 200 fullImage j =
    (([2, 3, 4, 5] : List ℕ).countP (fun i => decide (i = j)) + if 2 = j then 32766 else 0) := by
  have hsub : ({1, 3, 4} : Finset ℕ) ⊆ Finset.range 200 := by decide
  rw [named, ← Finset.sum_subset hsub fun d _ hd => ?_]
  · rw [Finset.sum_insert (by decide), Finset.sum_insert (by decide), Finset.sum_singleton]
    have h3 := countP_fileEntries 17150 fun i => decide (i = j)
    have h4 := countP_fileEntries 15616 fun i => decide (i = j)
    simp only [decide_eq_true_eq] at h3 h4
    rw [show entries fullImage 3 = (List.range 17150).map fileEntry from rfl,
      show entries fullImage 4 = (List.range 15616).map fileEntry from rfl, h3, h4,
      show entries fullImage 1 = [⟨2, ['f']⟩, ⟨3, ['a']⟩, ⟨4, ['b']⟩, ⟨5, ['c']⟩] from rfl]
    simp only [List.countP_cons, List.countP_nil]
    split_ifs <;> omega
  · by_cases h : fullImage d = {}
    · simp [entries, h]
    rcases fullImage_cases h with rfl | rfl | rfl | rfl | rfl
    · simp at hd
    · rfl
    · simp at hd
    · simp at hd
    · rfl

lemma fullImage_ne {i : ℕ} (h : (fullImage i).type ≠ .free) : fullImage i ≠ {} := by
  intro h0
  rw [h0] at h
  exact h rfl

lemma fullImage_alive {i : ℕ} (h : fullImage i ≠ {}) : Alive 200 fullImage i := by
  rw [Alive, fullImage_named]
  rcases fullImage_cases h with rfl | rfl | rfl | rfl | rfl <;> simp [ROOTINO]

lemma fullImage_dir {i : ℕ} (h : (fullImage i).type = .dir) : i = 1 ∨ i = 3 ∨ i = 4 ∨ i = 5 := by
  have hne : (fullImage i).type ≠ .free := by simp [h]
  rcases fullImage_cases (fullImage_ne hne) with rfl | rfl | rfl | rfl | rfl
  · exact .inl rfl
  · cases h
  · exact .inr (.inl rfl)
  · exact .inr (.inr (.inl rfl))
  · exact .inr (.inr (.inr rfl))

lemma fullImage_entry {d : ℕ} {e : Dirent} (h : e ∈ entries fullImage d) :
    e.inum = 2 ∨ d = 1 ∧ (e.inum = 3 ∨ e.inum = 4 ∨ e.inum = 5) := by
  have hd : fullImage d ≠ {} := by
    intro h0
    simp [entries, h0] at h
  rcases fullImage_cases hd with rfl | rfl | rfl | rfl | rfl
  · have h' : e ∈ [⟨2, ['f']⟩, ⟨3, ['a']⟩, ⟨4, ['b']⟩, ⟨5, ['c']⟩] := h
    simp only [List.mem_cons, List.not_mem_nil, or_false] at h'
    rcases h' with rfl | rfl | rfl | rfl <;> simp
  · cases h
  · exact .inl (inum_of_mem_fileEntries h).1
  · exact .inl (inum_of_mem_fileEntries h).1
  · cases h

lemma tree_fullImage : Tree 200 fullImage where
  alloc i hi := by
    rcases fullImage_cases (fullImage_ne hi) with rfl | rfl | rfl | rfl | rfl <;> decide
  slots i hi := by
    by_cases h : fullImage i = {}
    · rw [h]
    rcases fullImage_cases h with rfl | rfl | rfl | rfl | rfl
    · exact absurd rfl hi
    · rfl
    · exact absurd rfl hi
    · exact absurd rfl hi
    · exact absurd rfl hi
  shape i hi := by
    refine .inr (.inr ?_)
    rcases fullImage_dir hi with rfl | rfl | rfl | rfl
    · exact ⟨1, _, rfl, by decide, by decide⟩
    · exact ⟨1, _, rfl, by decide, fun e he _ => (inum_of_mem_fileEntries he).2⟩
    · exact ⟨1, _, rfl, by decide, fun e he _ => (inum_of_mem_fileEntries he).2⟩
    · exact ⟨1, _, rfl, by decide, by simp⟩
  up i a ha := by
    have h1 : a = 1 := by
      by_cases h : fullImage i = {}
      · simp [h] at ha
      rcases fullImage_cases h with rfl | rfl | rfl | rfl | rfl
      · simpa [fullImage, eq_comm] using ha
      · simp [fullImage] at ha
      · simpa [fullImage, eq_comm] using ha
      · simpa [fullImage, eq_comm] using ha
      · simpa [fullImage, eq_comm] using ha
    subst h1
    exact ⟨rfl, .inl rfl⟩
  entry d e he hne := by
    have hd : fullImage d ≠ {} := by
      intro h
      simp [entries, h] at he
    rcases fullImage_entry he with h2 | ⟨rfl, h | h | h⟩
    · rw [h2]
      exact ⟨by decide, fullImage_alive hd, fun h => by cases h⟩
    · rw [h]
      exact ⟨by simp [fullImage], fullImage_alive hd, fun _ => rfl⟩
    · rw [h]
      exact ⟨by simp [fullImage], fullImage_alive hd, fun _ => rfl⟩
    · rw [h]
      exact ⟨by simp [fullImage], fullImage_alive hd, fun _ => rfl⟩
  root := ⟨rfl, rfl, by rw [fullImage_named]; decide⟩
  once i hi := by
    rw [fullImage_named]
    rcases fullImage_dir hi with rfl | rfl | rfl | rfl <;> decide

lemma image_fullImage : Image 200 fullImage where
  small := by decide
  tree := tree_fullImage
  links i hi := by
    have hfiles := fun m => countP_fileEntries m fun i => decide ((fullImage i).type = .dir)
    rw [linkCount, fullImage_named]
    rcases fullImage_cases (fullImage_ne hi) with rfl | rfl | rfl | rfl | rfl
    · rw [show subdirs fullImage 1 = 3 by rfl]
      decide
    · rw [show subdirs fullImage 2 = 0 by rfl]
      decide
    · rw [show subdirs fullImage 3 = 0 from hfiles 17150]
      decide
    · rw [show subdirs fullImage 4 = 0 from hfiles 15616]
      decide
    · rw [show subdirs fullImage 5 = 0 by rfl]
      decide
  whole i hi := by rcases fullImage_dir hi with rfl | rfl | rfl | rfl <;> simp [fullImage]
  alive i hi := fullImage_alive (fullImage_ne hi)

lemma fullImage_nlink (i : ℕ) : (fullImage i).nlink.toNat < 2 ^ 15 := by
  by_cases h : fullImage i = {}
  · simp [h]
  · rcases fullImage_cases h with rfl | rfl | rfl | rfl | rfl <;> decide

/-! ### Runs of one process -/

/-- The calls that make and remove names, and their steps. -/
def naming {P : Type} : Act P Call → Bool
  | .call _ (.link _ _) | .call _ (.unlink _) | .call _ (.open _ _) | .call _ (.mkdir _)
  | .call _ (.mknod _ _ _) | .step _ => true
  | _ => false

lemma naming_of_trace {s : Sys (Fin 1)} {calls : List (Act (Fin 1) Call)}
    (h : calls.all naming = true) : ∀ x ∈ traceList (step 200) s calls, naming x.2 = true :=
  fun _ hx => List.all_eq_true.1 h _ (mem_of_mem_traceList hx)

/-- One more link to the file. -/
def linkScript : List (Call × ℕ) := [(.link ['/', 'f'] ['/', 'c', '/', 'n'], 34)]

/-- The link is accepted, and makes the count negative; to unlink the file is then a panic. -/
theorem not_linked_of_link : (¬ ∀ D, Image 200 D → (∀ i, (D i).nlink.toNat < 2 ^ 15) → ∀ tr s,
      Run (step 200) (boot D : Sys (Fin 1)) tr s → (∀ x ∈ tr, naming x.2 = true) →
      Linked s.shared.disk) ∧
    ¬ ∀ D, Image 200 D → (∀ i, (D i).nlink.toNat < 2 ^ 15) → ∀ tr s,
      Run (step 200) (boot D : Sys (Fin 1)) tr s → (∀ x ∈ tr, naming x.2 = true) →
      ∀ a, step 200 s a ≠ .error .unlinkNlink := by
  constructor
  · intro hall
    obtain ⟨s, hs, htest⟩ := exists_of_okAnd
      (runList (step 200) (boot fullImage) (script (0 : Fin 1) linkScript)) (fun s =>
        decide ((s.shared.disk 5).type = .dir ∧ ⟨2, ['n']⟩ ∈ (s.shared.disk 5).slots ∧
        (s.shared.disk 2).nlink = 0x8000)) (by decide +kernel)
    obtain ⟨hdir, hmem, hnlink⟩ := of_decide_eq_true htest
    have hpos := hall fullImage image_fullImage fullImage_nlink _ s (.of_runList hs)
      (naming_of_trace (by decide)) 5 hdir _ hmem (by decide) (by decide) (by decide)
    rw [hnlink] at hpos
    exact absurd hpos (by decide)
  · intro hall
    have herror := eq_error_of_failsWith (show failsWith (runList (step 200) (boot fullImage)
      (script (0 : Fin 1) (linkScript ++ [(.unlink ['/', 'f'], 13)]))) .unlinkNlink = true
      by decide +kernel)
    obtain ⟨tr1, t, a, tr2, htr, hstep⟩ := runList_eq_error_iff.1 herror
    refine hall fullImage image_fullImage fullImage_nlink tr1 t (.of_traceList htr) (fun x hx => ?_)
      a hstep
    have hmem : x ∈ traceList (step 200) (boot fullImage)
        (script 0 (linkScript ++ [(.unlink ['/', 'f'], 13)])) := by
      rw [htr]
      exact List.mem_append_left _ hx
    exact naming_of_trace (by decide) x hmem

def belowTest (s : State (Fin 1)) : Op → Bool
  | .nlinkUp k => (s.itable k).node.nlink.toNat + 1 < 2 ^ 15
  | _ => true

lemma belowMax_of_test {s : State (Fin 1)} {o : Op} (h : belowTest s o = true) : BelowMax s o := by
  cases o with
  | nlinkUp k =>
    rw [belowTest, decide_eq_true_eq] at h
    exact h
  | _ => trivial

lemma allowedBelow_of_test {s : State (Fin 1)} {o : Op}
    (h : (allowedTest s o && belowTest s o) = true) : AllowedBelow s o := by
  rw [Bool.and_eq_true] at h
  exact ⟨allowed_of_test h.1, belowMax_of_test h.2⟩

/-- The theorem at a run of one process. -/
theorem linked_of_run_files : ∃ tr s, Run (step 200) (boot rootImage : Sys (Fin 1)) tr s ∧
    tr.length = 124 ∧ (∀ x ∈ tr, Linked x.1.shared.disk) ∧ Linked s.shared.disk := by
  obtain ⟨s, hs, -⟩ := exists_of_okAnd (runList (step 200) (boot rootImage)
    (fileScript (0 : Fin 1)))
    (fun _ => true) (by decide +kernel)
  have hmax : ∀ i, (rootImage i).nlink.toNat < 2 ^ 15 := by
    intro i
    rcases eq_or_ne i ROOTINO with rfl | hi
    · decide
    · simp [rootImage_of_ne hi]
  have hrun := linked_of_run image_rootImage hmax (.of_runList hs)
    (meets_of_trace (fun _ _ => allowedBelow_of_test) (by decide +kernel))
  exact ⟨_, s, .of_runList hs, by decide +kernel, hrun.1, hrun.2.1⟩

end Hexv6.Fs
