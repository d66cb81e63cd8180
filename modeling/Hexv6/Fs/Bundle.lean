import Hexv6.Fs.Owns

/-!
# Open files with their references

The tokens of `Hexv6.Fs.Tokens` are bundled for files that are open: the token of the file and the
reference that it holds are one token, `opened`, so that the reference is not given up before the
file is closed.  Every call ends with what a process owns between calls, for bundled tokens
(`spec_opened_body`) and, since `erase` leads back to the tokens of the invariant, for those
(`spec_body`).
-/

namespace Hexv6.Fs

open Lib Multiset Prog

/-- A token, or an open file together with its reference. -/
inductive FTok
  | base (t : Token)
  | opened (f : FileSlot) (k : Slot) (i : ℕ) (m : Mode)

def FTok.tokens : FTok → Multiset Token
  | .base t => {t}
  | .opened f k i m => {.file f (some k)} + {.slot k i m}

/-- The tokens that are bundled. -/
def erase (W : Multiset FTok) : Multiset Token := W.bind FTok.tokens

lemma erase_add (A B : Multiset FTok) : erase (A + B) = erase A + erase B := add_bind _ _ _

lemma erase_sum {ι : Type} (s : Finset ι) (f : ι → Multiset FTok) :
    erase (∑ i ∈ s, f i) = ∑ i ∈ s, erase (f i) :=
  map_sum (⟨⟨erase, rfl⟩, erase_add⟩ : Multiset FTok →+ Multiset Token) f s

@[simp] lemma erase_singleton (t : FTok) : erase {t} = t.tokens := singleton_bind _ _

@[simp] lemma erase_map_base (A : Multiset Token) : erase (A.map .base) = A := by
  rw [erase, bind_map]
  show (A.bind fun t => {t}) = A
  rw [bind_singleton, map_id']

/-- The rules; a file is opened with the reference of its process, and to close it gives the
reference back. -/
inductive FRule (n : ℕ) : (o : Op) → Multiset FTok → (o.Result → Multiset FTok → Prop) → Prop
  | base {o : Op} {A : Multiset Token} {Ψ : o.Result → Multiset Token → Prop} (h : Rule n o A Ψ)
      (ho : o.filing = false) :
      FRule n o (A.map .base) fun x B' => ∃ B, Ψ x B ∧ B' = B.map .base
  | fileSet (f : FileSlot) (k : Slot) (i : ℕ) (d : Dinode) :
      FRule n (.fileSet f k) ({.base (.file f none)} + {.base (.slot k i (.lock d .plain))})
        fun _ B => B = {.opened f k i (.lock d .plain)}
  | itrunc (f : FileSlot) (k : Slot) (i : ℕ) (d : Dinode) (hd : d.slots = []) :
      FRule n (.itrunc k) {.opened f k i (.lock d .plain)}
        fun _ B => B = {.opened f k i (.lock d .plain)}
  | iunlock (f : FileSlot) (k : Slot) (i : ℕ) (d : Dinode) :
      FRule n (.iunlock k) {.opened f k i (.lock d .plain)} fun _ B =>
        B = {.opened f k i (.ref none)}
  | dropNone (f : FileSlot) :
      FRule n (.fileDrop f) {.base (.file f none)} fun x B => x = none ∧ B = 0
  | drop (f : FileSlot) (k : Slot) (i : ℕ) :
      FRule n (.fileDrop f) {.opened f k i (.ref none)} fun x B =>
        x = some k ∧ B = {.base (.slot k i (.ref none))}

/-- The rule for the tokens of a bundled rule. -/
lemma FRule.erase {n : ℕ} {o : Op} {A : Multiset FTok} {Ψ : o.Result → Multiset FTok → Prop}
    (h : FRule n o A Ψ) : ∃ A' C Ψ', Rule n o A' Ψ' ∧ Fs.erase A = A' + C ∧
      ∀ x B', Ψ' x B' → ∃ B, Ψ x B ∧ B' + C = Fs.erase B := by
  cases h with
  | base h _ => exact ⟨_, 0, _, h, by simp, fun x B hB => ⟨_, ⟨B, hB, rfl⟩, by simp⟩⟩
  | fileSet f k i d =>
    refine ⟨_, _, _, .fileSet f k none, erase_add _ _, ?_⟩
    rintro _ _ rfl
    exact ⟨_, rfl, by simp [FTok.tokens]⟩
  | itrunc f k i d hd =>
    refine ⟨_, _, _, .itruncFile k i d hd, (erase_singleton _).trans (add_comm _ _), ?_⟩
    rintro _ _ rfl
    exact ⟨_, rfl, by rw [erase_singleton, add_comm]; rfl⟩
  | iunlock f k i d =>
    refine ⟨_, _, _, .iunlock k i d, (erase_singleton _).trans (add_comm _ _), ?_⟩
    rintro _ _ rfl
    exact ⟨_, rfl, by rw [erase_singleton, add_comm]; rfl⟩
  | dropNone f =>
    refine ⟨_, 0, _, .fileDrop f none, by simp [FTok.tokens], ?_⟩
    rintro _ _ ⟨hx, rfl⟩
    exact ⟨_, ⟨hx, rfl⟩, rfl⟩
  | drop f k i =>
    refine ⟨_, _, _, .fileDrop f (some k), erase_singleton _, ?_⟩
    rintro _ _ ⟨hx, rfl⟩
    exact ⟨_, ⟨hx, rfl⟩, by simp [FTok.tokens]⟩

/-! ### The calls -/

section Calls

variable {n : ℕ} {k : Slot} {i : ℕ} {d : Dinode} {f : FileSlot} {p : Proc} {path : List Char}

def Op.NotFiling (o : Op) : Prop := o.filing = false

lemma notFiling_of_basic (o : Op) (h : o.basic = true) : o.NotFiling := by
  cases o with
  | fileSet | fileDrop => cases h
  | _ => rfl

/-- What holds with the rules, holds with the bundled tokens. -/
lemma spec_base {α : Type} {m : Kernel α} {A : Multiset Token} {Ψ : α → Multiset Token → Prop}
    (h : Spec (Rule n) A m Ψ) (hm : m.Within Op.NotFiling) :
    Spec (FRule n) (A.map .base) m fun a B' => ∃ B, Ψ a B ∧ B' = B.map .base := by
  refine h.map (Multiset.map_add _) (fun ho hr => ?_) hm
  refine ⟨_, 0, _, .base hr ho, (add_zero _).symm, ?_⟩
  rintro x _ ⟨B, hB, rfl⟩
  exact ⟨B, hB, add_zero _⟩

lemma spec_opened_fileclose :
    Spec (FRule n) {.opened f k i (.ref none)} (fileclose f) fun _ B => B = 0 := by
  refine Spec.op (.drop f k i) ?_
  rintro _ _ ⟨rfl, rfl⟩
  refine (spec_base spec_iput (within_iput notFiling_of_basic k)).mono ?_
  rintro _ _ ⟨_, rfl, rfl⟩
  rfl

lemma spec_unset_fileclose :
    Spec (FRule n) {.base (.file f none)} (fileclose f) fun _ B => B = 0 := by
  refine Spec.op (.dropNone f) ?_
  rintro _ _ ⟨rfl, rfl⟩
  exact Spec.ret rfl

/-- Nothing has been opened, or one file. -/
def FOpened (p p' : Proc) (B : Multiset FTok) : Prop :=
  Same p p' ∧ B = 0 ∨ ∃ fd f k i, p.ofile fd = none ∧ p'.cwd = p.cwd ∧
    p'.ofile = Function.update p.ofile fd (some f) ∧ B = {.opened f k i (.ref none)}

lemma spec_base_iunlockput :
    Spec (FRule n) ((locked k i d).map .base) (iunlockput k) fun _ B => B = 0 := by
  refine (spec_base spec_iunlockput (within_iunlockput notFiling_of_basic k)).mono ?_
  rintro _ _ ⟨_, rfl, rfl⟩
  rfl

lemma spec_opened_openInode (hgood : Good i d) {omode : BitVec 32} :
    Spec (FRule n) ((locked k i d).map .base) (openInode p k omode) (FOpened p) := by
  refine (spec_base spec_node (.perform rfl)).bind ?_
  rintro _ _ ⟨_, ⟨rfl, rfl⟩, rfl⟩
  split
  · refine spec_base_iunlockput.next fun _ => ?_
    exact Spec.ret (.inl ⟨⟨rfl, rfl⟩, rfl⟩)
  rw [← zero_add (Multiset.map _ _)]
  refine (spec_base (Spec.perform .filealloc) (.perform rfl)).seq ?_
  rintro _ _ ⟨_, ⟨f, rfl, rfl⟩ | ⟨rfl, rfl⟩, rfl⟩
  · dsimp only
    split
    · refine spec_unset_fileclose.seqNext fun _ => ?_
      rw [zero_add]
      refine spec_base_iunlockput.next fun _ => ?_
      exact Spec.ret (.inl ⟨⟨rfl, rfl⟩, rfl⟩)
    rename_i fd hfd
    have hfree : p.ofile fd = none := by simpa using List.find?_some hfd
    refine Spec.op (.fileSet f k i d) ?_
    rintro _ _ rfl
    have hrest : Spec (FRule n) {.opened f k i (.lock d .plain)} (do
          run (.iunlock k)
          pure { p with ofile := Function.update p.ofile fd (some f), a0 := (fd : ℕ) })
        (FOpened p) := by
      refine Spec.op (.iunlock f k i d) ?_
      rintro _ _ rfl
      exact Spec.ret (.inr ⟨fd, f, k, i, hfree, rfl, rfl, rfl⟩)
    split_ifs with htrunc
    · -- a file that is truncated has no entries
      have hslots := hgood.2.2.1 (by simp [htrunc.2])
      refine Spec.op (.itrunc f k i d hslots) ?_
      rintro _ _ rfl
      exact hrest
    · exact hrest
  · rw [Multiset.map_zero, zero_add]
    refine spec_base_iunlockput.next fun _ => ?_
    exact Spec.ret (.inl ⟨⟨rfl, rfl⟩, rfl⟩)

lemma spec_opened_sysOpen {omode : BitVec 32} :
    Spec (FRule n) ((ref k i).map .base) (sysOpen n p k path omode) fun p' B =>
      ∃ B', FOpened p p' B' ∧ B = B' + (ref k i).map .base := by
  have hfail : ∀ a : ℤ, Spec (FRule n) (((0 : Multiset Token) + ref k i).map .base)
      (pure { p with a0 := a } : Kernel Proc) fun p' B =>
      ∃ B', FOpened p p' B' ∧ B = B' + (ref k i).map .base := fun a =>
    Spec.ret ⟨0, .inl ⟨⟨rfl, rfl⟩, rfl⟩, by rw [Multiset.map_add, Multiset.map_zero]⟩
  rw [sysOpen]
  split_ifs with hcreate
  · refine (spec_base (spec_create (by decide))
      (within_create notFiling_of_basic k n _ _ _ _)).bind ?_
    rintro (_ | ip) _ ⟨_, ⟨B', hB, rfl⟩, rfl⟩
    · rw [show B' = 0 from hB]
      exact hfail (-1)
    obtain ⟨j, d, hgood, rfl⟩ := hB
    rw [Multiset.map_add]
    exact (spec_opened_openInode hgood).frame _
  refine (spec_base spec_namei (within_namei notFiling_of_basic k path)).bind ?_
  rintro _ _ ⟨_, ⟨_, ⟨rfl, rfl⟩ | ⟨ip, j, rfl, rfl⟩, rfl⟩, rfl⟩
  · exact hfail (-1)
  rw [Multiset.map_add]
  refine Spec.frame _ ?_
  refine (spec_base spec_ilock (within_ilock notFiling_of_basic ip)).bind ?_
  rintro _ _ ⟨_, ⟨d, hgood, rfl⟩, rfl⟩
  refine (spec_base spec_node (.perform rfl)).bind ?_
  rintro _ _ ⟨_, ⟨rfl, rfl⟩, rfl⟩
  split_ifs
  · refine spec_base_iunlockput.next fun _ => ?_
    exact Spec.ret (.inl ⟨⟨rfl, rfl⟩, rfl⟩)
  · exact spec_opened_openInode hgood

/-! ### What a process owns between calls -/

/-- An open file with its inode, as one token. -/
def FFdOwns : Option FileSlot → Multiset FTok → Prop
  | none, B => B = 0
  | some f, B => ∃ k i, B = {.opened f k i (.ref none)}

/-- All open files. -/
def FFds (ofile : Fin NOFILE → Option FileSlot) (B : Multiset FTok) : Prop :=
  ∃ R : Fin NOFILE → Multiset FTok, B = ∑ fd, R fd ∧ ∀ fd, FFdOwns (ofile fd) (R fd)

def FOwns (p : Proc) (r : Multiset FTok) : Prop :=
  ∃ A B, CwdOwns p.cwd A ∧ FFds p.ofile B ∧ r = A.map .base + B

variable {ofile : Fin NOFILE → Option FileSlot} {fd : Fin NOFILE} {A : Multiset FTok}
  {B : Multiset FTok}

lemma FFds.update (h : FFds ofile B) (fd : Fin NOFILE) {y : Option FileSlot} {C : Multiset FTok}
    (hC : FFdOwns y C) :
    ∃ A B', FFdOwns (ofile fd) A ∧ B = A + B' ∧ FFds (Function.update ofile fd y) (C + B') :=
  exists_sum_update h fd hC

/-- A file is opened. -/
lemma FFds.opened (h : FFds ofile B) (hfd : ofile fd = none) :
    FFds (Function.update ofile fd (some f)) ({.opened f k i (.ref none)} + B) := by
  obtain ⟨A, B', hA, rfl, h'⟩ := h.update fd (y := some f) ⟨k, i, rfl⟩
  rw [hfd] at hA
  rw [hA, zero_add]
  exact h'

/-- A file is closed. -/
lemma FFds.closed (h : FFds ofile B) (hfd : ofile fd = some f) :
    ∃ k i B', B = {.opened f k i (.ref none)} + B' ∧ FFds (Function.update ofile fd none) B' := by
  obtain ⟨A, B', hA, rfl, h'⟩ := h.update fd (y := none) rfl
  rw [hfd] at hA
  obtain ⟨k, i, rfl⟩ := hA
  exact ⟨k, i, B', rfl, by rwa [zero_add] at h'⟩

lemma spec_opened_sysClose {fd : ℤ} (h : FFds p.ofile B) :
    Spec (FRule n) B (sysClose p fd) fun p' B' => p'.cwd = p.cwd ∧ FFds p'.ofile B' := by
  rw [sysClose]
  split
  · dsimp only
    split
    · exact Spec.ret ⟨rfl, h⟩
    rename_i f hf
    obtain ⟨k, i, B', rfl, h'⟩ := h.closed hf
    refine spec_opened_fileclose.seqNext fun _ => ?_
    rw [zero_add]
    exact Spec.ret ⟨rfl, h'⟩
  · exact Spec.ret ⟨rfl, h⟩

lemma spec_opened_closeAll {l : List (Fin NOFILE)} (h : FFds p.ofile B) :
    Spec (FRule n) B (closeAll p l) fun p' B' => FFds p'.ofile B' := by
  induction l generalizing p B with
  | nil => exact Spec.ret h
  | cons fd l ih =>
    rw [closeAll]
    split
    · exact ih h
    rename_i f hf
    obtain ⟨k, i, B', rfl, h'⟩ := h.closed hf
    refine spec_opened_fileclose.seqNext fun _ => ?_
    rw [zero_add]
    exact ih h'

lemma fOwns_of_same {p' : Proc} (hcwd : p.cwd = some k) (h : FFds p.ofile B) (hp : Same p p') :
    FOwns p' ((ref k i).map .base + B) := by
  refine ⟨ref k i, B, ?_, by rwa [hp.2], rfl⟩
  rw [hp.1, hcwd]
  exact ⟨i, rfl⟩

/-- Calls that open and close no file. -/
lemma spec_opened_same {m : Kernel Proc} (hcwd : p.cwd = some k) (h : FFds p.ofile B)
    (hm : m.Within Op.NotFiling)
    (hspec : Spec (Rule n) (ref k i) m fun p' B => Same p p' ∧ B = ref k i) :
    Spec (FRule n) ((ref k i).map .base + B) m FOwns := by
  refine (spec_base hspec hm).last ?_
  rintro p' _ ⟨_, ⟨hsame, rfl⟩, rfl⟩
  exact fOwns_of_same hcwd h hsame

/-- Every call ends with what a process owns between calls, file by file. -/
theorem spec_opened_body {c : Call} {m : Kernel Proc} (hm : body n c p = some m) (h : FOwns p A) :
    Spec (FRule n) A m FOwns := by
  obtain ⟨C, B, hC, hB, rfl⟩ := h
  obtain ⟨k, hcwd, rfl⟩ := Option.map_eq_some_iff.1 hm
  rw [hcwd] at hC
  obtain ⟨i, rfl⟩ := hC
  have hq := notFiling_of_basic
  cases c with
  | «open» path omode =>
    refine spec_opened_sysOpen.last ?_
    rintro p' _ ⟨B', hopen, rfl⟩
    rcases hopen with ⟨hsame, rfl⟩ | ⟨fd, f, k', i', hfd, hcwd', hofile, rfl⟩
    · rw [zero_add]
      exact fOwns_of_same hcwd hB hsame
    refine ⟨ref k i, {.opened f k' i' (.ref none)} + B, ?_, ?_, ?_⟩
    · rw [hcwd', hcwd]
      exact ⟨i, rfl⟩
    · rw [hofile]
      exact hB.opened hfd
    · abel
  | mkdir path =>
    exact spec_opened_same hcwd hB (within_sysMkdir hq k n p path) (spec_createPut (by decide))
  | mknod path major minor =>
    exact spec_opened_same hcwd hB (within_sysMknod hq k n p path major minor)
      (spec_createPut (by decide))
  | link old new => exact spec_opened_same hcwd hB (within_sysLink hq k p old new) spec_sysLink
  | unlink path => exact spec_opened_same hcwd hB (within_sysUnlink hq k p rfl path) spec_sysUnlink
  | chdir path =>
    refine (spec_base spec_sysChdir (within_sysChdir hq k p path)).last ?_
    rintro p' _ ⟨_, ⟨hsame, rfl⟩ | ⟨k', j, hcwd', hofile, rfl⟩, rfl⟩
    · exact fOwns_of_same hcwd hB hsame
    refine ⟨_, B, ?_, by rwa [hofile], rfl⟩
    rw [hcwd']
    exact ⟨j, rfl⟩
  | close fd =>
    rw [add_comm]
    refine (spec_opened_sysClose hB).last ?_
    rintro p' B' ⟨hcwd', hB'⟩
    refine ⟨ref k i, B', ?_, hB', add_comm _ _⟩
    rw [hcwd', hcwd]
    exact ⟨i, rfl⟩
  | exit =>
    rw [add_comm]
    refine (spec_opened_closeAll hB).seq ?_
    intro p' B' hB'
    rw [add_comm]
    refine (spec_base spec_iput (within_iput hq k)).seq ?_
    rintro _ _ ⟨_, rfl, rfl⟩
    exact Spec.ret ⟨0, B', rfl, hB', rfl⟩

/-! ### Without bundles -/

lemma owns_iff {r : Multiset Token} : Owns p r ↔ ∃ W, FOwns p W ∧ r = erase W := by
  constructor
  · rintro ⟨C, B, hC, ⟨R, rfl, hR⟩, rfl⟩
    have hbundle : ∀ fd, ∃ W, FFdOwns (p.ofile fd) W ∧ R fd = erase W := fun fd => by
      have hown := hR fd
      cases hf : p.ofile fd with rw [hf] at hown
      | none =>
        exact ⟨0, rfl, hown⟩
      | some f =>
        obtain ⟨k, i, hki⟩ := hown
        exact ⟨_, ⟨k, i, rfl⟩, by rw [hki, erase_singleton]; rfl⟩
    choose W hW hRW using hbundle
    exact ⟨_, ⟨C, _, hC, ⟨W, rfl, hW⟩, rfl⟩, by
      rw [erase_add, erase_map_base, erase_sum, Finset.sum_congr rfl fun fd _ => hRW fd]⟩
  · rintro ⟨_, ⟨C, _, hC, ⟨W, rfl, hW⟩, rfl⟩, rfl⟩
    refine ⟨C, _, hC, ⟨fun fd => erase (W fd), rfl, fun fd => ?_⟩, by
      rw [erase_add, erase_map_base, erase_sum]⟩
    have hown := hW fd
    cases hf : p.ofile fd with rw [hf] at hown
    | none =>
      exact congrArg erase hown
    | some f =>
      obtain ⟨k, i, hki⟩ := hown
      exact ⟨k, i, (congrArg erase hki).trans (erase_singleton _)⟩

/-- A token that a process owns between its calls. -/
lemma FOwns.mem {W : Multiset FTok} {t : FTok} (h : FOwns p W) (ht : t ∈ W) :
    (∃ k i, p.cwd = some k ∧ t = .base (.slot k i (.ref none))) ∨
      ∃ fd f k i, p.ofile fd = some f ∧ t = .opened f k i (.ref none) := by
  obtain ⟨A, B, hA, ⟨R, rfl, hR⟩, rfl⟩ := h
  rcases mem_add.1 ht with ht | ht
  · left
    obtain ⟨t, ht, rfl⟩ := mem_map.1 ht
    cases hcwd : p.cwd with
    | none =>
      rw [hcwd] at hA
      rw [show A = 0 from hA] at ht
      simp at ht
    | some k =>
      rw [hcwd] at hA
      obtain ⟨i, rfl⟩ := hA
      exact ⟨k, i, rfl, by rw [mem_singleton.1 ht]⟩
  · right
    obtain ⟨fd, -, hfd⟩ := mem_sum.1 ht
    have hown := hR fd
    cases hf : p.ofile fd with rw [hf] at hown
    | none =>
      rw [show R fd = 0 from hown] at hfd
      simp at hfd
    | some f =>
      obtain ⟨k, i, hki⟩ := hown
      rw [hki] at hfd
      exact ⟨fd, f, k, i, hf, mem_singleton.1 hfd⟩

lemma Owns.mem {r : Multiset Token} {t : Token} (h : Owns p r) (ht : t ∈ r) :
    (∃ k i, p.cwd = some k ∧ t = .slot k i (.ref none)) ∨
      ∃ fd f k i, p.ofile fd = some f ∧ Token.file f (some k) ∈ r ∧
        (t = .file f (some k) ∨ t = .slot k i (.ref none)) := by
  obtain ⟨W, hW, rfl⟩ := owns_iff.1 h
  obtain ⟨w, hw, ht⟩ := mem_bind.1 ht
  rcases hW.mem hw with ⟨k, i, hcwd, rfl⟩ | ⟨fd, f, k, i, hf, rfl⟩
  · exact .inl ⟨k, i, hcwd, mem_singleton.1 ht⟩
  · refine .inr ⟨fd, f, k, i, hf, mem_bind.2 ⟨_, hw, by simp [FTok.tokens]⟩, ?_⟩
    exact (mem_add.1 ht).imp mem_singleton.1 mem_singleton.1

/-- Every call ends with what a process owns between calls. -/
theorem spec_body {c : Call} {m : Kernel Proc} {A : Multiset Token} (hm : body n c p = some m)
    (h : Owns p A) : Spec (Rule n) A m Owns := by
  obtain ⟨W, hW, rfl⟩ := owns_iff.1 h
  exact ((spec_opened_body hm hW).map erase_add (fun _ hr => hr.erase) (within_true m)).mono
    fun _ _ hp => owns_iff.2 hp

end Calls

end Hexv6.Fs
