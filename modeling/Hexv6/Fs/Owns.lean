import Hexv6.Fs.Paths
import Hexv6.Fs.Within

/-!
# What the system calls own

Between its calls a process owns a reference to its working directory and, for every open
file, the file with a reference to its inode.  Every call ends with what it started with, up
to the files that it opens and closes and to the working directory that it changes.
-/

namespace Hexv6.Fs

open Lib Multiset

variable {n : ℕ} {k k' : Slot} {i j : ℕ} {d e : Dinode} {name : Name} {path : List Char}
  {type : IType} {major minor : BitVec 16} {p : Proc}

/-! ### `create` -/

/-- The entries of a new directory. -/
def Dinode.dots (e : Dinode) (j i : ℕ) : Dinode :=
  { e with slots := [⟨j, dot⟩, ⟨i, dotdot⟩] }

/-- A new directory is filled in, and then the rest of `create` follows. -/
lemma spec_createDots {f : Unit → Kernel (Option Slot)} {Ψ : Option Slot → Multiset Token → Prop}
    (hgood : Good i d) (hdir : d.type = .dir) (hj : 0 < j ∧ j < 2 ^ 16) (hslots : e.slots = [])
    (hf : 2 ≤ d.up.nlink.toNat → Spec (Rule n)
      ({.slot k' j (.lock (e.dots j i) .fill)} + {.slot k i (.lock d.up .extra)}) (f ()) Ψ) :
    Spec (Rule n) (locked k i d + {.slot k' j (.lock e .fill)}) (do
        run (.nlinkUp k)
        let inum ← run (.inum k')
        let dot ← dirlink k' ['.'] inum
        if dot = true then do
          let parent ← run (.inum k)
          let dotdot ← dirlink k' ['.', '.'] parent
          if dotdot = true then f () else do
            let u ← panic .createDots
            f u
        else do
          let u ← panic .createDots
          f u) Ψ := by
  refine Spec.opSeq (.upDir k i d hdir) ?_
  rintro _ _ ⟨hnlink, rfl⟩
  rw [add_comm]
  refine spec_inum.seq ?_
  rintro _ _ ⟨rfl, rfl⟩
  -- "."
  have hdot : Spec (Rule n) ({.slot k' j (.lock e .fill)} + {.slot k i (.lock d.up .extra)})
      (dirlink k' ['.'] j) fun y B => y = true ∧ B =
        {.slot k' j (.lock { e with slots := [⟨j, dot⟩] } .fill)} +
          {.slot k i (.lock d.up .extra)} := by
    refine spec_dirlink_none (by rw [hslots]; rfl) ?_
    rw [hslots, Nat.mod_eq_of_lt hj.2]
    exact (Spec.perform (.putDot k' j e hslots)).last fun y B hB hy => by rw [hB hy]
  refine hdot.bind ?_
  rintro _ _ ⟨rfl, rfl⟩
  rw [if_pos rfl, add_comm]
  refine spec_inum.seq ?_
  rintro _ _ ⟨rfl, rfl⟩
  rw [add_comm]
  -- ".."
  have hdotdot : Spec (Rule n)
      ({.slot k' j (.lock { e with slots := [⟨j, dot⟩] } .fill)} + {.slot k i (.lock d.up .extra)})
      (dirlink k' ['.', '.'] i) fun y B => y = true ∧ B =
        {.slot k' j (.lock (e.dots j i) .fill)} + {.slot k i (.lock d.up .extra)} := by
    refine spec_dirlink_none (by simp [lookup, sameName, dot, DIRSIZ]) ?_
    have hidx : [(⟨j, dot⟩ : Dirent)].findIdx (fun de => de.inum = 0) = 1 := by
      simp [List.findIdx_cons, hj.1.ne']
    rw [hidx, Nat.mod_eq_of_lt hgood.2.2.2.2]
    exact Spec.perform (.putDotdot k' k i j d.up { e with slots := [⟨j, dot⟩] } rfl hdir hnlink)
  refine hdotdot.bind ?_
  rintro _ _ ⟨rfl, rfl⟩
  rw [if_pos rfl]
  exact hf hnlink

/-- The end of `create`: the new inode gets its entry, and the directory is given up. -/
def createLink (dp ip : Slot) (name : Name) : Kernel (Option Slot) := do
  let inum ← run (.inum ip)
  let linked ← dirlink dp name inum
  if linked = true then
    iunlockput dp
    pure (some ip)
  else panic .createDirlink

/-- A new directory gets its name. -/
lemma spec_linkDir (hgood : Good i d) (hdir : d.type = .dir) (hl : lookup d.slots name = none)
    (hj : 0 < j ∧ j < 2 ^ 16) (he : e.type = .dir) (hnlink : 2 ≤ d.up.nlink.toNat) :
    Spec (Rule n) ({.slot k' j (.lock (e.dots j i) .fill)} + {.slot k i (.lock d.up .extra)})
      (createLink k k' name) fun y B => y = some k' ∧ ∃ e', Good j e' ∧ B = locked k' j e' := by
  have hi := hgood.2.2.2
  refine spec_inum.seq ?_
  rintro _ _ ⟨rfl, rfl⟩
  rw [add_comm]
  obtain ⟨x, hx, hfree⟩ := freeAt_findIdx (d := d.up) hgood hdir
  have hname := name_of_lookup_none (hgood.2.1 hdir) hi.1.ne' hl
  have hentry : Spec (Rule n)
      ({.slot k i (.lock d.up .extra)} + {.slot k' j (.lock (e.dots j i) .fill)})
      (dirlink k name j) fun y B => y = true ∧
      ∃ d', B = locked k i d' + locked k' j (e.dots j i) := by
    refine spec_dirlink_none hl ?_
    rw [hx, Nat.mod_eq_of_lt hj.2]
    exact (Spec.perform (.putDir k k' i j x d.up _ _ hfree hj.1.ne' hname hnlink rfl)).mono
      fun y B hB hy => ⟨_, hB hy⟩
  refine hentry.bind ?_
  rintro _ _ ⟨rfl, d', rfl⟩
  rw [if_pos rfl]
  refine spec_iunlockput.seqNext fun _ => ?_
  rw [zero_add]
  refine Spec.ret ⟨rfl, e.dots j i, ⟨?_, fun _ => ?_, fun hfile => absurd he hfile, hj⟩, rfl⟩
  · simp [Dinode.dots, he]
  · exact ⟨i, [], rfl, hi.1.ne', by simp⟩

/-- A new file gets its name. -/
lemma spec_linkFile (hgood : Good i d) (hj : 0 < j ∧ j < 2 ^ 16)
    (he : e.type ≠ .free ∧ e.type ≠ .dir)
    (hslots : e.slots = []) :
    Spec (Rule n) (locked k i d + (locked k' j e + {.credit j}))
      (createLink k k' name) fun y B => y = some k' ∧ ∃ e', Good j e' ∧ B = locked k' j e' := by
  have hfirst : locked k i d + (locked k' j e + {.credit j}) =
      locked k' j e + (locked k i d + {.credit j}) := by abel
  have hthen : locked k' j e + (locked k i d + {.credit j}) =
      (locked k i d + {.credit j}) + locked k' j e := by abel
  rw [hfirst]
  refine spec_inum.seq ?_
  rintro _ _ ⟨rfl, rfl⟩
  change Spec _ (locked k' j e + _) _ _
  rw [hthen]
  refine (spec_dirlink hgood hj).seq ?_
  rintro _ _ (⟨rfl, d', rfl⟩ | ⟨rfl, rfl⟩)
  · rw [if_pos rfl]
    refine spec_iunlockput.seqNext fun _ => ?_
    rw [zero_add]
    exact Spec.ret ⟨rfl, e, ⟨he.1, fun hdir => absurd hdir he.2, fun _ => hslots, hj⟩, rfl⟩
  · exact spec_panic (by decide)

/-- The new inode is locked, and the directory is given up. -/
lemma spec_createNew (hgood : Good i d) (hdir : d.type = .dir) (hl : lookup d.slots name = none)
    (htype : type ≠ .free) :
    Spec (Rule n) (locked k i d + {.slot k' j (.ref (some type))})
      (createNew k k' name type major minor)
      fun y B => y = some k' ∧ ∃ e, Good j e ∧ B = locked k' j e := by
  have hlock : Spec (Rule n) {.slot k' j (.ref (some type))} (ilock k') fun _ B =>
      0 < j ∧ j < 2 ^ 16 ∧ B = {.slot k' j (.lock { type := type } .new)} := by
    refine Spec.op (.acquiresleep k' j (some type)) ?_
    rintro _ _ rfl
    exact Spec.perform (.readInodeNew k' j type)
  rw [add_comm]
  refine hlock.seq ?_
  rintro _ _ ⟨hpos, hlt, rfl⟩
  by_cases hnew : type = .dir
  · refine Spec.opSeq (.initDir k' j _ major minor hnew) ?_
    rintro _ _ rfl
    rw [add_comm]
    simp only [if_pos hnew]
    exact spec_createDots hgood hdir ⟨hpos, hlt⟩ rfl (spec_linkDir hgood hdir hl ⟨hpos, hlt⟩ hnew)
  refine Spec.opSeq (.initFile k' j _ major minor hnew) ?_
  rintro _ _ rfl
  rw [add_comm]
  simp only [if_neg hnew]
  exact spec_linkFile hgood ⟨hpos, hlt⟩ ⟨htype, hnew⟩ rfl

/-- What `create` returns: an inode that is locked, if any. -/
def Created : Option Slot → Multiset Token → Prop
  | none, B => B = 0
  | some k, B => ∃ i d, Good i d ∧ B = locked k i d

lemma spec_create (htype : type ≠ .free) :
    Spec (Rule n) (ref k i) (create n k path type major minor) fun y B =>
      ∃ B', Created y B' ∧ B = B' + ref k i := by
  refine spec_namex.bind ?_
  rintro (_ | ⟨dp, name⟩) _ ⟨B', hB, rfl⟩
  · exact Spec.ret ⟨0, rfl, by rw [hB]⟩
  obtain ⟨i', rfl⟩ := hB
  refine Spec.frame (ref k i) ?_
  refine spec_ilock.bind ?_
  rintro _ _ ⟨d, hgood, rfl⟩
  refine (spec_dirlookup (.inl rfl)).bind ?_
  rintro _ _ ⟨hdir, ⟨rfl, hl, rfl⟩ | ⟨k', off, j, rfl, -, rfl⟩⟩
  · change Spec _ (locked dp i' d) _ _
    rw [← zero_add (locked dp i' d)]
    refine (spec_ialloc htype).seq ?_
    rintro k' _ ⟨j, rfl⟩
    rw [add_comm]
    refine (spec_createNew hgood hdir hl htype).mono ?_
    rintro _ _ ⟨rfl, e, he, rfl⟩
    exact ⟨j, e, he, rfl⟩
  refine spec_iunlockput.seqNext fun _ => ?_
  rw [zero_add]
  refine spec_ilock.bind ?_
  rintro _ _ ⟨e, he, rfl⟩
  refine spec_node.bind ?_
  rintro _ _ ⟨rfl, rfl⟩
  split_ifs
  · exact Spec.ret ⟨j, _, he, rfl⟩
  · refine spec_iunlockput.next fun _ => ?_
    exact Spec.ret rfl

/-! ### What a process owns between calls -/

/-- An open file with its inode. -/
def FdOwns : Option FileSlot → Multiset Token → Prop
  | none, B => B = 0
  | some f, B => ∃ k i, B = {.file f (some k)} + ref k i

/-- All open files. -/
def Fds (ofile : Fin NOFILE → Option FileSlot) (B : Multiset Token) : Prop :=
  ∃ R : Fin NOFILE → Multiset Token, B = ∑ fd, R fd ∧ ∀ fd, FdOwns (ofile fd) (R fd)

/-- The working directory; a process that has exited has none. -/
def CwdOwns : Option Slot → Multiset Token → Prop
  | none, B => B = 0
  | some k, B => ∃ i, B = ref k i

def Owns (p : Proc) (r : Multiset Token) : Prop :=
  ∃ A B, CwdOwns p.cwd A ∧ Fds p.ofile B ∧ r = A + B

/-! ### The calls -/

/-- The process has its working directory and files as before. -/
def Same (p p' : Proc) : Prop := p'.cwd = p.cwd ∧ p'.ofile = p.ofile

lemma spec_namei : Spec (Rule n) (ref k i) (namei k path) fun y B =>
    ∃ B', (y = none ∧ B' = 0 ∨ ∃ k' j, y = some k' ∧ B' = ref k' j) ∧ B = B' + ref k i := by
  refine spec_namex.bind ?_
  rintro (_ | ⟨k', name⟩) _ ⟨B', hB, rfl⟩
  · exact Spec.ret ⟨B', .inl ⟨rfl, hB⟩, rfl⟩
  · obtain ⟨j, rfl⟩ := hB
    exact Spec.ret ⟨_, .inr ⟨k', j, rfl, rfl⟩, rfl⟩

/-- `sys_mkdir` and `sys_mknod` unlock and give up what `create` returns. -/
lemma spec_createPut (htype : type ≠ .free) : Spec (Rule n) (ref k i) (do
        let ip ← create n k path type major minor
        match ip with
        | none => pure { p with a0 := -1 }
        | some ip => do
          iunlockput ip
          pure { p with a0 := 0 })
      fun p' B => Same p p' ∧ B = ref k i := by
  refine (spec_create htype).bind ?_
  rintro (_ | ip) _ ⟨B', hB, rfl⟩
  · exact Spec.ret ⟨⟨rfl, rfl⟩, by rw [hB, zero_add]⟩
  obtain ⟨j, d, -, rfl⟩ := hB
  refine spec_iunlockput.seqNext fun _ => ?_
  exact Spec.ret ⟨⟨rfl, rfl⟩, zero_add _⟩

lemma spec_linkBad : Spec (Rule n) (ref k i + {.credit i}) (linkBad p k) fun p' B =>
    Same p p' ∧ B = 0 := by
  refine spec_ilock.seq ?_
  rintro _ _ ⟨d, -, rfl⟩
  refine Spec.op (.downFile k i d) ?_
  rintro _ _ rfl
  refine spec_iunlockput.next fun _ => ?_
  exact Spec.ret ⟨⟨rfl, rfl⟩, rfl⟩

/-- `sys_link` once the link count has been incremented. -/
lemma spec_linkNew (hj : 0 < j ∧ j < 2 ^ 16) {new : List Char} :
    Spec (Rule n) (ref k i + (ref k' j + {.credit j})) (do
        let found ← nameiparent k new
        match found with
        | none => linkBad p k'
        | some (dp, name) => do
          ilock dp
          let inum ← run (.inum k')
          let linked ← dirlink dp name inum
          if linked = true then
            iunlockput dp
            iput k'
            pure { p with a0 := 0 }
          else
            iunlockput dp
            linkBad p k')
      fun p' B => Same p p' ∧ B = ref k i := by
  refine spec_namex.seq ?_
  rintro (_ | ⟨dp, name⟩) _ ⟨B', hB, rfl⟩
  · rw [show B' = 0 from hB, zero_add, add_comm]
    exact spec_linkBad.last fun p' B hp => ⟨hp.1, by rw [hp.2, zero_add]⟩
  obtain ⟨i', rfl⟩ := hB
  rw [add_assoc]
  refine spec_ilock.seq ?_
  rintro _ _ ⟨d, hgood, rfl⟩
  have hfirst : locked dp i' d + (ref k i + (ref k' j + {.credit j})) =
      ref k' j + ((locked dp i' d + {.credit j}) + ref k i) := by abel
  have hthen : ref k' j + ((locked dp i' d + {.credit j}) + ref k i) =
      (locked dp i' d + {.credit j}) + (ref k' j + ref k i) := by abel
  rw [hfirst]
  refine spec_inum.seq ?_
  rintro _ _ ⟨rfl, rfl⟩
  change Spec _ (ref k' j + _) _ _
  rw [hthen]
  refine (spec_dirlink hgood hj).seq ?_
  rintro _ _ (⟨rfl, d', rfl⟩ | ⟨rfl, rfl⟩)
  · rw [if_pos rfl]
    refine spec_iunlockput.seqNext fun _ => ?_
    rw [zero_add]
    refine spec_iput.seqNext fun _ => ?_
    exact Spec.ret ⟨⟨rfl, rfl⟩, zero_add _⟩
  -- the link count is decremented again
  have hbad : locked dp i' d + {.credit j} + (ref k' j + ref k i) =
      locked dp i' d + (ref k' j + {.credit j} + ref k i) := by abel
  rw [hbad, if_neg (by decide)]
  refine spec_iunlockput.seqNext fun _ => ?_
  rw [zero_add]
  exact spec_linkBad.last fun p' B hp => ⟨hp.1, by rw [hp.2, zero_add]⟩

lemma spec_sysLink {old new : List Char} :
    Spec (Rule n) (ref k i) (sysLink p k old new) fun p' B => Same p p' ∧ B = ref k i := by
  refine spec_namei.bind ?_
  rintro _ _ ⟨_, ⟨rfl, rfl⟩ | ⟨ip, j, rfl, rfl⟩, rfl⟩
  · exact Spec.ret ⟨⟨rfl, rfl⟩, zero_add _⟩
  refine spec_ilock.seq ?_
  rintro _ _ ⟨d, hgood, rfl⟩
  refine spec_node.seq ?_
  rintro _ _ ⟨rfl, rfl⟩
  split
  · refine spec_iunlockput.seqNext fun _ => ?_
    exact Spec.ret ⟨⟨rfl, rfl⟩, zero_add _⟩
  rename_i hdir
  refine Spec.opSeq (.upFile ip j d hdir) ?_
  rintro _ _ rfl
  rw [add_assoc]
  refine spec_iunlock.seqNext fun _ => ?_
  have hsplit : ref ip j + ({.credit j} + ref k i) = ref k i + (ref ip j + {.credit j}) := by abel
  rw [hsplit]
  exact spec_linkNew hgood.2.2.2

/-- An entry that `sys_unlink` erases is not "." or "..". -/
lemma namedAt_of_lookup {off : ℕ} (hgood : Good i d) (hdir : d.type = .dir)
    (hname : ¬ (sameName name ['.'] = true ∨ sameName name ['.', '.'] = true))
    (hl : lookup d.slots name = some (off, j)) : ∃ x, off = x + 2 ∧ NamedAt d x j ∧ j ≠ 0 := by
  obtain ⟨a, rest, hs, -, -⟩ := hgood.2.1 hdir
  obtain ⟨e, he, rfl, hne, hsame⟩ := lookup_some hl
  rw [hs] at he
  match off, he with
  | 0, he =>
    cases he
    exact absurd (.inl hsame) hname
  | 1, he =>
    cases he
    exact absurd (.inr hsame) hname
  | x + 2, he =>
    have hx : rest[x]? = some e := by simpa using he
    refine ⟨x, rfl, ⟨hdir, ?_, ?_⟩, hne⟩
    · simpa [hs] using (List.getElem?_eq_some_iff.1 hx).1.le
    · simp [hs, oldInum, hx]

lemma spec_unlinkBad : Spec (Rule n) (locked k i d) (unlinkBad p k) fun p' B =>
    Same p p' ∧ B = 0 := by
  refine spec_iunlockput.next fun _ => ?_
  exact Spec.ret ⟨⟨rfl, rfl⟩, rfl⟩

lemma spec_unlinkChecked {x : ℕ} (hx : NamedAt d x j) (hj : j ≠ 0) :
    Spec (Rule n) (locked k' j e + locked k i d) (unlinkChecked p k k' (x + 2) e) fun p' B =>
      Same p p' ∧ B = 0 := by
  rw [unlinkChecked]
  split
  · refine spec_iunlockput.seqNext fun _ => ?_
    rw [zero_add]
    exact spec_unlinkBad
  rename_i hempty
  rw [add_comm]
  by_cases hdir : e.type = .dir
  · have hzero : ∀ de ∈ e.slots.drop 2, de.inum = 0 := by simpa [hdir, isdirempty] using hempty
    refine Spec.op (.removeDir k k' i j x d e hx hj hdir hzero) ?_
    rintro written B hB
    split
    · rename_i hw
      rw [hB hw]
      refine Spec.opSeq (.downDir k i _) ?_
      rintro _ _ rfl
      refine spec_iunlockput.seqNext fun _ => ?_
      rw [zero_add]
      refine Spec.op (.downDir k' j e) ?_
      rintro _ _ rfl
      refine spec_iunlockput.next fun _ => ?_
      exact Spec.ret ⟨⟨rfl, rfl⟩, rfl⟩
    · exact spec_panic (by decide)
  · refine Spec.op (.removeFile k k' i j x d e hx hj hdir) ?_
    rintro written B hB
    split
    · rename_i hw
      rw [hB hw]
      refine spec_iunlockput.seqNext fun _ => ?_
      rw [zero_add]
      refine Spec.op (.downFile k' j e) ?_
      rintro _ _ rfl
      refine spec_iunlockput.next fun _ => ?_
      exact Spec.ret ⟨⟨rfl, rfl⟩, rfl⟩
    · exact spec_panic (by decide)

lemma spec_unlinkEntry {x : ℕ} (hx : NamedAt d x j) (hj : j ≠ 0) :
    Spec (Rule n) (locked k i d + ref k' j) (unlinkEntry p k k' (x + 2)) fun p' B =>
      Same p p' ∧ B = 0 := by
  rw [add_comm, unlinkEntry_eq]
  refine spec_ilock.seq ?_
  rintro _ _ ⟨e, hgood, rfl⟩
  refine spec_node.seq ?_
  rintro _ _ ⟨rfl, rfl⟩
  split
  · exact spec_panic (by decide)
  · exact spec_unlinkChecked hx hj

/-- `sys_unlink` by rules that extend those of the operations, with a specification of its end. -/
lemma spec_sysUnlink_of {q : Op → Prop}
    {R : (o : Op) → Multiset Token → (o.Result → Multiset Token → Prop) → Prop}
    (lift : ∀ {α : Type} {A : Multiset Token} {m : Kernel α} {Ψ : α → Multiset Token → Prop},
      Spec (Rule n) A m Ψ → m.Within q → Spec R A m Ψ) (hq : ∀ o : Op, o.basic = true → q o)
    (hentry : ∀ {k k' : Slot} {i j x : ℕ} {d : Dinode}, NamedAt d x j → j ≠ 0 →
      Spec R (locked k i d + ref k' j) (unlinkEntry p k k' (x + 2)) fun p' B =>
        Same p p' ∧ B = 0) :
    Spec R (ref k i) (sysUnlink p k path) fun p' B => Same p p' ∧ B = ref k i := by
  refine (lift spec_namex (within_namex hq _ _ _)).bind ?_
  rintro (_ | ⟨dp, name⟩) _ ⟨B', hB, rfl⟩
  · exact Spec.ret ⟨⟨rfl, rfl⟩, by rw [show B' = 0 from hB, zero_add]⟩
  obtain ⟨i', rfl⟩ := hB
  refine Spec.last (Ψ := fun p' B => Same p p' ∧ B = 0) ?_ fun p' B hp =>
    ⟨hp.1, by rw [hp.2, zero_add]⟩
  refine (lift spec_ilock (within_ilock hq dp)).bind ?_
  rintro _ _ ⟨d, hgood, rfl⟩
  split
  · exact lift spec_unlinkBad (within_unlinkBad hq dp p)
  rename_i hname
  refine (lift (spec_dirlookup (.inl rfl)) (within_dirlookup hq dp name)).bind ?_
  rintro _ _ ⟨hdir, ⟨rfl, -, rfl⟩ | ⟨k', off, j, rfl, hl, rfl⟩⟩
  · exact lift spec_unlinkBad (within_unlinkBad hq dp p)
  · obtain ⟨x, rfl, hx, hj⟩ := namedAt_of_lookup hgood hdir hname hl
    exact hentry hx hj

lemma spec_sysUnlink :
    Spec (Rule n) (ref k i) (sysUnlink p k path) fun p' B => Same p p' ∧ B = ref k i :=
  spec_sysUnlink_of (q := fun _ => True) (fun h _ => h) (fun _ _ => trivial) spec_unlinkEntry

lemma spec_sysChdir : Spec (Rule n) (ref k i) (sysChdir p k path) fun p' B =>
      Same p p' ∧ B = ref k i ∨ ∃ k' j, p'.cwd = some k' ∧ p'.ofile = p.ofile ∧ B = ref k' j := by
  refine spec_namei.bind ?_
  rintro _ _ ⟨_, ⟨rfl, rfl⟩ | ⟨ip, j, rfl, rfl⟩, rfl⟩
  · exact Spec.ret (.inl ⟨⟨rfl, rfl⟩, zero_add _⟩)
  refine spec_ilock.seq ?_
  rintro _ _ ⟨d, -, rfl⟩
  refine spec_node.seq ?_
  rintro _ _ ⟨rfl, rfl⟩
  split
  · refine spec_iunlockput.seqNext fun _ => ?_
    exact Spec.ret (.inl ⟨⟨rfl, rfl⟩, zero_add _⟩)
  refine spec_iunlock.seqNext fun _ => ?_
  rw [add_comm]
  refine spec_iput.seqNext fun _ => ?_
  exact Spec.ret (.inr ⟨ip, j, rfl, rfl, zero_add _⟩)

lemma owns_of_same {p' : Proc} {B : Multiset Token} (hcwd : p.cwd = some k) (h : Fds p.ofile B)
    (hp : Same p p') : Owns p' (ref k i + B) := by
  refine ⟨ref k i, B, ?_, by rwa [hp.2], rfl⟩
  rw [hp.1, hcwd]
  exact ⟨i, rfl⟩

end Hexv6.Fs
