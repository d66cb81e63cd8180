import Hexv6.Fs.Sound

/-!
# What lookups own

Specifications of the functions of `kernel/fs.c` that the system calls are made of: locking
and giving up inodes, directories and paths.
-/

namespace Hexv6.Fs

open Lib Multiset

variable {n : ℕ} {k k' : Slot} {i j x : ℕ} {d e : Dinode} {st : Stage} {A C : Multiset Token}
  {name : Name} {l : List Dirent}
  {Φ : Multiset Token → Prop} {path : List Char} {type : IType} {parent : Bool}

/-- A reference to an inode. -/
def ref (k : Slot) (i : ℕ) : Multiset Token := {.slot k i (.ref none)}

/-- A reference to an inode with its lock. -/
def locked (k : Slot) (i : ℕ) (d : Dinode) : Multiset Token := {.slot k i (.lock d .plain)}

/-! ### Inodes -/

lemma spec_panic {α : Type} {e : Panic} (he : e ≠ .noType) {Ψ : α → Multiset Token → Prop} :
    Spec (Rule n) A (panic e) Ψ :=
  fun F => ⟨_, ⟨A, F, _, .panic e he A, rfl, rfl⟩, fun x => x.elim⟩

lemma spec_ilock : Spec (Rule n) (ref k i) (ilock k) fun _ B => ∃ d, Good i d ∧
    B = locked k i d := by
  refine Spec.op (.acquiresleep k i none) ?_
  rintro _ _ rfl
  exact Spec.perform (.readInode k i)

lemma spec_node : Spec (Rule n) {.slot k i (.lock d st)} (run (.node k)) fun x B =>
      d = x ∧ B = {.slot k i (.lock d st)} :=
  (Spec.perform (.node k i d st)).mono fun _ _ hx => ⟨hx.1.symm, hx.2⟩

lemma spec_inum {m : Mode} :
    Spec (Rule n) {.slot k i m} (run (.inum k)) fun x B => i = x ∧ B = {.slot k i m} :=
  (Spec.perform (.inum k i m)).mono fun _ _ hx => ⟨hx.1.symm, hx.2⟩

lemma spec_iunlock : Spec (Rule n) (locked k i d) (run (.iunlock k)) fun _ B => B = ref k i :=
  Spec.perform (.iunlock k i d)

lemma spec_iput : Spec (Rule n) (ref k i) (iput k) fun _ B => B = 0 := by
  refine Spec.op (.iputTest k i) ?_
  rintro _ _ (⟨rfl, rfl⟩ | ⟨rfl, rfl⟩)
  · refine Spec.op (.itrunc k i false) ?_
    rintro _ _ rfl
    refine Spec.op (.ifree k i) ?_
    rintro _ _ rfl
    refine Spec.op (.releasesleep k i) ?_
    rintro _ _ rfl
    exact Spec.perform (.iputDrop k i)
  · exact Spec.ret rfl

lemma spec_iunlockput : Spec (Rule n) (locked k i d) (iunlockput k) fun _ B => B = 0 := by
  refine spec_iunlock.next fun _ => ?_
  exact spec_iput

/-- `ialloc` returns a reference to an inode that nobody else knows. -/
lemma spec_iallocFrom (htype : type ≠ .free) {inums : List ℕ}
    (hi : ∀ i ∈ inums, 0 < i ∧ i < n) :
    Spec (Rule n) 0 (iallocFrom type inums) fun k B => ∃ i, B = {.slot k i (.ref (some type))} := by
  induction inums with
  | nil => exact spec_panic (by decide)
  | cons inum inums ih =>
    refine Spec.op (.iallocTry inum type (hi inum (by simp)) htype) ?_
    rintro _ _ (⟨rfl, rfl⟩ | ⟨rfl, rfl⟩)
    · exact (Spec.perform (.igetNew inum type)).mono fun k B hB => ⟨inum, hB⟩
    · exact ih fun i h => hi i (by simp [h])

lemma spec_ialloc (htype : type ≠ .free) :
    Spec (Rule n) 0 (ialloc n type) fun k B => ∃ i, B = {.slot k i (.ref (some type))} := by
  refine spec_iallocFrom htype fun i hi => ?_
  rw [List.mem_range'_1] at hi
  omega

/-! ### Directories -/

lemma lookup_some {off : ℕ} (h : lookup l name = some (off, j)) :
    ∃ e, l[off]? = some e ∧ e.inum = j ∧ j ≠ 0 ∧ sameName name e.name = true := by
  induction l generalizing off with
  | nil => cases h
  | cons a l ih =>
    rw [lookup] at h
    split_ifs at h with ha
    · cases h
      exact ⟨a, rfl, rfl, ha⟩
    obtain ⟨⟨off', j'⟩, hl, heq⟩ := Option.map_eq_some_iff.1 h
    obtain ⟨rfl, rfl⟩ := Prod.mk.inj heq
    obtain ⟨e, he, hrest⟩ := ih hl
    exact ⟨e, by simpa using he, hrest⟩

lemma lookup_none (h : lookup l name = none) :
    ∀ e ∈ l, e.inum ≠ 0 → sameName name e.name = false := by
  induction l with
  | nil => simp
  | cons a l ih =>
    rw [lookup] at h
    split_ifs at h with ha
    rw [Option.map_eq_none_iff] at h
    intro e he hne
    rcases List.mem_cons.1 he with rfl | he
    · by_contra hsame
      exact ha ⟨hne, by simpa using hsame⟩
    · exact ih h e he hne

/-- The inode that is found comes with a reference. -/
lemma spec_dirlookup (hst : st = .plain ∨ lookup d.slots name = none) :
    Spec (Rule n) {.slot k i (.lock d st)} (dirlookup k name) fun x B =>
      d.type = .dir ∧ (x = none ∧ lookup d.slots name = none ∧ B = {.slot k i (.lock d st)} ∨
          ∃ k' off j, x = some (k', off) ∧ lookup d.slots name = some (off, j) ∧
            B = {.slot k i (.lock d st)} + ref k' j) := by
  refine spec_node.bind ?_
  rintro _ _ ⟨rfl, rfl⟩
  split_ifs with hdir
  · exact spec_panic (by decide)
  rw [ne_eq, not_not] at hdir
  split
  · rename_i off inum hl
    obtain ⟨e, he, rfl, hne, -⟩ := lookup_some hl
    obtain rfl : st = .plain := hst.resolve_right (by simp [hl])
    refine Spec.op (.igetEntry k i _ e (List.mem_of_getElem? he) hne) ?_
    rintro k' _ rfl
    exact Spec.ret ⟨hdir, .inr ⟨k', off, e.inum, rfl, hl, rfl⟩⟩
  · rename_i hl
    exact Spec.ret ⟨hdir, .inl ⟨rfl, hl, rfl⟩⟩

/-- A name that is not in a directory is not "." or "..". -/
lemma name_of_lookup_none (hcomp : Complete i d.slots) (hi : i ≠ 0)
    (hl : lookup d.slots name = none) :
    name.take DIRSIZ ≠ dot ∧ name.take DIRSIZ ≠ dotdot := by
  obtain ⟨a, rest, hs, ha, -⟩ := hcomp
  have hdot := lookup_none hl ⟨i, dot⟩ (by simp [hs]) hi
  have hdotdot := lookup_none hl ⟨a, dotdot⟩ (by simp [hs]) ha
  simp only [sameName, decide_eq_false_iff_not] at hdot hdotdot
  exact ⟨hdot, hdotdot⟩

lemma findIdx_free (l : List Dirent) : l.findIdx (fun de => de.inum = 0) ≤ l.length ∧
      oldInum l (l.findIdx fun de => de.inum = 0) = 0 := by
  refine ⟨List.findIdx_le_length, ?_⟩
  rw [oldInum]
  cases h : l[l.findIdx fun de => de.inum = 0]? with
  | none => rfl
  | some de =>
    obtain ⟨hlt, hget⟩ := List.getElem?_eq_some_iff.1 h
    have hzero := List.findIdx_getElem (w := hlt)
    rw [hget] at hzero
    simpa using hzero

/-- `dirlink` looks for a free position after "." and "..". -/
lemma freeAt_findIdx (hgood : Good i d) (hdir : d.type = .dir) :
    ∃ x, d.slots.findIdx (fun de => de.inum = 0) = x + 2 ∧ FreeAt d x := by
  obtain ⟨-, hcomp, -, hi, -⟩ := hgood
  obtain ⟨a, rest, hs, ha, -⟩ := hcomp hdir
  obtain ⟨hle, hold⟩ := findIdx_free rest
  refine ⟨rest.findIdx fun de => de.inum = 0, ?_, hdir, ?_, ?_⟩
  · simp [hs, List.findIdx_cons, hi.ne', ha]
  · simpa [hs] using hle
  · simpa [hs] using hold

/-- The end of `dirlink`, where the entry is written. -/
lemma spec_put (hw : Spec (Rule n) ({.slot k i (.lock d st)} + C)
      (run (.writei k (d.slots.findIdx fun de => de.inum = 0) ⟨j % 2 ^ 16, name.take DIRSIZ⟩))
      fun y B => y = true → Φ B) :
    Spec (Rule n) ({.slot k i (.lock d st)} + C) (do
        let d ← run (.node k)
        let off := d.slots.findIdx fun de => de.inum = 0
        let written ← run (.writei k off ⟨j % 2 ^ 16, name.take DIRSIZ⟩)
        if written = true then pure true else panic .dirlink)
      fun y B => y = true ∧ Φ B := by
  refine spec_node.seq ?_
  rintro _ _ ⟨rfl, rfl⟩
  refine hw.bind ?_
  intro y B hB
  split_ifs with hy
  · exact Spec.ret ⟨rfl, hB hy⟩
  · exact spec_panic (by decide)

/-- `dirlink` of a name that is not in the directory. -/
lemma spec_dirlink_none (hl : lookup d.slots name = none)
    (hw : Spec (Rule n) ({.slot k i (.lock d st)} + C)
      (run (.writei k (d.slots.findIdx fun de => de.inum = 0) ⟨j % 2 ^ 16, name.take DIRSIZ⟩))
      fun y B => y = true → Φ B) :
    Spec (Rule n) ({.slot k i (.lock d st)} + C) (dirlink k name j) fun y B => y = true ∧ Φ B := by
  refine (spec_dirlookup (.inr hl)).seq ?_
  rintro _ _ ⟨-, ⟨rfl, -, rfl⟩ | ⟨k', off, j', -, hl', -⟩⟩
  · exact spec_put hw
  · simp [hl] at hl'

/-- `dirlink` for a file whose link count has been incremented. -/
lemma spec_dirlink (hgood : Good i d) (hj : 0 < j ∧ j < 2 ^ 16) :
    Spec (Rule n) (locked k i d + {.credit j}) (dirlink k name j) fun y B =>
      y = true ∧ (∃ d', B = locked k i d') ∨ y = false ∧ B = locked k i d + {.credit j} := by
  refine (spec_dirlookup (.inl rfl)).seq ?_
  rintro _ _ ⟨hdir, ⟨rfl, hl, rfl⟩ | ⟨k', off, j', rfl, -, rfl⟩⟩
  · obtain ⟨x, hx, hfree⟩ := freeAt_findIdx hgood hdir
    have hname := name_of_lookup_none (hgood.2.1 hdir) hgood.2.2.2.1.ne' hl
    refine (spec_put ?_).mono fun y B => .inl
    rw [hx, Nat.mod_eq_of_lt hj.2]
    exact (Spec.perform (.putFile k i j x d _ hfree hj.1.ne' hname)).mono
      fun y B hB hy => ⟨_, hB hy⟩
  -- the name is there already
  have hsplit : {.slot k i (.lock d .plain)} + ref k' j' + {.credit j} =
      ref k' j' + (locked k i d + {.credit j}) := by
    rw [locked]
    abel
  rw [hsplit]
  refine spec_iput.seqNext fun _ => ?_
  rw [zero_add]
  exact Spec.ret (.inr ⟨rfl, rfl⟩)

/-! ### Paths -/

/-- Every element makes the path shorter, so the loop of `namex` has turns enough. -/
lemma skipelem_length {path rest : List Char} (h : skipelem path = some (name, rest)) :
    rest.length < path.length := by
  simp only [skipelem] at h
  split_ifs at h with hs
  obtain ⟨-, rfl⟩ := Prod.mk.inj (Option.some.inj h)
  obtain ⟨c, s, hcs⟩ := List.exists_cons_of_ne_nil hs
  have hc : c ≠ '/' := by
    have hhead := List.head_dropWhile_not (p := fun c : Char => decide (c = '/')) hs
    simpa [hcs] using hhead
  have hle : ∀ (q : Char → Bool) (l : List Char), (l.dropWhile q).length ≤ l.length := fun q l =>
    (List.dropWhile_suffix q).length_le
  have hdrop : ((c :: s).dropWhile fun c => decide (c ≠ '/')).length ≤ s.length := by
    rw [List.dropWhile_cons_of_pos (by simpa using hc)]
    exact hle _ _
  calc _ ≤ ((path.dropWhile fun c => decide (c = '/')).dropWhile fun c =>
    decide (c ≠ '/')).length :=
        hle _ _
    _ ≤ s.length := by rwa [hcs]
    _ < (path.dropWhile fun c => decide (c = '/')).length := by simp [hcs]
    _ ≤ path.length := hle _ _

/-- What comes with an inode that was looked up. -/
def Found : Option (Slot × Name) → Multiset Token → Prop
  | none, B => B = 0
  | some (k, _), B => ∃ i, B = ref k i

lemma spec_namexLoop {fuel : ℕ} (hfuel : path.length < fuel) :
    Spec (Rule n) (ref k i) (namexLoop parent fuel path name k) Found := by
  induction fuel generalizing path name k i with
  | zero => omega
  | succ fuel ih =>
    rw [namexLoop]
    cases hskip : skipelem path with
    | none =>
      cases parent with
      | true =>
        refine spec_iput.next fun _ => ?_
        exact Spec.ret rfl
      | false => exact Spec.ret ⟨i, rfl⟩
    | some y =>
      obtain ⟨name', path'⟩ := y
      have hlen := skipelem_length hskip
      refine spec_ilock.bind ?_
      rintro _ _ ⟨d, hgood, rfl⟩
      refine spec_node.bind ?_
      rintro _ _ ⟨rfl, rfl⟩
      split_ifs with hdir hlast
      · refine spec_iunlockput.next fun _ => ?_
        exact Spec.ret rfl
      · refine spec_iunlock.next fun _ => ?_
        exact Spec.ret ⟨i, rfl⟩
      refine (spec_dirlookup (.inl rfl)).bind ?_
      rintro _ _ ⟨-, ⟨rfl, -, rfl⟩ | ⟨k', off, j, rfl, -, rfl⟩⟩
      · refine spec_iunlockput.next fun _ => ?_
        exact Spec.ret rfl
      refine spec_iunlockput.seqNext fun _ => ?_
      rw [zero_add]
      exact ih (by omega)

/-- A lookup starts at the root or at the working directory, to which the process keeps its
reference. -/
lemma spec_namex :
    Spec (Rule n) (ref k i) (namex k path parent) fun y B => ∃ B', Found y B' ∧
    B = B' + ref k i := by
  rw [namex]
  split_ifs
  · rw [← zero_add (ref k i)]
    refine Spec.opSeq .igetRoot ?_
    rintro k' _ rfl
    exact (spec_namexLoop (Nat.lt_succ_self _)).frame _
  refine Spec.op (.idup k i) ?_
  rintro _ _ rfl
  exact (spec_namexLoop (Nat.lt_succ_self _)).frame _

end Hexv6.Fs
