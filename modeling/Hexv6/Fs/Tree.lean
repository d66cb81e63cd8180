import Hexv6.Lib.Count
import Hexv6.Fs.Inode

/-!
# The directory tree

What the directories on a disk look like while system calls are under way.  Every directory
starts with the entries "." and ".."; the other entries, `entries`, form the tree.  The tree
is described by `Tree`: entries name allocated inodes, a directory is named at most once and
then by the directory that its ".." names, and only directories that are the root or are
named themselves, the ones that are `Alive`, have entries or are named by some "..".

`linkCount` is what the kernel keeps in `nlink`: the entries that name the inode, and for a
directory also its subdirectories, whose ".." name it.  For every way in which the kernel
changes the disk there is a lemma that keeps `Tree` and one that says how the counts change.
-/

namespace Hexv6.Fs

open Lib

def dot : Name := ['.']
def dotdot : Name := ['.', '.']

variable {n : ℕ} {D D' : ℕ → Dinode} {d i j k : ℕ} {de : Dirent} {l : List Dirent} {e : Dirent}

/-! ### Writing one entry -/

@[simp] lemma putSlot_cons_succ (a : Dirent) :
    putSlot (a :: l) (k + 1) de = a :: putSlot l k de := by
  simp only [putSlot, List.length_cons, Nat.add_lt_add_iff_right]
  split_ifs <;> rfl

lemma mem_putSlot (h : e ∈ putSlot l k de) : e = de ∨ e ∈ l := by
  rw [putSlot] at h
  split_ifs at h
  · exact (List.mem_or_eq_of_mem_set h).symm
  · simpa [or_comm] using h

/-- The inode number in the entry that is overwritten. -/
def oldInum (l : List Dirent) (k : ℕ) : ℕ := (l[k]?.map Dirent.inum).getD 0

lemma countP_putSlot (de : Dirent) {q : ℕ → Bool} (hq : q 0 = false) (hk : k ≤ l.length) :
    (putSlot l k de).countP (fun e => q e.inum) + (q (oldInum l k)).toNat =
      l.countP (fun e => q e.inum) + (q de.inum).toNat := by
  have hcons : ∀ (a : Dirent) l,
      (a :: l).countP (fun e => q e.inum) = l.countP (fun e => q e.inum) + (q a.inum).toNat := by
    intro a l
    rw [List.countP_cons]
    cases q a.inum <;> rfl
  induction l generalizing k with
  | nil =>
    obtain rfl : k = 0 := by simpa using hk
    simp [putSlot, oldInum, hq, hcons]
  | cons a l ih =>
    cases k with
    | zero =>
      have hset : putSlot (a :: l) 0 de = de :: l := by simp [putSlot]
      have hold : oldInum (a :: l) 0 = a.inum := rfl
      rw [hset, hold, hcons, hcons]
      omega
    | succ k =>
      have hold : oldInum (a :: l) (k + 1) = oldInum l k := by simp [oldInum]
      have hrec := ih (by simpa using hk)
      rw [putSlot_cons_succ, hold, hcons, hcons]
      omega

/-! ### Names and link counts -/

/-- The entries of a directory besides "." and "..". -/
def entries (D : ℕ → Dinode) (d : ℕ) : List Dirent := (D d).slots.drop 2

/-- The number of entries that name the inode `i`. -/
def named (n : ℕ) (D : ℕ → Dinode) (i : ℕ) : ℕ :=
  ∑ d ∈ Finset.range n, (entries D d).countP fun e => decide (e.inum = i)

/-- The number of subdirectories. -/
def subdirs (D : ℕ → Dinode) (d : ℕ) : ℕ :=
  (entries D d).countP fun e => decide ((D e.inum).type = .dir)

/-- The number of links to an inode; the root is never removed. -/
def linkCount (n : ℕ) (D : ℕ → Dinode) (i : ℕ) : ℕ :=
  (if i = ROOTINO then 1 else 0) + named n D i + subdirs D i

/-- The inode is the root or some entry names it. -/
def Alive (n : ℕ) (D : ℕ → Dinode) (i : ℕ) : Prop := i = ROOTINO ∨ named n D i ≠ 0

/-- The entries of a directory that has been filled in. -/
def Complete (i : ℕ) (slots : List Dirent) : Prop :=
  ∃ a rest, slots = ⟨i, dot⟩ :: ⟨a, dotdot⟩ :: rest ∧ a ≠ 0 ∧
    ∀ e ∈ rest, e.inum ≠ 0 → e.name ≠ dot ∧ e.name ≠ dotdot

/-- The directories form a tree. -/
structure Tree (n : ℕ) (D : ℕ → Dinode) : Prop where
  alloc : ∀ i, (D i).type ≠ .free → 0 < i ∧ i < n
  slots : ∀ i, (D i).type ≠ .dir → (D i).slots = []
  shape : ∀ i, (D i).type = .dir →
    (D i).slots = [] ∨ (D i).slots = [⟨i, dot⟩] ∨ Complete i (D i).slots
  up : ∀ i a, (D i).slots[1]? = some ⟨a, dotdot⟩ → (D a).type = .dir ∧ Alive n D a
  entry : ∀ d, ∀ e ∈ entries D d, e.inum ≠ 0 → (D e.inum).type ≠ .free ∧ Alive n D d ∧
    ((D e.inum).type = .dir → (D e.inum).slots[1]? = some ⟨d, dotdot⟩)
  root : (D ROOTINO).type = .dir ∧ (D ROOTINO).slots[1]? = some ⟨ROOTINO, dotdot⟩ ∧
    named n D ROOTINO = 0
  once : ∀ i, (D i).type = .dir → named n D i ≤ 1

/-- Every entry of every directory names an allocated inode. -/
def NoDangling (D : ℕ → Dinode) : Prop :=
  ∀ d, (D d).type = .dir → ∀ e ∈ (D d).slots, e.inum ≠ 0 → (D e.inum).type ≠ .free

theorem Tree.noDangling (h : Tree n D) : NoDangling D := by
  intro d hd e he hne
  rcases h.shape d hd with hs | hs | ⟨a, rest, hs, -, -⟩
  · simp [hs] at he
  · obtain rfl : e = ⟨d, dot⟩ := by simpa [hs] using he
    simp [hd]
  have hup := h.up d a (by rw [hs]; rfl)
  rw [hs, List.mem_cons, List.mem_cons] at he
  rcases he with rfl | rfl | he
  · simp [hd]
  · simp [hup.1]
  · exact (h.entry d e (by rwa [entries, hs]) hne).1

/-- What some entry names, is counted. -/
lemma named_ne_zero (hd : d < n) (he : e ∈ entries D d) : named n D e.inum ≠ 0 := by
  intro h0
  have hzero := (Finset.sum_eq_zero_iff.1 h0) d (Finset.mem_range.2 hd)
  rw [List.countP_eq_zero] at hzero
  exact hzero e he (by simp)

/-- What is counted, is named by some entry. -/
lemma exists_of_named_ne_zero (h : named n D i ≠ 0) : ∃ d < n, ∃ e ∈ entries D d, e.inum = i := by
  obtain ⟨d, hd, hne⟩ := Finset.exists_ne_zero_of_sum_ne_zero h
  obtain ⟨e, he, hei⟩ := List.countP_pos_iff.1 (Nat.pos_of_ne_zero hne)
  exact ⟨d, Finset.mem_range.1 hd, e, he, by simpa using hei⟩

section

variable (h : Tree n D)
include h

lemma Tree.zero_not_dir : decide ((D 0).type = .dir) = false := by
  rw [decide_eq_false_iff_not]
  intro h0
  exact absurd (h.alloc 0 (by simp [h0])).1 (by simp)

lemma Tree.dir_of_mem (he : e ∈ entries D d) : (D d).type = .dir := by
  by_contra hd
  simp [entries, h.slots d hd] at he

lemma Tree.lt_of_mem (he : e ∈ entries D d) : d < n :=
  (h.alloc d (by simp [h.dir_of_mem he])).2

lemma Tree.named_of_mem (he : e ∈ entries D d) : named n D e.inum ≠ 0 :=
  named_ne_zero (h.lt_of_mem he) he

/-- A free inode is not named. -/
lemma Tree.not_alive_of_free (hi : (D i).type = .free) (h0 : i ≠ 0) :
    ¬ Alive n D i := by
  rintro (rfl | hne)
  · simp [h.root.1] at hi
  · obtain ⟨d, -, e, he, rfl⟩ := exists_of_named_ne_zero hne
    exact (h.entry d e he h0).1 hi

/-- A directory with an entry in it is alive, and so is an inode with links. -/
lemma Tree.alive_of_linkCount (hi : linkCount n D i ≠ 0) : Alive n D i := by
  by_contra hdead
  rw [Alive, not_or, not_not] at hdead
  have hsub : subdirs D i ≠ 0 := by
    intro h0
    simp [linkCount, hdead.1, hdead.2, h0] at hi
  obtain ⟨e, he, hdir⟩ := List.countP_pos_iff.1 (Nat.pos_of_ne_zero hsub)
  have hdir : (D e.inum).type = .dir := by simpa using hdir
  have hne : e.inum ≠ 0 := by
    have := (h.alloc e.inum (by simp [hdir])).1
    omega
  exact (h.entry i e he hne).2.1.elim hdead.1 fun hn => hn hdead.2

end

lemma linkCount_ne_zero (h : Alive n D i) : linkCount n D i ≠ 0 := by
  rcases h with rfl | h
  · simp [linkCount]
  · rw [linkCount]
    omega

/-! ### Fields that the tree does not depend on -/

lemma named_congr (h : ∀ d, entries D' d = entries D d) : named n D' i = named n D i := by
  simp only [named, h]

lemma alive_congr (h : ∀ d, entries D' d = entries D d) : Alive n D' i ↔ Alive n D i := by
  rw [Alive, Alive, named_congr h]

/-- The same types and entries. -/
def SameTree (D D' : ℕ → Dinode) : Prop :=
  ∀ i, (D' i).type = (D i).type ∧ (D' i).slots = (D i).slots

lemma SameTree.entries (h : SameTree D D') (d : ℕ) : entries D' d = entries D d := by
  rw [Fs.entries, (h d).2, Fs.entries]

lemma SameTree.linkCount (h : SameTree D D') : linkCount n D' i = linkCount n D i := by
  rw [Fs.linkCount, Fs.linkCount, named_congr h.entries, subdirs, subdirs, h.entries]
  simp only [(h _).1]

lemma SameTree.tree (h : SameTree D D') (hT : Tree n D) : Tree n D' where
  alloc i hi := hT.alloc i (by rwa [← (h i).1])
  slots i hi := by
    rw [(h i).2]
    exact hT.slots i (by rwa [← (h i).1])
  shape i hi := by
    rw [(h i).2]
    exact hT.shape i (by rwa [← (h i).1])
  up i a hi := by
    rw [(h i).2] at hi
    rw [(h a).1, alive_congr h.entries]
    exact hT.up i a hi
  entry d e he hne := by
    rw [h.entries] at he
    rw [(h _).1, (h _).2, alive_congr h.entries]
    exact hT.entry d e he hne
  root := by
    rw [(h _).1, (h _).2, named_congr h.entries]
    exact hT.root
  once i hi := by
    rw [named_congr h.entries]
    exact hT.once i (by rwa [← (h i).1])

/-! ### An inode without entries is allocated, truncated or freed -/

section Blank

variable (hT : Tree n D) (hoff : ∀ j, j ≠ i → D' j = D j) (hdead : ¬ Alive n D i)
  (hslots : (D' i).slots = [])

include hT hoff hdead hslots

/-- The directory had no entries before either. -/
lemma blank_entries (d : ℕ) : ∀ e, e.inum ≠ 0 → (e ∈ entries D' d ↔ e ∈ entries D d) := by
  intro e hne
  rcases eq_or_ne d i with rfl | hd
  · have hnot : e ∉ entries D d := fun he => hdead (hT.entry d e he hne).2.1
    have hnil : entries D' d = [] := by simp [entries, hslots]
    simp [hnot, hnil]
  · rw [entries, hoff d hd, entries]

lemma blank_countP {q : ℕ → Bool} (hq : q 0 = false) (d : ℕ) :
    (entries D' d).countP (fun e => q e.inum) = (entries D d).countP fun e => q e.inum := by
  rcases eq_or_ne d i with rfl | hd
  · have hzero : (entries D d).countP (fun e => q e.inum) = 0 := by
      rw [List.countP_eq_zero]
      intro e he hqe
      refine hdead (hT.entry d e he ?_).2.1
      rintro h0
      simp [h0, hq] at hqe
    rw [hzero]
    simp [entries, hslots]
  · rw [entries, hoff d hd, entries]

lemma blank_named (hj : j ≠ 0) : named n D' j = named n D j := by
  refine Finset.sum_congr rfl fun d _ => ?_
  exact blank_countP (q := fun x => decide (x = j)) hT hoff hdead hslots (by simpa using hj.symm) d

lemma blank_alive (hj : j ≠ 0) : Alive n D' j ↔ Alive n D j := by
  rw [Alive, Alive, blank_named hT hoff hdead hslots hj]

lemma blank_linkCount (hj : j ≠ i) (hj₀ : j ≠ 0) : linkCount n D' j = linkCount n D j := by
  have hent : entries D' j = entries D j := by rw [entries, hoff j hj, entries]
  have hsub : subdirs D' j = subdirs D j := by
    rw [subdirs, subdirs, hent]
    refine List.countP_congr fun e he => ?_
    have hei : e.inum ≠ i := fun hei => hdead (.inr (hei ▸ hT.named_of_mem he))
    rw [hoff e.inum hei]
  rw [linkCount, linkCount, blank_named hT hoff hdead hslots hj₀, hsub]

lemma blank_linkCount_self (hi : i ≠ 0) : linkCount n D' i = 0 := by
  have hsub : subdirs D' i = 0 := by simp [subdirs, entries, hslots]
  have hnamed : named n D' i = 0 := by
    rw [blank_named hT hoff hdead hslots hi]
    by_contra hne
    exact hdead (.inr hne)
  rw [linkCount, hsub, hnamed, if_neg fun hr => hdead (.inl hr)]

lemma blank_tree (halloc : (D' i).type ≠ .free → 0 < i ∧ i < n) : Tree n D' := by
  have hroot : ROOTINO ≠ i := fun hr => hdead (.inl hr.symm)
  have hne : ∀ {a}, Alive n D a → a ≠ i := fun ha hai => hdead (hai ▸ ha)
  refine
    { alloc := fun j hj => ?_, slots := fun j hj => ?_, shape := fun j hj => ?_
      up := fun j a hj => ?_, entry := fun d e he he0 => ?_, root := ?_, once := fun j hj => ?_ }
  · rcases eq_or_ne j i with rfl | hji
    · exact halloc hj
    · exact hT.alloc j (by rwa [hoff j hji] at hj)
  · rcases eq_or_ne j i with rfl | hji
    · exact hslots
    · rw [hoff j hji] at hj ⊢
      exact hT.slots j hj
  · rcases eq_or_ne j i with rfl | hji
    · exact .inl hslots
    · rw [hoff j hji] at hj ⊢
      exact hT.shape j hj
  · have hji : j ≠ i := by
      rintro rfl
      simp [hslots] at hj
    rw [hoff j hji] at hj
    obtain ⟨hdir, ha⟩ := hT.up j a hj
    have ha0 : a ≠ 0 := ((hT.alloc a (by simp [hdir])).1).ne'
    rw [hoff a (hne ha), blank_alive hT hoff hdead hslots ha0]
    exact ⟨hdir, ha⟩
  · rw [blank_entries hT hoff hdead hslots d e he0] at he
    obtain ⟨hfree, halive, hup⟩ := hT.entry d e he he0
    have hd0 : d ≠ 0 := ((hT.alloc d (by simp [hT.dir_of_mem he])).1).ne'
    rw [hoff e.inum (hne (.inr (hT.named_of_mem he))), blank_alive hT hoff hdead hslots hd0]
    exact ⟨hfree, halive, hup⟩
  · rw [hoff ROOTINO hroot, blank_named hT hoff hdead hslots (by decide)]
    exact hT.root
  · rcases eq_or_ne j 0 with rfl | hj0
    · rcases eq_or_ne 0 i with rfl | hi
      · exact absurd (halloc (by simp [hj])).1 (by simp)
      · rw [hoff 0 hi] at hj
        exact absurd (hT.alloc 0 (by simp [hj])).1 (by simp)
    rw [blank_named hT hoff hdead hslots hj0]
    rcases eq_or_ne j i with rfl | hji
    · by_contra hle
      exact hdead (.inr (by omega))
    · exact hT.once j (by rwa [hoff j hji] at hj)

end Blank

/-! ### A new directory gets "." and ".." -/

section Dots

variable (hT : Tree n D) (hoff : ∀ j, j ≠ i → D' j = D j) (htype : (D' i).type = (D i).type)
  (hold : (D i).slots.length < 2) (hnew : (D' i).slots.length ≤ 2)

include hoff hold hnew in
lemma dots_entries (d : ℕ) : entries D' d = entries D d := by
  rcases eq_or_ne d i with rfl | hd
  · rw [entries, entries, List.drop_eq_nil_of_le hnew, List.drop_eq_nil_of_le (by omega)]
  · rw [entries, hoff d hd, entries]

include hoff htype hold hnew

lemma dots_linkCount : linkCount n D' j = linkCount n D j := by
  have htypes : ∀ j, (D' j).type = (D j).type := by
    intro j
    rcases eq_or_ne j i with rfl | hj
    · exact htype
    · rw [hoff j hj]
  have hent := dots_entries hoff hold hnew
  rw [linkCount, linkCount, named_congr hent, subdirs, subdirs, hent]
  simp only [htypes]

include hT

lemma dots_tree (hdir : (D i).type = .dir)
    (hshape : (D' i).slots = [⟨i, dot⟩] ∨ Complete i (D' i).slots)
    (hup : ∀ a, (D' i).slots[1]? = some ⟨a, dotdot⟩ → (D a).type = .dir ∧ Alive n D a) :
    Tree n D' := by
  have hent := dots_entries hoff hold hnew
  have hlong : ∀ {j x}, (D j).slots[1]? = some x → j ≠ i := by
    rintro j x hj rfl
    have := (List.getElem?_eq_some_iff.1 hj).1
    omega
  have htypes : ∀ j, (D' j).type = (D j).type := by
    intro j
    rcases eq_or_ne j i with rfl | hj
    · exact htype
    · rw [hoff j hj]
  refine
    { alloc := fun j hj => hT.alloc j (by rwa [← htypes j]), slots := fun j hj => ?_
      shape := fun j hj => ?_, up := fun j a hj => ?_, entry := fun d e he he0 => ?_
      root := ?_, once := fun j hj => ?_ }
  · rw [htypes j] at hj
    have hji : j ≠ i := by
      rintro rfl
      exact hj hdir
    rw [hoff j hji]
    exact hT.slots j hj
  · rcases eq_or_ne j i with rfl | hji
    · exact .inr hshape
    · rw [hoff j hji] at hj ⊢
      exact hT.shape j hj
  · rw [htypes a, alive_congr hent]
    rcases eq_or_ne j i with rfl | hji
    · exact hup a hj
    · rw [hoff j hji] at hj
      exact hT.up j a hj
  · rw [hent] at he
    obtain ⟨hfree, halive, hupe⟩ := hT.entry d e he he0
    rw [htypes, alive_congr hent]
    refine ⟨hfree, halive, fun hde => ?_⟩
    rw [hoff e.inum (hlong (hupe hde))]
    exact hupe hde
  · rw [hoff ROOTINO (hlong hT.root.2.1), named_congr hent]
    exact hT.root
  · rw [named_congr hent]
    exact hT.once j (by rwa [← htypes j])

end Dots

/-! ### An entry is written -/

/-- The entry number `k` of the directory `d` becomes `de`. -/
structure Put (D D' : ℕ → Dinode) (d k : ℕ) (de : Dirent) : Prop where
  off : ∀ j, j ≠ d → D' j = D j
  type : (D' d).type = .dir ∧ (D d).type = .dir
  slots : (D' d).slots = putSlot (D d).slots (k + 2) de
  complete : Complete d (D d).slots
  le : k ≤ (entries D d).length

namespace Put

section

variable (h : Put D D' d k de)
include h

/-- The first two entries stay. -/
lemma slots_eq : ∃ a, a ≠ 0 ∧
    (D d).slots = ⟨d, dot⟩ :: ⟨a, dotdot⟩ :: entries D d ∧
    (D' d).slots = ⟨d, dot⟩ :: ⟨a, dotdot⟩ :: putSlot (entries D d) k de := by
  obtain ⟨a, rest, hs, ha, -⟩ := h.complete
  refine ⟨a, ha, by simp [entries, hs], ?_⟩
  rw [h.slots, entries, hs, putSlot_cons_succ, putSlot_cons_succ]
  rfl

lemma entries_eq : entries D' d = putSlot (entries D d) k de := by
  obtain ⟨a, -, -, hs⟩ := h.slots_eq
  rw [entries, hs]
  rfl

lemma getElem?_one (j : ℕ) : (D' j).slots[1]? = (D j).slots[1]? := by
  rcases eq_or_ne j d with rfl | hj
  · obtain ⟨a, -, hs, hs'⟩ := h.slots_eq
    rw [hs, hs']
    rfl
  · rw [h.off j hj]

lemma type_eq (j : ℕ) : (D' j).type = (D j).type := by
  rcases eq_or_ne j d with rfl | hj
  · rw [h.type.1, h.type.2]
  · rw [h.off j hj]

lemma mem_entries (he : e ∈ entries D' j) :
    j = d ∧ e = de ∨ e ∈ entries D j := by
  rcases eq_or_ne j d with rfl | hj
  · rw [h.entries_eq] at he
    exact (mem_putSlot he).imp_left fun h => ⟨rfl, h⟩
  · rw [entries, h.off j hj] at he
    exact .inr he

lemma named_eq (hT : Tree n D) (hi : i ≠ 0) :
    named n D' i + (decide (oldInum (entries D d) k = i)).toNat =
      named n D i + (decide (de.inum = i)).toNat := by
  have hd : d ∈ Finset.range n := Finset.mem_range.2 (hT.alloc d (by simp [h.type.2])).2
  have hsum := sum_add_of_eq_off
    (f := fun d => (entries D d).countP fun e => decide (e.inum = i)) hd fun j hj =>
      show (entries D' j).countP (fun e => decide (e.inum = i)) = _ by
        rw [entries, h.off j hj, entries]
  have hcount := countP_putSlot de (q := fun x => decide (x = i)) (by simpa using hi.symm) h.le
  rw [h.entries_eq] at hsum
  rw [named, named]
  omega

lemma subdirs_eq (hT : Tree n D) :
    subdirs D' d + (decide ((D (oldInum (entries D d) k)).type = .dir)).toNat =
      subdirs D d + (decide ((D de.inum).type = .dir)).toNat := by
  have hcount := countP_putSlot de (q := fun x => decide ((D x).type = .dir)) hT.zero_not_dir h.le
  rw [subdirs, h.entries_eq, subdirs]
  simp only [h.type_eq]
  exact hcount

lemma subdirs_of_ne (hj : j ≠ d) : subdirs D' j = subdirs D j := by
  rw [subdirs, subdirs, entries, h.off j hj, ← entries]
  simp only [h.type_eq]

lemma linkCount_eq (hT : Tree n D) (hi : i ≠ 0) :
    linkCount n D' i + (decide (oldInum (entries D d) k = i)).toNat +
        (decide (d = i ∧ (D (oldInum (entries D d) k)).type = .dir)).toNat =
      linkCount n D i + (decide (de.inum = i)).toNat +
        (decide (d = i ∧ (D de.inum).type = .dir)).toNat := by
  have hn := h.named_eq hT hi
  rw [linkCount, linkCount]
  rcases eq_or_ne i d with rfl | hid
  · have hs := h.subdirs_eq hT
    simp only [true_and]
    omega
  · simp only [h.subdirs_of_ne hid, hid.symm, false_and, decide_false, Bool.toNat_false]
    omega

/-- The clauses that do not depend on what the entry was and is. -/
lemma tree (hT : Tree n D)
    (hname : de.inum ≠ 0 → de.name ≠ dot ∧ de.name ≠ dotdot)
    (hup : ∀ i a, (D i).slots[1]? = some ⟨a, dotdot⟩ → Alive n D a → Alive n D' a)
    (hentry : ∀ j, ∀ e ∈ entries D' j, e.inum ≠ 0 → (D e.inum).type ≠ .free ∧ Alive n D' j ∧
      ((D e.inum).type = .dir → (D e.inum).slots[1]? = some ⟨j, dotdot⟩))
    (hroot : named n D' ROOTINO = 0) (honce : ∀ i, (D i).type = .dir → named n D' i ≤ 1) :
    Tree n D' where
  alloc j hj := hT.alloc j (by rwa [← h.type_eq j])
  slots j hj := by
    have hjd : j ≠ d := by
      rintro rfl
      exact hj h.type.1
    rw [h.off j hjd] at hj ⊢
    exact hT.slots j hj
  shape j hj := by
    rcases eq_or_ne j d with rfl | hjd
    · obtain ⟨a, ha, hs, hs'⟩ := h.slots_eq
      refine .inr (.inr ⟨a, _, hs', ha, fun e he hne => ?_⟩)
      rcases mem_putSlot he with rfl | he
      · exact hname hne
      obtain ⟨b, rest, hs2, -, hrest⟩ := h.complete
      rw [hs] at hs2
      simp only [List.cons.injEq] at hs2
      exact hrest e (hs2.2.2 ▸ he) hne
    · rw [h.off j hjd] at hj ⊢
      exact hT.shape j hj
  up j a hj := by
    rw [h.getElem?_one] at hj
    obtain ⟨hdir, ha⟩ := hT.up j a hj
    rw [h.type_eq]
    exact ⟨hdir, hup j a hj ha⟩
  entry j e he hne := by
    rw [h.type_eq, h.getElem?_one]
    exact hentry j e he hne
  root := by
    rw [h.type_eq, h.getElem?_one]
    exact ⟨hT.root.1, hT.root.2.1, hroot⟩
  once i hi := honce i (by rwa [← h.type_eq])

end

/-! #### A new entry -/

section Add

variable {name : Name} (h : Put D D' d k ⟨j, name⟩) (hT : Tree n D)
  (hold : oldInum (entries D d) k = 0)

include h hT hold

lemma named_add (hi : i ≠ 0) : named n D' i = named n D i + (decide (j = i)).toNat := by
  have hn := h.named_eq hT hi
  have h0 : decide (0 = i) = false := by simpa using hi.symm
  rw [hold, h0] at hn
  simpa using hn

lemma linkCount_add (hi : i ≠ 0) : linkCount n D' i = linkCount n D i + (decide (j = i)).toNat +
      (decide (d = i ∧ (D j).type = .dir)).toNat := by
  have hzero : (D 0).type ≠ .dir := of_decide_eq_false hT.zero_not_dir
  simpa [hold, hi.symm, hzero] using h.linkCount_eq hT hi

lemma alive_add (hi : i ≠ 0) (ha : Alive n D i) : Alive n D' i := by
  refine ha.imp_right fun hne => ?_
  rw [h.named_add hT hold hi]
  omega

/-- A file gets a name more, or a new directory its name. -/
theorem tree_add (hj : (D j).type ≠ .free) (halive : Alive n D d)
    (hname : name ≠ dot ∧ name ≠ dotdot) (hjr : j ≠ ROOTINO)
    (hjdir : (D j).type = .dir → named n D j = 0 ∧ (D j).slots[1]? = some ⟨d, dotdot⟩) :
    Tree n D' := by
  have hpos : ∀ {i}, (D i).type ≠ .free → i ≠ 0 := fun hi => (hT.alloc _ hi).1.ne'
  have hd0 : d ≠ 0 := hpos (by simp [h.type.2])
  refine h.tree hT (fun _ => hname) (fun i a hup ha => ?_) (fun i e he hne => ?_) ?_ fun i hi => ?_
  · exact h.alive_add hT hold (hpos (by simp [(hT.up i a hup).1])) ha
  · rcases h.mem_entries he with ⟨rfl, rfl⟩ | he
    · exact ⟨hj, h.alive_add hT hold hd0 halive, fun hdir => (hjdir hdir).2⟩
    · obtain ⟨hfree, ha, hup⟩ := hT.entry i e he hne
      exact ⟨hfree, h.alive_add hT hold (hpos (by simp [hT.dir_of_mem he])) ha, hup⟩
  · rw [h.named_add hT hold (by decide), hT.root.2.2]
    simp [hjr]
  · rw [h.named_add hT hold (hpos (by simp [hi]))]
    rcases eq_or_ne j i with rfl | hji
    · rw [(hjdir hi).1]
      simp
    · simpa [hji] using hT.once i hi

end Add

/-! #### An entry is erased -/

section Remove

variable (h : Put D D' d k {}) (hT : Tree n D) (hold : oldInum (entries D d) k = j) (hj : j ≠ 0)

include h hT hold

lemma named_remove (hi : i ≠ 0) : named n D' i + (decide (j = i)).toNat = named n D i := by
  have hn := h.named_eq hT hi
  have h0 : decide (({} : Dirent).inum = i) = false := by simpa using hi.symm
  rw [hold, h0] at hn
  simpa using hn

lemma linkCount_remove (hi : i ≠ 0) :
    linkCount n D' i + (decide (j = i)).toNat + (decide (d = i ∧ (D j).type = .dir)).toNat =
      linkCount n D i := by
  have hzero : (D 0).type ≠ .dir := of_decide_eq_false hT.zero_not_dir
  simpa [hold, hi.symm, hzero] using h.linkCount_eq hT hi

lemma alive_remove (hi : i ≠ 0) (hji : j ≠ i) : Alive n D' i ↔ Alive n D i := by
  have hn := h.named_remove hT hold hi
  simp only [hji, decide_false, Bool.toNat_false, Nat.add_zero] at hn
  rw [Alive, Alive, hn]

/-- A name of a file is removed, or an empty directory that no other ".." names. -/
theorem tree_remove (hjdir : (D j).type = .dir →
    (∀ e ∈ entries D j, e.inum = 0) ∧ ∀ i, (D i).slots[1]? ≠ some ⟨j, dotdot⟩) : Tree n D' := by
  have hpos : ∀ {i}, (D i).type ≠ .free → i ≠ 0 := fun hi => (hT.alloc _ hi).1.ne'
  have hle : ∀ {i}, i ≠ 0 → named n D' i ≤ named n D i := by
    intro i hi
    have := h.named_remove hT hold hi
    omega
  refine h.tree hT (by simp) (fun i a hup ha => ?_) (fun i e he hne => ?_) ?_ fun i hi => ?_
  · have hdir := (hT.up i a hup).1
    rw [h.alive_remove hT hold (hpos (by simp [hdir]))]
    · exact ha
    · rintro rfl
      exact (hjdir hdir).2 i hup
  · rcases h.mem_entries he with ⟨-, rfl⟩ | he
    · exact absurd rfl hne
    obtain ⟨hfree, ha, hup⟩ := hT.entry i e he hne
    have hdir := hT.dir_of_mem he
    refine ⟨hfree, ?_, hup⟩
    rw [h.alive_remove hT hold (hpos (by simp [hdir]))]
    · exact ha
    · rintro rfl
      exact hne ((hjdir hdir).1 e he)
  · have := hle (i := ROOTINO) (by decide)
    rw [hT.root.2.2] at this
    omega
  · exact (hle (hpos (by simp [hi]))).trans (hT.once i hi)

end Remove

end Put

end Hexv6.Fs
