import Hexv6.Fs.Calls
import Hexv6.Fs.Tree

/-!
# What the processes own

While system calls are under way, what a process knows and is responsible for is recorded by
tokens.  A token stands for a reference to an entry of the inode table, with or without its
sleep lock; for a link count that is ahead of the directories by one, because the entry is
still to be written or has just been erased; for an inode that `ialloc` has just marked; or
for an open file.

`Core` relates the tokens of all processes to the state: every token means something, the
reference counts are the numbers of tokens, `nlink` is the number of links and of the counts
that are ahead, the directories form a tree, and whoever owns an exclusive token of an inode
is alone with it.
-/

namespace Hexv6.Fs

open Lib

/-- How far a locked inode is: nothing is under way (`plain`); it is a directory whose
`nlink` is ahead by one (`extra`); it has just been allocated (`new`); it is a new directory
that gets its first entries and is not named yet (`fill`). -/
inductive Stage
  | plain
  | extra
  | new
  | fill
deriving DecidableEq

/-- A reference to an inode.  `ref none` is a plain reference, and `ref (some t)` one to an
inode that was just allocated with type `t`; `raw` adds the sleep lock, and `lock` also
knows the inode.  `iput` goes through `doomed` before the inode is free (`cut` when it
is truncated already), `freed` after it and `zombie` when it has given up the lock. -/
inductive Mode
  | ref (new : Option IType)
  | raw (new : Option IType)
  | lock (d : Dinode) (st : Stage)
  | doomed (cut : Bool)
  | freed
  | zombie
deriving DecidableEq

/-- The tokens. -/
inductive Token
  | slot (k : Slot) (i : ℕ) (m : Mode)
  | credit (i : ℕ)
  | born (i : ℕ) (t : IType)
  | file (f : FileSlot) (ip : Option Slot)
deriving DecidableEq

/-! ### Kinds of tokens -/

/-- The mode includes the sleep lock. -/
def Mode.locks : Mode → Bool
  | .raw _ | .lock _ _ | .doomed _ | .freed => true
  | _ => false

/-- The inode is known to be allocated. -/
def Mode.proper : Mode → Bool
  | .freed | .zombie => false
  | _ => true

variable {new : Option IType}

@[simp] lemma Mode.proper_ref : (Mode.ref new).proper = true := rfl
@[simp] lemma Mode.proper_raw : (Mode.raw new).proper = true := rfl
@[simp] lemma Mode.proper_lock {d : Dinode} {st : Stage} : (Mode.lock d st).proper = true := rfl
@[simp] lemma Mode.proper_doomed {cut : Bool} : (Mode.doomed cut).proper = true := rfl
@[simp] lemma Mode.proper_freed : Mode.freed.proper = false := rfl
@[simp] lemma Mode.proper_zombie : Mode.zombie.proper = false := rfl

/-- Nobody else can have a reference. -/
def Mode.excl : Mode → Bool
  | .ref new | .raw new => new.isSome
  | .lock _ st => st = .new ∨ st = .fill
  | .doomed _ => true
  | _ => false

/-- `nlink` is ahead by one. -/
def Mode.ahead : Mode → Bool
  | .lock _ st => st = .extra ∨ st = .fill
  | _ => false

namespace Token

def onSlot (k : Slot) : Token → Bool
  | slot k' _ _ => k' = k
  | _ => false

def locks (k : Slot) : Token → Bool
  | slot k' _ m => k' = k ∧ m.locks
  | _ => false

def proper (i : ℕ) : Token → Bool
  | slot _ i' m => i' = i ∧ m.proper
  | born i' _ => i' = i
  | _ => false

/-- A reference to an inode that may be free. -/
def gone (i : ℕ) : Token → Bool
  | slot _ i' m => i' = i ∧ m.proper = false
  | _ => false

def excl (i : ℕ) : Token → Bool
  | slot _ i' m => i' = i ∧ m.excl
  | born i' _ => i' = i
  | _ => false

def ahead (i : ℕ) : Token → Bool
  | slot _ i' m => i' = i ∧ m.ahead
  | credit i' => i' = i
  | _ => false

def onFile (f : FileSlot) : Token → Bool
  | file f' _ => f' = f
  | _ => false

section Kinds

variable {k k' : Slot} {i i' : ℕ} {m : Mode} {type : IType}

@[simp] lemma onSlot_slot : (slot k' i m).onSlot k = decide (k' = k) := rfl
@[simp] lemma onSlot_credit : (credit i).onSlot k = false := rfl
@[simp] lemma onSlot_born : (born i type).onSlot k = false := rfl

@[simp] lemma locks_slot : (slot k' i m).locks k = decide (k' = k ∧ m.locks) := rfl
@[simp] lemma locks_credit : (credit i).locks k = false := rfl
@[simp] lemma locks_born : (born i type).locks k = false := rfl

@[simp] lemma proper_slot : (slot k i' m).proper i = decide (i' = i ∧ m.proper) := rfl
@[simp] lemma proper_credit : (credit i').proper i = false := rfl
@[simp] lemma proper_born : (born i' type).proper i = decide (i' = i) := rfl

@[simp] lemma gone_slot : (slot k i' m).gone i = decide (i' = i ∧ m.proper = false) := rfl
@[simp] lemma gone_credit : (credit i').gone i = false := rfl
@[simp] lemma gone_born : (born i' type).gone i = false := rfl

@[simp] lemma excl_slot : (slot k i' m).excl i = decide (i' = i ∧ m.excl) := rfl
@[simp] lemma excl_credit : (credit i').excl i = false := rfl
@[simp] lemma excl_born : (born i' type).excl i = decide (i' = i) := rfl

@[simp] lemma ahead_slot : (slot k i' m).ahead i = decide (i' = i ∧ m.ahead) := rfl
@[simp] lemma ahead_credit : (credit i').ahead i = decide (i' = i) := rfl
@[simp] lemma ahead_born : (born i' type).ahead i = false := rfl

end Kinds

lemma proper_of_excl {i : ℕ} {t : Token} (h : t.excl i = true) : t.proper i = true := by
  cases t with
  | slot k j m =>
    simp only [excl_slot, proper_slot, decide_eq_true_eq] at h ⊢
    refine ⟨h.1, ?_⟩
    cases m <;> first | rfl | cases h.2
  | born j t => exact h
  | _ => cases h

end Token

/-! ### What tokens mean -/

variable {P : Type} {n : ℕ} {s s' : State P} {t : Token} {k : Slot} {i : ℕ}

/-- An inode as `ialloc` leaves it. -/
def Fresh (n : ℕ) (D : ℕ → Dinode) (i : ℕ) (type : IType) : Prop :=
  D i = { type := type } ∧ type ≠ .free ∧ ¬ Alive n D i

def Stage.Means (n : ℕ) (D : ℕ → Dinode) (i : ℕ) (d : Dinode) : Stage → Prop
  | .plain => True
  | .extra => d.type = .dir
  | .new => Fresh n D i d.type
  | .fill => d.type = .dir ∧ ¬ Alive n D i

def Mode.Means (n : ℕ) (D : ℕ → Dinode) (valid : Bool) (i : ℕ) : Mode → Prop
  | .ref none | .raw none => (D i).type ≠ .free ∧ ((D i).nlink = 0 → valid = true)
  | .ref (some t) | .raw (some t) => Fresh n D i t
  | .lock d st => valid = true ∧ D i = d ∧ d.type ≠ .free ∧ st.Means n D i d
  | .doomed cut => valid = true ∧ (D i).type ≠ .free ∧ (D i).nlink = 0 ∧
      (cut = true → (D i).slots = []) ∧ ¬ Alive n D i
  | .freed | .zombie => True

def Token.Means (n : ℕ) (s : State P) : Token → Prop
  | slot k i m => (s.itable k).inum = i ∧ m.Means n s.disk (s.itable k).valid i
  | credit i => (s.disk i).type ≠ .free ∧ (s.disk i).type ≠ .dir
  | born i t => Fresh n s.disk i t
  | _ => True

/-- The inode stays as it is, and is not named if the token says so. -/
lemma Mode.Means.mono {D D' : ℕ → Dinode} {v v' : Bool} {m : Mode} (h : m.Means n D v i)
    (hd : D' i = D i) (hv : v = true → v' = true)
    (hdead : m.excl = true → ¬ Alive n D i → ¬ Alive n D' i) : m.Means n D' v' i := by
  cases m with
  | ref new | raw new =>
    cases new with
    | none =>
      rw [Mode.Means, hd]
      exact ⟨h.1, fun h0 => hv (h.2 h0)⟩
    | some type => exact ⟨hd.trans h.1, h.2.1, hdead rfl h.2.2⟩
  | lock d st =>
    obtain ⟨hvalid, hD, hfree, hst⟩ := h
    refine ⟨hv hvalid, hd.trans hD, hfree, ?_⟩
    cases st with
    | plain => trivial
    | extra => exact hst
    | new => exact ⟨hd.trans hst.1, hst.2.1, hdead rfl hst.2.2⟩
    | fill => exact ⟨hst.1, hdead rfl hst.2⟩
  | doomed cut =>
    obtain ⟨hvalid, hfree, hnlink, hslots, halive⟩ := h
    rw [Mode.Means, hd]
    exact ⟨hv hvalid, hfree, hnlink, hslots, hdead rfl halive⟩
  | freed | zombie => trivial

/-- The state and the tokens of all processes. -/
structure Core (n : ℕ) (s : State P) (W : Multiset Token) : Prop where
  means : ∀ t ∈ W, t.Means n s
  refs : ∀ k, (s.itable k).ref = W.countP (·.onSlot k)
  locks : ∀ k, W.countP (·.locks k) ≤ if (s.itable k).lock = none then 0 else 1
  unique : ∀ k k', 0 < (s.itable k).ref → 0 < (s.itable k').ref →
    (s.itable k).inum = (s.itable k').inum → k = k'
  coh : ∀ k, 0 < (s.itable k).ref → (s.itable k).valid = true →
    (s.itable k).node = s.disk (s.itable k).inum ∧ (s.disk (s.itable k).inum).type ≠ .free
  links : ∀ i, (s.disk i).type ≠ .free →
    (s.disk i).nlink.toNat = linkCount n s.disk i + W.countP (·.ahead i)
  tree : Tree n s.disk
  excl : ∀ i, ∀ t ∈ W, t.excl i = true → W.countP (·.proper i) ≤ 1
  part : ∀ i, (s.disk i).type = .dir → (s.disk i).slots.length < 2 → ∃ t ∈ W, t.excl i = true

/-! ### Consequences -/

namespace Core

variable {W F : Multiset Token} {m m' : Mode} {k' : Slot}

lemma ref_pos (h : Core n s W) (ht : .slot k i m ∈ W) : 0 < (s.itable k).ref := by
  rw [h.refs, Multiset.countP_pos]
  exact ⟨_, ht, by simp⟩

lemma inum_eq (h : Core n s W) (ht : .slot k i m ∈ W) : (s.itable k).inum = i := (h.means _ ht).1

/-- An inode is in one entry of the table only. -/
lemma slot_eq (h : Core n s W) (ht : .slot k i m ∈ W) (ht' : .slot k' i m' ∈ W) : k = k' :=
  h.unique k k' (h.ref_pos ht) (h.ref_pos ht') ((h.inum_eq ht).trans (h.inum_eq ht').symm)

/-- A sleep lock is held once. -/
lemma no_lock (h : Core n s (t ::ₘ F)) (ht : t.locks k = true) : ∀ t' ∈ F, t'.locks k = false := by
  intro t' ht'
  by_contra hlock
  have hpos : 0 < F.countP (·.locks k) := Multiset.countP_pos.2 ⟨t', ht', by simpa using hlock⟩
  have hle := h.locks k
  rw [Multiset.countP_cons, if_pos ht] at hle
  split_ifs at hle <;> omega

/-- Nobody else has a reference to the inode of an exclusive token. -/
lemma no_proper (h : Core n s (t ::ₘ F)) (ht : t.excl i = true) :
    ∀ t' ∈ F, t'.proper i = false := by
  intro t' ht'
  by_contra hproper
  have hpos : 0 < F.countP (·.proper i) := Multiset.countP_pos.2 ⟨t', ht', by simpa using hproper⟩
  have hle := h.excl i t (Multiset.mem_cons_self t F) ht
  rw [Multiset.countP_cons, if_pos (Token.proper_of_excl ht)] at hle
  omega

/-- Nobody has an exclusive token of an inode to which there is another reference. -/
lemma no_excl (h : Core n s (t ::ₘ F)) (ht : t.proper i = true) : ∀ t' ∈ F, t'.excl i = false := by
  intro t' ht'
  by_contra hexcl
  obtain ⟨G, rfl⟩ := Multiset.exists_cons_of_mem ht'
  rw [Multiset.cons_swap] at h
  rw [h.no_proper (by simpa using hexcl) t (Multiset.mem_cons_self t G)] at ht
  cases ht

/-- The inode of an exclusive token is not named. -/
lemma dead_of_excl (h : Core n s W) (ht : t ∈ W) (hexcl : t.excl i = true) :
    ¬ Alive n s.disk i := by
  have hm := h.means t ht
  cases t with
  | slot k j m =>
    simp only [Token.excl_slot, decide_eq_true_eq] at hexcl
    obtain ⟨rfl, hexcl⟩ := hexcl
    cases m with
    | ref new | raw new =>
      cases new with
      | none => cases hexcl
      | some type => exact hm.2.2.2
    | lock d st =>
      have hst := hm.2.2.2.2
      cases st with
      | plain | extra => cases hexcl
      | new => exact hst.2.2
      | fill => exact hst.2
    | doomed cut => exact hm.2.2.2.2.2
    | freed | zombie => cases hexcl
  | born j type =>
    simp only [Token.excl_born, decide_eq_true_eq] at hexcl
    exact hexcl ▸ hm.2.2
  | _ => cases hexcl

/-- No entry is about to be written for the inode of an exclusive token, except by the owner
of a new directory. -/
lemma not_excl_of_credit (h : Core n s W) (hcredit : .credit i ∈ W) (ht : t ∈ W) :
    t.excl i = false := by
  by_contra hexcl
  obtain ⟨hfree, hdir⟩ := h.means _ hcredit
  have hlinks := h.links i hfree
  have hpos : 0 < W.countP (·.ahead i) := Multiset.countP_pos.2 ⟨_, hcredit, by simp⟩
  have hne : (s.disk i).nlink ≠ 0 := by
    intro h0
    rw [h0, show (0 : BitVec 16).toNat = 0 from rfl] at hlinks
    omega
  have hm := h.means t ht
  cases t with
  | slot k j m =>
    simp only [Token.excl_slot, decide_eq_false_iff_not, not_not] at hexcl
    obtain ⟨rfl, hexcl⟩ := hexcl
    cases m with
    | ref new | raw new =>
      cases new with
      | none => cases hexcl
      | some type => exact hne (by rw [hm.2.1])
    | lock d st =>
      obtain ⟨-, -, hd, -, hst⟩ := hm
      cases st with
      | plain | extra => cases hexcl
      | new => exact hne (by rw [hst.1])
      | fill => exact hdir (by rw [hd, hst.1])
    | doomed cut => exact hne hm.2.2.2.1
    | freed | zombie => cases hexcl
  | born j type =>
    simp only [Token.excl_born, decide_eq_false_iff_not, not_not] at hexcl
    subst hexcl
    exact hne (by rw [hm.1])
  | credit | file => exact hexcl rfl

/-- The inode of a reference that is not exclusive has all its first entries. -/
lemma complete (h : Core n s (t ::ₘ F)) (ht : t.proper i = true) (hne : t.excl i = false)
    (hdir : (s.disk i).type = .dir) : Complete i (s.disk i).slots := by
  have hlen : ¬ (s.disk i).slots.length < 2 := by
    intro hlt
    obtain ⟨t', ht', hexcl⟩ := h.part i hdir hlt
    rcases Multiset.mem_cons.1 ht' with rfl | ht'
    · rw [hne] at hexcl
      cases hexcl
    · rw [h.no_excl ht t' ht'] at hexcl
      cases hexcl
  rcases h.tree.shape i hdir with hs | hs | hs
  · simp [hs] at hlen
  · simp [hs] at hlen
  · exact hs

end Core

/-! ### Changes of the inode table -/

section Table

@[simp] lemma setInode_disk (ip : Inode P) : (s.setInode k ip).disk = s.disk := rfl

@[simp] lemma setInode_self (ip : Inode P) : (s.setInode k ip).itable k = ip :=
  Function.update_self ..

lemma setInode_of_ne {k' : Slot} (hk : k' ≠ k) (ip : Inode P) :
    (s.setInode k ip).itable k' = s.itable k' :=
  Function.update_of_ne hk ..

/-- Tokens keep their meaning when an inode becomes valid. -/
lemma Token.Means.of_table (h : t.Means n s) (hdisk : s'.disk = s.disk)
    (htable : ∀ k i m, t = .slot k i m → (s'.itable k).inum = (s.itable k).inum ∧
      ((s.itable k).valid = true → (s'.itable k).valid = true)) : t.Means n s' := by
  cases t with
  | slot k i m =>
    obtain ⟨hinum, hvalid⟩ := htable k i m rfl
    obtain ⟨hi, hm⟩ := h
    exact ⟨hinum.trans hi, hm.mono (by rw [hdisk]) hvalid (by rw [hdisk]; exact fun _ => id)⟩
  | credit i | born i type =>
    rw [Token.Means, hdisk]
    exact h
  | _ => trivial

/-- An entry of the inode table changes, but not the inode that it holds. -/
lemma Core.setInode {W W' : Multiset Token} (h : Core n s W) {ip : Inode P}
    (hinum : ip.inum = (s.itable k).inum)
    (hvalid : (s.itable k).valid = true → ip.valid = true)
    (hcoh : ip.valid = true → ip.node = s.disk (s.itable k).inum ∧
      (s.disk (s.itable k).inum).type ≠ .free)
    (hpos : 0 < ip.ref → 0 < (s.itable k).ref)
    (hmeans : ∀ t ∈ W', t.Means n s ∨ t.Means n (s.setInode k ip))
    (hrefs : ip.ref = W'.countP (·.onSlot k))
    (hrefs' : ∀ k', k' ≠ k → W'.countP (·.onSlot k') = W.countP (·.onSlot k'))
    (hlocks : W'.countP (·.locks k) ≤ if ip.lock = none then 0 else 1)
    (hlocks' : ∀ k', k' ≠ k → W'.countP (·.locks k') = W.countP (·.locks k'))
    (hahead : ∀ i, W'.countP (·.ahead i) = W.countP (·.ahead i))
    (hexcl : ∀ i, ∀ t ∈ W', t.excl i = true → W'.countP (·.proper i) ≤ 1)
    (hpart : ∀ i, (∃ t ∈ W, t.excl i = true) → ∃ t ∈ W', t.excl i = true) :
    Core n (s.setInode k ip) W' := by
  have hfields : ∀ k', ((s.setInode k ip).itable k').inum = (s.itable k').inum ∧
      ((s.itable k').valid = true → ((s.setInode k ip).itable k').valid = true) ∧
      (0 < ((s.setInode k ip).itable k').ref → 0 < (s.itable k').ref) := by
    intro k'
    rcases eq_or_ne k' k with rfl | hk
    · rw [setInode_self]
      exact ⟨hinum, hvalid, hpos⟩
    · rw [setInode_of_ne hk]
      exact ⟨rfl, id, id⟩
  refine
    { means := fun t ht => ?_, refs := fun k' => ?_, locks := fun k' => ?_
      unique := fun k1 k2 h1 h2 heq => ?_, coh := fun k' hk' hv => ?_, links := fun i hi => ?_
      tree := h.tree, excl := hexcl, part := fun i hdir hlen => hpart i (h.part i hdir hlen) }
  · rcases hmeans t ht with hm | hm
    · exact hm.of_table rfl fun k' i m _ => ⟨(hfields k').1, (hfields k').2.1⟩
    · exact hm
  · rcases eq_or_ne k' k with rfl | hk
    · rw [setInode_self, hrefs]
    · rw [setInode_of_ne hk, h.refs, hrefs' k' hk]
  · rcases eq_or_ne k' k with rfl | hk
    · rw [setInode_self]
      exact hlocks
    · rw [setInode_of_ne hk, hlocks' k' hk]
      exact h.locks k'
  · rw [(hfields k1).1, (hfields k2).1] at heq
    exact h.unique k1 k2 ((hfields k1).2.2 h1) ((hfields k2).2.2 h2) heq
  · rw [(hfields k').1]
    rcases eq_or_ne k' k with rfl | hk
    · rw [setInode_self] at hv ⊢
      exact hcoh hv
    · rw [setInode_of_ne hk] at hk' hv ⊢
      exact h.coh k' hk' hv
  · rw [hahead]
    exact h.links i hi

end Table

end Hexv6.Fs
