import Hexv6.Ino.Coherent

/-!
# Inodes are unique and coherent

In every run, an inode is in at most one entry of the table with references, and every such entry
that is valid and not locked agrees with the disk.  When `ilock` ends, the process sees what is on
the disk.

An entry to which nobody refers may be older than the disk: `iget` takes the first unused entry,
which need not be the one that held the inode before.
-/

namespace Hexv6.Ino

open Lib Multiset
open Blk (Inode Byte)

variable {P : Type} {s s' : State P} {W F A : Multiset Token} {k : ISlot} {i : ℕ} {m : Mode}
  {d : Inode} {sb : Super} {o : Op} {c : Bool} {r : Multiset Token}

/-! ### Rules -/

/-- The operation does not look at the inode table. -/
def Op.blockOnly : Op → Bool
  | .beginOp | .endOp | .allocBit _ | .bzero _ | .bfree _ | .word _ _ | .setWord _ _ _ |
    .copyin _ _ _ => true
  | _ => false

/-- The operation, the tokens that it uses, and its result with the tokens that it leaves. -/
inductive Rule : (o : Op) → Multiset Token → (o.Result → Multiset Token → Prop) → Prop
  | block (o : Op) (h : o.blockOnly = true) : Rule o 0 fun _ B => B = 0
  | iget (i : ℕ) : Rule (.iget i) 0 fun k B => B = {⟨k, i, .ref⟩}
  | idup (k : ISlot) (i : ℕ) :
      Rule (.idup k) {⟨k, i, .ref⟩} fun _ B => B = {⟨k, i, .ref⟩} + {⟨k, i, .ref⟩}
  | acquiresleep (k : ISlot) (i : ℕ) :
      Rule (.acquiresleep k) {⟨k, i, .ref⟩} fun _ B => B = {⟨k, i, .raw⟩}
  | readInode (k : ISlot) (i : ℕ) :
      Rule (.readInode k) {⟨k, i, .raw⟩} fun _ B => ∃ d, d.type ≠ 0 ∧ B = {⟨k, i, .lock d true⟩}
  | iunlock (k : ISlot) (i : ℕ) (d : Inode) :
      Rule (.iunlock k) {⟨k, i, .lock d true⟩} fun _ B => B = {⟨k, i, .ref⟩}
  | node (k : ISlot) (i : ℕ) (d : Inode) (c : Bool) :
      Rule (.node k) {⟨k, i, .lock d c⟩} fun x B => x = d ∧ B = {⟨k, i, .lock d c⟩}
  | setNode (k : ISlot) (i : ℕ) (d d' : Inode) (c : Bool) :
      Rule (.setNode k d') {⟨k, i, .lock d c⟩} fun _ B => B = {⟨k, i, .lock d' false⟩}
  | iupdate (k : ISlot) (i : ℕ) (d : Inode) (c : Bool) (hd : d.type ≠ 0) :
      Rule (.iupdate k) {⟨k, i, .lock d c⟩} fun _ B => B = {⟨k, i, .lock d true⟩}
  | iupdateFree (k : ISlot) (i : ℕ) (d : Inode) (c : Bool) :
      Rule (.iupdate k) {⟨k, i, .lock d c⟩} fun _ B => B = {⟨k, i, .freed⟩}
  | iputTest (k : ISlot) (i : ℕ) :
      Rule (.iputTest k) {⟨k, i, .ref⟩} fun x B =>
        x = true ∧ (∃ d, d.type ≠ 0 ∧ B = {⟨k, i, .lock d true⟩}) ∨ x = false ∧ B = 0
  | invalidate (k : ISlot) (i : ℕ) :
      Rule (.invalidate k) {⟨k, i, .freed⟩} fun _ B => B = {⟨k, i, .dead⟩}
  | releasesleep (k : ISlot) (i : ℕ) :
      Rule (.releasesleep k) {⟨k, i, .dead⟩} fun _ B => B = {⟨k, i, .ref⟩}
  | iputDrop (k : ISlot) (i : ℕ) : Rule (.iputDrop k) {⟨k, i, .ref⟩} fun _ B => B = 0
  | iallocTry (i : ℕ) (type : BitVec 16) : Rule (.iallocTry i type) 0 fun _ B => B = 0
  | panic (e : Panic) (A : Multiset Token) : Rule (.panic e) A fun _ _ => False

lemma TableInv.of_eq (h : TableInv s W) (ht : s'.itable = s.itable) (hd : s'.dinode = s.dinode) :
    TableInv s' W := by
  have hmeans : ∀ t ∈ W, t.Means s' := by
    intro t hmem
    rw [Token.Means, ht, hd]
    exact h.means t hmem
  exact
    { means := hmeans, refs := ht ▸ h.refs, locks := ht ▸ h.locks, unique := ht ▸ h.unique
      coh := by rw [ht, hd]; exact h.coh }

/-! ### Soundness -/

variable {a : BitVec 32}

lemma onBlock_table {f : Blk.Block → Blk.Block} (h : onBlock sb s a f = .ok s') :
    s'.itable = s.itable ∧ s'.dinode = s.dinode := by
  rw [onBlock] at h
  split_ifs at h
  cases h
  exact ⟨rfl, rfl⟩

section Sound

variable [DecidableEq P]

/-- Operations on blocks leave the inodes alone. -/
lemma exec_blockOnly {p : P} {x : o.Result} (ho : o.blockOnly = true)
    (hx : exec sb p o s = .ok (s', x)) : s'.itable = s.itable ∧ s'.dinode = s.dinode := by
  have hmap : ∀ {α : Type} {r : Except Panic (State P)} {g : State P → State P × α}
      {y : State P × α},
      (∀ t, (g t).1 = t) → r.map g = .ok y → r = .ok y.1 := by
    intro α r g y hg hr
    cases r with
    | error e => cases hr
    | ok t =>
      cases hr
      rw [hg]
  cases o with rw [exec] at hx
  | beginOp | endOp | word =>
    cases hx
    exact ⟨rfl, rfl⟩
  | allocBit b =>
    split at hx
    · cases hx
      exact ⟨rfl, rfl⟩
    · cases hx
      exact ⟨rfl, rfl⟩
  | bfree a =>
    split_ifs at hx
    cases hx
    exact ⟨rfl, rfl⟩
  | bzero | setWord | copyin => exact onBlock_table (hmap (fun _ => rfl) hx)
  | _ => cases ho

/-- Every operation keeps the invariant, and leaves the tokens that its rule says. -/
lemma Rule.sound {p : P} {Ψ : o.Result → Multiset Token → Prop} {x : o.Result}
    (hrule : Rule o A Ψ) (h : TableInv s (A + F)) (hx : exec sb p o s = .ok (s', x)) :
    ∃ B, Ψ x B ∧ TableInv s' (B + F) := by
  cases hrule with
  | block o ho =>
    obtain ⟨ht, hd⟩ := exec_blockOnly ho hx
    exact ⟨0, rfl, h.of_eq ht hd⟩
  | iget i =>
    rw [zero_add] at h
    exact ⟨_, rfl, h.iget hx⟩
  | idup k i =>
    cases hx
    refine ⟨_, rfl, ?_⟩
    rw [add_assoc, singleton_add, singleton_add]
    exact h.addRef (h.ref_pos (mem_cons_self _ _)) (h.inum_eq (mem_cons_self _ _))
  | acquiresleep k i =>
    rw [exec] at hx
    split_ifs at hx with hpos hfree
    cases hx
    exact ⟨_, rfl, h.acquiresleep p hfree⟩
  | readInode k i =>
    rw [exec] at hx
    split_ifs at hx with hv htype
    · cases hx
      obtain ⟨d, hd, hinv⟩ := h.readInode_valid hv
      exact ⟨_, ⟨d, hd, rfl⟩, hinv⟩
    cases hx
    rw [h.inum_eq (mem_cons_self _ _)] at htype
    exact ⟨_, ⟨_, htype, rfl⟩, h.readInode htype⟩
  | iunlock k i d =>
    rw [exec] at hx
    split_ifs at hx
    cases hx
    exact ⟨_, rfl, h.iunlock⟩
  | node k i d c =>
    cases hx
    exact ⟨_, ⟨(h.means _ (mem_cons_self _ _)).2.2.1, rfl⟩, h⟩
  | setNode k i d d' c =>
    cases hx
    exact ⟨_, rfl, h.setNode d'⟩
  | iupdate k i d c hd =>
    cases hx
    obtain ⟨hi, -, hnode, -⟩ := h.means _ (mem_cons_self _ _)
    refine ⟨_, rfl, ?_⟩
    dsimp only at hi hnode
    rw [hi, hnode]
    exact h.iupdate_alloc hd
  | iupdateFree k i d c =>
    cases hx
    obtain ⟨hi, -, hnode, -⟩ := h.means _ (mem_cons_self _ _)
    refine ⟨_, rfl, ?_⟩
    dsimp only at hi hnode
    rw [hi, hnode]
    exact h.iupdate_free
  | iputTest k i =>
    rw [exec] at hx
    split_ifs at hx with hlast hfree
    · cases hx
      obtain ⟨d, hd, hinv⟩ := h.iputTest p hlast.2.1 hfree
      exact ⟨_, .inl ⟨rfl, d, hd, rfl⟩, hinv⟩
    · cases hx
      exact ⟨_, .inr ⟨rfl, rfl⟩, (zero_add F).symm ▸ h.dropRef⟩
  | invalidate k i =>
    cases hx
    exact ⟨_, rfl, h.invalidate⟩
  | releasesleep k i =>
    cases hx
    exact ⟨_, rfl, h.releasesleep⟩
  | iputDrop k i =>
    cases hx
    exact ⟨_, rfl, (zero_add F).symm ▸ h.dropRef⟩
  | iallocTry i type =>
    rw [exec] at hx
    split_ifs at hx with hfree
    · cases hx
      exact ⟨_, rfl, h.ialloc hfree _⟩
    · cases hx
      exact ⟨_, rfl, h⟩
  | panic e A => cases hx

end Sound

/-! ### What the functions hold -/

section Specs

variable {α β : Type} {f : Kernel α}

/-- The process has the lock of an inode that is allocated. -/
def locked (k : ISlot) (i : ℕ) (c : Bool) (B : Multiset Token) : Prop :=
  ∃ d, d.type ≠ 0 ∧ B = {⟨k, i, .lock d c⟩}

/-- The function is called with the lock of the inode and may change it. -/
def Edits (k : ISlot) (i : ℕ) (f : Kernel α) : Prop :=
  ∀ d c, d.type ≠ 0 → Spec Rule {⟨k, i, .lock d c⟩} f fun _ B => ∃ c, locked k i c B

lemma Edits.pure (a : α) : Edits k i (pure a) := fun d c hd => Spec.ret ⟨c, d, hd, rfl⟩

lemma Edits.bind {g : α → Kernel β} (hf : Edits k i f) (hg : ∀ a, Edits k i (g a)) :
    Edits k i (f >>= g) := by
  intro d c hd
  refine (hf d c hd).bind ?_
  rintro a _ ⟨c', d', hd', rfl⟩
  exact hg a d' c' hd'

lemma spec_panic {e : Panic} {Ψ : α → Multiset Token → Prop} : Spec Rule A (panic e) Ψ :=
  fun F => ⟨_, ⟨A, F, _, .panic e A, rfl, rfl⟩, fun x => x.elim⟩

lemma Edits.block (ho : o.blockOnly = true) : Edits k i (run o) := by
  intro d c hd
  rw [← zero_add {_}]
  refine (Spec.perform (.block o ho)).last fun _ B hB => ⟨c, d, hd, ?_⟩
  rw [hB, zero_add]

lemma edits_node : Edits k i (run (.node k)) := fun d c hd =>
  (Spec.perform (.node k i d c)).mono fun _ _ hx => ⟨c, d, hd, hx.2⟩

/-- Assignments to the fields, but not to the type. -/
lemma edits_assign {g : Inode → Inode} (hg : ∀ d, (g d).type = d.type) :
    Edits k i (assign k g) := by
  intro d c hd
  refine Spec.op (.node k i d c) ?_
  rintro _ _ ⟨rfl, rfl⟩
  refine (Spec.perform (.setNode k i _ _ c)).mono fun _ _ hB => ?_
  exact ⟨false, _, by rwa [hg], hB⟩

lemma edits_setAddr {j : Fin (NDIRECT + 1)} :
    Edits k i (assign k fun d => d.setAddr j a) :=
  edits_assign fun _ => rfl

lemma spec_iupdate (hd : d.type ≠ 0) :
    Spec Rule {⟨k, i, .lock d c⟩} (run (.iupdate k)) fun _ B => locked k i true B :=
  (Spec.perform (.iupdate k i d c hd)).mono fun _ _ hB => ⟨d, hd, hB⟩

lemma edits_ballocFrom (bs : List ℕ) : Edits k i (ballocFrom bs) := by
  induction bs with
  | nil => exact fun d c hd => spec_panic
  | cons b bs ih =>
    refine (Edits.block rfl).bind fun found => ?_
    cases found with
    | none => exact ih
    | some a => exact (Edits.block rfl).bind fun _ => .pure a

lemma edits_balloc : Edits k i (balloc sb) := edits_ballocFrom _

lemma edits_bmapAddr (j : Fin (NDIRECT + 1)) : Edits k i (bmapAddr sb k j) := by
  refine edits_node.bind fun d => ?_
  split_ifs
  · exact edits_balloc.bind fun addr => edits_setAddr.bind fun _ => .pure addr
  · exact .pure _

lemma edits_bmapWord {ind : BitVec 32} {j : ℕ} : Edits k i (bmapWord sb ind j) := by
  refine (Edits.block rfl).bind fun addr => ?_
  split_ifs
  · exact edits_balloc.bind fun addr => (Edits.block rfl).bind fun _ => .pure addr
  · exact .pure _

lemma edits_bmap (bn : ℕ) : Edits k i (bmap sb k bn) := by
  rw [bmap]
  split_ifs
  · exact edits_bmapAddr _
  · exact (edits_bmapAddr _).bind fun ind => edits_bmapWord
  · exact fun d c hd => spec_panic

lemma edits_itruncDirect (is : List (Fin (NDIRECT + 1))) : Edits k i (itruncDirect k is) := by
  induction is with
  | nil => exact .pure ()
  | cons j is ih =>
    refine edits_node.bind fun d => ?_
    split_ifs
    · exact (Edits.block rfl).bind fun _ => edits_setAddr.bind fun _ => ih
    · exact ih

lemma edits_itruncWords {ind : BitVec 32} (js : List ℕ) : Edits k i (itruncWords ind js) := by
  induction js with
  | nil => exact .pure ()
  | cons j js ih =>
    refine (Edits.block rfl).bind fun a => ?_
    split_ifs
    · exact (Edits.block rfl).bind fun _ => ih
    · exact ih

/-- A function that ends with `iupdate`. -/
lemma Edits.updated (hf : Edits k i f) {g : α → Kernel β} (hd : d.type ≠ 0)
    (hg : ∀ a d c, d.type ≠ 0 → Spec Rule {⟨k, i, .lock d c⟩} (g a) fun _ B => locked k i true B) :
    Spec Rule {⟨k, i, .lock d c⟩} (f >>= g) fun _ B => locked k i true B := by
  refine (hf d c hd).bind ?_
  rintro a _ ⟨c', d', hd', rfl⟩
  exact hg a d' c' hd'

lemma spec_update {g : Inode → Inode} (hg : ∀ d, (g d).type = d.type) (hd : d.type ≠ 0) :
    Spec Rule {⟨k, i, .lock d c⟩} (update k g) fun _ B => locked k i true B :=
  (edits_assign hg).updated hd fun _ _ _ hd' => spec_iupdate hd'

lemma spec_itrunc (hd : d.type ≠ 0) :
    Spec Rule {⟨k, i, .lock d c⟩} (itrunc k) fun _ B => locked k i true B := by
  have hlast : ∀ d c, d.type ≠ 0 → Spec Rule {⟨k, i, .lock d c⟩}
      (update k fun d => { d with size := 0 }) fun _ B => locked k i true B :=
    fun _ _ hd' => spec_update (fun _ => rfl) hd'
  refine (edits_itruncDirect _).updated hd fun _ d1 c1 hd1 => ?_
  refine Spec.op (.node k i d1 c1) ?_
  rintro _ _ ⟨rfl, rfl⟩
  split_ifs
  · refine (edits_itruncWords _).updated hd1 fun _ d2 c2 hd2 => ?_
    refine (Edits.block rfl).updated hd2 fun _ d3 c3 hd3 => ?_
    exact edits_setAddr.updated hd3 fun _ => hlast
  · exact hlast _ _ hd1

lemma edits_writeiFrom (fuel : ℕ) : ∀ (off : ℕ) (src : List (Option Byte)),
    Edits k i (writeiFrom sb k off src fuel) := by
  induction fuel with
  | zero => exact fun off src => .pure off
  | succ fuel ih =>
    intro off src
    rw [writeiFrom]
    split_ifs
    · exact .pure _
    refine (edits_bmap _).bind fun addr => (Edits.block rfl).bind fun ok => ?_
    split_ifs
    · exact ih _ _
    · exact .pure _

lemma spec_writei {off : ℕ} {src : List (Option Byte)} (hd : d.type ≠ 0) :
    Spec Rule {⟨k, i, .lock d true⟩} (writei sb k off src) fun _ B => locked k i true B := by
  refine Spec.op (.node k i d true) ?_
  rintro _ _ ⟨rfl, rfl⟩
  split_ifs
  · exact Spec.ret ⟨_, hd, rfl⟩
  · exact Spec.ret ⟨_, hd, rfl⟩
  refine (edits_writeiFrom _ _ _).updated hd fun last d1 c1 hd1 => ?_
  have htype : ∀ d : Inode, (if last > d.size.toNat then
      { d with size := BitVec.ofNat 32 last } else d).type = d.type := by
    intro d
    split_ifs <;> rfl
  refine (edits_assign htype).updated hd1 fun _ d2 c2 hd2 => ?_
  refine (spec_iupdate hd2).bind ?_
  rintro _ _ ⟨d3, hd3, rfl⟩
  exact Spec.ret ⟨d3, hd3, rfl⟩

lemma spec_ilock : Spec Rule {⟨k, i, .ref⟩} (ilock k) fun _ B => locked k i true B := by
  refine Spec.op (.acquiresleep k i) ?_
  rintro _ _ rfl
  exact Spec.perform (.readInode k i)

lemma spec_iput : Spec Rule {⟨k, i, .ref⟩} (iput k) fun _ B => B = 0 := by
  refine Spec.op (.iputTest k i) ?_
  rintro _ _ (⟨rfl, d, hd, rfl⟩ | ⟨rfl, rfl⟩)
  · refine (spec_itrunc hd).bind ?_
    rintro _ _ ⟨d', hd', rfl⟩
    -- the type is cleared and written
    refine Spec.op (.node k i d' true) ?_
    rintro _ _ ⟨rfl, rfl⟩
    refine Spec.op (.setNode k i _ _ true) ?_
    rintro _ _ rfl
    refine Spec.op (.iupdateFree k i _ false) ?_
    rintro _ _ rfl
    refine Spec.op (.invalidate k i) ?_
    rintro _ _ rfl
    refine Spec.op (.releasesleep k i) ?_
    rintro _ _ rfl
    exact Spec.perform (.iputDrop k i)
  · exact Spec.ret rfl

lemma spec_iallocFrom {type : BitVec 16} (inums : List ℕ) :
    Spec Rule 0 (iallocFrom type inums) fun k B => ∃ i, B = {⟨k, i, .ref⟩} := by
  induction inums with
  | nil => exact spec_panic
  | cons inum inums ih =>
    refine Spec.op (.iallocTry inum type) ?_
    rintro found _ rfl
    split_ifs
    · exact (Spec.perform (.iget inum)).mono fun k B hB => ⟨inum, hB⟩
    · exact ih

end Specs

/-! ### Calls -/

def IsRef (k : ISlot) (t : Token) : Prop := ∃ i, t = ⟨k, i, .ref⟩

def IsLock (k : ISlot) (t : Token) : Prop := ∃ i d, d.type ≠ 0 ∧ t = ⟨k, i, .lock d true⟩

/-- What a process holds between two calls. -/
def Holds (a : Held) (r : Multiset Token) : Prop :=
  ∃ R L, Rel IsRef a.refs R ∧ Rel IsLock a.locks L ∧ r = R + L

variable {T : ISlot → Token → Prop} {R : Multiset Token} {l : List ISlot}

/-- The token of one of the inodes of a list, and the tokens of the others. -/
lemma rel_of_mem
    (h : Rel T l R) (hk : k ∈ l) :
    ∃ t R', T k t ∧ Rel T (l.erase k : List ISlot) R' ∧ R = {t} + R' := by
  have hcons : (l : Multiset ISlot) = k ::ₘ (l.erase k : List ISlot) := by
    rw [← coe_erase, cons_erase (mem_coe.2 hk)]
  rw [hcons, rel_cons_left] at h
  obtain ⟨t, R', ht, hR, rfl⟩ := h
  exact ⟨t, R', ht, hR, rfl⟩

lemma rel_cons {t : Token}
    (ht : T k t) (h : Rel T l R) : Rel T (k :: l : List ISlot) ({t} + R) := by
  rw [← cons_coe, singleton_add]
  exact h.cons ht

/-- A function for an inode that the process has locked. -/
lemma spec_onLocked {α : Type} {f : Kernel α} {a : Held} {g : Kernel Held}
    (hf : ∀ i d, d.type ≠ 0 → Spec Rule {⟨k, i, .lock d true⟩} f fun _ B => locked k i true B)
    (hg : onLocked a k f = some g) (hr : Holds a r) : Spec Rule r g Holds := by
  rw [onLocked] at hg
  split_ifs at hg with ha
  cases hg
  obtain ⟨R, L, hR, hL, rfl⟩ := hr
  obtain ⟨_, L', ⟨i, d, hd, rfl⟩, hL', rfl⟩ := rel_of_mem hL ha.2
  rw [add_left_comm]
  refine (hf i d hd).seq ?_
  rintro _ _ ⟨d', hd', rfl⟩
  refine Spec.ret ⟨R, {⟨k, i, .lock d' true⟩} + L', hR, ?_, add_left_comm _ _ _⟩
  have hcons : (a.locks : Multiset ISlot) = k ::ₘ (a.locks.erase k : List ISlot) := by
    rw [← coe_erase, cons_erase (mem_coe.2 ha.2)]
  rw [hcons]
  exact hL'.cons ⟨i, d', hd', rfl⟩

/-- A block operation beside what the process holds. -/
lemma spec_block {a b : Held} (ho : o.blockOnly = true)
    (hb : b.refs = a.refs ∧ b.locks = a.locks) (hr : Holds a r) :
    Spec Rule r (do let _ ← run o; pure b) Holds := by
  rw [← zero_add r]
  refine Spec.opSeq (.block o ho) ?_
  rintro _ _ rfl
  rw [zero_add]
  refine Spec.ret ?_
  rw [Holds, hb.1, hb.2]
  exact hr

/-- Every call ends with the references and locks that the process then holds. -/
lemma spec_body {c : Call} {a : Held} {g : Kernel Held}
    (hg : body sb c a = some g) (hr : Holds a r) : Spec Rule r g Holds := by
  obtain ⟨R, L, hR, hL, rfl⟩ := id hr
  cases c with rw [body] at hg
  | beginOp | endOp =>
    split_ifs at hg
    cases hg
    exact spec_block rfl ⟨rfl, rfl⟩ hr
  | iget inum =>
    split_ifs at hg
    cases hg
    rw [← zero_add (R + L)]
    refine Spec.opSeq (.iget inum) ?_
    rintro k _ rfl
    exact Spec.ret ⟨_, L, rel_cons ⟨inum, rfl⟩ hR, hL, (add_assoc _ _ _).symm⟩
  | idup ip =>
    split_ifs at hg with hip
    cases hg
    obtain ⟨_, R', ⟨i, rfl⟩, hR', rfl⟩ := rel_of_mem hR hip
    rw [add_assoc]
    refine Spec.opSeq (.idup ip i) ?_
    rintro _ _ rfl
    refine Spec.ret ⟨_, L, rel_cons ⟨i, rfl⟩ hR, hL, ?_⟩
    simp only [add_assoc]
  | ilock ip =>
    split_ifs at hg with hip
    cases hg
    obtain ⟨_, R', ⟨i, rfl⟩, hR', rfl⟩ := rel_of_mem hR hip
    rw [add_assoc]
    refine spec_ilock.seq ?_
    rintro _ _ ⟨d, hd, rfl⟩
    exact Spec.ret ⟨R', _, hR', rel_cons ⟨i, d, hd, rfl⟩ hL, add_left_comm _ _ _⟩
  | iunlock ip =>
    split_ifs at hg with hip
    cases hg
    obtain ⟨_, L', ⟨i, d, hd, rfl⟩, hL', rfl⟩ := rel_of_mem hL hip
    rw [add_left_comm]
    refine Spec.opSeq (.iunlock ip i d) ?_
    rintro _ _ rfl
    exact Spec.ret ⟨_, L', rel_cons ⟨i, rfl⟩ hR, hL', (add_assoc _ _ _).symm⟩
  | iput ip =>
    split_ifs at hg with hip
    cases hg
    obtain ⟨_, R', ⟨i, rfl⟩, hR', rfl⟩ := rel_of_mem hR hip.2
    rw [add_assoc]
    refine spec_iput.seqNext fun _ => ?_
    exact Spec.ret ⟨R', L, hR', hL, zero_add _⟩
  | ialloc type =>
    split_ifs at hg
    cases hg
    rw [← zero_add (R + L)]
    refine (spec_iallocFrom _).seq ?_
    rintro k _ ⟨i, rfl⟩
    exact Spec.ret ⟨_, L, rel_cons ⟨i, rfl⟩ hR, hL, (add_assoc _ _ _).symm⟩
  | init ip major minor | nlinkUp ip | nlinkDown ip =>
    refine spec_onLocked (fun i d hd => ?_) hg hr
    exact spec_update (fun _ => rfl) hd
  | itrunc ip => exact spec_onLocked (fun _ _ hd => spec_itrunc hd) hg hr
  | writei ip off src => exact spec_onLocked (fun _ _ hd => spec_writei hd) hg hr

/-! ### Runs -/

section Runs

variable [Fintype P] [DecidableEq P]

/-- Nobody refers to an inode. -/
def Start (s : State P) : Prop := ∀ k, (s.itable k).ref = 0

/-- No process has called anything yet. -/
def boot (s : State P) : Sys P := { shared := s, thread := fun _ => .ret {} }

/-- Inodes are unique and coherent. -/
def Coherent (s : State P) : Prop :=
  (∀ k k', 0 < (s.itable k).ref → 0 < (s.itable k').ref →
    (s.itable k).inum = (s.itable k').inum → k = k') ∧
  ∀ k, 0 < (s.itable k).ref → (s.itable k).valid = true → (s.itable k).lock = none →
    (s.itable k).node = s.dinode (s.itable k).inum

/-- When `ilock` ends, the process sees the inode on the disk. -/
def Fresh (sb : Super) (s : Sys P) : Prop :=
  ∀ p k t, s.next p = some (.readInode k) → step sb s (.step p) = .ok t →
    (t.shared.itable k).valid = true ∧
      (t.shared.itable k).node = t.shared.dinode (t.shared.itable k).inum ∧
      (t.shared.itable k).node.type ≠ 0

/-- The tokens can be divided among the processes. -/
def Divided (s : Sys P) : Prop :=
  Owned (framed Rule) (fun s res => TableInv s (∑ p, res p)) Holds s

omit [Fintype P] [DecidableEq P] in
lemma TableInv.coherent (h : TableInv s W) : Coherent s :=
  ⟨h.unique, fun _ hpos hv hfree => (h.coh _ hpos hv (h.not_loose_of_free hfree)).1⟩

lemma Divided.fresh {s : Sys P} (h : Divided s) : Fresh sb s := by
  obtain ⟨res, hinv, hown⟩ := h
  intro p k t hnext hstep
  rw [Pool.next] at hnext
  split at hnext
  · cases hnext
  rename_i o f hp
  cases hnext
  rw [step, poolStep, hp] at hstep
  dsimp only at hstep
  split at hstep
  · rename_i u x hx
    cases hstep
    have hop : own (framed Rule) (.op (.readInode k) f) Holds (res p) := hp ▸ hown p
    obtain ⟨Φ, ⟨A, F, Ψ, hrule, hr, -⟩, -⟩ := hop
    rw [sum_eq_add_erase res p, hr, add_assoc] at hinv
    cases hrule with
    | block o ho => cases ho
    | readInode k i =>
      obtain ⟨B, ⟨d, hd, rfl⟩, hinv'⟩ := (Rule.readInode k i).sound hinv hx
      obtain ⟨hi, hv, hnode, -, hdisk⟩ := hinv'.means _ (mem_cons_self _ _)
      refine ⟨hv, ?_, ?_⟩
      · rw [hnode, hi]
        exact (hdisk rfl).symm
      · rw [hnode]
        exact hd
  · cases hstep

omit [DecidableEq P] in
lemma Start.divided {s : State P} (h : Start s) : Divided (boot s) := by
  refine ⟨fun _ => 0, ?_, fun p => ⟨0, 0, .zero, .zero, rfl⟩⟩
  change TableInv s (∑ _p : P, 0)
  rw [Finset.sum_const_zero]
  exact
    { means := by simp, refs := h, locks := fun k => Nat.zero_le _
      unique := fun k k' hpos => absurd hpos (by rw [h k]; decide)
      coh := fun k hpos => absurd hpos (by rw [h k]; decide) }

/-- Inodes are unique and coherent in every state of every run, and `ilock` always ends with the
inode on the disk. -/
theorem inodeCoherent_of_run {s₀ : State P} (h₀ : Start s₀) {tr : List (Sys P × Act P Call)}
    {s : Sys P}
    (h : Run (step sb) (boot s₀) tr s) :
    (∀ x ∈ tr, Coherent x.1.shared ∧ Fresh sb x.1) ∧ Coherent s.shared ∧ Fresh sb s := by
  have hgood : ∀ s : Sys P, Divided s → Coherent s.shared ∧ Fresh sb s :=
    fun s hs => ⟨hs.choose_spec.1.coherent, hs.fresh⟩
  have hdiv := h.invariant' (fun s a t hs hstep => ?_) h₀.divided
  · exact ⟨fun x hx => hgood _ (hdiv.1 x hx), hgood _ hdiv.2⟩
  refine Owned.of_poolStep ?_ (fun c a m r hm hr => (spec_body hm hr).own) hs meets_true hstep
  exact sound_framed (M := fun _ _ => True) fun hrule hinv _ hx => hrule.sound hinv hx

end Runs

/-! ### Two runs -/

/-- A disk with two files, and the table as `iinit` leaves it. -/
def twoFiles {P : Type} : State P :=
  { itable := fun _ => { node := .fresh 0 }
    dinode := fun i => if i = 1 ∨ i = 2 then { Inode.fresh 2 with nlink := 1 } else .fresh 0
    bit := fun _ => true, blk := fun _ => .zero }

def smallSuper : Super := { size := 100, ninodes := 3, bmapstart := 40 }

lemma start_twoFiles {P : Type} : Start (twoFiles : State P) := fun _ => rfl

/-- Process `p` frees inode 1.  Before it marks the entry as invalid, process `q` allocates the
inode again and waits for the lock. -/
def reuseScript {P : Type} (p q : P) : List (Act P Call) :=
  script p [(.iget 1, 1), (.ilock 0, 2), (.beginOp, 1), (.nlinkDown 0, 3), (.iunlock 0, 1),
      (.iput 0, 20)] ++ script q [(.beginOp, 1), (.ialloc 3, 2), (.ilock 0, 0)] ++
    [.step p, .step p, .step q, .step q, .step p]

/-- The theorem at a run in which an inode is freed and allocated at the same time. -/
theorem inodeCoherent_of_run_reuse : ∃ tr s,
    Run (step smallSuper) (boot twoFiles : Sys (Fin 2)) tr s ∧
    (s.shared.itable 0).ref = 1 ∧ (s.shared.itable 0).node.type = 3 ∧
    (∀ x ∈ tr, Coherent x.1.shared ∧ Fresh smallSuper x.1) ∧ Coherent s.shared ∧
    Fresh smallSuper s := by
  obtain ⟨s, hs, htest⟩ := exists_of_okAnd (runList (step smallSuper) (boot twoFiles)
      (reuseScript (0 : Fin 2) 1))
      (fun s => decide ((s.shared.itable 0).ref = 1 ∧ (s.shared.itable 0).node.type = 3))
      (by decide +kernel)
  obtain ⟨href, htype⟩ := of_decide_eq_true htest
  have hrun := inodeCoherent_of_run start_twoFiles (.of_runList hs)
  exact ⟨_, s, .of_runList hs, href, htype, hrun⟩

/-- Inode 1 is read into entry 1, because inode 2 has entry 0.  Both are given up, and then inode 1
is read into entry 0 and changed. -/
def staleScript {P : Type} (p : P) : List (Act P Call) :=
  script p [(.iget 2, 1), (.iget 1, 1), (.ilock 1, 2), (.iunlock 1, 1), (.beginOp, 1), (.iput 1, 1),
    (.iput 0, 1), (.iget 1, 1), (.ilock 0, 2), (.nlinkUp 0, 3), (.iunlock 0, 1)]

/-- A valid entry to which nobody refers can differ from the disk. -/
theorem not_coherent_of_unused : ¬ ∀ sb (s₀ : State (Fin 1)), Start s₀ →
    ∀ tr s, Run (step sb) (boot s₀) tr s → ∀ k, (s.shared.itable k).valid = true →
      (s.shared.itable k).lock = none →
      (s.shared.itable k).node = s.shared.dinode (s.shared.itable k).inum := by
  intro hall
  obtain ⟨s, hs, htest⟩ := exists_of_okAnd (runList (step smallSuper) (boot twoFiles)
      (staleScript (0 : Fin 1)))
      (fun s => decide ((s.shared.itable 1).valid = true ∧ (s.shared.itable 1).lock = none ∧
      (s.shared.itable 1).node.nlink ≠ (s.shared.dinode (s.shared.itable 1).inum).nlink))
      (by decide +kernel)
  obtain ⟨hv, hfree, hne⟩ := of_decide_eq_true htest
  refine hne (congrArg Inode.nlink ?_)
  exact hall smallSuper twoFiles start_twoFiles _ s (.of_runList hs) 1 hv hfree

end Hexv6.Ino
