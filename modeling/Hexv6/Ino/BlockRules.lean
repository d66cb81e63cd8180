import Hexv6.Ino.Keep

/-!
# Rules for blocks

The rules for operations, with the blocks in hand.  Operations that only concern the inode table
follow the rules of `Hexv6.Ino.Unique`.  A process that has the lock of an inode and is inside a
transaction may take the blocks of the inode into its hand when it looks at the inode (`take`), and
gives them back with `iupdate`.
-/

namespace Hexv6.Ino

open Lib Multiset
open Blk (Block Inode mapped)

/-- The operation changes nothing but an entry of the inode table to which the process refers. -/
def Op.tableOnly : Op → Bool
  | .idup _ | .acquiresleep _ | .readInode _ | .iunlock _ | .node _ | .iputTest _ | .invalidate _ |
    .releasesleep _ | .iputDrop _ => true
  | _ => false

/-- The data block to which an operation writes, and how it changes. -/
def Op.writes : Op → Option (BitVec 32 × (Block → Block))
  | .bzero a => some (a, fun _ => .zero)
  | .setWord a j x => some (a, fun b => b.setWord j x)
  | .copyin a off src => some (a, fun b => b.paste off (mapped src))
  | _ => none

/-- The operation, the tokens that it uses, and its result with the tokens that it leaves. -/
inductive BRule (sb : Super) :
    (o : Op) → Multiset BToken → (o.Result → Multiset BToken → Prop) → Prop
  | table (o : Op) (A : Multiset Token) (Ψ : o.Result → Multiset Token → Prop) (h : Rule o A Ψ)
      (ho : o.tableOnly = true) :
      BRule sb o (A.map .slot) fun x B => ∃ B₀, Ψ x B₀ ∧ B = B₀.map .slot
  | beginOp : BRule sb .beginOp 0 fun _ B => B = {.op}
  | endOp : BRule sb .endOp {.op} fun _ B => B = 0
  | iget (i : ℕ) (hi : i < sb.ninodes.toNat) :
      BRule sb (.iget i) 0 fun k B => B = {.slot ⟨k, i, .ref⟩}
  | iallocTry (i : ℕ) (type : BitVec 16) : BRule sb (.iallocTry i type) 0 fun _ B => B = 0
  /-- look at an inode that nobody changes -/
  | node (k : ISlot) (i : ℕ) (d : Inode) :
      BRule sb (.node k) {.slot ⟨k, i, .lock d true⟩} fun x B =>
        x = d ∧ (∃ w, Filled w d d.size.toNat) ∧ B = {.slot ⟨k, i, .lock d true⟩}
  /-- look at the indirect block of an inode that nobody changes -/
  | word (k : ISlot) (i : ℕ) (d : Inode) (j : ℕ) :
      BRule sb (.word (d.addrs indirect) j) {.slot ⟨k, i, .lock d true⟩} fun x B =>
        (∃ w, Filled w d d.size.toNat ∧ x = (w (d.addrs indirect)).word j) ∧
          B = {.slot ⟨k, i, .lock d true⟩}
  /-- look at an inode in order to change it -/
  | take (k : ISlot) (i : ℕ) (d : Inode) :
      BRule sb (.node k) ({.slot ⟨k, i, .lock d true⟩} + {.op}) fun x B =>
        x = d ∧ ∃ w, (footprint w d).Nodup ∧ Filled w d d.size.toNat ∧
          B = {.work k i d (footprint w d) w}
  | nodeInHand (k : ISlot) (i : ℕ) (d : Inode) (H : Multiset (BitVec 32)) (w : BitVec 32 → Block) :
      BRule sb (.node k) {.work k i d H w} fun x B => x = d ∧ B = {.work k i d H w}
  | setNode (k : ISlot) (i : ℕ) (d d' : Inode) (H : Multiset (BitVec 32)) (w : BitVec 32 → Block) :
      BRule sb (.setNode k d') {.work k i d H w} fun _ B => B = {.work k i d' H w}
  | iupdate (k : ISlot) (i : ℕ) (d : Inode) (w : BitVec 32 → Block) (hd : d.type ≠ 0)
      (hf : Filled w d d.size.toNat) :
      BRule sb (.iupdate k) {.work k i d (footprint w d) w} fun _ B =>
        B = {.slot ⟨k, i, .lock d true⟩} + {.op}
  | iupdateFree (k : ISlot) (i : ℕ) (d : Inode) (w : BitVec 32 → Block) (hd : d.type = 0) :
      BRule sb (.iupdate k) {.work k i d 0 w} fun _ B => B = {.slot ⟨k, i, .freed⟩} + {.op}
  | allocBit (n : ℕ) (k : ISlot) (i : ℕ) (d : Inode) (H : Multiset (BitVec 32))
      (w : BitVec 32 → Block) :
      BRule sb (.allocBit n) {.work k i d H w} fun x B =>
        x = none ∧ B = {.work k i d H w} ∨
        ∃ a v, x = some a ∧ a ≠ 0 ∧ a ∉ H ∧ B = {.work k i d (a ::ₘ H) (Function.update w a v)}
  | bfree (a : BitVec 32) (k : ISlot) (i : ℕ) (d : Inode) (H : Multiset (BitVec 32))
      (w : BitVec 32 → Block) :
      BRule sb (.bfree a) {.work k i d (a ::ₘ H) w} fun _ B => B = {.work k i d H w}
  | wordInHand (a : BitVec 32) (j : ℕ) (k : ISlot) (i : ℕ) (d : Inode) (H : Multiset (BitVec 32))
      (w : BitVec 32 → Block) (ha : a ∈ H) :
      BRule sb (.word a j) {.work k i d H w} fun x B =>
        x = (w a).word j ∧ B = {.work k i d H w}
  | write (o : Op) (a : BitVec 32) (f : Block → Block) (ho : o.writes = some (a, f)) (k : ISlot)
      (i : ℕ) (d : Inode) (H : Multiset (BitVec 32)) (w : BitVec 32 → Block) (ha : a ∈ H) :
      BRule sb o {.work k i d H w} fun _ B =>
        B = {.work k i d H (Function.update w a (f (w a)))}
  | panic (e : Panic) (he : e ≠ .freeingFreeBlock ∧ e ≠ .metadata) (A : Multiset BToken) :
      BRule sb (.panic e) A fun _ _ => False

variable {P : Type} {sb : Super} {s s' : State P} {A F : Multiset BToken} {k : ISlot} {i : ℕ}
  {d : Inode} {H : Multiset (BitVec 32)} {w : BitVec 32 → Block} {a : BitVec 32}
  {o : Op} {x : o.Result} {Ψ : o.Result → Multiset Token → Prop} {p : P}

/-! ### Operations on the table -/

/-- The operation leaves tokens for the inodes for which it was given some. -/
lemma Rule.inum {A B : Multiset Token}
    (h : Rule o A Ψ) (ho : o.tableOnly = true) (hB : Ψ x B) {t : Token}
    (ht : t ∈ B) : ∃ t' ∈ A, t'.i = t.i := by
  cases h with
  | block o _ =>
    obtain rfl := hB
    cases ht
  | iget | iallocTry | setNode | iupdate | iupdateFree | panic => cases ho
  | idup k i =>
    obtain rfl := hB
    rcases mem_add.1 ht with ht | ht <;> exact ⟨_, mem_singleton_self _, by rw [mem_singleton.1 ht]⟩
  | readInode k i =>
    obtain ⟨d, -, rfl⟩ := hB
    exact ⟨_, mem_singleton_self _, by rw [mem_singleton.1 ht]⟩
  | node k i d c =>
    obtain ⟨-, rfl⟩ := hB
    exact ⟨_, mem_singleton_self _, by rw [mem_singleton.1 ht]⟩
  | iputTest k i =>
    rcases hB with ⟨-, d, -, rfl⟩ | ⟨-, rfl⟩
    · exact ⟨_, mem_singleton_self _, by rw [mem_singleton.1 ht]⟩
    · cases ht
  | acquiresleep | iunlock | invalidate | releasesleep | iputDrop =>
    obtain rfl := hB
    first
      | exact ⟨_, mem_singleton_self _, by rw [mem_singleton.1 ht]⟩
      | cases ht

/-- What the tokens of the table have to do with blocks. -/
lemma slots_base (A : Multiset Token) : (A.map BToken.slot).filterMap BToken.base = A := by
  induction A using Multiset.induction with
  | empty => rfl
  | cons t A ih => rw [map_cons, filterMap_slot, ih]

lemma slots_opens (A : Multiset Token) : (A.map BToken.slot).countP (·.opens i) = 0 := by
  rw [countP_eq_zero]
  intro t ht
  obtain ⟨x, -, rfl⟩ := mem_map.1 ht
  exact Bool.false_ne_true

lemma slots_isOp (A : Multiset Token) : (A.map BToken.slot).countP (·.isOp) = 0 := by
  rw [countP_eq_zero]
  intro t ht
  obtain ⟨x, -, rfl⟩ := mem_map.1 ht
  exact Bool.false_ne_true

lemma slots_inHand (A : Multiset Token) : inHand (A.map BToken.slot) = 0 := by
  rw [inHand, map_map]
  exact sum_eq_zero fun x hx => by
    obtain ⟨t, -, rfl⟩ := mem_map.1 hx
    rfl

lemma inHand_add (W W' : Multiset BToken) : inHand (W + W') = inHand W + inHand W' := by
  rw [inHand, Multiset.map_add, sum_add]
  rfl

section Sound

variable [DecidableEq P]

lemma exec_tableOnly (ho : o.tableOnly = true)
    (hx : exec sb p o s = .ok (s', x)) : s'.dinode = s.dinode ∧ s'.bit = s.bit ∧ s'.blk = s.blk ∧
      s'.outstanding = s.outstanding := by
  cases o with
  | idup | node | invalidate | releasesleep | iputDrop =>
    cases hx
    exact ⟨rfl, rfl, rfl, rfl⟩
  | acquiresleep | readInode | iunlock | iputTest =>
    rw [exec] at hx
    split_ifs at hx <;>
      · cases hx
        exact ⟨rfl, rfl, rfl, rfl⟩
  | _ => cases ho

/-- The rules of the table, for an operation that leaves the disk alone. -/
lemma BlockInv.tableStep {A : Multiset Token}
    (hrule : Rule o A Ψ)
    (ho : o.tableOnly = true) (h : BlockInv sb s (A.map .slot + F))
    (hx : exec sb p o s = .ok (s', x)) :
    ∃ B, Ψ x B ∧ BlockInv sb s' (B.map .slot + F) := by
  have htable := h.table
  have hinums := h.inums
  have hops := h.ops
  rw [filterMap_add, slots_base] at htable hinums
  rw [countP_add, slots_isOp, zero_add] at hops
  obtain ⟨B, hB, htable'⟩ := hrule.sound htable hx
  obtain ⟨hdisk, hbit, hblk, hout⟩ := exec_tableOnly ho hx
  refine ⟨B, hB, h.of_table hdisk hbit hblk ?_ ?_ (fun t ht => ?_) (fun t ht => ?_) ?_ fun i => ?_⟩
  · rw [countP_add, slots_isOp, zero_add, hout, hops]
  · rwa [filterMap_add, slots_base]
  · rw [filterMap_add, slots_base] at ht
    rcases mem_add.1 ht with ht | ht
    · obtain ⟨t', ht', hi⟩ := hrule.inum ho hB ht
      exact hi ▸ hinums t' (mem_add.2 (.inl ht'))
    · exact hinums t (mem_add.2 (.inr ht))
  · rcases mem_add.1 ht with ht | ht
    · obtain ⟨y, -, rfl⟩ := mem_map.1 ht
      trivial
    · exact h.knows t (mem_add.2 (.inr ht))
  · rw [inHand_add, inHand_add, slots_inHand, slots_inHand]
  · rw [countP_add, countP_add, slots_opens, slots_opens]

end Sound

end Hexv6.Ino
