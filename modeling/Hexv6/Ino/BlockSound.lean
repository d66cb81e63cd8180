import Hexv6.Ino.BlockRules

/-!
# The rules for blocks are sound

Every operation that follows the rules keeps the division of the blocks, no block is freed twice,
and no metadata block is used as a data block.
-/

namespace Hexv6.Ino

open Lib Multiset
open Blk (Block Inode)

variable {P : Type} {sb : Super} {s s' : State P} {A F : Multiset BToken} {k : ISlot} {i : ℕ}
  {d : Inode} {H : Multiset (BitVec 32)} {w : BitVec 32 → Block} {a : BitVec 32}

/-- `iget` leaves the disk alone. -/
lemma iget_disk (hx : s.iget i = .ok (s', k)) : s'.dinode = s.dinode ∧ s'.bit = s.bit ∧
    s'.blk = s.blk ∧ s'.outstanding = s.outstanding := by
  rw [State.iget] at hx
  split at hx
  · cases hx
    exact ⟨rfl, rfl, rfl, rfl⟩
  split at hx
  · cases hx
    exact ⟨rfl, rfl, rfl, rfl⟩
  · cases hx

lemma BlockInv.node_eq (h : BlockInv sb s (.slot ⟨k, i, .lock d true⟩ ::ₘ F)) :
    (s.itable k).node = d := by
  obtain ⟨-, -, hnode, -, -⟩ := h.table_cons.means _ (mem_cons_self _ _)
  exact hnode

lemma BlockInv.node_work (h : BlockInv sb s (.work k i d H w ::ₘ F)) :
    (s.itable k).inum = i ∧ (s.itable k).node = d := by
  obtain ⟨hi, -, hnode, -, -⟩ := h.table_work.means _ (mem_cons_self _ _)
  exact ⟨hi, hnode⟩

section Sound

variable [DecidableEq P]

/-- An operation that writes to a block in hand. -/
lemma BlockInv.write {p : P} {o : Op} {x : o.Result} {f : Block → Block}
    (h : BlockInv sb s (.work k i d H w ::ₘ F)) (ho : o.writes = some (a, f)) (ha : a ∈ H)
    (hx : exec sb p o s = .ok (s', x)) :
    BlockInv sb s' (.work k i d H (Function.update w a (f (w a))) ::ₘ F) := by
  have hblock : ∀ {b : BitVec 32} {g : Block → Block} {α : Type} {y : α} {c : α},
      (onBlock sb s b g).map (fun t => (t, c)) = .ok (s', y) → s' = s.store b (g (s.blk b)) := by
    intro b g α y c hmap
    rw [onBlock] at hmap
    split_ifs at hmap
    · cases hmap
    · exact (Prod.mk.inj (Except.ok.inj hmap)).1.symm
  cases o with
  | bzero | setWord | copyin =>
    cases ho
    rw [hblock hx, ← h.blk_eq ha]
    exact h.store ha _
  | _ => cases ho

/-- Every operation keeps the invariant, and leaves the tokens that its rule says. -/
theorem BRule.sound {p : P} {o : Op} {Ψ : o.Result → Multiset BToken → Prop} {x : o.Result}
    (hrule : BRule sb o A Ψ) (h : BlockInv sb s (A + F)) (hx : exec sb p o s = .ok (s', x)) :
    ∃ B, Ψ x B ∧ BlockInv sb s' (B + F) := by
  cases hrule with
  | table o A Ψ hr ho =>
    obtain ⟨B, hB, h'⟩ := BlockInv.tableStep hr ho h hx
    exact ⟨_, ⟨B, hB, rfl⟩, h'⟩
  | beginOp =>
    cases hx
    rw [zero_add] at h
    exact ⟨_, rfl, h.beginOp⟩
  | endOp =>
    cases hx
    refine ⟨_, rfl, ?_⟩
    rw [zero_add]
    exact h.endOp
  | iget i hi =>
    rw [zero_add] at h
    obtain ⟨hdisk, hbit, hblk, hout⟩ := iget_disk hx
    exact ⟨_, rfl, h.slot_new hdisk hbit hblk hout hi (h.table.iget hx)⟩
  | iallocTry i type =>
    rw [zero_add] at h
    refine ⟨0, rfl, ?_⟩
    rw [zero_add]
    rw [exec] at hx
    split_ifs at hx with hfree
    · cases hx
      exact h.ialloc hfree type
    · cases hx
      exact h
  | node k i d =>
    cases hx
    exact ⟨_, ⟨h.node_eq, ⟨_, h.of_lock.2⟩, rfl⟩, h⟩
  | word k i d j =>
    cases hx
    exact ⟨_, ⟨⟨s.blk, h.of_lock.2, rfl⟩, rfl⟩, h⟩
  | take k i d =>
    cases hx
    rw [add_assoc, singleton_add, singleton_add] at h
    exact ⟨_, ⟨h.node_eq, s.blk, h.of_lock.1, h.of_lock.2, rfl⟩, h.take⟩
  | nodeInHand k i d H w =>
    cases hx
    exact ⟨_, ⟨h.node_work.2, rfl⟩, h⟩
  | setNode k i d d' H w =>
    cases hx
    exact ⟨_, rfl, h.setNode d'⟩
  | iupdate k i d w hd hf =>
    cases hx
    obtain ⟨hi, hnode⟩ := h.node_work
    refine ⟨_, rfl, ?_⟩
    rw [hi, hnode, add_assoc, singleton_add, singleton_add]
    exact h.iupdate hd rfl hf
  | iupdateFree k i d w hd =>
    cases hx
    obtain ⟨hi, hnode⟩ := h.node_work
    refine ⟨_, rfl, ?_⟩
    rw [hi, hnode, add_assoc, singleton_add, singleton_add]
    exact h.iupdateFree hd
  | allocBit n k i d H w =>
    rw [exec] at hx
    rcases hfind : s.findFree sb n with _ | a
    · rw [hfind] at hx
      cases hx
      exact ⟨_, .inl ⟨rfl, rfl⟩, h⟩
    rw [hfind] at hx
    cases hx
    obtain ⟨hne, hmem, h'⟩ := h.allocBit hfind
    exact ⟨_, .inr ⟨a, _, rfl, hne, hmem, rfl⟩, h'⟩
  | bfree a k i d H w =>
    rw [exec] at hx
    split_ifs at hx
    cases hx
    exact ⟨_, rfl, h.bfree.2⟩
  | wordInHand a j k i d H w ha =>
    cases hx
    exact ⟨_, ⟨by rw [h.blk_eq ha], rfl⟩, h⟩
  | write o a f ho k i d H w ha =>
    exact ⟨_, rfl, h.write ho ha hx⟩
  | panic e he A => cases hx

/-- No block that is free is freed, and no metadata block is used as a data block. -/
theorem BRule.ne_error {p : P} {o : Op} {Ψ : o.Result → Multiset BToken → Prop} {e : Panic}
    (hrule : BRule sb o A Ψ) (h : BlockInv sb s (A + F))
    (he : e = .freeingFreeBlock ∨ e = .metadata) : exec sb p o s ≠ .error e := by
  intro hx
  -- a block in hand is a data block
  have hblock : ∀ {b : BitVec 32} {g : Block → Block} {α : Type} {c : α} {k i d H w},
      BlockInv sb s ({.work k i d H w} + F) → b ∈ H →
      (onBlock sb s b g).map (fun t => (t, c)) ≠ .error e := by
    intro b g α c k i d H w h hb hmap
    rw [onBlock, if_neg (h.of_mem_hand hb).1] at hmap
    cases hmap
  cases o with
  | bfree a =>
    cases hrule with
    | bfree a k i d H w =>
      rw [exec, h.bfree.1] at hx
      cases hx
    | table o A Ψ hr ho => cases ho
    | write o a f ho => cases ho
  | panic e' =>
    cases hrule with
    | panic e' he' A =>
      obtain rfl := Except.error.inj hx
      exact he.elim he'.1 he'.2
    | table o A Ψ hr ho => cases ho
    | write o a f ho => cases ho
  | bzero | setWord | copyin =>
    cases hrule with
    | table o A Ψ hr ho => cases ho
    | write o b f ho k i d H w hb =>
      obtain ⟨rfl, -⟩ := Prod.mk.inj (Option.some.inj ho)
      exact hblock h hb hx
  | iget i =>
    have hx' : s.iget i = .error e := hx
    rw [State.iget] at hx'
    split at hx'
    · cases hx'
    · split at hx' <;> cases hx'
      rcases he with he | he <;> cases he
  | allocBit n =>
    rw [exec] at hx
    split at hx <;> cases hx
  | acquiresleep | readInode | iunlock | iputTest | iallocTry =>
    simp only [exec] at hx
    split_ifs at hx <;> cases hx <;> rcases he with he | he <;> cases he
  | _ => cases hx

end Sound

end Hexv6.Ino
