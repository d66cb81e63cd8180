import Mathlib.Data.BitVec
import Mathlib.Data.List.ReduceOption
import Hexv6.Lib.Circle
import Hexv6.Param

/-!
# The buffer cache

The buffers of `kernel/bio.c` and what its functions do with them while they hold
`bcache.lock`: `bget`, the second half of `brelse`, `bpin` and `bunpin`.  A pointer to a
`struct buf` is the index of the buffer, or `none` for `&bcache.head`.

The sleep lock of a buffer is the process that holds it.  The processes `P` and the contents
`D` of a block are arbitrary types here.
-/

namespace Hexv6.Bio

open Lib List

/-- A buffer of `bcache.buf`. -/
abbrev BufId := Fin NBUF

/-- A pointer to a buffer or to `bcache.head`. -/
abbrev Ptr := Option BufId

/-- `struct buf` without its links. -/
structure Buf (P D : Type) where
  valid : Bool := false
  dev : BitVec 32 := 0
  blockno : BitVec 32 := 0
  lock : Option P := none
  refcnt : BitVec 32 := 0
  data : D

/-- `bcache`. -/
structure Bcache (P D : Type) where
  buf : BufId → Buf P D
  next : Ptr → Ptr
  prev : Ptr → Ptr

variable {P D : Type}

namespace Bcache

/-- Change one buffer. -/
def modify (c : Bcache P D) (b : BufId) (f : Buf P D → Buf P D) : Bcache P D :=
  { c with buf := Function.update c.buf b (f (c.buf b)) }

/-- Put a buffer behind the head of the list. -/
def link (c : Bcache P D) (b : BufId) : Bcache P D :=
  let p := insertAfter c.next c.prev none (some b)
  { c with next := p.1, prev := p.2 }

/-- Take a buffer out of the list. -/
def unlink (c : Bcache P D) (b : BufId) : Bcache P D :=
  let p := Lib.unlink c.next c.prev (some b)
  { c with next := p.1, prev := p.2 }

/-- `binit`.  The links of a buffer are not read before they are assigned. -/
def binit (data : D) : Bcache P D :=
  (finRange NBUF).foldl link
    { buf := fun _ => { data }, next := fun _ => none, prev := fun _ => none }

/-- The buffers that the loops of `bget` visit, along `next` or along `prev`. -/
def visits (next : Ptr → Ptr) : List BufId :=
  (walk next none (NBUF + 1) (next none)).reduceOption

/-- `bget` up to the call of `acquiresleep`; `none` is the panic for lack of buffers. -/
def bget (c : Bcache P D) (dev blockno : BitVec 32) : Option (BufId × Bcache P D) :=
  match (visits c.next).find? fun b => (c.buf b).dev = dev ∧ (c.buf b).blockno = blockno with
  | some b => some (b, c.modify b fun x => { x with refcnt := x.refcnt + 1 })
  | none =>
    match (visits c.prev).find? fun b => (c.buf b).refcnt = 0 with
    | some b =>
      some (b, c.modify b fun x =>
        { x with dev := dev, blockno := blockno, valid := false, refcnt := 1 })
    | none => none

/-- `brelse` after the call of `releasesleep`. -/
def unref (c : Bcache P D) (b : BufId) : Bcache P D :=
  let c := c.modify b fun x => { x with refcnt := x.refcnt - 1 }
  if (c.buf b).refcnt = 0 then (c.unlink b).link b else c

/-- `bpin`. -/
def bpin (c : Bcache P D) (b : BufId) : Bcache P D :=
  c.modify b fun x => { x with refcnt := x.refcnt + 1 }

/-- `bunpin`. -/
def bunpin (c : Bcache P D) (b : BufId) : Bcache P D :=
  c.modify b fun x => { x with refcnt := x.refcnt - 1 }

/-! ### Buffers and links -/

section Modify

variable (c : Bcache P D) (b : BufId) (f : Buf P D → Buf P D)

@[simp] lemma modify_buf_self : (c.modify b f).buf b = f (c.buf b) := Function.update_self ..

lemma modify_buf_of_ne {b' : BufId} (h : b' ≠ b) : (c.modify b f).buf b' = c.buf b' :=
  Function.update_of_ne h ..

lemma unref_buf : (c.unref b).buf =
    (c.modify b fun x => { x with refcnt := x.refcnt - 1 }).buf := by
  simp only [unref]
  split_ifs <;> rfl

end Modify

/-- The list of the buffers: following `next` from the head visits every buffer once. -/
def Ring (c : Bcache P D) : Prop :=
  ∃ l : List BufId, Circle c.next c.prev none (l.map some) ∧ ∀ b, b ∈ l

/-- No two buffers hold the same block. -/
def Unique (c : Bcache P D) : Prop :=
  ∀ b b', (c.buf b).dev ≠ 0 → (c.buf b).dev = (c.buf b').dev →
    (c.buf b).blockno = (c.buf b').blockno → b = b'

variable {c : Bcache P D} {c' : Bcache P D} {dev blockno : BitVec 32}

lemma Ring.of_eq (h : c.Ring) (hn : c'.next = c.next) (hp : c'.prev = c.prev) :
    c'.Ring := by
  obtain ⟨l, hl⟩ := h
  exact ⟨l, by rw [hn, hp]; exact hl⟩

lemma length_le_NBUF {l : List BufId} (h : l.Nodup) : l.length ≤ NBUF := by
  simpa using h.length_le_card

/-- The loops of `bget` visit every buffer, in both directions. -/
lemma Ring.mem_visits (h : c.Ring) (b : BufId) : b ∈ visits c.next ∧ b ∈ visits c.prev := by
  obtain ⟨l, hcircle, hall⟩ := h
  have hnodup : l.Nodup := (nodup_cons.1 hcircle.nodup).2.of_map some
  have hlen : (l.map some).length < NBUF + 1 := by
    simpa [Nat.lt_succ_iff] using length_le_NBUF hnodup
  constructor
  · rw [visits, hcircle.walk_eq hlen, reduceOption_mem_iff]
    simpa using hall b
  · rw [visits, hcircle.reverse.walk_eq (by simpa using hlen), reduceOption_mem_iff]
    simpa using hall b

/-- What `bget` does: it takes a reference to the buffer of the block, or makes an unused
buffer the buffer of the block. -/
lemma bget_cases (h : c.Ring) {b : BufId}
    (hget : c.bget dev blockno = some (b, c')) :
    ((c.buf b).dev = dev ∧ (c.buf b).blockno = blockno ∧
      c' = c.modify b fun x => { x with refcnt := x.refcnt + 1 }) ∨
    ((∀ b', (c.buf b').dev = dev → (c.buf b').blockno ≠ blockno) ∧ (c.buf b).refcnt = 0 ∧
      c' = c.modify b fun x =>
        { x with dev := dev, blockno := blockno, valid := false, refcnt := 1 }) := by
  rw [bget] at hget
  split at hget
  · rename_i b' hfind
    cases hget
    have hb := find?_some hfind
    rw [decide_eq_true_eq] at hb
    exact .inl ⟨hb.1, hb.2, rfl⟩
  rename_i hfind
  split at hget
  · rename_i b' hlru
    cases hget
    have hfree := find?_some hlru
    rw [decide_eq_true_eq] at hfree
    refine .inr ⟨fun b hd hn => ?_, hfree, rfl⟩
    have hnot := find?_eq_none.1 hfind b (h.mem_visits b).1
    exact hnot (decide_eq_true ⟨hd, hn⟩)
  · cases hget

lemma Ring.bget (h : c.Ring) {b : BufId}
    (hget : c.bget dev blockno = some (b, c')) : c'.Ring := by
  rcases bget_cases h hget with ⟨-, -, rfl⟩ | ⟨-, -, rfl⟩
  · exact h.of_eq rfl rfl
  · exact h.of_eq rfl rfl

/-- The buffer that `brelse` puts at the front of the list was somewhere in it. -/
lemma Ring.unref (h : c.Ring) (b : BufId) : (c.unref b).Ring := by
  rw [Bcache.unref]
  split_ifs
  · obtain ⟨l, hcircle, hall⟩ := h
    obtain ⟨l1, l2, rfl⟩ := append_of_mem (hall b)
    have hcut : Circle (c.unlink b).next (c.unlink b).prev none ((l1 ++ l2).map some) := by
      rw [map_append, map_cons] at hcircle
      rw [map_append]
      exact hcircle.unlink
    have hnodup : (l1 ++ b :: l2).Nodup := (nodup_cons.1 hcircle.nodup).2.of_map some
    have hb : b ∉ l1 ++ l2 := (nodup_middle.1 hnodup).notMem
    refine ⟨b :: (l1 ++ l2), ?_, fun b' => ?_⟩
    · rw [map_cons]
      refine hcut.insertAfter ?_
      simpa using hb
    have hb' := hall b'
    simp only [mem_append, mem_cons] at hb' ⊢
    tauto
  · exact h.of_eq rfl rfl

lemma circle_foldl_link (bs : List BufId) : ∀ (c : Bcache P D) (l : List BufId),
    Circle c.next c.prev none (l.map some) → (bs ++ l).Nodup →
      Circle (bs.foldl link c).next (bs.foldl link c).prev none ((bs.reverse ++ l).map some) := by
  induction bs with
  | nil => exact fun c l h _ => h
  | cons b bs ih =>
    intro c l h hnodup
    obtain ⟨hb, hrest⟩ := nodup_cons.1 hnodup
    have hbl : b ∉ l := fun hbl => hb (by simp [hbl])
    have hlink : Circle (c.link b).next (c.link b).prev none ((b :: l).map some) := by
      rw [map_cons]
      exact h.insertAfter (by simpa using hbl)
    have hnd : (bs ++ b :: l).Nodup := nodup_middle.2 hnodup
    simpa using ih (c.link b) (b :: l) hlink hnd

/-- `binit` links all buffers. -/
lemma ring_binit (data : D) : (binit data : Bcache P D).Ring := by
  refine ⟨(finRange NBUF).reverse, ?_, by simp⟩
  have hempty : Circle (fun _ : Ptr => (none : Ptr)) (fun _ => none) none
      (([] : List BufId).map some) := by
    constructor
    · exact isChain_cons_cons.2 ⟨⟨rfl, rfl⟩, .singleton _⟩
    · simp
  have hlinked := circle_foldl_link (finRange NBUF)
    { buf := fun _ => ({ data } : Buf P D), next := fun _ => none, prev := fun _ => none } [] hempty
    (by simpa using nodup_finRange NBUF)
  rwa [append_nil] at hlinked

lemma binit_buf (data : D) (b : BufId) : (binit data : Bcache P D).buf b = { data } := by
  have hfold : ∀ (bs : List BufId) (c : Bcache P D), (bs.foldl link c).buf = c.buf := by
    intro bs
    induction bs with
    | nil => exact fun c => rfl
    | cons b bs ih => exact fun c => ih (c.link b)
  rw [binit, hfold]

/-- A change that leaves the block of a buffer alone. -/
lemma Unique.of_eq (h : c.Unique) (hd : ∀ b, (c'.buf b).dev = (c.buf b).dev)
    (hn : ∀ b, (c'.buf b).blockno = (c.buf b).blockno) : c'.Unique := by
  intro b b' h0 h1 h2
  rw [hd, hd] at h1
  rw [hd] at h0
  rw [hn, hn] at h2
  exact h b b' h0 h1 h2

/-- A buffer is recycled for a block that no buffer holds. -/
lemma Unique.bget (h : c.Unique) (hring : c.Ring)
    {b : BufId} (hget : c.bget dev blockno = some (b, c')) : c'.Unique := by
  rcases bget_cases hring hget with ⟨-, -, rfl⟩ | ⟨hnew, -, rfl⟩
  · refine h.of_eq (fun b' => ?_) fun b' => ?_
    · rcases eq_or_ne b' b with rfl | hb'
      · rw [modify_buf_self]
      · rw [modify_buf_of_ne _ _ _ hb']
    rcases eq_or_ne b' b with rfl | hb'
    · rw [modify_buf_self]
    · rw [modify_buf_of_ne _ _ _ hb']
  intro b1 b2 h0 h1 h2
  rcases eq_or_ne b1 b with hb1 | hb1 <;> rcases eq_or_ne b2 b with hb2 | hb2
  · rw [hb1, hb2]
  · rw [hb1, modify_buf_self, modify_buf_of_ne _ _ _ hb2] at h1 h2
    exact absurd h2.symm (hnew b2 h1.symm)
  · rw [hb2, modify_buf_self, modify_buf_of_ne _ _ _ hb1] at h1 h2
    exact absurd h2 (hnew b1 h1)
  · rw [modify_buf_of_ne _ _ _ hb1, modify_buf_of_ne _ _ _ hb2] at h1 h2
    rw [modify_buf_of_ne _ _ _ hb1] at h0
    exact h b1 b2 h0 h1 h2

end Bcache

end Hexv6.Bio
