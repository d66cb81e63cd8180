import Hexv6.Bio.Cache
import Hexv6.Lib.Count
import Hexv6.Lib.Transition

/-!
# The structure of the buffer cache

Any number of processes that call `bread`, `brelse`, `bpin` and `bunpin` on the buffer cache,
interleaved in any order.  A step is what a function does under `bcache.lock`, or an operation
on the sleep lock of a buffer, or the transfer from the disk in `bread`.  Processes release
what they hold: `bunpin` is only called for a pin that somebody has taken.

A process refers to a buffer from the moment `bget` has counted it until `brelse` has
uncounted it; in between it waits for the sleep lock, holds it, or has released it already and
is about to take `bcache.lock`.  `pins` is not part of the kernel: it counts the pins taken
and not given back.
-/

namespace Hexv6.Bio

open Lib Function

/-- Where a process is in `bread` or `brelse`. -/
inductive Busy
  | idle
  /-- in `acquiresleep` -/
  | waiting (b : BufId)
  /-- at the test of `b->valid` -/
  | filling (b : BufId)
  /-- after `releasesleep` -/
  | releasing (b : BufId)
deriving DecidableEq

structure State (P D : Type) where
  cache : Bcache P D
  busy : P → Busy
  pins : BufId → ℕ

inductive Action (P D : Type)
  | bread (p : P) (dev blockno : BitVec 32)
  | acquiresleep (p : P)
  /-- the end of `bread`; the disk returns `data` if the buffer is not valid -/
  | fill (p : P) (data : D)
  | brelse (p : P) (b : BufId)
  | unref (p : P)
  | bpin (p : P) (b : BufId)
  | bunpin (p : P) (b : BufId)

inductive Fault
  | disabled
  /-- `panic("bget: no buffers")` -/
  | noBuffers
  /-- `panic("brelse")` -/
  | notHolding
deriving DecidableEq

section Machine

variable {P D : Type} [DecidableEq P]

/-- Process `p` goes on to `x`, with the cache `c`. -/
def State.advance (st : State P D) (p : P) (x : Busy) (c : Bcache P D) : State P D :=
  { st with cache := c, busy := update st.busy p x }

/-- One step. -/
def step (st : State P D) : Action P D → Except Fault (State P D)
  | .bread p dev blockno =>
    match st.busy p with
    | .idle =>
      match st.cache.bget dev blockno with
      | some (b, c) => .ok (st.advance p (.waiting b) c)
      | none => .error .noBuffers
    | _ => .error .disabled
  | .acquiresleep p =>
    match st.busy p with
    | .waiting b =>
      if (st.cache.buf b).lock = none then
        .ok (st.advance p (.filling b) (st.cache.modify b fun x => { x with lock := some p }))
      else .error .disabled
    | _ => .error .disabled
  | .fill p data =>
    match st.busy p with
    | .filling b =>
      .ok (st.advance p .idle (st.cache.modify b fun x =>
        if x.valid then x else { x with data := data, valid := true }))
    | _ => .error .disabled
  | .brelse p b =>
    match st.busy p with
    | .idle =>
      if (st.cache.buf b).lock = some p then
        .ok (st.advance p (.releasing b) (st.cache.modify b fun x => { x with lock := none }))
      else .error .notHolding
    | _ => .error .disabled
  | .unref p =>
    match st.busy p with
    | .releasing b => .ok (st.advance p .idle (st.cache.unref b))
    | _ => .error .disabled
  | .bpin p b =>
    match st.busy p with
    | .idle =>
      .ok { st with
        cache := st.cache.bpin b, pins := update st.pins b (st.pins b + 1) }
    | _ => .error .disabled
  | .bunpin p b =>
    match st.busy p with
    | .idle =>
      if st.pins b = 0 then .error .disabled
      else .ok { st with
        cache := st.cache.bunpin b, pins := update st.pins b (st.pins b - 1) }
    | _ => .error .disabled

/-- The cache as `binit` leaves it. -/
def boot (data : D) : State P D :=
  { cache := .binit data, busy := fun _ => .idle, pins := fun _ => 0 }

/-- What a step can do. -/
inductive Effect (st : State P D) : Action P D → State P D → Prop
  | bread {p dev blockno b c} (h : st.busy p = .idle)
      (hget : st.cache.bget dev blockno = some (b, c)) :
      Effect st (.bread p dev blockno) (st.advance p (.waiting b) c)
  | acquiresleep {p b} (h : st.busy p = .waiting b) (hl : (st.cache.buf b).lock = none) :
      Effect st (.acquiresleep p)
        (st.advance p (.filling b) (st.cache.modify b fun x => { x with lock := some p }))
  | fill {p b data} (h : st.busy p = .filling b) :
      Effect st (.fill p data) (st.advance p .idle (st.cache.modify b fun x =>
        if x.valid then x else { x with data := data, valid := true }))
  | brelse {p b} (h : st.busy p = .idle) (hl : (st.cache.buf b).lock = some p) :
      Effect st (.brelse p b)
        (st.advance p (.releasing b) (st.cache.modify b fun x => { x with lock := none }))
  | unref {p b} (h : st.busy p = .releasing b) :
      Effect st (.unref p) (st.advance p .idle (st.cache.unref b))
  | bpin {p b} : Effect st (.bpin p b) { st with
      cache := st.cache.bpin b, pins := update st.pins b (st.pins b + 1) }
  | bunpin {p b} (h : st.pins b ≠ 0) : Effect st (.bunpin p b) { st with
      cache := st.cache.bunpin b, pins := update st.pins b (st.pins b - 1) }

lemma Effect.of_step {st st' : State P D} {a : Action P D} (h : step st a = .ok st') :
    Effect st a st' := by
  cases a with rw [step] at h
  | bread p dev blockno =>
    split at h
    · split at h
      · cases h
        exact .bread ‹_› ‹_›
      · cases h
    · cases h
  | acquiresleep p =>
    split at h
    · split_ifs at h with hl
      cases h
      exact .acquiresleep ‹_› hl
    · cases h
  | fill p data =>
    split at h
    · cases h
      exact .fill ‹_›
    · cases h
  | brelse p b =>
    split at h
    · split_ifs at h with hl
      cases h
      exact .brelse ‹_› hl
    · cases h
  | unref p =>
    split at h
    · cases h
      exact .unref ‹_›
    · cases h
  | bpin p b =>
    split at h
    · cases h
      exact .bpin
    · cases h
  | bunpin p b =>
    split at h
    · split_ifs at h with hp
      cases h
      exact .bunpin hp
    · cases h

end Machine

/-! ### Counting references -/

section Count

variable {P D : Type} [Fintype P]

/-- The processes that wait for the sleep lock of `b`. -/
def waiters (st : State P D) (b : BufId) : ℕ :=
  (Finset.univ.filter fun p => st.busy p = .waiting b).card

/-- The processes that hold `b`: the one with its sleep lock, and those that have released the
sleep lock but are still in `brelse`. -/
def holders (st : State P D) (b : BufId) : ℕ :=
  (if (st.cache.buf b).lock.isSome then 1 else 0) +
    (Finset.univ.filter fun p => st.busy p = .releasing b).card

/-- The references to `b`. -/
def refs (st : State P D) (b : BufId) : ℕ := holders st b + waiters st b + st.pins b

/-- What a process in the middle of `bread` or `brelse` contributes, apart from the lock. -/
def Busy.share (b : BufId) : Busy → ℕ
  | .waiting b' => if b' = b then 1 else 0
  | .releasing b' => if b' = b then 1 else 0
  | _ => 0

lemma refs_eq (st : State P D) (b : BufId) :
    refs st b = (if (st.cache.buf b).lock.isSome then 1 else 0) +
      ∑ p, (st.busy p).share b + st.pins b := by
  have hshare : ∀ p, (st.busy p).share b =
      (if st.busy p = .releasing b then 1 else 0) + if st.busy p = .waiting b then 1 else 0 := by
    intro p
    cases st.busy p <;> simp [Busy.share]
  simp only [refs, holders, waiters, Finset.card_filter, hshare, Finset.sum_add_distrib]
  omega

end Count

/-! ### The invariant -/

section Invariant

variable {P D : Type} [Fintype P]

structure Inv (st : State P D) : Prop where
  ring : st.cache.Ring
  unique : st.cache.Unique
  refcnt : ∀ b, (st.cache.buf b).refcnt = BitVec.ofNat 32 (refs st b)

lemma inv_boot (data : D) : Inv (boot data : State P D) := by
  refine ⟨Bcache.ring_binit data, ?_, fun b => ?_⟩
  · intro b b' h
    simp [boot, Bcache.binit_buf] at h
  · simp [boot, refs_eq, Bcache.binit_buf, Busy.share]

variable {st st' : State P D} {p : P} {x : Busy} {b : BufId} {f : Buf P D → Buf P D}
    {a : Action P D}

/-- The counts after `bpin` and `bunpin`. -/
lemma Inv.pin (hinv : Inv st) {r : BitVec 32} {n : ℕ}
    (h : r = BitVec.ofNat 32 (holders st b + waiters st b + n)) :
    Inv { st with
      cache := st.cache.modify b fun x => { x with refcnt := r }
      pins := update st.pins b n } := by
  refine ⟨hinv.ring.of_eq rfl rfl, hinv.unique.of_eq (fun b' => ?_) (fun b' => ?_), fun b' => ?_⟩
  · rcases eq_or_ne b' b with rfl | hb'
    · simp
    · simp [Bcache.modify_buf_of_ne _ _ _ hb']
  · rcases eq_or_ne b' b with rfl | hb'
    · simp
    · simp [Bcache.modify_buf_of_ne _ _ _ hb']
  have href := hinv.refcnt b'
  rcases eq_or_ne b' b with rfl | hb'
  · simpa [refs, holders, waiters] using h
  · simpa [refs, holders, waiters, Bcache.modify_buf_of_ne _ _ _ hb', update_of_ne hb'] using href

variable [DecidableEq P]

/-- The references after process `p` has gone on to `x`. -/
lemma refs_advance (st : State P D) (p : P) (x : Busy) (c : Bcache P D) (b : BufId) :
    refs (st.advance p x c) b + (if (st.cache.buf b).lock.isSome then 1 else 0) +
        (st.busy p).share b =
      refs st b + (if (c.buf b).lock.isSome then 1 else 0) + x.share b := by
  have hsum : ∑ q, (update st.busy p x q).share b + (st.busy p).share b =
      ∑ q, (st.busy q).share b + (update st.busy p x p).share b := by
    refine sum_add_of_eq_off (f := fun q => (st.busy q).share b) (Finset.mem_univ p) fun q hq => ?_
    rw [update_of_ne hq]
  rw [update_self] at hsum
  simp only [refs_eq, State.advance]
  omega

/-- A buffer that `p` has nothing to do with keeps its references. -/
lemma refs_advance_of_ne {b' : BufId}
    (hb' : b' ≠ b) (hx : x.share b' = (st.busy p).share b') :
    refs (st.advance p x (st.cache.modify b f)) b' = refs st b' := by
  have href := refs_advance st p x (st.cache.modify b f) b'
  rw [hx, Bcache.modify_buf_of_ne _ _ _ hb'] at href
  omega

lemma share_of_ne {b' : BufId} (h : b' ≠ b) :
    (Busy.waiting b).share b' = 0 ∧ (Busy.releasing b).share b' = 0 := by
  simp [Busy.share, h.symm]

section

variable (hinv : Inv st)
include hinv

/-- The counts after a step of `p` that concerns only the buffer `b`. -/
lemma Inv.refcnt_modify (hx : ∀ b', b' ≠ b → x.share b' = (st.busy p).share b')
    (hself : (f (st.cache.buf b)).refcnt =
      BitVec.ofNat 32 (refs (st.advance p x (st.cache.modify b f)) b)) (b' : BufId) :
    ((st.advance p x (st.cache.modify b f)).cache.buf b').refcnt =
      BitVec.ofNat 32 (refs (st.advance p x (st.cache.modify b f)) b') := by
  rcases eq_or_ne b' b with rfl | hb'
  · rw [← hself]
    simp [State.advance]
  · rw [refs_advance_of_ne hb' (hx b' hb'), ← hinv.refcnt b']
    simp [State.advance, Bcache.modify_buf_of_ne _ _ _ hb']

/-- The invariant after a step of `p` that does not give the buffer `b` to another block. -/
lemma Inv.modify (hf : (f (st.cache.buf b)).dev = (st.cache.buf b).dev ∧
      (f (st.cache.buf b)).blockno = (st.cache.buf b).blockno)
    (hx : ∀ b', b' ≠ b → x.share b' = (st.busy p).share b')
    (hself : (f (st.cache.buf b)).refcnt =
      BitVec.ofNat 32 (refs (st.advance p x (st.cache.modify b f)) b)) :
    Inv (st.advance p x (st.cache.modify b f)) := by
  refine ⟨hinv.ring.of_eq rfl rfl, hinv.unique.of_eq (fun b' => ?_) (fun b' => ?_),
    hinv.refcnt_modify hx hself⟩
  · rcases eq_or_ne b' b with rfl | hb'
    · simpa [State.advance] using hf.1
    · simp [State.advance, Bcache.modify_buf_of_ne _ _ _ hb']
  rcases eq_or_ne b' b with rfl | hb'
  · simpa [State.advance] using hf.2
  · simp [State.advance, Bcache.modify_buf_of_ne _ _ _ hb']

/-- `bget` counts the process that is going to wait for the buffer. -/
lemma Inv.bread {dev blockno : BitVec 32} {c : Bcache P D}
    (hp : st.busy p = .idle) (hget : st.cache.bget dev blockno = some (b, c)) :
    Inv (st.advance p (.waiting b) c) := by
  have hx : ∀ b', b' ≠ b → (Busy.waiting b).share b' = (st.busy p).share b' := by
    intro b' hb'
    rw [(share_of_ne hb').1, hp]
    rfl
  refine ⟨hinv.ring.bget hget, hinv.unique.bget hinv.ring hget, ?_⟩
  have hcount : ∀ f : Buf P D → Buf P D, (f (st.cache.buf b)).lock = (st.cache.buf b).lock →
      refs (st.advance p (.waiting b) (st.cache.modify b f)) b = refs st b + 1 := by
    intro f hf
    have href := refs_advance st p (.waiting b) (st.cache.modify b f) b
    simp only [hp, Bcache.modify_buf_self, hf, Busy.share, if_true] at href
    omega
  rcases Bcache.bget_cases hinv.ring hget with ⟨-, -, rfl⟩ | ⟨-, hfree, rfl⟩
  · refine hinv.refcnt_modify hx ?_
    rw [hcount _ rfl, BitVec.ofNat_add, ← hinv.refcnt b]
    rfl
  -- a recycled buffer had no references, and has one now
  refine hinv.refcnt_modify hx ?_
  rw [hcount _ rfl, BitVec.ofNat_add, ← hinv.refcnt b, hfree]
  rfl

/-- `brelse` uncounts the process and may move the buffer to the front of the list. -/
lemma Inv.unref (hp : st.busy p = .releasing b) :
    Inv (st.advance p .idle (st.cache.unref b)) := by
  have hx : ∀ b', b' ≠ b → Busy.idle.share b' = (st.busy p).share b' := by
    intro b' hb'
    rw [hp, (share_of_ne hb').2]
    rfl
  have hmod : Inv (st.advance p .idle
      (st.cache.modify b fun x => { x with refcnt := x.refcnt - 1 })) := by
    refine hinv.modify ⟨rfl, rfl⟩ hx ?_
    have href := refs_advance st p .idle
      (st.cache.modify b fun x => { x with refcnt := x.refcnt - 1 }) b
    simp only [hp, Bcache.modify_buf_self, Busy.share, if_true] at href
    have hrefs : refs st b = refs (st.advance p .idle
        (st.cache.modify b fun x => { x with refcnt := x.refcnt - 1 })) b + 1 := by
      omega
    rw [hinv.refcnt b, hrefs, BitVec.ofNat_add]
    exact add_sub_cancel_right _ _
  -- the links differ from those of `hmod`, the buffers do not
  refine ⟨hinv.ring.unref b, hmod.unique.of_eq (fun b' => ?_) (fun b' => ?_), fun b' => ?_⟩
  · simp only [State.advance, Bcache.unref_buf]
  · simp only [State.advance, Bcache.unref_buf]
  have href := hmod.refcnt b'
  simp only [State.advance, refs_eq, Bcache.unref_buf] at href ⊢
  exact href

theorem Inv.step (h : step st a = .ok st') : Inv st' := by
  cases Effect.of_step h with
  | bread hp hget => exact hinv.bread hp hget
  | @acquiresleep p b hp hl =>
    have hx : ∀ b', b' ≠ b → (Busy.filling b).share b' = (st.busy p).share b' := by
      intro b' hb'
      rw [hp, (share_of_ne hb').1]
      rfl
    refine hinv.modify ⟨rfl, rfl⟩ hx ?_
    have href := refs_advance st p (.filling b)
      (st.cache.modify b fun x => { x with lock := some p }) b
    simp only [hp, hl, Bcache.modify_buf_self, Busy.share, Option.isSome_some,
      Option.isSome_none, if_true, Bool.false_eq_true, if_false] at href
    rw [hinv.refcnt b]
    congr 1
    omega
  | @fill p b data hp =>
    have hsame : ∀ y : Buf P D,
        (if y.valid then y else { y with data := data, valid := true }).lock = y.lock ∧
        (if y.valid then y else { y with data := data, valid := true }).refcnt = y.refcnt ∧
        (if y.valid then y else { y with data := data, valid := true }).dev = y.dev ∧
        (if y.valid then y else { y with data := data, valid := true }).blockno = y.blockno := by
      intro y
      split_ifs <;> simp
    obtain ⟨hl, hr, hd, hn⟩ := hsame (st.cache.buf b)
    refine hinv.modify ⟨hd, hn⟩ (fun b' _ => by rw [hp]; rfl) ?_
    have href := refs_advance st p .idle
      (st.cache.modify b fun x => if x.valid then x else { x with data := data, valid := true }) b
    simp only [hp, Bcache.modify_buf_self, hl, Busy.share] at href
    rw [hr, hinv.refcnt b]
    congr 1
    omega
  | @brelse p b hp hl =>
    have hx : ∀ b', b' ≠ b → (Busy.releasing b).share b' = (st.busy p).share b' := by
      intro b' hb'
      rw [hp, (share_of_ne hb').2]
      rfl
    refine hinv.modify ⟨rfl, rfl⟩ hx ?_
    have href := refs_advance st p (.releasing b)
      (st.cache.modify b fun x => { x with lock := none }) b
    simp only [hp, hl, Bcache.modify_buf_self, Busy.share, Option.isSome_some,
      Option.isSome_none, if_true, Bool.false_eq_true, if_false] at href
    rw [hinv.refcnt b]
    congr 1
    omega
  | unref hp => exact hinv.unref hp
  | @bpin p b =>
    refine hinv.pin ?_
    rw [hinv.refcnt b, ← add_assoc, BitVec.ofNat_add]
    rfl
  | @bunpin p b hp =>
    refine hinv.pin ?_
    have hrefs : refs st b = holders st b + waiters st b + (st.pins b - 1) + 1 := by
      rw [refs]
      omega
    rw [hinv.refcnt b, hrefs, BitVec.ofNat_add]
    exact add_sub_cancel_right _ _

/-- A buffer is given to another block only if it has no references. -/
lemma Inv.recycle (h : Bio.step st a = .ok st')
    (hb : (st'.cache.buf b).dev ≠ (st.cache.buf b).dev ∨
      (st'.cache.buf b).blockno ≠ (st.cache.buf b).blockno) : (st.cache.buf b).refcnt = 0 := by
  have hkeep : ∀ (c' : Bcache P D) (b' : BufId) (f : Buf P D → Buf P D),
      c'.buf = (st.cache.modify b' f).buf → (∀ y, (f y).dev = y.dev ∧ (f y).blockno = y.blockno) →
      (c'.buf b).dev = (st.cache.buf b).dev ∧ (c'.buf b).blockno = (st.cache.buf b).blockno := by
    intro c' b' f hc' hf
    rw [hc']
    rcases eq_or_ne b b' with rfl | hne
    · rw [Bcache.modify_buf_self]
      exact hf _
    · rw [Bcache.modify_buf_of_ne _ _ _ hne]
      exact ⟨rfl, rfl⟩
  have hnot : ∀ {Q : Prop}, (st'.cache.buf b).dev = (st.cache.buf b).dev ∧
      (st'.cache.buf b).blockno = (st.cache.buf b).blockno → Q := fun heq =>
    (hb.elim (fun h => h heq.1) fun h => h heq.2).elim
  cases Effect.of_step h with
  | @bread p dev blockno b' c hp hget =>
    rcases Bcache.bget_cases hinv.ring hget with ⟨-, -, rfl⟩ | ⟨-, hfree, rfl⟩
    · exact hnot (hkeep _ b' _ rfl fun _ => ⟨rfl, rfl⟩)
    rcases eq_or_ne b b' with rfl | hne
    · exact hfree
    · simp [State.advance, Bcache.modify_buf_of_ne _ _ _ hne] at hb
  | acquiresleep hp hl | brelse hp hl | bpin
  | bunpin hp => exact hnot (hkeep _ _ _ rfl fun _ => ⟨rfl, rfl⟩)
  | fill hp =>
    refine hnot (hkeep _ _ _ rfl fun y => ?_)
    split_ifs <;> simp
  | unref hp => exact hnot (hkeep _ _ _ (Bcache.unref_buf _ _) fun _ => ⟨rfl, rfl⟩)

end

end Invariant

/-! ### Whole runs -/

variable {P D : Type} [Fintype P] [DecidableEq P]

/-- The structure of the cache in every state of every run: the list, the two directions of
its links, the blocks, the counts (`refcnt` is a 32-bit counter) and the recycling. -/
theorem structure_of_run {data : D} {tr : List (State P D × Action P D)} {st : State P D}
    (hrun : Run step (boot data) tr st) :
    (∃ l : List BufId, l.Nodup ∧ (∀ b, b ∈ l) ∧
      ((none : Ptr) :: l.map some ++ [none]).IsChain fun x y => st.cache.next x = y) ∧
    (∀ x, st.cache.prev (st.cache.next x) = x ∧ st.cache.next (st.cache.prev x) = x) ∧
    (∀ b b', (st.cache.buf b).dev ≠ 0 → (st.cache.buf b).dev = (st.cache.buf b').dev →
      (st.cache.buf b).blockno = (st.cache.buf b').blockno → b = b') ∧
    (∀ b, (st.cache.buf b).refcnt = BitVec.ofNat 32 (holders st b + waiters st b + st.pins b)) ∧
    ∀ a st' b, step st a = .ok st' → ((st'.cache.buf b).dev ≠ (st.cache.buf b).dev ∨
        (st'.cache.buf b).blockno ≠ (st.cache.buf b).blockno) → (st.cache.buf b).refcnt = 0 := by
  have hinv : Inv st := (hrun.invariant' (fun _ _ _ hi h => hi.step h) (inv_boot data)).2
  obtain ⟨l, hcircle, hall⟩ := hinv.ring
  have hmem : ∀ x : Ptr, x ∈ none :: l.map some := by
    intro x
    cases x with
    | none => simp
    | some b => simpa using hall b
  refine ⟨⟨l, (List.nodup_cons.1 hcircle.nodup).2.of_map some, hall, ?_⟩, fun x => ?_,
    hinv.unique, hinv.refcnt, fun a st' b h hb => hinv.recycle h hb⟩
  · exact hcircle.chain.imp fun x y hxy => hxy.1
  · exact ⟨hcircle.prev_next (hmem x), hcircle.next_prev (hmem x)⟩

/-- Two processes use block 5; the first pins its buffer. -/
def sharing : List (Action (Fin 2) Unit) :=
  [.bread 0 1 5, .acquiresleep 0, .fill 0 (), .bread 1 1 5, .bpin 0 0, .brelse 0 0,
    .acquiresleep 1, .fill 1 (), .unref 0]

/-- The theorem at that run: the buffer has two references, one process and the pin. -/
theorem structure_of_run_sharing : ∃ tr st, Run step (boot () : State (Fin 2) Unit) tr st ∧
    (st.cache.buf 0).refcnt = 2 ∧ (∃ l : List BufId, l.Nodup ∧ (∀ b, b ∈ l) ∧
      ((none : Ptr) :: l.map some ++ [none]).IsChain fun x y => st.cache.next x = y) := by
  obtain ⟨st, hst, htest⟩ := exists_of_okAnd (runList step (boot () : State (Fin 2) Unit) sharing)
      (fun st => (st.cache.buf 0).refcnt = 2) (by decide +kernel)
  exact ⟨_, st, .of_runList hst, of_decide_eq_true htest, (structure_of_run (.of_runList hst)).1⟩

end Hexv6.Bio
