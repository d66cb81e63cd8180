import Mathlib.Tactic

/-!
# Programs on a block device that can lose power

A machine has a disk and a buffer cache, both maps from block numbers to blocks: `cache b`
is what a read of block `b` returns.  A program reads and changes buffers and writes single
buffers to the disk.  Writes are atomic and happen in the order of the program.  The power
fails when `power` more writes have been made: the next write, instead of happening, ends
the program with a crash.

`wp x Q C m` is the weakest precondition of the program `x` with two postconditions: from
the machine `m` it does not get stuck, it returns with a result and a machine in `Q`, or it
crashes with a machine in `C`.  What holds at every crash point of a program is thus stated
and proved together with what holds at its end.
-/

namespace Hexv6.Lib

universe u v w

variable {ι : Type u} {β : Type v} {α γ : Type w}

/-- The disk, the buffer cache, the blocks written since power-on, and the number of
writes that will still reach the disk. -/
structure Machine (ι : Type u) (β : Type v) where
  disk : ι → β
  cache : ι → β
  written : List ι := []
  power : ℕ

/-- What becomes of a program: it returns, it crashes, or it is stuck in an error. -/
inductive Outcome (ι : Type u) (β : Type v) (α : Type w)
  | done (a : α) (m : Machine ι β)
  | crash (m : Machine ι β)
  | stuck

/-- Programs. -/
def DiskM (ι : Type u) (β : Type v) (α : Type w) := Machine ι β → Outcome ι β α

namespace DiskM

/-- Sequential composition. -/
def bind (x : DiskM ι β α) (f : α → DiskM ι β γ) : DiskM ι β γ := fun m =>
  match x m with
  | .done a m' => f a m'
  | .crash m' => .crash m'
  | .stuck => .stuck

instance : Monad (DiskM ι β) where
  pure a := fun m => .done a m
  bind := bind

end DiskM

/-- A program that ends in an error. -/
def fault : DiskM ι β α := fun _ => .stuck

/-- The contents of the buffer for block `b`. -/
def bread (b : ι) : DiskM ι β β := fun m => .done (m.cache b) m

section Update

variable [DecidableEq ι]

/-- The machine after a change of the buffer for block `b`. -/
def Machine.setData (m : Machine ι β) (b : ι) (v : β) : Machine ι β :=
  { m with cache := Function.update m.cache b v }

/-- The machine after the buffer for block `b` has been written. -/
def Machine.wrote (m : Machine ι β) (b : ι) : Machine ι β :=
  { m with
    disk := Function.update m.disk b (m.cache b)
    written := m.written ++ [b], power := m.power - 1 }

attribute [simp] Machine.setData Machine.wrote

/-- Replace the contents of the buffer for block `b`. -/
def setData (b : ι) (v : β) : DiskM ι β Unit := fun m => .done () (m.setData b v)

/-- Write the buffer for block `b` to the disk, if there is power left. -/
def bwrite (b : ι) : DiskM ι β Unit := fun m =>
  if m.power = 0 then .crash m else .done () (m.wrote b)

end Update

/-- The machine after power-on: nothing is cached, so a read returns what is on disk. -/
def Machine.boot (d : ι → β) (power : ℕ) : Machine ι β where
  disk := d
  cache := d
  power := power

/-! ### Weakest preconditions -/

/-- The program `x` returns in `Q` or crashes in `C`. -/
def wp (x : DiskM ι β α) (Q : α → Machine ι β → Prop) (C : Machine ι β → Prop)
    (m : Machine ι β) : Prop :=
  match x m with
  | .done a m' => Q a m'
  | .crash m' => C m'
  | .stuck => False

variable {x : DiskM ι β α} {f : α → DiskM ι β γ} {Q Q' : α → Machine ι β → Prop}
  {C C' : Machine ι β → Prop} {m m' : Machine ι β}

@[simp] lemma wp_pure (a : α) : wp (pure a : DiskM ι β α) Q C m ↔ Q a m := Iff.rfl

lemma wp_bind {R : γ → Machine ι β → Prop} :
    wp (x >>= f) R C m ↔ wp x (fun a => wp (f a) R C) C m := by
  simp only [wp, Bind.bind, DiskM.bind]
  cases x m <;> rfl

@[simp] lemma wp_bread (b : ι) {Q : β → Machine ι β → Prop} :
    wp (bread b) Q C m ↔ Q (m.cache b) m := Iff.rfl

@[simp] lemma wp_setData [DecidableEq ι] (b : ι) (v : β) {Q : Unit → Machine ι β → Prop} :
    wp (setData b v) Q C m ↔ Q () (m.setData b v) := Iff.rfl

/-- Before a write the machine may crash. -/
lemma wp_bwrite [DecidableEq ι] {b : ι} {Q : Unit → Machine ι β → Prop} (hC : C m)
    (hQ : Q () (m.wrote b)) : wp (bwrite b) Q C m := by
  simp only [wp, bwrite]
  split
  · rename_i hx
    split_ifs at hx
    obtain ⟨-, rfl⟩ := Outcome.done.inj hx
    exact hQ
  · rename_i hx
    split_ifs at hx
    obtain rfl := Outcome.crash.inj hx
    exact hC
  · rename_i hx
    split_ifs at hx

/-- With power left a write does not crash. -/
lemma wp_bwrite_of_power [DecidableEq ι] {b : ι} {Q : Unit → Machine ι β → Prop}
    (hp : 0 < m.power) (hQ : Q () (m.wrote b)) : wp (bwrite b) Q C m := by
  simp only [wp, bwrite, if_neg hp.ne']
  exact hQ

lemma wp.mono (h : wp x Q C m) (hQ : ∀ a m, Q a m → Q' a m) (hC : ∀ m, C m → C' m) :
    wp x Q' C' m := by
  revert h
  simp only [wp]
  cases x m with
  | done a m' => exact hQ a m'
  | crash m' => exact hC m'
  | stuck => exact id

lemma wp.of_done (h : wp x Q C m) {a : α} (hx : x m = .done a m') : Q a m' := by
  simpa [wp, hx] using h

lemma wp.of_crash (h : wp x Q C m) (hx : x m = .crash m') : C m' := by simpa [wp, hx] using h

/-- A program that cannot crash returns. -/
lemma wp.returns (h : wp x Q (fun _ => False) m) : ∃ a m', x m = .done a m' := by
  revert h
  simp only [wp]
  cases x m with
  | done a m' => exact fun _ => ⟨a, m', rfl⟩
  | crash m' => exact False.elim
  | stuck => exact False.elim

/-! ### Frames -/

/-- From `m` to `m'` only blocks in `S` have been changed and written. -/
structure Machine.Frame (S : ι → Prop) (m m' : Machine ι β) : Prop where
  disk : ∀ b, ¬ S b → m'.disk b = m.disk b
  cache : ∀ b, ¬ S b → m'.cache b = m.cache b
  written : ∃ ws, m'.written = m.written ++ ws ∧ ∀ b ∈ ws, S b

namespace Machine.Frame

variable {S S' : ι → Prop} {m m' m'' : Machine ι β}

lemma refl (m : Machine ι β) : Frame S m m := ⟨fun _ _ => rfl, fun _ _ => rfl, [], by simp⟩

lemma trans (h : Frame S m m') (h' : Frame S m' m'') : Frame S m m'' := by
  obtain ⟨ws, hw, hS⟩ := h.written
  obtain ⟨ws', hw', hS'⟩ := h'.written
  refine ⟨fun b hb => (h'.disk b hb).trans (h.disk b hb),
    fun b hb => (h'.cache b hb).trans (h.cache b hb), ws ++ ws', ?_, fun b hb => ?_⟩
  · rw [hw', hw, List.append_assoc]
  rcases List.mem_append.1 hb with hb | hb
  · exact hS b hb
  · exact hS' b hb

lemma mono (h : Frame S m m') (hSS : ∀ b, S b → S' b) : Frame S' m m' := by
  obtain ⟨ws, hw, hS⟩ := h.written
  exact ⟨fun b hb => h.disk b fun hc => hb (hSS b hc),
    fun b hb => h.cache b fun hc => hb (hSS b hc), ws, hw, fun b hb => hSS b (hS b hb)⟩

/-- Changing and writing one buffer. -/
lemma setData_wrote [DecidableEq ι] {b : ι} (hb : S b) (v : β) (m : Machine ι β) :
    Frame S m ((m.setData b v).wrote b) := by
  have hne : ∀ c, ¬S c → c ≠ b := fun c hc h => hc (h ▸ hb)
  exact ⟨fun c hc => Function.update_of_ne (hne c hc) ..,
    fun c hc => Function.update_of_ne (hne c hc) ..,
    [b], rfl, by simpa using hb⟩

lemma setData [DecidableEq ι] {b : ι} (hb : S b) (v : β) (m : Machine ι β) :
    Frame S m (m.setData b v) := by
  refine ⟨fun c _ => rfl, fun c hc => ?_, [], (List.append_nil _).symm, by simp⟩
  have hne : c ≠ b := fun h => hc (h ▸ hb)
  exact Function.update_of_ne hne ..

end Machine.Frame

end Hexv6.Lib
