import Mathlib.Tactic

/-!
# `memmove`

`memmove` of `kernel/string.c` and of `user/ulib.c`.  They choose the direction of the copy by
different tests; each direction is right where no byte is read after it has been written.
-/

namespace Hexv6.Mem

open Function

abbrev Memory := ℕ → UInt8

/-- `while(n-- > 0) *d++ = *s++;` -/
def forward (m : Memory) (d s : ℕ) : ℕ → Memory
  | 0 => m
  | n + 1 => forward (update m d (m s)) (d + 1) (s + 1) n

/-- `while(n-- > 0) *--d = *--s;` -/
def backward (m : Memory) (d s : ℕ) : ℕ → Memory
  | 0 => m
  | n + 1 => backward (update m (d - 1) (m (s - 1))) (d - 1) (s - 1) n

/-- `memmove` of the kernel.  The sum in the test is one of 64 bits. -/
def memmove (m : Memory) (dst src : ℕ) (n : BitVec 32) : Memory :=
  if n = 0 then m
  else if src < dst ∧ (src + n.toNat) % 2 ^ 64 > dst then
    backward m (dst + n.toNat) (src + n.toNat) n.toNat
  else forward m dst src n.toNat

/-- `memmove` of the user library, where `n` is an `int`; no byte is copied if it is negative. -/
def Ulib.memmove (m : Memory) (dst src : ℕ) (n : BitVec 32) : Memory :=
  if src > dst then forward m dst src n.toInt.toNat
  else backward m (dst + n.toInt.toNat) (src + n.toInt.toNat) n.toInt.toNat

/-- The bytes at `src` are at `dst`, all at once. -/
def moved (m : Memory) (dst src n : ℕ) : Memory :=
  fun a => if dst ≤ a ∧ a < dst + n then m (src + (a - dst)) else m a

variable {m : Memory} {d s n : ℕ}

lemma forward_eq (h : d ≤ s ∨ s + n ≤ d) : forward m d s n = moved m d s n := by
  induction n generalizing m d s with
  | zero =>
    funext a
    exact (if_neg (by omega)).symm
  | succ n ih =>
    rw [forward, ih (by omega)]
    funext a
    simp only [moved, update_apply]
    -- the byte that is written first is not read later
    split_ifs <;> first | omega | rfl | (congr 1; omega)

lemma backward_eq (h : s ≤ d ∨ d + n ≤ s) : backward m (d + n) (s + n) n = moved m d s n := by
  induction n generalizing m with
  | zero =>
    funext a
    exact (if_neg (by omega)).symm
  | succ n ih =>
    rw [backward, ← Nat.add_assoc, ← Nat.add_assoc, Nat.add_sub_cancel, Nat.add_sub_cancel,
      ih (by omega)]
    funext a
    simp only [moved, update_apply]
    split_ifs <;> first | omega | rfl | (congr 1; omega)

/-- For every overlap of two ranges inside the address space. -/
theorem memmove_eq_moved (m : Memory) (dst src : ℕ) (n : BitVec 32) :
    (dst + n.toNat ≤ 2 ^ 64 → src + n.toNat ≤ 2 ^ 64 →
      memmove m dst src n = moved m dst src n.toNat) ∧
      Ulib.memmove m dst src n = moved m dst src n.toInt.toNat := by
  refine ⟨fun hdst hsrc => ?_, ?_⟩
  · rw [memmove]
    split_ifs with h0 h
    · subst h0
      exact forward_eq (n := 0) (by omega)
    · exact backward_eq (by omega)
    · exact forward_eq (by omega)
  · rw [Ulib.memmove]
    split_ifs with h
    · exact forward_eq (by omega)
    · exact backward_eq (by omega)

/-- The theorem at ranges of three bytes that overlap in two. -/
theorem memmove_eq_moved_overlap :
    memmove (fun a => a.toUInt8) 1 0 3 = moved (fun a => a.toUInt8) 1 0 3 :=
  (memmove_eq_moved _ 1 0 3).1 (by decide) (by decide)

end Hexv6.Mem
