import Mathlib.Data.BitVec
import Mathlib.Tactic

/-!
# Rings with free-running counters

A ring buffer of `N` cells with two counters of `w` bits that are only ever incremented and
wrap around: `r` counts the values taken out and `t` the values put in, and the cell of a
counter is its value modulo `N`.  Because `N` divides `2 ^ w`, a counter that wraps around
goes on to the next cell like any other.

`contents` reads the ring from `r` to `t`.  As long as at most `N` values are in the ring,
putting one in appends it to the contents (`contents_put`) and taking one out removes the
first of them (`contents_take`).
-/

namespace Hexv6.Lib.FreeRing

variable {α : Type*} {N w : ℕ} [NeZero N] {r t : BitVec w} {n : ℕ}

/-- The cell of a counter. -/
def cell (N : ℕ) [NeZero N] (c : BitVec w) : Fin N := Fin.ofNat N c.toNat

/-- The number of values in the ring. -/
def count (r t : BitVec w) : ℕ := (t - r).toNat

/-- The values in the ring, the oldest first. -/
def contents (data : Fin N → α) (r t : BitVec w) : List α :=
  (List.range (count r t)).map fun i => data (cell N (r + BitVec.ofNat w i))

@[simp] lemma length_contents (data : Fin N → α) (r t : BitVec w) :
    (contents data r t).length = count r t := by
  simp [contents]

@[simp] lemma count_self (r : BitVec w) : count r r = 0 := by simp [count]

lemma count_eq_zero : count r t = 0 ↔ r = t := by
  constructor
  · intro h
    have hsub : t - r = 0 := BitVec.eq_of_toNat_eq (by simpa [count] using h)
    exact (sub_eq_zero.1 hsub).symm
  · rintro rfl
    exact count_self r

/-- A counter that is some increments ahead of `r`. -/
lemma count_add {r : BitVec w} (h : n < 2 ^ w) : count r (r + BitVec.ofNat w n) = n := by
  rw [count, add_sub_cancel_left, BitVec.toNat_ofNat, Nat.mod_eq_of_lt h]

lemma add_count (r t : BitVec w) : r + BitVec.ofNat w (count r t) = t := by
  rw [count, BitVec.ofNat_toNat, BitVec.setWidth_eq, add_sub_cancel]

lemma count_put (h : count r t + 1 < 2 ^ w) : count r (t + 1) = count r t + 1 := by
  have ht : t + 1 = r + BitVec.ofNat w (count r t + 1) := by
    rw [BitVec.ofNat_add, ← add_assoc, add_count]
    rfl
  rw [ht, count_add h]

lemma count_take (h : count r t = n + 1) : count (r + 1) t = n := by
  have hlt : n + 1 < 2 ^ w := h ▸ (t - r).isLt
  have ht : t = (r + 1) + BitVec.ofNat w n := by
    rw [add_assoc, add_comm 1 (BitVec.ofNat w n), ← add_count r t, h, BitVec.ofNat_add]
    rfl
  rw [ht, count_add (by omega)]

/-- The counters of a full ring. -/
lemma count_eq_iff (h : n < 2 ^ w) :
    count r t = n ↔ t = r + BitVec.ofNat w n := by
  constructor
  · intro hc
    rw [← hc, add_count]
  · rintro rfl
    exact count_add h

/-- Two counters less than `N` apart have different cells. -/
lemma cell_add_ne (hN : N ∣ 2 ^ w) {r : BitVec w} {i j : ℕ} (hij : i < j) (hj : j < i + N) :
    cell N (r + BitVec.ofNat w i) ≠ cell N (r + BitVec.ofNat w j) := by
  intro h
  have hval : (r + BitVec.ofNat w i).toNat % N = (r + BitVec.ofNat w j).toNat % N := by
    simpa [cell, Fin.ofNat] using congrArg Fin.val h
  -- the reduction modulo `2 ^ w` is absorbed by the one modulo `N`
  have hmod : ∀ k, (r + BitVec.ofNat w k).toNat % N = (r.toNat + k) % N := by
    intro k
    rw [BitVec.toNat_add, BitVec.toNat_ofNat, Nat.add_mod_mod, Nat.mod_mod_of_dvd _ hN]
  rw [hmod, hmod] at hval
  have hdvd : N ∣ (r.toNat + j) - (r.toNat + i) := (Nat.modEq_iff_dvd' (by omega)).1 hval
  have := Nat.le_of_dvd (by omega) hdvd
  omega

lemma contents_self (data : Fin N → α) (r : BitVec w) : contents data r r = [] := by simp [contents]

/-- Putting a value into a ring that is not full. -/
theorem contents_put (hN : N ∣ 2 ^ w) (data : Fin N → α)
    (hroom : count r t < N) (hw : count r t + 1 < 2 ^ w) (a : α) :
    contents (Function.update data (cell N t) a) r (t + 1) = contents data r t ++ [a] := by
  have hnew : ∀ i ∈ List.range (count r t),
      Function.update data (cell N t) a (cell N (r + BitVec.ofNat w i)) =
        data (cell N (r + BitVec.ofNat w i)) := by
    intro i hi
    have hi' := List.mem_range.1 hi
    refine Function.update_of_ne ?_ _ _
    have hne := cell_add_ne hN (r := r) hi' (by omega)
    rwa [add_count] at hne
  rw [contents, count_put hw, List.range_succ, List.map_append, List.map_congr_left hnew]
  simp only [List.map_cons, List.map_nil, add_count, Function.update_self]
  rfl

/-- Taking a value out of a ring that is not empty. -/
theorem contents_take (data : Fin N → α) (h : r ≠ t) :
    contents data r t = data (cell N r) :: contents data (r + 1) t := by
  obtain ⟨n, hn⟩ : ∃ n, count r t = n + 1 :=
    Nat.exists_eq_succ_of_ne_zero fun h0 => h (count_eq_zero.1 h0)
  rw [contents, contents, count_take hn, hn, List.range_succ_eq_map, List.map_cons, List.map_map]
  refine congrArg₂ List.cons ?_ (List.map_congr_left fun i _ => ?_)
  · rw [show BitVec.ofNat w 0 = 0 from rfl, add_zero]
  have hsucc : r + BitVec.ofNat w (i + 1) = r + 1 + BitVec.ofNat w i := by
    rw [BitVec.ofNat_add, add_comm (BitVec.ofNat w i), ← add_assoc]
    rfl
  rw [Function.comp_apply, hsucc]

end Hexv6.Lib.FreeRing
