import Mathlib.Data.Finset.Card
import Mathlib.Tactic

/-!
# Rings read by counters

A ring of `N` cells that two parties share: the one appends items, the other takes them in
the same order.  Item number `n` is in cell `n % N`, and what travels between the parties is
a counter of a fixed width.  `Window N ring xs lo` says that the cells hold the items of `xs`
from number `lo` on; the writer may append as long as fewer than `N` items are waiting
(`Window.push`), and as long as that is so the two counters differ exactly when an item is
waiting (`count_ne_iff`), although they wrap.

The number of waiting items is bounded by what the items are: when they are distinct members
of a set of `N` there are at most `N` (`le_of_injOn`), and fewer when one is missing
(`lt_of_injOn_of_ne`).
-/

namespace Hexv6.Lib

/-- The cells of the ring hold the items of `xs` from number `lo` on. -/
def Window {α : Type*} (N : ℕ) (ring : ℕ → α) (xs : List α) (lo : ℕ) : Prop :=
  ∀ n x, lo ≤ n → xs[n]? = some x → ring (n % N) = x

namespace Window

variable {α : Type*} {N lo : ℕ} {ring : ℕ → α} {xs : List α} {x : α}

section

variable (h : Window N ring xs lo)
include h

lemma mono {lo' : ℕ} (hle : lo ≤ lo') : Window N ring xs lo' :=
  fun n x hn hx => h n x (hle.trans hn) hx

/-- Writing the cell of the next item does not disturb the waiting ones. -/
lemma write (hroom : xs.length < lo + N) :
    Window N (Function.update ring (xs.length % N) x) xs lo := by
  intro n y hn hy
  obtain ⟨hlt, -⟩ := List.getElem?_eq_some_iff.mp hy
  -- two numbers less than `N` apart lie in different cells
  have hne : n % N ≠ xs.length % N := by
    intro heq
    have hdvd := (Nat.modEq_iff_dvd' hlt.le).mp heq
    have := Nat.le_of_dvd (by omega) hdvd
    omega
  rw [Function.update_of_ne hne]
  exact h n y hn hy

/-- Counting an item whose cell has been written. -/
lemma count (hx : ring (xs.length % N) = x) :
    Window N ring (xs ++ [x]) lo := by
  intro n y hn hy
  rcases lt_trichotomy n xs.length with hlt | rfl | hgt
  · rw [List.getElem?_append_left hlt] at hy
    exact h n y hn hy
  · rw [List.getElem?_concat_length] at hy
    exact hx.trans (Option.some.inj hy)
  · rw [List.getElem?_eq_none (by simp; omega)] at hy
    cases hy

lemma push (hroom : xs.length < lo + N) :
    Window N (Function.update ring (xs.length % N) x) (xs ++ [x]) lo :=
  (h.write hroom).count (Function.update_self ..)

end

end Window

/-! ### How many items are waiting -/

section Room

variable {N lo hi : ℕ} {f : ℕ → ℕ}

/-- Distinct numbers below `N`, one of which is missing, are fewer than `N`. -/
lemma lt_of_injOn_of_ne {x : ℕ} (hinj : Set.InjOn f (Set.Ico lo hi)) (hx : x < N)
    (hf : ∀ n, lo ≤ n → n < hi → f n < N ∧ f n ≠ x) : hi < lo + N := by
  have hcard : (Finset.Ico lo hi).card ≤ ((Finset.range N).erase x).card := by
    refine Finset.card_le_card_of_injOn f (fun n hn => ?_) (by simpa using hinj)
    obtain ⟨h1, h2⟩ := Finset.mem_Ico.mp hn
    obtain ⟨hlt, hne⟩ := hf n h1 h2
    simp [hlt, hne]
  rw [Nat.card_Ico, Finset.card_erase_of_mem (by simpa using hx), Finset.card_range] at hcard
  omega

/-- Distinct numbers below `N` are at most `N`. -/
lemma le_of_injOn (hinj : Set.InjOn f (Set.Ico lo hi)) (hf : ∀ n, lo ≤ n → n < hi → f n < N) :
    hi ≤ lo + N := by
  have hcard : (Finset.Ico lo hi).card ≤ (Finset.range N).card := by
    refine Finset.card_le_card_of_injOn f (fun n hn => ?_) (by simpa using hinj)
    obtain ⟨h1, h2⟩ := Finset.mem_Ico.mp hn
    simpa using hf n h1 h2
  rw [Nat.card_Ico, Finset.card_range] at hcard
  omega

/-- Counters that wrap at `W` tell whether an item is waiting. -/
lemma count_ne_iff {W : ℕ} (hle : lo ≤ hi) (hlt : hi < lo + W) : lo % W ≠ hi % W ↔ lo < hi := by
  constructor
  · intro hne
    exact lt_of_le_of_ne hle fun heq => hne (by rw [heq])
  intro hlo heq
  have hdvd := (Nat.modEq_iff_dvd' hle).mp heq
  have := Nat.le_of_dvd (by omega) hdvd
  omega

end Room

end Hexv6.Lib
