import Mathlib.Tactic

/-!
# Sums over a family of which one member changes

A count over all members of a finite family, when one of them changes and what the others
contribute stays the same; and sums of multisets in which nothing is twice.
-/

namespace Hexv6.Lib

variable {ι : Type*} [DecidableEq ι] {M : Type*} [AddCommMonoid M]

/-- The sums before and after differ by what the changed member contributes. -/
lemma sum_add_of_eq_off {S : Finset ι} {f f' : ι → M} {i : ι} (hi : i ∈ S)
    (h : ∀ j, j ≠ i → f' j = f j) : ∑ j ∈ S, f' j + f i = ∑ j ∈ S, f j + f' i := by
  have hrest : ∑ j ∈ S.erase i, f' j = ∑ j ∈ S.erase i, f j :=
    Finset.sum_congr rfl fun j hj => h j (Finset.ne_of_mem_erase hj)
  rw [← Finset.add_sum_erase _ f' hi, ← Finset.add_sum_erase _ f hi, hrest]
  abel

/-! ### Sums of multisets without repetitions -/

section Nodup

variable {α : Type*} {S : Finset ι} {g g' : ι → Multiset α} {i j : ι} {a : α}

/-- One member gets an element. -/
lemma sum_cons_of_eq_off (hi : i ∈ S) (h : ∀ j, j ≠ i → g' j = g j) (hg : g' i = a ::ₘ g i) :
    ∑ j ∈ S, g' j = a ::ₘ ∑ j ∈ S, g j := by
  have hsum := sum_add_of_eq_off hi h
  rw [hg, Multiset.add_cons, ← Multiset.cons_add] at hsum
  exact Multiset.add_left_inj.mp hsum

lemma nodup_of_sum (h : (∑ j ∈ S, g j).Nodup) (hi : i ∈ S) : (g i).Nodup := by
  rw [← Finset.add_sum_erase _ g hi] at h
  exact (Multiset.nodup_add.mp h).1

/-- No element is in two members. -/
lemma eq_of_mem_sum (h : (∑ j ∈ S, g j).Nodup) (hi : i ∈ S) (hj : j ∈ S) (ha : a ∈ g i)
    (ha' : a ∈ g j) : i = j := by
  by_contra hne
  rw [← Finset.add_sum_erase _ g hi] at h
  refine Multiset.disjoint_left.mp (Multiset.nodup_add.mp h).2.2 ha ?_
  exact Multiset.mem_sum.mpr ⟨j, Finset.mem_erase.mpr ⟨Ne.symm hne, hj⟩, ha'⟩

end Nodup

end Hexv6.Lib
