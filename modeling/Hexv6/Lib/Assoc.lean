import Mathlib.Tactic

/-!
# Finite maps stored in slots

A list of slots, some of which are in use: `key x` is the key of a slot in use and `none` for
a free one, and `val x` is the value in it.  The list stands for the map `assoc key val xs`,
which looks for the first slot with a key.  Where no key is used twice (`Distinct`), filling a
free slot or a new one adds exactly one binding (`Distinct.assoc_fill`), and
freeing a slot removes exactly one (`Distinct.assoc_clear`).
-/

namespace Hexv6.Lib

open List

variable {α κ ν : Type*} [DecidableEq κ] (key : α → Option κ) (val : α → ν)

/-- The value in the first slot with this key. -/
def assoc (xs : List α) (k : κ) : Option ν := (xs.find? fun x => key x = some k).map val

/-- No key is used twice. -/
def Distinct (xs : List α) : Prop :=
  ∀ (i j : ℕ) x y k, xs[i]? = some x → xs[j]? = some y → key x = some k → key y = some k → i = j

variable {key val} {xs : List α} {k : κ} {v : ν} {i : ℕ} {x y : α}

omit [DecidableEq κ] in
lemma distinct_nil : Distinct key ([] : List α) := by
  intro i j x y k hx
  simp at hx

lemma assoc_eq_none_iff :
    assoc key val xs k = none ↔ ∀ (i : ℕ) x, xs[i]? = some x → key x ≠ some k := by
  simp only [assoc, Option.map_eq_none_iff, find?_eq_none, decide_eq_true_eq]
  constructor
  · intro h i x hx
    exact h x (mem_of_getElem? hx)
  intro h x hx
  obtain ⟨i, hi⟩ := getElem?_of_mem hx
  exact h i x hi

/-- With distinct keys every slot in use counts. -/
lemma Distinct.assoc_eq_some_iff (h : Distinct key xs) :
    assoc key val xs k = some v ↔ ∃ (i : ℕ) (x : α), xs[i]? = some x ∧ key x = some k ∧
    val x = v := by
  constructor
  · intro hv
    obtain ⟨x, hx, hval⟩ := Option.map_eq_some_iff.mp hv
    obtain ⟨i, hi⟩ := getElem?_of_mem (mem_of_find?_eq_some hx)
    have hkey := find?_some hx
    exact ⟨i, x, hi, of_decide_eq_true hkey, hval⟩
  rintro ⟨i, x, hi, hkey, rfl⟩
  cases hv : assoc key val xs k with
  | none => exact absurd hkey (assoc_eq_none_iff.mp hv i x hi)
  | some v =>
    obtain ⟨y, hy, rfl⟩ := Option.map_eq_some_iff.mp hv
    obtain ⟨j, hj⟩ := getElem?_of_mem (mem_of_find?_eq_some hy)
    have hkey' := find?_some hy
    obtain rfl := h i j x y k hi hj hkey (of_decide_eq_true hkey')
    obtain rfl := Option.mem_unique hi hj
    rfl

/-! ### Filling a slot -/

/-- The slots of `ys` are those of `xs`, except that slot `i` has become `x`. -/
structure Replaces (xs ys : List α) (i : ℕ) (x : α) : Prop where
  here : ys[i]? = some x
  other : ∀ j : ℕ, j ≠ i → ys[j]? = xs[j]?

lemma replaces_set (hi : xs[i]? = some y) : Replaces xs (xs.set i x) i x where
  here := by
    obtain ⟨hlt, -⟩ := List.getElem?_eq_some_iff.mp hi
    simp [hlt]
  other j hj := List.getElem?_set_ne hj.symm

lemma replaces_concat : Replaces xs (xs ++ [x]) xs.length x where
  here := getElem?_concat_length
  other j hj := by
    rcases lt_or_gt_of_ne hj with hlt | hgt
    · exact getElem?_append_left hlt
    · rw [getElem?_eq_none (by simp; omega), getElem?_eq_none (by omega)]

variable {ys : List α}

/-- Filling a slot that was free, or is new, with a key that is not used. -/
lemma Distinct.fill (h : Distinct key xs) (hr : Replaces xs ys i x) (hx : key x = some k)
    (hnew : assoc key val xs k = none) : Distinct key ys := by
  have hnone := assoc_eq_none_iff.mp hnew
  intro j l y z k' hy hz hyk hzk
  by_cases hj : j = i <;> by_cases hl : l = i
  · rw [hj, hl]
  · rw [hj, hr.here] at hy
    rw [hr.other l hl] at hz
    cases hy
    exact absurd (hzk.trans (hyk.symm.trans hx)) (hnone l z hz)
  · rw [hl, hr.here] at hz
    rw [hr.other j hj] at hy
    cases hz
    exact absurd (hyk.trans (hzk.symm.trans hx)) (hnone j y hy)
  · rw [hr.other j hj] at hy
    rw [hr.other l hl] at hz
    exact h j l y z k' hy hz hyk hzk

/-- The other bindings stay. -/
lemma Distinct.assoc_of_ne (h : Distinct key xs) (h' : Distinct key ys) (hr : Replaces xs ys i x)
    (hx : key x ≠ some k) (hold : ∀ y, xs[i]? = some y → key y ≠ some k) :
    assoc key val ys k = assoc key val xs k := by
  ext v
  rw [h'.assoc_eq_some_iff, h.assoc_eq_some_iff]
  constructor
  · rintro ⟨j, y, hy, hyk, rfl⟩
    have hj : j ≠ i := by
      rintro rfl
      obtain rfl := Option.mem_unique hy hr.here
      exact hx hyk
    exact ⟨j, y, (hr.other j hj).symm.trans hy, hyk, rfl⟩
  · rintro ⟨j, y, hy, hyk, rfl⟩
    have hj : j ≠ i := by
      rintro rfl
      exact hold y hy hyk
    exact ⟨j, y, (hr.other j hj).trans hy, hyk, rfl⟩

/-- The map gets exactly the new binding. -/
lemma Distinct.assoc_fill (h : Distinct key xs) (hr : Replaces xs ys i x) (hx : key x = some k)
    (hold : ∀ y, xs[i]? = some y → key y = none) (hnew : assoc key val xs k = none) :
    assoc key val ys = Function.update (assoc key val xs) k (some (val x)) := by
  have h' := h.fill hr hx hnew
  funext k'
  by_cases hk : k' = k
  · subst hk
    rw [Function.update_self, h'.assoc_eq_some_iff]
    exact ⟨i, x, hr.here, hx, rfl⟩
  · rw [Function.update_of_ne hk]
    refine h.assoc_of_ne h' hr (by simpa [hx] using Ne.symm hk) fun y hy => ?_
    simp [hold y hy]

/-! ### Freeing a slot -/

omit [DecidableEq κ] in
lemma Distinct.clear (h : Distinct key xs) (hr : Replaces xs ys i x) (hx : key x = none) :
    Distinct key ys := by
  intro j l y z k' hy hz hyk hzk
  have hne : ∀ (m : ℕ) w, ys[m]? = some w → key w = some k' → m ≠ i := by
    rintro m w hw hwk rfl
    obtain rfl := Option.mem_unique hw hr.here
    rw [hx] at hwk
    cases hwk
  rw [hr.other j (hne j y hy hyk)] at hy
  rw [hr.other l (hne l z hz hzk)] at hz
  exact h j l y z k' hy hz hyk hzk

/-- The map loses exactly the binding of the slot. -/
lemma Distinct.assoc_clear (h : Distinct key xs) (hr : Replaces xs ys i x) (hx : key x = none)
    (hy : xs[i]? = some y) (hyk : key y = some k) :
    assoc key val ys = Function.update (assoc key val xs) k none := by
  funext k'
  by_cases hk : k' = k
  · subst hk
    rw [Function.update_self, assoc_eq_none_iff]
    intro j z hz hzk
    rcases eq_or_ne j i with rfl | hj
    · obtain rfl := Option.mem_unique hz hr.here
      rw [hx] at hzk
      cases hzk
    · rw [hr.other j hj] at hz
      exact hj (h j i z y k' hz hy hzk hyk)
  · rw [Function.update_of_ne hk]
    refine h.assoc_of_ne (h.clear hr hx) hr (by simp [hx]) fun z hz hzk => hk ?_
    obtain rfl := Option.mem_unique hz hy
    exact Option.mem_unique hzk hyk

end Hexv6.Lib
