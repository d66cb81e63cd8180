import Mathlib.Tactic

/-!
# A list kept in the first cells of an array

A row of `n` cells holds a list when its first cells are the members of the list, in
order, and all further cells are empty.  Accesses are checked against the bounds of the
row: `read` and `write` return `none` outside it.  The two operations on the list that
are programmed on the row are appending a member (`Holds.write_end`) and deleting the
member at a position by shifting the later ones down by one (`Holds.shiftDown`).  The
member deleted is in practice the last one with some property; `eraseLast` is that
deletion on lists.
-/

namespace Hexv6.Lib

open Function

/-- An array of `n` cells, each empty or occupied. -/
abbrev Row (n : ℕ) (α : Type*) := Fin n → Option α

namespace Row

variable {n : ℕ} {α : Type*} {i : ℕ}

/-- The content of cell `i`; `none` outside the row. -/
def read (r : Row n α) (i : ℕ) : Option (Option α) :=
  if h : i < n then some (r ⟨i, h⟩) else none

/-- Overwrite cell `i`; `none` outside the row. -/
def write (r : Row n α) (i : ℕ) (v : Option α) : Option (Row n α) :=
  if h : i < n then some (update r ⟨i, h⟩ v) else none

/-- The loop `for (; c > 0; c--, i++) r[i] = r[i+1]`. -/
def shiftDown : ℕ → ℕ → Row n α → Option (Row n α)
  | 0, _, r => some r
  | c + 1, i, r => do
    let v ← r.read (i + 1)
    let r ← r.write i v
    shiftDown c (i + 1) r

lemma read_of_lt {r : Row n α} (h : i < n) : r.read i = some (r ⟨i, h⟩) := by
  rw [read, dif_pos h]

lemma write_of_lt {r : Row n α} (h : i < n) (v : Option α) :
    r.write i v = some (update r ⟨i, h⟩ v) := by
  rw [write, dif_pos h]

lemma write_of_le {r : Row n α} (h : n ≤ i) (v : Option α) : r.write i v = none := by
  rw [write, dif_neg (by omega)]

/-- The shift moves the cells `i + 1, …, i + c` down by one and leaves the rest. -/
lemma shiftDown_eq (c : ℕ) : ∀ (i : ℕ) (r : Row n α) (_ : i + c < n),
    ∃ r', shiftDown c i r = some r' ∧
      (∀ j : Fin n, i ≤ j → ∀ h : (j : ℕ) < i + c, r' j = r ⟨j + 1, by omega⟩) ∧
      (∀ j : Fin n, (j : ℕ) < i ∨ i + c ≤ j → r' j = r j) := by
  induction c with
  | zero =>
    intro i r _
    exact ⟨r, rfl, fun j h1 h2 => absurd h2 (by omega), fun _ _ => rfl⟩
  | succ c ih =>
    intro i r hi
    have hi1 : i + 1 < n := by omega
    have hi0 : i < n := by omega
    obtain ⟨r', hr', hin, hout⟩ :=
      ih (i + 1) (update r ⟨i, hi0⟩ (r ⟨i + 1, hi1⟩)) (by omega)
    refine ⟨r', ?_, ?_, ?_⟩
    · simp only [shiftDown, read_of_lt hi1, write_of_lt hi0, Option.bind_eq_bind, Option.bind_some]
      exact hr'
    · intro j hij hj
      rcases Nat.eq_or_lt_of_le hij with heq | hlt
      · have hji : j = ⟨i, hi0⟩ := Fin.ext heq.symm
        rw [hout j (by omega)]
        subst hji
        exact update_self ..
      have hne : (⟨j + 1, by omega⟩ : Fin n) ≠ ⟨i, hi0⟩ := by
        intro h
        have := congrArg Fin.val h
        simp only at this
        omega
      rw [hin j (by omega) (by omega), update_of_ne hne]
    · intro j hj
      have hne : j ≠ ⟨i, hi0⟩ := by
        rintro rfl
        simp only at hj
        omega
      rw [hout j (by omega), update_of_ne hne]

/-- The row holds the list, over the cells of another row: cell `i` is the `i`-th member, and past
the end the one of that row. -/
structure Over (rest r : Row n α) (l : List α) : Prop where
  length_le : l.length ≤ n
  cell : ∀ i : Fin n, r i = l[(i : ℕ)]?.or (rest i)

/-- The row holds the list: cell `i` is the `i`-th member, empty past the end. -/
structure Holds (r : Row n α) (l : List α) : Prop where
  length_le : l.length ≤ n
  cell : ∀ i : Fin n, r i = l[(i : ℕ)]?

variable {r rest : Row n α} {l : List α}

lemma holds_iff : Holds r l ↔ Over (fun _ => none) r l := by
  refine ⟨fun h => ⟨h.length_le, fun i => ?_⟩, fun h => ⟨h.length_le, fun i => ?_⟩⟩
  · rw [h.cell, Option.or_none]
  · rw [h.cell, Option.or_none]

lemma Holds.empty : Holds (fun _ => none : Row n α) [] := ⟨by simp, by simp⟩

/-- The list a row holds is determined by the row. -/
lemma Holds.unique {l' : List α} (h : Holds r l) (h' : Holds r l') : l = l' := by
  refine List.ext_getElem? fun i => ?_
  by_cases hi : i < n
  · have h1 := h.cell ⟨i, hi⟩
    have h2 := h'.cell ⟨i, hi⟩
    exact h1.symm.trans h2
  have := h.length_le
  have := h'.length_le
  rw [List.getElem?_eq_none (by omega), List.getElem?_eq_none (by omega)]

namespace Over

lemma read_eq (h : Over rest r l) (hi : i < l.length) : r.read i = some (some l[i]) := by
  have hn : i < n := lt_of_lt_of_le hi h.length_le
  rw [read_of_lt hn, h.cell]
  simp [hi]

/-- Appending a member writes the first free cell. -/
lemma write_end (h : Over rest r l) (hl : l.length < n) (a : α) :
    ∃ r', r.write l.length (some a) = some r' ∧ Over rest r' (l ++ [a]) := by
  refine ⟨_, write_of_lt hl _, by simpa using hl, fun i => ?_⟩
  by_cases hi : i = ⟨l.length, hl⟩
  · subst hi
    simp
  have hne : (i : ℕ) ≠ l.length := fun hc => hi (Fin.ext hc)
  rw [update_of_ne hi, h.cell]
  rcases Nat.lt_or_ge i l.length with hlt | hge
  · rw [List.getElem?_append_left hlt]
  · rw [List.getElem?_eq_none hge, List.getElem?_eq_none (by simp; omega)]

/-- Shifting the members after position `i` down by one and emptying the cell of the last
one deletes the member at position `i`. -/
lemma shiftDown (h : Over rest r l) (hi : i < l.length) (hlast : l.length - 1 < n) :
    ∃ r' r'', Row.shiftDown (l.length - 1 - i) i r = some r' ∧
      r'.write (l.length - 1) none = some r'' ∧
      Over (update rest ⟨l.length - 1, hlast⟩ none) r'' (l.eraseIdx i) := by
  have hle := h.length_le
  obtain ⟨r', hr', hin, hout⟩ := shiftDown_eq (l.length - 1 - i) i r (by omega)
  refine ⟨r', _, hr', write_of_lt hlast _, ?_, fun j => ?_⟩
  · rw [List.length_eraseIdx_of_lt hi]
    omega
  rw [List.getElem?_eraseIdx]
  by_cases hj : j = ⟨l.length - 1, hlast⟩
  · subst hj
    rw [update_self, update_self, Option.or_none]
    split
    · simp only at *
      omega
    · rw [List.getElem?_eq_none (by simp only; omega)]
  have hne : (j : ℕ) ≠ l.length - 1 := fun hc => hj (Fin.ext hc)
  rw [update_of_ne hj, update_of_ne hj]
  rcases Nat.lt_or_ge j i with hji | hji
  · rw [if_pos hji, hout j (Or.inl hji), h.cell]
  rw [if_neg (by omega)]
  rcases Nat.lt_or_ge j (l.length - 1) with hjl | hjl
  · rw [hin j hji (by omega), h.cell, List.getElem?_eq_getElem (show (j : ℕ) + 1 < _ by omega),
      Option.some_or, Option.some_or]
  · rw [hout j (Or.inr (by omega)), h.cell, List.getElem?_eq_none (by omega),
      List.getElem?_eq_none (by omega)]

end Over

end Row

/-! ### Deleting the last member with a property -/

section EraseLast

variable {α : Type*} {f : α → Bool} {l l₁ l₂ : List α} {a : α}

/-- Delete the last member that satisfies `f`. -/
def eraseLast (f : α → Bool) (l : List α) : List α := (l.reverse.eraseP f).reverse

lemma eraseLast_of_forall_not (h : ∀ b ∈ l, f b = false) : eraseLast f l = l := by
  rw [eraseLast, List.eraseP_of_forall_not (by simpa using h), List.reverse_reverse]

lemma eraseLast_append_cons (ha : f a = true) (h : ∀ b ∈ l₂, f b = false) :
    eraseLast f (l₁ ++ a :: l₂) = l₁ ++ l₂ := by
  have hnot : ∀ b ∈ l₂.reverse, ¬ f b = true := by simpa using h
  rw [eraseLast, List.reverse_append, List.reverse_cons, List.append_assoc,
    List.eraseP_append_right _ hnot]
  simp [ha]

/-- A list with a member that satisfies `f` is split at the last such member. -/
lemma exists_last_split (h : ∃ c ∈ l, f c = true) :
    ∃ l₁ b l₂, l = l₁ ++ b :: l₂ ∧ f b = true ∧ ∀ c ∈ l₂, f c = false := by
  induction l with
  | nil => simp at h
  | cons x l ih =>
    by_cases hx : ∃ c ∈ l, f c = true
    · obtain ⟨l₁, b, l₂, rfl, hb, hl2⟩ := ih hx
      exact ⟨x :: l₁, b, l₂, rfl, hb, hl2⟩
    obtain ⟨c, hc, hfc⟩ := h
    have hcx : c = x := by
      rcases List.mem_cons.1 hc with rfl | hc
      · rfl
      · exact absurd ⟨c, hc, hfc⟩ hx
    subst hcx
    refine ⟨[], c, l, rfl, hfc, fun d hd => ?_⟩
    by_contra hne
    exact hx ⟨d, hd, by simpa using hne⟩

lemma length_eraseLast (h : ∃ c ∈ l, f c = true) : (eraseLast f l).length + 1 = l.length := by
  obtain ⟨l1, b, l2, rfl, hb, hl2⟩ := exists_last_split h
  rw [eraseLast_append_cons hb hl2]
  simp only [List.length_append, List.length_cons]
  omega

/-- The members that do not satisfy `f` stay. -/
lemma mem_eraseLast_of_not (ha : a ∈ l) (hf : f a = false) : a ∈ eraseLast f l := by
  by_cases h : ∃ c ∈ l, f c = true
  · obtain ⟨l1, b, l2, rfl, hb, hl2⟩ := exists_last_split h
    have hne : a ≠ b := by
      rintro rfl
      rw [hf] at hb
      cases hb
    rw [eraseLast_append_cons hb hl2]
    simpa [hne] using ha
  · have hnot : ∀ b ∈ l, f b = false := by simpa using h
    rwa [eraseLast_of_forall_not hnot]

end EraseLast

end Hexv6.Lib
