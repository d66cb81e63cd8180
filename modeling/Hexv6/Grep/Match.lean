import Mathlib.Computability.Language
import Mathlib.Tactic

/-!
# The matcher of `grep`

`match`, `matchhere` and `matchstar` of `user/grep.c`, over the characters of a string before its
NUL, and the language of a pattern.
-/

namespace Hexv6.Grep

open scoped Computability

/-- `matchstar(c, re, text)`, where `here` is `matchhere(re, ·)`. -/
def matchstar (c : Char) (here : List Char → Bool) : List Char → Bool
  | [] => here []
  | x :: text => here (x :: text) || ((x = c ∨ c = '.') && matchstar c here text)

/-- `matchhere(re, text)`. -/
def matchhere : List Char → List Char → Bool
  | [], _ => true
  | c :: '*' :: re, text => matchstar c (matchhere re) text
  | ['$'], text => text.isEmpty
  | _ :: _, [] => false
  | c :: re, x :: text => (c = '.' ∨ c = x) && matchhere re text

/-- The loop of `match`. -/
def search (re : List Char) : List Char → Bool
  | [] => matchhere re []
  | x :: text => matchhere re (x :: text) || search re text

/-- `match(re, text)`. -/
def match_ : List Char → List Char → Bool
  | '^' :: re, text => matchhere re text
  | re, text => search re text

/-! ### The language of a pattern -/

/-- One character that `c` stands for. -/
def one (c : Char) : Language Char := {w | ∃ x, w = [x] ∧ (c = '.' ∨ c = x)}

/-- The language of the items of a pattern. -/
def lang : List Char → Language Char
  | [] => 1
  | c :: '*' :: re => (one c)∗ * lang re
  | ['$'] => 1
  | c :: re => one c * lang re

/-- Whether the last item of a pattern is the anchor `$`. -/
def anchored : List Char → Bool
  | [] => false
  | _ :: '*' :: re => anchored re
  | ['$'] => true
  | _ :: re => anchored re

/-- The text begins with a word of the language, and ends there if the pattern is anchored. -/
def Begins (re text : List Char) : Prop :=
  ∃ u v, text = u ++ v ∧ u ∈ lang re ∧ (anchored re = true → v = [])

/-- The text has a word of the language, at its start after a `^`. -/
def Denotes : List Char → List Char → Prop
  | '^' :: re, text => Begins re text
  | re, text => ∃ u v, text = u ++ v ∧ Begins re v

variable {c : Char} {re text : List Char}

lemma mem_star {u : List Char} : u ∈ (one c)∗ ↔ ∀ x ∈ u, x = c ∨ c = '.' := by
  rw [Language.mem_kstar]
  constructor
  · rintro ⟨L, rfl, hL⟩ x hx
    obtain ⟨y, hy, hxy⟩ := List.mem_flatten.1 hx
    obtain ⟨z, rfl, hz⟩ := hL y hy
    rw [List.mem_singleton.1 hxy]
    exact hz.symm.imp_left Eq.symm
  · refine fun h => ⟨u.map fun x => [x], by simp [← List.flatMap_def], ?_⟩
    simp only [List.mem_map, forall_exists_index, and_imp]
    rintro _ x hx rfl
    exact ⟨x, rfl, (h x hx).symm.imp_right Eq.symm⟩

lemma matchstar_iff {here : List Char → Bool} : matchstar c here text = true ↔
    ∃ u v, text = u ++ v ∧ u ∈ (one c)∗ ∧ here v = true := by
  simp only [mem_star]
  induction text with
  | nil => simp [matchstar]
  | cons x text ih =>
    simp only [matchstar, Bool.or_eq_true, Bool.and_eq_true, decide_eq_true_eq, ih]
    constructor
    · rintro (h | ⟨hx, u, v, rfl, hu, hv⟩)
      · exact ⟨[], _, rfl, by simp, h⟩
      · exact ⟨x :: u, v, rfl, List.forall_mem_cons.2 ⟨hx, hu⟩, hv⟩
    · rintro ⟨_ | ⟨y, u⟩, v, h, hu, hv⟩
      · exact .inl (h ▸ hv)
      · cases h
        exact .inr ⟨(List.forall_mem_cons.1 hu).1, u, v, rfl, (List.forall_mem_cons.1 hu).2, hv⟩

/-- A pattern that begins with an item whose language is `A`. -/
lemma begins_mul {p q : List Char} {A : Language Char} (hlang : lang q = A * lang p)
    (hanchored : anchored q = anchored p) :
    Begins q text ↔ ∃ u v, text = u ++ v ∧ u ∈ A ∧ Begins p v := by
  simp only [Begins, hlang, hanchored, Language.mem_mul]
  constructor
  · rintro ⟨_, v, rfl, ⟨u, hu, w, hw, rfl⟩, hv⟩
    exact ⟨u, w ++ v, by simp, hu, w, v, rfl, hw, hv⟩
  · rintro ⟨u, _, rfl, hu, w, v, rfl, hw, hv⟩
    exact ⟨u ++ w, v, by simp, ⟨u, hu, w, hw, rfl⟩, hv⟩

lemma matchhere_iff : matchhere re text = true ↔ Begins re text := by
  induction re using lang.induct generalizing text with
  | case1 => exact iff_of_true rfl ⟨[], text, rfl, rfl, by simp [anchored]⟩
  | case2 c re ih =>
    rw [matchhere, matchstar_iff, begins_mul (lang.eq_2 c re) (anchored.eq_2 c re)]
    simp only [ih]
  | case3 =>
    rw [matchhere, List.isEmpty_iff]
    refine ⟨fun h => ⟨[], text, rfl, rfl, fun _ => h⟩, ?_⟩
    rintro ⟨u, v, rfl, hu, hv⟩
    rw [hv rfl, List.append_nil]
    exact hu
  | case4 c re hstar hend ih =>
    rw [begins_mul (lang.eq_4 c re hstar hend) (anchored.eq_4 c re hstar hend)]
    rcases text with _ | ⟨x, text⟩
    · rw [matchhere.eq_4 _ _ hstar hend]
      refine iff_of_false Bool.false_ne_true ?_
      rintro ⟨_, v, h, ⟨x, rfl, -⟩, -⟩
      cases h
    rw [matchhere.eq_5 _ _ _ _ hstar hend, Bool.and_eq_true, decide_eq_true_eq, ih]
    constructor
    · exact fun h => ⟨[x], text, rfl, ⟨x, rfl, h.1⟩, h.2⟩
    · rintro ⟨_, v, h, ⟨y, rfl, hy⟩, hv⟩
      cases h
      exact ⟨hy, hv⟩

/-- The loop of `match` is the one of `matchstar` for `.`. -/
lemma search_eq : search re text = matchstar '.' (matchhere re) text := by
  induction text with
  | nil => rfl
  | cons x text ih => simp [search, matchstar, ih]

theorem match_iff (re text : List Char) : match_ re text = true ↔ Denotes re text := by
  fun_cases match_ re text with
  | case1 re => exact matchhere_iff
  | case2 re =>
    rw [search_eq, matchstar_iff, Denotes]
    · simp [mem_star, matchhere_iff]
    · assumption

end Hexv6.Grep
