import Mathlib.Tactic

/-!
# The best element of a list, found in one pass

A pass over a list keeps the best element so far and replaces it when a later element beats it.
What comes out depends on the order of the list unless some element is on top: it beats all
elements with another key, and nothing with another key beats it (`champion_of_onTop`).
-/

namespace Hexv6.Lib

variable {α κ : Type*} (beats : α → α → Bool)

/-- The best element so far, after `x` has been compared with it. -/
def challenge (best : Option α) (x : α) : Option α :=
  if best.all fun y => beats x y then some x else best

/-- The element that is left at the end of the pass. -/
def champion (l : List α) : Option α := l.foldl (challenge beats) none

variable {beats} {l : List α} {x m : α} {best : Option α}

lemma challenge_cases (beats : α → α → Bool) (best : Option α) (x : α) :
    challenge beats best x = some x ∨ challenge beats best x = best := by
  rw [challenge]
  split_ifs
  · exact .inl rfl
  · exact .inr rfl

lemma challenge_ne_none : challenge beats best x ≠ none := by
  cases best with
  | none => simp [challenge]
  | some y => rcases challenge_cases beats (some y) x with h | h <;> simp [h]

lemma champion_concat : champion beats (l ++ [x]) = challenge beats (champion beats l) x := by
  rw [champion, List.foldl_append]
  rfl

lemma champion_eq_none_iff : champion beats l = none ↔ l = [] := by
  induction l using List.reverseRecOn with
  | nil => simp [champion]
  | append_singleton l x _ =>
    rw [champion_concat]
    simp [challenge_ne_none]

lemma mem_of_champion (h : champion beats l = some x) : x ∈ l := by
  induction l using List.reverseRecOn with
  | nil => cases h
  | append_singleton l y ih =>
    rw [champion_concat] at h
    rcases challenge_cases beats (champion beats l) y with hc | hc
    · obtain rfl := Option.mem_unique hc h
      simp
    · exact List.mem_append_left _ (ih (hc.symm.trans h))

/-- The elements with the key `b` are on top: each of them beats all elements with another key
and is beaten by none of those. -/
def OnTop (beats : α → α → Bool) (key : α → κ) (b : κ) (l : List α) : Prop :=
  ∀ x ∈ l, key x = b → ∀ y ∈ l, key y ≠ b → beats x y = true ∧ beats y x = false

/-- If some elements are on top, one of them is found. -/
lemma champion_of_onTop {key : α → κ} (h : OnTop beats key (key m) l) (hm : m ∈ l) :
    ∃ r, champion beats l = some r ∧ key r = key m := by
  induction l using List.reverseRecOn with
  | nil => cases hm
  | append_singleton l x ih =>
    have hl : OnTop beats key (key m) l := fun y hy hkey z hz =>
      h y (List.mem_append_left _ hy) hkey z (List.mem_append_left _ hz)
    rw [champion_concat]
    rcases hc : champion beats l with _ | y
    · obtain rfl := champion_eq_none_iff.1 hc
      obtain rfl : m = x := by simpa using hm
      exact ⟨m, rfl, rfl⟩
    have hy := List.mem_append_left [x] (mem_of_champion hc)
    have hx : x ∈ l ++ [x] := by simp
    simp only [challenge, Option.all_some]
    by_cases hkx : key x = key m
    · split_ifs with hb
      · exact ⟨x, rfl, hkx⟩
      refine ⟨y, rfl, ?_⟩
      by_contra hky
      exact hb (h x hx hkx y hy hky).1
    -- the top is in the list already, and `x` does not beat it
    have hml : m ∈ l := by
      rcases List.mem_append.1 hm with hm | hm
      · exact hm
      · exact absurd (by rw [List.mem_singleton.1 hm]) hkx
    obtain ⟨r, hr, hkr⟩ := ih hl hml
    obtain rfl := Option.mem_unique hc hr
    rw [if_neg (by simp [(h y hy hkr x hx hkx).2])]
    exact ⟨y, rfl, hkr⟩

end Hexv6.Lib
