import Hexv6.Fs.Effect
import Hexv6.Fs.Removed

/-!
# The invariant with bundled tokens

Every open file has its token with its reference, and the operations keep that.
-/

namespace Hexv6.Fs

open Lib Multiset Prog

/-- Every open file has its reference. -/
def HeldOpen {P : Type} (s : State P) (W : Multiset FTok) : Prop :=
  ∀ f k, 0 < (s.ftable f).ref → (s.ftable f).ip = some k →
    ∃ i m, m.proper = true ∧ .opened f k i m ∈ W

/-- The invariant with bundled tokens. -/
structure FInv {P : Type} (n : ℕ) (s : State P) (W : Multiset FTok) : Prop where
  inv : Inv True n s (erase W)
  noDead : NoDead s (erase W)
  opened : HeldOpen s W

section FRule

variable {P : Type} {n : ℕ} {s t : State P} {A B F : Multiset FTok} {f : FileSlot}

lemma HeldOpen.frame (h : HeldOpen s (A + F))
    (hf : ∀ f k, 0 < (t.ftable f).ref → (t.ftable f).ip = some k →
      (0 < (s.ftable f).ref ∧ (s.ftable f).ip = some k ∧ ∀ i m, .opened f k i m ∉ A) ∨
      ∃ i m, m.proper = true ∧ FTok.opened f k i m ∈ B) : HeldOpen t (B + F) := by
  intro f k hpos hip
  rcases hf f k hpos hip with ⟨hpos', hip', hA⟩ | ⟨i, m, hm, hB⟩
  · obtain ⟨i, m, hm, hmem⟩ := h f k hpos' hip'
    exact ⟨i, m, hm, mem_add.2 (.inr ((mem_add.1 hmem).resolve_left (hA i m)))⟩
  · exact ⟨i, m, hm, mem_add.2 (.inl hB)⟩

lemma opened_notMem_map {A : Multiset Token} {k : Slot} {i : ℕ} {m : Mode} :
    FTok.opened f k i m ∉ A.map .base := by
  rw [mem_map]
  rintro ⟨t, -, ht⟩
  cases ht

variable [DecidableEq P]

omit [DecidableEq P] in
/-- A file that belongs to one process is closed. -/
lemma fileDrop_ftable {y : Option Slot} (hx : fileDrop s f = .ok (t, y))
    (hle : (s.ftable f).ref ≤ 1) : t.ftable = Function.update s.ftable f {} := by
  simp only [fileDrop] at hx
  split at hx
  · cases hx
  rw [if_neg (by omega)] at hx
  cases hx
  rfl

omit [DecidableEq P] in
lemma HeldOpen.drop {y : Option Slot} (h : HeldOpen s (A + F)) (hx : fileDrop s f = .ok (t, y))
    (hle : (s.ftable f).ref ≤ 1) (hA : ∀ f' k i m, f' ≠ f → FTok.opened f' k i m ∉ A) :
    HeldOpen t (B + F) := by
  refine h.frame fun f' k hpos hip => .inl ?_
  rw [fileDrop_ftable hx hle] at hpos hip
  rcases eq_or_ne f' f with rfl | hne
  · simp at hip
  · rw [Function.update_of_ne hne] at hpos hip
    exact ⟨hpos, hip, fun i m => hA f' k i m hne⟩

theorem FRule.sound {p : P} {o : Op} {Ψ : o.Result → Multiset FTok → Prop} {x : o.Result}
    (hn : n ≤ 2 ^ 16) (hrule : FRule n o A Ψ) (h : FInv n s (A + F)) (hM : Counting s o)
    (hx : exec p o s = .ok (t, x)) : ∃ B, Ψ x B ∧ FInv n t (B + F) := by
  obtain ⟨hinv, hdead, hopen⟩ := h
  obtain ⟨A', C, Ψ', hbase, hA, hB⟩ := hrule.erase
  rw [erase_add, hA, add_assoc] at hinv hdead
  obtain ⟨B', hB', hinv', hdead'⟩ := hbase.sound_noDead hn hinv hdead hM hx
  obtain ⟨B, hΨ, herase⟩ := hB x B' hB'
  rw [← add_assoc, herase, ← erase_add] at hinv' hdead'
  rw [← add_assoc, ← hA] at hinv
  refine ⟨B, hΨ, hinv', hdead', ?_⟩
  -- which files are open
  cases hrule with
  | base hrule ho =>
    refine hopen.frame fun f k hpos hip => .inl ?_
    rcases exec_ftable hx ho f with heq | ⟨hzero, hsame⟩
    · rw [heq] at hpos hip
      exact ⟨hpos, hip, fun _ _ => opened_notMem_map⟩
    · rw [hsame, hinv.files.none f hzero] at hip
      cases hip
  | fileSet f k i d =>
    cases hx
    subst hΨ
    refine hopen.frame fun f' k' hpos hip => ?_
    rcases eq_or_ne f' f with rfl | hne
    · obtain rfl : k = k' := by simpa using hip
      exact .inr ⟨i, _, rfl, mem_singleton_self _⟩
    · simp only [Function.update_of_ne hne] at hpos hip
      exact .inl ⟨hpos, hip, fun _ _ => by simp⟩
  | itrunc f k i d hs =>
    cases hx
    subst hΨ
    exact hopen
  | iunlock f k i d =>
    subst hΨ
    refine hopen.frame fun f' k' hpos hip => ?_
    have heq : t.ftable f' = s.ftable f' := by
      rcases exec_ftable hx rfl f' with heq | ⟨hzero, hsame⟩
      · exact heq
      · rw [hsame, hinv.files.none f' hzero] at hip
        cases hip
    rw [heq] at hpos hip
    rcases eq_or_ne f' f with rfl | hne
    · have hk := hinv.files.ip f' (some k) (by simp [FTok.tokens])
      obtain rfl : k = k' := Option.mem_unique hk hip
      exact .inr ⟨i, _, rfl, mem_singleton_self _⟩
    · exact .inl ⟨hpos, hip, fun _ _ => by simp [hne]⟩
  | dropNone f => exact hopen.drop hx (hinv.files.le f) (by simp)
  | drop f k i => exact hopen.drop hx (hinv.files.le f) (by simp +contextual)

end FRule

end Hexv6.Fs
