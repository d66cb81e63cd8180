import Mathlib.Algebra.BigOperators.Group.Finset.Piecewise
import Hexv6.Lib.Threads

/-!
# Rules with a frame

Resources that can be added up.  A base rule for an operation names only the resources that
the operation uses; `framed` lets it be applied when a process owns more than that.  `Spec`
is a triple of what a program uses, the program, and what it ends with, where everything
else that the process owns is left alone.

The invariant of the shared state is then a relation `Inv` between the state and the sum of
the resources of all processes, and an operation has to keep it only for the resources of
its base rule and an arbitrary rest (`sound_framed`).
-/

namespace Hexv6.Lib

open Function

section Spec

variable {O α β ρ : Type} {R : O → Type} [AddCommMonoid ρ]
  (base : (o : O) → ρ → (R o → ρ → Prop) → Prop)

/-- The base rules, with resources that stay. -/
def framed (r : ρ) (o : O) (Φ : R o → ρ → Prop) : Prop :=
  ∃ A F Ψ, base o A Ψ ∧ r = A + F ∧ Φ = fun x r' => ∃ B, Ψ x B ∧ r' = B + F

/-- From the resources `A` and any others the program follows the rules, and ends with
resources that satisfy `Ψ` and the others. -/
def Spec (A : ρ) (m : Prog O R α) (Ψ : α → ρ → Prop) : Prop :=
  ∀ F, own (framed base) m (fun a r => ∃ B, Ψ a B ∧ r = B + F) (A + F)

variable {base} {A C : ρ} {m : Prog O R α} {Ψ Ψ' : α → ρ → Prop} {Φ : β → ρ → Prop}
  {f : α → Prog O R β}

lemma Spec.mono (h : Spec base A m Ψ) (hΨ : ∀ a B, Ψ a B → Ψ' a B) : Spec base A m Ψ' :=
  fun F => (h F).mono fun a _ ⟨B, hB, hr⟩ => ⟨B, hΨ a B hB, hr⟩

lemma Spec.lift {base' : (o : O) → ρ → (R o → ρ → Prop) → Prop} {q : O → Prop}
    (hbase : ∀ o A Ψ, q o → base o A Ψ → base' o A Ψ) (hm : m.Within q) (h : Spec base A m Ψ) :
    Spec base' A m Ψ := by
  refine fun F => (h F).lift ?_ hm
  rintro r o Φ ho ⟨A, F, Ψ, hb, hr, hΦ⟩
  exact ⟨A, F, Ψ, hbase o A Ψ ho hb, hr, hΦ⟩

lemma Spec.ret {a : α} (h : Ψ a A) : Spec base A (pure a) Ψ := fun _ => ⟨A, h, rfl⟩

lemma Spec.bind (h : Spec base A m Ψ)
    (hf : ∀ a B, Ψ a B → Spec base B (f a) Φ) : Spec base A (m >>= f) Φ := by
  intro F
  rw [own_bind]
  refine (h F).mono ?_
  rintro a _ ⟨B, hB, rfl⟩
  exact hf a B hB F

lemma Spec.perform {o : O} {Ψ : R o → ρ → Prop} (h : base o A Ψ) : Spec base A (Prog.perform o) Ψ :=
  fun F => ⟨_, ⟨A, F, Ψ, h, rfl, rfl⟩, fun _ _ hx => hx⟩

lemma Spec.frame (C : ρ) (h : Spec base A m Ψ) :
    Spec base (A + C) m fun a B => ∃ B', Ψ a B' ∧ B = B' + C := by
  intro F
  rw [add_assoc]
  refine (h (C + F)).mono ?_
  rintro a _ ⟨B, hB, rfl⟩
  exact ⟨B + C, ⟨B, hB, rfl⟩, (add_assoc B C F).symm⟩

/-- Perform the first part of a program with some of the resources. -/
lemma Spec.seq (h : Spec base A m Ψ)
    (hf : ∀ a B, Ψ a B → Spec base (B + C) (f a) Φ) : Spec base (A + C) (m >>= f) Φ := by
  refine (h.frame C).bind ?_
  rintro a _ ⟨B, hB, rfl⟩
  exact hf a B hB

/-- An operation, and what follows. -/
lemma Spec.op {o : O} {Ψ : R o → ρ → Prop} {f : R o → Prog O R β} (h : base o A Ψ)
    (hf : ∀ x B, Ψ x B → Spec base B (f x) Φ) : Spec base A (Prog.perform o >>= f) Φ :=
  (Spec.perform h).bind hf

lemma Spec.opSeq {o : O} {Ψ : R o → ρ → Prop} {f : R o → Prog O R β} (h : base o A Ψ)
    (hf : ∀ x B, Ψ x B → Spec base (B + C) (f x) Φ) : Spec base (A + C) (Prog.perform o >>= f) Φ :=
  (Spec.perform h).seq hf

/-- What follows a part of which the resources at the end are known. -/
lemma Spec.next {B : ρ} (h : Spec base A m fun _ B' => B' = B)
    (hf : ∀ a, Spec base B (f a) Φ) : Spec base A (m >>= f) Φ :=
  h.bind fun a _ hB => hB ▸ hf a

lemma Spec.seqNext {B : ρ} (h : Spec base A m fun _ B' => B' = B)
    (hf : ∀ a, Spec base (B + C) (f a) Φ) : Spec base (A + C) (m >>= f) Φ :=
  h.seq fun a _ hB => hB ▸ hf a

/-- The last part of a program, with some of the resources. -/
lemma Spec.last (h : Spec base A m Ψ) (hΨ : ∀ a B, Ψ a B → Ψ' a (B + C)) :
    Spec base (A + C) m Ψ' := by
  refine (h.frame C).mono ?_
  rintro a _ ⟨B, hB, rfl⟩
  exact hΨ a B hB

lemma Spec.own (h : Spec base A m Ψ) : own (framed base) m Ψ A := by
  have h0 := h 0
  rw [add_zero] at h0
  refine h0.mono ?_
  rintro a _ ⟨B, hB, rfl⟩
  rwa [add_zero]

/-- Rules for other resources: `φ` gives the resources of one rule to the other, with some that
stay. -/
lemma Spec.map {ρ' : Type} [AddCommMonoid ρ'] {base' : (o : O) → ρ' → (R o → ρ' → Prop) → Prop}
    {φ : ρ → ρ'} (hφ : ∀ A B, φ (A + B) = φ A + φ B) {q : O → Prop}
    (hbase : ∀ {o A Ψ}, q o → base o A Ψ → ∃ A' C Ψ', base' o A' Ψ' ∧ φ A = A' + C ∧
      ∀ x B', Ψ' x B' → ∃ B, Ψ x B ∧ B' + C = φ B)
    (hm : m.Within q) (h : Spec base A m Ψ) :
    Spec base' (φ A) m fun a B' => ∃ B, Ψ a B ∧ B' = φ B := by
  replace h := h.own
  intro F
  induction m generalizing A with
  | ret a => exact ⟨_, ⟨A, h, rfl⟩, rfl⟩
  | op o k ih =>
    obtain ⟨_, ⟨A, C, Ψ, hrule, rfl, rfl⟩, hk⟩ := h
    obtain ⟨A', D, Ψ', hrule', hA, hB⟩ := hbase hm.1 hrule
    refine ⟨_, ⟨A', D + (φ C + F), Ψ', hrule', ?_, rfl⟩, ?_⟩
    · rw [hφ, hA, add_assoc, add_assoc]
    rintro x _ ⟨B', hB', rfl⟩
    obtain ⟨B, hΨ, heq⟩ := hB x B' hB'
    rw [← add_assoc, heq, ← add_assoc, ← hφ]
    exact ih x (hm.2 x) (hk x _ ⟨B, hΨ, rfl⟩)

end Spec

/-! ### Soundness -/

section Sound

variable {σ P O C ε α ρ : Type} {R : O → Type} [AddCommMonoid ρ] [DecidableEq P] [Fintype P]
  {base : (o : O) → ρ → (R o → ρ → Prop) → Prop} {Inv : σ → ρ → Prop} {M : σ → O → Prop}
  {exec : P → (o : O) → σ → Except ε (σ × R o)}

/-- What a process owns, and what the others own. -/
lemma sum_eq_add_erase (res : P → ρ) (p : P) :
    ∑ q, res q = res p + ∑ q ∈ Finset.univ.erase p, res q :=
  (Finset.add_sum_erase _ _ (Finset.mem_univ p)).symm

lemma sum_update_eq (res : P → ρ) (p : P) (r : ρ) :
    ∑ q, update res p r q = r + ∑ q ∈ Finset.univ.erase p, res q := by
  rw [sum_eq_add_erase _ p, update_self]
  congr 1
  exact Finset.sum_congr rfl fun q hq => update_of_ne (Finset.ne_of_mem_erase hq) ..

/-- Resources that belong to the entries of a table, when one entry changes. -/
lemma exists_sum_update {X : Type*} {owns : X → ρ → Prop} {f : P → X} {B C : ρ} {y : X}
    (h : ∃ res : P → ρ, B = ∑ p, res p ∧ ∀ p, owns (f p) (res p)) (p : P) (hC : owns y C) :
    ∃ A B', owns (f p) A ∧ B = A + B' ∧
      ∃ res : P → ρ, C + B' = ∑ q, res q ∧ ∀ q, owns (update f p y q) (res q) := by
  obtain ⟨res, rfl, hres⟩ := h
  refine ⟨res p, ∑ q ∈ Finset.univ.erase p, res q, hres p, sum_eq_add_erase res p,
    update res p C, (sum_update_eq res p C).symm, fun q => ?_⟩
  rcases eq_or_ne q p with rfl | hne
  · rwa [update_self, update_self]
  · rw [update_of_ne hne, update_of_ne hne]
    exact hres q

theorem sound_framed
    (h : ∀ {s : σ} {A F : ρ} {p : P} {o : O} {Ψ : R o → ρ → Prop} {t : σ} {x : R o}, base o A Ψ →
      Inv s (A + F) → M s o → exec p o s = .ok (t, x) → ∃ B, Ψ x B ∧ Inv t (B + F)) :
    Sound exec (framed base) (fun s res => Inv s (∑ p, res p)) M := by
  rintro s res p o Φ hinv ⟨A, F, Ψ, hbase, hr, rfl⟩ hM t x hx
  simp only [sum_eq_add_erase res p, hr, add_assoc] at hinv
  obtain ⟨B, hB, hinv'⟩ := h hbase hinv hM hx
  refine ⟨B + F, ⟨B, hB, rfl⟩, ?_⟩
  simp only [sum_update_eq, add_assoc]
  exact hinv'

/-- The resources of a base rule, and the rest. -/
lemma exists_of_framed {s : σ} {res : P → ρ} {p : P} {o : O} {Φ : R o → ρ → Prop}
    (hinv : Inv s (∑ p, res p)) (hrule : framed base (res p) o Φ) :
    ∃ A F Ψ, base o A Ψ ∧ Inv s (A + F) := by
  obtain ⟨A, F, Ψ, hbase, hr, -⟩ := hrule
  rw [sum_eq_add_erase res p, hr, add_assoc] at hinv
  exact ⟨A, _, Ψ, hbase, hinv⟩

theorem safe_framed {e : ε}
    (h : ∀ {s : σ} {A F : ρ} {p : P} {o : O} {Ψ : R o → ρ → Prop}, base o A Ψ →
      Inv s (A + F) → M s o → exec p o s ≠ .error e)
    {s : σ} {res : P → ρ} {p : P} {o : O} {Φ : R o → ρ → Prop} (hinv : Inv s (∑ p, res p))
    (hrule : framed base (res p) o Φ) (hM : M s o) : exec p o s ≠ .error e := by
  obtain ⟨A, F, Ψ, hbase, hinv'⟩ := exists_of_framed hinv hrule
  exact h hbase hinv' hM

end Sound

end Hexv6.Lib
