import Mathlib.Tactic

/-!
# Runs of a fallible step function

A system is given by a step function `step : σ → α → Except ε σ`: from a state and an
action it computes the next state, or the error on which the system stops.  A run is
recorded by its trace, the list of the pairs (state, action) at which its steps were
taken, so that "every step of the run meets `C`" and "every state of the run satisfies
`P`" are statements about the members of the trace.

The two rules used throughout are `Run.invariant` (a property kept by every step that
meets a condition holds along every run whose steps all meet it) and
`Run.forall_state_iff` (if moreover a step that does not meet the condition destroys the
property, then the runs along which the property holds are exactly those whose steps all
meet the condition).
-/

namespace Hexv6.Lib

/-! ### Computations that may fail -/

section Fallible

universe u v

variable {ε : Type u} {α β : Type v}

@[simp] lemma ok_bind (a : α) (f : α → Except ε β) : (Except.ok a >>= f) = f a := rfl

@[simp] lemma error_bind (e : ε) (f : α → Except ε β) :
    ((Except.error e : Except ε α) >>= f) = .error e := rfl

@[simp] lemma pure_eq_ok (a : α) : (pure a : Except ε α) = .ok a := rfl

lemma bind_eq_ok {x : Except ε α} {f : α → Except ε β} {b : β} :
    (x >>= f) = .ok b ↔ ∃ a, x = .ok a ∧ f a = .ok b := by
  cases x with
  | error e => simp
  | ok a => simp

/-- Whether a computation succeeds with a result that passes a test. -/
def okAnd (x : Except ε α) (test : α → Bool) : Bool :=
  match x with
  | .ok a => test a
  | .error _ => false

lemma exists_of_okAnd (x : Except ε α) (test : α → Bool) (h : okAnd x test = true) :
    ∃ a, x = .ok a ∧ test a = true := by
  cases x with
  | error e => cases h
  | ok a => exact ⟨a, rfl, h⟩

/-- Whether a computation fails with the given error. -/
def failsWith [DecidableEq ε] (x : Except ε α) (e : ε) : Bool :=
  match x with
  | .ok _ => false
  | .error e' => e' = e

lemma eq_error_of_failsWith [DecidableEq ε] {x : Except ε α} {e : ε}
    (h : failsWith x e = true) : x = .error e := by
  cases x with
  | error e' => rw [of_decide_eq_true h]
  | ok a => cases h

end Fallible

/-! ### Runs -/

section Runs

variable {σ α ε : Type*} (step : σ → α → Except ε σ)

/-- `Run step s tr t`: the run from `s` to `t` whose steps are taken at the pairs of
`tr`, in this order. -/
inductive Run : σ → List (σ × α) → σ → Prop
  | nil (s : σ) : Run s [] s
  | cons {s s₁ t : σ} {a : α} {tr : List (σ × α)} (h : step s a = .ok s₁)
      (hr : Run s₁ tr t) : Run s ((s, a) :: tr) t

/-- The state after a list of actions. -/
def runList : σ → List α → Except ε σ
  | s, [] => .ok s
  | s, a :: as =>
    match step s a with
    | .ok s₁ => runList s₁ as
    | .error e => .error e

/-- The trace of a list of actions, up to the first error. -/
def traceList : σ → List α → List (σ × α)
  | _, [] => []
  | s, a :: as =>
    (s, a) :: match step s a with
      | .ok s₁ => traceList s₁ as
      | .error _ => []

variable {step} {s t : σ} {tr : List (σ × α)}

lemma Run.of_runList {as : List α} (h : runList step s as = .ok t) :
    Run step s (traceList step s as) t := by
  induction as generalizing s with
  | nil =>
    simp only [runList, Except.ok.injEq] at h
    subst h
    exact .nil s
  | cons a as ih =>
    rcases hs : step s a with e | s1
    · simp [runList, hs] at h
    rw [runList, hs] at h
    rw [traceList, hs]
    exact .cons hs (ih h)

/-- The actions of a trace are among the actions given. -/
lemma mem_of_mem_traceList {as : List α} {s : σ} {x : σ × α} (h : x ∈ traceList step s as) :
    x.2 ∈ as := by
  induction as generalizing s with
  | nil => simp [traceList] at h
  | cons a as ih =>
    rw [traceList] at h
    rcases List.mem_cons.1 h with rfl | h
    · simp
    rcases hs : step s a with e | s1
    · simp [hs] at h
    · rw [hs] at h
      exact List.mem_cons_of_mem _ (ih h)

/-- A trace is a run up to each of its pairs. -/
lemma Run.of_traceList {as : List α} {a : α} {tr₁ tr₂ : List (σ × α)}
    (h : traceList step s as = tr₁ ++ (t, a) :: tr₂) : Run step s tr₁ t := by
  induction as generalizing s tr₁ with
  | nil => simp [traceList] at h
  | cons b as ih =>
    rw [traceList] at h
    rcases tr₁ with _ | ⟨x, tr₁⟩
    · obtain ⟨hx, -⟩ := List.cons.inj h
      cases hx
      exact .nil _
    obtain ⟨rfl, htr⟩ := List.cons.inj h
    rcases hs : step s b with e | s1
    · simp [hs] at htr
    · rw [hs] at htr
      exact .cons hs (ih htr)

/-- A list of actions ends with an error exactly when the step at the end of its trace
does, and no other step of the trace ends with an error. -/
lemma runList_eq_error_iff {as : List α} {s : σ} {e : ε} : runList step s as = .error e ↔
      ∃ tr₁ t a tr₂, traceList step s as = tr₁ ++ (t, a) :: tr₂ ∧ step t a = .error e := by
  induction as generalizing s with
  | nil => simp [runList, traceList]
  | cons b as ih =>
    rcases hs : step s b with e' | s1
    · simp only [runList, traceList, hs, Except.error.injEq]
      constructor
      · rintro rfl
        exact ⟨[], s, b, [], rfl, hs⟩
      rintro ⟨tr₁, t, a, tr₂, htr, ht⟩
      rcases tr₁ with _ | ⟨x, tr₁⟩
      · obtain ⟨hx, -⟩ := List.cons.inj htr
        cases hx
        rw [hs] at ht
        exact Except.error.inj ht
      · simp at htr
    · simp only [runList, traceList, hs, ih]
      constructor
      · rintro ⟨tr₁, t, a, tr₂, htr, ht⟩
        exact ⟨(s, b) :: tr₁, t, a, tr₂, by rw [htr, List.cons_append], ht⟩
      rintro ⟨tr₁, t, a, tr₂, htr, ht⟩
      rcases tr₁ with _ | ⟨x, tr₁⟩
      · obtain ⟨hx, -⟩ := List.cons.inj htr
        cases hx
        rw [hs] at ht
        cases ht
      · exact ⟨tr₁, t, a, tr₂, (List.cons.inj htr).2, ht⟩

lemma Run.append {s t u : σ} {tr tr' : List (σ × α)} (h : Run step s tr t)
    (h' : Run step t tr' u) : Run step s (tr ++ tr') u := by
  induction h with
  | nil s => simpa using h'
  | cons hs _ ih => exact .cons hs (ih h')

lemma Run.snoc {s t u : σ} {a : α} (h : Run step s tr t)
    (hs : step t a = .ok u) : Run step s (tr ++ [(t, a)]) u :=
  h.append (.cons hs (.nil u))

/-- Every pair of a trace is reached by the part of the run before it. -/
lemma Run.reach_of_mem (h : Run step s tr t) :
    ∀ x ∈ tr, ∃ tr₁ tr₂, tr = tr₁ ++ tr₂ ∧ Run step s tr₁ x.1 ∧ ∃ u, step x.1 x.2 = .ok u := by
  induction h with
  | nil s => simp
  | @cons s s1 t a tr hs _ ih =>
    intro x hx
    rcases List.mem_cons.1 hx with rfl | hx
    · exact ⟨[], (s, a) :: tr, rfl, .nil s, s1, hs⟩
    · obtain ⟨tr₁, tr₂, rfl, hr, u, hu⟩ := ih x hx
      exact ⟨(s, a) :: tr₁, tr₂, rfl, .cons hs hr, u, hu⟩

variable {I P : σ → Prop} {C : σ → α → Prop}

/-- What every step that meets `C` keeps, holds along every run whose steps all
meet `C`. -/
theorem Run.invariant (hstep : ∀ s a t, I s → C s a → step s a = .ok t → I t)
    (h : Run step s tr t) (h₀ : I s)
    (hC : ∀ x ∈ tr, C x.1 x.2) : (∀ x ∈ tr, I x.1) ∧ I t := by
  induction h with
  | nil s => exact ⟨by simp, h₀⟩
  | @cons s s1 t a tr hs _ ih =>
    have h1 : I s1 := hstep s a s1 h₀ (hC (s, a) (by simp)) hs
    obtain ⟨htr, ht⟩ := ih h1 (fun x hx => hC x (by simp [hx]))
    refine ⟨fun x hx => ?_, ht⟩
    rcases List.mem_cons.1 hx with rfl | hx
    · exact h₀
    · exact htr x hx

/-- An invariant of every step holds in every state of every run. -/
theorem Run.invariant' (hstep : ∀ s a t, I s → step s a = .ok t → I t) (h : Run step s tr t)
    (h₀ : I s) :
    (∀ x ∈ tr, I x.1) ∧ I t :=
  h.invariant (C := fun _ _ => True) (fun s a t hs _ => hstep s a t hs) h₀ (by simp)

/-- An invariant that refers to the steps taken so far. -/
theorem Run.history {P : List (σ × α) → σ → Prop}
    (h : Run step s tr t) (h₀ : P [] s)
    (hstep : ∀ tr s a t, P tr s → step s a = .ok t → P (tr ++ [(s, a)]) t) : P tr t := by
  suffices hpre : ∀ pre, P pre s → P (pre ++ tr) t from hpre [] h₀
  clear h₀
  induction h with
  | nil s =>
    intro pre hp
    rwa [List.append_nil]
  | @cons s s1 t a tr hs _ ih =>
    intro pre hp
    have hcons := ih (pre ++ [(s, a)]) (hstep pre s a s1 hp hs)
    rwa [List.append_assoc] at hcons

/-- If the steps that meet `C` keep the invariant, and a step that does not meet `C`
leads from the invariant to a state without `P`, then the runs along which `P` holds are
those whose steps all meet `C`. -/
theorem Run.forall_state_iff (hP : ∀ s, I s → P s)
    (hstep : ∀ s a t, I s → C s a → step s a = .ok t → I t)
    (hbad : ∀ s a t, I s → ¬ C s a → step s a = .ok t → ¬ P t) (h : Run step s tr t) (h₀ : I s) :
    ((∀ x ∈ tr, P x.1) ∧ P t) ↔ ∀ x ∈ tr, C x.1 x.2 := by
  constructor
  · intro hall
    induction h with
    | nil s => simp
    | @cons s s1 t a tr hs hr ih =>
      have hP1 : P s1 := by
        cases hr with
        | nil => exact hall.2
        | @cons _ _ _ b _ _ _ => exact hall.1 (s1, b) (by simp)
      have hC : C s a := by
        by_contra hC
        exact hbad s a s1 h₀ hC hs hP1
      have hrest := ih (hstep s a s1 h₀ hC hs) ⟨fun x hx => hall.1 x (by simp [hx]), hall.2⟩
      intro x hx
      rcases List.mem_cons.1 hx with rfl | hx
      · exact hC
      · exact hrest x hx
  · intro hC
    obtain ⟨htr, ht⟩ := h.invariant hstep h₀ hC
    exact ⟨fun x hx => hP _ (htr x hx), hP t ht⟩

end Runs

end Hexv6.Lib
