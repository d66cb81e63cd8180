import Hexv6.Lib.Transition

/-!
# Concurrent programs and what they own

A sequential program is a tree of atomic operations: at each node it performs an operation
and continues according to the result.  A pool is a shared state together with one program
for each process; in a step some process performs its next operation, or a process whose
program has ended starts a new one.

To reason about all interleavings at once, each process is given resources of some type
`ρ`.  A `rule` says which resources an operation needs and what becomes of them, and `own`
follows a program through the rules without looking at the shared state at all.  The link
is a global invariant `G` between the shared state and the resources of all processes:
if every operation keeps `G` while it changes only the resources of its own process, as its
rule says (`Sound`), then `G` holds in every state that the pool reaches
(`Owned.of_poolStep`).
-/

namespace Hexv6.Lib

/-! ### Programs -/

/-- A program over the operations `O`, where `o : O` has a result in `R o`. -/
inductive Prog (O : Type) (R : O → Type) (α : Type) : Type
  | ret (a : α)
  | op (o : O) (k : R o → Prog O R α)

namespace Prog

variable {O : Type} {R : O → Type} {α β : Type}

/-- Sequential composition. -/
protected def bind : Prog O R α → (α → Prog O R β) → Prog O R β
  | .ret a, f => f a
  | .op o k, f => .op o fun x => (k x).bind f

instance : Monad (Prog O R) where
  pure := .ret
  bind := Prog.bind

/-- The program that performs one operation. -/
def perform (o : O) : Prog O R (R o) := .op o .ret

/-- The program performs only operations that satisfy `q`, whatever their results are. -/
def Within (q : O → Prop) : Prog O R α → Prop
  | .ret _ => True
  | .op o k => q o ∧ ∀ x, (k x).Within q

variable {q : O → Prop} {m : Prog O R α}

lemma Within.pure (a : α) : (Pure.pure a : Prog O R α).Within q := trivial

lemma Within.perform {o : O} (h : q o) : (Prog.perform o : Prog O R (R o)).Within q :=
  ⟨h, fun _ => trivial⟩

lemma Within.bind {f : α → Prog O R β} (hm : m.Within q)
    (hf : ∀ a, (f a).Within q) : (m >>= f).Within q := by
  induction m with
  | ret a => exact hf a
  | op o k ih => exact ⟨hm.1, fun x => ih x (hm.2 x)⟩

lemma within_true (m : Prog O R α) : m.Within fun _ => True := by
  induction m with
  | ret a => trivial
  | op o k ih => exact ⟨trivial, ih⟩

end Prog

/-! ### Pools of processes -/

/-- A shared state and the rest of the program of each process. -/
structure Pool (σ P O : Type) (R : O → Type) (α : Type) where
  shared : σ
  thread : P → Prog O R α

/-- What can happen next: a process calls `c`, or performs its next operation. -/
inductive Act (P C : Type)
  | call (p : P) (c : C)
  | step (p : P)
deriving DecidableEq, Repr

/-- The calls of process `p`, each with the number of its operations. -/
def script {P C : Type} (p : P) (calls : List (C × ℕ)) : List (Act P C) :=
  calls.flatMap fun c => .call p c.1 :: List.replicate c.2 (.step p)

section Pool

variable {σ P O C ε α : Type} {R : O → Type} [DecidableEq P]

/-- The operation that `p` performs next. -/
def Pool.next (s : Pool σ P O R α) (p : P) : Option O :=
  match s.thread p with
  | .ret _ => none
  | .op o _ => some o

/-- No process is in the middle of a program. -/
def Pool.Idle (s : Pool σ P O R α) : Prop := ∀ p, s.next p = none

variable (exec : P → (o : O) → σ → Except ε (σ × R o)) (body : C → α → Option (Prog O R α))
  (disabled : ε)

/-- One step of the pool. -/
def poolStep (s : Pool σ P O R α) : Act P C → Except ε (Pool σ P O R α)
  | .call p c =>
    match s.thread p with
    | .ret a =>
      match body c a with
      | some m => .ok { s with thread := Function.update s.thread p m }
      | none => .error disabled
    | .op _ _ => .error disabled
  | .step p =>
    match s.thread p with
    | .ret _ => .error disabled
    | .op o k =>
      match exec p o s.shared with
      | .ok (t, x) => .ok { shared := t, thread := Function.update s.thread p (k x) }
      | .error e => .error e

end Pool

/-! ### Weakest preconditions over resources -/

section Wp

variable {O α β ρ : Type} {R : O → Type} (rule : ρ → (o : O) → (R o → ρ → Prop) → Prop)

/-- From the resources `r` the program follows the rules, and ends with a result and
resources that satisfy `Q`. -/
def own : Prog O R α → (α → ρ → Prop) → ρ → Prop
  | .ret a, Q, r => Q a r
  | .op o k, Q, r => ∃ Φ, rule r o Φ ∧ ∀ x r', Φ x r' → own (k x) Q r'

variable {rule} {Q Q' : α → ρ → Prop} {r : ρ}

lemma own.mono (h : own rule m Q r) (hQ : ∀ a r', Q a r' → Q' a r') :
    own rule m Q' r := by
  induction m generalizing r with
  | ret a => exact hQ a r h
  | op o k ih =>
    obtain ⟨Φ, hrule, hk⟩ := h
    exact ⟨Φ, hrule, fun x r' hx => ih x (hk x r' hx)⟩

/-- Other rules that are as good for the operations of the program. -/
lemma own.lift {rule' : ρ → (o : O) → (R o → ρ → Prop) → Prop} {q : O → Prop}
    (hrule : ∀ r o Φ, q o → rule r o Φ → rule' r o Φ) (hm : m.Within q)
    (h : own rule m Q r) : own rule' m Q r := by
  induction m generalizing r with
  | ret a => exact h
  | op o k ih =>
    obtain ⟨Φ, ho, hk⟩ := h
    exact ⟨Φ, hrule r o Φ hm.1 ho, fun x r' hx => ih x (hm.2 x) (hk x r' hx)⟩

lemma own_bind {m : Prog O R β} {f : β → Prog O R α} :
    own rule (m >>= f) Q r ↔ own rule m (fun b r' => own rule (f b) Q r') r := by
  induction m generalizing r with
  | ret b => rfl
  | op o k ih =>
    constructor
    · rintro ⟨Φ, hrule, hk⟩
      exact ⟨Φ, hrule, fun x r' hx => (ih x).1 (hk x r' hx)⟩
    · rintro ⟨Φ, hrule, hk⟩
      exact ⟨Φ, hrule, fun x r' hx => (ih x).2 (hk x r' hx)⟩

end Wp

/-! ### Soundness -/

section Sound

variable {σ P O C ε α ρ : Type} {R : O → Type} [DecidableEq P]

/-- Operations keep the invariant, and change the resources of their process by the rules,
whenever they are performed in states that meet `M`. -/
def Sound (exec : P → (o : O) → σ → Except ε (σ × R o))
    (rule : ρ → (o : O) → (R o → ρ → Prop) → Prop) (G : σ → (P → ρ) → Prop)
    (M : σ → O → Prop) : Prop :=
  ∀ {s : σ} {res : P → ρ} {p : P} {o : O} {Φ : R o → ρ → Prop}, G s res → rule (res p) o Φ →
    M s o → ∀ {t : σ} {x : R o}, exec p o s = .ok (t, x) →
      ∃ r', Φ x r' ∧ G t (Function.update res p r')

/-- The resources can be divided among the processes so that the invariant holds and every
process owns what the rest of its program needs. -/
def Owned (rule : ρ → (o : O) → (R o → ρ → Prop) → Prop) (G : σ → (P → ρ) → Prop)
    (Q : α → ρ → Prop) (s : Pool σ P O R α) : Prop :=
  ∃ res, G s.shared res ∧ ∀ p, own rule (s.thread p) Q (res p)

/-- If the action is an operation, then it is performed in a state that meets `M`. -/
def Meets (M : σ → O → Prop) (s : Pool σ P O R α) : Act P C → Prop
  | .call _ _ => True
  | .step p => ∀ o, s.next p = some o → M s.shared o

variable {exec : P → (o : O) → σ → Except ε (σ × R o)} {body : C → α → Option (Prog O R α)}
  {disabled : ε} {rule : ρ → (o : O) → (R o → ρ → Prop) → Prop} {G : σ → (P → ρ) → Prop}
  {Q : α → ρ → Prop} {M : σ → O → Prop} {s t : Pool σ P O R α} {a : Act P C}

omit [DecidableEq P] in
lemma meets_true : Meets (fun _ _ => True) s a := by
  cases a with
  | call p c => trivial
  | step p => exact fun _ _ => trivial

lemma forall_own_update {res : P → ρ} {thread : P → Prog O R α} {p : P} {r : ρ}
    (h : ∀ q, own rule (thread q) Q (res q)) (hm : own rule m Q r) (q : P) :
    own rule (Function.update thread p m q) Q (Function.update res p r q) := by
  rcases eq_or_ne q p with rfl | hq
  · simpa only [Function.update_self] using hm
  · simpa only [Function.update_of_ne hq] using h q

/-- A step keeps the invariant, if programs that start with the resources of an ended
program end with them again. -/
theorem Owned.of_poolStep (hsound : Sound exec rule G M)
    (hbody : ∀ c a m r, body c a = some m → Q a r → own rule m Q r) (h : Owned rule G Q s)
    (hM : Meets M s a) (hstep : poolStep exec body disabled s a = .ok t) :
    Owned rule G Q t := by
  obtain ⟨res, hG, hown⟩ := h
  cases a with rw [poolStep] at hstep
  | call p c =>
    split at hstep
    · rename_i b hp
      split at hstep
      · rename_i m hm
        cases hstep
        have hb : Q b (res p) := by simpa only [hp, own] using hown p
        refine ⟨res, hG, fun q => ?_⟩
        have := forall_own_update (p := p) hown (hbody c b m (res p) hm hb) q
        rwa [Function.update_eq_self] at this
      · cases hstep
    · cases hstep
  | step p =>
    split at hstep
    · cases hstep
    rename_i o k hp
    split at hstep
    · rename_i u x hx
      cases hstep
      have hop : own rule (.op o k) Q (res p) := hp ▸ hown p
      obtain ⟨Φ, hrule, hk⟩ := hop
      have hnext : s.next p = some o := by rw [Pool.next, hp]
      obtain ⟨r', hr', hG'⟩ := hsound hG hrule (hM o hnext) hx
      exact ⟨_, hG', forall_own_update hown (hk x r' hr')⟩
    · cases hstep

/-- An error that no operation ends with is not reached. -/
theorem Owned.ne_error (e : ε) (hne : e ≠ disabled)
    (hsafe : ∀ {s : σ} {res : P → ρ} {p : P} {o : O} {Φ : R o → ρ → Prop}, G s res →
      rule (res p) o Φ → M s o → exec p o s ≠ .error e)
    (h : Owned rule G Q s) (hM : Meets M s a) : poolStep exec body disabled s a ≠ .error e := by
  obtain ⟨res, hG, hown⟩ := h
  intro hstep
  cases a with rw [poolStep] at hstep
  | call p c =>
    split at hstep
    · split at hstep
      · cases hstep
      · exact hne (Except.error.inj hstep).symm
    · exact hne (Except.error.inj hstep).symm
  | step p =>
    split at hstep
    · exact hne (Except.error.inj hstep).symm
    rename_i o k hp
    have hop : own rule (.op o k) Q (res p) := hp ▸ hown p
    obtain ⟨Φ, hrule, -⟩ := hop
    have hnext : s.next p = some o := by rw [Pool.next, hp]
    split at hstep
    · cases hstep
    rename_i e' he
    obtain rfl := Except.error.inj hstep
    exact hsafe hG hrule (hM o hnext) he

/-- A step starts a program, or performs an operation with the resources of its rule. -/
theorem Owned.cases_step (h : Owned rule G Q s) (hstep : poolStep exec body disabled s a = .ok t) :
    t.shared = s.shared ∨ ∃ p o res Φ x, s.next p = some o ∧ a = .step p ∧ G s.shared res ∧
      rule (res p) o Φ ∧ exec p o s.shared = .ok (t.shared, x) := by
  obtain ⟨res, hG, hown⟩ := h
  cases a with rw [poolStep] at hstep
  | call p c =>
    split at hstep
    · split at hstep
      · cases hstep
        exact .inl rfl
      · cases hstep
    · cases hstep
  | step p =>
    split at hstep
    · cases hstep
    rename_i o k hp
    split at hstep
    · rename_i u x hx
      cases hstep
      have hop : own rule (.op o k) Q (res p) := hp ▸ hown p
      obtain ⟨Φ, hrule, -⟩ := hop
      exact .inr ⟨p, o, res, Φ, x, by rw [Pool.next, hp], rfl, hG, hrule, hx⟩
    · cases hstep

omit [DecidableEq P] in
/-- When nothing is in progress, every process holds the resources of an ended program. -/
lemma Owned.idle (h : Owned rule G Q s) (hidle : s.Idle) :
    ∃ res, G s.shared res ∧ ∀ p, ∃ a, s.thread p = .ret a ∧ Q a (res p) := by
  obtain ⟨res, hG, hown⟩ := h
  refine ⟨res, hG, fun p => ?_⟩
  have hp := hidle p
  rw [Pool.next] at hp
  split at hp
  · rename_i a ha
    exact ⟨a, ha, by simpa only [ha, own] using hown p⟩
  · cases hp

end Sound

end Hexv6.Lib
