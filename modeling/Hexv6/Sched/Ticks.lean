import Hexv6.Lib.Transition

/-!
# How long `sleep` sleeps

`sys_sleep` of `kernel/sysproc.c` and `clockintr` of `kernel/trap.c`.  What happens while
`tickslock` is held is one step: a call reads `ticks0`, tests the loop condition, and returns or
falls asleep; the clock counts and wakes all sleepers.  Others may wake or kill a sleeper at any
time.

The loop condition compares an unsigned difference with the signed `n`.  So a negative `n` is a long
sleep, and the difference forgets `2 ^ 32` ticks.
-/

namespace Hexv6.Sched.Ticks

open Lib Function

/-- A call `sys_sleep(n)`, with the number of clock interrupts at the time when it read `ticks0`. -/
structure Call where
  n : BitVec 32
  ticks0 : BitVec 32
  start : ℕ

inductive Verdict
  | sleep
  | ret (r : ℤ)
deriving DecidableEq

/-- The head of the loop.  C converts `n` to unsigned. -/
def Call.test (c : Call) (killed : Bool) (ticks : BitVec 32) : Verdict :=
  if ticks - c.ticks0 < c.n then if killed then .ret (-1) else .sleep
  else .ret 0

inductive Phase
  | out (r : Option ℤ)
  /-- at the head of the loop -/
  | ready (c : Call)
  | asleep (c : Call)

def Phase.wake : Phase → Phase
  | .asleep c => .ready c
  | x => x

def Phase.call? : Phase → Option Call
  | .out _ => none
  | .ready c | .asleep c => some c

structure State (P : Type) where
  ticks : BitVec 32
  /-- the clock interrupts so far -/
  count : ℕ
  killed : P → Bool
  phase : P → Phase

inductive Action (P : Type)
  | call (p : P) (n : BitVec 32)
  | test (p : P)
  | clockintr
  | wakeup (p : P)
  | kill (p : P)

variable {P : Type} [DecidableEq P]

def step (s : State P) : Action P → Except Unit (State P)
  | .call p n =>
    match s.phase p with
    | .out _ => .ok { s with phase := update s.phase p (.ready ⟨n, s.ticks, s.count⟩) }
    | _ => .error ()
  | .test p =>
    match s.phase p with
    | .ready c =>
      match c.test (s.killed p) s.ticks with
      | .sleep => .ok { s with phase := update s.phase p (.asleep c) }
      | .ret r => .ok { s with phase := update s.phase p (.out (some r)) }
    | _ => .error ()
  | .clockintr =>
    .ok { s with ticks := s.ticks + 1, count := s.count + 1, phase := fun p => (s.phase p).wake }
  | .wakeup p => .ok { s with phase := update s.phase p (s.phase p).wake }
  | .kill p => .ok { s with
      killed := update s.killed p true
      phase := update s.phase p (s.phase p).wake }

/-- Nobody sleeps. -/
def boot (ticks : BitVec 32) (killed : P → Bool) : State P := ⟨ticks, 0, killed, fun _ => .out none⟩

/-! ### The counter -/

/-- The counter tells the interrupts since a call has begun, up to `2 ^ 32`. -/
def Counts (s : State P) (c : Call) : Prop :=
  c.start ≤ s.count ∧ s.ticks - c.ticks0 = BitVec.ofNat 32 (s.count - c.start)

def Inv (s : State P) : Prop := ∀ p, ∀ c ∈ (s.phase p).call?, Counts s c

variable {s s' : State P} {a : Action P} {p : P} {c : Call}

@[simp]
lemma call?_wake (x : Phase) : x.wake.call? = x.call? := by cases x <;> rfl

/-- One process changes, to a call that counts. -/
lemma Inv.update (h : Inv s) {x : Phase} (hx : ∀ c ∈ x.call?, Counts s c) (killed : P → Bool) :
    Inv { s with phase := update s.phase p x, killed } := by
  intro q c hc
  rcases eq_or_ne q p with rfl | hne
  · exact hx c (by simpa using hc)
  · exact h q c (by simpa [hne] using hc)

lemma Inv.step (h : Inv s) (hs : step s a = .ok s') : Inv s' := by
  cases a with simp only [Ticks.step] at hs
  | call p n =>
    split at hs <;> cases hs
    refine h.update ?_ s.killed
    rintro c ⟨⟩
    exact ⟨le_rfl, by simp⟩
  | test p =>
    split at hs
    · rename_i c hc
      have hcounts : Counts s c := h p c (by rw [hc]; rfl)
      split at hs <;> cases hs
      · refine h.update ?_ s.killed
        rintro _ ⟨⟩
        exact hcounts
      · exact h.update (x := .out _) nofun s.killed
    · cases hs
  | clockintr =>
    cases hs
    intro p c hc
    rw [call?_wake] at hc
    obtain ⟨hle, hticks⟩ := h p c hc
    refine ⟨Nat.le_succ_of_le hle, ?_⟩
    rw [Nat.sub_add_comm hle, BitVec.ofNat_add, ← hticks]
    bv_omega
  | wakeup p =>
    cases hs
    exact h.update (by rw [call?_wake]; exact h p) s.killed
  | kill p =>
    cases hs
    exact h.update (by rw [call?_wake]; exact h p) _

/-! ### The duration -/

/-- The ticks that have elapsed since the call has read `ticks0`. -/
def elapsed (s : State P) (c : Call) : ℕ := s.count - c.start

/-- What the head of the loop should do: 0 is returned after `max(n, 0)` ticks, -1 to a killed
process only, and nobody sleeps when the ticks have elapsed. -/
def Timely (s : State P) (p : P) (c : Call) : Prop :=
  (c.test (s.killed p) s.ticks = .ret 0 → max c.n.toInt 0 ≤ elapsed s c) ∧
  (c.test (s.killed p) s.ticks = .ret (-1) → s.killed p = true) ∧
  (c.test (s.killed p) s.ticks = .sleep → elapsed s c < max c.n.toInt 0)

/-- The process is killed; or `n` is not negative, and `2 ^ 32` ticks have not elapsed or are not
missed; or `n` is negative, and the counter is near to a wrap. -/
def Safe (s : State P) (p : P) (c : Call) : Prop :=
  s.killed p = true ∨
  0 ≤ c.n.toInt ∧ (elapsed s c < 2 ^ 32 ∨ c.n.toInt ≤ elapsed s c % 2 ^ 32) ∨
  c.n.toInt < 0 ∧ 2 ^ 32 + c.n.toInt ≤ elapsed s c % 2 ^ 32

/-- In every run, a call of `sys_sleep` does at the head of its loop what it should exactly in these
states. -/
theorem timely_iff_safe {ticks : BitVec 32} {killed : P → Bool} {tr : List (State P × Action P)}
    (hrun : Run step (boot ticks killed) tr s) (hp : s.phase p = .ready c) :
    Timely s p c ↔ Safe s p c := by
  have hinv : Inv s := (hrun.invariant' (fun _ _ _ h hs => h.step hs) nofun).2
  have htest : s.ticks - c.ticks0 < c.n ↔ elapsed s c % 2 ^ 32 < c.n.toNat := by
    rw [(hinv p c (by rw [hp]; rfl)).2, BitVec.lt_def, BitVec.toNat_ofNat, elapsed]
  have hlt := c.n.isLt
  have hn := BitVec.toInt_eq_toNat_cond c.n
  by_cases hless : elapsed s c % 2 ^ 32 < c.n.toNat <;> rcases hk : s.killed p with _ | _
  all_goals
    simp only [Timely, Safe, Call.test, htest, hless, hk]
    split at hn <;> simp <;> omega

/-- `sleep(1)` just before the counter wraps. -/
theorem timely_iff_safe_wrap : ∃ tr s, Run step (boot (P := Unit) (-1) fun _ => false) tr s ∧
      ∃ c, s.phase () = .ready c ∧ Safe s () c ∧ Timely s () c := by
  have hrun := Run.of_runList (show runList step (boot (-1) fun _ => false)
    [.call () 1, .test (), .clockintr] = .ok _ from rfl)
  refine ⟨_, _, hrun, ⟨1, -1, 0⟩, rfl, ?hsafe, (timely_iff_safe hrun rfl).mpr ?hsafe⟩
  exact .inr (.inl ⟨by decide, .inl (by decide)⟩)

/-- `sleep(-1)` falls asleep. -/
theorem not_timely_negative : ∃ tr s, Run step (boot (P := Unit) 0 fun _ => false) tr s ∧
      ∃ c, s.phase () = .ready c ∧ c.n.toInt = -1 ∧ elapsed s c = 0 ∧ ¬ Timely s () c := by
  have hrun := Run.of_runList (show runList step (boot 0 fun _ => false)
    [.call () (-1)] = .ok _ from rfl)
  exact ⟨_, _, hrun, ⟨-1, 0, 0⟩, rfl, by decide, rfl, fun h => absurd (h.2.2 rfl) (by decide)⟩

end Hexv6.Sched.Ticks
