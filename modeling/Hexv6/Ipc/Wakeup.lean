import Hexv6.Ipc.Pipe

/-!
# Wakeups of readers and writers

A reader may sleep while the pipe is empty and can still be written, a writer while the pipe
is full and can still be read.  Every way out of the functions of `pipe.c` wakes whoever can
go on, except one: `pipewrite` returns without a wakeup when it finds its process killed, also
if it has put bytes into the pipe since it took the lock.  So no wakeup is lost as long as no
process is killed at the wrong place of the loop of `pipewrite` while a reader depends on it
(`noLostWakeup_of_run`), and one is lost otherwise (`not_noLostWakeup_of_kill`).
-/

namespace Hexv6.Ipc

open Lib

/-- The reason to sleep on a channel. -/
def guard : Chan → Pipe → Prop
  | .nread, pi => pi.nread = pi.nwrite ∧ pi.writeopen = true
  | .nwrite, pi => pi.nwrite = pi.nread + BitVec.ofNat 32 PIPESIZE ∧ pi.readopen = true

/-- What holds at a place: the functions sleep for a reason, and `pipewrite` stores a byte in a
pipe that can be read. -/
def knows (pi : Pipe) : Place → Prop
  | .storing _ _ _ => pi.readopen = true
  | .full _ _ _ => guard .nwrite pi
  | .empty _ _ => guard .nread pi
  | _ => True

/-- The sleepers that are safe while somebody holds the lock: they have a reason to sleep, or a
wakeup follows.  A writer that is not killed, in a pipe that can be read, goes on to the wakeup
of the readers; one that is killed before it stores a byte does not, though the pipe is still
empty. -/
def covers (killed : Bool) (pi : Pipe) : Place → Chan → Prop
  | .writing _ _ _, .nread => guard .nread pi ∨ killed = false ∧ pi.readopen = true
  | .storing _ src i, .nread => killed = false ∨ pi.isFull = true ∨ src i = none
  | .copying _ _ _, .nwrite => True
  | .copied _, .nwrite => True
  | .shut true, .nread => True
  | .shut false, .nwrite => True
  | _, c => guard c pi

/-- What a move means for the sleepers.  Whoever goes on keeps them covered, and a wakeup on one
channel does so with the sleepers of the other; whoever goes to sleep has a reason, and whoever
lets go of the lock leaves a reason to all sleepers. -/
def Fair (killed : Bool) (pi : Pipe) (t : Place) : Move → Prop
  | .go pi' t' => knows pi' t' ∧ ∀ c, covers killed pi t c → covers killed pi' t' c
  | .wakeup c t' => knows pi t' ∧ ∀ c', c' ≠ c → covers killed pi t c' → covers killed pi t' c'
  | .sleep c t' => (∀ pi', knows pi' t') ∧ guard c pi ∧ ∀ c', covers killed pi t c' → guard c' pi
  | .release pi' _ => ∀ c, covers killed pi t c → guard c pi'

section Moves

variable {killed : Bool} {pi : Pipe} {t : Place} {n : ℤ} {i : ℕ} {src : ℕ → Option Byte}
  {dst : ℕ → Bool}

/-- `pipewrite` returns without a wakeup only if it is killed or the pipe can no longer be
read. -/
lemma fair_pipewrite : Fair killed pi (.writing n src i) (pipewrite killed pi n src i) := by
  rw [pipewrite]
  split_ifs with hi hopen
  · rintro (_ | _) hc
    · refine hc.resolve_right fun ho => ?_
      rcases hopen with hopen | hkilled
      · exact absurd ho.2 (by simp [hopen])
      · exact absurd ho.1 (by simp [hkilled])
    · exact hc
  · rw [not_or, Bool.not_eq_false, Bool.not_eq_true] at hopen
    refine ⟨hopen.1, ?_⟩
    rintro (_ | _) hc
    · exact .inl hopen.2
    · exact hc
  · refine ⟨trivial, ?_⟩
    rintro (_ | _) hne hc
    · exact absurd rfl hne
    · exact hc

/-- A byte is stored only in a pipe that has room, where no writer has a reason to sleep. -/
lemma fair_pipestore (hopen : pi.readopen = true) :
    Fair killed pi (.storing n src i) (pipestore pi n src i) := by
  have hwriters : ∀ t', covers killed pi t' .nwrite = guard .nwrite pi → ∀ c, c ≠ .nread →
      covers killed pi (.storing n src i) c → covers killed pi t' c := by
    rintro t' ht' (_ | _) hne hc
    · exact absurd rfl hne
    · exact ht' ▸ hc
  rw [pipestore]
  split_ifs with hfull
  · exact ⟨⟨by simpa [Pipe.isFull] using hfull, hopen⟩, hwriters _ rfl⟩
  cases hsrc : src i with
  | none => exact ⟨trivial, hwriters _ rfl⟩
  | some ch =>
    refine ⟨trivial, ?_⟩
    rintro (_ | _) hc
    · -- a wakeup follows only if the writer is not killed
      rcases hc with hk | hf | hnone
      · exact .inr ⟨hk, hopen⟩
      · exact absurd hf hfull
      · rw [hsrc] at hnone
        cases hnone
    · exact absurd (decide_eq_true hc.1) hfull

lemma fair_piperead : Fair killed pi (.reading n dst) (piperead killed pi n dst) := by
  rw [piperead]
  split_ifs with hempty
  · exact fun c hc => hc
  · exact ⟨⟨by simpa [Pipe.isEmpty] using hempty.1, hempty.2⟩, fun c hc => hc⟩
  · refine ⟨trivial, ?_⟩
    rintro (_ | _) hc
    · exact hc
    · trivial

lemma fair_pipecopy : Fair killed pi (.copying n dst i) (pipecopy pi n dst i) := by
  -- the wakeup of the writers follows, and nothing is taken from an empty pipe
  have hfair : ∀ {pi' : Pipe} {t' : Place}, knows pi' t' → covers killed pi' t' .nwrite →
      (guard .nread pi → covers killed pi' t' .nread) →
      Fair killed pi (.copying n dst i) (.go pi' t') := by
    refine fun hk hw hr => ⟨hk, ?_⟩
    rintro (_ | _) hc
    · exact hr hc
    · exact hw
  have hempty : guard .nread pi → pi.isEmpty = true := fun hg => decide_eq_true hg.1
  rw [pipecopy]
  split_ifs with hi hne
  · exact hfair trivial trivial id
  · exact hfair trivial trivial fun hg => absurd (hempty hg) hne
  · exact hfair trivial trivial fun hg => absurd (hempty hg) hne
  · exact hfair trivial trivial id

lemma fair_move (hk : knows pi t) : Fair killed pi t (move killed pi t) := by
  cases t with
  | writing n src i => exact fair_pipewrite
  | storing n src i => exact fair_pipestore hk
  | full n src i | empty n dst => exact ⟨fun _ => trivial, hk, fun c hc => hc⟩
  | reading n dst => exact fair_piperead
  | copying n dst i => exact fair_pipecopy
  | copied i =>
    refine ⟨trivial, fun c hne hc => ?_⟩
    cases c with
    | nread => exact hc
    | nwrite => exact absurd rfl hne
  | closing writable =>
    refine ⟨trivial, fun c hc => ?_⟩
    -- closing an end takes away the reason to sleep of one channel, whose wakeup follows
    cases writable <;> cases c <;> simp_all [guard, covers, Pipe.shut]
  | shut writable =>
    refine ⟨trivial, fun c hne hc => ?_⟩
    cases writable <;> cases c <;> simp_all [covers]
  | closed =>
    rw [move]
    split_ifs
    · intro c hc
      cases c <;> exact hc
    · exact fun c hc => hc
  | finish r => exact fun c hc => hc

lemma fair_of_move {m : Move} (hk : knows pi t) (h : move killed pi t = m) : Fair killed pi t m :=
  h ▸ fair_move hk

/-- Nobody takes the lock in order to go on after the test of `pr->killed`. -/
lemma covers_of_guard (hk : ∀ pi', knows pi' t) {c : Chan} (hg : guard c pi) :
    covers killed pi t c := by
  cases t with
  | storing n src i => cases hk { pi with readopen := false }
  | writing n src i =>
    cases c with
    | nread => exact .inl hg
    | nwrite => exact hg
  | shut writable => cases writable <;> cases c <;> first | exact hg | exact trivial
  | _ => cases c <;> first | exact hg | exact trivial

end Moves

/-- How the functions of `pipe.c` use their channels. -/
def discipline : Monitor.Discipline code where
  guard := guard
  knows := knows
  covers := covers
  knows_entry _ c := by cases c <;> trivial
  start hk hg := covers_of_guard hk hg
  go hk h := fair_of_move hk h
  wakeup hk h := fair_of_move hk h
  sleep hk h := fair_of_move hk h
  release hk h c := fair_of_move hk h c

/-! ### Whole runs -/

/-- While `pi->lock` is free, no reader sleeps in a pipe that has bytes or no writer, and no
writer sleeps in a pipe that has room or no reader. -/
def NoLostWakeup (st : State) : Prop :=
  st.lock = none →
    (∀ p t, st.status p = .asleep .nread t →
      st.data.nread = st.data.nwrite ∧ st.data.writeopen = true) ∧
    ∀ p t, st.status p = .asleep .nwrite t →
      st.data.nwrite = st.data.nread + BitVec.ofNat 32 PIPESIZE ∧ st.data.readopen = true

/-- Nobody is killed in the loop of `pipewrite`, holding `pi->lock`, while a reader that sleeps on
`&pi->nread` or is about to depends on it: before the test of `pr->killed`, if the pipe is no
longer empty or no longer open; after the test, if a byte is going to be stored. -/
def KillsCalm (st : State) : Action → Prop
  | .kill p => (st.status p).holds = true → ∀ q, (st.status q).sleepsOn = some .nread →
      match (st.status p).place with
      | some (.writing _ _ _) => st.data.nread = st.data.nwrite ∧ st.data.writeopen = true
      | some (.storing _ src i) => st.data.isFull = true ∨ src i = none
      | _ => True
  | _ => True

/-- Only in the loop of `pipewrite` it matters for the readers that a process is killed. -/
lemma calm_of_killsCalm {st : State} {a : Action} (h : KillsCalm st a) : discipline.Calm st a := by
  cases a with
  | kill p =>
    intro t q c ht hh hq hc
    have hcalm := h hh
    rw [ht] at hcalm
    cases t with
    | writing n src i =>
      cases c with
      | nread => exact .inl (hcalm q hq)
      | nwrite => exact hc
    | storing n src i =>
      cases c with
      | nread => exact .inr (hcalm q hq)
      | nwrite => exact hc
    | shut writable => cases writable <;> cases c <;> exact hc
    | _ => cases c <;> exact hc
  | _ => trivial

theorem noLostWakeup_of_run {data : Fin PIPESIZE → Byte} {killed : Sched.Slot → Bool}
    {tr : List (State × Action)} {st : State} (hrun : Run step (boot data killed) tr st)
    (hcalm : ∀ x ∈ tr, KillsCalm x.1 x.2) : NoLostWakeup st := by
  have hguard : ∀ {p c t}, st.lock = none → st.status p = .asleep c t → guard c st.data :=
    fun hl hp => discipline.guard_of_run Sched.mem_slots hrun
      (fun x hx => calm_of_killsCalm (hcalm x hx)) hl hp
  intro hl
  exact ⟨fun p t hp => hguard hl hp, fun p t hp => hguard hl hp⟩

/-- A reader sleeps in an empty pipe, and is woken by a writer that is killed afterwards. -/
def killedLate : List Action :=
  .call 0 (.read 1 fun _ => true) :: List.replicate 4 (.step 0) ++
    .call 1 (.write 1 fun _ => some 104#8) :: List.replicate 69 (.step 1) ++ [.kill 1, .step 1]

/-- A test for `KillsCalm` that only looks for sleepers. -/
def killsCalmTest (st : State) : Action → Bool
  | .kill p => !(st.status p).holds || Sched.slots.all fun q => (st.status q).sleepsOn.isNone
  | _ => true

lemma killsCalm_of_test {st : State} {a : Action} (h : killsCalmTest st a = true) :
    KillsCalm st a := by
  cases a with
  | kill p =>
    intro hh q hq
    simp only [killsCalmTest, hh, Bool.not_true, Bool.false_or, List.all_eq_true] at h
    have hnone := h q (Sched.mem_slots q)
    simp [hq] at hnone
  | _ => trivial

/-- The theorem at a run with a sleeper and a kill. -/
theorem noLostWakeup_of_run_late : ∃ tr st,
    Run step (boot (fun _ => 0) fun _ => false) tr st ∧ st.killed 1 = true ∧ NoLostWakeup st := by
  obtain ⟨st, hst, htest⟩ := exists_of_okAnd
      (runList step (boot (fun _ => 0) fun _ => false) killedLate)
      (fun st => st.killed 1) (by decide +kernel)
  have hcalm : ((traceList step (boot (fun _ => 0) fun _ => false) killedLate).all
      fun x => killsCalmTest x.1 x.2) = true := by decide +kernel
  exact ⟨_, st, .of_runList hst, htest, noLostWakeup_of_run (.of_runList hst)
    fun x hx => killsCalm_of_test (List.all_eq_true.1 hcalm x hx)⟩

/-- A reader sleeps in an empty pipe; a writer is killed after the first of its two bytes. -/
def killedEarly : List Action :=
  .call 0 (.read 1 fun _ => true) :: List.replicate 4 (.step 0) ++
    .call 1 (.write 2 fun _ => some 104#8) :: List.replicate 3 (.step 1) ++ [.kill 1, .step 1]

/-- A process that is asleep on a channel, as a test. -/
def asleepTest (st : State) (p : Sched.Slot) (c : Chan) : Bool :=
  match st.status p with
  | .asleep c' _ => c' = c
  | _ => false

lemma asleep_of_test {st : State} {p : Sched.Slot} {c : Chan} (h : asleepTest st p c = true) :
    ∃ t, st.status p = .asleep c t := by
  rw [asleepTest] at h
  split at h
  · rename_i t ht
    exact ⟨t, by rw [ht, of_decide_eq_true h]⟩
  · cases h

/-- The writer returns with its byte in the pipe, and the reader sleeps on. -/
theorem not_noLostWakeup_of_kill : ¬ ∀ data killed tr st,
    Run step (boot data killed) tr st → NoLostWakeup st := by
  intro hall
  obtain ⟨st, hst, htest⟩ := exists_of_okAnd
      (runList step (boot (fun _ => 0) fun _ => false) killedEarly)
      (fun st => st.lock.isNone && asleepTest st 0 .nread &&
        decide (st.data.nread ≠ st.data.nwrite)) (by decide +kernel)
  simp only [Bool.and_eq_true, decide_eq_true_eq, Option.isNone_iff_eq_none] at htest
  obtain ⟨⟨hl, hsleep⟩, hne⟩ := htest
  obtain ⟨t, ht⟩ := asleep_of_test hsleep
  exact hne ((hall _ _ _ _ (.of_runList hst) hl).1 0 t ht).1

end Hexv6.Ipc
