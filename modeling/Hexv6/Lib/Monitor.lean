import Hexv6.Lib.Transition

/-!
# Monitors: a lock, sleeping and waking

Processes that share data under one spin lock and wait for each other with `sleep` and
`wakeup`.  What a process does while it holds the lock is given by `Code.move`: from the
data, the place `t` where the process is, and whether it has been killed, the next thing
it does.  The machine adds everything around it:

* a process that calls `sleep` takes its own lock, releases the monitor's and only then
  becomes a sleeper (`dozing`, then `asleep`); nobody can look at it in between;
* `wakeup` visits the processes one at a time, and waits for one that is dozing;
* a process can be killed at any moment, which also ends its sleep;
* a process that is woken has to take the lock again before it goes on.

A `Discipline` states for each channel the `guard` that justifies sleeping on it, and for
each place the channels whose sleepers the holder of the lock `covers`.  The main result
(`Discipline.guard_of_run`) is that processes which cover the sleepers until they release
the lock lose no wakeup: whenever the lock is free, the guard of every sleeper holds.
-/

namespace Hexv6.Lib.Monitor

open Function

/-! ### The machine -/

/-- What a process that holds the lock does next. -/
inductive Move (σ κ τ ρ : Type)
  /-- change the data and go on -/
  | go (s : σ) (t : τ)
  /-- wake the sleepers of a channel and go on -/
  | wakeup (c : κ) (t : τ)
  /-- sleep on a channel, and go on when the lock is held again -/
  | sleep (c : κ) (t : τ)
  /-- release the lock and return; the last change of the data is made on the way out -/
  | release (s : σ) (r : ρ)

/-- The programs of the processes. -/
structure Code (C σ κ τ ρ : Type) where
  /-- the place where a call starts, as soon as it holds the lock -/
  entry : C → τ
  move : Bool → σ → τ → Move σ κ τ ρ
  /-- whether the data can still be used -/
  alive : σ → Bool

/-- What a process is doing. -/
inductive Status (P κ τ ρ : Type)
  /-- not in a call; the result of the last one -/
  | out (r : Option ρ)
  /-- waiting for the lock -/
  | wanting (t : τ)
  /-- holding the lock -/
  | inside (t : τ)
  /-- holding the lock, in `wakeup(c)` with the processes `rest` still to visit -/
  | waking (c : κ) (rest : List P) (t : τ)
  /-- in `sleep(c)`, holding its own lock and no longer the monitor's -/
  | dozing (c : κ) (t : τ)
  | asleep (c : κ) (t : τ)

/-- The channel that a process sleeps on or is about to. -/
def Status.sleepsOn {P κ τ ρ : Type} : Status P κ τ ρ → Option κ
  | .dozing c _ => some c
  | .asleep c _ => some c
  | _ => none

/-- Whether a process holds the lock. -/
def Status.holds {P κ τ ρ : Type} : Status P κ τ ρ → Bool
  | .inside _ => true
  | .waking _ _ _ => true
  | _ => false

/-- Where a process is in its call. -/
def Status.place {P κ τ ρ : Type} : Status P κ τ ρ → Option τ
  | .out _ => none
  | .wanting t | .inside t | .waking _ _ t | .dozing _ t | .asleep _ t => some t

structure State (P σ κ τ ρ : Type) where
  data : σ
  lock : Option P
  killed : P → Bool
  status : P → Status P κ τ ρ

inductive Fault
  /-- the action is not possible in this state -/
  | disabled
  /-- the data is used after its end -/
  | dead
deriving DecidableEq

/-- The actions: a process makes a call, takes its next step, is killed, or makes place for
a new process that is not killed. -/
inductive Action (P C : Type)
  | call (p : P) (c : C)
  | step (p : P)
  | kill (p : P)
  | renew (p : P)

section Machine

variable {P C σ κ τ ρ : Type} [DecidableEq P]

namespace State

/-- Change what `p` is doing. -/
def set (st : State P σ κ τ ρ) (p : P) (x : Status P κ τ ρ) : State P σ κ τ ρ :=
  { st with status := update st.status p x }

variable (st : State P σ κ τ ρ) (p : P) (x : Status P κ τ ρ)

@[simp] lemma set_data : (st.set p x).data = st.data := rfl

@[simp] lemma set_lock : (st.set p x).lock = st.lock := rfl

@[simp] lemma set_killed : (st.set p x).killed = st.killed := rfl

@[simp] lemma set_status_self : (st.set p x).status p = x := update_self ..

lemma set_status_of_ne {q : P} (h : q ≠ p) : (st.set p x).status q = st.status q :=
  update_of_ne h ..

end State

variable [DecidableEq κ] (code : Code C σ κ τ ρ) (order : List P)

/-- The visit of `wakeup(c)` to the process `q`; `none` while `q` is dozing. -/
def visit (st : State P σ κ τ ρ) (c : κ) (q : P) : Option (State P σ κ τ ρ) :=
  match st.status q with
  | .dozing _ _ => none
  | .asleep c' t => some (if c' = c then st.set q (.wanting t) else st)
  | _ => some st

/-- The next step of `p`. -/
def advance (st : State P σ κ τ ρ) (p : P) : Except Fault (State P σ κ τ ρ) :=
  match st.status p with
  | .out _ => .error .disabled
  | .asleep _ _ => .error .disabled
  | .wanting t =>
    if st.lock.isSome then .error .disabled
    else if code.alive st.data then .ok { st.set p (.inside t) with lock := some p }
    else .error .dead
  | .inside t =>
    match code.move (st.killed p) st.data t with
    | .go s t' => .ok { st.set p (.inside t') with data := s }
    | .wakeup c t' => .ok (st.set p (.waking c order t'))
    | .sleep c t' => .ok { st.set p (.dozing c t') with lock := none }
    | .release s r => .ok { st.set p (.out (some r)) with data := s, lock := none }
  | .waking _ [] t => .ok (st.set p (.inside t))
  | .waking c (q :: rest) t =>
    if q = p then .ok (st.set p (.waking c rest t))
    else
      match visit st c q with
      | none => .error .disabled
      | some st' => .ok (st'.set p (.waking c rest t))
  | .dozing c t => .ok (st.set p (.asleep c t))

/-- One step of the machine. -/
def step (st : State P σ κ τ ρ) : Action P C → Except Fault (State P σ κ τ ρ)
  | .call p c =>
    match st.status p with
    | .out _ => .ok (st.set p (.wanting (code.entry c)))
    | _ => .error .disabled
  | .step p => advance code order st p
  | .kill p =>
    match st.status p with
    | .dozing _ _ => .error .disabled
    | .asleep _ t => .ok { st.set p (.wanting t) with killed := update st.killed p true }
    | _ => .ok { st with killed := update st.killed p true }
  | .renew p =>
    match st.status p with
    | .out _ => .ok { st with killed := update st.killed p false }
    | _ => .error .disabled

/-- A monitor that nobody uses yet. -/
def init (s : σ) (killed : P → Bool) : State P σ κ τ ρ :=
  { data := s, lock := none, killed := killed, status := fun _ => .out none }

omit [DecidableEq κ] in
/-- What a step can do. -/
inductive Effect (st : State P σ κ τ ρ) : Action P C → State P σ κ τ ρ → Prop
  | call {p r c} (h : st.status p = .out r) :
      Effect st (.call p c) (st.set p (.wanting (code.entry c)))
  | acquire {p t} (h : st.status p = .wanting t) (hl : st.lock = none)
      (ha : code.alive st.data = true) :
      Effect st (.step p) { st.set p (.inside t) with lock := some p }
  | go {p t s t'} (h : st.status p = .inside t)
      (hm : code.move (st.killed p) st.data t = .go s t') :
      Effect st (.step p) { st.set p (.inside t') with data := s }
  | wakeup {p t c t'} (h : st.status p = .inside t)
      (hm : code.move (st.killed p) st.data t = .wakeup c t') :
      Effect st (.step p) (st.set p (.waking c order t'))
  | sleep {p t c t'} (h : st.status p = .inside t)
      (hm : code.move (st.killed p) st.data t = .sleep c t') :
      Effect st (.step p) { st.set p (.dozing c t') with lock := none }
  | release {p t s r} (h : st.status p = .inside t)
      (hm : code.move (st.killed p) st.data t = .release s r) :
      Effect st (.step p) { st.set p (.out (some r)) with data := s, lock := none }
  | awake {p c t} (h : st.status p = .waking c [] t) :
      Effect st (.step p) (st.set p (.inside t))
  | pass {p c q rest t} (h : st.status p = .waking c (q :: rest) t)
      (hq : (st.status q).sleepsOn ≠ some c) :
      Effect st (.step p) (st.set p (.waking c rest t))
  | wake {p c q rest t u} (h : st.status p = .waking c (q :: rest) t)
      (hq : st.status q = .asleep c u) :
      Effect st (.step p) ((st.set q (.wanting u)).set p (.waking c rest t))
  | doze {p c t} (h : st.status p = .dozing c t) :
      Effect st (.step p) (st.set p (.asleep c t))
  | kill {p} (h : (st.status p).sleepsOn = none) :
      Effect st (.kill p) { st with killed := update st.killed p true }
  | killAsleep {p c t} (h : st.status p = .asleep c t) :
      Effect st (.kill p)
        { st.set p (.wanting t) with killed := update st.killed p true }
  | renew {p r} (h : st.status p = .out r) :
      Effect st (.renew p) { st with killed := update st.killed p false }

variable {code order} {c : κ} {t : τ} {s : σ}

lemma Effect.of_advance {st st' : State P σ κ τ ρ} {p : P}
    (h : advance code order st p = .ok st') : Effect code order st (.step p) st' := by
  rw [advance] at h
  split at h
  case h_1 => cases h
  case h_2 => cases h
  case h_3 t hp =>
    split_ifs at h with hl ha
    cases h
    exact .acquire hp (by simpa using hl) ha
  case h_4 t hp =>
    split at h
    case h_1 s t' hm => cases h; exact .go hp hm
    case h_2 c t' hm => cases h; exact .wakeup hp hm
    case h_3 c t' hm => cases h; exact .sleep hp hm
    case h_4 s r hm => cases h; exact .release hp hm
  case h_5 c t hp => cases h; exact .awake hp
  case h_6 c q rest t hp =>
    split_ifs at h with hq
    · cases h
      refine .pass hp ?_
      rw [hq, hp]
      simp [Status.sleepsOn]
    -- the visit finds `q` dozing, asleep or awake
    rw [visit] at h
    split at h
    · cases h
    rename_i hv
    split at hv
    · cases hv
    · rename_i c' u hs
      cases hv
      cases h
      split_ifs with hc
      · subst hc
        exact .wake hp hs
      refine .pass hp ?_
      rw [hs]
      simpa [Status.sleepsOn] using hc
    · rename_i hd ha
      cases hv
      cases h
      refine .pass hp ?_
      cases hs : st.status q with
      | dozing c' u => exact absurd hs (hd c' u)
      | asleep c' u => exact absurd hs (ha c' u)
      | _ => simp [Status.sleepsOn]
  case h_7 c t hp => cases h; exact .doze hp

lemma Effect.of_step {st st' : State P σ κ τ ρ} {a : Action P C}
    (h : step code order st a = .ok st') : Effect code order st a st' := by
  cases a with rw [step] at h
  | call p c =>
    split at h
    · cases h
      exact .call ‹_›
    · cases h
  | step p => exact .of_advance h
  | kill p =>
    split at h
    · cases h
    · cases h
      exact .killAsleep ‹_›
    rename_i hd ha
    cases h
    refine .kill ?_
    cases hs : st.status p with
    | dozing c t => exact absurd hs (hd c t)
    | asleep c t => exact absurd hs (ha c t)
    | _ => rfl
  | renew p =>
    split at h
    · cases h
      exact .renew ‹_›
    · cases h

end Machine

/-! ### What processes know and cover -/

section Discipline

variable {P C σ κ τ ρ : Type}

/-- How the processes use their channels.  A process at `t` knows `knows s t` about the data.
`covers b s t c` says that the sleepers of `c` are safe while the lock is held at `t`: whatever
the holder does next, they will have a reason to sleep or be woken before it lets go of the
lock. -/
structure Discipline (code : Code C σ κ τ ρ) where
  guard : κ → σ → Prop
  knows : σ → τ → Prop
  covers : Bool → σ → τ → κ → Prop
  knows_entry : ∀ s c, knows s (code.entry c)
  start : ∀ {b s t c}, (∀ s', knows s' t) → guard c s → covers b s t c
  go : ∀ {b s t s' t'}, knows s t → code.move b s t = .go s' t' →
    knows s' t' ∧ ∀ c, covers b s t c → covers b s' t' c
  wakeup : ∀ {b s t c t'}, knows s t → code.move b s t = .wakeup c t' →
    knows s t' ∧ ∀ c', c' ≠ c → covers b s t c' → covers b s t' c'
  sleep : ∀ {b s t c t'}, knows s t → code.move b s t = .sleep c t' →
    (∀ s', knows s' t') ∧ guard c s ∧ ∀ c', covers b s t c' → guard c' s
  release : ∀ {b s t s' r}, knows s t → code.move b s t = .release s' r →
    ∀ c, covers b s t c → guard c s'

namespace Discipline

variable {code : Code C σ κ τ ρ} (D : Discipline code)

/-- `h` covers `q`, which sleeps on `c`, or is going to visit it. -/
def Covers (st : State P σ κ τ ρ) (h q : P) (c : κ) : Prop :=
  match st.status h with
  | .inside t => D.covers (st.killed h) st.data t c
  | .waking c' rest t => D.covers (st.killed h) st.data t c ∨ c' = c ∧ q ∈ rest
  | _ => False

/-- The invariant: every sleeper has its guard while the lock is free, and is covered by the
process that holds it. -/
structure Inv (st : State P σ κ τ ρ) : Prop where
  lock : ∀ p, (st.status p).holds = true ↔ st.lock = some p
  knows : ∀ p t, (st.status p).place = some t → (st.status p).holds = true → D.knows st.data t
  resume : ∀ p t, (st.status p).place = some t → (st.status p).holds = false →
    ∀ s, D.knows s t
  free : st.lock = none → ∀ q c, (st.status q).sleepsOn = some c → D.guard c st.data
  held : ∀ h, st.lock = some h → ∀ q c, (st.status q).sleepsOn = some c → D.Covers st h q c

/-- A kill is harmless when the victim still covers the sleepers that it covered. -/
def Calm (st : State P σ κ τ ρ) : Action P C → Prop
  | .kill p => ∀ t q c, (st.status p).place = some t → (st.status p).holds = true →
      (st.status q).sleepsOn = some c → D.covers (st.killed p) st.data t c →
        D.covers true st.data t c
  | _ => True

variable {D} {st st' : State P σ κ τ ρ}

/-- What a process covers does not depend on what the others are doing. -/
lemma Covers.of_eq {h q : P} (ho : D.Covers st h q c) (hs : st'.status h = st.status h)
    (hk : st'.killed h = st.killed h) (hd : st'.data = st.data) : D.Covers st' h q c := by
  rwa [Covers, hs, hk, hd]

/-- The invariant after a step of `p`: only what concerns `p` and the sleepers is new. -/
lemma Inv.of_change (hinv : D.Inv st) (p : P) (hstatus : ∀ q, q ≠ p → st'.status q = st.status q)
    (hlock : ∀ q, q ≠ p → (st'.lock = some q ↔ st.lock = some q))
    (hp : (st'.status p).holds = true ↔ st'.lock = some p)
    (hdata : ∀ q, q ≠ p → st.lock = some q → st'.data = st.data)
    (hknows : ∀ t, (st'.status p).place = some t → (st'.status p).holds = true → D.knows st'.data t)
    (hresume : ∀ t, (st'.status p).place = some t → (st'.status p).holds = false → ∀ s, D.knows s t)
    (hfree : st'.lock = none → ∀ q c, (st'.status q).sleepsOn = some c → D.guard c st'.data)
    (hheld : ∀ h, st'.lock = some h → ∀ q c, (st'.status q).sleepsOn = some c →
      D.Covers st' h q c) : D.Inv st' := by
  refine ⟨fun q => ?_, fun q t ht hh => ?_, fun q t ht hh => ?_, hfree, hheld⟩
  · rcases eq_or_ne q p with rfl | hq
    · exact hp
    · rw [hstatus q hq, hlock q hq]
      exact hinv.lock q
  · rcases eq_or_ne q p with rfl | hq
    · exact hknows t ht hh
    rw [hstatus q hq] at ht hh
    rw [hdata q hq ((hinv.lock q).1 hh)]
    exact hinv.knows q t ht hh
  rcases eq_or_ne q p with rfl | hq
  · exact hresume t ht hh
  · rw [hstatus q hq] at ht hh
    exact hinv.resume q t ht hh

lemma Inv.init (s : σ) (killed : P → Bool) : D.Inv (init s killed : State P σ κ τ ρ) :=
  ⟨by simp [Monitor.init, Status.holds], by simp [Monitor.init, Status.place],
    by simp [Monitor.init, Status.place], by simp [Monitor.init, Status.sleepsOn],
    by simp [Monitor.init]⟩

variable [DecidableEq P]

section

variable (hinv : D.Inv st) {p : P} {x : Status P κ τ ρ}
include hinv

/-- A process that neither held the lock nor holds it now has changed what it is doing. -/
lemma Inv.outside (killed : P → Bool)
    (hp : (st.status p).holds = false) (hx : x.holds = false)
    (hk : ∀ q, q ≠ p → killed q = st.killed q)
    (hresume : ∀ t, x.place = some t → ∀ s, D.knows s t)
    (hsleep : ∀ c, x.sleepsOn = some c → (st.status p).sleepsOn = some c) :
    D.Inv { st.set p x with killed := killed } := by
  have hslept : ∀ q c, ((st.set p x).status q).sleepsOn = some c →
      (st.status q).sleepsOn = some c := by
    intro q c hq
    rcases eq_or_ne q p with rfl | hne
    · exact hsleep c (by simpa using hq)
    · simpa only [State.set_status_of_ne _ _ _ hne] using hq
  have hnot : st.lock ≠ some p := (hinv.lock p).not.1 (by simp [hp])
  refine hinv.of_change p (fun q hq => State.set_status_of_ne _ _ _ hq) (fun q _ => Iff.rfl) ?_
    (fun _ _ _ => rfl) ?_ ?_ (fun hl q c hq => hinv.free hl q c (hslept q c hq)) ?_
  · simpa [hx] using hnot
  · simp [hx]
  · simpa [hx] using hresume
  · intro h hl q c hq
    have hh : h ≠ p := by
      rintro rfl
      exact hnot hl
    exact (hinv.held h hl q c (hslept q c hq)).of_eq (State.set_status_of_ne _ _ _ hh) (hk h hh) rfl

/-- The process that holds the lock has moved on and still holds it. -/
lemma Inv.within
    (hp : (st.status p).holds = true) (hx : x.holds = true) (hnx : x.sleepsOn = none)
    (hknows : ∀ t, x.place = some t → D.knows s t)
    (hheld : ∀ q c, q ≠ p → (st.status q).sleepsOn = some c → D.Covers st p q c →
      D.Covers { st.set p x with data := s } p q c) :
    D.Inv { st.set p x with data := s } := by
  have hl := (hinv.lock p).1 hp
  refine hinv.of_change p (fun q hq => State.set_status_of_ne _ _ _ hq) (fun q _ => Iff.rfl) ?_
    ?_ ?_ ?_ (fun hfree => by cases hl.symm.trans hfree) ?_
  · simpa [hx] using hl
  · intro q hq hlq
    exact absurd (Option.mem_unique hlq hl) hq
  · intro t ht _
    exact hknows t (by simpa using ht)
  · simp [hx]
  · intro h hh q c hq
    obtain rfl := Option.mem_unique hl hh
    rcases eq_or_ne q p with rfl | hne
    · simp [hnx] at hq
    rw [State.set_status_of_ne _ _ _ hne] at hq
    exact hheld q c hne hq (hinv.held p hl q c hq)

/-- The process that held the lock has released it and covers nobody any more. -/
lemma Inv.leave
    (hp : st.status p = .inside t) (hx : x.holds = false)
    (hresume : ∀ t, x.place = some t → ∀ s, D.knows s t)
    (hself : ∀ c, x.sleepsOn = some c → D.guard c s)
    (hpaid : ∀ c, D.covers (st.killed p) st.data t c → D.guard c s) :
    D.Inv { st.set p x with data := s, lock := none } := by
  have hl := (hinv.lock p).1 (by rw [hp]; rfl)
  refine hinv.of_change p (fun q hq => State.set_status_of_ne _ _ _ hq) ?_ ?_ ?_ ?_ ?_ ?_
    (fun h hh => by cases hh)
  · intro q hq
    rw [hl]
    simpa using Ne.symm hq
  · simp [hx]
  · intro q hq hlq
    exact absurd (Option.mem_unique hlq hl) hq
  · simp [hx]
  · simpa [hx] using hresume
  · intro _ q c hq
    rcases eq_or_ne q p with rfl | hne
    · exact hself c (by simpa using hq)
    rw [State.set_status_of_ne _ _ _ hne] at hq
    refine hpaid c ?_
    simpa only [Covers, hp] using hinv.held p hl q c hq

/-- The lock is free and `p` takes it. -/
lemma Inv.acquire (hp : st.status p = .wanting t)
    (hl : st.lock = none) : D.Inv { st.set p (.inside t) with lock := some p } := by
  have hknows : ∀ s, D.knows s t := hinv.resume p t (by rw [hp]; rfl) (by rw [hp]; rfl)
  refine hinv.of_change p (fun q hq => State.set_status_of_ne _ _ _ hq) ?_ ?_
    (fun _ _ _ => rfl) ?_ ?_ (fun hfree => by cases hfree) ?_
  · intro q hq
    rw [hl]
    simpa using Ne.symm hq
  · simp [Status.holds]
  · intro t' ht' _
    obtain rfl : t = t' := by simpa [Status.place] using ht'
    exact hknows _
  · simp [Status.holds]
  · rintro _ ⟨⟩ q c hq
    have hne : q ≠ p := by
      rintro rfl
      simp [Status.sleepsOn] at hq
    rw [State.set_status_of_ne _ _ _ hne] at hq
    simpa only [Covers, State.set_status_self, State.set_data] using
      D.start hknows (hinv.free hl q c hq)

/-- A visit of `wakeup(c)` is over: `q` no longer sleeps on `c`. -/
lemma Inv.visited {p q : P} {rest : List P}
    (hp : st.status p = .waking c (q :: rest) t) (hq : (st.status q).sleepsOn ≠ some c) :
    D.Inv (st.set p (.waking c rest t)) := by
  have hh : (st.status p).holds = true := by rw [hp]; rfl
  refine hinv.within hh rfl rfl ?_ ?_
  · intro t' ht'
    exact hinv.knows p t' (by rw [hp]; exact ht') hh
  intro r c' _ hr ho
  simp only [Covers, hp, State.set_status_self] at ho ⊢
  refine ho.imp id ?_
  rintro ⟨rfl, hmem⟩
  refine ⟨rfl, (List.mem_cons.1 hmem).resolve_left ?_⟩
  rintro rfl
  exact hq hr

end

/-- A process that is killed goes on covering the sleepers. -/
lemma Covers.kill {h q : P} (ho : D.Covers st h q c) (hcalm : D.Calm st (.kill h))
    (hq : (st.status q).sleepsOn = some c) :
    D.Covers { st with killed := update st.killed h true } h q c := by
  cases hs : st.status h with
  | inside t =>
    simp only [Covers, hs, update_self] at ho ⊢
    exact hcalm t q c (by rw [hs]; rfl) (by rw [hs]; rfl) hq ho
  | waking c' rest t =>
    simp only [Covers, hs, update_self] at ho ⊢
    exact ho.imp_left (hcalm t q c (by rw [hs]; rfl) (by rw [hs]; rfl) hq)
  | _ => simp [Covers, hs] at ho

variable [DecidableEq κ] {order : List P} {a : Action P C}

/-- Every step keeps the invariant, if kills are harmless. -/
theorem Inv.step (horder : ∀ p, p ∈ order) (hinv : D.Inv st) (hcalm : D.Calm st a)
    (h : step code order st a = .ok st') : D.Inv st' := by
  cases Effect.of_step h with
  | call hp =>
    refine hinv.outside st.killed (by rw [hp]; rfl) rfl (fun _ _ => rfl) ?_ ?_
    · rintro _ ⟨⟩ s
      exact D.knows_entry s _
    · simp [Status.sleepsOn]
  | acquire hp hl _ => exact hinv.acquire hp hl
  | @go p t s t' hp hm =>
    have hh : (st.status p).holds = true := by rw [hp]; rfl
    obtain ⟨hk, hc⟩ := D.go (hinv.knows p t (by rw [hp]; rfl) hh) hm
    refine hinv.within hh rfl rfl ?_ fun q c _ _ ho => ?_
    · rintro _ ⟨⟩
      exact hk
    · simp only [Covers, hp, State.set_status_self, State.set_killed] at ho ⊢
      exact hc c ho
  | @wakeup p t c t' hp hm =>
    have hh : (st.status p).holds = true := by rw [hp]; rfl
    obtain ⟨hk, hc⟩ := D.wakeup (hinv.knows p t (by rw [hp]; rfl) hh) hm
    refine hinv.within hh rfl rfl ?_ fun q c' _ _ ho => ?_
    · rintro _ ⟨⟩
      exact hk
    simp only [Covers, hp, State.set_status_self, State.set_killed] at ho ⊢
    -- the sleepers of `c` are all still to be visited, the others are covered as before
    rcases eq_or_ne c' c with rfl | hne
    · exact .inr ⟨rfl, horder q⟩
    · exact .inl (hc c' hne ho)
  | @sleep p t c t' hp hm =>
    have hh : (st.status p).holds = true := by rw [hp]; rfl
    obtain ⟨hk, hg, hc⟩ := D.sleep (hinv.knows p t (by rw [hp]; rfl) hh) hm
    refine hinv.leave hp rfl ?_ ?_ hc
    · rintro _ ⟨⟩
      exact hk
    · rintro _ ⟨⟩
      exact hg
  | @release p t s r hp hm =>
    have hh : (st.status p).holds = true := by rw [hp]; rfl
    refine hinv.leave hp rfl ?_ ?_ (D.release (hinv.knows p t (by rw [hp]; rfl) hh) hm)
    · simp [Status.place]
    · simp [Status.sleepsOn]
  | @awake p c t hp =>
    have hh : (st.status p).holds = true := by rw [hp]; rfl
    refine hinv.within hh rfl rfl ?_ fun q c' _ _ ho => ?_
    · rintro _ ⟨⟩
      exact hinv.knows p t (by rw [hp]; rfl) hh
    · simpa [Covers, hp] using ho
  | pass hp hq => exact hinv.visited hp hq
  | @wake p c q rest t u hp hq =>
    have hne : p ≠ q := by
      rintro rfl
      rw [hp] at hq
      cases hq
    have hwoken : D.Inv (st.set q (.wanting u)) := by
      refine hinv.outside st.killed (by rw [hq]; rfl) rfl (fun _ _ => rfl) ?_ ?_
      · rintro _ ⟨⟩
        exact hinv.resume q u (by rw [hq]; rfl) (by rw [hq]; rfl)
      · simp [Status.sleepsOn]
    refine hwoken.visited (q := q) ?_ ?_
    · rw [State.set_status_of_ne _ _ _ hne, hp]
    · simp [Status.sleepsOn]
  | @doze p c t hp =>
    refine hinv.outside st.killed (by rw [hp]; rfl) rfl (fun _ _ => rfl) ?_ ?_
    · rintro _ ⟨⟩
      exact hinv.resume p t (by rw [hp]; rfl) (by rw [hp]; rfl)
    rintro _ ⟨⟩
    rw [hp]
    rfl
  | @kill p hp =>
    refine { hinv with held := fun h hl q c hq => ?_ }
    have ho := hinv.held h hl q c hq
    rcases eq_or_ne h p with rfl | hne
    · exact ho.kill hcalm hq
    · exact ho.of_eq rfl (update_of_ne hne ..) rfl
  | @killAsleep p c t hp =>
    refine hinv.outside _ (by rw [hp]; rfl) rfl (fun q hq => update_of_ne hq ..) ?_ ?_
    · rintro _ ⟨⟩
      exact hinv.resume p t (by rw [hp]; rfl) (by rw [hp]; rfl)
    · simp [Status.sleepsOn]
  | @renew p r hp =>
    refine { hinv with held := fun h hl q c hq => ?_ }
    have hne : h ≠ p := by
      rintro rfl
      have hh := (hinv.lock _).2 hl
      rw [hp] at hh
      cases hh
    exact (hinv.held h hl q c hq).of_eq rfl (update_of_ne hne ..) rfl

/-- No wakeup is lost in a run whose kills are all harmless. -/
theorem guard_of_run (horder : ∀ p, p ∈ order) {killed : P → Bool}
    {tr : List (State P σ κ τ ρ × Action P C)}
    (hrun : Run (Monitor.step code order) (Monitor.init s killed) tr st)
    (hcalm : ∀ x ∈ tr, D.Calm x.1 x.2) (hl : st.lock = none) {p : P}
    (hp : st.status p = .asleep c t) : D.guard c st.data :=
  (hrun.invariant (I := D.Inv) (C := D.Calm) (fun _ _ _ hinv hC h => hinv.step horder hC h)
    (Inv.init s killed) hcalm).2.free hl p c (by rw [hp]; rfl)

end Discipline

end Discipline

/-! ### Properties of the data -/

section Data

variable {P C σ κ τ ρ : Type} {I : σ → Prop} {K : τ → Prop}

/-- What holds of the data and the place after a move. -/
def Move.Keeps (I : σ → Prop) (K : τ → Prop) : Move σ κ τ ρ → Prop
  | .go s t => I s ∧ K t
  | .wakeup _ t => K t
  | .sleep _ t => K t
  | .release s _ => I s

/-- What holds of the data and of the place of every process. -/
def Keeps (I : σ → Prop) (K : τ → Prop) (st : State P σ κ τ ρ) : Prop :=
  I st.data ∧ ∀ p t, (st.status p).place = some t → K t

variable [DecidableEq P]

lemma Keeps.set {st : State P σ κ τ ρ} (h : Keeps I K st) {p : P} {x : Status P κ τ ρ}
    (hx : ∀ t, x.place = some t → K t) : Keeps I K (st.set p x) := by
  refine ⟨h.1, fun q t ht => ?_⟩
  rcases eq_or_ne q p with rfl | hq
  · exact hx t (by simpa using ht)
  · exact h.2 q t (by rwa [State.set_status_of_ne _ _ _ hq] at ht)

variable [DecidableEq κ] {code : Code C σ κ τ ρ} {order : List P}

/-- What the moves under the lock keep, every step keeps, if all calls start at good
places. -/
theorem Keeps.step {M : State P σ κ τ ρ → Action P C → Prop}
    (hcall : ∀ st p c, M st (.call p c) → K (code.entry c))
    (hmove : ∀ b s t, I s → K t → (code.move b s t).Keeps I K)
    {st st' : State P σ κ τ ρ} {a : Action P C} (h : Keeps I K st) (hM : M st a)
    (hstep : step code order st a = .ok st') : Keeps I K st' := by
  cases Effect.of_step hstep with
  | @call p r c hp =>
    refine h.set ?_
    rintro _ ⟨⟩
    exact hcall st p c hM
  | @acquire p t hp _ _ =>
    have hK := h.2 p t (by rw [hp]; rfl)
    have hs := h.set (p := p) (x := .inside t) (by rintro _ ⟨⟩; exact hK)
    exact ⟨hs.1, hs.2⟩
  | @go p t s t' hp hm =>
    have hmv := hmove (st.killed p) st.data t h.1 (h.2 p t (by rw [hp]; rfl))
    rw [hm] at hmv
    have hs := h.set (p := p) (x := .inside t') (by rintro _ ⟨⟩; exact hmv.2)
    exact ⟨hmv.1, hs.2⟩
  | @wakeup p t c t' hp hm =>
    have hmv := hmove (st.killed p) st.data t h.1 (h.2 p t (by rw [hp]; rfl))
    rw [hm] at hmv
    exact h.set (by rintro _ ⟨⟩; exact hmv)
  | @sleep p t c t' hp hm =>
    have hmv := hmove (st.killed p) st.data t h.1 (h.2 p t (by rw [hp]; rfl))
    rw [hm] at hmv
    have hs := h.set (p := p) (x := .dozing c t') (by rintro _ ⟨⟩; exact hmv)
    exact ⟨hs.1, hs.2⟩
  | @release p t s r hp hm =>
    have hmv := hmove (st.killed p) st.data t h.1 (h.2 p t (by rw [hp]; rfl))
    rw [hm] at hmv
    have hs := h.set (p := p) (x := .out (some r)) (by rintro _ ⟨⟩)
    exact ⟨hmv, hs.2⟩
  | @awake p c t hp
  | @pass p c q rest t hp _
  | @doze p c t hp => exact h.set (by rintro _ ⟨⟩; exact h.2 p t (by rw [hp]; rfl))
  | @wake p c q rest t u hp hq =>
    have hs := h.set (p := q) (x := .wanting u) (by rintro _ ⟨⟩; exact h.2 q u (by rw [hq]; rfl))
    exact hs.set (by rintro _ ⟨⟩; exact h.2 p t (by rw [hp]; rfl))
  | kill _ => exact ⟨h.1, h.2⟩
  | @killAsleep p c t hp =>
    have hs := h.set (p := p) (x := .wanting t) (by rintro _ ⟨⟩; exact h.2 p t (by rw [hp]; rfl))
    exact ⟨hs.1, hs.2⟩
  | renew _ => exact ⟨h.1, h.2⟩

end Data

end Hexv6.Lib.Monitor
