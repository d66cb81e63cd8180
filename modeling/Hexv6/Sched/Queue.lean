import Hexv6.Lib.Transition
import Hexv6.Lib.Row
import Hexv6.Sched.Proc

/-!
# The queues of the multi-level feedback scheduler

The state of the MLFQ build on its one CPU, and `push` and `pop` of `kernel/proc.c`: each
of the five queues is a row `queues[q]` of `NPROC` pointers whose entries are
`queues[q][0..q_index[q]]`, where `q_index[q]` is a `uint64` that is `2 ^ 64 - 1` for the
empty queue.

An access outside a row and the use of a null entry are undefined in C; here they stop
the system with a `Fault`.

`Rows` says that the rows and indices represent five lists.  `push` appends to one of
them (`push_spec`) unless its row is full (`push_full`), and `pop` deletes from one of
them the last entry with the pid of the given process (`pop_spec`).
-/

namespace Hexv6.Sched

open Lib List Function

/-- What stops the system: an access outside a row of `queues`, the use of a null entry,
a kernel panic, or an action that is not possible in the present state. -/
inductive Fault
  | outOfRow
  | nullEntry
  | panic (msg : String)
  | disabled
deriving DecidableEq, Repr

/-- The state of the MLFQ build: the globals of `kernel/proc.c` and `kernel/trap.c` and
the field `proc` of the only `struct cpu`. -/
structure Kernel where
  proc : ProcTable := fun _ => {}
  queues : Fin 5 → Row NPROC Slot := fun _ _ => none
  qIndex : Fin 5 → ℕ := fun _ => 2 ^ 64 - 1
  nextpid : ℤ := 1
  initproc : Option Slot := none
  ticks : ℕ := 0
  cpu : Option Slot := none

/-- `if (q < 0) q = 0; if (q > 4) q = 4;` -/
def clamp (q : ℤ) : Fin 5 :=
  if h : q < 0 then 0 else if h' : q > 4 then 4 else ⟨q.toNat, by omega⟩

/-- The number of entries of queue `q`, the bound `q_index[q]+1` of the loops. -/
def rowLen (k : Kernel) (q : Fin 5) : ℕ := u64 (k.qIndex q + 1)

/-- The process that `queues[q][i]` points to. -/
def entry (k : Kernel) (q : Fin 5) (i : ℕ) : Except Fault Slot :=
  match (k.queues q).read i with
  | none => .error .outOfRow
  | some none => .error .nullEntry
  | some (some p) => .ok p

/-- `push(p, q)`. -/
def push (k : Kernel) (p : Slot) (q : ℤ) : Except Fault Kernel :=
  let c := clamp q
  let i := u64 (k.qIndex c + 1)
  match (k.queues c).write i (some p) with
  | none => .error .outOfRow
  | some r =>
    .ok { k with
      qIndex := update k.qIndex c i
      queues := update k.queues c r
      proc := update k.proc p
        { k.proc p with currQ := (c : ℕ), rtime := 0, wtime := 0, atime := 0 } }

/-- The first loop of `pop`: the last of the positions `is` whose entry has the given
pid, starting from `temp`. -/
def lastWithPid (k : Kernel) (q : Fin 5) (pid : ℤ) :
    List ℕ → Option ℕ → Except Fault (Option ℕ)
  | [], temp => .ok temp
  | i :: is, temp => do
    let e ← entry k q i
    lastWithPid k q pid is (if pid = (k.proc e).pid then some i else temp)

/-- `pop(p)`. -/
def pop (k : Kernel) (p : Slot) : Except Fault Kernel := do
  let q := clamp (k.proc p).currQ
  match ← lastWithPid k q (k.proc p).pid (range (rowLen k q)) none with
  | none => return k
  | some temp =>
    -- shift the later entries down, then clear the last one
    match do (← Row.shiftDown (k.qIndex q - temp) temp (k.queues q)).write (k.qIndex q) none with
    | none => throw .outOfRow
    | some r =>
      return { k with
        queues := update k.queues q r
        qIndex := update k.qIndex q (u64 (k.qIndex q + (2 ^ 64 - 1))) }

/-! ### The lists the rows represent -/

/-- The rows and indices represent the lists `L`. -/
structure Rows (queues : Fin 5 → Row NPROC Slot) (qIndex : Fin 5 → ℕ)
    (L : Fin 5 → List Slot) : Prop where
  holds : ∀ q, (queues q).Holds (L q)
  index : ∀ q, qIndex q = u64 ((L q).length + (2 ^ 64 - 1))

/-- The initial rows and indices represent five empty lists. -/
lemma Rows.init : Rows ({} : Kernel).queues ({} : Kernel).qIndex fun _ => [] :=
  ⟨fun _ => .empty, fun _ => by simp [u64]⟩

/-- The rows and indices represent the lists `L`, with the cells of `rest` past their ends. -/
structure RowsOver (rest queues : Fin 5 → Row NPROC Slot) (qIndex : Fin 5 → ℕ)
    (L : Fin 5 → List Slot) : Prop where
  holds : ∀ q, (rest q).Over (queues q) (L q)
  index : ∀ q, qIndex q = u64 ((L q).length + (2 ^ 64 - 1))

variable {k : Kernel} {L : Fin 5 → List Slot} {q : Fin 5} {i : ℕ} {rest : Fin 5 → Row NPROC Slot}

lemma rows_iff {qs : Fin 5 → Row NPROC Slot} {is : Fin 5 → ℕ} :
    Rows qs is L ↔ RowsOver (fun _ _ => none) qs is L :=
  ⟨fun h => ⟨fun q => Row.holds_iff.1 (h.holds q), h.index⟩,
    fun h => ⟨fun q => Row.holds_iff.2 (h.holds q), h.index⟩⟩

lemma RowsOver.rowLen_eq (h : RowsOver rest k.queues k.qIndex L) (q : Fin 5) :
    rowLen k q = (L q).length := by
  have hle := (h.holds q).length_le
  rw [rowLen, h.index q, u64, u64]
  simp only [NPROC] at hle
  omega

lemma RowsOver.entry_eq (h : RowsOver rest k.queues k.qIndex L)
    (hi : i < (L q).length) : entry k q i = .ok (L q)[i] := by
  rw [entry, (h.holds q).read_eq hi]

/-- Replacing one row and its index replaces one list. -/
lemma RowsOver.replace {qs : Fin 5 → Row NPROC Slot} {is : Fin 5 → ℕ} (h : RowsOver rest qs is L)
    {r r' : Row NPROC Slot} {l : List Slot} (hr : Row.Over r' r l)
    (hi : i = u64 (l.length + (2 ^ 64 - 1))) :
    RowsOver (update rest q r') (update qs q r) (update is q i) (update L q l) := by
  constructor
  · intro q'
    by_cases hq : q' = q
    · subst hq
      simpa using hr
    · simpa [update_of_ne hq] using h.holds q'
  intro q'
  by_cases hq : q' = q
  · subst hq
    simpa using hi
  · simpa [update_of_ne hq] using h.index q'

lemma Rows.length_le (h : Rows k.queues k.qIndex L) (q : Fin 5) : (L q).length ≤ NPROC :=
  (h.holds q).length_le

lemma Rows.rowLen_eq (h : Rows k.queues k.qIndex L) : ∀ q, rowLen k q = (L q).length :=
  (rows_iff.1 h).rowLen_eq

lemma Rows.unique {L' : Fin 5 → List Slot} (h : Rows k.queues k.qIndex L)
    (h' : Rows k.queues k.qIndex L') : L = L' :=
  funext fun q => (h.holds q).unique (h'.holds q)

lemma Rows.entry_eq (h : Rows k.queues k.qIndex L)
    (hi : i < (L q).length) : entry k q i = .ok (L q)[i] :=
  (rows_iff.1 h).entry_eq hi

/-! ### `push` appends -/

/-- The process after `push` has put it into queue `c`. -/
def Proc.enter (p : Proc) (c : Fin 5) : Proc :=
  { p with currQ := (c : ℕ), rtime := 0, wtime := 0, atime := 0 }

lemma push_over (h : RowsOver rest k.queues k.qIndex L) (p : Slot) (q : ℤ)
    (hroom : (L (clamp q)).length < NPROC) :
    ∃ qs is, push k p q = .ok { k with
        queues := qs, qIndex := is
        proc := update k.proc p ((k.proc p).enter (clamp q)) } ∧
      RowsOver rest qs is (update L (clamp q) (L (clamp q) ++ [p])) := by
  have hi : u64 (k.qIndex (clamp q) + 1) = (L (clamp q)).length := h.rowLen_eq (clamp q)
  obtain ⟨r, hw, hr⟩ := (h.holds (clamp q)).write_end hroom p
  refine ⟨update k.queues (clamp q) r, update k.qIndex (clamp q) (L (clamp q)).length, ?_, ?_⟩
  · simp only [push, hi, hw, Proc.enter]
  rw [← update_eq_self (clamp q) rest]
  refine h.replace hr ?_
  simp only [NPROC] at hroom
  simp only [u64, length_append, length_singleton]
  omega

theorem push_spec (h : Rows k.queues k.qIndex L) (p : Slot) (q : ℤ)
    (hroom : (L (clamp q)).length < NPROC) :
    ∃ qs is, push k p q = .ok { k with
        queues := qs, qIndex := is
        proc := update k.proc p ((k.proc p).enter (clamp q)) } ∧
      Rows qs is (update L (clamp q) (L (clamp q) ++ [p])) := by
  simp only [rows_iff] at h ⊢
  exact push_over h p q hroom

theorem push_full (h : Rows k.queues k.qIndex L) (p : Slot) (q : ℤ)
    (hfull : (L (clamp q)).length = NPROC) : push k p q = .error .outOfRow := by
  have hi : u64 (k.qIndex (clamp q) + 1) = (L (clamp q)).length := h.rowLen_eq (clamp q)
  simp only [push, hi, Row.write_of_le hfull.ge]

/-! ### `pop` deletes the last entry with the pid -/

/-- Whether slot `e` has the pid of `p`, the test in the loop of `pop`. -/
def samePid (t : ProcTable) (p e : Slot) : Bool := (t p).pid = (t e).pid

/-- The loop of `pop` over positions none of which matches. -/
lemma lastWithPid_of_not (h : RowsOver rest k.queues k.qIndex L) {p : Slot} :
    ∀ (is : List ℕ) (temp : Option ℕ),
      (∀ i ∈ is, ∃ hi : i < (L q).length, samePid k.proc p (L q)[i] = false) →
      lastWithPid k q (k.proc p).pid is temp = .ok temp := by
  intro is
  induction is with
  | nil => intro temp _; rfl
  | cons i is ih =>
    intro temp hno
    obtain ⟨hi, hne⟩ := hno i (by simp)
    simp only [samePid, decide_eq_false_iff_not] at hne
    rw [lastWithPid, h.entry_eq hi, ok_bind, if_neg hne]
    exact ih temp (fun j hj => hno j (by simp [hj]))

/-- The loop of `pop` returns with the last matching position of the positions scanned
last. -/
lemma lastWithPid_append (h : RowsOver rest k.queues k.qIndex L) {p : Slot}
    (hi : i < (L q).length) (hm : samePid k.proc p (L q)[i] = true) {is' : List ℕ}
    (hno : ∀ j ∈ is', ∃ hj : j < (L q).length, samePid k.proc p (L q)[j] = false) :
    ∀ (is : List ℕ) (temp : Option ℕ), (∀ j ∈ is, j < (L q).length) →
      lastWithPid k q (k.proc p).pid (is ++ i :: is') temp = .ok (some i) := by
  intro is
  induction is with
  | nil =>
    intro temp _
    simp only [samePid, decide_eq_true_eq] at hm
    rw [nil_append, lastWithPid, h.entry_eq hi, ok_bind, if_pos hm]
    exact lastWithPid_of_not h is' (some i) hno
  | cons j is ih =>
    intro temp hlt
    rw [cons_append, lastWithPid, h.entry_eq (hlt j (by simp)), ok_bind]
    exact ih _ (fun j' hj' => hlt j' (by simp [hj']))

section Pop

variable {p : Slot} (h : RowsOver rest k.queues k.qIndex L) (hq : clamp (k.proc p).currQ = q)
include h hq

lemma pop_absent (hnone : ∀ e ∈ L q, samePid k.proc p e = false) : pop k p = .ok k := by
  have hscan : lastWithPid k q (k.proc p).pid (range (rowLen k q)) none = .ok none := by
    refine lastWithPid_of_not h _ none fun i hi => ?_
    rw [mem_range, h.rowLen_eq] at hi
    exact ⟨hi, hnone _ (getElem_mem hi)⟩
  simp only [pop, hq, hscan, ok_bind, pure_eq_ok]

/-- The cell of the last entry becomes empty. -/
lemma pop_present (hmem : ∃ e ∈ L q, samePid k.proc p e = true) :
    ∃ qs is, ∃ j : Fin NPROC, (j : ℕ) = (L q).length - 1 ∧
      pop k p = .ok { k with queues := qs, qIndex := is } ∧
      RowsOver (update rest q (update (rest q) j none)) qs is
        (update L q (eraseLast (samePid k.proc p) (L q))) := by
  obtain ⟨l1, e, l2, hL, hm, hno⟩ := exists_last_split hmem
  have hlen : (L q).length = l1.length + (l2.length + 1) := by rw [hL]; simp
  have hle := (h.holds q).length_le
  have hi : l1.length < (L q).length := by omega
  -- the positions before and after the last match
  have hrange : range (rowLen k q) =
      range l1.length ++ l1.length :: range' (l1.length + 1) l2.length := by
    rw [h.rowLen_eq, hlen, range_eq_range', range_eq_range',
      ← range'_append_1, Nat.zero_add, range'_succ]
  have hmatch : samePid k.proc p (L q)[l1.length] = true := by simpa [hL] using hm
  have hafter : ∀ j ∈ range' (l1.length + 1) l2.length,
      ∃ hj : j < (L q).length, samePid k.proc p (L q)[j] = false := by
    intro j hj
    rw [mem_range'_1] at hj
    refine ⟨by omega, hno _ ?_⟩
    have hidx : (L q)[j]? = l2[j - (l1.length + 1)]? := by
      rw [hL, getElem?_append_right (by omega),
        show j - l1.length = (j - (l1.length + 1)) + 1 by omega, getElem?_cons_succ]
    rw [getElem?_eq_getElem (by omega), getElem?_eq_getElem (by omega)] at hidx
    rw [Option.some.inj hidx]
    exact getElem_mem _
  have hscan : lastWithPid k q (k.proc p).pid (range (rowLen k q)) none
      = .ok (some l1.length) := by
    rw [hrange]
    exact lastWithPid_append h hi hmatch hafter _ none
      (fun j hj => by have := mem_range.1 hj; omega)
  have hidx : k.qIndex q = (L q).length - 1 := by
    rw [h.index q, u64]
    simp only [NPROC] at hle
    omega
  have herase : (L q).eraseIdx l1.length = eraseLast (samePid k.proc p) (L q) := by
    rw [hL, eraseLast_append_cons hm hno, eraseIdx_append_of_length_le le_rfl]
    simp
  obtain ⟨r', r'', hs, hw, hr⟩ := (h.holds q).shiftDown hi (by omega)
  refine ⟨update k.queues q r'', update k.qIndex q (u64 (k.qIndex q + (2 ^ 64 - 1))),
    ⟨(L q).length - 1, by omega⟩, rfl, ?_, h.replace ?_ ?_⟩
  · simp only [pop, hq, hscan, ok_bind, hidx, hs, Option.bind_eq_bind, Option.bind_some, hw,
      pure_eq_ok]
  · rwa [herase] at hr
  rw [← herase, length_eraseIdx_of_lt hi, hidx]

end Pop

theorem pop_spec (h : Rows k.queues k.qIndex L) (p : Slot) :
    ∃ qs is, pop k p = .ok { k with queues := qs, qIndex := is } ∧
      Rows qs is (update L (clamp (k.proc p).currQ)
        (eraseLast (samePid k.proc p) (L (clamp (k.proc p).currQ)))) := by
  by_cases hmem : ∃ e ∈ L (clamp (k.proc p).currQ), samePid k.proc p e = true
  · obtain ⟨qs, is, j, -, hpop, hrows⟩ := pop_present (rows_iff.1 h) rfl hmem
    exact ⟨qs, is, hpop, rows_iff.2 (by simpa using hrows)⟩
  · have hnone : ∀ e ∈ L (clamp (k.proc p).currQ), samePid k.proc p e = false := by simpa using hmem
    refine ⟨_, _, pop_absent (rows_iff.1 h) rfl hnone, ?_⟩
    rwa [eraseLast_of_forall_not hnone, update_eq_self]

/-- `push` appends and `pop` deletes, whatever is in the cells past the ends of the lists. -/
theorem push_pop_lists (h : RowsOver rest k.queues k.qIndex L) (hroom : ∀ q, (L q).length < NPROC)
    (p : Slot) :
    (∀ q : ℤ, (clamp q : ℕ) = max 0 (min q 4) ∧ ∃ k', push k p q = .ok k' ∧
      RowsOver rest k'.queues k'.qIndex (update L (clamp q) (L (clamp q) ++ [p])) ∧
      (k'.proc p).currQ = (clamp q : ℕ)) ∧
    ∀ q, clamp (k.proc p).currQ = q →
      if ∃ e ∈ L q, samePid k.proc p e = true then
        ∃ k', ∃ j : Fin NPROC, (j : ℕ) = (L q).length - 1 ∧ pop k p = .ok k' ∧
          RowsOver (update rest q (update (rest q) j none)) k'.queues k'.qIndex
            (update L q (eraseLast (samePid k.proc p) (L q)))
      else pop k p = .ok k := by
  refine ⟨fun q => ⟨?_, ?_⟩, fun q hq => ?_⟩
  · rw [clamp]
    split_ifs <;> simp <;> omega
  · obtain ⟨qs, is, hpush, hover⟩ := push_over h p q (hroom _)
    exact ⟨_, hpush, hover, by simp [Proc.enter]⟩
  split_ifs with hmem
  · obtain ⟨qs, is, j, hj, hpop, hover⟩ := pop_present h hq hmem
    exact ⟨_, j, hj, hpop, hover⟩
  · exact pop_absent h hq (by simpa using hmem)

/-- Queue 1 holds the slots 1, 2 and 3, of which the first two have the same pid, and a cell past
its end is in use. -/
def crowded : Kernel :=
  { proc := fun p => { pid := if p = 2 then 1 else (p : ℕ), currQ := 1 }
    queues := fun q i => if q = 1 then [some 1, some 2, some 3, some 9].getD i none else none
    qIndex := fun q => if q = 1 then 2 else 2 ^ 64 - 1 }

def crowdedRest : Fin 5 → Row NPROC Slot := fun q i => if q = 1 ∧ i = 3 then some 9 else none

def crowdedLists : Fin 5 → List Slot := fun q => if q = 1 then [1, 2, 3] else []

lemma crowded_over : RowsOver crowdedRest crowded.queues crowded.qIndex crowdedLists :=
  ⟨fun q => ⟨by revert q; decide, by revert q; decide +kernel⟩, by decide⟩

/-- The `pop` of slot 1 deletes the entry of slot 2, which is the last one with its pid. -/
theorem push_pop_lists_crowded :
    (∃ k', push crowded 1 7 = .ok k' ∧
      RowsOver crowdedRest k'.queues k'.qIndex (update crowdedLists 4 [1]) ∧
      (k'.proc 1).currQ = 4) ∧
    ∃ k', pop crowded 1 = .ok k' ∧
      RowsOver (update crowdedRest 1 (update (crowdedRest 1) 2 none)) k'.queues k'.qIndex
        (update crowdedLists 1 [1, 3]) := by
  obtain ⟨hpush, hpop⟩ := push_pop_lists crowded_over (by decide) 1
  have hpop1 := hpop 1 rfl
  rw [if_pos (by decide)] at hpop1
  obtain ⟨k', j, hj, hk', hover⟩ := hpop1
  obtain rfl : j = 2 := Fin.ext hj
  exact ⟨(hpush 7).2, k', hk', hover⟩

end Hexv6.Sched
