import Hexv6.Lib.Transition
import Hexv6.Lib.Count
import Hexv6.Log.Disk

/-!
# Group commit

The in-memory part of `kernel/log.c`: `begin_op`, `log_write` and `end_op` by any number of
processes, interleaved in any order.  A step is a critical section under `log.lock`, or a
piece of `commit`, which runs without the lock: the copy of one block, the write of the
header, or the assignment `log.lh.n = 0`.

Three history variables say what the kernel itself does not record: the block lists of the
transactions whose header was written, the blocks logged since the last transaction was
erased, and the blocks logged by each operation that has ended.  A block is noted together
with the number of the transaction into which it was logged.
-/

namespace Hexv6.Log

open Lib Function

/-- Where a process is in `commit`. -/
inductive Phase
  | start
  | writeLog (tail : ℕ)
  | writeHead
  | install (tail : ℕ)
  | clear
  | erase
  | finish
deriving DecidableEq, Repr

/-- Where a process is: outside of any operation, asleep in `begin_op` or woken up there,
in an operation that has logged the blocks `ops`, or in `commit` at the end of one. -/
inductive Pc
  | idle
  | asleep
  | retry
  | inOp (ops : List (ℕ × ℕ))
  | commit (ph : Phase)
deriving DecidableEq, Repr

/-- What stops the system: the panics of `kernel/log.c`, or an action that is not possible
in the present state. -/
inductive Panic
  | tooBig
  | outsideTrans
  | committing
  | disabled
deriving DecidableEq, Repr

/-- The fields of `struct log`, the processes, and the history. -/
structure Sys (P : Type*) where
  size : ℕ
  outstanding : ℤ := 0
  committing : Bool := false
  lh : List ℕ := []
  pc : P → Pc := fun _ => .idle
  txns : List (List ℕ) := []
  logged : List ℕ := []
  finished : List (List (ℕ × ℕ)) := []

variable {P : Type*} [DecidableEq P]

/-- `wakeup(&log)`. -/
def wakeup (pc : P → Pc) : P → Pc := fun p => if pc p = .asleep then .retry else pc p

/-- One turn of the loop of `begin_op`. -/
def beginOp (s : Sys P) (p : P) : Sys P :=
  if s.committing then { s with pc := update s.pc p .asleep }
  else if s.lh.length + (s.outstanding + 1) * MAXOPBLOCKS > LOGSIZE then
    { s with pc := update s.pc p .asleep }
  else { s with
    outstanding := s.outstanding + 1, pc := update s.pc p (.inOp []) }

/-- The entries of the header after the loop of `log_write`: a block that is there already
is absorbed. -/
def absorb (lh : List ℕ) (b : ℕ) : List ℕ := if b ∈ lh then lh else lh ++ [b]

/-- `log_write` of block `b` by a process that has logged `ops` in its operation. -/
def logWrite (s : Sys P) (p : P) (ops : List (ℕ × ℕ)) (b : ℕ) : Except Panic (Sys P) :=
  if s.lh.length ≥ LOGSIZE ∨ (s.lh.length : ℤ) ≥ s.size - 1 then .error .tooBig
  else if s.outstanding < 1 then .error .outsideTrans
  else .ok { s with
    lh := absorb s.lh b
    pc := update s.pc p (.inOp (ops ++ [(b, s.txns.length)]))
    logged := s.logged ++ [b] }

/-- `end_op` up to the call of `commit`. -/
def endOp (s : Sys P) (p : P) (ops : List (ℕ × ℕ)) : Except Panic (Sys P) :=
  if s.committing then .error .committing
  else if s.outstanding - 1 = 0 then
    .ok { s with
      outstanding := s.outstanding - 1, committing := true
      pc := update s.pc p (.commit .start), finished := s.finished ++ [ops] }
  else
    .ok { s with
      outstanding := s.outstanding - 1
      pc := update (wakeup s.pc) p .idle, finished := s.finished ++ [ops] }

/-- The next piece of `commit`, and the end of `end_op` after it. -/
def commitStep (s : Sys P) (p : P) : Phase → Sys P
  | .start =>
    if s.lh.length > 0 then { s with pc := update s.pc p (.commit (.writeLog 0)) }
    else { s with pc := update s.pc p (.commit .finish) }
  | .writeLog tail =>
    if tail < s.lh.length then
      { s with pc := update s.pc p (.commit (.writeLog (tail + 1))) }
    else { s with pc := update s.pc p (.commit .writeHead) }
  | .writeHead =>
    { s with
      txns := s.txns ++ [s.lh], pc := update s.pc p (.commit (.install 0)) }
  | .install tail =>
    if tail < s.lh.length then
      { s with pc := update s.pc p (.commit (.install (tail + 1))) }
    else { s with pc := update s.pc p (.commit .clear) }
  | .clear =>
    { s with lh := [], logged := [], pc := update s.pc p (.commit .erase) }
  | .erase => { s with pc := update s.pc p (.commit .finish) }
  | .finish => { s with committing := false, pc := update (wakeup s.pc) p .idle }

/-- The actions.  A process asleep in `begin_op` is also woken when it is killed. -/
inductive Action (P : Type*)
  | beginOp (p : P)
  | logWrite (p : P) (b : ℕ)
  | endOp (p : P)
  | commitStep (p : P)
  | kill (p : P)
deriving DecidableEq, Repr

/-- One step. -/
def step (s : Sys P) : Action P → Except Panic (Sys P)
  | .beginOp p => if s.pc p = .idle ∨ s.pc p = .retry then .ok (beginOp s p) else .error .disabled
  | .logWrite p b =>
    match s.pc p with
    | .inOp ops => logWrite s p ops b
    | _ => .error .disabled
  | .endOp p =>
    match s.pc p with
    | .inOp ops => endOp s p ops
    | _ => .error .disabled
  | .commitStep p =>
    match s.pc p with
    | .commit ph => .ok (commitStep s p ph)
    | _ => .error .disabled
  | .kill p =>
    if s.pc p = .asleep then .ok { s with pc := update s.pc p .retry }
    else .error .disabled

/-- The log after `initlog`. -/
def init (size : ℕ) : Sys P := { size := size }

/-! ### What a step can do -/

/-- The effects of a step. -/
inductive Effect (s : Sys P) : Action P → Sys P → Prop
  | sleep (p : P) (hp : s.pc p = .idle ∨ s.pc p = .retry) :
      Effect s (.beginOp p) { s with pc := update s.pc p .asleep }
  | enter (p : P) (hp : s.pc p = .idle ∨ s.pc p = .retry) (hc : s.committing = false)
      (hroom : s.lh.length + (s.outstanding + 1) * MAXOPBLOCKS ≤ LOGSIZE) :
      Effect s (.beginOp p) { s with
        outstanding := s.outstanding + 1, pc := update s.pc p (.inOp []) }
  | record (p : P) (b : ℕ) {ops : List (ℕ × ℕ)} (hp : s.pc p = .inOp ops)
      (hroom : s.lh.length < LOGSIZE ∧ s.lh.length + 1 < s.size) :
      Effect s (.logWrite p b) { s with
        lh := absorb s.lh b
        pc := update s.pc p (.inOp (ops ++ [(b, s.txns.length)]))
        logged := s.logged ++ [b] }
  | last (p : P) {ops : List (ℕ × ℕ)} (hp : s.pc p = .inOp ops) (hc : s.committing = false)
      (hout : s.outstanding = 1) :
      Effect s (.endOp p) { s with
        outstanding := s.outstanding - 1, committing := true
        pc := update s.pc p (.commit .start), finished := s.finished ++ [ops] }
  | leave (p : P) {ops : List (ℕ × ℕ)} (hp : s.pc p = .inOp ops) (hc : s.committing = false)
      (hout : s.outstanding ≠ 1) :
      Effect s (.endOp p) { s with
        outstanding := s.outstanding - 1
        pc := update (wakeup s.pc) p .idle, finished := s.finished ++ [ops] }
  | commit (p : P) (ph : Phase) (hp : s.pc p = .commit ph) :
      Effect s (.commitStep p) (commitStep s p ph)
  | kill (p : P) (hp : s.pc p = .asleep) :
      Effect s (.kill p) { s with pc := update s.pc p .retry }

variable {s s' : Sys P} {a : Action P} {p : P}

lemma step_effect (h : step s a = .ok s') : Effect s a s' := by
  cases a with simp only [step] at h
  | beginOp p =>
    split_ifs at h with hp
    cases h
    rw [beginOp]
    split_ifs with hc hroom
    · exact .sleep p hp
    · exact .sleep p hp
    · exact .enter p hp (by simpa using hc) (by omega)
  | logWrite p b =>
    split at h
    · rename_i ops hp
      simp only [logWrite] at h
      split_ifs at h with hbig hout
      cases h
      exact .record p b hp (by omega)
    · cases h
  | endOp p =>
    split at h
    · rename_i ops hp
      simp only [endOp] at h
      split_ifs at h with hc hout
      · cases h
        exact .last p hp (by simpa using hc) (by omega)
      · cases h
        exact .leave p hp (by simpa using hc) (by omega)
    · cases h
  | commitStep p =>
    split at h
    · rename_i ph hp
      cases h
      exact .commit p ph hp
    · cases h
  | kill p =>
    split_ifs at h with hp
    cases h
    exact .kill p hp

end Hexv6.Log
