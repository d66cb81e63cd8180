import Hexv6.Ipc.Pipe
import Hexv6.Vm.Copyout

/-!
# What a read of a pipe consumes

The `for` loop of `piperead`, from the moment at which the `while` loop before it ends: the
process holds `pi->lock` until it returns, so nobody else uses the pipe.  Here the loop has
its user memory, as a page table; the turns are those of `pipecopy` (`copyOut_moves`).

A byte is taken out of the ring (`pi->nread++`) before it is copied.  If `copyout` fails, the
byte is gone and is not counted.  So a read consumes what it returns exactly if the
addresses of all the bytes that it comes to are mapped.
-/

namespace Hexv6.Ipc

open Lib
open Vm (PageTable Write copyout phys address userAddr)

/-- The next byte of the ring. -/
def Pipe.front (pi : Pipe) : Byte := pi.data (FreeRing.cell PIPESIZE pi.nread)

/-- What the `for` loop of `piperead` leaves: the pipe, the bytes written to physical memory,
and `i`. -/
structure Copied where
  pipe : Pipe
  writes : List Write
  i : ℕ

/-- The `for` loop of `piperead` with `turns` turns to go (`i + turns = n`). -/
def copyLoop (w : PageTable) (addr : BitVec 64) : ℕ → ℕ → Pipe → Copied
  | 0, i, pi => ⟨pi, [], i⟩
  | turns + 1, i, pi =>
    if pi.isEmpty then ⟨pi, [], i⟩
    else
      let out := copyout w (userAddr addr i) [pi.front]
      if out.2 then
        let rest := copyLoop w addr turns (i + 1) (pi.take true)
        ⟨rest.pipe, out.1 ++ rest.writes, rest.i⟩
      else ⟨pi.take false, out.1, i⟩

/-- The loop from its start; `n` is a signed `int`. -/
def copyOut (w : PageTable) (addr : BitVec 64) (n : ℤ) (pi : Pipe) : Copied :=
  copyLoop w addr n.toNat 0 pi

/-! ### The turns of the loop are the moves of the monitor -/

/-- Make moves while they only change the pipe. -/
def moves (killed : Bool) : ℕ → Pipe → Place → Pipe × Place
  | 0, pi, t => (pi, t)
  | fuel + 1, pi, t =>
    match move killed pi t with
    | .go pi t => moves killed fuel pi t
    | _ => (pi, t)

/-- Whether `copyout` can store at `addr + i`. -/
def canStore (w : PageTable) (addr : BitVec 64) (i : ℕ) : Bool :=
  (phys w (userAddr addr i)).isSome

variable {w : PageTable} {addr : BitVec 64} {pi : Pipe} {n : ℤ} {i turns : ℕ}

lemma copyout_unmapped {va : ℕ} (h : phys w va = none) (b : Byte) :
    copyout w va [b] = ([], false) := by
  rw [Vm.copyout_eq, Vm.copyBytes, h]

lemma copyout_mapped {va a : ℕ} (h : phys w va = some a) (b : Byte) :
    copyout w va [b] = ([(a, b)], true) := by
  rw [Vm.copyout_eq, Vm.copyBytes, h]
  rfl

lemma moves_copied (killed : Bool) (fuel : ℕ) (pi : Pipe) (i : ℕ) :
    moves killed fuel pi (.copied i) = (pi, .copied i) := by
  cases fuel <;> rfl

lemma copyLoop_moves (killed : Bool) (hn : (n - i).toNat = turns) :
    moves killed (turns + 1) pi (.copying n (canStore w addr) i) =
      ((copyLoop w addr turns i pi).pipe, .copied (copyLoop w addr turns i pi).i) := by
  induction turns generalizing i pi with
  | zero =>
    have hi : ¬ (i : ℤ) < n := by omega
    simp [moves, move, pipecopy, hi, copyLoop]
  | succ turns ih =>
    have hi : (i : ℤ) < n := by omega
    rw [moves, copyLoop]
    simp only [move, pipecopy, if_pos hi]
    by_cases hempty : pi.isEmpty
    · simp only [if_pos hempty, moves_copied]
    simp only [if_neg hempty]
    rcases hphys : phys w (userAddr addr i) with _ | a
    · have hstore : canStore w addr i = false := by rw [canStore, hphys]; rfl
      simp only [copyout_unmapped hphys, hstore, Bool.false_eq_true, if_false, moves_copied]
    have hstore : canStore w addr i = true := by rw [canStore, hphys]; rfl
    simp only [copyout_mapped hphys, hstore, if_true]
    exact ih (by omega)

/-- The loop with memory makes the moves of the monitor, and stops where these stop. -/
theorem copyOut_moves (w : PageTable) (addr : BitVec 64) (n : ℤ) (pi : Pipe) (killed : Bool) :
    moves killed (n.toNat + 1) pi (.copying n (canStore w addr) 0) =
      ((copyOut w addr n pi).pipe, .copied (copyOut w addr n pi).i) :=
  copyLoop_moves killed (by simp)

/-! ### What the loop leaves -/

/-- Some bytes at the addresses from `addr + i` on. -/
def storedAt (w : PageTable) (addr : BitVec 64) (i : ℕ) (bytes : List Byte) : List Write :=
  (bytes.zipIdx i).map fun x => (address w (userAddr addr x.2), x.1)

lemma contents_take (h : ¬ pi.isEmpty) (stored : Bool) :
    pi.contents = pi.front :: (pi.take stored).contents :=
  FreeRing.contents_take pi.data fun heq => h (decide_eq_true heq)

/-- The addresses of the bytes that the loop comes to are mapped. -/
def AllMapped (w : PageTable) (addr : BitVec 64) (i m : ℕ) : Prop :=
  ∀ j < m, phys w (userAddr addr (i + j)) ≠ none

lemma allMapped_succ {m : ℕ} : AllMapped w addr i (m + 1) ↔
    phys w (userAddr addr i) ≠ none ∧ AllMapped w addr (i + 1) m := by
  constructor
  · intro h
    refine ⟨h 0 (by omega), fun j hj => ?_⟩
    rw [Nat.add_assoc, Nat.add_comm 1 j]
    exact h (j + 1) (by omega)
  rintro ⟨h0, h⟩ j hj
  rcases j with _ | j
  · exact h0
  · rw [Nat.add_comm j 1, ← Nat.add_assoc]
    exact h j (by omega)

/-- The loop changes `nread` only, and stores the bytes that it counts. -/
lemma copyLoop_writes (w : PageTable) (addr : BitVec 64) (turns i : ℕ) (pi : Pipe) :
    (copyLoop w addr turns i pi).pipe.data = pi.data ∧
    (copyLoop w addr turns i pi).pipe.nwrite = pi.nwrite ∧
    ∃ k ≤ pi.contents.length, (copyLoop w addr turns i pi).i = i + k ∧
      (copyLoop w addr turns i pi).writes = storedAt w addr i (pi.contents.take k) := by
  induction turns generalizing i pi with
  | zero => exact ⟨rfl, rfl, 0, Nat.zero_le _, rfl, rfl⟩
  | succ turns ih =>
    rw [copyLoop]
    by_cases hempty : pi.isEmpty
    · rw [if_pos hempty]
      exact ⟨rfl, rfl, 0, Nat.zero_le _, rfl, rfl⟩
    rw [if_neg hempty]
    rcases hphys : phys w (userAddr addr i) with _ | a
    · rw [copyout_unmapped hphys]
      exact ⟨rfl, rfl, 0, Nat.zero_le _, rfl, rfl⟩
    rw [copyout_mapped hphys]
    obtain ⟨hdata, hnwrite, k, hk, hi, hwrites⟩ := ih (i + 1) (pi.take true)
    refine ⟨hdata, hnwrite, k + 1, ?_, ?_, ?_⟩
    · rw [contents_take hempty true, List.length_cons]
      omega
    · simp only [if_true, hi]
      omega
    simp only [if_true, hwrites]
    rw [contents_take hempty true]
    simp [storedAt, List.zipIdx_cons, address, hphys]

/-- `nread` is advanced once for each byte that is counted, and once more if a byte could not
be stored. -/
lemma copyLoop_nread (w : PageTable) (addr : BitVec 64) (turns i : ℕ) (pi : Pipe) :
    (AllMapped w addr i (min turns pi.contents.length) →
      (copyLoop w addr turns i pi).pipe.nread + BitVec.ofNat 32 i =
        pi.nread + BitVec.ofNat 32 (copyLoop w addr turns i pi).i) ∧
    (¬ AllMapped w addr i (min turns pi.contents.length) →
      (copyLoop w addr turns i pi).pipe.nread + BitVec.ofNat 32 i =
        pi.nread + BitVec.ofNat 32 (copyLoop w addr turns i pi).i + 1) := by
  induction turns generalizing i pi with
  | zero =>
    refine ⟨fun _ => rfl, fun h => absurd (fun j hj => ?_) h⟩
    omega
  | succ turns ih =>
    rw [copyLoop]
    by_cases hempty : pi.isEmpty
    · rw [if_pos hempty, Pipe.contents, of_decide_eq_true hempty, FreeRing.contents_self]
      refine ⟨fun _ => rfl, fun h => absurd (fun j hj => ?_) h⟩
      simp at hj
    have hmin : min (turns + 1) pi.contents.length =
        min turns (pi.take true).contents.length + 1 := by
      rw [contents_take hempty true, List.length_cons, Nat.succ_min_succ]
    simp only [if_neg hempty, hmin, allMapped_succ]
    rcases hphys : phys w (userAddr addr i) with _ | a
    · rw [copyout_unmapped hphys]
      refine ⟨fun h => absurd rfl h.1, fun _ => ?_⟩
      simp only [Bool.false_eq_true, if_false, Pipe.take]
      rw [add_right_comm]
    have hshift : ∀ x : BitVec 32, x + BitVec.ofNat 32 (i + 1) = (x + BitVec.ofNat 32 i) + 1 := by
      intro x
      rw [BitVec.ofNat_add, ← add_assoc]
      rfl
    rw [copyout_mapped hphys]
    obtain ⟨hall, hnot⟩ := ih (i + 1) (pi.take true)
    rw [hshift] at hall hnot
    simp only [if_true, ne_eq, reduceCtorEq, not_false_eq_true, true_and]
    refine ⟨fun h => ?_, fun h => ?_⟩
    · have := hall h
      simp only [Pipe.take, add_right_comm pi.nread 1] at this
      exact add_right_cancel this
    have := hnot h
    simp only [Pipe.take, add_right_comm pi.nread 1] at this
    exact add_right_cancel this

/-! ### A read consumes what it returns -/

/-- The read returns `k` and has taken exactly `k` bytes out of the pipe: they are at the user
addresses in their order, and all the others are left for the next reader. -/
def Exact (w : PageTable) (addr : BitVec 64) (n : ℤ) (pi : Pipe) : Prop :=
  let c := copyOut w addr n pi
  c.pipe.nread = pi.nread + BitVec.ofNat 32 c.i ∧
    c.pipe.contents = pi.contents.drop c.i ∧
    c.writes = storedAt w addr 0 (pi.contents.take c.i)

lemma contents_drop (data : Fin PIPESIZE → Byte) (r t : BitVec 32) {k : ℕ}
    (hk : k ≤ FreeRing.count r t) :
    FreeRing.contents data (r + BitVec.ofNat 32 k) t = (FreeRing.contents data r t).drop k := by
  induction k with
  | zero => rw [List.drop_zero, BitVec.add_zero]
  | succ k ih =>
    have hne : r + BitVec.ofNat 32 k ≠ t := by
      rintro rfl
      have hlt : k < 2 ^ 32 := hk.trans (BitVec.isLt _).le
      rw [FreeRing.count_add hlt] at hk
      omega
    have hstep := FreeRing.contents_take data hne
    rw [ih (by omega), ← List.singleton_append] at hstep
    have hsucc : r + BitVec.ofNat 32 (k + 1) = r + BitVec.ofNat 32 k + 1 := by
      rw [BitVec.ofNat_add, ← add_assoc]
      rfl
    rw [hsucc, ← List.drop_drop, hstep]
    rfl

/-- A read consumes what it returns exactly if the addresses of the bytes that it comes to are all
mapped: as many as it asks for, and as there are in the pipe. -/
theorem piperead_exact_iff (w : PageTable) (addr : BitVec 64) (n : ℤ) (pi : Pipe) :
    Exact w addr n pi ↔
      ∀ j < min n.toNat (FreeRing.count pi.nread pi.nwrite), phys w (userAddr addr j) ≠ none := by
  have hlen : pi.contents.length = FreeRing.count pi.nread pi.nwrite := FreeRing.length_contents ..
  have hmapped : AllMapped w addr 0 (min n.toNat pi.contents.length) ↔
      ∀ j < min n.toNat (FreeRing.count pi.nread pi.nwrite), phys w (userAddr addr j) ≠ none := by
    simp only [AllMapped, Nat.zero_add, hlen]
  rw [← hmapped]
  obtain ⟨hall, hnot⟩ := copyLoop_nread w addr n.toNat 0 pi
  obtain ⟨hdata, hnwrite, k, hk, hi, hwrites⟩ := copyLoop_writes w addr n.toNat 0 pi
  rw [BitVec.add_zero] at hall hnot
  constructor
  · rintro ⟨hnread, -, -⟩
    by_contra h
    have hone : (copyOut w addr n pi).pipe.nread + 1 = (copyOut w addr n pi).pipe.nread :=
      (congrArg (· + 1) hnread).trans (hnot h).symm
    exact absurd (add_eq_left.1 hone) (by decide)
  intro h
  have hi' : (copyOut w addr n pi).i = k := hi.trans (Nat.zero_add k)
  refine ⟨hall h, ?_, ?_⟩
  · show FreeRing.contents _ _ _ = _
    rw [Pipe.contents, copyOut, hdata, hnwrite, hall h]
    exact contents_drop pi.data pi.nread pi.nwrite (by rw [← hlen]; omega)
  · rw [hi']
    exact hwrites

/-- One byte in the pipe, and a read of one byte to an address that is not mapped: it returns 0
and the byte is gone. -/
theorem not_exact_unmapped : ¬ Exact (fun _ => none) 0 1 ((pipealloc fun _ => 0).put 7) := by
  rintro ⟨hnread, -, -⟩
  exact absurd hnread (by decide)

end Hexv6.Ipc
