import Hexv6.Vm.Copyout

/-!
# Copying from user memory

`copyin` of `kernel/vm.c`, page by page.  The bytes that get to the destination are those up to the
first one that is not mapped (`copyin_eq`), also if the copy fails.
-/

namespace Hexv6.Vm

open Blk (Byte)

/-- The loop of `copyin`: the bytes that are copied, and whether it returns 0. -/
def copyinLoop (w : PageTable) (mem : ℕ → Byte) : ℕ → ℕ → ℕ → List Byte × Bool
  | _, _, 0 => ([], true)
  | 0, _, _ + 1 => ([], false)
  | turns + 1, srcva, len + 1 =>
    let va0 := pgrounddown srcva
    let pa0 := walkaddr w va0
    if pa0 = 0 then ([], false)
    else
      let n := min (PGSIZE - (srcva - va0)) (len + 1)
      let rest := copyinLoop w mem turns (va0 + PGSIZE) (len + 1 - n)
      ((List.range n).map (fun i => mem (pa0 + (srcva - va0) + i)) ++ rest.1, rest.2)

def copyin (w : PageTable) (mem : ℕ → Byte) (srcva len : ℕ) : List Byte × Bool :=
  copyinLoop w mem len srcva len

/-- The bytes from `va` on up to the first one that is not mapped, at most `len`. -/
def fetch (w : PageTable) (mem : ℕ → Byte) : ℕ → ℕ → List Byte
  | _, 0 => []
  | va, len + 1 =>
    match phys w va with
    | none => []
    | some a => mem a :: fetch w mem (va + 1) len

variable {w : PageTable} {mem : ℕ → Byte} {va len : ℕ}

lemma length_fetch_le : (fetch w mem va len).length ≤ len := by
  induction len generalizing va with
  | zero => exact le_rfl
  | succ len ih =>
    rw [fetch]
    rcases phys w va with _ | a
    · exact Nat.zero_le _
    · exact Nat.succ_le_succ ih

/-- The part on one page. -/
lemma fetch_page (mem : ℕ → Byte) {k : ℕ} (rest : ℕ) (hpa : walkaddr w (pgrounddown va) ≠ 0)
    (hk : va % PGSIZE + k ≤ PGSIZE) :
    fetch w mem va (k + rest) =
      (List.range k).map (fun i => mem (walkaddr w (pgrounddown va) + va % PGSIZE + i)) ++
        fetch w mem (va + k) rest := by
  induction k generalizing va with
  | zero => simp
  | succ k ih =>
    have hphys : phys w va = some (walkaddr w (pgrounddown va) + va % PGSIZE) := if_neg hpa
    rw [Nat.add_right_comm, fetch, hphys, List.range_succ_eq_map, List.map_cons, List.map_map,
      List.cons_append]
    refine congrArg₂ List.cons rfl ?_
    rcases k with _ | k
    · simp
    obtain ⟨hmod, hdown⟩ := succ_in_page (show va % PGSIZE + 1 < PGSIZE by omega)
    rw [ih (by rwa [hdown]) (by omega), hdown, hmod, Nat.add_assoc va 1, Nat.add_comm 1 (k + 1)]
    simp only [Function.comp_def, Nat.succ_eq_add_one, Nat.add_assoc, Nat.add_comm 1]

/-- One turn of the loop. -/
lemma fetch_turn (mem : ℕ → Byte) {n : ℕ} (hpa : walkaddr w (pgrounddown va) ≠ 0)
    (hn : n = min (PGSIZE - va % PGSIZE) len) :
    fetch w mem va len =
      (List.range n).map (fun i => mem (walkaddr w (pgrounddown va) + va % PGSIZE + i)) ++
        fetch w mem (pgrounddown va + PGSIZE) (len - n) := by
  obtain ⟨hlt, hdown⟩ := in_page va
  have hpage := fetch_page mem (len - n) hpa (show va % PGSIZE + n ≤ PGSIZE by omega)
  rw [show n + (len - n) = len by omega] at hpage
  rw [hpage]
  by_cases hend : PGSIZE - va % PGSIZE ≤ len
  · rw [show va + n = pgrounddown va + PGSIZE by omega]
  · rw [show len - n = 0 by omega]
    rfl

lemma copyinLoop_eq {turns : ℕ} (h : len ≤ turns) : copyinLoop w mem turns va len =
      (fetch w mem va len, decide ((fetch w mem va len).length = len)) := by
  induction turns generalizing va len with
  | zero =>
    obtain rfl := Nat.le_zero.1 h
    rfl
  | succ turns ih =>
    rcases len with _ | len
    · rfl
    have hlt := (in_page va).1
    rw [copyinLoop]
    simp only [sub_pgrounddown]
    split_ifs with hpa
    · rw [fetch, phys, if_pos hpa]
      rfl
    rw [ih (by omega), fetch_turn mem hpa rfl]
    simp
    omega

/-- `copyin` copies bytes until one is not mapped. -/
theorem copyin_eq : copyin w mem va len =
    (fetch w mem va len, decide ((fetch w mem va len).length = len)) := copyinLoop_eq le_rfl

/-! ### Pieces of a buffer -/

lemma fetch_take {m : ℕ} (h : m ≤ len) : fetch w mem va m = (fetch w mem va len).take m := by
  induction m generalizing va len with
  | zero => rfl
  | succ m ih =>
    obtain ⟨len, rfl⟩ : ∃ k, len = k + 1 := ⟨len - 1, by omega⟩
    rw [fetch, fetch]
    rcases phys w va with _ | a
    · rfl
    · rw [List.take_succ_cons, ← ih (by omega)]

lemma fetch_piece {tot m : ℕ} (htot : tot ≤ (fetch w mem va len).length) (h : tot + m ≤ len) :
    fetch w mem (va + tot) m = ((fetch w mem va len).drop tot).take m := by
  induction tot generalizing va len with
  | zero => exact fetch_take (by omega)
  | succ tot ih =>
    obtain ⟨len, rfl⟩ : ∃ k, len = k + 1 := ⟨len - 1, by omega⟩
    rw [fetch] at htot ⊢
    rcases hphys : phys w va with _ | a
    · rw [hphys] at htot
      exact absurd htot (by simp)
    rw [hphys] at htot
    simp only [List.length_cons] at htot
    rw [List.drop_succ_cons, ← ih (by omega) (by omega), Nat.add_assoc, Nat.add_comm 1 tot]

/-- What is fetched is mapped. -/
lemma mapped_fetch (mem : ℕ → Byte) : Mapped w va (fetch w mem va len).length := by
  induction len generalizing va with
  | zero => exact nofun
  | succ len ih =>
    rw [fetch]
    rcases hphys : phys w va with _ | a
    · exact nofun
    · exact mapped_succ.2 ⟨by simp [hphys], ih⟩

/-- The copies of the pieces of a buffer at `src`, as far as it is mapped. -/
lemma copyin_piece {src : BitVec 64} {tot m : ℕ} (htot : tot ≤ (fetch w mem src.toNat len).length)
    (h : tot + m ≤ len) :
    copyin w mem (userAddr src tot) m = (((fetch w mem src.toNat len).drop tot).take m,
      decide (tot + m ≤ (fetch w mem src.toNat len).length)) := by
  have hlt : src.toNat + tot < 2 ^ 64 := by
    rcases tot with _ | tot
    · exact src.isLt
    have := lt_of_phys (mapped_fetch mem tot htot)
    simp only [MAXVA] at this
    omega
  rw [userAddr_eq hlt, copyin_eq, fetch_piece htot h, List.length_take, List.length_drop]
  refine congrArg _ (decide_eq_decide.2 ?_)
  omega

end Hexv6.Vm
