import Hexv6.Vm.Pages

/-!
# Copying strings from user memory

`copyinstr` of `kernel/vm.c`.  It copies bytes up to the first NUL, but no more than `max` and none
that is not mapped (`copyinstr_eq`).

`walkaddr` returns 0 for a page that is not mapped.  So a page at the physical address 0 does not
count (`not_copyinstr_zero`).
-/

namespace Hexv6.Vm

open List
open Blk (Byte)

/-- The inner loop, for `n` bytes from `p` on: the bytes that are copied, and `got_null`. -/
def copyUntilNull (mem : ℕ → Byte) : ℕ → ℕ → List Byte × Bool
  | _, 0 => ([], false)
  | p, n + 1 =>
    if mem p = 0 then ([0], true)
    else (mem p :: (copyUntilNull mem (p + 1) n).1, (copyUntilNull mem (p + 1) n).2)

/-- The outer loop: the bytes that are copied, and whether it returns 0.  Each turn that finds no
NUL lowers `max`. -/
def copyinstrLoop (w : PageTable) (mem : ℕ → Byte) : ℕ → ℕ → ℕ → List Byte × Bool
  | _, _, 0 => ([], false)
  | 0, _, _ + 1 => ([], false)
  | turns + 1, srcva, max + 1 =>
    let va0 := pgrounddown srcva
    let pa0 := walkaddr w va0
    if pa0 = 0 then ([], false)
    else
      let n := min (PGSIZE - (srcva - va0)) (max + 1)
      let page := copyUntilNull mem (pa0 + (srcva - va0)) n
      if page.2 then page
      else
        let rest := copyinstrLoop w mem turns (va0 + PGSIZE) (max + 1 - n)
        (page.1 ++ rest.1, rest.2)

def copyinstr (w : PageTable) (mem : ℕ → Byte) (srcva max : ℕ) : List Byte × Bool :=
  copyinstrLoop w mem max srcva max

/-- The bytes up to the first NUL, and whether there is one. -/
def upToNull (bytes : List Byte) : List Byte × Bool :=
  (bytes.take (bytes.idxOf 0 + 1), decide (0 ∈ bytes))

variable {w : PageTable} {mem : ℕ → Byte} {va max : ℕ} {bytes rest : List Byte}

lemma upToNull_cons {b : Byte} : upToNull (b :: bytes) =
    if b = 0 then ([0], true) else (b :: (upToNull bytes).1, (upToNull bytes).2) := by
  split_ifs with hb
  · simp [upToNull, hb]
  · rw [upToNull, idxOf_cons_ne _ hb, take_succ_cons]
    simp only [upToNull, mem_cons, Ne.symm hb, false_or]

lemma copyUntilNull_eq {p n : ℕ} :
    copyUntilNull mem p n = upToNull ((range n).map fun i => mem (p + i)) := by
  induction n generalizing p with
  | zero => rfl
  | succ n ih =>
    have htail : (fun i => mem (p + i)) ∘ Nat.succ = fun i => mem (p + 1 + i) := by
      funext i
      rw [Function.comp_apply, Nat.succ_eq_add_one, Nat.add_assoc, Nat.add_comm 1]
    rw [copyUntilNull, ih, range_succ_eq_map, map_cons, map_map, htail,
      upToNull_cons]
    rfl

lemma upToNull_append : upToNull (bytes ++ rest) =
    if (upToNull bytes).2 then upToNull bytes
    else ((upToNull bytes).1 ++ (upToNull rest).1, (upToNull rest).2) := by
  induction bytes with
  | nil => rfl
  | cons b bytes ih =>
    rw [cons_append, upToNull_cons, upToNull_cons, ih]
    split_ifs <;> simp_all

lemma copyinstrLoop_eq {turns : ℕ} (h : max ≤ turns) :
    copyinstrLoop w mem turns va max = upToNull (fetch w mem va max) := by
  induction turns generalizing va max with
  | zero =>
    obtain rfl := Nat.le_zero.1 h
    rfl
  | succ turns ih =>
    rcases max with _ | max
    · rfl
    have hlt := (in_page va).1
    rw [copyinstrLoop]
    simp only [sub_pgrounddown]
    split_ifs with hpa hnull
    · rw [fetch, phys, if_pos hpa]
      rfl
    all_goals rw [fetch_turn mem hpa rfl, upToNull_append, ← copyUntilNull_eq]
    · rw [if_pos hnull]
    · rw [if_neg hnull, ih (by omega)]

theorem copyinstr_eq : copyinstr w mem va max = upToNull (fetch w mem va max) :=
  copyinstrLoop_eq le_rfl

/-! ### The first NUL -/

/-- The first NUL is at `k`. -/
def FirstNull (bytes : List Byte) (k : ℕ) : Prop := bytes[k]? = some 0 ∧ ∀ i < k, bytes[i]? ≠ some 0

lemma firstNull_iff_idxOf {k : ℕ} : FirstNull bytes k ↔ 0 ∈ bytes ∧ bytes.idxOf 0 = k := by
  constructor
  · rintro ⟨hk, hbefore⟩
    obtain ⟨hlt, heq⟩ := List.getElem?_eq_some_iff.1 hk
    refine ⟨heq ▸ List.getElem_mem hlt, (List.findIdx_eq hlt).2 ⟨by simp [heq], fun j hj => ?_⟩⟩
    have := hbefore j hj
    rw [List.getElem?_eq_getElem (hj.trans hlt)] at this
    simpa using this
  · rintro ⟨hmem, rfl⟩
    have hlt := idxOf_lt_length_iff.2 hmem
    refine ⟨?_, fun i hi => ?_⟩
    · rw [getElem?_eq_getElem hlt, getElem_idxOf hlt]
    · rw [getElem?_eq_getElem (hi.trans hlt)]
      simpa using not_of_lt_findIdx hi

/-- A byte that is fetched, and all bytes before it are mapped. -/
lemma fetch_getElem?_eq_some_iff {k : ℕ} {b : Byte} : (fetch w mem va max)[k]? = some b ↔
    k < max ∧ Mapped w va (k + 1) ∧ mem (address w (va + k)) = b := by
  have hlt : k < (fetch w mem va max).length ↔ k < max ∧ Mapped w va (k + 1) := by
    constructor
    · intro hk
      exact ⟨hk.trans_le length_fetch_le, fun i hi => mapped_fetch mem i (hk.trans_le' (by omega))⟩
    · rintro ⟨hk, hmapped⟩
      have hlen := (length_fetch_iff mem).2 hmapped
      rw [fetch_take hk, length_take] at hlen
      omega
  rw [fetch_eq, ← and_assoc, ← hlt]
  simp [getElem?_eq_some_iff]

/-- User memory up to a first NUL at `k`. -/
def StringAt (leaf : Leaves) (mem : ℕ → Byte) (va k : ℕ) : Prop :=
  UserRange leaf va (k + 1) ∧ mem (address (user leaf) (va + k)) = 0 ∧
    ∀ i < k, mem (address (user leaf) (va + i)) ≠ 0

lemma firstNull_iff {leaf : Leaves} (h : NonZero leaf) {k : ℕ} :
    FirstNull (fetch (user leaf) mem va max) k ↔ k < max ∧ StringAt leaf mem va k := by
  simp only [FirstNull, StringAt, ← mapped_iff h, ne_eq, fetch_getElem?_eq_some_iff]
  constructor
  · rintro ⟨⟨hk, hmapped, hnull⟩, hbefore⟩
    refine ⟨hk, hmapped, hnull, fun i hi hzero => hbefore i hi ⟨hi.trans hk, ?_, hzero⟩⟩
    exact fun j hj => hmapped j (by omega)
  · rintro ⟨hk, hmapped, hnull, hbefore⟩
    exact ⟨⟨hk, hmapped, hnull⟩, fun i hi hzero => hbefore i hi hzero.2.2⟩

/-- The result of `copyinstr`, if no user page is at the physical address 0. -/
theorem copyinstr_iff {leaf : Leaves} (h : NonZero leaf) (mem : ℕ → Byte) (srcva : BitVec 64)
    (max : ℕ) :
    ((copyinstr (user leaf) mem srcva.toNat max).2 = true ↔
      ∃ k < max, StringAt leaf mem srcva.toNat k) ∧
    (∀ k < max, StringAt leaf mem srcva.toNat k → (copyinstr (user leaf) mem srcva.toNat max).1 =
      (range (k + 1)).map fun i => mem (address (user leaf) (srcva.toNat + i))) ∧
    (copyinstr (user leaf) mem srcva.toNat max).1.length ≤ max := by
  rw [copyinstr_eq, upToNull, decide_eq_true_eq]
  refine ⟨⟨fun hnull => ?_, ?_⟩, fun k hk hstring => ?_, (length_take_le' ..).trans length_fetch_le⟩
  · exact ⟨_, (firstNull_iff h).1 (firstNull_iff_idxOf.2 ⟨hnull, rfl⟩)⟩
  · rintro ⟨k, hk⟩
    exact (firstNull_iff_idxOf.1 ((firstNull_iff h).2 hk)).1
  · have hlen := (length_fetch_iff mem).2 ((mapped_iff h).2 hstring.1)
    rw [(firstNull_iff_idxOf.1 ((firstNull_iff h).2 ⟨hk, hstring⟩)).2, ← fetch_take hk, fetch_eq,
      hlen]

/-- A string whose first byte is the last one of page 0. -/
def acrossPages (a : ℕ) : Byte :=
    if a = 5 * PGSIZE + 4095 then 97 else if a = 3 * PGSIZE then 98 else 0

lemma stringAt_acrossPages : StringAt twoPages acrossPages 4095 2 := by
  refine ⟨fun i hi => ?_, rfl, by decide⟩
  interval_cases i
  · exact ⟨by decide, 5, _, rfl, rfl, rfl, rfl⟩
  · exact ⟨by decide, 3, _, rfl, rfl, rfl, rfl⟩
  · exact ⟨by decide, 3, _, rfl, rfl, rfl, rfl⟩

/-- The string is copied from both pages, up to its NUL. -/
theorem copyinstr_iff_twoPages :
    copyinstr (user twoPages) acrossPages 4095 16 = ([97, 98, 0], true) := by
  obtain ⟨hok, hbytes, -⟩ := copyinstr_iff distinct_twoPages.nonZero acrossPages 4095 16
  exact Prod.ext (hbytes 2 (by decide) stringAt_acrossPages)
    (hok.2 ⟨2, by decide, stringAt_acrossPages⟩)

/-- A NUL in a page that is mapped at the physical address 0. -/
def pageZero : Leaves := fun i => if i = 0 then some ⟨0, true, true⟩ else none

theorem not_copyinstr_zero :
    StringAt pageZero (fun _ => 0) 0 0 ∧
    (copyinstr (user pageZero) (fun _ => 0) 0 1).2 = false := by
  refine ⟨⟨fun i hi => ?_, rfl, nofun⟩, by decide⟩
  obtain rfl : i = 0 := by omega
  exact ⟨by decide, 0, _, rfl, rfl, rfl, rfl⟩

end Hexv6.Vm
