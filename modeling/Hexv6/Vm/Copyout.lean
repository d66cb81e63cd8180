import Hexv6.Blk.Block

/-!
# Copying to user memory

`walkaddr` and `copyout` of `kernel/vm.c`.  A page table is given by the user pages that it maps;
what `copyout` does to physical memory is the list of its writes, in their order.

`copyout` works page by page.  It is the same as copying byte by byte until a byte is not mapped
(`copyout_eq`).
-/

namespace Hexv6.Vm

open List
open Blk (Byte)

/-- `PGROUNDDOWN(a)`. -/
def pgrounddown (a : ℕ) : ℕ := a - a % PGSIZE

/-- The valid user leaves of a page table: the numbers of the physical pages. -/
abbrev PageTable := ℕ → Option ℕ

/-- `walkaddr`: a physical address, or 0. -/
def walkaddr (w : PageTable) (va : ℕ) : ℕ :=
  if va ≥ MAXVA then 0 else (w (va / PGSIZE)).elim 0 (· * PGSIZE)

/-- `addr + i` in 64 bits. -/
def userAddr (addr : BitVec 64) (i : ℕ) : ℕ := (addr + BitVec.ofNat 64 i).toNat

lemma userAddr_eq {addr : BitVec 64} {i : ℕ} (h : addr.toNat + i < 2 ^ 64) :
    userAddr addr i = addr.toNat + i := by
  rw [userAddr, BitVec.toNat_add, BitVec.toNat_ofNat, Nat.add_mod_mod, Nat.mod_eq_of_lt h]

/-- A byte that is written to a physical address. -/
abbrev Write := ℕ × Byte

/-- The writes of `memmove(a, bytes, n)`. -/
def memmove (a : ℕ) : List Byte → List Write
  | [] => []
  | b :: bytes => (a, b) :: memmove (a + 1) bytes

/-- The loop of `copyout`: the writes, and whether it returns 0.  Each turn copies at least one
byte, so there are at most as many turns as bytes. -/
def copyoutLoop (w : PageTable) : ℕ → ℕ → List Byte → List Write × Bool
  | _, _, [] => ([], true)
  | 0, _, _ :: _ => ([], false)
  | turns + 1, dstva, b :: bytes =>
    let src := b :: bytes
    let va0 := pgrounddown dstva
    let pa0 := walkaddr w va0
    if pa0 = 0 then ([], false)
    else
      let n := min (PGSIZE - (dstva - va0)) src.length
      let rest := copyoutLoop w turns (va0 + PGSIZE) (src.drop n)
      (memmove (pa0 + (dstva - va0)) (src.take n) ++ rest.1, rest.2)

def copyout (w : PageTable) (dstva : ℕ) (src : List Byte) : List Write × Bool :=
  copyoutLoop w src.length dstva src

/-- Memory after some writes. -/
def store (mem : ℕ → Byte) (ws : List Write) : ℕ → Byte :=
  ws.foldl (fun mem x => Function.update mem x.1 x.2) mem

/-! ### Byte by byte -/

/-- The physical address of a byte. -/
def phys (w : PageTable) (va : ℕ) : Option ℕ :=
  if walkaddr w (pgrounddown va) = 0 then none
  else some (walkaddr w (pgrounddown va) + va % PGSIZE)

def copyBytes (w : PageTable) : ℕ → List Byte → List Write × Bool
  | _, [] => ([], true)
  | va, b :: bytes =>
    match phys w va with
    | none => ([], false)
    | some a => ((a, b) :: (copyBytes w (va + 1) bytes).1, (copyBytes w (va + 1) bytes).2)

variable {w : PageTable} {va : ℕ} {bytes rest : List Byte}

lemma in_page (va : ℕ) : va % PGSIZE < PGSIZE ∧ pgrounddown va + va % PGSIZE = va :=
  ⟨Nat.mod_lt _ (by decide), Nat.sub_add_cancel (Nat.mod_le _ _)⟩

lemma sub_pgrounddown (a : ℕ) : a - pgrounddown a = a % PGSIZE := by
  have := Nat.mod_le a PGSIZE
  simp only [pgrounddown]
  omega

/-- The next byte of the same page. -/
lemma succ_in_page (h : va % PGSIZE + 1 < PGSIZE) :
    (va + 1) % PGSIZE = va % PGSIZE + 1 ∧ pgrounddown (va + 1) = pgrounddown va := by
  have hmod : (va + 1) % PGSIZE = va % PGSIZE + 1 := by
    simp only [PGSIZE] at h ⊢
    omega
  refine ⟨hmod, ?_⟩
  rw [pgrounddown, pgrounddown, hmod]
  omega

/-- Copying the part of the bytes that is on one page. -/
lemma copyBytes_page (hpa : walkaddr w (pgrounddown va) ≠ 0)
    (hlen : va % PGSIZE + bytes.length ≤ PGSIZE) :
    copyBytes w va (bytes ++ rest) = (memmove (walkaddr w (pgrounddown va) + va % PGSIZE) bytes ++
        (copyBytes w (va + bytes.length) rest).1, (copyBytes w (va + bytes.length) rest).2) := by
  induction bytes generalizing va with
  | nil => simp [memmove]
  | cons b bytes ih =>
    rw [length_cons] at hlen
    have hphys : phys w va = some (walkaddr w (pgrounddown va) + va % PGSIZE) := if_neg hpa
    have htail : copyBytes w (va + 1) (bytes ++ rest) =
        (memmove (walkaddr w (pgrounddown va) + va % PGSIZE + 1) bytes ++
          (copyBytes w (va + 1 + bytes.length) rest).1,
          (copyBytes w (va + 1 + bytes.length) rest).2) := by
      rcases bytes with _ | ⟨c, bytes⟩
      · simp [memmove]
      rw [length_cons] at hlen
      obtain ⟨hmod, hdown⟩ := succ_in_page (show va % PGSIZE + 1 < PGSIZE by omega)
      rw [ih (by rwa [hdown]) (by rw [hmod, length_cons]; omega), hdown, hmod,
        Nat.add_assoc _ _ 1]
    rw [cons_append, copyBytes, hphys]
    simp only [htail, memmove, cons_append, length_cons]
    rw [show va + 1 + bytes.length = va + (bytes.length + 1) by omega]

lemma copyoutLoop_eq {turns : ℕ} (h : bytes.length ≤ turns) :
    copyoutLoop w turns va bytes = copyBytes w va bytes := by
  induction turns generalizing va bytes with
  | zero =>
    obtain rfl := length_eq_zero_iff.1 (Nat.le_zero.1 h)
    rfl
  | succ turns ih =>
    rcases bytes with _ | ⟨b, bytes⟩
    · rfl
    obtain ⟨hlt, hdown⟩ := in_page va
    rw [copyoutLoop]
    simp only [sub_pgrounddown]
    split_ifs with hpa
    · rw [copyBytes, phys, if_pos hpa]
    -- the part on the first page, and what is left
    set n := min (PGSIZE - va % PGSIZE) (b :: bytes).length with hn
    have hnpos : 0 < n := by
      rw [hn, length_cons]
      omega
    have hrec : copyoutLoop w turns (pgrounddown va + PGSIZE) ((b :: bytes).drop n) =
        copyBytes w (pgrounddown va + PGSIZE) ((b :: bytes).drop n) :=
      ih (by rw [length_drop]; omega)
    have htake : ((b :: bytes).take n).length = n := by
      rw [length_take, hn]
      omega
    conv_rhs => rw [← take_append_drop n (b :: bytes)]
    rw [copyBytes_page hpa (by rw [htake, hn]; omega), hrec, htake]
    by_cases hend : PGSIZE - va % PGSIZE ≤ (b :: bytes).length
    · rw [show va + n = pgrounddown va + PGSIZE by omega]
    -- nothing is left
    rw [drop_of_length_le (by omega)]
    rfl

/-- `copyout` copies bytes until one is not mapped. -/
theorem copyout_eq : copyout w va bytes = copyBytes w va bytes := copyoutLoop_eq le_rfl

/-! ### What is written -/

/-- The bytes of a range are all mapped. -/
def Mapped (w : PageTable) (va len : ℕ) : Prop := ∀ i < len, phys w (va + i) ≠ none

lemma mapped_succ {len : ℕ} :
    Mapped w va (len + 1) ↔ phys w va ≠ none ∧ Mapped w (va + 1) len := by
  simp only [Mapped, Nat.forall_lt_succ_left, Nat.add_zero, Nat.add_assoc, Nat.add_comm 1]

lemma copyBytes_append : copyBytes w va (bytes ++ rest) =
    if (copyBytes w va bytes).2 then
      ((copyBytes w va bytes).1 ++ (copyBytes w (va + bytes.length) rest).1,
        (copyBytes w (va + bytes.length) rest).2)
    else copyBytes w va bytes := by
  induction bytes generalizing va with
  | nil => simp [copyBytes]
  | cons b bytes ih =>
    rw [cons_append, copyBytes, copyBytes]
    rcases hphys : phys w va with _ | a
    · rfl
    simp only [ih, length_cons]
    rw [show va + (bytes.length + 1) = va + 1 + bytes.length by omega]
    split_ifs <;> rfl

lemma length_copyBytes_le (w : PageTable) (va : ℕ) (bytes : List Byte) :
    (copyBytes w va bytes).1.length ≤ bytes.length := by
  induction bytes generalizing va with
  | nil => exact le_rfl
  | cons b bytes ih =>
    rw [copyBytes]
    rcases phys w va with _ | a
    · exact Nat.zero_le _
    · exact Nat.succ_le_succ (ih (va + 1))

/-- What is mapped is below `MAXVA`. -/
lemma lt_of_phys (h : phys w va ≠ none) : va < MAXVA := by
  by_contra hva
  have hge : pgrounddown va ≥ MAXVA := by
    simp only [pgrounddown, PGSIZE, MAXVA] at hva ⊢
    omega
  exact h (by rw [phys, walkaddr, if_pos hge, if_pos rfl])

lemma copyBytes_ok_iff : (copyBytes w va bytes).2 = true ↔ Mapped w va bytes.length := by
  induction bytes generalizing va with
  | nil => simp [copyBytes, Mapped]
  | cons b bytes ih =>
    rw [copyBytes, length_cons, mapped_succ, ← ih]
    rcases phys w va with _ | a <;> simp

/-- Nothing is written exactly if not even the first byte is mapped. -/
lemma copyBytes_eq_nil_iff (h : bytes ≠ []) : (copyBytes w va bytes).1 = [] ↔ phys w va = none := by
  obtain ⟨b, bytes, rfl⟩ := exists_cons_of_ne_nil h
  rw [copyBytes]
  rcases phys w va with _ | a <;> simp

/-- The physical address of a byte that is mapped. -/
def address (w : PageTable) (va : ℕ) : ℕ := (phys w va).getD 0

/-- The writes to a range that is mapped. -/
lemma copyBytes_writes (h : Mapped w va bytes.length) :
    (copyBytes w va bytes).1 = bytes.zipIdx.map fun x => (address w (va + x.2), x.1) := by
  induction bytes generalizing va with
  | nil => rfl
  | cons b bytes ih =>
    obtain ⟨hva, htail⟩ := mapped_succ.1 h
    obtain ⟨a, ha⟩ := Option.ne_none_iff_exists'.1 hva
    rw [copyBytes, ha, zipIdx_cons, map_cons]
    simp only [ih htail, Nat.add_zero, address, ha, Option.getD_some, Nat.zero_add,
      zipIdx_succ, map_map, cons.injEq, true_and]
    refine map_congr_left fun x _ => ?_
    rw [Function.comp_apply, Nat.add_right_comm, Nat.add_assoc]

/-- Bytes of one range have different addresses if the range is not longer than a page. -/
lemma Mapped.address_inj {len : ℕ} (h : Mapped w va len) (hlen : len ≤ PGSIZE) :
    ∀ i < len, ∀ j < len, address w (va + i) = address w (va + j) → i = j := by
  intro i hi j hj heq
  have hmod : ∀ a, walkaddr w a % PGSIZE = 0 := by
    intro a
    rw [walkaddr]
    split_ifs
    · rfl
    rcases w (a / PGSIZE) with _ | ppn
    · rfl
    · exact Nat.mul_mod_left ppn PGSIZE
  have haddr : ∀ k, phys w (va + k) ≠ none → address w (va + k) % PGSIZE = (va + k) % PGSIZE := by
    intro k hk
    rw [address, phys]
    rw [phys] at hk
    split_ifs at hk ⊢ with hpa
    · exact absurd rfl hk
    rw [Option.getD_some, Nat.add_mod, hmod, Nat.zero_add, Nat.mod_mod, Nat.mod_mod]
  have hcong : (va + i) % PGSIZE = (va + j) % PGSIZE := by
    rw [← haddr i (h i hi), ← haddr j (h j hj), heq]
  simp only [PGSIZE] at hcong hlen
  omega

/-! ### Memory afterwards -/

variable {mem : ℕ → Byte} {ws : List Write} {a : ℕ}

lemma store_append (ws' : List Write) : store mem (ws ++ ws') = store (store mem ws) ws' :=
  foldl_append

lemma store_of_notMem (h : ∀ x ∈ ws, x.1 ≠ a) : store mem ws a = mem a := by
  induction ws generalizing mem with
  | nil => rfl
  | cons x ws ih =>
    have hx : a ≠ x.1 := (h x (by simp)).symm
    rw [store, foldl_cons]
    exact (ih fun y hy => h y (by simp [hy])).trans (Function.update_of_ne hx ..)

/-- A byte that is written once. -/
lemma store_of_mem {b : Byte} (h : (a, b) ∈ ws) (hone : (ws.map Prod.fst).Nodup) :
    store mem ws a = b := by
  induction ws generalizing mem with
  | nil => cases h
  | cons x ws ih =>
    obtain ⟨hx, hone⟩ := nodup_cons.1 hone
    rw [store, foldl_cons]
    rcases mem_cons.1 h with rfl | h
    · refine (store_of_notMem fun y hy hya => hx ?_).trans (Function.update_self ..)
      exact mem_map.2 ⟨y, hy, hya⟩
    · exact ih h hone

/-- The bytes of a mapped range after they have been written, and the bytes elsewhere. -/
lemma store_copyBytes (h : Mapped w va bytes.length)
    (hinj : ∀ i < bytes.length, ∀ j < bytes.length, address w (va + i) = address w (va + j) → i = j)
    (mem : ℕ → Byte) :
    (∀ i (hi : i < bytes.length),
      store mem (copyBytes w va bytes).1 (address w (va + i)) = bytes[i]) ∧
    ∀ a, (∀ i < bytes.length, address w (va + i) ≠ a) →
      store mem (copyBytes w va bytes).1 a = mem a := by
  rw [copyBytes_writes h]
  refine ⟨fun i hi => store_of_mem ?_ ?_, fun a ha => store_of_notMem fun x hx => ?_⟩
  · refine mem_map.2 ⟨(bytes[i], i), ?_, rfl⟩
    rw [mem_zipIdx_iff_getElem?, getElem?_eq_getElem hi]
  · have hrange : (bytes.zipIdx.map fun x => (address w (va + x.2), x.1)).map Prod.fst =
        (range bytes.length).map fun i => address w (va + i) := by
      apply ext_getElem <;> simp
    rw [hrange]
    refine nodup_range.map_on fun i hi j hj hij => ?_
    rw [mem_range] at hi hj
    exact hinj i hi j hj hij
  · obtain ⟨y, hy, rfl⟩ := mem_map.1 hx
    exact ha y.2 (mem_zipIdx' hy).1

end Hexv6.Vm
