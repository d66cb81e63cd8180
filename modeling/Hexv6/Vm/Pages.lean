import Hexv6.Vm.Copyin

/-!
# User memory only

`copyout` and `copyin` for page tables with their flags.  Addresses are numbers: the loops add
`PGSIZE` to an address only if it is below `MAXVA`, so that nothing wraps.

`copies_exact`: bytes are copied exactly, in order and up to the first one that is not user memory,
and no page without `PTE_U` is touched.
-/

namespace Hexv6.Vm

open Blk (Byte)

/-- A leaf of a page table, with `PTE_V` and `PTE_U`. -/
structure Pte where
  ppn : ℕ
  v : Bool
  u : Bool

/-- What `walk` finds for the number of a page. -/
abbrev Leaves := ℕ → Option Pte

/-- The leaves that `walkaddr` accepts. -/
def user (leaf : Leaves) : PageTable := fun i => do
  let pte ← leaf i
  if pte.v = false then none else if pte.u = false then none else some pte.ppn

/-- A page is mapped with `PTE_V` and `PTE_U`. -/
def Maps (leaf : Leaves) (i ppn : ℕ) : Prop :=
  ∃ pte, leaf i = some pte ∧ pte.v = true ∧ pte.u = true ∧ pte.ppn = ppn

/-- The page of an address is below `MAXVA` and mapped. -/
def UserByte (leaf : Leaves) (va : ℕ) : Prop := va < MAXVA ∧ ∃ ppn, Maps leaf (va / PGSIZE) ppn

def UserRange (leaf : Leaves) (va len : ℕ) : Prop := ∀ i < len, UserByte leaf (va + i)

/-- The physical page of some user page. -/
def UserPage (leaf : Leaves) (ppn : ℕ) : Prop := ∃ i, Maps leaf i ppn

def NonZero (leaf : Leaves) : Prop := ∀ i ppn, Maps leaf i ppn → ppn ≠ 0

/-- User pages have different physical addresses other than 0. -/
structure Distinct (leaf : Leaves) : Prop where
  nonZero : NonZero leaf
  inj : ∀ i j ppn, Maps leaf i ppn → Maps leaf j ppn → i = j

/-! ### One byte -/

variable {leaf : Leaves} {w : PageTable} {va len a : ℕ} {bytes : List Byte} {mem : ℕ → Byte}

lemma user_eq_some_iff {i ppn : ℕ} : user leaf i = some ppn ↔ Maps leaf i ppn := by
  rw [user, Maps, Option.bind_eq_bind, Option.bind_eq_some_iff]
  refine exists_congr fun pte => and_congr_right fun _ => ?_
  rcases pte with ⟨ppn', _ | _, _ | _⟩ <;> simp

section

variable (h : NonZero leaf)
include h

lemma phys_user : phys (user leaf) va = some a ↔
    va < MAXVA ∧ ∃ ppn, Maps leaf (va / PGSIZE) ppn ∧ ppn * PGSIZE + va % PGSIZE = a := by
  have hpage : pgrounddown va / PGSIZE = va / PGSIZE := by
    simp only [pgrounddown, PGSIZE]
    omega
  have hmax : pgrounddown va ≥ MAXVA ↔ ¬ va < MAXVA := by
    simp only [pgrounddown, PGSIZE, MAXVA]
    omega
  simp only [← user_eq_some_iff, phys, walkaddr, hpage, hmax]
  by_cases hva : va < MAXVA
  · rcases huser : user leaf (va / PGSIZE) with _ | ppn
    · simp
    · have hne : ppn * PGSIZE ≠ 0 := Nat.mul_ne_zero (h _ _ (user_eq_some_iff.1 huser)) (by decide)
      simp [hva, hne]
  · simp [hva]

lemma phys_ne_none_iff : phys (user leaf) va ≠ none ↔ UserByte leaf va := by
  simp [Option.ne_none_iff_exists', phys_user h, UserByte]

lemma mapped_iff : Mapped (user leaf) va len ↔ UserRange leaf va len :=
  forall₂_congr fun _ _ => phys_ne_none_iff h

/-- The address of a user byte. -/
lemma address_user (hva : UserByte leaf va) :
    ∃ ppn, Maps leaf (va / PGSIZE) ppn ∧ address (user leaf) va = ppn * PGSIZE + va % PGSIZE := by
  obtain ⟨a, ha⟩ := Option.ne_none_iff_exists'.1 ((phys_ne_none_iff h).2 hva)
  obtain ⟨-, ppn, hppn, rfl⟩ := (phys_user h).1 ha
  exact ⟨ppn, hppn, by rw [address, ha]; rfl⟩

lemma address_div (hva : UserByte leaf va) :
    Maps leaf (va / PGSIZE) (address (user leaf) va / PGSIZE) := by
  obtain ⟨ppn, hppn, heq⟩ := address_user h hva
  have hdiv : (ppn * PGSIZE + va % PGSIZE) / PGSIZE = ppn := by
    simp only [PGSIZE]
    omega
  rwa [heq, hdiv]

end

/-- Two bytes with one address are one byte. -/
lemma Distinct.address_inj (h : Distinct leaf) {va' : ℕ} (hva : UserByte leaf va)
    (hva' : UserByte leaf va') (heq : address (user leaf) va = address (user leaf) va') :
    va = va' := by
  have hpage := h.inj _ _ _ (address_div h.nonZero hva) (heq ▸ address_div h.nonZero hva')
  obtain ⟨ppn, -, haddr⟩ := address_user h.nonZero hva
  obtain ⟨ppn', -, haddr'⟩ := address_user h.nonZero hva'
  simp only [PGSIZE] at *
  omega

/-! ### A range -/

/-- What is written are the first bytes, as many as are mapped. -/
lemma copyBytes_part (w : PageTable) (va : ℕ) (bytes : List Byte) :
    ∃ k ≤ bytes.length, Mapped w va k ∧
    (copyBytes w va bytes).1 = (copyBytes w va (bytes.take k)).1 := by
  induction bytes generalizing va with
  | nil => exact ⟨0, le_rfl, nofun, rfl⟩
  | cons b bytes ih =>
    rcases hphys : phys w va with _ | a
    · exact ⟨0, Nat.zero_le _, nofun, by rw [copyBytes, hphys]; rfl⟩
    · obtain ⟨k, hk, hmapped, heq⟩ := ih (va + 1)
      refine ⟨k + 1, Nat.succ_le_succ hk, mapped_succ.2 ⟨by simp [hphys], hmapped⟩, ?_⟩
      simp only [List.take_succ_cons, copyBytes, hphys, heq]

lemma fetch_eq (w : PageTable) (mem : ℕ → Byte) (va len : ℕ) : fetch w mem va len =
    (List.range (fetch w mem va len).length).map fun i => mem (address w (va + i)) := by
  induction len generalizing va with
  | zero => rfl
  | succ len ih =>
    rw [fetch]
    rcases hphys : phys w va with _ | a
    · rfl
    · rw [List.length_cons, List.range_succ_eq_map, List.map_cons, List.map_map]
      refine congrArg₂ _ (by simp [address, hphys]) ((ih (va + 1)).trans ?_)
      refine List.map_congr_left fun i _ => ?_
      rw [Function.comp_apply, Nat.add_assoc, Nat.add_comm 1]

/-- Only bytes that are mapped are read. -/
lemma fetch_congr {mem' : ℕ → Byte} (h : ∀ va a, phys w va = some a → mem' a = mem a) :
    fetch w mem' va len = fetch w mem va len := by
  induction len generalizing va with
  | zero => rfl
  | succ len ih =>
    rw [fetch, fetch]
    rcases hphys : phys w va with _ | a
    · rfl
    · simp only [h va a hphys, ih]

lemma length_fetch_iff (mem : ℕ → Byte) : (fetch w mem va len).length = len ↔ Mapped w va len := by
  induction len generalizing va with
  | zero => simp [fetch, Mapped]
  | succ len ih =>
    rw [fetch, mapped_succ, ← ih]
    rcases phys w va with _ | a <;> simp

/-! ### The copies -/

/-- What `copyout` does. -/
structure CopiesOut (leaf : Leaves) (va : ℕ) (bytes : List Byte) (mem mem' : ℕ → Byte) : Prop where
  ok : (copyout (user leaf) va bytes).2 = true ↔ UserRange leaf va bytes.length
  written : UserRange leaf va bytes.length →
    ∀ i (hi : i < bytes.length), mem' (address (user leaf) (va + i)) = bytes[i]
  /-- the writes are those for the first bytes, which are user memory -/
  part : ∃ k ≤ bytes.length, UserRange leaf va k ∧
    (copyout (user leaf) va bytes).1 = (copyout (user leaf) va (bytes.take k)).1
  others : ∀ a, (∀ i < bytes.length, UserByte leaf (va + i) → address (user leaf) (va + i) ≠ a) →
    mem' a = mem a
  pages : ∀ a, ¬ UserPage leaf (a / PGSIZE) → mem' a = mem a
  again : UserRange leaf va bytes.length → copyin (user leaf) mem' va bytes.length = (bytes, true)

/-- What `copyin` does. -/
structure CopiesIn (leaf : Leaves) (va len : ℕ) (mem : ℕ → Byte) : Prop where
  ok : (copyin (user leaf) mem va len).2 = true ↔ UserRange leaf va len
  read : ∃ k ≤ len, UserRange leaf va k ∧ ((copyin (user leaf) mem va len).2 = true → k = len) ∧
    (copyin (user leaf) mem va len).1 = (List.range k).map fun i =>
      mem (address (user leaf) (va + i))
  pages : ∀ mem', (∀ a, UserPage leaf (a / PGSIZE) → mem' a = mem a) →
    copyin (user leaf) mem' va len = copyin (user leaf) mem va len

lemma Distinct.copiesOut (h : Distinct leaf) (va : ℕ) (bytes : List Byte) (mem : ℕ → Byte) :
    CopiesOut leaf va bytes mem (store mem (copyout (user leaf) va bytes).1) := by
  have hmapped : ∀ {k}, Mapped (user leaf) va k ↔ UserRange leaf va k := mapped_iff h.nonZero
  have hinj : ∀ {k}, UserRange leaf va k → ∀ i < k, ∀ j < k,
      address (user leaf) (va + i) = address (user leaf) (va + j) → i = j :=
    fun hrange i hi j hj heq => Nat.add_left_cancel (h.address_inj (hrange i hi) (hrange j hj) heq)
  obtain ⟨k, hk, hpart, heq⟩ := copyBytes_part (user leaf) va bytes
  have hrange := hmapped.1 hpart
  have htake : (bytes.take k).length = k := by simpa using hk
  rw [copyout_eq]
  have hwritten : UserRange leaf va bytes.length → ∀ i (hi : i < bytes.length),
      store mem (copyBytes (user leaf) va bytes).1 (address (user leaf) (va + i)) = bytes[i] :=
    fun hall => (store_copyBytes (hmapped.2 hall) (hinj hall) mem).1
  have hothers : ∀ a, (∀ i < bytes.length, UserByte leaf (va + i) →
      address (user leaf) (va + i) ≠ a) →
      store mem (copyBytes (user leaf) va bytes).1 a = mem a := by
    intro a ha
    rw [heq]
    refine (store_copyBytes (by rwa [htake])
      (by rw [htake]; exact hinj hrange) mem).2 a fun i hi => ?_
    rw [htake] at hi
    exact ha i (by omega) (hrange i hi)
  refine
    { ok := by rw [copyout_eq, copyBytes_ok_iff, hmapped], written := hwritten
      part := ⟨k, hk, hrange, by simpa only [copyout_eq] using heq⟩, others := hothers
      pages := fun a ha => hothers a fun i _ hva heq => ha ⟨_, heq ▸ address_div h.nonZero hva⟩
      again := fun hall => ?_ }
  rw [copyin_eq, fetch_eq, (length_fetch_iff _).2 (hmapped.2 hall)]
  refine Prod.ext (List.ext_getElem (by simp) fun i hi hi' => ?_) (by simp)
  rw [List.getElem_map, List.getElem_range]
  exact hwritten hall i hi'

lemma Distinct.copiesIn (h : Distinct leaf) (va len : ℕ) (mem : ℕ → Byte) :
    CopiesIn leaf va len mem := by
  refine ⟨?_, ⟨_, length_fetch_le, (mapped_iff h.nonZero).1 (mapped_fetch mem), ?_, ?_⟩,
    fun mem' hsame => ?_⟩
  · rw [copyin_eq, decide_eq_true_eq, length_fetch_iff, mapped_iff h.nonZero]
  · rw [copyin_eq]
    exact of_decide_eq_true
  · rw [copyin_eq]
    exact fetch_eq ..
  · have hread : ∀ va a, phys (user leaf) va = some a → mem' a = mem a := fun va a ha => by
      have hva := (phys_ne_none_iff h.nonZero).1 (by rw [ha]; nofun : phys (user leaf) va ≠ none)
      have hpage := address_div h.nonZero hva
      rw [address, ha] at hpage
      exact hsame a ⟨_, hpage⟩
    rw [copyin_eq, copyin_eq, fetch_congr hread]

/-- Copies touch user memory only, and are exact. -/
theorem copies_exact (h : Distinct leaf) (va : BitVec 64) :
    (∀ bytes mem, CopiesOut leaf va.toNat bytes mem
      (store mem (copyout (user leaf) va.toNat bytes).1)) ∧
    ∀ len mem, CopiesIn leaf va.toNat len mem :=
  ⟨h.copiesOut _, h.copiesIn _⟩

/-- Two user pages, and a guard page. -/
def twoPages : Leaves
  | 0 => some ⟨5, true, true⟩
  | 1 => some ⟨3, true, true⟩
  | 2 => some ⟨4, true, false⟩
  | _ => none

lemma maps_twoPages {i ppn : ℕ} (h : Maps twoPages i ppn) : i = 0 ∧ ppn = 5 ∨ i = 1 ∧ ppn = 3 := by
  obtain ⟨pte, hpte, hv, hu, rfl⟩ := h
  match i, hpte with
  | 0, rfl => exact .inl ⟨rfl, rfl⟩
  | 1, rfl => exact .inr ⟨rfl, rfl⟩
  | 2, rfl => cases hu

lemma distinct_twoPages : Distinct twoPages where
  nonZero i ppn h := by
    have := maps_twoPages h
    omega
  inj i j ppn hi hj := by
    have := maps_twoPages hi
    have := maps_twoPages hj
    omega

theorem copies_exact_twoPages : copyin (user twoPages)
    (store (fun _ => 0) (copyout (user twoPages) 4095 [1, 2]).1) 4095 2 = ([1, 2], true) := by
  refine ((copies_exact distinct_twoPages 4095).1 [1, 2] fun _ => 0).again fun i hi => ?_
  have hi' : i < 2 := hi
  interval_cases i
  · exact ⟨by decide, 5, _, rfl, rfl, rfl, rfl⟩
  · exact ⟨by decide, 3, _, rfl, rfl, rfl, rfl⟩

end Hexv6.Vm
