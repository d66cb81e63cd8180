import Hexv6.Vm.Copyout

/-!
# The arguments of a new program

The stack that `exec` of `kernel/exec.c` builds: the strings from the top of the stack page
downwards, below them the array of their addresses, everything aligned to 16 bytes.

`exec_passes`: the new program finds `argc` in `a0` and the array in `a1`, with copies of the
strings; and `exec` succeeds exactly if the page has room for them.
-/

namespace Hexv6.Vm

open List
open Blk (Byte)

def MAXARG : ℕ := 32

/-- `a - b` in 64 bits. -/
def sub64 (a b : ℕ) : ℕ := (a + 2 ^ 64 - b) % 2 ^ 64

/-- The address space when the segments are loaded and `uvmalloc` has added two pages. -/
structure Image where
  segments : PageTable
  /-- the number of pages before the two new ones -/
  pages : ℕ
  /-- the physical page of the stack -/
  stack : ℕ
  stack_ne : stack ≠ 0
  /-- `walk` panics from `MAXVA` on -/
  below : (pages + 2) * PGSIZE ≤ MAXVA

namespace Image

variable (I : Image)

def sz : ℕ := (I.pages + 2) * PGSIZE

def stackbase : ℕ := I.sz - PGSIZE

/-- The first of the two pages is the guard: `uvmclear` takes it from the user. -/
def pagetable : PageTable :=
  Function.update (Function.update I.segments I.pages none) (I.pages + 1) (some I.stack)

/-- Memory as the user sees it. -/
def user (mem : ℕ → Byte) (va : ℕ) : Byte := mem (address I.pagetable va)

end Image

/-- Lowering `sp` by some bytes and to the next multiple of 16, and copying the bytes there. -/
def push (I : Image) (sp : ℕ) (mem : ℕ → Byte) (bytes : List Byte) : Option (ℕ × (ℕ → Byte)) :=
  let sp := sub64 sp bytes.length
  let sp := sub64 sp (sp % 16)
  if sp < I.stackbase then none
  else
    let copied := copyout I.pagetable sp bytes
    if copied.2 then some (sp, store mem copied.1) else none

/-- The loop over the arguments; `argc` is the length of `ustack`. -/
def pushArgs (I : Image) :
    List (List Byte) → ℕ → List ℕ → (ℕ → Byte) → Option (ℕ × List ℕ × (ℕ → Byte))
  | [], sp, ustack, mem => some (sp, ustack, mem)
  | arg :: argv, sp, ustack, mem =>
    if ustack.length ≥ MAXARG then none
    else do
      let (sp, mem) ← push I sp mem (arg ++ [0])
      pushArgs I argv sp (ustack ++ [sp]) mem

/-- The bytes of a `uint64`. -/
def word (v : ℕ) : List Byte := (range 8).map fun i => BitVec.ofNat 8 (v / 256 ^ i)

/-- What `exec` sets for the new program; its result goes to `a0`. -/
structure User where
  pagetable : PageTable
  sz : ℕ
  a0 : ℕ
  a1 : ℕ
  sp : ℕ

/-- `exec`; `none` if it returns -1.  `loaded` is `none` if a step before the stack has failed. -/
def exec (loaded : Option Image) (argv : List (List Byte)) (mem : ℕ → Byte) :
    Option (User × (ℕ → Byte)) := do
  let I ← loaded
  let (sp, ustack, mem) ← pushArgs I argv I.sz [] mem
  let (sp, mem) ← push I sp mem ((ustack ++ [0]).flatMap word)
  pure ({ pagetable := I.pagetable, sz := I.sz, a0 := ustack.length, a1 := sp, sp := sp }, mem)

/-! ### Reading memory -/

/-- The bytes are in memory from `va` on. -/
def Holds (user : ℕ → Byte) (va : ℕ) (bytes : List Byte) : Prop :=
  ∀ i (hi : i < bytes.length), user (va + i) = bytes[i]

def readWord (user : ℕ → Byte) (va : ℕ) : ℕ :=
  Nat.ofDigits 256 ((range 8).map fun i => (user (va + i)).toNat)

def readWords (user : ℕ → Byte) : ℕ → ℕ → List ℕ
  | 0, _ => []
  | n + 1, va => readWord user va :: readWords user n (va + 8)

section Reading

variable {user user' : ℕ → Byte} {va : ℕ} {bytes rest : List Byte}

lemma Holds.append (h : Holds user va (bytes ++ rest)) :
    Holds user va bytes ∧ Holds user (va + bytes.length) rest := by
  constructor
  · intro i hi
    rw [h i (by rw [length_append]; omega), getElem_append_left hi]
  intro i hi
  rw [Nat.add_assoc, h (bytes.length + i) (by rw [length_append]; omega)]
  simp

lemma Holds.congr (h : Holds user va bytes)
    (hsame : ∀ u, va ≤ u → u < va + bytes.length → user' u = user u) : Holds user' va bytes := by
  intro i hi
  rw [hsame (va + i) (by omega) (by omega)]
  exact h i hi

@[simp]
lemma length_word (v : ℕ) : (word v).length = 8 := rfl

lemma length_flatMap_word (vs : List ℕ) : (vs.flatMap word).length = 8 * vs.length := by
  induction vs with
  | nil => rfl
  | cons v vs ih =>
    rw [flatMap_cons, length_append, length_word, ih, length_cons]
    omega

lemma readWord_eq {v : ℕ} (h : Holds user va (word v)) (hv : v < 2 ^ 64) :
    readWord user va = v := by
  have hbyte : ∀ i < 8, (user (va + i)).toNat = v / 256 ^ i % 256 := fun i hi => by
    rw [h i hi]
    simp [word]
  have hdigits : (range 8).map (fun i => (user (va + i)).toNat) =
      (range 8).map fun i => v / 256 ^ i % 256 :=
    map_congr_left fun i hi => hbyte i (mem_range.1 hi)
  rw [readWord, hdigits]
  simp only [show range 8 = [0, 1, 2, 3, 4, 5, 6, 7] from rfl, map_cons, map_nil,
    Nat.ofDigits_cons, Nat.ofDigits_nil, Nat.reducePow]
  omega

lemma readWords_eq {vs : List ℕ} (h : Holds user va (vs.flatMap word))
    (hvs : ∀ v ∈ vs, v < 2 ^ 64) :
    readWords user vs.length va = vs := by
  induction vs generalizing va with
  | nil => rfl
  | cons v vs ih =>
    rw [flatMap_cons] at h
    obtain ⟨hword, hrest⟩ := h.append
    rw [length_word] at hrest
    rw [length_cons, readWords, readWord_eq hword (hvs v (by simp)),
      ih hrest fun x hx => hvs x (by simp [hx])]

end Reading

/-! ### One push -/

/-- A length in bytes, rounded up to a multiple of 16. -/
def roundup16 (n : ℕ) : ℕ := (n + 15) / 16 * 16

lemma le_roundup16 (n : ℕ) : n ≤ roundup16 n ∧ roundup16 n % 16 = 0 := by
  simp only [roundup16]
  omega

section Push

variable {I : Image} {sp va : ℕ} {mem : ℕ → Byte} {bytes : List Byte}

lemma sz_eq (I : Image) : I.sz = I.pages * 4096 + 8192 := by
  simp only [Image.sz, PGSIZE]
  omega

lemma stackbase_eq (I : Image) : I.stackbase = I.pages * 4096 + 4096 := by
  rw [Image.stackbase, sz_eq, PGSIZE]
  omega

lemma sz_le (I : Image) : I.sz ≤ 2 ^ 38 := I.below

/-- The stack page is mapped. -/
lemma phys_stack (hlo : I.stackbase ≤ va) (hhi : va < I.sz) :
    phys I.pagetable va = some (I.stack * PGSIZE + va % PGSIZE) := by
  have hle := sz_le I
  rw [stackbase_eq] at hlo
  rw [sz_eq] at hhi hle
  have hdown : pgrounddown va = (I.pages + 1) * PGSIZE := by
    simp only [pgrounddown, PGSIZE]
    omega
  have hwalk : walkaddr I.pagetable (pgrounddown va) = I.stack * PGSIZE := by
    rw [walkaddr, hdown, if_neg (by simp only [PGSIZE, MAXVA]; omega),
      Nat.mul_div_cancel _ (by decide), Image.pagetable, Function.update_self]
    rfl
  rw [phys, hwalk, if_neg (Nat.mul_ne_zero I.stack_ne (by decide))]

/-- The new `sp`; nothing wraps, because the guard page is below. -/
lemma sub64_sp {n : ℕ} (hlo : I.stackbase ≤ sp) (hhi : sp ≤ I.sz) (hal : sp % 16 = 0)
    (hn : n ≤ PGSIZE) : sub64 (sub64 sp n) (sub64 sp n % 16) = sp - roundup16 n := by
  have hle := sz_le I
  rw [stackbase_eq] at hlo
  simp only [PGSIZE] at hn
  have hsub : sub64 sp n = sp - n := by
    rw [sub64, show sp + 2 ^ 64 - n = sp - n + 2 ^ 64 by omega, Nat.add_mod_right,
      Nat.mod_eq_of_lt (by omega)]
  rw [hsub, sub64, show sp - n + 2 ^ 64 - (sp - n) % 16 = sp - roundup16 n + 2 ^ 64 by
    simp only [roundup16]
    omega, Nat.add_mod_right, Nat.mod_eq_of_lt (by omega)]

/-- The bytes that are pushed, and the part of the stack above them. -/
lemma push_cases (hlo : I.stackbase ≤ sp) (hhi : sp ≤ I.sz) (hal : sp % 16 = 0)
    (hlen : bytes.length ≤ PGSIZE) (mem : ℕ → Byte) :
    (roundup16 bytes.length ≤ sp - I.stackbase ∧
      ∃ mem', push I sp mem bytes = some (sp - roundup16 bytes.length, mem') ∧
        Holds (I.user mem') (sp - roundup16 bytes.length) bytes ∧
        ∀ u, sp ≤ u → u < I.sz → I.user mem' u = I.user mem u) ∨
    sp - I.stackbase < roundup16 bytes.length ∧ push I sp mem bytes = none := by
  have hsz := sz_eq I
  have hbase := stackbase_eq I
  have hle := le_roundup16 bytes.length
  simp only [push, sub64_sp hlo hhi hal hlen, copyout_eq]
  rcases le_or_gt (roundup16 bytes.length) (sp - I.stackbase) with hroom | hroom
  · refine .inl ⟨hroom, ?_⟩
    set sp' := sp - roundup16 bytes.length with hsp
    have hphys : ∀ i < bytes.length, phys I.pagetable (sp' + i) =
        some (I.stack * PGSIZE + (sp' + i) % PGSIZE) := fun i hi => phys_stack (by omega) (by omega)
    have hmapped : Mapped I.pagetable sp' bytes.length := fun i hi => by simp [hphys i hi]
    obtain ⟨hnew, hold⟩ := store_copyBytes hmapped (hmapped.address_inj hlen) mem
    refine ⟨store mem (copyBytes I.pagetable sp' bytes).1, ?_, hnew, fun u hu hu' => hold _ ?_⟩
    · rw [if_neg (by omega), if_pos (copyBytes_ok_iff.2 hmapped)]
    -- two addresses of the stack page
    intro i hi heq
    rw [address, address, hphys i hi, phys_stack (by omega) hu'] at heq
    simp only [Option.getD_some, PGSIZE] at heq
    omega
  · exact .inr ⟨hroom, if_pos (by omega)⟩

end Push

/-! ### The arguments -/

/-- What the strings take of the page. -/
def argsRoom (argv : List (List Byte)) : ℕ := (argv.map fun arg => roundup16 (arg.length + 1)).sum

/-- A copy of a string on the stack. -/
def Copied (I : Image) (mem : ℕ → Byte) (lo ptr : ℕ) (arg : List Byte) : Prop :=
  lo ≤ ptr ∧ ptr + (arg.length + 1) ≤ I.sz ∧ Holds (I.user mem) ptr (arg ++ [0])

section Args

variable {I : Image} {argv : List (List Byte)} {sp : ℕ} {mem : ℕ → Byte}

lemma Copied.keep {mem' : ℕ → Byte} {lo lo' ptr : ℕ} {arg : List Byte} (h : Copied I mem lo ptr arg)
    (hlo : lo' ≤ lo) (hsame : ∀ u, lo ≤ u → u < I.sz → I.user mem' u = I.user mem u) :
    Copied I mem' lo' ptr arg := by
  obtain ⟨hptr, hend, hholds⟩ := h
  refine ⟨hlo.trans hptr, hend, hholds.congr fun u hu hu' => hsame u (by omega) ?_⟩
  rw [length_append, length_singleton] at hu'
  omega

/-- All the strings are on the stack, or they do not fit.  The induction is on the arguments that
are left: they go below `sp`, so that the strings above stay. -/
lemma pushArgs_cases (ustack : List ℕ) (mem : ℕ → Byte) (hlo : I.stackbase ≤ sp) (hhi : sp ≤ I.sz)
    (hal : sp % 16 = 0) (hargs : ustack.length + argv.length < MAXARG)
    (hlen : ∀ arg ∈ argv, arg.length < PGSIZE) :
    (argsRoom argv ≤ sp - I.stackbase ∧ ∃ ptrs mem',
      pushArgs I argv sp ustack mem = some (sp - argsRoom argv, ustack ++ ptrs, mem') ∧
      Forall₂ (Copied I mem' (sp - argsRoom argv)) ptrs argv ∧
      ∀ u, sp ≤ u → u < I.sz → I.user mem' u = I.user mem u) ∨
    sp - I.stackbase < argsRoom argv ∧ pushArgs I argv sp ustack mem = none := by
  induction argv generalizing sp ustack mem with
  | nil =>
    refine .inl ⟨Nat.zero_le _, [], mem, ?_, .nil, fun _ _ _ => rfl⟩
    rw [append_nil]
    rfl
  | cons arg argv ih =>
    have hsum : argsRoom (arg :: argv) = roundup16 (arg.length + 1) + argsRoom argv := by
      rw [argsRoom, map_cons, sum_cons, argsRoom]
    have hbytes : (arg ++ [0]).length = arg.length + 1 := by
      rw [length_append, length_singleton]
    have hone : (arg ++ [0]).length ≤ PGSIZE :=
      hbytes.trans_le (Nat.succ_le_of_lt (hlen arg (by simp)))
    have hpush := push_cases hlo hhi hal hone mem
    rw [hbytes] at hpush
    rw [length_cons] at hargs
    rw [pushArgs, if_neg (by omega)]
    rcases hpush with ⟨hfit, mem1, hpush, hholds, hsame1⟩ | ⟨hfit, hpush⟩
    · rw [hpush, Option.bind_eq_bind, Option.bind_some]
      dsimp only
      have hle := le_roundup16 (arg.length + 1)
      set sp' := sp - roundup16 (arg.length + 1) with hsp
      have hsub : sp - argsRoom (arg :: argv) = sp' - argsRoom argv := by omega
      rcases ih (ustack ++ [sp']) mem1 (show I.stackbase ≤ sp' by omega) (by omega) (by omega)
          (by rw [length_append, length_singleton]; omega)
          (fun x hx => hlen x (by simp [hx])) with
        ⟨hroom, ptrs, mem', hrest, hcopied, hsame⟩ | ⟨hroom, hrest⟩
      · refine .inl ⟨by omega, sp' :: ptrs, mem', ?_, hsub ▸ .cons ?_ hcopied, fun u hu hu' => ?_⟩
        · rw [hrest, append_assoc, singleton_append, hsub]
        · have hnew : Copied I mem1 sp' sp' arg := ⟨le_rfl, by omega, hholds⟩
          exact hnew.keep (Nat.sub_le ..) hsame
        · rw [hsame u (by omega) hu', hsame1 u hu hu']
      · exact .inr ⟨by omega, hrest⟩
    · rw [hpush]
      exact .inr ⟨by omega, rfl⟩

end Args

/-! ### The new program -/

/-- The arguments as the new program finds them. -/
structure Passed (I : Image) (u : User) (mem : ℕ → Byte) (argv : List (List Byte)) : Prop where
  image : u.pagetable = I.pagetable ∧ u.sz = I.sz
  argc : u.a0 = argv.length
  sp : u.a1 = u.sp
  aligned : u.a1 % 16 = 0
  /-- the array is in the stack page, and the page below is the guard -/
  stack : I.stackbase ≤ u.a1 ∧ u.a1 + 8 * (argv.length + 1) ≤ I.sz
  guard : walkaddr I.pagetable (I.stackbase - PGSIZE) = 0
  strings : ∃ ptrs, readWords (I.user mem) (argv.length + 1) u.a1 = ptrs ++ [0] ∧
    Forall₂ (Copied I mem I.stackbase) ptrs argv

lemma walkaddr_guard (I : Image) : walkaddr I.pagetable (I.stackbase - PGSIZE) = 0 := by
  rw [stackbase_eq, show I.pages * 4096 + 4096 - PGSIZE = I.pages * PGSIZE by simp [PGSIZE],
    walkaddr,
    Nat.mul_div_cancel _ (by decide), Image.pagetable, Function.update_of_ne (by omega),
    Function.update_self]
  exact ite_self _

lemma argsRoom_mod (argv : List (List Byte)) : argsRoom argv % 16 = 0 := by
  refine Nat.mod_eq_zero_of_dvd (dvd_sum fun x hx => ?_)
  obtain ⟨arg, -, rfl⟩ := mem_map.1 hx
  exact Nat.dvd_mul_left ..

lemma exec_cases (I : Image) {argv : List (List Byte)} (hargs : argv.length ≤ MAXARG - 1)
    (hlen : ∀ arg ∈ argv, arg.length < PGSIZE) (mem : ℕ → Byte) :
    (argsRoom argv + roundup16 (8 * (argv.length + 1)) ≤ PGSIZE ∧
      ∃ u mem', exec (some I) argv mem = some (u, mem') ∧
        u.a1 = I.sz - (argsRoom argv + roundup16 (8 * (argv.length + 1))) ∧ Passed I u mem' argv) ∨
    PGSIZE < argsRoom argv + roundup16 (8 * (argv.length + 1)) ∧ exec (some I) argv mem = none := by
  have hsz := sz_eq I
  have hbase := stackbase_eq I
  have hmax := sz_le I
  have hmod := argsRoom_mod argv
  have hround := le_roundup16 (8 * (argv.length + 1))
  simp only [MAXARG] at hargs
  simp only [PGSIZE, exec, Option.bind_eq_bind, Option.bind_some]
  rcases pushArgs_cases [] mem (show I.stackbase ≤ I.sz by omega) le_rfl (by omega)
      (by simp only [MAXARG, length_nil]; omega) hlen with
    ⟨hroom, ptrs, mem1, hpush, hcopied, -⟩ | ⟨hroom, hpush⟩
  · have hptrs := hcopied.length_eq
    have hbytes : ((ptrs ++ [0]).flatMap word).length = 8 * (argv.length + 1) := by
      rw [length_flatMap_word, length_append, length_singleton, hptrs]
    have harray := push_cases (show I.stackbase ≤ I.sz - argsRoom argv by omega) (by omega)
      (by omega) (show ((ptrs ++ [0]).flatMap word).length ≤ PGSIZE by
        rw [hbytes]
        simp only [PGSIZE]
        omega) mem1
    rw [hbytes] at harray
    rw [hpush, nil_append, Option.bind_some]
    -- the array is below the strings, which it leaves
    rcases harray with ⟨hfit, mem', harray, hholds, hsame⟩ | ⟨hfit, harray⟩
    · rw [harray, Option.bind_some]
      have hlt := ((forall₂_and_left _ _).1
        (hcopied.imp fun ptr arg h => ⟨show ptr < 2 ^ 64 by have := h.2.1; omega, h⟩)).1
      have hread := readWords_eq hholds (forall_mem_append.2 ⟨hlt, by simp⟩)
      rw [length_append, length_singleton, hptrs] at hread
      refine .inl ⟨by omega, _, mem', rfl, Nat.sub_sub .., ?_⟩
      exact
        { image := ⟨rfl, rfl⟩, argc := hptrs, sp := rfl, aligned := by dsimp only; omega
          stack := by dsimp only; omega
          guard := walkaddr_guard I
          strings := ⟨ptrs, hread, hcopied.imp fun ptr arg h => h.keep (by omega) hsame⟩ }
    · exact .inr ⟨by omega, by rw [harray]; rfl⟩
  · rw [hpush]
    exact .inr ⟨by omega, rfl⟩

/-- The program gets its arguments, and `exec` succeeds exactly if they fit in the page. -/
theorem exec_passes {argv : List (List Byte)} (hargs : argv.length ≤ MAXARG - 1)
    (hlen : ∀ arg ∈ argv, arg.length < PGSIZE) (mem : ℕ → Byte) :
    (∀ loaded u mem', exec loaded argv mem = some (u, mem') →
      ∃ I, loaded = some I ∧ Passed I u mem' argv) ∧
    ∀ I, (exec (some I) argv mem).isSome ↔
      argsRoom argv + roundup16 (8 * (argv.length + 1)) ≤ PGSIZE := by
  refine ⟨fun loaded u mem' h => ?_, fun I => ?_⟩
  · rcases loaded with _ | I
    · cases h
    rcases exec_cases I hargs hlen mem with ⟨-, u', mem'', heq, -, hpassed⟩ | ⟨-, heq⟩
    · rw [heq] at h
      cases h
      exact ⟨I, rfl, hpassed⟩
    · rw [heq] at h
      cases h
  rcases exec_cases I hargs hlen mem with ⟨hfit, u', mem'', heq, -⟩ | ⟨hfit, heq⟩
  · simp [heq, hfit]
  · simp [heq, hfit]

/-- One page of code, and two arguments. -/
def echo : Image where
  segments := fun _ => none
  pages := 1
  stack := 5
  stack_ne := by decide
  below := by norm_num [PGSIZE, MAXVA]

theorem exec_passes_echo :
    (exec (some echo) [[101, 99, 104, 111], [104, 105]] fun _ => 0).isSome := by
  refine ((exec_passes ?_ ?_ _).2 echo).2 ?_
  · decide
  · simp [PGSIZE]
  · simp [argsRoom, roundup16, PGSIZE]

end Hexv6.Vm
