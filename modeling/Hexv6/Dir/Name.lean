import Hexv6.Param

/-!
# Names in directories

The functions of `string.c` and `fs.c` that handle the names of directory entries.  A name is
in `DIRSIZ` bytes; one of exactly that length has no terminator, and a longer path element is
cut by `skipelem`.  A pointer to a string is the sequence of the bytes from there on, so that
what lies behind the terminator, or behind the `DIRSIZ` bytes of a buffer, is arbitrary.

`strncpy` writes the truncated name padded with zeros, and this is what a name stands for: two
names are equal for `strncmp` exactly if `strncpy` writes the same bytes for them
(`strncmp_eq_zero_iff`), and what `skipelem` leaves in its buffer stands for the path element
cut to `DIRSIZ` bytes, whatever was in the buffer before (`key_skipelem`).
-/

namespace Hexv6.Dir

open List

/-- The bytes from a pointer on. -/
abbrev Str := ℕ → UInt8

/-- The pointer to the next byte. -/
def Str.tail (s : Str) : Str := fun i => s (i + 1)

/-! ### `string.c` -/

def strncmp (p q : Str) : ℕ → ℤ
  | 0 => 0
  | n + 1 => if p 0 ≠ 0 ∧ p 0 = q 0 then strncmp p.tail q.tail n
      else (p 0).toNat - (q 0).toNat

/-- The `n` bytes that `strncpy(s, t, n)` writes. -/
def strncpy (t : Str) : ℕ → List UInt8
  | 0 => []
  | n + 1 => if t 0 ≠ 0 then t 0 :: strncpy t.tail n else 0 :: replicate n 0

/-- `memmove` of `n` bytes to a buffer. -/
def memmove (dst : Str) (src : List UInt8) (n : ℕ) : Str :=
  fun i => if i < n then src.getD i 0 else dst i

/-! ### `fs.c` -/

def namecmp (s t : Str) : ℤ := strncmp s t DIRSIZ

/-- The byte `/`. -/
def slash : UInt8 := 47

/-- `skipelem`: the rest of the path and the buffer for the name, or `none` at the end of the
path.  The path has the bytes before its terminator. -/
def skipelem (path : List UInt8) (name : Str) : Option (List UInt8 × Str) :=
  let path := path.dropWhile (· = slash)
  if path = [] then none
  else
    let s := path.takeWhile (· ≠ slash)
    let len := s.length
    let name :=
      if DIRSIZ ≤ len then memmove name s DIRSIZ
      else Function.update (memmove name s len) len 0
    some ((path.dropWhile (· ≠ slash)).dropWhile (· = slash), name)

/-! ### What a name stands for -/

/-- The name that a string stands for: its first `DIRSIZ` bytes, padded with zeros. -/
def key (s : Str) : List UInt8 := strncpy s DIRSIZ

lemma replicate_eq_strncpy_iff {q : Str} {n : ℕ} :
    (0 :: replicate n 0 = strncpy q (n + 1)) ↔ q 0 = 0 := by
  rw [strncpy]
  constructor
  · intro h
    by_contra hq
    rw [if_pos hq] at h
    exact hq (head_eq_of_cons_eq h).symm
  · intro hq
    rw [if_neg (not_not.mpr hq)]

/-- `strncmp` compares what `strncpy` would write. -/
lemma strncmp_eq_zero_iff {p q : Str} {n : ℕ} : strncmp p q n = 0 ↔ strncpy p n = strncpy q n := by
  induction n generalizing p q with
  | zero => simp [strncmp, strncpy]
  | succ n ih =>
    rw [strncmp]
    by_cases hp : p 0 = 0
    · -- the first string ends here
      have hcopy : strncpy p (n + 1) = 0 :: replicate n 0 := by
        rw [strncpy, if_neg (not_not.mpr hp)]
      rw [if_neg (fun h => h.1 hp), hcopy, replicate_eq_strncpy_iff, hp]
      constructor
      · intro h
        refine UInt8.toNat_inj.mp ?_
        simp only [UInt8.toNat_zero] at h ⊢
        omega
      intro h
      rw [h]
      simp
    · have hcopy : strncpy p (n + 1) = p 0 :: strncpy p.tail n := by rw [strncpy, if_pos hp]
      rw [hcopy]
      by_cases hq : p 0 = q 0
      · rw [if_pos ⟨hp, hq⟩, ih, strncpy, if_pos (hq ▸ hp), ← hq, cons_inj_right]
      rw [if_neg (fun h => hq h.2)]
      constructor
      · intro h
        refine absurd (UInt8.toNat_inj.mp ?_) hq
        omega
      intro h
      -- the first bytes differ
      rw [strncpy] at h
      split_ifs at h with hq'
      · exact absurd (head_eq_of_cons_eq h) hq
      · exact absurd (head_eq_of_cons_eq h) hp

lemma namecmp_eq_zero_iff {s t : Str} : namecmp s t = 0 ↔ key s = key t := strncmp_eq_zero_iff

lemma length_strncpy (t : Str) (n : ℕ) : (strncpy t n).length = n := by
  induction n generalizing t with
  | zero => rfl
  | succ n ih =>
    rw [strncpy]
    split_ifs
    · rw [length_cons, ih]
    · rw [length_cons, length_replicate]

/-- The bytes of a stored name, read from its first byte on. -/
def str (bytes : List UInt8) : Str := fun i => bytes.getD i 0

/-- What `strncpy` has written stands for the same name, wherever the bytes are stored. -/
lemma strncpy_strncpy {t s : Str} {n : ℕ} (hs : ∀ i < n, s i = (strncpy t n).getD i 0) :
    strncpy s n = strncpy t n := by
  induction n generalizing t s with
  | zero => rfl
  | succ n ih =>
    have h0 := hs 0 (Nat.succ_pos n)
    by_cases ht : t 0 = 0
    · have hcopy : strncpy t (n + 1) = 0 :: replicate n 0 := by
        rw [strncpy, if_neg (not_not.mpr ht)]
      rw [hcopy] at h0 ⊢
      exact (replicate_eq_strncpy_iff.mpr h0).symm
    have hcopy : strncpy t (n + 1) = t 0 :: strncpy t.tail n := by rw [strncpy, if_pos ht]
    rw [hcopy] at h0 hs ⊢
    simp only [getD_cons_zero] at h0
    rw [strncpy, if_pos (h0 ▸ ht), h0, ih fun i hi => ?_]
    simpa [Str.tail] using hs (i + 1) (Nat.succ_lt_succ hi)

lemma key_str_strncpy (t : Str) : key (str (strncpy t DIRSIZ)) = key t :=
  strncpy_strncpy fun _ _ => rfl

/-- A path element cut to `DIRSIZ` bytes and padded. -/
def truncate (elem : List UInt8) : List UInt8 :=
  elem.take DIRSIZ ++ replicate (DIRSIZ - elem.length) 0

lemma strncpy_elem {s : Str} {elem : List UInt8} {n : ℕ} (hne : ∀ c ∈ elem, c ≠ 0)
    (hs : ∀ i < elem.length, i < n → s i = elem.getD i 0)
    (hend : elem.length < n → s elem.length = 0) :
    strncpy s n = elem.take n ++ replicate (n - elem.length) 0 := by
  induction n generalizing s elem with
  | zero => simp [strncpy]
  | succ n ih =>
    cases elem with
    | nil =>
      have h0 : s 0 = 0 := hend (Nat.succ_pos n)
      rw [strncpy, if_neg (not_not.mpr h0)]
      simp [replicate_succ]
    | cons c elem =>
      have h0 : s 0 = c := by simpa using hs 0 (by simp) (Nat.succ_pos n)
      have hc : c ≠ 0 := hne c (by simp)
      have htail : strncpy s.tail n = elem.take n ++ replicate (n - elem.length) 0 := by
        refine ih (fun d hd => hne d (by simp [hd])) (fun i hi hn => ?_) (fun hlt => ?_)
        · simpa [Str.tail] using hs (i + 1) (by simpa using hi) (Nat.succ_lt_succ hn)
        · simpa [Str.tail] using hend (by simpa using hlt)
      rw [strncpy, if_pos (h0 ▸ hc), h0, htail]
      simp

/-- The element of the path that `skipelem` takes. -/
def firstElem (path : List UInt8) : List UInt8 :=
  (path.dropWhile (· = slash)).takeWhile (· ≠ slash)

/-- What is left in the buffer stands for the path element, cut to `DIRSIZ` bytes. -/
lemma key_skipelem {path rest : List UInt8} {buf name : Str} (hpath : ∀ c ∈ path, c ≠ 0)
    (h : skipelem path buf = some (rest, name)) : key name = truncate (firstElem path) := by
  have hne : ∀ c ∈ firstElem path, c ≠ 0 := fun c hc =>
    hpath c ((dropWhile_suffix _).subset ((List.takeWhile_prefix _).subset hc))
  simp only [skipelem] at h
  split_ifs at h with hend hlen
  · -- the element fills the buffer
    cases h
    refine strncpy_elem hne (fun i _ hi => ?_) (fun hlt => ?_)
    · exact if_pos hi
    · exact absurd hlt (not_lt.mpr hlen)
  cases h
  refine strncpy_elem hne (fun i hi _ => ?_) (fun _ => Function.update_self ..)
  exact (Function.update_of_ne (Nat.ne_of_lt hi) ..).trans (if_pos hi)

end Hexv6.Dir
