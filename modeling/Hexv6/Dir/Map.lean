import Mathlib.Data.List.TakeWhile
import Hexv6.Dir.Name
import Hexv6.Lib.Assoc
import Hexv6.Lib.Transition

/-!
# A directory as a finite map

Processes that look up, link and unlink names in one directory.  They do so with the lock of
its inode held: `create` and `sys_link` from `dirlookup` to the end of `dirlink`, `sys_unlink`
from `dirlookup` to the `writei` that clears the entry.  Names come out of `skipelem`, or are
the `.` and `..` of `create`.

The directory is a file of `struct dirent`s of 16 bytes, the ones with `inum` 0 being free.
It stands for the map `bindings`, from names of `DIRSIZ` bytes to inode numbers; what the
functions do to the map is `Outcome`.
-/

namespace Hexv6.Dir

open Lib List Function

/-! ### The entries -/

/-- `struct dirent`: a 16-bit inode number and the bytes of the name. -/
structure Dirent where
  inum : ℕ
  name : List UInt8
  deriving DecidableEq

inductive Error
  | disabled
  /-- the panic of `dirlink` -/
  | dirlink
  /-- the panic of `sys_unlink` -/
  | unlinkWritei
  /-- the panic of `balloc` -/
  | outOfBlocks
  deriving DecidableEq

/-- The loop of `dirlookup`, from the entry at `off` on: the offset and inode number found. -/
def dirlookupFrom (name : Str) : ℕ → List Dirent → Option (ℕ × ℕ)
  | _, [] => none
  | off, de :: rest =>
    if de.inum = 0 then dirlookupFrom name (off + direntSize) rest
    else if namecmp name (str de.name) = 0 then some (off, de.inum)
    else dirlookupFrom name (off + direntSize) rest

def dirlookup (dir : List Dirent) (name : Str) : Option (ℕ × ℕ) := dirlookupFrom name 0 dir

/-- The loop of `dirlink` that looks for an empty entry. -/
def emptyFrom : ℕ → List Dirent → ℕ
  | off, [] => off
  | off, de :: rest => if de.inum = 0 then off else emptyFrom (off + direntSize) rest

/-- `writei` of one entry at the offset of an entry or at the end.  `blocks` says whether the
disk has a free block when the file needs a new one. -/
def writeEntry (blocks : Bool) (dir : List Dirent) (off : ℕ) (de : Dirent) :
    Except Error (Option (List Dirent)) :=
  if dir.length * direntSize < off then .ok none
  else if MAXFILE * BSIZE < off + direntSize then .ok none
  else if off < dir.length * direntSize then .ok (some (dir.set (off / direntSize) de))
  else if off % BSIZE = 0 ∧ blocks = false then .error .outOfBlocks
  else .ok (some (dir ++ [de]))

/-- `dirlink`: the new contents, or `none` for the result -1. -/
def dirlink (blocks : Bool) (dir : List Dirent) (name : Str) (inum : ℕ) :
    Except Error (Option (List Dirent)) :=
  match dirlookup dir name with
  | some _ => .ok none
  | none => do
    let off := emptyFrom 0 dir
    let de : Dirent := ⟨inum % 65536, strncpy name DIRSIZ⟩
    match ← writeEntry blocks dir off de with
    | some dir => .ok (some dir)
    | none => .error .dirlink

/-! ### Processes -/

/-- Where a name comes from. -/
inductive Source
  /-- `skipelem`, with what was in the buffer before -/
  | elem (path : List UInt8) (buf : Str)
  /-- the strings of `create` -/
  | dot
  | dotdot

/-- The string `.` or `..`. -/
def dots (n : ℕ) : Str := fun i => if i < n then 46 else 0

/-- The name, if the path has a last element. -/
def Source.name : Source → Option Str
  | .elem path buf => if path.all (· ≠ 0) then (skipelem path buf).map Prod.snd else none
  | .dot => some (dots 1)
  | .dotdot => some (dots 2)

/-- What a function has returned to a process that holds the lock. -/
inductive Result
  | found (inum : ℕ)
  | absent
  | linked
  | exists
  | refused
  | removed
  deriving DecidableEq

inductive Phase
  | out
  /-- with the lock of the directory -/
  | locked (r : Option Result)
  /-- in `sys_unlink`, behind `dirlookup(dp, name, &off)` -/
  | unlinking (off : ℕ) (name : Str)

structure State (P : Type) where
  lock : Option P
  dir : List Dirent
  phase : P → Phase

inductive Action (P : Type)
  | ilock (p : P)
  | iunlock (p : P)
  | lookup (p : P) (name : Source)
  | link (p : P) (name : Source) (inum : ℕ) (blocks : Bool)
  /-- the first half of `sys_unlink` -/
  | search (p : P) (name : Source)
  /-- `sys_unlink` gives up at a directory that is not empty -/
  | refuse (p : P)
  /-- the second half of `sys_unlink` -/
  | clear (p : P)

section System

variable {P : Type} [DecidableEq P]

def State.goto (s : State P) (p : P) (x : Phase) : State P :=
  { s with phase := update s.phase p x }

/-- What a process that holds the lock, and is not in `sys_unlink`, does with a name. -/
def State.call (s : State P) (p : P) (src : Source)
    (k : Str → Except Error (State P)) : Except Error (State P) :=
  match s.phase p, src.name with
  | .locked _, some name => if s.lock = some p then k name else .error .disabled
  | _, _ => .error .disabled

/-- One step of a process.  `ninodes` is the number of inodes of the file system. -/
def step (ninodes : ℕ) (s : State P) : Action P → Except Error (State P)
  | .ilock p =>
    match s.phase p with
    | .out =>
      if s.lock = none then .ok { s.goto p (.locked none) with lock := some p }
      else .error .disabled
    | _ => .error .disabled
  | .iunlock p =>
    match s.phase p with
    | .locked _ =>
      if s.lock = some p then .ok { s.goto p .out with lock := none } else .error .disabled
    | _ => .error .disabled
  | .lookup p src => s.call p src fun name =>
    match dirlookup s.dir name with
    | some (_, inum) => .ok (s.goto p (.locked (some (.found inum))))
    | none => .ok (s.goto p (.locked (some .absent)))
  | .link p src inum blocks => s.call p src fun name =>
    if inum ≠ 0 ∧ inum < ninodes then do
      match ← dirlink blocks s.dir name inum with
      | some dir => .ok { s.goto p (.locked (some .linked)) with dir }
      | none => .ok (s.goto p (.locked (some .exists)))
    else .error .disabled
  | .search p src => s.call p src fun name =>
    if namecmp name (dots 1) = 0 ∨ namecmp name (dots 2) = 0 then
      .ok (s.goto p (.locked (some .refused)))
    else match dirlookup s.dir name with
      | some (off, _) => .ok (s.goto p (.unlinking off name))
      | none => .ok (s.goto p (.locked (some .absent)))
  | .refuse p =>
    match s.phase p with
    | .unlinking _ _ => .ok (s.goto p (.locked (some .refused)))
    | _ => .error .disabled
  | .clear p =>
    match s.phase p with
    | .unlinking off _ => do
      match ← writeEntry true s.dir off ⟨0, replicate DIRSIZ 0⟩ with
      | some dir => .ok { s.goto p (.locked (some .removed)) with dir }
      | none => .error .unlinkWritei
    | _ => .error .disabled

/-- The state with a directory that nobody has locked. -/
def boot (dir : List Dirent) : State P := { lock := none, dir, phase := fun _ => .out }

end System

/-! ### The map -/

/-- The name in an entry that is in use. -/
def Dirent.key (de : Dirent) : Option (List UInt8) :=
  if de.inum = 0 then none else some (Dir.key (str de.name))

/-- The map that a directory stands for. -/
def bindings (dir : List Dirent) : List UInt8 → Option ℕ := assoc Dirent.key Dirent.inum dir

/-- No two entries in use have the same name. -/
def Unique (dir : List Dirent) : Prop := Distinct Dirent.key dir

variable {de : Dirent}

lemma Dirent.key_eq_none : de.key = none ↔ de.inum = 0 := by simp [Dirent.key]

lemma Dirent.key_eq_some {k : List UInt8} :
    de.key = some k ↔ de.inum ≠ 0 ∧ Dir.key (str de.name) = k := by
  rw [Dirent.key]
  split_ifs with h <;> simp [h]

variable {dir dir' : List Dirent} {name : Str} {off inum : ℕ} {blocks : Bool}

/-! ### The functions on the map -/

lemma dirlookupFrom_eq_none (h : dirlookupFrom name off dir = none) :
    ∀ de ∈ dir, de.key ≠ some (key name) := by
  induction dir generalizing off with
  | nil => simp
  | cons e rest ih =>
    rw [dirlookupFrom] at h
    split_ifs at h with hfree hname
    · intro de hde
      rcases mem_cons.mp hde with rfl | hde
      · rw [Dirent.key_eq_none.mpr hfree]
        simp
      · exact ih h de hde
    intro de hde
    rcases mem_cons.mp hde with rfl | hde
    · intro hkey
      exact hname (namecmp_eq_zero_iff.mpr (Dirent.key_eq_some.mp hkey).2.symm)
    · exact ih h de hde

lemma dirlookupFrom_eq_some {o n : ℕ} (h : dirlookupFrom name off dir = some (o, n)) :
    ∃ (i : ℕ) (de : Dirent), dir[i]? = some de ∧ o = off + i * direntSize ∧
      de.key = some (key name) ∧ de.inum = n := by
  induction dir generalizing off with
  | nil => cases h
  | cons e rest ih =>
    -- an entry that is passed moves the offset by one entry
    have hskip : dirlookupFrom name (off + direntSize) rest = some (o, n) →
        ∃ (i : ℕ) (de : Dirent), (e :: rest)[i]? = some de ∧ o = off + i * direntSize ∧
          de.key = some (key name) ∧ de.inum = n := by
      intro hrest
      obtain ⟨i, de, hde, ho, hkey, hn⟩ := ih hrest
      exact ⟨i + 1, de, by simpa using hde, by rw [ho]; ring, hkey, hn⟩
    rw [dirlookupFrom] at h
    split_ifs at h with hfree hname
    · exact hskip h
    · cases h
      have hkey := (namecmp_eq_zero_iff.mp hname).symm
      exact ⟨0, e, rfl, by simp, Dirent.key_eq_some.mpr ⟨hfree, hkey⟩, rfl⟩
    · exact hskip h

/-- `dirlookup` returns the value of the map. -/
lemma dirlookup_eq (h : Unique dir) (name : Str) :
    (dirlookup dir name).map Prod.snd = bindings dir (key name) := by
  cases hl : dirlookup dir name with
  | none =>
    refine (assoc_eq_none_iff.mpr fun i de hde => ?_).symm
    exact dirlookupFrom_eq_none hl de (mem_of_getElem? hde)
  | some x =>
    obtain ⟨o, n⟩ := x
    obtain ⟨i, de, hde, -, hkey, rfl⟩ := dirlookupFrom_eq_some hl
    have hval : bindings dir (key name) = some de.inum :=
      h.assoc_eq_some_iff.mpr ⟨i, de, hde, hkey, rfl⟩
    rw [hval]
    rfl

/-- The empty entry that `dirlink` takes: the first free one, or the end. -/
lemma emptyFrom_cases (off : ℕ) (dir : List Dirent) :
    (∃ (i : ℕ) (de : Dirent), dir[i]? = some de ∧ de.inum = 0 ∧
      emptyFrom off dir = off + i * direntSize) ∨
      (∀ de ∈ dir, de.inum ≠ 0) ∧ emptyFrom off dir = off + dir.length * direntSize := by
  induction dir generalizing off with
  | nil => exact .inr ⟨by simp, by simp [emptyFrom]⟩
  | cons e rest ih =>
    rw [emptyFrom]
    split_ifs with hfree
    · exact .inl ⟨0, e, rfl, hfree, by simp⟩
    rcases ih (off + direntSize) with ⟨i, de, hde, hzero, heq⟩ | ⟨hall, heq⟩
    · exact .inl ⟨i + 1, de, by simpa using hde, hzero, by rw [heq]; ring⟩
    refine .inr ⟨?_, by rw [heq, length_cons]; ring⟩
    intro de hde
    rcases mem_cons.mp hde with rfl | hde
    · exact hfree
    · exact hall de hde

lemma emptyFrom_full (hall : ∀ de ∈ dir, de.inum ≠ 0) :
    emptyFrom 0 dir = dir.length * direntSize := by
  rcases emptyFrom_cases 0 dir with ⟨i, de, hde, hzero, -⟩ | ⟨-, heq⟩
  · exact absurd hzero (hall de (mem_of_getElem? hde))
  · rw [heq, Nat.zero_add]

/-- A directory within the bounds of a file. -/
def Sized (dir : List Dirent) : Prop := dir.length * direntSize ≤ MAXFILE * BSIZE

/-- A directory without a free entry and as large as a file can be. -/
def Full (dir : List Dirent) : Prop :=
  (∀ de ∈ dir, de.inum ≠ 0) ∧ dir.length * direntSize = MAXFILE * BSIZE

/-- A new entry needs another block. -/
def NeedsBlock (dir : List Dirent) : Prop :=
  (∀ de ∈ dir, de.inum ≠ 0) ∧ dir.length * direntSize % BSIZE = 0

variable {i : ℕ}

lemma writeEntry_set {de new : Dirent} (hs : Sized dir) (hi : dir[i]? = some de) :
    writeEntry blocks dir (i * direntSize) new = .ok (some (dir.set i new)) := by
  obtain ⟨hlt, -⟩ := List.getElem?_eq_some_iff.mp hi
  have hsize : direntSize = 16 := rfl
  rw [Sized, hsize] at hs
  rw [writeEntry, hsize, if_neg (by omega), if_neg (by omega), if_pos (by omega),
    Nat.mul_div_cancel i (by decide)]

lemma writeEntry_end {new : Dirent} (hs : (dir.length + 1) * direntSize ≤ MAXFILE * BSIZE)
    (hb : dir.length * direntSize % BSIZE = 0 → blocks = true) :
    writeEntry blocks dir (dir.length * direntSize) new = .ok (some (dir ++ [new])) := by
  have hblocks : ¬ (dir.length * direntSize % BSIZE = 0 ∧ blocks = false) := by
    rintro ⟨hmod, hfalse⟩
    rw [hb hmod] at hfalse
    cases hfalse
  rw [writeEntry, if_neg (lt_irrefl _), if_neg (by rw [Nat.add_mul, one_mul] at hs; omega),
    if_neg (lt_irrefl _), if_neg hblocks]

section

variable (h : Unique dir)
include h

lemma dirlink_present (hp : bindings dir (key name) ≠ none) :
    dirlink blocks dir name inum = .ok none := by
  rw [← dirlookup_eq h] at hp
  cases hl : dirlookup dir name with
  | none =>
    rw [hl] at hp
    exact absurd rfl hp
  | some x => rw [dirlink, hl]

lemma dirlookup_eq_none (hp : bindings dir (key name) = none) :
    dirlookup dir name = none := by
  rw [← dirlookup_eq h] at hp
  exact Option.map_eq_none_iff.mp hp

lemma dirlink_full (hf : Full dir) (hp : bindings dir (key name) = none) :
    dirlink blocks dir name inum = .error .dirlink := by
  obtain ⟨hall, hsize⟩ := hf
  have hwrite : ∀ de, writeEntry blocks dir (dir.length * direntSize) de = .ok none := by
    intro de
    rw [writeEntry, if_neg (lt_irrefl _), if_pos]
    rw [hsize]
    decide
  rw [dirlink, dirlookup_eq_none h hp]
  simp only [emptyFrom_full hall, hwrite]
  rfl

/-- What `dirlink` does to the entries: one that was free, or is new, gets the name. -/
structure Linked (dir dir' : List Dirent) (name : Str) (inum : ℕ) : Prop where
  slot : ∃ i new, Replaces dir dir' i new ∧ (∀ y, dir[i]? = some y → y.inum = 0) ∧
    (i < dir.length ∨ i = dir.length ∧ ∀ de ∈ dir, de.inum ≠ 0) ∧
    new = ⟨inum, strncpy name DIRSIZ⟩
  sized : Sized dir'

/-- Without a free entry the directory grows. -/
lemma dirlink_append (hall : ∀ de ∈ dir, de.inum ≠ 0)
    (hroom : (dir.length + 1) * direntSize ≤ MAXFILE * BSIZE)
    (hb : dir.length * direntSize % BSIZE = 0 → blocks = true)
    (hp : bindings dir (key name) = none) :
    dirlink blocks dir name inum = .ok (some (dir ++ [⟨inum % 65536, strncpy name DIRSIZ⟩])) := by
  rw [dirlink, dirlookup_eq_none h hp]
  simp only [emptyFrom_full hall, writeEntry_end hroom hb]
  rfl

lemma dirlink_absent (hs : Sized dir) (hf : ¬ Full dir)
    (hb : NeedsBlock dir → blocks = true) (hi : inum < 65536)
    (hp : bindings dir (key name) = none) :
    ∃ dir', dirlink blocks dir name inum = .ok (some dir') ∧ Linked dir dir' name inum := by
  have hmod : inum % 65536 = inum := Nat.mod_eq_of_lt hi
  rcases emptyFrom_cases 0 dir with ⟨i, de, hde, hzero, heq⟩ | ⟨hall, -⟩
  · -- a free entry is used again
    rw [Nat.zero_add] at heq
    rw [dirlink, dirlookup_eq_none h hp, hmod]
    refine ⟨_, by simp only [heq, writeEntry_set hs hde]; rfl, ?_, ?_⟩
    · refine ⟨i, _, replaces_set hde, fun y hy => ?_, .inl (List.getElem?_eq_some_iff.mp hde).1,
        rfl⟩
      obtain rfl := Option.mem_unique hy hde
      exact hzero
    · rw [Sized, List.length_set]
      exact hs
  · have hroom : (dir.length + 1) * direntSize ≤ MAXFILE * BSIZE := by
      have hne : dir.length * direntSize ≠ MAXFILE * BSIZE := fun hsize => hf ⟨hall, hsize⟩
      simp only [Sized, direntSize, DIRSIZ, MAXFILE, NDIRECT, NINDIRECT, BSIZE] at hs hne ⊢
      omega
    refine ⟨_, dirlink_append h hall hroom (fun hz => hb ⟨hall, hz⟩) hp, ?_, ?_⟩
    · refine ⟨dir.length, _, replaces_concat, fun y hy => ?_, .inr ⟨rfl, hall⟩, by rw [hmod]⟩
      rw [getElem?_eq_none le_rfl] at hy
      cases hy
    · rw [Sized, length_append]
      exact hroom

lemma dirlink_noBlock (hs : Sized dir) (hf : ¬ Full dir) (hb : NeedsBlock dir)
    (hp : bindings dir (key name) = none) :
    dirlink false dir name inum = .error .outOfBlocks := by
  obtain ⟨hall, hmod⟩ := hb
  have hroom : ¬ MAXFILE * BSIZE < dir.length * direntSize + direntSize := by
    have hne : dir.length * direntSize ≠ MAXFILE * BSIZE := fun hsize => hf ⟨hall, hsize⟩
    simp only [Sized, direntSize, DIRSIZ, MAXFILE, NDIRECT, NINDIRECT, BSIZE] at hs hne ⊢
    omega
  have hwrite : ∀ de, writeEntry false dir (dir.length * direntSize) de = .error .outOfBlocks := by
    intro de
    rw [writeEntry, if_neg (lt_irrefl _), if_neg hroom, if_neg (lt_irrefl _), if_pos ⟨hmod, rfl⟩]
  rw [dirlink, dirlookup_eq_none h hp]
  simp only [emptyFrom_full hall, hwrite]
  rfl

/-- A `dirlink` that returns 0 has found no entry with the name. -/
lemma linked_of_dirlink (hs : Sized dir) (hi : inum < 65536)
    (hd : dirlink blocks dir name inum = .ok (some dir')) :
    bindings dir (key name) = none ∧ Linked dir dir' name inum := by
  by_cases hp : bindings dir (key name) = none
  · refine ⟨hp, ?_⟩
    by_cases hf : Full dir
    · rw [dirlink_full h hf hp] at hd
      cases hd
    by_cases hb : NeedsBlock dir → blocks = true
    · obtain ⟨d, hd', hlinked⟩ := dirlink_absent h hs hf hb hi hp
      cases hd'.symm.trans hd
      exact hlinked
    obtain ⟨hneeds, hblocks⟩ := Classical.not_imp.mp hb
    rw [Bool.not_eq_true] at hblocks
    subst hblocks
    rw [dirlink_noBlock h hs hf hneeds hp] at hd
    cases hd
  · rw [dirlink_present h hp] at hd
    cases hd

end

lemma key_new (hi : inum ≠ 0) : (⟨inum, strncpy name DIRSIZ⟩ : Dirent).key = some (key name) :=
  Dirent.key_eq_some.mpr ⟨hi, key_str_strncpy name⟩

lemma Linked.unique (hl : Linked dir dir' name inum) (h : Unique dir) (hi : inum ≠ 0)
    (hp : bindings dir (key name) = none) : Unique dir' := by
  obtain ⟨i, new, hr, -, -, rfl⟩ := hl.slot
  exact h.fill hr (key_new hi) hp

/-- `dirlink` adds exactly the new binding. -/
lemma Linked.bindings_eq (hl : Linked dir dir' name inum) (h : Unique dir) (hi : inum ≠ 0)
    (hp : bindings dir (key name) = none) :
    bindings dir' = update (bindings dir) (key name) (some inum) := by
  obtain ⟨i, new, hr, hold, -, rfl⟩ := hl.slot
  exact h.assoc_fill hr (key_new hi) (fun y hy => Dirent.key_eq_none.mpr (hold y hy)) hp

/-! ### Runs -/

section Runs

variable {P : Type} [DecidableEq P] {ninodes : ℕ} {s : State P} {p : P} {src : Source}

/-- The name that a source stands for: the path element cut to `DIRSIZ` bytes. -/
def Source.key : Source → List UInt8
  | .elem path _ => truncate (firstElem path)
  | .dot => truncate [46]
  | .dotdot => truncate [46, 46]

lemma Source.key_name (h : src.name = some name) : Dir.key name = src.key := by
  cases src with
  | dot =>
    cases h
    decide
  | dotdot =>
    cases h
    decide
  | elem path buf =>
    simp only [Source.name] at h
    split_ifs at h with hpath
    obtain ⟨⟨rest, name'⟩, hskip, rfl⟩ := Option.map_eq_some_iff.mp h
    refine key_skipelem (fun c hc => ?_) hskip
    simpa using all_eq_true.mp hpath c hc

/-- The directory in every state: whoever is in `sys_unlink` has the lock and the entry. -/
structure Inv (s : State P) : Prop where
  unique : Unique s.dir
  sized : Sized s.dir
  lock : ∀ p, s.phase p ≠ .out → s.lock = some p
  entry : ∀ p off name, s.phase p = .unlinking off name →
    ∃ (i : ℕ) (de : Dirent), s.dir[i]? = some de ∧ off = i * direntSize ∧
      de.key = some (Dir.key name)

/-- The process with the lock goes on, and the directory may change. -/
lemma Inv.goto {x : Phase} (hi : Inv s) (hp : s.lock = some p) (hu : Unique dir) (hs : Sized dir)
    (hx : ∀ off name, x = .unlinking off name → ∃ (i : ℕ) (de : Dirent), dir[i]? = some de ∧
      off = i * direntSize ∧ de.key = some (Dir.key name)) :
    Inv { s.goto p x with dir } := by
  -- nobody else has the lock
  have hother : ∀ q, q ≠ p → s.phase q = .out := by
    intro q hne
    by_contra hq
    exact hne (Option.some.inj ((hi.lock q hq).symm.trans hp))
  refine ⟨hu, hs, fun q hq => ?_, fun q off name hq => ?_⟩
  · rcases eq_or_ne q p with rfl | hne
    · exact hp
    · have hout : (s.goto p x).phase q = .out := (update_of_ne hne ..).trans (hother q hne)
      exact absurd hout hq
  rcases eq_or_ne q p with rfl | hne
  · have hself : (s.goto q x).phase q = x := update_self ..
    exact hx off name (hself.symm.trans hq)
  have hout : (s.goto p x).phase q = .out := (update_of_ne hne ..).trans (hother q hne)
  rw [hout] at hq
  cases hq

lemma call_eq {r : Option Result} {k : Str → Except Error (State P)} (hi : Inv s)
    (hp : s.phase p = .locked r) (hn : src.name = some name) : s.call p src k = k name := by
  have hlock := hi.lock p (by rw [hp]; simp)
  rw [State.call, hp, hn]
  exact if_pos hlock

lemma call_ok {k : Str → Except Error (State P)} {s' : State P} (h : s.call p src k = .ok s') :
    ∃ r name, s.phase p = .locked r ∧ src.name = some name ∧ k name = .ok s' := by
  rw [State.call] at h
  split at h
  case h_1 r name hp hn =>
    split_ifs at h
    exact ⟨r, name, hp, hn, h⟩
  case h_2 => cases h

/-- The entry that `sys_unlink` clears. -/
lemma clear_eq (ninodes : ℕ) (hi : Inv s) {off : ℕ} (hp : s.phase p = .unlinking off name) :
    ∃ (i : ℕ) (de : Dirent), off = i * direntSize ∧ s.dir[i]? = some de ∧
      de.key = some (Dir.key name) ∧ step ninodes s (.clear p) =
        .ok { s.goto p (.locked (some .removed)) with
          dir := s.dir.set i ⟨0, replicate DIRSIZ 0⟩ } := by
  obtain ⟨i, de, hde, rfl, hkey⟩ := hi.entry p off name hp
  refine ⟨i, de, rfl, hde, hkey, ?_⟩
  simp only [step, hp, writeEntry_set hi.sized hde]
  rfl

lemma Inv.step {a : Action P} {s' : State P} (hn : ninodes ≤ 65536) (hi : Inv s)
    (hs : step ninodes s a = .ok s') : Inv s' := by
  have hsame : ∀ {p : P} {r r' : Option Result}, s.phase p = .locked r →
      Inv (s.goto p (.locked r')) := fun hp =>
    hi.goto (hi.lock _ (by rw [hp]; simp)) hi.unique hi.sized fun _ _ hx => by cases hx
  cases a with simp only [Dir.step] at hs
  | ilock p =>
    split at hs
    case h_1 hp =>
      split_ifs at hs with hl
      cases hs
      have hout : ∀ q, s.phase q = .out := by
        intro q
        by_contra hq
        rw [hi.lock q hq] at hl
        cases hl
      refine ⟨hi.unique, hi.sized, fun q hq => ?_, fun q off name hq => ?_⟩
      · rcases eq_or_ne q p with rfl | hne
        · rfl
        · exact absurd ((update_of_ne hne ..).trans (hout q)) hq
      rcases eq_or_ne q p with rfl | hne
      · have hself : (s.goto q (.locked none)).phase q = .locked none := update_self ..
        cases hself.symm.trans hq
      · exact hi.entry q off name ((update_of_ne hne ..).symm.trans hq)
    case h_2 => cases hs
  | iunlock p =>
    split at hs
    case h_1 r hp =>
      split_ifs at hs with hl
      cases hs
      have hinv := hi.goto (x := .out) hl hi.unique hi.sized fun _ _ hx => by cases hx
      refine ⟨hinv.unique, hinv.sized, fun q hq => ?_, hinv.entry⟩
      -- only the process that leaves had the lock
      have hq' := hinv.lock q hq
      obtain rfl := Option.mem_unique hl hq'
      exact absurd (update_self ..) hq
    case h_2 => cases hs
  | lookup p src =>
    obtain ⟨r, name, hp, -, hk⟩ := call_ok hs
    split at hk <;> cases hk <;> exact hsame hp
  | link p src inum blocks =>
    obtain ⟨r, name, hp, -, hk⟩ := call_ok hs
    split_ifs at hk with hnum
    obtain ⟨res, hres, hk⟩ := bind_eq_ok.mp hk
    cases res with
    | none =>
      cases hk
      exact hsame hp
    | some dir' =>
      cases hk
      obtain ⟨hb, hlinked⟩ := linked_of_dirlink hi.unique hi.sized (by omega) hres
      exact hi.goto (hi.lock p (by rw [hp]; simp)) (hlinked.unique hi.unique hnum.1 hb)
        hlinked.sized fun _ _ hx => by cases hx
  | search p src =>
    obtain ⟨r, name, hp, -, hk⟩ := call_ok hs
    split_ifs at hk
    · cases hk
      exact hsame hp
    split at hk
    case h_1 off n hl =>
      cases hk
      refine hi.goto (hi.lock p (by rw [hp]; simp)) hi.unique hi.sized fun off' name' hx => ?_
      cases hx
      obtain ⟨i, de, hde, ho, hkey, -⟩ := dirlookupFrom_eq_some hl
      exact ⟨i, de, hde, by rw [ho, Nat.zero_add], hkey⟩
    case h_2 =>
      cases hk
      exact hsame hp
  | refuse p =>
    split at hs
    case h_1 off name hp =>
      cases hs
      exact hi.goto (hi.lock p (by rw [hp]; simp)) hi.unique hi.sized fun _ _ hx => by cases hx
    case h_2 => cases hs
  | clear p =>
    cases hp : s.phase p with
    | out => simp [hp] at hs
    | locked r => simp [hp] at hs
    | unlinking off name =>
      obtain ⟨i, de, -, hde, hkey, heq⟩ := clear_eq ninodes hi hp
      cases heq.symm.trans hs
      have hfree : (⟨0, replicate DIRSIZ 0⟩ : Dirent).key = none := Dirent.key_eq_none.mpr rfl
      refine hi.goto (hi.lock p (by rw [hp]; simp)) (hi.unique.clear (replaces_set hde) hfree) ?_
        fun _ _ hx => by cases hx
      rw [Sized, length_set]
      exact hi.sized

/-- What the functions do, in terms of the map. -/
structure Refines (ninodes : ℕ) (s : State P) : Prop where
  /-- no two entries in use have the same name -/
  unique : Unique s.dir
  lookup : ∀ p src name r, s.phase p = .locked r → src.name = some name →
    ∃ s', step ninodes s (.lookup p src) = .ok s' ∧ s'.dir = s.dir ∧ s'.phase p =
      .locked (some (match bindings s.dir src.key with
        | some inum => .found inum
        | none => .absent))
  /-- `dirlink` of a name that is present fails without a change -/
  present : ∀ p src name r inum blocks, s.phase p = .locked r → src.name = some name →
    inum ≠ 0 → inum < ninodes → bindings s.dir src.key ≠ none →
    ∃ s', step ninodes s (.link p src inum blocks) = .ok s' ∧ s'.dir = s.dir ∧
      s'.phase p = .locked (some .exists)
  /-- `dirlink` of another name adds the binding, in one entry that was free or is new -/
  absent : ∀ p src name r inum blocks, s.phase p = .locked r → src.name = some name →
    inum ≠ 0 → inum < ninodes → bindings s.dir src.key = none → ¬ Full s.dir →
    (NeedsBlock s.dir → blocks = true) →
    ∃ s' i, step ninodes s (.link p src inum blocks) = .ok s' ∧
      s'.phase p = .locked (some .linked) ∧
      bindings s'.dir = update (bindings s.dir) src.key (some inum) ∧
      (∀ j : ℕ, j ≠ i → s'.dir[j]? = s.dir[j]?) ∧ (∀ de, s.dir[i]? = some de → de.inum = 0) ∧
      (i < s.dir.length ∨ i = s.dir.length ∧ ∀ de ∈ s.dir, de.inum ≠ 0)
  /-- or panics, when the directory or the disk has no room for it -/
  full : ∀ p src name r inum blocks, s.phase p = .locked r → src.name = some name →
    inum ≠ 0 → inum < ninodes → bindings s.dir src.key = none → Full s.dir →
    step ninodes s (.link p src inum blocks) = .error .dirlink
  noBlock : ∀ p src name r inum, s.phase p = .locked r → src.name = some name →
    inum ≠ 0 → inum < ninodes → bindings s.dir src.key = none → ¬ Full s.dir → NeedsBlock s.dir →
    step ninodes s (.link p src inum false) = .error .outOfBlocks
  /-- `sys_unlink` finds the entry of a name that is present -/
  search : ∀ p src name r, s.phase p = .locked r → src.name = some name →
    ∃ s', step ninodes s (.search p src) = .ok s' ∧ s'.dir = s.dir ∧
      if src.key = truncate [46] ∨ src.key = truncate [46, 46] then
        s'.phase p = .locked (some .refused)
      else if bindings s.dir src.key = none then s'.phase p = .locked (some .absent)
      else ∃ off, s'.phase p = .unlinking off name
  /-- and removes exactly its binding, by clearing one entry -/
  clear : ∀ p off name, s.phase p = .unlinking off name → ∃ s' i,
    step ninodes s (.clear p) = .ok s' ∧ s'.phase p = .locked (some .removed) ∧
      bindings s.dir (Dir.key name) ≠ none ∧
      bindings s'.dir = update (bindings s.dir) (Dir.key name) none ∧
      (∀ j : ℕ, j ≠ i → s'.dir[j]? = s.dir[j]?) ∧ s'.dir[i]?.map Dirent.inum = some 0

lemma Inv.refines (hn : ninodes ≤ 65536) (hi : Inv s) : Refines ninodes s where
  unique := hi.unique
  lookup p src name r hp hname := by
    have heq := dirlookup_eq hi.unique name
    rw [Source.key_name hname] at heq
    cases hl : dirlookup s.dir name with rw [hl] at heq
    | none =>
      refine ⟨s.goto p (.locked (some .absent)), ?_, rfl, ?_⟩
      · simp only [Dir.step, call_eq hi hp hname, hl]
      · rw [← heq]
        exact update_self ..
    | some x =>
      refine ⟨s.goto p (.locked (some (.found x.2))), ?_, rfl, ?_⟩
      · simp only [Dir.step, call_eq hi hp hname, hl]
      · rw [← heq]
        exact update_self ..
  present p src name r inum blocks hp hname h0 hlt hb := by
    rw [← Source.key_name hname] at hb
    refine ⟨s.goto p (.locked (some .exists)), ?_, rfl, update_self ..⟩
    simp only [Dir.step, call_eq hi hp hname]
    rw [if_pos ⟨h0, hlt⟩, dirlink_present hi.unique hb, ok_bind]
  absent p src name r inum blocks hp hname h0 hlt hb hf hblocks := by
    rw [← Source.key_name hname] at hb ⊢
    obtain ⟨dir', hd, hlinked⟩ := dirlink_absent hi.unique hi.sized hf hblocks (hlt.trans_le hn) hb
    obtain ⟨i, new, hr, hold, hwhere, rfl⟩ := hlinked.slot
    refine ⟨{ s.goto p (.locked (some .linked)) with dir := dir' }, i, ?_, update_self ..,
      hlinked.bindings_eq hi.unique h0 hb, hr.other, hold, hwhere⟩
    simp only [Dir.step, call_eq hi hp hname]
    rw [if_pos ⟨h0, hlt⟩, hd, ok_bind]
  full p src name r inum blocks hp hname h0 hlt hb hf := by
    rw [← Source.key_name hname] at hb
    simp only [Dir.step, call_eq hi hp hname]
    rw [if_pos ⟨h0, hlt⟩, dirlink_full hi.unique hf hb, error_bind]
  noBlock p src name r inum hp hname h0 hlt hb hf hneeds := by
    rw [← Source.key_name hname] at hb
    simp only [Dir.step, call_eq hi hp hname]
    rw [if_pos ⟨h0, hlt⟩, dirlink_noBlock hi.unique hi.sized hf hneeds hb, error_bind]
  search p src name r hp hname := by
    have hkey := Source.key_name hname
    have hdot : namecmp name (dots 1) = 0 ↔ src.key = truncate [46] := by
      rw [namecmp_eq_zero_iff, hkey]
      exact Iff.of_eq (congrArg _ (by decide))
    have hdotdot : namecmp name (dots 2) = 0 ↔ src.key = truncate [46, 46] := by
      rw [namecmp_eq_zero_iff, hkey]
      exact Iff.of_eq (congrArg _ (by decide))
    have hl := dirlookup_eq hi.unique name
    rw [hkey] at hl
    simp only [Dir.step, call_eq hi hp hname, hdot, hdotdot]
    split_ifs with hdots hb
    · exact ⟨_, rfl, rfl, update_self ..⟩
    · rw [hb, Option.map_eq_none_iff] at hl
      rw [hl]
      exact ⟨_, rfl, rfl, update_self ..⟩
    cases hfound : dirlookup s.dir name with
    | none =>
      rw [hfound] at hl
      exact absurd hl.symm hb
    | some x => exact ⟨_, rfl, rfl, x.1, update_self ..⟩
  clear p off name hp := by
    obtain ⟨i, de, -, hde, hkey, hstep⟩ := clear_eq ninodes hi hp
    have hr : Replaces s.dir (s.dir.set i ⟨0, replicate DIRSIZ 0⟩) i
        ⟨0, replicate DIRSIZ 0⟩ := replaces_set hde
    have hfree : (⟨0, replicate DIRSIZ 0⟩ : Dirent).key = none := Dirent.key_eq_none.mpr rfl
    refine ⟨_, i, hstep, update_self .., fun hnone => ?_,
      hi.unique.assoc_clear hr hfree hde hkey, hr.other, ?_⟩
    · exact assoc_eq_none_iff.mp hnone i de hde hkey
    · exact congrArg (Option.map Dirent.inum) hr.here

/-- In every run of any number of processes, started in a directory without two equal names, the
directory is a finite map and its functions are the operations of the map. -/
theorem refines_of_run {dir₀ : List Dirent} (hn : ninodes ≤ 65536) (hu : Unique dir₀)
    (hs : Sized dir₀) {tr : List (State P × Action P)} {s : State P}
    (h : Run (step ninodes) (boot dir₀) tr s) : Refines ninodes s := by
  have hboot : Inv (boot dir₀ : State P) :=
    ⟨hu, hs, fun p hp => absurd rfl hp, fun p off name hp => by cases hp⟩
  exact ((h.invariant' (fun _ _ _ hi hs => hi.step hn hs) hboot).2).refines hn

/-- Two links, of which the second is of a name with the same first 14 bytes, and an unlink. -/
theorem refines_of_run_truncated : ∃ tr s, Run (step 200) (boot [] : State Unit) tr s ∧
    s.dir = [⟨0, replicate 14 0⟩] ∧ Refines 200 s := by
  obtain ⟨s, hs, htest⟩ := exists_of_okAnd (runList (step 200) (boot [] : State Unit)
      [.ilock (), .link () (.elem (replicate 14 97 ++ [98]) fun _ => 7) 5 true,
        .link () (.elem (replicate 14 97 ++ [99, 47]) fun _ => 8) 6 true,
        .search () (.elem (replicate 14 97) fun _ => 9), .clear (), .iunlock ()])
      (fun s => decide (s.dir = [⟨0, replicate 14 0⟩])) (by decide +kernel)
  have hrun := Run.of_runList hs
  refine ⟨_, s, hrun, of_decide_eq_true htest, refines_of_run (by decide) distinct_nil ?_ hrun⟩
  exact Nat.zero_le _

end Runs

/-! ### A directory that is full -/

section Overflow

/-- A name of three letters. -/
def letters (i : ℕ) : List UInt8 :=
  [UInt8.ofNat (97 + i / 676), UInt8.ofNat (97 + i / 26 % 26), UInt8.ofNat (97 + i % 26)]

/-- The letters of a number below 26³ are letters. -/
lemma letters_ne (hi : i < 17576) : ∀ c ∈ letters i, c ≠ 0 ∧ c ≠ slash := by
  have hletter : ∀ d < 26, UInt8.ofNat (97 + d) ≠ 0 ∧ UInt8.ofNat (97 + d) ≠ slash := by decide
  intro c hc
  simp only [letters, mem_cons, not_mem_nil, or_false] at hc
  rcases hc with rfl | rfl | rfl
  · exact hletter _ (by omega)
  · exact hletter _ (by omega)
  · exact hletter _ (by omega)

lemma letters_inj {i j : ℕ} (hi : i < 17576) (hj : j < 17576) (h : letters i = letters j) :
    i = j := by
  have hdigit : ∀ a < 26, ∀ b < 26, UInt8.ofNat (97 + a) = UInt8.ofNat (97 + b) → a = b := by decide
  simp only [letters, cons.injEq, and_true] at h
  obtain ⟨h1, h2, h3⟩ := h
  have h1' := hdigit _ (by omega) _ (by omega) h1
  have h2' := hdigit _ (by omega) _ (by omega) h2
  have h3' := hdigit _ (by omega) _ (by omega) h3
  omega

lemma dropWhile_letters (hi : i < 17576) :
    (letters i).dropWhile (· = slash) = letters i := by
  have hfirst := (letters_ne hi (UInt8.ofNat (97 + i / 676)) (by simp [letters])).2
  rw [letters, dropWhile_cons_of_neg]
  simpa using hfirst

/-- The path of that name. -/
def lettersPath (i : ℕ) : Source := .elem (letters i) fun _ => 0

lemma lettersPath_key (hi : i < 17576) : (lettersPath i).key = letters i ++
    replicate 11 0 := by
  have hslash := fun c hc => (letters_ne hi c hc).2
  have hfirst : firstElem (letters i) = letters i := by
    rw [firstElem, dropWhile_letters hi, takeWhile_eq_self_iff.mpr]
    simpa using hslash
  rw [lettersPath, Source.key, hfirst]
  rfl

lemma lettersPath_name (hi : i < 17576) : ∃ name, (lettersPath i).name = some name := by
  have hne := letters_ne hi
  have hall : (letters i).all (· ≠ 0) = true := by
    rw [all_eq_true]
    intro c hc
    simpa using (hne c hc).1
  have hdrop : (letters i).dropWhile (· = slash) ≠ [] := by
    rw [dropWhile_letters hi]
    simp [letters]
  rw [lettersPath, Source.name, if_pos hall, skipelem]
  simp only [if_neg hdrop]
  exact ⟨_, rfl⟩

/-- A process that links names of three letters fills the directory. -/
lemma exists_filled (n : ℕ) (hn : n ≤ 17152) : ∃ tr s r,
    Run (step 200) (boot [] : State Unit) tr s ∧ s.phase () = .locked r ∧ s.dir.length = n ∧
      (∀ de ∈ s.dir, de.inum ≠ 0) ∧
      ∀ i, n ≤ i → i < 17576 → bindings s.dir (lettersPath i).key = none := by
  induction n with
  | zero =>
    refine ⟨_, _, none, .snoc (.nil _) (show step 200 (boot [] : State Unit) (.ilock ()) = .ok _
      from rfl), rfl, rfl, by simp [boot, State.goto], fun i _ _ => rfl⟩
  | succ n ih =>
    obtain ⟨tr, s, r, hrun, hp, hlen, hall, hfree⟩ := ih (by omega)
    have hi : Inv s := (hrun.invariant' (fun _ _ _ hi hs => hi.step (by decide) hs)
      ⟨distinct_nil, Nat.zero_le _, fun p hp => absurd rfl hp, fun p off name hp => by cases hp⟩).2
    obtain ⟨name, hname⟩ := lettersPath_name (show n < 17576 by omega)
    have hnew := hfree n le_rfl (by omega)
    have hkey := Source.key_name hname
    have hlink : dirlink true s.dir name 1 = .ok (some (s.dir ++ [⟨1, strncpy name DIRSIZ⟩])) := by
      refine dirlink_append hi.unique hall ?_ (fun _ => rfl) (hkey ▸ hnew)
      rw [hlen]
      simp only [direntSize, DIRSIZ, MAXFILE, NDIRECT, NINDIRECT, BSIZE]
      omega
    have hstep : step 200 s (.link () (lettersPath n) 1 true) =
        .ok { s.goto () (.locked (some .linked)) with
          dir := s.dir ++ [⟨1, strncpy name DIRSIZ⟩] } := by
      simp only [step, call_eq hi hp hname]
      rw [if_pos (by decide), hlink, ok_bind]
    refine ⟨_, _, some .linked, hrun.snoc hstep, ?_, ?_, ?_, fun i hle hlt => ?_⟩
    · simp [State.goto]
    · rw [length_append, hlen]
      rfl
    · intro de hde
      rcases mem_append.mp hde with hde | hde
      · exact hall de hde
      · rw [mem_singleton.mp hde]
        exact one_ne_zero
    · have hmap : bindings (s.dir ++ [⟨1, strncpy name DIRSIZ⟩]) =
          update (bindings s.dir) (Dir.key name) (some 1) :=
        hi.unique.assoc_fill replaces_concat (key_new one_ne_zero)
          (fun y hy => by rw [getElem?_eq_none le_rfl] at hy; cases hy) (hkey ▸ hnew)
      have hne : (lettersPath i).key ≠ Dir.key name := by
        rw [hkey, lettersPath_key hlt, lettersPath_key (show n < 17576 by omega)]
        intro heq
        have := letters_inj hlt (by omega) (append_cancel_right heq)
        omega
      exact (congrFun hmap _).trans ((update_of_ne hne ..).trans (hfree i (by omega) hlt))

/-- In a full directory `dirlink` of a name that is not present panics. -/
theorem not_linked_of_full : ¬ ∀ (tr : List (State Unit × Action Unit)) (s : State Unit)
    (src : Source)
    (name : Str) (r : Option Result), Run (step 200) (boot []) tr s → s.phase () = .locked r →
      src.name = some name → bindings s.dir src.key = none →
      ∃ s', step 200 s (.link () src 1 true) = .ok s' ∧
        bindings s'.dir = update (bindings s.dir) src.key (some 1) := by
  intro hclaim
  obtain ⟨tr, s, r, hrun, hp, hlen, hall, hfree⟩ := exists_filled 17152 le_rfl
  have hi : Inv s := (hrun.invariant' (fun _ _ _ hi hs => hi.step (by decide) hs)
    ⟨distinct_nil, Nat.zero_le _, fun p hp => absurd rfl hp, fun p off name hp => by cases hp⟩).2
  obtain ⟨name, hname⟩ := lettersPath_name (show 17152 < 17576 by decide)
  have hnew := hfree 17152 le_rfl (by decide)
  obtain ⟨s', hs', -⟩ := hclaim tr s _ name r hrun hp hname hnew
  have hfull : Full s.dir := ⟨hall, by rw [hlen]; rfl⟩
  rw [(hi.refines (by decide)).full () _ name r 1 true hp hname one_ne_zero (by decide) hnew hfull]
    at hs'
  cases hs'

end Overflow

end Hexv6.Dir
