import Hexv6.Lib.CrashDisk
import Hexv6.Param

/-!
# The log on disk

The functions of `kernel/log.c` that move blocks between the buffer cache, the log area and
the home locations: `write_log`, `write_head`, `install_trans`, `commit`, `read_head` and
`recover_from_log`, and `fsinit` of `kernel/fs.c`, which calls the last one at boot.

The in-memory header `log.lh` is given by the list of its entries `block[0..n-1]`.  On
disk the header is the first block of the log area: word 0 is `n`, word `i + 1` is
`block[i]`, and `write_head` leaves the other words of the buffer as they are.
-/

namespace Hexv6.Log

open Lib

/-- A block of `BSIZE` bytes, as the 256 words of `struct logheader` and
`struct superblock`. -/
abbrev Block := Fin 256 → UInt32

/-- Programs on the disk of the file system. -/
abbrev Disk := DiskM ℕ Block

/-- Word `i` of a block. -/
def word (b : Block) (i : ℕ) : ℕ := if h : i < 256 then (b ⟨i, h⟩).toNat else 0

/-- A header buffer after the assignments to `hb->n` and `hb->block[i]`. -/
def putHead (buf : Block) (lh : List ℕ) : Block := fun i =>
  if (i : ℕ) = 0 then .ofNat lh.length
  else if h : (i : ℕ) - 1 < lh.length then .ofNat lh[(i : ℕ) - 1]
  else buf i

/-- `write_head`. -/
def writeHead (start : ℕ) (lh : List ℕ) : Disk Unit := do
  let buf ← bread start
  setData start (putHead buf lh)
  bwrite start

/-- `read_head`.  A count that is negative as an `int` makes the loops run not at all;
one beyond `LOGSIZE` would overrun `log.lh.block`. -/
def readHead (start : ℕ) : Disk (List ℕ) := do
  let buf ← bread start
  let n := word buf 0
  if 2 ^ 31 ≤ n then return []
  else if LOGSIZE < n then fault
  else return (List.range n).map fun i => word buf (i + 1)

/-- The loop of `write_log` from `tail` on. -/
def writeLog (start : ℕ) : ℕ → List ℕ → Disk Unit
  | _, [] => pure ()
  | tail, b :: bs => do
    let src ← bread b
    setData (start + tail + 1) src
    bwrite (start + tail + 1)
    writeLog start (tail + 1) bs

/-- The loop of `install_trans` from `tail` on. -/
def installTrans (start : ℕ) : ℕ → List ℕ → Disk Unit
  | _, [] => pure ()
  | tail, b :: bs => do
    let lbuf ← bread (start + tail + 1)
    setData b lbuf
    bwrite b
    installTrans start (tail + 1) bs

/-- `commit`. -/
def commit (start : ℕ) (lh : List ℕ) : Disk Unit :=
  if lh.length > 0 then do
    writeLog start 0 lh
    writeHead start lh
    installTrans start 0 lh
    writeHead start []
  else pure ()

/-- `recover_from_log`. -/
def recoverFromLog (start : ℕ) : Disk Unit := do
  let lh ← readHead start
  installTrans start 0 lh
  writeHead start []

/-- `fsinit`, with `initlog`: the log starts at the block `logstart` of the super block. -/
def fsinit : Disk Unit := do
  let sb ← bread 1
  if word sb 0 ≠ FSMAGIC then fault else recoverFromLog (word sb 5)

/-! ### The header block -/

lemma word_putHead_zero (buf : Block) {lh : List ℕ} (h : lh.length ≤ LOGSIZE) :
    word (putHead buf lh) 0 = lh.length := by
  simp only [LOGSIZE, MAXOPBLOCKS] at h
  simp only [word, putHead]
  norm_num
  omega

lemma word_putHead_succ (buf : Block) {lh : List ℕ} {i : ℕ} (h : lh.length ≤ LOGSIZE)
    (hi : i < lh.length) (hb : lh[i] < 2 ^ 32) : word (putHead buf lh) (i + 1) = lh[i] := by
  simp only [LOGSIZE, MAXOPBLOCKS] at h
  have h256 : i + 1 < 256 := by omega
  simp only [word, putHead, h256, dif_pos]
  simp only [Nat.add_one_ne_zero, if_false, Nat.add_sub_cancel, hi, dif_pos]
  simpa using hb

/-- What `read_head` finds in a header that `write_head` has filled in. -/
lemma wp_readHead {start : ℕ} {lh : List ℕ} {m : Machine ℕ Block} {buf : Block}
    {Q : List ℕ → Machine ℕ Block → Prop} {C : Machine ℕ Block → Prop}
    (h : lh.length ≤ LOGSIZE) (hb : ∀ b ∈ lh, b < 2 ^ 32)
    (hm : m.cache start = putHead buf lh) (hQ : Q lh m) : wp (readHead start) Q C m := by
  have hlist : (List.range lh.length).map (fun i => word (putHead buf lh) (i + 1)) = lh := by
    refine List.ext_getElem (by simp) fun i hi1 hi2 => ?_
    simp only [List.getElem_map, List.getElem_range]
    exact word_putHead_succ buf h hi2 (hb _ (List.getElem_mem hi2))
  have hn := word_putHead_zero buf h
  have hneg : ¬ 2 ^ 31 ≤ lh.length := by
    simp only [LOGSIZE, MAXOPBLOCKS] at h
    omega
  rw [readHead, wp_bind, wp_bread, hm]
  simp only [hn, hlist]
  rw [if_neg hneg, if_neg (by omega), wp_pure]
  exact hQ

/-- A header with count 0 is read as empty. -/
lemma wp_readHead_zero {start : ℕ} {m : Machine ℕ Block}
    {Q : List ℕ → Machine ℕ Block → Prop} {C : Machine ℕ Block → Prop}
    (hm : word (m.cache start) 0 = 0) (hQ : Q [] m) : wp (readHead start) Q C m := by
  rw [readHead, wp_bind, wp_bread]
  simpa [hm] using hQ

end Hexv6.Log
