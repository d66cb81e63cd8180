import Mathlib.Tactic

/-!
# The constants of `param.h`, `fs.h` and `riscv.h`
-/

namespace Hexv6

/-! ### `param.h` -/

/-- Maximum number of processes. -/
def NPROC : ℕ := 64

instance : NeZero NPROC := ⟨by decide⟩

/-- Open files per process. -/
def NOFILE : ℕ := 16

lemma toNat_lt_NOFILE {fd : ℤ} (h : 0 ≤ fd ∧ fd < NOFILE) : fd.toNat < NOFILE := by omega

/-- Open files per system. -/
def NFILE : ℕ := 100

/-- Maximum number of active inodes. -/
def NINODE : ℕ := 50

instance : NeZero NINODE := ⟨by decide⟩

def NDEV : ℕ := 10

/-- The most blocks that an operation of the file system writes. -/
def MAXOPBLOCKS : ℕ := 10

def LOGSIZE : ℕ := MAXOPBLOCKS * 3

/-- The size of the buffer cache. -/
def NBUF : ℕ := MAXOPBLOCKS * 3

instance : NeZero NBUF := ⟨by decide⟩

/-- The size of the file system in blocks. -/
def FSSIZE : ℕ := 1000

/-! ### `fs.h` -/

def ROOTINO : ℕ := 1

def BSIZE : ℕ := 1024

instance : NeZero BSIZE := ⟨by decide⟩

def FSMAGIC : ℕ := 0x10203040

def NDIRECT : ℕ := 12

instance (priority := 2000) : NeZero (NDIRECT + 1) := ⟨by decide⟩

/-- The entry of `addrs` for the indirect block. -/
abbrev indirect : Fin (NDIRECT + 1) := Fin.last NDIRECT

def NINDIRECT : ℕ := BSIZE / 4

def MAXFILE : ℕ := NDIRECT + NINDIRECT

/-- `sizeof(struct dinode)`. -/
def dinodeSize : ℕ := 8 + 4 + 4 * (NDIRECT + 1)

/-- Inodes per block. -/
def IPB : ℕ := BSIZE / dinodeSize

/-- Bits of the free map per block. -/
def BPB : ℕ := BSIZE * 8

def DIRSIZ : ℕ := 14

/-- `sizeof(struct dirent)`. -/
def direntSize : ℕ := 2 + DIRSIZ

/-! ### `riscv.h` -/

def PGSIZE : ℕ := 4096

/-- One beyond the highest virtual address. -/
def MAXVA : ℕ := 2 ^ 38

end Hexv6
