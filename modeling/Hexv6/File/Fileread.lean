import Hexv6.File.Refine
import Hexv6.Vm.Copyout

/-!
# `fileread`

`fileread` of `kernel/file.c` for a file of type `FD_INODE`, with `readi` and the copies to user
memory as they are made.  The count `n` is an `int`, and the parameter of `readi` is a `uint`.

The pieces that `readi` copies, one for each block, are together a single copy of a piece of the
file (`readiUser_eq`), which stops where a byte is not mapped.
-/

namespace Hexv6.File

open Blk List
open Vm (PageTable Write copyout copyBytes userAddr phys address)

/-- The loop of `readi` for a destination in user memory, with what has been written so far. -/
def readLoopUser (sb : Super) (w : PageTable) (dst : BitVec 64) (n : ℕ) (D : Disk) (ip : Inode)
    (tot off : ℕ) (ws : List Write) : Option (ℤ × List Write × Disk × Inode) :=
  if _h : tot < n then
    match bmap sb D ip (off / BSIZE) with
    | none => none
    | some (D, ip, a) =>
      let m := chunk n tot off
      let out := copyout w (userAddr dst tot)
        ((range m).map fun i => (D a.toNat).byte (off % BSIZE + i))
      if out.2 then readLoopUser sb w dst n D ip (tot + m) (off + m) (ws ++ out.1)
      else some (-1, ws ++ out.1, D, ip)
  else some (tot, ws, D, ip)
termination_by n - tot
decreasing_by
  have := chunk_pos off _h
  omega

/-- `readi(ip, 1, dst, off, n)`. -/
def readiUser (sb : Super) (w : PageTable) (D : Disk) (ip : Inode) (dst : BitVec 64)
    (off n : BitVec 32) : Option (ℤ × List Write × Disk × Inode) :=
  if off > ip.size ∨ off + n < off then some (0, [], D, ip)
  else
    let n := if off + n > ip.size then ip.size - off else n
    readLoopUser sb w dst n.toNat D ip 0 off.toNat []

/-- The fields of `struct file` that `fileread` uses, for the type `FD_INODE`. -/
structure OpenFile where
  readable : Bool
  off : BitVec 32

/-- `fileread` for the type `FD_INODE`: the result, what is written to memory, and the file, the
disk and the inode afterwards. -/
def fileread (sb : Super) (w : PageTable) (D : Disk) (ip : Inode) (f : OpenFile) (addr : BitVec 64)
    (n : BitVec 32) : Option (ℤ × List Write × OpenFile × Disk × Inode) :=
  if f.readable = false then some (-1, [], f, D, ip)
  else
    match readiUser sb w D ip addr f.off n with
    | none => none
    | some (r, ws, D, ip) =>
      some (r, ws, if r > 0 then { f with off := f.off + BitVec.ofInt 32 r } else f, D, ip)

variable {sb : Super} {w : PageTable} {D : Disk} {ip : Inode} {dst : BitVec 64} {off n : BitVec 32}

/-! ### The loop copies a piece of the file -/

/-- What `readi` returns after a copy. -/
def copyResult (out : List Write × Bool) (n : ℕ) : ℤ := if out.2 then n else -1

lemma readLoopUser_spec (sb : Super) (w : PageTable) {n base left tot : ℕ}
    (hmap : ∀ y, base ≤ y → y < base + n → Mapped D ip y)
    (hleft : tot + left = n) (hdst : dst.toNat + tot < 2 ^ 64) (ws : List Write) :
    readLoopUser sb w dst n D ip tot (base + tot) ws =
      let out := copyBytes w (dst.toNat + tot)
        ((range left).map fun i => byteAt D ip (base + tot + i))
      some (copyResult out n, ws ++ out.1, D, ip) := by
  induction left using Nat.strong_induction_on generalizing tot ws with
  | _ left ih =>
    by_cases h : tot < n
    · obtain ⟨hbn, hne⟩ := hmap (base + tot) (by omega) (by omega)
      obtain ⟨a, hbmap, ha⟩ := bmap_mapped sb hbn hne
      obtain ⟨hm, hmn⟩ := chunk_le n tot (base + tot)
      have hpos := chunk_pos (base + tot) h
      rw [readLoopUser, dif_pos h, hbmap]
      dsimp only
      generalize chunk n tot (base + tot) = m at hm hmn hpos ⊢
      rw [ha, map_byte_eq D ip hm, Vm.copyout_eq, Vm.userAddr_eq hdst]
      -- the piece of this turn and the rest
      obtain ⟨k, rfl⟩ : ∃ k, left = m + k := ⟨left - m, by omega⟩
      rw [range_add, map_append, map_map, Vm.copyBytes_append, length_map,
        length_range]
      have hcomp : ((fun i => byteAt D ip (base + tot + i)) ∘ fun i => m + i) =
          fun i => byteAt D ip (base + (tot + m) + i) := by
        ext i
        simp only [Function.comp_apply, add_assoc]
      rw [hcomp]
      by_cases hok : (copyBytes w (dst.toNat + tot)
          ((range m).map fun i => byteAt D ip (base + tot + i))).2
      · have hlast := Vm.copyBytes_ok_iff.1 hok (m - 1) (by simp; omega)
        have hlt := Vm.lt_of_phys hlast
        have hdst' : dst.toNat + (tot + m) < 2 ^ 64 := by
          simp only [MAXVA] at hlt
          omega
        simp only [if_pos hok]
        rw [add_assoc base tot m, ih k (by omega) (by omega) hdst']
        simp only [add_assoc, append_assoc]
        rfl
      · simp only [if_neg hok, copyResult]
    · obtain ⟨rfl, rfl⟩ : tot = n ∧ left = 0 := by omega
      rw [readLoopUser, dif_neg h]
      simp [copyBytes, copyResult]

/-- `readi` to user memory is one copy of a piece of the file. -/
theorem readiUser_eq (h : ∀ y < ip.size.toNat, Mapped D ip y) : readiUser sb w D ip dst off n =
      if ip.size.toNat < off.toNat ∨ 2 ^ 32 ≤ off.toNat + n.toNat then some (0, [], D, ip)
      else
        let bytes := ((contents D ip).drop off.toNat).take n.toNat
        some (copyResult (copyBytes w dst.toNat bytes) bytes.length,
          (copyBytes w dst.toNat bytes).1, D, ip) := by
  rw [readiUser]
  by_cases hout : ip.size.toNat < off.toNat ∨ 2 ^ 32 ≤ off.toNat + n.toNat
  · rw [if_pos hout, if_pos (outside_iff.2 hout)]
  rw [if_neg hout, if_neg fun h => hout (outside_iff.1 h)]
  rw [not_or, not_lt, not_le] at hout
  dsimp only
  rw [toNat_cut hout.1 hout.2]
  have hmap : ∀ y, off.toNat ≤ y → y < off.toNat + min n.toNat (ip.size.toNat - off.toNat) →
      Mapped D ip y := fun y _ hy => h y (by omega)
  have hloop := readLoopUser_spec sb w hmap (Nat.zero_add _) dst.isLt []
  simp only [Nat.add_zero, nil_append] at hloop
  rw [hloop, map_byteAt_eq (by omega)]
  have hcut : (((contents D ip).drop off.toNat).take (min n.toNat (ip.size.toNat - off.toNat))) =
      ((contents D ip).drop off.toNat).take n.toNat := by
    rw [← @length_contents D, ← length_drop, ← take_eq_take_min]
  rw [hcut, length_take, length_drop, length_contents]

/-! ### The count is respected -/

/-- `fileread` returns, it writes and returns at most `max(n, 0)`, and it advances the offset by
what it returns.  If `n` is not negative, the buffer is mapped and the offset is in the file, then
the bytes from the offset on are in the buffer, as many as there are. -/
def Respects (sb : Super) (w : PageTable) (D : Disk) (ip : Inode) (f : OpenFile) (addr : BitVec 64)
    (n : BitVec 32) : Prop :=
  ∃ r ws f', fileread sb w D ip f addr n = some (r, ws, f', D, ip) ∧
    (ws.length : ℤ) ≤ max n.toInt 0 ∧ r ≤ max n.toInt 0 ∧
    f' = (if 0 < r then { f with off := f.off + BitVec.ofInt 32 r } else f) ∧
    (f.readable → 0 ≤ n.toInt → Vm.Mapped w addr.toNat n.toNat → f.off ≤ ip.size →
      r = min n.toInt (ip.size.toNat - f.off.toNat) ∧
      ws = (((contents D ip).drop f.off.toNat).take r.toNat).zipIdx.map
        fun x => (address w (addr.toNat + x.2), x.1))

/-- The reads that respect the count: `n` is not negative, or the file cannot be read, or the offset
is at the end or after it, or the sum of offset and count wraps, or the first byte of the buffer is
not mapped. -/
def Harmless (w : PageTable) (ip : Inode) (f : OpenFile) (addr : BitVec 64) (n : BitVec 32) :
    Prop :=
  0 ≤ n.toInt ∨ f.readable = false ∨ ip.size.toNat ≤ f.off.toNat ∨ 2 ^ 32 ≤ f.off.toNat + n.toNat ∨
    phys w addr.toNat = none

variable {f : OpenFile} {addr : BitVec 64}

lemma fileread_eq (h : ∀ y < ip.size.toNat, Mapped D ip y) (hread : f.readable = true) :
    fileread sb w D ip f addr n =
      if ip.size.toNat < f.off.toNat ∨ 2 ^ 32 ≤ f.off.toNat + n.toNat then some (0, [], f, D, ip)
      else
        let bytes := ((contents D ip).drop f.off.toNat).take n.toNat
        let r := copyResult (copyBytes w addr.toNat bytes) bytes.length
        some (r, (copyBytes w addr.toNat bytes).1,
          if 0 < r then { f with off := f.off + BitVec.ofInt 32 r } else f, D, ip) := by
  rw [fileread, if_neg (by simp [hread]), readiUser_eq h]
  split_ifs with hout
  · rfl
  · rfl

/-- A file that is in order has at most `MAXFILE` blocks. -/
lemma size_le (h : ∀ y < ip.size.toNat, Mapped D ip y) : ip.size.toNat ≤ MAXFILE * BSIZE := by
  by_contra hgt
  have hlt := (h (MAXFILE * BSIZE) (by omega)).1
  exact absurd hlt (by decide)

lemma copyResult_le (out : List Write × Bool) (n : ℕ) : copyResult out n ≤ n := by
  rw [copyResult]
  split_ifs <;> omega

lemma toInt_of_nonneg (hn : 0 ≤ n.toInt) : n.toInt = n.toNat ∧ n.toNat < 2 ^ 31 := by
  have hlt := n.isLt
  rw [BitVec.toInt_eq_toNat_cond] at hn ⊢
  split_ifs at hn ⊢ <;> omega

lemma toNat_of_neg (hn : n.toInt < 0) : 2 ^ 31 ≤ n.toNat := by
  rw [BitVec.toInt_eq_toNat_cond] at hn
  split_ifs at hn <;> omega

/-- With a count that is not negative. -/
lemma respects_of_nonneg (h : ∀ y < ip.size.toNat, Mapped D ip y) (hread : f.readable = true)
    (hn : 0 ≤ n.toInt) : Respects sb w D ip f addr n := by
  obtain ⟨hint, hlt⟩ := toInt_of_nonneg hn
  rw [Respects, fileread_eq h hread, hint]
  split_ifs with hout
  · refine ⟨0, [], f, rfl, by simp, by simp, rfl, fun _ _ _ hoff => ?_⟩
    rw [BitVec.le_def] at hoff
    have hsize := size_le h
    simp only [MAXFILE, NDIRECT, NINDIRECT, BSIZE] at hsize
    omega
  rw [not_or, not_lt, not_le] at hout
  set bytes := ((contents D ip).drop f.off.toNat).take n.toNat with hbytes
  have hlen : bytes.length = min n.toNat (ip.size.toNat - f.off.toNat) := by
    rw [hbytes, length_take, length_drop, length_contents]
  have hwrites := Vm.length_copyBytes_le w addr.toNat bytes
  have hres := copyResult_le (copyBytes w addr.toNat bytes) bytes.length
  refine ⟨_, _, _, rfl, by omega, by omega, rfl, fun _ _ hmap _ => ?_⟩
  have hmap' : Vm.Mapped w addr.toNat bytes.length := fun i hi => hmap i (by omega)
  rw [copyResult, if_pos (Vm.copyBytes_ok_iff.2 hmap'), Vm.copyBytes_writes hmap',
    Int.toNat_natCast]
  have htake : ((contents D ip).drop f.off.toNat).take bytes.length = bytes := by
    rw [hlen, hbytes, ← @length_contents D, ← length_drop, ← take_eq_take_min]
  exact ⟨by omega, by rw [htake]⟩

/-- With a negative count, nothing may be written. -/
lemma respects_iff_of_neg (h : ∀ y < ip.size.toNat, Mapped D ip y) (hread : f.readable = true)
    (hn : n.toInt < 0) : Respects sb w D ip f addr n ↔
      ip.size.toNat ≤ f.off.toNat ∨ 2 ^ 32 ≤ f.off.toNat + n.toNat ∨ phys w addr.toNat = none := by
  have hbig := toNat_of_neg hn
  have hmax : max n.toInt 0 = 0 := max_eq_right hn.le
  rw [Respects, fileread_eq h hread, hmax]
  by_cases hout : ip.size.toNat < f.off.toNat ∨ 2 ^ 32 ≤ f.off.toNat + n.toNat
  · rw [if_pos hout]
    refine ⟨fun _ => by omega, fun _ => ?_⟩
    exact ⟨0, [], f, rfl, le_rfl, le_rfl, rfl, fun _ hpos => absurd hpos (by omega)⟩
  rw [if_neg hout]
  rw [not_or, not_lt, not_le] at hout
  generalize hbytes : ((contents D ip).drop f.off.toNat).take n.toNat = bytes
  have hlen : bytes.length = ip.size.toNat - f.off.toNat := by
    have hsize := size_le h
    simp only [MAXFILE, NDIRECT, NINDIRECT, BSIZE] at hsize
    rw [← hbytes, length_take, length_drop, length_contents]
    omega
  constructor
  · rintro ⟨r, ws, f', heq, hws, -⟩
    by_contra hnot
    rw [not_or, not_or] at hnot
    -- the first byte is written
    have hne : bytes ≠ [] := fun hnil => by
      rw [hnil, length_nil] at hlen
      omega
    simp only [Option.some.injEq, Prod.mk.injEq] at heq
    have hempty : (copyBytes w addr.toNat bytes).1 = [] := by
      rw [heq.2.1]
      exact length_eq_zero_iff.1 (by omega)
    exact hnot.2.2 ((Vm.copyBytes_eq_nil_iff hne).1 hempty)
  · intro hharm
    have hnil : (copyBytes w addr.toNat bytes).1 = [] ∧
        copyResult (copyBytes w addr.toNat bytes) bytes.length ≤ 0 := by
      rcases bytes with _ | ⟨b, bytes⟩
      · exact ⟨rfl, le_rfl⟩
      rw [length_cons] at hlen
      have hphys : phys w addr.toNat = none := by
        rcases hharm with hend | hwrap | hphys
        · omega
        · omega
        · exact hphys
      rw [copyBytes, hphys]
      exact ⟨rfl, by simp [copyResult]⟩
    refine ⟨_, _, _, rfl, ?_, hnil.2, rfl, fun _ hpos => absurd hpos (by omega)⟩
    rw [hnil.1]
    exact le_rfl

/-- `fileread` on a file that is in order respects the count exactly for the harmless reads.  A
negative count is a large one for `readi`, which cuts it to what is left of the file. -/
theorem fileread_respects_iff (h : ∀ y < ip.size.toNat, Mapped D ip y) (f : OpenFile)
    (addr : BitVec 64) (n : BitVec 32) :
    Respects sb w D ip f addr n ↔ Harmless w ip f addr n := by
  rw [Harmless]
  rcases hread : f.readable with _ | _
  · refine ⟨fun _ => .inr (.inl rfl), fun _ => ?_⟩
    refine ⟨-1, [], f, by rw [fileread, if_pos hread], by simp, by omega, rfl, fun hr => ?_⟩
    rw [hread] at hr
    cases hr
  by_cases hn : 0 ≤ n.toInt
  · exact ⟨fun _ => .inl hn, fun _ => respects_of_nonneg h hread hn⟩
  · rw [respects_iff_of_neg h hread (by omega)]
    simp [hn]

/-! ### A file of one byte -/

theorem fileread_respects_iff_oneByte :
    Respects smallSuper (fun _ => some 1) (smallDisk 1) (oneBlock 1) ⟨true, 0⟩ 0 1 :=
  (fileread_respects_iff (mapped_oneBlock (smallDisk 1) (by decide)) ⟨true, 0⟩ 0 1).2
    (.inl (by decide))

/-- A read of -1 bytes delivers the whole file. -/
theorem not_respects_negative :
    ¬ Respects smallSuper (fun _ => some 1) (smallDisk 1) (oneBlock 1) ⟨true, 0⟩ 0 (-1) := by
  rw [respects_iff_of_neg (mapped_oneBlock (smallDisk 1) (by decide)) rfl (by decide)]
  rintro (h | h | h)
  · exact absurd h (by decide)
  · exact absurd h (by decide)
  · exact absurd h (by decide)

end Hexv6.File
