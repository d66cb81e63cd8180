import Hexv6.File.Refine
import Hexv6.Mkfs.WellFormed

/-!
# The image as the kernel reads it

`readsb`, `ilock`, `readi` and `dirlookup` of `kernel/fs.c` on an image, run by one process: a
buffer is the block of the disk itself.  `readi` is the one of `File.Rw`, with the blocks that
`bmap` allocates, although no block of a file that `mkfs` has written is missing.

For every file the entry in the root directory leads to an inode with the size and the bytes of
the file (`lookup_of_main`), unless the entry is behind `.` or `..` with the same name.
-/

namespace Hexv6.Mkfs

open Lib State List
open Blk (Byte Block Inode)
open Ino (mapping)
open Dir (Str namecmp key str)

open File (Disk)

namespace Kernel

inductive Panic
  /-- of `bmap` or `balloc` -/
  | bmap
  | ilockNoType
  | dirlookupNotDir
  | dirlookupRead
deriving DecidableEq

def readsb (disk : Disk) : Super where
  magic := ((disk 1).word 0).toNat
  size := ((disk 1).word 1).toNat
  nblocks := ((disk 1).word 2).toNat
  ninodes := ((disk 1).word 3).toNat
  nlog := ((disk 1).word 4).toNat
  logstart := ((disk 1).word 5).toNat
  inodestart := ((disk 1).word 6).toNat
  bmapstart := ((disk 1).word 7).toNat

/-- The fields that `readi` uses. -/
def fileSuper (sb : Super) : File.Super := ⟨sb.size, sb.ninodes, sb.inodestart, sb.bmapstart⟩

/-- `ilock` of an inode that has not been read yet. -/
def ilock (sb : Super) (disk : Disk) (inum : ℕ) : Except Panic Inode :=
  let ip := (fileSuper sb).inode disk inum
  if ip.type = 0 then .error .ilockNoType else .ok ip

/-- `readi` to an address of the kernel, where no copy fails. -/
def readi (sb : Super) (disk : Disk) (ip : Inode) (off n : ℕ) :
    Except Panic (Disk × Inode × List Byte) :=
  match File.readi (fileSuper sb) (fun _ _ => true) disk ip (BitVec.ofNat 32 off)
    (BitVec.ofNat 32 n) with
  | some (_, bytes, disk, ip) => .ok (disk, ip, bytes)
  | none => .error .bmap

/-- The fields of a `struct dirent`. -/
def direntInum (bytes : List Byte) : BitVec 16 := bytes.getD 1 0 ++ bytes.getD 0 0

def direntName (bytes : List Byte) : Str := str ((bytes.drop 2).map UInt8.ofBitVec)

/-- The loop of `dirlookup`; `left` is the rest of the size of the directory. -/
def dirlookupFrom (sb : Super) (name : Str) (disk : Disk) (dp : Inode) (off left : ℕ) :
    Except Panic (Disk × Inode × Option (ℕ × ℕ)) :=
  if left = 0 then .ok (disk, dp, none)
  else do
    let (disk, dp, bytes) ← readi sb disk dp off direntSize
    if bytes.length ≠ direntSize then .error .dirlookupRead
    else if direntInum bytes = 0 ∨ namecmp name (direntName bytes) ≠ 0 then
      dirlookupFrom sb name disk dp (off + direntSize) (left - direntSize)
    else .ok (disk, dp, some ((direntInum bytes).toNat, off))
termination_by left
decreasing_by
  have : 0 < direntSize := by decide
  omega

/-- `dirlookup`: the number of the inode and the offset of the entry. -/
def dirlookup (sb : Super) (disk : Disk) (dp : Inode) (name : Str) :
    Except Panic (Disk × Inode × Option (ℕ × ℕ)) :=
  if dp.type ≠ tDir then .error .dirlookupNotDir
  else dirlookupFrom sb name disk dp 0 dp.size.toNat

variable {sb : Super} {img : Image} {ip : Inode} {bytes : List Byte} {off n : ℕ}
  {e : ℕ × List UInt8} {files : ℕ → List Byte} {es : List (ℕ × List UInt8)} {name : Str}

/-! ### Reading a file -/

/-- The block of a file in its slot. -/
lemma addr_eq_mapping {bn : ℕ} (hm : bn < MAXFILE) :
    File.addr img.sect ip bn = (mapping img.blk ip bn).toNat := by
  by_cases hd : bn < NDIRECT
  · rw [File.addr_direct hd, Ino.mapping_of_direct hd, Ino.direct_eq hd]
    rfl
  · rw [File.addr, dif_neg hd, if_pos hm, mapping, if_neg hd]
    split_ifs <;> rfl

/-- The bytes of a file are those in its blocks. -/
lemma map_byteAt_eq (hc : Contents img.blk ip bytes) (hm : bytes.length ≤ MAXFILE * BSIZE)
    (hle : off + n ≤ bytes.length) :
    (range n).map (fun i => File.byteAt img.sect ip (off + i)) = (bytes.drop off).take n := by
  refine ext_getElem ?_ fun i hi hi' => ?_
  · rw [length_map, length_range, length_take, length_drop]
    omega
  rw [length_map, length_range] at hi
  have hbn : (off + i) / BSIZE < MAXFILE := Nat.div_lt_of_lt_mul (by rw [Nat.mul_comm]; omega)
  rw [getElem_map, getElem_range, getElem_take, getElem_drop, File.byteAt, addr_eq_mapping hbn]
  exact hc _ _ (getElem?_eq_getElem (by omega))

/-- `readi` reads the bytes of a file that has all its blocks. -/
lemma readi_eq (hc : Contents img.blk ip bytes) (hm : bytes.length ≤ MAXFILE * BSIZE)
    (hfill : Ino.Filled img.blk ip bytes.length) (hle : off + n ≤ bytes.length)
    (hsize : bytes.length ≤ ip.size.toNat) :
    readi sb img.sect ip off n = .ok (img.sect, ip, (bytes.drop off).take n) := by
  have hmax : MAXFILE * BSIZE < 2 ^ 32 := by decide
  have hoff : (BitVec.ofNat 32 off).toNat = off := Nat.mod_eq_of_lt (by omega)
  have hn : (BitVec.ofNat 32 n).toNat = n := Nat.mod_eq_of_lt (by omega)
  have hmap : ∀ y, off ≤ y → y < off + n → File.Mapped img.sect ip y := by
    intro y _ hy
    have hbn : y / BSIZE < MAXFILE := Nat.div_lt_of_lt_mul (by rw [Nat.mul_comm]; omega)
    refine ⟨hbn, ?_⟩
    rw [addr_eq_mapping hbn]
    have hle' := Nat.div_mul_le_self y BSIZE
    exact fun h => hfill _ hbn (by omega) (BitVec.eq_of_toNat_eq h)
  have hloop : File.readLoop (fileSuper sb) (fun _ _ => true) _ _ _ _ _ _ = _ :=
    File.readLoop_spec (fun _ _ _ => rfl) hmap (Nat.zero_add n) []
  simp only [Nat.add_zero, nil_append] at hloop
  have hinside : ¬ (BitVec.ofNat 32 off > ip.size ∨
      BitVec.ofNat 32 off + BitVec.ofNat 32 n < BitVec.ofNat 32 off) := by
    rw [File.outside_iff]
    omega
  rw [readi, File.readi, if_neg hinside]
  dsimp only
  rw [File.toNat_cut (by omega) (by omega), hoff, hn, min_eq_left (by omega), hloop,
    map_byteAt_eq hc hm hle]

/-! ### Reading a directory -/

lemma direntName_dirent (n : ℕ) (name : List UInt8) :
    direntName (dirent n name) = str (Dir.strncpy (str name) DIRSIZ) := by
  have hdrop : (dirent n name).drop 2 = (Dir.strncpy (str name) DIRSIZ).map UInt8.toBitVec := rfl
  rw [direntName, hdrop, map_map]
  congr 1
  exact map_id _

/-- Entries of one size, one after the other. -/
lemma take_drop_flatMap {α : Type*} {l : List α} {g : α → List Byte} {m k : ℕ} {e : α}
    (hg : ∀ e, (g e).length = m) (hk : l[k]? = some e) :
    ((l.flatMap g).drop (m * k)).take m = g e := by
  induction l generalizing k with
  | nil => simp at hk
  | cons x l ih =>
    rw [flatMap_cons]
    cases k with
    | zero =>
      obtain rfl : x = e := by simpa using hk
      rw [Nat.mul_zero, drop_zero, ← hg x, take_left]
    | succ k =>
      rw [Nat.mul_succ, Nat.add_comm, ← hg x, drop_length_add_append, hg x]
      exact ih hk

/-- The directory has these entries, and its size covers them. -/
structure Listing (img : Image) (dp : Inode) (es : List (ℕ × List UInt8)) : Prop where
  contents : Contents img.blk dp (es.flatMap fun e => dirent e.1 e.2)
  len : (es.flatMap fun e => dirent e.1 e.2).length ≤ MAXFILE * BSIZE
  filled : Ino.Filled img.blk dp (es.flatMap fun e => dirent e.1 e.2).length
  size : (es.flatMap fun e => dirent e.1 e.2).length ≤ dp.size.toNat
  inums : ∀ e ∈ es, 0 < e.1 ∧ e.1 < 2 ^ 16

/-- One round of the loop. -/
lemma dirlookupFrom_step (h : Listing img ip es) {k : ℕ}
    (hk : es[k]? = some e) :
    dirlookupFrom sb name img.sect ip (direntSize * k) (ip.size.toNat - direntSize * k) =
      if key name = key (str e.2) then .ok (img.sect, ip, some (e.1, direntSize * k))
      else dirlookupFrom sb name img.sect ip (direntSize * (k + 1))
        (ip.size.toNat - direntSize * (k + 1)) := by
  have hlen : (es.flatMap fun e => dirent e.1 e.2).length = direntSize * es.length := by
    rw [List.length_flatMap, List.map_congr_left fun e _ => length_dirent e.1 e.2]
    simp [Nat.mul_comm]
  have hlt := (List.getElem?_eq_some_iff.mp hk).1
  have hpos : 0 < direntSize := by decide
  have hend : direntSize * k + direntSize ≤ direntSize * es.length := by
    rw [← Nat.mul_succ]
    exact Nat.mul_le_mul_left _ hlt
  have hsize := h.size
  rw [hlen] at hsize
  have hread : readi sb img.sect ip (direntSize * k) direntSize =
      .ok (img.sect, ip, dirent e.1 e.2) := by
    rw [readi_eq h.contents h.len h.filled (by omega) h.size]
    rw [take_drop_flatMap (g := fun e : ℕ × List UInt8 => dirent e.1 e.2)
      (fun e => length_dirent e.1 e.2) hk]
  obtain ⟨hinum, hinum'⟩ := h.inums e (mem_of_getElem? hk)
  have htoNat : (BitVec.ofNat 16 e.1).toNat = e.1 := by
    rw [BitVec.toNat_ofNat]
    exact Nat.mod_eq_of_lt hinum'
  have hne : BitVec.ofNat 16 e.1 ≠ 0 := by
    intro h0
    rw [h0] at htoNat
    simp at htoNat
    omega
  have hname : namecmp name (direntName (dirent e.1 e.2)) ≠ 0 ↔ key name ≠ key (str e.2) := by
    rw [direntName_dirent, Ne, Dir.namecmp_eq_zero_iff, Dir.key_str_strncpy]
  rw [dirlookupFrom, if_neg (by omega)]
  simp only [hread, bind, Except.bind]
  rw [if_neg (not_not.mpr (length_dirent e.1 e.2)),
    show direntInum (dirent e.1 e.2) = _ from Block.halfBytes_append _, htoNat]
  by_cases hkey : key name = key (str e.2)
  · rw [if_pos hkey, if_neg]
    rintro (h0 | h0)
    · exact hne h0
    · exact hname.mp h0 hkey
  · rw [if_neg hkey, if_pos (.inr (hname.mpr hkey)), Nat.sub_sub, ← Nat.mul_succ]

/-- The loop finds the first entry with the name. -/
lemma dirlookupFrom_eq (h : Listing img ip es) {j k : ℕ}
    (hj : es[j]? = some e) (hkey : key name = key (str e.2)) (hkj : k ≤ j)
    (hfirst : ∀ (l : ℕ) e', l < j → es[l]? = some e' → key name ≠ key (str e'.2)) :
    dirlookupFrom sb name img.sect ip (direntSize * k) (ip.size.toNat - direntSize * k) =
      .ok (img.sect, ip, some (e.1, direntSize * j)) := by
  induction hd : j - k generalizing k with
  | zero =>
    obtain rfl : k = j := by omega
    rw [dirlookupFrom_step h hj, if_pos hkey]
  | succ d ih =>
    have hlt : k < es.length := by
      have := (List.getElem?_eq_some_iff.mp hj).1
      omega
    have hk := List.getElem?_eq_getElem hlt
    rw [dirlookupFrom_step h hk, if_neg (hfirst k _ (by omega) hk)]
    exact ih (by omega) (by omega)

/-! ### The image of mkfs -/

end Kernel

open Kernel

/-- The entries of the root directory. -/
def listing (fs : List Input) : List (ℕ × List UInt8) :=
  (ROOTINO, dot) :: (ROOTINO, dotdot) :: fs.mapIdx fun j f => (j + 2, shortname f.path)

lemma entries_eq (fs : List Input) : entries fs = (listing fs).flatMap fun e => dirent e.1 e.2 := by
  have hmap : (fs.mapIdx fun j f => (j + 2, shortname f.path)).map (fun e => dirent e.1 e.2) =
      fs.mapIdx fun j f => dirent (j + 2) (shortname f.path) := by
    refine ext_getElem? fun j => ?_
    rw [getElem?_map, getElem?_mapIdx, getElem?_mapIdx, Option.map_map]
    rfl
  rw [entries, listing, flatMap_cons, flatMap_cons, append_assoc, flatMap, hmap]

lemma getElem?_listing (fs : List Input) (j : ℕ) :
    (listing fs)[j + 2]? = (fs[j]?).map fun f => (j + 2, shortname f.path) := by
  rw [listing, getElem?_cons_succ, getElem?_cons_succ, getElem?_mapIdx]

variable {s : State} {fs : List Input} {i : ℕ}

lemma Built.super_finish (h : Built s files) :
    readsb (finish s).img.sect = sb := by
  rw [readsb, sect_finish_of_ne (by decide) (by decide), h.super]
  rfl

/-- The kernel finds the inodes of the image. -/
lemma Built.ilock_finish (h : Built s files) (hge : ROOTINO ≤ i)
    (hlt : i < s.freeinode) (hi : i < NINODES) :
    ilock sb (finish s).img.sect i = .ok ((finish s).img.dinode i) := by
  have htype : ((finish s).img.dinode i).type ≠ 0 := by
    rw [type_finish hi, h.type i hge hlt hi]
    split_ifs <;> decide
  exact if_neg htype

/-- The blocks of the files are in the image at the end. -/
lemma Built.contents_finish (h : Built s files) (hi : i < NINODES) :
    Contents (finish s).img.blk ((finish s).img.dinode i) (files i) := by
  refine (h.sound.contents i hi).congr fun bn hbn => ?_
  have hmap : mapping (finish s).img.blk ((finish s).img.dinode i) bn =
      mapping s.img.blk (s.img.dinode i) bn := by
    rw [Ino.mapping_of_addrs (addrs_finish hi)]
    exact Ino.mapping_congr fun hne =>
      blk_finish (h.sound.held.mem_range hi (Ino.indirect_mem hne)).1
  rw [hmap]
  exact blk_finish (h.sound.held.mem_range hi (h.sound.held.layout.mapping_mem hi hbn).1).1

lemma Built.filled_finish (h : Built s files) (hi : i < NINODES) :
    Ino.Filled (finish s).img.blk ((finish s).img.dinode i) (files i).length :=
  (h.filled_iff hi (h.sound.fits.1 i hi)).mpr le_rfl

/-- The root directory as the kernel reads it. -/
lemma Built.listing_finish (h : Built s (tree fs)) (hlt : fs.length + 1 < NINODES) :
    Listing (finish s).img ((finish s).img.dinode ROOTINO) (listing fs) := by
  have hroot : ROOTINO < NINODES := by decide
  have hentries : tree fs ROOTINO = (listing fs).flatMap fun e => dirent e.1 e.2 := by
    rw [tree_root, entries_eq]
  have hsmall : fs.length + 1 < 200 := hlt
  refine ⟨?_, ?_, ?_, ?_, fun e he => ?_⟩
  · rw [← hentries]
    exact h.contents_finish hroot
  · rw [← hentries]
    exact h.sound.fits.1 ROOTINO hroot
  · rw [← hentries]
    exact h.filled_finish hroot
  · rw [← hentries, dinode_finish hroot, if_pos rfl, h.size ROOTINO hroot, length_root,
      BitVec.toNat_ofNat, Nat.mod_eq_of_lt]
    · simp only [rootSize, BSIZE]
      omega
    · simp only [rootSize, BSIZE]
      omega
  · simp only [listing, mem_cons, mem_mapIdx] at he
    rcases he with rfl | rfl | ⟨j, hj, rfl⟩
    · decide
    · decide
    · exact ⟨by omega, by omega⟩

/-- What the kernel finds for a name in the root directory of an image: the number and the size
of the inode, and what `readi` reads of it. -/
def lookup (disk : Disk) (name : Str) : Except Panic (Option (ℕ × ℕ × List Byte)) := do
  let sb := readsb disk
  let dp ← ilock sb disk ROOTINO
  let (disk, _, found) ← dirlookup sb disk dp name
  match found with
  | none => .ok none
  | some (inum, _) => do
    let ip ← ilock sb disk inum
    let (_, _, bytes) ← readi sb disk ip 0 ip.size.toNat
    .ok (some (inum, ip.size.toNat, bytes))

/-- The kernel finds the first entry with the name, and what is in its inode. -/
lemma Built.dirlookup_finish (h : Built s (tree fs)) (hfree : s.freeinode = fs.length + 2)
    (hlt : fs.length + 1 < NINODES) {j : ℕ} (hj : (listing fs)[j]? = some e)
    (hfirst : ∀ (l : ℕ) e', l < j → (listing fs)[l]? = some e' → key (str e.2) ≠ key (str e'.2)) :
    dirlookup sb (finish s).img.sect ((finish s).img.dinode ROOTINO) (str e.2) =
      .ok ((finish s).img.sect, (finish s).img.dinode ROOTINO, some (e.1, direntSize * j)) := by
  have htype : ((finish s).img.dinode ROOTINO).type = tDir := by
    rw [type_finish (by decide), h.type ROOTINO le_rfl (by simp only [ROOTINO]; omega) (by decide),
      if_pos rfl]
  rw [dirlookup, if_neg (not_not.mpr htype)]
  exact dirlookupFrom_eq (h.listing_finish hlt) hj rfl (Nat.zero_le j) hfirst

/-- For files with distinct names that fit on the disk, the kernel finds every one of them under
its name, with its length and its bytes. -/
theorem lookup_of_main (fs : List Input) (hvalid : ∀ f ∈ fs, f.Valid)
    (hnum : fs.length + 1 < NINODES) (hfits : Fits (tree fs))
    (hnames : (fs.map fun f => key (str (shortname f.path))).Nodup)
    (hdots : ∀ f ∈ fs, key (str (shortname f.path)) ≠ key (str dot) ∧
      key (str (shortname f.path)) ≠ key (str dotdot)) :
    ∃ s, main fs = .ok s ∧ ∀ f ∈ fs, ∃ inum,
      lookup s.img.sect (str (shortname f.path)) = .ok (some (inum, f.bytes.length, f.bytes)) := by
  rcases main_spec fs hnum with ⟨-, -, s, hs, hfree, hb⟩ | ⟨hno, -⟩
  case inr => exact absurd ⟨hvalid, hfits⟩ hno
  refine ⟨finish s, hs, fun f hf => ?_⟩
  obtain ⟨j, hj⟩ := List.getElem?_of_mem hf
  have hjlt := (List.getElem?_eq_some_iff.mp hj).1
  have hentry : (listing fs)[j + 2]? = some (j + 2, shortname f.path) := by
    rw [getElem?_listing, hj]
    rfl
  -- no entry before this one has the name
  have hfirst : ∀ (l : ℕ) e, l < j + 2 → (listing fs)[l]? = some e →
      key (str (shortname f.path)) ≠ key (str e.2) := by
    intro l e hl he
    match l, hl, he with
    | 0, _, he =>
      cases he
      exact (hdots f hf).1
    | 1, _, he =>
      cases he
      exact (hdots f hf).2
    | l + 2, hl, he =>
      rw [getElem?_listing] at he
      obtain ⟨g, hg, rfl⟩ := Option.map_eq_some_iff.mp he
      intro heq
      have hget : ∀ (m : ℕ) x, fs[m]? = some x →
          (fs.map fun f => key (str (shortname f.path)))[m]? =
            some (key (str (shortname x.path))) := by
        intro m x hx
        rw [getElem?_map, hx]
        rfl
      have := (getElem?_inj (by rw [length_map]; omega) hnames).mp
        ((hget j f hj).trans (heq ▸ (hget l g hg).symm))
      omega
  have hi : j + 2 < NINODES := by omega
  have hroot : ROOTINO < NINODES := by decide
  have htree : tree fs (j + 2) = f.bytes := by
    rw [tree_file, hj]
    rfl
  have hsize : ((finish s).img.dinode (j + 2)).size.toNat = f.bytes.length := by
    rw [dinode_finish hi, if_neg (by simp only [ROOTINO]; omega), hb.size _ hi, htree]
  have hread : readi sb (finish s).img.sect ((finish s).img.dinode (j + 2)) 0 f.bytes.length =
      .ok ((finish s).img.sect, (finish s).img.dinode (j + 2), f.bytes) := by
    have hc := hb.contents_finish hi
    have hfill := hb.filled_finish hi
    have hlen := hb.sound.fits.1 _ hi
    rw [htree] at hc hfill hlen
    rw [readi_eq hc hlen hfill (by omega) hsize.ge, drop_zero, take_length]
  refine ⟨j + 2, ?_⟩
  have hilock := hb.ilock_finish le_rfl (by simp only [ROOTINO]; omega) hroot
  have hilock' := hb.ilock_finish (by simp only [ROOTINO]; omega) (by omega) hi
  simp only [lookup, hb.super_finish, hilock, bind, Except.bind,
    hb.dirlookup_finish hfree hnum hentry hfirst, hilock', hsize, hread]

theorem lookup_of_main_sample : ∃ s, main [sampleFile] = .ok s ∧ ∃ inum,
    lookup s.img.sect (str [97, 98]) = .ok (some (inum, 3, [1, 2, 3])) := by
  obtain ⟨s, hs, hlookup⟩ := lookup_of_main [sampleFile] (by
      intro f hf
      rw [mem_singleton.mp hf]
      exact ⟨by decide, Option.some_ne_none _⟩)
    (by decide) ⟨by decide +kernel, by decide +kernel⟩ (nodup_singleton _)
    (by
      intro f hf
      rw [mem_singleton.mp hf]
      decide)
  exact ⟨s, hs, hlookup sampleFile (mem_singleton_self _)⟩

/-- A file with the name `_.`, which is `.` in the image. -/
def dotFile : Input := ⟨[95, 46], some []⟩

/-- The entry of a file with the name `.` is behind the one for the directory itself. -/
theorem not_lookup_of_dot : ∃ fs : List Input, (∀ f ∈ fs, f.Valid) ∧ fs.length + 1 < NINODES ∧
    Fits (tree fs) ∧ (fs.map fun f => key (str (shortname f.path))).Nodup ∧
    ¬ ∃ s, main fs = .ok s ∧ ∀ f ∈ fs, ∃ inum,
      lookup s.img.sect (str (shortname f.path)) = .ok (some (inum, f.bytes.length, f.bytes)) := by
  have hnum : [dotFile].length + 1 < NINODES := by decide
  refine ⟨[dotFile], fun f hf => ?_, hnum, ⟨by decide +kernel, by decide +kernel⟩,
    nodup_singleton _, ?_⟩
  · rw [mem_singleton.mp hf]
    exact ⟨by decide, Option.some_ne_none _⟩
  rintro ⟨s', hs', hall⟩
  rcases main_spec [dotFile] hnum with ⟨-, -, s, hs, hfree, hb⟩ | ⟨-, hno⟩
  case inr => exact hno s' hs'
  obtain rfl := Except.ok.inj (hs.symm.trans hs')
  obtain ⟨inum, hlookup⟩ := hall dotFile (mem_singleton_self _)
  have hdir := hb.dirlookup_finish hfree hnum rfl fun l _ hl => absurd hl (Nat.not_lt_zero l)
  have hilock := hb.ilock_finish le_rfl (by rw [hfree]; decide) (by decide)
  have hname : str (shortname dotFile.path) = str dot := rfl
  rw [hname] at hlookup
  simp only [lookup, hb.super_finish, hilock, bind, Except.bind, hdir] at hlookup
  split at hlookup
  · cases hlookup
  -- the size is that of the directory
  have hsize : ((finish s).img.dinode ROOTINO).size.toNat = 0 :=
    (Prod.mk.inj (Prod.mk.inj (Option.some.inj (Except.ok.inj hlookup))).2).1
  rw [dinode_finish (by decide), if_pos rfl, hb.size ROOTINO (by decide), length_root] at hsize
  exact absurd (show (BitVec.ofNat 32 (rootSize (16 * (1 + 2)))).toNat = 0 from hsize) (by decide)

end Hexv6.Mkfs
