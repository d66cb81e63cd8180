import Hexv6.Mkfs.Build

/-!
# When the image is well formed

The image of `mkfs` is as the kernel expects it, except in two cases.  `ialloc` hands out
numbers without a bound, so that with `NINODES - 1` files or more the last ones have numbers that
the super block does not admit.  And the size of the root directory is rounded up to the next
multiple of the size of a block even if it is a multiple already: the directory then has a last
block without an address.
-/

namespace Hexv6.Mkfs

open Lib State List
open Blk (Byte Block Inode)

variable {s s' : State} {i : ℕ} {files : ℕ → List Byte} {fs : List Input} {p : List Byte} {n : ℕ}

/-! ### The free map -/

lemma bit_bitmap (n : ℕ) {b : ℕ} (hb : b < BPB) : (bitmap n).bit b = decide (b < n) := by
  induction n with
  | zero => simp [bitmap]
  | succ n ih =>
    rw [bitmap, range_succ, foldl_append]
    show ((bitmap n).setBit n).bit b = _
    rw [Block.bit_setBit hb, ih, ← Bool.decide_or]
    exact decide_eq_decide.mpr (by omega)

/-! ### The numbers of inodes -/

section Freeinode

lemma freeinode_winode {d : Inode} (h : s.winode i d = .ok s') : s'.freeinode = s.freeinode := by
  obtain ⟨_, -, h⟩ := bind_eq_ok.1 h
  cases h
  rfl

lemma freeinode_allocAddr (din : Inode) (l : Fin (NDIRECT + 1)) :
    (s.allocAddr din l).1.freeinode = s.freeinode := by
  rw [allocAddr]
  split_ifs <;> rfl

lemma freeinode_allocWord {a x : BitVec 32} {j : ℕ} (h : s.allocWord a j = .ok (s', x)) :
    s'.freeinode = s.freeinode := by
  obtain ⟨_, -, h⟩ := bind_eq_ok.1 h
  split_ifs at h <;> cases h <;> rfl

lemma freeinode_fileBlock {din : Inode} {c : ℕ} {r : State × Inode × BitVec 32}
    (h : s.fileBlock din c = .ok r) : r.1.freeinode = s.freeinode := by
  rw [fileBlock] at h
  split_ifs at h
  · cases h
    exact freeinode_allocAddr din _
  obtain ⟨_, hw, h⟩ := bind_eq_ok.1 h
  cases h
  exact (freeinode_allocWord hw).trans (freeinode_allocAddr din _)

lemma freeinode_iappendFrom {din din' : Inode} {off off' : ℕ}
    (h : s.iappendFrom din off p = .ok (s', din', off')) : s'.freeinode = s.freeinode := by
  induction hn : p.length using Nat.strong_induction_on generalizing p s din off with
  | _ n ih =>
  rw [iappendFrom] at h
  split_ifs at h with hp hm
  · cases h
    rfl
  have hlt := chunk_pos off (length_pos_iff.mpr hp)
  have hpos := length_pos_iff.mpr hp
  obtain ⟨_, hs, h⟩ := bind_eq_ok.1 h
  obtain ⟨_, -, h⟩ := bind_eq_ok.1 h
  refine (ih _ ?_ h rfl).trans (freeinode_fileBlock hs)
  rw [length_drop]
  omega

lemma freeinode_iappend (h : s.iappend i p = .ok s') :
    s'.freeinode = s.freeinode := by
  obtain ⟨_, -, h⟩ := bind_eq_ok.1 h
  obtain ⟨_, hs, h⟩ := bind_eq_ok.1 h
  exact (freeinode_winode h).trans (freeinode_iappendFrom hs)

lemma freeinode_reads {reads : List (List Byte)}
    (h : reads.foldlM (fun s p => s.iappend i p) s = .ok s') : s'.freeinode = s.freeinode := by
  induction reads generalizing s with
  | nil =>
    cases h
    rfl
  | cons p reads ih =>
    rw [foldlM_cons] at h
    obtain ⟨_, hs, h⟩ := bind_eq_ok.1 h
    exact (ih h).trans (freeinode_iappend hs)

lemma freeinode_ialloc {type : BitVec 16} (h : s.ialloc type = .ok (s', i)) :
    s'.freeinode = s.freeinode + 1 := by
  obtain ⟨_, hs, h⟩ := bind_eq_ok.1 h
  cases h
  exact freeinode_winode hs

lemma freeinode_addFile {f : Input} (h : addFile i s f = .ok s') :
    s'.freeinode = s.freeinode + 1 := by
  rw [addFile] at h
  split_ifs at h
  split at h
  · cases h
  obtain ⟨_, hs, h⟩ := bind_eq_ok.1 h
  obtain ⟨_, hs', h⟩ := bind_eq_ok.1 h
  exact (freeinode_reads h).trans ((freeinode_iappend hs').trans (freeinode_ialloc hs))

lemma freeinode_addFiles (h : fs.foldlM (addFile i) s = .ok s') :
    s'.freeinode = s.freeinode + fs.length := by
  induction fs generalizing s with
  | nil =>
    cases h
    rfl
  | cons f fs ih =>
    rw [foldlM_cons] at h
    obtain ⟨_, hs, h⟩ := bind_eq_ok.1 h
    rw [ih h, freeinode_addFile hs, length_cons]
    omega

/-- The numbers are handed out in order, whatever the files are. -/
lemma freeinode_main (h : main fs = .ok s) : s.freeinode = fs.length + 2 := by
  obtain ⟨⟨_, _⟩, h1, h⟩ := bind_eq_ok.1 h
  simp only at h
  split_ifs at h
  obtain ⟨_, h2, h⟩ := bind_eq_ok.1 h
  obtain ⟨_, h3, h⟩ := bind_eq_ok.1 h
  obtain ⟨_, h4, h⟩ := bind_eq_ok.1 h
  obtain ⟨_, -, h⟩ := bind_eq_ok.1 h
  obtain ⟨_, h5, h⟩ := bind_eq_ok.1 h
  rw [balloc] at h
  split_ifs at h
  cases h
  rw [show ∀ (s : State) k b, (s.wsect k b).freeinode = s.freeinode from
    fun _ _ _ => rfl, freeinode_winode h5, freeinode_addFiles h4, freeinode_iappend h3,
    freeinode_iappend h2, freeinode_ialloc h1]
  show 1 + 1 + fs.length = _
  omega

end Freeinode

/-! ### The end of main -/

/-- The last two writes do not touch data blocks. -/
lemma blk_finish {a : BitVec 32} (ha : nmeta ≤ a.toNat) : (finish s).img.blk a = s.img.blk a := by
  have hne : a.toNat ≠ sb.bmapstart := by
    have : sb.bmapstart < nmeta := by decide
    omega
  exact (Function.update_of_ne hne ..).trans (blk_putInode (by decide) ha)

lemma sect_finish_of_ne {k : ℕ} (hk : k ≠ sb.bmapstart) (hk' : k ≠ iblock ROOTINO) :
    (finish s).img.sect k = s.img.sect k := by
  simp only [finish, State.wsect, Image.wsect, Function.update_of_ne hk]
  exact sect_putInode_of_ne hk'

lemma sect_finish_bmapstart : (finish s).img.sect sb.bmapstart = bitmap s.freeblock := by
  simp only [finish, State.wsect, Image.wsect, Function.update_self]

/-- Of the inodes only the size of the root directory changes. -/
lemma dinode_finish (hi : i < NINODES) : (finish s).img.dinode i =
    if i = ROOTINO then { s.img.dinode ROOTINO with
      size := BitVec.ofNat 32 (rootSize (s.img.dinode ROOTINO).size.toNat) }
    else s.img.dinode i := by
  have hsect : (finish s).img.sect (iblock i) = (putInode s ROOTINO { s.img.dinode ROOTINO with
      size := BitVec.ofNat 32 (rootSize (s.img.dinode ROOTINO).size.toNat) }).img.sect (iblock i) :=
    Function.update_of_ne (iblock_bounds hi).2.ne ..
  rw [Image.dinode, hsect, ← Image.dinode, dinode_putInode, Function.update_apply]

lemma addrs_finish (hi : i < NINODES) :
    ((finish s).img.dinode i).addrs = (s.img.dinode i).addrs := by
  rw [dinode_finish hi]
  split_ifs with hroot
  · rw [hroot]
  · rfl

lemma type_finish (hi : i < NINODES) : ((finish s).img.dinode i).type = (s.img.dinode i).type := by
  rw [dinode_finish hi]
  split_ifs with hroot
  · rw [hroot]
  · rfl

lemma Built.layout_finish (h : Built s files) : Layout (finish s).img.blk (finish s).img.dinode
    s.freeblock fun j => blocks (files j).length :=
  h.sound.held.layout.congr (fun _ => blk_finish) fun _ => addrs_finish

/-- A file has its blocks up to a size exactly if they are below its number of blocks. -/
lemma Built.filled_iff (h : Built s files) (hi : i < NINODES) (hn : n ≤ MAXFILE * BSIZE) :
    Ino.Filled (finish s).img.blk ((finish s).img.dinode i) n ↔
    blocks n ≤ blocks (files i).length := by
  constructor
  · intro hfilled
    by_contra hlt
    have hlt' := not_le.mp hlt
    -- the first block that is missing
    have hm : blocks (files i).length < MAXFILE := by
      simp only [blocks, BSIZE] at hlt' hn ⊢
      omega
    have hne := hfilled _ hm (by simp only [blocks, BSIZE] at hlt' ⊢; omega)
    exact lt_irrefl _ ((h.layout_finish.mapped i hi _ hm).mp hne)
  · intro hle bn hm hbn
    refine (h.layout_finish.mapped i hi bn hm).mpr (lt_of_lt_of_le ?_ hle)
    simp only [blocks, BSIZE] at hbn ⊢
    omega

/-- The length of the root directory. -/
lemma length_root (fs : List Input) : (tree fs ROOTINO).length = 16 * (fs.length + 2) := by
  rw [tree_root, length_entries]
  rfl

/-- The root directory has all its blocks unless its entries fill the last one. -/
lemma filled_root_iff (h : Built s (tree fs)) (hlt : fs.length + 1 < NINODES) :
    Ino.Filled (finish s).img.blk ((finish s).img.dinode ROOTINO)
        ((finish s).img.dinode ROOTINO).size.toNat ↔
      (fs.length + 2) % (BSIZE / direntSize) ≠ 0 := by
  have hlen := length_root fs
  have hsmall : fs.length + 1 < 200 := hlt
  have hsize : ((finish s).img.dinode ROOTINO).size.toNat = rootSize (16 * (fs.length + 2)) := by
    rw [dinode_finish (by decide), if_pos rfl, h.size ROOTINO (by decide), hlen, BitVec.toNat_ofNat]
    refine Nat.mod_eq_of_lt ?_
    simp only [rootSize, BSIZE]
    omega
  have hroom : rootSize (16 * (fs.length + 2)) ≤ MAXFILE * BSIZE := by
    simp only [rootSize, MAXFILE, NDIRECT, NINDIRECT, BSIZE]
    omega
  rw [hsize, h.filled_iff (by decide) hroom, hlen]
  simp only [blocks, rootSize, BSIZE, direntSize, DIRSIZ]
  omega

/-- The parts of the image that do not depend on the number of files. -/
lemma Built.wellFormed_iff (h : Built s (tree fs)) (hfree : s.freeinode = fs.length + 2)
    (hlt : fs.length + 1 < NINODES) :
    WellFormed (finish s) ↔ (fs.length + 2) % (BSIZE / direntSize) ≠ 0 := by
  have hlayout := h.layout_finish
  refine ⟨fun hw => (filled_root_iff h hlt).mp (hw.filled ROOTINO (by decide)).2, fun hroot => ?_⟩
  refine
    { inodes := fun inum _ hu => ?_, range := fun inum hi a ha => ?_, once := hlayout.nodup
      bitmap := fun b hb => ?_, filled := fun inum hi => ?_ }
  · have hu' : inum < s.freeinode := hu
    omega
  · obtain ⟨h1, h2⟩ := of_mem_given hlayout.fb_le (hlayout.mem_given hi ha)
    exact ⟨h1, h2.trans_le hlayout.fb_le⟩
  · have hb' : b < BPB := by simpa [nbitmap, FSSIZE, BSIZE] using hb
    rw [Nat.div_eq_of_lt hb', Nat.mod_eq_of_lt hb', Nat.add_zero,
      sect_finish_bmapstart, bit_bitmap _ hb', decide_eq_true_eq]
    rfl
  · rcases eq_or_ne inum ROOTINO with rfl | hne
    · refine ⟨?_, (filled_root_iff h hlt).mpr hroot⟩
      have hsmall : fs.length + 1 < 200 := hlt
      rw [dinode_finish hi, if_pos rfl, h.size ROOTINO hi, length_root]
      refine (Nat.mod_le _ _).trans ?_
      simp only [rootSize, MAXFILE, NDIRECT, NINDIRECT, BSIZE]
      omega
    have hfit := h.sound.fits.1 inum hi
    have hsize : ((finish s).img.dinode inum).size.toNat = (tree fs inum).length := by
      rw [dinode_finish hi, if_neg hne, h.size inum hi]
    rw [hsize]
    exact ⟨hfit, (h.filled_iff hi hfit).mpr le_rfl⟩

/-- A file without bytes. -/
def emptyFile : Input := ⟨[97], some []⟩

/-- Any number of empty files fits. -/
lemma fits_of_empty (hn : n + 1 < NINODES) : Fits (tree (replicate n emptyFile)) := by
  have hlen : (replicate n emptyFile).length = n := length_replicate
  have hother : ∀ i, i ≠ ROOTINO → tree (replicate n emptyFile) i = [] := by
    intro i hi
    rw [tree, if_neg hi]
    split_ifs
    · rfl
    · rw [getElem?_replicate]
      split_ifs <;> rfl
  have hroot := length_root (replicate n emptyFile)
  rw [hlen] at hroot
  simp only [NINODES] at hn
  constructor
  · intro i _
    rcases eq_or_ne i ROOTINO with rfl | hi
    · rw [hroot]
      simp only [MAXFILE, NDIRECT, NINDIRECT, BSIZE]
      omega
    · rw [hother i hi]
      exact Nat.zero_le _
  rw [total, Finset.sum_eq_single ROOTINO (fun i _ hi => by rw [hother i hi]; decide)
    (fun h => absurd (Finset.mem_range.mpr (by decide)) h), hroot]
  have hcost : cost (blocks (16 * (n + 2))) ≤ 5 := by
    have hblocks : blocks (16 * (n + 2)) ≤ 4 := by
      simp only [blocks, BSIZE]
      omega
    rw [cost, if_neg (by simp only [NDIRECT]; omega)]
    omega
  have : nmeta + 5 ≤ FSSIZE := by decide
  omega

/-- `mkfs` succeeds for empty files. -/
lemma main_empty (hn : n + 1 < NINODES) :
    ∃ s, main (replicate n emptyFile) = .ok s := by
  have hvalid : ∀ f ∈ replicate n emptyFile, f.Valid := by
    intro f hf
    rw [eq_of_mem_replicate hf]
    exact ⟨by decide, Option.some_ne_none _⟩
  rcases main_spec (replicate n emptyFile) (by rwa [length_replicate]) with
    ⟨-, -, s, hs, -⟩ | ⟨hno, -⟩
  · exact ⟨_, hs⟩
  · exact absurd ⟨hvalid, fits_of_empty hn⟩ hno

/-- The image of `mkfs` is well formed exactly if the numbers of the inodes are below `NINODES`
and the entries of the root directory do not end at the end of a block. -/
theorem wellFormed_iff_of_main {fs : List Input} {s : State} (h : main fs = .ok s) :
    WellFormed s ↔ fs.length + 1 < NINODES ∧ (fs.length + 2) % (BSIZE / direntSize) ≠ 0 := by
  by_cases hlt : fs.length + 1 < NINODES
  · rcases main_spec fs hlt with ⟨-, -, s1, hs1, hfree, hb⟩ | ⟨-, hno⟩
    · obtain rfl := Except.ok.inj (hs1.symm.trans h)
      rw [hb.wellFormed_iff hfree hlt, and_iff_right hlt]
    · exact absurd h (hno s)
  refine iff_of_false (fun hw => hlt ?_) fun hc => hlt hc.1
  -- the last file has a number that is too large
  exact hw.inodes (fs.length + 1) (by omega) (by rw [freeinode_main h]; omega)

/-- The program `user/_ab`, of three bytes that are read in two calls. -/
def sampleFile : Input := ⟨[117, 115, 101, 114, 47, 95, 97, 98], some [[1, 2], [3]]⟩

/-- This file and one that needs a second block. -/
def samples : List Input := [sampleFile, ⟨[98], some [replicate 1025 7]⟩]

lemma samples_ok : (∀ f ∈ samples, f.Valid) ∧ Fits (tree samples) := by
  refine ⟨fun f hf => ?_, by decide +kernel, by decide +kernel⟩
  simp only [samples, mem_cons, not_mem_nil, or_false] at hf
  rcases hf with rfl | rfl <;> exact ⟨by decide, Option.some_ne_none _⟩

theorem wellFormed_iff_of_main_samples : ∃ s, main samples = .ok s ∧ WellFormed s := by
  rcases main_spec samples (by decide) with ⟨-, -, s, hs, -⟩ | ⟨hno, -⟩
  · exact ⟨_, hs, (wellFormed_iff_of_main hs).mpr (by decide)⟩
  · exact absurd samples_ok hno

/-- With 62 files the entries of the root directory fill its first block, and its second block
has no address. -/
theorem not_wellFormed_of_full : ∃ fs s, main fs = .ok s ∧ ¬ WellFormed s := by
  obtain ⟨s, hs⟩ := main_empty (n := 62) (by decide)
  rcases main_spec (replicate 62 emptyFile) (by decide) with ⟨-, -, s1, hs1, hfree, hb⟩ | ⟨-, hno⟩
  · refine ⟨_, _, hs1, fun hw => ?_⟩
    have := (hb.wellFormed_iff hfree (by decide)).mp hw
    exact this (by decide)
  · exact absurd hs (hno s)

/-- `mkfs` comes to `exit(0)` exactly if all files can be opened, are not too long and have room
on the disk. -/
theorem main_ok_iff {fs : List Input} (hlt : fs.length + 1 < NINODES) :
    (∃ s, main fs = .ok s) ↔ (∀ f ∈ fs, f.Valid) ∧ Fits (tree fs) := by
  rcases main_spec fs hlt with ⟨hv, hfits, s, hs, -⟩ | ⟨hn, hno⟩
  · exact iff_of_true ⟨_, hs⟩ ⟨hv, hfits⟩
  · exact iff_of_false (fun hs => hs.elim hno) hn

theorem main_ok_iff_samples : ∃ s, main samples = .ok s := (main_ok_iff (by decide)).2 samples_ok

end Hexv6.Mkfs
