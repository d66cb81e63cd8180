import Hexv6.Lib.Assoc
import Hexv6.Mkfs.Append

/-!
# The image that mkfs builds

Every call of `ialloc` and `iappend` keeps the files as they are on the image.  The image of
`main` has the root directory with an entry for every file, in order, and the files, as long as
the inode numbers stay below `NINODES`.
-/

namespace Hexv6.Mkfs

open Lib State List Function
open Blk (Byte Block Inode)
open Ino (footprint mapping)
open Dir (slash)

/-- The image has these files. -/
structure Built (s : State) (files : ℕ → List Byte) : Prop where
  sound : Sound s s.img.dinode files
  size : ∀ i < NINODES, (s.img.dinode i).size.toNat = (files i).length
  super : s.img.sect 1 = sb.block
  unused : ∀ i, s.freeinode ≤ i → i < NINODES → files i = []
  type : ∀ i, ROOTINO ≤ i → i < s.freeinode → i < NINODES →
    (s.img.dinode i).type = if i = ROOTINO then tDir else tFile

variable {s s' : State} {i j : ℕ} {d : Inode} {files : ℕ → List Byte}

/-! ### Inodes on disk -/

/-- The blocks of the inodes are between the super block and the free map. -/
lemma iblock_bounds (hi : i < NINODES) : 1 < iblock i ∧ iblock i < sb.bmapstart := by
  simp only [iblock, sb, nlog, LOGSIZE, MAXOPBLOCKS, ninodeblocks, NINODES, IPB, BSIZE,
    dinodeSize, NDIRECT] at hi ⊢
  omega

/-- The state after `winode`. -/
def putInode (s : State) (i : ℕ) (d : Inode) : State :=
  s.wsect (iblock i) ((s.img.sect (iblock i)).setDinode (i % IPB) d)

lemma winode_eq (hlen : s.img.len = FSSIZE) (hi : i < NINODES) :
    s.winode i d = .ok (putInode s i d) := by
  have hlt : iblock i < FSSIZE := (iblock_bounds hi).2.trans (by decide)
  simp only [winode, rsect_of_lt hlen hlt, bind, Except.bind, putInode]

lemma rinode_eq (hlen : s.img.len = FSSIZE) (hi : i < NINODES) :
    s.rinode i = .ok (s.img.dinode i) := by
  have hlt : iblock i < FSSIZE := (iblock_bounds hi).2.trans (by decide)
  simp only [rinode, rsect_of_lt hlen hlt, bind, Except.bind, Image.dinode]

lemma dinode_putInode (s : State) (i : ℕ) (d : Inode) :
    (putInode s i d).img.dinode = update s.img.dinode i d := by
  have hmod : ∀ j, j % IPB < IPB := fun j => Nat.mod_lt _ (by decide)
  funext j
  by_cases hb : iblock j = iblock i
  · have hblock : (putInode s i d).img.sect (iblock j) =
        (s.img.sect (iblock i)).setDinode (i % IPB) d := by
      rw [hb]
      exact update_self ..
    rw [Image.dinode, hblock]
    rcases eq_or_ne j i with rfl | hji
    · rw [update_self, Block.dinode_setDinode_self (hmod j)]
    rw [update_of_ne hji, Block.dinode_setDinode_of_ne (hmod j), Image.dinode, hb]
    -- inodes of one block have different places
    intro hmod'
    refine hji ?_
    have hdiv : j / IPB = i / IPB := Nat.add_right_cancel hb
    rw [← Nat.div_add_mod j IPB, ← Nat.div_add_mod i IPB, hdiv, hmod']
  · have hji : j ≠ i := fun h => hb (h ▸ rfl)
    rw [update_of_ne hji, Image.dinode, Image.dinode]
    exact congrArg (fun b : Block => b.dinode (j % IPB)) (update_of_ne hb ..)

lemma sect_putInode_of_ne {k : ℕ} (hk : k ≠ iblock i) :
    (putInode s i d).img.sect k = s.img.sect k := update_of_ne hk ..

/-- Writing an inode leaves the data alone. -/
lemma blk_putInode (hi : i < NINODES) {a : BitVec 32} (ha : nmeta ≤ a.toNat) :
    (putInode s i d).img.blk a = s.img.blk a := by
  refine sect_putInode_of_ne ?_
  have hlt : iblock i < nmeta := (iblock_bounds hi).2.trans (by decide)
  omega

/-- An inode is written back whose blocks are already those of the file. -/
lemma Sound.putInode {node : ℕ → Inode} (h : Sound s node files) (hi : i < NINODES)
    (hself : d.addrs = (node i).addrs) (hother : ∀ j < NINODES, j ≠ i → node j = s.img.dinode j) :
    Sound (putInode s i d) (putInode s i d).img.dinode files := by
  have hlt : iblock i < s.img.len := by
    rw [h.held.len]
    exact (iblock_bounds hi).2.trans (by decide)
  have haddrs : ∀ j < NINODES, ((Mkfs.putInode s i d).img.dinode j).addrs = (node j).addrs := by
    intro j hj
    rw [dinode_putInode]
    rcases eq_or_ne j i with rfl | hji
    · rw [update_self]
      exact hself
    · rw [update_of_ne hji, hother j hj hji]
  have hblk : ∀ a, nmeta ≤ a.toNat → (Mkfs.putInode s i d).img.blk a = s.img.blk a :=
    fun a ha => blk_putInode hi ha
  refine ⟨⟨?_, h.held.layout.congr hblk haddrs, fun j hj => ?_, h.held.total⟩, fun j hj => ?_⟩
  · exact (len_wsect hlt _).trans h.held.len
  · rw [haddrs j hj]
    exact h.held.ind j hj
  refine (h.contents j hj).congr fun bn hbn => ?_
  have hmap : mapping (Mkfs.putInode s i d).img.blk ((Mkfs.putInode s i d).img.dinode j) bn =
      mapping s.img.blk (node j) bn := by
    rw [Ino.mapping_of_addrs (haddrs j hj)]
    refine Ino.mapping_congr fun hne => hblk _ ?_
    exact (h.held.mem_range hj (Ino.indirect_mem hne)).1
  rw [hmap, hblk _ (h.held.mem_range hj (h.held.layout.mapping_mem hj hbn).1).1]

/-! ### `ialloc` and `iappend` -/

/-- The inodes of the image are the same when the metadata are. -/
lemma Apart.dinode (h : Apart s s') (hi : i < NINODES) : s'.img.dinode i = s.img.dinode i := by
  have hlt : iblock i < nmeta := (iblock_bounds hi).2.trans (by decide)
  rw [Image.dinode, Image.dinode, h.sect _ hlt]

/-- A file without bytes has no blocks. -/
lemma Built.addrs_eq_zero (h : Built s files) (hi : i < NINODES) (hempty : files i = []) :
    (s.img.dinode i).addrs = fun _ => 0 := by
  have hcap : blocks (files i).length = 0 := by
    rw [hempty]
    decide
  funext l
  refine Fin.lastCases ?_ (fun l => ?_) l
  · by_contra hne
    have := (h.sound.held.ind i hi).mp hne
    rw [hcap] at this
    omega
  have hm : (l : ℕ) < MAXFILE := l.isLt.trans (by decide)
  have hzero := h.sound.held.layout.mapping_eq_zero hi hm (hcap.le.trans (Nat.zero_le _))
  rwa [Ino.mapping_of_direct l.isLt, Ino.direct_eq l.isLt] at hzero

/-- `ialloc` makes an inode for an empty file. -/
lemma Built.ialloc (h : Built s files) (hi : s.freeinode < NINODES) (type : BitVec 16)
    (htype : type = if s.freeinode = ROOTINO then tDir else tFile) :
    ∃ s', s.ialloc type = .ok (s', s.freeinode) ∧ s'.freeinode = s.freeinode + 1 ∧
      Built s' files := by
  set d : Inode := { Inode.fresh type with nlink := 1 } with hd
  set s1 : State := { s with freeinode := s.freeinode + 1 } with hs1
  have hempty := h.unused _ le_rfl hi
  have hsound : Sound s1 s.img.dinode files := ⟨⟨h.sound.held.len, h.sound.held.layout,
    h.sound.held.ind, h.sound.held.total⟩, h.sound.contents⟩
  have hdinode : (putInode s1 s.freeinode d).img.dinode =
      update s.img.dinode s.freeinode d := dinode_putInode s1 s.freeinode d
  refine ⟨putInode s1 s.freeinode d, ?_, rfl, ?_⟩
  · have hw := winode_eq (s := s1) (d := d) h.sound.held.len hi
    simp only [State.ialloc, bind, Except.bind]
    rw [hw]
  refine
    { sound := hsound.putInode hi (h.addrs_eq_zero hi hempty).symm fun _ _ _ => rfl
      size := fun i hi' => ?_, super := ?_
      unused := fun i hle => h.unused i (Nat.le_of_succ_le hle), type := fun i hge hlt hi' => ?_ }
  · rw [hdinode]
    rcases eq_or_ne i s.freeinode with rfl | hne
    · rw [update_self, hempty]
      rfl
    · rw [update_of_ne hne]
      exact h.size i hi'
  · exact (sect_putInode_of_ne (iblock_bounds hi).1.ne).trans h.super
  rw [hdinode]
  rcases eq_or_ne i s.freeinode with rfl | hne
  · rw [update_self]
    exact htype
  · rw [update_of_ne hne]
    exact h.type i hge (lt_of_le_of_ne (Nat.le_of_lt_succ hlt) hne) hi'

/-- `iappend` succeeds exactly if the bytes fit. -/
lemma Built.iappend (h : Built s files) (hi : i < NINODES) (hused : i < s.freeinode)
    (p : List Byte) :
    (Fits (update files i (files i ++ p)) ∧ ∃ s', s.iappend i p = .ok s' ∧
      s'.freeinode = s.freeinode ∧ Built s' (update files i (files i ++ p))) ∨
    (¬ Fits (update files i (files i ++ p)) ∧ ∀ s', s.iappend i p ≠ .ok s') := by
  have hsound : Sound s (update s.img.dinode i (s.img.dinode i)) files := by
    rw [update_eq_self]
    exact h.sound
  have hstep : s.iappend i p = (s.iappendFrom (s.img.dinode i) (files i).length p).bind fun r =>
      r.1.winode i { r.2.1 with size := BitVec.ofNat 32 r.2.2 } := by
    simp only [State.iappend, rinode_eq h.sound.held.len hi, h.size i hi, bind, Except.bind]
  rcases iappendFrom_spec hi hsound rfl with
    ⟨hfits, s', din', hs, hs', hapart, htype⟩ | ⟨hn, hfail⟩
  · set d : Inode := { din' with size := BitVec.ofNat 32 ((files i).length + p.length) } with hd
    have hnode : ∀ j < NINODES, j ≠ i → update s.img.dinode i din' j = s'.img.dinode j := by
      intro j hj hji
      rw [update_of_ne hji, hapart.dinode hj]
    have hlen := hfits.1 i hi
    rw [update_self, length_append] at hlen
    refine .inl ⟨hfits, putInode s' i d, ?_, hapart.freeinode, ?_⟩
    · rw [hstep, hs]
      exact winode_eq hs'.held.len hi
    refine
      { sound := hs'.putInode hi (by rw [update_self]) hnode, size := fun j hj => ?_
        super := ?_, unused := fun j hle hj => ?_, type := fun j hge hlt hj => ?_ }
    · rw [dinode_putInode]
      rcases eq_or_ne j i with rfl | hji
      · rw [update_self, update_self, length_append, hd]
        rw [BitVec.toNat_ofNat]
        refine Nat.mod_eq_of_lt (hlen.trans_lt ?_)
        decide
      · rw [update_of_ne hji, update_of_ne hji, hapart.dinode hj]
        exact h.size j hj
    · rw [sect_putInode_of_ne (iblock_bounds hi).1.ne, hapart.sect 1 (by decide)]
      exact h.super
    · have hle' : s.freeinode ≤ j := hapart.freeinode ▸ hle
      have hji : j ≠ i := (hused.trans_le hle').ne'
      rw [update_of_ne hji]
      exact h.unused j hle' hj
    · have hold := h.type j hge (hapart.freeinode ▸ hlt) hj
      rw [dinode_putInode]
      rcases eq_or_ne j i with rfl | hji
      · rw [update_self, hd]
        exact htype.trans hold
      · rw [update_of_ne hji, hapart.dinode hj]
        exact hold
  · refine .inr ⟨hn, fun s' hs' => ?_⟩
    rw [hstep] at hs'
    obtain ⟨r, hr, -⟩ := bind_eq_ok.1 hs'
    exact hfail r hr

/-! ### The files -/

/-- Shorter files fit as well. -/
lemma Fits.mono {files' : ℕ → List Byte} (h : Fits files')
    (hle : ∀ j, (files j).length ≤ (files' j).length) : Fits files := by
  refine ⟨fun j hj => (hle j).trans (h.1 j hj), le_trans ?_ h.2⟩
  refine Nat.add_le_add_left (Finset.sum_le_sum fun j _ => cost_mono ?_) _
  exact Nat.div_le_div_right (by have := hle j; omega)

/-- The loop over the reads of a file. -/
lemma Built.reads (h : Built s files) (hi : i < NINODES) (hused : i < s.freeinode)
    (reads : List (List Byte)) :
    (Fits (update files i (files i ++ reads.flatten)) ∧
      ∃ s', reads.foldlM (fun s p => s.iappend i p) s = .ok s' ∧ s'.freeinode = s.freeinode ∧
        Built s' (update files i (files i ++ reads.flatten))) ∨
    (¬ Fits (update files i (files i ++ reads.flatten)) ∧
      ∀ s', reads.foldlM (fun s p => s.iappend i p) s ≠ .ok s') := by
  induction reads generalizing s files with
  | nil =>
    refine .inl ?_
    rw [flatten_nil, append_nil, update_eq_self]
    exact ⟨h.sound.fits, s, rfl, rfl, h⟩
  | cons p reads ih =>
    have hfiles : update (update files i (files i ++ p)) i
        (update files i (files i ++ p) i ++ reads.flatten) =
        update files i (files i ++ (p :: reads).flatten) := by
      rw [update_idem, update_self, append_assoc, flatten_cons]
    rcases h.iappend hi hused p with ⟨-, s1, hs1, hfree, hbuilt⟩ | ⟨hn, hfail⟩
    · have hrec := ih hbuilt (hfree ▸ hused)
      rw [hfiles, hfree] at hrec
      rw [foldlM_cons, hs1]
      exact hrec
    refine .inr ⟨fun hfits => hn (hfits.mono fun j => ?_), fun s' hs' => ?_⟩
    · rcases eq_or_ne j i with rfl | hji
      · rw [update_self, update_self, flatten_cons]
        simp only [length_append]
        omega
      · rw [update_of_ne hji, update_of_ne hji]
    rw [foldlM_cons] at hs'
    obtain ⟨s1, hs, -⟩ := bind_eq_ok.1 hs'
    exact hfail s1 hs

/-- The bytes of a file. -/
def Input.bytes (f : Input) : List Byte := (f.reads.getD []).flatten

/-- The file can be opened and has a name without `/`. -/
def Input.Valid (f : Input) : Prop := slash ∉ hostname f.path ∧ f.reads ≠ none

/-- The entries of the root directory. -/
def entries (fs : List Input) : List Byte :=
  dirent ROOTINO dot ++ dirent ROOTINO dotdot ++
    (fs.mapIdx fun j f => dirent (j + 2) (shortname f.path)).flatten

/-- The files of the image by the number of their inode. -/
def tree (fs : List Input) (i : ℕ) : List Byte :=
  if i = ROOTINO then entries fs
  else if i = 0 then []
  else ((fs[i - 2]?).map Input.bytes).getD []

lemma tree_root (fs : List Input) : tree fs ROOTINO = entries fs := if_pos rfl

lemma tree_file (fs : List Input) (j : ℕ) :
    tree fs (j + 2) = ((fs[j]?).map Input.bytes).getD [] := by
  rw [tree, if_neg (by simp only [ROOTINO]; omega), if_neg (by omega)]
  rfl

lemma entries_concat (fs : List Input) (f : Input) :
    entries (fs ++ [f]) = entries fs ++ dirent (fs.length + 2) (shortname f.path) := by
  rw [entries, mapIdx_concat, flatten_concat, entries, append_assoc _ _ (dirent _ _)]

lemma length_dirent (n : ℕ) (name : List UInt8) : (dirent n name).length = direntSize := by
  rw [dirent, length_append, length_map, Dir.length_strncpy]
  rfl

lemma length_entries (fs : List Input) : (entries fs).length = direntSize * (fs.length + 2) := by
  induction fs using reverseRecOn with
  | nil =>
    rw [entries, length_append, length_append, length_dirent, length_dirent]
    rfl
  | append_singleton fs f ih =>
    rw [entries_concat, length_append, ih, length_dirent, length_append]
    simp only [length_cons, length_nil]
    ring

/-- One more file. -/
lemma tree_concat (fs : List Input) (f : Input) :
    tree (fs ++ [f]) = update (update (tree fs) ROOTINO
      (tree fs ROOTINO ++ dirent (fs.length + 2) (shortname f.path))) (fs.length + 2) f.bytes := by
  funext i
  rcases eq_or_ne i (fs.length + 2) with rfl | hne
  · rw [update_self, tree_file, getElem?_concat_length]
    rfl
  rw [update_of_ne hne]
  rcases eq_or_ne i ROOTINO with rfl | hroot
  · rw [update_self, tree_root, tree_root, entries_concat]
  rw [update_of_ne hroot, tree, tree, if_neg hroot, if_neg hroot]
  split_ifs with h0
  · rfl
  have hi : i - 2 ≠ fs.length := by
    simp only [ROOTINO] at hroot
    omega
  rw [replaces_concat.other (i - 2) hi]

/-- With more files the files are no shorter. -/
lemma length_tree_append (fs gs : List Input) (i : ℕ) :
    (tree fs i).length ≤ (tree (fs ++ gs) i).length := by
  simp only [tree]
  split_ifs
  · simp only [length_entries, length_append]
    exact Nat.mul_le_mul_left _ (by omega)
  · exact le_rfl
  cases hi : fs[i - 2]? with
  | none => exact Nat.zero_le _
  | some f => rw [List.getElem?_append_left (List.getElem?_eq_some_iff.mp hi).1, hi]

/-- The body of the loop over the files. -/
lemma Built.addFile {fs : List Input} (h : Built s (tree fs)) (hfree : s.freeinode = fs.length + 2)
    (hlt : s.freeinode < NINODES) (f : Input) :
    (f.Valid ∧ Fits (tree (fs ++ [f])) ∧ ∃ s', addFile ROOTINO s f = .ok s' ∧
      s'.freeinode = fs.length + 3 ∧ Built s' (tree (fs ++ [f]))) ∨
    (¬ (f.Valid ∧ Fits (tree (fs ++ [f]))) ∧ ∀ s', addFile ROOTINO s f ≠ .ok s') := by
  by_cases hslash : slash ∈ hostname f.path
  · refine .inr ⟨fun hv => hv.1.1 hslash, fun s' hs' => ?_⟩
    rw [Mkfs.addFile, if_pos hslash] at hs'
    cases hs'
  cases hreads : f.reads with
  | none =>
    refine .inr ⟨fun hv => hv.1.2 hreads, fun s' hs' => ?_⟩
    rw [Mkfs.addFile, if_neg hslash, hreads] at hs'
    cases hs'
  | some reads =>
  have hvalid : f.Valid := ⟨hslash, by rw [hreads]; exact Option.some_ne_none _⟩
  obtain ⟨s1, hs1, hfree1, hb1⟩ := h.ialloc hlt tFile (by
    rw [if_neg]
    simp only [ROOTINO]
    omega)
  have hstep : Mkfs.addFile ROOTINO s f =
      (s1.iappend ROOTINO (dirent (fs.length + 2) (shortname f.path))).bind fun s =>
        reads.foldlM (fun s p => s.iappend (fs.length + 2) p) s := by
    rw [Mkfs.addFile, if_neg hslash, hreads]
    simp only [hs1, hfree, bind, Except.bind]
  have hne : fs.length + 2 ≠ ROOTINO := by
    simp only [ROOTINO]
    omega
  set files1 : ℕ → List Byte := update (tree fs) ROOTINO
    (tree fs ROOTINO ++ dirent (fs.length + 2) (shortname f.path)) with hfiles1
  have hempty : files1 (fs.length + 2) = [] := by
    rw [hfiles1, update_of_ne hne]
    exact h.unused _ hfree.le (hfree ▸ hlt)
  have hbytes : f.bytes = reads.flatten := by rw [Input.bytes, hreads, Option.getD_some]
  have htree : update files1 (fs.length + 2) (files1 (fs.length + 2) ++ reads.flatten) =
      tree (fs ++ [f]) := by
    rw [tree_concat, hempty, nil_append, hbytes]
  rcases hb1.iappend (i := ROOTINO) (by decide) (by simp only [ROOTINO]; omega)
    (dirent (fs.length + 2) (shortname f.path)) with ⟨-, s2, hs2, hfree2, hb2⟩ | ⟨hn, hfail⟩
  · have hloop := hb2.reads (hfree ▸ hlt) (by omega) reads
    rw [htree] at hloop
    rw [hstep, hs2]
    rcases hloop with ⟨hfits, s', hs', hfree', hb'⟩ | ⟨hn, hfail⟩
    · exact .inl ⟨hvalid, hfits, s', hs', by omega, hb'⟩
    · exact .inr ⟨fun hv => hn hv.2, hfail⟩
  refine .inr ⟨fun hv => hn (hv.2.mono fun j => ?_), fun s' hs' => ?_⟩
  · rw [tree_concat, ← hfiles1]
    rcases eq_or_ne j (fs.length + 2) with rfl | hj
    · rw [hempty]
      exact Nat.zero_le _
    · rw [update_of_ne hj]
  rw [hstep] at hs'
  obtain ⟨s2, hs, -⟩ := bind_eq_ok.1 hs'
  exact hfail s2 hs

/-- The loop over the files. -/
lemma Built.addFiles {fs : List Input} (h : Built s (tree fs)) (hfree : s.freeinode = fs.length + 2)
    (gs : List Input) (hlt : fs.length + gs.length + 2 ≤ NINODES) :
    ((∀ g ∈ gs, g.Valid) ∧ Fits (tree (fs ++ gs)) ∧
      ∃ s', gs.foldlM (Mkfs.addFile ROOTINO) s = .ok s' ∧
      s'.freeinode = fs.length + gs.length + 2 ∧ Built s' (tree (fs ++ gs))) ∨
    (¬ ((∀ g ∈ gs, g.Valid) ∧ Fits (tree (fs ++ gs))) ∧
      ∀ s', gs.foldlM (Mkfs.addFile ROOTINO) s ≠ .ok s') := by
  induction gs generalizing s fs with
  | nil =>
    rw [append_nil]
    exact .inl ⟨fun _ hg => (not_mem_nil hg).elim, h.sound.fits, s, rfl, hfree, h⟩
  | cons g gs ih =>
    rw [length_cons] at hlt
    have happ : fs ++ g :: gs = (fs ++ [g]) ++ gs := by rw [append_assoc]; rfl
    rcases h.addFile hfree (by omega) g with ⟨hv, -, s1, hs1, hfree1, hb1⟩ | ⟨hn, hfail⟩
    · have hrec := ih hb1 (by rw [hfree1, length_append]; rfl)
        (by rw [length_append, length_singleton]; omega)
      rw [foldlM_cons, hs1, happ]
      rcases hrec with ⟨hvs, hfits, s', hs', hfree', hb'⟩ | ⟨hn, hfail⟩
      · refine .inl ⟨forall_mem_cons.mpr ⟨hv, hvs⟩, hfits, s', hs', ?_, hb'⟩
        simp only [hfree', length_append, length_cons, length_nil]
        omega
      · exact .inr ⟨fun ⟨hvs, hfits⟩ => hn ⟨(forall_mem_cons.mp hvs).2, hfits⟩, hfail⟩
    refine .inr ⟨fun ⟨hvs, hfits⟩ => hn ⟨(forall_mem_cons.mp hvs).1, ?_⟩, fun s' hs' => ?_⟩
    · rw [happ] at hfits
      exact hfits.mono fun j => length_tree_append _ _ j
    rw [foldlM_cons] at hs'
    obtain ⟨s1, hs, -⟩ := bind_eq_ok.1 hs'
    exact hfail s1 hs

/-! ### The program -/

/-- The first image has no files. -/
lemma built_start : Built start fun _ => [] := by
  have hsect : ∀ k, k ≠ 1 → start.img.sect k = .zero := fun k hk => update_of_ne hk ..
  have hdinode : ∀ i < NINODES, start.img.dinode i = .fresh 0 := by
    intro i hi
    rw [Image.dinode, hsect _ (iblock_bounds hi).1.ne', Block.dinode_zero]
  have hcap : blocks ([] : List Byte).length = 0 := by decide
  have hmapping : ∀ i < NINODES, ∀ bn, mapping start.img.blk (start.img.dinode i) bn = 0 := by
    intro i hi bn
    rw [hdinode i hi, mapping]
    split_ifs with h1 h2
    · rfl
    · rfl
    · exact absurd rfl h2
  have hfoot : ∀ i < NINODES, footprint start.img.blk (start.img.dinode i) = 0 := by
    intro i hi
    rw [hdinode i hi, footprint, show (Inode.fresh 0).addrs indirect = 0 from rfl,
      Ino.indirects_zero, add_zero]
    exact Finset.sum_eq_zero fun _ _ => Ino.cell_zero
  have hlayout : Layout start.img.blk start.img.dinode nmeta fun _ =>
      blocks ([] : List Byte).length := by
    refine
      { fb_ge := le_rfl, fb_le := by decide, sum := ?_, clear := fun b hb hb' => ?_
        mapped := fun i hi bn _ => ?_, cap_le := fun i _ => hcap.le.trans (Nat.zero_le _) }
    · rw [Finset.sum_eq_zero fun i hi => hfoot i (Finset.mem_range.mp hi), given, Finset.Ico_self]
      rfl
    · refine hsect _ ?_
      rw [toNat_ofNat hb'.le]
      have : 1 < nmeta := by decide
      omega
    · rw [hmapping i hi, hcap]
      simp
  refine
    { sound := ⟨⟨rfl, hlayout, fun i hi => ?_, ?_⟩, fun _ _ _ _ hk => absurd hk (by simp)⟩
      size := fun i hi => ?_, super := rfl, unused := fun _ _ _ => rfl
      type := fun i hge hlt => absurd hlt (not_lt.mpr hge) }
  · rw [hdinode i hi, hcap]
    exact iff_of_false (fun h => h rfl) (by decide)
  · rw [total, hcap, Finset.sum_eq_zero fun _ _ => by decide]
    rfl
  · rw [hdinode i hi]
    rfl

/-- The image at the end, from the one with all the files. -/
def finish (s : State) : State :=
  (putInode s ROOTINO { s.img.dinode ROOTINO with
    size := BitVec.ofNat 32 (rootSize (s.img.dinode ROOTINO).size.toNat) }).wsect sb.bmapstart
      (bitmap s.freeblock)

/-- The end of `main`. -/
def ending (s : State) : Except Fault State := do
  let din ← s.rinode ROOTINO
  let s ← s.winode ROOTINO { din with size := BitVec.ofNat 32 (rootSize din.size.toNat) }
  s.balloc s.freeblock

lemma Built.ending (h : Built s files) : ending s = .ok (finish s) := by
  have hroot : ROOTINO < NINODES := by decide
  have hused : s.freeblock < BSIZE * 8 := h.sound.held.layout.fb_le.trans_lt (by decide)
  simp only [Mkfs.ending, rinode_eq h.sound.held.len hroot, winode_eq h.sound.held.len hroot, bind,
    Except.bind]
  exact if_pos hused

/-- `main` succeeds exactly if the files can be opened and fit. -/
theorem main_spec (fs : List Input) (hlt : fs.length + 1 < NINODES) :
    ((∀ f ∈ fs, f.Valid) ∧ Fits (tree fs) ∧ ∃ s, main fs = .ok (finish s) ∧
      s.freeinode = fs.length + 2 ∧ Built s (tree fs)) ∨
    (¬ ((∀ f ∈ fs, f.Valid) ∧ Fits (tree fs)) ∧ ∀ s', main fs ≠ .ok s') := by
  have hroot : ROOTINO < NINODES := by decide
  obtain ⟨s1, hs1, hfree1, hb1⟩ := built_start.ialloc hroot tDir rfl
  have hmain : main fs = (s1.iappend ROOTINO (dirent ROOTINO dot)).bind fun s =>
      (s.iappend ROOTINO (dirent ROOTINO dotdot)).bind fun s =>
        (fs.foldlM (Mkfs.addFile ROOTINO) s).bind Mkfs.ending := by
    have hs1' : start.ialloc tDir = .ok (s1, ROOTINO) := hs1
    simp only [main, hs1', bind, Except.bind]
    rfl
  have hused : ∀ {s : State}, s.freeinode = s1.freeinode → ROOTINO < s.freeinode := by
    intro s hs
    rw [hs, hfree1]
    exact Nat.lt_succ_self _
  -- the files after the entries for the directory itself
  have hdots : update (update (fun _ => [] : ℕ → List Byte) ROOTINO
      ([] ++ dirent ROOTINO dot)) ROOTINO (update (fun _ => [] : ℕ → List Byte) ROOTINO
        ([] ++ dirent ROOTINO dot) ROOTINO ++ dirent ROOTINO dotdot) = tree [] := by
    rw [update_idem, update_self]
    funext i
    rcases eq_or_ne i ROOTINO with rfl | hi
    · rw [update_self, tree_root, entries]
      simp
    · rw [update_of_ne hi, tree, if_neg hi]
      simp
  have hfail : ∀ {files : ℕ → List Byte}, ¬ Fits files →
      (∀ i, (files i).length ≤ (tree [] i).length) →
      ¬ ((∀ f ∈ fs, f.Valid) ∧ Fits (tree fs)) := fun hn hle hv =>
    hn (hv.2.mono fun i => (hle i).trans (length_tree_append [] fs i))
  rw [hmain]
  rcases hb1.iappend hroot (hused rfl) (dirent ROOTINO dot) with
    ⟨-, s2, hs2, hfree2, hb2⟩ | ⟨hn, hno⟩
  case inr =>
    refine .inr ⟨hfail hn fun i => ?_, fun s' hs' => ?_⟩
    · rw [← hdots]
      rcases eq_or_ne i ROOTINO with rfl | hi
      · simp
      · simp [update_of_ne hi]
    obtain ⟨s, hs, -⟩ := bind_eq_ok.1 hs'
    exact hno s hs
  rw [hs2]
  rcases hb2.iappend hroot (hused hfree2) (dirent ROOTINO dotdot) with
    ⟨-, s3, hs3, hfree3, hb3⟩ | ⟨hn, hno⟩
  case inr =>
    rw [hdots] at hn
    refine .inr ⟨hfail hn fun i => le_rfl, fun s' hs' => ?_⟩
    obtain ⟨s, hs, -⟩ := bind_eq_ok.1 ((ok_bind ..).symm.trans hs')
    exact hno s hs
  rw [hdots] at hb3
  have hloop := hb3.addFiles (by rw [hfree3, hfree2, hfree1]; rfl) fs (by rw [length_nil]; omega)
  rw [nil_append] at hloop
  simp only [Except.bind, hs3]
  rcases hloop with ⟨hv, hfits, s', hs', hfree', hb'⟩ | ⟨hn, hno⟩
  · refine .inl ⟨hv, hfits, s', ?_, by rw [hfree', length_nil]; omega, hb'⟩
    rw [hs']
    exact hb'.ending
  refine .inr ⟨hn, fun s' hs' => ?_⟩
  obtain ⟨s, hs, -⟩ := bind_eq_ok.1 hs'
  exact hno s hs

end Hexv6.Mkfs
