import Hexv6.File.Logged
import Hexv6.File.Refine
import Hexv6.Log.Disk

/-!
# The log reservation of a write

`filewrite` cuts a write into pieces of at most `((MAXOPBLOCKS-1-1-2)/2) * BSIZE` bytes, with one
transaction for each.  A turn of the loop of `writei` logs the block that it writes, and if it has
to allocate it the block of the free map.  The indirect block and its block of the free map are
logged at most once for all turns, because `addrs[NDIRECT]` does not change any more once it is set.

An offset that is not at the start of a block is in a block that has been allocated: this turn, the
one that the pieces do not account for, logs no block of the free map.
-/

namespace Hexv6.File

open Blk Finset Function

variable {sb : Super} {s s' : Store} {V : ℕ → Inode} {ip ip' : Inode} {inum : ℕ}
variable {copyin : ℕ → ℕ → List Byte × Bool} {a : BitVec 32} {S : Finset ℕ} {D D' : Disk} {bn : ℕ}

/-- The indirect block, if there is one, and its block of the free map. -/
def indirectPart (sb : Super) (ip : Inode) : Finset ℕ :=
  if ip.addrs indirect = 0 then ∅ else Store.indirectBlocks sb ip

lemma card_indirectPart_le : (indirectPart sb ip).card ≤ 2 := by
  rw [indirectPart]
  split_ifs
  · exact Nat.zero_le _
  · exact card_le_two

/-- A well-formed file system stays so, whatever is put into a block of contents. -/
lemma Grow.wf_update
    (h : Grow sb V inum S D D' ip') (hinum : inum < sb.ninodes) (hbn : bn < MAXFILE)
    (ha : a.toNat = addr D' ip' bn) (hne : a ≠ 0) (blk : Block) :
    WF sb (update D' a.toNat blk) (update V inum ip') := by
  have hself : update V inum ip' inum = ip' := update_self ..
  have hdiv : bn * BSIZE / BSIZE = bn := Nat.mul_div_cancel _ (by decide)
  have hlo : Mapped D' (update V inum ip' inum) (bn * BSIZE) := by
    rw [hself, Mapped, hdiv]
    exact ⟨hbn, by rwa [← ha, toNat_ne_zero]⟩
  have haddr : addr D' (update V inum ip' inum) (bn * BSIZE / BSIZE) = a.toNat := by
    rw [hself, hdiv, ha]
  rw [← haddr]
  exact h.wf.congr (fun j hj => addr_update h.wf hinum hlo blk hj)
    fun c hc => used_update h.wf hinum hlo blk hc

/-- The indirect block stays the same. -/
lemma Grow.indirect_eq (h : Grow sb V inum S D D' ip')
    (hne : (V inum).addrs indirect ≠ 0) : ip'.addrs indirect = (V inum).addrs indirect := by
  have hkept := h.kept (by rwa [addr_indirect, toNat_ne_zero])
  rw [addr_indirect, addr_indirect] at hkept
  exact BitVec.eq_of_toNat_eq hkept

lemma indirectPart_subset (sb : Super)
    (h : ip.addrs indirect ≠ 0 → ip'.addrs indirect = ip.addrs indirect) :
    indirectPart sb ip ⊆ indirectPart sb ip' := by
  rw [indirectPart, indirectPart]
  split_ifs with h1 h2 h2
  · exact empty_subset _
  · exact empty_subset _
  · exact absurd ((h h1).symm.trans h2) h1
  · rw [Store.indirectBlocks, Store.indirectBlocks, h h1]

/-- The blocks that one call of `bmap` logs. -/
lemma bmap_logged (hwf : WF sb s.buf V) (hinum : inum < sb.ninodes)
    (h : Store.bmap sb s (V inum) bn = some (s', ip', a)) :
    s'.logged.toFinset ⊆ s.logged.toFinset ∪ {sb.bblock a.toNat, a.toNat} ∪ indirectPart sb ip' ∧
    (addr s.buf (V inum) bn ≠ 0 → s'.logged.toFinset = s.logged.toFinset) := by
  obtain ⟨hbn, ha, hne, hgrow, B, hlogs, hempty, hsub⟩ := Store.bmap_turn hwf hinum h
  have hset : s'.logged.toFinset = B ∪ s.logged.toFinset := by
    ext b
    rw [List.mem_toFinset, hlogs.logged, mem_union, List.mem_toFinset]
  refine ⟨?_, fun hslot => by rw [hset, hempty hslot, empty_union]⟩
  rw [hset, union_comm B, union_assoc]
  refine union_subset_union_right (hsub.trans (union_subset_union_right ?_))
  split_ifs with hdirect
  · exact empty_subset _
  -- the slot of the indirect block is filled
  have hind : ip'.addrs indirect ≠ 0 := by
    rw [← toNat_ne_zero, ← addr_indirect]
    by_cases h0 : addr s.buf (V inum) MAXFILE = 0
    · refine (hgrow.on MAXFILE (mem_filter.2 ⟨?_, h0⟩)).2
      rw [slotsOf, if_neg hdirect]
      exact mem_insert_self ..
    · rwa [hgrow.kept h0]
  rw [indirectPart, if_neg hind]

/-- The blocks that a turn logs: the block that it writes, and its block of the free map if it is a
whole turn, where the slot may have been empty. -/
lemma turn_logged {off : ℕ} (hwf : WF sb s.buf V) (hinum : inum < sb.ninodes)
    (hslot : off % BSIZE = 0 ∨ addr s.buf (V inum) (off / BSIZE) ≠ 0)
    (h : Store.bmap sb s (V inum) (off / BSIZE) = some (s', ip', a)) :
    ∃ T : Finset ℕ, T.card ≤ (if off % BSIZE = 0 then 2 else 1) ∧
      insert a.toNat s'.logged.toFinset ⊆ s.logged.toFinset ∪ T ∪ indirectPart sb ip' := by
  obtain ⟨hlogged, hfilled⟩ := bmap_logged hwf hinum h
  by_cases hal : off % BSIZE = 0
  · refine ⟨{sb.bblock a.toNat, a.toNat}, by rw [if_pos hal]; exact card_le_two, ?_⟩
    exact insert_subset (by simp) hlogged
  refine ⟨{a.toNat}, by rw [if_neg hal, card_singleton], ?_⟩
  rw [hfilled (hslot.resolve_left hal)]
  exact insert_subset (by simp) (subset_union_left.trans subset_union_left)

/-- The most blocks that the loop logs besides the indirect block: two for each turn, and one for a
turn that does not start at the start of a block. -/
def cost (n tot off : ℕ) : ℕ :=
  if n ≤ tot then 0
  else (if off % BSIZE = 0 then 0 else 1) +
    2 * ((n - tot - (BSIZE - off % BSIZE) % BSIZE + (BSIZE - 1)) / BSIZE)

lemma cost_step {n tot : ℕ} (off : ℕ) (h : tot < n) :
    (if off % BSIZE = 0 then 2 else 1) + cost n (tot + chunk n tot off) (off + chunk n tot off) ≤
      cost n tot off := by
  unfold cost chunk BSIZE
  split_ifs <;> omega

lemma writeLoop_logged {n tot off tot' off' : ℕ} (hwf : WF sb s.buf V) (hinum : inum < sb.ninodes)
    (hslot : tot < n → off % BSIZE = 0 ∨ addr s.buf (V inum) (off / BSIZE) ≠ 0)
    (h : Store.writeLoop sb copyin n s (V inum) tot off = some (s', ip', tot', off')) :
    ((V inum).addrs indirect ≠ 0 → ip'.addrs indirect = (V inum).addrs indirect) ∧
    ∃ A : Finset ℕ, A.card ≤ cost n tot off ∧
      s'.logged.toFinset ⊆ s.logged.toFinset ∪ A ∪ indirectPart sb ip' := by
  generalize hleft : n - tot = left
  induction left using Nat.strong_induction_on generalizing s V tot off with
  | _ left ih =>
    rw [Store.writeLoop] at h
    split_ifs at h with htot
    · rcases hbmap : Store.bmap sb s (V inum) (off / BSIZE) with _ | ⟨s1, ip1, a⟩
      · rw [hbmap] at h
        cases h
      rw [hbmap] at h
      obtain ⟨hbn, ha, hne, hgrow, -⟩ := Store.bmap_turn hwf hinum hbmap
      obtain ⟨T, hT, hturn⟩ := turn_logged hwf hinum (hslot htot) hbmap
      have hpos := chunk_pos off htot
      have hcost := cost_step off htot
      have hself : update V inum ip1 inum = ip1 := update_self ..
      dsimp only at h
      split_ifs at h with hok
      · -- the copy succeeds; the next turn is at the start of a block
        have hwf' := hgrow.wf_update hinum hbn ha hne
          ((s1.buf a.toNat).paste (off % BSIZE) (copyin tot (chunk n tot off)).1)
        have hnext : tot + chunk n tot off < n → (off + chunk n tot off) % BSIZE = 0 :=
          fun hlt => by
          simp only [chunk, BSIZE] at hlt ⊢
          omega
        rw [← hself] at h
        obtain ⟨hind, A, hA, hsub⟩ := ih (n - (tot + chunk n tot off)) (by omega)
          hwf' (fun hlt => .inl (hnext hlt)) h rfl
        rw [hself] at hind
        refine ⟨fun h0 => ?_, T ∪ A, (card_union_le ..).trans (by omega), hsub.trans ?_⟩
        · rw [hind (by rw [hgrow.indirect_eq h0]; exact h0), hgrow.indirect_eq h0]
        rw [Store.logWrite_logged, Store.set_logged, List.toFinset_cons]
        have hpart := indirectPart_subset sb hind
        intro c hc
        simp only [mem_union] at hc ⊢
        rcases hc with (hc | hc) | hc
        · have := hturn hc
          simp only [mem_union] at this
          exact this.imp (Or.imp_right .inl) (@hpart c)
        · exact .inl (.inr (.inr hc))
        · exact .inr hc
      · cases h
        exact ⟨hgrow.indirect_eq, T, by omega, (subset_insert ..).trans hturn⟩
    · cases h
      refine ⟨fun _ => rfl, ∅, Nat.zero_le _, fun c hc => ?_⟩
      simp only [mem_union]
      exact .inl (.inl hc)

/-- An offset inside of a block of the file is in a block that is allocated. -/
lemma writeLoop_logged_le {n off tot' off' : ℕ} (hwf : WF sb s.buf V) (hinum : inum < sb.ninodes)
    (halloc : ∀ y < (V inum).size.toNat, Mapped s.buf (V inum) y) (hoff : off ≤ (V inum).size.toNat)
    (hn : n ≤ (MAXOPBLOCKS - 1 - 1 - 2) / 2 * BSIZE) (hlog : s.logged = [])
    (h : Store.writeLoop sb copyin n s (V inum) 0 off = some (s', ip', tot', off')) :
    s'.logged.toFinset.card ≤ 9 := by
  have hslot : off % BSIZE = 0 ∨ addr s.buf (V inum) (off / BSIZE) ≠ 0 := by
    by_cases hal : off % BSIZE = 0
    · exact .inl hal
    have hlt : off / BSIZE * BSIZE < (V inum).size.toNat := by
      simp only [BSIZE] at hal ⊢
      omega
    have := (halloc _ hlt).2
    rw [Nat.mul_div_cancel _ (by decide)] at this
    exact .inr this
  obtain ⟨-, A, hA, hsub⟩ := writeLoop_logged hwf hinum (fun _ => hslot) h
  rw [hlog, List.toFinset_nil, empty_union] at hsub
  have hle := (card_le_card hsub).trans (card_union_le ..)
  have hpart := @card_indirectPart_le sb ip'
  have hcost : cost n 0 off ≤ 7 := by
    unfold MAXOPBLOCKS BSIZE at hn
    unfold cost BSIZE
    split_ifs <;> omega
  omega

/-- A write of at most `((MAXOPBLOCKS-1-1-2)/2) * BSIZE` bytes to a file whose blocks up to the size
are allocated logs at most `MAXOPBLOCKS` blocks, for every layout of the disk and whether the copies
succeed or not. -/
theorem writei_logged_le {off n : BitVec 32} {r : ℤ} (hwf : WF sb s.buf V)
    (hinum : inum < sb.ninodes)
    (halloc : ∀ y < (V inum).size.toNat, Mapped s.buf (V inum) y)
    (hn : n.toNat ≤ (MAXOPBLOCKS - 1 - 1 - 2) / 2 * BSIZE) (hlog : s.logged = [])
    (h : Store.writei sb copyin s inum (V inum) off n = some (r, s', ip')) :
    s'.logged.toFinset.card ≤ MAXOPBLOCKS := by
  rw [Store.writei] at h
  split_ifs at h with hout hlong
  · cases h
    rw [hlog]
    exact Nat.zero_le _
  · cases h
    rw [hlog]
    exact Nat.zero_le _
  rw [outside_iff, not_or, not_lt] at hout
  rcases hloop : Store.writeLoop sb copyin n.toNat s (V inum) 0 off.toNat with
    _ | ⟨s1, ip1, tot', off'⟩
  · rw [hloop] at h
    cases h
  have hle := writeLoop_logged_le hwf hinum halloc hout.1 hn hlog hloop
  rw [hloop] at h
  cases h
  -- and the block of the inode
  rw [Store.iupdate, Store.logWrite_logged, Store.set_logged, List.toFinset_cons]
  exact (card_insert_le ..).trans (Nat.succ_le_succ hle)

/-- Two bytes are written, and the second one needs a new block. -/
theorem writei_logged_le_oneBlock : ∃ s' ip',
    Store.writei smallSuper (copies [65, 66]) ⟨smallDisk 1023, []⟩ 0 (oneBlock 1023) 1023 2 =
      some (2, s', ip') ∧ s'.logged.toFinset.card ≤ MAXOPBLOCKS := by
  obtain ⟨D', ip', hfile, -⟩ := @writei_spec smallSuper (smallDisk 1023) (fun _ => oneBlock 1023) 0
    [65, 66] 1023 2 (copies [65, 66]) (wf_oneBlock 1023 1023) (by decide) rfl (fun _ _ _ => rfl)
    room_smallDisk (by
      simp only [Refused]
      decide)
  have hbuf := hfile ▸ Store.writei_buf (s := ⟨smallDisk 1023, []⟩) (copies [65, 66]) 0 1023 2
  rw [Option.map_eq_some_iff] at hbuf
  obtain ⟨⟨r, s', ip''⟩, hwrite, heq⟩ := hbuf
  obtain rfl : r = 2 := congrArg Prod.fst heq
  exact ⟨s', ip'', hwrite, writei_logged_le (V := fun _ => oneBlock 1023) (wf_oneBlock 1023 1023)
    (by decide) (mapped_oneBlock _ (by decide)) (by decide) rfl hwrite⟩

end Hexv6.File
