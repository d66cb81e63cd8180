import Hexv6.Blk.Rules

/-!
# What the functions hold

Every function gives back the shares of the cache that it uses: it releases the buffers that it
has read, and none of them with changes that are neither logged nor on the disk.
-/

namespace Hexv6.Blk

open Lib Multiset
open Bio (BufId)

variable {α β : Type} {A : Multiset Token} {sb : Super} {b : BufId} {bn : BitVec 32} {m : Mode}
  {f : Kernel α} {g : α → Kernel β} {inum : ℕ} {ip : Inode} {i : ℕ} {off : ℕ}

/-! ### Buffers -/

lemma spec_panic {e : Panic} {Ψ : α → Multiset Token → Prop} : Spec Rule A (panic e) Ψ :=
  fun F => ⟨_, ⟨A, F, _, .panic e A, rfl, rfl⟩, fun x => x.elim⟩

lemma spec_bread : Spec Rule {.credit} (bread bn) fun b B => B = {.buf b bn .clean} := by
  refine Spec.op (.bget bn) ?_
  rintro b _ rfl
  refine Spec.op (.acquiresleep b bn) ?_
  rintro _ _ rfl
  refine Spec.op (.fill b bn) ?_
  rintro _ _ rfl
  exact Spec.ret rfl

lemma spec_brelse (hm : m.locks = true) (hd : m ≠ .dirty) :
    Spec Rule {.buf b bn m} (brelse b) fun _ B => B = {.credit} := by
  refine Spec.op (.releasesleep b bn m hm hd) ?_
  rintro _ _ rfl
  exact Spec.perform (.unref b bn)

lemma spec_change {f : Block → Block} (hm : m.locks = true) :
    Spec Rule {.buf b bn m} (change b f) fun _ B => B = {.buf b bn .dirty} := by
  refine Spec.op (.data b bn m) ?_
  rintro d _ rfl
  exact Spec.perform (.store b bn m hm (f d))

/-- The end of most functions: the buffer is logged and released. -/
lemma spec_logged (hm : m.locks = true) :
    Spec Rule {.buf b bn m} (do run (.logWrite b); brelse b) fun _ B => B = {.credit} := by
  refine Spec.op (.logWrite b bn m hm) ?_
  rintro _ _ rfl
  exact spec_brelse rfl (by decide)

/-- The function uses one share. -/
def One (f : Kernel α) : Prop := Spec Rule {.credit} f fun _ B => B = {.credit}

/-- Both shares of a process. -/
def pair : Multiset Token := {.credit} + {.credit}

/-- The function uses both shares. -/
def Two (f : Kernel α) : Prop := Spec Rule pair f fun _ B => B = pair

lemma One.pure (a : α) : One (pure a) := Spec.ret rfl

lemma One.bind (hf : One f) (hg : ∀ a, One (g a)) :
    One (f >>= g) := by
  refine Spec.bind hf ?_
  rintro a _ rfl
  exact hg a

lemma One.two (hf : One f) : Two f := Spec.last hf fun a B hB => by rw [hB]; rfl

lemma Two.pure (a : α) : Two (pure a) := Spec.ret rfl

lemma Two.bind (hf : Two f) (hg : ∀ a, Two (g a)) :
    Two (f >>= g) := by
  refine Spec.bind hf ?_
  rintro a _ rfl
  exact hg a

/-- A function that uses one share, while the process has a buffer. -/
lemma One.beside {Ψ : β → Multiset Token → Prop} (hf : One f)
    (hg : ∀ a, Spec Rule ({.buf b bn m} + {.credit}) (g a) Ψ) :
    Spec Rule ({.buf b bn m} + {.credit}) (f >>= g) Ψ := by
  rw [add_comm]
  refine Spec.seq hf ?_
  rintro a _ rfl
  rw [add_comm]
  exact hg a

/-- Read a block while the other share is not used. -/
lemma Two.bread {f : BufId → Kernel α}
    (hf : ∀ b, Spec Rule ({.buf b bn .clean} + {.credit}) (f b) fun _ B => B = pair) :
    Two (bread bn >>= f) := by
  refine spec_bread.seq ?_
  rintro b _ rfl
  exact hf b

/-- Release the buffer when the other share is not used. -/
lemma brelse_beside {f : Unit → Kernel α} (hm : m.locks = true) (hd : m ≠ .dirty)
    (hf : Two (f ())) :
    Spec Rule ({.buf b bn m} + {.credit}) (brelse b >>= f) fun _ B => B = pair := by
  refine (spec_brelse hm hd).seq ?_
  rintro ⟨⟩ _ rfl
  exact hf

/-! ### Blocks -/

lemma one_bzero : One (bzero bn) := by
  refine spec_bread.bind ?_
  rintro b _ rfl
  refine Spec.op (.store b bn .clean rfl .zero) ?_
  rintro _ _ rfl
  exact spec_logged rfl

lemma one_ballocFrom (bs : List ℕ) : One (ballocFrom sb bs) := by
  induction bs with
  | nil => exact spec_panic
  | cons b0 bs ih =>
    refine spec_bread.bind ?_
    rintro b _ rfl
    refine Spec.op (.data b _ _) ?_
    rintro d _ rfl
    split
    · rename_i bi _
      refine Spec.op (.store b _ _ rfl (d.setBit bi)) ?_
      rintro _ _ rfl
      refine Spec.op (.logWrite b _ _ rfl) ?_
      rintro _ _ rfl
      refine (spec_brelse rfl (by decide)).next fun _ => ?_
      exact one_bzero.bind fun _ => .pure _
    · refine (spec_brelse rfl (by decide)).next fun _ => ?_
      exact ih

lemma one_balloc : One (balloc sb) := one_ballocFrom _

lemma one_bfree {a : BitVec 32} : One (bfree sb a) := by
  refine spec_bread.bind ?_
  rintro b _ rfl
  refine Spec.op (.data b _ _) ?_
  rintro d _ rfl
  split
  · exact spec_panic
  refine Spec.op (.store b _ _ rfl _) ?_
  rintro _ _ rfl
  exact spec_logged rfl

lemma one_bfreeAll (as : List (BitVec 32)) : One (bfreeAll sb as) := by
  induction as with
  | nil => exact .pure ()
  | cons a as ih =>
    rw [bfreeAll]
    split_ifs
    · exact one_bfree.bind fun _ => ih
    · exact ih

/-! ### Inodes -/

lemma one_iallocFrom {type : BitVec 16} (inums : List ℕ) : One (iallocFrom sb type inums) := by
  induction inums with
  | nil => exact spec_panic
  | cons inum inums ih =>
    refine spec_bread.bind ?_
    rintro b _ rfl
    refine Spec.op (.data b _ _) ?_
    rintro d _ rfl
    split
    · refine Spec.op (.store b _ _ rfl _) ?_
      rintro _ _ rfl
      refine Spec.op (.logWrite b _ _ rfl) ?_
      rintro _ _ rfl
      refine (spec_brelse rfl (by decide)).next fun _ => ?_
      exact Spec.ret rfl
    · refine (spec_brelse rfl (by decide)).next fun _ => ?_
      exact ih

lemma one_iupdate : One (iupdate sb inum ip) := by
  refine spec_bread.bind ?_
  rintro b _ rfl
  refine (spec_change rfl).next fun _ => ?_
  exact spec_logged rfl

lemma one_readInode : One (readInode sb inum) := by
  refine spec_bread.bind ?_
  rintro b _ rfl
  refine Spec.op (.data b _ _) ?_
  rintro d _ rfl
  refine (spec_brelse rfl (by decide)).next fun _ => ?_
  exact Spec.ret rfl

/-- The last part of `bmap`: the entry of the indirect block. -/
lemma two_bmapIndirect : Two (do
      let bp ← bread bn
      let d ← run (.data bp)
      let addr ← if d.word i = 0 then do
          let addr ← balloc sb
          change bp fun d => d.setWord i addr
          run (.logWrite bp)
          pure addr
        else pure (d.word i)
      brelse bp
      pure (addr, ip) : Kernel (BitVec 32 × Inode)) := by
  refine Two.bread fun b => ?_
  refine Spec.opSeq (.data b _ _) ?_
  rintro d _ rfl
  split
  · refine one_balloc.beside fun addr => ?_
    refine (spec_change rfl).seqNext fun _ => ?_
    refine Spec.opSeq (.logWrite b _ _ rfl) ?_
    rintro _ _ rfl
    exact brelse_beside rfl (by decide) (.pure _)
  · exact brelse_beside rfl (by decide) (.pure _)

lemma two_bmap : Two (bmap sb ip i) := by
  rw [bmap]
  dsimp only
  split_ifs
  · exact (one_balloc.bind fun _ => .pure _).two
  · exact .pure _
  · exact one_balloc.two.bind fun _ => two_bmapIndirect
  · exact two_bmapIndirect
  · exact spec_panic

lemma two_itrunc : Two (itrunc sb inum ip) := by
  have hlast : One (do iupdate sb inum { ip with size := 0, addrs := fun _ => 0 }
                       pure { ip with size := 0, addrs := fun _ => 0 }) :=
    one_iupdate.bind fun _ => .pure _
  refine (one_bfreeAll _).two.bind fun _ => ?_
  dsimp only
  split
  · refine Two.bread fun b => ?_
    refine Spec.opSeq (.data b _ _) ?_
    rintro d _ rfl
    refine (one_bfreeAll _).beside fun _ => ?_
    refine brelse_beside rfl (by decide) ?_
    exact (one_bfree.bind fun _ => hlast).two
  · exact hlast.two

lemma two_readiFrom (fuel : ℕ) : ∀ (ip : Inode) (off : ℕ) (dst : List Bool),
    Two (readiFrom sb ip off dst fuel) := by
  induction fuel with
  | zero => exact fun ip off dst => .pure _
  | succ fuel ih =>
    intro ip off dst
    rw [readiFrom]
    split_ifs
    · exact .pure _
    refine two_bmap.bind fun x => Two.bread fun b => ?_
    refine brelse_beside rfl (by decide) ?_
    split_ifs
    · exact ih _ _ _
    · exact .pure _

lemma two_readi {dst : List Bool} : Two (readi sb ip off dst) := by
  rw [readi]
  split_ifs
  · exact .pure _
  · exact (two_readiFrom _ _ _ _).bind fun _ => .pure _

/-- A part of the source is copied to the buffer, and the buffer is logged before it is released.
If the copy fails, the buffer is released as it was read. -/
lemma two_writeiFrom (fuel : ℕ) : ∀ (ip : Inode) (off : ℕ) (src : List (Option Byte)),
    Two (writeiFrom sb ip off src fuel) := by
  induction fuel with
  | zero => exact fun ip off src => .pure _
  | succ fuel ih =>
    intro ip off src
    rw [writeiFrom]
    split_ifs
    · exact .pure _
    refine two_bmap.bind fun x => Two.bread fun b => ?_
    refine Spec.opSeq (.copyin b _ _ rfl _ _) ?_
    rintro _ _ (⟨rfl, rfl⟩ | ⟨rfl, rfl⟩)
    · refine Spec.opSeq (.logWrite b _ _ rfl) ?_
      rintro _ _ rfl
      exact brelse_beside rfl (by decide) (ih _ _ _)
    · exact brelse_beside rfl (by decide) (.pure _)

lemma two_writei {src : List (Option Byte)} :
    Two (writei sb inum ip off src) := by
  rw [writei]
  split_ifs
  · exact .pure _
  · exact .pure _
  · exact (two_writeiFrom _ _ _ _).bind fun _ => one_iupdate.two.bind fun _ => .pure _

end Hexv6.Blk
