import Hexv6.Fs.Calls

/-!
# The operations of the programs

Which operations the functions and the system calls can perform at all.  `Op.basic` leaves out the
operations that give a file its inode and that close it, and the panic of `sys_unlink` for the link
count.
-/

namespace Hexv6.Fs

open Lib Prog

def Op.basic : Op → Bool
  | .fileSet _ _ | .fileDrop _ => false
  | .panic e => e ≠ .unlinkNlink
  | _ => true

/-- `sys_unlink` once it has looked at the link count. -/
def unlinkChecked (p : Proc) (dp ip : Slot) (off : ℕ) (d : Dinode) : Kernel Proc :=
  if d.type = .dir ∧ ¬ isdirempty d.slots then do
    iunlockput ip
    unlinkBad p dp
  else do
    let written ← run (.writei dp off {})
    if written = true then
      if d.type = .dir then run (.nlinkDown dp)
      iunlockput dp
      run (.nlinkDown ip)
      iunlockput ip
      pure { p with a0 := 0 }
    else panic .unlinkWritei

lemma unlinkEntry_eq {p : Proc} {dp ip : Slot} {off : ℕ} : unlinkEntry p dp ip off = (do
    ilock ip
    let d ← run (.node ip)
    if d.nlink.toInt < 1 then panic .unlinkNlink else unlinkChecked p dp ip off d) := rfl

/-- The operations on files that are left out. -/
def Op.filing : Op → Bool
  | .fileSet _ _ | .fileDrop _ => true
  | _ => false

section Basic

variable {q : Op → Prop} (hq : ∀ o : Op, o.basic = true → q o) (ip dp cwd : Slot) (n : ℕ) (p : Proc)

include hq

lemma within_run {o : Op} {α : Type} {f : o.Result → Kernel α} (ho : o.basic = true)
    (h : ∀ x, (f x).Within q) : (run o >>= f).Within q :=
  (Within.perform (hq o ho)).bind h

lemma within_ilock : (ilock ip).Within q := within_run hq rfl fun _ => .perform (hq _ rfl)

lemma within_iput : (iput ip).Within q := by
  refine within_run hq rfl fun free => ?_
  split
  · refine within_run hq rfl fun _ => within_run hq rfl fun _ => ?_
    exact within_run hq rfl fun _ => .perform (hq _ rfl)
  · trivial

lemma within_iunlockput : (iunlockput ip).Within q := within_run hq rfl fun _ => within_iput hq ip

lemma within_panic {α : Type} {e : Panic} (he : e ≠ .unlinkNlink) : (panic e : Kernel α).Within q :=
  ⟨hq _ (decide_eq_true he), fun x => x.elim⟩

lemma within_dirlookup (name : Name) : (dirlookup dp name).Within q := by
  refine within_run hq rfl fun d => ?_
  split
  · exact within_panic hq (by decide)
  split
  · exact within_run hq rfl fun _ => .pure _
  · trivial

lemma within_namexLoop (parent : Bool) (n : ℕ) (path : List Char) (name : Name) (ip : Slot) :
    (namexLoop parent n path name ip).Within q := by
  induction n generalizing path name ip with
  | zero => trivial
  | succ n ih =>
    rw [namexLoop]
    split
    · split
      · exact (within_iput hq ip).bind fun _ => .pure _
      · trivial
    refine (within_ilock hq ip).bind fun _ => within_run hq rfl fun d => ?_
    split
    · exact (within_iunlockput hq ip).bind fun _ => .pure _
    split
    · exact within_run hq rfl fun _ => .pure _
    refine (within_dirlookup hq ip _).bind fun found => ?_
    split
    · exact (within_iunlockput hq ip).bind fun _ => .pure _
    · exact (within_iunlockput hq ip).bind fun _ => ih _ _ _

lemma within_namex (path : List Char) (parent : Bool) : (namex cwd path parent).Within q := by
  rw [namex]
  split
  · exact within_run hq rfl fun _ => within_namexLoop hq _ _ _ _ _
  · exact within_run hq rfl fun _ => within_namexLoop hq _ _ _ _ _

lemma within_namei (path : List Char) : (namei cwd path).Within q :=
  (within_namex hq cwd path false).bind fun _ => .pure _

lemma within_linkBad : (linkBad p ip).Within q :=
  (within_ilock hq ip).bind fun _ => within_run hq rfl fun _ =>
    (within_iunlockput hq ip).bind fun _ => .pure _

lemma within_unlinkBad : (unlinkBad p dp).Within q :=
  (within_iunlockput hq dp).bind fun _ => .pure _

lemma within_unlinkChecked (off : ℕ) (d : Dinode) : (unlinkChecked p dp ip off d).Within q := by
  have hend : ∀ _ : Unit, (do
      iunlockput dp
      run (.nlinkDown ip)
      iunlockput ip
      pure { p with a0 := 0 } : Kernel Proc).Within q := fun _ =>
    (within_iunlockput hq dp).bind fun _ => within_run hq rfl fun _ =>
      (within_iunlockput hq ip).bind fun _ => .pure _
  rw [unlinkChecked]
  split
  · exact (within_iunlockput hq ip).bind fun _ => within_unlinkBad hq dp p
  refine within_run hq rfl fun written => ?_
  split
  · split
    · exact within_run hq rfl hend
    · exact hend ()
  · exact within_panic hq (by decide)

/-- `sys_unlink`, when the panic is not excluded. -/
lemma within_sysUnlink (hpanic : q (.panic .unlinkNlink)) (path : List Char) :
    (sysUnlink p cwd path).Within q := by
  refine (within_namex hq cwd path true).bind fun found => ?_
  split
  · trivial
  refine (within_ilock hq _).bind fun _ => ?_
  split
  · exact within_unlinkBad hq _ p
  refine (within_dirlookup hq _ _).bind fun found => ?_
  split
  · exact within_unlinkBad hq _ p
  rw [unlinkEntry_eq]
  refine (within_ilock hq _).bind fun _ => within_run hq rfl fun d => ?_
  split
  · exact ⟨hpanic, fun x => x.elim⟩
  · exact within_unlinkChecked hq _ _ p _ _

lemma within_sysChdir (path : List Char) : (sysChdir p cwd path).Within q := by
  refine (within_namei hq cwd path).bind fun ip => ?_
  split
  · trivial
  refine (within_ilock hq _).bind fun _ => within_run hq rfl fun d => ?_
  split
  · exact (within_iunlockput hq _).bind fun _ => .pure _
  · exact within_run hq rfl fun _ => (within_iput hq cwd).bind fun _ => .pure _

lemma within_ialloc (type : IType) : (ialloc n type).Within q := by
  rw [ialloc]
  induction List.range' 1 (n - 1) with
  | nil => exact within_panic hq (by decide)
  | cons inum inums ih =>
    refine within_run hq rfl fun found => ?_
    split
    · exact .perform (hq _ rfl)
    · exact ih

lemma within_dirlink (name : Name) (inum : ℕ) : (dirlink dp name inum).Within q := by
  refine (within_dirlookup hq dp name).bind fun found => ?_
  split
  · exact (within_iput hq _).bind fun _ => .pure _
  refine within_run hq rfl fun d => ?_
  refine within_run hq rfl fun written => ?_
  split
  · trivial
  · exact within_panic hq (by decide)

lemma within_createNew (name : Name) (type : IType) (major minor : BitVec 16) :
    (createNew dp ip name type major minor).Within q := by
  have hend : ∀ _ : Unit, (do
      let inum ← run (.inum ip)
      let linked ← dirlink dp name inum
      if linked = true then
        iunlockput dp
        pure (some ip)
      else panic .createDirlink : Kernel (Option Slot)).Within q := by
    intro _
    refine within_run hq rfl fun inum => ?_
    refine (within_dirlink hq dp name inum).bind fun linked => ?_
    split
    · exact (within_iunlockput hq dp).bind fun _ => .pure _
    · exact within_panic hq (by decide)
  refine (within_ilock hq ip).bind fun _ => ?_
  refine within_run hq rfl fun _ => ?_
  split
  · refine within_run hq rfl fun _ => ?_
    refine within_run hq rfl fun inum => ?_
    refine (within_dirlink hq ip _ inum).bind fun dot => ?_
    split
    · refine within_run hq rfl fun parent => ?_
      refine (within_dirlink hq ip _ parent).bind fun dotdot => ?_
      split
      · exact hend ()
      · exact (within_panic hq (by decide)).bind hend
    · exact (within_panic hq (by decide)).bind hend
  · exact hend ()

lemma within_create (path : List Char) (type : IType) (major minor : BitVec 16) :
    (create n cwd path type major minor).Within q := by
  refine (within_namex hq cwd path true).bind fun found => ?_
  split
  · trivial
  refine (within_ilock hq _).bind fun _ => ?_
  refine (within_dirlookup hq _ _).bind fun found => ?_
  split
  · refine (within_iunlockput hq _).bind fun _ => ?_
    refine (within_ilock hq _).bind fun _ => ?_
    refine within_run hq rfl fun d => ?_
    split
    · trivial
    · exact (within_iunlockput hq _).bind fun _ => .pure _
  · exact (within_ialloc hq n type).bind fun ip => within_createNew hq ip _ _ _ _ _

lemma within_sysMkdir (path : List Char) : (sysMkdir n p cwd path).Within q := by
  refine (within_create hq cwd n path _ _ _).bind fun ip => ?_
  split
  · trivial
  · exact (within_iunlockput hq _).bind fun _ => .pure _

lemma within_sysMknod (path : List Char) (major minor : BitVec 32) :
    (sysMknod n p cwd path major minor).Within q := by
  refine (within_create hq cwd n path _ _ _).bind fun ip => ?_
  split
  · trivial
  · exact (within_iunlockput hq _).bind fun _ => .pure _

lemma within_sysLink (old new : List Char) : (sysLink p cwd old new).Within q := by
  refine (within_namei hq cwd old).bind fun ip => ?_
  split
  · trivial
  refine (within_ilock hq _).bind fun _ => ?_
  refine within_run hq rfl fun d => ?_
  split
  · exact (within_iunlockput hq _).bind fun _ => .pure _
  refine within_run hq rfl fun _ => ?_
  refine within_run hq rfl fun _ => ?_
  refine (within_namex hq cwd new true).bind fun found => ?_
  split
  · exact within_linkBad hq _ p
  refine (within_ilock hq _).bind fun _ => ?_
  refine within_run hq rfl fun inum => ?_
  refine (within_dirlink hq _ _ inum).bind fun linked => ?_
  split
  · exact (within_iunlockput hq _).bind fun _ => (within_iput hq _).bind fun _ => .pure _
  · exact (within_iunlockput hq _).bind fun _ => within_linkBad hq _ p

end Basic

section Files

variable {q : Op → Prop} (hq : ∀ o : Op, o.basic = true → q o)
  (hf : ∀ o : Op, o.filing = true → q o) (ip cwd : Slot) (n : ℕ) (p : Proc)

include hq hf

lemma within_fileclose (f : FileSlot) : (fileclose f).Within q := by
  refine (Within.perform (hf _ rfl)).bind fun ip => ?_
  split
  · exact within_iput hq _
  · trivial

lemma within_openInode (omode : BitVec 32) : (openInode p ip omode).Within q := by
  refine within_run hq rfl fun d => ?_
  split
  · exact (within_iunlockput hq ip).bind fun _ => .pure _
  refine within_run hq rfl fun f => ?_
  split
  · exact (within_iunlockput hq ip).bind fun _ => .pure _
  split
  · exact (within_fileclose hq hf _).bind fun _ => (within_iunlockput hq ip).bind fun _ => .pure _
  refine (Within.perform (hf _ rfl)).bind fun _ => ?_
  split
  · exact within_run hq rfl fun _ => within_run hq rfl fun _ => .pure _
  · exact within_run hq rfl fun _ => .pure _

lemma within_sysOpen (path : List Char) (omode : BitVec 32) :
    (sysOpen n p cwd path omode).Within q := by
  rw [sysOpen]
  split
  · refine (within_create hq cwd n path _ _ _).bind fun ip => ?_
    split
    · trivial
    · exact within_openInode hq hf _ p omode
  refine (within_namei hq cwd path).bind fun ip => ?_
  split
  · trivial
  refine (within_ilock hq _).bind fun _ => ?_
  refine within_run hq rfl fun d => ?_
  split
  · exact (within_iunlockput hq _).bind fun _ => .pure _
  · exact within_openInode hq hf _ p omode

lemma within_sysClose (fd : ℤ) : (sysClose p fd).Within q := by
  rw [sysClose]
  split
  · dsimp only
    split
    · trivial
    · exact (within_fileclose hq hf _).bind fun _ => .pure _
  · trivial

lemma within_closeAll (fds : List (Fin NOFILE)) : (closeAll p fds).Within q := by
  induction fds generalizing p with
  | nil => trivial
  | cons fd fds ih =>
    rw [closeAll]
    split
    · exact ih p
    · exact (within_fileclose hq hf _).bind fun _ => ih _

lemma within_exit : (exit p cwd).Within q :=
  (within_closeAll hq hf p _).bind fun _ => (within_iput hq cwd).bind fun _ => .pure _

end Files

end Hexv6.Fs
