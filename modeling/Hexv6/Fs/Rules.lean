import Hexv6.Lib.Frame
import Hexv6.Fs.Inv

/-!
# The rules of the operations

For every operation, the tokens that it uses and the tokens that it leaves, and that it
keeps the invariant if it is `Allowed`.
-/

namespace Hexv6.Fs

open Lib Multiset

/-- What a locked inode may become when its link count and its device numbers are set. -/
def Dinode.init (d : Dinode) (major minor : BitVec 16) : Dinode :=
  { d with major := major, minor := minor, nlink := 1 }

def Dinode.up (d : Dinode) : Dinode := { d with nlink := d.nlink + 1 }

def Dinode.down (d : Dinode) : Dinode := { d with nlink := d.nlink - 1 }

/-- The free position `x` among the entries of a directory. -/
def FreeAt (d : Dinode) (x : ℕ) : Prop :=
  d.type = .dir ∧ x ≤ (d.slots.drop 2).length ∧ oldInum (d.slots.drop 2) x = 0

/-- The position `x` among the entries of a directory, where the inode `j` is named. -/
def NamedAt (d : Dinode) (x j : ℕ) : Prop :=
  d.type = .dir ∧ x ≤ (d.slots.drop 2).length ∧ oldInum (d.slots.drop 2) x = j

/-- The operation, the tokens that it uses, and its result with the tokens that it leaves. -/
inductive Rule (n : ℕ) : (o : Op) → Multiset Token → (o.Result → Multiset Token → Prop) → Prop
  | igetRoot : Rule n (.iget ROOTINO) 0 fun k B => B = {.slot k ROOTINO (.ref none)}
  | igetEntry (k : Slot) (i : ℕ) (d : Dinode) (e : Dirent) (he : e ∈ d.slots) (h₀ : e.inum ≠ 0) :
      Rule n (.iget e.inum) {.slot k i (.lock d .plain)} fun k' B =>
        B = {.slot k i (.lock d .plain)} + {.slot k' e.inum (.ref none)}
  | igetNew (i : ℕ) (type : IType) :
      Rule n (.iget i) {.born i type} fun k B => B = {.slot k i (.ref (some type))}
  | idup (k : Slot) (i : ℕ) :
      Rule n (.idup k) {.slot k i (.ref none)} fun _ B =>
        B = {.slot k i (.ref none)} + {.slot k i (.ref none)}
  | acquiresleep (k : Slot) (i : ℕ) (new : Option IType) :
      Rule n (.acquiresleep k) {.slot k i (.ref new)} fun _ B => B = {.slot k i (.raw new)}
  | readInode (k : Slot) (i : ℕ) :
      Rule n (.readInode k) {.slot k i (.raw none)} fun _ B =>
        ∃ d, Good i d ∧ B = {.slot k i (.lock d .plain)}
  | readInodeNew (k : Slot) (i : ℕ) (type : IType) :
      Rule n (.readInode k) {.slot k i (.raw (some type))} fun _ B =>
        0 < i ∧ i < 2 ^ 16 ∧ B = {.slot k i (.lock { type := type } .new)}
  | node (k : Slot) (i : ℕ) (d : Dinode) (st : Stage) :
      Rule n (.node k) {.slot k i (.lock d st)} fun x B => x = d ∧ B = {.slot k i (.lock d st)}
  | inum (k : Slot) (i : ℕ) (m : Mode) :
      Rule n (.inum k) {.slot k i m} fun x B => x = i ∧ B = {.slot k i m}
  | iunlock (k : Slot) (i : ℕ) (d : Dinode) :
      Rule n (.iunlock k) {.slot k i (.lock d .plain)} fun _ B => B = {.slot k i (.ref none)}
  | iputTest (k : Slot) (i : ℕ) :
      Rule n (.iputTest k) {.slot k i (.ref none)} fun x B =>
        x = true ∧ B = {.slot k i (.doomed false)} ∨ x = false ∧ B = 0
  | itrunc (k : Slot) (i : ℕ) (cut : Bool) :
      Rule n (.itrunc k) {.slot k i (.doomed cut)} fun _ B => B = {.slot k i (.doomed true)}
  | itruncFile (k : Slot) (i : ℕ) (d : Dinode) (hd : d.slots = []) :
      Rule n (.itrunc k) {.slot k i (.lock d .plain)} fun _ B => B = {.slot k i (.lock d .plain)}
  | ifree (k : Slot) (i : ℕ) :
      Rule n (.ifree k) {.slot k i (.doomed true)} fun _ B => B = {.slot k i .freed}
  | releasesleep (k : Slot) (i : ℕ) :
      Rule n (.releasesleep k) {.slot k i .freed} fun _ B => B = {.slot k i .zombie}
  | iputDrop (k : Slot) (i : ℕ) : Rule n (.iputDrop k) {.slot k i .zombie} fun _ B => B = 0
  | iallocTry (i : ℕ) (type : IType) (hi : 0 < i ∧ i < n) (htype : type ≠ .free) :
      Rule n (.iallocTry i type) 0 fun x B => x = true ∧ B = {.born i type} ∨ x = false ∧ B = 0
  | initFile (k : Slot) (i : ℕ) (d : Dinode) (major minor : BitVec 16) (hd : d.type ≠ .dir) :
      Rule n (.initInode k major minor) {.slot k i (.lock d .new)} fun _ B =>
        B = {.slot k i (.lock (d.init major minor) .plain)} + {.credit i}
  | initDir (k : Slot) (i : ℕ) (d : Dinode) (major minor : BitVec 16) (hd : d.type = .dir) :
      Rule n (.initInode k major minor) {.slot k i (.lock d .new)} fun _ B =>
        B = {.slot k i (.lock (d.init major minor) .fill)}
  | upFile (k : Slot) (i : ℕ) (d : Dinode) (hd : d.type ≠ .dir) :
      Rule n (.nlinkUp k) {.slot k i (.lock d .plain)} fun _ B =>
        B = {.slot k i (.lock d.up .plain)} + {.credit i}
  | upDir (k : Slot) (i : ℕ) (d : Dinode) (hd : d.type = .dir) :
      Rule n (.nlinkUp k) {.slot k i (.lock d .plain)} fun _ B =>
        2 ≤ d.up.nlink.toNat ∧ B = {.slot k i (.lock d.up .extra)}
  | downFile (k : Slot) (i : ℕ) (d : Dinode) :
      Rule n (.nlinkDown k) ({.slot k i (.lock d .plain)} + {.credit i}) fun _ B =>
        B = {.slot k i (.lock d.down .plain)}
  | downDir (k : Slot) (i : ℕ) (d : Dinode) :
      Rule n (.nlinkDown k) {.slot k i (.lock d .extra)} fun _ B =>
        B = {.slot k i (.lock d.down .plain)}
  | putFile (k : Slot) (i j x : ℕ) (d : Dinode) (name : Name) (hx : FreeAt d x) (hj : j ≠ 0)
      (hname : name ≠ dot ∧ name ≠ dotdot) :
      Rule n (.writei k (x + 2) ⟨j, name⟩) ({.slot k i (.lock d .plain)} + {.credit j}) fun y B =>
        y = true → B = {.slot k i (.lock (d.put (x + 2) ⟨j, name⟩) .plain)}
  | putDir (k k' : Slot) (i j x : ℕ) (d e : Dinode) (name : Name) (hx : FreeAt d x) (hj : j ≠ 0)
      (hname : name ≠ dot ∧ name ≠ dotdot) (hnlink : 2 ≤ d.nlink.toNat)
      (he : e.slots[1]? = some ⟨i, dotdot⟩) :
      Rule n (.writei k (x + 2) ⟨j, name⟩)
        ({.slot k i (.lock d .extra)} + {.slot k' j (.lock e .fill)}) fun y B =>
        y = true → B = {.slot k i (.lock (d.put (x + 2) ⟨j, name⟩) .plain)} +
          {.slot k' j (.lock e .plain)}
  | putDot (k : Slot) (j : ℕ) (e : Dinode) (he : e.slots = []) :
      Rule n (.writei k 0 ⟨j, dot⟩) {.slot k j (.lock e .fill)} fun y B =>
        y = true → B = {.slot k j (.lock { e with slots := [⟨j, dot⟩] } .fill)}
  | putDotdot (k k' : Slot) (i j : ℕ) (d e : Dinode) (he : e.slots = [⟨j, dot⟩])
      (hd : d.type = .dir) (hnlink : 2 ≤ d.nlink.toNat) :
      Rule n (.writei k 1 ⟨i, dotdot⟩) ({.slot k j (.lock e .fill)} + {.slot k' i (.lock d .extra)})
        fun y B => y = true → B =
          {.slot k j (.lock { e with slots := [⟨j, dot⟩, ⟨i, dotdot⟩] } .fill)} +
            {.slot k' i (.lock d .extra)}
  | removeFile (k k' : Slot) (i j x : ℕ) (d e : Dinode) (hx : NamedAt d x j) (hj : j ≠ 0)
      (he : e.type ≠ .dir) :
      Rule n (.writei k (x + 2) {})
        ({.slot k i (.lock d .plain)} + {.slot k' j (.lock e .plain)}) fun y B =>
        y = true → B = {.slot k i (.lock (d.put (x + 2) {}) .plain)} +
          ({.slot k' j (.lock e .plain)} + {.credit j})
  | removeDir (k k' : Slot) (i j x : ℕ) (d e : Dinode) (hx : NamedAt d x j) (hj : j ≠ 0)
      (he : e.type = .dir) (hempty : ∀ de ∈ e.slots.drop 2, de.inum = 0) :
      Rule n (.writei k (x + 2) {})
        ({.slot k i (.lock d .plain)} + {.slot k' j (.lock e .plain)}) fun y B =>
        y = true → B = {.slot k i (.lock (d.put (x + 2) {}) .extra)} +
          {.slot k' j (.lock e .extra)}
  | filealloc : Rule n .filealloc 0 fun x B =>
    (∃ f, x = some f ∧ B = {.file f none}) ∨ x = none ∧ B = 0
  | fileSet (f : FileSlot) (k : Slot) (ip : Option Slot) :
      Rule n (.fileSet f k) {.file f ip} fun _ B => B = {.file f (some k)}
  | fileDrop (f : FileSlot) (ip : Option Slot) :
      Rule n (.fileDrop f) {.file f ip} fun x B => x = ip ∧ B = 0
  | panic (e : Panic) (he : e ≠ .noType) (A : Multiset Token) :
      Rule n (.panic e) A fun _ _ => False

end Hexv6.Fs
