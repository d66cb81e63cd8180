import Hexv6.Fs.Sound
import Hexv6.Fs.Within

/-!
# What an operation changes

The operations, sorted by the tables that they write: an entry of the inode table, an inode in
memory and on the disk, an inode on the disk alone, or the file table.
-/

namespace Hexv6.Fs

variable {P : Type}

/-- The inode on the disk that an operation may write to. -/
def written (s : State P) : Op → Option ℕ
  | .itrunc k | .ifree k | .initInode k _ _ | .nlinkUp k | .nlinkDown k | .writei k _ _ =>
    some (s.itable k).inum
  | .iallocTry inum _ => some inum
  | _ => none

/-- The changes that an operation can make. -/
inductive Effect (s : State P) : Op → State P → Prop
  | stay (o : Op) : Effect s o s
  | inode (o : Op) (k : Slot) (ip : Inode P)
      (hnode : ip.node = (s.itable k).node ∨ ip.node = s.disk (s.itable k).inum)
      (href : (s.itable k).ref ≤ ip.ref ∨ o = .iputTest k ∨ o = .iputDrop k) :
      Effect s o (s.setInode k ip)
  | store (o : Op) (k : Slot) (d : Dinode) (ho : written s o = some (s.itable k).inum)
      (hd : d.nlink = (s.itable k).node.nlink ∨ d.nlink = 1 ∨
        o = .nlinkUp k ∧ d.nlink = (s.itable k).node.nlink + 1 ∨
        o = .nlinkDown k ∧ d.nlink = (s.itable k).node.nlink - 1) : Effect s o (s.iupdate k d)
  | free (k : Slot) (ip : Inode P)
      (hnlink : ip.node.nlink = (s.itable k).node.nlink) (href : ip.ref = (s.itable k).ref) :
      Effect s (.ifree k) ((s.iupdate k { (s.itable k).node with type := .free }).setInode k ip)
  | alloc (i : ℕ) (type : IType) :
      Effect s (.iallocTry i type) { s with disk := Function.update s.disk i { type := type } }
  | take (f : FileSlot) (hf : (s.ftable f).ref = 0) :
      Effect s .filealloc
        { s with ftable := Function.update s.ftable f { s.ftable f with ref := 1 } }
  | file (o : Op) (g : FileSlot → File) (ho : o.filing = true) : Effect s o { s with ftable := g }

variable [DecidableEq P] {p : P} {s t : State P} {o : Op} {x : o.Result}

lemma exec_effect (hx : exec p o s = .ok (t, x)) : Effect s o t := by
  cases o with
  | iget inum =>
    rcases iget_cases hx with ⟨-, -, rfl⟩ | ⟨href, -, rfl⟩
    · exact .inode _ _ _ (.inl rfl) (.inl (Nat.le_succ _))
    · exact .inode _ _ _ (.inl rfl) (.inl (by rw [href]; exact Nat.zero_le _))
  | idup k =>
    cases hx
    exact .inode _ k _ (.inl rfl) (.inl (Nat.le_succ _))
  | acquiresleep k =>
    simp only [exec] at hx
    split at hx
    · cases hx
    split at hx
    · cases hx
      exact .inode _ k _ (.inl rfl) (.inl le_rfl)
    · cases hx
  | readInode k =>
    rcases readInode_ok hx with ⟨rfl, -⟩ | rfl
    · exact .stay _
    · exact .inode _ k _ (.inr rfl) (.inl le_rfl)
  | iunlock k =>
    simp only [exec] at hx
    split at hx
    · cases hx
    · cases hx
      exact .inode _ k _ (.inl rfl) (.inl le_rfl)
  | iputTest k =>
    simp only [exec, iputTest] at hx
    split at hx
    · split at hx
      · cases hx
        exact .inode _ k _ (.inl rfl) (.inl le_rfl)
      · cases hx
    · cases hx
      exact .inode _ k _ (.inl rfl) (.inr (.inl rfl))
  | releasesleep k =>
    cases hx
    exact .inode _ k _ (.inl rfl) (.inl le_rfl)
  | iputDrop k =>
    cases hx
    exact .inode _ k _ (.inl rfl) (.inr (.inr rfl))
  | itrunc k =>
    cases hx
    exact .store _ k _ rfl (.inl rfl)
  | initInode k major minor =>
    cases hx
    exact .store _ k _ rfl (.inr (.inl rfl))
  | nlinkUp k =>
    cases hx
    exact .store _ k _ rfl (.inr (.inr (.inl ⟨rfl, rfl⟩)))
  | nlinkDown k =>
    cases hx
    exact .store _ k _ rfl (.inr (.inr (.inr ⟨rfl, rfl⟩)))
  | writei k off de =>
    rcases writei_cases (Except.ok.inj hx) with ⟨-, rfl⟩ | ⟨-, rfl⟩
    · exact .stay _
    · exact .store _ k _ rfl (.inl rfl)
  | ifree k =>
    cases hx
    exact .free k _ (by simp [State.iupdate]) (by simp [State.iupdate])
  | iallocTry i type =>
    simp only [exec] at hx
    split at hx
    · cases hx
      exact .alloc i type
    · cases hx
      exact .stay _
  | filealloc =>
    have halloc : filealloc s = (t, x) := Except.ok.inj hx
    rw [filealloc] at halloc
    split at halloc
    · rename_i f hf
      cases halloc
      exact .take f (by simpa using List.find?_some hf)
    · cases halloc
      exact .stay _
  | fileSet f k =>
    cases hx
    exact .file _ _ rfl
  | fileDrop f =>
    simp only [exec, fileDrop] at hx
    split at hx
    · cases hx
    split at hx
    · cases hx
      exact .file _ _ rfl
    · cases hx
      exact .file _ _ rfl
  | node k | inum k =>
    cases hx
    exact .stay _
  | panic e => cases hx

/-- The other inodes stay as they are. -/
lemma exec_disk {i : ℕ} (hx : exec p o s = .ok (t, x)) (hi : written s o ≠ some i) :
    t.disk i = s.disk i := by
  cases exec_effect hx with
  | store o k d ho hd =>
    rw [ho] at hi
    exact Function.update_of_ne (fun heq => hi (congrArg some heq.symm)) ..
  | free k ip | alloc j type =>
    exact Function.update_of_ne (fun heq => hi (congrArg some heq.symm)) ..
  | stay | inode | take | file => rfl

/-- The files stay as they are, but for one that is not open. -/
lemma exec_ftable (hx : exec p o s = .ok (t, x)) (ho : o.filing = false)
    (f : FileSlot) :
    t.ftable f = s.ftable f ∨ (s.ftable f).ref = 0 ∧ (t.ftable f).ip = (s.ftable f).ip := by
  cases exec_effect hx with
  | take f' hf' =>
    rcases eq_or_ne f f' with rfl | hne
    · exact .inr ⟨hf', by simp⟩
    · exact .inl (Function.update_of_ne hne ..)
  | file o g ho' => simp [ho] at ho'
  | stay | inode | store | free | alloc => exact .inl rfl

/-- The operations that give up a last reference. -/
lemma exec_last {k : Slot} (hx : exec p o s = .ok (t, x))
    (hs : (s.itable k).ref = 1) (ht : (t.itable k).ref = 0) :
    o = .iputTest k ∨ o = .iputDrop k := by
  cases exec_effect hx with
  | inode o k' ip hnode href =>
    rcases eq_or_ne k k' with rfl | hne
    · have h0 : ip.ref = 0 := by simpa [State.setInode] using ht
      exact href.resolve_left (by omega)
    · simp [State.setInode, Function.update_of_ne hne, hs] at ht
  | store o k' d ho hd =>
    rcases eq_or_ne k k' with rfl | hne
    · simp [State.iupdate, hs] at ht
    · simp [State.iupdate, Function.update_of_ne hne, hs] at ht
  | free k' ip hnlink href =>
    rcases eq_or_ne k k' with rfl | hne
    · simp [State.setInode, href, hs] at ht
    · simp [State.setInode, State.iupdate, Function.update_of_ne hne, hs] at ht
  | stay | alloc | take | file => exact absurd (hs.symm.trans ht) one_ne_zero

end Hexv6.Fs
