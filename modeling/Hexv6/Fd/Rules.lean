import Hexv6.Fd.Count

/-!
# The rules of the operations

For every operation, the tokens that it uses and the tokens that it leaves, and that it keeps
the invariant.
-/

namespace Hexv6.Fd

open Lib Multiset Function

variable {K P : Type}

/-- The operation, the tokens that it uses, and its result with the tokens that it leaves. -/
inductive Rule : (o : Op P) → Multiset (Token P) → (o.Result → Multiset (Token P) → Prop) → Prop
  | ofile (p : P) (fd : Desc) (o : Ofile) :
      Rule (.ofile p fd) {.table p o} fun x B => x = o fd ∧ B = {.table p o}
  | setOfile (p : P) (fd : Desc) (v : Option FSlot) (o : Ofile) :
      Rule (.setOfile p fd v) {.table p o} fun _ B => B = {.table p (update o fd v)}
  | filealloc : Rule .filealloc 0 fun x B =>
    (∃ f, x = some f ∧ B = {.blank f}) ∨ x = none ∧ B = 0
  | filedup (f : FSlot) : Rule (.filedup f) {.ref f} fun _ B => B = {.ref f} + {.ref f}
  | fileDrop (f : FSlot) : Rule (.fileDrop f) {.ref f} fun x B => x = none ∧ B = 0 ∨
      ∃ ff, x = some ff ∧ B = if ff.type = .pipe then {.stop ff.pipe ff.writable} else 0
  | fileDropBlank (f : FSlot) : Rule (.fileDrop f) {.blank f} fun x B =>
    ∃ ff, x = some ff ∧ ff.type = .none ∧ B = 0
  | setPipe (f : FSlot) (pi : ℕ) (w : Bool) :
      Rule (.setPipe f pi w) ({.blank f} + {.stop pi w}) fun _ B => B = {.ref f}
  | setInode (f : FSlot) (type : FType) (r w : Bool) (hnone : type ≠ .none) (hpipe : type ≠ .pipe) :
      Rule (.setInode f type r w) {.blank f} fun _ B => B = {.ref f}
  | kalloc (pi : ℕ) : Rule (.kalloc pi) 0 fun _ B => B = {.stop pi false} + {.stop pi true}
  | pipeclose (pi : ℕ) (w : Bool) : Rule (.pipeclose pi w) {.stop pi w} fun _ B => B = 0
  | allocproc (np : P) : Rule (.allocproc np) 0 fun _ B => B = {.table np fun _ => none}
  | freeproc (np : P) : Rule (.freeproc np) {.table np fun _ => none} fun _ B => B = 0
  | ready (np : P) (o : Ofile) : Rule (.ready np) ({.table np o} + refs P o) fun _ B => B = 0
  | start (p : P) : Rule (.start p) 0 fun _ B => ∃ o, B = {.table p o} + refs P o
  | exit (p : P) : Rule (.exit p) {.table p fun _ => none} fun _ B => B = 0

variable [DecidableEq P] {s s' : State P} {W W' F : Multiset (Token P)} {f : FSlot} {p : P}
  {o : Ofile} {t : Token P} {pi : ℕ}

/-! ### The tables -/

namespace TableInv

lemma congr (h : TableInv s W) (hofile : s'.ofile = s.ofile) (hused : s'.used = s.used)
    (hmem : ∀ p o, .table p o ∈ W' → .table p o ∈ W)
    (hcount : ∀ p, W'.countP (·.isTable p) = W.countP (·.isTable p)) : TableInv s' W' := by
  refine ⟨fun p o ho => ?_, fun p => ?_, fun p hp => ?_⟩
  · rw [hofile]
    exact h.means p o (hmem p o ho)
  · rw [hcount, hused]
    exact h.count p
  · rw [hofile]
    exact h.empty p (hused ▸ hp)

/-- Tokens that are not tables do not matter. -/
lemma of_other (ht : ∀ p, t.isTable p = false) :
    TableInv s (t ::ₘ F) ↔ TableInv s F := by
  have hcount : ∀ p, (t ::ₘ F).countP (·.isTable p) = F.countP (·.isTable p) := fun p =>
    countP_cons_of_neg _ (by simp [ht p])
  have hmem : ∀ p o, .table p o ∈ t ::ₘ F → .table p o ∈ F := by
    intro p o ho
    rcases mem_cons.1 ho with rfl | ho
    · simpa [Token.isTable] using ht p
    · exact ho
  exact ⟨fun h => h.congr rfl rfl (fun p o ho => mem_cons_of_mem ho) fun p => (hcount p).symm,
    fun h => h.congr rfl rfl hmem hcount⟩

/-- The table of a process is in one hand. -/
lemma not_mem (h : TableInv s (.table p o ::ₘ F)) :
    F.countP (·.isTable p) = 0 ∧ s.used p = true := by
  have hcount := h.count p
  rw [countP_cons_of_pos _ (by simp [Token.isTable])] at hcount
  split_ifs at hcount with hused
  · exact ⟨by omega, hused⟩

lemma setOfile (h : TableInv s (.table p o ::ₘ F)) (o' : Ofile) :
    TableInv { s with ofile := update s.ofile p o' } (.table p o' ::ₘ F) := by
  obtain ⟨hnone, hused⟩ := h.not_mem
  refine ⟨fun q u hq => ?_, fun q => ?_, fun q hq => ?_⟩
  · rcases mem_cons.1 hq with heq | hmem
    · obtain ⟨rfl, rfl⟩ := Token.table.inj heq
      exact update_self ..
    have hne : q ≠ p := by
      rintro rfl
      exact countP_eq_zero.1 hnone _ hmem (by simp [Token.isTable])
    exact (update_of_ne hne ..).trans (h.means q u (mem_cons_of_mem hmem))
  · have hcount := h.count q
    rw [countP_cons] at hcount ⊢
    exact hcount
  have hne : q ≠ p := by
    rintro rfl
    exact Bool.false_ne_true (hq.symm.trans hused)
  exact (update_of_ne hne ..).trans (h.empty q hq)

lemma alloc (h : TableInv s F) (hp : s.used p = false) :
    TableInv { s with used := update s.used p true } (.table p (fun _ => none) ::ₘ F) := by
  refine ⟨fun q u hq => ?_, fun q => ?_, fun q hq => ?_⟩
  · rcases mem_cons.1 hq with heq | hq
    · obtain ⟨rfl, rfl⟩ := Token.table.inj heq
      exact h.empty q hp
    · exact h.means q u hq
  · have hcount := h.count q
    rcases eq_or_ne q p with rfl | hne
    · rw [if_neg (by simp [hp])] at hcount
      rw [countP_cons_of_pos _ (by simp [Token.isTable]), hcount]
      simp only [update_self, if_true]
    rw [countP_cons_of_neg _ (by simpa [Token.isTable] using hne.symm)]
    simp only [update_of_ne hne]
    exact hcount
  have hne : q ≠ p := by
    rintro rfl
    exact Bool.false_ne_true (hq.symm.trans (update_self ..))
  exact h.empty q ((update_of_ne hne ..).symm.trans hq)

lemma free (h : TableInv s (.table p (fun _ => none) ::ₘ F)) :
    TableInv { s with used := update s.used p false } F := by
  obtain ⟨hnone, -⟩ := h.not_mem
  refine ⟨fun q u hq => h.means q u (mem_cons_of_mem hq), fun q => ?_, fun q hq => ?_⟩
  · have hcount := h.count q
    rcases eq_or_ne q p with rfl | hne
    · simp only [update_self]
      exact hnone
    rw [countP_cons_of_neg _ (by simpa [Token.isTable] using hne.symm)] at hcount
    simp only [update_of_ne hne]
    exact hcount
  rcases eq_or_ne q p with rfl | hne
  · exact h.means q _ (mem_cons_self _ _)
  · exact h.empty q ((update_of_ne hne ..).symm.trans hq)

end TableInv

/-! ### The operations keep the invariant -/

/-- The counts of the tokens that an operation exchanges. -/
lemma count_cons_other {t u : Token P} (h : u ≠ t) : (t ::ₘ F).count u = F.count u :=
  count_cons_of_ne h _

/-- Nothing depends on which processes are ready. -/
lemma Core.setReady (h : Core s W) (r : P → Bool) : Core { s with ready := r } W :=
  ⟨h.files, h.pipes, h.tables.congr rfl rfl (fun _ _ => id) fun _ => rfl⟩

section Sound

variable [Fintype P]

lemma inv_cons : Inv s ({t} + F) ↔ Core s (t ::ₘ (F + stored s)) := by
  rw [Inv, add_assoc, singleton_add]

/-- A process whose table is in hand has run. -/
lemma Inv.not_ready (h : Inv s ({.table p o} + F)) : s.ready p = false := by
  by_contra hready
  have hcount := (inv_cons.1 h).tables.not_mem.1
  refine countP_eq_zero.1 hcount (.table p (s.ofile p)) ?_ (by simp [Token.isTable])
  refine mem_add.2 (.inr (mem_sum.2 ⟨p, Finset.mem_univ p, ?_⟩))
  rw [if_pos (by simpa using hready)]
  exact mem_cons_self _ _

/-- A process becomes ready, or runs for the first time. -/
lemma stored_ready (s : State P) (p : P) (hp : s.ready p = false) :
    stored { s with ready := update s.ready p true } =
      (.table p (s.ofile p) ::ₘ refs P (s.ofile p)) + stored s := by
  have hsum : stored { s with ready := update s.ready p true } +
      (if s.ready p then .table p (s.ofile p) ::ₘ refs P (s.ofile p) else 0) = stored s +
      if update s.ready p true p then .table p (s.ofile p) ::ₘ refs P (s.ofile p) else 0 :=
    sum_add_of_eq_off (M := Multiset (Token P)) (Finset.mem_univ p)
      (f := fun q => if s.ready q then .table q (s.ofile q) ::ₘ refs P (s.ofile q) else 0)
      fun q hq => by simp only [update_of_ne hq]
  rw [update_self, if_pos rfl, hp, if_neg Bool.false_ne_true, add_zero] at hsum
  rw [hsum, add_comm]

/-- Only the table of a process that has run is written. -/
lemma stored_setOfile (hp : s.ready p = false) (o' : Ofile) :
    stored { s with ofile := update s.ofile p o' } = stored s := by
  refine Finset.sum_congr rfl fun q _ => ?_
  rcases eq_or_ne q p with rfl | hne
  · rw [if_neg (by simp [hp]), if_neg (by simp [hp])]
  · simp only [update_of_ne hne]

lemma sound_ofile (fd : Desc) (v : Option FSlot) (h : Inv s ({.table p o} + F)) :
    s.ofile p fd = o fd ∧ Inv { s with ofile := update s.ofile p (update (s.ofile p) fd v) }
        ({.table p (update o fd v)} + F) := by
  have hcore := inv_cons.1 h
  have hmeans : s.ofile p = o := hcore.tables.means p o (mem_cons_self _ _)
  refine ⟨congrFun hmeans fd, ?_⟩
  rw [inv_cons, hmeans, stored_setOfile h.not_ready]
  have hcount : ∀ t : Token P, (∀ q u, t ≠ .table q u) → (Token.table p (update o fd v) ::ₘ
      (F + stored s)).count t = (Token.table p o ::ₘ (F + stored s)).count t := by
    intro t ht
    rw [count_cons_other (ht _ _), count_cons_other (ht _ _)]
  exact
    { files := hcore.files.congr fun g => ⟨hcount _ (by simp), hcount _ (by simp)⟩
      pipes := hcore.pipes.congr fun pi w => hcount _ (by simp)
      tables := hcore.tables.setOfile _ }

lemma sound_filealloc (h : Inv s F) (hf : (s.file f).ref = 0) :
    Inv (s.setFile f { s.file f with ref := 1 }) ({.blank f} + F) := by
  refine inv_cons.2
    { files := h.files.filealloc hf
      pipes := h.pipes.update (fun _ _ => Iff.rfl) fun pi w => count_cons_other (by simp)
      tables :=
        (TableInv.of_other fun _ => rfl).2 (h.tables.congr rfl rfl (fun _ _ => id) fun _ => rfl) }

lemma sound_filedup (h : Inv s ({.ref f} + F)) :
    Inv (s.setFile f { s.file f with ref := (s.file f).ref + 1 }) ({.ref f} + {.ref f} + F) := by
  have hcore := inv_cons.1 h
  rw [add_assoc, inv_cons, singleton_add, cons_add]
  exact
    { files := hcore.files.filedup
      pipes := hcore.pipes.update (fun _ _ => Iff.rfl) fun pi w => count_cons_other (by simp)
      tables :=
        (TableInv.of_other fun _ => rfl).2 (hcore.tables.congr rfl rfl (fun _ _ => id)
          fun _ => rfl) }

lemma sound_drop (h : Inv s ({.ref f} + F)) (hlast : 0 < (s.file f).ref - 1) :
    Inv (s.setFile f { s.file f with ref := (s.file f).ref - 1 }) F := by
  have hcore := inv_cons.1 h
  exact
    { files := hcore.files.drop hlast
      pipes := hcore.pipes.update (fun _ _ => Iff.rfl) fun pi w => (count_cons_other (by simp)).symm
      tables := ((TableInv.of_other fun _ => rfl).1 hcore.tables).congr rfl rfl (fun _ _ => id)
        fun _ => rfl }

/-- The last reference is given up; an end of a pipe is left. -/
lemma sound_close (h : Inv s ({t} + F)) (ht : t = .ref f ∨ t = .blank f)
    (hlast : (s.file f).ref - 1 = 0) :
    Inv (s.setFile f { s.file f with ref := 0, type := .none })
      ((if (s.file f).type = .pipe then {.stop (s.file f).pipe (s.file f).writable} else 0) +
        F) := by
  have hcore := inv_cons.1 h
  have hfiles := hcore.files.close ht hlast
  have hstop : ∀ pi w, (t ::ₘ (F + stored s)).count (.stop pi w) =
      (F + stored s).count (.stop pi w) := by
    intro pi w
    refine count_cons_other ?_
    rcases ht with rfl | rfl <;> simp
  have htables : TableInv s (F + stored s) := by
    refine (TableInv.of_other fun _ => ?_).1 hcore.tables
    rcases ht with rfl | rfl <;> rfl
  have htables' : TableInv (s.setFile f { s.file f with ref := 0, type := .none }) (F + stored s) :=
    htables.congr rfl rfl (fun _ _ => id) fun _ => rfl
  split_ifs with hpipe
  · refine inv_cons.2 ⟨hfiles.congr fun g => ⟨count_cons_other (by simp),
      count_cons_other (by simp)⟩,
      ?_, (TableInv.of_other fun _ => rfl).2 htables'⟩
    refine hcore.pipes.close hpipe (by simp) fun pi w => ?_
    rw [count_cons, hstop]
    simp only [Token.stop.injEq]
    rfl
  rw [zero_add]
  refine ⟨hfiles, ?_, htables'⟩
  refine hcore.pipes.update (fun pi w => ?_) fun pi w => (hstop pi w).symm
  exact iff_of_false (fun h => by cases h.1) fun h => hpipe h.1

/-- A new entry gets its type. -/
lemma sound_setPipe {w : Bool} (h : Inv s ({.blank f} + {.stop pi w} + F)) :
    Inv (s.setFile f { s.file f with type := .pipe, readable := !w, writable := w, pipe := pi })
      ({.ref f} + F) := by
  rw [add_assoc, inv_cons, singleton_add, cons_add] at h
  have hnone := h.files.of_blank.2.2.2
  have hfiles : FileInv s.file (.blank f ::ₘ (F + stored s)) := h.files.congr fun g => by
    rw [cons_swap, count_cons_other (t := .stop pi w) (by simp),
      count_cons_other (t := .stop pi w) (by simp)]
    exact ⟨rfl, rfl⟩
  have hpipes : PipeInv s.file s.pipe (.stop pi w ::ₘ (F + stored s)) := h.pipes.congr fun qi v =>
    (count_cons_other (by simp)).symm
  refine inv_cons.2
    { files := hfiles.setType rfl (by simp) fun _ => rfl
      pipes := hpipes.setPipe hnone ⟨rfl, rfl, rfl⟩ fun qi v => count_cons_other (by simp)
      tables := ?_ }
  have htables := (TableInv.of_other fun _ => rfl).1 ((TableInv.of_other fun _ => rfl).1 h.tables)
  exact (TableInv.of_other fun _ => rfl).2 (htables.congr rfl rfl (fun _ _ => id) fun _ => rfl)

lemma sound_setInode {type : FType} {r w : Bool} (hnone : type ≠ .none) (hpipe : type ≠ .pipe)
    (h : Inv s ({.blank f} + F)) :
    Inv (s.setFile f { s.file f with type := type, readable := r, writable := w })
      ({.ref f} + F) := by
  have hcore := inv_cons.1 h
  have hold := hcore.files.of_blank.2.2.2
  refine inv_cons.2
    { files := hcore.files.setType rfl hnone fun hp => absurd hp hpipe
      pipes := hcore.pipes.update (fun qi v => ?_) fun qi v => ?_
      tables := ?_ }
  · refine iff_of_false (fun h => hpipe h.1) fun h => ?_
    rw [h.1] at hold
    cases hold
  · rw [count_cons_other (by simp), count_cons_other (by simp)]
    rfl
  · have htables := (TableInv.of_other fun _ => rfl).1 hcore.tables
    exact (TableInv.of_other fun _ => rfl).2 (htables.congr rfl rfl (fun _ _ => id) fun _ => rfl)

lemma sound_kalloc (h : Inv s F) (hfree : s.pipe pi = none) :
    Inv { s with pipe := update s.pipe pi (some ⟨true, true⟩) }
      ({.stop pi false} + {.stop pi true} + F) := by
  rw [add_assoc, inv_cons, singleton_add, cons_add]
  refine { files := h.files.congr fun g => ?_, pipes := h.pipes.kalloc hfree, tables := ?_ }
  · rw [count_cons_other (by simp), count_cons_other (by simp), count_cons_other (by simp),
      count_cons_other (by simp)]
    exact ⟨rfl, rfl⟩
  · exact (TableInv.of_other fun _ => rfl).2 ((TableInv.of_other fun _ => rfl).2
      (h.tables.congr rfl rfl (fun _ _ => id) fun _ => rfl))

lemma sound_pipeclose {w : Bool} (h : Inv s ({.stop pi w} + F)) :
    Inv { s with pipe := update s.pipe pi ((s.pipe pi).bind (·.close w)) } F := by
  have hcore := inv_cons.1 h
  exact
    { files := hcore.files.congr fun g => ⟨(count_cons_other (by simp)).symm,
        (count_cons_other (by simp)).symm⟩
      pipes := hcore.pipes.pipeclose
      tables := ((TableInv.of_other fun _ => rfl).1 hcore.tables).congr rfl rfl (fun _ _ => id)
        fun _ => rfl }

lemma sound_allocproc (h : Inv s F) (hp : s.used p = false) :
    Inv { s with used := update s.used p true } ({.table p fun _ => none} + F) :=
  inv_cons.2
    { files := h.files.congr fun g => ⟨count_cons_other (by simp), count_cons_other (by simp)⟩
      pipes := h.pipes.congr fun pi w => count_cons_other (by simp)
      tables := h.tables.alloc hp }

lemma sound_freeproc (h : Inv s ({.table p fun _ => none} + F)) :
    Inv { s with used := update s.used p false } F := by
  have hcore := inv_cons.1 h
  exact
    { files := hcore.files.congr fun g => ⟨(count_cons_other (by simp)).symm,
        (count_cons_other (by simp)).symm⟩
      pipes := hcore.pipes.congr fun pi w => (count_cons_other (by simp)).symm
      tables := hcore.tables.free }

lemma sound_ready (h : Inv s ({.table p o} + refs P o + F)) :
    Inv { s with ready := update s.ready p true } F := by
  have h' : Inv s ({.table p o} + (refs P o + F)) := by rwa [← add_assoc]
  have hmeans : s.ofile p = o := (inv_cons.1 h').tables.means p o (mem_cons_self _ _)
  rw [Inv, stored_ready s p h'.not_ready, hmeans]
  refine Core.setReady ?_ _
  rw [Inv] at h
  convert h using 1
  rw [← singleton_add]
  abel

lemma sound_start (h : Inv s F) (hp : s.ready p = true) :
    Inv { s with ready := update s.ready p false }
      ({.table p (s.ofile p)} + refs P (s.ofile p) + F) := by
  have hstored := stored_ready { s with ready := update s.ready p false } p (update_self ..)
  simp only [update_idem] at hstored
  have hback : ({ s with ready := update s.ready p true } : State P) = s := by
    rw [← hp, update_eq_self]
  rw [hback] at hstored
  refine Core.setReady ?_ _
  rw [Inv, hstored] at h
  convert h using 1
  rw [← singleton_add]
  abel

/-- Every rule is right. -/
theorem Rule.sound {k : K} {op : Op P} {A : Multiset (Token P)}
    {Ψ : op.Result → Multiset (Token P) → Prop} {t : State P} {x : op.Result} (hr : Rule op A Ψ)
    (h : Inv s (A + F)) (hx : exec k op s = .ok (t, x)) : ∃ B, Ψ x B ∧ Inv t (B + F) := by
  cases hr with
  | ofile p fd o =>
    cases hx
    exact ⟨_, ⟨(sound_ofile fd none h).1, rfl⟩, h⟩
  | setOfile p fd v o =>
    cases hx
    exact ⟨_, rfl, (sound_ofile fd v h).2⟩
  | filealloc =>
    rw [zero_add] at h
    simp only [exec] at hx
    split at hx
    · rename_i f hf
      cases hx
      have hfree := List.find?_some hf
      exact ⟨_, .inl ⟨f, rfl, rfl⟩, sound_filealloc h (of_decide_eq_true hfree)⟩
    · cases hx
      exact ⟨0, .inr ⟨rfl, rfl⟩, by rwa [zero_add]⟩
  | filedup f =>
    simp only [exec] at hx
    split_ifs at hx
    cases hx
    exact ⟨_, rfl, sound_filedup h⟩
  | fileDrop f =>
    simp only [exec] at hx
    split_ifs at hx with h1 h2
    · cases hx
      exact ⟨0, .inl ⟨rfl, rfl⟩, by rw [zero_add]; exact sound_drop h h2⟩
    · cases hx
      exact ⟨_, .inr ⟨_, rfl, rfl⟩, sound_close h (.inl rfl) (by omega)⟩
  | fileDropBlank f =>
    obtain ⟨-, -, hone, hnone⟩ := (inv_cons.1 h).files.of_blank
    have hclose := sound_close h (.inr rfl) (by omega)
    rw [if_neg (by rw [hnone]; decide)] at hclose
    simp only [exec] at hx
    split_ifs at hx with h1 h2
    · omega
    · cases hx
      exact ⟨0, ⟨_, rfl, hnone, rfl⟩, hclose⟩
  | setPipe f pi w =>
    cases hx
    exact ⟨_, rfl, sound_setPipe h⟩
  | setInode f type r w hnone hpipe =>
    cases hx
    exact ⟨_, rfl, sound_setInode hnone hpipe h⟩
  | kalloc pi =>
    rw [zero_add] at h
    simp only [exec] at hx
    split_ifs at hx with hfree
    cases hx
    exact ⟨_, rfl, sound_kalloc h hfree⟩
  | pipeclose pi w =>
    cases hx
    exact ⟨0, rfl, by rw [zero_add]; exact sound_pipeclose h⟩
  | allocproc np =>
    rw [zero_add] at h
    simp only [exec] at hx
    split_ifs at hx with hfree
    cases hx
    exact ⟨_, rfl, sound_allocproc h hfree⟩
  | freeproc np | exit p =>
    cases hx
    exact ⟨0, rfl, by rw [zero_add]; exact sound_freeproc h⟩
  | ready np o =>
    cases hx
    exact ⟨0, rfl, by rw [zero_add]; exact sound_ready h⟩
  | start p =>
    rw [zero_add] at h
    simp only [exec] at hx
    split_ifs at hx with hp
    cases hx
    exact ⟨_, ⟨_, rfl⟩, sound_start h hp⟩

end Sound

end Hexv6.Fd
