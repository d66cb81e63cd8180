import Hexv6.Fd.Rules

/-!
# The references are exact

Every system call takes the table of its process and one reference for each descriptor in it,
and ends with a table and one reference for each descriptor in it, on all of its paths.  When no
system call is in progress the references are then those of the descriptors.
-/

namespace Hexv6.Fd

open Lib Multiset Function

variable {P : Type} {p np : P} {o o' : Ofile} {f : FSlot} {n : ℤ} {D : Multiset P}
  {fds : List Desc} {page : Option ℕ} {fd : Desc} {copied : Bool}

/-- What a process has between two system calls. -/
def Holds (a : Option P) (B : Multiset (Token P)) : Prop :=
  match a with
  | none => B = 0
  | some p => ∃ o, B = {.table p o} + refs P o

/-! ### Functions -/

lemma spec_fileclose : Spec (Rule (P := P)) {.ref f} (fileclose f) fun _ B => B = 0 := by
  refine Spec.op (.fileDrop f) fun x B hB => ?_
  rcases hB with ⟨rfl, rfl⟩ | ⟨ff, rfl, rfl⟩
  · exact .ret rfl
  dsimp only
  split_ifs with hpipe
  · exact Spec.perform (.pipeclose _ _)
  · exact .ret rfl

lemma spec_fileclose_blank : Spec (Rule (P := P)) {.blank f} (fileclose f) fun _ B => B = 0 := by
  refine Spec.op (.fileDropBlank f) fun x B hB => ?_
  obtain ⟨ff, rfl, hnone, rfl⟩ := hB
  dsimp only
  rw [if_neg (by rw [hnone]; decide)]
  exact .ret rfl

lemma spec_argfd : Spec Rule {.table p o} (argfd p n) fun x B =>
    (∀ y, x = some y → o y.1 = some y.2) ∧ B = {.table p o} := by
  rw [argfd]
  split_ifs with hn
  · refine Spec.op (.ofile p _ o) fun x B hB => ?_
    obtain ⟨rfl, rfl⟩ := hB
    refine .ret ⟨fun y hy => ?_, rfl⟩
    obtain ⟨g, hg, rfl⟩ := Option.map_eq_some_iff.1 hy
    exact hg
  · exact .ret ⟨fun y hy => (Option.some_ne_none y hy.symm).elim, rfl⟩

/-- `fdalloc` finds a descriptor that is free, or none. -/
lemma spec_fdallocFrom (fds : List Desc) : Spec Rule {.table p o} (fdallocFrom p f fds) fun x B =>
    x = none ∧ B = {.table p o} ∨
      ∃ fd, x = some fd ∧ o fd = none ∧ B = {.table p (update o fd (some f))} := by
  induction fds with
  | nil => exact .ret (.inl ⟨rfl, rfl⟩)
  | cons fd fds ih =>
    refine Spec.op (.ofile p fd o) fun x B hB => ?_
    obtain ⟨rfl, rfl⟩ := hB
    cases hfd : o fd with
    | none =>
      refine Spec.op (.setOfile p fd (some f) o) fun _ B hB => ?_
      obtain rfl := hB
      exact .ret (.inr ⟨fd, rfl, hfd, rfl⟩)
    | some g => exact ih

lemma spec_fdalloc : Spec Rule {.table p o} (fdalloc p f) fun x B =>
    x = none ∧ B = {.table p o} ∨
      ∃ fd, x = some fd ∧ o fd = none ∧ B = {.table p (update o fd (some f))} :=
  spec_fdallocFrom _

/-- A descriptor gets a reference that is in hand. -/
lemma held_set (h : o fd = none) :
    ({.table p (update o fd (some f))} + refs P o + {.ref f} : Multiset (Token P)) =
      {.table p (update o fd (some f))} + refs P (update o fd (some f)) := by
  rw [refs_set h, ← singleton_add]
  abel

lemma spec_sysDup :
    Spec Rule ({.table p o} + refs P o) (sysDup p n) fun _ B => Holds (some p) B := by
  refine spec_argfd.seq fun x B hB => ?_
  obtain ⟨hx, rfl⟩ := hB
  rcases x with _ | ⟨fd0, f⟩
  · exact .ret ⟨o, rfl⟩
  have hf : o fd0 = some f := hx _ rfl
  refine spec_fdalloc.seq fun y B hB => ?_
  rcases hB with ⟨rfl, rfl⟩ | ⟨fd, rfl, hfd, rfl⟩
  · exact .ret ⟨o, rfl⟩
  -- the reference of the old descriptor is doubled
  have hsplit : ({.table p (update o fd (some f))} + refs P o : Multiset (Token P)) =
      {.ref f} + ({.table p (update o fd (some f))} + refs P (update o fd0 none)) := by
    rw [refs_clear hf, ← singleton_add]
    abel
  rw [hsplit]
  refine (Spec.perform (.filedup f)).last fun _ B hB => ⟨update o fd (some f), ?_⟩
  rw [hB, ← held_set hfd, refs_clear hf, ← singleton_add]
  abel

lemma spec_sysClose :
    Spec Rule ({.table p o} + refs P o) (sysClose p n) fun _ B => Holds (some p) B := by
  refine spec_argfd.seq fun x B hB => ?_
  obtain ⟨hx, rfl⟩ := hB
  rcases x with _ | ⟨fd, f⟩
  · exact .ret ⟨o, rfl⟩
  refine Spec.opSeq (.setOfile p fd none o) fun _ B hB => ?_
  obtain rfl := hB
  rw [refs_clear (hx _ rfl), ← singleton_add, add_left_comm]
  refine spec_fileclose.last fun _ B hB => ⟨update o fd none, ?_⟩
  rw [hB, zero_add]

lemma spec_sysOpen {omode : BitVec 32} {ip : Option Inode} :
    Spec Rule ({.table p o} + refs P o) (sysOpen p omode ip) fun _ B => Holds (some p) B := by
  rcases ip with _ | ip
  · exact .ret ⟨o, rfl⟩
  rw [sysOpen]
  split
  · exact .ret ⟨o, rfl⟩
  split
  · exact .ret ⟨o, rfl⟩
  rw [← zero_add ({.table p o} + refs P o)]
  refine Spec.opSeq .filealloc fun x B hB => ?_
  rcases hB with ⟨f, rfl, rfl⟩ | ⟨rfl, rfl⟩
  · rw [show ({.blank f} + ({.table p o} + refs P o) : Multiset (Token P)) =
      {.table p o} + ({.blank f} + refs P o) by abel]
    refine spec_fdalloc.seq fun y B hB => ?_
    rcases hB with ⟨rfl, rfl⟩ | ⟨fd, rfl, hfd, rfl⟩
    · rw [show ({.table p o} + ({.blank f} + refs P o) : Multiset (Token P)) =
        {.blank f} + ({.table p o} + refs P o) by abel]
      refine spec_fileclose_blank.last fun _ B hB => ⟨o, ?_⟩
      rw [hB, zero_add]
    rw [show ({.table p (update o fd (some f))} + ({.blank f} + refs P o) :
      Multiset (Token P)) = {.blank f} + ({.table p (update o fd (some f))} + refs P o)
      by abel]
    have htype : (if ip.type = tDevice then FType.device else .inode) ≠ .none ∧
        (if ip.type = tDevice then FType.device else .inode) ≠ .pipe := by
      split_ifs <;> decide
    refine (Spec.perform (.setInode f _ _ _ htype.1 htype.2)).last fun _ B hB =>
      ⟨update o fd (some f), ?_⟩
    rw [hB, ← held_set hfd]
    abel
  · rw [zero_add]
    exact .ret ⟨o, rfl⟩

lemma spec_pipealloc : Spec (Rule (P := P)) 0 (pipealloc page) fun x B =>
    x = none ∧ B = 0 ∨ ∃ f₀ f₁, x = some (f₀, f₁) ∧ B = {.ref f₀} + {.ref f₁} := by
  refine Spec.op .filealloc fun x B hB => ?_
  rcases hB with ⟨f₀, rfl, rfl⟩ | ⟨rfl, rfl⟩
  case inr => exact .ret (.inl ⟨rfl, rfl⟩)
  rw [← zero_add {Token.blank f₀}]
  refine Spec.opSeq .filealloc fun x B hB => ?_
  rcases hB with ⟨f₁, rfl, rfl⟩ | ⟨rfl, rfl⟩
  case inr =>
    rw [zero_add]
    refine spec_fileclose_blank.bind fun _ B hB => ?_
    exact .ret (.inl ⟨rfl, hB⟩)
  rcases page with _ | pi
  · rw [add_comm]
    refine spec_fileclose_blank.seq fun _ B hB => ?_
    rw [hB, zero_add]
    refine spec_fileclose_blank.bind fun _ B hB => ?_
    exact .ret (.inl ⟨rfl, hB⟩)
  rw [← zero_add ({Token.blank f₁} + {Token.blank f₀})]
  refine Spec.opSeq (.kalloc pi) fun _ B hB => ?_
  rw [hB, show ({.stop pi false} + {.stop pi true} + ({.blank f₁} + {.blank f₀}) :
    Multiset (Token P)) = {.blank f₀} + {.stop pi false} + ({.blank f₁} + {.stop pi true}) by abel]
  refine Spec.opSeq (.setPipe f₀ pi false) fun _ B hB => ?_
  rw [hB, add_comm]
  refine Spec.opSeq (.setPipe f₁ pi true) fun _ B hB => ?_
  rw [hB, add_comm]
  exact .ret (.inr ⟨f₀, f₁, rfl, rfl⟩)

/-- Both entries of a pipe are closed. -/
lemma spec_closeBoth {f₀ f₁ : FSlot} : Spec Rule ({.table p o} + ({.ref f₀} + {.ref f₁} + refs P o))
    (do fileclose f₀; fileclose f₁) fun _ B => Holds (some p) B := by
  rw [add_left_comm, add_assoc]
  refine spec_fileclose.seq fun _ B hB => ?_
  rw [hB, zero_add]
  refine spec_fileclose.last fun _ B hB => ⟨o, ?_⟩
  rw [hB, zero_add]

lemma spec_sysPipe :
    Spec Rule ({.table p o} + refs P o) (sysPipe p page copied) fun _ B => Holds (some p) B := by
  rw [← zero_add ({.table p o} + refs P o)]
  refine spec_pipealloc.seq fun x B hB => ?_
  rcases hB with ⟨rfl, rfl⟩ | ⟨rf, wf, rfl, rfl⟩
  · rw [zero_add]
    exact .ret ⟨o, rfl⟩
  rw [add_left_comm]
  refine spec_fdalloc.seq fun y B hB => ?_
  rcases hB with ⟨rfl, rfl⟩ | ⟨fd0, rfl, hfd0, rfl⟩
  · exact spec_closeBoth
  set o1 := update o fd0 (some rf) with ho1
  have hback1 : update o1 fd0 none = o := by
    rw [ho1, update_idem, ← hfd0, update_eq_self]
  refine spec_fdalloc.seq fun y B hB => ?_
  rcases hB with ⟨rfl, rfl⟩ | ⟨fd1, rfl, hfd1, rfl⟩
  · refine Spec.opSeq (.setOfile p fd0 none o1) fun _ B hB => ?_
    rw [hB, hback1]
    exact spec_closeBoth
  set o2 := update o1 fd1 (some wf) with ho2
  split_ifs
  · refine .ret ⟨o2, ?_⟩
    rw [ho2, refs_set hfd1, ho1, refs_set hfd0, ← singleton_add, ← singleton_add]
    abel
  have hne : fd1 ≠ fd0 := by
    rintro rfl
    rw [ho1, update_self] at hfd1
    cases hfd1
  have hback : update (update o2 fd0 none) fd1 none = o := by
    rw [ho2, update_comm hne.symm, update_idem, update_comm hne, hback1]
    have hold : o fd1 = none := by rwa [ho1, update_of_ne hne] at hfd1
    rw [← hold, update_eq_self]
  refine Spec.opSeq (.setOfile p fd0 none o2) fun _ B hB => ?_
  obtain rfl := hB
  refine Spec.opSeq (.setOfile p fd1 none _) fun _ B hB => ?_
  rw [hB, hback]
  exact spec_closeBoth

/-- The child gets a reference for every open file of its parent. -/
lemma spec_forkFiles (hnodup : fds.Nodup) (hnone : ∀ fd ∈ fds, o' fd = none) :
    Spec Rule ({.table p o} + refs P o + ({.table np o'} + refs P o')) (forkFiles p np fds)
      fun _ B => ∃ o'', B = {.table p o} + refs P o + ({.table np o''} + refs P o'') := by
  induction fds generalizing o' with
  | nil => exact .ret ⟨o', rfl⟩
  | cons fd fds ih =>
    obtain ⟨hfd, hnodup'⟩ := List.nodup_cons.1 hnodup
    rw [add_assoc]
    refine Spec.opSeq (.ofile p fd o) fun x B hB => ?_
    obtain ⟨rfl, rfl⟩ := hB
    rw [← add_assoc]
    cases hx : o fd with
    | none => exact ih hnodup' fun g hg => hnone g (List.mem_cons_of_mem _ hg)
    | some f =>
      have hsplit : ({.table p o} + refs P o + ({.table np o'} + refs P o') : Multiset (Token P)) =
          {.ref f} + ({.table p o} + refs P (update o fd none) + ({.table np o'} + refs P o')) := by
        rw [refs_clear hx, ← singleton_add]
        abel
      rw [hsplit]
      refine Spec.opSeq (.filedup f) fun _ B hB => ?_
      have hset : B + ({.table p o} + refs P (update o fd none) +
          ({.table np o'} + refs P o')) = {.table np o'} + ({.table p o} + refs P o +
            (refs P o' + {.ref f})) := by
        rw [hB, refs_clear hx, ← singleton_add]
        abel
      rw [hset]
      refine Spec.opSeq (.setOfile np fd (some f) o') fun _ B hB => ?_
      have hrest : B + ({.table p o} + refs P o + (refs P o' + {.ref f})) =
          {.table p o} + refs P o + ({.table np (update o' fd (some f))} +
            refs P (update o' fd (some f))) := by
        rw [hB, ← held_set (hnone fd (List.mem_cons_self ..))]
        abel
      rw [hrest]
      refine ih hnodup' fun g hg => ?_
      have hne : g ≠ fd := fun heq => hfd (heq ▸ hg)
      rw [update_of_ne hne]
      exact hnone g (List.mem_cons_of_mem _ hg)

lemma spec_fork {np : Option P} :
    Spec Rule ({.table p o} + refs P o) (fork p np copied) fun _ B => Holds (some p) B := by
  rcases np with _ | np
  · exact .ret ⟨o, rfl⟩
  rw [fork, ← zero_add ({.table p o} + refs P o)]
  refine Spec.opSeq (.allocproc np) fun _ B hB => ?_
  obtain rfl := hB
  split_ifs
  · rw [show ({.table np fun _ => none} + ({.table p o} + refs P o) : Multiset (Token P)) =
      {.table p o} + refs P o + ({.table np fun _ => none} + refs P fun _ => none) by
        rw [refs_empty, add_zero, add_comm]]
    refine (spec_forkFiles (List.nodup_finRange _) fun _ _ => rfl).bind fun _ B hB => ?_
    obtain ⟨o', rfl⟩ := hB
    rw [add_comm]
    refine (Spec.perform (.ready np o')).last fun _ B hB => ⟨o, ?_⟩
    rw [hB, zero_add]
  · refine (Spec.perform (.freeproc np)).last fun _ B hB => ⟨o, ?_⟩
    rw [hB, zero_add]

lemma spec_exitFiles (h : ∀ fd, fd ∉ fds → o fd = none) :
    Spec Rule ({.table p o} + refs P o) (exitFiles p fds)
      fun _ B => B = {.table p fun _ => none} := by
  induction fds generalizing o with
  | nil =>
    obtain rfl : o = fun _ => none := funext fun fd => h fd List.not_mem_nil
    rw [refs_empty, add_zero]
    exact .ret rfl
  | cons fd fds ih =>
    refine Spec.opSeq (.ofile p fd o) fun x B hB => ?_
    obtain ⟨rfl, rfl⟩ := hB
    cases hx : o fd with
    | none =>
      refine ih fun g hg => ?_
      rcases eq_or_ne g fd with rfl | hne
      · exact hx
      · exact h g fun hmem => (List.mem_cons.1 hmem).elim hne hg
    | some f =>
      rw [show ({.table p o} + refs P o : Multiset (Token P)) =
        {.ref f} + ({.table p o} + refs P (update o fd none)) by
          rw [refs_clear hx, ← singleton_add]; abel]
      refine spec_fileclose.seq fun _ B hB => ?_
      rw [hB, zero_add]
      refine Spec.opSeq (.setOfile p fd none o) fun _ B hB => ?_
      rw [hB]
      refine ih fun g hg => ?_
      rcases eq_or_ne g fd with rfl | hne
      · exact update_self ..
      · rw [update_of_ne hne]
        exact h g fun hmem => (List.mem_cons.1 hmem).elim hne hg

lemma spec_exit : Spec Rule ({.table p o} + refs P o) (exit p) fun _ B => B = 0 := by
  refine (spec_exitFiles fun fd hfd => absurd (List.mem_finRange fd) hfd).bind fun _ B hB => ?_
  rw [hB]
  exact Spec.perform (.exit p)

/-- Every call of a process ends with what it has between two calls. -/
lemma spec_body {c : Call P} {a : Option P} {m : Kernel P (Option P)} {r : Multiset (Token P)}
    (hm : body c a = some m) (hr : Holds a r) : Spec Rule r m Holds := by
  rcases a with _ | p
  · obtain rfl := hr
    cases c with
    | start p =>
      cases hm
      exact Spec.op (.start p) fun _ B hB => .ret hB
    | _ => cases hm
  obtain ⟨o, rfl⟩ := hr
  cases c with
  | start => cases hm
  | «open» omode ip =>
    cases hm
    exact spec_sysOpen.bind fun _ B hB => .ret hB
  | pipe page copied =>
    cases hm
    exact spec_sysPipe.bind fun _ B hB => .ret hB
  | dup n =>
    cases hm
    exact spec_sysDup.bind fun _ B hB => .ret hB
  | close n =>
    cases hm
    exact spec_sysClose.bind fun _ B hB => .ret hB
  | fork np copied =>
    cases hm
    exact spec_fork.bind fun _ B hB => .ret hB
  | exit =>
    cases hm
    exact spec_exit.bind fun _ B hB => .ret hB

/-! ### Between two system calls -/

section Whole

variable [DecidableEq P] {s : State P}

/-- The tokens of these processes. -/
def held (s : State P) (D : Multiset P) : Multiset (Token P) :=
  (D.map fun p => .table p (s.ofile p) ::ₘ refs P (s.ofile p)).sum

omit [DecidableEq P] in
lemma held_cons (s : State P) (p : P) (D : Multiset P) :
    held s (p ::ₘ D) = (.table p (s.ofile p) ::ₘ refs P (s.ofile p)) + held s D := by
  rw [held, map_cons, sum_cons, held]

omit [DecidableEq P] in
lemma held_singleton (s : State P) (p : P) :
    held s {p} = .table p (s.ofile p) ::ₘ refs P (s.ofile p) := by
  rw [held, map_singleton, sum_singleton]

omit [DecidableEq P] in
lemma held_add (s : State P) (D E : Multiset P) : held s (D + E) = held s D + held s E := by
  rw [held, Multiset.map_add, sum_add, held, held]

/-- There is one table for each of the processes. -/
lemma countP_isTable_held (D : Multiset P) (p : P) :
    (held s D).countP (·.isTable p) = D.count p := by
  induction D using Multiset.induction_on with
  | empty => rfl
  | cons q D ih =>
    rw [held_cons, countP_add, countP_cons, countP_isTable_refs, ih, count_cons, zero_add, add_comm]
    simp only [Token.isTable, decide_eq_true_eq]
    exact congrArg (_ + ·) (if_congr eq_comm rfl rfl)

lemma count_ref_held (D : Multiset P) (f : FSlot) : (held s D).count (.ref f) =
    (D.map fun p => (Finset.univ.filter fun fd => s.ofile p fd = some f).card).sum := by
  induction D using Multiset.induction_on with
  | empty => rfl
  | cons q D ih =>
    rw [held_cons, count_add, count_cons_of_ne (by simp), count_refs, ih, map_cons, sum_cons]

/-- All tokens are tables and references. -/
lemma count_held_of_ne {t : Token P} (href : ∀ f, t ≠ .ref f)
    (htable : ∀ p o, t ≠ .table p o) : (held s D).count t = 0 := by
  induction D using Multiset.induction_on with
  | empty => rfl
  | cons q D ih =>
    rw [held_cons, count_add, count_cons_of_ne (htable _ _), count_refs_of_ne href, ih]

variable [Fintype P]

/-- The references of all descriptors. -/
lemma sum_map_eq {g : P → ℕ} (hone : ∀ p, D.count p ≤ 1)
    (hzero : ∀ p, D.count p = 0 → g p = 0) : (D.map g).sum = ∑ p, g p := by
  rw [Finset.sum_multiset_map_count]
  rw [Finset.sum_subset (Finset.subset_univ _) fun p _ hp => by
    rw [count_eq_zero.2 (fun h => hp (mem_toFinset.2 h)), zero_smul]]
  refine Finset.sum_congr rfl fun p _ => ?_
  rcases Nat.le_one_iff_eq_zero_or_eq_one.1 (hone p) with h | h
  · rw [h, zero_smul, hzero p h]
  · rw [h, one_smul]

omit [DecidableEq P] in
lemma ends_ne_zero_iff {file : FSlot → File} {pi : ℕ} {w : Bool} :
    ends file pi w ≠ 0 ↔ ∃ f, (file f).HasEnd pi w := by
  rw [ends, Ne, Finset.sum_eq_zero_iff, not_forall]
  refine exists_congr fun f => ?_
  simp

/-- When all tokens are those of whole processes, the references are exact. -/
lemma Core.exact (h : Core s (held s D)) : Exact s := by
  have hblank : ∀ f, (held s D).count (.blank f) = 0 := fun f =>
    count_held_of_ne (by simp) (by simp)
  have hend : ∀ pi w, (if opened s.pipe pi w then 1 else 0) ≠ 0 ↔ ∃ f, (s.file f).HasEnd pi w := by
    intro pi w
    rw [← h.pipes.ends pi w, count_held_of_ne (by simp) (by simp), add_zero, ends_ne_zero_iff]
  have hopen : ∀ pi w, opened s.pipe pi w = true ↔ ∃ f, (s.file f).HasEnd pi w := by
    intro pi w
    rw [← hend]
    cases opened s.pipe pi w <;> simp
  have hcount : ∀ p, D.count p = if s.used p then 1 else 0 := fun p => by
    rw [← countP_isTable_held, h.tables.count p]
  refine ⟨fun f => ?_, fun f => ?_, fun pi => ?_, fun pi x hx => ?_, fun pi x hx => ?_⟩
  · rw [h.files.ref f, hblank, add_zero, count_ref_held]
    refine sum_map_eq (fun p => ?_) fun p hp => ?_
    · rw [hcount]
      split_ifs <;> omega
    rw [hcount] at hp
    have hused : s.used p = false := by
      by_contra hne
      rw [if_pos (by simpa using hne)] at hp
      cases hp
    rw [h.tables.empty p hused]
    simp
  · rw [h.files.type f, h.files.ref f, hblank, add_zero]
  · constructor
    · intro hne
      obtain ⟨x, hx⟩ := Option.ne_none_iff_exists'.1 hne
      -- one of the ends is open
      obtain ⟨w, hw⟩ : ∃ w, opened s.pipe pi w = true := by
        have hlive := h.pipes.live pi
        rw [hx] at hlive
        obtain ⟨r, u⟩ := x
        cases r with
        | true => exact ⟨false, by rw [opened, hx]; rfl⟩
        | false =>
          cases u with
          | true => exact ⟨true, by rw [opened, hx]; rfl⟩
          | false => exact absurd rfl hlive
      obtain ⟨f, hf⟩ := (hopen pi w).1 hw
      exact ⟨f, hf.1, hf.2.1⟩
    · rintro ⟨f, hf, hpi⟩ hnone
      have := (hopen pi (s.file f).writable).2 ⟨f, hf, hpi, rfl⟩
      rw [opened, hnone] at this
      cases this
  · have hr : x.readopen = opened s.pipe pi false := by rw [opened, hx]; rfl
    rw [hr, hopen]
    refine exists_congr fun f => ⟨fun hf => ⟨hf.1, hf.2.1, ?_⟩, fun hf => ⟨hf.1, hf.2.1, ?_⟩⟩
    · rw [h.files.shape f hf.1, hf.2.2]
      rfl
    have := h.files.shape f hf.1
    rw [hf.2.2] at this
    simpa using this.symm
  · have hr : x.writeopen = opened s.pipe pi true := by rw [opened, hx]; rfl
    rw [hr, hopen]
    exact exists_congr fun f => Iff.rfl

omit [DecidableEq P] in
/-- The stored tokens are those of whole processes. -/
lemma stored_eq_held (s : State P) : ∃ D, stored s = held s D := by
  refine Finset.sum_induction _ (fun W => ∃ D, W = held s D) ?_ ⟨0, rfl⟩ fun p _ => ?_
  · rintro _ _ ⟨D, rfl⟩ ⟨E, rfl⟩
    exact ⟨D + E, (held_add s D E).symm⟩
  split_ifs
  · exact ⟨{p}, (held_singleton s p).symm⟩
  · exact ⟨0, rfl⟩

end Whole

/-! ### Runs -/

section Runs

variable {K : Type} [DecidableEq K] [Fintype K] [DecidableEq P] [Fintype P]

/-- The tokens can be divided among the kernel threads. -/
abbrev Divided (s : Sys K P) : Prop :=
  Owned (framed Rule) (fun s res => Inv s (∑ k, res k)) Holds s

omit [DecidableEq K] in
lemma Divided.exact {s : Sys K P} (h : Divided s) (hidle : s.Idle) : Exact s.shared := by
  obtain ⟨res, hinv, hres⟩ := h.idle hidle
  have hwhole : ∃ D, ∑ k, res k = held s.shared D := by
    refine Finset.sum_induction _ (fun W => ∃ D, W = held s.shared D) ?_ ⟨0, rfl⟩ fun k _ => ?_
    · rintro _ _ ⟨D, rfl⟩ ⟨E, rfl⟩
      exact ⟨D + E, (held_add s.shared D E).symm⟩
    obtain ⟨a, -, ha⟩ := hres k
    rcases a with _ | p
    · exact ⟨0, ha⟩
    obtain ⟨o, ho⟩ := ha
    -- the table in hand is the one in the state
    have hmem : Token.table p o ∈ ∑ k, res k + stored s.shared := by
      refine mem_add.2 (.inl (mem_sum.2 ⟨k, Finset.mem_univ k, ?_⟩))
      rw [ho, singleton_add]
      exact mem_cons_self _ _
    refine ⟨{p}, ?_⟩
    rw [ho, singleton_add, held_singleton, (Core.tables hinv).means p o hmem]
  obtain ⟨D, hD⟩ := hwhole
  obtain ⟨E, hE⟩ := stored_eq_held s.shared
  have hcore : Core s.shared (held s.shared (D + E)) := by
    rw [held_add, ← hD, ← hE]
    exact hinv
  exact hcore.exact

omit [DecidableEq K] in
/-- The first process is ready, and has no references. -/
lemma divided_boot (init : P) : Divided (boot init : Sys K P) := by
  refine ⟨fun _ => 0, ?_, fun _ => rfl⟩
  set s : State P := (boot init : Sys K P).shared with hs
  have hstored : stored s = {.table init fun _ => none} := by
    rw [stored, Finset.sum_eq_single init]
    · simp [hs, boot, refs_empty]
    · intro p _ hp
      simp [hs, boot, hp]
    · intro h
      exact absurd (Finset.mem_univ _) h
  have hcount : ∀ t : Token P, (∀ p o, t ≠ .table p o) →
      ({.table init fun _ => none} : Multiset (Token P)).count t = 0 := fun t ht => by
    rw [count_singleton, if_neg (ht _ _)]
  have hends : ∀ pi w, ends s.file pi w = 0 := fun pi w =>
    Finset.sum_eq_zero fun f _ => if_neg fun h => by cases h.1
  show Core s ((∑ _ : K, 0) + stored s)
  rw [Finset.sum_const_zero, zero_add, hstored]
  refine ⟨⟨fun f => ?_, fun f => ?_, fun f hf => ?_, fun f hf => by cases hf⟩,
    ⟨fun pi w => ?_, fun pi hpi => by cases hpi⟩, ⟨fun p o ho => ?_, fun p => ?_, fun p _ => rfl⟩⟩
  · rw [hcount _ (by simp), hcount _ (by simp)]
    rfl
  · rw [hcount _ (by simp)]
    exact iff_of_true rfl rfl
  · simp at hf
  · rw [hends, hcount _ (by simp)]
    rfl
  · obtain ⟨rfl, rfl⟩ := Token.table.inj (mem_singleton.1 ho)
    rfl
  · rw [← cons_zero, countP_cons, countP_zero, zero_add]
    simp only [hs, boot, Token.isTable, decide_eq_true_eq]
    exact if_congr eq_comm rfl rfl

/-- In every run, when no system call is in progress, the reference counts are exact. -/
theorem exact_of_run (init : P) {tr : List (Sys K P × Act K (Call P))} {s : Sys K P}
    (h : Run step (boot init) tr s) :
    (∀ x ∈ tr, x.1.Idle → Exact x.1.shared) ∧ (s.Idle → Exact s.shared) := by
  have hdiv := h.invariant' (fun s a t hs hstep => ?_) (divided_boot init)
  · exact ⟨fun x hx => (hdiv.1 x hx).exact, hdiv.2.exact⟩
  refine Owned.of_poolStep ?_ (fun c a m r hm hr => (spec_body hm hr).own) hs meets_true hstep
  exact sound_framed (M := fun _ _ => True) fun hrule hinv _ hx => hrule.sound hinv hx

end Runs

/-- A process opens a pipe and forks; the child exits, and the parent closes the read end. -/
def pipeScript {P : Type} (p q : P) : List (Act P (Call P)) :=
  script p [(.start p, 1), (.pipe (some 7) true, 10), (.fork (some q) true, 22)] ++
    script q [(.start q, 1), (.exit, 21)] ++ script p [(.close 0, 4)]

/-- The theorem at a run with two processes and a pipe. -/
theorem exact_of_run_pipe : ∃ tr, ∃ s : Sys (Fin 2) (Fin 2), Run step (boot 0) tr s ∧ s.Idle ∧
    s.shared.pipe 7 = some ⟨false, true⟩ ∧ Exact s.shared := by
  obtain ⟨s, hs, htest⟩ := exists_of_okAnd (runList step (boot 0) (pipeScript (0 : Fin 2) 1))
      (fun s => decide (s.shared.pipe 7 = some ⟨false, true⟩ ∧ (s.next 0).isNone = true ∧
        (s.next 1).isNone = true)) (by decide +kernel)
  obtain ⟨hpipe, h0, h1⟩ := of_decide_eq_true htest
  have hidle : s.Idle := by
    intro k
    fin_cases k
    · exact Option.isNone_iff_eq_none.1 h0
    · exact Option.isNone_iff_eq_none.1 h1
  exact ⟨_, s, .of_runList hs, hidle, hpipe, (exact_of_run 0 (.of_runList hs)).2 hidle⟩

end Hexv6.Fd
