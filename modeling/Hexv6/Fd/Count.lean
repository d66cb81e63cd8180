import Hexv6.Fd.Table
import Hexv6.Lib.Count

/-!
# References as tokens

What a process has in hand: its table of descriptors, a reference to an entry of the file table
for every descriptor and for every pointer it is about to store or to give up, and the ends of
pipes that no entry refers to yet or any more.  The invariant counts these tokens: the count of
an entry is the number of references to it, and an end of a pipe is open exactly if one entry,
or one process, has it.

A process that has been forked and has not run yet has its tokens in the shared state.
-/

namespace Hexv6.Fd

open Lib Multiset Function

variable {P : Type}

inductive Token (P : Type)
  /-- the table of a process -/
  | table (p : P) (o : Ofile)
  /-- a reference to an entry -/
  | ref (f : FSlot)
  /-- the only reference to an entry that has no type yet -/
  | blank (f : FSlot)
  /-- an end of a pipe -/
  | stop (pi : ℕ) (writable : Bool)
deriving DecidableEq

/-- The token is the table of `p`. -/
def Token.isTable [DecidableEq P] (p : P) : Token P → Bool
  | .table q _ => q = p
  | _ => false

/-- The references of a table. -/
def refs (P : Type) (o : Ofile) : Multiset (Token P) :=
  ∑ fd, ((o fd).elim 0 fun f => {.ref f} : Multiset (Token P))

/-- The entry has an end of a pipe. -/
def File.HasEnd (x : File) (pi : ℕ) (writable : Bool) : Prop :=
  x.type = .pipe ∧ x.pipe = pi ∧ x.writable = writable

instance (x : File) (pi : ℕ) (writable : Bool) : Decidable (x.HasEnd pi writable) :=
  inferInstanceAs (Decidable (_ ∧ _ ∧ _))

/-- The number of entries with an end of a pipe. -/
def ends (file : FSlot → File) (pi : ℕ) (writable : Bool) : ℕ :=
  ∑ f, if (file f).HasEnd pi writable then 1 else 0

/-- The end of the pipe is open. -/
def opened (pipe : ℕ → Option Pipe) (pi : ℕ) (writable : Bool) : Bool :=
  (pipe pi).elim false (·.isOpen writable)

section Counted

variable [DecidableEq P]

/-- The references to the entries of the file table are the tokens `W`. -/
structure FileInv (file : FSlot → File) (W : Multiset (Token P)) : Prop where
  ref : ∀ f, (file f).ref = W.count (.ref f) + W.count (.blank f)
  type : ∀ f, (file f).type = .none ↔ W.count (.ref f) = 0
  blank : ∀ f, .blank f ∈ W → W.count (.blank f) = 1 ∧ W.count (.ref f) = 0
  shape : ∀ f, (file f).type = .pipe → (file f).readable = !(file f).writable

/-- The ends of the pipes are those of the entries and of the tokens `W`. -/
structure PipeInv (file : FSlot → File) (pipe : ℕ → Option Pipe) (W : Multiset (Token P)) :
    Prop where
  ends : ∀ pi w, ends file pi w + W.count (.stop pi w) = if opened pipe pi w then 1 else 0
  live : ∀ pi, pipe pi ≠ some ⟨false, false⟩

/-- The tables of the processes are the tokens `W`. -/
structure TableInv (s : State P) (W : Multiset (Token P)) : Prop where
  means : ∀ p o, .table p o ∈ W → s.ofile p = o
  count : ∀ p, W.countP (·.isTable p) = if s.used p then 1 else 0
  empty : ∀ p, s.used p = false → s.ofile p = fun _ => none

/-- All tokens. -/
structure Core (s : State P) (W : Multiset (Token P)) : Prop where
  files : FileInv s.file W
  pipes : PipeInv s.file s.pipe W
  tables : TableInv s W

/-- The tokens of the processes that have not run yet. -/
def stored [Fintype P] (s : State P) : Multiset (Token P) :=
  ∑ p, if s.ready p then .table p (s.ofile p) ::ₘ refs P (s.ofile p) else 0

/-- The invariant for the tokens `W` of the processes that run. -/
def Inv [Fintype P] (s : State P) (W : Multiset (Token P)) : Prop := Core s (W + stored s)

variable {s : State P} {W F : Multiset (Token P)} {f g : FSlot} {file : FSlot → File}
  {pipe : ℕ → Option Pipe} {p q : P} {o : Ofile} {pi : ℕ} {w : Bool} {x : File}

/-! ### Tables and references -/

omit [DecidableEq P] in
lemma mem_refs {t : Token P} (h : t ∈ refs P o) : ∃ fd f, o fd = some f ∧ t = .ref f := by
  obtain ⟨fd, -, ht⟩ := mem_sum.1 h
  cases hfd : o fd with rw [hfd] at ht
  | none =>
    exact absurd ht (notMem_zero _)
  | some f =>
    exact ⟨fd, f, hfd, mem_singleton.1 ht⟩

/-- The number of references of a table to an entry. -/
lemma count_refs (o : Ofile) (f : FSlot) :
    (refs P o).count (.ref f) = (Finset.univ.filter fun fd => o fd = some f).card := by
  rw [refs, count_sum', Finset.card_filter]
  refine Finset.sum_congr rfl fun fd _ => ?_
  cases hfd : o fd with
  | none => simp
  | some g =>
    simp only [Option.elim_some, Option.some.injEq]
    by_cases hg : g = f
    · rw [hg, if_pos rfl, count_singleton_self]
    · rw [if_neg hg, count_singleton, if_neg]
      exact fun h => hg (Token.ref.inj h).symm

lemma count_refs_of_ne {t : Token P} (h : ∀ f, t ≠ .ref f) : (refs P o).count t = 0 := by
  refine count_eq_zero.2 fun ht => ?_
  obtain ⟨_, f, _, rfl⟩ := mem_refs ht
  exact h f rfl

lemma countP_isTable_refs (p : P) : (refs P o).countP (·.isTable p) = 0 := by
  refine countP_eq_zero.2 fun t ht => ?_
  obtain ⟨_, f, _, rfl⟩ := mem_refs ht
  exact Bool.false_ne_true

omit [DecidableEq P] in
/-- A descriptor is given to an entry. -/
lemma refs_set {fd : Desc} (h : o fd = none) (f : FSlot) :
    refs P (update o fd (some f)) = .ref f ::ₘ refs P o := by
  refine sum_cons_of_eq_off (Finset.mem_univ fd) (fun j hj => ?_) ?_
  · rw [update_of_ne hj]
  · rw [update_self, h]
    rfl

omit [DecidableEq P] in
/-- A descriptor is cleared. -/
lemma refs_clear {fd : Desc} (h : o fd = some f) :
    refs P o = .ref f ::ₘ refs P (update o fd none) := by
  have hset : refs P (update (update o fd none) fd (some f)) = _ :=
    refs_set (update_self ..) f
  rwa [update_idem, ← h, update_eq_self] at hset

omit [DecidableEq P] in
lemma refs_empty : refs P (fun _ => none) = 0 := Finset.sum_eq_zero fun _ _ => rfl

/-! ### The file table -/

namespace FileInv

variable {W' : Multiset (Token P)}

/-- One entry changes, with the tokens for it. -/
lemma update (h : FileInv file W) (hother : ∀ g, g ≠ f → W'.count (.ref g) = W.count (.ref g) ∧
      W'.count (.blank g) = W.count (.blank g))
    (href : x.ref = W'.count (.ref f) + W'.count (.blank f))
    (htype : x.type = .none ↔ W'.count (.ref f) = 0)
    (hblank : W'.count (.blank f) ≠ 0 → W'.count (.blank f) = 1 ∧ W'.count (.ref f) = 0)
    (hshape : x.type = .pipe → x.readable = !x.writable) :
    FileInv (Function.update file f x) W' := by
  have hself : Function.update file f x f = x := update_self ..
  have hne : ∀ g, g ≠ f → Function.update file f x g = file g := fun g hg => update_of_ne hg ..
  refine ⟨fun g => ?_, fun g => ?_, fun g hg => ?_, fun g => ?_⟩
  · rcases eq_or_ne g f with rfl | hgf
    · rw [hself, href]
    · rw [hne g hgf, (hother g hgf).1, (hother g hgf).2, h.ref g]
  · rcases eq_or_ne g f with rfl | hgf
    · rw [hself, htype]
    · rw [hne g hgf, (hother g hgf).1, h.type g]
  · rcases eq_or_ne g f with rfl | hgf
    · exact hblank (count_ne_zero.2 hg)
    rw [(hother g hgf).1, (hother g hgf).2]
    refine h.blank g (count_ne_zero.1 ?_)
    rw [← (hother g hgf).2]
    exact count_ne_zero.2 hg
  · rcases eq_or_ne g f with rfl | hgf
    · rwa [hself]
    · rw [hne g hgf]
      exact h.shape g

/-- Only the references count. -/
lemma congr (h : FileInv file W) (hsame : ∀ g, W'.count (.ref g) = W.count (.ref g) ∧
    W'.count (.blank g) = W.count (.blank g)) : FileInv file W' := by
  refine ⟨fun g => ?_, fun g => ?_, fun g hg => ?_, h.shape⟩
  · rw [(hsame g).1, (hsame g).2, h.ref g]
  · rw [(hsame g).1, h.type g]
  rw [(hsame g).1, (hsame g).2]
  refine h.blank g (count_ne_zero.1 ?_)
  rw [← (hsame g).2]
  exact count_ne_zero.2 hg

/-- What is known of an entry with a reference. -/
lemma of_ref (h : FileInv file (.ref f ::ₘ F)) :
    F.count (.blank f) = 0 ∧ (file f).ref = F.count (.ref f) + 1 ∧ (file f).type ≠ .none := by
  have hcount : (Token.ref f ::ₘ F).count (.ref f) = F.count (.ref f) + 1 := count_cons_self ..
  have hblank : (Token.ref f ::ₘ F).count (.blank f) = F.count (.blank f) :=
    count_cons_of_ne (by simp) _
  have hnone : F.count (.blank f) = 0 := by
    by_contra hne
    have := (h.blank f (count_ne_zero.1 (hblank.symm ▸ hne))).2
    omega
  refine ⟨hnone, ?_, fun ht => ?_⟩
  · rw [h.ref f, hcount, hblank, hnone]
  · have := (h.type f).1 ht
    omega

/-- What is known of an entry without a type. -/
lemma of_blank (h : FileInv file (.blank f ::ₘ F)) :
    F.count (.blank f) = 0 ∧ F.count (.ref f) = 0 ∧ (file f).ref = 1 ∧ (file f).type = .none := by
  have hcount : (Token.blank f ::ₘ F).count (.blank f) = F.count (.blank f) + 1 :=
    count_cons_self ..
  have href : (Token.blank f ::ₘ F).count (.ref f) = F.count (.ref f) :=
    count_cons_of_ne (by simp) _
  obtain ⟨h1, h2⟩ := h.blank f (mem_cons_self _ _)
  have hr := h.ref f
  refine ⟨by omega, by omega, by omega, (h.type f).2 h2⟩

lemma filealloc (h : FileInv file F) (hf : (file f).ref = 0) :
    FileInv (Function.update file f { file f with ref := 1 }) (.blank f ::ₘ F) := by
  have hr := h.ref f
  have hzero : F.count (.ref f) = 0 ∧ F.count (.blank f) = 0 := by omega
  have hself : (Token.blank f ::ₘ F).count (.blank f) = 1 := by rw [count_cons_self, hzero.2]
  have href : (Token.blank f ::ₘ F).count (.ref f) = 0 := by
    rw [count_cons_of_ne (by simp), hzero.1]
  refine h.update (fun g hg => ⟨count_cons_of_ne (by simp) _, count_cons_of_ne ?_ _⟩) ?_ ?_
    (fun _ => ⟨hself, href⟩) (h.shape f)
  · exact fun heq => hg (Token.blank.inj heq)
  · rw [hself, href]
  · rw [href]
    exact iff_of_true ((h.type f).2 hzero.1) rfl

lemma filedup (h : FileInv file (.ref f ::ₘ F)) :
    FileInv (Function.update file f { file f with ref := (file f).ref + 1 })
      (.ref f ::ₘ .ref f ::ₘ F) := by
  obtain ⟨hblank, href, htype⟩ := h.of_ref
  have hself : (Token.ref f ::ₘ .ref f ::ₘ F).count (.ref f) = F.count (.ref f) + 2 := by
    rw [count_cons_self, count_cons_self]
  have hb : (Token.ref f ::ₘ .ref f ::ₘ F).count (.blank f) = 0 := by
    rw [count_cons_of_ne (by simp), count_cons_of_ne (by simp), hblank]
  refine h.update (fun g hg => ⟨?_, count_cons_of_ne (by simp) _⟩) ?_ ?_ (fun hne => absurd hb hne)
    (h.shape f)
  · exact count_cons_of_ne (fun heq => hg (Token.ref.inj heq)) _
  · rw [hself, hb]
    exact congrArg (· + 1) href
  · rw [hself]
    exact iff_of_false htype (by omega)

/-- A reference is given up, and others are left. -/
lemma drop (h : FileInv file (.ref f ::ₘ F)) (hlast : 0 < (file f).ref - 1) :
    FileInv (Function.update file f { file f with ref := (file f).ref - 1 }) F := by
  obtain ⟨hblank, href, htype⟩ := h.of_ref
  refine h.update (fun g hg => ⟨?_, ?_⟩) ?_ ?_ (fun hne => absurd hblank hne) (h.shape f)
  · rw [count_cons_of_ne fun heq => hg (Token.ref.inj heq)]
  · rw [count_cons_of_ne (by simp)]
  · show (file f).ref - 1 = _
    omega
  · exact iff_of_false htype (by omega)

/-- The last reference is given up. -/
lemma close {t : Token P} (h : FileInv file (t ::ₘ F)) (ht : t = .ref f ∨ t = .blank f)
    (hlast : (file f).ref - 1 = 0) :
    FileInv (Function.update file f { file f with ref := 0, type := .none }) F := by
  have hzero : F.count (.ref f) = 0 ∧ F.count (.blank f) = 0 := by
    rcases ht with rfl | rfl
    · obtain ⟨hblank, href, -⟩ := h.of_ref
      exact ⟨by omega, hblank⟩
    · obtain ⟨hblank, href, -⟩ := h.of_blank
      exact ⟨href, hblank⟩
  refine h.update (fun g hg => ?_) ?_ (iff_of_true rfl hzero.1) (fun hne => absurd hzero.2 hne)
    fun hpipe => by cases hpipe
  · rcases ht with rfl | rfl
    · rw [count_cons_of_ne fun heq => hg (Token.ref.inj heq), count_cons_of_ne (by simp)]
      exact ⟨rfl, rfl⟩
    · rw [count_cons_of_ne (by simp), count_cons_of_ne fun heq => hg (Token.blank.inj heq)]
      exact ⟨rfl, rfl⟩
  · rw [hzero.1, hzero.2]

/-- A new entry gets its type. -/
lemma setType (h : FileInv file (.blank f ::ₘ F)) (href : x.ref = (file f).ref)
    (htype : x.type ≠ .none) (hshape : x.type = .pipe → x.readable = !x.writable) :
    FileInv (Function.update file f x) (.ref f ::ₘ F) := by
  obtain ⟨hb, hr, hone, -⟩ := h.of_blank
  have hself : (Token.ref f ::ₘ F).count (.ref f) = 1 := by rw [count_cons_self, hr]
  have hblank : (Token.ref f ::ₘ F).count (.blank f) = 0 := by rw [count_cons_of_ne (by simp), hb]
  refine h.update (fun g hg => ?_) ?_ ?_ (fun hne => absurd hblank hne) hshape
  · rw [count_cons_of_ne fun heq => hg (Token.ref.inj heq), count_cons_of_ne (by simp),
      count_cons_of_ne (by simp), count_cons_of_ne fun heq => hg (Token.blank.inj heq)]
    exact ⟨rfl, rfl⟩
  · rw [hself, hblank, href, hone]
  · rw [hself]
    exact iff_of_false htype (by omega)

end FileInv

/-! ### Pipes -/

/-- One entry changes. -/
lemma ends_update (file : FSlot → File) (f : FSlot) (x : File) (pi : ℕ) (w : Bool) :
    ends (update file f x) pi w + (if (file f).HasEnd pi w then 1 else 0) =
      ends file pi w + if x.HasEnd pi w then 1 else 0 := by
  have hsum : ends (update file f x) pi w + (if (file f).HasEnd pi w then 1 else 0) =
      ends file pi w + if (update file f x f).HasEnd pi w then 1 else 0 :=
    sum_add_of_eq_off (f := fun g => if (file g).HasEnd pi w then 1 else 0) (Finset.mem_univ f)
      fun g hg => by rw [update_of_ne hg]
  rwa [update_self] at hsum

namespace PipeInv

variable {W' : Multiset (Token P)}

/-- An entry changes that has the same ends before and after. -/
lemma update (h : PipeInv file pipe W) (hsame : ∀ pi w, x.HasEnd pi w ↔ (file f).HasEnd pi w)
    (hcount : ∀ pi w, W'.count (.stop pi w) = W.count (.stop pi w)) :
    PipeInv (update file f x) pipe W' := by
  refine ⟨fun pi w => ?_, h.live⟩
  have hends := ends_update file f x pi w
  rw [if_congr (hsame pi w) rfl rfl] at hends
  rw [hcount, ← h.ends pi w]
  omega

lemma congr (h : PipeInv file pipe W)
    (hcount : ∀ pi w, W'.count (.stop pi w) = W.count (.stop pi w)) : PipeInv file pipe W' :=
  ⟨fun pi w => by rw [hcount, h.ends pi w], h.live⟩

/-- An entry gives its end up. -/
lemma close (h : PipeInv file pipe W) (hpipe : (file f).type = .pipe) (hx : x.type ≠ .pipe)
    (hcount : ∀ pi w, W'.count (.stop pi w) = W.count (.stop pi w) +
      if pi = (file f).pipe ∧ w = (file f).writable then 1 else 0) :
    PipeInv (Function.update file f x) pipe W' := by
  refine ⟨fun pi w => ?_, h.live⟩
  have hends := ends_update file f x pi w
  have hold : (file f).HasEnd pi w ↔ pi = (file f).pipe ∧ w = (file f).writable :=
    ⟨fun h => ⟨h.2.1.symm, h.2.2.symm⟩, fun h => ⟨hpipe, h.1.symm, h.2.symm⟩⟩
  rw [if_neg (c := x.HasEnd pi w) fun h => hx h.1, if_congr hold rfl rfl] at hends
  rw [hcount, ← h.ends pi w]
  omega

/-- A new entry gets an end. -/
lemma setPipe (h : PipeInv file pipe (.stop pi w ::ₘ F)) (hnone : (file f).type = .none)
    (hx : x.HasEnd pi w) (hcount : ∀ pi w, W'.count (.stop pi w) = F.count (.stop pi w)) :
    PipeInv (Function.update file f x) pipe W' := by
  refine ⟨fun qi v => ?_, h.live⟩
  have hends := ends_update file f x qi v
  have hold : ¬ (file f).HasEnd qi v := by
    rintro ⟨htype, -⟩
    rw [hnone] at htype
    cases htype
  have hnew : x.HasEnd qi v ↔ Token.stop (P := P) qi v = .stop pi w := by
    rw [Token.stop.injEq]
    exact ⟨fun h => ⟨h.2.1.symm.trans hx.2.1, h.2.2.symm.trans hx.2.2⟩, fun h => h.1 ▸ h.2 ▸ hx⟩
  have hsum := h.ends qi v
  rw [count_cons] at hsum
  rw [if_neg hold, if_congr hnew rfl rfl] at hends
  rw [hcount, ← hsum]
  omega

end PipeInv

variable {y : Option Pipe}

lemma opened_update_of_ne {pi qi : ℕ} (h : qi ≠ pi) (w : Bool) :
    opened (update pipe pi y) qi w = opened pipe qi w := by
  rw [opened, update_of_ne h, opened]

lemma opened_update_self {pi : ℕ} (w : Bool) :
    opened (update pipe pi y) pi w = y.elim false (·.isOpen w) := by
  rw [opened, update_self]

/-- A new pipe has both ends open. -/
lemma PipeInv.kalloc (h : PipeInv file pipe F) (hfree : pipe pi = none) :
    PipeInv file (Function.update pipe pi (some ⟨true, true⟩))
      (.stop pi false ::ₘ .stop pi true ::ₘ F) := by
  refine ⟨fun qi v => ?_, fun qi => ?_⟩
  · have hsum := h.ends qi v
    rw [count_cons, count_cons]
    rcases eq_or_ne qi pi with rfl | hne
    · rw [opened, hfree] at hsum
      rw [opened_update_self]
      cases v <;> simp_all [Pipe.isOpen]
    · rw [opened_update_of_ne hne, ← hsum, if_neg (fun heq => hne (Token.stop.inj heq).1),
        if_neg (fun heq => hne (Token.stop.inj heq).1), add_zero, add_zero]
  rcases eq_or_ne qi pi with rfl | hne
  · rw [update_self]
    simp
  · rw [update_of_ne hne]
    exact h.live qi

lemma Pipe.isOpen_close_self (y : Pipe) (w : Bool) :
    (y.close w).elim false (·.isOpen w) = false := by
  obtain ⟨r, u⟩ := y
  revert r u w
  decide

lemma Pipe.isOpen_close_of_ne (y : Pipe) {v w : Bool} (h : v ≠ w) :
    (y.close w).elim false (·.isOpen v) = y.isOpen v := by
  obtain ⟨r, u⟩ := y
  revert r u v w
  decide

lemma Pipe.close_ne (y : Pipe) (w : Bool) : y.close w ≠ some ⟨false, false⟩ := by
  obtain ⟨r, u⟩ := y
  revert r u w
  decide

/-- An end of a pipe is closed. -/
lemma PipeInv.pipeclose (h : PipeInv file pipe (.stop pi w ::ₘ F)) :
    PipeInv file (Function.update pipe pi ((pipe pi).bind (·.close w))) F := by
  have hopen : opened pipe pi w = true := by
    have hsum := h.ends pi w
    rw [count_cons_self] at hsum
    by_contra hclosed
    rw [if_neg hclosed] at hsum
    omega
  obtain ⟨y, hy, hyw⟩ : ∃ y, pipe pi = some y ∧ y.isOpen w = true := by
    rw [opened] at hopen
    cases hp : pipe pi with
    | none =>
      rw [hp] at hopen
      cases hopen
    | some y => exact ⟨y, rfl, by rwa [hp] at hopen⟩
  refine ⟨fun qi v => ?_, fun qi => ?_⟩
  · have hsum := h.ends qi v
    rw [count_cons] at hsum
    rcases eq_or_ne qi pi with rfl | hne
    · rw [opened_update_self, hy, Option.bind_some]
      rw [opened, hy, Option.elim_some] at hsum
      rcases eq_or_ne v w with rfl | hvw
      · rw [if_pos rfl, hyw, if_pos rfl] at hsum
        rw [y.isOpen_close_self, if_neg Bool.false_ne_true]
        omega
      · rw [if_neg fun heq => hvw (Token.stop.inj heq).2, add_zero] at hsum
        rw [y.isOpen_close_of_ne hvw, hsum]
    · rw [opened_update_of_ne hne, ← hsum, if_neg (fun heq => hne (Token.stop.inj heq).1), add_zero]
  · rcases eq_or_ne qi pi with rfl | hne
    · rw [update_self, hy, Option.bind_some]
      exact y.close_ne w
    · rw [update_of_ne hne]
      exact h.live qi

end Counted

end Hexv6.Fd
