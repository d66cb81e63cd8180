import Hexv6.Virtio.Chains

/-!
# The protocol between the virtio driver and its device

Every step of the driver and of the device keeps the invariant, and none of the driver's
panics is reached (`Inv.step`).  The result for whole runs is `protocol_of_run`.
-/

namespace Hexv6.Virtio

open Lib List Function

variable {P B : Type} {s : State P B} {p q : P} {b : B} {idx : Idx} {n m h : ℕ}
  {free : ℕ → Bool} {l : Option (Agent P)} {x : Phase B} {s' : State P B} {i : ℕ}
  {phase : P → Phase B}

/-! ### Steps that change no descriptor -/

/-- A wakeup or a kill changes nothing that the invariant looks at. -/
structure Phase.Like (x y : Phase B) : Prop where
  buf : x.buf = y.buf
  chain : x.chain = y.chain
  written : x.written = y.written
  req : x.req = y.req
  holds : x.holds = y.holds
  entered : x.entered = y.entered
  done : x.done = y.done

lemma Phase.wakeup_like [DecidableEq B] (x : Phase B) (chan : Chan B) :
    (x.wakeup chan).Like x := by
  cases x with
  | noDesc b w => cases chan <;> constructor <;> rfl
  | asleep b idx n =>
    cases chan with
    | free => constructor <;> rfl
    | buf b' =>
      rw [Phase.wakeup]
      split_ifs <;> constructor <;> rfl
  | _ => constructor <;> rfl

lemma Phase.kill_like (x : Phase B) : x.kill.Like x := by cases x <;> constructor <;> rfl

lemma Phase.Like.trans {x y z : Phase B} (h : x.Like y) (h' : y.Like z) : x.Like z where
  buf := h.buf.trans h'.buf
  chain := h.chain.trans h'.chain
  written := h.written.trans h'.written
  req := h.req.trans h'.req
  holds := h.holds.trans h'.holds
  entered := h.entered.trans h'.entered
  done := h.done.trans h'.done

lemma Phase.Like.refl (x : Phase B) : x.Like x := by constructor <;> rfl

lemma Chains.like {f g : P → Phase B} (hc : Chains free g)
    (hf : ∀ p, (f p).chain = (g p).chain) : Chains free f where
  free d hd := (hc.free d hd).trans (forall_congr' fun p => by rw [hf p])
  nodup p := hf p ▸ hc.nodup p
  lt p := hf p ▸ hc.lt p
  disjoint p q d hp hq := hc.disjoint p q d (hf p ▸ hp) (hf q ▸ hq)

lemma Linked.same (hl : Linked s b idx) (hdesc : s'.desc = s.desc) (hinfo : s'.info = s.info) :
    Linked s' b idx :=
  ⟨hdesc ▸ hl.head, hdesc ▸ hl.data, hdesc ▸ hl.status, hinfo ▸ hl.info⟩

lemma Inv.like {f : P → Phase B} (hi : Inv s) (hf : ∀ p, (f p).Like (s.phase p)) :
    Inv { s with phase := f } :=
  { hi with
    toChains := hi.toChains.like fun p => (hf p).chain
    lock := fun p hp => hi.lock p ((hf p).holds ▸ hp)
    buf := fun p b hb => hi.buf p b ((hf p).buf ▸ hb)
    linked := fun p b idx hw => (hi.linked p b idx ((hf p).written ▸ hw)).same rfl rfl
    fresh := fun p b idx hw hr => hi.fresh p b idx ((hf p).written ▸ hw) ((hf p).req ▸ hr)
    disk := fun p b idx n hr => hi.disk p b idx n ((hf p).req ▸ hr)
    done := fun p n hn => hi.done p n ((hf p).done ▸ hn)
    req := fun p b idx n hr => hi.req p b idx n ((hf p).req ▸ hr)
    live := fun n hn hh => by
      obtain ⟨p, b, idx, hr⟩ := hi.live n hn hh
      exact ⟨p, b, idx, (hf p).req.trans hr⟩
    entered := fun p h hp => hi.entered p h ((hf p).entered ▸ hp) }

/-- The lock passes from nobody to `p`, or from `p` to nobody, or stays. -/
def Passes (s : State P B) (p : P) (l : Option (Agent P)) : Prop :=
  l = s.lock ∨ s.lock = none ∨ s.lock = some (.proc p)

lemma Inv.of_passes (hi : Inv s) (hl : Passes s p l) :
    (∀ q, q ≠ p → (s.phase q).holds = true → l = some (.proc q)) ∧
      (s.intr ≠ .out → l = some .intr) := by
  constructor
  · intro q hne hq
    have hlock := hi.lock q hq
    rcases hl with rfl | hl | hl
    · exact hlock
    · rw [hl] at hlock
      cases hlock
    rw [hl] at hlock
    cases hlock
    exact absurd rfl hne
  · intro hintr
    have hlock := hi.intr hintr
    rcases hl with rfl | hl | hl
    · exact hlock
    · rw [hl] at hlock
      cases hlock
    · rw [hl] at hlock
      cases hlock

/-- A process goes on: to what it has then, and to the lock. -/
lemma Inv.goto [DecidableEq P] {F : ℕ → Bool} (hi : Inv s)
    (hl : Passes s p l) (hholds : x.holds = true → l = some (.proc p))
    (hbuf : ∀ b, x.buf = some b → s.owner b = some p)
    (hchains : Chains F (update s.phase p x))
    (hwritten : ∀ b idx, x.written = some (b, idx) →
      Linked s b idx ∧ (x.req = none → s.disk b = true))
    (hreq : x.req = (s.phase p).req ∨
      x.req = none ∧ ∀ b idx n, (s.phase p).req = some (b, idx, n) → Handled s n)
    (hentered : ∀ h, x.entered = some h → s.avail.ring (s.reqs.length % NUM) = h)
    (hdone : ∀ n, x.done = some n → Handled s n) :
    Inv { s.goto p x with lock := l, free := F } := by
  have hself : (s.goto p x).phase p = x := update_self ..
  have hother : ∀ q, q ≠ p → (s.goto p x).phase q = s.phase q := fun q hne => update_of_ne hne ..
  obtain ⟨hlock, hintr⟩ := hi.of_passes hl
  -- the requests are those of before, and a process may only drop one that is handled
  have hreq' : ∀ q b idx n, ((s.goto p x).phase q).req = some (b, idx, n) →
      (s.phase q).req = some (b, idx, n) := by
    intro q b idx n hr
    rcases eq_or_ne q p with rfl | hne
    · rw [hself] at hr
      rcases hreq with hreq | ⟨hreq, -⟩
      · exact hreq.symm.trans hr
      · rw [hreq] at hr
        cases hr
    · exact hother q hne ▸ hr
  refine { hi with
    toChains := hchains, lock := fun q hq => ?_, intr := hintr, buf := fun q b hb => ?_,
    linked := fun q b idx hw => ?_, fresh := fun q b idx hw hr => ?_,
    disk := fun q b idx n hr => ?_, done := fun q n hn => ?_, req := fun q b idx n hr => ?_,
    live := fun n hn hh => ?_, entered := fun q h hq => ?_ }
  · rcases eq_or_ne q p with rfl | hne
    · exact hholds (hself ▸ hq)
    · exact hlock q hne (hother q hne ▸ hq)
  · rcases eq_or_ne q p with rfl | hne
    · exact hbuf b (hself ▸ hb)
    · exact hi.buf q b (hother q hne ▸ hb)
  · rcases eq_or_ne q p with rfl | hne
    · exact (hwritten b idx (hself ▸ hw)).1.same rfl rfl
    · exact (hi.linked q b idx (hother q hne ▸ hw)).same rfl rfl
  · rcases eq_or_ne q p with rfl | hne
    · exact (hwritten b idx (hself ▸ hw)).2 (hself ▸ hr)
    · exact hi.fresh q b idx (hother q hne ▸ hw) (hother q hne ▸ hr)
  · exact hi.disk q b idx n (hreq' q b idx n hr)
  · rcases eq_or_ne q p with rfl | hne
    · exact hdone n (hself ▸ hn)
    · exact hi.done q n (hother q hne ▸ hn)
  · exact hi.req q b idx n (hreq' q b idx n hr)
  · obtain ⟨q, b, idx, hr⟩ := hi.live n hn hh
    refine ⟨q, b, idx, ?_⟩
    rcases eq_or_ne q p with rfl | hne
    · rcases hreq with hreq | ⟨-, hdrop⟩
      · exact (congrArg Phase.req hself).trans (hreq.trans hr)
      · exact absurd (hdrop b idx n hr) hh
    · exact (congrArg Phase.req (hother q hne)).trans hr
  · rcases eq_or_ne q p with rfl | hne
    · exact hentered h (hself ▸ hq)
    · exact hi.entered q h (hother q hne ▸ hq)

/-- A process goes on with the same chain and request. -/
lemma Inv.move [DecidableEq P] (hi : Inv s) (hl : Passes s p l)
    (hholds : x.holds = true → l = some (.proc p))
    (hbuf : ∀ b, x.buf = some b → s.owner b = some p)
    (hchain : x.chain = (s.phase p).chain) (hwritten : x.written = (s.phase p).written)
    (hreq : x.req = (s.phase p).req)
    (hentered : ∀ h, x.entered = some h → s.avail.ring (s.reqs.length % NUM) = h)
    (hdone : ∀ n, x.done = some n → Handled s n) : Inv { s.goto p x with lock := l } := by
  have hchains : Chains s.free (update s.phase p x) := by
    refine hi.toChains.like fun q => ?_
    rcases eq_or_ne q p with rfl | hne
    · rw [update_self, hchain]
    · rw [update_of_ne hne]
  refine hi.goto hl hholds hbuf hchains (fun b idx hw => ?_) (.inl hreq) hentered hdone
  have hw' := hwritten.symm.trans hw
  exact ⟨hi.linked p b idx hw', fun hr => hi.fresh p b idx hw' (hreq.symm.trans hr)⟩

/-! ### Descriptor memory -/

lemma Linked.of_eq (hl : Linked s b idx) (hdesc : ∀ d ∈ idx.all,
    s'.desc d = s.desc d) (hinfo : (s'.info idx.head).b = (s.info idx.head).b) :
    Linked s' b idx := by
  obtain ⟨h1, h2, h3, h4⟩ := hl
  refine ⟨?_, ?_, ?_, hinfo.trans h4⟩
  · rw [hdesc idx.head (by simp [Idx.all])]
    exact h1
  · rw [hdesc idx.data (by simp [Idx.all])]
    exact h2
  · rw [hdesc idx.status (by simp [Idx.all])]
    exact h3

/-- Memory outside the chains that are written may change. -/
lemma Inv.memory {D : ℕ → Desc B} {I : ℕ → Info B} {O : ℕ → BlkReq} (hi : Inv s)
    (hD : ∀ q b idx, (s.phase q).written = some (b, idx) → ∀ d ∈ idx.all,
      D d = s.desc d ∧ I d = s.info d) :
    Inv { s with desc := D, info := I, ops := O } := by
  refine { hi with linked := fun q b idx hw => ?_, status := fun m x hm hx => ?_ }
  · refine (hi.linked q b idx hw).of_eq (fun d hd => (hD q b idx hw d hd).1) ?_
    exact congrArg Info.b (hD q b idx hw _ idx.head_mem).2
  -- the head of a report that is not handled belongs to a chain
  have hmem := hi.reports x (mem_of_getElem? hx)
  obtain ⟨q, b, idx, hr, hhead, -⟩ := hi.exists_owner hmem.2 (hi.not_handled_of_report hm hx)
  have hI := (hD q b idx (Phase.written_of_req hr) _ idx.head_mem).2
  rw [hhead] at hI
  exact (congrArg Info.status hI).trans (hi.status m x hm hx)

/-! ### Taking and giving back descriptors -/

lemma allocDesc_eq (hs : s.allocDesc = some (i, s')) :
    i < NUM ∧ s.free i = true ∧ s' = { s with free := update s.free i false } := by
  rw [State.allocDesc] at hs
  split at hs
  case h_1 j hj =>
    cases hs
    exact ⟨mem_range.mp (mem_of_find?_eq_some hj), find?_some hj, rfl⟩
  case h_2 => cases hs

/-- The state after `free_desc(i)`. -/
def State.freed [DecidableEq B] (s : State P B) (i : ℕ) : State P B :=
  State.wakeup { s with
    desc := update s.desc i ⟨.null, 0, 0, 0⟩
    free := update s.free i true } .free

lemma State.freed_desc [DecidableEq B] {i d : ℕ} (hne : d ≠ i) : (s.freed i).desc d = s.desc d :=
  update_of_ne hne ..

lemma State.freed_free [DecidableEq B] {i d : ℕ} (hne : d ≠ i) : (s.freed i).free d = s.free d :=
  update_of_ne hne ..

lemma State.freed_free_self [DecidableEq B] : (s.freed i).free i = true := update_self ..

lemma State.freed_like [DecidableEq B] : ((s.freed i).phase q).Like (s.phase q) :=
  (s.phase q).wakeup_like .free

lemma freeDesc_ok [DecidableEq B] (hi : i < NUM) (hfree : s.free i = false) :
    s.freeDesc i = .ok (s.freed i) := by
  rw [State.freeDesc, if_neg (by omega), if_neg (by simp [hfree])]
  rfl

/-- What a failed `alloc3_desc` leaves behind: only descriptors that are free may be cleared. -/
def Undone (s s' : State P B) : Prop :=
  ∃ D f, s' = { s with desc := D, phase := f } ∧
    (∀ d, s.free d = false → D d = s.desc d) ∧ ∀ p, (f p).Like (s.phase p)

/-- `alloc3_desc` takes three free descriptors or none. -/
lemma alloc3Desc_cases [DecidableEq B] (s : State P B) :
    (∃ idx : Idx, idx.all.Nodup ∧ (∀ d ∈ idx.all, d < NUM ∧ s.free d = true) ∧
      s.alloc3Desc = .ok (some idx, { s with
        free := fun d => if d ∈ idx.all then false else s.free d })) ∨
    ∃ s', Undone s s' ∧ s.alloc3Desc = .ok (none, s') := by
  rw [State.alloc3Desc]
  split
  case h_1 => exact .inr ⟨s, ⟨s.desc, s.phase, rfl, fun _ _ => rfl, fun _ => .refl _⟩, rfl⟩
  case h_2 i0 s1 h0 =>
    obtain ⟨hlt0, hfree0, rfl⟩ := allocDesc_eq h0
    split
    case h_1 =>
      -- one descriptor is given back
      refine .inr ⟨State.freed _ i0, ?_, by rw [freeDesc_ok hlt0 (by simp)]; rfl⟩
      refine ⟨update s.desc i0 ⟨.null, 0, 0, 0⟩, fun p => (s.phase p).wakeup .free, ?_,
        fun d hd => ?_, fun p => (s.phase p).wakeup_like .free⟩
      rotate_left
      · exact update_of_ne (by rintro rfl; simp [hfree0] at hd) ..
      simp only [State.freed, State.wakeup, update_idem]
      congr 1
      exact update_eq_self_iff.mpr hfree0.symm
    case h_2 i1 s2 h1 =>
      obtain ⟨hlt1, hfree1, rfl⟩ := allocDesc_eq h1
      have hne1 : i1 ≠ i0 := by
        rintro rfl
        simp at hfree1
      replace hfree1 : s.free i1 = true := (update_of_ne hne1 ..).symm.trans hfree1
      split
      case h_1 =>
        -- two descriptors are given back
        refine .inr ⟨State.freed (State.freed { s with
          free := update (update s.free i0 false) i1 false } i0) i1, ?_, ?_⟩
        rotate_left
        · rw [freeDesc_ok hlt0 (by simp [hne1.symm]), ok_bind,
            freeDesc_ok hlt1 (by simp [State.freed, State.wakeup, hne1])]
          rfl
        refine ⟨update (update s.desc i0 ⟨.null, 0, 0, 0⟩) i1 ⟨.null, 0, 0, 0⟩,
          fun p => ((s.phase p).wakeup .free).wakeup .free, ?_, fun d hd => ?_, fun p =>
          (((s.phase p).wakeup .free).wakeup_like .free).trans ((s.phase p).wakeup_like .free)⟩
        rotate_left
        · have hd0 : d ≠ i0 := by rintro rfl; simp [hfree0] at hd
          have hd1 : d ≠ i1 := by rintro rfl; simp [hfree1] at hd
          exact (update_of_ne hd1 ..).trans (update_of_ne hd0 ..)
        simp only [State.freed, State.wakeup]
        congr 1
        ext d
        by_cases hd1 : d = i1
        · simp [hd1, hfree1]
        · by_cases hd0 : d = i0 <;> simp [hd0, hd1, hfree0, hne1.symm]
      case h_2 i2 s3 h2 =>
        obtain ⟨hlt2, hfree2, rfl⟩ := allocDesc_eq h2
        have hne2 : i2 ≠ i1 := by
          rintro rfl
          simp at hfree2
        replace hfree2 : update s.free i0 false i2 = true :=
          (update_of_ne hne2 ..).symm.trans hfree2
        have hne2' : i2 ≠ i0 := by
          rintro rfl
          simp at hfree2
        rw [update_of_ne hne2'] at hfree2
        refine .inl ⟨⟨i0, i1, i2⟩, ?_, ?_, ?_⟩
        · simp [Idx.all, hne1.symm, hne2.symm, hne2'.symm]
        · simp [Idx.all, hlt0, hlt1, hlt2, hfree0, hfree1, hfree2]
        congr 3
        ext d
        simp only [Idx.all, update_apply, mem_cons, not_mem_nil, or_false]
        by_cases hd0 : d = i0 <;> by_cases hd1 : d = i1 <;> by_cases hd2 : d = i2 <;>
          simp [hd0, hd1, hd2]

lemma Inv.undone (hi : Inv s) (hu : Undone s s') : Inv s' := by
  obtain ⟨D, f, rfl, hD, hf⟩ := hu
  have hmem : Inv { s with desc := D } := by
    refine hi.memory fun q b idx hw d hd => ⟨hD d ?_, rfl⟩
    have hmem : d ∈ (s.phase q).chain := (Phase.chain_of_written hw).1 ▸ hd
    exact hi.notMem_free hmem
  exact hmem.like hf

lemma Chains.alloc [DecidableEq P]
    (hc : Chains free phase) (hp : (phase p).chain = []) (hx : x.chain = idx.all)
    (hnodup : idx.all.Nodup) (hall : ∀ d ∈ idx.all, d < NUM ∧ free d = true) :
    Chains (fun d => if d ∈ idx.all then false else free d) (update phase p x) := by
  have hself : update phase p x p = x := update_self ..
  have hother : ∀ q, q ≠ p → update phase p x q = phase q := fun q hne => update_of_ne hne ..
  -- nobody else owns one of the new descriptors
  have hnew : ∀ q d, d ∈ idx.all → d ∉ (phase q).chain := fun q d hd =>
    (hc.free d (hall d hd).1).mp (hall d hd).2 q
  refine ⟨fun d hd => ?_, fun q => ?_, fun q d hd => ?_, fun q q' d hq hq' => ?_⟩
  · by_cases hmem : d ∈ idx.all
    · rw [if_pos hmem]
      constructor
      · intro hfalse
        cases hfalse
      intro hnone
      have hp' := hnone p
      rw [hself, hx] at hp'
      exact absurd hmem hp'
    rw [if_neg hmem, hc.free d hd]
    refine forall_congr' fun q => ?_
    rcases eq_or_ne q p with rfl | hne
    · rw [hself, hx, hp]
      simp only [hmem, not_mem_nil]
    · rw [hother q hne]
  · rcases eq_or_ne q p with rfl | hne
    · rw [hself, hx]
      exact hnodup
    · rw [hother q hne]
      exact hc.nodup q
  · rcases eq_or_ne q p with rfl | hne
    · rw [hself, hx] at hd
      exact (hall d hd).1
    · rw [hother q hne] at hd
      exact hc.lt q d hd
  · by_cases hne : q = p <;> by_cases hne' : q' = p
    · rw [hne, hne']
    · rw [hne, hself, hx] at hq
      rw [hother q' hne'] at hq'
      exact absurd hq' (hnew q' d hq)
    · rw [hne', hself, hx] at hq'
      rw [hother q hne] at hq
      exact absurd hq (hnew q d hq')
    · rw [hother q hne] at hq
      rw [hother q' hne'] at hq'
      exact hc.disjoint q q' d hq hq'

lemma Chains.release [DecidableEq P] (p : P)
    (hc : Chains free phase) (hx : x.chain = []) :
    Chains (fun d => if d ∈ (phase p).chain then true else free d) (update phase p x) := by
  have hself : update phase p x p = x := update_self ..
  have hother : ∀ q, q ≠ p → update phase p x q = phase q := fun q hne => update_of_ne hne ..
  have hsub : ∀ q d, d ∈ (update phase p x q).chain → q ≠ p ∧ d ∈ (phase q).chain := by
    intro q d hd
    rcases eq_or_ne q p with rfl | hne
    · rw [hself, hx] at hd
      cases hd
    · exact ⟨hne, hother q hne ▸ hd⟩
  refine ⟨fun d hd => ?_, fun q => ?_, fun q d hd => hc.lt q d (hsub q d hd).2,
    fun q q' d hq hq' => hc.disjoint q q' d (hsub q d hq).2 (hsub q' d hq').2⟩
  · by_cases hmem : d ∈ (phase p).chain
    · rw [if_pos hmem]
      refine ⟨fun _ q hq => ?_, fun _ => rfl⟩
      exact (hsub q d hq).1 (hc.disjoint q p d (hsub q d hq).2 hmem)
    rw [if_neg hmem, hc.free d hd]
    refine forall_congr' fun q => ?_
    rcases eq_or_ne q p with rfl | hne
    · rw [hself, hx]
      simp only [hmem, not_mem_nil]
    · rw [hother q hne]
  · rcases eq_or_ne q p with rfl | hne
    · rw [hself, hx]
      exact nodup_nil
    · rw [hother q hne]
      exact hc.nodup q

/-! ### The steps of `virtio_disk_rw` -/

section Rw

variable [DecidableEq P] [DecidableEq B] {blockno : B → ℕ} {w : Bool}

/-- A step ends in a state with the invariant, or cannot be taken. -/
def Fine (r : Except Error (State P B)) : Prop :=
  (∃ s', r = .ok s' ∧ Inv s') ∨ r = .error .disabled

omit [DecidableEq P] [DecidableEq B] in
lemma Inv.passes (hi : Inv s) (hp : (s.phase p).holds = true) (l : Option (Agent P)) :
    Passes s p l :=
  .inr (.inr (hi.lock p hp))

lemma Inv.alloc (hi : Inv s) (hp : s.phase p = .alloc b w) : Fine (s.virtioDiskRw blockno p) := by
  have hlock := hi.lock p (by rw [hp]; rfl)
  have hbuf : ∀ b', some b = some b' → s.owner b' = some p := fun b' hb' =>
    hi.buf p b' (by rw [hp]; exact hb')
  have hfree := alloc3Desc_cases s
  rw [State.virtioDiskRw, hp]
  rcases hfree with ⟨idx, hnodup, hall, heq⟩ | ⟨s', hu, heq⟩
  · refine .inl ⟨_, by simp only [heq]; rfl, ?_⟩
    have hchains := hi.toChains.alloc (x := .ready b w idx) (by rw [hp]; rfl) rfl hnodup hall
    exact hi.goto (.inl rfl) (fun _ => hlock) hbuf hchains (fun _ _ hw => by cases hw)
      (.inl (by rw [hp]; rfl)) nofun nofun
  refine .inl ⟨_, by simp only [heq]; rfl, ?_⟩
  have hi' := hi.undone hu
  obtain ⟨D, f, rfl, -, hf⟩ := hu
  have hp' := hf p
  rw [hp] at hp'
  exact hi'.move (.inr (.inr hlock)) nofun hbuf hp'.chain.symm
    hp'.written.symm hp'.req.symm nofun nofun

omit [DecidableEq P] in
/-- Setting `b->disk` touches no request of another buffer. -/
lemma Inv.setDisk (hi : Inv s) (hb : (s.phase p).buf = some b) (hr : (s.phase p).req = none) :
    Inv { s with disk := update s.disk b true } := by
  refine { hi with
    linked := fun q b' idx hw => (hi.linked q b' idx hw).same rfl rfl,
    fresh := fun q b' idx hw hq => ?_, disk := fun q b' idx n hq => ?_ }
  · by_cases heq : b' = b
    · simp [heq]
    · exact (update_of_ne heq ..).trans (hi.fresh q b' idx hw hq)
  have hne : b' ≠ b := by
    rintro rfl
    have hown := hi.buf q b' (hi.chain_req hq).2.1
    obtain rfl := Option.some.inj ((hi.buf p b' hb).symm.trans hown)
    rw [hr] at hq
    cases hq
  refine Iff.trans ?_ (hi.disk q b' idx n hq)
  exact (congrArg (· = false) (update_of_ne hne ..)).to_iff

omit [DecidableEq P] in
lemma linked_format (hnodup : idx.all.Nodup) : Linked (s.format blockno b w idx) b idx := by
  obtain ⟨⟨h1, h2⟩, h3⟩ : (idx.head ≠ idx.data ∧ idx.head ≠ idx.status) ∧
      idx.data ≠ idx.status := by simpa [Idx.all] using hnodup
  refine ⟨?_, ?_, ?_, ?_⟩
  · simp [State.format, h1, h2, VRING_DESC_F_NEXT]
  · cases w <;> simp [State.format, h3, VRING_DESC_F_NEXT, VRING_DESC_F_WRITE]
  · simp [State.format, VRING_DESC_F_NEXT, VRING_DESC_F_WRITE]
  · simp [State.format]

lemma Inv.format (hi : Inv s) (hp : s.phase p = .ready b w idx) :
    Fine (s.virtioDiskRw blockno p) := by
  have hlock := hi.lock p (by rw [hp]; rfl)
  have hbuf : (s.phase p).buf = some b := by rw [hp]; rfl
  have hreq : (s.phase p).req = none := by rw [hp]; rfl
  have hchain : (s.phase p).chain = idx.all := by rw [hp]; rfl
  have hnodup : idx.all.Nodup := hchain ▸ hi.nodup p
  -- nobody else has written one of these descriptors
  have hne : ∀ q b' idx', (s.phase q).written = some (b', idx') → ∀ d ∈ idx'.all, d ∉ idx.all := by
    intro q b' idx' hw d hd hmem
    have hd' : d ∈ (s.phase q).chain := (Phase.chain_of_written hw).1 ▸ hd
    obtain rfl := hi.disjoint q p d hd' (hchain ▸ hmem)
    rw [hp] at hw
    cases hw
  have hmem : Inv (s.format blockno b w idx) := by
    refine Inv.setDisk (s := { s with
      desc := (s.format blockno b w idx).desc, info := (s.format blockno b w idx).info,
      ops := (s.format blockno b w idx).ops }) ?_ hbuf hreq
    refine hi.memory fun q b' idx' hw d hd => ?_
    have hd' := hne q b' idx' hw d hd
    simp only [Idx.all, mem_cons, not_mem_nil, or_false, not_or] at hd'
    obtain ⟨h1, h2, h3⟩ := hd'
    simp [State.format, h1, h2, h3]
  refine .inl ⟨_, by rw [State.virtioDiskRw, hp], ?_⟩
  have hchains : Chains s.free (update s.phase p (.formatted b idx)) := by
    refine hi.toChains.like fun q => ?_
    rcases eq_or_ne q p with rfl | hne'
    · rw [update_self, hchain]
      rfl
    · rw [update_of_ne hne']
  refine hmem.goto (.inl rfl) (fun _ => hlock) (fun b' hb' => hi.buf p b' (hbuf.trans hb')) hchains
    (fun b' idx' hw => ?_) (.inl hreq.symm)
    (fun _ hx => by cases hx) (fun _ hx => by cases hx)
  cases hw
  exact ⟨linked_format hnodup, fun _ => update_self ..⟩

lemma Inv.enter (hi : Inv s) (hp : s.phase p = .formatted b idx) :
    Fine (s.virtioDiskRw blockno p) := by
  have hlock := hi.lock p (by rw [hp]; rfl)
  have hwritten : (s.phase p).written = some (b, idx) := by rw [hp]; rfl
  have hreq : (s.phase p).req = none := by rw [hp]; rfl
  have hcell : s.avail.idx % NUM = s.reqs.length % NUM := by
    rw [hi.availIdx]
    exact Nat.mod_mod_of_dvd _ (by decide)
  -- the cell is not one that the device has still to read
  have hroom := hi.avail_room hwritten hreq
  have hring : Inv { s with
      avail.ring := update s.avail.ring (s.avail.idx % NUM) idx.head } := by
    refine { hi with
      linked := fun q b' idx' hw => (hi.linked q b' idx' hw).same rfl rfl
      avail := ?_, entered := fun q h hq => ?_ }
    · have hwrite := hi.avail.write (x := idx.head) (by simpa using hroom)
      rw [length_map] at hwrite
      rw [hcell]
      exact hwrite
    -- whoever has entered a head has the lock
    have hq' := hi.lock q (by revert hq; cases s.phase q <;> simp)
    rw [hlock] at hq'
    cases hq'
    rw [hp] at hq
    cases hq
  refine .inl ⟨_, by rw [State.virtioDiskRw, hp], ?_⟩
  refine hring.move (.inl rfl) (fun _ => hlock) (fun b' hb' => hi.buf p b' ?_) (by rw [hp]; rfl)
    hwritten.symm hreq.symm (fun h he => ?_) nofun
  · rw [hp]
    exact hb'
  cases he
  rw [← hcell]
  exact update_self ..

lemma Inv.announce (hi : Inv s) (hp : s.phase p = .ringed b idx) :
    Fine (s.virtioDiskRw blockno p) := by
  have hlock := hi.lock p (by rw [hp]; rfl)
  have hwritten : (s.phase p).written = some (b, idx) := by rw [hp]; rfl
  have hreq : (s.phase p).req = none := by rw [hp]; rfl
  have hhead : s.avail.ring (s.reqs.length % NUM) = idx.head := hi.entered p _ (by rw [hp]; rfl)
  have hnew : ¬ Handled s s.reqs.length := hi.not_handled_of_le hi.taken
  have hdisk := hi.fresh p b idx hwritten hreq
  refine .inl ⟨_, by rw [State.virtioDiskRw, hp], ?_⟩
  have hself : (s.goto p (.test b idx s.reqs.length)).phase p = .test b idx s.reqs.length :=
    update_self ..
  have hother : ∀ q, q ≠ p → (s.goto p (.test b idx s.reqs.length)).phase q = s.phase q :=
    fun q hne => update_of_ne hne ..
  have hold : ∀ (n : ℕ) (x : ℕ × B), s.reqs[n]? = some x →
      (s.reqs ++ [(idx.head, b)])[n]? = some x := by
    intro n x hx
    rw [List.getElem?_append_left (List.getElem?_eq_some_iff.mp hx).1]
    exact hx
  have hmap : ∀ (n : ℕ) (h : ℕ), (s.reqs[n]?).map Prod.fst = some h →
      ((s.reqs ++ [(idx.head, b)])[n]?).map Prod.fst = some h := by
    intro n h hh
    obtain ⟨x, hx, rfl⟩ := Option.map_eq_some_iff.mp hh
    rw [hold n x hx]
    rfl
  refine { hi with
    toChains := hi.toChains.like fun q => ?_, lock := fun q hq => ?_, buf := fun q b' hb => ?_,
    linked := fun q b' idx' hw => ?_, fresh := fun q b' idx' hw hr => ?_,
    disk := fun q b' idx' n hr => ?_, done := fun q n hn => ?_, req := fun q b' idx' n hr => ?_,
    live := fun n hn hh => ?_, availIdx := ?_, taken := ?_, avail := ?_,
    entered := fun q h hq => ?_, pending := fun x hx => ?_, reports := fun x hx => ?_ }
  · rcases eq_or_ne q p with rfl | hne
    · rw [hself, hp]
      rfl
    · rw [hother q hne]
  · rcases eq_or_ne q p with rfl | hne
    · exact hlock
    · exact hi.lock q (hother q hne ▸ hq)
  · rcases eq_or_ne q p with rfl | hne
    · rw [hself] at hb
      exact hi.buf q b' (by rw [hp]; exact hb)
    · exact hi.buf q b' (hother q hne ▸ hb)
  · rcases eq_or_ne q p with rfl | hne
    · rw [hself] at hw
      cases hw
      exact (hi.linked q b idx hwritten).same rfl rfl
    · exact (hi.linked q b' idx' (hother q hne ▸ hw)).same rfl rfl
  · rcases eq_or_ne q p with rfl | hne
    · rw [hself] at hr
      cases hr
    · exact hi.fresh q b' idx' (hother q hne ▸ hw) (hother q hne ▸ hr)
  · rcases eq_or_ne q p with rfl | hne
    · rw [hself] at hr
      cases hr
      constructor
      · intro hfalse
        exact Bool.noConfusion (hdisk.symm.trans hfalse)
      · intro hh
        exact absurd hh hnew
    · exact hi.disk q b' idx' n (hother q hne ▸ hr)
  · rcases eq_or_ne q p with rfl | hne
    · rw [hself] at hn
      cases hn
    · exact hi.done q n (hother q hne ▸ hn)
  · rcases eq_or_ne q p with rfl | hne
    · rw [hself] at hr
      cases hr
      exact getElem?_concat_length
    · exact hold n _ (hi.req q b' idx' n (hother q hne ▸ hr))
  · rcases Nat.lt_succ_iff_lt_or_eq.mp (by simpa using hn) with hlt | rfl
    · obtain ⟨q, b', idx', hr⟩ := hi.live n hlt hh
      refine ⟨q, b', idx', ?_⟩
      have hne : q ≠ p := by
        rintro rfl
        rw [hreq] at hr
        cases hr
      exact (congrArg Phase.req (hother q hne)).trans hr
    · exact ⟨p, b, idx, congrArg Phase.req hself⟩
  · simp only [length_append, length_singleton, next16, hi.availIdx]
    omega
  · simp only [length_append, length_singleton]
    exact Nat.le_succ_of_le hi.taken
  · rw [map_append]
    exact hi.avail.count (by rw [length_map]; exact hhead)
  · rcases eq_or_ne q p with rfl | hne
    · rw [hself] at hq
      cases hq
    -- another process in this phase would have the lock
    have hq' := hi.lock q (by revert hq; rw [hother q hne]; cases s.phase q <;> simp)
    rw [hlock] at hq'
    cases hq'
    exact absurd rfl hne
  · obtain ⟨h1, h2, h3⟩ := hi.pending x hx
    exact ⟨h1, hmap _ _ h2, h3⟩
  · obtain ⟨h1, h2⟩ := hi.reports x hx
    exact ⟨h1, hmap _ _ h2⟩

omit [DecidableEq P] in
lemma freeChainFrom_next {r i j : ℕ} (hlt : i < NUM) (hfree : s.free i = false)
    (hdesc : (s.desc i).next = j ∧ (s.desc i).flags &&& VRING_DESC_F_NEXT ≠ 0) :
    State.freeChainFrom (r + 1) s i = State.freeChainFrom r (s.freed i) j := by
  rw [State.freeChainFrom, freeDesc_ok hlt hfree, ok_bind, if_pos hdesc.2, hdesc.1]

omit [DecidableEq P] in
lemma freeChainFrom_last {r i : ℕ} (hlt : i < NUM) (hfree : s.free i = false)
    (hdesc : (s.desc i).flags &&& VRING_DESC_F_NEXT = 0) :
    State.freeChainFrom (r + 1) s i = .ok (s.freed i) := by
  rw [State.freeChainFrom, freeDesc_ok hlt hfree, ok_bind, if_neg (not_not.mpr hdesc)]

omit [DecidableEq P] in
/-- `free_chain` frees a chain of three. -/
lemma freeChain_eq {i j k : ℕ} (hnodup : [i, j, k].Nodup) (hlt : ∀ d ∈ [i, j, k], d < NUM)
    (hfree : ∀ d ∈ [i, j, k], s.free d = false)
    (hi : (s.desc i).next = j ∧ (s.desc i).flags &&& VRING_DESC_F_NEXT ≠ 0)
    (hj : (s.desc j).next = k ∧ (s.desc j).flags &&& VRING_DESC_F_NEXT ≠ 0)
    (hk : (s.desc k).flags &&& VRING_DESC_F_NEXT = 0) :
    s.freeChain i = .ok (((s.freed i).freed j).freed k) := by
  obtain ⟨⟨hij, hik⟩, hjk⟩ : (i ≠ j ∧ i ≠ k) ∧ j ≠ k := by simpa using hnodup
  -- what is not yet freed is as it was
  have hj' : (s.freed i).desc j = s.desc j := State.freed_desc hij.symm
  have hk' : ((s.freed i).freed j).desc k = s.desc k := by
    rw [State.freed_desc hjk.symm, State.freed_desc hik.symm]
  have hfree0 := hfree i (by simp)
  have hfree1 : (s.freed i).free j = false := by
    rw [State.freed_free hij.symm]
    exact hfree j (by simp)
  have hfree2 : ((s.freed i).freed j).free k = false := by
    rw [State.freed_free hjk.symm, State.freed_free hik.symm]
    exact hfree k (by simp)
  calc s.freeChain i
      = State.freeChainFrom 8 (s.freed i) j := freeChainFrom_next (hlt i (by simp)) hfree0 hi
    _ = State.freeChainFrom 7 ((s.freed i).freed j) k :=
        freeChainFrom_next (hlt j (by simp)) hfree1 (by rw [hj']; exact hj)
    _ = .ok (((s.freed i).freed j).freed k) :=
        freeChainFrom_last (hlt k (by simp)) hfree2 (by rw [hk']; exact hk)

lemma Inv.finish (hi : Inv s) (hp : s.phase p = .finish b idx n) :
    Fine (s.virtioDiskRw blockno p) := by
  have hlock := hi.lock p (by rw [hp]; rfl)
  have hchain : (s.phase p).chain = idx.all := by rw [hp]; rfl
  have hlinked := hi.linked p b idx (by rw [hp]; rfl)
  have hdone := hi.done p n (by rw [hp]; rfl)
  have hmem : ∀ d ∈ idx.all, d ∈ (s.phase p).chain := fun d hd => hchain ▸ hd
  set s1 : State P B := { s with
    info := update s.info idx.head ⟨none, (s.info idx.head).status⟩ } with hs1
  have hfreed := freeChain_eq (s := s1) (hchain ▸ hi.nodup p : idx.all.Nodup)
    (fun d hd => hi.lt p d (hmem d hd)) (fun d hd => hi.notMem_free (hmem d hd))
    hlinked.head.2 hlinked.data.2 hlinked.status.2
  have hfree : (((s1.freed idx.head).freed idx.data).freed idx.status).free =
      fun d => if d ∈ (s.phase p).chain then true else s.free d := by
    ext d
    rw [hchain]
    by_cases h3 : d = idx.status
    · rw [h3, State.freed_free_self, if_pos (by simp [Idx.all])]
    rw [State.freed_free h3]
    by_cases h2 : d = idx.data
    · rw [h2, State.freed_free_self, if_pos (by simp [Idx.all])]
    rw [State.freed_free h2]
    by_cases h1 : d = idx.head
    · rw [h1, State.freed_free_self, if_pos (by simp [Idx.all])]
    · rw [State.freed_free h1, if_neg (by simp [Idx.all, h1, h2, h3])]
  -- the process first gives up its chain; then the memory of the chain may change
  have hdrop : Inv { s.goto p .idle with
      lock := none, free := (((s1.freed idx.head).freed idx.data).freed idx.status).free } := by
    rw [hfree]
    exact hi.goto (hi.passes (by rw [hp]; rfl) none) (fun hx => by cases hx)
      (fun _ hx => by cases hx) (hi.toChains.release p rfl) (fun _ _ hw => by cases hw)
      (.inr ⟨rfl, fun b' idx' n' hr => by rw [hp] at hr; cases hr; exact hdone⟩)
      (fun _ hx => by cases hx) (fun _ hx => by cases hx)
  have hclear : ∀ q b' idx', (update s.phase p .idle q).written = some (b', idx') →
      ∀ d ∈ idx'.all, d ∉ idx.all := by
    intro q b' idx' hw d hd hd'
    have hq := (Phase.chain_of_written hw).1
    rcases eq_or_ne q p with rfl | hne
    · rw [update_self] at hw
      cases hw
    · rw [update_of_ne hne] at hq
      exact hne (hi.disjoint q p d (hq ▸ hd) (hmem d hd'))
  refine .inl ⟨{ (((s1.freed idx.head).freed idx.data).freed idx.status).goto p .idle with
    lock := none }, ?_, ?_⟩
  · rw [State.virtioDiskRw, hp]
    simp only
    rw [← hs1, hfreed, ok_bind]
  have hmemory := hdrop.memory
    (D := (((s1.freed idx.head).freed idx.data).freed idx.status).desc) (O := s.ops)
    fun q b' idx' hw d hd => by
      have hd' := hclear q b' idx' hw d hd
      simp only [Idx.all, mem_cons, not_mem_nil, or_false, not_or] at hd'
      obtain ⟨h1, h2, h3⟩ := hd'
      have hinfo : update s.info idx.head ⟨none, (s.info idx.head).status⟩ d = s.info d :=
        update_of_ne h1 ..
      refine ⟨?_, hinfo⟩
      rw [State.freed_desc h3, State.freed_desc h2, State.freed_desc h1]
      rfl
  refine hmemory.like fun q => ?_
  rcases eq_or_ne q p with rfl | hne
  · simp only [State.goto, update_self]
    exact .refl _
  · simp only [State.goto, update_of_ne hne]
    exact (State.freed_like.trans State.freed_like).trans State.freed_like

/-- Every step of a process in `virtio_disk_rw`. -/
lemma Inv.rw (hi : Inv s) (p : P) : Fine (s.virtioDiskRw blockno p) := by
  have hbuf : ∀ b, (s.phase p).buf = some b → s.owner b = some p := hi.buf p
  cases hp : s.phase p with
  | idle | noDesc b w | asleep b idx n => exact .inr (by rw [State.virtioDiskRw, hp])
  | alloc b w => exact hi.alloc hp
  | ready b w idx => exact hi.format hp
  | formatted b idx => exact hi.enter hp
  | ringed b idx => exact hi.announce hp
  | finish b idx n => exact hi.finish hp
  | want b w | woken b idx n =>
    rw [State.virtioDiskRw, hp]
    rw [hp] at hbuf
    by_cases hl : s.lock = none
    · refine .inl ⟨_, if_pos hl, ?_⟩
      exact hi.move (.inr (.inl hl)) (fun _ => rfl) hbuf (by rw [hp]; rfl) (by rw [hp]; rfl)
        (by rw [hp]; rfl) nofun nofun
    · exact .inr (if_neg hl)
  | test b idx n =>
    have hlock := hi.lock p (by rw [hp]; rfl)
    have hdisk := hi.disk p b idx n (by rw [hp]; rfl)
    rw [State.virtioDiskRw, hp]
    rw [hp] at hbuf
    by_cases hd : s.disk b = true
    · refine .inl ⟨_, if_pos hd, ?_⟩
      exact hi.move (.inr (.inr hlock)) nofun hbuf (by rw [hp]; rfl)
        (by rw [hp]; rfl) (by rw [hp]; rfl) nofun nofun
    refine .inl ⟨_, if_neg hd, ?_⟩
    -- the loop ends because the report has been handled
    have hn : Handled s n := hdisk.mp (Bool.not_eq_true _ ▸ hd)
    exact hi.move (.inl rfl) (fun _ => hlock) hbuf (by rw [hp]; rfl) (by rw [hp]; rfl)
      (by rw [hp]; rfl) nofun (fun m hm => by cases hm; exact hn)

end Rw

/-! ### The steps of the interrupt handler and of the device -/

section Device

lemma Inv.setIntr {x : Intr} (hi : Inv s)
    (hl : ∀ p, (s.phase p).holds = true → l = some (.proc p)) (hx : x ≠ .out → l = some .intr)
    (hread : x = .read → s.handled < s.reports.length)
    (hid : ∀ id, x = .status id → ∃ r, s.reports[s.handled]? = some r ∧ r.2 = id) :
    Inv { s with intr := x, lock := l } := by
  exact { hi with
    lock := hl, intr := hx, reading := hread, read := hid
    linked := fun q b idx hw => (hi.linked q b idx hw).same rfl rfl }

/-- The handler takes the next report. -/
lemma Inv.handle [DecidableEq B] {id : ℕ} (hi : Inv s) (hp : s.intr = .status id) :
    Fine s.virtioDiskIntr := by
  obtain ⟨x, hx, rfl⟩ := hi.read id hp
  have hlt := (List.getElem?_eq_some_iff.mp hx).1
  have hreq := (hi.reports x (List.mem_of_getElem? hx)).2
  have hnot := hi.not_handled_of_report le_rfl hx
  obtain ⟨p, b, idx, hr, hhead, -⟩ := hi.exists_owner hreq hnot
  obtain ⟨hchain, hbuf, hlinked⟩ := hi.chain_req hr
  have hinfo : (s.info x.2).b = some b := hhead ▸ hlinked.info
  set s' : State P B := { s with
    disk := update s.disk b false
    intr := .test
    usedIdx := next16 s.usedIdx
    handled := s.handled + 1 } with hs'
  refine .inl ⟨{ s' with phase := fun q => (s.phase q).wakeup (.buf b) }, ?_, ?_⟩
  · rw [State.virtioDiskIntr, hp]
    simp only
    rw [if_neg (not_le.mpr (hi.head_lt hreq hnot)), if_neg (not_not.mpr (hi.status _ x le_rfl hx)),
      hinfo]
    rfl
  -- the handled requests are those of before and this one
  have hhandled : ∀ n, Handled s' n ↔ Handled s n ∨ n = x.1 := by
    intro n
    change n ∈ (s.reports.take (s.handled + 1)).map Prod.fst ↔ _
    rw [take_add_one, hx]
    simp [Handled]
  have hinv : Inv s' := by
    refine { hi with
      intr := fun _ => hi.intr (by rw [hp]; simp)
      linked := fun q b' idx' hw => (hi.linked q b' idx' hw).same rfl rfl,
      fresh := fun q b' idx' hw hq => ?_, disk := fun q b' idx' n hq => ?_,
      done := fun q n hn => (hhandled n).mpr (.inl (hi.done q n hn)),
      live := fun n hn hh => hi.live n hn fun hh' => hh ((hhandled n).mpr (.inl hh')),
      seenIdx := ?_, handled := hlt, used := hi.used.mono (Nat.le_succ _),
      status := fun m y hm hy => hi.status m y (Nat.le_of_succ_le hm) hy,
      reading := fun hh => (by cases hh), read := fun _ hh => (by cases hh) }
    · have hne : b' ≠ b := by
        rintro rfl
        have hown := hi.buf q b' (Phase.chain_of_written hw).2
        obtain rfl := Option.some.inj ((hi.buf p b' hbuf).symm.trans hown)
        rw [hr] at hq
        cases hq
      exact (update_of_ne hne ..).trans (hi.fresh q b' idx' hw hq)
    · rw [hhandled]
      rcases eq_or_ne q p with rfl | hne
      · obtain ⟨rfl, rfl, rfl⟩ : b = b' ∧ idx = idx' ∧ x.1 = n := by
          simpa using Option.mem_unique hr hq
        simp [hs']
      have hb : b' ≠ b := by
        rintro rfl
        have hown := hi.buf q b' (hi.chain_req hq).2.1
        exact hne (Option.some.inj (hown.symm.trans (hi.buf p b' hbuf)))
      have hn : n ≠ x.1 := by
        rintro rfl
        have heq := Option.some.inj ((hi.req q b' idx' _ hq).symm.trans (hi.req p b idx _ hr))
        exact hb (congrArg Prod.snd heq)
      simp only [hn, or_false]
      refine Iff.trans ?_ (hi.disk q b' idx' n hq)
      exact (congrArg (· = false) (update_of_ne hb ..)).to_iff
    · simp only [hs', next16, hi.seenIdx]
      omega
  exact hinv.like fun q => (s.phase q).wakeup_like (.buf b)

/-- Every step of `virtio_disk_intr`. -/
lemma Inv.handler [DecidableEq B] (hi : Inv s) : Fine s.virtioDiskIntr := by
  cases hp : s.intr with
  | out =>
    rw [State.virtioDiskIntr, hp]
    by_cases hl : s.lock = none
    · refine .inl ⟨_, if_pos hl, ?_⟩
      refine hi.setIntr (fun q hq => ?_) (fun _ => rfl) nofun nofun
      have := hi.lock q hq
      rw [hl] at this
      cases this
    · exact .inr (if_neg hl)
  | test =>
    have hlock := hi.intr (by rw [hp]; simp)
    have hno : ∀ q, (s.phase q).holds ≠ true := by
      intro q hq
      have := hi.lock q hq
      rw [hlock] at this
      cases this
    -- the 16-bit indices differ exactly when a report is waiting
    have hcount : s.usedIdx ≠ s.used.idx ↔ s.handled < s.reports.length := by
      rw [hi.seenIdx, hi.usedIdx]
      have := hi.used_le
      simp only [NUM] at this
      exact count_ne_iff hi.handled (by omega)
    rw [State.virtioDiskIntr, hp]
    by_cases hne : s.usedIdx ≠ s.used.idx
    · refine .inl ⟨_, if_pos hne, ?_⟩
      exact hi.setIntr hi.lock (fun _ => hlock) (fun _ => hcount.mp hne) nofun
    · refine .inl ⟨_, if_neg hne, ?_⟩
      exact hi.setIntr (fun q hq => absurd hq (hno q)) (fun hh => absurd rfl hh) nofun nofun
  | read =>
    have hlt := hi.reading hp
    have hlock := hi.intr (by rw [hp]; simp)
    have hx : s.reports[s.handled]? = some s.reports[s.handled] := getElem?_eq_getElem hlt
    have hcell : s.usedIdx % NUM = s.handled % NUM := by
      rw [hi.seenIdx]
      exact Nat.mod_mod_of_dvd _ (by decide)
    have hring := hi.used s.handled s.reports[s.handled].2 le_rfl (by simp [hx])
    refine .inl ⟨_, by rw [State.virtioDiskIntr, hp], ?_⟩
    refine hi.setIntr hi.lock (fun _ => hlock) nofun fun id hh => ⟨_, hx, ?_⟩
    cases hh
    rw [hcell, hring]
  | status id => exact hi.handle hp

/-- The device takes a request. -/
lemma Inv.take (hi : Inv s) : Fine s.take := by
  rw [State.take]
  by_cases hne : s.lastAvail ≠ s.avail.idx
  · refine .inl ⟨_, if_pos hne, ?_⟩
    have hlt : s.taken < s.reqs.length := by
      rw [hi.lastAvail, hi.availIdx] at hne
      have := hi.avail_le
      simp only [NUM] at this
      exact (count_ne_iff hi.taken (by omega)).mp hne
    have hcell : s.lastAvail % NUM = s.taken % NUM := by
      rw [hi.lastAvail]
      exact Nat.mod_mod_of_dvd _ (by decide)
    have hx := headOf_eq hlt
    have hring : s.avail.ring (s.lastAvail % NUM) = headOf s s.taken := by
      rw [hcell]
      exact hi.avail s.taken _ le_rfl (by rw [getElem?_map]; exact hx)
    have hnew : s.taken ∉ s.reports.map Prod.fst := by
      intro hmem
      obtain ⟨x, hx, heq⟩ := mem_map.mp hmem
      have := (hi.reports x hx).1
      omega
    refine { hi with
      linked := fun q b idx hw => (hi.linked q b idx hw).same rfl rfl, lastAvail := ?_,
      taken := hlt, avail := hi.avail.mono (Nat.le_succ _), pending := fun x hx' => ?_,
      pendingNodup := ?_, reports := fun x hx' => ?_ }
    · simp only [next16, hi.lastAvail]
      omega
    · rcases mem_cons.mp hx' with rfl | hx'
      · exact ⟨Nat.lt_succ_self _, by rw [hring]; exact hx, hnew⟩
      · obtain ⟨h1, h2, h3⟩ := hi.pending x hx'
        exact ⟨Nat.lt_succ_of_lt h1, h2, h3⟩
    · rw [map_cons, nodup_cons]
      refine ⟨fun hmem => ?_, hi.pendingNodup⟩
      obtain ⟨x, hx', heq⟩ := mem_map.mp hmem
      have := (hi.pending x hx').1
      simp only at heq
      omega
    · obtain ⟨h1, h2⟩ := hi.reports x hx'
      exact ⟨Nat.lt_succ_of_lt h1, h2⟩
  · exact .inr (if_neg hne)

/-- The device completes a request. -/
lemma Inv.report (hi : Inv s) (n head : ℕ) : Fine (s.report n head) := by
  rw [State.report]
  by_cases hmem : (n, head) ∈ s.pending
  · refine .inl ⟨_, if_pos hmem, ?_⟩
    obtain ⟨hlt, hreq, hnew⟩ := hi.pending _ hmem
    have hnot := hi.not_handled_of_pending hmem
    obtain ⟨p, b, idx, hr, hhead, -⟩ := hi.exists_owner hreq hnot
    replace hhead : idx.head = head := hhead
    have hlinked := (hi.chain_req hr).2.2
    -- the chain leads the device to the status byte of this request
    have hstatus : s.writeStatus head = update s.info head ⟨(s.info head).b, 0⟩ := by
      rw [State.writeStatus, ← hhead, hlinked.head.2.1, hlinked.data.2.1, hlinked.status.1]
    have hb : ∀ d, (s.writeStatus head d).b = (s.info d).b := by
      intro d
      rw [hstatus]
      by_cases hd : d = head
      · rw [hd, update_self]
      · rw [update_of_ne hd]
    have hzero : ∀ d, d = head ∨ (s.info d).status = 0 → (s.writeStatus head d).status = 0 := by
      intro d hd
      rw [hstatus]
      by_cases heq : d = head
      · rw [heq, update_self]
      · rw [update_of_ne heq]
        exact hd.resolve_left heq
    have hcell : s.used.idx % NUM = s.reports.length % NUM := by
      rw [hi.usedIdx]
      exact Nat.mod_mod_of_dvd _ (by decide)
    have hroom := hi.used_room hmem
    have hhandled : (s.reports ++ [(n, head)]).take s.handled = s.reports.take s.handled :=
      take_append_of_le_length hi.handled
    have hsame : ∀ m, m ∈ ((s.reports ++ [(n, head)]).take s.handled).map Prod.fst ↔
        Handled s m := by
      intro m
      rw [hhandled]
      exact Iff.rfl
    refine { hi with
      linked := fun q b idx hw => ?_,
      disk := fun q b idx m hq => (hi.disk q b idx m hq).trans (hsame m).symm,
      done := fun q m hm => (hsame m).mpr (hi.done q m hm),
      live := fun m hm hh => hi.live m hm fun hh' => hh ((hsame m).mpr hh'),
      pending := fun x hx => ?_, pendingNodup := ?_, reports := fun x hx => ?_,
      reportsNodup := ?_, usedIdx := ?_, handled := ?_, used := ?_, status := fun m x hm hx => ?_,
      reading := fun hh => ?_, read := fun id hh => ?_ }
    · exact (hi.linked q b idx hw).of_eq (fun _ _ => rfl) (hb _)
    · have hne : x.1 ≠ n := by
        intro heq
        have hx' := mem_of_mem_erase hx
        have hinj := inj_on_of_nodup_map hi.pendingNodup hx' hmem heq
        subst hinj
        exact (Nodup.not_mem_erase (Nodup.of_map _ hi.pendingNodup)) hx
      obtain ⟨h1, h2, h3⟩ := hi.pending x (mem_of_mem_erase hx)
      refine ⟨h1, h2, ?_⟩
      simp only [map_append, map_cons, map_nil, mem_append, mem_singleton]
      exact not_or.mpr ⟨h3, hne⟩
    · exact hi.pendingNodup.sublist ((erase_sublist).map _)
    · rcases mem_append.mp hx with hx | hx
      · exact hi.reports x hx
      · obtain rfl := mem_singleton.mp hx
        exact ⟨hlt, hreq⟩
    · rw [map_append]
      exact nodup_append'.mpr ⟨hi.reportsNodup, nodup_singleton _,
        disjoint_singleton.mpr hnew⟩
    · simp only [length_append, length_singleton, next16, hi.usedIdx]
      omega
    · simp only [length_append, length_singleton]
      exact Nat.le_succ_of_le hi.handled
    · have hpush := hi.used.push (x := head) (by simpa using hroom)
      rw [length_map] at hpush
      rw [map_append, hcell]
      exact hpush
    · rcases lt_or_ge m s.reports.length with hlt' | hge
      · rw [getElem?_append_left hlt'] at hx
        exact hzero _ (.inr (hi.status m x hm hx))
      have hx' := mem_of_getElem? (getElem?_append_right hge ▸ hx)
      obtain rfl := mem_singleton.mp hx'
      exact hzero _ (.inl rfl)
    · simp only [length_append, length_singleton]
      exact Nat.lt_succ_of_lt (hi.reading hh)
    · obtain ⟨x, hx, hid⟩ := hi.read id hh
      refine ⟨x, ?_, hid⟩
      rw [List.getElem?_append_left (List.getElem?_eq_some_iff.mp hx).1]
      exact hx
  · exact .inr (if_neg hmem)

end Device

/-! ### Runs -/

section Runs

variable [DecidableEq P] [DecidableEq B] {blockno : B → ℕ}

omit [DecidableEq P] in
/-- A buffer that is not in the driver gets or loses an owner. -/
lemma Inv.own {x : Option P} (hi : Inv s) (hb : ∀ q, (s.phase q).buf ≠ some b) :
    Inv { s with owner := update s.owner b x } := by
  refine { hi with
    buf := fun q b' hq => ?_, linked := fun q b' idx hw => (hi.linked q b' idx hw).same rfl rfl }
  have hne : b' ≠ b := by
    rintro rfl
    exact hb q hq
  exact (update_of_ne hne ..).trans (hi.buf q b' hq)

/-- Every step keeps the invariant or cannot be taken. -/
lemma Inv.step (hi : Inv s) (a : Action P B) : Fine (step blockno s a) := by
  cases a with
  | rw p => exact hi.rw p
  | intr => exact hi.handler
  | take => exact hi.take
  | report n head => exact hi.report n head
  | kill p =>
    refine .inl ⟨_, rfl, hi.like fun q => ?_⟩
    rcases eq_or_ne q p with rfl | hne
    · rw [update_self]
      exact (s.phase q).kill_like
    · rw [update_of_ne hne]
      exact .refl _
  | call p b w =>
    simp only [Virtio.step]
    split
    case isTrue h =>
      obtain ⟨hp, hown⟩ := h
      refine .inl ⟨_, rfl, hi.move (.inl rfl) nofun (fun b' hb => ?_)
        (by rw [hp]; rfl) (by rw [hp]; rfl) (by rw [hp]; rfl) nofun
        nofun⟩
      cases hb
      exact hown
    case isFalse => exact .inr rfl
  | acquiresleep p b =>
    simp only [Virtio.step]
    split
    case isTrue h =>
      refine .inl ⟨_, rfl, hi.own fun q hb => ?_⟩
      have hown := hi.buf q b hb
      rw [h.2] at hown
      cases hown
    case isFalse => exact .inr rfl
  | releasesleep p b =>
    simp only [Virtio.step]
    split
    case isTrue h =>
      refine .inl ⟨_, rfl, hi.own fun q hb => ?_⟩
      -- the owner is not in the driver
      obtain rfl := Option.mem_unique h.2 (hi.buf q b hb)
      rw [h.1] at hb
      cases hb
    case isFalse => exact .inr rfl

omit [DecidableEq P] [DecidableEq B] in
lemma inv_boot : Inv (boot : State P B) := by
  refine ⟨⟨?_, ?_, ?_, ?_⟩, ?_, ?_, ?_, ?_, ?_, ?_, ?_, ?_, ?_, ?_, ?_, ?_, ?_, ?_, ?_, ?_, ?_, ?_,
    ?_, ?_, ?_, ?_, ?_, ?_, ?_⟩
  all_goals simp [boot, Window]

/-- What the driver and its device keep. -/
structure Protocol (blockno : B → ℕ) (s : State P B) : Prop where
  /-- a descriptor is free, or in the chain of exactly one process -/
  descriptors : ∀ d, d < NUM →
    (s.free d = true ∧ ∀ p, d ∉ (s.phase p).chain) ∨
    (s.free d = false ∧ ∃! p, d ∈ (s.phase p).chain)
  /-- a chain has three descriptors, and is linked in the table from its writing on -/
  chains : ∀ p, (s.phase p).chain = [] ∨
    (s.phase p).chain.length = 3 ∧ (s.phase p).chain.Nodup ∧ ∀ d ∈ (s.phase p).chain, d < NUM
  linked : ∀ p b idx, (s.phase p).written = some (b, idx) → Linked s b idx
  /-- an entry of the `avail` ring stays until the device has read it -/
  avail : ∀ n x, s.taken ≤ n → s.reqs[n]? = some x → s.avail.ring (n % NUM) = x.1
  /-- a report that is not handled has the head of its request, and `info` has its buffer -/
  info : ∀ m x, s.handled ≤ m → s.reports[m]? = some x → s.used.ring (m % NUM) = x.2 ∧
    ∃ b, s.reqs[x.1]? = some (x.2, b) ∧ (s.info x.2).b = some b
  /-- the head that the handler has read is the one reported -/
  read : ∀ id, s.intr = .status id → ∃ x, s.reports[s.handled]? = some x ∧ x.2 = id
  /-- a call that leaves its loop has had its own request reported -/
  returns : ∀ p b idx n, s.phase p = .finish b idx n →
    s.reqs[n]? = some (idx.head, b) ∧ (n, idx.head) ∈ s.reports
  /-- no panic is reached -/
  safe : ∀ a e, step blockno s a = .error e → e = .disabled

omit [DecidableEq P] [DecidableEq B] in
lemma Inv.reported (hi : Inv s) (hp : s.phase p = .finish b idx n) :
    s.reqs[n]? = some (idx.head, b) ∧ (n, idx.head) ∈ s.reports := by
  have hreq := hi.req p b idx n (by rw [hp]; rfl)
  obtain ⟨⟨n', h'⟩, hx, rfl⟩ := mem_map.mp (hi.done p n (by rw [hp]; rfl))
  have hmem := mem_of_mem_take hx
  have hhead := (hi.reports _ hmem).2
  simp only [hreq, Option.map_some, Option.some.injEq] at hhead
  exact ⟨hreq, by rw [hhead]; exact hmem⟩

lemma Inv.protocol (hi : Inv s) : Protocol blockno s where
  descriptors d hd := by
    cases hfree : s.free d with
    | true => exact .inl ⟨rfl, (hi.free d hd).mp hfree⟩
    | false =>
      refine .inr ⟨rfl, ?_⟩
      have hsome : ∃ p, d ∈ (s.phase p).chain := by
        by_contra hnone
        rw [(hi.free d hd).mpr (not_exists.mp hnone)] at hfree
        cases hfree
      obtain ⟨p, hp⟩ := hsome
      exact ⟨p, hp, fun q hq => hi.disjoint q p d hq hp⟩
  chains p := by
    have hnodup := hi.nodup p
    have hlt := hi.lt p
    cases hp : s.phase p with
    | idle | want _ _ | alloc _ _ | noDesc _ _ => exact .inl rfl
    | _ =>
      rw [hp] at hnodup hlt
      exact .inr ⟨rfl, hnodup, hlt⟩
  linked := hi.linked
  avail n x hn hx := hi.avail n x.1 hn (by rw [getElem?_map, hx]; rfl)
  info m x hm hx := by
    refine ⟨hi.used m x.2 hm (by rw [getElem?_map, hx]; rfl), ?_⟩
    have hreq := (hi.reports x (mem_of_getElem? hx)).2
    obtain ⟨p, b, idx, hr, hhead, hget⟩ := hi.exists_owner hreq (hi.not_handled_of_report hm hx)
    have hinfo := (hi.chain_req hr).2.2.info
    rw [hi.req p b idx _ hr, Option.some.injEq, Prod.mk.injEq] at hget
    exact ⟨b, by rw [hi.req p b idx _ hr, hhead], hhead ▸ hinfo⟩
  read := hi.read
  returns _ _ _ _ hp := hi.reported hp
  safe a e he := by
    rcases hi.step a with ⟨s', hs', -⟩ | herr
    · rw [hs'] at he
      cases he
    · rw [herr] at he
      exact (Except.error.inj he).symm

/-- In every state of every run of any number of processes, the interrupt handler and the
device, the descriptors are free or in one chain, the rings lose no entry although their
counters wrap, calls return after their own request, and no panic is reached. -/
theorem protocol_of_run {tr : List (State P B × Action P B)} {s : State P B}
    (h : Run (step blockno) boot tr s) : Protocol blockno s := by
  have hstep : ∀ (s : State P B) (a : Action P B) (t : State P B), Inv s →
      step blockno s a = .ok t → Inv t := by
    intro s a t hi hs
    rcases hi.step a with ⟨s', hs', hi'⟩ | herr
    · obtain rfl := Except.ok.inj (hs'.symm.trans hs)
      exact hi'
    · rw [herr] at hs
      cases hs
  have hinv : Inv s := (h.invariant' hstep inv_boot).2
  exact hinv.protocol

/-- A read that waits for its completion: process `p` sleeps until the handler wakes it. -/
def readScript {P B : Type} (p : P) (b : B) : List (Action P B) :=
  [.acquiresleep p b, .call p b false, .rw p, .rw p, .rw p, .rw p, .rw p, .rw p, .take,
    .report 0 0, .intr, .intr, .intr, .intr, .intr, .rw p, .rw p]

/-- The protocol holds where the call has left its loop. -/
theorem protocol_of_run_read : ∃ tr s, Run (step fun _ => 7) (boot : State (Fin 2) (Fin 2)) tr s ∧
    s.phase 0 = .finish 1 ⟨0, 1, 2⟩ 0 ∧ Protocol (fun _ => 7) s := by
  obtain ⟨s, hs, htest⟩ :=
    exists_of_okAnd (runList (step fun _ => 7) (boot : State (Fin 2) (Fin 2)) (readScript 0 1))
      (fun s => decide (s.phase 0 = .finish 1 ⟨0, 1, 2⟩ 0)) (by decide +kernel)
  have hrun := Run.of_runList hs
  exact ⟨_, s, hrun, of_decide_eq_true htest, protocol_of_run hrun⟩

end Runs

end Hexv6.Virtio
