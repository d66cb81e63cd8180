import Hexv6.Virtio.Disk

/-!
# The descriptors of the virtio disk

The invariant of the driver and its device.  A process owns the descriptors of its request
from `alloc3_desc` to `free_chain`; the chains of different processes are disjoint and the
free descriptors are exactly those in none.  Requests are numbered in the order in which they
are announced, and one that is announced and not yet handled has a process that waits for it.

That the rings never run full follows from this: the waiting entries of either ring are heads
of different chains, so there are at most `NUM` of them, and fewer while another chain is
about to be entered.  Hence the 16-bit counters differ exactly when an entry is waiting.
-/

namespace Hexv6.Virtio

open Lib List

variable {P B : Type}

/-! ### What a process has -/

/-- The three descriptors. -/
def Idx.all (idx : Idx) : List ℕ := [idx.head, idx.data, idx.status]

namespace Phase

/-- The buffer of the call. -/
@[simp] def buf : Phase B → Option B
  | .idle => none
  | .want b _ | .alloc b _ | .noDesc b _ | .ready b _ _ => some b
  | .formatted b _ | .ringed b _ => some b
  | .test b _ _ | .asleep b _ _ | .woken b _ _ | .finish b _ _ => some b

/-- The descriptors that the process owns. -/
@[simp] def chain : Phase B → List ℕ
  | .idle | .want .. | .alloc .. | .noDesc .. => []
  | .ready _ _ idx | .formatted _ idx | .ringed _ idx => idx.all
  | .test _ idx _ | .asleep _ idx _ | .woken _ idx _ | .finish _ idx _ => idx.all

/-- The chain that the process has written. -/
@[simp] def written : Phase B → Option (B × Idx)
  | .idle | .want .. | .alloc .. | .noDesc .. | .ready .. => none
  | .formatted b idx | .ringed b idx => some (b, idx)
  | .test b idx _ | .asleep b idx _ | .woken b idx _ | .finish b idx _ => some (b, idx)

/-- The request that the process has announced. -/
@[simp] def req : Phase B → Option (B × Idx × ℕ)
  | .idle | .want .. | .alloc .. | .noDesc .. | .ready .. | .formatted .. | .ringed .. => none
  | .test b idx n | .asleep b idx n | .woken b idx n | .finish b idx n => some (b, idx, n)

/-- Whether the process has `vdisk_lock`. -/
@[simp] def holds : Phase B → Bool
  | .idle | .want .. | .noDesc .. | .asleep .. | .woken .. => false
  | .alloc .. | .ready .. | .formatted .. | .ringed .. | .test .. | .finish .. => true

/-- The head that the process has entered in the `avail` ring and not yet announced. -/
@[simp] def entered : Phase B → Option ℕ
  | .ringed _ idx => some idx.head
  | _ => none

/-- The request whose end the process has seen. -/
@[simp] def done : Phase B → Option ℕ
  | .finish _ _ n => some n
  | _ => none

variable {x : Phase B} {b : B} {idx : Idx} {n : ℕ}

lemma written_of_req (h : x.req = some (b, idx, n)) : x.written = some (b, idx) := by
  cases x <;> simp_all

lemma chain_of_written (h : x.written = some (b, idx)) : x.chain = idx.all ∧ x.buf = some b := by
  cases x <;> simp_all

end Phase

/-- The head of a chain belongs to it. -/
lemma Idx.head_mem (idx : Idx) : idx.head ∈ idx.all := by simp [Idx.all]

/-! ### The invariant -/

section Invariant

variable (s : State P B)

/-- The chain in the descriptor table is the one of a request for `b`. -/
structure Linked (b : B) (idx : Idx) : Prop where
  head : (s.desc idx.head).addr = .op idx.head ∧ (s.desc idx.head).next = idx.data ∧
    (s.desc idx.head).flags &&& VRING_DESC_F_NEXT ≠ 0
  data : (s.desc idx.data).addr = .data b ∧ (s.desc idx.data).next = idx.status ∧
    (s.desc idx.data).flags &&& VRING_DESC_F_NEXT ≠ 0
  status : (s.desc idx.status).addr = .status idx.head ∧
    (s.desc idx.status).flags &&& VRING_DESC_F_NEXT = 0
  info : (s.info idx.head).b = some b

/-- The driver has handled the report of request `n`. -/
def Handled (n : ℕ) : Prop := n ∈ (s.reports.take s.handled).map Prod.fst

/-- The chains of the processes, and the descriptors that are free. -/
structure Chains (free : ℕ → Bool) (phase : P → Phase B) : Prop where
  /-- the free descriptors are those that nobody owns -/
  free : ∀ d, d < NUM → (free d = true ↔ ∀ p, d ∉ (phase p).chain)
  nodup : ∀ p, (phase p).chain.Nodup
  lt : ∀ p, ∀ d ∈ (phase p).chain, d < NUM
  disjoint : ∀ p q d, d ∈ (phase p).chain → d ∈ (phase q).chain → p = q

structure Inv : Prop extends Chains s.free s.phase where
  lock : ∀ p, (s.phase p).holds = true → s.lock = some (.proc p)
  intr : s.intr ≠ .out → s.lock = some .intr
  buf : ∀ p b, (s.phase p).buf = some b → s.owner b = some p
  linked : ∀ p b idx, (s.phase p).written = some (b, idx) → Linked s b idx
  /-- `b->disk` is set from the writing of the chain to the handling of the report -/
  fresh : ∀ p b idx, (s.phase p).written = some (b, idx) → (s.phase p).req = none →
    s.disk b = true
  disk : ∀ p b idx n, (s.phase p).req = some (b, idx, n) → (s.disk b = false ↔ Handled s n)
  done : ∀ p n, (s.phase p).done = some n → Handled s n
  req : ∀ p b idx n, (s.phase p).req = some (b, idx, n) → s.reqs[n]? = some (idx.head, b)
  live : ∀ n, n < s.reqs.length → ¬ Handled s n → ∃ p b idx, (s.phase p).req = some (b, idx, n)
  availIdx : s.avail.idx = s.reqs.length % 65536
  lastAvail : s.lastAvail = s.taken % 65536
  taken : s.taken ≤ s.reqs.length
  avail : Window NUM s.avail.ring (s.reqs.map Prod.fst) s.taken
  entered : ∀ p h, (s.phase p).entered = some h → s.avail.ring (s.reqs.length % NUM) = h
  /-- the device has taken what it works on, and not reported it -/
  pending : ∀ x ∈ s.pending, x.1 < s.taken ∧ (s.reqs[x.1]?).map Prod.fst = some x.2 ∧
    x.1 ∉ s.reports.map Prod.fst
  pendingNodup : (s.pending.map Prod.fst).Nodup
  reports : ∀ x ∈ s.reports, x.1 < s.taken ∧ (s.reqs[x.1]?).map Prod.fst = some x.2
  reportsNodup : (s.reports.map Prod.fst).Nodup
  usedIdx : s.used.idx = s.reports.length % 65536
  seenIdx : s.usedIdx = s.handled % 65536
  handled : s.handled ≤ s.reports.length
  used : Window NUM s.used.ring (s.reports.map Prod.snd) s.handled
  status : ∀ m x, s.handled ≤ m → s.reports[m]? = some x → (s.info x.2).status = 0
  reading : s.intr = .read → s.handled < s.reports.length
  read : ∀ id, s.intr = .status id → ∃ x, s.reports[s.handled]? = some x ∧ x.2 = id

end Invariant

variable {s : State P B} {p q : P} {b : B} {idx : Idx} {n m h : ℕ}

/-! ### Requests and chains -/

section Facts

section

variable (hi : Inv s)
include hi

lemma Inv.notMem_free {d : ℕ} (hd : d ∈ (s.phase p).chain) : s.free d = false := by
  by_contra hfree
  rw [Bool.not_eq_false] at hfree
  exact (hi.free d (hi.lt p d hd)).mp hfree p hd

lemma Inv.chain_req (hr : (s.phase p).req = some (b, idx, n)) :
    (s.phase p).chain = idx.all ∧ (s.phase p).buf = some b ∧ Linked s b idx := by
  have hw := Phase.written_of_req hr
  obtain ⟨hchain, hbuf⟩ := Phase.chain_of_written hw
  exact ⟨hchain, hbuf, hi.linked p b idx hw⟩

/-- A request that is not handled has a process and a chain in the table. -/
lemma Inv.exists_owner (hh : (s.reqs[n]?).map Prod.fst = some h)
    (hn : ¬ Handled s n) : ∃ p b idx, (s.phase p).req = some (b, idx, n) ∧ idx.head = h ∧
      s.reqs[n]? = some (h, b) := by
  obtain ⟨⟨h', b'⟩, hreq, rfl⟩ := Option.map_eq_some_iff.mp hh
  obtain ⟨hlt, -⟩ := List.getElem?_eq_some_iff.mp hreq
  obtain ⟨p, b, idx, hr⟩ := hi.live n hlt hn
  have heq := Option.some.inj ((hi.req p b idx n hr).symm.trans hreq)
  cases heq
  exact ⟨p, _, idx, hr, rfl, hreq⟩

/-- The requests that are not handled have different heads. -/
lemma Inv.head_inj (hn : (s.reqs[n]?).map Prod.fst = some h) (hn' : ¬ Handled s n)
    (hm : (s.reqs[m]?).map Prod.fst = some h) (hm' : ¬ Handled s m) : n = m := by
  obtain ⟨p, b, idx, hp, hhead, -⟩ := hi.exists_owner hn hn'
  obtain ⟨q, b', idx', hq, hhead', -⟩ := hi.exists_owner hm hm'
  have hmem : h ∈ (s.phase p).chain := by
    rw [(hi.chain_req hp).1, ← hhead]
    exact idx.head_mem
  have hmem' : h ∈ (s.phase q).chain := by
    rw [(hi.chain_req hq).1, ← hhead']
    exact idx'.head_mem
  obtain rfl := hi.disjoint p q h hmem hmem'
  have := Option.mem_unique hp hq
  simp_all

lemma Inv.head_lt (hn : (s.reqs[n]?).map Prod.fst = some h) (hn' : ¬ Handled s n) :
    h < NUM := by
  obtain ⟨p, b, idx, hp, hhead, -⟩ := hi.exists_owner hn hn'
  refine hi.lt p h ?_
  rw [(hi.chain_req hp).1, ← hhead]
  exact idx.head_mem

/-- A process that has not announced its chain does not own the head of a request. -/
lemma Inv.head_ne (hn : (s.reqs[n]?).map Prod.fst = some h) (hn' : ¬ Handled s n)
    (hreq : (s.phase p).req = none) : h ∉ (s.phase p).chain := by
  intro hmem
  obtain ⟨q, b, idx, hq, hhead, -⟩ := hi.exists_owner hn hn'
  have hmem' : h ∈ (s.phase q).chain := by
    rw [(hi.chain_req hq).1, ← hhead]
    exact idx.head_mem
  obtain rfl := hi.disjoint p q h hmem hmem'
  rw [hreq] at hq
  cases hq

/-- What the device has not taken is not handled. -/
lemma Inv.not_handled_of_le (hn : s.taken ≤ n) : ¬ Handled s n := by
  intro hmem
  obtain ⟨x, hx, rfl⟩ := mem_map.mp hmem
  have := (hi.reports x (mem_of_mem_take hx)).1
  omega

lemma Inv.not_handled_of_pending (hx : (n, h) ∈ s.pending) : ¬ Handled s n := by
  intro hmem
  refine (hi.pending _ hx).2.2 ?_
  exact map_subset _ (take_subset _ _) hmem

/-- A report that is not handled is of a request that is not handled. -/
lemma Inv.not_handled_of_report {x : ℕ × ℕ} (hm : s.handled ≤ m)
    (hx : s.reports[m]? = some x) : ¬ Handled s x.1 := by
  intro hmem
  obtain ⟨hlt, hget⟩ := List.getElem?_eq_some_iff.mp hx
  have hdrop : x.1 ∈ (s.reports.drop s.handled).map Prod.fst := by
    refine List.mem_map_of_mem (List.mem_iff_getElem?.mpr ⟨m - s.handled, ?_⟩)
    rw [List.getElem?_drop, Nat.add_sub_cancel' hm]
    exact hx
  have hnodup := hi.reportsNodup
  rw [← take_append_drop s.handled s.reports, map_append] at hnodup
  exact (nodup_append'.mp hnodup).2.2 hmem hdrop

end

end Facts

/-! ### The rings have room -/

section Room

/-- The head of request `n`. -/
def headOf (s : State P B) (n : ℕ) : ℕ := ((s.reqs[n]?).map Prod.fst).getD 0

lemma headOf_eq (hn : n < s.reqs.length) : (s.reqs[n]?).map Prod.fst = some (headOf s n) := by
  simp [headOf, getElem?_eq_getElem hn]

/-- The head in report `m`. -/
def reportOf (s : State P B) (m : ℕ) : ℕ := ((s.reports[m]?).map Prod.snd).getD 0

section

variable (hi : Inv s)
include hi

lemma Inv.reportOf_eq (hm : s.handled ≤ m) (hlt : m < s.reports.length) :
    ∃ k, s.reports[m]? = some (k, reportOf s m) ∧ ¬ Handled s k ∧
      (s.reqs[k]?).map Prod.fst = some (reportOf s m) := by
  have hx : s.reports[m]? = some s.reports[m] := getElem?_eq_getElem hlt
  have hof : reportOf s m = s.reports[m].2 := by simp [reportOf, hx]
  have hmem := hi.reports _ (getElem_mem hlt)
  exact ⟨s.reports[m].1, by rw [hof]; exact hx, hi.not_handled_of_report hm hx, hof ▸ hmem.2⟩

lemma Inv.injOn_headOf : Set.InjOn (headOf s) (Set.Ico s.taken s.reqs.length) := by
  intro n hn m hm heq
  refine hi.head_inj (headOf_eq hn.2) (hi.not_handled_of_le hn.1) ?_ (hi.not_handled_of_le hm.1)
  rw [heq]
  exact headOf_eq hm.2

lemma Inv.injOn_reportOf :
    Set.InjOn (reportOf s) (Set.Ico s.handled s.reports.length) := by
  intro n hn m hm heq
  obtain ⟨k, hk, hk', hreq⟩ := hi.reportOf_eq hn.1 hn.2
  obtain ⟨l, hl, hl', hreq'⟩ := hi.reportOf_eq hm.1 hm.2
  rw [← heq] at hl hreq'
  obtain rfl := hi.head_inj hreq hk' hreq' hl'
  -- the same request is reported in both places
  obtain ⟨hnl, hnk⟩ := List.getElem?_eq_some_iff.mp hk
  obtain ⟨hml, hmk⟩ := List.getElem?_eq_some_iff.mp hl
  have hn' : n < (s.reports.map Prod.fst).length := by simpa using hnl
  have hm' : m < (s.reports.map Prod.fst).length := by simpa using hml
  have hfst : (s.reports.map Prod.fst)[n] = (s.reports.map Prod.fst)[m] := by simp [hnk, hmk]
  exact (Nodup.getElem_inj_iff hi.reportsNodup).mp hfst

/-- The `avail` ring has room for a chain that is not announced. -/
lemma Inv.avail_room (hw : (s.phase p).written = some (b, idx))
    (hreq : (s.phase p).req = none) : s.reqs.length < s.taken + NUM := by
  have hchain := (Phase.chain_of_written hw).1
  have hmem : idx.head ∈ (s.phase p).chain := by
    rw [hchain]
    exact idx.head_mem
  refine lt_of_injOn_of_ne hi.injOn_headOf (hi.lt p idx.head hmem) fun n hn hlt => ?_
  have hh := headOf_eq hlt
  refine ⟨hi.head_lt hh (hi.not_handled_of_le hn), fun heq => ?_⟩
  exact hi.head_ne hh (hi.not_handled_of_le hn) hreq (heq ▸ hmem)

lemma Inv.avail_le : s.reqs.length ≤ s.taken + NUM :=
  le_of_injOn hi.injOn_headOf fun _ hn hlt => hi.head_lt (headOf_eq hlt) (hi.not_handled_of_le hn)

/-- The `used` ring has room for a request that is not reported. -/
lemma Inv.used_room (hx : (n, h) ∈ s.pending) :
    s.reports.length < s.handled + NUM := by
  obtain ⟨-, hreq, hnot⟩ := hi.pending _ hx
  have hn := hi.not_handled_of_pending hx
  refine lt_of_injOn_of_ne hi.injOn_reportOf (hi.head_lt hreq hn) fun m hm hlt => ?_
  obtain ⟨k, hk, hk', hreq'⟩ := hi.reportOf_eq hm hlt
  refine ⟨hi.head_lt hreq' hk', fun heq => hnot ?_⟩
  rw [heq] at hreq'
  obtain rfl := hi.head_inj hreq' hk' hreq hn
  exact mem_map.mpr ⟨_, mem_of_getElem? hk, rfl⟩

lemma Inv.used_le : s.reports.length ≤ s.handled + NUM := by
  refine le_of_injOn hi.injOn_reportOf fun m hm hlt => ?_
  obtain ⟨k, -, hk', hreq⟩ := hi.reportOf_eq hm hlt
  exact hi.head_lt hreq hk'

end

end Room

end Hexv6.Virtio
