import Hexv6.Ipc.Pipe

/-!
# The bytes of a pipe arrive once and in order

Whatever calls are made on a pipe, at most `PIPESIZE` bytes are in the ring, also after the
counters have wrapped around, and the bytes accepted from writers are the bytes delivered to
readers followed by the bytes in the ring.  The buffers of the readers have to be mapped:
`piperead` counts a byte as read before it tries to store it.
-/

namespace Hexv6.Ipc

open Lib

/-- The ring holds the bytes that are accepted and not yet delivered. -/
structure Intact (pi : Pipe) : Prop where
  count_le : FreeRing.count pi.nread pi.nwrite ≤ PIPESIZE
  accepted : pi.accepted = pi.delivered ++ pi.contents

lemma PIPESIZE_dvd : PIPESIZE ∣ 2 ^ 32 := ⟨2 ^ 23, by decide⟩

lemma PIPESIZE_lt : PIPESIZE < 2 ^ 32 := by decide

lemma intact_pipealloc (data : Fin PIPESIZE → Byte) : Intact (pipealloc data) := by
  constructor
  · simp [pipealloc]
  · simp [pipealloc, Pipe.contents, FreeRing.contents_self]

section Ring

variable {pi : Pipe}

/-- A byte is put into a ring that is not full. -/
lemma Intact.put (h : Intact pi) (hfull : pi.isFull = false) (ch : Byte) : Intact (pi.put ch) := by
  have hne : FreeRing.count pi.nread pi.nwrite ≠ PIPESIZE := by
    rw [Ne, FreeRing.count_eq_iff PIPESIZE_lt]
    simpa [Pipe.isFull] using hfull
  have hlt : FreeRing.count pi.nread pi.nwrite < PIPESIZE := lt_of_le_of_ne h.count_le hne
  have hw : FreeRing.count pi.nread pi.nwrite + 1 < 2 ^ 32 := by
    have := PIPESIZE_lt
    omega
  constructor
  · simp only [Pipe.put, FreeRing.count_put hw]
    omega
  · simp only [Pipe.put, Pipe.contents, FreeRing.contents_put PIPESIZE_dvd pi.data hlt hw,
      h.accepted,
      List.append_assoc]

/-- The oldest byte is taken out of the ring and stored. -/
lemma Intact.take (h : Intact pi) (hempty : pi.isEmpty = false) : Intact (pi.take true) := by
  have hne : pi.nread ≠ pi.nwrite := by simpa [Pipe.isEmpty] using hempty
  obtain ⟨n, hn⟩ : ∃ n, FreeRing.count pi.nread pi.nwrite = n + 1 :=
    Nat.exists_eq_succ_of_ne_zero fun h0 => hne (FreeRing.count_eq_zero.1 h0)
  constructor
  · have := h.count_le
    simp only [Pipe.take, FreeRing.count_take hn]
    omega
  have hfirst := FreeRing.contents_take pi.data hne
  simp only [Pipe.take, Pipe.contents, if_true, h.accepted, hfirst, List.append_assoc,
    List.singleton_append]

lemma Intact.shut (h : Intact pi) (writable : Bool) : Intact (pi.shut writable) := by
  cases writable with
  | true | false => exact ⟨h.count_le, h.accepted⟩

end Ring

/-! ### Every move keeps the ring -/

/-- The user buffer of a call is mapped as far as the call may use it. -/
def Call.Mapped : Call → Prop
  | .write n src => ∀ i : ℕ, (i : ℤ) < n → (src i).isSome = true
  | .read n dst => ∀ i : ℕ, (i : ℤ) < n → dst i = true
  | .close _ => True

/-- The buffer of a process that is reading is mapped. -/
def Place.Mapped : Place → Prop
  | .reading n dst | .empty n dst | .copying n dst _ => ∀ i : ℕ, (i : ℤ) < n → dst i = true
  | _ => True

/-- The calls of a run, if they have mapped buffers. -/
def CallsMapped (_ : State) : Action → Prop
  | .call _ c => c.Mapped
  | _ => True

/-- A move changes the ring only in the loops of `pipewrite` and `piperead`. -/
lemma move_intact (killed : Bool) (pi : Pipe) (t : Place) (h : Intact pi) (ht : t.Mapped) :
    (move killed pi t).Keeps Intact Place.Mapped := by
  cases t with
  | writing n src i =>
    simp only [move, pipewrite]
    split_ifs
    · exact h
    · exact ⟨h, trivial⟩
    · exact trivial
  | storing n src i =>
    simp only [move, pipestore]
    split_ifs with hfull
    · exact trivial
    cases src i with
    | none => exact trivial
    | some ch => exact ⟨h.put (by simpa using hfull) ch, trivial⟩
  | full n src i | copied i | shut writable => exact trivial
  | reading n dst =>
    simp only [move, piperead]
    split_ifs
    · exact h
    · exact ⟨h, ht⟩
    · exact ⟨h, ht⟩
  | empty n dst => exact ht
  | copying n dst i =>
    simp only [move, pipecopy]
    split_ifs with hi hempty hdst
    · exact ⟨h, trivial⟩
    · exact ⟨h.take (by simpa using hempty), ht⟩
    · exact absurd (ht i hi) hdst
    · exact ⟨h, trivial⟩
  | closing writable => exact ⟨h.shut writable, trivial⟩
  | closed =>
    simp only [move]
    split_ifs
    · exact ⟨h.count_le, h.accepted⟩
    · exact h
  | finish r => exact h

/-! ### Whole runs -/

lemma intact_of_run {data : Fin PIPESIZE → Byte} {killed : Sched.Slot → Bool}
    {tr : List (State × Action)} {st : State} (hrun : Run step (boot data killed) tr st)
    (hmapped : ∀ x ∈ tr, CallsMapped x.1 x.2) : Intact st.data := by
  have hentry : ∀ (st : State) (p : Sched.Slot) (c : Call), CallsMapped st (.call p c) →
      (code.entry c).Mapped := by
    intro _ _ c hc
    cases c with
    | write n src => trivial
    | read n dst => exact hc
    | close writable => trivial
  have hstep : ∀ (s : State) (a : Action) (t : State), Monitor.Keeps Intact Place.Mapped s →
      CallsMapped s a → step s a = .ok t → Monitor.Keeps Intact Place.Mapped t :=
    fun s a t hs ha h => hs.step hentry move_intact ha h
  have hboot : Monitor.Keeps Intact Place.Mapped (boot data killed) :=
    ⟨intact_pipealloc data, by simp [boot, Monitor.init, Monitor.Status.place]⟩
  exact (hrun.invariant hstep hboot hmapped).2.1

/-- In every run of calls with mapped buffers the ring is never overfull, what the readers
got is a prefix of what the writers gave, and the rest is in the ring. -/
theorem stream_of_run {data : Fin PIPESIZE → Byte} {killed : Sched.Slot → Bool}
    {tr : List (State × Action)} {st : State} (hrun : Run step (boot data killed) tr st)
    (hmapped : ∀ x ∈ tr, CallsMapped x.1 x.2) :
    (st.data.nwrite - st.data.nread).toNat ≤ PIPESIZE ∧ st.data.delivered <+: st.data.accepted ∧
      st.data.accepted = st.data.delivered ++ st.data.contents := by
  have h := intact_of_run hrun hmapped
  exact ⟨h.count_le, ⟨_, h.accepted.symm⟩, h.accepted⟩

/-- A reader that finds the pipe empty sleeps; a writer puts two bytes into the pipe and
wakes it. -/
def hello : List Action :=
  .call 0 (.read 1 fun _ => true) :: List.replicate 4 (.step 0) ++
    .call 1 (.write 2 fun i => some (BitVec.ofNat 8 (104 + i))) :: List.replicate 72 (.step 1) ++
    List.replicate 3 (.step 0)

/-- The theorem at a run in which one of two bytes is delivered. -/
theorem stream_of_run_hello : ∃ tr st,
    Run step (boot (fun _ => 0) fun _ => false) tr st ∧ st.data.delivered = [104#8] ∧
      st.data.accepted = st.data.delivered ++ st.data.contents := by
  obtain ⟨st, hst, htest⟩ := exists_of_okAnd (runList step (boot (fun _ => 0) fun _ => false) hello)
      (fun st => st.data.delivered = [104#8]) (by decide +kernel)
  refine ⟨_, st, .of_runList hst, of_decide_eq_true htest, ?_⟩
  refine (stream_of_run (.of_runList hst) fun x hx => ?_).2.2
  have hmem := mem_of_mem_traceList hx
  simp only [hello, List.mem_append, List.mem_cons, List.mem_replicate] at hmem
  rcases hmem with ((h | h) | h | h) | h
  all_goals simp [h, CallsMapped, Call.Mapped]

end Hexv6.Ipc
