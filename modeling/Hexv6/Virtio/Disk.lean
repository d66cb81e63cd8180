import Hexv6.Lib.Transition
import Hexv6.Lib.Window
import Hexv6.Param

/-!
# The virtio disk driver

The driver of `virtio_disk.c` and its device.  They share the descriptor table and two
rings in memory: the driver announces the head of a chain of three descriptors in the
`avail` ring, the device reports it in the `used` ring, and the indices of both rings are
16-bit counters.

The driver's functions run under `vdisk_lock`, so that processes exclude each other; the
device does not take the lock, and the functions are cut into steps at every access to what
they share with it.  `sleep` releases the lock and falls asleep in one step: whoever wakes
holds `vdisk_lock`.  A process is woken by `wakeup`, or by `kill` at any time.

`virtio_disk_rw` is called by `bread` and `bwrite` only, for a buffer that the caller has
locked; the sleep locks of the buffers are part of the state.

Of the device it is assumed that it takes the announced heads in their order, each of them once;
that it completes a request that it has taken by writing status 0 and reporting the head, in one
step and once; and that it writes nothing else to the shared memory.  It may complete requests in
any order and at any time, or never.  The fields `reqs`, `taken`, `reports` and `handled` are
history: the announced requests, how many the device has taken, what it has reported, and how many
reports the driver has handled.
-/

namespace Hexv6.Virtio

open Lib Function

/-! ### Memory shared with the device -/

/-- The number of descriptors, and of cells in each ring. -/
def NUM : ℕ := 8

def VRING_DESC_F_NEXT : ℕ := 1
def VRING_DESC_F_WRITE : ℕ := 2
def VIRTIO_BLK_T_IN : ℕ := 0
def VIRTIO_BLK_T_OUT : ℕ := 1
/-- The next value of a 16-bit counter. -/
def next16 (n : ℕ) : ℕ := (n + 1) % 65536

/-- What a descriptor points to. -/
inductive Addr (B : Type)
  | null
  /-- `&disk.ops[i]` -/
  | op (i : ℕ)
  /-- `b->data` -/
  | data (b : B)
  /-- `&disk.info[i].status` -/
  | status (i : ℕ)

/-- A descriptor: `struct virtq_desc`. -/
structure Desc (B : Type) where
  addr : Addr B
  len : ℕ
  flags : ℕ
  next : ℕ

/-- The header of a request: `struct virtio_blk_req`. -/
structure BlkReq where
  type : ℕ
  reserved : ℕ
  sector : ℕ

/-- What the driver keeps about a request in flight, at the number of its first descriptor. -/
structure Info (B : Type) where
  b : Option B
  status : ℕ

/-- A ring: the counter, and the cells. -/
structure Ring where
  idx : ℕ
  ring : ℕ → ℕ

/-- The descriptors `idx[0]`, `idx[1]` and `idx[2]` of a request. -/
structure Idx where
  head : ℕ
  data : ℕ
  status : ℕ
  deriving DecidableEq

/-! ### Processes -/

/-- Where a process is in `virtio_disk_rw`. -/
inductive Phase (B : Type)
  /-- not in the driver -/
  | idle
  /-- about to take `vdisk_lock` and look for descriptors -/
  | want (b : B) (write : Bool)
  /-- at `alloc3_desc` -/
  | alloc (b : B) (write : Bool)
  /-- sleeping on `&disk.free[0]` -/
  | noDesc (b : B) (write : Bool)
  /-- with three descriptors -/
  | ready (b : B) (write : Bool) (idx : Idx)
  /-- the chain is written -/
  | formatted (b : B) (idx : Idx)
  /-- the head is in the `avail` ring -/
  | ringed (b : B) (idx : Idx)
  /-- at `while(b->disk == 1)`, after announcing request number `n` -/
  | test (b : B) (idx : Idx) (n : ℕ)
  /-- sleeping on `b` -/
  | asleep (b : B) (idx : Idx) (n : ℕ)
  /-- about to take `vdisk_lock` again -/
  | woken (b : B) (idx : Idx) (n : ℕ)
  /-- behind the loop -/
  | finish (b : B) (idx : Idx) (n : ℕ)
  deriving DecidableEq

/-- The channels that processes sleep on. -/
inductive Chan (B : Type)
  /-- `&disk.free[0]` -/
  | free
  | buf (b : B)

/-- Where `virtio_disk_intr` is. -/
inductive Intr
  | out
  /-- at `while(disk.used_idx != disk.used->idx)` -/
  | test
  /-- about to read the reported head -/
  | read
  /-- about to read the status of the request with this head -/
  | status (id : ℕ)
  deriving DecidableEq

/-- Who can hold `vdisk_lock`. -/
inductive Agent (P : Type)
  | proc (p : P)
  | intr
  deriving DecidableEq

inductive Error
  | disabled
  /-- the panics of `free_desc` -/
  | freeDesc1
  | freeDesc2
  /-- the panic of `virtio_disk_intr` -/
  | intrStatus
  /-- an array index that is out of range -/
  | outOfBounds
  /-- a chain of more than `NUM` descriptors -/
  | endless
  deriving DecidableEq

/-- The driver, the device and the processes. -/
structure State (P B : Type) where
  desc : ℕ → Desc B
  avail : Ring
  used : Ring
  free : ℕ → Bool
  usedIdx : ℕ
  info : ℕ → Info B
  ops : ℕ → BlkReq
  /-- `b->disk` -/
  disk : B → Bool
  /-- `b->lock` -/
  owner : B → Option P
  /-- `vdisk_lock` -/
  lock : Option (Agent P)
  phase : P → Phase B
  intr : Intr
  /-- the device's own counter for the `avail` ring -/
  lastAvail : ℕ
  /-- the requests that the device works on: number and head -/
  pending : List (ℕ × ℕ)
  reqs : List (ℕ × B)
  taken : ℕ
  reports : List (ℕ × ℕ)
  handled : ℕ

section Driver

variable {P B : Type} [DecidableEq P] [DecidableEq B]

def Phase.wakeup (chan : Chan B) : Phase B → Phase B
  | .noDesc b w => match chan with
      | .free => .want b w
      | .buf _ => .noDesc b w
  | .asleep b idx n => match chan with
      | .free => .asleep b idx n
      | .buf b' => if b = b' then .woken b idx n else .asleep b idx n
  | x => x

def Phase.kill : Phase B → Phase B
  | .noDesc b w => .want b w
  | .asleep b idx n => .woken b idx n
  | x => x

namespace State

variable (s : State P B)

def goto (p : P) (x : Phase B) : State P B := { s with phase := update s.phase p x }

def wakeup (chan : Chan B) : State P B :=
  { s with phase := fun q => (s.phase q).wakeup chan }

/-! ### Descriptors -/

def allocDesc : Option (ℕ × State P B) :=
  match (List.range NUM).find? s.free with
  | some i => some (i, { s with free := update s.free i false })
  | none => none

def freeDesc (i : ℕ) : Except Error (State P B) :=
  if NUM ≤ i then .error .freeDesc1
  else if s.free i then .error .freeDesc2
  else
    let desc := update s.desc i ⟨.null, 0, 0, 0⟩
    .ok (wakeup { s with desc, free := update s.free i true } .free)

/-- Every round frees a descriptor or panics, so `NUM + 1` rounds are enough. -/
def freeChainFrom : ℕ → State P B → ℕ → Except Error (State P B)
  | 0, _, _ => .error .endless
  | rounds + 1, s, i => do
    let flag := (s.desc i).flags
    let nxt := (s.desc i).next
    let s ← s.freeDesc i
    if flag &&& VRING_DESC_F_NEXT ≠ 0 then freeChainFrom rounds s nxt else .ok s

def freeChain (i : ℕ) : Except Error (State P B) := freeChainFrom (NUM + 1) s i

/-- The loop over the three descriptors; what was taken before a failure is given back. -/
def alloc3Desc : Except Error (Option Idx × State P B) :=
  match s.allocDesc with
  | none => .ok (none, s)
  | some (i₀, s₁) =>
    match s₁.allocDesc with
    | none => do
      let s₂ ← s₁.freeDesc i₀
      .ok (none, s₂)
    | some (i₁, s₂) =>
      match s₂.allocDesc with
      | none => do
        let s₃ ← s₂.freeDesc i₀
        let s₄ ← s₃.freeDesc i₁
        .ok (none, s₄)
      | some (i₂, s₃) => .ok (some ⟨i₀, i₁, i₂⟩, s₃)

/-- Writing the request and its chain; `uint` arithmetic gives the sector. -/
def format (blockno : B → ℕ) (b : B) (write : Bool) (idx : Idx) : State P B :=
  let type := if write then VIRTIO_BLK_T_OUT else VIRTIO_BLK_T_IN
  let sector := blockno b * (BSIZE / 512) % 4294967296
  let desc := update s.desc idx.head ⟨.op idx.head, 16, VRING_DESC_F_NEXT, idx.data⟩
  let flags := (if write then 0 else VRING_DESC_F_WRITE) ||| VRING_DESC_F_NEXT
  let desc := update desc idx.data ⟨.data b, BSIZE, flags, idx.status⟩
  let desc := update desc idx.status ⟨.status idx.head, 1, VRING_DESC_F_WRITE, 0⟩
  { s with
    ops := update s.ops idx.head ⟨type, 0, sector⟩
    desc
    info := update s.info idx.head ⟨some b, 0xff⟩
    disk := update s.disk b true }

/-! ### The functions of the driver -/

/-- The next step of a process in `virtio_disk_rw`. -/
def virtioDiskRw (blockno : B → ℕ) (p : P) : Except Error (State P B) :=
  match s.phase p with
  | .want b w =>
    if s.lock = none then .ok { s.goto p (.alloc b w) with lock := some (.proc p) }
    else .error .disabled
  | .alloc b w => do
    let (idx, s) ← s.alloc3Desc
    match idx with
    | some idx => .ok (s.goto p (.ready b w idx))
    | none => .ok { s.goto p (.noDesc b w) with lock := none }
  | .ready b w idx => .ok ((s.format blockno b w idx).goto p (.formatted b idx))
  | .formatted b idx =>
    .ok { s.goto p (.ringed b idx) with
      avail.ring := update s.avail.ring (s.avail.idx % NUM) idx.head }
  | .ringed b idx =>
    .ok { s.goto p (.test b idx s.reqs.length) with
      avail.idx := next16 s.avail.idx
      reqs := s.reqs ++ [(idx.head, b)] }
  | .test b idx n =>
    if s.disk b then .ok { s.goto p (.asleep b idx n) with lock := none }
    else .ok (s.goto p (.finish b idx n))
  | .woken b idx n =>
    if s.lock = none then .ok { s.goto p (.test b idx n) with lock := some (.proc p) }
    else .error .disabled
  | .finish _ idx _ => do
    let info := update s.info idx.head ⟨none, (s.info idx.head).status⟩
    let s ← freeChain { s with info } idx.head
    .ok { s.goto p .idle with lock := none }
  | .idle => .error .disabled
  | .noDesc .. => .error .disabled
  | .asleep .. => .error .disabled

/-- The next step of `virtio_disk_intr`. -/
def virtioDiskIntr : Except Error (State P B) :=
  match s.intr with
  | .out =>
    if s.lock = none then .ok { s with lock := some .intr, intr := .test }
    else .error .disabled
  | .test =>
    if s.usedIdx ≠ s.used.idx then .ok { s with intr := .read }
    else .ok { s with intr := .out, lock := none }
  | .read => .ok { s with intr := .status (s.used.ring (s.usedIdx % NUM)) }
  | .status id =>
    if NUM ≤ id then .error .outOfBounds
    else if (s.info id).status ≠ 0 then .error .intrStatus
    else match (s.info id).b with
      | none => .error .outOfBounds
      | some b => .ok { s.wakeup (.buf b) with
          disk := update s.disk b false
          intr := .test
          usedIdx := next16 s.usedIdx
          handled := s.handled + 1 }

/-! ### The device -/

/-- The device reads the next cell of the `avail` ring. -/
def take : Except Error (State P B) :=
  if s.lastAvail ≠ s.avail.idx then
    .ok { s with
      pending := (s.taken, s.avail.ring (s.lastAvail % NUM)) :: s.pending
      lastAvail := next16 s.lastAvail
      taken := s.taken + 1 }
  else .error .disabled

/-- The device writes the status where the third descriptor of the chain says. -/
def writeStatus (head : ℕ) : ℕ → Info B :=
  match (s.desc (s.desc (s.desc head).next).next).addr with
  | .status i => update s.info i ⟨(s.info i).b, 0⟩
  | _ => s.info

/-- The device completes a request. -/
def report (n head : ℕ) : Except Error (State P B) :=
  if (n, head) ∈ s.pending then
    .ok { s with
      pending := s.pending.erase (n, head)
      info := s.writeStatus head
      used := ⟨next16 s.used.idx, update s.used.ring (s.used.idx % NUM) head⟩
      reports := s.reports ++ [(n, head)] }
  else .error .disabled

end State

/-! ### The system -/

inductive Action (P B : Type)
  /-- a process locks a buffer, or unlocks it -/
  | acquiresleep (p : P) (b : B)
  | releasesleep (p : P) (b : B)
  /-- `bread` or `bwrite` calls `virtio_disk_rw` -/
  | call (p : P) (b : B) (write : Bool)
  | rw (p : P)
  | kill (p : P)
  | intr
  | take
  | report (n head : ℕ)

/-- One step.  `blockno` is what the buffers say about themselves. -/
def step (blockno : B → ℕ) (s : State P B) : Action P B → Except Error (State P B)
  | .acquiresleep p b =>
    if s.phase p = .idle ∧ s.owner b = none then
      .ok { s with owner := update s.owner b (some p) }
    else .error .disabled
  | .releasesleep p b =>
    if s.phase p = .idle ∧ s.owner b = some p then
      .ok { s with owner := update s.owner b none }
    else .error .disabled
  | .call p b w =>
    if s.phase p = .idle ∧ s.owner b = some p then .ok (s.goto p (.want b w))
    else .error .disabled
  | .rw p => s.virtioDiskRw blockno p
  | .kill p => .ok (s.goto p (s.phase p).kill)
  | .intr => s.virtioDiskIntr
  | .take => s.take
  | .report n head => s.report n head

/-- The state after `virtio_disk_init`. -/
def boot : State P B where
  desc _ := ⟨.null, 0, 0, 0⟩
  avail := ⟨0, fun _ => 0⟩
  used := ⟨0, fun _ => 0⟩
  free _ := true
  usedIdx := 0
  info _ := ⟨none, 0⟩
  ops _ := ⟨0, 0, 0⟩
  disk _ := false
  owner _ := none
  lock := none
  phase _ := .idle
  intr := .out
  lastAvail := 0
  pending := []
  reqs := []
  taken := 0
  reports := []
  handled := 0

end Driver

end Hexv6.Virtio
