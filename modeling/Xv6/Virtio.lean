/-
Xv6/Virtio.lean

The disk driver: any number of threads in `virtio_disk_rw` and `virtio_disk_intr`,
and the device.

A thread is at a position `Pc` of the code.  What it does with `vdisk_lock` held and
the device does not look at meanwhile is one step; the descriptors, the record of the
buffer, the slot of the avail ring and its index are written in separate steps, with
steps of the device in between.  An address is what it points to: the device follows
descriptors and finds a header, a buffer or a status byte.

The device has its own index into the avail ring and a list of chains that it works
on.  It takes the entries of the ring in order.  For each chain it writes the status
byte, and then posts the head in the used ring; it may do so in any order.

`virtio_disk_rw` is called by `bread` and `bwrite`, which have the buffer's sleep-lock
from `bget` until `brelse`.  A thread that sleeps may also be woken by `kill`.

`reqs`, `posts` and `cleared` are all requests ever published, all completions ever
posted, and the buffers of those that `virtio_disk_intr` has processed.
-/
import Xv6.Lib.Fifo
import Xv6.Lib.Machine
import Xv6.Param

namespace Xv6.Virtio

open Function (update)

/-! ### State -/

/-- The number of descriptors. -/
def NUM : Nat := 8

def VRING_DESC_F_NEXT : UInt16 := 1

def VRING_DESC_F_WRITE : UInt16 := 2

def VIRTIO_BLK_T_IN : UInt32 := 0

def VIRTIO_BLK_T_OUT : UInt32 := 1

section Types

variable (P B : Type)

/-- The addresses that the driver gives to the device. -/
inductive Addr where
  | null
  /-- `&disk.ops[i]`. -/
  | op (i : Nat)
  /-- `b->data`. -/
  | data (b : B)
  /-- `&disk.info[i].status`. -/
  | status (i : Nat)
  deriving DecidableEq

/-- `struct virtq_desc`. -/
structure Desc where
  addr : Addr B
  len : Nat
  flags : UInt16
  next : UInt16
  deriving DecidableEq

/-- `struct virtio_blk_req`. -/
structure BlkReq where
  type : UInt32
  reserved : UInt32
  sector : UInt64
  deriving DecidableEq

/-- An element of `disk.info`. -/
structure Info where
  b : Option B
  status : UInt8
  deriving DecidableEq

/-- What a thread sleeps on: `&disk.free[0]` or a buffer. -/
inductive Chan where
  | free
  | buf (b : B)
  deriving DecidableEq

/-- The arguments of `virtio_disk_rw`, and `sector`. -/
structure Call where
  buf : B
  write : Bool
  sector : UInt64
  deriving DecidableEq

/-- A call with its descriptors `idx[0]`, `idx[1]` and `idx[2]`. -/
structure Req extends Call B where
  who : P
  i₀ : Nat
  i₁ : Nat
  i₂ : Nat
  deriving DecidableEq

/-- Where a thread is. -/
inductive Pc where
  | out
  /-- At `acquire(&disk.vdisk_lock)` in `virtio_disk_rw`. -/
  | enter (c : Call B)
  /-- At `alloc3_desc`. -/
  | alloc (c : Call B)
  /-- Asleep on `&disk.free[0]`. -/
  | noDesc (c : Call B)
  /-- At the end of that `sleep`. -/
  | retry (c : Call B)
  /-- Has its descriptors and formats them. -/
  | format (r : Req P B)
  /-- Before `b->disk = 1`. -/
  | record (r : Req P B)
  /-- Before it writes the slot of the avail ring. -/
  | publish (r : Req P B)
  /-- Before it increments the index of the avail ring. -/
  | notify (r : Req P B)
  /-- At `while(b->disk == 1)`; the request was the `k`-th. -/
  | wait (k : Nat) (r : Req P B)
  /-- Asleep on the buffer. -/
  | asleep (k : Nat) (r : Req P B)
  /-- At the end of that `sleep`. -/
  | relock (k : Nat) (r : Req P B)
  /-- At `acquire(&disk.vdisk_lock)` in `virtio_disk_intr`. -/
  | intr
  /-- At the test of the loop in `virtio_disk_intr`. -/
  | handle

/-- A chain that the device works on: its head, and whether the status is written.  The request
has the number `num`. -/
structure Work where
  head : UInt16
  written : Bool
  num : Nat

/-- A completion, and the number of the request. -/
structure Post where
  id : UInt32
  num : Nat

/-- The driver, the device, the threads and what has happened. -/
structure Sys where
  desc : Nat → Desc B
  /-- `disk.avail->ring`. -/
  ring : Nat → UInt16
  /-- `disk.avail->idx`. -/
  avail : UInt16
  /-- `disk.used->ring[].id`. -/
  usedRing : Nat → UInt32
  /-- `disk.used->idx`. -/
  used : UInt16
  free : Nat → Bool
  /-- `disk.used_idx`. -/
  usedIdx : UInt16
  info : Nat → Info B
  ops : Nat → BlkReq
  /-- `b->disk`. -/
  disk : B → Bool
  blockno : B → UInt32
  /-- `disk.vdisk_lock`. -/
  lock : Option P
  /-- Who has the sleep-lock of a buffer. -/
  owner : B → Option P
  sleeping : P → Option (Chan B)
  pc : P → Pc P B
  /-- The device's index into the avail ring. -/
  seen : UInt16
  work : List Work
  reqs : List (Req P B)
  /-- The number of requests that the device has taken. -/
  taken : Nat
  posts : List Post
  cleared : List B

end Types

variable {P B : Type} [DecidableEq P] [DecidableEq B]

namespace Pc

/-- The thread has `vdisk_lock`. -/
def holds : Pc P B → Bool
  | .alloc _ | .format _ | .record _ | .publish _ | .notify _ | .wait _ _ | .handle => true
  | _ => false

/-- The call that the thread is in. -/
def call : Pc P B → Option (Call B)
  | .enter c | .alloc c | .noDesc c | .retry c => some c
  | .format r | .record r | .publish r | .notify r | .wait _ r | .asleep _ r | .relock _ r => some r.toCall
  | .out | .intr | .handle => none

/-- The call, if the thread has descriptors for it. -/
def job : Pc P B → Option (Req P B)
  | .format r | .record r | .publish r | .notify r | .wait _ r | .asleep _ r | .relock _ r => some r
  | _ => none

/-- The request that the thread has published, with its number. -/
def waits : Pc P B → Option (Nat × Req P B)
  | .wait k r | .asleep k r | .relock k r => some (k, r)
  | _ => none

end Pc

namespace Sys

variable (s : Sys P B) (p : P)

@[simps] def goto (pc : Pc P B) : Sys P B := { s with pc := update s.pc p pc }

@[simps] def setLock (o : Option P) : Sys P B := { s with lock := o }

@[simps] def setSleeping (o : Option (Chan B)) : Sys P B := { s with sleeping := update s.sleeping p o }

/-- `wakeup(ch)`. -/
@[simps] def wakeup (ch : Chan B) : Sys P B :=
  { s with sleeping := fun q => if s.sleeping q = some ch then none else s.sleeping q }

/-- `sleep(ch, &disk.vdisk_lock)`, until the thread is woken. -/
def sleep (ch : Chan B) (pc : Pc P B) : Sys P B := ((s.setLock none).setSleeping p (some ch)).goto p pc

/-- A descriptor is taken. -/
@[simps] def useDesc (i : Nat) : Sys P B := { s with free := update s.free i false }

/-- A descriptor is cleared and marked free. -/
@[simps] def clearDesc (i : Nat) : Sys P B :=
  { s with desc := update s.desc i ⟨.null, 0, 0, 0⟩, free := update s.free i true }

end Sys

/-! ### The driver -/

/-- `alloc_desc`. -/
def allocDesc (s : Sys P B) : Option (Nat × Sys P B) :=
  ((List.range NUM).find? s.free).map fun i => (i, s.useDesc i)

/-- `free_desc`. -/
def freeDesc (s : Sys P B) (i : Nat) : Except String (Sys P B) :=
  if NUM ≤ i then .error "free_desc 1"
  else if s.free i then .error "free_desc 2"
  else .ok ((s.clearDesc i).wakeup .free)

/-- `free_chain`.  A descriptor that was freed is not freed again, so the loop has at most
`NUM` rounds that do not panic. -/
def freeChain : Nat → Sys P B → Nat → Except String (Sys P B)
  | 0, _, _ => .error "free_desc 2"
  | fuel + 1, s, i =>
    let flag := (s.desc i).flags
    let nxt := (s.desc i).next
    match freeDesc s i with
    | .error msg => .error msg
    | .ok s' => if flag &&& VRING_DESC_F_NEXT ≠ 0 then freeChain fuel s' nxt.toNat else .ok s'

/-- `alloc3_desc`, with its loop written out: what was taken is freed again when a descriptor
is missing. -/
def alloc3Desc (s : Sys P B) : Except String (Option (Nat × Nat × Nat) × Sys P B) :=
  match allocDesc s with
  | none => .ok (none, s)
  | some (i₀, s₁) =>
    match allocDesc s₁ with
    | none => do
      let s' ← freeDesc s₁ i₀
      return (none, s')
    | some (i₁, s₂) =>
      match allocDesc s₂ with
      | none => do
        let s' ← freeDesc s₂ i₀
        let s'' ← freeDesc s' i₁
        return (none, s'')
      | some (i₂, s₃) => .ok (some (i₀, i₁, i₂), s₃)

/-- `sector`, in the arithmetic of `uint`. -/
def sectorOf (blockno : UInt32) : UInt64 := (blockno * UInt32.ofNat (BSIZE / 512)).toUInt64

/-- The header of a request. -/
def Req.header (r : Req P B) : BlkReq :=
  ⟨if r.write then VIRTIO_BLK_T_OUT else VIRTIO_BLK_T_IN, 0, r.sector⟩

/-- The descriptor of the header. -/
def Req.desc₀ (r : Req P B) : Desc B := ⟨.op r.i₀, 16, VRING_DESC_F_NEXT, UInt16.ofNat r.i₁⟩

/-- The descriptor of the data. -/
def Req.desc₁ (r : Req P B) : Desc B :=
  ⟨.data r.buf, BSIZE, (if r.write then 0 else VRING_DESC_F_WRITE) ||| VRING_DESC_F_NEXT, UInt16.ofNat r.i₂⟩

/-- The descriptor of the status byte. -/
def Req.desc₂ (r : Req P B) : Desc B := ⟨.status r.i₀, 1, VRING_DESC_F_WRITE, 0⟩

/-- The descriptors of a request. -/
def Req.chain (r : Req P B) : List Nat := [r.i₀, r.i₁, r.i₂]

namespace Sys

variable (s : Sys P B) (r : Req P B)

/-- Format the three descriptors. -/
@[simps] def format : Sys P B :=
  { s with
    ops := update s.ops r.i₀ r.header
    desc := update (update (update s.desc r.i₀ r.desc₀) r.i₁ r.desc₁) r.i₂ r.desc₂
    info := update s.info r.i₀ { s.info r.i₀ with status := 0xff } }

/-- Record the buffer for `virtio_disk_intr`. -/
@[simps] def record : Sys P B :=
  { s with
    disk := update s.disk r.buf true
    info := update s.info r.i₀ { s.info r.i₀ with b := some r.buf } }

/-- Write the slot of the avail ring. -/
@[simps] def publish : Sys P B :=
  { s with ring := update s.ring (s.avail.toNat % NUM) (UInt16.ofNat r.i₀) }

/-- Tell the device about the new entry. -/
@[simps] def notify : Sys P B := { s with avail := s.avail + 1, reqs := s.reqs ++ [r] }

/-- `disk.info[i].b = 0`. -/
@[simps] def forget (i : Nat) : Sys P B := { s with info := update s.info i { s.info i with b := none } }

/-- The disk is done with a buffer. -/
@[simps] def clear (b : B) : Sys P B :=
  { s with
    disk := update s.disk b false
    sleeping := fun q => if s.sleeping q = some (.buf b) then none else s.sleeping q
    usedIdx := s.usedIdx + 1
    cleared := s.cleared ++ [b] }

end Sys

/-- A round of the loop of `virtio_disk_intr`.  A buffer pointer that is null is a fault. -/
def handleRound (s : Sys P B) (p : P) : Outcome (Sys P B) :=
  if s.usedIdx = s.used then .ok ((s.setLock none).goto p .out)
  else
    let id := (s.usedRing (s.usedIdx.toNat % NUM)).toNat
    if (s.info id).status ≠ 0 then .panic "virtio_disk_intr status"
    else
      match (s.info id).b with
      | none => .panic "kerneltrap"
      | some b => .ok (s.clear b)

/-- The next step of a thread. -/
def advance (s : Sys P B) (p : P) : Outcome (Sys P B) :=
  match s.pc p with
  | .out => .blocked
  | .enter c | .retry c => if s.lock = none then .ok ((s.setLock (some p)).goto p (.alloc c)) else .blocked
  | .alloc c =>
    match alloc3Desc s with
    | .error msg => .panic msg
    | .ok (none, s') => .ok (s'.sleep p .free (.noDesc c))
    | .ok (some (i₀, i₁, i₂), s') => .ok (s'.goto p (.format { c with who := p, i₀, i₁, i₂ }))
  | .noDesc c => if s.sleeping p = none then .ok (s.goto p (.retry c)) else .blocked
  | .format r => .ok ((s.format r).goto p (.record r))
  | .record r => .ok ((s.record r).goto p (.publish r))
  | .publish r => .ok ((s.publish r).goto p (.notify r))
  | .notify r => .ok ((s.notify r).goto p (.wait s.reqs.length r))
  | .wait k r =>
    if s.disk r.buf then .ok (s.sleep p (.buf r.buf) (.asleep k r))
    else
      match freeChain (NUM + 1) (s.forget r.i₀) r.i₀ with
      | .error msg => .panic msg
      | .ok s' => .ok ((s'.setLock none).goto p .out)
  | .asleep k r => if s.sleeping p = none then .ok (s.goto p (.relock k r)) else .blocked
  | .relock k r => if s.lock = none then .ok ((s.setLock (some p)).goto p (.wait k r)) else .blocked
  | .intr => if s.lock = none then .ok ((s.setLock (some p)).goto p .handle) else .blocked
  | .handle => handleRound s p

/-! ### The device -/

namespace Sys

variable (s : Sys P B)

/-- The device takes the next entry of the avail ring. -/
@[simps] def take : Sys P B :=
  { s with
    seen := s.seen + 1
    work := s.work ++ [⟨s.ring (s.seen.toNat % NUM), false, s.taken⟩]
    taken := s.taken + 1 }

/-- Where the device finds the status byte of a chain. -/
def statusAddr (head : Nat) : Addr B := (s.desc (s.desc (s.desc head).next.toNat).next.toNat).addr

/-- The device writes 0 to a status byte. -/
def writeStatus : Addr B → Nat → Info B
  | .status i => update s.info i { s.info i with status := 0 }
  | _ => s.info

/-- The device writes the status of the chain that it works on in place `j`. -/
@[simps] def finish (j : Nat) (w : Work) : Sys P B :=
  { s with
    info := s.writeStatus (s.statusAddr w.head.toNat)
    work := s.work.set j { w with written := true } }

/-- The device posts the chain that it works on in place `j`. -/
@[simps] def post (j : Nat) (w : Work) : Sys P B :=
  { s with
    usedRing := update s.usedRing (s.used.toNat % NUM) w.head.toUInt32
    used := s.used + 1
    work := s.work.eraseIdx j
    posts := s.posts ++ [⟨w.head.toUInt32, w.num⟩] }

end Sys

/-- What can happen next. -/
inductive Act (P B : Type) where
  /-- Take the sleep-lock of a buffer, which holds the block `no` from now on. -/
  | bget (p : P) (b : B) (no : UInt32)
  | brelse (p : P) (b : B)
  /-- Call `virtio_disk_rw`. -/
  | rw (p : P) (b : B) (write : Bool)
  /-- Call `virtio_disk_intr`. -/
  | intr (p : P)
  /-- Make a sleeping thread RUNNABLE. -/
  | kill (p : P)
  | step (p : P)
  | take
  | finish (j : Nat)
  | post (j : Nat)

/-- The machine. -/
def step : Machine (Sys P B) (Act P B)
  | s, .bget p b no =>
    match s.pc p, s.owner b with
    | .out, none => .ok { s with owner := update s.owner b (some p), blockno := update s.blockno b no }
    | _, _ => .blocked
  | s, .brelse p b =>
    match s.pc p with
    | .out => if s.owner b = some p then .ok { s with owner := update s.owner b none } else .blocked
    | _ => .blocked
  | s, .rw p b write =>
    match s.pc p with
    | .out => if s.owner b = some p then .ok (s.goto p (.enter ⟨b, write, sectorOf (s.blockno b)⟩)) else .blocked
    | _ => .blocked
  | s, .intr p =>
    match s.pc p with
    | .out => .ok (s.goto p .intr)
    | _ => .blocked
  | s, .kill p => .ok (s.setSleeping p none)
  | s, .step p => advance s p
  | s, .take => if s.seen = s.avail then .blocked else .ok s.take
  | s, .finish j =>
    match s.work[j]? with
    | some w => if w.written then .blocked else .ok (s.finish j w)
    | none => .blocked
  | s, .post j =>
    match s.work[j]? with
    | some w => if w.written then .ok (s.post j w) else .blocked
    | none => .blocked

/-- The state after `virtio_disk_init`. -/
def virtioDiskInit : Sys P B where
  desc := fun _ => ⟨.null, 0, 0, 0⟩
  ring := fun _ => 0
  avail := 0
  usedRing := fun _ => 0
  used := 0
  free := fun i => decide (i < NUM)
  usedIdx := 0
  info := fun _ => ⟨none, 0⟩
  ops := fun _ => ⟨0, 0, 0⟩
  disk := fun _ => false
  blockno := fun _ => 0
  lock := none
  owner := fun _ => none
  sleeping := fun _ => none
  pc := fun _ => .out
  seen := 0
  work := []
  reqs := []
  taken := 0
  posts := []
  cleared := []

end Xv6.Virtio
