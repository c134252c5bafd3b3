import Mathlib

/-! The virtio disk driver: `virtio_disk_rw` and `virtio_disk_intr`, and the device beside them. Whoever holds
`vdisk_lock` runs without the others, so a stretch of code under the lock is one step unless the device can come
between; the device takes chains from the avail ring in order and completes those it has in any order. A process
that sleeps may be woken at any time, as the loops around `sleep` test again. -/

namespace Xv6Armv8.Virtio

open Function

abbrev Pid := Nat
/-- A buffer of the cache. -/
abbrev Buf := Nat

/-- `NUM`: descriptors, and slots of either ring. -/
def num : Nat := 8

/-- The indices of the rings are `uint16`. -/
def idxMod : Nat := 65536

/-- `BSIZE`. -/
def bsize : Nat := 1024

/-- `VRING_DESC_F_NEXT` and `VRING_DESC_F_WRITE`. -/
def fNext : Nat := 1
def fWrite : Nat := 2

/-- What a descriptor points to: a command header, the data of a buffer, a status byte. -/
inductive Addr where
  | null
  | op (i : Nat)
  | data (b : Buf)
  | status (i : Nat)
  deriving DecidableEq

/-- `struct virtq_desc`. -/
structure Desc where
  addr : Addr
  len : Nat
  flags : Nat
  next : Nat
  deriving DecidableEq

def Desc.zero : Desc := { addr := .null, len := 0, flags := 0, next := 0 }

/-- `struct virtio_blk_req`; `write` is `VIRTIO_BLK_T_OUT`. -/
structure BlkReq where
  write : Bool
  sector : Nat
  deriving DecidableEq

/-- `disk.info[i]`. -/
structure Info where
  b : Option Buf
  status : Nat

/-- `struct disk`, with the memory it shares with the device. -/
structure Disk where
  desc : Nat → Desc
  availRing : Nat → Nat
  availIdx : Nat
  usedRing : Nat → Nat
  /-- `disk.used->idx`, which the device writes. -/
  deviceIdx : Nat
  free : Nat → Bool
  usedIdx : Nat
  info : Nat → Info
  ops : Nat → BlkReq

/-! ### Descriptors -/

/-- `alloc_desc`; `none` stands for -1. -/
def Disk.allocDesc (d : Disk) : Option (Nat × Disk) :=
  match (List.range num).find? fun i => d.free i with
  | some i => some (i, { d with free := update d.free i false })
  | none => none

/-- `free_desc`; `none` is a panic. -/
def Disk.freeDesc (d : Disk) (i : Nat) : Option Disk :=
  if num ≤ i then none
  else if d.free i then none
  else some { d with desc := update d.desc i .zero, free := update d.free i true }

/-- `free_chain`, with a bound on the walk; `none` is a panic. -/
def Disk.freeChain : Nat → Disk → Nat → Option Disk
  | 0, _, _ => none
  | fuel + 1, d, i =>
    let flag := (d.desc i).flags
    let nxt := (d.desc i).next
    match d.freeDesc i with
    | none => none
    | some d => if flag % 2 = fNext then Disk.freeChain fuel d nxt else some d

/-- `free_desc` on what a failed `alloc3_desc` has got so far. -/
def Disk.freeAll (d : Disk) : List Nat → Option Disk
  | [] => some d
  | i :: is =>
    match d.freeDesc i with
    | none => none
    | some d => d.freeAll is

/-- What `alloc3_desc` returns: the three descriptors, or -1. -/
inductive Alloc3 where
  | ok (i j k : Nat) (d : Disk)
  | failed (d : Disk)
  | panicked

/-- The loop of `alloc3_desc` with `n` descriptors to go and `idx` allocated, the last first. -/
def Disk.alloc3From (d : Disk) : Nat → List Nat → Alloc3
  | 0, k :: j :: i :: _ => .ok i j k d
  | 0, _ => .panicked
  | n + 1, idx =>
    match d.allocDesc with
    | some (i, d) => d.alloc3From n (i :: idx)
    | none =>
      match d.freeAll idx.reverse with
      | some d => .failed d
      | none => .panicked

/-- `alloc3_desc`. -/
def Disk.alloc3Desc (d : Disk) : Alloc3 := d.alloc3From 3 []

/-! ### Requests -/

/-- `b->blockno * (BSIZE / 512)`, an `uint`. -/
def sectorOf (blockno : Nat) : Nat := blockno * (bsize / 512) % 2 ^ 32

/-- The three descriptors, the command and `disk.info` of a request. -/
def Disk.format (d : Disk) (b : Buf) (blockno : Nat) (write : Bool) (i j k : Nat) : Disk :=
  let ops := update d.ops i { write := write, sector := sectorOf blockno }
  let desc := update d.desc i { addr := .op i, len := 16, flags := fNext, next := j }
  let desc := update desc j
    { addr := .data b, len := bsize, flags := (if write then 0 else fWrite) + fNext, next := k }
  let desc := update desc k { addr := .status i, len := 1, flags := fWrite, next := 0 }
  { d with ops := ops, desc := desc, info := update d.info i { b := some b, status := 0xff } }

/-- `disk.info[i].b = NULL`. -/
def Disk.forget (d : Disk) (i : Nat) : Disk :=
  { d with info := update d.info i { d.info i with b := none } }

/-- A chain as the device reads it: from its head along `next` as long as `VRING_DESC_F_NEXT` is set. -/
def walk (desc : Nat → Desc) : Nat → Nat → List Nat
  | 0, _ => []
  | fuel + 1, i => i :: if (desc i).flags % 2 = fNext then walk desc fuel (desc i).next else []

/-- A request that the device has taken: the head of its chain, and the memory that its descriptors name. -/
structure Req where
  head : Nat
  addrs : List Addr
  deriving DecidableEq

/-- The request that the device finds at a head. -/
def Disk.request (d : Disk) (head : Nat) : Req where
  head := head
  addrs := (walk d.desc num head).map fun i => (d.desc i).addr

/-- The device writes 0 to the status byte of a request. -/
def Disk.writeStatus (d : Disk) (r : Req) : Disk :=
  match r.addrs.getLast? with
  | some (.status i) => { d with info := update d.info i { d.info i with status := 0 } }
  | _ => d

/-! ### The system -/

/-- Where a process is in `virtio_disk_rw`. -/
inductive Pc where
  | out
  | alloc (b : Buf) (write : Bool)
  /-- Asleep on `&disk.free[0]`, and asleep on the buffer. -/
  | sleepFree (b : Buf) (write : Bool)
  | fill (b : Buf) (write : Bool) (i j k : Nat)
  /-- Before the slot of the avail ring is written, and before `avail->idx` is incremented. -/
  | ring (b : Buf) (i j k : Nat)
  | bump (b : Buf) (i j k : Nat)
  /-- At `while (b->disk == 1)`. -/
  | test (b : Buf) (i j k : Nat)
  | sleepBuf (b : Buf) (i j k : Nat)
  deriving DecidableEq

inductive Holder where
  | proc (p : Pid)
  /-- `virtio_disk_intr`, on some CPU. -/
  | intr
  deriving DecidableEq

structure State where
  disk : Disk
  /-- `b->disk`. -/
  busy : Buf → Bool
  blockno : Buf → Nat
  /-- The process that holds `b->lock`. -/
  owner : Buf → Option Pid
  /-- `vdisk_lock`. -/
  lock : Option Holder
  pc : Pid → Pc
  /-- The device: how far it has read the avail ring, and what it is working on. -/
  seen : Nat
  pending : List Req
  panicked : Bool
  /-- History: the heads that the driver has published and that the device has taken; the requests that the
  device has completed, and what `virtio_disk_intr` has made of them, a head and the buffer it has cleared. -/
  published : List Nat
  taken : List Nat
  completed : List Req
  cleared : List (Nat × Option Buf)

/-- After `virtio_disk_init`. -/
def init (blockno : Buf → Nat) : State where
  disk :=
    { desc := fun _ => .zero, availRing := fun _ => 0, availIdx := 0, usedRing := fun _ => 0, deviceIdx := 0
      free := fun _ => true, usedIdx := 0, info := fun _ => { b := none, status := 0 }
      ops := fun _ => { write := false, sector := 0 } }
  busy := fun _ => false
  blockno := blockno
  owner := fun _ => none
  lock := none
  pc := fun _ => .out
  seen := 0
  pending := []
  panicked := false
  published := []
  taken := []
  completed := []
  cleared := []

def State.setPc (s : State) (p : Pid) (pc : Pc) : State := { s with pc := update s.pc p pc }

inductive Event where
  /-- `acquiresleep(&b->lock)`, `releasesleep(&b->lock)`, and a buffer that `bget` recycles. -/
  | lockBuf (p : Pid) (b : Buf)
  | unlockBuf (p : Pid) (b : Buf)
  | recycle (b : Buf) (blockno : Nat)
  /-- `virtio_disk_rw(b, write)`, called by `bread` or `bwrite`. -/
  | rw (p : Pid) (b : Buf) (write : Bool)
  | run (p : Pid)
  /-- `virtio_disk_intr`: the entry, a round of the loop and the return. -/
  | intr
  | intrNext
  | intrRet
  /-- The device takes the next chain, and completes the `n`-th of those it has. -/
  | take
  | complete (n : Nat)
  deriving DecidableEq

/-- The next step of a process in `virtio_disk_rw`. -/
def stepRun (s : State) (p : Pid) : Option State :=
  match s.pc p with
  | .out => none
  | .alloc b write =>
    match s.disk.alloc3Desc with
    | .ok i j k d => some ({ s with disk := d }.setPc p (.fill b write i j k))
    | .failed d => some ({ s with disk := d, lock := none }.setPc p (.sleepFree b write))
    | .panicked => some { s with panicked := true }
  | .sleepFree b write =>
    if s.lock = none then some ({ s with lock := some (.proc p) }.setPc p (.alloc b write)) else none
  | .fill b write i j k =>
    some ({ s with
      disk := s.disk.format b (s.blockno b) write i j k, busy := update s.busy b true }.setPc p
        (.ring b i j k))
  | .ring b i j k =>
    some ({ s with
      disk := { s.disk with
        availRing := update s.disk.availRing (s.disk.availIdx % num) i } }.setPc p (.bump b i j k))
  | .bump b i j k =>
    some ({ s with
      disk := { s.disk with availIdx := (s.disk.availIdx + 1) % idxMod }
      published := s.published ++ [i] }.setPc p (.test b i j k))
  | .test b i j k =>
    if s.busy b then some ({ s with lock := none }.setPc p (.sleepBuf b i j k))
    else
      match (s.disk.forget i).freeChain num i with
      | some d => some ({ s with disk := d, lock := none }.setPc p .out)
      | none => some { s with panicked := true }
  | .sleepBuf b i j k =>
    if s.lock = none then some ({ s with lock := some (.proc p) }.setPc p (.test b i j k)) else none

/-- A round of the loop of `virtio_disk_intr`. -/
def stepIntr (s : State) : State :=
  let id := s.disk.usedRing (s.disk.usedIdx % num)
  if (s.disk.info id).status ≠ 0 then { s with panicked := true }
  else
    { s with
      busy := match (s.disk.info id).b with
        | some b => update s.busy b false
        | none => s.busy
      disk := { s.disk with usedIdx := (s.disk.usedIdx + 1) % idxMod }
      cleared := s.cleared ++ [(id, (s.disk.info id).b)] }

def step (s : State) : Event → Option State
  | .lockBuf p b => if s.owner b = none then some { s with owner := update s.owner b (some p) } else none
  | .unlockBuf p b =>
    if s.owner b = some p ∧ s.pc p = .out then some { s with owner := update s.owner b none } else none
  | .recycle b blockno =>
    if s.owner b = none then some { s with blockno := update s.blockno b blockno } else none
  | .rw p b write =>
    if s.owner b = some p ∧ s.pc p = .out ∧ s.lock = none then
      some ({ s with lock := some (.proc p) }.setPc p (.alloc b write))
    else none
  | .run p => stepRun s p
  | .intr => if s.lock = none then some { s with lock := some .intr } else none
  | .intrNext =>
    if s.lock = some .intr ∧ s.disk.usedIdx ≠ s.disk.deviceIdx then some (stepIntr s) else none
  | .intrRet =>
    if s.lock = some .intr ∧ s.disk.usedIdx = s.disk.deviceIdx then some { s with lock := none } else none
  | .take =>
    if s.seen ≠ s.disk.availIdx then
      some { s with
        seen := (s.seen + 1) % idxMod
        pending := s.pending ++ [s.disk.request (s.disk.availRing (s.seen % num))]
        taken := s.taken ++ [s.disk.availRing (s.seen % num)] }
    else none
  | .complete n =>
    match s.pending[n]? with
    | some r =>
      some { s with
        disk := { s.disk.writeStatus r with
          usedRing := update s.disk.usedRing (s.disk.deviceIdx % num) r.head
          deviceIdx := (s.disk.deviceIdx + 1) % idxMod }
        pending := s.pending.eraseIdx n
        completed := s.completed ++ [r] }
    | none => none

end Xv6Armv8.Virtio
