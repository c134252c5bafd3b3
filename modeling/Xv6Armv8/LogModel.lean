import Xv6Armv8.LibBytes
import Xv6Armv8.LibRun

/-! The redo log of `kernel/log.c` over the buffer cache and the disk. One event is one critical
section of `log.lock`, one use of a buffer, or one block write of `commit()` or of
`recover_from_log()`, so that a crash can fall between any two block writes and any two processes
can interleave. `bread` is the buffer cache as its callers see it: a cached block if there is one,
the disk otherwise; a buffer that nobody holds and that is not pinned may be recycled at any time. -/

namespace Xv6Armv8.Log

open ByteStore Function

abbrev Block := ByteStore
abbrev Pid := Nat

/-- The contents of all blocks of a disk. -/
abbrev Image := Nat → Block

def maxOpBlocks : Nat := 10
def logSize : Nat := maxOpBlocks * 3

/-- What `initlog` takes from the super block. The header is one of the `nlog` blocks. -/
structure Cfg where
  start : Nat
  size : Nat
  size_pos : 0 < size

/-- The log area `mkfs` lays out: `nlog = LOGSIZE` blocks from block 2. -/
def mkfsLog : Cfg := ⟨2, logSize, by decide⟩

/-- A block outside the log area. -/
def Cfg.IsHome (c : Cfg) (b : Nat) : Prop := b < c.start ∨ c.start + c.size ≤ b

instance (c : Cfg) (b : Nat) : Decidable (c.IsHome b) := by
  unfold Cfg.IsHome
  infer_instance

/-! ### The header block -/

/-- `lh->block[i] = log.lh.block[i]` for the entries from `i` on. -/
def putBlocks (blk : Block) : Nat → List Nat → Block
  | _, [] => blk
  | i, b :: bs => putBlocks (blk.st (4 + 4 * i) 4 b) (i + 1) bs

/-- The header buffer as `write_head` leaves it: `n` and the first `n` entries are set. -/
def putHead (blk : Block) (lh : List Nat) : Block := putBlocks (blk.st 0 4 lh.length) 0 lh

/-- The header `read_head` takes from its buffer. -/
def getHead (blk : Block) : List Nat :=
  (List.range (blk.ld 0 4)).map fun i => blk.ld (4 + 4 * i) 4

/-! ### The state -/

/-- Where a process is in `begin_op`, between `begin_op` and `end_op`, or in `commit`. -/
inductive Pc where
  | idle
  | beginning
  | sleeping
  | running
  | writeLog (tail : Nat)
  | writeHead
  | install (tail : Nat)
  | clearHead
  | committed
  deriving DecidableEq

/-- Whether the machine is down after a crash, in `recover_from_log`, up, or in `panic`. -/
inductive Mode where
  | down
  | recovering (tail : Nat)
  | up
  | panicked (msg : String)
  deriving DecidableEq

structure State where
  disk : Image
  /-- The valid buffers. -/
  cache : Nat → Option Block
  /-- The references `bpin` holds on a buffer. -/
  pin : Nat → Nat
  /-- The process between `bread` and `brelse` of a block. -/
  holder : Nat → Option Pid
  lh : List Nat
  outstanding : Nat
  committing : Bool
  pc : Pid → Pc
  mode : Mode
  /-- History: the distinct blocks a process logged since its `begin_op`. -/
  wrote : Pid → Finset Nat
  /-- History: the distinct blocks logged since the last commit. -/
  group : Finset Nat
  /-- History: the disk as the operations of the group that is being committed left it. -/
  pending : Image
  /-- History: the disk after each commit group whose header was written, the newest first; the
  last is the disk of the start. -/
  images : List Image

/-- The memory of a machine that has just booted: nothing cached, no process. -/
def State.reset (s : State) : State :=
  { s with
    cache := fun _ => none, pin := fun _ => 0, holder := fun _ => none, lh := [],
    outstanding := 0, committing := false, pc := fun _ => .idle, mode := .down,
    wrote := fun _ => ∅, group := ∅ }

/-- A disk before its first boot. -/
def initial (disk : Image) : State where
  disk := disk
  cache := fun _ => none
  pin := fun _ => 0
  holder := fun _ => none
  lh := []
  outstanding := 0
  committing := false
  pc := fun _ => .idle
  mode := .down
  wrote := fun _ => ∅
  group := ∅
  pending := disk
  images := [disk]

/-- The disk after the commit groups so far. -/
def State.image (s : State) : Image := s.images.headD fun _ _ => 0

def State.setPc (s : State) (p : Pid) (pc : Pc) : State := { s with pc := update s.pc p pc }

/-- The data `bread` returns. -/
def State.data (s : State) (b : Nat) : Block := (s.cache b).getD (s.disk b)

/-- `bread`: the block is cached afterwards. -/
def State.bread (s : State) (b : Nat) : State :=
  { s with cache := update s.cache b (some (s.data b)) }

/-- The data `d` is put into the buffer of `b`, which `bwrite` then writes to the disk. -/
def State.bwrite (s : State) (b : Nat) (d : Block) : State :=
  { s with cache := update s.cache b (some d), disk := update s.disk b d }

/-- `wakeup(&log)`. -/
def State.wakeup (s : State) : State :=
  { s with pc := fun p => if s.pc p = .sleeping then .beginning else s.pc p }

/-- `write_head`. -/
def writeHead (c : Cfg) (s : State) : State := s.bwrite c.start (putHead (s.data c.start) s.lh)

/-- One turn of the loop of `write_log`: the cached block goes to log block `tail`. -/
def writeLog (c : Cfg) (s : State) (tail : Nat) : State :=
  (s.bread (s.lh.getD tail 0)).bwrite (c.start + tail + 1) (s.data (s.lh.getD tail 0))

/-- One turn of the loop of `install_trans`: log block `tail` goes to its home block. -/
def installTrans (c : Cfg) (s : State) (tail : Nat) : State :=
  (s.bread (c.start + tail + 1)).bwrite (s.lh.getD tail 0) (s.data (c.start + tail + 1))

/-- `log.lh.n = 0; write_head()`. -/
def clearHead (c : Cfg) (s : State) : State := writeHead c { s with lh := [] }

/-- `bunpin` of the block at `tail`. -/
def unpin (s : State) (tail : Nat) : State :=
  { s with pin := update s.pin (s.lh.getD tail 0) (s.pin (s.lh.getD tail 0) - 1) }

/-- The test of `begin_op`, made again after each sleep. -/
def beginOp (s : State) (p : Pid) : State :=
  if s.committing then s.setPc p .sleeping
  else if s.lh.length + (s.outstanding + 1) * maxOpBlocks > logSize then s.setPc p .sleeping
  else { s.setPc p .running with
    outstanding := s.outstanding + 1, wrote := update s.wrote p ∅ }

/-- The scan of `log_write` for the block and the entry it then sets: `i` is the first entry that
holds `b`, or `n`, and in that case the header grows. -/
def absorb (lh : List Nat) (b : Nat) : List Nat :=
  if lh.idxOf b = lh.length then lh ++ [b] else lh.set (lh.idxOf b) b

def logWrite (c : Cfg) (s : State) (p : Pid) (b : Nat) : State :=
  if s.lh.length ≥ logSize ∨ s.lh.length ≥ c.size - 1 then
    { s with mode := .panicked "too big a transaction" }
  else if s.outstanding < 1 then { s with mode := .panicked "log_write outside of trans" }
  else { s with
    lh := absorb s.lh b
    pin := if s.lh.idxOf b = s.lh.length then update s.pin b (s.pin b + 1) else s.pin
    wrote := update s.wrote p (insert b (s.wrote p))
    group := insert b s.group }

/-- The disk as the running group would leave it: the logged blocks hold what is in the cache. -/
def State.grouped (s : State) : Image := fun b =>
  if b ∈ s.lh then s.data b else s.image b

/-- The first critical section of `end_op`. The last operation goes on to `commit`, which does
nothing when the header is empty. -/
def endOp (s : State) (p : Pid) : State :=
  if s.committing then { s with mode := .panicked "log.committing" }
  else if s.outstanding - 1 = 0 then
    { s.setPc p (if s.lh.length > 0 then .writeLog 0 else .committed) with
      outstanding := s.outstanding - 1, committing := true, pending := s.grouped }
  else { (s.setPc p .idle).wakeup with outstanding := s.outstanding - 1 }

/-- The second critical section of `end_op`. -/
def finish (s : State) (p : Pid) : State :=
  { (s.setPc p .idle).wakeup with committing := false, group := ∅ }

inductive Event where
  | beginOp (p : Pid)
  | beginTest (p : Pid)
  | bread (p : Pid) (b : Nat)
  | modify (p : Pid) (b : Nat) (d : Block)
  | logWrite (p : Pid) (b : Nat)
  | brelse (p : Pid) (b : Nat)
  | endOp (p : Pid)
  | writeLog (p : Pid)
  | writeHead (p : Pid)
  | install (p : Pid)
  | clearHead (p : Pid)
  | finish (p : Pid)
  | evict (b : Nat)
  | crash
  | readHead
  | recoverInstall
  | recoverClear

/-- Whether one of the buffers the commit step needs is locked by somebody else, for which the
committer sleeps in `bread`. -/
def State.free (s : State) (bs : List Nat) : Prop := ∀ b ∈ bs, s.holder b = none

instance (s : State) (bs : List Nat) : Decidable (s.free bs) := by
  unfold State.free
  infer_instance

/-- The events of the processes while the machine is up. -/
def stepUp (c : Cfg) (s : State) : Event → Option State
  | .beginOp p => if s.pc p = .idle then some (s.setPc p .beginning) else none
  | .beginTest p => if s.pc p = .beginning then some (beginOp s p) else none
  | .bread p b =>
    if (s.pc p = .idle ∨ s.pc p = .running) ∧ s.holder b = none ∧ b < 2 ^ 32 then
      some { s.bread b with holder := update s.holder b (some p) }
    else none
  | .modify p b d =>
    if s.pc p = .running ∧ s.holder b = some p then
      some { s with cache := update s.cache b (some d) }
    else none
  | .logWrite p b =>
    if s.pc p = .running ∧ s.holder b = some p then some (logWrite c s p b) else none
  | .brelse p b =>
    if s.holder b = some p then some { s with holder := update s.holder b none } else none
  | .endOp p => if s.pc p = .running then some (endOp s p) else none
  | .writeLog p =>
    match s.pc p with
    | .writeLog tail =>
      if s.free [c.start + tail + 1, s.lh.getD tail 0] then
        some ((writeLog c s tail).setPc p
          (if tail + 1 < s.lh.length then .writeLog (tail + 1) else .writeHead))
      else none
    | _ => none
  | .writeHead p =>
    if s.pc p = .writeHead ∧ s.free [c.start] then
      some { (writeHead c s).setPc p (.install 0) with images := s.pending :: s.images }
    else none
  | .install p =>
    match s.pc p with
    | .install tail =>
      if s.free [c.start + tail + 1, s.lh.getD tail 0] then
        some ((unpin (installTrans c s tail) tail).setPc p
          (if tail + 1 < s.lh.length then .install (tail + 1) else .clearHead))
      else none
    | _ => none
  | .clearHead p =>
    if s.pc p = .clearHead ∧ s.free [c.start] then
      some ((clearHead c s).setPc p .committed)
    else none
  | .finish p => if s.pc p = .committed then some (finish s p) else none
  | .evict b =>
    if s.holder b = none ∧ s.pin b = 0 then
      some { s with cache := update s.cache b none }
    else none
  | _ => none

/-- The steps of `recover_from_log`, which `initlog` runs before anything else. -/
def stepRecover (c : Cfg) (s : State) : Event → Option State
  | .readHead =>
    if s.mode = .down then
      some { s.bread c.start with lh := getHead (s.data c.start), mode := .recovering 0 }
    else none
  | .recoverInstall =>
    match s.mode with
    | .recovering tail =>
      if tail < s.lh.length then
        some { installTrans c s tail with mode := .recovering (tail + 1) }
      else none
    | _ => none
  | .recoverClear =>
    if s.mode = .recovering s.lh.length then some { clearHead c s with mode := .up } else none
  | _ => none

/-- One event. A crash may come at any time, also in a recovery and after a panic. -/
def step (c : Cfg) (s : State) : Event → Option State
  | .crash => some s.reset
  | e => if s.mode = .up then stepUp c s e else stepRecover c s e

/-- The disk `recover_from_log` leaves when nothing interrupts it. -/
def recoverFromLog (c : Cfg) (disk : Image) : Image :=
  let lh := getHead (disk c.start)
  let installed := (List.range lh.length).foldl
    (fun d tail => update d (lh.getD tail 0) (d (c.start + tail + 1))) disk
  update installed c.start (putHead (installed c.start) [])

end Xv6Armv8.Log
