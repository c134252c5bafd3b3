import Xv6Armv8.LibDlist
import Xv6Armv8.LogModel

/-! The buffer cache of `kernel/bio.c` under its users. The cache is the array of buffers with the list through
them; one event is one critical section of `bcache.lock` or of `log.lock`, or one thing that is done to a buffer
whose sleep lock is held, so that the users interleave everywhere they can. A use of a buffer is one call of `bread`
up to the end of the `brelse` that gives the buffer back; a process may have several. Of the log there is what the
cache depends on: which blocks are in the header, and how far the commit has installed them. -/

namespace Xv6Armv8.Bio

open Function

def nbuf : Nat := Log.maxOpBlocks * 3

/-- The place of `bcache.head`, behind the buffers. -/
def head : Nat := nbuf

structure Buf (D : Type*) where
  valid : Bool
  dev : Nat
  blockno : Nat
  refcnt : Nat
  /-- The use that holds `b->lock`. -/
  lock : Option Nat
  data : D

structure Bcache (D : Type*) where
  buf : Nat → Buf D
  next : Nat → Nat
  prev : Nat → Nat

variable {D : Type*}

def Bcache.set (c : Bcache D) (i : Nat) (b : Buf D) : Bcache D := { c with buf := update c.buf i b }

/-- Whether the buffer is the one for the block. -/
def Buf.caches (b : Buf D) (dev blockno : Nat) : Bool := b.dev == dev && b.blockno == blockno

/-- The memory of the cache before `binit`. -/
def bss (zero : D) : Bcache D where
  buf := fun _ => ⟨false, 0, 0, 0, none, zero⟩
  next := fun _ => 0
  prev := fun _ => 0

/-- One turn of the loop of `binit`. -/
def Bcache.insert (c : Bcache D) (b : Nat) : Bcache D :=
  let links := Dlist.link c.next c.prev head b
  { c.set b { c.buf b with lock := none } with next := links.1, prev := links.2 }

def binit (c : Bcache D) : Bcache D :=
  (List.range nbuf).foldl Bcache.insert
    { c with next := update c.next head head, prev := update c.prev head head }

/-- The critical section of `bget`: the buffer and the cache afterwards, or the panic "no buffers". -/
def bget (c : Bcache D) (dev blockno : Nat) : Option (Nat × Bcache D) :=
  match Dlist.scan c.next head (fun b => (c.buf b).caches dev blockno) (nbuf + 1) (c.next head) with
  | some b => some (b, c.set b { c.buf b with refcnt := (c.buf b).refcnt + 1 })
  | none =>
    match Dlist.scan c.prev head (fun b => (c.buf b).refcnt == 0) (nbuf + 1) (c.prev head) with
    | some b => some (b, c.set b { c.buf b with dev := dev, blockno := blockno, valid := false, refcnt := 1 })
    | none => none

/-- The critical section of `brelse`. -/
def brelse (c : Bcache D) (b : Nat) : Bcache D :=
  let c := c.set b { c.buf b with refcnt := (c.buf b).refcnt - 1 }
  if (c.buf b).refcnt = 0 then
    let links := Dlist.unlink c.next c.prev b
    let links := Dlist.link links.1 links.2 head b
    { c with next := links.1, prev := links.2 }
  else c

def bpin (c : Bcache D) (b : Nat) : Bcache D := c.set b { c.buf b with refcnt := (c.buf b).refcnt + 1 }

def bunpin (c : Bcache D) (b : Nat) : Bcache D := c.set b { c.buf b with refcnt := (c.buf b).refcnt - 1 }

/-! ### The users -/

/-- What the holder of a buffer has done to the data since `bread` returned it. -/
inductive Work where
  /-- Nothing. -/
  | same
  /-- It has changed them, and neither logged nor written them since. -/
  | dirty
  | logged
  | written
  deriving DecidableEq

inductive Stage where
  /-- In `acquiresleep(&b->lock)` of `bget`. -/
  | waiting
  /-- In `virtio_disk_rw(b, 0)` of `bread`. -/
  | reading
  /-- Between `bread` and `brelse`. -/
  | holding (w : Work)
  /-- In `brelse`, behind `releasesleep`. -/
  | leaving
  | over
  deriving DecidableEq

/-- Whether the use has the sleep lock. -/
def Stage.owns : Stage → Bool
  | .reading | .holding _ => true
  | _ => false

structure Use where
  buf : Nat
  stage : Stage
  deriving DecidableEq

structure State (D : Type*) where
  bcache : Bcache D
  disk : Nat → Nat → D
  /-- The calls of `bread` so far, in their order. -/
  uses : List Use
  /-- History: the blocks those calls ask for. -/
  asked : List (Nat × Nat)
  lh : List Nat
  /-- The blocks of the header `install_trans` is done with. -/
  installed : Nat
  outstanding : Nat
  committing : Bool
  /-- History: what the last user to release a block left in it, and the disk's contents where there was none. -/
  content : Nat → Nat → D

def State.buf (s : State D) (i : Nat) : Buf D := s.bcache.buf i

def State.goto (s : State D) (n i : Nat) (st : Stage) : State D := { s with uses := s.uses.set n ⟨i, st⟩ }

def State.setBuf (s : State D) (i : Nat) (b : Buf D) : State D := { s with bcache := s.bcache.set i b }

/-- What the user of a buffer does next. -/
inductive Act (D : Type*) where
  | lock
  | read
  | modify (d : D)
  | bwrite
  | logWrite
  | bunpin
  | unlock
  | brelse

inductive Event (D : Type*) where
  | bget (dev blockno : Nat)
  | use (n : Nat) (a : Act D)
  | beginOp
  | endOp
  | clear
  | finish

/-- `f` with a new value for one block. -/
def setBlock (f : Nat → Nat → D) (b : Buf D) (d : D) : Nat → Nat → D :=
  update f b.dev (update (f b.dev) b.blockno d)

/-- The end of `log_write`: a block that is not in the header yet is added to it and its buffer pinned. -/
def logWrite (s : State D) (i : Nat) : State D :=
  if s.lh.idxOf (s.buf i).blockno = s.lh.length then
    { s with lh := Log.absorb s.lh (s.buf i).blockno, bcache := bpin s.bcache i }
  else { s with lh := Log.absorb s.lh (s.buf i).blockno }

/-- The user `n` of buffer `i` goes on from a stage. `bwrite` and `brelse` panic without the lock; `log_write` panics
if the header is full or no operation is running; `bunpin` is called by `install_trans`, after the `bwrite`, for the
blocks of the header in their order. -/
def stepUse (c : Log.Cfg) (dev : Nat) (s : State D) (n i : Nat) : Stage → Act D → Option (State D)
  | .waiting, .lock =>
    if (s.buf i).lock = none then
      some ((s.setBuf i { s.buf i with lock := some n }).goto n i
        (if (s.buf i).valid then .holding .same else .reading))
    else none
  | .reading, .read =>
    some ((s.setBuf i { s.buf i with data := s.disk (s.buf i).dev (s.buf i).blockno, valid := true }).goto n i
      (.holding .same))
  | .holding _, .modify d => some ((s.setBuf i { s.buf i with data := d }).goto n i (.holding .dirty))
  | .holding _, .bwrite =>
    if (s.buf i).lock = some n then
      some { s.goto n i (.holding .written) with disk := setBlock s.disk (s.buf i) (s.buf i).data }
    else none
  | .holding _, .logWrite =>
    if (s.lh.length ≥ Log.logSize ∨ s.lh.length ≥ c.size - 1) ∨ s.outstanding < 1 then none
    else some ((logWrite s i).goto n i (.holding .logged))
  | .holding .written, .bunpin =>
    if s.committing ∧ (s.buf i).dev = dev ∧ s.lh[s.installed]? = some (s.buf i).blockno then
      some { s.goto n i (.holding .written) with
        bcache := bunpin s.bcache i, installed := s.installed + 1 }
    else none
  | .holding _, .unlock =>
    if (s.buf i).lock = some n then
      some { (s.setBuf i { s.buf i with lock := none }).goto n i .leaving with
        content := setBlock s.content (s.buf i) (s.buf i).data }
    else none
  | .leaving, .brelse => some { s.goto n i .over with bcache := brelse s.bcache i }
  | _, _ => none

/-- One event; `dev` is `log.dev`. `begin_op` waits while a commit is under way, and the last `end_op` starts one. -/
def step (c : Log.Cfg) (dev : Nat) (s : State D) : Event D → Option (State D)
  | .bget d b =>
    (bget s.bcache d b).map fun r =>
      { s with bcache := r.2, uses := s.uses ++ [⟨r.1, .waiting⟩], asked := s.asked ++ [(d, b)] }
  | .use n a => s.uses[n]?.bind fun u => stepUse c dev s n u.buf u.stage a
  | .beginOp =>
    if s.committing ∨ s.lh.length + (s.outstanding + 1) * Log.maxOpBlocks > Log.logSize then none
    else some { s with outstanding := s.outstanding + 1 }
  | .endOp =>
    if s.outstanding = 0 ∨ s.committing then none
    else some { s with outstanding := s.outstanding - 1, committing := s.outstanding - 1 = 0 }
  | .clear =>
    if s.committing ∧ s.installed = s.lh.length then some { s with lh := [], installed := 0 } else none
  | .finish => if s.committing ∧ s.lh = [] then some { s with committing := false } else none

def boot (zero : D) (disk : Nat → Nat → D) : State D where
  bcache := binit (bss zero)
  disk := disk
  uses := []
  asked := []
  lh := []
  installed := 0
  outstanding := 0
  committing := false
  content := disk

/-- The steps as the file system and the log issue them: no block of device 0 is read, only blocks of the file
system's device are logged, and whoever has changed the data logs or writes it before it gives the buffer back. -/
def Issued (dev : Nat) (s : State D) : Event D → Prop
  | .bget d _ => d ≠ 0
  | .use n .logWrite => ∀ u ∈ s.uses[n]?, (s.buf u.buf).dev = dev
  | .use n .unlock => ∀ u ∈ s.uses[n]?, u.stage ≠ .holding .dirty
  | _ => True

instance (dev : Nat) (s : State D) : ∀ e, Decidable (Issued dev s e)
  | .bget _ _ => inferInstanceAs (Decidable (_ ≠ _))
  | .use _ .logWrite | .use _ .unlock => inferInstanceAs (Decidable (∀ _ ∈ _, _))
  | .use _ .lock | .use _ .read | .use _ (.modify _) | .use _ .bwrite | .use _ .bunpin | .use _ .brelse
  | .beginOp | .endOp | .clear | .finish => inferInstanceAs (Decidable True)

/-! ### What the cache is for -/

/-- The users of a buffer: those that have called `bread` and are not at the end of `brelse`. -/
def State.users (s : State D) (i : Nat) : Nat := s.uses.countP fun u => u.buf == i && u.stage != .over

/-- A block that was logged and that the commit has not installed. -/
def State.Logged (dev : Nat) (s : State D) (d b : Nat) : Prop := d = dev ∧ b ∈ s.lh.drop s.installed

instance (dev : Nat) (s : State D) (d b : Nat) : Decidable (s.Logged dev d b) :=
  inferInstanceAs (Decidable (_ ∧ _))

/-- Whether `b` is a logged block's buffer. -/
def State.Pinned (dev : Nat) (s : State D) (b : Buf D) : Prop := s.Logged dev b.dev b.blockno

instance (dev : Nat) (s : State D) (b : Buf D) : Decidable (s.Pinned dev b) :=
  inferInstanceAs (Decidable (s.Logged _ _ _))

end Xv6Armv8.Bio
