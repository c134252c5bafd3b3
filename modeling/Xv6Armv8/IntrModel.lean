import Xv6Armv8.LibRun

/-! Interrupt masking across locks, context switches and traps: `push_off`, `pop_off`, `scheduler`,
`sched` and `forkret` of the kernel, with the entries and exits of `trapasm.S`. A CPU is either in
its `scheduler` loop or runs the kernel thread or the user code of one process. What a handler does
between its entry and its return is any sequence of `acquire`, `release` and `sched`, which is all
of it that touches the interrupt state; any number of CPUs interleave, one event at a time. -/

namespace Xv6Armv8.Intr

open Function

abbrev Cid := Nat
abbrev Pid := Nat

def nproc : Nat := 64

inductive Procstate where
  | unused
  | used
  | sleeping
  | runnable
  | running
  | zombie
  deriving DecidableEq

/-- An activation on the kernel stack of a process. -/
inductive Frame where
  /-- `forkret`, before and after it has released `p->lock`. -/
  | forkretEntry
  | forkret
  /-- A synchronous exception taken at EL0 (`svcintr`, or `defintr`, which ends in `exit`) and an IRQ
  taken at EL0. -/
  | svc
  | irq0
  /-- An IRQ taken at EL1. -/
  | irq1
  /-- `el0_load_trap_frame_and_ret`, and whether it was entered from `forkret`. -/
  | ret (fork : Bool)
  deriving DecidableEq

/-- A process and its kernel thread. -/
structure Thread where
  state : Procstate
  /-- The activations, the innermost first; none in user mode. -/
  frames : List Frame
  /-- The calls of `push_off` that the innermost activation has not undone. -/
  depth : Nat
  /-- Whether the thread is in the `swtch` of `sched`, and the `intena` it keeps there. -/
  parked : Bool
  intena : Bool
  /-- History: whether the CPU that ran the thread first had interrupts on when it took `p->lock`. -/
  forkOn : Bool

/-- Where a CPU is in `scheduler`. -/
inductive Pos where
  | top
  | scan (i : Pid)
  | locked (i : Pid)
  | inProc (i : Pid)
  | back (i : Pid)
  deriving DecidableEq

structure Cpu where
  /-- PSTATE.I. -/
  masked : Bool
  noff : Nat
  intena : Bool
  proc : Option Pid
  pos : Pos
  /-- Whether an IRQ handler runs on top of `scheduler`. -/
  irq : Bool

structure State where
  cpu : Cid → Cpu
  thread : Pid → Thread
  /-- The CPU that holds `p->lock`. -/
  lock : Pid → Option Cid
  panicked : Option String

def noThread : Thread where
  state := .unused
  frames := []
  depth := 0
  parked := false
  intena := false
  forkOn := false

/-- A process as `allocproc` leaves it: it will start in `forkret`, holding `p->lock`. -/
def newThread : Thread :=
  { noThread with state := .used, frames := [.forkretEntry], depth := 1 }

/-- Every CPU is about to enter the loop of `scheduler`; `userinit` has made the first process. -/
def boot : State where
  cpu := fun _ =>
    { masked := true, noff := 0, intena := false, proc := none, pos := .top, irq := false }
  thread := fun i => if i = 0 then { newThread with state := .runnable } else noThread
  lock := fun _ => none
  panicked := none

/-! ### spinlock.c -/

def pushOff (k : Cpu) : Cpu :=
  { k with
    masked := true, intena := if k.noff = 0 then !k.masked else k.intena, noff := k.noff + 1 }

def popOff (k : Cpu) : Except String Cpu :=
  if k.masked = false then .error "pop_off - interruptible"
  else if k.noff < 1 then .error "pop_off"
  else .ok { k with
    noff := k.noff - 1, masked := if k.noff - 1 = 0 ∧ k.intena = true then false else true }

def State.setCpu (s : State) (c : Cid) (k : Cpu) : State :=
  { s with cpu := update s.cpu c k }

def State.setThread (s : State) (i : Pid) (t : Thread) : State :=
  { s with thread := update s.thread i t }

def State.setLock (s : State) (i : Pid) (o : Option Cid) : State :=
  { s with lock := update s.lock i o }

def State.panic (s : State) (msg : String) : State := { s with panicked := some msg }

/-- `pop_off` on a CPU and what follows it. -/
def State.pop (s : State) (c : Cid) (k : Cpu → State) : State :=
  match popOff (s.cpu c) with
  | .ok cpu => k cpu
  | .error msg => s.panic msg

/-- `acquire(&proc[i].lock)` on a CPU that gets the lock; `none` while another CPU holds it. -/
def State.acquire (s : State) (c : Cid) (i : Pid) (k : Cpu → State) : Option State :=
  match s.lock i with
  | none => some ((k (pushOff (s.cpu c))).setLock i (some c))
  | some c' => if c' = c then some (s.panic "acquire") else none

/-- `release(&proc[i].lock)`. -/
def State.release (s : State) (c : Cid) (i : Pid) (k : Cpu → State) : State :=
  if s.lock i ≠ some c then s.panic "release" else s.pop c fun cpu => (k cpu).setLock i none

/-! ### proc.c -/

/-- The next place of the scan over `proc[]`. -/
def next (i : Pid) : Pos := if i + 1 < nproc then .scan (i + 1) else .top

/-- `scheduler` has found `proc[i]` runnable: it switches to its page table, which takes and drops
one `push_off`, and then to its thread, which goes on in `forkret` or behind the `swtch` of
`sched`. -/
def dispatch (s : State) (c : Cid) (i : Pid) : State :=
  match popOff (pushOff (s.cpu c)) with
  | .error msg => s.panic msg
  | .ok k =>
    let t := s.thread i
    if t.parked then
      (s.setCpu c { k with proc := some i, pos := .inProc i, intena := t.intena }).setThread i
        { t with state := .running, parked := false }
    else
      (s.setCpu c { k with proc := some i, pos := .inProc i }).setThread i
        { t with state := .running, forkOn := k.intena }

/-- `sched`, up to the `swtch` into the scheduler of the CPU. -/
def sched (s : State) (c : Cid) (i : Pid) : State :=
  let k := s.cpu c
  let t := s.thread i
  if s.lock i ≠ some c then s.panic "sched p->lock"
  else if k.noff ≠ 1 then s.panic "sched locks"
  else if t.state = .running then s.panic "sched running"
  else if k.masked = false then s.panic "sched interruptible"
  else (s.setCpu c { k with pos := .back i }).setThread i { t with parked := true, intena := k.intena }

/-! ### Events -/

inductive Event where
  /-- The scheduler of a CPU. -/
  | intrOn (c : Cid)
  | schedAcquire (c : Cid)
  | schedSkip (c : Cid)
  | dispatch (c : Cid)
  | schedBack (c : Cid)
  /-- An IRQ taken in the scheduler, the locks of its handler and its return. -/
  | schedIrq (c : Cid)
  | schedIrqAcquire (c : Cid)
  | schedIrqRelease (c : Cid)
  | schedIrqRet (c : Cid)
  /-- The process on a CPU: traps, locks, `sched`, returns. -/
  | forkretRelease (c : Cid)
  | svc (c : Cid)
  | irqUser (c : Cid)
  | irqKernel (c : Cid)
  | acquire (c : Cid)
  | release (c : Cid)
  | acquireSelf (c : Cid)
  | setState (c : Cid) (st : Procstate)
  | releaseSelf (c : Cid)
  | sched (c : Cid)
  | handlerRet (c : Cid)
  | eret (c : Cid)
  /-- `allocproc`, the end of `fork`, `wakeup` or `kill`, and `freeproc`, each in one critical section
  of `p->lock`. -/
  | alloc (i : Pid)
  | start (i : Pid)
  | wake (i : Pid)
  | free (i : Pid)

/-- The frames in which the kernel runs C code. -/
def inCode : List Frame → Bool
  | .svc :: _ | .irq0 :: _ | .irq1 :: _ | .forkret :: _ => true
  | _ => false

/-- The steps of `scheduler` and of the IRQ handlers on top of it. -/
def stepSched (s : State) : Event → Option State
  | .intrOn c =>
    let k := s.cpu c
    if k.pos = .top ∧ k.irq = false then some (s.setCpu c { k with masked := false, pos := .scan 0 })
    else none
  | .schedAcquire c =>
    let k := s.cpu c
    match k.pos with
    | .scan i =>
      if k.irq = false then s.acquire c i fun k => s.setCpu c { k with pos := .locked i } else none
    | _ => none
  | .schedSkip c =>
    match (s.cpu c).pos with
    | .locked i =>
      if (s.cpu c).irq = false ∧ (s.thread i).state ≠ .runnable then
        some (s.release c i fun k => s.setCpu c { k with pos := next i })
      else none
    | _ => none
  | .dispatch c =>
    match (s.cpu c).pos with
    | .locked i =>
      if (s.cpu c).irq = false ∧ (s.thread i).state = .runnable then some (dispatch s c i) else none
    | _ => none
  | .schedBack c =>
    match (s.cpu c).pos with
    | .back i =>
      if (s.cpu c).irq = false then
        some (s.release c i fun k => s.setCpu c { k with proc := none, pos := next i })
      else none
    | _ => none
  | .schedIrq c =>
    let k := s.cpu c
    match k.pos with
    | .inProc _ => none
    | _ =>
      if k.masked = false ∧ k.irq = false then some (s.setCpu c { k with masked := true, irq := true })
      else none
  | .schedIrqAcquire c =>
    if (s.cpu c).irq = true then some (s.setCpu c (pushOff (s.cpu c))) else none
  | .schedIrqRelease c =>
    if (s.cpu c).irq = true ∧ (s.cpu c).noff ≠ 0 then some (s.pop c fun k => s.setCpu c k) else none
  | .schedIrqRet c =>
    let k := s.cpu c
    if k.irq = true ∧ k.noff = 0 then some (s.setCpu c { k with masked := false, irq := false })
    else none
  | _ => none

/-- The steps of the process `i` that runs on `c`. -/
def stepProc (s : State) (c : Cid) (i : Pid) : Event → Option State
  | .forkretRelease _ =>
    let t := s.thread i
    if t.frames = [.forkretEntry] then
      some (s.release c i fun k =>
        (s.setCpu c k).setThread i { t with frames := [.forkret], depth := t.depth - 1 })
    else none
  | .svc _ =>
    let t := s.thread i
    if t.frames = [] then
      some ((s.setCpu c { s.cpu c with masked := true }).setThread i { t with frames := [.svc] })
    else none
  | .irqUser _ =>
    let t := s.thread i
    if t.frames = [] ∧ (s.cpu c).masked = false then
      some ((s.setCpu c { s.cpu c with masked := true }).setThread i { t with frames := [.irq0] })
    else none
  | .irqKernel _ =>
    let t := s.thread i
    if t.frames ≠ [] ∧ (s.cpu c).masked = false then
      some ((s.setCpu c { s.cpu c with masked := true }).setThread i { t with frames := .irq1 :: t.frames })
    else none
  | .acquire _ =>
    let t := s.thread i
    if inCode t.frames then
      some ((s.setCpu c (pushOff (s.cpu c))).setThread i { t with depth := t.depth + 1 })
    else none
  | .release _ =>
    let t := s.thread i
    if inCode t.frames ∧ (if s.lock i = some c then 1 else 0) < t.depth then
      some (s.pop c fun k => (s.setCpu c k).setThread i { t with depth := t.depth - 1 })
    else none
  | .acquireSelf _ =>
    let t := s.thread i
    if inCode t.frames then
      s.acquire c i fun k => (s.setCpu c k).setThread i { t with depth := t.depth + 1 }
    else none
  | .setState _ st =>
    let t := s.thread i
    if inCode t.frames ∧ s.lock i = some c ∧ (st = .runnable ∨ st = .sleeping ∨ st = .zombie) then
      some (s.setThread i { t with state := st })
    else none
  | .releaseSelf _ =>
    let t := s.thread i
    if inCode t.frames ∧ t.state = .running ∧ 0 < t.depth then
      some (s.release c i fun k => (s.setCpu c k).setThread i { t with depth := t.depth - 1 })
    else none
  | .sched _ => if inCode (s.thread i).frames then some (sched s c i) else none
  | .handlerRet _ =>
    let t := s.thread i
    if t.depth = 0 ∧ t.state = .running then
      match t.frames with
      | [.svc] | [.irq0] => some (s.setThread i { t with frames := [.ret false] })
      | [.forkret] => some (s.setThread i { t with frames := [.ret true] })
      | .irq1 :: rest =>
        -- el1_load_trap_frame_and_ret restores the PSTATE that the IRQ found
        some ((s.setCpu c { s.cpu c with masked := false }).setThread i { t with frames := rest })
      | _ => none
    else none
  | .eret _ =>
    let t := s.thread i
    match t.frames with
    | [.ret _] =>
      some ((s.setCpu c { s.cpu c with masked := false }).setThread i { t with frames := [] })
    | _ => none
  | _ => none

/-- The steps other processes take on the slot `i`. -/
def stepTable (s : State) : Event → Option State
  | .alloc i =>
    if s.lock i = none ∧ (s.thread i).state = .unused then some (s.setThread i newThread) else none
  | .start i =>
    if s.lock i = none ∧ (s.thread i).state = .used then
      some (s.setThread i { s.thread i with state := .runnable })
    else none
  | .wake i =>
    if s.lock i = none ∧ (s.thread i).state = .sleeping then
      some (s.setThread i { s.thread i with state := .runnable })
    else none
  | .free i =>
    if s.lock i = none ∧ ((s.thread i).state = .zombie ∨ (s.thread i).state = .used) then
      some (s.setThread i noThread)
    else none
  | _ => none

/-- The CPU whose process takes the step. -/
def Event.onProc : Event → Option Cid
  | .forkretRelease c | .svc c | .irqUser c | .irqKernel c | .acquire c | .release c | .acquireSelf c
  | .setState c _ | .releaseSelf c | .sched c | .handlerRet c | .eret c => some c
  | _ => none

def Event.onTable : Event → Bool
  | .alloc _ | .start _ | .wake _ | .free _ => true
  | _ => false

def step (s : State) (e : Event) : Option State :=
  if s.panicked.isSome then none
  else if e.onTable then stepTable s e
  else match e.onProc with
    | some c =>
      match (s.cpu c).pos with
      | .inProc i => stepProc s c i e
      | _ => none
    | none => stepSched s e

end Xv6Armv8.Intr
