import Xv6Armv8.IntrModel

/-! Processes: `scheduler`, `sched`, `sleep`, `wakeup`, `fork`, `exit`, `wait` and `kill`, with the sleep locks
on top of them, at the granularity of locks. A critical section of some `p->lock` in which nothing else is
locked is one step, taken when the lock is free; everything between two such sections is a place of its own, so
that any number of CPUs interleave there. `swtch` stores and loads one pair of registers a step. A spin lock
other than `p->lock` is held by a thread, since `sched` refuses to switch while the CPU holds a second lock. -/

namespace Xv6Armv8.Procs

open Function

open Intr (Procstate nproc)

abbrev Cid := Nat
/-- An index of `proc[]`. -/
abbrev Pid := Nat

/-- The slot of the first process. -/
def initproc : Pid := 0

/-- What `sleep` waits for: the address of a process, in `wait`, or of anything else. -/
inductive Chan where
  | proc (i : Pid)
  | obj (n : Nat)
  deriving DecidableEq

inductive Lk where
  | wait
  | obj (n : Nat)
  deriving DecidableEq

/-- Which spin lock goes with which condition, and which of the conditions is that of a sleep lock. -/
structure Cfg where
  lkOf : Nat → Nat
  sleepLock : Nat → Bool

def Cfg.lk (g : Cfg) : Chan → Lk
  | .proc _ => .wait
  | .obj n => .obj (g.lkOf n)

/-! ### Places -/

/-- Why a thread has called `sched`. -/
inductive Resume where
  | yield
  | sleep (ch : Chan) (killable : Bool)
  | exit
  deriving DecidableEq

/-- What follows a call of `wakeup`. -/
inductive After where
  | kern
  | going (ch : Chan) (killable : Bool)
  | exiting (status : Int) (k : Pid)
  | exitLock (status : Int)
  deriving DecidableEq

/-- Where the kernel thread of a process is. -/
inductive Pc where
  /-- The context that `allocproc` makes, and `forkret` before it releases `p->lock`. -/
  | fresh
  | forkret
  | user
  /-- Kernel code between the calls that follow. -/
  | kern
  /-- `sleep`, after the caller has found its condition false: before `killed`, where the caller asks for it;
  before `acquire(&p->lock)`; before `release(lk)`; before the state is set. -/
  | asking (ch : Chan)
  | going (ch : Chan) (killable : Bool)
  | commit (ch : Chan) (killable : Bool)
  | committed (ch : Chan) (killable : Bool)
  /-- `sched` before and in `swtch`, and behind it. -/
  | toSched (r : Resume)
  | parked (r : Resume)
  | resumed (r : Resume)
  /-- `sleep` before `acquire(lk)`. -/
  | relock (ch : Chan)
  /-- `wakeup` at slot `k`, and whether the caller has just made the condition true. -/
  | waking (ch : Chan) (k : Pid) (signal : Bool) (after : After)
  | killing (pid : Nat) (k : Pid)
  /-- `fork`: the search of `allocproc`, and the three stages behind it. -/
  | allocating (k : Pid)
  | forkCopy (k : Pid)
  | forkParent (k : Pid)
  | forkStart (k : Pid)
  /-- `wait`: the scan, and the test of `killed` behind it. -/
  | waiting (k : Pid) (havekids : Bool)
  | waitCheck
  /-- `exit`: the scan of `reparent`, before `acquire(&p->lock)` and before `release(&wait_lock)`. -/
  | exiting (status : Int) (k : Pid)
  | exitLock (status : Int)
  | exitRel
  deriving DecidableEq

def After.pc : After → Pc
  | .kern => .kern
  | .going ch killable => .going ch killable
  | .exiting status k => .exiting status k
  | .exitLock status => .exitLock status

/-- What a call of `wait` returns: -1, or a pid, with the status copied out. -/
inductive Ret where
  | failed
  | child (pid : Nat) (xstate : Int)
  deriving DecidableEq

/-- `struct proc`, the place of the kernel thread, and history. -/
structure Proc where
  state : Procstate
  chan : Option Chan
  killed : Bool
  xstate : Int
  pid : Nat
  parent : Option Pid
  pc : Pc
  /-- The pairs of registers in `p->context` that `swtch` has stored since the thread last ran. -/
  saved : Nat
  /-- What the calls of `wait` have returned, the last first. -/
  rets : List Ret
  /-- The sleep locks the process has taken. -/
  holds : Nat → Bool
  /-- History: the condition the process has last found false in order to sleep, and whether somebody has
  made it true and completed `wakeup` since. -/
  tested : Option Nat
  woken : Bool

inductive Holder where
  | proc (i : Pid)
  | sched (c : Cid)
  deriving DecidableEq

/-- Where a CPU is in `scheduler`; `inProc` is the code of a process, and `irq` a handler on top of the scan. -/
inductive Pos where
  | scan (i : Pid)
  | locked (i : Pid)
  | loading (i : Pid) (n : Nat)
  | inProc (i : Pid)
  | saving (i : Pid)
  | back (i : Pid)
  | irq (i : Pid) (pc : Pc)
  deriving DecidableEq

structure Cpu where
  proc : Option Pid
  pos : Pos

structure State where
  cpu : Cid → Cpu
  proc : Pid → Proc
  /-- The CPU that holds `p->lock`. -/
  lock : Pid → Option Cid
  klock : Lk → Option Holder
  nextpid : Nat
  /-- The conditions; that of a sleep lock is that it is free. -/
  cond : Nat → Bool

/-- The instructions `stp` and `ldp` of `swtch`. -/
def swtchPairs : Nat := 8

def noProc : Proc where
  state := .unused
  chan := none
  killed := false
  xstate := 0
  pid := 0
  parent := none
  pc := .fresh
  saved := 0
  rets := []
  holds := fun _ => false
  tested := none
  woken := false

/-- `userinit` has made the first process; every CPU is in its scheduler. -/
def boot (cond : Nat → Bool) : State where
  cpu := fun _ => { proc := none, pos := .scan 0 }
  proc := fun i =>
    if i = initproc then { noProc with state := .runnable, pid := 1, saved := swtchPairs } else noProc
  lock := fun _ => none
  klock := fun _ => none
  nextpid := 2
  cond := cond

def State.setCpu (s : State) (c : Cid) (k : Cpu) : State := { s with cpu := update s.cpu c k }

def State.upd (s : State) (i : Pid) (f : Proc → Proc) : State :=
  { s with proc := update s.proc i (f (s.proc i)) }

def State.setPc (s : State) (i : Pid) (pc : Pc) : State := s.upd i fun p => { p with pc := pc }

def State.setLock (s : State) (i : Pid) (o : Option Cid) : State :=
  { s with lock := update s.lock i o }

def State.setKlock (s : State) (lk : Lk) (o : Option Holder) : State :=
  { s with klock := update s.klock lk o }

def State.setCond (s : State) (n : Nat) (b : Bool) : State := { s with cond := update s.cond n b }

/-! ### Critical sections of `p->lock` -/

/-- `wakeup` at one slot. -/
def Proc.wake (p : Proc) (ch : Chan) : Proc :=
  if p.state = .sleeping ∧ p.chan = some ch then { p with state := .runnable } else p

/-- `kill` at the slot it looks for. -/
def Proc.kill (p : Proc) : Proc :=
  { p with killed := true, state := if p.state = .sleeping then .runnable else p.state }

/-- `freeproc`. -/
def Proc.free (p : Proc) : Proc :=
  { p with state := .unused, chan := none, killed := false, xstate := 0, pid := 0, parent := none }

/-- `allocproc` at the slot it has found; it leaves `p->killed` as it is. -/
def Proc.alloc (p : Proc) (pid : Nat) : Proc :=
  { p with
    state := .used, pid := pid, pc := .fresh, saved := swtchPairs, rets := [], holds := fun _ => false
    tested := none, woken := false }

/-! ### `wakeup` -/

/-- The end of a `wakeup` whose caller has made the condition true: everybody who waits for it has been passed. -/
def State.signalled (s : State) (ch : Chan) : State :=
  { s with proc := fun i =>
      if (s.proc i).tested.map Chan.obj = some ch then { s.proc i with woken := true } else s.proc i }

/-- One step of `wakeup(ch)` at slot `k`, called on a CPU with the process `me`; `next` and `done` are where the
caller goes on. -/
def stepWaking (s : State) (me : Option Pid) (ch : Chan) (k : Pid) (signal : Bool) (next done : State → State) :
    Option State :=
  if nproc ≤ k then some (done (if signal then s.signalled ch else s))
  else if me = some k then some (next s)
  else if s.lock k = none then some (next (s.upd k fun p => p.wake ch))
  else none

/-! ### The code of a process -/

/-- The calls a process makes in the kernel. -/
inductive Op where
  | ret
  | lock (lk : Lk)
  | unlock (lk : Lk)
  /-- The condition becomes false; it becomes true, and `wakeup` is called. -/
  | clear (n : Nat)
  | signal (n : Nat)
  | wakeup (ch : Chan)
  /-- The condition is false, and the process goes to sleep, perhaps after a look at `killed`. -/
  | sleep (n : Nat) (killable : Bool)
  /-- The ends of `acquiresleep`, which has found the lock free, and of `releasesleep`. -/
  | lockSleep (n : Nat)
  | unlockSleep (n : Nat)
  | yield
  | kill (pid : Nat)
  | fork
  | wait
  | exit (status : Int)
  deriving DecidableEq

/-- A call made by the process `i` on `c`, in the kernel. -/
def stepCall (g : Cfg) (s : State) (c : Cid) (i : Pid) : Op → Option State
  | .ret => some (s.setPc i .user)
  | .lock lk => if s.klock lk = none ∧ lk ≠ .wait then some (s.setKlock lk (some (.proc i))) else none
  | .unlock lk =>
    if s.klock lk = some (.proc i) ∧ lk ≠ .wait then some (s.setKlock lk none) else none
  | .clear n =>
    if s.klock (g.lk (.obj n)) = some (.proc i) ∧ g.sleepLock n = false then some (s.setCond n false) else none
  | .signal n =>
    if s.klock (g.lk (.obj n)) = some (.proc i) ∧ g.sleepLock n = false then
      some ((s.setCond n true).setPc i (.waking (.obj n) 0 true .kern))
    else none
  | .wakeup ch => some (s.setPc i (.waking ch 0 false .kern))
  | .sleep n killable =>
    if s.klock (g.lk (.obj n)) = some (.proc i) ∧ s.cond n = false then
      some (s.upd i fun p =>
        { p with
          pc := if killable then .asking (.obj n) else .going (.obj n) false
          tested := some n, woken := false })
    else none
  | .lockSleep n =>
    if s.klock (g.lk (.obj n)) = some (.proc i) ∧ g.sleepLock n = true ∧ s.cond n = true then
      some ((s.setCond n false).upd i fun p => { p with holds := update p.holds n true })
    else none
  | .unlockSleep n =>
    if s.klock (g.lk (.obj n)) = some (.proc i) ∧ g.sleepLock n = true ∧ (s.proc i).holds n = true then
      some ((s.setCond n true).upd i fun p =>
        { p with holds := update p.holds n false, pc := .waking (.obj n) 0 true .kern })
    else none
  | .yield =>
    if s.lock i = none then
      if (s.proc i).state ≠ .running then some s
      else some ((s.upd i fun p => { p with state := .runnable, pc := .toSched .yield }).setLock i (some c))
    else none
  | .kill pid => some (s.setPc i (.killing pid 0))
  | .fork => some (s.setPc i (.allocating 0))
  | .wait =>
    if s.klock .wait = none then some ((s.setKlock .wait (some (.proc i))).setPc i (.waiting 0 false)) else none
  | .exit status =>
    -- the first process panics
    if s.klock .wait = none ∧ i ≠ initproc then
      some ((s.setKlock .wait (some (.proc i))).setPc i (.exiting status 0))
    else none

/-- `wait` returns. -/
def State.waitRet (s : State) (i : Pid) (r : Ret) : State :=
  (s.setKlock .wait none).upd i fun p => { p with pc := .kern, rets := r :: p.rets }

/-- `wait` at slot `k`, which is a child of `i`; `ok` tells whether the status can be copied out. -/
def stepChild (s : State) (i k : Pid) (ok : Bool) : Option State :=
  if s.lock k = none then
    if (s.proc k).state = .zombie then
      if ok then
        some ((s.upd k Proc.free).waitRet i (.child (s.proc k).pid (s.proc k).xstate))
      else some (s.waitRet i .failed)
    else some (s.setPc i (.waiting (k + 1) true))
  else none

/-- The next step of the process `i` on `c`; `ok` tells whether memory suffices and copies succeed. -/
def stepRun (g : Cfg) (s : State) (c : Cid) (i : Pid) (ok : Bool) : Option State :=
  match (s.proc i).pc with
  | .fresh | .user | .kern | .parked _ => none
  | .forkret => some ((s.setPc i .kern).setLock i none)
  | .asking ch =>
    if s.lock i = none then
      if (s.proc i).killed then some ((s.setKlock (g.lk ch) none).setPc i .kern)
      else some (s.setPc i (.going ch true))
    else none
  | .going ch killable =>
    if s.lock i = none then some ((s.setPc i (.commit ch killable)).setLock i (some c)) else none
  | .commit ch killable => some ((s.setKlock (g.lk ch) none).setPc i (.committed ch killable))
  | .committed ch killable =>
    some (s.upd i fun p =>
      { p with chan := some ch, state := .sleeping, pc := .toSched (.sleep ch killable) })
  | .toSched r => some ((s.setPc i (.parked r)).setCpu c { s.cpu c with pos := .saving i })
  | .resumed .yield => some ((s.setPc i .kern).setLock i none)
  | .resumed (.sleep ch _) => some ((s.upd i fun p => { p with chan := none, pc := .relock ch }).setLock i none)
  -- panic("zombie exit")
  | .resumed .exit => none
  | .relock ch =>
    if s.klock (g.lk ch) = none then
      some ((s.setKlock (g.lk ch) (some (.proc i))).setPc i (match ch with
          | .proc _ => .waiting 0 false
          | .obj _ => .kern))
    else none
  | .waking ch k signal after =>
    stepWaking s (some i) ch k signal (fun s => s.setPc i (.waking ch (k + 1) signal after))
      fun s => s.setPc i after.pc
  | .killing pid k =>
    if nproc ≤ k then some (s.setPc i .kern)
    else if s.lock k = none then
      if (s.proc k).pid = pid then some ((s.upd k Proc.kill).setPc i .kern)
      else some (s.setPc i (.killing pid (k + 1)))
    else none
  | .allocating k =>
    if nproc ≤ k then some (s.setPc i .kern)
    else if s.lock k = none then
      if (s.proc k).state = .unused then
        some { ((s.upd k fun p => p.alloc s.nextpid).setLock k (some c)).setPc i (.forkCopy k) with
          nextpid := s.nextpid + 1 }
      else some (s.setPc i (.allocating (k + 1)))
    else none
  | .forkCopy k =>
    if ok then some ((s.setLock k none).setPc i (.forkParent k))
    else some (((s.upd k Proc.free).setLock k none).setPc i .kern)
  | .forkParent k =>
    if s.klock .wait = none then
      some ((s.upd k fun p => { p with parent := some i }).setPc i (.forkStart k))
    else none
  | .forkStart k =>
    if s.lock k = none then some ((s.upd k fun p => { p with state := .runnable }).setPc i .kern) else none
  | .waiting k havekids =>
    if nproc ≤ k then
      if havekids then some (s.setPc i .waitCheck) else some (s.waitRet i .failed)
    else if (s.proc k).parent = some i then stepChild s i k ok
    else some (s.setPc i (.waiting (k + 1) havekids))
  | .waitCheck =>
    if s.lock i = none then
      if (s.proc i).killed then some (s.waitRet i .failed) else some (s.setPc i (.going (.proc i) true))
    else none
  | .exiting status k =>
    if nproc ≤ k then
      match (s.proc i).parent with
      | some j => some (s.setPc i (.waking (.proc j) 0 false (.exitLock status)))
      -- nobody sleeps on a null channel
      | none => some (s.setPc i (.exitLock status))
    else if (s.proc k).parent = some i then
      some ((s.upd k fun p => { p with parent := some initproc }).setPc i
        (.waking (.proc initproc) 0 false (.exiting status (k + 1))))
    else some (s.setPc i (.exiting status (k + 1)))
  | .exitLock status =>
    if s.lock i = none then
      some ((s.upd i fun p => { p with state := .zombie, xstate := status, pc := .exitRel }).setLock i (some c))
    else none
  | .exitRel => some ((s.setKlock .wait none).setPc i (.toSched .exit))

/-- `pipewrite` wakes the readers between its test of `killed` and `sleep`. -/
def stepWakeFirst (s : State) (i : Pid) (ch : Chan) : Option State :=
  match (s.proc i).pc with
  | .going ch' killable => some (s.setPc i (.waking ch 0 false (.going ch' killable)))
  | _ => none

/-! ### `scheduler` and interrupts -/

/-- The next place of the scan. -/
def nextSlot (i : Pid) : Pid := if i + 1 < nproc then i + 1 else 0

/-- The place a thread goes on from when its context is loaded. -/
def Pc.loaded : Pc → Pc
  | .parked r => .resumed r
  | _ => .forkret

def stepSched (s : State) (c : Cid) : Option State :=
  match (s.cpu c).pos with
  | .scan i =>
    if s.lock i = none then
      some ((s.setCpu c { s.cpu c with pos := .locked i }).setLock i (some c))
    else none
  | .locked i =>
    if (s.proc i).state = .runnable then
      some ((s.setCpu c { proc := some i, pos := .loading i 0 }).upd i fun p => { p with state := .running })
    else some ((s.setCpu c { s.cpu c with pos := .scan (nextSlot i) }).setLock i none)
  | .loading i n =>
    if n < swtchPairs then some (s.setCpu c { s.cpu c with pos := .loading i (n + 1) })
    else some ((s.setCpu c { s.cpu c with pos := .inProc i }).upd i fun p => { p with saved := 0, pc := p.pc.loaded })
  | .saving i =>
    if (s.proc i).saved < swtchPairs then some (s.upd i fun p => { p with saved := p.saved + 1 })
    else some (s.setCpu c { s.cpu c with pos := .back i })
  | .back i => some ((s.setCpu c { proc := none, pos := .scan (nextSlot i) }).setLock i none)
  | .inProc _ | .irq _ _ => none

/-- The calls of an interrupt handler on top of the scan. -/
def stepIrqCall (g : Cfg) (s : State) (c : Cid) (i : Pid) : Op → Option State
  | .lock lk => if s.klock lk = none ∧ lk ≠ .wait then some (s.setKlock lk (some (.sched c))) else none
  | .unlock lk =>
    if s.klock lk = some (.sched c) ∧ lk ≠ .wait then some (s.setKlock lk none) else none
  | .clear n =>
    if s.klock (g.lk (.obj n)) = some (.sched c) ∧ g.sleepLock n = false then some (s.setCond n false) else none
  | .signal n =>
    if s.klock (g.lk (.obj n)) = some (.sched c) ∧ g.sleepLock n = false then
      some ((s.setCond n true).setCpu c { s.cpu c with pos := .irq i (.waking (.obj n) 0 true .kern) })
    else none
  | .wakeup ch => some (s.setCpu c { s.cpu c with pos := .irq i (.waking ch 0 false .kern) })
  | _ => none

inductive Event where
  | sched (c : Cid)
  /-- An interrupt on top of the scan, and its return. -/
  | irq (c : Cid)
  | irqRet (c : Cid)
  /-- A trap taken in user mode. -/
  | trap (c : Cid)
  | call (c : Cid) (op : Op)
  | run (c : Cid) (ok : Bool)
  | wakeFirst (c : Cid) (ch : Chan)
  deriving DecidableEq

def step (g : Cfg) (s : State) : Event → Option State
  | .sched c => stepSched s c
  | .irq c =>
    match (s.cpu c).pos with
    | .scan i => some (s.setCpu c { s.cpu c with pos := .irq i .kern })
    | _ => none
  | .irqRet c =>
    match (s.cpu c).pos with
    | .irq i .kern => some (s.setCpu c { s.cpu c with pos := .scan i })
    | _ => none
  | .trap c =>
    match (s.cpu c).pos with
    | .inProc i => if (s.proc i).pc = .user then some (s.setPc i .kern) else none
    | _ => none
  | .call c op =>
    match (s.cpu c).pos with
    | .inProc i => if (s.proc i).pc = .kern then stepCall g s c i op else none
    | .irq i .kern => stepIrqCall g s c i op
    | _ => none
  | .run c ok =>
    match (s.cpu c).pos with
    | .inProc i => stepRun g s c i ok
    | .irq i (.waking ch k signal .kern) =>
      stepWaking s none ch k signal
        (fun s => s.setCpu c { s.cpu c with pos := .irq i (.waking ch (k + 1) signal .kern) })
        fun s => s.setCpu c { s.cpu c with pos := .irq i .kern }
    | _ => none
  | .wakeFirst c ch =>
    match (s.cpu c).pos with
    | .inProc i => stepWakeFirst s i ch
    | _ => none

end Xv6Armv8.Procs
