import Xv6Armv8.LibRing
import Xv6Armv8.LibRun

/-! The pipe of `kernel/pipe.c` with any number of readers and writers. One event is one turn of a loop by the
process that has `pi->lock`, or the wait for that lock, so that the processes interleave wherever the lock is free: at
the entry of a call and at every `sleep`. User memory is what `copyin` and `copyout` say of it, one byte at a time. -/

namespace Xv6Armv8.Pipe

open Function

abbrev Pid := Nat

def pipeSize : Nat := 512

/-- `nread` and `nwrite` are of type `uint`. -/
def uintMod : Nat := 2 ^ 32

/-- The channels `&pi->nread`, on which readers sleep, and `&pi->nwrite`, on which writers do. -/
inductive Chan where
  | nread
  | nwrite
  deriving DecidableEq

/-- Where a process is; `n` is the size of the call and `i` the number of bytes done. -/
inductive Pc where
  | idle
  /-- In `pipewrite`, in want of the lock: at the entry, or woken in `sleep`. -/
  | wEnter (n : Int) (i : Nat)
  /-- In `pipewrite` with the lock, at the test of the loop. -/
  | wLoop (n : Int) (i : Nat)
  | wAsleep (n : Int) (i : Nat)
  | wrote (n r : Int)
  /-- In `piperead`, in want of the lock. -/
  | rEnter (n : Int)
  /-- In `piperead` with the lock, at the test of the first loop. -/
  | rTest (n : Int)
  | rAsleep (n : Int)
  /-- In `piperead` with the lock, at the test of the second loop. -/
  | rCopy (n : Int) (i : Nat)
  | read (n r : Int)
  deriving DecidableEq

structure State where
  data : Nat → UInt8
  nread : Nat
  nwrite : Nat
  readopen : Bool
  writeopen : Bool
  /-- The process that has `pi->lock`. -/
  lock : Option Pid
  pc : Pid → Pc
  killed : Pid → Bool
  /-- History: the bytes taken from writers. -/
  accepted : List UInt8
  /-- History: the bytes readers took from the ring. -/
  removed : List UInt8
  /-- History: the bytes taken from a process in its last call of `pipewrite`. -/
  mine : Pid → List UInt8

inductive Event where
  | write (p : Pid) (n : Int)
  | read (p : Pid) (n : Int)
  | acquire (p : Pid)
  /-- One turn of a loop. The byte is what `copyin` gets, and `none` that `copyin` or `copyout` fails. -/
  | run (p : Pid) (io : Option UInt8)
  | kill (p : Pid)
  | close (writable : Bool)

/-- A process that is woken on a channel goes on to take the lock again. -/
def Pc.wake (ch : Chan) : Pc → Pc
  | .wAsleep n i => if ch = .nwrite then .wEnter n i else .wAsleep n i
  | .rAsleep n => if ch = .nread then .rEnter n else .rAsleep n
  | pc => pc

def State.wakeup (s : State) (ch : Chan) : State := { s with pc := fun p => (s.pc p).wake ch }

def State.goto (s : State) (p : Pid) (pc : Pc) : State := { s with pc := update s.pc p pc }

/-- `wakeup` and `release` at the end of a call, and its return. -/
def State.leave (s : State) (p : Pid) (ch : Chan) (pc : Pc) : State :=
  { (s.wakeup ch).goto p pc with lock := none }

/-- `pi->data[pi->nwrite++ % PIPESIZE] = ch`. -/
def State.put (s : State) (p : Pid) (ch : UInt8) : State :=
  { s with
    data := update s.data (s.nwrite % pipeSize) ch, nwrite := (s.nwrite + 1) % uintMod
    accepted := s.accepted ++ [ch], mine := update s.mine p (s.mine p ++ [ch]) }

/-- `ch = pi->data[pi->nread++ % PIPESIZE]`. -/
def State.take (s : State) : State :=
  { s with nread := (s.nread + 1) % uintMod, removed := s.removed ++ [s.data (s.nread % pipeSize)] }

/-- A turn of the loop of `pipewrite`. -/
def pipewrite (s : State) (p : Pid) (n : Int) (i : Nat) (io : Option UInt8) : State :=
  if (i : Int) < n then
    if s.readopen = false ∨ s.killed p = true then { s.goto p (.wrote n (-1)) with lock := none }
    else if s.nwrite = (s.nread + pipeSize) % uintMod then s.leave p .nread (.wAsleep n i)
    else match io with
      | none => s.leave p .nread (.wrote n i)
      | some ch => (s.put p ch).goto p (.wLoop n (i + 1))
  else s.leave p .nread (.wrote n i)

/-- The test of the first loop of `piperead`. -/
def pipereadTest (s : State) (p : Pid) (n : Int) : State :=
  if s.nread = s.nwrite ∧ s.writeopen = true then
    if s.killed p = true then { s.goto p (.read n (-1)) with lock := none }
    else { s.goto p (.rAsleep n) with lock := none }
  else s.goto p (.rCopy n 0)

/-- A turn of the second loop of `piperead`. -/
def pipereadCopy (s : State) (p : Pid) (n : Int) (i : Nat) (io : Option UInt8) : State :=
  if (i : Int) < n then
    if s.nread = s.nwrite then s.leave p .nwrite (.read n i)
    else match io with
      | none => s.take.leave p .nwrite (.read n i)
      | some _ => s.take.goto p (.rCopy n (i + 1))
  else s.leave p .nwrite (.read n i)

/-- `pipeclose`, without the end of the pipe when both ends are closed. -/
def pipeclose (s : State) (writable : Bool) : State :=
  if writable then { s.wakeup .nread with writeopen := false } else { s.wakeup .nwrite with readopen := false }

def step (s : State) : Event → Option State
  | .write p n =>
    match s.pc p with
    | .idle | .wrote _ _ | .read _ _ => some { s.goto p (.wEnter n 0) with mine := update s.mine p [] }
    | _ => none
  | .read p n =>
    match s.pc p with
    | .idle | .wrote _ _ | .read _ _ => some (s.goto p (.rEnter n))
    | _ => none
  | .acquire p =>
    if s.lock = none then
      match s.pc p with
      | .wEnter n i => some { s.goto p (.wLoop n i) with lock := some p }
      | .rEnter n => some { s.goto p (.rTest n) with lock := some p }
      | _ => none
    else none
  | .run p io =>
    match s.pc p with
    | .wLoop n i => some (pipewrite s p n i io)
    | .rTest n => some (pipereadTest s p n)
    | .rCopy n i => some (pipereadCopy s p n i io)
    | _ => none
  | .kill p =>
    some { s with
      killed := update s.killed p true
      pc := update s.pc p (((s.pc p).wake .nread).wake .nwrite) }
  | .close writable => if s.lock = none then some (pipeclose s writable) else none

/-- The pipe as `pipealloc` makes it. -/
def init (data : Nat → UInt8) : State where
  data := data
  nread := 0
  nwrite := 0
  readopen := true
  writeopen := true
  lock := none
  pc := fun _ => .idle
  killed := fun _ => false
  accepted := []
  removed := []
  mine := fun _ => []

end Xv6Armv8.Pipe
