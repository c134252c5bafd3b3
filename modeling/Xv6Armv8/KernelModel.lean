import Xv6Armv8.ExecModel
import Xv6Armv8.FileTable
import Xv6Armv8.LibRun

/-! Processes, pipes and the system calls that move pages between them (`proc.c`, `pipe.c`, `sysproc.c`,
`sysfile.c`), with the scheduler's switches and the translation caches of the CPUs. A system call is a
program over the state of the machine that panics with a message or returns; a run is a list of completed
calls, switches and user accesses. Pointers to slots of the tables are their indices, pointers to pages are
page addresses, and NULL is `none`. The file that `exec` opens is an argument of the call, any contents it
may have. -/

namespace Xv6Armv8.Kernel

open Vm FileTable Exec Function

def nproc : Nat := 64
def ncpu : Nat := 4
def maxPath : Nat := 128

inductive ProcState
  | unused | used | sleeping | runnable | running | zombie
  deriving DecidableEq

structure Proc where
  state : ProcState
  killed : Bool
  xstate : Int
  pid : Nat
  parent : Option Nat
  kstack : Option Nat
  size : Nat
  pagetable : Option Nat
  ofile : Ofile
  name : List UInt8

structure Pipe where
  readopen : Bool
  writeopen : Bool

/-- A CPU: the process it runs, its `TTBR0` and the leaf entries its TLB has cached, by page number. -/
structure Cpu where
  proc : Option Nat
  ttbr0 : Nat
  tlb : List (Nat × Nat)

structure Machine where
  mem : Mem
  proc : Nat → Proc
  ftable : Ftable
  /-- The pipe in a page. -/
  pipes : Nat → Pipe
  cpu : Nat → Cpu
  nextpid : Nat
  initproc : Nat
  /-- `disk.desc`, `disk.avail` and `disk.used`. -/
  virtio : List Nat

abbrev KM := StateT Machine (Except String)

def vm {α : Type} (x : VmM α) : KM α := fun k =>
  match x k.mem with
  | .ok (a, m) => .ok (a, { k with mem := m })
  | .error e => .error e

/-- A pointer that the code follows without a test. -/
def deref (p : Option Nat) : KM Nat :=
  match p with
  | none => throw "null pointer"
  | some a => return a

/-- What is done with a pointer that is not NULL. -/
def ifSome (p : Option Nat) (f : Nat → KM Unit) : KM Unit :=
  match p with
  | none => pure ()
  | some a => f a

def setProc (i : Nat) (f : Proc → Proc) : KM Unit :=
  modify fun k => { k with proc := update k.proc i (f (k.proc i)) }

/-! ### The trap frame at the top of the kernel stack -/

def sizeofTrapframe : Nat := 272
def tfOff : Nat := pgSize - sizeofTrapframe

def tfX0 : Nat := 0
def tfX1 : Nat := 1
def tfSp : Nat := 31
def tfPc : Nat := 32

def setTf (kstack reg v : Nat) : VmM Unit :=
  modify fun m => m.setPage kstack ((m.ram kstack).st (tfOff + 8 * reg) 8 v)

def copyTf (dst src : Nat) : VmM Unit :=
  modify fun m => m.setPage dst ((m.ram dst).copy tfOff (m.ram src) tfOff sizeofTrapframe)

/-! ### Files and pipes -/

def Pipe.shut (p : Pipe) (writable : Bool) : Pipe :=
  if writable then { p with writeopen := false } else { p with readopen := false }

def pipeclose (pi : Nat) (writable : Bool) : KM Unit := do
  modify fun k => { k with pipes := update k.pipes pi ((k.pipes pi).shut writable) }
  let p := (← get).pipes pi
  if p.readopen = false ∧ p.writeopen = false then vm (kfree pi) else pure ()

/-- The inode of a file is put in the file system, which has no pages. -/
def fileclose (f : Nat) : KM Unit := do
  match filedrop (← get).ftable f with
  | .error e => throw e
  | .ok (last, ft) =>
    modify fun k => { k with ftable := ft }
    match last with
    | some ff => if ff.type = .pipe then pipeclose ff.pipe ff.writable else pure ()
    | none => pure ()

def kfiledup (f : Nat) : KM Unit := do
  match filedup (← get).ftable f with
  | .error e => throw e
  | .ok ft => modify fun k => { k with ftable := ft }

def kfilealloc : KM (Option Nat) := do
  match filealloc (← get).ftable with
  | none => return none
  | some (f, ft) =>
    modify fun k => { k with ftable := ft }
    return some f

def setFile (f : Nat) (g : File → File) : KM Unit :=
  modify fun k => { k with ftable := update k.ftable f (g (k.ftable f)) }

/-- The two ends, or nothing. -/
def pipealloc : KM (Option (Nat × Nat)) := do
  match ← kfilealloc with
  | none => return none
  | some f0 =>
    match ← kfilealloc with
    | none =>
      fileclose f0
      return none
    | some f1 =>
      match ← vm kalloc with
      | none =>
        fileclose f0
        fileclose f1
        return none
      | some pi =>
        modify fun k => { k with pipes := update k.pipes pi ⟨true, true⟩ }
        setFile f0 fun f => { f with type := .pipe, readable := true, writable := false, pipe := pi }
        setFile f1 fun f => { f with type := .pipe, readable := false, writable := true, pipe := pi }
        return some (f0, f1)

/-! ### proc.c -/

def freeproc (i : Nat) : KM Unit := do
  ifSome ((← get).proc i).kstack fun ks => vm (kfree ks)
  setProc i fun p => { p with kstack := none }
  let p := (← get).proc i
  ifSome p.pagetable fun pt => vm (uvmfree pt p.size)
  setProc i fun p => { p with pagetable := none, size := 0, pid := 0, parent := none, name := [],
                              killed := false, xstate := 0, state := .unused }

def allocproc : KM (Option Nat) := do
  let k ← get
  match (List.range nproc).find? fun i => (k.proc i).state = .unused with
  | none => return none
  | some i =>
    setProc i fun p => { p with pid := k.nextpid, state := .used }
    modify fun k => { k with nextpid := k.nextpid + 1 }
    match ← vm kalloc with
    | none =>
      freeproc i
      return none
    | some ks =>
      setProc i fun p => { p with kstack := some ks }
      vm (memset ks 0)
      match ← vm kalloc with
      | none =>
        freeproc i
        return none
      | some pt =>
        setProc i fun p => { p with pagetable := some pt }
        vm (memset pt 0)
        return some i

/-- The loop of `fork` over the descriptors. -/
def dupFiles (np : Nat) (ofile : Ofile) : KM Unit :=
  (List.range nofile).forM fun fd => ifSome (ofile fd) fun f => do
    kfiledup f
    setProc np fun p => { p with ofile := update p.ofile fd (some f) }

def fork (i : Nat) : KM Int := do
  match ← allocproc with
  | none => return -1
  | some np =>
    let p := (← get).proc i
    let old ← deref p.pagetable
    let new ← deref ((← get).proc np).pagetable
    if (← vm (uvmcopy old new p.size)) < 0 then
      freeproc np
      return -1
    else
      setProc np fun q => { q with size := p.size }
      let src ← deref p.kstack
      let dst ← deref ((← get).proc np).kstack
      vm (copyTf dst src)
      vm (setTf dst tfX0 0)
      dupFiles np p.ofile
      let pid := ((← get).proc np).pid
      setProc np fun q => { q with name := p.name, parent := some i, state := .runnable }
      return pid

def reparent (i : Nat) : KM Unit :=
  modify fun k => { k with proc := fun j =>
    if (k.proc j).parent = some i then { k.proc j with parent := some k.initproc } else k.proc j }

/-- The loop of `exit` over the descriptors. -/
def closeFiles (i : Nat) : KM Unit :=
  (List.range nofile).forM fun fd => do
    ifSome (((← get).proc i).ofile fd) fun f => do
      fileclose f
      setProc i fun p => { p with ofile := update p.ofile fd none }

/-- The CPU `c` goes to its scheduler and keeps `TTBR0`. -/
def leave (c : Nat) : KM Unit :=
  modify fun k => { k with cpu := update k.cpu c { k.cpu c with proc := none } }

def exit (c i : Nat) (status : Int) : KM Unit := do
  if i = (← get).initproc then throw "init exiting"
  else
    closeFiles i
    reparent i
    setProc i fun p => { p with xstate := status, state := .zombie }
    leave c

/-- The result of `wait`; `none` where it sleeps. -/
def wait (i addr : Nat) : KM (Option Int) := do
  let k ← get
  match (List.range nproc).find? fun j => (k.proc j).parent = some i ∧ (k.proc j).state = .zombie with
  | some j =>
    let pid := (k.proc j).pid
    let pt ← deref (k.proc i).pagetable
    if addr ≠ 0 then
      if (← vm (copyout pt addr (leBytes ((k.proc j).xstate % 2 ^ 32).toNat 4))) < 0 then
        return some (-1)
      else
        freeproc j
        return some pid
    else
      freeproc j
      return some pid
  | none =>
    if (List.range nproc).all (fun j => (k.proc j).parent ≠ some i) ∨ (k.proc i).killed then
      return some (-1)
    else return none

/-- The size plus an `int`, as the code adds them. -/
def addInt (sz : Nat) (n : Int) : Nat := ((sz + n) % 2 ^ 64).toNat

def growproc (i : Nat) (n : Int) : KM Int := do
  let p := (← get).proc i
  let pt ← deref p.pagetable
  if 0 < n then
    let sz ← vm (uvmalloc pt p.size (addInt p.size n) user4kPageRwXn)
    if sz = 0 then return -1
    else
      setProc i fun p => { p with size := sz }
      return 0
  else if n < 0 then
    let sz ← vm (uvmdealloc pt p.size (addInt p.size n))
    setProc i fun p => { p with size := sz }
    return 0
  else return 0

def kill (pid : Int) : KM Int := do
  let k ← get
  match (List.range nproc).find? fun j => (k.proc j).pid = pid with
  | none => return -1
  | some j =>
    setProc j fun p =>
      { p with killed := true, state := if p.state = .sleeping then .runnable else p.state }
    return 0

/-- `lttbr0`: the translations of the old table are gone. -/
def uvmswitch (c i : Nat) : KM Unit := do
  match ((← get).proc i).pagetable with
  | none => throw "uvmswitch"
  | some pt => modify fun k => { k with cpu := update k.cpu c { k.cpu c with ttbr0 := v2p pt, tlb := [] } }

/-! ### exec -/

/-- The name after the last slash. -/
def lastName (path : List UInt8) : List UInt8 :=
  (path.reverse.takeWhile (· ≠ 47)).reverse

def exec (c i : Nat) (path : List UInt8) (argv : List (List UInt8)) (file : Option Content) : KM Int := do
  match file with
  | none => return -1
  | some content =>
    match ← vm (image content argv) with
    | none => return -1
    | some im =>
      let p := (← get).proc i
      let ks ← deref p.kstack
      let oldpde ← deref p.pagetable
      vm (setTf ks tfX1 im.sp)
      setProc i fun p => { p with name := (lastName path).take 15, pagetable := some im.pde, size := im.size }
      vm (setTf ks tfPc im.entry)
      vm (setTf ks tfSp im.sp)
      uvmswitch c i
      vm (uvmfree oldpde p.size)
      return im.argc

/-- `fetchaddr`. -/
def fetchaddr (i addr : Nat) : KM (Option Nat) := do
  let p := (← get).proc i
  let pt ← deref p.pagetable
  if p.size ≤ addr ∨ p.size < u64 (addr + 8) then return none
  else return (← vm (copyin pt addr 8)).map fun bs => (ByteStore.put (fun _ => 0) 0 bs).ld 0 8

/-- `fetchstr`. -/
def fetchstr (i addr max : Nat) : KM (Option (List UInt8)) := do
  let pt ← deref ((← get).proc i).pagetable
  vm (copyinstr pt addr max)

/-- The loop of `sys_exec`, with `n` places of `argv` left: the pages taken, and the strings unless
something was wrong. -/
def fetchArgs (i uargv : Nat) : Nat → Nat → KM (List Nat × Option (List (List UInt8)))
  | 0, _ => return ([], none)
  | n + 1, j => do
    match ← fetchaddr i (u64 (uargv + 8 * j)) with
    | none => return ([], none)
    | some uarg =>
      if uarg = 0 then return ([], some [])
      else
        match ← vm kalloc with
        | none => return ([], none)
        | some pg =>
          match ← fetchstr i uarg pgSize with
          | none => return ([pg], none)
          | some s =>
            vm (modify fun m => m.setPage pg ((m.ram pg).put 0 (s ++ [0])))
            let (pgs, argv) ← fetchArgs i uargv n (j + 1)
            return (pg :: pgs, argv.map (s :: ·))

def freeArgs (pgs : List Nat) : KM Unit := pgs.forM fun pg => vm (kfree pg)

def sysExec (c i upath uargv : Nat) (file : Option Content) : KM Int := do
  match ← fetchstr i upath maxPath with
  | none => return -1
  | some path =>
    let (pgs, argv) ← fetchArgs i uargv maxArg 0
    match argv with
    | none =>
      freeArgs pgs
      return -1
    | some argv =>
      let ret ← exec c i path argv file
      freeArgs pgs
      return ret

/-! ### The other calls -/

def setOfile (i : Nat) (ofile : Ofile) : KM Unit := setProc i fun p => { p with ofile := ofile }

def sysPipe (i fdarray : Nat) : KM Int := do
  match ← pipealloc with
  | none => return -1
  | some (rf, wf) =>
    match fdalloc ((← get).proc i).ofile rf with
    | none =>
      fileclose rf
      fileclose wf
      return -1
    | some (fd0, ofile) =>
      setOfile i ofile
      match fdalloc ((← get).proc i).ofile wf with
      | none =>
        setOfile i (update ofile fd0 none)
        fileclose rf
        fileclose wf
        return -1
      | some (fd1, ofile) =>
        setOfile i ofile
        let pt ← deref ((← get).proc i).pagetable
        if (← vm (copyout pt fdarray (leBytes fd0 4))) < 0 then
          setOfile i (update (update ofile fd0 none) fd1 none)
          fileclose rf
          fileclose wf
          return -1
        else if (← vm (copyout pt (u64 (fdarray + 4)) (leBytes fd1 4))) < 0 then
          setOfile i (update (update ofile fd0 none) fd1 none)
          fileclose rf
          fileclose wf
          return -1
        else return 0

def sysClose (i : Nat) (fd : Int) : KM Int := do
  match argfd ((← get).proc i).ofile fd with
  | none => return -1
  | some (n, f) =>
    setProc i fun p => { p with ofile := update p.ofile n none }
    fileclose f
    return 0

def sysDup (i : Nat) (fd : Int) : KM Int := do
  match argfd ((← get).proc i).ofile fd with
  | none => return -1
  | some (_, f) =>
    match fdalloc ((← get).proc i).ofile f with
    | none => return -1
    | some (n, ofile) =>
      setOfile i ofile
      kfiledup f
      return n

def sysSbrk (i : Nat) (n : Int) : KM Int := do
  let addr := ((← get).proc i).size
  if (← growproc i n) < 0 then return -1 else return addr

/-- A call with its argument registers. -/
inductive Syscall
  | fork
  | exec (path argv : Nat) (file : Option Content)
  | sbrk (n : Nat)
  | pipe (fdarray : Nat)
  | close (fd : Nat)
  | dup (fd : Nat)
  | exit (status : Nat)
  | wait (addr : Nat)
  | kill (pid : Nat)

/-- `argint`: the low 32 bits of a register, with their sign. -/
def argint (x : Nat) : Int :=
  if x % 2 ^ 32 < 2 ^ 31 then (x % 2 ^ 32 : Nat) else (x % 2 ^ 32 : Nat) - 2 ^ 32

/-- `argaddr`. -/
def argaddr (x : Nat) : Nat := u64 x

/-- How a call ends: with a value in `x0`, with the end of the process, or not at all. -/
inductive Ret
  | value (v : Int)
  | gone
  | sleeps

def syscalls (c i : Nat) : Syscall → KM Ret
  | .fork => .value <$> fork i
  | .exec path argv file => .value <$> sysExec c i (argaddr path) (argaddr argv) file
  | .sbrk n => .value <$> sysSbrk i (argint n)
  | .pipe fdarray => .value <$> sysPipe i (argaddr fdarray)
  | .close fd => .value <$> sysClose i (argint fd)
  | .dup fd => .value <$> sysDup i (argint fd)
  | .exit status => (fun _ => .gone) <$> exit c i (argint status)
  | .wait addr => (fun r => match r with | some v => .value v | none => .sleeps) <$> wait i (argaddr addr)
  | .kill pid => .value <$> kill (argint pid)

def syscall (c i : Nat) (sys : Syscall) : KM Ret := do
  match ← syscalls c i sys with
  | .value v =>
    let ks ← deref ((← get).proc i).kstack
    vm (setTf ks tfX0 (addInt 0 v))
    return .value v
  | r => return r

/-! ### Boot -/

/-- Where the kernel image ends, as the linker script places it: above the start of the memory, with
room for what `main` allocates. -/
structure Layout where
  kend : Nat
  lo : kernBase + phyBase ≤ kend
  hi : kend + 10 * pgSize ≤ kernBase + phyStop

/-- `freerange`: the pages from `p` on, `n` of them. -/
def freerange : Nat → Nat → VmM Unit
  | 0, _ => return ()
  | n + 1, p => do
    kfree p
    freerange n (p + pgSize)

def kinit : VmM Unit := do
  let p := pgRoundUp (← get).kend
  freerange ((kernBase + phyStop - p) / pgSize) p

/-- The pages of the rings of the disk. -/
def virtioDiskInit : KM Unit := do
  match ← vm kalloc, ← vm kalloc, ← vm kalloc with
  | some desc, some avail, some used =>
    vm (memset desc 0)
    vm (memset avail 0)
    vm (memset used 0)
    modify fun k => { k with virtio := [desc, avail, used] }
  | _, _, _ => throw "virtio disk kalloc"

def userinit (initcode : List UInt8) : KM Unit := do
  match ← allocproc with
  | none => throw "null pointer"
  | some i =>
    modify fun k => { k with initproc := i }
    let pt ← deref ((← get).proc i).pagetable
    vm (uvmfirst pt initcode)
    let ks ← deref ((← get).proc i).kstack
    vm (setTf ks tfSp pgSize)
    vm (setTf ks tfPc 0)
    setProc i fun p => { p with size := pgSize, state := .runnable, name := "initcode".toUTF8.toList }

def emptyProc : Proc where
  state := .unused
  killed := false
  xstate := 0
  pid := 0
  parent := none
  kstack := none
  size := 0
  pagetable := none
  ofile := fun _ => none
  name := []

def emptyFile : File := ⟨.none, 0, false, false, 0, 0, 0, 0⟩

def initial (lay : Layout) : Machine where
  mem := ⟨fun _ _ => 0, [], lay.kend⟩
  proc := fun _ => emptyProc
  ftable := fun _ => emptyFile
  pipes := fun _ => ⟨false, false⟩
  cpu := fun _ => ⟨none, 0, []⟩
  nextpid := 1
  initproc := 0
  virtio := []

def boot (initcode : List UInt8) : KM Unit := do
  vm kinit
  virtioDiskInit
  userinit initcode

/-! ### Runs -/

inductive Event
  /-- The scheduler of CPU `c` switches to process `i`. -/
  | schedule (c i : Nat)
  /-- The process on CPU `c` gives the CPU up. -/
  | yield (c : Nat)
  /-- The process on CPU `c` makes a call, which completes. -/
  | call (c : Nat) (sys : Syscall)
  /-- The process on CPU `c` uses an address; the TLB may keep the translation. -/
  | access (c va : Nat)

/-- The leaf entry the hardware finds for an address through `TTBR0`; 0 if there is none. Addresses of
more than 48 bits are not translated through it. -/
def hwWalk (m : Mem) (ttbr0 va : Nat) : Nat :=
  if maxVa ≤ va then 0
  else
    match walk 3 (p2v ttbr0) va false m with
    | .ok (some (t, i), _) => m.pte t i
    | _ => 0

def Cpu.access (cpu : Cpu) (m : Mem) (va : Nat) : Cpu :=
  let e := hwWalk m cpu.ttbr0 va
  if e &&& mmTypeValid = 0 then cpu else { cpu with tlb := (va / pgSize, e) :: cpu.tlb }

/-- One turn of `scheduler`. -/
def dispatch (c i : Nat) : KM Unit := do
  setProc i fun p => { p with state := .running }
  modify fun k => { k with cpu := update k.cpu c { k.cpu c with proc := some i } }
  uvmswitch c i

def yield (c i : Nat) : KM Unit := do
  setProc i fun p => { p with state := .runnable }
  leave c

def step (k : Machine) : Event → Option Machine
  | .schedule c i =>
    if c < ncpu ∧ i < nproc ∧ (k.cpu c).proc = none ∧ (k.proc i).state = .runnable then
      match dispatch c i k with
      | .ok (_, k') => some k'
      | .error _ => none
    else none
  | .yield c => do
    let i ← (k.cpu c).proc
    match yield c i k with
    | .ok (_, k') => some k'
    | .error _ => none
  | .call c sys => do
    let i ← (k.cpu c).proc
    match syscall c i sys k with
    | .ok (.sleeps, _) => none
    | .ok (_, k') => some k'
    | .error _ => none
  | .access c va => do
    let _ ← (k.cpu c).proc
    some { k with cpu := update k.cpu c ((k.cpu c).access k.mem va) }

end Xv6Armv8.Kernel
