import Xv6Armv8.FileTable

/-! The tables the kernel indexes with values from outside: `syscalls` with the number a process puts in `x0`, the
descriptor table and `devsw` with what the handlers make of their arguments, and `intrs` with the number the interrupt
controller returns. A table is a list; what an index behind its end finds is whatever word the linker put there. -/

namespace Xv6Armv8.Dispatch

open FileTable List

/-- What is found at an index of a table. -/
inductive Slot (H : Type) where
  | entry (h : H)
  | stray (word : Nat)
  deriving DecidableEq

/-- `table[i]`, with the words `behind` the table. -/
def slot {H : Type} (table : List H) (behind : Nat → Nat) (i : Nat) : Slot H :=
  match table[i]? with
  | some h => .entry h
  | none => .stray (behind (i - table.length))

/-- Whether it is a null pointer. -/
def Slot.isNull {H : Type} : Slot H → Bool
  | .entry _ => false
  | .stray word => word == 0

/-! ### System calls -/

inductive Handler where
  | sysExit
  | sysExec
  | sysWrite
  | sysOpen
  | sysMknod
  | sysDup
  | sysFork
  | sysWait
  | sysYield
  | sysRead
  | sysChdir
  | sysClose
  | sysSbrk
  | sysFstat
  | sysMkdir
  | sysUnlink
  | sysSleep
  | sysPipe
  | sysGetpid
  | sysProcdump
  | sysKill
  | sysLink
  | sysUptime
  deriving DecidableEq

/-- The table in the order of the numbers in `syscall.h`. -/
def syscalls : List Handler :=
  [.sysExit, .sysExec, .sysWrite, .sysOpen, .sysMknod, .sysDup, .sysFork, .sysWait, .sysYield, .sysRead, .sysChdir,
    .sysClose, .sysSbrk, .sysFstat, .sysMkdir, .sysUnlink, .sysSleep, .sysPipe, .sysGetpid, .sysProcdump, .sysKill,
    .sysLink, .sysUptime]

/-- What `syscall` calls for the number in `x0`, and `none` when it returns -1. -/
def syscall (behind : Nat → Nat) (x0 : Nat) : Option (Slot Handler) :=
  if x0 ≤ syscalls.length ∧ (slot syscalls behind x0).isNull = false then some (slot syscalls behind x0) else none

/-! ### The tables of the handlers -/

def ndev : Nat := 10

/-- An access to `p->ofile` or to `devsw`. -/
inductive Access where
  | ofile (i : Int)
  | devsw (i : Int)
  deriving DecidableEq

def Access.InBounds : Access → Prop
  | .ofile i => 0 ≤ i ∧ i < nofile
  | .devsw i => 0 ≤ i ∧ i < ndev

/-- `argint`: the low 32 bits of a register, with their sign. -/
def argint (x : Nat) : Int := if x % 2 ^ 32 < 2 ^ 31 then (x % 2 ^ 32 : Nat) else (x % 2 ^ 32 : Nat) - 2 ^ 32

/-- What a handler depends on: the caller's registers and descriptors, the table of files, and how far the calls of
the file system and of `copyout` in `sys_open` and `sys_pipe` let it come. -/
structure Env where
  x1 : Nat
  ofile : Ofile
  ftable : Ftable
  /-- `sys_open` has an inode and a file. -/
  opened : Bool
  /-- `pipealloc` succeeds. -/
  piped : Bool
  /-- The two `copyout` of `sys_pipe` succeed. -/
  copied : Bool

/-- The descriptor of the first argument, its file, and the accesses made. -/
def argfd (env : Env) : Option (Int × Nat) × List Access :=
  let fd := argint env.x1
  if fd < 0 ∨ fd ≥ nofile then (none, [])
  else ((env.ofile fd.toNat).map fun f => (fd, f), [.ofile fd])

/-- The loop of `fdalloc` looks at the descriptors up to the first free one. -/
def fdalloc (ofile : Ofile) : Option Nat × List Access :=
  match (List.range nofile).find? fun fd => ofile fd = none with
  | some fd => (some fd, (List.range (fd + 1)).map (fun i => .ofile i) ++ [.ofile fd])
  | none => (none, (List.range nofile).map fun i => .ofile i)

/-- The check of the device number in `fileread` and `filewrite`, and the call through `devsw` behind it. -/
def fileDev (f : File) (allowed : Bool) : List Access :=
  if allowed = false then []
  else match f.type with
    | .device => if f.major < 0 ∨ f.major ≥ ndev then [] else [.devsw f.major, .devsw f.major]
    | _ => []

def fileread (f : File) : List Access := fileDev f f.readable

def filewrite (f : File) : List Access := fileDev f f.writable

/-- All of the descriptors, as `fork` and `exit` go through them. -/
def allFiles : List Access := (List.range nofile).map fun i => .ofile i

def pipeAccesses (env : Env) : List Access :=
  if env.piped = false then []
  else
    let fd0 := fdalloc env.ofile
    match fd0.1 with
    | none => fd0.2
    | some i =>
      let fd1 := fdalloc (Function.update env.ofile i (some 0))
      match fd1.1 with
      | none => fd0.2 ++ fd1.2 ++ [.ofile i]
      | some j => fd0.2 ++ fd1.2 ++ if env.copied then [] else [.ofile i, .ofile j]

/-- What a handler does with the descriptor of its first argument. -/
def withFd (env : Env) (k : Int → Nat → List Access) : List Access :=
  (argfd env).2 ++ match (argfd env).1 with
    | some (fd, f) => k fd f
    | none => []

/-- The accesses of a handler. -/
def Handler.accesses (env : Env) : Handler → List Access
  | .sysWrite => withFd env fun _ f => filewrite (env.ftable f)
  | .sysRead => withFd env fun _ f => fileread (env.ftable f)
  | .sysDup => withFd env fun _ _ => (fdalloc env.ofile).2
  | .sysClose => withFd env fun fd _ => [.ofile fd]
  | .sysFstat => (argfd env).2
  | .sysOpen => if env.opened then (fdalloc env.ofile).2 else []
  | .sysPipe => pipeAccesses env
  | .sysFork | .sysExit => allFiles
  | _ => []

/-! ### Interrupts -/

inductive IntrHandler where
  | defintr
  | timerintr
  | uartintr
  | virtioDiskIntr
  deriving DecidableEq

def irqMaxCount : Nat := 64

def intrinit : List IntrHandler := List.replicate irqMaxCount .defintr

def intrset (intrs : List IntrHandler) (id : Nat) (ih : IntrHandler) : List IntrHandler :=
  if id < irqMaxCount then intrs.set id ih else intrs

/-- What `irqhandle` calls for the number it reads from `GICC_IAR`. -/
def irqhandle (intrs : List IntrHandler) (behind : Nat → Nat) (id : Nat) : Slot IntrHandler := slot intrs behind id

/-- The table after a number of calls of `intrset`. -/
def installed (sets : List (Nat × IntrHandler)) : List IntrHandler :=
  sets.foldl (fun intrs set => intrset intrs set.1 set.2) intrinit

/-! ### Bounds -/

variable {H : Type} {table : List H} {behind : Nat → Nat} {i : Nat} {env : Env}

theorem slot_of_lt (h : i < table.length) : slot table behind i = .entry table[i] := by
  rw [slot, List.getElem?_eq_getElem h]

theorem slot_of_le (h : table.length ≤ i) : slot table behind i = .stray (behind (i - table.length)) := by
  rw [slot, List.getElem?_eq_none h]

theorem slot_entry_iff : (∃ h, slot table behind i = .entry h) ↔ i < table.length := by
  constructor
  · rintro ⟨h, he⟩
    by_contra hle
    rw [slot_of_le (Nat.le_of_not_lt hle)] at he
    cases he
  · intro hlt
    exact ⟨_, slot_of_lt hlt⟩

/-- The check of `syscall` lets the number behind the last one through, unless there is a null pointer. -/
theorem syscall_ok_iff (x0 : Nat) : (syscall behind x0 = none ∨ ∃ h, syscall behind x0 = some (.entry h)) ↔
      (x0 = syscalls.length → behind 0 = 0) := by
  rw [syscall]
  rcases Nat.lt_trichotomy x0 syscalls.length with hlt | heq | hgt
  · rw [slot_of_lt hlt, if_pos ⟨Nat.le_of_lt hlt, rfl⟩]
    exact ⟨fun _ he => absurd he (Nat.ne_of_lt hlt), fun _ => .inr ⟨_, rfl⟩⟩
  · rw [slot_of_le (Nat.le_of_eq heq.symm), heq, Nat.sub_self]
    by_cases hnull : behind 0 = 0
    · rw [if_neg (by simp [Slot.isNull, hnull])]
      exact ⟨fun _ _ => hnull, fun _ => .inl rfl⟩
    · rw [if_pos ⟨Nat.le_refl _, by simpa [Slot.isNull] using hnull⟩]
      refine ⟨fun hcalled => ?_, fun himp => absurd (himp rfl) hnull⟩
      rcases hcalled with hnone | ⟨h, he⟩
      · cases hnone
      · cases he
  · rw [if_neg (fun hle => Nat.not_le_of_lt hgt hle.1)]
    exact ⟨fun _ he => absurd he (Nat.ne_of_gt hgt), fun _ => .inl rfl⟩

theorem argfd_spec (env : Env) : (∀ a ∈ (argfd env).2, a.InBounds) ∧
    ∀ fd f, (argfd env).1 = some (fd, f) → (Access.ofile fd).InBounds := by
  unfold argfd
  dsimp only
  split
  · exact ⟨nofun, nofun⟩
  · next hfd =>
      rw [not_or, not_lt, ge_iff_le, not_le] at hfd
      constructor
      · intro a ha
        rw [mem_singleton.mp ha]
        exact hfd
      · intro fd f hsome
        obtain ⟨g, -, hg⟩ := Option.map_eq_some_iff.mp hsome
        rw [← (Prod.mk.inj hg).1]
        exact hfd

theorem range_inBounds {n : Nat} (hn : n ≤ nofile) :
    ∀ a ∈ (List.range n).map (fun i : Nat => Access.ofile i), a.InBounds := by
  intro a ha
  obtain ⟨i, hi, rfl⟩ := mem_map.mp ha
  have hlt : i < nofile := Nat.lt_of_lt_of_le (mem_range.mp hi) hn
  exact ⟨Int.natCast_nonneg i, Int.ofNat_lt.mpr hlt⟩

theorem fdalloc_spec (ofile : Ofile) : (∀ a ∈ (fdalloc ofile).2, a.InBounds) ∧
    ∀ fd : Nat, (fdalloc ofile).1 = some fd → (Access.ofile fd).InBounds := by
  unfold fdalloc
  split
  · next fd hfd =>
      have hlt : fd < nofile := mem_range.mp (List.mem_of_find?_eq_some hfd)
      have hin : (Access.ofile fd).InBounds := ⟨Int.natCast_nonneg fd, Int.ofNat_lt.mpr hlt⟩
      constructor
      · intro a ha
        rcases mem_append.mp ha with ha | ha
        · exact range_inBounds hlt a ha
        · rw [mem_singleton.mp ha]
          exact hin
      · intro fd' hsome
        cases hsome
        exact hin
  · exact ⟨range_inBounds (Nat.le_refl nofile), nofun⟩

theorem fileDev_inBounds (f : File) (allowed : Bool) : ∀ a ∈ fileDev f allowed, a.InBounds := by
  unfold fileDev
  intro a ha
  split at ha
  · cases ha
  · split at ha
    · split at ha
      · cases ha
      · next hmajor =>
          rw [not_or, not_lt, ge_iff_le, not_le] at hmajor
          have ha : a = .devsw f.major := by simpa using ha
          rw [ha]
          exact hmajor
    · cases ha

theorem pipeAccesses_inBounds : ∀ a ∈ pipeAccesses env, a.InBounds := by
  unfold pipeAccesses
  intro a ha
  split at ha
  · cases ha
  dsimp only at ha
  obtain ⟨hall, hfd⟩ := fdalloc_spec env.ofile
  split at ha
  · exact hall a ha
  · next i hi =>
      obtain ⟨hall', hfd'⟩ := fdalloc_spec (Function.update env.ofile i (some 0))
      split at ha
      · rcases mem_append.mp ha with ha | ha
        · exact (mem_append.mp ha).elim (hall a) (hall' a)
        · rw [mem_singleton.mp ha]
          exact hfd i hi
      · next j hj =>
          rcases mem_append.mp ha with ha | ha
          · exact (mem_append.mp ha).elim (hall a) (hall' a)
          · split at ha
            · cases ha
            · rcases mem_cons.mp ha with rfl | ha
              · exact hfd i hi
              · rw [mem_singleton.mp ha]
                exact hfd' j hj

theorem withFd_inBounds {k : Int → Nat → List Access}
    (hk : ∀ fd f, (Access.ofile fd).InBounds → ∀ a ∈ k fd f, a.InBounds) : ∀ a ∈ withFd env k, a.InBounds := by
  obtain ⟨hall, hfd⟩ := argfd_spec env
  intro a ha
  rcases mem_append.mp ha with ha | ha
  · exact hall a ha
  · split at ha
    · next fd f hr => exact hk fd f (hfd fd f hr) a ha
    · cases ha

theorem accesses_inBounds (env : Env) (h : Handler) : ∀ a ∈ h.accesses env, a.InBounds := by
  cases h with
  | sysWrite => exact withFd_inBounds fun fd f _ => fileDev_inBounds _ _
  | sysRead => exact withFd_inBounds fun fd f _ => fileDev_inBounds _ _
  | sysDup => exact withFd_inBounds fun fd f _ => (fdalloc_spec env.ofile).1
  | sysClose =>
    refine withFd_inBounds fun fd f hin a ha => ?_
    rw [mem_singleton.mp ha]
    exact hin
  | sysFstat => exact (argfd_spec env).1
  | sysOpen =>
    intro a ha
    simp only [Handler.accesses] at ha
    split at ha
    · exact (fdalloc_spec env.ofile).1 a ha
    · cases ha
  | sysPipe => exact pipeAccesses_inBounds
  | sysFork => exact range_inBounds (Nat.le_refl nofile)
  | sysExit => exact range_inBounds (Nat.le_refl nofile)
  | _ => exact nofun

theorem length_installed (sets : List (Nat × IntrHandler)) : (installed sets).length = irqMaxCount := by
  have hkeep : ∀ intrs : List IntrHandler, intrs.length = irqMaxCount →
      (sets.foldl (fun intrs set => intrset intrs set.1 set.2) intrs).length = irqMaxCount := by
    induction sets with
    | nil => exact fun _ h => h
    | cons set sets ih =>
      intro intrs hlen
      apply ih
      change (intrset intrs set.1 set.2).length = irqMaxCount
      rw [intrset]
      split
      · rw [length_set, hlen]
      · exact hlen
  exact hkeep intrinit length_replicate

/-- **The dispatch tables are indexed in bounds just when the number is not the one behind the last system call, or
there happens to be a null pointer there, and the interrupt number is below `IRQ_MAX_COUNT`.** The descriptor table
and `devsw` are always indexed in bounds. -/
theorem dispatch_in_bounds_iff (behind behindIntrs : Nat → Nat) (x0 : Nat) (env : Env)
    (sets : List (Nat × IntrHandler)) (id : Nat) :
    ((syscall behind x0 = none ∨ ∃ h, syscall behind x0 = some (.entry h)) ∧
      (∀ h, syscall behind x0 = some (.entry h) → ∀ a ∈ h.accesses env, a.InBounds) ∧
      ∃ h, irqhandle (installed sets) behindIntrs id = .entry h) ↔
    (x0 = syscalls.length → behind 0 = 0) ∧ id < irqMaxCount := by
  have hirq : (∃ h, irqhandle (installed sets) behindIntrs id = .entry h) ↔ id < irqMaxCount := by
    rw [← length_installed sets]
    exact slot_entry_iff
  rw [syscall_ok_iff, hirq]
  constructor
  · rintro ⟨hsys, -, hid⟩
    exact ⟨hsys, hid⟩
  · rintro ⟨hsys, hid⟩
    exact ⟨hsys, fun h _ => accesses_inBounds env h, hid⟩

/-- With a word other than 0 behind the tables, system call 23 calls what it points to, and so does the spurious
interrupt 1023. -/
theorem dispatch_out_of_bounds : syscall (fun _ => 1) 23 = some (.stray 1) ∧
    irqhandle (installed []) (fun _ => 1) 1023 = .stray 1 := by
  decide

end Xv6Armv8.Dispatch
