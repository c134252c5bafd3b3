import Xv6Armv8.IntrNest

/-! Where `exit` is entered. `svcintr`, `defintr` and `irqintr` call it, the last one without a look at the
exception level it came from. The kernel of `IntrModel` gets beside it what a process holds besides spin locks:
sleep locks and an operation of the log. A handler may take and give back whatever it likes before it asks
`killed`; the code an IRQ at EL1 interrupts may not, and that is either `forkret` of a later process, which
holds nothing, or the mount of the file system in `forkret` of the first one, when there is nobody yet to kill
it. -/

namespace Xv6Armv8.Intr

open Function Option StepRun

/-! ### Handlers -/

/-- How far a handler has come: before its test of `killed`, behind it, or in `exit`. -/
inductive Phase where
  | body
  | checked
  | exiting
  deriving DecidableEq

/-- What a process holds: calls of `push_off`, sleep locks and calls of `begin_op`. -/
structure Held where
  spin : Nat
  sleep : Nat
  ops : Nat
  deriving DecidableEq

/-- What a process has besides its thread. -/
structure Task where
  killed : Bool
  sleep : Nat
  ops : Nat
  /-- What it held when it took its last trap, and how far the handler has come. -/
  entry : Held
  phase : Phase
  /-- Whether `forkret` is in `fsinit`. -/
  mounting : Bool
  /-- History: how often the process has entered `exit`. -/
  exits : Nat

def newTask : Task where
  killed := false
  sleep := 0
  ops := 0
  entry := ⟨0, 0, 0⟩
  phase := .body
  mounting := false
  exits := 0

structure Sys where
  kern : State
  task : Pid → Task
  /-- The static variable of `forkret`. -/
  first : Bool

def bootSys : Sys where
  kern := boot
  task := fun _ => newTask
  first := true

def Task.held (k : Task) (t : Thread) : Held := ⟨t.depth, k.sleep, k.ops⟩

/-- The activations of `svcintr`, `defintr` and `irqintr`. -/
def inTrap : List Frame → Bool
  | .svc :: _ | .irq0 :: _ | .irq1 :: _ => true
  | _ => false

/-- The code that takes sleep locks and runs operations of the log: system calls, `exit` and `fsinit`. -/
def Task.mayBlock (k : Task) (t : Thread) : Bool :=
  (t.frames = [.svc] ∧ k.phase = .body) ∨ (inTrap t.frames ∧ k.phase = .exiting) ∨
    (t.frames = [.forkret] ∧ k.mounting)

/-- Whether the process is in a system call. -/
def Task.inSyscall (k : Task) (t : Thread) : Bool := t.frames = [.svc] ∧ k.phase = .body

/-- The events of the kernel that a process can bring about where it is: a handler returns behind its test
of `killed`, `forkret` behind `fsinit`, and only `exit` makes a zombie. -/
def Task.allows (k : Task) (t : Thread) : Event → Bool
  | .handlerRet _ => if t.frames = [.forkret] then !k.mounting else k.phase = .checked
  | .setState _ st => st = .zombie → k.phase = .exiting
  | _ => true

/-- What an event of the kernel changes for the process that brings it about. -/
def Task.after (k : Task) (t : Thread) (first : Bool) : Event → Task
  | .forkretRelease _ => { k with mounting := first }
  | .svc _ | .irqUser _ | .irqKernel _ => { k with entry := k.held t, phase := .body }
  | _ => k

def Event.mounts : Event → Bool
  | .forkretRelease _ => true
  | _ => false

/-! ### Steps -/

inductive Act where
  /-- An event of the kernel, but for those of `fork` and `wait` on another process. -/
  | kern (e : Event)
  /-- `fork`, `wait` and `kill` of the process on a CPU. -/
  | alloc (c : Cid) (i : Pid)
  | start (c : Cid) (i : Pid)
  | free (c : Cid) (i : Pid)
  | kill (c : Cid) (i : Pid)
  /-- `acquiresleep`, `releasesleep`, `begin_op` and `end_op`. -/
  | lockSleep (c : Cid)
  | unlockSleep (c : Cid)
  | beginOp (c : Cid)
  | endOp (c : Cid)
  /-- The test of `killed` at the end of `svcintr` and `irqintr`, on top of a process and of a scheduler. -/
  | check (c : Cid)
  | schedCheck (c : Cid)
  /-- `exit`, called by `sys_exit` or `defintr`. -/
  | exit (c : Cid)
  /-- The return of `fsinit`. -/
  | mounted (c : Cid)

def Sys.setTask (x : Sys) (i : Pid) (k : Task) : Sys := { x with task := update x.task i k }

/-- `exit` is entered. -/
def Task.enterExit (k : Task) : Task := { k with phase := .exiting, exits := k.exits + 1 }

/-- The process on a CPU and what it does. -/
def Sys.onCpu (x : Sys) (c : Cid) (f : Pid → Thread → Task → Option Sys) : Option Sys :=
  match (x.kern.cpu c).pos with
  | .inProc i => f i (x.kern.thread i) (x.task i)
  | _ => none

def stepKern (x : Sys) (e : Event) : Option Sys :=
  match e.onProc with
  | some c => x.onCpu c fun i t k =>
    if k.allows t e then
      (step x.kern e).map fun s =>
        { x.setTask i (k.after t x.first e) with kern := s, first := x.first && !e.mounts }
    else none
  | none =>
    match e with
    | .alloc _ | .start _ | .free _ => none
    | e => (step x.kern e).map fun s => { x with kern := s }

def stepSys (x : Sys) (a : Act) : Option Sys :=
  if x.kern.panicked.isSome then none
  else match a with
  | .kern e => stepKern x e
  | .alloc c i => x.onCpu c fun _ t k =>
    if k.inSyscall t then
      -- allocproc leaves p->killed as it is
      (step x.kern (.alloc i)).map fun s =>
        { x.setTask i { newTask with killed := (x.task i).killed } with kern := s }
    else none
  | .start c i => x.onCpu c fun _ t k =>
    if k.inSyscall t then (step x.kern (.start i)).map fun s => { x with kern := s } else none
  | .free c i => x.onCpu c fun _ t k =>
    if k.inSyscall t then (step x.kern (.free i)).map fun s => { x.setTask i newTask with kern := s } else none
  | .kill c i => x.onCpu c fun _ t k =>
    if k.inSyscall t then some (x.setTask i { x.task i with killed := true }) else none
  | .lockSleep c => x.onCpu c fun i t k =>
    if k.mayBlock t then some (x.setTask i { k with sleep := k.sleep + 1 }) else none
  | .unlockSleep c => x.onCpu c fun i t k =>
    if k.mayBlock t ∧ 0 < k.sleep then some (x.setTask i { k with sleep := k.sleep - 1 }) else none
  | .beginOp c => x.onCpu c fun i t k =>
    if k.mayBlock t then some (x.setTask i { k with ops := k.ops + 1 }) else none
  | .endOp c => x.onCpu c fun i t k =>
    if k.mayBlock t ∧ 0 < k.ops then some (x.setTask i { k with ops := k.ops - 1 }) else none
  | .check c => x.onCpu c fun i t k =>
    -- what the handler has taken it has given back
    if inTrap t.frames ∧ k.phase = .body ∧ k.held t = k.entry then
      some (x.setTask i (if k.killed then k.enterExit else { k with phase := .checked }))
    else none
  | .schedCheck c =>
    match (x.kern.cpu c).proc with
    | some i =>
      if (x.kern.cpu c).irq = true ∧ (x.task i).killed then some (x.setTask i (x.task i).enterExit)
      else none
    | none => none
  | .exit c => x.onCpu c fun i t k =>
    if k.inSyscall t ∧ k.held t = k.entry then some (x.setTask i k.enterExit) else none
  | .mounted c => x.onCpu c fun i t k =>
    if t.frames = [.forkret] ∧ k.mounting ∧ k.held t = ⟨0, 0, 0⟩ then
      some (x.setTask i { k with mounting := false })
    else none

/-- The process that an action makes enter `exit`, and the CPU it does so on. -/
def Sys.entersExit (x : Sys) : Act → Option (Cid × Pid)
  | .check c =>
    match (x.kern.cpu c).pos with
    | .inProc i => if (x.task i).killed then some (c, i) else none
    | _ => none
  | .schedCheck c => (x.kern.cpu c).proc.map fun i => (c, i)
  | .exit c =>
    match (x.kern.cpu c).pos with
    | .inProc i => some (c, i)
    | _ => none
  | _ => none

/-! ### What a process holds where it is -/

/-- What a process with activations `f` holds. -/
def TaskOk (k : Task) : List Frame → Prop
  | [] | [.forkretEntry] | [.ret _] => k.exits = 0 ∧ k.mounting = false ∧ k.sleep = 0 ∧ k.ops = 0
  | [.forkret] => k.exits = 0 ∧ (k.mounting = false → k.sleep = 0 ∧ k.ops = 0)
  | [.svc] => k.mounting = false ∧ k.entry = ⟨0, 0, 0⟩ ∧ k.exits = (if k.phase = .exiting then 1 else 0) ∧
      (k.phase = .checked → k.sleep = 0 ∧ k.ops = 0)
  | [.irq0] => k.mounting = false ∧ k.entry = ⟨0, 0, 0⟩ ∧ k.exits = (if k.phase = .exiting then 1 else 0) ∧
      (k.phase ≠ .exiting → k.sleep = 0 ∧ k.ops = 0)
  | .irq1 :: rest => (rest = [.forkret] ∨ rest = [.ret true] ∧ k.mounting = false) ∧ k.entry.spin = 0 ∧
      k.exits = (if k.phase = .exiting then 1 else 0) ∧
      (k.phase ≠ .exiting → k.mounting = false → k.sleep = 0 ∧ k.ops = 0)
  | _ => False

/-- While the file system is not yet mounted there is one process, in `forkret`, and nobody is killed. -/
structure Early (x : Sys) : Prop where
  killed : ∀ i, (x.task i).killed = false
  alone : ∀ i, (x.kern.thread i).state ≠ .unused → i = 0
  frames : (x.first = true ∧ (x.kern.thread 0).frames = [.forkretEntry]) ∨ (x.first = false ∧
      ((x.kern.thread 0).frames = [.forkret] ∨ (x.kern.thread 0).frames = [.irq1, .forkret]))

structure ExitInv (x : Sys) : Prop where
  inv : Inv x.kern
  proc : ∀ c, (x.kern.cpu c).Whose
  task : ∀ i, TaskOk (x.task i) (x.kern.thread i).frames
  mounting : ∀ i, (x.task i).mounting = true → i = 0
  early : x.first = true ∨ (x.task 0).mounting = true → Early x

theorem exitInv_boot : ExitInv bootSys where
  inv := Inv.boot
  proc := fun c => rfl
  task := fun i => by
    by_cases hi : i = 0
    · subst hi
      exact ⟨rfl, rfl, rfl, rfl⟩
    · simp only [bootSys, boot, hi, if_false, noThread]
      exact ⟨rfl, rfl, rfl, rfl⟩
  mounting := fun i h => by cases h
  early := fun _ => {
    killed := fun _ => rfl
    alone := fun i hi => by
      by_contra h0
      simp [bootSys, boot, h0, noThread] at hi
    frames := .inl ⟨rfl, rfl⟩ }

/-! ### `c->proc` -/

variable {c : Cid} {e : Event} {i : Pid} {k : Task} {s s' : State} {t : Thread} {x x' : Sys}

theorem whose_replace {k : Cpu} (h : ∀ c, (s.cpu c).Whose)
    (hcpu : s'.cpu = update s.cpu c k) (hk : k.Whose) (c' : Cid) : (s'.cpu c').Whose := by
  rw [hcpu, update_apply]
  split
  · exact hk
  · exact h c'

/-- A step keeps `c->proc`, also when it goes from a process to the scheduler or back. -/
theorem Inv.whose_step (h : Inv s) (hw : ∀ c, (s.cpu c).Whose)
    (hs : Intr.step s e = some s') (hok : s'.panicked = none) (c' : Cid) : (s'.cpu c').Whose := by
  obtain ⟨-, hs | hs | ⟨c, i, hon, hp, hs⟩⟩ := step_parts hs
  · cases e with
    | alloc i | start i | wake i | free i =>
      obtain ⟨-, rfl⟩ := guarded hs
      exact hw c'
    | _ => cases hs
  · rcases stepSched_outcome h hs with ⟨msg, -, rfl⟩ | ⟨c, k, hsw⟩ | ⟨c, i, rfl, hp, hst, rfl⟩
    · cases hok
    · exact whose_replace hw hsw.cpu (hsw.whose (hw c)) c'
    · obtain ⟨-, hn, hm, -⟩ := h.locked (.inl hp)
      rw [dispatch_eq i hn hm]
      split
      · refine whose_replace (c := c) hw rfl ?_ c'
        rfl
      · refine whose_replace (c := c) hw rfl ?_ c'
        rfl
  · obtain ⟨k, t, hwr⟩ := stepProc_writes h hp hon hs hok
    have hc := hw c
    simp only [Cpu.Whose, hp] at hc
    refine whose_replace hw hwr.cpu ?_ c'
    unfold Cpu.Whose
    rcases hwr.pos with hpos | ⟨hpos, -⟩ <;> rw [hwr.proc, hc, hpos]

/-! ### What one event of the kernel changes -/

/-- Neither a system call nor `exit` nor the mount minds how many sleep locks and operations it has. -/
theorem TaskOk.block (h : TaskOk k t.frames) (hb : k.mayBlock t = true) (a b : Nat) :
    TaskOk { k with sleep := a, ops := b } t.frames := by
  simp only [Task.mayBlock, decide_eq_true_eq] at hb
  rcases hb with ⟨hf, hphase⟩ | ⟨hf, hphase⟩ | ⟨hf, hm⟩
  · rw [hf] at h ⊢
    exact ⟨h.1, h.2.1, h.2.2.1, by simp [hphase]⟩
  · revert h hf
    unfold TaskOk
    split <;> simp_all [inTrap]
  · rw [hf] at h ⊢
    exact ⟨h.1, by simp [hm]⟩

theorem TaskOk.stepProc {first : Bool} (hinv : Inv s)
    (hp : (s.cpu c).pos = .inProc i) (h : TaskOk k (s.thread i).frames)
    (hal : k.allows (s.thread i) e = true) (hs : stepProc s c i e = some s') :
    TaskOk (k.after (s.thread i) first e) (framesAfter (s.thread i).frames e) := by
  have hctx := (hinv.runs hp).2.ctx
  cases e with
  | forkretRelease _ =>
    obtain ⟨hf, -⟩ := ite_none_right_eq_some.mp hs
    rw [hf] at h
    exact ⟨h.1, fun _ => h.2.2⟩
  | svc _ =>
    obtain ⟨hf, -⟩ := ite_none_right_eq_some.mp hs
    rw [hf] at h hctx
    obtain ⟨hex, hm, hsl, hops⟩ := h
    exact ⟨hm, by simp [Task.after, Task.held, hctx.1, hsl, hops], by simpa [Task.after] using hex,
      by simp [Task.after]⟩
  | irqUser _ =>
    obtain ⟨⟨hf, -⟩, -⟩ := ite_none_right_eq_some.mp hs
    rw [hf] at h hctx
    obtain ⟨hex, hm, hsl, hops⟩ := h
    exact ⟨hm, by simp [Task.after, Task.held, hctx.1, hsl, hops], by simpa [Task.after] using hex,
      fun _ => ⟨hsl, hops⟩⟩
  | irqKernel _ =>
    obtain ⟨⟨hf, hm⟩, -⟩ := ite_none_right_eq_some.mp hs
    rw [hm] at hctx
    obtain ⟨hd, -, hrest⟩ := ctx_unmasked hf hctx
    rcases hrest with hf | hf
    · rw [hf] at h ⊢
      exact ⟨.inl rfl, hd, by simpa [Task.after] using h.1, fun _ => h.2⟩
    · rw [hf] at h ⊢
      exact ⟨.inr ⟨rfl, h.2.1⟩, hd, by simpa [Task.after] using h.1, fun _ _ => h.2.2⟩
  | handlerRet _ =>
    obtain ⟨-, hs⟩ := ite_none_right_eq_some.mp hs
    simp only [Task.allows] at hal
    split at hs
    · next hf =>
        rw [hf] at h hal ⊢
        simp only [List.cons.injEq, reduceCtorEq, false_and, if_false, decide_eq_true_eq] at hal
        exact ⟨by simpa [Task.after, hal] using h.2.2.1, h.1, h.2.2.2 hal⟩
    · next hf =>
        rw [hf] at h hal ⊢
        simp only [List.cons.injEq, reduceCtorEq, false_and, if_false, decide_eq_true_eq] at hal
        exact ⟨by simpa [Task.after, hal] using h.2.2.1, h.1, h.2.2.2 (by simp [hal])⟩
    · next hf =>
        rw [hf, if_pos rfl] at hal
        rw [hf] at h ⊢
        have hm : k.mounting = false := by simpa using hal
        exact ⟨h.1, hm, h.2 hm⟩
    · next rest hf =>
        rw [hf] at h hal ⊢
        simp only [List.cons.injEq, reduceCtorEq, false_and, if_false, decide_eq_true_eq] at hal
        obtain ⟨hrest, -, hex, hclean⟩ := h
        have hex' : k.exits = 0 := by simpa [hal] using hex
        have hclean' := hclean (by simp [hal])
        rcases hrest with rfl | ⟨rfl, hm⟩
        · exact ⟨hex', hclean'⟩
        · exact ⟨hex', hm, hclean' hm⟩
    · cases hs
  | eret _ =>
    simp only [Intr.stepProc] at hs
    split at hs
    · next hf =>
        rw [hf] at h
        exact h
    · cases hs
  | acquire _ | release _ | acquireSelf _ | setState _ st | releaseSelf _ | sched _ => exact h
  | _ => cases hs

/-- An event of the first process before the file system is mounted keeps it in `forkret`. -/
theorem frames_early (h : ExitInv x) (hp : (x.kern.cpu c).pos = .inProc 0) (he : Early x)
    (hal : (x.task 0).allows (x.kern.thread 0) e = true) (hs : stepProc x.kern c 0 e = some s') :
    (e.mounts = true ∧ framesAfter (x.kern.thread 0).frames e = [.forkret]) ∨
      (e.mounts = false ∧ ((x.task 0).mounting = false ∧ x.first = false ∨
        framesAfter (x.kern.thread 0).frames e = (x.kern.thread 0).frames ∨
        x.first = false ∧ (framesAfter (x.kern.thread 0).frames e = [.forkret] ∨
          framesAfter (x.kern.thread 0).frames e = [.irq1, .forkret]))) := by
  have hctx := (h.inv.runs hp).2.ctx
  cases e with
  | forkretRelease _ => exact .inl ⟨rfl, rfl⟩
  | svc _ =>
    obtain ⟨hf, -⟩ := ite_none_right_eq_some.mp hs
    rcases he.frames with ⟨-, hf'⟩ | ⟨-, hf' | hf'⟩ <;> simp [hf] at hf'
  | irqUser _ =>
    obtain ⟨⟨hf, -⟩, -⟩ := ite_none_right_eq_some.mp hs
    rcases he.frames with ⟨-, hf'⟩ | ⟨-, hf' | hf'⟩ <;> simp [hf] at hf'
  | irqKernel _ =>
    obtain ⟨⟨hf, hm⟩, -⟩ := ite_none_right_eq_some.mp hs
    rw [hm] at hctx
    obtain ⟨-, -, hrest⟩ := ctx_unmasked hf hctx
    rcases he.frames with ⟨-, hf'⟩ | ⟨h1, hf' | hf'⟩
    · simp [hf'] at hrest
    · rw [hf']
      exact .inr ⟨rfl, .inr (.inr ⟨h1, .inr rfl⟩)⟩
    · simp [hf'] at hrest
  | handlerRet _ =>
    obtain ⟨-, hs⟩ := ite_none_right_eq_some.mp hs
    rcases he.frames with ⟨-, hf⟩ | ⟨h1, hf | hf⟩
    · simp [hf] at hs
    · simp only [Task.allows, hf, if_true] at hal
      exact .inr ⟨rfl, .inl ⟨by simpa using hal, h1⟩⟩
    · rw [hf]
      exact .inr ⟨rfl, .inr (.inr ⟨h1, .inl rfl⟩)⟩
  | eret _ =>
    simp only [stepProc] at hs
    rcases he.frames with ⟨-, hf⟩ | ⟨-, hf | hf⟩ <;> simp [hf] at hs
  | acquire _ | release _ | acquireSelf _ | setState _ st | releaseSelf _ | sched _ =>
    exact .inr ⟨rfl, .inr (.inl rfl)⟩
  | _ => cases hs

/-! ### Every action keeps the invariant -/

theorem onCpu_cases {f : Pid → Thread → Task → Option Sys} (h : x.onCpu c f = some x') :
    ∃ i, (x.kern.cpu c).pos = .inProc i ∧ f i (x.kern.thread i) (x.task i) = some x' := by
  unfold Sys.onCpu at h
  split at h
  · next i hp => exact ⟨i, hp, h⟩
  · cases h

theorem ExitInv.stepProc (h : ExitInv x)
    (hp : (x.kern.cpu c).pos = .inProc i) (hal : (x.task i).allows (x.kern.thread i) e = true)
    (hon : e.onProc = some c) (hs : Intr.stepProc x.kern c i e = some s') (hstep : Intr.step x.kern e = some s')
    (hok : s'.panicked = none) :
    ExitInv { x.setTask i ((x.task i).after (x.kern.thread i) x.first e) with
      kern := s', first := x.first && !e.mounts } := by
  obtain ⟨k, t, hw⟩ := stepProc_writes h.inv hp hon hs hok
  have hmount : ((x.task i).after (x.kern.thread i) x.first e).mounting = true →
      (x.task i).mounting = true ∨ x.first = true ∧ e.mounts = true := by
    cases e <;> first | exact fun hm => .inl hm | exact fun hm => .inr ⟨hm, rfl⟩
  have hzero : x.first = true → i = 0 := fun h1 => (h.early (.inl h1)).alone i (h.inv.runs hp).2.used
  refine ⟨Inv.step (fun _ => h.inv) hstep hok, h.inv.whose_step h.proc hstep hok, fun j => ?_,
    fun j hj => ?_, fun hearly => ?_⟩
  · by_cases hji : j = i
    · subst hji
      simp only [Sys.setTask, update_self, hw.thread, hw.frames]
      exact (h.task j).stepProc h.inv hp hal hs
    · simpa [Sys.setTask, hw.thread, hji] using h.task j
  · by_cases hji : j = i
    · subst hji
      simp only [Sys.setTask, update_self] at hj
      rcases hmount hj with hm | ⟨h1, -⟩
      · exact h.mounting j hm
      · exact hzero h1
    · exact h.mounting j (by simpa [Sys.setTask, hji] using hj)
  · -- before the mount has ended there is only the first process
    have hold : x.first = true ∨ (x.task 0).mounting = true := by
      rcases hearly with h1 | hm
      · exact .inl (by simpa using (Bool.and_eq_true_iff.mp h1).1)
      · by_cases h0 : (0 : Pid) = i
        · subst h0
          simp only [Sys.setTask, update_self] at hm
          exact (hmount hm).symm.imp And.left id
        · exact .inr (by simpa [Sys.setTask, h0] using hm)
    have he := h.early hold
    obtain rfl : i = 0 := he.alone i (h.inv.runs hp).2.used
    refine ⟨fun j => ?_, fun j hj => ?_, ?_⟩
    · by_cases hj : j = 0
      · subst hj
        simp only [Sys.setTask, update_self]
        have hk := he.killed 0
        cases e <;> exact hk
      · simpa [Sys.setTask, hj] using he.killed j
    · by_contra h0
      exact h0 (he.alone j (by simpa [hw.thread, h0] using hj))
    · simp only [hw.thread, update_self, hw.frames]
      rcases frames_early h hp he hal hs with ⟨hm, hf⟩ | ⟨hm, ⟨hmf, h1⟩ | hf | ⟨h1, hf⟩⟩
      · exact .inr ⟨by simp [hm], .inl hf⟩
      · rcases hold with h | h
        · rw [h1] at h
          cases h
        · rw [hmf] at h
          cases h
      · rw [hf]
        simpa [hm] using he.frames
      · exact .inr ⟨by simp [h1], hf⟩

theorem ExitInv.keep (h : ExitInv x) (hstep : Intr.step x.kern e = some s')
    (hok : s'.panicked = none) (hframes : ∀ i, (s'.thread i).frames = (x.kern.thread i).frames)
    (hused : ∀ i, (s'.thread i).state ≠ .unused → (x.kern.thread i).state ≠ .unused) :
    ExitInv { x with kern := s' } where
  inv := Inv.step (fun _ => h.inv) hstep hok
  proc := h.inv.whose_step h.proc hstep hok
  task := fun i => by
    rw [hframes]
    exact h.task i
  mounting := h.mounting
  early := fun hearly => by
    have he := h.early hearly
    refine ⟨he.killed, fun i hi => he.alone i (hused i hi), ?_⟩
    rw [hframes]
    exact he.frames

theorem ExitInv.runnable (h : ExitInv x)
    (hstep : Intr.step x.kern e = some (x.kern.setThread i { x.kern.thread i with state := .runnable }))
    (hok : x.kern.panicked = none) (hst : (x.kern.thread i).state ≠ .unused) :
    ExitInv { x with kern := x.kern.setThread i { x.kern.thread i with state := .runnable } } := by
  refine h.keep hstep hok (fun j => ?_) fun j hj => ?_
  · by_cases hji : j = i
    · subst hji
      simp [State.setThread]
    · simp [State.setThread, hji]
  · by_cases hji : j = i
    · exact hji ▸ hst
    · simpa [State.setThread, hji] using hj

theorem Inv.sched_keeps (h : Inv s) (hs : Intr.stepSched s e = some s')
    (hok : s'.panicked = none) (i : Pid) : (s'.thread i).frames = (s.thread i).frames ∧
      ((s'.thread i).state ≠ .unused → (s.thread i).state ≠ .unused) := by
  rcases stepSched_outcome h hs with ⟨msg, -, rfl⟩ | ⟨c, k, hw⟩ | ⟨c, j, rfl, hp, hst, rfl⟩
  · cases hok
  · rw [hw.thread]
    exact ⟨rfl, id⟩
  · obtain ⟨-, hn, hm, -⟩ := h.locked (.inl hp)
    rw [dispatch_eq j hn hm]
    by_cases hij : i = j
    · subst hij
      split <;> simp [State.setThread, hst]
    · split <;> simp [State.setThread, State.setCpu, hij]

theorem ExitInv.stepKern (h : ExitInv x) (hs : stepKern x e = some x')
    (hok : x'.kern.panicked = none) : ExitInv x' := by
  unfold Intr.stepKern at hs
  split at hs
  · next c hc =>
      obtain ⟨i, hp, hs⟩ := onCpu_cases hs
      obtain ⟨hal, hs⟩ := ite_none_right_eq_some.mp hs
      obtain ⟨s', hstep, rfl⟩ := map_eq_some_iff.mp hs
      obtain ⟨-, ht | hs' | ⟨c', j, hc', hp', hs'⟩⟩ := step_parts hstep
      · cases e <;> first | cases ht | cases hc
      · cases e <;> first | cases hs' | cases hc
      · obtain rfl : c = c' := some.inj (hc.symm.trans hc')
        obtain rfl : i = j := Pos.inProc.inj (hp.symm.trans hp')
        exact h.stepProc hp hal hc hs' hstep hok
  · next hc =>
      have key : ∀ {e}, (step x.kern e).map (fun s => ({ x with kern := s } : Sys)) = some x' →
          e.onProc = none → (∀ i, e ≠ .alloc i) → (∀ i, e ≠ .free i) → ExitInv x' := by
        intro e hs hc ha hf
        obtain ⟨s', hstep, rfl⟩ := map_eq_some_iff.mp hs
        obtain ⟨-, ht | hs' | ⟨c, i, hc', -⟩⟩ := step_parts hstep
        · cases e with
          | alloc i => exact absurd rfl (ha i)
          | free i => exact absurd rfl (hf i)
          | start i | wake i =>
            obtain ⟨⟨-, hst⟩, rfl⟩ := guarded ht
            exact h.runnable hstep hok (by simp [hst])
          | _ => cases ht
        · exact h.keep hstep hok (fun i => (h.inv.sched_keeps hs' hok i).1) fun i =>
            (h.inv.sched_keeps hs' hok i).2
        · rw [hc] at hc'
          cases hc'
      split at hs
      · cases hs
      · cases hs
      · cases hs
      · next e' ha hst hf => exact key hs hc ha hf

theorem ExitInv.mounted (h : ExitInv x) (hp : (x.kern.cpu c).pos = .inProc i)
    (hf : (x.kern.thread i).frames = [.svc]) : x.first = false ∧ (x.task 0).mounting = false := by
  by_contra hno
  have hearly : x.first = true ∨ (x.task 0).mounting = true := by
    by_contra hn
    push Not at hn
    exact hno ⟨by simpa using hn.1, by simpa using hn.2⟩
  have he := h.early hearly
  obtain rfl := he.alone i (h.inv.runs hp).2.used
  rcases he.frames with ⟨-, hf'⟩ | ⟨-, hf' | hf'⟩ <;> simp [hf] at hf'

/-- An action that changes what one process has, and perhaps the slot of the process table it is in. -/
theorem ExitInv.setTask (h : ExitInv x) (hk : TaskOk k (x.kern.thread i).frames)
    (hm : k.mounting = true → (x.task i).mounting = true)
    (hkill : (x.first = true ∨ (x.task 0).mounting = true) → k.killed = false) : ExitInv (x.setTask i k) where
  inv := h.inv
  proc := h.proc
  task := fun j => by
    by_cases hji : j = i
    · subst hji
      simpa [Sys.setTask] using hk
    · simpa [Sys.setTask, hji] using h.task j
  mounting := fun j hj => by
    by_cases hji : j = i
    · subst hji
      exact h.mounting j (hm (by simpa [Sys.setTask] using hj))
    · exact h.mounting j (by simpa [Sys.setTask, hji] using hj)
  early := fun hearly => by
    have hold : x.first = true ∨ (x.task 0).mounting = true := by
      refine hearly.imp id fun h0 => ?_
      by_cases hi : 0 = i
      · subst hi
        exact hm (by simpa [Sys.setTask] using h0)
      · simpa [Sys.setTask, hi] using h0
    have he := h.early hold
    refine ⟨fun j => ?_, he.alone, he.frames⟩
    by_cases hji : j = i
    · subst hji
      simpa [Sys.setTask] using hkill hold
    · simpa [Sys.setTask, hji] using he.killed j

theorem ExitInv.setSlot {j : Pid}
    (h : ExitInv x) (hp : (x.kern.cpu c).pos = .inProc j) (hf : (x.kern.thread j).frames = [.svc])
    (hstep : Intr.step x.kern e = some s') (hok : s'.panicked = none) (hth : s' = x.kern.setThread i t)
    (hk : TaskOk k t.frames) (hm : k.mounting = false) :
    ExitInv { x.setTask i k with kern := s' } := by
  obtain ⟨h1, h2⟩ := h.mounted hp hf
  refine ⟨Inv.step (fun _ => h.inv) hstep hok, h.inv.whose_step h.proc hstep hok, fun l => ?_, fun l hl => ?_,
    fun hearly => ?_⟩
  · by_cases hli : l = i
    · subst hli
      simpa [Sys.setTask, hth, State.setThread] using hk
    · simpa [Sys.setTask, hth, State.setThread, hli] using h.task l
  · by_cases hli : l = i
    · subst hli
      simp [Sys.setTask, hm] at hl
    · exact h.mounting l (by simpa [Sys.setTask, hli] using hl)
  · exfalso
    rcases hearly with h0 | h0
    · exact Bool.false_ne_true (h1.symm.trans h0)
    · by_cases hi : 0 = i
      · subst hi
        simp [Sys.setTask, hm] at h0
      · exact Bool.false_ne_true (h2.symm.trans (by simpa [Sys.setTask, hi] using h0))

theorem inSyscall_iff : k.inSyscall t = true ↔ t.frames = [.svc] ∧ k.phase = .body := by
  simp [Task.inSyscall]

theorem ExitInv.idle (h : ExitInv x) (hirq : (x.kern.cpu c).irq = true) : (x.kern.cpu c).proc = none := by
  have hc := h.proc c
  unfold Cpu.Whose at hc
  rcases (h.inv.irq_pos hirq).1 with hp | ⟨i, hp⟩
  · rw [hc, hp]
  · rw [hc, hp]

theorem stepSys_up {a : Act} (hs : stepSys x a = some x') : x.kern.panicked = none := by
  unfold stepSys at hs
  split at hs
  · cases hs
  · next hup => simpa using hup

theorem TaskOk.exits_le {f : List Frame} (h : TaskOk k f) : k.exits ≤ 1 := by
  revert h
  unfold TaskOk
  split <;> intro h
  case h_5 | h_6 | h_7 =>
    rw [h.2.2.1]
    split <;> simp
  case h_8 => exact h.elim
  all_goals exact h.1 ▸ Nat.zero_le 1

theorem TaskOk.check (h : TaskOk k t.frames) (ht : inTrap t.frames = true)
    (hphase : k.phase = .body) (hheld : k.held t = k.entry) :
    TaskOk k.enterExit t.frames ∧ TaskOk { k with phase := .checked } t.frames ∧
      k.exits = 0 ∧ t.depth = 0 ∧ (k.mounting = false → k.sleep = 0 ∧ k.ops = 0) := by
  have hspin : t.depth = k.entry.spin := congrArg Held.spin hheld
  have hsleep : k.sleep = k.entry.sleep := congrArg Held.sleep hheld
  have hops : k.ops = k.entry.ops := congrArg Held.ops hheld
  revert h ht
  unfold TaskOk
  split
  case h_5 =>
    rintro ⟨hm, he, hex, -⟩ -
    have hclean : k.sleep = 0 ∧ k.ops = 0 := by simp [hsleep, hops, he]
    have hex' : k.exits = 0 := by simpa [hphase] using hex
    exact ⟨⟨hm, he, by simp [Task.enterExit, hex'], by simp [Task.enterExit]⟩,
      ⟨hm, he, by simpa using hex', fun _ => hclean⟩, hex', by simp [hspin, he], fun _ => hclean⟩
  case h_6 =>
    rintro ⟨hm, he, hex, hclean⟩ -
    have hclean := hclean (by simp [hphase])
    have hex' : k.exits = 0 := by simpa [hphase] using hex
    exact ⟨⟨hm, he, by simp [Task.enterExit, hex'], by simp [Task.enterExit]⟩,
      ⟨hm, he, by simpa using hex', fun _ => hclean⟩, hex', by simp [hspin, he], fun _ => hclean⟩
  case h_7 =>
    rintro ⟨hrest, he, hex, hclean⟩ -
    have hclean := hclean (by simp [hphase])
    have hex' : k.exits = 0 := by simpa [hphase] using hex
    exact ⟨⟨hrest, he, by simp [Task.enterExit, hex'], by simp [Task.enterExit]⟩,
      ⟨hrest, he, by simpa using hex', fun _ => hclean⟩, hex', by simp [hspin, he], hclean⟩
  all_goals simp_all [inTrap]

theorem ExitInv.step {a : Act} (h : ExitInv x) (hs : stepSys x a = some x')
    (hok : x'.kern.panicked = none) : ExitInv x' := by
  unfold stepSys at hs
  split at hs
  · cases hs
  cases a with
  | kern e => exact h.stepKern hs hok
  | alloc c i | free c i =>
    obtain ⟨j, hp, hs⟩ := onCpu_cases hs
    obtain ⟨hsys, hs⟩ := ite_none_right_eq_some.mp hs
    obtain ⟨s', hstep, rfl⟩ := map_eq_some_iff.mp hs
    obtain ⟨-, ht | ht | ⟨_, _, hc, -⟩⟩ := step_parts hstep
    · obtain ⟨-, heq⟩ := guarded ht
      exact h.setSlot hp (inSyscall_iff.mp hsys).1 hstep hok heq.symm ⟨rfl, rfl, rfl, rfl⟩ rfl
    · cases ht
    · cases hc
  | start c i =>
    obtain ⟨j, hp, hs⟩ := onCpu_cases hs
    obtain ⟨hsys, hs⟩ := ite_none_right_eq_some.mp hs
    obtain ⟨s', hstep, rfl⟩ := map_eq_some_iff.mp hs
    obtain ⟨-, ht | ht | ⟨_, _, hc, -⟩⟩ := step_parts hstep
    · obtain ⟨⟨-, hst⟩, rfl⟩ := guarded ht
      exact h.runnable hstep hok (by simp [hst])
    · cases ht
    · cases hc
  | kill c i =>
    obtain ⟨j, hp, hs⟩ := onCpu_cases hs
    obtain ⟨hsys, rfl⟩ := guarded hs
    obtain ⟨h1, h2⟩ := h.mounted hp (inSyscall_iff.mp hsys).1
    exact h.setTask (h.task i) id fun hearly => by simp [h1, h2] at hearly
  | lockSleep c | beginOp c =>
    obtain ⟨i, hp, hs⟩ := onCpu_cases hs
    obtain ⟨hb, rfl⟩ := guarded hs
    exact h.setTask ((h.task i).block hb _ _) id fun hearly => (h.early hearly).killed i
  | unlockSleep c | endOp c =>
    obtain ⟨i, hp, hs⟩ := onCpu_cases hs
    obtain ⟨⟨hb, -⟩, rfl⟩ := guarded hs
    exact h.setTask ((h.task i).block hb _ _) id fun hearly => (h.early hearly).killed i
  | check c =>
    obtain ⟨i, hp, hs⟩ := onCpu_cases hs
    obtain ⟨⟨ht, hphase, hheld⟩, rfl⟩ := guarded hs
    obtain ⟨hexit, hchecked, -⟩ := (h.task i).check ht hphase hheld
    split
    · exact h.setTask hexit id fun hearly => (h.early hearly).killed i
    · exact h.setTask hchecked id fun hearly => (h.early hearly).killed i
  | schedCheck c =>
    -- `c->proc` is null in the scheduler
    obtain ⟨i, hproc, hirq⟩ : ∃ i, (x.kern.cpu c).proc = some i ∧ (x.kern.cpu c).irq = true := by
      dsimp only at hs
      split at hs
      · next i hproc => exact ⟨i, hproc, (ite_none_right_eq_some.mp hs).1.1⟩
      · cases hs
    exact absurd hproc (by simp [h.idle hirq])
  | exit c =>
    obtain ⟨i, hp, hs⟩ := onCpu_cases hs
    obtain ⟨⟨hsys, hheld⟩, rfl⟩ := guarded hs
    obtain ⟨hf, hphase⟩ := inSyscall_iff.mp hsys
    obtain ⟨hexit, -⟩ := (h.task i).check (by simp [hf, inTrap]) hphase hheld
    exact h.setTask hexit id fun hearly => (h.early hearly).killed i
  | mounted c =>
    obtain ⟨i, hp, hs⟩ := onCpu_cases hs
    obtain ⟨⟨hf, -, hheld⟩, rfl⟩ := guarded hs
    have hok : TaskOk { x.task i with mounting := false } (x.kern.thread i).frames := by
      have ht := h.task i
      rw [hf] at ht ⊢
      exact ⟨ht.1, fun _ => ⟨congrArg Held.sleep hheld, congrArg Held.ops hheld⟩⟩
    exact h.setTask hok (fun hm => by cases hm) fun hearly => (h.early hearly).killed i

/-! ### Whole runs -/

/-- The first process mounts the file system, starts a second one and is back in user mode; the second one
kills it. -/
def killedInUser : List Act :=
  [.kern (.intrOn 0), .kern (.schedAcquire 0), .kern (.dispatch 0), .kern (.forkretRelease 0), .lockSleep 0,
    .unlockSleep 0, .mounted 0, .kern (.handlerRet 0), .kern (.eret 0), .kern (.svc 0), .alloc 0 1, .start 0 1,
    .check 0, .kern (.handlerRet 0), .kern (.eret 0), .kern (.intrOn 1),
    -- the scheduler of CPU 1 goes past the first slot of the table
    .kern (.schedAcquire 1), .kern (.schedSkip 1), .kern (.schedAcquire 1), .kern (.dispatch 1),
    .kern (.forkretRelease 1), .kern (.handlerRet 1), .kern (.eret 1), .kern (.svc 1), .kill 1 0,
    .kern (.irqUser 0)]

end Xv6Armv8.Intr
