import Xv6Armv8.IntrMask

/-! The nesting of `push_off` and `pop_off`. `noff` and `intena` belong to a CPU while the calls they count
belong to a kernel thread, which may be switched out inside a critical section and go on somewhere else. The
calls of every thread are counted here beside the kernel, with the one for `p->lock` passing with the lock
across `swtch`; the count agrees with the `noff` of the CPU, and with the activation it decides whether
interrupts are on. -/

namespace Xv6Armv8.Intr

open StepRun

open Function (update update_apply update_of_ne update_self)

/-! ### Counting the calls of every thread -/

/-- A thread: the scheduler of a CPU with the IRQ handlers on top of it, or the kernel thread of a process. -/
inductive Owner where
  | scheduler (c : Cid)
  | thread (i : Pid)
  deriving DecidableEq

/-- The thread a CPU runs. -/
def State.owner (s : State) (c : Cid) : Owner :=
  match (s.cpu c).pos with
  | .inProc i => .thread i
  | _ => .scheduler c

/-- The events that call `push_off` once more than `pop_off`, and on which CPU. -/
def Event.pushes : Event → Option Cid
  | .schedAcquire c | .schedIrqAcquire c | .acquire c | .acquireSelf c => some c
  | _ => none

/-- The events that call `pop_off` once more than `push_off`, and on which CPU. -/
def Event.pops : Event → Option Cid
  | .schedSkip c | .schedBack c | .schedIrqRelease c | .forkretRelease c | .release c | .releaseSelf c => some c
  | _ => none

abbrev Tally := Owner → Nat

/-- `p->lock` goes with its `push_off` from one side of a `swtch` to the other. -/
def Tally.pass (n : Tally) (a b : Owner) : Tally :=
  update (update n a (n a - 1)) b (n b + 1)

/-- The calls of `push_off` every thread has not undone, after one more event. -/
def Tally.next (n : Tally) (s : State) : Event → Tally
  | .dispatch c =>
    match (s.cpu c).pos with
    | .locked i => n.pass (.scheduler c) (.thread i)
    | _ => n
  | .sched c =>
    match (s.cpu c).pos with
    | .inProc i => n.pass (.thread i) (.scheduler c)
    | _ => n
  | e =>
    match e.pushes, e.pops with
    | some c, _ => update n (s.owner c) (n (s.owner c) + 1)
    | none, some c => update n (s.owner c) (n (s.owner c) - 1)
    | none, none => n

/-- The kernel with the count beside it, which no step reads. -/
def stepTally (x : State × Tally) (e : Event) : Option (State × Tally) :=
  (step x.1 e).map fun s' => (s', x.2.next x.1 e)

variable {c : Cid} {e : Event} {i : Pid} {k : Cpu} {m on : Bool} {n : Tally} {s s' : State} {x y : State × Tally}

theorem stepTally_cases (h : stepTally x e = some y) : step x.1 e = some y.1 ∧ y.2 = x.2.next x.1 e := by
  obtain ⟨s', hs, rfl⟩ := Option.map_eq_some_iff.mp h
  exact ⟨hs, rfl⟩

/-! ### What a step does to `noff` -/

/-- The messages of the panics that a step may end in. -/
def lockPanics : List String :=
  ["acquire", "release", "sched p->lock", "sched locks", "sched running", "sched interruptible"]

/-- The effect of a step on the nesting. -/
inductive Nesting (s s' : State) (e : Event) : Prop
  | quiet (hn : ∀ n : Tally, n.next s e = n) (hcpu : ∀ c, (s'.cpu c).noff = (s.cpu c).noff)
      (how : ∀ c, s'.owner c = s.owner c)
  | push (c : Cid) (hn : ∀ n : Tally, n.next s e = update n (s.owner c) (n (s.owner c) + 1))
      (hcpu : ∀ c', (s'.cpu c').noff = if c' = c then (s.cpu c).noff + 1 else (s.cpu c').noff)
      (how : ∀ c', s'.owner c' = s.owner c')
  | pop (c : Cid) (hn : ∀ n : Tally, n.next s e = update n (s.owner c) (n (s.owner c) - 1))
      (hcpu : ∀ c', (s'.cpu c').noff = if c' = c then (s.cpu c).noff - 1 else (s.cpu c').noff)
      (how : ∀ c', s'.owner c' = s.owner c')
  | enter (c : Cid) (i : Pid) (hn : ∀ n : Tally, n.next s e = n.pass (.scheduler c) (.thread i))
      (hcpu : ∀ c', (s'.cpu c').noff = (s.cpu c').noff) (hone : (s.cpu c).noff = 1)
      (hold : s.owner c = .scheduler c) (hfree : ∀ c', s.owner c' ≠ .thread i)
      (how : ∀ c', s'.owner c' = if c' = c then .thread i else s.owner c')
  | leave (c : Cid) (i : Pid) (hn : ∀ n : Tally, n.next s e = n.pass (.thread i) (.scheduler c))
      (hcpu : ∀ c', (s'.cpu c').noff = (s.cpu c').noff) (hone : (s.cpu c).noff = 1)
      (hold : s.owner c = .thread i)
      (how : ∀ c', s'.owner c' = if c' = c then .scheduler c else s.owner c')

theorem owner_of_pos (hp : (s.cpu c).pos = .inProc i) : s.owner c = .thread i := by
  simp [State.owner, hp]

theorem pos_of_owner (ho : s.owner c = .thread i) : (s.cpu c).pos = .inProc i := by
  unfold State.owner at ho
  split at ho
  · next j hp => rw [hp, Owner.thread.inj ho]
  · cases ho

theorem owner_scheduler (hp : ∀ i, (s.cpu c).pos ≠ .inProc i) : s.owner c = .scheduler c := by
  unfold State.owner
  split
  · next i h => exact absurd h (hp i)
  · rfl

theorem owner_cases (s : State) (c : Cid) : s.owner c = .scheduler c ∨ ∃ i, s.owner c = .thread i := by
  unfold State.owner
  split
  · exact .inr ⟨_, rfl⟩
  · exact .inl rfl

theorem Inv.owner_injective (h : Inv s) {c' : Cid} (ho : s.owner c = s.owner c') : c = c' := by
  rcases owner_cases s c with hc | ⟨i, hc⟩
  · rcases owner_cases s c' with hc' | ⟨j, hc'⟩
    · rw [hc, hc'] at ho
      exact Owner.scheduler.inj ho
    · rw [hc, hc'] at ho
      cases ho
  · rw [hc] at ho
    exact h.alone i c c' (pos_of_owner hc) (pos_of_owner ho.symm)

/-- A step that replaces one CPU, whose thread stays the same, and anything else but the other CPUs. -/
theorem owner_replace (hcpu : s'.cpu = update s.cpu c k)
    (ho : (s.setCpu c k).owner c = s.owner c) (c' : Cid) : s'.owner c' = s.owner c' := by
  by_cases hc : c' = c
  · subst hc
    rw [← ho]
    simp [State.owner, State.setCpu, hcpu]
  · simp [State.owner, hcpu, hc]

theorem noff_replace (hcpu : s'.cpu = update s.cpu c k) (c' : Cid) :
    (s'.cpu c').noff = if c' = c then k.noff else (s.cpu c').noff := by
  rw [hcpu, update_apply]
  split <;> rfl

/-- What a step that writes the CPU `k` does to the count of the thread on it. -/
inductive Counts (s : State) (e : Event) (c : Cid) (k : Cpu) : Prop
  | quiet (hn : ∀ n : Tally, n.next s e = n) (hk : k.noff = (s.cpu c).noff)
  | push (hn : ∀ n : Tally, n.next s e = update n (s.owner c) (n (s.owner c) + 1))
      (hk : k.noff = (s.cpu c).noff + 1)
  | pop (hn : ∀ n : Tally, n.next s e = update n (s.owner c) (n (s.owner c) - 1))
      (hk : k.noff = (s.cpu c).noff - 1)

theorem Counts.nesting (h : Counts s e c k)
    (hcpu : s'.cpu = update s.cpu c k) (ho : (s.setCpu c k).owner c = s.owner c) : Nesting s s' e := by
  have how := owner_replace hcpu ho
  cases h with
  | quiet hn hk =>
    refine .quiet hn (fun c' => ?_) how
    rw [noff_replace hcpu]
    split
    · next hc => rw [hk, hc]
    · rfl
  | push hn hk => exact .push c hn (fun c' => by rw [noff_replace hcpu, hk]) how
  | pop hn hk => exact .pop c hn (fun c' => by rw [noff_replace hcpu, hk]) how

theorem owner_setCpu (hp : k.pos = (s.cpu c).pos) : (s.setCpu c k).owner c = s.owner c := by
  simp [State.owner, State.setCpu, hp]

theorem owner_setCpu_scheduler (hk : ∀ i, k.pos ≠ .inProc i)
    (hp : ∀ i, (s.cpu c).pos ≠ .inProc i) : (s.setCpu c k).owner c = s.owner c := by
  rw [owner_scheduler hp, owner_scheduler]
  simpa [State.setCpu] using hk

theorem acquire_outcome {f : Cpu → State} (hs : s.acquire c i f = some s') :
    (∃ msg ∈ lockPanics, s' = s.panic msg) ∨ s' = (f (pushOff (s.cpu c))).setLock i (some c) := by
  cases hl : s.lock i with
  | none =>
    right
    simpa [State.acquire, hl] using hs.symm
  | some c' =>
    left
    simp only [State.acquire, hl] at hs
    obtain ⟨-, rfl⟩ := guarded hs
    exact ⟨"acquire", by simp [lockPanics], rfl⟩

/-- A `release` under interrupts masked drops the lock before its `pop_off`, or is refused. -/
theorem release_outcome {f : Cpu → State} (hm : (s.cpu c).masked = true) (hn : 0 < (s.cpu c).noff) :
    (∃ msg ∈ lockPanics, s.release c i f = s.panic msg) ∨ s.release c i f = (f { s.cpu c with
        noff := (s.cpu c).noff - 1
        masked := if (s.cpu c).noff - 1 = 0 ∧ (s.cpu c).intena = true then false else true }).setLock i none := by
  unfold State.release
  split
  · exact .inl ⟨"release", by simp [lockPanics], rfl⟩
  · right
    rw [State.pop, popOff_eq hm hn]

theorem sched_outcome (s : State) (c : Cid) (i : Pid) : (∃ msg ∈ lockPanics, sched s c i = s.panic msg) ∨
      ((s.cpu c).noff = 1 ∧ sched s c i = (s.setCpu c { s.cpu c with pos := .back i }).setThread i
        { s.thread i with parked := true, intena := (s.cpu c).intena }) := by
  unfold sched
  dsimp only
  split_ifs with hl hn
  · exact .inl ⟨"sched p->lock", by simp [lockPanics], rfl⟩
  · exact .inl ⟨"sched locks", by simp [lockPanics], rfl⟩
  · exact .inl ⟨"sched running", by simp [lockPanics], rfl⟩
  · exact .inl ⟨"sched interruptible", by simp [lockPanics], rfl⟩
  · exact .inr ⟨not_not.mp hn, rfl⟩

/-- `dispatch` on a CPU that has taken the lock of the process: the `push_off` of `uvmswitch` is undone. -/
theorem dispatch_eq (i : Pid) (hn : (s.cpu c).noff = 1) (hm : (s.cpu c).masked = true) : dispatch s c i =
      if (s.thread i).parked then
        (s.setCpu c { s.cpu c with proc := some i, pos := .inProc i, intena := (s.thread i).intena }).setThread i
          { s.thread i with state := .running, parked := false }
      else
        (s.setCpu c { s.cpu c with proc := some i, pos := .inProc i }).setThread i
          { s.thread i with state := .running, forkOn := (s.cpu c).intena } := by
  have hpop : popOff (pushOff (s.cpu c)) = .ok (s.cpu c) := by
    rw [popOff_eq rfl (Nat.succ_pos _)]
    rcases hs : s.cpu c
    simp_all [pushOff]
  simp only [dispatch, hpop]

theorem Inv.nesting_dispatch (h : Inv s) (hp : (s.cpu c).pos = .locked i)
    (hst : (s.thread i).state = .runnable) :
    (Intr.dispatch s c i).panicked = s.panicked ∧ Nesting s (Intr.dispatch s c i) (.dispatch c) := by
  obtain ⟨-, hnoff, hm, hl⟩ := h.locked (.inl hp)
  have hfree : ∀ c', s.owner c' ≠ .thread i := by
    intro c' ho
    have hp' := pos_of_owner ho
    by_cases hc : c' = c
    · rw [hc, hp] at hp'
      cases hp'
    · exact h.not_on_cpu (by simp [hst]) (by rw [hl]; exact fun e => hc (Option.some.inj e).symm) hp'
  have hcpu : ∃ k : Cpu, (Intr.dispatch s c i).cpu = Function.update s.cpu c k ∧
      k.noff = (s.cpu c).noff ∧ k.pos = .inProc i ∧ (Intr.dispatch s c i).panicked = s.panicked := by
    rw [dispatch_eq i hnoff hm]
    split
    · exact ⟨_, rfl, rfl, rfl, rfl⟩
    · exact ⟨_, rfl, rfl, rfl, rfl⟩
  obtain ⟨k, hcpu, hk, hkpos, hpan⟩ := hcpu
  refine ⟨hpan, .enter c i (fun n => ?_) (fun c' => ?_) hnoff ?_ hfree fun c' => ?_⟩
  · simp [Tally.next, hp]
  · rw [noff_replace hcpu]
    split
    · next hc => rw [hk, hc]
    · rfl
  · exact owner_scheduler fun j => by simp [hp]
  · by_cases hc : c' = c
    · subst hc
      simp [State.owner, hcpu, hkpos]
    · simp [State.owner, hcpu, hc]

/-- `c->proc` is the process between the two calls of `swtch`. -/
def Cpu.Whose (k : Cpu) : Prop :=
  k.proc = match k.pos with
    | .inProc i | .back i => some i
    | _ => none

/-- What a step of a scheduler other than `dispatch` writes: its CPU, which stays outside every process. -/
structure SchedWrites (s s' : State) (e : Event) (c : Cid) (k : Cpu) : Prop where
  cpu : s'.cpu = update s.cpu c k
  thread : s'.thread = s.thread
  panicked : s'.panicked = s.panicked
  old : ∀ i, (s.cpu c).pos ≠ .inProc i
  new : ∀ i, k.pos ≠ .inProc i
  count : Counts s e c k
  whose : (s.cpu c).Whose → k.Whose

theorem Inv.irq_ne (h : Inv s) (hirq : (s.cpu c).irq = true) (i : Pid) : (s.cpu c).pos ≠ .inProc i := by
  rcases (h.irq_pos hirq).1 with hp | ⟨j, hp⟩ <;> simp [hp]

theorem leave_outcome (h : Inv s) (q : Cpu → Option Pid)
    (hp : (s.cpu c).pos = .locked i ∨ (s.cpu c).pos = .back i)
    (hn : ∀ n : Tally, n.next s e = update n (s.owner c) (n (s.owner c) - 1))
    (hq : ∀ k : Cpu, k.proc = (s.cpu c).proc → (s.cpu c).Whose → q k = none) :
    (∃ msg ∈ lockPanics, (s.release c i fun k => s.setCpu c { k with proc := q k, pos := next i }) = s.panic msg) ∨
      ∃ k, SchedWrites s (s.release c i fun k => s.setCpu c { k with proc := q k, pos := next i }) e c k := by
  obtain ⟨-, hnoff, hm, -⟩ := h.locked hp
  rcases release_outcome (i := i) hm (by omega) with hpan | heq
  · exact .inl hpan
  · rw [heq]
    refine .inr ⟨_, rfl, rfl, rfl, fun j => ?_, fun j => next_ne i j, .pop hn rfl, fun hw => ?_⟩
    · rcases hp with hp | hp <;> simp [hp]
    · refine (hq _ ?_ hw).trans ?_
      · rfl
      · rcases next_cases i with hx | ⟨j, hx⟩ <;> simp [hx]

theorem stepSched_outcome (h : Inv s) (hs : stepSched s e = some s') :
    (∃ msg ∈ lockPanics, s' = s.panic msg) ∨ (∃ c k, SchedWrites s s' e c k) ∨
      ∃ c i, e = .dispatch c ∧ (s.cpu c).pos = .locked i ∧ (s.thread i).state = .runnable ∧ s' = dispatch s c i := by
  cases e with
  | intrOn c =>
    obtain ⟨⟨hp, -⟩, rfl⟩ := guarded hs
    exact .inr (.inl ⟨c, _, rfl, rfl, rfl, fun _ => by simp [hp], fun _ => by simp, .quiet (fun _ => rfl) rfl,
      fun hw => by simpa [Cpu.Whose, hp] using hw⟩)
  | schedAcquire c =>
    simp only [stepSched] at hs
    split at hs
    · next i hp =>
        obtain ⟨-, hs⟩ := Option.ite_none_right_eq_some.mp hs
        rcases acquire_outcome hs with hpan | rfl
        · exact .inl hpan
        · exact .inr (.inl ⟨c, _, rfl, rfl, rfl, fun _ => by simp [hp], fun _ => by simp,
            .push (fun _ => rfl) rfl, fun hw => by simpa [Cpu.Whose, hp, pushOff] using hw⟩)
    · cases hs
  | schedSkip c =>
    simp only [stepSched] at hs
    split at hs
    · next i hp =>
        obtain ⟨-, rfl⟩ := guarded hs
        refine (leave_outcome h Cpu.proc (.inl hp) (fun _ => rfl) fun k hk hw => ?_).imp id fun hk => .inl ⟨c, hk⟩
        simpa [Cpu.Whose, hp, hk] using hw
    · cases hs
  | dispatch c =>
    simp only [stepSched] at hs
    split at hs
    · next i hp =>
        obtain ⟨⟨-, hst⟩, rfl⟩ := guarded hs
        exact .inr (.inr ⟨c, i, rfl, hp, hst, rfl⟩)
    · cases hs
  | schedBack c =>
    simp only [stepSched] at hs
    split at hs
    · next i hp =>
        obtain ⟨-, rfl⟩ := guarded hs
        exact (leave_outcome h (fun _ => none) (.inr hp) (fun _ => rfl) fun _ _ _ => rfl).imp id fun hk => .inl ⟨c, hk⟩
    · cases hs
  | schedIrq c =>
    simp only [stepSched] at hs
    split at hs
    · cases hs
    · next hp =>
        obtain ⟨-, rfl⟩ := guarded hs
        exact .inr (.inl ⟨c, _, rfl, rfl, rfl, hp, hp, .quiet (fun _ => rfl) rfl, id⟩)
  | schedIrqAcquire c =>
    obtain ⟨hirq, rfl⟩ := guarded hs
    exact .inr (.inl ⟨c, _, rfl, rfl, rfl, h.irq_ne hirq, h.irq_ne hirq, .push (fun _ => rfl) rfl, id⟩)
  | schedIrqRelease c =>
    obtain ⟨⟨hirq, hn⟩, rfl⟩ := guarded hs
    rw [State.pop, popOff_eq (h.irq_pos hirq).2.1 (Nat.pos_of_ne_zero hn)]
    exact .inr (.inl ⟨c, _, rfl, rfl, rfl, h.irq_ne hirq, h.irq_ne hirq, .pop (fun _ => rfl) rfl, id⟩)
  | schedIrqRet c =>
    obtain ⟨⟨hirq, -⟩, rfl⟩ := guarded hs
    exact .inr (.inl ⟨c, _, rfl, rfl, rfl, h.irq_ne hirq, h.irq_ne hirq, .quiet (fun _ => rfl) rfl, id⟩)
  | _ => cases hs

theorem Runs.pop_ok {t : Thread} {o : Option Cid} (h : Runs c k t o)
    (hd : 0 < t.depth) (hc : inCode t.frames = true) : k.masked = true ∧ 0 < k.noff :=
  ⟨(ctx_pop hc hd h.ctx).1, h.noff ▸ hd⟩

/-- The activations of a process after an event that it brings about. -/
def framesAfter (f : List Frame) : Event → List Frame
  | .forkretRelease _ => [.forkret]
  | .svc _ => [.svc]
  | .irqUser _ => [.irq0]
  | .irqKernel _ => .irq1 :: f
  | .handlerRet _ =>
    match f with
    | [.svc] | [.irq0] => [.ret false]
    | [.forkret] => [.ret true]
    | .irq1 :: rest => rest
    | f => f
  | .eret _ => []
  | _ => f

/-- What a step of the process `i` on a CPU writes: that CPU and that process. -/
structure Writes (s s' : State) (c : Cid) (i : Pid) (e : Event) (k : Cpu) (t : Thread) : Prop where
  cpu : s'.cpu = update s.cpu c k
  thread : s'.thread = update s.thread i t
  used : t.state ≠ .unused
  forkOn : t.forkOn = (s.thread i).forkOn
  frames : t.frames = framesAfter (s.thread i).frames e
  proc : k.proc = (s.cpu c).proc
  pos : k.pos = .inProc i ∨ k.pos = .back i ∧ inCode (s.thread i).frames = true

section

variable (h : Inv s) (hp : (s.cpu c).pos = .inProc i) (hon : e.onProc = some c)
include h hp hon

/-- A step of the process on a CPU writes its CPU and itself, and keeps to the count unless it goes to `sched`. -/
theorem stepProc_outcome (hs : stepProc s c i e = some s') :
    (∃ msg ∈ lockPanics, s' = s.panic msg) ∨ ∃ k t, Writes s s' c i e k t ∧ s'.panicked = s.panicked ∧
      (Counts s e c k ∧ k.pos = .inProc i ∨
        e = .sched c ∧ k.pos = .back i ∧ k.noff = (s.cpu c).noff ∧ (s.cpu c).noff = 1) := by
  obtain ⟨-, hr⟩ := h.runs hp
  have hself : s.cpu = update s.cpu c (s.cpu c) := by simp
  cases e with
  | forkretRelease _ =>
    cases hon
    obtain ⟨hf, rfl⟩ := guarded hs
    have hctx := hr.ctx
    rw [hf] at hctx
    obtain ⟨hd, hm, -⟩ := hctx
    rcases release_outcome (i := i) hm (hr.noff ▸ hd ▸ Nat.one_pos) with hpan | heq
    · exact .inl hpan
    · rw [heq]
      exact .inr ⟨_, _, ⟨rfl, rfl, hr.used, rfl, rfl, rfl, .inl hp⟩, rfl, .inl ⟨.pop (fun _ => rfl) rfl, hp⟩⟩
  | svc _ | irqUser _ | irqKernel _ =>
    obtain ⟨-, rfl⟩ := guarded hs
    exact .inr ⟨_, _, ⟨rfl, rfl, hr.used, rfl, rfl, rfl, .inl hp⟩, rfl, .inl ⟨.quiet (fun _ => rfl) rfl, hp⟩⟩
  | acquire _ =>
    cases hon
    obtain ⟨-, rfl⟩ := guarded hs
    exact .inr ⟨_, _, ⟨rfl, rfl, hr.used, rfl, rfl, rfl, .inl hp⟩, rfl, .inl ⟨.push (fun _ => rfl) rfl, hp⟩⟩
  | release _ =>
    cases hon
    obtain ⟨⟨hc, hd⟩, rfl⟩ := guarded hs
    obtain ⟨hm, hn⟩ := hr.pop_ok (Nat.lt_of_le_of_lt (Nat.zero_le _) hd) hc
    rw [State.pop, popOff_eq hm hn]
    exact .inr ⟨_, _, ⟨rfl, rfl, hr.used, rfl, rfl, rfl, .inl hp⟩, rfl, .inl ⟨.pop (fun _ => rfl) rfl, hp⟩⟩
  | acquireSelf _ =>
    cases hon
    obtain ⟨-, hs⟩ := Option.ite_none_right_eq_some.mp hs
    rcases acquire_outcome hs with hpan | rfl
    · exact .inl hpan
    · exact .inr ⟨_, _, ⟨rfl, rfl, hr.used, rfl, rfl, rfl, .inl hp⟩, rfl, .inl ⟨.push (fun _ => rfl) rfl, hp⟩⟩
  | setState _ st =>
    obtain ⟨⟨-, -, hst⟩, rfl⟩ := guarded hs
    have hused : st ≠ .unused := by rcases hst with rfl | rfl | rfl <;> simp
    exact .inr ⟨_, _, ⟨hself, rfl, hused, rfl, rfl, rfl, .inl hp⟩, rfl, .inl ⟨.quiet (fun _ => rfl) rfl, hp⟩⟩
  | releaseSelf _ =>
    cases hon
    obtain ⟨⟨hc, -, hd⟩, rfl⟩ := guarded hs
    obtain ⟨hm, hn⟩ := hr.pop_ok hd hc
    rcases release_outcome (i := i) hm hn with hpan | heq
    · exact .inl hpan
    · rw [heq]
      exact .inr ⟨_, _, ⟨rfl, rfl, hr.used, rfl, rfl, rfl, .inl hp⟩, rfl, .inl ⟨.pop (fun _ => rfl) rfl, hp⟩⟩
  | sched _ =>
    cases hon
    obtain ⟨hc, rfl⟩ := guarded hs
    rcases sched_outcome s c i with hpan | ⟨hn, heq⟩
    · exact .inl hpan
    · rw [heq]
      exact .inr ⟨_, _, ⟨rfl, rfl, hr.used, rfl, rfl, rfl, .inr ⟨rfl, hc⟩⟩, rfl, .inr ⟨rfl, rfl, rfl, hn⟩⟩
  | handlerRet _ =>
    obtain ⟨-, hs⟩ := Option.ite_none_right_eq_some.mp hs
    split at hs
    · next hf =>
        cases Option.some.inj hs
        exact .inr ⟨_, _, ⟨hself, rfl, hr.used, rfl, by rw [hf]; rfl, rfl, .inl hp⟩, rfl,
          .inl ⟨.quiet (fun _ => rfl) rfl, hp⟩⟩
    · next hf =>
        cases Option.some.inj hs
        exact .inr ⟨_, _, ⟨hself, rfl, hr.used, rfl, by rw [hf]; rfl, rfl, .inl hp⟩, rfl,
          .inl ⟨.quiet (fun _ => rfl) rfl, hp⟩⟩
    · next hf =>
        cases Option.some.inj hs
        exact .inr ⟨_, _, ⟨hself, rfl, hr.used, rfl, by rw [hf]; rfl, rfl, .inl hp⟩, rfl,
          .inl ⟨.quiet (fun _ => rfl) rfl, hp⟩⟩
    · next rest hf =>
        cases Option.some.inj hs
        exact .inr ⟨_, _, ⟨rfl, rfl, hr.used, rfl, by rw [hf]; rfl, rfl, .inl hp⟩, rfl,
          .inl ⟨.quiet (fun _ => rfl) rfl, hp⟩⟩
    · cases hs
  | eret _ =>
    simp only [stepProc] at hs
    split at hs
    · cases Option.some.inj hs
      exact .inr ⟨_, _, ⟨rfl, rfl, hr.used, rfl, rfl, rfl, .inl hp⟩, rfl, .inl ⟨.quiet (fun _ => rfl) rfl, hp⟩⟩
    · cases hs
  | _ => cases hs

theorem stepProc_writes (hs : stepProc s c i e = some s') (hok : s'.panicked = none) :
    ∃ k t, Writes s s' c i e k t := by
  rcases stepProc_outcome h hp hon hs with ⟨msg, -, rfl⟩ | ⟨k, t, hw, -⟩
  · cases hok
  · exact ⟨k, t, hw⟩

theorem Inv.nesting_stepProc (hs : Intr.stepProc s c i e = some s') :
    (∃ msg ∈ lockPanics, s' = s.panic msg) ∨ (s'.panicked = s.panicked ∧ Nesting s s' e) := by
  rcases stepProc_outcome h hp hon hs with hpan | ⟨k, t, hw, hpan, ⟨hcount, hpos⟩ | ⟨rfl, hpos, hk, hone⟩⟩
  · exact .inl hpan
  · exact .inr ⟨hpan, hcount.nesting hw.cpu (owner_setCpu (hpos.trans hp.symm))⟩
  · refine .inr ⟨hpan, .leave c i (fun n => ?_) (fun c' => ?_) hone (owner_of_pos hp) fun c' => ?_⟩
    · simp [Tally.next, hp]
    · rw [noff_replace hw.cpu, hk]
      split
      · next hc => rw [hc]
      · rfl
    · by_cases hc : c' = c <;> simp [State.owner, hw.cpu, hpos, hc]

end

theorem nesting_stepTable (hs : Intr.stepTable s e = some s') :
    s'.panicked = s.panicked ∧ Nesting s s' e := by
  cases e with
  | alloc i | start i | wake i | free i =>
    obtain ⟨-, rfl⟩ := guarded hs
    exact ⟨rfl, .quiet (fun _ => rfl) (fun _ => rfl) fun _ => rfl⟩
  | _ => cases hs

theorem step_parts (hs : step s e = some s') : s.panicked = none ∧
    (stepTable s e = some s' ∨ stepSched s e = some s' ∨
      ∃ c i, e.onProc = some c ∧ (s.cpu c).pos = .inProc i ∧ stepProc s c i e = some s') := by
  unfold step at hs
  split at hs
  · cases hs
  · next hup =>
      refine ⟨by simpa using hup, ?_⟩
      split at hs
      · exact .inl hs
      · split at hs
        · next c hc =>
            split at hs
            · next i hp => exact .inr (.inr ⟨c, i, hc, hp, hs⟩)
            · cases hs
        · exact .inr (.inl hs)

/-- What a step does: it keeps to the nesting, or ends in a panic that is not one of `pop_off`. -/
theorem Inv.nesting (h : Inv s) (hs : Intr.step s e = some s') :
    (∃ msg ∈ lockPanics, s' = s.panic msg) ∨ (s'.panicked = s.panicked ∧ Nesting s s' e) := by
  obtain ⟨-, hs | hs | ⟨c, i, hon, hp, hs⟩⟩ := step_parts hs
  · exact .inr (nesting_stepTable hs)
  · rcases stepSched_outcome h hs with hpan | ⟨c, k, hw⟩ | ⟨c, i, rfl, hp, hst, rfl⟩
    · exact .inl hpan
    · exact .inr ⟨hw.panicked, hw.count.nesting hw.cpu (owner_setCpu_scheduler hw.new hw.old)⟩
    · exact .inr (h.nesting_dispatch hp hst)
  · exact h.nesting_stepProc hp hon hs

/-! ### The count is `noff` -/

/-- The count of the thread on a CPU is its `noff`; the others have passed theirs on. -/
structure Counted (s : State) (n : Tally) : Prop where
  noff : ∀ c, n (s.owner c) = (s.cpu c).noff
  away : ∀ c i, s.owner c = .thread i → n (.scheduler c) = 0
  rest : ∀ i, (∀ c, s.owner c ≠ .thread i) → n (.thread i) = 0

theorem Counted.change (h : Counted s n) (hinv : Inv s) (c : Cid) {m : Nat}
    (hcpu : ∀ c', (s'.cpu c').noff = if c' = c then m else (s.cpu c').noff)
    (how : ∀ c', s'.owner c' = s.owner c') : Counted s' (update n (s.owner c) m) where
  noff := fun c' => by
    rw [how, hcpu]
    by_cases hc : c' = c
    · rw [hc, update_self, if_pos rfl]
    · rw [update_of_ne (fun ho => hc (hinv.owner_injective ho)), if_neg hc, h.noff]
  away := fun c' i ho => by
    rw [how] at ho
    rw [update_of_ne ?_, h.away c' i ho]
    intro heq
    rcases owner_cases s c with hc | ⟨j, hc⟩
    · rw [hc] at heq
      rw [Owner.scheduler.inj heq, hc] at ho
      cases ho
    · rw [hc] at heq
      cases heq
  rest := fun i hno => by
    have hno' : ∀ c', s.owner c' ≠ .thread i := fun c' => how c' ▸ hno c'
    rw [update_of_ne (hno' c).symm, h.rest i hno']

theorem Counted.enter (h : Counted s n)
    (hcpu : ∀ c', (s'.cpu c').noff = (s.cpu c').noff) (hone : (s.cpu c).noff = 1)
    (hold : s.owner c = .scheduler c) (hfree : ∀ c', s.owner c' ≠ .thread i)
    (how : ∀ c', s'.owner c' = if c' = c then .thread i else s.owner c') :
    Counted s' (n.pass (.scheduler c) (.thread i)) := by
  have hc1 : n (.scheduler c) = 1 := by rw [← hone, ← h.noff c, hold]
  have hi0 : n (.thread i) = 0 := h.rest i hfree
  unfold Tally.pass
  rw [hc1, hi0]
  refine ⟨fun c' => ?_, fun c' j ho => ?_, fun j hno => ?_⟩
  · rw [how, hcpu]
    by_cases hc : c' = c
    · rw [if_pos hc, update_self, hc, hone]
    · rw [if_neg hc, update_of_ne (hfree c'), update_of_ne ?_, h.noff]
      intro ho
      rcases owner_cases s c' with hc' | ⟨j, hc'⟩
      · exact hc (Owner.scheduler.inj (hc'.symm.trans ho))
      · rw [hc'] at ho
        cases ho
  · rw [update_of_ne (by simp)]
    by_cases hc : c' = c
    · rw [hc, update_self]
    · rw [how, if_neg hc] at ho
      rw [update_of_ne (by simpa using hc), h.away c' j ho]
  · have hji : j ≠ i := fun e => hno c (by rw [how, if_pos rfl, e])
    rw [update_of_ne (by simpa using hji), update_of_ne (by simp)]
    refine h.rest j fun c' => ?_
    by_cases hc : c' = c
    · rw [hc, hold]
      simp
    · have := hno c'
      rwa [how, if_neg hc] at this

theorem Counted.leave (h : Counted s n) (hinv : Inv s)
    (hcpu : ∀ c', (s'.cpu c').noff = (s.cpu c').noff) (hone : (s.cpu c).noff = 1)
    (hold : s.owner c = .thread i)
    (how : ∀ c', s'.owner c' = if c' = c then .scheduler c else s.owner c') :
    Counted s' (n.pass (.thread i) (.scheduler c)) := by
  have hi1 : n (.thread i) = 1 := by rw [← hone, ← h.noff c, hold]
  have hc0 : n (.scheduler c) = 0 := h.away c i hold
  have hother : ∀ c', c' ≠ c → s.owner c' ≠ .thread i := fun c' hc ho =>
    hc (hinv.owner_injective (ho.trans hold.symm))
  unfold Tally.pass
  rw [hc0, hi1]
  refine ⟨fun c' => ?_, fun c' j ho => ?_, fun j hno => ?_⟩
  · rw [how, hcpu]
    by_cases hc : c' = c
    · rw [if_pos hc, update_self, hc, hone]
    · rw [if_neg hc, update_of_ne ?_, update_of_ne (hother c' hc), h.noff]
      intro ho
      rcases owner_cases s c' with hc' | ⟨j, hc'⟩
      · exact hc (Owner.scheduler.inj (hc'.symm.trans ho))
      · rw [hc'] at ho
        cases ho
  · by_cases hc : c' = c
    · rw [how, if_pos hc] at ho
      cases ho
    · rw [how, if_neg hc] at ho
      rw [update_of_ne (by simpa using hc), update_of_ne (by simp), h.away c' j ho]
  · rw [update_of_ne (by simp)]
    by_cases hji : j = i
    · rw [hji, update_self]
    · rw [update_of_ne (by simpa using hji)]
      refine h.rest j fun c' => ?_
      by_cases hc : c' = c
      · rw [hc, hold]
        simpa using Ne.symm hji
      · have := hno c'
        rwa [how, if_neg hc] at this

theorem Counted.step (h : Counted s n) (hinv : Inv s) (hs : Nesting s s' e) : Counted s' (n.next s e) := by
  cases hs with
  | quiet hn hcpu how =>
    rw [hn]
    refine ⟨fun c => by rw [how, hcpu, h.noff], fun c i ho => h.away c i (how c ▸ ho), fun i hno => ?_⟩
    exact h.rest i fun c => how c ▸ hno c
  | push c hn hcpu how =>
    rw [hn, h.noff]
    exact h.change hinv c hcpu how
  | pop c hn hcpu how =>
    rw [hn, h.noff]
    exact h.change hinv c hcpu how
  | enter c i hn hcpu hone hold hfree how =>
    rw [hn]
    exact h.enter hcpu hone hold hfree how
  | leave c i hn hcpu hone hold how =>
    rw [hn]
    exact h.leave hinv hcpu hone hold how

/-- The states of a run, with their counts: consistent until the kernel panics, and then not by `pop_off`. -/
def Sound (x : State × Tally) : Prop :=
  (x.1.panicked = none ∧ Inv x.1 ∧ Counted x.1 x.2) ∨ ∃ msg ∈ lockPanics, x.1.panicked = some msg

theorem Sound.step (h : Sound x) (hs : stepTally x e = some y) : Sound y := by
  obtain ⟨hstep, hn⟩ := stepTally_cases hs
  obtain ⟨hup, -⟩ := step_parts hstep
  rcases h with ⟨-, hinv, hcount⟩ | ⟨msg, -, hpan⟩
  · rcases hinv.nesting hstep with ⟨msg, hmsg, heq⟩ | ⟨hkeep, hnest⟩
    · exact .inr ⟨msg, hmsg, by rw [heq]; rfl⟩
    · have hy : y.1.panicked = none := hkeep.trans hup
      exact .inl ⟨hy, Inv.step (fun _ => hinv) hstep hy, hn ▸ hcount.step hinv hnest⟩
  · rw [hup] at hpan
    cases hpan

/-! ### The mask is that of the activation -/

theorem ctx_mask_unique {d : Nat} {m' e e' : Bool} {f : List Frame} (h : Ctx on d m e f)
    (h' : Ctx on d m' e' f) : m = m' := by
  unfold Ctx at h h'
  split at h
  case h_3 =>
    rcases Nat.eq_zero_or_pos d with hd | hd
    · rw [h.1 hd, h'.1 hd]
    · rw [(h.2 hd).1, (h'.2 hd).1]
  all_goals simp_all

theorem ctx_masked {d : Nat} {e : Bool} {f : List Frame} (hd : 0 < d) (h : Ctx on d m e f) : m = true := by
  cases m with
  | true => rfl
  | false =>
    by_cases hf : f = []
    · subst hf
      exact absurd h.1 hd.ne'
    · exact absurd (ctx_unmasked hf h).1 hd.ne'

theorem Inv.masked (h : Inv s) (hn : 0 < (s.cpu c).noff) : (s.cpu c).masked = true := by
  have hk := h.cpu c
  unfold CpuOk at hk
  split at hk
  · cases hirq : (s.cpu c).irq with
    | false => exact absurd (hk.1 hirq) hn.ne'
    | true => exact (hk.2 hirq).1
  · cases hirq : (s.cpu c).irq with
    | false => exact absurd (hk.1 hirq) hn.ne'
    | true => exact (hk.2 hirq).1
  · exact hk.2.2.1
  · exact hk.2.2.1
  · exact ctx_masked (hk.2.noff ▸ hn) hk.2.ctx

/-- A process that has been run, first by a scheduler with interrupts on or not. -/
structure Begun (s : State) (i : Pid) (on : Bool) : Prop where
  used : (s.thread i).state ≠ .unused
  forkOn : (s.thread i).forkOn = on
  entered : (s.thread i).frames = [.forkretEntry] → ∃ c, (s.cpu c).pos = .inProc i

theorem Begun.congr (h : Begun s i on) (hth : s'.thread i = s.thread i)
    (hpos : ∀ c, (s.cpu c).pos = .inProc i → (s'.cpu c).pos = .inProc i) : Begun s' i on := by
  refine ⟨hth ▸ h.used, hth ▸ h.forkOn, fun hf => ?_⟩
  obtain ⟨c, hc⟩ := h.entered (hth ▸ hf)
  exact ⟨c, hpos c hc⟩

theorem Inv.begun (h : Inv s) (hp : (s.cpu c).pos = .inProc i) : Begun s i (s.thread i).forkOn :=
  ⟨(h.runs hp).2.used, rfl, fun _ => ⟨c, hp⟩⟩

theorem Writes.entry {t : Thread} {x : Bool}
    (h : Writes s s' c i e k t) (hctx : Ctx (s.thread i).forkOn (s.thread i).depth m x (s.thread i).frames)
    (hf : t.frames = [.forkretEntry]) : k.pos = .inProc i := by
  refine h.pos.resolve_right fun ⟨_, hc⟩ => ?_
  rw [h.frames] at hf
  unfold framesAfter at hf
  revert hctx
  split at hf
  case h_5 =>
    split at hf
    case h_4 =>
      subst hf
      rename_i rest hrest
      rw [hrest]
      rintro ⟨-, -, -, hr | hr⟩ <;> cases hr
    all_goals simp_all [inCode]
  all_goals simp_all [inCode]

theorem Begun.step (h : Begun s i on) (hinv : Inv s)
    (hs : Intr.step s e = some s') (hok : s'.panicked = none) (hfree : e ≠ .free i) : Begun s' i on := by
  obtain ⟨-, hs | hs | ⟨c, j, hon, hp, hs⟩⟩ := step_parts hs
  · cases e with
    | alloc j =>
      obtain ⟨⟨-, hst⟩, rfl⟩ := guarded hs
      have hji : i ≠ j := fun e => h.used (e ▸ hst)
      exact h.congr (by simp [State.setThread, hji]) fun _ hp => hp
    | free j =>
      obtain ⟨-, rfl⟩ := guarded hs
      have hji : i ≠ j := fun e => hfree (e ▸ rfl)
      exact h.congr (by simp [State.setThread, hji]) fun _ hp => hp
    | start j | wake j =>
      obtain ⟨-, rfl⟩ := guarded hs
      by_cases hji : i = j
      · subst hji
        exact ⟨by simp [State.setThread], by simpa [State.setThread] using h.forkOn,
          by simpa [State.setThread] using h.entered⟩
      · exact h.congr (by simp [State.setThread, hji]) fun _ hp => hp
    | _ => cases hs
  · rcases stepSched_outcome hinv hs with ⟨msg, -, rfl⟩ | ⟨c, k, hw⟩ | ⟨c, j, rfl, hp, hst, rfl⟩
    · cases hok
    · refine h.congr (by rw [hw.thread]) fun c' hc' => ?_
      have hne : c' ≠ c := fun e => hw.old i (e ▸ hc')
      rwa [hw.cpu, update_of_ne hne]
    · obtain ⟨-, hn, hm, hl⟩ := hinv.locked (.inl hp)
      rw [dispatch_eq j hn hm]
      by_cases hji : i = j
      · subst hji
        have hno : ∀ c', (s.cpu c').pos ≠ .inProc i := by
          intro c' hp'
          by_cases hc : c' = c
          · rw [hc, hp] at hp'
            cases hp'
          · exact hinv.not_on_cpu (by simp [hst]) (by rw [hl]; exact fun e => hc (Option.some.inj e).symm) hp'
        obtain ⟨-, ⟨hpark, -⟩ | ⟨-, hf⟩⟩ := hinv.rest i h.used hno
        · rw [if_pos hpark]
          refine ⟨by simp [State.setThread], by simpa [State.setThread] using h.forkOn, fun _ => ⟨c, ?_⟩⟩
          simp [State.setThread, State.setCpu]
        · obtain ⟨c', hc'⟩ := h.entered hf
          exact absurd hc' (hno c')
      · split
        · refine h.congr (by simp [State.setThread, State.setCpu, hji]) fun c' hc' => ?_
          have hne : c' ≠ c := fun e => by rw [e, hp] at hc'; cases hc'
          simpa [State.setThread, State.setCpu, hne] using hc'
        · refine h.congr (by simp [State.setThread, State.setCpu, hji]) fun c' hc' => ?_
          have hne : c' ≠ c := fun e => by rw [e, hp] at hc'; cases hc'
          simpa [State.setThread, State.setCpu, hne] using hc'
  · obtain ⟨k, t, hw⟩ := stepProc_writes hinv hp hon hs hok
    by_cases hji : i = j
    · subst hji
      refine ⟨by simpa [hw.thread] using hw.used, by simp [hw.thread, hw.forkOn, h.forkOn], fun hf => ⟨c, ?_⟩⟩
      rw [hw.thread, update_self] at hf
      simp [hw.cpu, hw.entry (hinv.runs hp).2.ctx hf]
    · refine h.congr (by simp [hw.thread, hji]) fun c' hc' => ?_
      have hne : c' ≠ c := fun e => hji (by rw [e, hp] at hc'; exact (Pos.inProc.inj hc').symm)
      simpa [hw.cpu, hne] using hc'

/-! ### Whole runs -/

theorem Sound.run {tr : List Event} (h : Sound x) (hrun : Run stepTally (fun _ _ => True) x tr y) : Sound y :=
  hrun.invariant h fun _ _ _ ha _ hs => ha.step hs

theorem sound_boot : Sound (boot, fun _ => 0) := by
  refine .inl ⟨rfl, Inv.boot, fun c => rfl, fun c i ho => ?_, fun _ _ => rfl⟩
  exact absurd (pos_of_owner ho) (by simp [boot])

theorem Begun.run {tr : List Event}
    (h : Begun x.1 i on) (hx : Sound x) (hrun : Run stepTally (fun _ _ => True) x tr y)
    (hy : y.1.panicked = none) (hfree : .free i ∉ tr) : Begun y.1 i on := by
  induction hrun with
  | nil => exact h
  | snoc hpre _ hs ih =>
    obtain ⟨hstep, -⟩ := stepTally_cases hs
    obtain ⟨hup, -⟩ := step_parts hstep
    rw [List.mem_append, not_or] at hfree
    rcases hx.run hpre with ⟨-, hinv, -⟩ | ⟨msg, -, hpan⟩
    · exact (ih hup hfree.1).step hinv hstep hy fun e => hfree.2 (by simp [e])
    · rw [hup] at hpan
      cases hpan

/-- **The interrupt state of a thread across locks and migration.** In every run: `pop_off` never panics;
the `noff` of a CPU is the number of calls of `push_off` that its thread has not undone, and inside them
interrupts are off there; and when a process comes back to an activation with the same number of open calls,
on whatever CPU it then is, interrupts are on or off as they were. -/
theorem nesting_preserved {tr : List Event} {s : State} {n : Tally}
    (hrun : Run stepTally (fun _ _ => True) (boot, fun _ => 0) tr (s, n)) :
    s.panicked ≠ some "pop_off" ∧ s.panicked ≠ some "pop_off - interruptible" ∧
    (s.panicked = none →
      (∀ c, (s.cpu c).noff = n (s.owner c) ∧ (0 < n (s.owner c) → (s.cpu c).masked = true)) ∧
      ∀ tr' s' n' i c c', Run stepTally (fun _ _ => True) (s, n) tr' (s', n') →
        s'.panicked = none → .free i ∉ tr' → s.owner c = .thread i → s'.owner c' = .thread i →
        (s'.thread i).frames = (s.thread i).frames → n' (.thread i) = n (.thread i) →
        (s'.cpu c').masked = (s.cpu c).masked) := by
  have hsound : Sound (s, n) := sound_boot.run hrun
  refine ⟨?_, ?_, fun hup => ⟨fun c => ?_, ?_⟩⟩
  · rcases hsound with ⟨hup, -⟩ | ⟨msg, hmsg, hpan⟩
    · exact hup ▸ nofun
    · rw [show s.panicked = some msg from hpan]
      rintro ⟨⟩
      exact absurd hmsg (by decide)
  · rcases hsound with ⟨hup, -⟩ | ⟨msg, hmsg, hpan⟩
    · exact hup ▸ nofun
    · rw [show s.panicked = some msg from hpan]
      rintro ⟨⟩
      exact absurd hmsg (by decide)
  · obtain ⟨-, hinv, hcount⟩ := hsound.resolve_right fun ⟨_, _, hpan⟩ => by simp [hup] at hpan
    have hn := hcount.noff c
    exact ⟨hn.symm, fun hpos => hinv.masked (hn ▸ hpos)⟩
  · intro tr' s' n' i c c' hrun' hup' hfree hc hc' hframes hsame
    obtain ⟨-, hinv, hcount⟩ := hsound.resolve_right fun ⟨_, _, hpan⟩ => by simp [hup] at hpan
    obtain ⟨-, hinv', hcount'⟩ := (hsound.run hrun').resolve_right fun ⟨_, _, hpan⟩ => by simp [hup'] at hpan
    have hr := (hinv.runs (pos_of_owner hc)).2
    have hr' := (hinv'.runs (pos_of_owner hc')).2
    have hon : (s'.thread i).forkOn = (s.thread i).forkOn :=
      ((hinv.begun (pos_of_owner hc)).run hsound hrun' hup' hfree).forkOn
    have hdepth : (s'.thread i).depth = (s.thread i).depth := by
      calc (s'.thread i).depth = (s'.cpu c').noff := hr'.noff.symm
        _ = n' (.thread i) := by rw [← hcount'.noff c', hc']
        _ = n (.thread i) := hsame
        _ = (s.cpu c).noff := by rw [← hcount.noff c, hc]
        _ = (s.thread i).depth := hr.noff
    have hctx' := hr'.ctx
    rw [hon, hdepth, hframes] at hctx'
    exact ctx_mask_unique hctx' hr.ctx

/-- The first process starts on CPU 0 with interrupts on. -/
def firstStart : List Event := [.intrOn 0, .schedAcquire 0, .dispatch 0, .forkretRelease 0]

/-- It gives up CPU 0 inside a critical section and leaves the section on CPU 1. -/
def migration : List Event :=
  [.acquireSelf 0, .setState 0 .runnable, .sched 0, .schedBack 0, .intrOn 1, .schedAcquire 1, .dispatch 1,
    .releaseSelf 1]

theorem migration_unmasked : ∃ x y : State × Tally,
    Run stepTally (fun _ _ => True) (boot, fun _ => 0) firstStart x ∧
    Run stepTally (fun _ _ => True) x migration y ∧ x.1.owner 0 = .thread 0 ∧
    y.1.owner 1 = .thread 0 ∧ (x.1.cpu 0).masked = false ∧ (y.1.cpu 1).masked = false := by
  have hsome : (exec stepTally (fun _ _ => True) (boot, fun _ => 0) firstStart).isSome := by decide
  have hrun := run_get hsome
  have hsome' : (exec stepTally (fun _ _ => True)
      ((exec stepTally (fun _ _ => True) (boot, fun _ => 0) firstStart).get hsome)
      migration).isSome := rfl
  have hrun' := run_get hsome'
  refine ⟨_, _, hrun, hrun', rfl, rfl, rfl, ?_⟩
  exact ((nesting_preserved hrun).2.2 rfl).2 _ _ _ 0 0 1 hrun' rfl (by simp [migration]) rfl rfl rfl rfl

end Xv6Armv8.Intr
