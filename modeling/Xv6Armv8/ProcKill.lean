import Xv6Armv8.ProcCases

/-! `kill` and the killable waits. A wait tests `killed` under `p->lock`, drops the lock and takes it again in
`sleep`. A `kill` that falls between finds the process RUNNING and only sets the flag, which the process does not
look at again before it sleeps. Every other moment is safe. A `kill` compares pids only, and free slots have the pid 0;
as long as none is for 0, the slot it finds is in use. -/

namespace Xv6Armv8.Procs

open StepRun

open Function (update_of_ne update_self)

open Intr (Procstate nproc)

/-- Behind its test of `killed` a process is not killed, until it is woken. -/
def Heeds (s : State) : Prop := ∀ p, (s.proc p).deaf = true → (s.proc p).killed = false

/-- The step is not one of a `kill` at a process between its test of `killed` and `acquire(&p->lock)`. -/
def spares (s : State) (e : Event) : Bool :=
  match (s.cpu e.cpu).pos with
  | .inProc i =>
    match (s.proc i).pc with
    | .killing pid k => (s.proc k).pid ≠ pid || !(s.proc k).pc.window
    | _ => true
  | _ => true

variable {f : Proc → Proc} {pid : Nat}

section

variable {g : Cfg} {s s' : State} {i k : Pid} {e : Event}

theorem Proc.deaf_kill {p : Proc} (hd : p.kill.deaf = true) : p.deaf = true ∧ ∀ r, p.pc ≠ .parked r := by
  have hst : p.kill.state ≠ .sleeping := by
    unfold Proc.kill
    by_cases h : p.state = .sleeping <;> simp [h]
  unfold Proc.deaf at hd ⊢
  split at hd
  · next hpc =>
      rw [show p.pc = _ from hpc]
      exact ⟨rfl, nofun⟩
  · next hpc =>
      rw [show p.pc = _ from hpc]
      exact ⟨rfl, nofun⟩
  · next hpc =>
      rw [show p.pc = _ from hpc]
      exact ⟨rfl, nofun⟩
  · simp [hst] at hd
  · refine ⟨?_, fun r hr => ?_⟩
    · split
      · rfl
      · rfl
      · rfl
      · next hpc => simp [show p.kill.pc = _ from hpc, Pc.window] at hd
      · exact hd
    · simp [show p.kill.pc = _ from hr, Pc.window] at hd

theorem Inv.deaf_cases (h : Inv s) (hl : s.lock k = none) (hd : (s.proc k).deaf = true) :
    (s.proc k).pc.window = true ∨ ∃ r, (s.proc k).pc = .parked r := by
  have hlocks : ∀ q, (s.proc k).pc = q → q.runs = true → q.locks k = some k → False := by
    rintro q rfl hr hlk
    obtain ⟨c, ho⟩ : ∃ c, (s.cpu c).pos.on = some k := by
      by_contra hno
      push Not at hno
      exact Bool.false_ne_true ((h.rest k hno).runs.symm.trans hr)
    rcases h.on_cases ho with h' | ⟨hp, -⟩
    · rw [hl] at h'
      cases h'
    · exact absurd ((h.runs hp).2.locks k hlk) (by simp [hl])
  unfold Proc.deaf at hd
  split at hd
  · next hpc => exact (hlocks _ hpc rfl rfl).elim
  · next hpc => exact (hlocks _ hpc rfl rfl).elim
  · next hpc => exact (hlocks _ hpc rfl rfl).elim
  · next hpc => exact .inr ⟨_, hpc⟩
  · exact .inl hd

/-- A step of `i` to a place that is not behind the test, in which `f` happens to `k`. -/
theorem Heeds.touch (h : Heeds s) (hi : (s'.proc i).pc.late = false)
    (hother : ∀ p, p ≠ i → s'.proc p = (s.upd k f).proc p)
    (hf : (f (s.proc k)).deaf = true → (s.proc k).deaf = true ∧ (f (s.proc k)).killed = (s.proc k).killed ∨
      (f (s.proc k)).killed = false) : Heeds s' := by
  intro p hd
  by_cases hp : p = i
  · subst hp
    rw [Proc.deaf_eq_false hi] at hd
    cases hd
  · rw [hother p hp, upd_proc] at hd ⊢
    by_cases hk : p = k
    · subst hk
      rw [update_self] at hd ⊢
      rcases hf hd with ⟨hd', heq⟩ | heq
      · rw [heq]
        exact h p hd'
      · exact heq
    · rw [update_of_ne hk] at hd ⊢
      exact h p hd

theorem Heeds.goto (h : Heeds s) (hi : (s'.proc i).pc.late = false) (hother : ∀ p, p ≠ i → s'.proc p = s.proc p) :
    Heeds s' :=
  h.touch (k := i) (f := id) hi (fun p hp => by simp [hother p hp, hp]) fun hd => .inl ⟨hd, rfl⟩

theorem Heeds.step (hinv : Inv s) (h : Heeds s) (hC : spares s e = true) (hs : step g s e = some s') : Heeds s' := by
  rcases step_outcome hinv hs with hminor | ⟨i, hp, hv⟩
  · intro p hd
    rw [(hminor p).killed]
    rcases (hminor p).deaf hd with hd' | hk
    · exact h p hd'
    · exact hk
  · cases hv with subst hs
    | kill pid k hpc hlock hpid hs =>
      refine h.touch (k := k) (f := Proc.kill) (i := i) (by simp [Pc.late]) (fun p hp => by simp [hp]) fun hd => ?_
      exfalso
      obtain ⟨hd, hparked⟩ := Proc.deaf_kill hd
      rcases hinv.deaf_cases hlock hd with hw | ⟨r, hr⟩
      · simp [spares, hp, hpc, hpid, hw] at hC
      · exact hparked r hr
    | discard k hpc hs =>
      exact h.touch (k := k) (f := Proc.free) (i := i) (by simp [Pc.late]) (fun p hp => by simp [hp]) fun _ => .inr rfl
    | adopt k hpc hs =>
      exact h.touch (k := k) (i := i) (f := fun p => { p with parent := some i }) (by simp [Pc.late])
        (fun p hp => by simp [hp]) fun hd => .inl ⟨hd, rfl⟩
    | start k hpc hs =>
      refine h.touch (k := k) (i := i) (f := fun p => { p with state := .runnable }) (by simp [Pc.late])
        (fun p hp => by simp [hp]) fun hd => .inl ⟨?_, rfl⟩
      unfold Proc.deaf at hd ⊢
      split at hd <;> simp_all
    | skip k hpc hk hs | exit status hpc hi hs | pass status k hpc hk hs =>
      exact h.goto (i := i) (by simp [Pc.late]) fun p hp => by simp [hp]
    | childless k hpc hk hs | interrupted hpc hkilled hs | fault k kids hpc hk hz hs =>
      exact h.goto (i := i) (by simp [State.waitRet, Pc.late]) fun p hp => by simp [State.waitRet, hp]
    | reap k kids hpc hlock hk hz hs =>
      exact h.touch (k := k) (f := Proc.free) (i := i) (by simp [State.waitRet, Pc.late])
        (fun p hp => by simp [State.waitRet, hp]) fun _ => .inr rfl
    | reparent status k hpc hk hs =>
      exact h.touch (k := k) (i := i) (f := fun p => { p with parent := some initproc }) (by simp [Pc.late])
        (fun p hp => by simp [hp]) fun hd => .inl ⟨hd, rfl⟩
    | alone status k q hpc hk hq hs =>
      refine h.goto (i := i) ?_ fun p hp => by simp [hp]
      rcases hq with rfl | ⟨j, rfl⟩ <;> simp [Pc.late]
    | zombie c status hpc hs =>
      exact h.goto (i := i) (by simp [Pc.late]) fun p hp => by simp [hp]

end

theorem heeds_boot (cond : Nat → Bool) : Heeds (boot cond) := by
  intro p hd
  by_cases hp : p = initproc <;> simp [boot, hp, noProc, Proc.deaf, Pc.window] at hd

/-- **No kill is lost** in a run in which no `kill` falls between the test of `killed` of a wait and the
`acquire(&p->lock)` of its `sleep`: a process that is SLEEPING in a killable wait is not killed. -/
theorem no_lost_kill {g : Cfg} {cond : Nat → Bool} {tr : List Event} {s : State}
    (hrun : Run (step g) (fun s e => spares s e = true) (boot cond) tr s) (p : Pid) (ch : Chan)
    (hst : (s.proc p).state = .sleeping)
    (hpc : (s.proc p).pc = .toSched (.sleep ch true) ∨ (s.proc p).pc = .parked (.sleep ch true)) :
    (s.proc p).killed = false := by
  have h : Inv s ∧ Heeds s := hrun.invariant (P := fun s => Inv s ∧ Heeds s) ⟨inv_boot cond, heeds_boot cond⟩
    fun _ _ _ h hC hs => ⟨h.1.step hs, h.2.step h.1 hC hs⟩
  refine h.2 p ?_
  rcases hpc with hpc | hpc
  · simp only [Proc.deaf, hpc]
  · simp only [Proc.deaf, hpc, hst, decide_true]

/-- A pipe: the reader waits for data on channel 0, under the lock of the pipe. -/
def onePipe : Cfg where
  lkOf := id
  sleepLock := fun _ => false

/-- The first process forks on CPU 0. Its child, on CPU 1, finds the pipe empty and itself not killed. -/
def readerTests : List Event :=
  List.replicate 11 (.sched 0) ++ [.run 0 true, .call 0 .fork] ++ List.replicate 5 (.run 0 true) ++
    List.replicate 13 (.sched 1) ++ [.run 1 true, .call 1 (.lock (.obj 0)), .call 1 (.sleep 0 true), .run 1 true]

/-- `kill(2)` from beginning to end. -/
def killChild : List Event := .call 0 (.kill 2) :: List.replicate 2 (.run 0 true)

/-- The reader in `sleep`, up to the scheduler. -/
def readerSleeps : List Event := List.replicate 4 (.run 1 true) ++ List.replicate 10 (.sched 1)

/-- The `kill` falls between the test and `sleep`: it has returned, and the reader sleeps with the flag set. -/
theorem kill_lost : ∃ s,
    Run (step onePipe) (fun _ _ => True) (boot fun _ => false) (readerTests ++ killChild ++ readerSleeps) s ∧
      (s.proc 0).pc = .kern ∧ (s.proc 1).pid = 2 ∧ (s.proc 1).state = .sleeping ∧
      (s.proc 1).pc = .parked (.sleep (.obj 0) true) ∧ (s.proc 1).killed = true := by
  have hend : (exec (step onePipe) (fun _ _ => True) (boot fun _ => false)
      (readerTests ++ killChild ++ readerSleeps)).map (fun s =>
        ((s.proc 0).pc, (s.proc 1).pid, (s.proc 1).state, (s.proc 1).pc, (s.proc 1).killed)) =
      some (.kern, 2, .sleeping, .parked (.sleep (.obj 0) true), true) := by
    decide +kernel
  obtain ⟨s, hs, hfacts⟩ := Option.map_eq_some_iff.mp hend
  simp only [Prod.mk.injEq] at hfacts
  exact ⟨s, run_of_exec hs, hfacts⟩

/-- A reader that sleeps where no `kill` has fallen between. -/
theorem reader_not_killed : ∃ s,
    Run (step onePipe) (fun s e => spares s e = true) (boot fun _ => false) (readerTests ++ readerSleeps) s ∧
      (s.proc 1).state = .sleeping ∧ (s.proc 1).pc = .parked (.sleep (.obj 0) true) ∧ (s.proc 1).killed = false := by
  have hend : (exec (step onePipe) (fun s e => spares s e = true) (boot fun _ => false)
      (readerTests ++ readerSleeps)).map (fun s => ((s.proc 1).state, (s.proc 1).pc)) =
      some (.sleeping, .parked (.sleep (.obj 0) true)) := by
    decide +kernel
  obtain ⟨s, hs, hfacts⟩ := Option.map_eq_some_iff.mp hend
  simp only [Prod.mk.injEq] at hfacts
  have hrun := run_of_exec hs
  exact ⟨s, hrun, hfacts.1, hfacts.2, no_lost_kill hrun 1 (.obj 0) hfacts.1 (.inr hfacts.2)⟩

/-! ### Whom a kill hits

`allocproc` leaves `p->killed` as it finds it, and `kill` compares pids only, so that what matters is what is left in
a slot that nobody uses: its pid is 0, and a `kill(0)` finds it. -/

/-- `kill(pid)` on the CPU `c` has come to the slot `k` and returns 0. -/
structure Hits (s : State) (c : Cid) (k : Pid) (pid : Nat) : Prop where
  caller : ∃ i, (s.cpu c).pos = .inProc i ∧ (s.proc i).pc = .killing pid k
  lock : s.lock k = none
  pid : (s.proc k).pid = pid

/-- The step is not one of a `kill(0)`. -/
def nonzero (s : State) (e : Event) : Bool :=
  match (s.cpu e.cpu).pos with
  | .inProc i =>
    match (s.proc i).pc with
    | .killing pid _ => pid ≠ 0
    | _ => true
  | _ => true

/-- The fields of `struct proc` are as before. -/
structure SameSlot (p p' : Proc) : Prop where
  state : p'.state = p.state
  chan : p'.chan = p.chan
  killed : p'.killed = p.killed
  xstate : p'.xstate = p.xstate
  pid : p'.pid = p.pid
  parent : p'.parent = p.parent

/-- What is left in a slot that nobody uses. -/
def Blank (s : State) : Prop := ∀ k, (s.proc k).state = .unused → (s.proc k).killed = false ∧ (s.proc k).pid = 0

section

variable {g : Cfg} {s s' : State} {i k : Pid} {e : Event} {cond : Nat → Bool} {tr : List Event}

theorem nonzero_killing (hC : nonzero s e = true) (hp : (s.cpu e.cpu).pos = .inProc i)
    (hpc : (s.proc i).pc = .killing pid k) : pid ≠ 0 := by
  simpa [nonzero, hp, hpc] using hC

theorem Hits.ne_unused {c : Cid} (hb : Blank s) (h : Hits s c k pid) (hpid : pid ≠ 0) :
    (s.proc k).state ≠ .unused := by
  intro hun
  exact hpid (h.pid.symm.trans (hb k hun).2)

/-- What a step can do to the fields of the slot `k` that matter here. -/
inductive SlotChange (s : State) (e : Event) (k : Pid) (p' : Proc) : Prop
  | calm (killed : p'.killed = (s.proc k).killed)
      (unused : p'.state = .unused → (s.proc k).state = .unused ∧ p'.pid = (s.proc k).pid)
      (zombie : p'.state = .zombie → (s.proc k).state = .zombie ∨ (s.cpu e.cpu).pos = .inProc k)
  | hit (pid : Nat) (hits : Hits s e.cpu k pid) (unused : p'.state = .unused → (s.proc k).state = .unused)
      (zombie : p'.state = .zombie → (s.proc k).state = .zombie)
  | freed (killed : p'.killed = false) (pid : p'.pid = 0) (state : p'.state = .unused)

theorem SlotChange.refl (s : State) (e : Event) (k : Pid) : SlotChange s e k (s.proc k) :=
  .calm rfl (fun h => ⟨h, rfl⟩) .inl

theorem SlotChange.along {p p' : Proc} (h : SlotChange s e k p) (hp : p' = { p with pc := p'.pc, rets := p'.rets }) :
    SlotChange s e k p' := by
  rw [hp]
  cases h with
  | calm h1 h2 h3 => exact .calm h1 h2 h3
  | hit pid h1 h2 h3 => exact .hit pid h1 h2 h3
  | freed h1 h2 h3 => exact .freed h1 h2 h3

theorem SlotChange.goto {t : State} (h : SlotChange s e k (t.proc k))
    (hf : ∀ p, f p = { p with pc := (f p).pc, rets := (f p).rets }) : SlotChange s e k ((t.upd i f).proc k) := by
  refine h.along ?_
  rw [upd_proc]
  by_cases hk : k = i
  · subst hk
    rw [update_self]
    exact hf _
  · rw [update_of_ne hk]

theorem SlotChange.upd {l : Pid} (h : SlotChange s e l (f (s.proc l))) :
    SlotChange s e k ((s.upd l f).proc k) := by
  rw [upd_proc]
  by_cases hk : k = l
  · subst hk
    rwa [update_self]
  · rw [update_of_ne hk]
    exact .refl s e k

theorem slotChange (hinv : Inv s) (hs : step g s e = some s') (k : Pid) : SlotChange s e k (s'.proc k) := by
  rcases step_outcome hinv hs with hminor | ⟨i, hp, hv⟩
  · obtain h := hminor k
    exact .calm h.killed (fun hu => ⟨h.unused hu, h.pid hu⟩) fun hz => .inl (h.zombie.mp hz)
  · have hself : SlotChange s e k (s.proc k) := .refl s e k
    cases hv with subst hs
    | kill pid l hpc hlock hpid hs =>
      refine SlotChange.goto (.upd (.hit pid ⟨⟨i, hp, hpc⟩, hlock, hpid⟩ ?_ ?_)) fun _ => rfl
      · unfold Proc.kill
        by_cases hsl : (s.proc l).state = .sleeping <;> simp [hsl]
      · unfold Proc.kill
        by_cases hsl : (s.proc l).state = .sleeping <;> simp [hsl]
    | discard l hpc hs =>
      exact SlotChange.goto (.upd (.freed rfl rfl rfl)) fun _ => rfl
    | reap l kids hpc hlock hk hz hs =>
      exact SlotChange.goto (t := (s.upd l Proc.free).setKlock .wait none) (.upd (.freed rfl rfl rfl)) fun _ => rfl
    | adopt l hpc hs =>
      exact SlotChange.goto (.upd (.calm rfl (fun h => ⟨h, rfl⟩) .inl)) fun _ => rfl
    | reparent status l hpc hk hs =>
      exact SlotChange.goto (.upd (.calm rfl (fun h => ⟨h, rfl⟩) .inl)) fun _ => rfl
    | start l hpc hs =>
      exact SlotChange.goto (.upd (.calm rfl nofun nofun)) fun _ => rfl
    | skip l hpc hk hs | pass status l hpc hk hs | alone status l q hpc hk hq hs =>
      exact SlotChange.goto hself fun _ => rfl
    | exit status hpc hi hs =>
      exact SlotChange.goto (t := s.setKlock .wait (some (.proc i))) hself fun _ => rfl
    | childless l hpc hk hs | interrupted hpc hkilled hs | fault l kids hpc hk hz hs =>
      exact SlotChange.goto (t := s.setKlock .wait none) hself fun _ => rfl
    | zombie c status hpc hs =>
      exact SlotChange.upd (f := fun p => { p with state := .zombie, xstate := status, pc := .exitRel })
        (.calm rfl nofun fun _ => .inr hp)

/-! ### Runs without `kill(0)` -/

theorem Blank.step (hinv : Inv s) (h : Blank s) (hC : nonzero s e = true) (hs : Procs.step g s e = some s') :
    Blank s' := by
  intro k hun
  cases slotChange hinv hs k with
  | calm hkilled hunused _ =>
    obtain ⟨hu, hpid⟩ := hunused hun
    rw [hkilled, hpid]
    exact h k hu
  | hit pid hits hunused _ =>
    obtain ⟨i, hp, hpc⟩ := hits.caller
    exact absurd (hunused hun) (hits.ne_unused h (nonzero_killing hC hp hpc))
  | freed hkilled hpid _ => exact ⟨hkilled, hpid⟩

theorem blank_boot (cond : Nat → Bool) : Blank (boot cond) := by
  intro k hun
  by_cases hk : k = initproc
  · simp [boot, hk] at hun
  · simp [boot, hk, noProc]

/-- Somewhere in the run a `kill` has found the slot `k` in use, and it has been in use ever since. -/
def HitSince (g : Cfg) (cond : Nat → Bool) (k : Pid) (tr : List Event) (s : State) : Prop :=
  ∃ tr₁ e tr₂ s₁ s₂ pid, tr = tr₁ ++ [e] ++ tr₂ ∧
    Run (Procs.step g) (fun s e => nonzero s e = true) (boot cond) tr₁ s₁ ∧
    Hits s₁ e.cpu k pid ∧ (s₁.proc k).state ≠ .unused ∧ Procs.step g s₁ e = some s₂ ∧
    Run (Procs.step g) (fun t _ => (t.proc k).state ≠ .unused) s₂ tr₂ s

theorem HitSince.snoc (h : HitSince g cond k tr s) (hk : (s.proc k).state ≠ .unused)
    (hs : Procs.step g s e = some s') : HitSince g cond k (tr ++ [e]) s' := by
  obtain ⟨tr₁, e₁, tr₂, s₁, s₂, pid, rfl, hrun₁, hits, huse, hstep, hrun₂⟩ := h
  exact ⟨tr₁, e₁, tr₂ ++ [e], s₁, s₂, pid, by simp, hrun₁, hits, huse, hstep, .snoc hrun₂ hk hs⟩

theorem blank_run (hrun : Run (Procs.step g) (fun s e => nonzero s e = true) (boot cond) tr s) :
    Inv s ∧ Blank s :=
  hrun.invariant (P := fun s => Inv s ∧ Blank s) ⟨inv_boot cond, blank_boot cond⟩ fun _ _ _ h hC hs =>
    ⟨h.1.step hs, h.2.step h.1 hC hs⟩

theorem hit_since (hrun : Run (Procs.step g) (fun s e => nonzero s e = true) (boot cond) tr s) (k : Pid)
    (hk : (s.proc k).killed = true) : HitSince g cond k tr s := by
  induction hrun with
  | nil =>
    by_cases hi : k = initproc <;> simp [boot, hi, noProc] at hk
  | @snoc tr t u e hrun hC hs ih =>
    obtain ⟨hinv, hblank⟩ := blank_run hrun
    cases slotChange hinv hs k with
    | calm hkilled _ _ =>
      rw [hkilled] at hk
      refine (ih hk).snoc (fun hun => ?_) hs
      rw [(hblank k hun).1] at hk
      cases hk
    | hit pid hits _ _ =>
      obtain ⟨i, hp, hpc⟩ := hits.caller
      refine ⟨tr, e, [], t, u, pid, by simp, hrun, hits, ?_, hs, .nil⟩
      exact hits.ne_unused hblank (nonzero_killing hC hp hpc)
    | freed hkilled _ _ =>
      rw [hkilled] at hk
      cases hk

theorem Hits.step {c : Cid} (h : Hits s c k pid) (hk : k < nproc) (ok : Bool) :
    ∃ i, Procs.step g s (.run c ok) = some ((s.upd k Proc.kill).setPc i .kern) := by
  obtain ⟨i, hp, hpc⟩ := h.caller
  refine ⟨i, ?_⟩
  simp only [Procs.step, hp, stepRun, hpc]
  rw [if_neg (not_le.mpr hk), if_pos h.lock, if_pos h.pid]

theorem sameSlot_kill {j : Pid} (hj : j ≠ k) :
    SameSlot (s.proc j) (((s.upd k Proc.kill).setPc i .kern).proc j) := by
  have hother : (s.upd k Proc.kill).proc j = s.proc j := by rw [upd_proc, update_of_ne hj]
  rw [setPc_proc]
  by_cases hji : j = i
  · subst hji
    rw [update_self, hother]
    exact ⟨rfl, rfl, rfl, rfl, rfl, rfl⟩
  · rw [update_of_ne hji, hother]
    exact ⟨rfl, rfl, rfl, rfl, rfl, rfl⟩

/-- **A kill finds a live process**, in a run without `kill(0)`: the slot at which `kill` returns 0 is in use, and no
other changes. A slot that comes into use has `killed` clear; a process that has it set was hit while it was in use, and
a process becomes a ZOMBIE in its own `exit`. -/
theorem kill_hits_live (hrun : Run (Procs.step g) (fun s e => nonzero s e = true) (boot cond) tr s) :
    (∀ c k pid ok, pid ≠ 0 → k < nproc → Hits s c k pid → (s.proc k).state ≠ .unused ∧
      ∃ s', Procs.step g s (.run c ok) = some s' ∧ ∀ j, j ≠ k → SameSlot (s.proc j) (s'.proc j)) ∧
    (∀ k, (s.proc k).killed = true → HitSince g cond k tr s) ∧
    ∀ e s', nonzero s e = true → Procs.step g s e = some s' → ∀ k,
      ((s.proc k).state = .unused → (s'.proc k).killed = false) ∧
      ((s.proc k).state ≠ .zombie → (s'.proc k).state = .zombie → (s.cpu e.cpu).pos = .inProc k) := by
  obtain ⟨hinv, hblank⟩ := blank_run hrun
  refine ⟨fun c k pid ok hpid hk hits => ⟨hits.ne_unused hblank hpid, ?_⟩, fun k hk => hit_since hrun k hk,
    fun e s' hC hs k => ?_⟩
  · obtain ⟨i, hstep⟩ := hits.step (g := g) hk ok
    exact ⟨_, hstep, fun j hj => sameSlot_kill hj⟩
  · cases slotChange hinv hs k with
    | calm hkilled _ hzombie =>
      refine ⟨fun hun => ?_, fun hz hz' => (hzombie hz').resolve_left hz⟩
      rw [hkilled]
      exact (hblank k hun).1
    | hit pid hits _ hzombie =>
      obtain ⟨i, hp, hpc⟩ := hits.caller
      refine ⟨fun hun => ?_, fun hz hz' => absurd (hzombie hz') hz⟩
      exact absurd hun (hits.ne_unused hblank (nonzero_killing hC hp hpc))
    | freed hkilled _ hstate =>
      refine ⟨fun _ => hkilled, fun _ hz => ?_⟩
      rw [hstate] at hz
      cases hz

end

/-- The first process, on CPU 0, calls `kill(pid)` and then `fork`. -/
def killThenFork (pid : Nat) : List Event :=
  List.replicate 11 (.sched 0) ++ [.run 0 true, .call 0 (.kill pid), .run 0 true, .run 0 true, .call 0 .fork] ++
    List.replicate 2 (.run 0 true)

/-- `kill(0)` has hit a slot that nobody used, and the child that is made there is killed from the start. -/
theorem born_killed : ∃ s, Run (step onePipe) (fun _ _ => True) (boot fun _ => false) (killThenFork 0) s ∧
      (s.proc 1).state = .used ∧ (s.proc 1).pid = 2 ∧ (s.proc 1).killed = true := by
  have hend : (exec (step onePipe) (fun _ _ => True) (boot fun _ => false) (killThenFork 0)).map
      (fun s => ((s.proc 1).state, (s.proc 1).pid, (s.proc 1).killed)) = some (.used, 2, true) := by
    decide +kernel
  obtain ⟨s, hs, hfacts⟩ := Option.map_eq_some_iff.mp hend
  simp only [Prod.mk.injEq] at hfacts
  exact ⟨s, run_of_exec hs, hfacts⟩

/-- The child is killed after it was made: it was hit while in use. -/
theorem child_hit : ∃ s,
    Run (step onePipe) (fun s e => nonzero s e = true) (boot fun _ => false) (readerTests ++ killChild) s ∧
      (s.proc 1).killed = true ∧ HitSince onePipe (fun _ => false) 1 (readerTests ++ killChild) s := by
  have hend : (exec (step onePipe) (fun s e => nonzero s e = true) (boot fun _ => false)
      (readerTests ++ killChild)).map (fun s => (s.proc 1).killed) = some true := by
    decide +kernel
  obtain ⟨s, hs, hkilled⟩ := Option.map_eq_some_iff.mp hend
  have hrun := run_of_exec hs
  exact ⟨s, hrun, hkilled, (kill_hits_live hrun).2.1 1 hkilled⟩

end Xv6Armv8.Procs
