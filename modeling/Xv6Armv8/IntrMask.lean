import Xv6Armv8.IntrModel

/-! When a CPU returns to user mode with interrupts masked. The invariant says, for every place a
process can be in, what `noff`, `intena` and PSTATE.I are on its CPU: a trap taken at EL0 keeps
interrupts masked until `eret`, while `forkret` inherits the `intena` of the scheduler that first
ran the process. So the mask is missing exactly when that scheduler had interrupts on. -/

namespace Xv6Armv8.Intr

open StepRun

open Function (update update_of_ne update_self)

/-! ### One thread and its CPU -/

/-- What a thread with activations `f` and `d` open calls of `push_off` finds in PSTATE.I (`m`) and
`intena` (`e`), when the scheduler that ran it first had interrupts on (`on`). -/
def Ctx (on : Bool) (d : Nat) (m e : Bool) : List Frame → Prop
  | [] => d = 0 ∧ m = false
  | [.forkretEntry] => d = 1 ∧ m = true ∧ e = on
  | [.forkret] => (d = 0 → m = !on) ∧ (0 < d → m = true ∧ e = on)
  | [.ret fork] => d = 0 ∧ m = !(fork && on)
  | [.svc] | [.irq0] => m = true ∧ (0 < d → e = false)
  | .irq1 :: rest =>
    m = true ∧ (0 < d → e = false) ∧ on = true ∧ (rest = [.forkret] ∨ rest = [.ret true])
  | _ => False

variable {c : Cid} {d : Nat} {e m on : Bool} {f : List Frame} {i : Pid} {k : Cpu} {o : Option Cid} {s s' : State} {t : Thread}

/-- The shapes of a stack on which C code runs, the IRQ handlers of every level together. -/
theorem ctx_code (hc : inCode f = true) : Ctx on d m e f →
      (f = [.forkret] ∧ (d = 0 → m = !on) ∧ (0 < d → m = true ∧ e = on)) ∨
      (m = true ∧ (0 < d → e = false) ∧ ∀ d' e', (0 < d' → e' = false) → Ctx on d' true e' f) := by
  unfold Ctx
  split <;> simp_all [inCode]

theorem ctx_push (hc : inCode f = true)
    (h : Ctx on d m e f) : Ctx on (d + 1) true (if d = 0 then !m else e) f := by
  rcases ctx_code hc h with ⟨rfl, h0, h1⟩ | ⟨rfl, h1, hall⟩
  · refine ⟨fun hd => absurd hd d.succ_ne_zero, fun _ => ⟨rfl, ?_⟩⟩
    split
    · next hd => rw [h0 hd, Bool.not_not]
    · next hd => exact (h1 (Nat.pos_of_ne_zero hd)).2
  · refine hall _ _ fun _ => ?_
    split
    · rfl
    · next hd => exact h1 (Nat.pos_of_ne_zero hd)

theorem ctx_pop (hc : inCode f = true) (hd : 0 < d) (h : Ctx on d m e f) :
    m = true ∧ Ctx on (d - 1) (if d - 1 = 0 ∧ e = true then false else true) e f := by
  rcases ctx_code hc h with ⟨rfl, -, h1⟩ | ⟨rfl, h1, hall⟩
  · obtain ⟨rfl, rfl⟩ := h1 hd
    refine ⟨rfl, fun h0 => ?_, fun h0 => ⟨?_, rfl⟩⟩
    · cases e <;> simp [h0]
    · simp [Nat.pos_iff_ne_zero.mp h0]
  · have he := h1 hd
    refine ⟨rfl, ?_⟩
    simpa [he] using hall (d - 1) false (fun _ => rfl)

/-- Kernel code that an IRQ can interrupt has no lock and goes back to a new process. -/
theorem ctx_unmasked (hf : f ≠ []) :
    Ctx on d false e f → d = 0 ∧ on = true ∧ (f = [.forkret] ∨ f = [.ret true]) := by
  unfold Ctx
  split
  case h_3 =>
    rintro ⟨h0, h1⟩
    have hd : d = 0 := Nat.eq_zero_of_not_pos fun hd => by simpa using (h1 hd).1
    exact ⟨hd, by simpa using h0 hd, .inl rfl⟩
  all_goals simp_all

/-- A thread that no CPU runs: new, or parked in `sched`. -/
def Rest (t : Thread) : Prop :=
  t.depth = 1 ∧ ((t.parked = true ∧ Ctx t.forkOn 1 true t.intena t.frames) ∨
      (t.parked = false ∧ t.frames = [.forkretEntry]))

/-- A thread that runs on a CPU. -/
structure Runs (c : Cid) (k : Cpu) (t : Thread) (o : Option Cid) : Prop where
  noff : k.noff = t.depth
  ctx : Ctx t.forkOn t.depth k.masked k.intena t.frames
  parked : t.parked = false
  used : t.state ≠ .unused
  held : t.state = .running ∨ o = some c
  running : inCode t.frames = false → t.state = .running
  owned : o = some c → 0 < t.depth

/-- A CPU at a place of its scheduler. -/
def CpuOk (c : Cid) (k : Cpu) (thread : Pid → Thread) (lock : Pid → Option Cid) : Prop :=
  match k.pos with
  | .top | .scan _ =>
    (k.irq = false → k.noff = 0) ∧ (k.irq = true → k.masked = true ∧ (0 < k.noff → k.intena = false))
  | .locked i | .back i => k.irq = false ∧ k.noff = 1 ∧ k.masked = true ∧ lock i = some c
  | .inProc i => k.irq = false ∧ Runs c k (thread i) (lock i)

structure Inv (s : State) : Prop where
  cpu : ∀ c, CpuOk c (s.cpu c) s.thread s.lock
  rest : ∀ i, (s.thread i).state ≠ .unused → (∀ c, (s.cpu c).pos ≠ .inProc i) → Rest (s.thread i)
  alone : ∀ i c c', (s.cpu c).pos = .inProc i → (s.cpu c').pos = .inProc i → c = c'

theorem CpuOk.congr {th th' : Pid → Thread} {lk lk' : Pid → Option Cid}
    (h : CpuOk c k th lk) (hth : ∀ i, k.pos = .inProc i → th' i = th i)
    (hlk : ∀ i, lk' i = some c ↔ lk i = some c) : CpuOk c k th' lk' := by
  unfold CpuOk at h ⊢
  cases hp : k.pos with
  | top => simpa [hp] using h
  | scan i => simpa [hp] using h
  | locked i =>
    simp only [hp] at h ⊢
    exact ⟨h.1, h.2.1, h.2.2.1, (hlk i).mpr h.2.2.2⟩
  | back i =>
    simp only [hp] at h ⊢
    exact ⟨h.1, h.2.1, h.2.2.1, (hlk i).mpr h.2.2.2⟩
  | inProc i =>
    simp only [hp] at h ⊢
    rw [hth i hp]
    exact ⟨h.1, { h.2 with
      held := h.2.held.imp id (hlk i).mpr
      owned := fun ho => h.2.owned ((hlk i).mp ho) }⟩

theorem Inv.runs (h : Inv s) (hp : (s.cpu c).pos = .inProc i) :
    (s.cpu c).irq = false ∧ Runs c (s.cpu c) (s.thread i) (s.lock i) := by
  have := h.cpu c
  simpa [CpuOk, hp] using this

theorem Inv.locked (h : Inv s) (hp : (s.cpu c).pos = .locked i ∨ (s.cpu c).pos = .back i) :
    (s.cpu c).irq = false ∧ (s.cpu c).noff = 1 ∧ (s.cpu c).masked = true ∧ s.lock i = some c := by
  have := h.cpu c
  rcases hp with hp | hp <;> simpa [CpuOk, hp] using this

/-- A process whose lock is not held by another CPU and that is not running is on no other CPU. -/
theorem Inv.not_on_cpu (h : Inv s)
    (hst : (s.thread i).state ≠ .running) (hlk : s.lock i ≠ some c) : (s.cpu c).pos ≠ .inProc i :=
  fun hp => ((h.runs hp).2.held.elim hst hlk)

/-- A step of the CPU `c` on the process `i` that it runs or whose lock it holds or takes. -/
theorem Inv.update (h : Inv s)
    (hother : ∀ c', c' ≠ c → (s.cpu c').pos = .inProc i → t = s.thread i ∧ k.pos ≠ .inProc i)
    (hlock : ∀ c', c' ≠ c → (o = some c' ↔ s.lock i = some c'))
    (hold : ∀ j, j ≠ i → (s.cpu c).pos ≠ .inProc j) (hnew : ∀ j, j ≠ i → k.pos ≠ .inProc j)
    (hk : CpuOk c k (Function.update s.thread i t) (Function.update s.lock i o))
    (hrest : t.state ≠ .unused → k.pos ≠ .inProc i → (∀ c', c' ≠ c → (s.cpu c').pos ≠ .inProc i) → Rest t) :
    Inv (((s.setCpu c k).setThread i t).setLock i o) where
  cpu := fun c' => by
    by_cases hc : c' = c
    · subst hc
      simpa [State.setCpu, State.setThread, State.setLock] using hk
    · have hk' : CpuOk c' (s.cpu c') (Function.update s.thread i t) (Function.update s.lock i o) := by
        refine (h.cpu c').congr (fun j hj => ?_) fun j => ?_
        · by_cases hji : j = i
          · subst hji
            rw [update_self, (hother c' hc hj).1]
          · rw [update_of_ne hji]
        · by_cases hji : j = i
          · subst hji
            rw [update_self, hlock c' hc]
          · rw [update_of_ne hji]
      simpa [State.setCpu, State.setThread, State.setLock, hc] using hk'
  rest := fun j hst hno => by
    have hc : k.pos ≠ .inProc j := by simpa [State.setCpu, State.setThread, State.setLock] using hno c
    have hc' : ∀ c', c' ≠ c → (s.cpu c').pos ≠ .inProc j := fun c' hne => by
      simpa [State.setCpu, State.setThread, State.setLock, hne] using hno c'
    by_cases hji : j = i
    · subst hji
      simp only [State.setThread, State.setLock, update_self] at hst ⊢
      exact hrest hst hc hc'
    · simp only [State.setCpu, State.setThread, State.setLock, update_of_ne hji] at hst ⊢
      refine h.rest j hst fun c' => ?_
      by_cases hne : c' = c
      · exact hne ▸ hold j hji
      · exact hc' c' hne
  alone := fun j c₁ c₂ h₁ h₂ => by
    have hpos : ∀ c', c' ≠ c → ((((s.setCpu c k).setThread i t).setLock i o).cpu c').pos = .inProc j →
        (s.cpu c').pos = .inProc j ∧ k.pos ≠ .inProc j := by
      intro c' hne hp
      have hp' : (s.cpu c').pos = .inProc j := by
        simpa [State.setCpu, State.setThread, State.setLock, hne] using hp
      refine ⟨hp', ?_⟩
      by_cases hji : j = i
      · subst hji
        exact (hother c' hne hp').2
      · exact hnew j hji
    have hself : ((((s.setCpu c k).setThread i t).setLock i o).cpu c).pos = k.pos := by
      simp [State.setCpu, State.setThread, State.setLock]
    by_cases e₁ : c₁ = c <;> by_cases e₂ : c₂ = c
    · rw [e₁, e₂]
    · subst e₁
      exact absurd (hself ▸ h₁) (hpos c₂ e₂ h₂).2
    · subst e₂
      exact absurd (hself ▸ h₂) (hpos c₁ e₁ h₁).2
    · exact h.alone j c₁ c₂ (hpos c₁ e₁ h₁).1 (hpos c₂ e₂ h₂).1

theorem Inv.setThread (h : Inv s)
    (hno : ∀ c, (s.cpu c).pos ≠ .inProc i) (hrest : t.state ≠ .unused → Rest t) :
    Inv (s.setThread i t) where
  cpu := fun c => (h.cpu c).congr (fun j hj => by
    have hji : j ≠ i := fun e => hno c (e ▸ hj)
    simp [State.setThread, hji]) fun _ => Iff.rfl
  rest := fun j hst hj => by
    by_cases hji : j = i
    · subst hji
      simp only [State.setThread, update_self] at hst ⊢
      exact hrest hst
    · simp only [State.setThread, update_of_ne hji] at hst ⊢
      exact h.rest j hst hj
  alone := h.alone

theorem unlocked (ho : o = some c) (c' : Cid) (hc : c' ≠ c) : none = some c' ↔ o = some c' := by
  simp [ho, hc.symm]

theorem nowLocked (ho : o = none) (c' : Cid) (hc : c' ≠ c) : some c = some c' ↔ o = some c' := by
  simp [ho, hc.symm]

theorem setCpu_self (s : State) (c : Cid) : s.setCpu c (s.cpu c) = s := by
  simp [State.setCpu]

theorem setThread_self (s : State) (i : Pid) : s.setThread i (s.thread i) = s := by
  simp [State.setThread]

theorem setLock_self (s : State) (i : Pid) : s.setLock i (s.lock i) = s := by
  simp [State.setLock]

theorem Inv.setCpu (h : Inv s) (hold : ∀ i, (s.cpu c).pos ≠ .inProc i) (hnew : ∀ i, k.pos ≠ .inProc i)
    (hk : CpuOk c k s.thread s.lock) : Inv (s.setCpu c k) := by
  rw [← setLock_self (s.setCpu c k) 0, ← setThread_self (s.setCpu c k) 0]
  refine h.update (fun _ _ _ => ⟨rfl, hnew 0⟩) (fun _ _ => Iff.rfl) (fun j _ => hold j) (fun j _ => hnew j) ?_
    fun hst _ hno => h.rest 0 hst fun c' => ?_
  · simpa [State.setCpu, State.setThread] using hk
  · by_cases hc : c' = c
    · exact hc ▸ hold 0
    · exact hno c' hc

theorem Inv.proc (h : Inv s) (hp : (s.cpu c).pos = .inProc i) (hk : k.pos = .inProc i ∧ k.irq = false)
    (hlock : ∀ c', c' ≠ c → (o = some c' ↔ s.lock i = some c')) (hr : Runs c k t o) :
    Inv (((s.setCpu c k).setThread i t).setLock i o) := by
  refine h.update (fun c' hne hp' => absurd (h.alone i c' c hp' hp) hne) hlock ?_ ?_ ?_ ?_
  · exact fun j hj => by simpa [hp] using hj.symm
  · exact fun j hj => by simpa [hk.1] using hj.symm
  · simpa [CpuOk, hk.1, hk.2] using hr
  · exact fun _ hne => absurd hk.1 hne

theorem Inv.proc_unlocked (h : Inv s)
    (hp : (s.cpu c).pos = .inProc i) (hk : k.pos = .inProc i ∧ k.irq = false)
    (hr : Runs c k t (s.lock i)) : Inv ((s.setCpu c k).setThread i t) := by
  have := h.proc hp hk (fun _ _ => Iff.rfl) hr
  rwa [show s.lock i = ((s.setCpu c k).setThread i t).lock i from rfl, setLock_self] at this

/-! ### The steps -/

theorem popOff_eq (hm : k.masked = true) (hn : 0 < k.noff) : popOff k = .ok { k with
      noff := k.noff - 1
      masked := if k.noff - 1 = 0 ∧ k.intena = true then false else true } := by
  simp [popOff, hm, Nat.ne_of_gt hn]

theorem next_cases (i : Pid) : next i = .top ∨ ∃ j, next i = .scan j := by
  unfold next
  split
  · exact .inr ⟨i + 1, rfl⟩
  · exact .inl rfl

theorem next_ne (i j : Pid) : next i ≠ .inProc j := by
  rcases next_cases i with hn | ⟨_, hn⟩ <;> simp [hn]

/-- The end of one turn of the scan: the lock is dropped and the process is on no CPU. -/
theorem Inv.leave (h : Inv s) (q : Cpu → Option Pid)
    (hp : (s.cpu c).pos = .locked i ∨ (s.cpu c).pos = .back i) :
    Inv (s.release c i fun k => s.setCpu c { k with proc := q k, pos := next i }) := by
  obtain ⟨hirq, hnoff, hm, hl⟩ := h.locked hp
  have hpos : ∀ j, (s.cpu c).pos ≠ .inProc j := fun j => by rcases hp with hp | hp <;> simp [hp]
  rw [State.release, if_neg (not_not.mpr hl), State.pop, popOff_eq hm (by omega)]
  dsimp only
  rw [← setThread_self (s.setCpu c _) i]
  refine h.update (fun _ _ _ => ⟨rfl, next_ne _ _⟩) (unlocked hl) (fun j _ => hpos j)
    (fun j _ => next_ne _ _) ?_ fun hst _ hno => h.rest i hst fun c' => ?_
  · rcases next_cases i with hn | ⟨_, hn⟩ <;> simp [CpuOk, hn, hirq, hnoff]
  · by_cases hc : c' = c
    · exact hc ▸ hpos i
    · exact hno c' hc

theorem Inv.dispatch {s : State} (h : Inv s) {c : Cid} {i : Pid} (hp : (s.cpu c).pos = .locked i)
    (hst : (s.thread i).state = .runnable) : Inv (dispatch s c i) := by
  obtain ⟨hirq, hnoff, hm, hl⟩ := h.locked (.inl hp)
  have hno : ∀ c', (s.cpu c').pos ≠ .inProc i := by
    intro c' hp'
    by_cases hc : c' = c
    · subst hc
      rw [hp] at hp'
      cases hp'
    · exact h.not_on_cpu (by simp [hst]) (by rw [hl]; exact fun e => hc (Option.some.inj e).symm) hp'
  obtain ⟨hd, hrest⟩ := h.rest i (by simp [hst]) hno
  -- the `push_off` of `uvmswitch` is not the first on this CPU, so its `pop_off` changes nothing
  have hpop : popOff (pushOff (s.cpu c)) = .ok (s.cpu c) := by
    rw [popOff_eq rfl (Nat.succ_pos _)]
    rcases hs : s.cpu c
    simp_all [pushOff]
  have key : ∀ k t, k.pos = .inProc i → k.irq = false → Runs c k t (s.lock i) →
      Inv ((s.setCpu c k).setThread i t) := by
    intro k t hk hkirq hr
    rw [← setLock_self ((s.setCpu c k).setThread i t) i]
    refine h.update (fun c' _ hp' => absurd hp' (hno c')) (fun _ _ => Iff.rfl) ?_ ?_ ?_ ?_
    · exact fun j _ => by simp [hp]
    · exact fun j hj => by simpa [hk] using hj.symm
    · simpa [CpuOk, hk, hkirq, State.setThread, State.setCpu] using hr
    · exact fun _ hne => absurd hk hne
  simp only [Intr.dispatch, hpop]
  rcases hrest with ⟨hpark, hctx⟩ | ⟨hpark, hf⟩
  · rw [if_pos hpark]
    exact key _ _ rfl hirq ⟨hnoff.trans hd.symm, by simpa [hm, hd] using hctx, rfl, by simp, .inl rfl, fun _ => rfl, fun _ => by simp [hd]⟩
  · rw [if_neg (by simp [hpark])]
    refine key _ _ rfl hirq ⟨hnoff.trans hd.symm, ?_, hpark, by simp, .inl rfl, fun _ => rfl, fun _ => by simp [hd]⟩
    simp [hf, Ctx, hd, hm]

theorem acquire_cases {k : Cpu → State} (hs : s.acquire c i k = some s') (hok : s'.panicked = none) :
    s.lock i = none ∧ s' = (k (pushOff (s.cpu c))).setLock i (some c) := by
  cases hl : s.lock i with
  | none => simpa [State.acquire, hl] using hs.symm
  | some c' =>
    simp only [State.acquire, hl] at hs
    obtain ⟨-, rfl⟩ := guarded hs
    simp [State.panic] at hok

theorem Inv.schedAcquire (h : Inv s) (hp : (s.cpu c).pos = .scan i) (hirq : (s.cpu c).irq = false)
    (hs : (s.acquire c i fun k => s.setCpu c { k with pos := .locked i }) = some s')
    (hok : s'.panicked = none) : Inv s' := by
  have hk := h.cpu c
  simp only [CpuOk, hp] at hk
  obtain ⟨hl, rfl⟩ := acquire_cases hs hok
  rw [← setThread_self (s.setCpu c _) i]
  refine h.update (fun _ _ _ => ⟨rfl, by simp⟩) (nowLocked hl) (fun j _ => by simp [hp])
    (fun j _ => by simp) ?_ fun hst _ hno => h.rest i hst fun c' => ?_
  · simp [CpuOk, pushOff, hirq, hk.1 hirq]
  · by_cases hc : c' = c
    · simp [hc, hp]
    · exact hno c' hc

theorem Inv.irq_pos (h : Inv s) (hirq : (s.cpu c).irq = true) :
    ((s.cpu c).pos = .top ∨ ∃ i, (s.cpu c).pos = .scan i) ∧ (s.cpu c).masked = true ∧
      (0 < (s.cpu c).noff → (s.cpu c).intena = false) := by
  have hk := h.cpu c
  unfold CpuOk at hk
  split at hk
  · next hp => exact ⟨.inl hp, hk.2 hirq⟩
  · next i hp => exact ⟨.inr ⟨i, hp⟩, hk.2 hirq⟩
  all_goals simp [hk.1] at hirq

theorem Inv.between (h : Inv s) (hold : (s.cpu c).pos = .top ∨ ∃ i, (s.cpu c).pos = .scan i)
    (hnew : k.pos = .top ∨ ∃ i, k.pos = .scan i) (hoff : k.irq = false → k.noff = 0)
    (hon : k.irq = true → k.masked = true ∧ (0 < k.noff → k.intena = false)) :
    Inv (s.setCpu c k) := by
  refine h.setCpu (fun i => ?_) (fun i => ?_) ?_
  · rcases hold with hp | ⟨j, hp⟩ <;> simp [hp]
  · rcases hnew with hp | ⟨j, hp⟩ <;> simp [hp]
  · rcases hnew with hp | ⟨j, hp⟩ <;> simpa [CpuOk, hp] using ⟨hoff, hon⟩

theorem Inv.stepSched {e : Event} (h : Inv s) (hs : stepSched s e = some s')
    (hok : s'.panicked = none) : Inv s' := by
  cases e with
  | intrOn c =>
    obtain ⟨⟨hp, hirq⟩, rfl⟩ := guarded hs
    have hk := h.cpu c
    simp only [CpuOk, hp] at hk
    exact h.between (.inl hp) (.inr ⟨0, rfl⟩) (fun _ => hk.1 hirq) (by simp [hirq])
  | schedAcquire c =>
    simp only [Intr.stepSched] at hs
    split at hs
    · next i hp =>
        obtain ⟨hirq, hs⟩ := Option.ite_none_right_eq_some.mp hs
        exact h.schedAcquire hp hirq hs hok
    · cases hs
  | schedSkip c =>
    simp only [Intr.stepSched] at hs
    split at hs
    · next i hp =>
        obtain ⟨-, rfl⟩ := guarded hs
        exact h.leave Cpu.proc (.inl hp)
    · cases hs
  | dispatch c =>
    simp only [Intr.stepSched] at hs
    split at hs
    · next i hp =>
        obtain ⟨⟨-, hst⟩, rfl⟩ := guarded hs
        exact h.dispatch hp hst
    · cases hs
  | schedBack c =>
    simp only [Intr.stepSched] at hs
    split at hs
    · next i hp =>
        obtain ⟨-, rfl⟩ := guarded hs
        exact h.leave (fun _ => none) (.inr hp)
    · cases hs
  | schedIrq c =>
    have hk := h.cpu c
    simp only [Intr.stepSched] at hs
    cases hp : (s.cpu c).pos with
    | inProc i => simp [hp] at hs
    | locked i => simp [hp, (h.locked (.inl hp)).2.2.1] at hs
    | back i => simp [hp, (h.locked (.inr hp)).2.2.1] at hs
    | top =>
      simp only [hp] at hs
      obtain ⟨⟨-, hirq⟩, rfl⟩ := guarded hs
      simp only [CpuOk, hp] at hk
      exact h.between (.inl hp) (.inl rfl) (by simp) (by simp [hk.1 hirq])
    | scan i =>
      simp only [hp] at hs
      obtain ⟨⟨-, hirq⟩, rfl⟩ := guarded hs
      simp only [CpuOk, hp] at hk
      exact h.between (.inr ⟨i, hp⟩) (.inr ⟨i, rfl⟩) (by simp) (by simp [hk.1 hirq])
  | schedIrqAcquire c =>
    obtain ⟨hirq, rfl⟩ := guarded hs
    obtain ⟨hp, hm, he⟩ := h.irq_pos hirq
    refine h.between hp hp (by simp [pushOff, hirq]) fun _ => ⟨rfl, fun _ => ?_⟩
    by_cases h0 : (s.cpu c).noff = 0
    · simp [pushOff, h0, hm]
    · simp [pushOff, h0, he (Nat.pos_of_ne_zero h0)]
  | schedIrqRelease c =>
    obtain ⟨⟨hirq, hn⟩, rfl⟩ := guarded hs
    obtain ⟨hp, hm, he⟩ := h.irq_pos hirq
    have he' := he (Nat.pos_of_ne_zero hn)
    rw [State.pop, popOff_eq hm (Nat.pos_of_ne_zero hn)]
    exact h.between hp hp (by simp [hirq]) fun _ => by simp [he']
  | schedIrqRet c =>
    obtain ⟨⟨hirq, hn⟩, rfl⟩ := guarded hs
    have hp := (h.irq_pos hirq).1
    exact h.between hp hp (fun _ => hn) (by simp)
  | _ => cases hs

theorem Runs.push {o' : Option Cid} (h : Runs c k t o)
    (hc : inCode t.frames = true) (ho : o = some c → o' = some c) :
    Runs c (pushOff k) { t with depth := t.depth + 1 } o' where
  noff := by simp [pushOff, h.noff]
  ctx := by simpa [pushOff, h.noff] using ctx_push hc h.ctx
  parked := h.parked
  used := h.used
  held := h.held.imp id ho
  running := h.running
  owned := fun _ => Nat.succ_pos _

theorem Inv.pop (h : Inv s) (hp : (s.cpu c).pos = .inProc i) (hc : inCode (s.thread i).frames = true)
    (hd : 0 < (s.thread i).depth) (ho : ∀ c', c' ≠ c → (o = some c' ↔ s.lock i = some c'))
    (hst : (s.thread i).state = .running ∨ o = some c) (hown : o = some c → 1 < (s.thread i).depth) :
    Inv (s.pop c fun k => ((s.setCpu c k).setThread i
      { s.thread i with depth := (s.thread i).depth - 1 }).setLock i o) := by
  obtain ⟨hirq, hr⟩ := h.runs hp
  obtain ⟨hm, hctx⟩ := ctx_pop hc hd hr.ctx
  rw [State.pop, popOff_eq hm (hr.noff ▸ hd)]
  refine h.proc hp ⟨hp, hirq⟩ ho ⟨?_, ?_, hr.parked, hr.used, hst, hr.running, fun hoc => ?_⟩
  · simp [hr.noff]
  · simpa [hr.noff] using hctx
  · exact Nat.sub_pos_of_lt (hown hoc)

/-- `forkret` drops the lock its scheduler took: the `intena` of that scheduler decides the mask. -/
theorem Inv.forkretRelease (h : Inv s)
    (hp : (s.cpu c).pos = .inProc i) (hf : (s.thread i).frames = [.forkretEntry])
    (hl : s.lock i = some c) :
    Inv (s.pop c fun k => ((s.setCpu c k).setThread i
      { s.thread i with frames := [.forkret], depth := (s.thread i).depth - 1 }).setLock i none) := by
  obtain ⟨hirq, hr⟩ := h.runs hp
  have hctx := hr.ctx
  rw [hf] at hctx
  obtain ⟨hd, hm, he⟩ := hctx
  have hn : (s.cpu c).noff = 1 := hr.noff.trans hd
  rw [State.pop, popOff_eq hm (by omega)]
  have hst := hr.running (by simp [hf, inCode])
  refine h.proc hp ⟨hp, hirq⟩ (unlocked hl) ⟨?_, ?_, hr.parked, hr.used, .inl hst, fun _ => hst, by simp⟩
  · simp [hn, hd]
  · cases hon : (s.thread i).forkOn <;> simp [Ctx, hd, hn, he, hon]

theorem Inv.sched {s : State} (h : Inv s) {c : Cid} {i : Pid} (hp : (s.cpu c).pos = .inProc i)
    (hs : (sched s c i).panicked = none) : Inv (sched s c i) := by
  obtain ⟨hirq, hr⟩ := h.runs hp
  have hl : s.lock i = some c := by
    by_contra hl
    simp [Intr.sched, hl, State.panic] at hs
  have hn : (s.cpu c).noff = 1 := by
    by_contra hn
    simp [Intr.sched, hl, hn, State.panic] at hs
  have hst : (s.thread i).state ≠ .running := by
    intro hst
    simp [Intr.sched, hl, hn, hst, State.panic] at hs
  have hm : (s.cpu c).masked = true := by
    by_contra hm
    have hm' : (s.cpu c).masked = false := by simpa using hm
    simp [Intr.sched, hl, hn, hst, hm', State.panic] at hs
  have hd : (s.thread i).depth = 1 := hr.noff ▸ hn
  simp only [Intr.sched, hl, hn, hst, hm, ne_eq, not_true_eq_false, if_false, Bool.true_eq_false]
  rw [← setLock_self ((s.setCpu c _).setThread i _) i]
  refine h.update (fun c' hne hp' => absurd (h.alone i c' c hp' hp) hne) (fun _ _ => Iff.rfl) ?_ ?_ ?_ ?_
  · exact fun j hj => by simpa [hp] using hj.symm
  · exact fun j _ => by simp
  · exact ⟨hirq, rfl, rfl, by simpa [State.setThread, State.setCpu] using hl⟩
  · exact fun _ _ _ => ⟨hd, .inl ⟨rfl, by simpa [hd, hm] using hr.ctx⟩⟩

section

variable (h : Inv s) (hp : (s.cpu c).pos = .inProc i)
include h hp

/-- A step of the process that takes no lock: it moves between user mode, handlers and returns. -/
theorem Inv.move (hst : (s.thread i).state = .running)
    (hctx : Ctx (s.thread i).forkOn (s.thread i).depth m (s.cpu c).intena f) :
    Inv ((s.setCpu c { s.cpu c with masked := m }).setThread i { s.thread i with frames := f }) := by
  obtain ⟨hirq, hr⟩ := h.runs hp
  exact h.proc_unlocked hp ⟨hp, hirq⟩ ⟨hr.noff, hctx, hr.parked, hr.used, .inl hst, fun _ => hst, hr.owned⟩

theorem Inv.setFrames (hst : (s.thread i).state = .running)
    (hctx : Ctx (s.thread i).forkOn (s.thread i).depth (s.cpu c).masked (s.cpu c).intena f) :
    Inv (s.setThread i { s.thread i with frames := f }) := by
  have := h.move hp hst hctx
  rwa [setCpu_self] at this

theorem Inv.handlerRet
    (hs : Intr.stepProc s c i (.handlerRet c) = some s') : Inv s' := by
  have hctx := (h.runs hp).2.ctx
  obtain ⟨⟨hd, hst⟩, hs⟩ := Option.ite_none_right_eq_some.mp hs
  split at hs
  · next hf =>
      cases Option.some.inj hs
      rw [hf] at hctx
      exact h.setFrames hp hst ⟨hd, by simpa using hctx.1⟩
  · next hf =>
      cases Option.some.inj hs
      rw [hf] at hctx
      exact h.setFrames hp hst ⟨hd, by simpa using hctx.1⟩
  · next hf =>
      cases Option.some.inj hs
      rw [hf] at hctx
      exact h.setFrames hp hst ⟨hd, by simpa using hctx.1 hd⟩
  · next rest hf =>
      cases Option.some.inj hs
      rw [hf] at hctx
      obtain ⟨-, -, hon, hrest⟩ := hctx
      refine h.move hp hst ?_
      rcases hrest with rfl | rfl
      · simp [Ctx, hd, hon]
      · simp [Ctx, hd, hon]
  · cases hs

theorem Inv.stepProc {e : Event} (hs : stepProc s c i e = some s') (hok : s'.panicked = none) :
    Inv s' := by
  obtain ⟨hirq, hr⟩ := h.runs hp
  have hctx := hr.ctx
  cases e with
  | forkretRelease _ =>
    obtain ⟨hf, rfl⟩ := guarded hs
    by_cases hl : s.lock i = some c
    · rw [State.release, if_neg (not_not.mpr hl)]
      exact h.forkretRelease hp hf hl
    · simp [State.release, hl, State.panic] at hok
  | svc _ =>
    obtain ⟨hf, rfl⟩ := guarded hs
    rw [hf] at hctx
    exact h.move hp (hr.running (by simp [hf, inCode])) ⟨rfl, by simp [hctx.1]⟩
  | irqUser _ =>
    obtain ⟨⟨hf, -⟩, rfl⟩ := guarded hs
    rw [hf] at hctx
    exact h.move hp (hr.running (by simp [hf, inCode])) ⟨rfl, by simp [hctx.1]⟩
  | irqKernel _ =>
    obtain ⟨⟨hf, hm⟩, rfl⟩ := guarded hs
    rw [hm] at hctx
    obtain ⟨hd, hon, hrest⟩ := ctx_unmasked hf hctx
    have hst := hr.held.resolve_right fun ho => by simpa [hd] using hr.owned ho
    exact h.move hp hst ⟨rfl, by simp [hd], hon, hrest⟩
  | acquire _ =>
    obtain ⟨hc, rfl⟩ := guarded hs
    exact h.proc_unlocked hp ⟨hp, hirq⟩ (hr.push hc id)
  | release _ =>
    obtain ⟨⟨hc, hd⟩, rfl⟩ := guarded hs
    have hpop := h.pop hp hc (Nat.lt_of_le_of_lt (Nat.zero_le _) hd) (fun _ _ => Iff.rfl) hr.held
      fun ho => by simpa [ho] using hd
    have hself : ∀ k t, ((s.setCpu c k).setThread i t).setLock i (s.lock i) =
        (s.setCpu c k).setThread i t := fun _ _ => setLock_self _ i
    simpa only [hself] using hpop
  | acquireSelf _ =>
    obtain ⟨hc, hs⟩ := Option.ite_none_right_eq_some.mp hs
    obtain ⟨hl, rfl⟩ := acquire_cases hs hok
    exact h.proc hp ⟨hp, hirq⟩ (nowLocked hl) (hr.push hc fun _ => rfl)
  | setState _ st =>
    obtain ⟨⟨hc, hl, hst⟩, rfl⟩ := guarded hs
    have hused : st ≠ .unused := by rcases hst with rfl | rfl | rfl <;> simp
    rw [← setCpu_self s c]
    exact h.proc_unlocked hp ⟨hp, hirq⟩
      ⟨hr.noff, hctx, hr.parked, hused, .inr hl, fun h0 => absurd (hc.symm.trans h0) (by simp), hr.owned⟩
  | releaseSelf _ =>
    obtain ⟨⟨hc, hst, hd⟩, rfl⟩ := guarded hs
    by_cases hl : s.lock i = some c
    · rw [State.release, if_neg (not_not.mpr hl)]
      exact h.pop hp hc hd (unlocked hl) (.inl hst) (by simp)
    · simp [State.release, hl, State.panic] at hok
  | sched _ =>
    obtain ⟨-, rfl⟩ := guarded hs
    exact h.sched hp hok
  | handlerRet _ => exact h.handlerRet hp hs
  | eret _ =>
    simp only [Intr.stepProc] at hs
    split at hs
    · next fork hf =>
        cases Option.some.inj hs
        rw [hf] at hctx
        exact h.move hp (hr.running (by simp [hf, inCode])) ⟨hctx.1, rfl⟩
    · cases hs
  | _ => cases hs

end

theorem Inv.stepTable {e : Event} (h : Inv s) (hs : stepTable s e = some s') : Inv s' := by
  cases e with
  | alloc i =>
    obtain ⟨⟨hl, hst⟩, rfl⟩ := guarded hs
    exact h.setThread (fun c => h.not_on_cpu (by simp [hst]) (by simp [hl])) fun _ => ⟨rfl, .inr ⟨rfl, rfl⟩⟩
  | start i =>
    obtain ⟨⟨hl, hst⟩, rfl⟩ := guarded hs
    have hno : ∀ c, (s.cpu c).pos ≠ .inProc i := fun c => h.not_on_cpu (by simp [hst]) (by simp [hl])
    exact h.setThread hno fun _ => h.rest i (by simp [hst]) hno
  | wake i =>
    obtain ⟨⟨hl, hst⟩, rfl⟩ := guarded hs
    have hno : ∀ c, (s.cpu c).pos ≠ .inProc i := fun c => h.not_on_cpu (by simp [hst]) (by simp [hl])
    exact h.setThread hno fun _ => h.rest i (by simp [hst]) hno
  | free i =>
    obtain ⟨⟨hl, hst⟩, rfl⟩ := guarded hs
    have hne : (s.thread i).state ≠ .running := by rcases hst with hst | hst <;> simp [hst]
    exact h.setThread (fun c => h.not_on_cpu hne (by simp [hl])) (by simp [noThread])
  | _ => cases hs

theorem Inv.step {e : Event} (h : s.panicked = none → Inv s)
    (hs : step s e = some s') (hok : s'.panicked = none) : Inv s' := by
  unfold Intr.step at hs
  split at hs
  · cases hs
  · next hup =>
      have h' := h (by simpa using hup)
      split at hs
      · exact h'.stepTable hs
      · split at hs
        · split at hs
          · next i hp => exact h'.stepProc hp hs hok
          · cases hs
        · exact h'.stepSched hs hok

theorem Inv.boot : Inv boot where
  cpu := fun c => by simp [CpuOk, Intr.boot]
  rest := fun i hst _ => by
    by_cases hi : i = 0
    · subst hi
      exact ⟨rfl, .inr ⟨rfl, rfl⟩⟩
    · simp [Intr.boot, hi, noThread] at hst
  alone := fun i c c' hp => by simp [Intr.boot] at hp

/-! ### Returns to user mode -/

/-- **When a CPU returns to user mode with interrupts masked.** In every run, a CPU that executes
`el0_load_trap_frame_and_ret` has interrupts masked unless it got there from `forkret` and the
scheduler that first ran the process had interrupts on when it took `p->lock`; then it has not. -/
theorem el0_ret_masked_iff {tr : List Event} {s : State}
    (hrun : Run step (fun _ _ => True) boot tr s) (hup : s.panicked = none) {c : Cid} {i : Pid}
    {fork : Bool} (hp : (s.cpu c).pos = .inProc i) (hf : (s.thread i).frames = [.ret fork]) :
    (s.cpu c).masked = true ↔ ¬(fork = true ∧ (s.thread i).forkOn = true) := by
  have hinv : s.panicked = none → Inv s :=
    hrun.invariant (P := fun s => s.panicked = none → Inv s) (fun _ => Inv.boot)
      fun _ _ _ ha _ hs hok => Inv.step ha hs hok
  have hctx := ((hinv hup).runs hp).2.ctx
  rw [hf] at hctx
  obtain ⟨-, hm⟩ := hctx
  rw [hm]
  cases fork <;> cases (s.thread i).forkOn <;> simp

/-- The first process goes to user mode. -/
def firstReturn : List Event :=
  [.intrOn 0, .schedAcquire 0, .dispatch 0, .forkretRelease 0, .handlerRet 0]

/-- CPU 0 starts `el0_load_trap_frame_and_ret` for the first process with interrupts on. -/
theorem firstReturn_unmasked : ∃ s, Run step (fun _ _ => True) boot firstReturn s ∧
    s.panicked = none ∧ (s.cpu 0).pos = .inProc 0 ∧ (s.thread 0).frames = [.ret true] ∧
    (s.cpu 0).masked = false := by
  have hsome : (exec step (fun _ _ => True) boot firstReturn).isSome := by decide
  exact ⟨_, run_get hsome, rfl, rfl, rfl, rfl⟩

/-- The first process makes a system call that yields, and goes on behind a second one. -/
def returnAfterYield : List Event :=
  firstReturn ++ [.eret 0, .svc 0, .alloc 1, .start 1, .acquireSelf 0, .setState 0 .runnable, .sched 0,
    .schedBack 0, .schedAcquire 0, .dispatch 0, .forkretRelease 0, .handlerRet 0]

/-- A process first run in the scan in which another one was switched out returns masked. -/
theorem returnAfterYield_masked : ∃ s,
    Run step (fun _ _ => True) boot returnAfterYield s ∧ (s.cpu 0).pos = .inProc 1 ∧
      (s.thread 1).frames = [.ret true] ∧ (s.cpu 0).masked = true := by
  have hsome : (exec step (fun _ _ => True) boot returnAfterYield).isSome := by decide
  refine ⟨_, run_get hsome, rfl, rfl, ?_⟩
  refine (el0_ret_masked_iff (run_get hsome) rfl (c := 0) (i := 1) rfl rfl).mpr ?_
  exact fun h => Bool.false_ne_true h.2

end Xv6Armv8.Intr
