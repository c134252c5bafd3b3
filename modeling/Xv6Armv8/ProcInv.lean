import Xv6Armv8.LibRun
import Xv6Armv8.ProcModel

/-! Who runs what. A process whose `p->lock` is free is either on one CPU and RUNNING, or on none with its
context complete. Between, on the way into the scheduler and out of it, `p->lock` is held by the CPU, across both
kernel stacks; and a new process is held by the `fork` that makes it. -/

namespace Xv6Armv8.Procs

open Option StepRun

open Function (update update_of_ne update_self)

open Intr (Procstate nproc)

/-! ### Setters -/

section Setters

variable (s : State) (c : Cid) (k : Cpu) (i j : Pid) (f : Proc → Proc) (pc : Pc) (o : Option Cid) (lk : Lk)
  (w : Option Holder) (n : Nat) (b : Bool)

@[simp] theorem setCpu_cpu : (s.setCpu c k).cpu = update s.cpu c k := rfl
@[simp] theorem setCpu_proc : (s.setCpu c k).proc = s.proc := rfl
@[simp] theorem setCpu_lock : (s.setCpu c k).lock = s.lock := rfl

@[simp] theorem upd_cpu : (s.upd i f).cpu = s.cpu := rfl
@[simp] theorem upd_proc : (s.upd i f).proc = update s.proc i (f (s.proc i)) := rfl
@[simp] theorem upd_lock : (s.upd i f).lock = s.lock := rfl
@[simp] theorem upd_klock : (s.upd i f).klock = s.klock := rfl

@[simp] theorem setPc_cpu : (s.setPc i pc).cpu = s.cpu := rfl
@[simp] theorem setPc_proc : (s.setPc i pc).proc = update s.proc i { s.proc i with pc := pc } := rfl
@[simp] theorem setPc_lock : (s.setPc i pc).lock = s.lock := rfl
@[simp] theorem setPc_klock : (s.setPc i pc).klock = s.klock := rfl

@[simp] theorem setLock_cpu : (s.setLock i o).cpu = s.cpu := rfl
@[simp] theorem setLock_proc : (s.setLock i o).proc = s.proc := rfl
@[simp] theorem setLock_lock : (s.setLock i o).lock = update s.lock i o := rfl

@[simp] theorem setKlock_proc : (s.setKlock lk w).proc = s.proc := rfl
@[simp] theorem setKlock_klock : (s.setKlock lk w).klock = update s.klock lk w := rfl

@[simp] theorem setCond_proc : (s.setCond n b).proc = s.proc := rfl

end Setters

/-! ### Places and what they mean -/

/-- The state in which a thread calls `sched`. -/
@[simp] def Resume.state : Resume → Procstate
  | .yield => .runnable
  | .sleep _ _ => .sleeping
  | .exit => .zombie

/-- The state of a process whose thread is at a place, on a CPU. -/
@[simp] def Pc.state : Pc → Procstate
  | .toSched r => r.state
  | .exitRel => .zombie
  | _ => .running

/-- The places a thread has on a CPU. -/
@[simp] def Pc.runs : Pc → Bool
  | .fresh | .parked _ => false
  | _ => true

/-- The `p->lock` that the thread of `i` holds. -/
@[simp] def Pc.locks (i : Pid) : Pc → Option Pid
  | .forkret | .commit _ _ | .committed _ _ | .toSched _ | .resumed _ | .exitRel => some i
  | .forkCopy k => some k
  | _ => none

/-- The process that the thread is making. -/
@[simp] def Pc.child : Pc → Option Pid
  | .forkCopy k | .forkParent k | .forkStart k => some k
  | _ => none

/-- The places at which a thread is RUNNING and holds no `p->lock`, and `fork` has not begun or is over. -/
def Pc.plain : Pc → Bool
  | .user | .kern | .asking _ | .going _ _ | .relock _ | .waking _ _ _ _ | .killing _ _ | .allocating _
  | .waiting _ _ | .waitCheck | .exiting _ _ | .exitLock _ => true
  | _ => false

/-- A process on no CPU: free, new, or switched out with its context complete. -/
def Rests (p : Proc) : Prop :=
  p.state = .unused ∧ p.pc.runs = false ∨ p.saved = swtchPairs ∧
      (p.pc = .fresh ∧ (p.state = .used ∨ p.state = .runnable) ∨
        ∃ r, p.pc = .parked r ∧ (p.state = r.state ∨ p.state = .runnable ∧ r ≠ .exit))

/-- A process in its own code on a CPU. -/
structure Runs (c : Cid) (i : Pid) (p : Proc) (lock : Pid → Option Cid) : Prop where
  state : p.state = p.pc.state
  runs : p.pc.runs = true
  saved : p.saved = 0
  locks : ∀ k, p.pc.locks i = some k → lock k = some c

def CpuOk (c : Cid) (k : Cpu) (proc : Pid → Proc) (lock : Pid → Option Cid) : Prop :=
  match k.pos with
  | .scan _ | .irq _ _ => k.proc = none
  | .locked i => k.proc = none ∧ lock i = some c
  | .loading i _ => k.proc = some i ∧ lock i = some c ∧ (proc i).state = .running ∧
      (proc i).saved = swtchPairs ∧ ((proc i).pc = .fresh ∨ ∃ r, (proc i).pc = .parked r ∧ r ≠ .exit)
  | .inProc i => k.proc = some i ∧ Runs c i (proc i) lock
  | .saving i => k.proc = some i ∧ lock i = some c ∧ (proc i).saved ≤ swtchPairs ∧
      ∃ r, (proc i).pc = .parked r ∧ (proc i).state = r.state
  | .back i => k.proc = some i ∧ lock i = some c ∧ (proc i).saved = swtchPairs ∧
      ∃ r, (proc i).pc = .parked r ∧ (proc i).state = r.state

/-- The process a CPU is busy with, between the two calls of `swtch`. -/
def Pos.on : Pos → Option Pid
  | .loading i _ | .inProc i | .saving i | .back i => some i
  | _ => none

structure Inv (s : State) : Prop where
  cpu : ∀ c, CpuOk c (s.cpu c) s.proc s.lock
  alone : ∀ c c' i, (s.cpu c).pos.on = some i → (s.cpu c').pos.on = some i → c = c'
  rest : ∀ i, (∀ c, (s.cpu c).pos.on ≠ some i) → Rests (s.proc i)
  used : ∀ i, (s.proc i).state ≠ .unused → i < nproc
  child : ∀ c i k, (s.cpu c).pos = .inProc i → (s.proc i).pc.child = some k → (s.proc k).state = .used
  maker : ∀ c c' i j k, (s.cpu c).pos = .inProc i → (s.cpu c').pos = .inProc j →
    (s.proc i).pc.child = some k → (s.proc j).pc.child = some k → i = j

variable {g : Cfg} {p p' : Proc} {q : Pc}

section

variable {s s' : State} {c : Cid} {i k : Pid}

theorem Inv.runs (h : Inv s) (hp : (s.cpu c).pos = .inProc i) :
    (s.cpu c).proc = some i ∧ Runs c i (s.proc i) s.lock := by
  have := h.cpu c
  simpa only [CpuOk, hp] using this

theorem Resume.state_ne (r : Resume) : r.state ≠ .unused ∧ r.state ≠ .used ∧ r.state ≠ .running := by
  cases r <;> simp [Resume.state]

theorem Pc.state_ne (q : Pc) : q.state ≠ .unused ∧ q.state ≠ .used := by
  cases q with
  | toSched r => exact ⟨r.state_ne.1, r.state_ne.2.1⟩
  | _ => simp [Pc.state]

theorem Pc.plain_facts (h : q.plain = true) (i : Pid) :
    q.state = .running ∧ q.runs = true ∧ q.locks i = none ∧ q.child = none := by
  cases q <;> first | exact ⟨rfl, rfl, rfl, rfl⟩ | cases h

theorem Pc.state_running (h : q.locks i ≠ some i) : q.state = .running := by
  cases q <;> first | rfl | exact absurd rfl h

theorem Rests.runs (h : Rests p) : p.pc.runs = false := by
  rcases h with ⟨-, h⟩ | ⟨-, ⟨h, -⟩ | ⟨r, h, -⟩⟩
  · exact h
  · rw [h]
    rfl
  · rw [h]
    rfl

section

variable (h : Inv s) (ho : (s.cpu c).pos.on = some i)
include h ho

/-- What is known of the process a CPU is busy with: its lock is held there while it is switched in or out, or it is
in its own code. -/
theorem Inv.busy : (s.cpu c).proc = some i ∧
    (s.lock i = some c ∧ (s.proc i).pc.runs = false ∧
        ((s.proc i).state = .running ∨ ∃ r, (s.proc i).pc = .parked r ∧ (s.proc i).state = r.state) ∨
      (s.cpu c).pos = .inProc i ∧ Runs c i (s.proc i) s.lock) := by
  have hk := h.cpu c
  unfold CpuOk at hk
  cases hp : (s.cpu c).pos with
  | scan j | locked j | irq j q =>
    rw [hp] at ho
    cases ho
  | loading j n =>
    rw [hp] at ho hk
    obtain rfl : j = i := some.inj ho
    refine ⟨hk.1, .inl ⟨hk.2.1, ?_, .inl hk.2.2.1⟩⟩
    rcases hk.2.2.2.2 with hq | ⟨r, hq, -⟩ <;> (rw [hq]; rfl)
  | saving j | back j =>
    rw [hp] at ho hk
    obtain rfl : j = i := some.inj ho
    obtain ⟨hproc, hl, -, r, hpc, hr⟩ := hk
    exact ⟨hproc, .inl ⟨hl, by rw [hpc]; rfl, .inr ⟨r, hpc, hr⟩⟩⟩
  | inProc j =>
    rw [hp] at ho hk
    obtain rfl : j = i := some.inj ho
    exact ⟨hk.1, .inr ⟨rfl, hk.2⟩⟩

theorem Inv.on_state :
    (s.proc i).state ≠ .unused ∧ (s.proc i).state ≠ .used := by
  rcases (h.busy ho).2 with ⟨-, -, hr | ⟨r, -, hr⟩⟩ | ⟨-, hr⟩
  · simp [hr]
  · rw [hr]
    exact ⟨r.state_ne.1, r.state_ne.2.1⟩
  · rw [hr.state]
    exact Pc.state_ne _

theorem Inv.on_cases :
    s.lock i = some c ∨ (s.cpu c).pos = .inProc i ∧ (s.proc i).state = .running := by
  rcases (h.busy ho).2 with ⟨hl, -⟩ | ⟨hp, hr⟩
  · exact .inl hl
  · by_cases hl : (s.proc i).pc.locks i = some i
    · exact .inl (hr.locks i hl)
    · exact .inr ⟨hp, hr.state.trans (Pc.state_running hl)⟩

theorem Inv.proc_of_on : (s.cpu c).proc = some i := (h.busy ho).1

end

theorem Inv.on_of_proc (h : Inv s) (hpr : (s.cpu c).proc = some i) : (s.cpu c).pos.on = some i := by
  have hk := h.cpu c
  unfold CpuOk at hk
  cases hp : (s.cpu c).pos with
  | scan j | irq j q =>
    rw [hp] at hk
    exact absurd (hpr.symm.trans hk) (by simp)
  | locked j =>
    rw [hp] at hk
    exact absurd (hpr.symm.trans hk.1) (by simp)
  | loading j n | saving j | back j | inProc j =>
    rw [hp] at hk
    exact hk.1.symm.trans hpr

theorem Inv.inProc_of_runs (h : Inv s) (hr : (s.proc i).pc.runs = true) : ∃ c, (s.cpu c).pos = .inProc i := by
  obtain ⟨c, ho⟩ : ∃ c, (s.cpu c).pos.on = some i := by
    by_contra hno
    push Not at hno
    exact Bool.false_ne_true ((h.rest i hno).runs.symm.trans hr)
  rcases (h.busy ho).2 with ⟨-, hq, -⟩ | ⟨hp, -⟩
  · exact absurd (hq.symm.trans hr) Bool.false_ne_true
  · exact ⟨c, hp⟩

theorem Inv.off_of_free (h : Inv s) (hl : s.lock k = none) (hst : (s.proc k).state ≠ .running) (c : Cid) :
    (s.cpu c).pos.on ≠ some k := by
  intro ho
  rcases h.on_cases ho with h' | ⟨-, h'⟩
  · rw [hl] at h'
    cases h'
  · exact hst h'

theorem Inv.made (h : Inv s) (hp : (s.cpu c).pos = .inProc i) (hk : (s.proc i).pc.child = some k) :
    (s.proc k).state = .used ∧ i ≠ k ∧ (∀ c', (s.cpu c').pos.on ≠ some k) ∧ k < nproc := by
  have hused := h.child c i k hp hk
  have hoff : ∀ c', (s.cpu c').pos.on ≠ some k := fun c' ho => (h.on_state ho).2 hused
  refine ⟨hused, ?_, hoff, h.used k (by simp [hused])⟩
  rintro rfl
  exact hoff c (by rw [hp]; rfl)

/-- What the other CPUs and the processes on them see of a step on `c`. -/
structure Frame (s s' : State) (c : Cid) : Prop where
  cpu : ∀ c', c' ≠ c → s'.cpu c' = s.cpu c'
  lock : ∀ c', c' ≠ c → ∀ i, s'.lock i = some c' ↔ s.lock i = some c'

theorem CpuOk.congr {K : Cpu} {pr pr' : Pid → Proc} {lk lk' : Pid → Option Cid} (h : CpuOk c K pr lk)
    (hpr : ∀ i, K.pos.on = some i →
      (pr' i).state = (pr i).state ∧ (pr' i).pc = (pr i).pc ∧ (pr' i).saved = (pr i).saved)
    (hlk : ∀ i, lk' i = some c ↔ lk i = some c) : CpuOk c K pr' lk' := by
  unfold CpuOk at h ⊢
  cases hp : K.pos with
  | scan i | irq i q => simpa only [hp] using h
  | locked i =>
    simp only [hp] at h ⊢
    exact ⟨h.1, (hlk i).mpr h.2⟩
  | loading i n =>
    simp only [hp] at h ⊢
    obtain ⟨h1, h2, h3⟩ := hpr i (by rw [hp]; rfl)
    rw [h1, h2, h3, hlk i]
    exact h
  | inProc i =>
    simp only [hp] at h ⊢
    obtain ⟨h1, h2, h3⟩ := hpr i (by rw [hp]; rfl)
    refine ⟨h.1, ?_, ?_, ?_, fun k hk => (hlk k).mpr (h.2.locks k (h2 ▸ hk))⟩
    · rw [h1, h2, h.2.state]
    · rw [h2, h.2.runs]
    · rw [h3, h.2.saved]
  | saving i | back i =>
    simp only [hp] at h ⊢
    obtain ⟨h1, h2, h3⟩ := hpr i (by rw [hp]; rfl)
    rw [h1, h2, h3, hlk i]
    exact h

/-- What a step of the process `i` on `c` may do to another process `j`: nothing that matters here, or a change
that keeps it at rest. -/
def Leaves (s s' : State) (i j : Pid) : Prop :=
  ((s'.proc j).state = (s.proc j).state ∧ (s'.proc j).pc = (s.proc j).pc ∧
      (s'.proc j).saved = (s.proc j).saved) ∨
    (∀ c, (s.cpu c).pos.on ≠ some j) ∧ Rests (s'.proc j) ∧ j < nproc ∧
      ((s.proc j).state ≠ .used ∨ (s.proc i).pc.child = some j)

/-- A step on `c`: what it leaves to the other CPUs, and what it makes of `c` itself. -/
theorem Inv.local (h : Inv s) (hf : Frame s s' c)
    (hsame : ∀ c' j, c' ≠ c → (s.cpu c').pos.on = some j →
      (s'.proc j).state = (s.proc j).state ∧ (s'.proc j).pc = (s.proc j).pc ∧ (s'.proc j).saved = (s.proc j).saved)
    (hc : CpuOk c (s'.cpu c) s'.proc s'.lock)
    (halone : ∀ c' j, c' ≠ c → (s.cpu c').pos.on = some j → (s'.cpu c).pos.on ≠ some j)
    (hrest : ∀ j, (s'.cpu c).pos.on ≠ some j → (∀ c', c' ≠ c → (s.cpu c').pos.on ≠ some j) → Rests (s'.proc j))
    (hused : ∀ j, (s'.proc j).state ≠ .unused → j < nproc)
    (hkeep : ∀ c' j k, c' ≠ c → (s.cpu c').pos = .inProc j → (s.proc j).pc.child = some k →
      (s'.proc k).state = .used)
    (hchild : ∀ i k, (s'.cpu c).pos = .inProc i → (s'.proc i).pc.child = some k → (s'.proc k).state = .used ∧
      ∀ c' j, c' ≠ c → (s.cpu c').pos = .inProc j → (s.proc j).pc.child ≠ some k) : Inv s' := by
  -- the code of the other CPUs is as it was
  have hold : ∀ c' j, c' ≠ c → (s'.cpu c').pos = .inProc j →
      (s.cpu c').pos = .inProc j ∧ (s'.proc j).pc = (s.proc j).pc := by
    intro c' j hc' hj
    rw [hf.cpu c' hc'] at hj
    exact ⟨hj, (hsame c' j hc' (by rw [hj]; rfl)).2.1⟩
  refine ⟨fun c' => ?_, fun c₁ c₂ j h₁ h₂ => ?_, fun j hoff => ?_, hused, fun c' j k hj hk => ?_,
    fun c₁ c₂ j₁ j₂ k h₁ h₂ hk₁ hk₂ => ?_⟩
  · by_cases hc' : c' = c
    · subst hc'
      exact hc
    · rw [hf.cpu c' hc']
      exact (h.cpu c').congr (fun j ho => hsame c' j hc' ho) (hf.lock c' hc')
  · by_cases e₁ : c₁ = c <;> by_cases e₂ : c₂ = c
    · rw [e₁, e₂]
    · rw [hf.cpu c₂ e₂] at h₂
      exact absurd (e₁ ▸ h₁) (halone c₂ j e₂ h₂)
    · rw [hf.cpu c₁ e₁] at h₁
      exact absurd (e₂ ▸ h₂) (halone c₁ j e₁ h₁)
    · rw [hf.cpu c₁ e₁] at h₁
      rw [hf.cpu c₂ e₂] at h₂
      exact h.alone c₁ c₂ j h₁ h₂
  · exact hrest j (hoff c) fun c' hc' => by
      rw [← hf.cpu c' hc']
      exact hoff c'
  · by_cases hc' : c' = c
    · subst hc'
      exact (hchild j k hj hk).1
    · obtain ⟨hj', hpc⟩ := hold c' j hc' hj
      exact hkeep c' j k hc' hj' (hpc ▸ hk)
  · have key : ∀ c' i j, c' ≠ c → (s'.cpu c).pos = .inProc i → (s'.proc i).pc.child = some k →
        (s'.cpu c').pos = .inProc j → (s'.proc j).pc.child ≠ some k := by
      intro c' i j hc' hi hki hj
      obtain ⟨hj', hpc⟩ := hold c' j hc' hj
      rw [hpc]
      exact (hchild i k hi hki).2 c' j hc' hj'
    by_cases e₁ : c₁ = c <;> by_cases e₂ : c₂ = c
    · rw [e₁] at h₁
      rw [e₂, h₁] at h₂
      exact Pos.inProc.inj h₂
    · exact absurd hk₂ (key c₂ j₁ j₂ e₂ (e₁ ▸ h₁) hk₁ h₂)
    · exact absurd hk₁ (key c₁ j₂ j₁ e₁ (e₂ ▸ h₂) hk₂ h₁)
    · obtain ⟨h₁, hpc₁⟩ := hold c₁ j₁ e₁ h₁
      obtain ⟨h₂, hpc₂⟩ := hold c₂ j₂ e₂ h₂
      exact h.maker c₁ c₂ j₁ j₂ k h₁ h₂ (hpc₁ ▸ hk₁) (hpc₂ ▸ hk₂)

theorem Inv.own (h : Inv s) (hp : (s.cpu c).pos = .inProc i) (hf : Frame s s' c)
    (hon : (s'.cpu c).pos.on = some i) (hc : CpuOk c (s'.cpu c) s'.proc s'.lock)
    (hother : ∀ j, j ≠ i → Leaves s s' i j)
    (hchild : ∀ k, (s'.proc i).pc.child = some k → (s'.proc k).state = .used ∧
      ((s.proc i).pc.child = some k ∨ (s.proc k).state ≠ .used)) : Inv s' := by
  have honc : (s.cpu c).pos.on = some i := by rw [hp]; rfl
  have hne : ∀ c', c' ≠ c → (s.cpu c').pos.on ≠ some i := fun c' hc' ho => hc' (h.alone c' c i ho honc)
  -- a child that another CPU is making is none of the process's
  have hchi : ∀ c' j k, c' ≠ c → (s.cpu c').pos = .inProc j → (s.proc j).pc.child = some k →
      (s.proc i).pc.child ≠ some k := by
    intro c' j k hc' hj hk e
    exact hne c' hc' (by rw [hj, h.maker c' c j i k hj hp hk e]; rfl)
  refine h.local hf (fun c' j hc' ho => ?_) hc (fun c' j hc' ho => ?_) (fun j hj hoff => ?_) (fun j hj => ?_)
    (fun c' j k hc' hj hk => ?_) fun j k hj hk => ?_
  · rcases hother j (fun e => hne c' hc' (e ▸ ho)) with hv | ⟨hoff, -⟩
    · exact hv
    · exact absurd ho (hoff c')
  · rw [hon]
    exact fun e => hne c' hc' (e ▸ ho)
  · have hji : j ≠ i := fun e => hj (e ▸ hon)
    rcases hother j hji with ⟨h1, h2, h3⟩ | ⟨-, hr, -⟩
    · have hr := h.rest j fun c' ho => ?_
      · unfold Rests at hr ⊢
        rw [h1, h2, h3]
        exact hr
      · by_cases hc' : c' = c
        · rw [hc', honc] at ho
          exact hji (some.inj ho).symm
        · exact hoff c' hc' ho
    · exact hr
  · by_cases hji : j = i
    · subst hji
      exact h.used j (h.on_state honc).1
    · rcases hother j hji with ⟨h1, -⟩ | ⟨-, -, hlt, -⟩
      · exact h.used j (h1 ▸ hj)
      · exact hlt
  · have hst := h.child c' j k hj hk
    have hki : k ≠ i := fun e => (h.on_state honc).2 (e ▸ hst)
    rcases hother k hki with hv | ⟨-, -, -, hu | hu⟩
    · rw [hv.1, hst]
    · exact absurd hst hu
    · exact absurd hu (hchi c' j k hc' hj hk)
  · rw [hj] at hon
    obtain rfl : j = i := some.inj hon
    refine ⟨(hchild k hk).1, fun c' l hc' hl hlk => ?_⟩
    rcases (hchild k hk).2 with hch | hst
    · exact hchi c' l k hc' hl hlk hch
    · exact hst (h.child c' l k hl hlk)

/-! ### Steps of a process -/

theorem Leaves.same {j : Pid} (hj : s'.proc j = s.proc j) : Leaves s s' i j := .inl (by simp [hj])

theorem frame_of_lock (hcpu : ∀ c', c' ≠ c → s'.cpu c' = s.cpu c') {o : Option Cid}
    (hlock : s'.lock = update s.lock k o) (hold : s.lock k = none ∨ s.lock k = some c)
    (hnew : o = none ∨ o = some c) : Frame s s' c := by
  refine ⟨hcpu, fun c' hc' j => ?_⟩
  rw [hlock]
  by_cases hj : j = k
  · subst hj
    rw [update_self]
    rcases hold with hold | hold <;> rcases hnew with hnew | hnew <;> simp [hold, hnew, hc'.symm]
  · rw [update_of_ne hj]

section

variable (h : Inv s) (hp : (s.cpu c).pos = .inProc i)
include h hp

theorem Inv.code (hcpu : s'.cpu = s.cpu) (hlock : s'.lock = s.lock)
    (hst : (s'.proc i).state = (s'.proc i).pc.state) (hruns : (s'.proc i).pc.runs = true)
    (hsaved : (s'.proc i).saved = (s.proc i).saved)
    (hlocks : ∀ k, (s'.proc i).pc.locks i = some k → (s.proc i).pc.locks i = some k)
    (hother : ∀ j, j ≠ i → Leaves s s' i j)
    (hchild : ∀ k, (s'.proc i).pc.child = some k → (s'.proc k).state = .used ∧
      ((s.proc i).pc.child = some k ∨ (s.proc k).state ≠ .used)) : Inv s' := by
  obtain ⟨hproc, hr⟩ := h.runs hp
  have hp' : (s'.cpu c).pos = .inProc i := by rw [hcpu, hp]
  refine h.own hp ⟨fun c' _ => by rw [hcpu], fun c' _ j => by rw [hlock]⟩ (by rw [hp']; rfl) ?_ hother hchild
  simp only [CpuOk, hp']
  refine ⟨by rw [hcpu, hproc], hst, hruns, hsaved.trans hr.saved, fun k hk => ?_⟩
  rw [hlock]
  exact hr.locks k (hlocks k hk)

theorem Inv.goto (hcpu : s'.cpu = s.cpu)
    (hlock : s'.lock = s.lock) (hpc : (s'.proc i).pc = q) (hst : (s'.proc i).state = .running)
    (hsaved : (s'.proc i).saved = (s.proc i).saved) (hq : q.plain = true)
    (hother : ∀ j, j ≠ i → Leaves s s' i j) : Inv s' := by
  obtain ⟨hrun, hruns, hlocks, hchild⟩ := Pc.plain_facts hq i
  refine h.code hp hcpu hlock (by rw [hst, hpc, hrun]) (by rw [hpc, hruns]) hsaved ?_ hother ?_
  · intro k hk
    rw [hpc, hlocks] at hk
    cases hk
  · intro k hk
    rw [hpc, hchild] at hk
    cases hk

/-- A step that changes nothing but the process itself, and takes it to a place without a lock. -/
theorem Inv.self (hproc : s'.proc = update s.proc i p') (hst : p'.state = .running)
    (hq : p'.pc.plain = true := by rfl) (hsaved : p'.saved = (s.proc i).saved := by rfl)
    (hlock : s'.lock = s.lock := by rfl) (hcpu : s'.cpu = s.cpu := by rfl) : Inv s' := by
  have hself : s'.proc i = p' := by rw [hproc, update_self]
  refine h.goto hp hcpu hlock (congrArg Proc.pc hself) (by rw [hself, hst]) (by rw [hself, hsaved]) hq fun j hj => ?_
  exact .same (by rw [hproc, update_of_ne hj])

theorem Inv.lockSelf (hproc : s'.proc = update s.proc i p') (hfree : s.lock i = none)
    (hst : p'.state = p'.pc.state := by rfl) (hlock : s'.lock = update s.lock i (some c) := by rfl)
    (hruns : p'.pc.runs = true := by rfl) (hsaved : p'.saved = (s.proc i).saved := by rfl)
    (hlocks : p'.pc.locks i = some i := by rfl) (hchild : p'.pc.child = none := by rfl)
    (hcpu : s'.cpu = s.cpu := by rfl) : Inv s' := by
  obtain ⟨hcur, hr⟩ := h.runs hp
  have hself : s'.proc i = p' := by rw [hproc, update_self]
  have hp' : (s'.cpu c).pos = .inProc i := by rw [hcpu, hp]
  refine h.own hp (frame_of_lock (fun _ _ => by rw [hcpu]) hlock (.inl hfree) (.inr rfl)) (by rw [hp']; rfl) ?_
    (fun j hj => .same (by rw [hproc, update_of_ne hj])) ?_
  · simp only [CpuOk, hp', hself]
    refine ⟨by rw [hcpu, hcur], hst, hruns, hsaved.trans hr.saved, fun k hk => ?_⟩
    rw [hlocks] at hk
    rw [hlock, ← some.inj hk, update_self]
  · intro k hk
    rw [hself, hchild] at hk
    cases hk

theorem Inv.keepSelf (hproc : s'.proc = update s.proc i p') (hheld : (s.proc i).pc.locks i = some i)
    (hst : p'.state = p'.pc.state := by rfl) (hlock : s'.lock = s.lock := by rfl)
    (hruns : p'.pc.runs = true := by rfl) (hsaved : p'.saved = (s.proc i).saved := by rfl)
    (hlocks : p'.pc.locks i = some i := by rfl) (hchild : p'.pc.child = none := by rfl)
    (hcpu : s'.cpu = s.cpu := by rfl) : Inv s' := by
  have hself : s'.proc i = p' := by rw [hproc, update_self]
  refine h.code hp hcpu hlock (by rw [hself, hst]) (by rw [hself, hruns]) (by rw [hself, hsaved])
    (fun k hk => ?_) (fun j hj => .same (by rw [hproc, update_of_ne hj])) fun k hk => ?_
  · rw [hheld, ← hlocks, ← hself, hk]
  · rw [hself, hchild] at hk
    cases hk

theorem Inv.unlock (hcpu : s'.cpu = s.cpu)
    (hlock : s'.lock = update s.lock k none) (hheld : (s.proc i).pc.locks i = some k)
    (hpc : (s'.proc i).pc = q) (hst : (s'.proc i).state = .running)
    (hsaved : (s'.proc i).saved = (s.proc i).saved)
    (hq : q.state = .running ∧ q.runs = true ∧ q.locks i = none)
    (hother : ∀ j, j ≠ i → Leaves s s' i j)
    (hchild : ∀ k, q.child = some k → (s'.proc k).state = .used ∧
      ((s.proc i).pc.child = some k ∨ (s.proc k).state ≠ .used)) : Inv s' := by
  obtain ⟨hproc, hr⟩ := h.runs hp
  have hp' : (s'.cpu c).pos = .inProc i := by rw [hcpu, hp]
  refine h.own hp (frame_of_lock (fun _ _ => by rw [hcpu]) hlock (.inr (hr.locks k hheld)) (.inl rfl))
    (by rw [hp']; rfl) ?_ hother (by rw [hpc]; exact hchild)
  simp only [CpuOk, hp']
  refine ⟨by rw [hcpu, hproc], ?_, by rw [hpc]; exact hq.2.1, hsaved.trans hr.saved, fun k hk => ?_⟩
  · rw [hst, hpc, hq.1]
  · rw [hpc, hq.2.2] at hk
    cases hk

theorem Inv.unlockSelf (hproc : s'.proc = update s.proc i p') (hheld : (s.proc i).pc.locks i = some i)
    (hst : p'.state = .running) (hlock : s'.lock = update s.lock i none := by rfl)
    (hsaved : p'.saved = (s.proc i).saved := by rfl) (hq : p'.pc.plain = true := by rfl)
    (hcpu : s'.cpu = s.cpu := by rfl) : Inv s' := by
  obtain ⟨hrun, hruns, hlocks, hchild⟩ := Pc.plain_facts hq i
  have hself : s'.proc i = p' := by rw [hproc, update_self]
  refine h.unlock hp hcpu hlock hheld (congrArg Proc.pc hself) (by rw [hself, hst]) (by rw [hself, hsaved])
    ⟨hrun, hruns, hlocks⟩ (fun j hj => .same (by rw [hproc, update_of_ne hj])) fun k hk => ?_
  rw [hchild] at hk
  cases hk

end

theorem Inv.stepCall {op : Op} (h : Inv s) (hp : (s.cpu c).pos = .inProc i)
    (hpc : (s.proc i).pc = .kern) (hs : stepCall g s c i op = some s') : Inv s' := by
  have hst : (s.proc i).state = .running := (h.runs hp).2.state.trans (by rw [hpc]; rfl)
  cases op with
  | ret | wakeup ch | kill pid | fork =>
    cases hs
    exact h.self hp rfl hst
  | lock lk | unlock lk | clear n =>
    obtain ⟨-, rfl⟩ := guarded hs
    exact h.goto hp rfl rfl hpc hst rfl rfl fun j _ => .same rfl
  | signal n | wait | exit status | unlockSleep n =>
    obtain ⟨-, rfl⟩ := guarded hs
    exact h.self hp rfl hst
  | sleep n killable =>
    obtain ⟨-, rfl⟩ := guarded hs
    refine h.self hp rfl hst ?_
    cases killable <;> rfl
  | lockSleep n =>
    obtain ⟨-, rfl⟩ := guarded hs
    exact h.self hp rfl hst (by simp [hpc, Pc.plain])
  | yield =>
    obtain ⟨hfree, hs⟩ := ite_none_right_eq_some.mp hs
    rw [if_neg (not_not.mpr hst)] at hs
    cases hs
    exact h.lockSelf hp rfl hfree

theorem Proc.wake_cases (p : Proc) (ch : Chan) :
    p.wake ch = p ∨ p.state = .sleeping ∧ p.chan = some ch ∧ p.wake ch = { p with state := .runnable } := by
  unfold Proc.wake
  split
  · next h => exact .inr ⟨h.1, h.2, rfl⟩
  · exact .inl rfl

theorem Rests.woken (h : Rests p) (hsl : p.state = .sleeping) (hst : p'.state = .runnable)
    (hpc : p'.pc = p.pc) (hsaved : p'.saved = p.saved) : Rests p' := by
  rcases h with hun | ⟨hsv, ⟨-, hu | hu⟩ | ⟨r, hr, hrst⟩⟩
  · simp [hsl] at hun
  · simp [hsl] at hu
  · simp [hsl] at hu
  · refine .inr ⟨hsaved.trans hsv, .inr ⟨r, hpc.trans hr, .inr ⟨hst, ?_⟩⟩⟩
    rintro rfl
    rcases hrst with hrst | ⟨hrst, -⟩ <;> simp [hsl] at hrst

theorem Inv.leaves_woken (h : Inv s) (hl : s.lock k = none) (hlt : k < nproc) {t : State}
    (hsl : (s.proc k).state = .sleeping) (hst : (t.proc k).state = .runnable) (hpc : (t.proc k).pc = (s.proc k).pc)
    (hsaved : (t.proc k).saved = (s.proc k).saved) : Leaves s t i k := by
  have hoff := h.off_of_free hl (by simp [hsl])
  exact .inr ⟨hoff, (h.rest k hoff).woken hsl hst hpc hsaved, hlt, .inl (by simp [hsl])⟩

theorem signalled_view (s : State) (ch : Chan) (j : Pid) :
    ((s.signalled ch).proc j).state = (s.proc j).state ∧ ((s.signalled ch).proc j).pc = (s.proc j).pc ∧
      ((s.signalled ch).proc j).saved = (s.proc j).saved := by
  simp only [State.signalled]
  split <;> simp

theorem Inv.stepWaking (h : Inv s) (hp : (s.cpu c).pos = .inProc i) (hst : (s.proc i).state = .running)
    {ch : Chan} {signal : Bool} {q' : Pc} (hq : q.plain = true) (hq' : q'.plain = true)
    (hs : stepWaking s (some i) ch k signal (fun s => s.setPc i q) (fun s => s.setPc i q') = some s') :
    Inv s' := by
  unfold Procs.stepWaking at hs
  split_ifs at hs with h1 hsig h2 h3
  · cases hs
    have hview := signalled_view s ch
    refine h.goto hp rfl rfl (by simp) ?_ ?_ hq' fun j hj => .inl ?_
    · simpa using (hview i).1.trans hst
    · simpa using (hview i).2.2
    · simpa [hj] using hview j
  · cases hs
    exact h.self hp rfl hst hq'
  · cases hs
    exact h.self hp rfl hst hq
  · cases hs
    have hki : i ≠ k := fun e => h2 (by rw [e])
    refine h.goto hp rfl rfl (by simp) (by simp [hki, hst]) (by simp [hki]) hq fun j hj => ?_
    by_cases hjk : j = k
    · subst hjk
      have hwake : (s.proc j).wake ch = ((s.upd j fun p => p.wake ch).setPc i q).proc j := by simp [hj]
      rcases (s.proc j).wake_cases ch with heq | ⟨hsl, -, heq⟩
      · exact .same (hwake.symm.trans heq)
      · rw [heq] at hwake
        exact h.leaves_woken h3 (Nat.lt_of_not_le h1) hsl (by rw [← hwake]) (by rw [← hwake]) (by rw [← hwake])
    · exact .same (by simp [hj, hjk])

theorem After.plain (a : After) : a.pc.plain = true := by
  cases a <;> rfl

theorem Rests.free (h : Rests p) : Rests p.free := .inl ⟨rfl, h.runs⟩

theorem Inv.stepChild {ok : Bool} (h : Inv s) (hp : (s.cpu c).pos = .inProc i)
    (hst : (s.proc i).state = .running) (hlt : k < nproc) (hs : stepChild s i k ok = some s') : Inv s' := by
  unfold Procs.stepChild at hs
  split_ifs at hs with h1 h2 h3
  · cases hs
    have hki : i ≠ k := by
      rintro rfl
      rw [h2] at hst
      cases hst
    refine h.goto hp rfl rfl (by simp [State.waitRet]; rfl) (by simpa [State.waitRet, hki] using hst)
      (by simp [State.waitRet, hki]) rfl fun j hj => ?_
    by_cases hjk : j = k
    · subst hjk
      have hoff := h.off_of_free h1 (by simp [h2])
      refine .inr ⟨hoff, ?_, hlt, .inl (by simp [h2])⟩
      simp only [State.waitRet, upd_proc, setKlock_proc, update_of_ne hj, update_self]
      exact (h.rest j hoff).free
    · exact .same (by simp [State.waitRet, hj, hjk])
  · cases hs
    exact h.self hp rfl hst
  · cases hs
    exact h.self hp rfl hst

theorem Inv.stepRun {ok : Bool} (h : Inv s) (hp : (s.cpu c).pos = .inProc i)
    (hs : stepRun g s c i ok = some s') : Inv s' := by
  obtain ⟨hproc, hr⟩ := h.runs hp
  have hst := hr.state
  have hlocks := hr.locks
  unfold Procs.stepRun at hs
  cases hpc : (s.proc i).pc with simp only [hpc] at hs hst
  | fresh | user | kern | parked r => cases hs
  | forkret =>
    cases hs
    exact h.unlockSelf hp rfl (by rw [hpc]; rfl) hst
  | asking ch =>
    obtain ⟨-, hs⟩ := ite_none_right_eq_some.mp hs
    split at hs
    · cases hs
      exact h.self hp rfl hst
    · cases hs
      exact h.self hp rfl hst
  | going ch killable =>
    obtain ⟨hfree, rfl⟩ := guarded hs
    exact h.lockSelf hp rfl hfree hst
  | commit ch killable =>
    cases hs
    exact h.keepSelf hp rfl (by rw [hpc]; rfl) hst
  | committed ch killable =>
    cases hs
    exact h.keepSelf hp rfl (by rw [hpc]; rfl)
  | toSched r =>
    cases hs
    rw [hpc] at hlocks
    refine h.own hp ⟨fun c' hc' => by simp [hc'], fun _ _ _ => Iff.rfl⟩ (by simp [Pos.on]) ?_
      (fun j hj => .same (by simp [hj])) (by simp [Pc.child])
    simp only [CpuOk, setCpu_cpu, update_self, setCpu_proc, setCpu_lock, setPc_proc, setPc_lock]
    exact ⟨hproc, hlocks i rfl, by simp [hr.saved], r, rfl, hst⟩
  | resumed r =>
    cases r with
    | yield | sleep ch killable =>
      cases hs
      exact h.unlockSelf hp rfl (by rw [hpc]; rfl) hst
    | exit => cases hs
  | relock ch =>
    obtain ⟨-, rfl⟩ := guarded hs
    refine h.self hp rfl hst ?_
    cases ch <;> rfl
  | waking ch k signal after =>
    exact h.stepWaking hp hst rfl after.plain hs
  | killing pid k =>
    split_ifs at hs with h1 h2 h3
    · cases hs
      exact h.self hp rfl hst
    · cases hs
      by_cases hki : i = k
      · subst hki
        exact h.goto hp rfl rfl (by simp; rfl) (by simp [Proc.kill, hst, Pc.state]) (by simp [Proc.kill]) rfl
          fun j hj => .same (by simp [hj])
      · refine h.goto hp rfl rfl (by simp; rfl) (by simpa [hki] using hst) (by simp [hki]) rfl fun j hj => ?_
        by_cases hjk : j = k
        · subst hjk
          by_cases hsl : (s.proc j).state = .sleeping
          · refine h.leaves_woken h2 (Nat.lt_of_not_le h1) hsl ?_ ?_ ?_ <;> simp [hj, Proc.kill, hsl]
          · exact .inl (by simp [hj, Proc.kill, hsl])
        · exact .same (by simp [hj, hjk])
    · cases hs
      exact h.self hp rfl hst
  | allocating k =>
    split_ifs at hs with h1 h2 h3
    · cases hs
      exact h.self hp rfl hst
    · cases hs
      have hki : i ≠ k := by
        rintro rfl
        rw [h3] at hst
        cases hst
      refine h.own hp (frame_of_lock (fun _ _ => rfl) rfl (.inl h2) (.inr rfl)) (by simp [hp, Pos.on]) ?_
        (fun j hj => ?_) fun l hl => ?_
      · simp only [CpuOk, hp, upd_cpu, setLock_cpu, setPc_cpu, setPc_proc, setLock_proc, upd_proc, setPc_lock,
          setLock_lock, upd_lock, update_self, update_of_ne hki]
        refine ⟨hproc, hst, rfl, hr.saved, fun l hl => ?_⟩
        obtain rfl : k = l := some.inj hl
        simp
      · by_cases hjk : j = k
        · subst hjk
          refine .inr ⟨h.off_of_free h2 (by simp [h3]), .inr ⟨?_, .inl ⟨?_, .inl ?_⟩⟩, Nat.lt_of_not_le h1, .inl (by simp [h3])⟩
            <;> simp [hj, Proc.alloc]
        · exact .same (by simp [hj, hjk])
      · obtain rfl : k = l := by simpa [Pc.child] using hl
        exact ⟨by simp [Ne.symm hki, Proc.alloc], .inr (by simp [h3])⟩
    · cases hs
      exact h.self hp rfl hst
  | forkCopy k =>
    obtain ⟨hused, hki, hoff, hlt⟩ := h.made (k := k) hp (by rw [hpc]; rfl)
    split at hs
    · cases hs
      refine h.unlock hp rfl rfl (by rw [hpc]; rfl) (by simp; rfl) (by simpa using hst) (by simp)
        ⟨rfl, rfl, rfl⟩ (fun j hj => .same (by simp [hj])) fun l hl => ?_
      obtain rfl : k = l := by simpa [Pc.child] using hl
      exact ⟨by simp [Ne.symm hki, hused], .inl (by rw [hpc]; rfl)⟩
    · cases hs
      refine h.unlock hp rfl rfl (by rw [hpc]; rfl) (by simp; rfl) (by simpa [hki] using hst) (by simp [hki])
        ⟨rfl, rfl, rfl⟩ (fun j hj => ?_) (by simp [Pc.child])
      by_cases hjk : j = k
      · subst hjk
        refine .inr ⟨hoff, ?_, hlt, .inr (by rw [hpc]; rfl)⟩
        simp only [setPc_proc, setLock_proc, upd_proc, update_of_ne hj, update_self]
        exact (h.rest j hoff).free
      · exact .same (by simp [hj, hjk])
  | forkParent k =>
    obtain ⟨-, rfl⟩ := guarded hs
    obtain ⟨hused, hki, -, -⟩ := h.made (k := k) hp (by rw [hpc]; rfl)
    refine h.code hp rfl rfl (by simpa [hki] using hst) (by simp [Pc.runs]) (by simp [hki]) (by simp [Pc.locks])
      (fun j hj => ?_) fun l hl => ?_
    · by_cases hjk : j = k
      · subst hjk
        exact .inl (by simp [hj])
      · exact .same (by simp [hj, hjk])
    · obtain rfl : k = l := by simpa [Pc.child] using hl
      exact ⟨by simp [Ne.symm hki, hused], .inl (by rw [hpc]; rfl)⟩
  | forkStart k =>
    obtain ⟨-, rfl⟩ := guarded hs
    obtain ⟨hused, hki, hoff, hlt⟩ := h.made (k := k) hp (by rw [hpc]; rfl)
    refine h.goto hp rfl rfl (by simp; rfl) (by simpa [hki] using hst) (by simp [hki]) rfl fun j hj => ?_
    by_cases hjk : j = k
    · subst hjk
      refine .inr ⟨hoff, ?_, hlt, .inr (by rw [hpc]; rfl)⟩
      rcases h.rest j hoff with hun | ⟨hsv, ⟨hfr, -⟩ | ⟨r, -, hr' | ⟨hr', -⟩⟩⟩
      · simp [hused] at hun
      · exact .inr ⟨by simpa [hj] using hsv, .inl ⟨by simpa [hj] using hfr, .inr (by simp [hj])⟩⟩
      · exact absurd (hused.symm.trans hr') (Ne.symm r.state_ne.2.1)
      · simp [hused] at hr'
    · exact .same (by simp [hj, hjk])
  | waiting k havekids =>
    split_ifs at hs with h1 h2 h3
    · cases hs
      exact h.self hp rfl hst
    · cases hs
      exact h.self hp rfl hst
    · exact h.stepChild hp hst (Nat.lt_of_not_le h1) hs
    · cases hs
      exact h.self hp rfl hst
  | waitCheck =>
    obtain ⟨-, hs⟩ := ite_none_right_eq_some.mp hs
    split at hs
    · cases hs
      exact h.self hp rfl hst
    · cases hs
      exact h.self hp rfl hst
  | exiting status k =>
    split_ifs at hs with h1 h2
    · cases hpar : (s.proc i).parent with
      | some j =>
        simp only [hpar] at hs
        cases hs
        exact h.self hp rfl hst
      | none =>
        simp only [hpar] at hs
        cases hs
        exact h.self hp rfl hst
    · cases hs
      refine h.goto hp rfl rfl (by simp; rfl) ?_ ?_ rfl fun j hj => .inl ?_
      · by_cases hki : i = k <;> simpa [hki] using hst
      · by_cases hki : i = k <;> simp [hki]
      · by_cases hjk : j = k
        · subst hjk
          simp [hj]
        · simp [hj, hjk]
    · cases hs
      exact h.self hp rfl hst
  | exitLock status =>
    obtain ⟨hfree, rfl⟩ := guarded hs
    exact h.lockSelf hp rfl hfree
  | exitRel =>
    cases hs
    exact h.keepSelf hp rfl (by rw [hpc]; rfl) hst

/-! ### Steps of a scheduler -/

theorem Inv.turn (h : Inv s) (hf : Frame s s' c) (hother : ∀ j, j ≠ i → s'.proc j = s.proc j)
    (hused : (s'.proc i).state = .used ↔ (s.proc i).state = .used)
    (hunused : (s'.proc i).state ≠ .unused → (s.proc i).state ≠ .unused)
    (hold : ∀ j, (s.cpu c).pos.on = some j → j = i) (hnew : ∀ j, (s'.cpu c).pos.on = some j → j = i)
    (hsep : ∀ c', c' ≠ c → (s.cpu c').pos.on = some i → s'.proc i = s.proc i ∧ (s'.cpu c).pos.on ≠ some i)
    (hc : CpuOk c (s'.cpu c) s'.proc s'.lock)
    (hrest : (s'.cpu c).pos.on ≠ some i → (∀ c', c' ≠ c → (s.cpu c').pos.on ≠ some i) → Rests (s'.proc i))
    (hchild : ∀ j, (s'.cpu c).pos = .inProc j → (s'.proc j).pc.child = none) : Inv s' := by
  refine h.local hf (fun c' j hc' ho => ?_) hc (fun c' j hc' ho hj => ?_) (fun j hj hoff => ?_) (fun j hj => ?_)
    (fun c' j k _ hj hk => ?_) fun j k hj hk => ?_
  · by_cases hji : j = i
    · subst hji
      simp [(hsep c' hc' ho).1]
    · simp [hother j hji]
  · obtain rfl := hnew j hj
    exact (hsep c' hc' ho).2 hj
  · by_cases hji : j = i
    · subst hji
      exact hrest hj hoff
    · rw [hother j hji]
      refine h.rest j fun c' => ?_
      by_cases hc' : c' = c
      · rw [hc']
        exact fun ho => hji (hold j ho)
      · exact hoff c' hc'
  · by_cases hji : j = i
    · subst hji
      exact h.used j (hunused hj)
    · exact h.used j (by rw [← hother j hji]; exact hj)
  · have hst := h.child c' j k hj hk
    by_cases hki : k = i
    · subst hki
      exact hused.mpr hst
    · rw [hother k hki, hst]
  · rw [hchild j hj] at hk
    cases hk

theorem Inv.turnOn (h : Inv s) (hon : (s.cpu c).pos.on = some i) (hf : Frame s s' c)
    (hother : ∀ j, j ≠ i → s'.proc j = s.proc j) (hstate : (s'.proc i).state = (s.proc i).state)
    (hnew : ∀ j, (s'.cpu c).pos.on = some j → j = i) (hc : CpuOk c (s'.cpu c) s'.proc s'.lock)
    (hrest : (s'.cpu c).pos.on ≠ some i → Rests (s'.proc i))
    (hchild : ∀ j, (s'.cpu c).pos = .inProc j → (s'.proc j).pc.child = none) : Inv s' := by
  refine h.turn hf hother (by rw [hstate]) (by rw [hstate]; exact id) (fun j hj => ?_) hnew (fun c' hc' ho => ?_) hc
    (fun hoff _ => hrest hoff) hchild
  · rw [hon] at hj
    exact (some.inj hj).symm
  · exact absurd (h.alone c' c i ho hon) hc'

theorem Inv.between (h : Inv s) {K : Cpu} (hold : (s.cpu c).pos.on = none) (hnew : K.pos.on = none)
    (hcpu : s'.cpu = update s.cpu c K) (hproc : s'.proc = s.proc)
    (hlock : ∀ c', c' ≠ c → ∀ i, s'.lock i = some c' ↔ s.lock i = some c')
    (hc : CpuOk c K s.proc s'.lock) : Inv s' := by
  have hK : s'.cpu c = K := by rw [hcpu, update_self]
  refine h.turn (i := 0) ⟨fun c' hc' => by rw [hcpu, update_of_ne hc'], hlock⟩
    (fun j _ => by rw [hproc]) (by rw [hproc]) (by rw [hproc]; exact id) (fun j hj => ?_) (fun j hj => ?_)
    (fun c' _ _ => ⟨by rw [hproc], by rw [hK, hnew]; simp⟩) (by rw [hK, hproc]; exact hc) (fun _ hoff => ?_)
    fun j hj => ?_
  · rw [hold] at hj
    cases hj
  · rw [hK, hnew] at hj
    cases hj
  · rw [hproc]
    refine h.rest 0 fun c' => ?_
    by_cases hc' : c' = c
    · rw [hc', hold]
      simp
    · exact hoff c' hc'
  · rw [hK] at hj
    rw [hj] at hnew
    cases hnew

theorem loaded_facts (h : q = .fresh ∨ ∃ r, q = .parked r ∧ r ≠ .exit) (i : Pid) :
    q.loaded.state = .running ∧ q.loaded.runs = true ∧ q.loaded.locks i = some i ∧ q.loaded.child = none := by
  rcases h with rfl | ⟨r, rfl, -⟩
  · exact ⟨rfl, rfl, rfl, rfl⟩
  · exact ⟨rfl, rfl, rfl, rfl⟩

theorem Inv.stepSched (h : Inv s) (hs : stepSched s c = some s') : Inv s' := by
  have hk := h.cpu c
  unfold Procs.stepSched at hs
  cases hp : (s.cpu c).pos with simp only [hp] at hs
  | scan i =>
    simp only [CpuOk, hp] at hk
    obtain ⟨hfree, rfl⟩ := guarded hs
    exact h.between (by rw [hp]; rfl) (by rfl) rfl rfl
      (frame_of_lock (fun c' hc' => by simp [hc']) rfl (.inl hfree) (.inr rfl)).lock (by simpa [CpuOk] using hk)
  | locked i =>
    simp only [CpuOk, hp] at hk
    split at hs
    · next hst =>
        cases hs
        -- nobody else can be busy with a process that is RUNNABLE and whose lock is held here
        have hoff : ∀ c', (s.cpu c').pos.on ≠ some i := by
          intro c' ho
          rcases h.on_cases ho with hl | ⟨-, hl⟩
          · rw [hk.2] at hl
            rw [← some.inj hl, hp] at ho
            cases ho
          · simp [hst] at hl
        have hr := h.rest i hoff
        refine h.turn (c := c) (i := i) ⟨fun c' hc' => by simp [hc'], fun _ _ _ => Iff.rfl⟩
          (fun j hj => by simp [hj]) (by simp [hst]) (by simp [hst]) (fun j hj => ?_) (fun j hj => ?_) (fun c' _ ho => absurd ho (hoff c'))
          ?_ (by simp [Pos.on]) (by simp)
        · rw [hp] at hj
          cases hj
        · simpa [Pos.on] using hj.symm
        · rcases hr with hr | ⟨hsv, ⟨hfr, -⟩ | ⟨r, hpark, hr⟩⟩
          · simp [hst] at hr
          · simpa [CpuOk, hsv, hfr] using hk.2
          · have hne : r ≠ .exit := by
              rintro rfl
              rcases hr with hr | ⟨-, hr⟩
              · simp [hst] at hr
              · exact hr rfl
            simpa [CpuOk, hsv, hpark, hne] using hk.2
    · cases hs
      exact h.between (by rw [hp]; rfl) (by rfl) rfl rfl
        (frame_of_lock (fun c' hc' => by simp [hc']) rfl (.inr hk.2) (.inl rfl)).lock (by simpa [CpuOk] using hk.1)
  | loading i n =>
    simp only [CpuOk, hp] at hk
    obtain ⟨hproc, hl, hst, hsv, hpc⟩ := hk
    have hon : (s.cpu c).pos.on = some i := by rw [hp]; rfl
    split at hs
    · cases hs
      refine h.turnOn hon ⟨fun c' hc' => by simp [hc'], fun _ _ _ => Iff.rfl⟩ (fun j hj => rfl) rfl (fun j hj => ?_) ?_
        (by simp [Pos.on]) (by simp)
      · simpa [Pos.on] using hj.symm
      · simpa [CpuOk, hproc, hl, hst, hsv] using hpc
    · cases hs
      obtain ⟨h1, h2, h3, h4⟩ := loaded_facts hpc i
      refine h.turnOn hon ⟨fun c' hc' => by simp [hc'], fun _ _ _ => Iff.rfl⟩ (fun j hj => by simp [hj]) (by simp)
        (fun j hj => ?_) ?_ (by simp [Pos.on]) fun j hj => ?_
      · simpa [Pos.on] using hj.symm
      · simp only [CpuOk, upd_cpu, setCpu_cpu, update_self, upd_proc, setCpu_proc, upd_lock, setCpu_lock]
        refine ⟨hproc, by rw [hst, h1], h2, rfl, fun k hk => ?_⟩
        rw [h3] at hk
        rw [← some.inj hk, hl]
      · obtain rfl : i = j := by simpa using hj
        simpa using h4
  | saving i =>
    simp only [CpuOk, hp] at hk
    obtain ⟨hproc, hl, hsv, r, hpc, hst⟩ := hk
    have hon : (s.cpu c).pos.on = some i := by rw [hp]; rfl
    split at hs
    · next hlt =>
        cases hs
        refine h.turnOn hon ⟨fun c' hc' => rfl, fun _ _ _ => Iff.rfl⟩ (fun j hj => by simp [hj]) (by simp)
          (fun j hj => ?_) ?_ (by simp [hp, Pos.on]) (by simp [hp])
        · simpa [hp, Pos.on] using hj.symm
        · simp only [CpuOk, upd_cpu, hp, upd_proc, upd_lock, update_self]
          exact ⟨hproc, hl, hlt, r, hpc, hst⟩
    · next hge =>
        cases hs
        refine h.turnOn hon ⟨fun c' hc' => by simp [hc'], fun _ _ _ => Iff.rfl⟩ (fun j hj => rfl) rfl
          (fun j hj => ?_) ?_ (by simp [Pos.on]) (by simp)
        · simpa [Pos.on] using hj.symm
        · simp only [CpuOk, setCpu_cpu, update_self, setCpu_proc, setCpu_lock]
          exact ⟨hproc, hl, le_antisymm hsv (not_lt.mp hge), r, hpc, hst⟩
  | back i =>
    simp only [CpuOk, hp] at hk
    obtain ⟨hproc, hl, hsv, r, hpc, hst⟩ := hk
    have hon : (s.cpu c).pos.on = some i := by rw [hp]; rfl
    cases hs
    exact h.turnOn hon (frame_of_lock (fun c' hc' => by simp [hc']) rfl (.inr hl) (.inl rfl)) (fun j hj => rfl) rfl
      (by simp [Pos.on]) (by simp [CpuOk]) (fun _ => .inr ⟨hsv, .inr ⟨r, hpc, .inl hst⟩⟩) (by simp)
  | inProc i | irq i q => cases hs

/-! ### Interrupts on top of a scheduler -/

theorem Rests.wake (h : Rests p) (ch : Chan) : Rests (p.wake ch) := by
  rcases p.wake_cases ch with heq | ⟨hsl, -, heq⟩
  · rw [heq]
    exact h
  · rw [heq]
    exact h.woken hsl rfl rfl rfl

theorem Inv.visitIrq (h : Inv s) {ch : Chan} {q' : Pc} (hp : (s.cpu c).pos = .irq i q)
    (hidle : (s.cpu c).proc = none) (hl : s.lock k = none)
    (hcpu : s'.cpu = update s.cpu c { s.cpu c with pos := .irq i q' }) (hlock : s'.lock = s.lock)
    (hproc : s'.proc = update s.proc k ((s.proc k).wake ch)) : Inv s' := by
  have hself : s'.proc k = (s.proc k).wake ch := by rw [hproc, update_self]
  have hK : s'.cpu c = { s.cpu c with pos := .irq i q' } := by rw [hcpu, update_self]
  have hstate : (s'.proc k).state = (s.proc k).state ∨
      (s.proc k).state = .sleeping ∧ (s'.proc k).state = .runnable := by
    rw [hself]
    rcases (s.proc k).wake_cases ch with heq | ⟨hsl, -, heq⟩
    · exact .inl (by rw [heq])
    · exact .inr ⟨hsl, by rw [heq]⟩
  refine h.turn (c := c) (i := k) ⟨fun c' hc' => by rw [hcpu, update_of_ne hc'], fun _ _ _ => by rw [hlock]⟩
    (fun j hj => by rw [hproc, update_of_ne hj]) ?_ ?_ (fun j hj => ?_) (fun j hj => ?_)
    (fun c' hc' ho => ⟨?_, ?_⟩) ?_ (fun _ hoff => ?_) fun j hj => ?_
  · rcases hstate with h' | ⟨h1, h2⟩
    · rw [h']
    · simp [h1, h2]
  · rcases hstate with h' | ⟨h1, h2⟩
    · rw [h']
      exact id
    · simp [h1]
  · rw [hp] at hj
    cases hj
  · rw [hK] at hj
    cases hj
  · rcases (s.proc k).wake_cases ch with heq | ⟨hsl, -⟩
    · rw [hself, heq]
    · exact absurd ho (h.off_of_free hl (by simp [hsl]) c')
  · rw [hK]
    simp [Pos.on]
  · rw [hK]
    exact hidle
  · rw [hself]
    refine Rests.wake (h.rest k fun c' => ?_) ch
    by_cases hc' : c' = c
    · rw [hc', hp]
      simp [Pos.on]
    · exact hoff c' hc'
  · rw [hK] at hj
    cases hj

theorem Inv.congr (h : Inv s) (hcpu : s'.cpu = s.cpu) (hlock : s'.lock = s.lock)
    (hview : ∀ j, (s'.proc j).state = (s.proc j).state ∧ (s'.proc j).pc = (s.proc j).pc ∧
      (s'.proc j).saved = (s.proc j).saved) : Inv s' := by
  refine ⟨fun c => ?_, fun c c' i h₁ h₂ => ?_, fun i hoff => ?_, fun i hi => ?_, fun c i k hp hk => ?_,
    fun c c' i j k hi hj hki hkj => ?_⟩
  · rw [hcpu, hlock]
    exact (h.cpu c).congr (fun i _ => hview i) fun _ => Iff.rfl
  · rw [hcpu] at h₁ h₂
    exact h.alone c c' i h₁ h₂
  · rw [hcpu] at hoff
    obtain ⟨h1, h2, h3⟩ := hview i
    have := h.rest i hoff
    unfold Rests at this ⊢
    rw [h1, h2, h3]
    exact this
  · rw [(hview i).1] at hi
    exact h.used i hi
  · rw [hcpu] at hp
    rw [(hview i).2.1] at hk
    rw [(hview k).1]
    exact h.child c i k hp hk
  · rw [hcpu] at hi hj
    rw [(hview i).2.1] at hki
    rw [(hview j).2.1] at hkj
    exact h.maker c c' i j k hi hj hki hkj

theorem Inv.irq (h : Inv s) {p : Pos} (hold : (s.cpu c).pos.on = none) (hproc : (s.cpu c).proc = none)
    (hcpu : s'.cpu = update s.cpu c { s.cpu c with pos := p }) (hpr : s'.proc = s.proc)
    (hlock : s'.lock = s.lock) (hpos : (∃ i, p = .scan i) ∨ ∃ i q, p = .irq i q) : Inv s' := by
  refine h.between hold ?_ hcpu hpr (fun _ _ _ => by rw [hlock]) ?_
  · rcases hpos with ⟨i, rfl⟩ | ⟨i, q, rfl⟩ <;> rfl
  · rcases hpos with ⟨i, rfl⟩ | ⟨i, q, rfl⟩ <;> exact hproc

theorem Inv.idle (h : Inv s) (hp : (s.cpu c).pos = .scan i ∨ (s.cpu c).pos = .irq i q) :
    (s.cpu c).pos.on = none ∧ (s.cpu c).proc = none := by
  have hk := h.cpu c
  rcases hp with hp | hp
  · simp only [CpuOk, hp] at hk
    exact ⟨by rw [hp]; rfl, hk⟩
  · simp only [CpuOk, hp] at hk
    exact ⟨by rw [hp]; rfl, hk⟩

theorem Inv.stepIrqCall {op : Op} (h : Inv s) (hp : (s.cpu c).pos = .irq i .kern)
    (hs : stepIrqCall g s c i op = some s') : Inv s' := by
  obtain ⟨hon, hproc⟩ := h.idle (.inr hp)
  cases op with
  | lock lk | unlock lk | clear n =>
    obtain ⟨-, rfl⟩ := guarded hs
    exact h.congr rfl rfl fun _ => ⟨rfl, rfl, rfl⟩
  | signal n =>
    obtain ⟨-, rfl⟩ := guarded hs
    exact h.irq hon hproc rfl rfl rfl (.inr ⟨i, _, rfl⟩)
  | wakeup ch =>
    cases hs
    exact h.irq hon hproc rfl rfl rfl (.inr ⟨i, _, rfl⟩)
  | _ => cases hs

theorem Inv.step {e : Event} (h : Inv s) (hs : step g s e = some s') : Inv s' := by
  cases e with simp only [Procs.step] at hs
  | sched c => exact h.stepSched hs
  | irq c =>
    split at hs
    · next i hp =>
        cases hs
        obtain ⟨hon, hproc⟩ := h.idle (q := .kern) (.inl hp)
        exact h.irq hon hproc rfl rfl rfl (.inr ⟨i, _, rfl⟩)
    · cases hs
  | irqRet c =>
    split at hs
    · next i hp =>
        cases hs
        obtain ⟨hon, hproc⟩ := h.idle (.inr hp)
        exact h.irq hon hproc rfl rfl rfl (.inl ⟨i, rfl⟩)
    · cases hs
  | trap c =>
    split at hs
    · next i hp =>
        obtain ⟨hpc, rfl⟩ := guarded hs
        have hst : (s.proc i).state = .running := (h.runs hp).2.state.trans (by rw [hpc]; rfl)
        exact h.self hp rfl hst
    · cases hs
  | call c op =>
    split at hs
    · next i hp =>
        obtain ⟨hpc, hs⟩ := ite_none_right_eq_some.mp hs
        exact h.stepCall hp hpc hs
    · next i hp => exact h.stepIrqCall hp hs
    · cases hs
  | run c ok =>
    split at hs
    · next i hp => exact h.stepRun hp hs
    · next i ch k signal hp =>
        obtain ⟨hon, hproc⟩ := h.idle (.inr hp)
        unfold Procs.stepWaking at hs
        split_ifs at hs with h1 hsig h2 h3
        · cases hs
          have hsig : Inv (s.signalled ch) := h.congr rfl rfl (signalled_view s ch)
          exact hsig.irq hon hproc rfl rfl rfl (.inr ⟨i, _, rfl⟩)
        · cases hs
          exact h.irq hon hproc rfl rfl rfl (.inr ⟨i, _, rfl⟩)
        · cases h2
        · cases hs
          exact h.visitIrq hp hproc h3 rfl rfl rfl
    · cases hs
  | wakeFirst c ch =>
    split at hs
    · next i hp =>
        unfold stepWakeFirst at hs
        split at hs
        · next ch' killable hpc =>
            cases hs
            have hst : (s.proc i).state = .running := (h.runs hp).2.state.trans (by rw [hpc]; rfl)
            exact h.self hp rfl hst
        · cases hs
    · cases hs

end

theorem inv_boot (cond : Nat → Bool) : Inv (boot cond) where
  cpu := fun c => rfl
  alone := fun c c' i h => by cases h
  rest := fun i _ => by
    by_cases hi : i = initproc
    · simp only [boot, hi, if_true]
      exact .inr ⟨rfl, .inl ⟨rfl, .inr rfl⟩⟩
    · simp only [boot, hi, if_false]
      exact .inl ⟨rfl, rfl⟩
  used := fun i hi => by
    by_cases h0 : i = initproc
    · subst h0
      decide
    · simp [boot, h0, noProc] at hi
  child := fun c i k h => by cases h
  maker := fun c c' i j k h => by cases h

theorem Inv.run {cond : Nat → Bool} {C : State → Event → Prop} {tr : List Event} {s : State}
    (hrun : Run (Procs.step g) C (boot cond) tr s) : Inv s :=
  hrun.invariant (inv_boot cond) fun _ _ _ h _ hs => h.step hs

/-! ### Exclusive execution -/

/-- **Exclusive execution.** In every state of every run: a process is executing on at most one CPU; while
`p->lock` is free it is RUNNING exactly if it is the `proc` of exactly one CPU; in another state it is not
executing user code; and a CPU that loads the context of a process finds all of it stored, by a CPU that has
done with it. -/
theorem exclusive_execution {g : Cfg} {cond : Nat → Bool} {tr : List Event} {s : State}
    (hrun : Run (step g) (fun _ _ => True) (boot cond) tr s) :
    (∀ i c c', (s.cpu c).pos.on = some i → (s.cpu c').pos.on = some i → c = c') ∧
    (∀ i, s.lock i = none → ((s.proc i).state = .running ↔ ∃! c, (s.cpu c).proc = some i)) ∧
    (∀ i c, (s.cpu c).pos = .inProc i → (s.proc i).pc = .user → (s.proc i).state = .running) ∧
    ∀ i c n, (s.cpu c).pos = .loading i n → (s.proc i).saved = swtchPairs ∧ ∀ c', (s.cpu c').pos ≠ .saving i := by
  have h := Inv.run hrun
  refine ⟨fun i c c' => h.alone c c' i, fun i hl => ⟨fun hst => ?_, fun hone => ?_⟩, fun i c hp hpc => ?_,
    fun i c n hp => ?_⟩
  · obtain ⟨c, ho⟩ : ∃ c, (s.cpu c).pos.on = some i := by
      by_contra hno
      push Not at hno
      rcases h.rest i hno with hr | ⟨-, ⟨-, hr | hr⟩ | ⟨r, -, hr | ⟨hr, -⟩⟩⟩
      · simp [hst] at hr
      · simp [hst] at hr
      · simp [hst] at hr
      · exact r.state_ne.2.2 (hr.symm.trans hst)
      · simp [hst] at hr
    exact ⟨c, h.proc_of_on ho, fun c' hc' => h.alone c' c i (h.on_of_proc hc') ho⟩
  · obtain ⟨c, hc, -⟩ := hone
    rcases h.on_cases (h.on_of_proc hc) with hl' | ⟨-, hst⟩
    · rw [hl] at hl'
      cases hl'
    · exact hst
  · rw [(h.runs hp).2.state, hpc]
    rfl
  · have hk := h.cpu c
    simp only [CpuOk, hp] at hk
    refine ⟨hk.2.2.2.1, fun c' hp' => ?_⟩
    have hcc : c' = c := h.alone c' c i (by rw [hp']; rfl) (by rw [hp]; rfl)
    rw [hcc, hp] at hp'
    cases hp'

/-- Two CPUs: the first runs the first process, which forks; the second is loading the child. -/
def twoCpus : List Event :=
  List.replicate 11 (.sched 0) ++ [.run 0 true, .call 0 .fork] ++ List.replicate 5 (.run 0 true) ++
    [.call 0 .ret] ++ List.replicate 6 (.sched 1)

theorem twoCpus_exclusive : ∃ s,
    Run (step { lkOf := id, sleepLock := fun _ => false }) (fun _ _ => True) (boot fun _ => true) twoCpus s ∧
      (s.cpu 0).pos = .inProc 0 ∧ (s.proc 0).pc = .user ∧ (s.proc 0).state = .running ∧
      (∃! c, (s.cpu c).proc = some 0) ∧ (s.cpu 1).pos = .loading 1 2 ∧ (s.proc 1).saved = swtchPairs := by
  have hend : (exec (step { lkOf := id, sleepLock := fun _ => false }) (fun _ _ => True)
      (boot fun _ => true) twoCpus).map (fun s => ((s.cpu 0).pos, (s.proc 0).pc, s.lock 0, (s.cpu 1).pos)) =
      some (.inProc 0, .user, none, .loading 1 2) := by
    decide +kernel
  obtain ⟨s, hs, hfacts⟩ := map_eq_some_iff.mp hend
  simp only [Prod.mk.injEq] at hfacts
  obtain ⟨hp, hpc, hl, hp'⟩ := hfacts
  have hrun := run_of_exec hs
  obtain ⟨-, h2, h3, h4⟩ := exclusive_execution hrun
  have hst := h3 0 0 hp hpc
  exact ⟨s, hrun, hp, hpc, hst, (h2 0 hl).mp hst, hp', (h4 1 1 2 hp').1⟩

/-- **`p->lock` crosses the switch.** In every state of every run: a process that has called `sched` is the one of its
CPU, which holds `p->lock`, and is not RUNNING, as `sched` demands; the scheduler that gets the CPU back holds the
lock still, the process has its context stored and is not RUNNING; and behind the switch the other way, in `sched` or
`forkret`, the lock is held by the CPU the process is then on, and the process is RUNNING. -/
theorem lock_crosses_switch {g : Cfg} {cond : Nat → Bool} {tr : List Event} {s : State}
    (hrun : Run (step g) (fun _ _ => True) (boot cond) tr s) (c : Cid) (i : Pid) :
    ((s.cpu c).pos = .inProc i → ∀ r, (s.proc i).pc = .toSched r →
      (s.cpu c).proc = some i ∧ s.lock i = some c ∧ (s.proc i).state ≠ .running) ∧
    ((s.cpu c).pos = .back i →
      s.lock i = some c ∧ (s.proc i).saved = swtchPairs ∧ (s.proc i).state ≠ .running) ∧
    ((s.cpu c).pos = .inProc i → (s.proc i).pc = .forkret ∨ (∃ r, (s.proc i).pc = .resumed r) →
      s.lock i = some c ∧ (s.proc i).state = .running) := by
  have h := Inv.run hrun
  refine ⟨fun hp r hpc => ?_, fun hp => ?_, fun hp hpc => ?_⟩
  · obtain ⟨hproc, hruns⟩ := h.runs hp
    refine ⟨hproc, hruns.locks i (by rw [hpc]; rfl), ?_⟩
    rw [hruns.state, hpc]
    exact r.state_ne.2.2
  · have hk := h.cpu c
    simp only [CpuOk, hp] at hk
    obtain ⟨-, hlock, hsaved, r, -, hst⟩ := hk
    exact ⟨hlock, hsaved, hst ▸ r.state_ne.2.2⟩
  · obtain ⟨-, hruns⟩ := h.runs hp
    rcases hpc with hpc | ⟨r, hpc⟩
    · exact ⟨hruns.locks i (by rw [hpc]; rfl), by rw [hruns.state, hpc]; rfl⟩
    · exact ⟨hruns.locks i (by rw [hpc]; rfl), by rw [hruns.state, hpc]; rfl⟩

theorem first_switch_locked : ∃ s,
    Run (step { lkOf := id, sleepLock := fun _ => false }) (fun _ _ => True) (boot fun _ => true)
      (List.replicate 11 (.sched 0)) s ∧ s.lock 0 = some 0 ∧ (s.proc 0).state = .running := by
  have hend : (exec (step { lkOf := id, sleepLock := fun _ => false }) (fun _ _ => True) (boot fun _ => true)
      (List.replicate 11 (.sched 0))).map (fun s => ((s.cpu 0).pos, (s.proc 0).pc)) = some (.inProc 0, .forkret) := by
    decide +kernel
  obtain ⟨s, hs, hfacts⟩ := map_eq_some_iff.mp hend
  simp only [Prod.mk.injEq] at hfacts
  exact ⟨s, run_of_exec hs, (lock_crosses_switch (run_of_exec hs) 0 0).2.2 hfacts.1 (.inl hfacts.2)⟩

end Xv6Armv8.Procs
