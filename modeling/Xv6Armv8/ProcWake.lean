import Xv6Armv8.ProcInv

/-! No wakeup is lost. A process that has found its condition false keeps the lock of the condition until it
holds its own `p->lock`, and keeps that until it is switched out; whoever makes the condition true does so under
the lock of the condition, and calls `wakeup` before it lets go. So when the scan of a `wakeup` has passed a slot,
the process there does not sleep on the channel, and it cannot begin to before it has tested again. -/

namespace Xv6Armv8.Procs

open Function

open Intr (Procstate nproc)

/-! ### What a thread is about -/

/-- The spin lock a thread needs to go on as it does. -/
def After.klocks (g : Cfg) : After → Lk → Prop
  | .kern, _ => False
  | .going ch _, lk => lk = g.lk ch
  | .exiting _ _, lk | .exitLock _, lk => lk = .wait

/-- The spin locks that a thread at a place holds. -/
def Pc.klocks (g : Cfg) : Pc → Lk → Prop
  | .asking ch, lk | .going ch _, lk | .commit ch _, lk => lk = g.lk ch
  | .waking ch _ signal after, lk => signal = true ∧ lk = g.lk ch ∨ after.klocks g lk
  | .waiting _ _, lk | .waitCheck, lk | .exiting _ _, lk | .exitLock _, lk | .exitRel, lk => lk = .wait
  | _, _ => False

/-- The condition that a thread has found false, while it still has the lock of the condition. -/
def Pc.tests : Pc → Option Nat
  | .asking (.obj n) | .going (.obj n) _ | .commit (.obj n) _ | .waking _ _ _ (.going (.obj n) _) => some n
  | _ => none

/-- The condition that a process sleeps for, or is about to without the lock of the condition. -/
def Proc.asleep (p : Proc) : Option Nat :=
  match p.pc with
  | .committed (.obj n) _ | .toSched (.sleep (.obj n) _) => some n
  | .parked (.sleep (.obj n) _) => if p.state = .sleeping then some n else none
  | _ => none

/-- The condition that a thread has made true and whose sleepers it is waking, and where the scan is. -/
def Pc.signals : Pc → Option (Nat × Pid)
  | .waking (.obj n) k true _ => some (n, k)
  | _ => none

/-- The places at which a thread wakes the sleepers of a condition that it has made true. -/
def Pc.raises : Pc → Bool
  | .waking _ _ true _ => true
  | _ => false

/-- The places in `sleep` behind the release of the condition's lock, up to the end of the sleep. -/
def Pc.dozes : Pc → Bool
  | .committed _ _ | .toSched (.sleep _ _) | .parked (.sleep _ _) => true
  | _ => false

/-- Where a thread is: a process, or a handler on top of a scheduler. -/
def State.code (s : State) : Holder → Pc
  | .proc i => (s.proc i).pc
  | .sched c =>
    match (s.cpu c).pos with
    | .irq _ q => q
    | _ => .kern

structure Wake (g : Cfg) (s : State) : Prop where
  held : ∀ x lk, (s.code x).klocks g lk → s.klock lk = some x
  signal : ∀ x ch k a, s.code x = .waking ch k true a → a = .kern ∧ ∃ n, ch = .obj n
  tests : ∀ p n, (s.proc p).pc.tests = some n →
    s.cond n = false ∧ (s.proc p).tested = some n ∧ (s.proc p).woken = false
  asleep : ∀ p n, (s.proc p).asleep = some n → (s.proc p).tested = some n ∧ (s.proc p).woken = false ∧
    (s.cond n = true → ∃ x k, (s.code x).signals = some (n, k) ∧ k ≤ p)
  passed : ∀ x n k, (s.code x).signals = some (n, k) → ∀ p, p < k → (s.proc p).asleep ≠ some n
  chan : ∀ p ch b, (s.proc p).pc = .toSched (.sleep ch b) ∨ (s.proc p).pc = .parked (.sleep ch b) →
    (s.proc p).state = .sleeping → (s.proc p).chan = some ch
  holds : ∀ i n, g.sleepLock n = true → (s.proc i).holds n = true → s.cond n = false
  one : ∀ i j n, g.sleepLock n = true → (s.proc i).holds n = true → (s.proc j).holds n = true → i = j

/-- A change of a process that wakes nobody: it may find a condition false, and go to sleep behind such a test. -/
structure Calm (cond : Nat → Bool) (p p' : Proc) : Prop where
  tests : ∀ n, p'.pc.tests = some n → p.pc.tests = some n ∧ p'.tested = p.tested ∧ p'.woken = p.woken ∨
      cond n = false ∧ p'.tested = some n ∧ p'.woken = false
  asleep : ∀ n, p'.asleep = some n →
    (p.asleep = some n ∨ p.pc.tests = some n) ∧ p'.tested = p.tested ∧ p'.woken = p.woken
  chan : ∀ ch b, p'.pc = .toSched (.sleep ch b) ∨ p'.pc = .parked (.sleep ch b) → p'.state = .sleeping →
    p'.chan = some ch ∨ (p.pc = .toSched (.sleep ch b) ∨ p.pc = .parked (.sleep ch b)) ∧ p.state = .sleeping ∧
      p'.chan = p.chan
  holds : ∀ n, p'.holds n = true → p.holds n = true

variable {k n : Nat} {p p' : Proc} {q q₀ : Pc} {x : Holder}

section

variable {g : Cfg} {s s' : State} {c : Cid} {i : Pid} {cond : Nat → Bool}

theorem Calm.refl (p : Proc) : Calm cond p p where
  tests := fun _ h => .inl ⟨h, rfl, rfl⟩
  asleep := fun _ h => ⟨.inl h, rfl, rfl⟩
  chan := fun _ _ h h' => .inr ⟨h, h', rfl⟩
  holds := fun _ h => h

theorem klocks_of_not_runs (hq : q.runs = false) (lk : Lk) : ¬q.klocks g lk := by
  cases q <;> first | exact id | cases hq

theorem raises_of_not_runs (hq : q.runs = false) : q.raises = false := by
  cases q <;> first | rfl | cases hq

theorem signals_eq_none (hq : q.raises = false) : q.signals = none := by
  unfold Pc.signals
  split
  · cases hq
  · rfl

theorem asleep_eq_none (h : p.pc.dozes = false) : p.asleep = none := by
  unfold Proc.asleep
  split <;> simp_all [Pc.dozes]

theorem dozes_of_sleep {ch : Chan} {b : Bool} (h : q = .toSched (.sleep ch b) ∨ q = .parked (.sleep ch b)) :
    q.dozes = true := by
  rcases h with rfl | rfl <;> rfl

theorem tests_klocks (h : q.tests = some n) : q.klocks g (g.lk (.obj n)) := by
  unfold Pc.tests at h
  split at h <;> cases h
  · exact rfl
  · exact rfl
  · exact rfl
  · exact .inr rfl

theorem signals_cases (h : q.signals = some (n, k)) : ∃ a, q = .waking (.obj n) k true a := by
  unfold Pc.signals at h
  split at h
  · cases Option.some.inj h
    exact ⟨_, rfl⟩
  · cases h

theorem Wake.not_tests (h : Wake g s) (hx : (s.code x).signals = some (n, k)) (p : Pid) :
    (s.proc p).pc.tests ≠ some n := by
  intro ht
  obtain ⟨a, ha⟩ := signals_cases hx
  have h1 := h.held x (g.lk (.obj n)) (by rw [ha]; exact .inl ⟨rfl, rfl⟩)
  have h2 := h.held (.proc p) (g.lk (.obj n)) (tests_klocks ht)
  obtain rfl : x = .proc p := Option.some.inj (h1.symm.trans h2)
  obtain ⟨rfl, -⟩ := h.signal _ _ _ _ ha
  rw [show (s.proc p).pc = .waking (.obj n) k true .kern from ha] at ht
  cases ht

/-- What other threads see of a step: their place, or that they stay switched out. -/
def SameCode (s s' : State) (y : Holder) : Prop :=
  s'.code y = s.code y ∨ (s'.code y).runs = false ∧ (s.code y).runs = false

theorem Wake.quiet (h : Wake g s) (x : Holder) (hcond : s'.cond = s.cond)
    (hcode : ∀ y, y ≠ x → SameCode s s' y)
    (hkl : ∀ y lk, y ≠ x → s.klock lk = some y → s'.klock lk = some y)
    (hx : ∀ lk, (s'.code x).klocks g lk → s'.klock lk = some x)
    (hnew : (s'.code x).raises = false) (hold : (s.code x).raises = false)
    (hproc : ∀ p, Calm s.cond (s.proc p) (s'.proc p)) : Wake g s' := by
  have hsig : ∀ y, (s'.code y).signals = (s.code y).signals := by
    intro y
    by_cases hy : y = x
    · subst hy
      rw [signals_eq_none hnew, signals_eq_none hold]
    · rcases hcode y hy with h' | ⟨h1, h2⟩
      · rw [h']
      · rw [signals_eq_none (raises_of_not_runs h1), signals_eq_none (raises_of_not_runs h2)]
  refine ⟨fun y lk hk => ?_, fun y ch k a hy => ?_, fun p n ht => ?_, fun p n ha => ?_, fun y n k hy p hp ha => ?_,
    fun p ch b hpc hst => ?_, fun j n hsl hj => ?_, fun j₁ j₂ n hsl h₁ h₂ => ?_⟩
  · by_cases hy : y = x
    · subst hy
      exact hx lk hk
    · rcases hcode y hy with h' | ⟨h1, -⟩
      · rw [h'] at hk
        exact hkl y lk hy (h.held y lk hk)
      · exact absurd hk (klocks_of_not_runs h1 lk)
  · by_cases hyx : y = x
    · subst hyx
      rw [hy] at hnew
      cases hnew
    · rcases hcode y hyx with h' | ⟨h1, -⟩
      · rw [h'] at hy
        exact h.signal y ch k a hy
      · rw [hy] at h1
        cases h1
  · rw [hcond]
    rcases (hproc p).tests n ht with ⟨ht', h1, h2⟩ | h'
    · rw [h1, h2]
      exact h.tests p n ht'
    · exact h'
  · obtain ⟨ha' | ht, h1, h2⟩ := (hproc p).asleep n ha
    · obtain ⟨h3, h4, h5⟩ := h.asleep p n ha'
      rw [hcond, h1, h2]
      refine ⟨h3, h4, fun hc => ?_⟩
      obtain ⟨y, k, hy, hk⟩ := h5 hc
      exact ⟨y, k, (hsig y).trans hy, hk⟩
    · obtain ⟨h3, h4, h5⟩ := h.tests p n ht
      rw [hcond, h1, h2]
      exact ⟨h4, h5, fun hc => absurd (h3.symm.trans hc) (by simp)⟩
  · rw [hsig y] at hy
    rcases ((hproc p).asleep n ha).1 with ha' | ht
    · exact h.passed y n k hy p hp ha'
    · exact h.not_tests hy p ht
  · rcases (hproc p).chan ch b hpc hst with h' | ⟨h1, h2, h3⟩
    · exact h'
    · rw [h3]
      exact h.chan p ch b h1 h2
  · rw [hcond]
    exact h.holds j n hsl ((hproc j).holds n hj)
  · exact h.one j₁ j₂ n hsl ((hproc j₁).holds n h₁) ((hproc j₂).holds n h₂)

/-! ### The changes of a process -/

/-- A place that has to do neither with a condition nor with sleep. -/
def Pc.apart : Pc → Bool
  | .asking _ | .going _ _ | .commit _ _ | .committed _ _ | .toSched (.sleep _ _) | .parked (.sleep _ _)
  | .waking _ _ _ (.going _ _) | .waking _ _ true _ => false
  | _ => true

theorem Pc.apart_facts (h : q.apart = true) :
    q.tests = none ∧ q.dozes = false ∧ q.raises = false := by
  refine ⟨?_, ?_, ?_⟩
  · unfold Pc.tests
    split <;> first | rfl | cases h
  · unfold Pc.dozes
    split <;> first | rfl | cases h
  · unfold Pc.raises
    split
    · next a => cases a <;> cases h
    · rfl

theorem Calm.apart (hq : p'.pc.apart = true) (hh : ∀ n, p'.holds n = true → p.holds n = true) :
    Calm cond p p' := by
  obtain ⟨h1, h2, -⟩ := Pc.apart_facts hq
  refine ⟨fun n hn => ?_, fun n hn => ?_, fun ch b hpc _ => ?_, hh⟩
  · rw [h1] at hn
    cases hn
  · rw [asleep_eq_none h2] at hn
    cases hn
  · rw [dozes_of_sleep hpc] at h2
    cases h2

theorem Calm.state (hpc : p'.pc = p.pc) (hst : p'.state = .sleeping → p.state = .sleeping)
    (hch : p'.state = .sleeping → p'.chan = p.chan) (ht : p'.tested = p.tested) (hw : p'.woken = p.woken)
    (hh : p'.holds = p.holds) : Calm cond p p' := by
  refine ⟨fun n hn => .inl ⟨hpc ▸ hn, ht, hw⟩, fun n hn => ⟨.inl ?_, ht, hw⟩, fun ch b h1 h2 => ?_, fun n hn => hh ▸ hn⟩
  · unfold Proc.asleep at hn ⊢
    rw [hpc] at hn
    split at hn <;> simp_all
  · exact .inr ⟨hpc ▸ h1, hst h2, hch h2⟩

theorem Calm.wake (p : Proc) (ch : Chan) : Calm cond p (p.wake ch) := by
  rcases p.wake_cases ch with heq | ⟨-, -, heq⟩
  · rw [heq]
    exact .refl p
  · rw [heq]
    exact .state rfl (by simp) (by simp) rfl rfl rfl

theorem Calm.kill (p : Proc) : Calm cond p p.kill := by
  refine .state rfl (fun h => ?_) (fun _ => rfl) rfl rfl rfl
  unfold Proc.kill at h
  dsimp only at h
  split at h
  · cases h
  · exact h

theorem Calm.free (p : Proc) : Calm cond p p.free := .state rfl (by simp [Proc.free]) (by simp [Proc.free]) rfl rfl rfl

theorem Calm.alloc (p : Proc) (pid : Nat) : Calm cond p (p.alloc pid) := .apart rfl (by simp [Proc.alloc])

/-! ### Quiet steps of a process -/

theorem code_proc (s : State) (j : Pid) : s.code (.proc j) = (s.proc j).pc := rfl

theorem code_sched_congr {c' : Cid} (h : s'.cpu c' = s.cpu c') : s'.code (.sched c') = s.code (.sched c') := by
  simp only [State.code, h]

theorem Wake.own (h : Wake g s) (i : Pid) (hcond : s'.cond = s.cond)
    (hsched : ∀ c, s'.code (.sched c) = s.code (.sched c))
    (hkl : ∀ y lk, y ≠ .proc i → s.klock lk = some y → s'.klock lk = some y)
    (hx : ∀ lk, (s'.proc i).pc.klocks g lk → s'.klock lk = some (.proc i))
    (hnew : (s'.proc i).pc.raises = false) (hold : (s.proc i).pc.raises = false)
    (hi : Calm s.cond (s.proc i) (s'.proc i))
    (hother : ∀ j, j ≠ i → Calm s.cond (s.proc j) (s'.proc j) ∧
      ((s'.proc j).pc = (s.proc j).pc ∨ (s'.proc j).pc.runs = false ∧ (s.proc j).pc.runs = false)) :
    Wake g s' := by
  refine h.quiet (.proc i) hcond (fun y hy => ?_) hkl hx hnew hold fun p => ?_
  · cases y with
    | sched c => exact .inl (hsched c)
    | proc j => exact (hother j fun e => hy (e ▸ rfl)).2
  · by_cases hp : p = i
    · subst hp
      exact hi
    · exact (hother p hp).1

theorem unaffected {j : Pid} (hj : s'.proc j = s.proc j) : Calm s.cond (s.proc j) (s'.proc j) ∧
    ((s'.proc j).pc = (s.proc j).pc ∨ (s'.proc j).pc.runs = false ∧ (s.proc j).pc.runs = false) := by
  rw [hj]
  exact ⟨.refl _, .inl rfl⟩

/-- A step of the process `i` to a place `q` apart, at which it holds no lock it did not hold before. -/
theorem Wake.goto (h : Wake g s) (i : Pid) (q : Pc) (hcond : s'.cond = s.cond) (hcpu : s'.cpu = s.cpu)
    (hkl : ∀ y lk, y ≠ .proc i → s.klock lk = some y → s'.klock lk = some y)
    (hpc : (s'.proc i).pc = q) (hq : q.apart = true)
    (hx : ∀ lk, q.klocks g lk → s'.klock lk = some (.proc i))
    (hold : (s.proc i).pc.raises = false)
    (hh : ∀ n, (s'.proc i).holds n = true → (s.proc i).holds n = true)
    (hother : ∀ j, j ≠ i → Calm s.cond (s.proc j) (s'.proc j) ∧
      ((s'.proc j).pc = (s.proc j).pc ∨ (s'.proc j).pc.runs = false ∧ (s.proc j).pc.runs = false)) :
    Wake g s' := by
  refine h.own i hcond (fun _ => code_sched_congr (by rw [hcpu])) hkl (hpc ▸ hx) ?_ hold (.apart (hpc ▸ hq) hh) hother
  rw [hpc]
  exact (Pc.apart_facts hq).2.2

theorem Wake.held_at (h : Wake g s) {lk : Lk} (hpc : (s.proc i).pc = q₀) (hlk : q₀.klocks g lk) :
    s.klock lk = some (.proc i) := by
  refine h.held (.proc i) lk ?_
  rwa [code_proc, hpc]

theorem Wake.moves (h : Wake g s) (hpc : (s.proc i).pc = q₀) (hproc : s'.proc = update s.proc i p')
    (hkl : ∀ y lk, y ≠ .proc i → s.klock lk = some y → s'.klock lk = some y)
    (hx : ∀ lk, p'.pc.klocks g lk → s'.klock lk = some (.proc i)) (hold : q₀.raises = false := by rfl)
    (hq : p'.pc.apart = true := by rfl) (hh : p'.holds = (s.proc i).holds := by rfl)
    (hcond : s'.cond = s.cond := by rfl) (hcpu : s'.cpu = s.cpu := by rfl) : Wake g s' := by
  have hself : s'.proc i = p' := by rw [hproc, update_self]
  refine h.goto i p'.pc hcond hcpu hkl (by rw [hself]) hq hx (hpc ▸ hold) (by rw [hself, hh]; exact fun _ => id) fun j hj => ?_
  exact unaffected (by rw [hproc, update_of_ne hj])

theorem Wake.stays (h : Wake g s) (hpc : (s.proc i).pc = q₀) (hproc : s'.proc = update s.proc i p')
    (hx : ∀ lk, p'.pc.klocks g lk → q₀.klocks g lk) (hold : q₀.raises = false := by rfl)
    (hq : p'.pc.apart = true := by rfl) (hh : p'.holds = (s.proc i).holds := by rfl)
    (hkl : s'.klock = s.klock := by rfl) (hcond : s'.cond = s.cond := by rfl) (hcpu : s'.cpu = s.cpu := by rfl) :
    Wake g s' := by
  refine h.moves hpc hproc (fun _ _ _ hy => hkl ▸ hy) (fun lk hlk => ?_) hold hq hh hcond hcpu
  rw [hkl]
  exact h.held_at hpc (hx lk hlk)

theorem Calm.tested (htests : p'.pc.tests = p.pc.tests) (hz : p'.pc.dozes = false) (ht : p'.tested = p.tested)
    (hw : p'.woken = p.woken) (hh : ∀ n, p'.holds n = true → p.holds n = true) : Calm cond p p' := by
  refine ⟨fun n hn => .inl ⟨htests ▸ hn, ht, hw⟩, fun n hn => ?_, fun ch b h1 _ => ?_, hh⟩
  · rw [asleep_eq_none hz] at hn
    cases hn
  · rw [dozes_of_sleep h1] at hz
    cases hz

/-! ### Conditions -/

/-- Somebody who holds the lock of a condition makes it true and begins to wake its sleepers. -/
theorem Wake.raise (h : Wake g s) (hheld : s.klock (g.lk (.obj n)) = some x)
    (hcond : s'.cond = update s.cond n true) (hcode : ∀ y, y ≠ x → s'.code y = s.code y)
    (hnew : s'.code x = .waking (.obj n) 0 true .kern) (hold : s.code x = .kern) (hkl : s'.klock = s.klock)
    (hproc : ∀ p, Calm s.cond (s.proc p) (s'.proc p) ∧ (s'.proc p).pc.tests = (s.proc p).pc.tests ∧
      (s'.proc p).asleep = (s.proc p).asleep ∧ (s'.proc p).tested = (s.proc p).tested ∧
      (s'.proc p).woken = (s.proc p).woken)
    (hholds : g.sleepLock n = true → ∀ j, (s'.proc j).holds n = false) : Wake g s' := by
  have hne : ∀ {y m k}, (s.code y).signals = some (m, k) → y ≠ x := by
    rintro y m k hy rfl
    rw [hold] at hy
    cases hy
  refine ⟨fun y lk hk => ?_, fun y ch k a hy => ?_, fun p m ht => ?_, fun p m ha => ?_, fun y m k hy p hp ha => ?_,
    fun p ch b hpc hst => ?_, fun j m hsl hj => ?_, fun j₁ j₂ m hsl h₁ h₂ => ?_⟩
  · rw [hkl]
    by_cases hy : y = x
    · subst hy
      rw [hnew] at hk
      rcases hk with ⟨-, rfl⟩ | hk
      · exact hheld
      · exact hk.elim
    · rw [hcode y hy] at hk
      exact h.held y lk hk
  · by_cases hyx : y = x
    · subst hyx
      rw [hnew] at hy
      cases hy
      exact ⟨rfl, n, rfl⟩
    · rw [hcode y hyx] at hy
      exact h.signal y ch k a hy
  · obtain ⟨-, h1, -, h3, h4⟩ := hproc p
    rw [h1] at ht
    obtain ⟨h5, h6, h7⟩ := h.tests p m ht
    have hmn : m ≠ n := by
      rintro rfl
      -- the tester would hold the lock that `x` holds
      have hp := h.held (.proc p) _ (tests_klocks (g := g) ht)
      obtain rfl : x = .proc p := Option.some.inj (hheld.symm.trans hp)
      rw [show (s.proc p).pc = .kern from hold] at ht
      cases ht
    rw [hcond, update_of_ne hmn, h3, h4]
    exact ⟨h5, h6, h7⟩
  · obtain ⟨-, -, h2, h3, h4⟩ := hproc p
    rw [h2] at ha
    obtain ⟨h5, h6, h7⟩ := h.asleep p m ha
    rw [h3, h4]
    refine ⟨h5, h6, fun hc => ?_⟩
    by_cases hmn : m = n
    · subst hmn
      exact ⟨x, 0, by rw [hnew]; rfl, Nat.zero_le p⟩
    · rw [hcond, update_of_ne hmn] at hc
      obtain ⟨y, k, hy, hk⟩ := h7 hc
      exact ⟨y, k, by rw [hcode y (hne hy)]; exact hy, hk⟩
  · rw [(hproc p).2.2.1] at ha
    by_cases hyx : y = x
    · subst hyx
      rw [hnew] at hy
      cases hy
      exact absurd hp (Nat.not_lt_zero p)
    · rw [hcode y hyx] at hy
      exact h.passed y m k hy p hp ha
  · rcases (hproc p).1.chan ch b hpc hst with h' | ⟨h1, h2, h3⟩
    · exact h'
    · rw [h3]
      exact h.chan p ch b h1 h2
  · have hmn : m ≠ n := by
      rintro rfl
      simp [hholds hsl j] at hj
    rw [hcond, update_of_ne hmn]
    exact h.holds j m hsl ((hproc j).1.holds m hj)
  · exact h.one j₁ j₂ m hsl ((hproc j₁).1.holds m h₁) ((hproc j₂).1.holds m h₂)

/-- A condition becomes false, perhaps because the process `i` has taken the sleep lock. -/
theorem Wake.lower (h : Wake g s) (hcond : s'.cond = update s.cond n false)
    (hcpu : s'.cpu = s.cpu) (hkl : s'.klock = s.klock)
    (hproc : ∀ p, (s'.proc p).pc = (s.proc p).pc ∧ (s'.proc p).state = (s.proc p).state ∧
      (s'.proc p).chan = (s.proc p).chan ∧ (s'.proc p).tested = (s.proc p).tested ∧
      (s'.proc p).woken = (s.proc p).woken)
    (hholds : ∀ j m, (s'.proc j).holds m = true → (s.proc j).holds m = true ∨ j = i ∧ m = n ∧ s.cond n = true) :
    Wake g s' := by
  have hcode : ∀ y, s'.code y = s.code y := by
    intro y
    cases y with
    | proc j => exact (hproc j).1
    | sched c => exact code_sched_congr (by rw [hcpu])
  have hasleep : ∀ p, (s'.proc p).asleep = (s.proc p).asleep := by
    intro p
    unfold Proc.asleep
    rw [(hproc p).1, (hproc p).2.1]
  have hfalse : ∀ m, s.cond m = false → s'.cond m = false := by
    intro m hm
    rw [hcond, update_apply]
    split
    · rfl
    · exact hm
  refine ⟨fun y lk hk => ?_, fun y ch k a hy => ?_, fun p m ht => ?_, fun p m ha => ?_, fun y m k hy p hp ha => ?_,
    fun p ch b hpc hst => ?_, fun j m hsl hj => ?_, fun j₁ j₂ m hsl h₁ h₂ => ?_⟩
  · rw [hcode y] at hk
    rw [hkl]
    exact h.held y lk hk
  · rw [hcode y] at hy
    exact h.signal y ch k a hy
  · obtain ⟨h1, -, -, h3, h4⟩ := hproc p
    rw [h1] at ht
    obtain ⟨h5, h6, h7⟩ := h.tests p m ht
    rw [h3, h4]
    exact ⟨hfalse m h5, h6, h7⟩
  · obtain ⟨-, -, -, h3, h4⟩ := hproc p
    rw [hasleep p] at ha
    obtain ⟨h5, h6, h7⟩ := h.asleep p m ha
    rw [h3, h4]
    refine ⟨h5, h6, fun hc => ?_⟩
    obtain ⟨y, k, hy, hk⟩ := h7 (by
      by_contra hm
      simp [hfalse m (by simpa using hm)] at hc)
    exact ⟨y, k, by rw [hcode y]; exact hy, hk⟩
  · rw [hasleep p] at ha
    rw [hcode y] at hy
    exact h.passed y m k hy p hp ha
  · obtain ⟨h1, h2, h3, -⟩ := hproc p
    rw [h1] at hpc
    rw [h2] at hst
    rw [h3]
    exact h.chan p ch b hpc hst
  · rcases hholds j m hj with hj | ⟨-, rfl, -⟩
    · exact hfalse m (h.holds j m hsl hj)
    · rw [hcond, update_self]
  · rcases hholds j₁ m h₁ with h₁' | ⟨rfl, rfl, hc⟩
    · rcases hholds j₂ m h₂ with h₂' | ⟨rfl, rfl, hc⟩
      · exact h.one j₁ j₂ m hsl h₁' h₂'
      · exact absurd (h.holds j₁ m hsl h₁') (by simp [hc])
    · rcases hholds j₂ m h₂ with h₂' | ⟨rfl, -, -⟩
      · exact absurd (h.holds j₂ m hsl h₂') (by simp [hc])
      · rfl

/-! ### `wakeup` by somebody who has made the condition true -/

theorem Wake.advance (h : Wake g s) (hold : s.code x = .waking (.obj n) k true .kern)
    (hnew : s'.code x = .waking (.obj n) (k + 1) true .kern) (hcode : ∀ y, y ≠ x → s'.code y = s.code y)
    (hcond : s'.cond = s.cond) (hkl : s'.klock = s.klock)
    (hproc : ∀ p, Calm s.cond (s.proc p) (s'.proc p) ∧ (s'.proc p).pc.tests = (s.proc p).pc.tests ∧
      ∀ m, (s'.proc p).asleep = some m → (s.proc p).asleep = some m)
    (hk : (s'.proc k).asleep ≠ some n) : Wake g s' := by
  refine ⟨fun y lk hy => ?_, fun y ch l a hy => ?_, fun p m ht => ?_, fun p m ha => ?_, fun y m l hy p hp ha => ?_,
    fun p ch b hpc hst => ?_, fun j m hsl hj => ?_, fun j₁ j₂ m hsl h₁ h₂ => ?_⟩
  · rw [hkl]
    by_cases hyx : y = x
    · subst hyx
      rw [hnew] at hy
      exact h.held y lk (by rw [hold]; exact hy)
    · rw [hcode y hyx] at hy
      exact h.held y lk hy
  · by_cases hyx : y = x
    · subst hyx
      rw [hnew] at hy
      cases hy
      exact ⟨rfl, n, rfl⟩
    · rw [hcode y hyx] at hy
      exact h.signal y ch l a hy
  · rw [hcond]
    rcases (hproc p).1.tests m ht with ⟨ht', h1, h2⟩ | h'
    · rw [h1, h2]
      exact h.tests p m ht'
    · exact h'
  · obtain ⟨-, h1, h2⟩ := (hproc p).1.asleep m ha
    obtain ⟨h3, h4, h5⟩ := h.asleep p m ((hproc p).2.2 m ha)
    rw [hcond, h1, h2]
    refine ⟨h3, h4, fun hc => ?_⟩
    obtain ⟨y, l, hy, hl⟩ := h5 hc
    by_cases hyx : y = x
    · subst hyx
      rw [hold] at hy
      cases hy
      refine ⟨y, k + 1, by rw [hnew]; rfl, Nat.succ_le_of_lt (lt_of_le_of_ne hl ?_)⟩
      rintro rfl
      exact hk ha
    · exact ⟨y, l, by rw [hcode y hyx]; exact hy, hl⟩
  · by_cases hyx : y = x
    · subst hyx
      rw [hnew] at hy
      cases hy
      rcases Nat.lt_succ_iff_lt_or_eq.mp hp with hp | rfl
      · exact h.passed y n k (by rw [hold]; rfl) p hp ((hproc p).2.2 n ha)
      · exact hk ha
    · rw [hcode y hyx] at hy
      exact h.passed y m l hy p hp ((hproc p).2.2 m ha)
  · rcases (hproc p).1.chan ch b hpc hst with h' | ⟨h1, h2, h3⟩
    · exact h'
    · rw [h3]
      exact h.chan p ch b h1 h2
  · rw [hcond]
    exact h.holds j m hsl ((hproc j).1.holds m hj)
  · exact h.one j₁ j₂ m hsl ((hproc j₁).1.holds m h₁) ((hproc j₂).1.holds m h₂)

/-- The scan is over: everybody who has tested the condition counts as passed, and nobody sleeps for it. -/
theorem Wake.complete (h : Wake g s) (hold : s.code x = .waking (.obj n) k true .kern)
    (hnew : s'.code x = .kern) (hcode : ∀ y, y ≠ x → s'.code y = s.code y) (hcond : s'.cond = s.cond)
    (hkl : s'.klock = s.klock)
    (hproc : ∀ p, (s'.proc p).state = (s.proc p).state ∧ (s'.proc p).chan = (s.proc p).chan ∧
      (s'.proc p).tested = (s.proc p).tested ∧ (s'.proc p).holds = (s.proc p).holds ∧
      ((s'.proc p).woken = (s.proc p).woken ∨ (s.proc p).tested = some n))
    (hpcs : ∀ p, Holder.proc p ≠ x → (s'.proc p).pc = (s.proc p).pc)
    (hnone : ∀ p, (s.proc p).asleep ≠ some n) : Wake g s' := by
  have hx : ∀ p, x = .proc p → (s.proc p).pc = .waking (.obj n) k true .kern ∧ (s'.proc p).pc = .kern := by
    rintro p rfl
    exact ⟨hold, hnew⟩
  have hpc : ∀ p, (s'.proc p).pc.tests = (s.proc p).pc.tests ∧ (s'.proc p).asleep = (s.proc p).asleep ∧
      ∀ ch b, ((s'.proc p).pc = .toSched (.sleep ch b) ∨ (s'.proc p).pc = .parked (.sleep ch b)) →
        ((s.proc p).pc = .toSched (.sleep ch b) ∨ (s.proc p).pc = .parked (.sleep ch b)) := by
    intro p
    by_cases hp : x = .proc p
    · obtain ⟨h1, h2⟩ := hx p hp
      refine ⟨by rw [h1, h2]; rfl, by simp only [Proc.asleep, h1, h2], fun ch b hpc => ?_⟩
      rw [h2] at hpc
      rcases hpc with hpc | hpc <;> cases hpc
    · have h1 := hpcs p (Ne.symm hp)
      exact ⟨by rw [h1], by simp only [Proc.asleep, h1, (hproc p).1], fun ch b hpc => h1 ▸ hpc⟩
  refine ⟨fun y lk hy => ?_, fun y ch l a hy => ?_, fun p m ht => ?_, fun p m ha => ?_, fun y m l hy p hp ha => ?_,
    fun p ch b hp hst => ?_, fun j m hsl hj => ?_, fun j₁ j₂ m hsl h₁ h₂ => ?_⟩
  · rw [hkl]
    by_cases hyx : y = x
    · subst hyx
      rw [hnew] at hy
      exact hy.elim
    · rw [hcode y hyx] at hy
      exact h.held y lk hy
  · by_cases hyx : y = x
    · subst hyx
      rw [hnew] at hy
      cases hy
    · rw [hcode y hyx] at hy
      exact h.signal y ch l a hy
  · rw [(hpc p).1] at ht
    obtain ⟨h1, h2, h3⟩ := h.tests p m ht
    obtain ⟨-, -, ht', -, hw⟩ := hproc p
    refine ⟨by rw [hcond]; exact h1, by rw [ht']; exact h2, ?_⟩
    rcases hw with hw | hw
    · rw [hw]
      exact h3
    · obtain rfl : m = n := Option.some.inj (h2.symm.trans hw)
      exact absurd ht (h.not_tests (x := x) (k := k) (by rw [hold]; rfl) p)
  · rw [(hpc p).2.1] at ha
    obtain ⟨h1, h2, h3⟩ := h.asleep p m ha
    obtain ⟨-, -, ht', -, hw⟩ := hproc p
    have hmn : m ≠ n := fun e => hnone p (e ▸ ha)
    refine ⟨by rw [ht']; exact h1, ?_, fun hc => ?_⟩
    · rcases hw with hw | hw
      · rw [hw]
        exact h2
      · exact absurd (Option.some.inj (h1.symm.trans hw)) hmn
    · rw [hcond] at hc
      obtain ⟨y, l, hy, hl⟩ := h3 hc
      have hyx : y ≠ x := by
        rintro rfl
        rw [hold] at hy
        cases hy
        exact hmn rfl
      exact ⟨y, l, by rw [hcode y hyx]; exact hy, hl⟩
  · rw [(hpc p).2.1] at ha
    by_cases hyx : y = x
    · subst hyx
      rw [hnew] at hy
      cases hy
    · rw [hcode y hyx] at hy
      exact h.passed y m l hy p hp ha
  · obtain ⟨h1, h2, -⟩ := hproc p
    rw [h1] at hst
    rw [h2]
    exact h.chan p ch b ((hpc p).2.2 ch b hp) hst
  · rw [hcond]
    exact h.holds j m hsl (by rw [← (hproc j).2.2.2.1]; exact hj)
  · exact h.one j₁ j₂ m hsl (by rw [← (hproc j₁).2.2.2.1]; exact h₁) (by rw [← (hproc j₂).2.2.2.1]; exact h₂)

/-- A process that sleeps for a condition and whose lock is free has been switched out. -/
theorem Inv.sleeping_of_asleep (h : Inv s) {k : Pid} (ha : (s.proc k).asleep = some n) :
    k < nproc ∧ (s.lock k = none → (s.proc k).state = .sleeping ∧ ∃ b, (s.proc k).pc = .parked (.sleep (.obj n) b)) := by
  have hrun : ∀ q, (s.proc k).pc = q → q.runs = true → q.locks k = some k → k < nproc ∧ s.lock k ≠ none := by
    rintro q rfl hr hlk
    obtain ⟨c, hp⟩ := h.inProc_of_runs hr
    exact ⟨h.used k (h.on_state (c := c) (by rw [hp]; rfl)).1, by simp [(h.runs hp).2.locks k hlk]⟩
  unfold Proc.asleep at ha
  split at ha
  · next hpc =>
      obtain ⟨h1, h2⟩ := hrun _ hpc rfl rfl
      exact ⟨h1, fun hl => absurd hl h2⟩
  · next hpc =>
      obtain ⟨h1, h2⟩ := hrun _ hpc rfl rfl
      exact ⟨h1, fun hl => absurd hl h2⟩
  · next hpc =>
      split at ha
      · next hst =>
          cases ha
          exact ⟨h.used k (by simp [hst]), fun _ => ⟨hst, _, hpc⟩⟩
      · cases ha
  · cases ha

end

end Xv6Armv8.Procs
