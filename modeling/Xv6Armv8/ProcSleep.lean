import Xv6Armv8.LibRun
import Xv6Armv8.ProcWake

/-! Every step keeps the invariant of `sleep` and `wakeup`, and what follows for a run: a sleeper has not been
passed by a `wakeup` since it tested its condition, and the sleep locks exclude each other. -/

namespace Xv6Armv8.Procs

open Option StepRun

open Function (update update_of_ne update_self)

open Intr (Procstate nproc)

variable {a : After} {ch : Chan} {k : Pid} {n : Nat} {p : Proc} {signal : Bool} {x : Holder}

section

variable {g : Cfg} {s s' : State} {c : Cid} {i : Pid} {cond : Nat → Bool}

/-! ### The scan of `wakeup` -/

/-- The thread `x` goes to the place `q`, and nothing else happens. -/
structure Jump (x : Holder) (q : Pc) (s s' : State) : Prop where
  code : s'.code x = q
  other : ∀ y, y ≠ x → s'.code y = s.code y
  klock : s'.klock = s.klock
  cond : s'.cond = s.cond
  proc : ∀ p, s'.proc p = { s.proc p with pc := (s'.proc p).pc }

theorem jump_setPc (s : State) (i : Pid) (q : Pc) : Jump (.proc i) q s (s.setPc i q) where
  code := by simp [State.code]
  other := fun y hy => by
    cases y with
    | sched c => rfl
    | proc j =>
      have hj : j ≠ i := fun e => hy (e ▸ rfl)
      simp [State.code, hj]
  klock := rfl
  cond := rfl
  proc := fun p => by
    by_cases hp : p = i
    · subst hp
      simp
    · simp [hp]

theorem jump_setCpu (s : State) (c : Cid) (i : Pid) (q : Pc) :
    Jump (.sched c) q s (s.setCpu c { s.cpu c with pos := .irq i q }) where
  code := by simp [State.code]
  other := fun y hy => by
    cases y with
    | proc j => rfl
    | sched c' =>
      have hc : c' ≠ c := fun e => hy (e ▸ rfl)
      exact code_sched_congr (by simp [hc])
  klock := rfl
  cond := rfl
  proc := fun _ => rfl

theorem Jump.pc {q : Pc} (h : Jump x q s s') {p : Pid} (hp : Holder.proc p ≠ x) : s'.proc p = s.proc p := by
  have h1 : (s'.proc p).pc = (s.proc p).pc := h.other (.proc p) hp
  rw [h.proc p, h1]

theorem asleep_waking (h : p.pc = .waking ch k signal a) : p.asleep = none := asleep_eq_none (by rw [h]; rfl)

theorem After.pc_facts (a : After) : a.pc.dozes = false ∧ a.pc.raises = false := by
  cases a <;> exact ⟨rfl, rfl⟩

theorem After.tests_pc (a : After) (ch : Chan) (k : Pid) (signal : Bool) :
    a.pc.tests = (Pc.waking ch k signal a).tests := by
  cases a with
  | going ch' b => cases ch' <;> rfl
  | _ => rfl

theorem After.klocks_pc {lk : Lk} (h : a.pc.klocks g lk) : a.klocks g lk := by
  cases a <;> exact h

/-- A process that `wakeup` has visited, with its lock free, does not sleep on the channel. -/
theorem Inv.not_asleep_wake (h : Inv s) (hw : Wake g s) (hl : s.lock k = none) :
    ((s.proc k).wake (.obj n)).asleep ≠ some n := by
  intro ha
  rcases (s.proc k).wake_cases (.obj n) with heq | ⟨hsl, -, heq⟩
  · rw [heq] at ha
    obtain ⟨hst, b, hpc⟩ := (h.sleeping_of_asleep ha).2 hl
    have hch := hw.chan k (.obj n) b (.inr hpc) hst
    have := congrArg Proc.state heq
    simp [Proc.wake, hst, hch] at this
  · rw [heq] at ha
    have hr := (h.rest k (h.off_of_free hl (by simp [hsl]))).runs
    unfold Proc.asleep at ha
    split at ha
    · next hpc => simp [show (s.proc k).pc = _ from hpc] at hr
    · next hpc => simp [show (s.proc k).pc = _ from hpc] at hr
    · simp at ha
    · cases ha

theorem Proc.asleep_wake (h : (p.wake ch).asleep = some n) : p.asleep = some n := by
  rcases p.wake_cases ch with heq | ⟨hsl, -, heq⟩
  · rwa [heq] at h
  · rw [heq] at h
    unfold Proc.asleep at h ⊢
    split at h <;> simp_all

/-- What the scan does to the processes at one slot: nothing to the thread itself, and `wakeup` to the slot. -/
def Visits (x : Holder) (ch : Chan) (s t : State) : Prop :=
  ∀ p, t.proc p = s.proc p ∨ t.proc p = (s.proc p).wake ch ∧ Holder.proc p ≠ x

theorem Visits.facts {t : State} {q : Pc} (hv : Visits x ch s t) (hj : Jump x q t s')
    (hx : (s.code x).tests = q.tests) (hz : q.dozes = false) (p : Pid) :
    Calm s.cond (s.proc p) (s'.proc p) ∧ (s'.proc p).pc.tests = (s.proc p).pc.tests ∧
      ∀ m, (s'.proc p).asleep = some m → (s.proc p).asleep = some m := by
  by_cases hp : x = .proc p
  · subst hp
    have hpc : (s'.proc p).pc = q := hj.code
    have ht : t.proc p = s.proc p := (hv p).resolve_right fun h' => h'.2 rfl
    have hproc := hj.proc p
    rw [ht] at hproc
    rw [← hpc] at hz
    have htests : (s'.proc p).pc.tests = (s.proc p).pc.tests := by rw [hpc]; exact hx.symm
    refine ⟨.tested htests hz ?_ ?_ ?_, htests, fun m hm => ?_⟩
    · rw [hproc]
    · rw [hproc]
    · rw [hproc]
      exact fun _ => id
    · rw [asleep_eq_none hz] at hm
      cases hm
  · rw [hj.pc (Ne.symm hp)]
    rcases hv p with heq | ⟨heq, -⟩
    · rw [heq]
      exact ⟨.refl _, rfl, fun _ => id⟩
    · rw [heq]
      refine ⟨.wake _ ch, ?_, fun _ => Proc.asleep_wake⟩
      rcases (s.proc p).wake_cases ch with h' | ⟨-, -, h'⟩ <;> rw [h']

theorem Wake.visits (h : Wake g s) {t : State}
    (hx : s.code x = .waking ch k signal a) (hv : Visits x ch s t) (hk : t.klock = s.klock) (hc : t.cond = s.cond)
    (hcode : ∀ y, t.code y = s.code y) (hnot : ∀ n, ch = .obj n → (t.proc k).asleep ≠ some n ∨ x = .proc k)
    (hj : Jump x (.waking ch (k + 1) signal a) t s') : Wake g s' := by
  have hproc := hv.facts hj (by rw [hx, ← a.tests_pc, ← a.tests_pc]) rfl
  have hother : ∀ y, y ≠ x → s'.code y = s.code y := fun y hy => (hj.other y hy).trans (hcode y)
  cases signal with
  | false =>
    refine h.quiet x (hj.cond.trans hc) (fun y hy => .inl (hother y hy)) (fun y lk _ hl => ?_) (fun lk hl => ?_)
      (by rw [hj.code]; rfl) (by rw [hx]; rfl) fun p => (hproc p).1
    · rw [hj.klock, hk, hl]
    · rw [hj.code] at hl
      rw [hj.klock, hk]
      exact h.held x lk (by rw [hx]; exact hl)
  | true =>
    obtain ⟨rfl, n, rfl⟩ := h.signal x ch k a hx
    refine h.advance hx hj.code hother (hj.cond.trans hc) (hj.klock.trans hk) hproc fun ha => ?_
    by_cases hkx : x = .proc k
    · subst hkx
      rw [asleep_waking hj.code] at ha
      cases ha
    · rw [hj.pc (Ne.symm hkx)] at ha
      exact ((hnot n rfl).resolve_right hkx) ha

theorem Wake.ends (hi : Inv s) (h : Wake g s) (hx : s.code x = .waking ch k signal a) (hk : nproc ≤ k)
    (hj : Jump x a.pc (if signal then s.signalled ch else s) s') : Wake g s' := by
  cases signal with
  | false =>
    have hv : Visits x ch s s := fun p => .inl rfl
    have hproc := hv.facts hj (by rw [hx]; exact (a.tests_pc ch k false).symm) a.pc_facts.1
    refine h.quiet x hj.cond (fun y hy => .inl (hj.other y hy)) (fun y lk _ hl => hj.klock ▸ hl) (fun lk hl => ?_)
      (by rw [hj.code]; exact a.pc_facts.2) (by rw [hx]; rfl) fun p => (hproc p).1
    rw [hj.code] at hl
    rw [hj.klock]
    exact h.held x lk (by rw [hx]; exact .inr (After.klocks_pc hl))
  | true =>
    obtain ⟨rfl, n, rfl⟩ := h.signal x ch k a hx
    have hsig : ∀ p, (s.signalled (.obj n)).proc p = s.proc p ∨
        (s.signalled (.obj n)).proc p = { s.proc p with woken := true } ∧ (s.proc p).tested = some n := by
      intro p
      simp only [State.signalled]
      split
      · next ht =>
          obtain ⟨m, hm, hmn⟩ := map_eq_some_iff.mp ht
          cases hmn
          exact .inr ⟨rfl, hm⟩
      · exact .inl rfl
    have hpcs : ∀ p, ((s.signalled (.obj n)).proc p).pc = (s.proc p).pc := fun p => by
      rcases hsig p with heq | ⟨heq, -⟩ <;> rw [heq]
    have hcode : ∀ y, (s.signalled (.obj n)).code y = s.code y := by
      intro y
      cases y with
      | proc j => exact hpcs j
      | sched c => rfl
    refine h.complete hx hj.code (fun y hy => (hj.other y hy).trans (hcode y)) hj.cond hj.klock (fun p => ?_)
      (fun p hp => (hj.other (.proc p) hp).trans (hpcs p)) fun p ha => ?_
    · have hp := hj.proc p
      rcases hsig p with heq | ⟨heq, ht⟩
      · rw [hp]
        simp [heq]
      · rw [hp]
        simp [heq, ht]
    · -- the slot of a sleeper is behind the scan
      have hlt := (hi.sleeping_of_asleep ha).1
      exact h.passed x n k (by rw [hx]; rfl) p (Nat.lt_of_lt_of_le hlt hk) ha

theorem Wake.stepWaking (hi : Inv s) (h : Wake g s) {me : Option Pid} {next done : State → State} (hx : s.code x = .waking ch k signal a)
    (hme : ∀ j, me = some j ↔ x = .proc j)
    (hnext : ∀ t, t.cpu = s.cpu → Jump x (.waking ch (k + 1) signal a) t (next t))
    (hdone : ∀ t, t.cpu = s.cpu → Jump x a.pc t (done t))
    (hs : stepWaking s me ch k signal next done = some s') : Wake g s' := by
  unfold Procs.stepWaking at hs
  split at hs
  · next hk =>
      cases hs
      exact h.ends hi hx hk (hdone _ (by split <;> rfl))
  split at hs
  · next hm =>
      cases hs
      exact h.visits hx (fun p => .inl rfl) rfl rfl (fun _ => rfl) (fun _ _ => .inr ((hme k).mp hm)) (hnext s rfl)
  split at hs
  · next hm hl =>
      cases hs
      have hne : Holder.proc k ≠ x := fun e => hm ((hme k).mpr e.symm)
      refine h.visits (t := s.upd k fun p => p.wake ch) hx (fun p => ?_) rfl rfl (fun y => ?_) (fun n hn => .inl ?_)
        (hnext _ rfl)
      · by_cases hp : p = k
        · subst hp
          exact .inr ⟨by simp, hne⟩
        · exact .inl (by simp [hp])
      · cases y with
        | sched c => rfl
        | proc j =>
          by_cases hj : j = k
          · subst hj
            simp only [State.code, upd_proc, update_self]
            rcases (s.proc j).wake_cases ch with heq | ⟨-, -, heq⟩ <;> rw [heq]
          · simp [State.code, hj]
      · subst hn
        simp only [upd_proc, update_self]
        exact hi.not_asleep_wake h hl
  · cases hs

/-! ### Calls -/

/-- A spin lock taken when it is free, or dropped by the thread that holds it, is nobody else's. -/
theorem klock_update {y : Holder} {lk lk' : Lk} {o : Option Holder} (hold : s.klock lk = none ∨ s.klock lk = some x)
    (hy : y ≠ x) (h : s.klock lk' = some y) : update s.klock lk o lk' = some y := by
  rw [update_of_ne, h]
  rintro rfl
  rcases hold with hold | hold
  · rw [hold] at h
    cases h
  · exact hy (some.inj (h.symm.trans hold))

theorem Calm.test {p' : Proc} (hc : cond n = false) (hpc : p'.pc = .asking (.obj n) ∨ p'.pc = .going (.obj n) false)
    (ht : p'.tested = some n) (hw : p'.woken = false) (hh : p'.holds = p.holds) : Calm cond p p' := by
  obtain ⟨htests, hz⟩ : p'.pc.tests = some n ∧ p'.pc.dozes = false := by
    rcases hpc with hpc | hpc <;> rw [hpc] <;> exact ⟨rfl, rfl⟩
  refine ⟨fun m hm => .inr ?_, fun m hm => ?_, fun ch b h1 _ => ?_, fun m hm => hh ▸ hm⟩
  · obtain rfl : n = m := some.inj (htests.symm.trans hm)
    exact ⟨hc, ht, hw⟩
  · rw [asleep_eq_none hz] at hm
    cases hm
  · rw [dozes_of_sleep h1] at hz
    cases hz

/-- The process `i` makes a condition true, under the lock, and begins to wake the sleepers. -/
theorem Wake.signals (h : Wake g s) (hpc : (s.proc i).pc = .kern)
    (hheld : s.klock (g.lk (.obj n)) = some (.proc i)) (hcond : s'.cond = update s.cond n true)
    (hcpu : s'.cpu = s.cpu) (hkl : s'.klock = s.klock) (hnew : (s'.proc i).pc = .waking (.obj n) 0 true .kern)
    (hother : ∀ j, j ≠ i → s'.proc j = s.proc j)
    (ht : (s'.proc i).tested = (s.proc i).tested) (hw : (s'.proc i).woken = (s.proc i).woken)
    (hh : ∀ m, (s'.proc i).holds m = true → (s.proc i).holds m = true)
    (hholds : g.sleepLock n = true → ∀ j, (s'.proc j).holds n = false) : Wake g s' := by
  refine h.raise hheld hcond (fun y hy => ?_) hnew hpc hkl (fun p => ?_) hholds
  · cases y with
    | sched c => exact code_sched_congr (by rw [hcpu])
    | proc j => simp only [State.code, hother j fun e => hy (e ▸ rfl)]
  · by_cases hp : p = i
    · subst hp
      have htests : (s'.proc p).pc.tests = (s.proc p).pc.tests := by rw [hnew, hpc]; rfl
      have hasleep : (s.proc p).asleep = none := asleep_eq_none (by rw [hpc]; rfl)
      refine ⟨.tested htests (by rw [hnew]; rfl) ht hw hh, htests, ?_, ht, hw⟩
      rw [asleep_waking hnew, hasleep]
    · rw [hother p hp]
      exact ⟨.refl _, rfl, rfl, rfl, rfl⟩

theorem Wake.stepCall (h : Wake g s) {op : Op} (hpc : (s.proc i).pc = .kern)
    (hs : stepCall g s c i op = some s') : Wake g s' := by
  have hold : (s.proc i).pc.raises = false := by
    rw [hpc]
    rfl
  cases op with
  | ret | kill pid | fork | wakeup ch =>
    cases hs
    refine h.stays hpc rfl ?_
    simp [Pc.klocks, After.klocks]
  | lock lk =>
    obtain ⟨⟨hfree, -⟩, rfl⟩ := guarded hs
    exact h.goto i .kern rfl rfl (fun _ _ hy => klock_update (.inl hfree) hy) hpc rfl (fun _ => False.elim) hold (fun _ => id)
      fun j _ => unaffected rfl
  | unlock lk =>
    obtain ⟨⟨hheld, -⟩, rfl⟩ := guarded hs
    exact h.goto i .kern rfl rfl (fun _ _ hy => klock_update (.inr hheld) hy) hpc rfl (fun _ => False.elim) hold (fun _ => id)
      fun j _ => unaffected rfl
  | clear n =>
    obtain ⟨-, rfl⟩ := guarded hs
    exact h.lower (i := i) rfl rfl rfl (fun _ => ⟨rfl, rfl, rfl, rfl, rfl⟩) fun _ _ => .inl
  | signal n =>
    obtain ⟨⟨hheld, hsl⟩, rfl⟩ := guarded hs
    exact h.signals hpc hheld rfl rfl rfl (by simp) (fun j hj => by simp [hj]) (by simp) (by simp) (by simp)
      fun h' => absurd (hsl.symm.trans h') (by simp)
  | sleep n killable =>
    obtain ⟨⟨hheld, hc⟩, rfl⟩ := guarded hs
    refine h.own i rfl (fun _ => rfl) (fun _ _ _ => id) ?_ ?_ hold ?_ fun j hj => unaffected (by simp [hj])
    · cases killable <;> simp [Pc.klocks, hheld]
    · cases killable <;> simp [Pc.raises]
    · refine .test hc ?_ (by simp) (by simp) (by simp)
      cases killable
      · exact .inr (by simp)
      · exact .inl (by simp)
  | lockSleep n =>
    obtain ⟨⟨hheld, hsl, hc⟩, rfl⟩ := guarded hs
    refine h.lower (i := i) rfl rfl rfl (fun p => ?_) fun j m hm => ?_
    · by_cases hp : p = i
      · subst hp
        simp
      · simp [hp]
    · by_cases hj : j = i
      · subst hj
        by_cases hmn : m = n
        · exact .inr ⟨rfl, hmn, hc⟩
        · exact .inl (by simpa [hmn] using hm)
      · exact .inl (by simpa [hj] using hm)
  | unlockSleep n =>
    obtain ⟨⟨hheld, hsl, hho⟩, rfl⟩ := guarded hs
    have hi : ∀ m, update (s.proc i).holds n false m = true → (s.proc i).holds m = true := by
      intro m hm
      by_cases hmn : m = n
      · subst hmn
        simp at hm
      · simpa [hmn] using hm
    refine h.signals hpc hheld rfl rfl rfl (by simp) (fun j hj => by simp [hj]) (by simp) (by simp)
      (by simpa using hi) fun _ j => ?_
    by_cases hj : j = i
    · subst hj
      simp
    · -- nobody else has taken the lock
      have hone := fun h' => hj (h.one j i n hsl h' hho)
      simpa [hj] using hone
  | yield =>
    obtain ⟨-, hs⟩ := ite_none_right_eq_some.mp hs
    split at hs
    · cases hs
      exact h
    · cases hs
      exact h.stays hpc rfl (fun _ => False.elim)
  | wait =>
    obtain ⟨hfree, rfl⟩ := guarded hs
    refine h.moves hpc rfl (fun _ _ hy => klock_update (.inl hfree) hy) ?_
    rintro lk rfl
    simp
  | exit status =>
    obtain ⟨⟨hfree, -⟩, rfl⟩ := guarded hs
    refine h.moves hpc rfl (fun _ _ hy => klock_update (.inl hfree) hy) ?_
    rintro lk rfl
    simp

/-! ### The code of a process -/

/-- On the way to `sleep`, with the lock of the condition, up to `acquire(&p->lock)`. -/
theorem Wake.nears (h : Wake g s) {q q₀ : Pc} (hpc : (s.proc i).pc = q₀)
    (hproc : s'.proc = update s.proc i { s.proc i with pc := q }) (hlk : ∀ lk, q.klocks g lk → q₀.klocks g lk)
    (htests : q.tests = q₀.tests) (hz : q.dozes = false := by rfl) (hnew : q.raises = false := by rfl)
    (hold : q₀.raises = false := by rfl) (hcond : s'.cond = s.cond := by rfl) (hcpu : s'.cpu = s.cpu := by rfl)
    (hkl : s'.klock = s.klock := by rfl) : Wake g s' := by
  have hi : s'.proc i = { s.proc i with pc := q } := by rw [hproc, update_self]
  refine h.own i hcond (fun _ => code_sched_congr (by rw [hcpu])) (fun y lk _ hy => hkl ▸ hy) (fun lk hk => ?_) ?_
    (hpc ▸ hold) ?_ fun j hj => unaffected (by rw [hproc, update_of_ne hj])
  · rw [hi] at hk
    rw [hkl]
    exact h.held_at hpc (hlk lk hk)
  · rw [hi]
    exact hnew
  · rw [hi]
    exact .tested (htests.trans (hpc ▸ rfl)) hz rfl rfl fun _ => id

theorem Wake.touch (h : Wake g s) (i : Pid) (q : Pc) (k : Pid) (f : Proc → Proc)
    (hf : ∀ p, Calm s.cond p (f p) ∧ (f p).pc = p.pc ∧ (f p).holds = p.holds) (hcond : s'.cond = s.cond)
    (hcpu : s'.cpu = s.cpu) (hkl : ∀ y lk, y ≠ .proc i → s.klock lk = some y → s'.klock lk = some y)
    (hpc : (s'.proc i).pc = q) (hq : q.apart = true) (hx : ∀ lk, q.klocks g lk → s'.klock lk = some (.proc i)) {q₀ : Pc}
    (hpc₀ : (s.proc i).pc = q₀) (hold : q₀.raises = false)
    (hh : (s'.proc i).holds = ((s.upd k f).proc i).holds)
    (hother : ∀ j, j ≠ i → s'.proc j = (s.upd k f).proc j) : Wake g s' := by
  refine h.goto i q hcond hcpu hkl hpc hq hx (hpc₀ ▸ hold) (fun n hn => ?_) fun j hj => ?_
  · rw [hh, upd_proc] at hn
    by_cases hk : i = k
    · subst hk
      rwa [update_self, (hf _).2.2] at hn
    · rwa [update_of_ne hk] at hn
  · by_cases hjk : j = k
    · subst hjk
      rw [hother j hj, upd_proc, update_self]
      exact ⟨(hf _).1, .inl (hf _).2.1⟩
    · exact unaffected (by rw [hother j hj, upd_proc, update_of_ne hjk])

theorem Wake.waitRet (h : Wake g s) (r : Ret) {q₀ : Pc} (hpc : (s.proc i).pc = q₀) (hlk : q₀.klocks g .wait)
    (hold : q₀.raises = false) : Wake g (s.waitRet i r) := by
  have hheld := h.held_at hpc hlk
  exact h.moves hpc rfl (fun _ _ hy => klock_update (.inr hheld) hy) (fun _ => False.elim) hold

theorem Wake.stepChild {ok : Bool} {havekids : Bool} (h : Wake g s)
    (hpc : (s.proc i).pc = .waiting k havekids) (hs : stepChild s i k ok = some s') : Wake g s' := by
  have hheld : s.klock .wait = some (.proc i) := h.held_at hpc rfl
  unfold Procs.stepChild at hs
  obtain ⟨-, hs⟩ := ite_none_right_eq_some.mp hs
  split_ifs at hs
  · cases hs
    exact h.touch i .kern k Proc.free (fun p => ⟨.free p, rfl, rfl⟩) rfl rfl
      (fun _ _ hy => klock_update (.inr hheld) hy) (by simp [State.waitRet]) rfl (fun _ => False.elim) hpc rfl
      (by simp [State.waitRet]) fun j hj => by simp [State.waitRet, hj]
  · cases hs
    exact h.waitRet _ hpc rfl rfl
  · cases hs
    exact h.stays hpc rfl (fun _ => id)

theorem Wake.stepRun {ok : Bool} (hinv : Inv s) (h : Wake g s) (hp : (s.cpu c).pos = .inProc i)
    (hs : stepRun g s c i ok = some s') : Wake g s' := by
  have hst := (hinv.runs hp).2.state
  unfold Procs.stepRun at hs
  cases hpc : (s.proc i).pc with simp only [hpc] at hs
  | fresh | user | kern | parked r => cases hs
  | forkret =>
    cases hs
    exact h.stays hpc rfl (fun _ => False.elim)
  | asking ch =>
    obtain ⟨-, hs⟩ := ite_none_right_eq_some.mp hs
    split at hs
    · cases hs
      exact h.moves hpc rfl (fun _ _ hy => klock_update (.inr (h.held_at hpc rfl)) hy) (fun _ => False.elim)
    · cases hs
      exact h.nears hpc rfl (fun _ => id) (by cases ch <;> rfl)
  | going ch killable =>
    obtain ⟨-, rfl⟩ := guarded hs
    exact h.nears hpc rfl (fun _ => id) (by cases ch <;> rfl)
  | commit ch killable =>
    cases hs
    refine h.own i rfl (fun _ => rfl) (fun _ _ hy => klock_update (.inr (h.held_at hpc rfl)) hy) ?_ (by simp [Pc.raises])
      (by rw [hpc]; rfl) ?_ fun j hj => unaffected (by simp [hj])
    · simp [Pc.klocks]
    · -- the test that the process has made under the lock stands from here on
      refine ⟨fun n hn => ?_, fun n hn => ?_, fun ch' b h1 => ?_, by simp⟩
      · simp [Pc.tests] at hn
      · refine ⟨.inr ?_, by simp, by simp⟩
        rw [hpc]
        cases ch <;> simp [Proc.asleep] at hn
        exact congrArg some hn
      · simp at h1
  | committed ch killable =>
    cases hs
    refine h.own i rfl (fun _ => rfl) (fun _ _ _ => id) ?_ (by simp [Pc.raises]) (by rw [hpc]; rfl) ?_
      fun j hj => unaffected (by simp [hj])
    · simp [Pc.klocks]
    · refine ⟨fun n hn => ?_, fun n hn => ?_, fun ch' b h1 _ => ?_, by simp⟩
      · simp [Pc.tests] at hn
      · refine ⟨.inl ?_, by simp, by simp⟩
        cases ch <;> simp [Proc.asleep] at hn
        simp [Proc.asleep, hpc, hn]
      · simp at h1
        exact .inl (by simp [h1.1])
  | toSched r =>
    cases hs
    refine h.own i rfl (fun c' => ?_) (fun _ _ _ => id) ?_ (by simp [Pc.raises]) (by rw [hpc]; rfl) ?_
      fun j hj => unaffected (by simp [hj])
    · by_cases hc : c' = c
      · subst hc
        simp [State.code, hp]
      · exact code_sched_congr (by simp [hc])
    · simp [Pc.klocks]
    · refine ⟨fun n hn => ?_, fun n hn => ?_, fun ch b h1 h2 => .inr ?_, by simp⟩
      · simp [Pc.tests] at hn
      · refine ⟨.inl ?_, by simp, by simp⟩
        cases r with
        | sleep ch b => cases ch <;> simp [Proc.asleep] at hn; simp [Proc.asleep, hpc, hn.2]
        | _ => simp [Proc.asleep] at hn
      · simp at h1 h2
        exact ⟨.inl (by rw [hpc, h1]), h2, by simp⟩
  | resumed r =>
    cases r with
    | yield =>
      cases hs
      exact h.stays hpc rfl (fun _ => False.elim)
    | sleep ch killable =>
      cases hs
      exact h.stays hpc rfl (fun _ => False.elim)
    | exit => cases hs
  | relock ch =>
    obtain ⟨hfree, rfl⟩ := guarded hs
    cases ch with
    | proc k =>
      refine h.moves hpc rfl (fun _ _ hy => klock_update (.inl hfree) hy) ?_
      rintro lk rfl
      simp [Cfg.lk]
    | obj n =>
      exact h.moves hpc rfl (fun _ _ hy => klock_update (.inl hfree) hy) (fun _ => False.elim)
  | waking ch k signal a =>
    refine h.stepWaking hinv (x := .proc i) hpc (fun j => ?_) (fun t _ => jump_setPc t i _)
      (fun t _ => jump_setPc t i _) hs
    exact ⟨fun e => by cases e; rfl, fun e => by cases e; rfl⟩
  | killing pid k =>
    split_ifs at hs
    · cases hs
      exact h.stays hpc rfl (fun _ => False.elim)
    · cases hs
      exact h.touch i .kern k Proc.kill (fun p => ⟨.kill p, rfl, rfl⟩) rfl rfl (fun _ _ _ => id) (by simp) rfl
        (fun _ => False.elim) hpc rfl (by simp) fun j hj => by simp [hj]
    · cases hs
      exact h.stays hpc rfl (fun _ => False.elim)
  | allocating k =>
    split_ifs at hs with h1 h2 h3
    · cases hs
      exact h.stays hpc rfl (fun _ => False.elim)
    · cases hs
      have hki : i ≠ k := by
        rintro rfl
        rw [hpc, h3] at hst
        cases hst
      refine h.goto i (.forkCopy k) rfl rfl (fun _ _ _ => id) (by simp) rfl (fun _ => False.elim)
        (by rw [hpc]; rfl) ?_ fun j hj => ?_
      · simp [hki]
      · by_cases hjk : j = k
        · subst hjk
          have hoff := hinv.off_of_free h2 (by simp [h3])
          simp only [setPc_proc, setLock_proc, upd_proc, update_of_ne hj, update_self]
          exact ⟨.alloc _ _, .inr ⟨rfl, (hinv.rest j hoff).runs⟩⟩
        · exact unaffected (by simp [hj, hjk])
    · cases hs
      exact h.stays hpc rfl (fun _ => False.elim)
  | forkCopy k =>
    split at hs
    · cases hs
      exact h.stays hpc rfl (fun _ => False.elim)
    · cases hs
      exact h.touch i .kern k Proc.free (fun p => ⟨.free p, rfl, rfl⟩) rfl rfl (fun _ _ _ => id) (by simp) rfl
        (fun _ => False.elim) hpc rfl (by simp) fun j hj => by simp [hj]
  | forkParent k =>
    obtain ⟨-, rfl⟩ := guarded hs
    exact h.touch i (.forkStart k) k (fun p => { p with parent := some i })
      (fun p => ⟨.state rfl id (fun _ => rfl) rfl rfl rfl, rfl, rfl⟩) rfl rfl (fun _ _ _ => id) (by simp) rfl
      (fun _ => False.elim) hpc rfl (by simp) fun j hj => by simp [hj]
  | forkStart k =>
    obtain ⟨-, rfl⟩ := guarded hs
    exact h.touch i .kern k (fun p => { p with state := .runnable })
      (fun p => ⟨.state rfl (by simp) (by simp) rfl rfl rfl, rfl, rfl⟩) rfl rfl (fun _ _ _ => id) (by simp) rfl
      (fun _ => False.elim) hpc rfl (by simp) fun j hj => by simp [hj]
  | waiting k havekids =>
    split_ifs at hs
    · cases hs
      exact h.stays hpc rfl (fun _ => id)
    · cases hs
      exact h.waitRet _ hpc rfl rfl
    · exact h.stepChild hpc hs
    · cases hs
      exact h.stays hpc rfl (fun _ => id)
  | waitCheck =>
    obtain ⟨-, hs⟩ := ite_none_right_eq_some.mp hs
    split at hs
    · cases hs
      exact h.waitRet _ hpc rfl rfl
    · cases hs
      exact h.nears hpc rfl (fun _ => id) rfl
  | exiting status k =>
    have hwait : s.klock .wait = some (.proc i) := h.held_at hpc rfl
    split at hs
    · split at hs
      · cases hs
        refine h.stays hpc rfl ?_
        rintro lk (⟨h', -⟩ | rfl)
        · cases h'
        · exact rfl
      · cases hs
        exact h.stays hpc rfl (fun _ => id)
    · split at hs
      · cases hs
        refine h.touch i _ k (fun p => { p with parent := some initproc })
          (fun p => ⟨.state rfl id (fun _ => rfl) rfl rfl rfl, rfl, rfl⟩) rfl rfl (fun _ _ _ => id) (by simp; rfl) rfl
          ?_ hpc rfl (by simp) fun j hj => by simp [hj]
        rintro lk (⟨h', -⟩ | rfl)
        · cases h'
        · exact hwait
      · cases hs
        exact h.stays hpc rfl (fun _ => id)
  | exitLock status =>
    obtain ⟨-, rfl⟩ := guarded hs
    exact h.stays hpc rfl (fun _ => id)
  | exitRel =>
    cases hs
    have hwait : s.klock .wait = some (.proc i) := h.held_at hpc rfl
    exact h.moves hpc rfl (fun _ _ hy => klock_update (.inr hwait) hy) (fun _ => False.elim)

/-! ### `scheduler`, interrupts and whole steps -/

/-- A step of `scheduler`, or of a handler that is neither waking anybody nor begins to. -/
theorem Wake.idles (h : Wake g s) (hcond : s'.cond = s.cond)
    (hkl : ∀ y lk, y ≠ .sched c → s.klock lk = some y → s'.klock lk = some y)
    (hcpu : ∀ c', c' ≠ c → s'.cpu c' = s.cpu c') (hnew : s'.code (.sched c) = .kern) (hold : s.code (.sched c) = .kern)
    (hproc : ∀ p, Calm s.cond (s.proc p) (s'.proc p) ∧
      ((s'.proc p).pc = (s.proc p).pc ∨ (s'.proc p).pc.runs = false ∧ (s.proc p).pc.runs = false)) : Wake g s' := by
  refine h.quiet (.sched c) hcond (fun y hy => ?_) hkl (fun lk hlk => ?_) (by rw [hnew]; rfl) (by rw [hold]; rfl)
    fun p => (hproc p).1
  · cases y with
    | proc j => exact (hproc j).2
    | sched c' => exact .inl (code_sched_congr (hcpu c' fun e => hy (e ▸ rfl)))
  · rw [hnew] at hlk
    exact hlk.elim

theorem Wake.stepSched (hinv : Inv s) (h : Wake g s) (hs : stepSched s c = some s') : Wake g s' := by
  have hk := hinv.cpu c
  unfold CpuOk at hk
  unfold Procs.stepSched at hs
  -- a change of the process `i` that leaves its place
  have hone : ∀ i (p' : Proc), p'.pc = (s.proc i).pc → Calm s.cond (s.proc i) p' → ∀ p,
      Calm s.cond (s.proc p) (update s.proc i p' p) ∧ ((update s.proc i p' p).pc = (s.proc p).pc ∨
        (update s.proc i p' p).pc.runs = false ∧ (s.proc p).pc.runs = false) := by
    intro i p' hpc hcalm p
    by_cases hp : p = i
    · subst hp
      rw [update_self]
      exact ⟨hcalm, .inl hpc⟩
    · rw [update_of_ne hp]
      exact ⟨.refl _, .inl rfl⟩
  cases hp : (s.cpu c).pos with simp only [hp] at hs
  | scan i =>
    obtain ⟨-, rfl⟩ := guarded hs
    exact h.idles (c := c) rfl (fun _ _ _ => id) (fun c' hc => by simp [hc]) (by simp [State.code])
      (by simp [State.code, hp]) fun _ => unaffected rfl
  | locked i =>
    split at hs
    · cases hs
      refine h.idles (c := c) rfl (fun _ _ _ => id) (fun c' hc => by simp [hc]) (by simp [State.code])
        (by simp [State.code, hp]) (hone i _ rfl (.state rfl ?_ ?_ rfl rfl rfl)) <;> simp
    · cases hs
      exact h.idles (c := c) rfl (fun _ _ _ => id) (fun c' hc => by simp [hc]) (by simp [State.code])
        (by simp [State.code, hp]) fun _ => unaffected rfl
  | loading i n =>
    simp only [hp] at hk
    split at hs
    · cases hs
      exact h.idles (c := c) rfl (fun _ _ _ => id) (fun c' hc => by simp [hc]) (by simp [State.code])
        (by simp [State.code, hp]) fun _ => unaffected rfl
    · cases hs
      have hq : (s.proc i).pc.loaded = .forkret ∨ ∃ r, (s.proc i).pc.loaded = .resumed r := by
        rcases hk.2.2.2.2 with hq | ⟨r, hq, -⟩
        · exact .inl (by rw [hq]; rfl)
        · exact .inr ⟨r, by rw [hq]; rfl⟩
      have hold : (s.proc i).pc.raises = false := by
        rcases hk.2.2.2.2 with hq | ⟨r, hq, -⟩ <;> (rw [hq]; rfl)
      have hnew : (s.proc i).pc.loaded.apart = true ∧ ∀ lk, ¬(s.proc i).pc.loaded.klocks g lk := by
        rcases hq with hq | ⟨r, hq⟩ <;> (rw [hq]; exact ⟨rfl, fun _ => id⟩)
      refine h.own i rfl (fun c' => ?_) (fun _ _ _ => id) (fun lk hlk => ?_) ?_ hold (.apart (by simpa using hnew.1) ?_)
        fun j hj => unaffected (by simp [hj])
      · by_cases hc : c' = c
        · subst hc
          simp [State.code, hp]
        · exact code_sched_congr (by simp [hc])
      · simp at hlk
        exact absurd hlk (hnew.2 lk)
      · simpa using (Pc.apart_facts hnew.1).2.2
      · simp
  | saving i =>
    split at hs
    · cases hs
      exact h.idles (c := c) rfl (fun _ _ _ => id) (fun _ _ => rfl) (by simp [State.code, hp])
        (by simp [State.code, hp]) (hone i _ rfl (.state rfl id (fun _ => rfl) rfl rfl rfl))
    · cases hs
      exact h.idles (c := c) rfl (fun _ _ _ => id) (fun c' hc => by simp [hc]) (by simp [State.code])
        (by simp [State.code, hp]) fun _ => unaffected rfl
  | back i =>
    cases hs
    exact h.idles (c := c) rfl (fun _ _ _ => id) (fun c' hc => by simp [hc]) (by simp [State.code])
      (by simp [State.code, hp]) fun _ => unaffected rfl
  | inProc i | irq i q => cases hs

theorem Wake.stepIrqCall {op : Op} (h : Wake g s) (hp : (s.cpu c).pos = .irq i .kern)
    (hs : stepIrqCall g s c i op = some s') : Wake g s' := by
  have hcode : s.code (.sched c) = .kern := by simp [State.code, hp]
  cases op with
  | lock lk =>
    obtain ⟨⟨hfree, -⟩, rfl⟩ := guarded hs
    exact h.idles (c := c) rfl (fun _ _ hy => klock_update (.inl hfree) hy) (fun _ _ => rfl) hcode hcode fun _ => unaffected rfl
  | unlock lk =>
    obtain ⟨⟨hheld, -⟩, rfl⟩ := guarded hs
    exact h.idles (c := c) rfl (fun _ _ hy => klock_update (.inr hheld) hy) (fun _ _ => rfl) hcode hcode fun _ => unaffected rfl
  | clear n =>
    obtain ⟨-, rfl⟩ := guarded hs
    exact h.lower (i := 0) rfl rfl rfl (fun _ => ⟨rfl, rfl, rfl, rfl, rfl⟩) fun _ _ => .inl
  | signal n =>
    obtain ⟨⟨hheld, hsl⟩, rfl⟩ := guarded hs
    have hj := jump_setCpu (s.setCond n true) c i (.waking (.obj n) 0 true .kern)
    exact h.raise hheld rfl hj.other hj.code hcode rfl (fun p => ⟨.refl _, rfl, rfl, rfl, rfl⟩)
      fun h' => absurd (hsl.symm.trans h') (by simp)
  | wakeup ch =>
    cases hs
    have hj := jump_setCpu s c i (.waking ch 0 false .kern)
    refine h.quiet (.sched c) rfl (fun y hy => .inl (hj.other y hy)) (fun _ _ _ => id) (fun lk hlk => ?_) ?_
      (by rw [hcode]; rfl) fun p => .refl _
    · rw [hj.code] at hlk
      simp [Pc.klocks, After.klocks] at hlk
    · rw [hj.code]
      rfl
  | _ => cases hs

theorem Wake.step {e : Event} (hinv : Inv s) (h : Wake g s) (hs : step g s e = some s') : Wake g s' := by
  cases e with simp only [Procs.step] at hs
  | sched c => exact h.stepSched hinv hs
  | irq c =>
    split at hs
    · next i hp =>
        cases hs
        exact h.idles (c := c) rfl (fun _ _ _ => id) (fun c' hc => by simp [hc]) (by simp [State.code])
          (by simp [State.code, hp]) fun _ => unaffected rfl
    · cases hs
  | irqRet c =>
    split at hs
    · next i hp =>
        cases hs
        exact h.idles (c := c) rfl (fun _ _ _ => id) (fun c' hc => by simp [hc]) (by simp [State.code])
          (by simp [State.code, hp]) fun _ => unaffected rfl
    · cases hs
  | trap c =>
    split at hs
    · next i hp =>
        obtain ⟨hpc, rfl⟩ := guarded hs
        exact h.stays hpc rfl (fun _ => False.elim)
    · cases hs
  | call c op =>
    split at hs
    · next i hp =>
        obtain ⟨hpc, hs⟩ := ite_none_right_eq_some.mp hs
        exact h.stepCall hpc hs
    · next i hp => exact h.stepIrqCall hp hs
    · cases hs
  | run c ok =>
    split at hs
    · next i hp => exact h.stepRun hinv hp hs
    · next i ch k signal hp =>
        refine h.stepWaking hinv (x := .sched c) (a := .kern) (by simp [State.code, hp]) ?_ (fun t _ => ?_)
          (fun t _ => ?_) hs
        · intro j
          simp
        · exact jump_setCpu t c i _
        · exact jump_setCpu t c i _
    · cases hs
  | wakeFirst c ch =>
    split at hs
    · next i hp =>
        unfold stepWakeFirst at hs
        split at hs
        · next ch' killable hpc =>
            cases hs
            refine h.nears hpc rfl ?_ ((After.going ch' killable).tests_pc ch 0 false).symm
            rintro lk (⟨h', -⟩ | hlk)
            · cases h'
            · exact hlk
        · cases hs
    · cases hs

end

theorem wake_boot (g : Cfg) (cond : Nat → Bool) : Wake g (boot cond) := by
  have hpc : ∀ p, ((boot cond).proc p).pc = .fresh ∧ ((boot cond).proc p).holds = fun _ => false := by
    intro p
    by_cases hp : p = initproc <;> simp [boot, hp, noProc]
  have hcode : ∀ x, (boot cond).code x = .fresh ∨ (boot cond).code x = .kern := by
    intro x
    cases x with
    | proc j => exact .inl (hpc j).1
    | sched c => exact .inr rfl
  have hasleep : ∀ p, ((boot cond).proc p).asleep = none := by
    intro p
    simp only [Proc.asleep, (hpc p).1]
  refine ⟨fun x lk hk => ?_, fun x ch k a hx => ?_, fun p n hn => ?_, fun p n hn => ?_, fun x n k hx => ?_,
    fun p ch b hp => ?_, fun i n _ hi => ?_, fun i j n _ hi => ?_⟩
  · rcases hcode x with hx | hx <;> (rw [hx] at hk; exact hk.elim)
  · rcases hcode x with hx' | hx' <;> (rw [hx'] at hx; cases hx)
  · rw [(hpc p).1] at hn
    cases hn
  · rw [hasleep p] at hn
    cases hn
  · rcases hcode x with hx' | hx' <;> (rw [hx'] at hx; cases hx)
  · rw [(hpc p).1] at hp
    rcases hp with hp | hp <;> cases hp
  · rw [(hpc i).2] at hi
    cases hi
  · rw [(hpc i).2] at hi
    cases hi

theorem Wake.run {g : Cfg} {cond : Nat → Bool} {C : State → Event → Prop} {tr : List Event} {s : State}
    (hrun : Run (Procs.step g) C (boot cond) tr s) : Inv s ∧ Wake g s :=
  hrun.invariant (P := fun s => Inv s ∧ Wake g s) ⟨inv_boot cond, wake_boot g cond⟩
    fun _ _ _ h _ hs => ⟨h.1.step hs, h.2.step h.1 hs⟩

theorem Inv.sleeping {g : Cfg} {s : State} (h : Inv s) (hw : Wake g s) {p : Pid}
    (hst : (s.proc p).state = .sleeping) (hch : (s.proc p).chan = some ch) :
    ∃ b, (s.proc p).pc = .toSched (.sleep ch b) ∨ (s.proc p).pc = .parked (.sleep ch b) := by
  have key : ∀ r, (s.proc p).pc = .toSched r ∨ (s.proc p).pc = .parked r → r.state = .sleeping →
      ∃ b, (s.proc p).pc = .toSched (.sleep ch b) ∨ (s.proc p).pc = .parked (.sleep ch b) := by
    intro r hpc hr
    cases r with
    | sleep ch' b =>
      obtain rfl : ch = ch' := some.inj (hch.symm.trans (hw.chan p ch' b hpc hst))
      exact ⟨b, hpc⟩
    | _ => cases hr
  by_cases hon : ∃ c, (s.cpu c).pos.on = some p
  · obtain ⟨c, ho⟩ := hon
    rcases (h.busy ho).2 with ⟨-, -, hr | ⟨r, hpc, hr⟩⟩ | ⟨-, hr⟩
    · exact absurd (hst.symm.trans hr) (by simp)
    · exact key r (.inr hpc) (hr.symm.trans hst)
    · have hpcst := hr.state.symm.trans hst
      cases hpc : (s.proc p).pc with
      | toSched r =>
        rw [hpc] at hpcst
        simpa only [hpc] using key r (.inl hpc) hpcst
      | _ =>
        rw [hpc] at hpcst
        cases hpcst
  · push Not at hon
    rcases h.rest p hon with ⟨hr, -⟩ | ⟨-, ⟨-, hr | hr⟩ | ⟨r, hpc, hr | ⟨hr, -⟩⟩⟩
    · exact absurd (hst.symm.trans hr) (by simp)
    · exact absurd (hst.symm.trans hr) (by simp)
    · exact absurd (hst.symm.trans hr) (by simp)
    · exact key r (.inr hpc) (hr.symm.trans hst)
    · exact absurd (hst.symm.trans hr) (by simp)

/-- **No wakeup is lost.** In every state of every run: the last test of its condition by a SLEEPING process has
not been followed by a complete `wakeup` of somebody who made the condition true; a sleep lock is held by at most
one process; and while a process sleeps on a free sleep lock, somebody is in `wakeup` on it and has not yet passed
the process. -/
theorem no_lost_wakeup {g : Cfg} {cond : Nat → Bool} {tr : List Event} {s : State}
    (hrun : Run (step g) (fun _ _ => True) (boot cond) tr s) :
    (∀ p n, (s.proc p).state = .sleeping → (s.proc p).chan = some (.obj n) →
      (s.proc p).tested = some n ∧ (s.proc p).woken = false) ∧
    (∀ n, g.sleepLock n = true → ∀ i j, (s.proc i).holds n = true → (s.proc j).holds n = true → i = j) ∧
    ∀ n, g.sleepLock n = true → s.cond n = true → ∀ p, (s.proc p).state = .sleeping →
      (s.proc p).chan = some (.obj n) → ∃ x k, s.code x = .waking (.obj n) k true .kern ∧ k ≤ p := by
  obtain ⟨hinv, h⟩ := Wake.run hrun
  have hasleep : ∀ p n, (s.proc p).state = .sleeping → (s.proc p).chan = some (.obj n) →
      (s.proc p).asleep = some n := by
    intro p n hst hch
    obtain ⟨b, hpc | hpc⟩ := hinv.sleeping h hst hch
    · simp only [Proc.asleep, hpc]
    · simp only [Proc.asleep, hpc, hst, if_true]
  refine ⟨fun p n hst hch => ?_, fun n hsl i j => h.one i j n hsl, fun n hsl hc p hst hch => ?_⟩
  · obtain ⟨h1, h2, -⟩ := h.asleep p n (hasleep p n hst hch)
    exact ⟨h1, h2⟩
  · obtain ⟨-, -, h3⟩ := h.asleep p n (hasleep p n hst hch)
    obtain ⟨x, k, hx, hk⟩ := h3 hc
    obtain ⟨a, ha⟩ := signals_cases hx
    obtain ⟨rfl, -⟩ := h.signal x _ k a ha
    exact ⟨x, k, ha, hk⟩

/-- A sleep lock on channel 0, with its spin lock. -/
def oneLock : Cfg where
  lkOf := id
  sleepLock := fun n => n = 0

/-- The first process takes the sleep lock and forks on CPU 0; its child, on CPU 1, finds the lock taken and goes to
sleep; the first process begins `releasesleep`. -/
def contended : List Event :=
  List.replicate 11 (.sched 0) ++
    [.run 0 true, .call 0 (.lock (.obj 0)), .call 0 (.lockSleep 0), .call 0 (.unlock (.obj 0)), .call 0 .fork] ++
    List.replicate 5 (.run 0 true) ++ List.replicate 13 (.sched 1) ++
    [.run 1 true, .call 1 (.lock (.obj 0)), .call 1 (.sleep 0 false)] ++ List.replicate 4 (.run 1 true) ++
    List.replicate 10 (.sched 1) ++ [.call 0 (.lock (.obj 0)), .call 0 (.unlockSleep 0)]

/-- The child sleeps on a free lock, and a wakeup is under way to it. -/
theorem contended_no_lost_wakeup : ∃ s,
    Run (step oneLock) (fun _ _ => True) (boot fun _ => true) contended s ∧ s.cond 0 = true ∧
      (s.proc 1).state = .sleeping ∧ (s.proc 1).chan = some (.obj 0) ∧ (s.proc 1).woken = false ∧
      ∃ x k, s.code x = .waking (.obj 0) k true .kern ∧ k ≤ 1 := by
  have hend : (exec (step oneLock) (fun _ _ => True) (boot fun _ => true) contended).map
      (fun s => (s.cond 0, (s.proc 1).state, (s.proc 1).chan)) = some (true, .sleeping, some (.obj 0)) := by
    decide +kernel
  obtain ⟨s, hs, hfacts⟩ := map_eq_some_iff.mp hend
  simp only [Prod.mk.injEq] at hfacts
  obtain ⟨hc, hst, hch⟩ := hfacts
  have hrun := run_of_exec hs
  obtain ⟨h1, -, h3⟩ := no_lost_wakeup hrun
  exact ⟨s, hrun, hc, hst, hch, (h1 1 0 hst hch).2, h3 0 rfl hc 1 hst hch⟩

end Xv6Armv8.Procs
