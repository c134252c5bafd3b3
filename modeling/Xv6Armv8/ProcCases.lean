import Xv6Armv8.ProcInv

/-! What a step does to parents, children and kills. Most steps are minor: they concern neither the family of a
process nor its being killed. The others are listed, with what the process that takes them has seen before. -/

namespace Xv6Armv8.Procs

open Function Option StepRun

open Intr (Procstate nproc)

/-! ### Minor changes -/

/-- RUNNABLE, RUNNING or SLEEPING. -/
def isAlive : Procstate → Bool
  | .sleeping | .runnable | .running => true
  | _ => false

/-- The processes that a thread has seen not to be its children. -/
def Pc.clear : Pc → Pid → Prop
  | .waiting k false, j | .exiting _ k, j | .waking _ _ _ (.exiting _ k), j => j < k
  | .exitLock _, _ | .waking _ _ _ (.exitLock _), _ => True
  | _, _ => False

/-- In `exit`, before the process is a ZOMBIE. -/
def Pc.leaves : Pc → Bool
  | .exiting _ _ | .exitLock _ | .waking _ _ _ (.exiting _ _) | .waking _ _ _ (.exitLock _) => true
  | _ => false

/-- A killable wait between its test of `killed` and `acquire(&p->lock)` in `sleep`. -/
def Pc.window : Pc → Bool
  | .going _ true | .waking _ _ _ (.going _ true) => true
  | _ => false

/-- A killable wait behind its test of `killed`, until the process is woken. -/
def Proc.deaf (p : Proc) : Bool :=
  match p.pc with
  | .commit _ true | .committed _ true | .toSched (.sleep _ true) => true
  | .parked (.sleep _ true) => p.state = .sleeping
  | q => q.window

/-- A change of a process that concerns neither its family nor its being killed. -/
structure Minor (p p' : Proc) : Prop where
  parent : p'.parent = p.parent
  killed : p'.killed = p.killed
  alive : isAlive p'.state = isAlive p.state
  zombie : p'.state = .zombie ↔ p.state = .zombie
  unused : p'.state = .unused → p.state = .unused
  pid : p'.state = .unused → p'.pid = p.pid
  ids : p.state = .zombie → p'.pid = p.pid ∧ p'.xstate = p.xstate
  rets : p'.rets = p.rets ∨ p'.rets = []
  clear : ∀ j, p'.pc.clear j → p.pc.clear j
  leaves : p'.pc.leaves = true → p.pc.leaves = true
  start : ∀ k, p'.pc = .forkStart k → p.pc = .forkStart k
  deaf : p'.deaf = true → p.deaf = true ∨ p.killed = false

/-- A place that has to do with no child. -/
def Pc.light : Pc → Bool
  | .waiting k false => k = 0
  | .exiting _ _ | .exitLock _ | .waking _ _ _ (.exiting _ _) | .waking _ _ _ (.exitLock _) | .forkStart _ => false
  | _ => true

/-- A place of a killable wait behind the test. -/
def Pc.late : Pc → Bool
  | .going _ true | .commit _ true | .committed _ true | .toSched (.sleep _ true) | .parked (.sleep _ true)
  | .waking _ _ _ (.going _ true) => true
  | _ => false

theorem Pc.light_facts {q : Pc} (h : q.light = true) :
    (∀ j, ¬q.clear j) ∧ q.leaves = false ∧ ∀ k, q ≠ .forkStart k := by
  refine ⟨fun j hj => ?_, ?_, ?_⟩
  · unfold Pc.clear at hj
    split at hj <;> simp_all [Pc.light]
  · unfold Pc.leaves
    split <;> simp_all [Pc.light]
  · rintro k rfl
    cases h

theorem Proc.deaf_eq_false {p : Proc} (h : p.pc.late = false) : p.deaf = false := by
  unfold Proc.deaf
  split <;> simp_all [Pc.late]
  unfold Pc.window
  split <;> simp_all

section

variable {g : Cfg} {s s' : State} {c : Cid} {i k : Pid} {p p' : Proc}

theorem Minor.refl (p : Proc) : Minor p p :=
  ⟨rfl, rfl, rfl, Iff.rfl, id, fun _ => rfl, fun _ => ⟨rfl, rfl⟩, .inl rfl, fun _ => id, id, fun _ => id, .inl⟩

section

variable (h : p' = { p with pc := p'.pc, chan := p'.chan, saved := p'.saved, holds := p'.holds, tested := p'.tested, woken := p'.woken })
include h

theorem Minor.along
    (hclear : ∀ j, p'.pc.clear j → p.pc.clear j) (hleaves : p'.pc.leaves = true → p.pc.leaves = true)
    (hstart : ∀ k, p'.pc = .forkStart k → p.pc = .forkStart k)
    (hdeaf : p'.deaf = true → p.deaf = true ∨ p.killed = false) : Minor p p' where
  parent := by rw [h]
  killed := by rw [h]
  alive := by rw [h]
  zombie := by rw [h]
  unused := by rw [h]; exact id
  pid := by rw [h]; exact fun _ => rfl
  ids := by rw [h]; exact fun _ => ⟨rfl, rfl⟩
  rets := by rw [h]; exact .inl rfl
  clear := hclear
  leaves := hleaves
  start := hstart
  deaf := hdeaf

theorem Minor.near
    (hq : p'.pc.light = true) (hdeaf : p'.deaf = true → p.deaf = true ∨ p.killed = false) : Minor p p' := by
  obtain ⟨h1, h2, h3⟩ := Pc.light_facts hq
  refine .along h (fun j hj => absurd hj (h1 j)) (fun hl => ?_) (fun k hk => absurd hk (h3 k)) hdeaf
  rw [h2] at hl
  cases hl

theorem Minor.goto
    (hq : p'.pc.light = true) (hl : p'.pc.late = false) : Minor p p' := by
  refine .near h hq fun hd => ?_
  rw [Proc.deaf_eq_false hl] at hd
  cases hd

end

section

variable (h : p' = { p with state := p'.state, pc := p'.pc, chan := p'.chan, saved := p'.saved }) (hp : isAlive p.state = true) (hp' : isAlive p'.state = true)
include h hp hp'

theorem Minor.lives
    (hclear : ∀ j, p'.pc.clear j → p.pc.clear j) (hleaves : p'.pc.leaves = true → p.pc.leaves = true)
    (hstart : ∀ k, p'.pc = .forkStart k → p.pc = .forkStart k) (hdeaf : p'.deaf = true → p.deaf = true) :
    Minor p p' where
  parent := by rw [h]
  killed := by rw [h]
  alive := by rw [hp, hp']
  zombie := ⟨fun e => absurd hp' (by simp [e, isAlive]), fun e => absurd hp (by simp [e, isAlive])⟩
  unused := fun e => absurd hp' (by simp [e, isAlive])
  pid := fun e => absurd hp' (by simp [e, isAlive])
  ids := fun e => absurd hp (by simp [e, isAlive])
  rets := by rw [h]; exact .inl rfl
  clear := hclear
  leaves := hleaves
  start := hstart
  deaf := fun hd => .inl (hdeaf hd)

theorem Minor.lives_near (hq : p'.pc.light = true)
    (hdeaf : p'.deaf = true → p.deaf = true) : Minor p p' := by
  obtain ⟨h1, h2, h3⟩ := Pc.light_facts hq
  refine .lives h hp hp' (fun j hj => absurd hj (h1 j)) (fun hl => ?_) (fun k hk => absurd hk (h3 k)) hdeaf
  rw [h2] at hl
  cases hl

end

theorem Minor.wake (p : Proc) (ch : Chan) : Minor p (p.wake ch) := by
  rcases p.wake_cases ch with heq | ⟨hsl, -, heq⟩
  · rw [heq]
    exact .refl p
  · rw [heq]
    refine .lives rfl (by rw [hsl]; rfl) rfl (fun _ => id) id (fun _ => id) fun hd => ?_
    unfold Proc.deaf at hd ⊢
    split at hd <;> simp_all

theorem Minor.alloc (hp : p.state = .unused) (pid : Nat) : Minor p (p.alloc pid) where
  parent := rfl
  killed := rfl
  alive := by rw [hp]; rfl
  zombie := by simp [Proc.alloc, hp]
  unused := nofun
  pid := nofun
  ids := fun e => by simp [hp] at e
  rets := .inr rfl
  clear := fun _ => False.elim
  leaves := nofun
  start := nofun
  deaf := nofun

theorem minor_update (hproc : s'.proc = update s.proc i p') (hi : Minor (s.proc i) p') (p : Pid) :
    Minor (s.proc p) (s'.proc p) := by
  rw [hproc]
  by_cases hp : p = i
  · subst hp
    rwa [update_self]
  · rw [update_of_ne hp]
    exact .refl _

theorem minor_setPc {q : Pc} (hq : q.light = true) (hl : q.late = false) (hproc : s'.proc = (s.setPc i q).proc)
    (p : Pid) : Minor (s.proc p) (s'.proc p) :=
  minor_update hproc (.goto rfl hq hl) p

/-! ### The other steps -/

/-- The steps of the process `i` that concern families and kills. -/
inductive Vital (s : State) (i : Pid) (s' : State) : Prop
  | kill (pid : Nat) (k : Pid) (hpc : (s.proc i).pc = .killing pid k) (hlock : s.lock k = none)
      (hpid : (s.proc k).pid = pid) (hs : s' = (s.upd k Proc.kill).setPc i .kern)
  | discard (k : Pid) (hpc : (s.proc i).pc = .forkCopy k)
      (hs : s' = ((s.upd k Proc.free).setLock k none).setPc i .kern)
  | adopt (k : Pid) (hpc : (s.proc i).pc = .forkParent k)
      (hs : s' = (s.upd k fun p => { p with parent := some i }).setPc i (.forkStart k))
  | start (k : Pid) (hpc : (s.proc i).pc = .forkStart k)
      (hs : s' = (s.upd k fun p => { p with state := .runnable }).setPc i .kern)
  | skip (k : Pid) (hpc : (s.proc i).pc = .waiting k false) (hk : (s.proc k).parent ≠ some i)
      (hs : s' = s.setPc i (.waiting (k + 1) false))
  | childless (k : Pid) (hpc : (s.proc i).pc = .waiting k false) (hk : nproc ≤ k) (hs : s' = s.waitRet i .failed)
  | interrupted (hpc : (s.proc i).pc = .waitCheck) (hkilled : (s.proc i).killed = true)
      (hs : s' = s.waitRet i .failed)
  | fault (k : Pid) (kids : Bool) (hpc : (s.proc i).pc = .waiting k kids) (hk : (s.proc k).parent = some i)
      (hz : (s.proc k).state = .zombie) (hs : s' = s.waitRet i .failed)
  | reap (k : Pid) (kids : Bool) (hpc : (s.proc i).pc = .waiting k kids) (hlock : s.lock k = none)
      (hk : (s.proc k).parent = some i) (hz : (s.proc k).state = .zombie)
      (hs : s' = (s.upd k Proc.free).waitRet i (.child (s.proc k).pid (s.proc k).xstate))
  | exit (status : Int) (hpc : (s.proc i).pc = .kern) (hi : i ≠ initproc)
      (hs : s' = (s.setKlock .wait (some (.proc i))).setPc i (.exiting status 0))
  | pass (status : Int) (k : Pid) (hpc : (s.proc i).pc = .exiting status k) (hk : (s.proc k).parent ≠ some i)
      (hs : s' = s.setPc i (.exiting status (k + 1)))
  | reparent (status : Int) (k : Pid) (hpc : (s.proc i).pc = .exiting status k) (hk : (s.proc k).parent = some i)
      (hs : s' = (s.upd k fun p => { p with parent := some initproc }).setPc i
        (.waking (.proc initproc) 0 false (.exiting status (k + 1))))
  | alone (status : Int) (k : Pid) (q : Pc) (hpc : (s.proc i).pc = .exiting status k) (hk : nproc ≤ k)
      (hq : q = .exitLock status ∨ ∃ j, q = .waking (.proc j) 0 false (.exitLock status)) (hs : s' = s.setPc i q)
  | zombie (c : Cid) (status : Int) (hpc : (s.proc i).pc = .exitLock status)
      (hs : s' = (s.upd i fun p => { p with state := .zombie, xstate := status, pc := .exitRel }).setLock i (some c))

/-- A step is minor for every process, or one of the others. -/
def Outcome (s : State) (i : Pid) (s' : State) : Prop := (∀ p, Minor (s.proc p) (s'.proc p)) ∨ Vital s i s'

theorem stepCall_outcome {op : Op} (hinv : Inv s) (hp : (s.cpu c).pos = .inProc i) (hpc : (s.proc i).pc = .kern)
    (hs : stepCall g s c i op = some s') : Outcome s i s' := by
  have hst : (s.proc i).state = .running := (hinv.runs hp).2.state.trans (by rw [hpc]; rfl)
  cases op with
  | ret | kill pid | fork | wakeup ch =>
    cases hs
    exact .inl (minor_setPc rfl rfl rfl)
  | lock lk | unlock lk | clear n =>
    obtain ⟨-, rfl⟩ := guarded hs
    exact .inl fun p => .refl _
  | signal n | wait =>
    obtain ⟨-, rfl⟩ := guarded hs
    exact .inl (minor_setPc rfl rfl rfl)
  | sleep n killable =>
    obtain ⟨-, rfl⟩ := guarded hs
    refine .inl (minor_update rfl (.goto rfl ?_ ?_)) <;> (cases killable <;> rfl)
  | lockSleep n =>
    obtain ⟨-, rfl⟩ := guarded hs
    exact .inl (minor_update rfl (.goto rfl (by simp [hpc, Pc.light]) (by simp [hpc, Pc.late])))
  | unlockSleep n =>
    obtain ⟨-, rfl⟩ := guarded hs
    exact .inl (minor_update rfl (.goto rfl rfl rfl))
  | yield =>
    obtain ⟨-, hs⟩ := ite_none_right_eq_some.mp hs
    rw [if_neg (not_not.mpr hst)] at hs
    cases hs
    refine .inl (minor_update rfl (.lives_near rfl (by rw [hst]; rfl) rfl rfl fun hd => ?_))
    cases hd
  | exit status =>
    obtain ⟨⟨-, hi⟩, rfl⟩ := guarded hs
    exact .inr (.exit status hpc hi rfl)

theorem stepChild_outcome {ok kids : Bool} (hpc : (s.proc i).pc = .waiting k kids)
    (hk : (s.proc k).parent = some i) (hs : stepChild s i k ok = some s') : Outcome s i s' := by
  unfold stepChild at hs
  obtain ⟨hlock, hs⟩ := ite_none_right_eq_some.mp hs
  split_ifs at hs with hz
  · cases hs
    exact .inr (.reap k kids hpc hlock hk hz rfl)
  · cases hs
    exact .inr (.fault k kids hpc hk hz rfl)
  · cases hs
    exact .inl (minor_setPc rfl rfl rfl)

theorem stepWaking_outcome {ch : Chan} {signal : Bool} {a : After} (hpc : (s.proc i).pc = .waking ch k signal a)
    (hs : stepWaking s (some i) ch k signal (fun s => s.setPc i (.waking ch (k + 1) signal a))
      (fun s => s.setPc i a.pc) = some s') (p : Pid) : Minor (s.proc p) (s'.proc p) := by
  -- the thread itself, at the place where it goes on
  have hself : ∀ p' : Proc, p' = { s.proc i with pc := p'.pc, woken := p'.woken } →
      p'.pc = .waking ch (k + 1) signal a ∨ p'.pc = a.pc → Minor (s.proc i) p' := by
    intro p' h hq
    refine .along (h.trans (by rw [h])) (fun j hj => ?_) (fun hl => ?_) (fun l hl => ?_) fun hd => .inl ?_
    · rw [hpc]
      rcases hq with hq | hq <;> (rw [hq] at hj; cases a <;> exact hj)
    · rw [hpc]
      rcases hq with hq | hq <;> (rw [hq] at hl; cases a <;> first | rfl | cases hl)
    · rcases hq with hq | hq <;> (rw [hq] at hl; cases a <;> cases hl)
    · unfold Proc.deaf at hd ⊢
      rw [hpc]
      rcases hq with hq | hq
      · rw [hq] at hd
        cases a with
        | going ch' killable => cases killable <;> exact hd
        | _ => exact hd
      · rw [hq] at hd
        cases a with
        | going ch' killable => cases killable <;> first | rfl | cases hd
        | _ => cases hd
  have hnext : ∀ t : State, t.proc i = s.proc i → (∀ j, j ≠ i → Minor (s.proc j) (t.proc j)) →
      Minor (s.proc p) ((t.setPc i (.waking ch (k + 1) signal a)).proc p) := by
    intro t hi hother
    by_cases hp : p = i
    · subst hp
      rw [setPc_proc, update_self, hi]
      exact hself _ rfl (.inl rfl)
    · rw [setPc_proc, update_of_ne hp]
      exact hother p hp
  unfold stepWaking at hs
  split at hs
  · cases hs
    have hw : ∀ j, (if signal then s.signalled ch else s).proc j =
        { s.proc j with woken := ((if signal then s.signalled ch else s).proc j).woken } := by
      intro j
      cases signal
      · rfl
      · simp only [State.signalled, if_true]
        split <;> rfl
    by_cases hp : p = i
    · subst hp
      rw [setPc_proc, update_self, hw p]
      exact hself _ rfl (.inr rfl)
    · rw [setPc_proc, update_of_ne hp, hw p]
      exact .along rfl (fun _ => id) id (fun _ => id) .inl
  split at hs
  · cases hs
    exact hnext s rfl fun j _ => .refl _
  split at hs
  · next hme _ =>
      cases hs
      have hki : i ≠ k := fun e => hme (by rw [e])
      refine hnext _ (by simp [hki]) fun j _ => ?_
      by_cases hj : j = k
      · subst hj
        simpa using Minor.wake (s.proc j) ch
      · simpa [hj] using Minor.refl (s.proc j)
  · cases hs

theorem stepRun_outcome {ok : Bool} (hinv : Inv s) (hp : (s.cpu c).pos = .inProc i)
    (hs : stepRun g s c i ok = some s') : Outcome s i s' := by
  have hst := (hinv.runs hp).2.state
  unfold Procs.stepRun at hs
  cases hpc : (s.proc i).pc with simp only [hpc] at hs
  | fresh | user | kern | parked r => cases hs
  | forkret =>
    cases hs
    exact .inl (minor_setPc rfl rfl rfl)
  | asking ch =>
    obtain ⟨-, hs⟩ := ite_none_right_eq_some.mp hs
    split at hs
    · cases hs
      exact .inl (minor_setPc rfl rfl rfl)
    · next hk =>
        cases hs
        -- the process has just seen that it is not killed
        exact .inl (minor_update rfl (.near rfl rfl fun _ => .inr (by simpa using hk)))
  | going ch killable =>
    obtain ⟨-, rfl⟩ := guarded hs
    refine .inl (minor_update rfl (.near rfl rfl fun hd => .inl ?_))
    cases killable <;> simp_all [Proc.deaf, Pc.window]
  | commit ch killable =>
    cases hs
    refine .inl (minor_update rfl (.near rfl rfl fun hd => .inl ?_))
    cases killable <;> simp_all [Proc.deaf, Pc.window]
  | committed ch killable =>
    cases hs
    rw [hpc] at hst
    refine .inl (minor_update rfl (.lives_near rfl (by rw [hst]; rfl) rfl rfl fun hd => ?_))
    cases killable <;> simp_all [Proc.deaf, Pc.window]
  | toSched r =>
    cases hs
    refine .inl (minor_update rfl (.near rfl rfl fun hd => .inl ?_))
    cases r with
    | sleep ch killable => cases killable <;> simp_all [Proc.deaf, Pc.window]
    | _ => simp [Proc.deaf, Pc.window] at hd
  | resumed r =>
    cases r with
    | yield =>
      cases hs
      exact .inl (minor_setPc rfl rfl rfl)
    | sleep ch killable =>
      cases hs
      exact .inl (minor_update rfl (.goto rfl rfl rfl))
    | exit => cases hs
  | relock ch =>
    obtain ⟨-, rfl⟩ := guarded hs
    refine .inl (minor_setPc ?_ ?_ rfl) <;> (cases ch <;> rfl)
  | waking ch l signal a =>
    exact .inl (stepWaking_outcome hpc hs)
  | killing pid l =>
    split_ifs at hs with h1 h2 h3
    · cases hs
      exact .inl (minor_setPc rfl rfl rfl)
    · cases hs
      exact .inr (.kill pid l hpc h2 h3 rfl)
    · cases hs
      exact .inl (minor_setPc rfl rfl rfl)
  | allocating l =>
    split_ifs at hs with h1 h2 h3
    · cases hs
      exact .inl (minor_setPc rfl rfl rfl)
    · cases hs
      have hil : i ≠ l := by
        rintro rfl
        rw [hpc, h3] at hst
        cases hst
      refine .inl fun p => ?_
      by_cases hpi : p = i
      · subst hpi
        have hgoto : Minor (s.proc p) { s.proc p with pc := .forkCopy l } := .goto rfl rfl rfl
        simpa [hil] using hgoto
      · by_cases hpl : p = l
        · subst hpl
          simpa [hpi] using Minor.alloc h3 s.nextpid
        · simpa [hpi, hpl] using Minor.refl (s.proc p)
    · cases hs
      exact .inl (minor_setPc rfl rfl rfl)
  | forkCopy l =>
    split at hs
    · cases hs
      exact .inl (minor_setPc rfl rfl rfl)
    · cases hs
      exact .inr (.discard l hpc rfl)
  | forkParent l =>
    obtain ⟨-, rfl⟩ := guarded hs
    exact .inr (.adopt l hpc rfl)
  | forkStart l =>
    obtain ⟨-, rfl⟩ := guarded hs
    exact .inr (.start l hpc rfl)
  | waiting l kids =>
    split_ifs at hs with h1 h2 h2
    · cases hs
      exact .inl (minor_setPc rfl rfl rfl)
    · cases hs
      obtain rfl : kids = false := by simpa using h2
      exact .inr (.childless l hpc h1 rfl)
    · exact stepChild_outcome hpc h2 hs
    · cases hs
      cases kids with
      | false => exact .inr (.skip l hpc h2 rfl)
      | true => exact .inl (minor_setPc rfl rfl rfl)
  | waitCheck =>
    obtain ⟨-, hs⟩ := ite_none_right_eq_some.mp hs
    split at hs
    · next hk =>
        cases hs
        exact .inr (.interrupted hpc hk rfl)
    · next hk =>
        cases hs
        exact .inl (minor_update rfl (.near rfl rfl fun _ => .inr (by simpa using hk)))
  | exiting status l =>
    split at hs
    · next h1 =>
        split at hs
        · next j hj =>
            cases hs
            exact .inr (.alone status l _ hpc h1 (.inr ⟨j, rfl⟩) rfl)
        · cases hs
          exact .inr (.alone status l _ hpc h1 (.inl rfl) rfl)
    · split at hs
      · next h2 =>
          cases hs
          exact .inr (.reparent status l hpc h2 rfl)
      · next h2 =>
          cases hs
          exact .inr (.pass status l hpc h2 rfl)
  | exitLock status =>
    obtain ⟨-, rfl⟩ := guarded hs
    exact .inr (.zombie c status hpc rfl)
  | exitRel =>
    cases hs
    exact .inl (minor_setPc rfl rfl rfl)

theorem stepSched_minor (hs : stepSched s c = some s') (p : Pid) : Minor (s.proc p) (s'.proc p) := by
  unfold stepSched at hs
  cases hp : (s.cpu c).pos with simp only [hp] at hs
  | scan i =>
    obtain ⟨-, rfl⟩ := guarded hs
    exact .refl _
  | locked i =>
    split at hs
    · next hst =>
        cases hs
        refine minor_update (i := i) rfl ?_ p
        refine .lives rfl (by rw [hst]; rfl) rfl (fun _ => id) id (fun _ => id) fun hd => ?_
        unfold Proc.deaf at hd ⊢
        split at hd <;> simp_all
    · cases hs
      exact .refl _
  | loading i n =>
    split at hs
    · cases hs
      exact .refl _
    · cases hs
      have hq : (s.proc i).pc.loaded.light = true ∧ (s.proc i).pc.loaded.late = false := by
        cases (s.proc i).pc <;> exact ⟨rfl, rfl⟩
      exact minor_update rfl (.goto rfl hq.1 hq.2) p
  | saving i =>
    split at hs
    · cases hs
      refine minor_update (i := i) rfl ?_ p
      exact .along rfl (fun _ => id) id (fun _ => id) .inl
    · cases hs
      exact .refl _
  | back i =>
    cases hs
    exact .refl _
  | inProc i | irq i q => cases hs

theorem stepWaking_irq_minor {ch : Chan} {signal : Bool} {next done : State → State}
    (hnext : ∀ t : State, (next t).proc = t.proc) (hdone : ∀ t : State, (done t).proc = t.proc)
    (hs : stepWaking s none ch k signal next done = some s') (p : Pid) : Minor (s.proc p) (s'.proc p) := by
  unfold stepWaking at hs
  split_ifs at hs with h1 hsig h2 h3
  · cases hs
    rw [hdone]
    simp only [State.signalled]
    split
    · exact .along rfl (fun _ => id) id (fun _ => id) .inl
    · exact .refl _
  · cases hs
    rw [hdone]
    exact .refl _
  · cases h2
  · cases hs
    exact minor_update (hnext _) (.wake _ ch) p

/-- The CPU that takes the step. -/
def Event.cpu : Event → Cid
  | .sched c | .irq c | .irqRet c | .trap c | .call c _ | .run c _ | .wakeFirst c _ => c

/-- What any step is: minor, or one of the others, taken by a process in its own code. -/
theorem step_outcome {e : Event} (hinv : Inv s) (hs : step g s e = some s') :
    (∀ p, Minor (s.proc p) (s'.proc p)) ∨ ∃ i, (s.cpu e.cpu).pos = .inProc i ∧ Vital s i s' := by
  cases e with simp only [Procs.step] at hs
  | sched c => exact .inl (stepSched_minor hs)
  | irq c | irqRet c =>
    split at hs
    · cases hs
      exact .inl fun p => .refl _
    · cases hs
  | trap c =>
    split at hs
    · obtain ⟨-, rfl⟩ := guarded hs
      exact .inl (minor_setPc rfl rfl rfl)
    · cases hs
  | call c op =>
    split at hs
    · next i hp =>
        obtain ⟨hpc, hs⟩ := ite_none_right_eq_some.mp hs
        exact (stepCall_outcome hinv hp hpc hs).imp id fun h => ⟨i, hp, h⟩
    · next i hp =>
        refine .inl fun p => ?_
        cases op with
        | lock lk | unlock lk | clear n | signal n =>
          obtain ⟨-, rfl⟩ := guarded hs
          exact .refl _
        | wakeup ch =>
          cases hs
          exact .refl _
        | _ => cases hs
    · cases hs
  | run c ok =>
    split at hs
    · next i hp => exact (stepRun_outcome hinv hp hs).imp id fun h => ⟨i, hp, h⟩
    · refine .inl (stepWaking_irq_minor ?_ ?_ hs) <;> exact fun _ => rfl
    · cases hs
  | wakeFirst c ch =>
    split at hs
    · next i hp =>
        unfold stepWakeFirst at hs
        split at hs
        · next ch' killable hpc =>
            cases hs
            refine .inl (minor_update rfl (.near rfl rfl fun hd => .inl ?_))
            cases killable <;> simp_all [Proc.deaf, Pc.window]
        · cases hs
    · cases hs

end

end Xv6Armv8.Procs
