import Xv6Armv8.ProcCases
import Xv6Armv8.ProcSleep

/-! Parents and children. Only the process itself becomes a parent, in `fork`, apart from the first process, to
which `exit` gives the children of a process that leaves; so a process that has gone through the whole table in
`exit` has no children any more, whoever runs beside it. `wait` and `exit` exclude each other by `wait_lock`, so
that the first process does not get a child at a place its scan has passed. -/

namespace Xv6Armv8.Procs

open Function (update_of_ne update_self)

open Intr (Procstate nproc)

structure Family (s : State) : Prop where
  alive : ∀ j q, (s.proc j).parent = some q → isAlive (s.proc q).state = true
  child : ∀ j, j ≠ initproc → isAlive (s.proc j).state = true ∨ (s.proc j).state = .zombie → (s.proc j).parent ≠ none
  init : isAlive (s.proc initproc).state = true
  clear : ∀ i j, (s.proc i).pc.clear j → (s.proc j).parent ≠ some i
  leaves : ∀ i, (s.proc i).pc.leaves = true → i ≠ initproc
  start : ∀ i k, (s.proc i).pc = .forkStart k → (s.proc k).parent = some i
  lt : ∀ j q, (s.proc j).parent = some q → j < nproc

/-- What a step that is of no concern to the family keeps of a process. -/
structure Kin (p p' : Proc) : Prop where
  parent : p'.parent = p.parent
  alive : isAlive p'.state = isAlive p.state
  zombie : p'.state = .zombie ↔ p.state = .zombie
  clear : ∀ j, p'.pc.clear j → p.pc.clear j
  leaves : p'.pc.leaves = true → p.pc.leaves = true
  start : ∀ k, p'.pc = .forkStart k → p.pc = .forkStart k

section

variable {g : Cfg} {s s' : State} {c : Cid} {i k : Pid} {p p' : Proc}

theorem Minor.kin (h : Minor p p') : Kin p p' := ⟨h.parent, h.alive, h.zombie, h.clear, h.leaves, h.start⟩

theorem Family.same (h : Family s) (hkin : ∀ p, Kin (s.proc p) (s'.proc p)) : Family s' where
  alive := fun j q hj => by
    rw [(hkin q).alive]
    rw [(hkin j).parent] at hj
    exact h.alive j q hj
  child := fun j hj hst => by
    rw [(hkin j).alive, (hkin j).zombie] at hst
    rw [(hkin j).parent]
    exact h.child j hj hst
  init := by
    rw [(hkin initproc).alive]
    exact h.init
  clear := fun i j hc => by
    rw [(hkin j).parent]
    exact h.clear i j ((hkin i).clear j hc)
  leaves := fun i hl => h.leaves i ((hkin i).leaves hl)
  start := fun i k hk => by
    rw [(hkin k).parent]
    exact h.start i k ((hkin i).start k hk)
  lt := fun j q hj => by
    rw [(hkin j).parent] at hj
    exact h.lt j q hj

/-- A step in which the thread of `i` moves and the process `k` may get another parent or another state. -/
structure Turn (s s' : State) (i k : Pid) : Prop where
  place : ∀ p, p ≠ i → (s'.proc p).pc = (s.proc p).pc
  parent : ∀ p, p ≠ k → (s'.proc p).parent = (s.proc p).parent
  state : ∀ p, p ≠ k → (s'.proc p).state = (s.proc p).state

theorem Family.turn (h : Family s) (ht : Turn s s' i k)
    (hparent : ∀ q, (s'.proc k).parent = some q → isAlive (s'.proc q).state = true ∧ k < nproc)
    (hstate : isAlive (s'.proc k).state = true ∨ ∀ j, (s'.proc j).parent ≠ some k)
    (hchild : isAlive (s'.proc k).state = true ∨ (s'.proc k).state = .zombie → k ≠ initproc →
      (s'.proc k).parent ≠ none)
    (hinit : isAlive (s'.proc k).state = true ∨ k ≠ initproc)
    (hclear : ∀ j, j ≠ i → (s.proc j).pc.clear k → (s'.proc k).parent ≠ some j)
    (hstart : ∀ j, j ≠ i → (s.proc j).pc = .forkStart k → (s'.proc k).parent = some j)
    (hclear' : ∀ j, (s'.proc i).pc.clear j → (s'.proc j).parent ≠ some i)
    (hleaves' : (s'.proc i).pc.leaves = true → i ≠ initproc)
    (hstart' : ∀ j, (s'.proc i).pc = .forkStart j → (s'.proc j).parent = some i) : Family s' where
  alive := fun j q hj => by
    by_cases hjk : j = k
    · subst hjk
      exact (hparent q hj).1
    · by_cases hqk : q = k
      · subst hqk
        exact hstate.resolve_right fun hno => hno j hj
      · rw [ht.state q hqk]
        rw [ht.parent j hjk] at hj
        exact h.alive j q hj
  child := fun j hj hst => by
    by_cases hjk : j = k
    · subst hjk
      exact hchild hst hj
    · rw [ht.state j hjk] at hst
      rw [ht.parent j hjk]
      exact h.child j hj hst
  init := by
    by_cases hk : initproc = k
    · subst hk
      exact hinit.resolve_right fun hne => hne rfl
    · rw [ht.state _ hk]
      exact h.init
  clear := fun l j hc => by
    by_cases hl : l = i
    · subst hl
      exact hclear' j hc
    · rw [ht.place l hl] at hc
      by_cases hjk : j = k
      · subst hjk
        exact hclear l hl hc
      · rw [ht.parent j hjk]
        exact h.clear l j hc
  leaves := fun l hl => by
    by_cases hli : l = i
    · subst hli
      exact hleaves' hl
    · rw [ht.place l hli] at hl
      exact h.leaves l hl
  start := fun l j hj => by
    by_cases hl : l = i
    · subst hl
      exact hstart' j hj
    · rw [ht.place l hl] at hj
      by_cases hjk : j = k
      · subst hjk
        exact hstart l hl hj
      · rw [ht.parent j hjk]
        exact h.start l j hj
  lt := fun j q hj => by
    by_cases hjk : j = k
    · subst hjk
      exact (hparent q hj).2
    · rw [ht.parent j hjk] at hj
      exact h.lt j q hj

theorem Family.goes (h : Family s) {q : Pc} (hpc : (s'.proc i).pc = q)
    (hother : ∀ p, (s'.proc p).parent = (s.proc p).parent ∧ (s'.proc p).state = (s.proc p).state)
    (hplace : ∀ p, p ≠ i → (s'.proc p).pc = (s.proc p).pc)
    (hclear : ∀ j, q.clear j → (s.proc j).parent ≠ some i) (hleaves : q.leaves = true → i ≠ initproc)
    (hstart : ∀ k, q ≠ .forkStart k) : Family s' := by
  refine h.turn (k := i) ⟨hplace, fun p _ => (hother p).1, fun p _ => (hother p).2⟩ (fun q hq => ?_) ?_ ?_ ?_
    (fun j _ hj => ?_) (fun j _ hj => ?_) (fun j hj => ?_) (fun hl => ?_) fun j hj => ?_
  · rw [(hother i).1] at hq
    rw [(hother q).2]
    exact ⟨h.alive i q hq, h.lt i q hq⟩
  · by_cases ha : isAlive (s.proc i).state = true
    · exact .inl (by rw [(hother i).2]; exact ha)
    · refine .inr fun j hj => ha ?_
      rw [(hother j).1] at hj
      exact h.alive j i hj
  · rw [(hother i).2, (hother i).1]
    exact fun hst hi => h.child i hi hst
  · by_cases hi : i = initproc
    · subst hi
      exact .inl (by rw [(hother _).2]; exact h.init)
    · exact .inr hi
  · rw [(hother i).1]
    exact h.clear j i hj
  · rw [(hother i).1]
    exact h.start j i hj
  · rw [(hother j).1]
    exact hclear j (hpc ▸ hj)
  · exact hleaves (hpc ▸ hl)
  · exact absurd (hpc ▸ hj) (hstart j)

theorem setPc_view (s : State) (i : Pid) (q : Pc) (p : Pid) :
    ((s.setPc i q).proc p).parent = (s.proc p).parent ∧ ((s.setPc i q).proc p).state = (s.proc p).state := by
  by_cases hp : p = i
  · subst hp
    simp
  · simp [hp]

theorem waitRet_view (s : State) (i : Pid) (r : Ret) (p : Pid) :
    ((s.waitRet i r).proc p).parent = (s.proc p).parent ∧ ((s.waitRet i r).proc p).state = (s.proc p).state := by
  unfold State.waitRet
  by_cases hp : p = i
  · subst hp
    simp
  · simp [hp]

theorem turn_setPc (f : Proc → Proc) (hf : ∀ p, (f p).pc = p.pc) (q : Pc) : Turn s ((s.upd k f).setPc i q) i k where
  place := fun p hp => by
    by_cases hk : p = k
    · subst hk
      simp [hp, hf]
    · simp [hp, hk]
  parent := fun p hp => by rw [(setPc_view _ i q p).1, upd_proc, update_of_ne hp]
  state := fun p hp => by rw [(setPc_view _ i q p).2, upd_proc, update_of_ne hp]

theorem Inv.one_maker (h : Inv s) {j : Pid} (hi : (s.proc i).pc.child = some k) (hj : (s.proc j).pc.child = some k) :
    i = j := by
  have hruns : ∀ q : Pc, q.child = some k → q.runs = true := by
    intro q hq
    cases q <;> first | rfl | cases hq
  obtain ⟨c, hc⟩ := h.inProc_of_runs (hruns _ hi)
  obtain ⟨c', hc'⟩ := h.inProc_of_runs (hruns _ hj)
  exact h.maker c c' i j k hc hc' hi hj

theorem Family.childless (h : Family s) (hk : isAlive (s.proc k).state = false) (j : Pid) :
    (s.proc j).parent ≠ some k := by
  intro hj
  rw [h.alive j k hj] at hk
  cases hk

theorem Family.free (h : Family s) (ht : Turn s s' i k) (hk : isAlive (s.proc k).state = false)
    (hparent : (s'.proc k).parent = none) (hstate : (s'.proc k).state = .unused)
    (hnone : ∀ j, j ≠ i → (s.proc j).pc ≠ .forkStart k) (hpc : (s'.proc i).pc = .kern) : Family s' := by
  have hini : k ≠ initproc := by
    rintro rfl
    rw [h.init] at hk
    cases hk
  refine h.turn ht (fun q hq => ?_) (.inr fun j hj => ?_) (fun hst => ?_) (.inr hini) (fun j _ _ => ?_)
    (fun j hj hstart => absurd hstart (hnone j hj)) (fun j hj => ?_) (fun hl => ?_) fun j hj => ?_
  · rw [hparent] at hq
    cases hq
  · by_cases hjk : j = k
    · subst hjk
      rw [hparent] at hj
      cases hj
    · rw [ht.parent j hjk] at hj
      exact h.childless hk j hj
  · rw [hstate] at hst
    rcases hst with hst | hst <;> cases hst
  · rw [hparent]
    exact nofun
  · rw [hpc] at hj
    exact hj.elim
  · rw [hpc] at hl
    cases hl
  · rw [hpc] at hj
    cases hj

theorem Family.kill (h : Family s) : Family ((s.upd k Proc.kill).setPc i .kern) := by
  have hview : ∀ p, Kin (s.proc p) ((s.upd k Proc.kill).proc p) := by
    intro p
    by_cases hp : p = k
    · subst hp
      rw [upd_proc, update_self]
      refine ⟨rfl, ?_, ?_, fun _ => id, id, fun _ => id⟩
      · unfold Proc.kill
        by_cases hst : (s.proc p).state = .sleeping <;> simp [hst, isAlive]
      · unfold Proc.kill
        by_cases hst : (s.proc p).state = .sleeping <;> simp [hst]
    · rw [upd_proc, update_of_ne hp]
      exact (Minor.refl _).kin
  exact (h.same hview).goes (i := i) (q := .kern) (by simp) (setPc_view _ i .kern) (fun p hp => by simp [hp])
    (fun _ => False.elim) (by simp [Pc.leaves]) (by simp)

theorem Family.adopt (hinv : Inv s) (h : Family s) (hp : (s.cpu c).pos = .inProc i)
    (hpc : (s.proc i).pc = .forkParent k) :
    Family ((s.upd k fun p => { p with parent := some i }).setPc i (.forkStart k)) := by
  have hst : (s.proc i).state = .running := (hinv.runs hp).2.state.trans (by rw [hpc]; rfl)
  have hused : (s.proc k).state = .used := hinv.child c i k hp (by rw [hpc]; rfl)
  have hik : i ≠ k := by
    rintro rfl
    rw [hst] at hused
    cases hused
  have hstate : ∀ p, (((s.upd k fun p => { p with parent := some i }).setPc i (.forkStart k)).proc p).state =
      (s.proc p).state := by
    intro p
    rw [(setPc_view _ i _ p).2]
    by_cases hpk : p = k
    · subst hpk
      simp
    · simp [hpk]
  have hparent : (((s.upd k fun p => { p with parent := some i }).setPc i (.forkStart k)).proc k).parent = some i := by
    rw [(setPc_view _ i _ k).1]
    simp
  have hdead : isAlive (s.proc k).state = false := by rw [hused]; rfl
  have hturn := turn_setPc (s := s) (i := i) (k := k) (fun p => { p with parent := some i }) (fun _ => rfl)
    (.forkStart k)
  refine h.turn hturn (fun q hq => ?_) (.inr fun j hj => ?_) ?_ (.inr ?_) (fun j hj _ => ?_)
    (fun j hj hstart => ?_) (fun j hj => ?_) (fun hl => ?_) fun j hj => ?_
  · obtain rfl : i = q := Option.some.inj (hparent.symm.trans hq)
    rw [hstate, hst]
    exact ⟨rfl, hinv.used k (by simp [hused])⟩
  · by_cases hjk : j = k
    · subst hjk
      exact hik (Option.some.inj (hparent.symm.trans hj))
    · rw [hturn.parent j hjk] at hj
      exact h.childless hdead j hj
  · rw [hparent]
    exact nofun
  · rintro rfl
    rw [h.init] at hdead
    cases hdead
  · rw [hparent]
    exact fun e => hj (Option.some.inj e).symm
  · exact absurd (hinv.one_maker (i := i) (j := j) (by rw [hpc]; rfl) (by rw [hstart]; rfl)).symm hj
  · simp [Pc.clear] at hj
  · simp [Pc.leaves] at hl
  · obtain rfl : k = j := by simpa using hj
    exact hparent

theorem Family.starts (hinv : Inv s) (h : Family s) (hp : (s.cpu c).pos = .inProc i)
    (hpc : (s.proc i).pc = .forkStart k) :
    Family ((s.upd k fun p => { p with state := .runnable }).setPc i .kern) := by
  have hparent : ∀ p, (((s.upd k fun p => { p with state := .runnable }).setPc i .kern).proc p).parent =
      (s.proc p).parent := by
    intro p
    rw [(setPc_view _ i _ p).1]
    by_cases hpk : p = k
    · subst hpk
      simp
    · simp [hpk]
  have hstate : (((s.upd k fun p => { p with state := .runnable }).setPc i .kern).proc k).state = .runnable := by
    rw [(setPc_view _ i _ k).2]
    simp
  have hki := h.start i k hpc
  have hused : (s.proc k).state = .used := hinv.child c i k hp (by rw [hpc]; rfl)
  have hturn := turn_setPc (s := s) (i := i) (k := k) (fun p => { p with state := .runnable }) (fun _ => rfl) .kern
  refine h.turn hturn (fun q hq => ?_) (.inl (by rw [hstate]; rfl)) (fun _ _ => ?_)
    (.inl (by rw [hstate]; rfl)) (fun j _ hj => ?_) (fun j _ hj => ?_) (fun j hj => ?_) (fun hl => ?_) fun j hj => ?_
  · rw [hparent] at hq
    refine ⟨?_, h.lt k q hq⟩
    have hqk : q ≠ k := by
      rintro rfl
      have := h.alive q q hq
      rw [hused] at this
      cases this
    rw [hturn.state q hqk]
    exact h.alive k q hq
  · rw [hparent, hki]
    exact nofun
  · rw [hparent]
    exact h.clear j k hj
  · rw [hparent]
    exact h.start j k hj
  · simp [Pc.clear] at hj
  · simp [Pc.leaves] at hl
  · simp at hj

theorem Family.reparents (hw : Wake g s) (h : Family s) {status : Int} (hpc : (s.proc i).pc = .exiting status k)
    (hk : (s.proc k).parent = some i) :
    Family ((s.upd k fun p => { p with parent := some initproc }).setPc i
      (.waking (.proc initproc) 0 false (.exiting status (k + 1)))) := by
  have hi : i ≠ initproc := h.leaves i (by rw [hpc]; rfl)
  have hwait : s.klock .wait = some (.proc i) := hw.held (.proc i) .wait (by rw [code_proc, hpc]; rfl)
  have hini : ∀ j, ¬(s.proc initproc).pc.clear j := by
    intro j hj
    have hleaves := fun hl => h.leaves initproc hl rfl
    have hno : ¬(s.proc initproc).pc.klocks g .wait := fun hlk =>
      hi (Holder.proc.inj (Option.some.inj (hwait.symm.trans (hw.held (.proc initproc) .wait hlk))))
    unfold Pc.clear at hj
    split at hj
    · next hq => exact hno (by rw [hq]; rfl)
    · next hq => exact hleaves (by rw [hq]; rfl)
    · next hq => exact hleaves (by rw [hq]; rfl)
    · next hq => exact hleaves (by rw [hq]; rfl)
    · next hq => exact hleaves (by rw [hq]; rfl)
    · exact hj
  have hstate : ∀ p, (((s.upd k fun p => { p with parent := some initproc }).setPc i
      (.waking (.proc initproc) 0 false (.exiting status (k + 1)))).proc p).state = (s.proc p).state := by
    intro p
    rw [(setPc_view _ i _ p).2]
    by_cases hpk : p = k
    · subst hpk
      simp
    · simp [hpk]
  have hparent : (((s.upd k fun p => { p with parent := some initproc }).setPc i
      (.waking (.proc initproc) 0 false (.exiting status (k + 1)))).proc k).parent = some initproc := by
    rw [(setPc_view _ i _ k).1]
    simp
  have hturn := turn_setPc (s := s) (i := i) (k := k) (fun p => { p with parent := some initproc }) (fun _ => rfl)
    (.waking (.proc initproc) 0 false (.exiting status (k + 1)))
  refine h.turn hturn (fun q hq => ?_) ?_ ?_ ?_ (fun j hj hc => ?_) (fun j hj hstart => ?_) (fun j hj => ?_) (fun _ => hi)
    fun j hj => ?_
  · obtain rfl : initproc = q := Option.some.inj (hparent.symm.trans hq)
    rw [hstate]
    exact ⟨h.init, h.lt k i hk⟩
  · by_cases ha : isAlive (s.proc k).state = true
    · exact .inl (by rw [hstate]; exact ha)
    · refine .inr fun j hj => ?_
      by_cases hjk : j = k
      · subst hjk
        obtain rfl : initproc = j := Option.some.inj (hparent.symm.trans hj)
        exact ha h.init
      · rw [hturn.parent j hjk] at hj
        exact ha (h.alive j k hj)
  · rw [hparent]
    exact nofun
  · by_cases hki : k = initproc
    · subst hki
      exact .inl (by rw [hstate]; exact h.init)
    · exact .inr hki
  · rw [hparent]
    rintro e
    obtain rfl : initproc = j := Option.some.inj e
    exact hini k hc
  · have := h.start j k hstart
    rw [hk] at this
    exact absurd (Option.some.inj this).symm hj
  · simp [Pc.clear] at hj
    by_cases hjk : j = k
    · subst hjk
      rw [hparent]
      exact fun e => hi (Option.some.inj e).symm
    · rw [hturn.parent j hjk]
      exact h.clear i j (by rw [hpc]; exact lt_of_le_of_ne hj hjk)
  · simp at hj

theorem Family.step {e : Event} (hinv : Inv s) (hw : Wake g s) (h : Family s) (hs : step g s e = some s') :
    Family s' := by
  rcases step_outcome hinv hs with hminor | ⟨i, hp, hv⟩
  · exact h.same fun p => (hminor p).kin
  cases hv with subst hs
  | kill pid k hpc hlock hpid hs =>
    exact h.kill
  | discard k hpc hs =>
    have hused : (s.proc k).state = .used := hinv.child _ i k hp (by rw [hpc]; rfl)
    have hview := setPc_view ((s.upd k Proc.free).setLock k none) i .kern k
    refine h.free (i := i) (k := k) ⟨?_, ?_, ?_⟩ (by rw [hused]; rfl) (by rw [hview.1]; simp [Proc.free])
      (by rw [hview.2]; simp [Proc.free]) (fun j hj hstart => ?_) (by simp)
    · exact (turn_setPc Proc.free (fun _ => rfl) .kern).place
    · exact (turn_setPc Proc.free (fun _ => rfl) .kern).parent
    · exact (turn_setPc Proc.free (fun _ => rfl) .kern).state
    · exact hj (hinv.one_maker (k := k) (by rw [hstart]; rfl) (by rw [hpc]; rfl))
  | adopt k hpc hs =>
    exact h.adopt hinv hp hpc
  | start k hpc hs =>
    exact h.starts hinv hp hpc
  | skip k hpc hk hs =>
    refine h.goes (i := i) (q := .waiting (k + 1) false) (by simp) (setPc_view s i _) (fun p hp => by simp [hp])
      (fun j hj => ?_) (by simp [Pc.leaves]) (by simp)
    rcases Nat.lt_succ_iff_lt_or_eq.mp hj with hj | rfl
    · exact h.clear i j (by rw [hpc]; exact hj)
    · exact hk
  | childless k hpc hk hs | interrupted hpc hkilled hs | fault k kids hpc hk hz hs =>
    exact h.goes (i := i) (q := .kern) (by simp [State.waitRet]) (waitRet_view s i _)
      (fun p hp => by simp [State.waitRet, hp]) (fun _ => False.elim) (by simp [Pc.leaves]) (by simp)
  | reap k kids hpc hlock hk hz hs =>
    have hview := waitRet_view (s.upd k Proc.free) i (.child (s.proc k).pid (s.proc k).xstate)
    refine h.free (i := i) (k := k) ⟨?_, ?_, ?_⟩ (by rw [hz]; rfl) (by rw [(hview k).1]; simp [Proc.free])
      (by rw [(hview k).2]; simp [Proc.free]) (fun j hj hstart => ?_) (by simp [State.waitRet])
    · intro p hp
      by_cases hpk : p = k
      · subst hpk
        simp [State.waitRet, hp, Proc.free]
      · simp [State.waitRet, hp, hpk]
    · intro p hp
      rw [(hview p).1, upd_proc, update_of_ne hp]
    · intro p hp
      rw [(hview p).2, upd_proc, update_of_ne hp]
    · have hj' := h.start j k hstart
      rw [hk] at hj'
      exact hj (Option.some.inj hj').symm
  | exit status hpc hi hs =>
    exact h.goes (i := i) (q := .exiting status 0) (by simp) (setPc_view s i _) (fun p hp => by simp [hp])
      (fun j hj => absurd hj (Nat.not_lt_zero j)) (fun _ => hi) (by simp)
  | pass status k hpc hk hs =>
    refine h.goes (i := i) (q := .exiting status (k + 1)) (by simp) (setPc_view s i _) (fun p hp => by simp [hp])
      (fun j hj => ?_) (fun _ => h.leaves i (by rw [hpc]; rfl)) (by simp)
    rcases Nat.lt_succ_iff_lt_or_eq.mp hj with hj | rfl
    · exact h.clear i j (by rw [hpc]; exact hj)
    · exact hk
  | reparent status k hpc hk hs =>
    exact h.reparents hw hpc hk
  | alone status k q hpc hk hq hs =>
    refine h.goes (i := i) (q := q) (by simp) (setPc_view s i _) (fun p hp => by simp [hp])
      (fun j _ hj => ?_) (fun _ => h.leaves i (by rw [hpc]; rfl)) ?_
    · exact h.clear i j (by rw [hpc]; exact Nat.lt_of_lt_of_le (h.lt j i hj) hk) hj
    · rcases hq with rfl | ⟨j, rfl⟩ <;> simp
  | zombie c status hpc hs =>
    have hi : i ≠ initproc := h.leaves i (by rw [hpc]; rfl)
    have hnone : ∀ j, (s.proc j).parent ≠ some i := fun j => h.clear i j (by rw [hpc]; trivial)
    have hrun : (s.proc i).state = .running := (hinv.runs hp).2.state.trans (by rw [hpc]; rfl)
    refine h.turn (i := i) (k := i) ⟨fun p hp => by simp [hp], fun p hp => by simp [hp], fun p hp => by simp [hp]⟩
      (fun q hq => ?_) (.inr fun j hj => ?_) (fun _ _ => ?_) (.inr hi) (fun j hj hc => ?_) (fun j hj hstart => ?_)
      (fun j hj => ?_) (fun hl => ?_) fun j hj => ?_
    · simp only [setLock_proc, upd_proc, update_self] at hq ⊢
      have hqi : q ≠ i := fun e => hnone i (e ▸ hq)
      rw [update_of_ne hqi]
      exact ⟨h.alive i q hq, h.lt i q hq⟩
    · by_cases hji : j = i
      · subst hji
        simp only [setLock_proc, upd_proc, update_self] at hj
        exact hnone j hj
      · simp only [setLock_proc, upd_proc, update_of_ne hji] at hj
        exact hnone j hj
    · simp only [setLock_proc, upd_proc, update_self]
      exact h.child i hi (.inl (by rw [hrun]; rfl))
    · simp only [setLock_proc, upd_proc, update_self]
      exact h.clear j i hc
    · simp only [setLock_proc, upd_proc, update_self]
      exact h.start j i hstart
    · simp [Pc.clear] at hj
    · simp [Pc.leaves] at hl
    · simp at hj

/-! ### What a step does to a ZOMBIE, and what `wait` returns -/

/-- In this step, a call of `wait` by the process `i` returns `r`. -/
def Returns (s s' : State) (i : Pid) (r : Ret) : Prop := (s'.proc i).rets = r :: (s.proc i).rets

structure Lifecycle (s s' : State) : Prop where
  zombie : ∀ p, (s.proc p).state = .zombie →
    (s'.proc p).state = .zombie ∧ (s'.proc p).pid = (s.proc p).pid ∧ (s'.proc p).xstate = (s.proc p).xstate ∨
      ∃ i, (s.proc p).parent = some i ∧ (s'.proc p).state = .unused ∧
        Returns s s' i (.child (s.proc p).pid (s.proc p).xstate)
  child : ∀ i pid x, Returns s s' i (.child pid x) →
    (∃! p, (s.proc p).state = .zombie ∧ (s'.proc p).state ≠ .zombie) ∧
      ∃ p, (s.proc p).state = .zombie ∧ (s'.proc p).state = .unused ∧ (s.proc p).parent = some i ∧
        (s.proc p).pid = pid ∧ (s.proc p).xstate = x
  failed : ∀ i, Returns s s' i .failed → (∀ j, (s.proc j).parent ≠ some i) ∨ (s.proc i).killed = true ∨
      ∃ p, (s.proc p).parent = some i ∧ (s.proc p).state = .zombie ∧ (s'.proc p).state = .zombie
  freed : ∀ p, (s.proc p).state ≠ .unused → (s'.proc p).state = .unused → ∀ c, (s.cpu c).pos.on ≠ some p

/-- A change of a process that is neither freed nor returns from `wait`. -/
structure Mild (p p' : Proc) : Prop where
  zombie : p.state = .zombie → p'.state = .zombie ∧ p'.pid = p.pid ∧ p'.xstate = p.xstate
  rets : p'.rets = p.rets ∨ p'.rets = []
  unused : p'.state = .unused → p.state = .unused

theorem Mild.not_returns (h : Mild (s.proc i) (s'.proc i)) (r : Ret) : ¬Returns s s' i r := by
  unfold Returns
  rcases h.rets with h | h <;> simp [h]

theorem Minor.mild (h : Minor p p') : Mild p p' :=
  ⟨fun hz => ⟨h.zombie.mpr hz, h.ids hz⟩, h.rets, h.unused⟩

theorem Mild.same (hst : p'.state = p.state) (hpid : p'.pid = p.pid) (hx : p'.xstate = p.xstate)
    (hr : p'.rets = p.rets) : Mild p p' :=
  ⟨fun hz => ⟨hst.trans hz, hpid, hx⟩, .inl hr, fun hu => hst ▸ hu⟩

theorem Mild.refl (p : Proc) : Mild p p := .same rfl rfl rfl rfl

theorem Mild.kill (p : Proc) : Mild p p.kill := by
  unfold Proc.kill
  refine ⟨fun hz => ?_, .inl rfl, fun hu => ?_⟩
  · simp [hz]
  · by_cases hst : p.state = .sleeping
    · simp [hst] at hu
    · simpa [hst] using hu

theorem lifecycle_of_mild (h : ∀ p, Mild (s.proc p) (s'.proc p)) : Lifecycle s s' where
  zombie := fun p hz => .inl ((h p).zombie hz)
  child := fun i _ _ hr => absurd hr ((h i).not_returns _)
  failed := fun i hr => absurd hr ((h i).not_returns _)
  freed := fun p hu hu' => absurd ((h p).unused hu') hu

theorem mild_setPc (f : Proc → Proc) (hf : Mild (s.proc k) (f (s.proc k))) (q : Pc) (p : Pid) :
    Mild (s.proc p) (((s.upd k f).setPc i q).proc p) := by
  have hupd : Mild (s.proc p) ((s.upd k f).proc p) := by
    by_cases hk : p = k
    · subst hk
      rwa [upd_proc, update_self]
    · rw [upd_proc, update_of_ne hk]
      exact .refl _
  by_cases hp : p = i
  · subst hp
    rw [setPc_proc, update_self]
    exact ⟨hupd.zombie, hupd.rets, hupd.unused⟩
  · rw [setPc_proc, update_of_ne hp]
    exact hupd

theorem mild_goes (q : Pc) (hproc : s'.proc = (s.setPc i q).proc) : Lifecycle s s' := by
  refine lifecycle_of_mild fun p => ?_
  rw [hproc]
  by_cases hp : p = i
  · subst hp
    rw [setPc_proc, update_self]
    exact .same rfl rfl rfl rfl
  · rw [setPc_proc, update_of_ne hp]
    exact .refl _

theorem lifecycle_failed (hreason : (∀ j, (s.proc j).parent ≠ some i) ∨ (s.proc i).killed = true ∨
      ∃ p, (s.proc p).parent = some i ∧ (s.proc p).state = .zombie) : Lifecycle s (s.waitRet i .failed) := by
  have hview := waitRet_view s i .failed
  have hids : ∀ p, ((s.waitRet i .failed).proc p).pid = (s.proc p).pid ∧
      ((s.waitRet i .failed).proc p).xstate = (s.proc p).xstate := by
    intro p
    unfold State.waitRet
    by_cases hp : p = i
    · subst hp
      simp
    · simp [hp]
  have hrets : ∀ p r, Returns s (s.waitRet i .failed) p r → p = i ∧ r = .failed := by
    intro p r hr
    unfold Returns State.waitRet at hr
    by_cases hp : p = i
    · subst hp
      simp only [upd_proc, update_self, setKlock_proc, List.cons.injEq, and_true] at hr
      exact ⟨rfl, hr.symm⟩
    · simp [hp] at hr
  refine ⟨fun p hz => .inl ⟨(hview p).2.trans hz, hids p⟩, fun j pid x hr => ?_, fun j hr => ?_, fun p hu hu' => ?_⟩
  · cases (hrets j _ hr).2
  · obtain ⟨rfl, -⟩ := hrets j _ hr
    rcases hreason with h1 | h2 | ⟨p, h3, h4⟩
    · exact .inl h1
    · exact .inr (.inl h2)
    · exact .inr (.inr ⟨p, h3, h4, (hview p).2.trans h4⟩)
  · exact absurd ((hview p).2 ▸ hu') hu

theorem lifecycle_reap (hinv : Inv s) (hlock : s.lock k = none) (hk : (s.proc k).parent = some i)
    (hz : (s.proc k).state = .zombie) (hik : i ≠ k) :
    Lifecycle s ((s.upd k Proc.free).waitRet i (.child (s.proc k).pid (s.proc k).xstate)) := by
  have hfree : ((s.upd k Proc.free).waitRet i (.child (s.proc k).pid (s.proc k).xstate)).proc k =
      (s.proc k).free := by
    simp [State.waitRet, hik.symm]
  have hself : ((s.upd k Proc.free).waitRet i (.child (s.proc k).pid (s.proc k).xstate)).proc i =
      { s.proc i with pc := .kern, rets := .child (s.proc k).pid (s.proc k).xstate :: (s.proc i).rets } := by
    simp [State.waitRet, hik]
  have hother : ∀ p, p ≠ k → p ≠ i →
      ((s.upd k Proc.free).waitRet i (.child (s.proc k).pid (s.proc k).xstate)).proc p = s.proc p := by
    intro p h1 h2
    simp [State.waitRet, h1, h2]
  have hret : Returns s ((s.upd k Proc.free).waitRet i (.child (s.proc k).pid (s.proc k).xstate)) i
      (.child (s.proc k).pid (s.proc k).xstate) := by
    unfold Returns
    rw [hself]
  have hone : ∀ p, p ≠ k → (s.proc p).state = .zombie →
      (((s.upd k Proc.free).waitRet i (.child (s.proc k).pid (s.proc k).xstate)).proc p).state = .zombie ∧
      (((s.upd k Proc.free).waitRet i (.child (s.proc k).pid (s.proc k).xstate)).proc p).pid = (s.proc p).pid ∧
      (((s.upd k Proc.free).waitRet i (.child (s.proc k).pid (s.proc k).xstate)).proc p).xstate =
        (s.proc p).xstate := by
    intro p hpk hp
    by_cases hpi : p = i
    · subst hpi
      rw [hself]
      exact ⟨hp, rfl, rfl⟩
    · rw [hother p hpk hpi]
      exact ⟨hp, rfl, rfl⟩
  have hrets : ∀ p r, Returns s ((s.upd k Proc.free).waitRet i (.child (s.proc k).pid (s.proc k).xstate)) p r →
      p = i ∧ r = .child (s.proc k).pid (s.proc k).xstate := by
    intro p r hr
    unfold Returns at hr
    by_cases hpi : p = i
    · subst hpi
      rw [hself] at hr
      simp only [List.cons.injEq, and_true] at hr
      exact ⟨rfl, hr.symm⟩
    · by_cases hpk : p = k
      · subst hpk
        rw [hfree] at hr
        simp [Proc.free] at hr
      · rw [hother p hpk hpi] at hr
        simp at hr
  refine ⟨fun p hp => ?_, fun j pid x hr => ?_, fun j hr => ?_, fun p hu hu' => ?_⟩
  · by_cases hpk : p = k
    · subst hpk
      exact .inr ⟨i, hk, by rw [hfree]; rfl, hret⟩
    · exact .inl (hone p hpk hp)
  · obtain ⟨rfl, he⟩ := hrets j _ hr
    cases he
    refine ⟨⟨k, ⟨hz, by rw [hfree]; simp [Proc.free]⟩, fun p hp => ?_⟩, k, hz, by rw [hfree]; rfl, hk, rfl, rfl⟩
    by_contra hpk
    exact hp.2 (hone p hpk hp.1).1
  · cases (hrets j _ hr).2
  · by_cases hpk : p = k
    · subst hpk
      exact hinv.off_of_free hlock (by simp [hz])
    · by_cases hpi : p = i
      · subst hpi
        rw [hself] at hu'
        exact absurd hu' hu
      · rw [hother p hpk hpi] at hu'
        exact absurd hu' hu

theorem lifecycle_discard (hinv : Inv s) (hp : (s.cpu c).pos = .inProc i) (hpc : (s.proc i).pc = .forkCopy k) :
    Lifecycle s (((s.upd k Proc.free).setLock k none).setPc i .kern) := by
  have hused : (s.proc k).state = .used := hinv.child c i k hp (by rw [hpc]; rfl)
  have hmild : ∀ p, p ≠ k → Mild (s.proc p) ((((s.upd k Proc.free).setLock k none).setPc i .kern).proc p) := by
    intro p hpk
    by_cases hpi : p = i
    · subst hpi
      exact .same (by simp [hpk]) (by simp [hpk]) (by simp [hpk]) (by simp [hpk])
    · rw [setPc_proc, update_of_ne hpi, setLock_proc, upd_proc, update_of_ne hpk]
      exact .refl _
  have hk : ((((s.upd k Proc.free).setLock k none).setPc i .kern).proc k).rets = (s.proc k).rets := by
    by_cases hki : k = i
    · subst hki
      simp [Proc.free]
    · simp [hki, Proc.free]
  have hret : ∀ p r, ¬Returns s (((s.upd k Proc.free).setLock k none).setPc i .kern) p r := by
    intro p r
    by_cases hpk : p = k
    · subst hpk
      unfold Returns
      rw [hk]
      simp
    · exact (hmild p hpk).not_returns r
  refine ⟨fun p hz => .inl ?_, fun j pid x hr => absurd hr (hret j _), fun j hr => absurd hr (hret j _),
    fun p hu hu' c' ho => ?_⟩
  · have hpk : p ≠ k := by
      rintro rfl
      rw [hused] at hz
      cases hz
    exact (hmild p hpk).zombie hz
  · by_cases hpk : p = k
    · subst hpk
      exact (hinv.on_state ho).2 hused
    · exact hu ((hmild p hpk).unused hu')

theorem Family.lifecycle {e : Event} (hinv : Inv s) (h : Family s) (hs : Procs.step g s e = some s') :
    Lifecycle s s' := by
  rcases step_outcome hinv hs with hminor | ⟨i, hp, hv⟩
  · exact lifecycle_of_mild fun p => (hminor p).mild
  cases hv with subst hs
  | kill pid k hpc hlock hpid hs =>
    exact lifecycle_of_mild (mild_setPc _ (.kill _) _)
  | discard k hpc hs =>
    exact lifecycle_discard hinv hp hpc
  | adopt k hpc hs | reparent status k hpc hk hs =>
    exact lifecycle_of_mild (mild_setPc _ (.same rfl rfl rfl rfl) _)
  | start k hpc hs =>
    have hused : (s.proc k).state = .used := hinv.child _ i k hp (by rw [hpc]; rfl)
    have hmild : Mild (s.proc k) { s.proc k with state := .runnable } := by
      refine ⟨fun hz => ?_, .inl rfl, nofun⟩
      rw [hused] at hz
      cases hz
    exact lifecycle_of_mild (mild_setPc (fun p => { p with state := .runnable }) hmild _)
  | skip k hpc hk hs | exit status hpc hi hs | pass status k hpc hk hs | alone status k q hpc hk hq hs =>
    exact mild_goes _ rfl
  | childless k hpc hk hs =>
    refine lifecycle_failed (.inl fun j hj => ?_)
    exact h.clear i j (by rw [hpc]; exact Nat.lt_of_lt_of_le (h.lt j i hj) hk) hj
  | interrupted hpc hkilled hs =>
    exact lifecycle_failed (.inr (.inl hkilled))
  | fault k kids hpc hk hz hs =>
    exact lifecycle_failed (.inr (.inr ⟨k, hk, hz⟩))
  | reap k kids hpc hlock hk hz hs =>
    refine lifecycle_reap hinv hlock hk hz ?_
    rintro rfl
    have hst := (hinv.runs hp).2.state.trans (by rw [hpc]; rfl : (s.proc i).pc.state = .running)
    rw [hz] at hst
    cases hst
  | zombie c status hpc hs =>
    have hst : (s.proc i).state = .running := (hinv.runs hp).2.state.trans (by rw [hpc]; rfl)
    refine lifecycle_of_mild fun p => ?_
    by_cases hpi : p = i
    · subst hpi
      rw [setLock_proc, upd_proc, update_self]
      refine ⟨fun hz => ?_, .inl rfl, nofun⟩
      rw [hst] at hz
      cases hz
    · rw [setLock_proc, upd_proc, update_of_ne hpi]
      exact .refl _

end

theorem family_boot (cond : Nat → Bool) : Family (boot cond) := by
  have hpar : ∀ p, ((boot cond).proc p).parent = none ∧ ((boot cond).proc p).pc = .fresh := by
    intro p
    by_cases hp : p = initproc <;> simp [boot, hp, noProc]
  refine ⟨fun j q hj => ?_, fun j hj hst => ?_, ?_, fun i j hc => ?_, fun i hl => ?_, fun i k hk => ?_, fun j q hj => ?_⟩
  · rw [(hpar j).1] at hj
    cases hj
  · simp [boot, hj, noProc, isAlive] at hst
  · simp [boot, isAlive]
  · rw [(hpar i).2] at hc
    exact hc.elim
  · rw [(hpar i).2] at hl
    cases hl
  · rw [(hpar i).2] at hk
    cases hk
  · rw [(hpar j).1] at hj
    cases hj

/-- The first process forks on CPU 0, its child leaves on CPU 1 with status 7, and the first process looks for it. -/
def childLeaves : List Event :=
  List.replicate 11 (.sched 0) ++ [.run 0 true, .call 0 .fork] ++ List.replicate 5 (.run 0 true) ++
    List.replicate 13 (.sched 1) ++ [.run 1 true, .call 1 (.exit 7)] ++ List.replicate 133 (.run 1 true) ++
    List.replicate 10 (.sched 1) ++ [.call 0 .wait, .run 0 true]

end Xv6Armv8.Procs
