import Xv6Armv8.LogDurable

/-! The invariant of the log and of the processes that use it: the two counters of `struct log`
follow the processes, at most one process is in `commit`, and the commit has come as far as its
place in the code says. Reading and recycling buffers do not disturb it. -/

namespace Xv6Armv8.Log

variable {c : Cfg}

/-! ### The invariant of a machine that is up -/

def Pc.InCommit : Pc → Prop
  | .writeLog _ | .writeHead | .install _ | .clearHead | .committed => True
  | _ => False

/-- How `log.outstanding` and `log.committing` follow the processes. -/
structure Sync (s : State) : Prop where
  running : ∃ F : Finset Pid, (∀ p, p ∈ F ↔ s.pc p = .running) ∧ F.card = s.outstanding
  one : ∀ p q, (s.pc p).InCommit → (s.pc q).InCommit → p = q
  idle : s.committing = false → ∀ p, ¬(s.pc p).InCommit
  quiet : s.committing = true → s.outstanding = 0

/-- The blocks of the header stay in the cache until they are installed. -/
def Logged (s : State) : Prop := ∀ b ∈ s.lh, (s.cache b).isSome ∧ s.pin b ≠ 0

/-- The group that is being committed, as far as `pending` describes it. -/
def Pend (c : Cfg) (s : State) : Prop :=
  ∀ b, c.IsHome b → s.pending b = if b ∈ s.lh then s.data b else s.image b

/-- Log block `i` holds `d`, on the disk and in the cache. -/
def LogCopy (c : Cfg) (s : State) (i : Nat) (d : Block) : Prop :=
  s.disk (c.start + i + 1) = d ∧ s.data (c.start + i + 1) = d

/-- How far the commit has come. -/
def Phase (c : Cfg) (s : State) : Pc → Prop
  | .writeLog tail =>
    tail < s.lh.length ∧ getHead (s.disk c.start) = [] ∧ Logged s ∧ Pend c s ∧
      ∀ i, i < tail → LogCopy c s i (s.pending (s.lh.getD i 0))
  | .writeHead =>
    0 < s.lh.length ∧ getHead (s.disk c.start) = [] ∧ Logged s ∧ Pend c s ∧
      ∀ i, i < s.lh.length → LogCopy c s i (s.pending (s.lh.getD i 0))
  | .install tail =>
    tail < s.lh.length ∧ getHead (s.disk c.start) = s.lh ∧
      (∀ i, i < s.lh.length → s.data (c.start + i + 1) = s.disk (c.start + i + 1)) ∧
      ∀ i, i < tail → s.disk (s.lh.getD i 0) = s.image (s.lh.getD i 0)
  | .clearHead =>
    getHead (s.disk c.start) = s.lh ∧ ∀ i, i < s.lh.length → s.disk (s.lh.getD i 0) = s.image (s.lh.getD i 0)
  | .committed => getHead (s.disk c.start) = [] ∧ s.lh = []
  | _ => True

structure Up (c : Cfg) (s : State) : Prop extends Sync s where
  lhHome : ∀ b ∈ s.lh, c.IsHome b ∧ b < 2 ^ 32
  lhRoom : s.lh.length < c.size
  lhSmall : s.lh.length ≤ logSize
  held : ∀ b p, s.holder b = some p → (s.cache b).isSome ∧ b < 2 ^ 32
  open_ : s.committing = false → getHead (s.disk c.start) = [] ∧ Logged s
  phase : ∀ p, Phase c s (s.pc p)

/-- How far `recover_from_log` has come. -/
structure Recovering (c : Cfg) (s : State) (tail : Nat) : Prop where
  lh : s.lh = getHead (s.disk c.start)
  cache : ∀ b, s.data b = s.disk b
  done : ∀ i, i < tail → s.disk (s.lh.getD i 0) = s.image (s.lh.getD i 0)
  fresh : s.pc = (fun _ => .idle) ∧ s.holder = (fun _ => none) ∧ s.outstanding = 0 ∧ s.committing = false

def ModeInv (c : Cfg) (s : State) : Mode → Prop
  | .down => s.cache = (fun _ => none) ∧ s.pc = (fun _ => .idle) ∧ s.holder = (fun _ => none) ∧
      s.outstanding = 0 ∧ s.committing = false
  | .recovering tail => tail ≤ s.lh.length ∧ Recovering c s tail
  | .up => Up c s
  | .panicked _ => True

structure Inv (c : Cfg) (s : State) : Prop where
  durable : Durable c s.disk s.image
  mode : ModeInv c s s.mode

/-! ### Buffers -/

variable {s s' : State}

theorem data_bread (s : State) (b x : Nat) : (s.bread b).data x = s.data x := by
  by_cases hx : x = b
  · subst hx
    simp [State.data, State.bread]
  · simp [State.data, State.bread, hx]

theorem data_bwrite (s : State) (b : Nat) (d : Block) (x : Nat) :
    (s.bwrite b d).data x = if x = b then d else s.data x := by
  by_cases hx : x = b
  · subst hx
    simp [State.data, State.bwrite]
  · simp [State.data, State.bwrite, hx]

theorem isSome_bread {b x : Nat} (h : (s.cache x).isSome) : ((s.bread b).cache x).isSome := by
  by_cases hx : x = b
  · subst hx
    simp [State.bread]
  · simpa [State.bread, hx] using h

theorem isSome_bwrite {b x : Nat} {d : Block} (h : (s.cache x).isSome) : ((s.bwrite b d).cache x).isSome := by
  by_cases hx : x = b
  · subst hx
    simp [State.bwrite]
  · simpa [State.bwrite, hx] using h

/-! ### Processes and the two counters -/

theorem Sync.congr (h : Sync s) (hpc : s'.pc = s.pc) (ho : s'.outstanding = s.outstanding)
    (hc : s'.committing = s.committing) : Sync s' := by
  obtain ⟨hrun, hone, hidle, hquiet⟩ := h
  refine ⟨?_, ?_, ?_, ?_⟩
  · rw [hpc, ho]
    exact hrun
  · rw [hpc]
    exact hone
  · rw [hpc, hc]
    exact hidle
  · rw [hc, ho]
    exact hquiet

theorem Sync.setPc (h : Sync s) {p : Pid} {x : Pc} (hp : s.pc p ≠ .running) (hx : x ≠ .running)
    (hxc : x.InCommit → (s.pc p).InCommit) : Sync (s.setPc p x) := by
  obtain ⟨⟨F, hF, hcard⟩, hone, hidle, hquiet⟩ := h
  have hin : ∀ q, ((s.setPc p x).pc q).InCommit → (s.pc q).InCommit := by
    intro q hq
    by_cases hqp : q = p
    · subst hqp
      exact hxc (by simpa [State.setPc] using hq)
    · simpa [State.setPc, hqp] using hq
  refine ⟨⟨F, ?_, hcard⟩, ?_, ?_, hquiet⟩
  · intro q
    rw [hF]
    by_cases hqp : q = p
    · subst hqp
      simp [State.setPc, hp, hx]
    · simp [State.setPc, hqp]
  · intro q r hq hr
    exact hone q r (hin q hq) (hin r hr)
  · intro hc q hq
    exact hidle hc q (hin q hq)

theorem pc_wakeup (s : State) (p : Pid) :
    s.wakeup.pc p = if s.pc p = .sleeping then .beginning else s.pc p := rfl

theorem Sync.wakeup (h : Sync s) : Sync s.wakeup := by
  obtain ⟨⟨F, hF, hcard⟩, hone, hidle, hquiet⟩ := h
  have hin : ∀ q, (s.wakeup.pc q).InCommit → (s.pc q).InCommit := by
    intro q hq
    rw [pc_wakeup] at hq
    split at hq
    · exact absurd hq id
    · exact hq
  refine ⟨⟨F, ?_, hcard⟩, ?_, ?_, hquiet⟩
  · intro q
    rw [hF, pc_wakeup]
    split
    · next hq => simp [hq]
    · rfl
  · intro q r hq hr
    exact hone q r (hin q hq) (hin r hr)
  · intro hc q hq
    exact hidle hc q (hin q hq)

theorem Sync.not_committing (h : Sync s) {p : Pid} (hp : s.pc p = .running) :
    s.committing = false ∧ 1 ≤ s.outstanding := by
  obtain ⟨F, hF, hcard⟩ := h.running
  have hpos : 0 < F.card := Finset.card_pos.mpr ⟨p, (hF p).mpr hp⟩
  refine ⟨?_, by omega⟩
  by_contra hc
  have := h.quiet (by simpa using hc)
  omega

theorem Sync.committing_of_inCommit (h : Sync s) {p : Pid} (hp : (s.pc p).InCommit) :
    s.committing = true := by
  by_contra hc
  exact h.idle (by simpa using hc) p hp

theorem Sync.enter (h : Sync s) {p : Pid} (hp : s.pc p = .beginning) (hc : s.committing = false) :
    Sync { s.setPc p .running with outstanding := s.outstanding + 1 } := by
  obtain ⟨F, hF, hcard⟩ := h.running
  have hpF : p ∉ F := by simp [hF, hp]
  have hin : ∀ q, ((s.setPc p .running).pc q).InCommit → False := by
    intro q hq
    by_cases hqp : q = p
    · subst hqp
      simp [State.setPc, Pc.InCommit] at hq
    · exact h.idle hc q (by simpa [State.setPc, hqp] using hq)
  refine ⟨⟨insert p F, ?_, ?_⟩, ?_, ?_, ?_⟩
  · intro q
    by_cases hqp : q = p
    · subst hqp
      simp [State.setPc]
    · simp [State.setPc, hqp, hF]
  · simp [Finset.card_insert_of_notMem hpF, hcard]
  · intro q r hq _
    exact (hin q hq).elim
  · intro _ q hq
    exact hin q hq
  · intro hc'
    have : s.committing = true := hc'
    simp [hc] at this

theorem Sync.leave (h : Sync s) {p : Pid} {x : Pc} {k : Bool} (hp : s.pc p = .running)
    (hx : x ≠ .running) (hcom : k = true → s.outstanding - 1 = 0)
    (hxc : x.InCommit → k = true) :
    Sync { s.setPc p x with outstanding := s.outstanding - 1, committing := k } := by
  obtain ⟨F, hF, hcard⟩ := h.running
  obtain ⟨hcf, -⟩ := h.not_committing hp
  have hpF : p ∈ F := (hF p).mpr hp
  have hother : ∀ q, q ≠ p → ¬((s.setPc p x).pc q).InCommit := by
    intro q hqp hq
    exact h.idle hcf q (by simpa [State.setPc, hqp] using hq)
  refine ⟨⟨F.erase p, ?_, ?_⟩, ?_, ?_, hcom⟩
  · intro q
    by_cases hqp : q = p
    · subst hqp
      simp [State.setPc, hx]
    · simp [State.setPc, hqp, hF]
  · show (F.erase p).card = s.outstanding - 1
    rw [Finset.card_erase_of_mem hpF, hcard]
  · intro q r hq hr
    by_cases hqp : q = p
    · by_cases hrp : r = p
      · rw [hqp, hrp]
      · exact (hother r hrp hr).elim
    · exact (hother q hqp hq).elim
  · intro hc q hq
    by_cases hqp : q = p
    · subst hqp
      have := hxc (by simpa [State.setPc] using hq)
      have hc' : k = false := hc
      simp [this] at hc'
    · exact hother q hqp hq

/-- The committer is the only process in `commit`, so that nobody is there when it leaves. -/
theorem Sync.finish (h : Sync s) {p : Pid} (hp : s.pc p = .committed) : Sync (finish s p) := by
  have hin : (s.pc p).InCommit := by simp [hp, Pc.InCommit]
  have hsync := (h.setPc (p := p) (x := .idle) (by simp [hp]) (by simp) (fun h => h.elim)).wakeup
  refine ⟨hsync.running, hsync.one, fun _ q hq => ?_, fun hc => by simp [Log.finish] at hc⟩
  have hq' : ((s.setPc p .idle).wakeup.pc q).InCommit := hq
  rw [pc_wakeup] at hq'
  by_cases hqp : q = p
  · subst hqp
    simp [State.setPc, Pc.InCommit] at hq'
  · simp only [State.setPc, Function.update_of_ne hqp] at hq'
    split at hq'
    · exact hq'
    · exact hqp (h.one q p hq' hin)

end Xv6Armv8.Log
