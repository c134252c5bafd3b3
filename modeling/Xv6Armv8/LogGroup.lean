import Xv6Armv8.LogSpace
import Mathlib.Data.Set.Card

/-! The protocol of group commit. Operations and commits exclude each other: the operations between
`begin_op` and `end_op` are counted, the last one to end commits alone, and meanwhile nobody logs a block. A
process that `begin_op` has put to sleep waits either for the commit or for an operation to end, and both
wake it, so that nobody sleeps while the log is idle. -/

namespace Xv6Armv8.Log

open StepRun

variable {c : Cfg} {s s' : State}

/-- The header has no block twice, and those who sleep have somebody to wake them. -/
structure Group (s : State) : Prop extends Space s where
  nodup : s.lh.Nodup
  asleep : ∀ p, s.pc p = .sleeping → s.committing = true ∨ 0 < s.outstanding

/-! ### Who sleeps -/

/-- What a sleeping process has found in the test of `begin_op`. -/
def MustWait (s : State) : Prop :=
  s.committing = true ∨ s.lh.length + (s.outstanding + 1) * maxOpBlocks > logSize

theorem Space.busy_of_mustWait (h : Space s) (hw : MustWait s) : s.committing = true ∨ 0 < s.outstanding := by
  by_contra hidle
  push Not at hidle
  obtain ⟨hcom, hout⟩ := hidle
  have hout' : s.outstanding = 0 := by omega
  have hlh := h.fresh hout' (by simpa using hcom)
  rcases hw with hw | hw
  · exact hcom hw
  · rw [hlh, hout'] at hw
    exact absurd hw (by decide)

theorem not_sleeping_wakeup (s : State) (p : Pid) : s.wakeup.pc p ≠ .sleeping := by
  rw [pc_wakeup]
  split
  · simp
  · assumption

theorem sleeping_setPc {t : State} {p q : Pid} {x : Pc} (hpc : t.pc = s.pc) (hx : x ≠ .sleeping)
    (hq : (t.setPc p x).pc q = .sleeping) : s.pc q = .sleeping := by
  by_cases hqp : q = p
  · subst hqp
    simp only [State.setPc, Function.update_self] at hq
    exact absurd hq hx
  · simp only [State.setPc, Function.update_of_ne hqp, hpc] at hq
    exact hq

theorem sleeping_cases {e : Event} {q : Pid} (hs : stepUp c s e = some s') (hq : s'.pc q = .sleeping) :
    s.pc q = .sleeping ∨ MustWait s := by
  cases e with
  | beginOp p =>
    obtain ⟨-, rfl⟩ := guarded hs
    exact .inl (sleeping_setPc rfl (by simp) hq)
  | beginTest p =>
    obtain ⟨-, rfl⟩ := guarded hs
    by_cases hw : MustWait s
    · exact .inr hw
    · unfold MustWait at hw
      push Not at hw
      rw [beginOp, if_neg (by simpa using hw.1), if_neg (by omega)] at hq
      exact .inl (sleeping_setPc (s := s) rfl (by simp) hq)
  | logWrite p b =>
    obtain ⟨-, rfl⟩ := guarded hs
    rw [logWrite] at hq
    split at hq
    · exact .inl hq
    · split at hq
      · exact .inl hq
      · exact .inl hq
  | endOp p =>
    obtain ⟨-, rfl⟩ := guarded hs
    rw [endOp] at hq
    split at hq
    · exact .inl hq
    · split at hq
      · exact .inl (sleeping_setPc (s := s) rfl (by split <;> simp) hq)
      · exact absurd hq (not_sleeping_wakeup _ q)
  | writeLog p =>
    simp only [stepUp] at hs
    split at hs
    · next tail hp =>
        obtain ⟨-, rfl⟩ := guarded hs
        exact .inl (sleeping_setPc rfl (by split <;> simp) hq)
    · simp at hs
  | writeHead p =>
    obtain ⟨-, rfl⟩ := guarded hs
    exact .inl (sleeping_setPc (t := writeHead c s) rfl (by simp) hq)
  | install p =>
    simp only [stepUp] at hs
    split at hs
    · next tail hp =>
        obtain ⟨-, rfl⟩ := guarded hs
        exact .inl (sleeping_setPc rfl (by split <;> simp) hq)
    · simp at hs
  | clearHead p =>
    obtain ⟨-, rfl⟩ := guarded hs
    exact .inl (sleeping_setPc rfl (by simp) hq)
  | finish p =>
    obtain ⟨-, rfl⟩ := guarded hs
    exact absurd hq (not_sleeping_wakeup _ q)
  | bread p b | modify p b d | brelse p b | evict b =>
    obtain ⟨-, rfl⟩ := guarded hs
    exact .inl hq
  | crash | readHead | recoverInstall | recoverClear => simp [stepUp] at hs

/-! ### One step -/

theorem Group.nodup_step {e : Event} (h : Group s) (hs : stepUp c s e = some s') : s'.lh.Nodup := by
  cases stepUp_effect hs with
  | still hst => rw [hst.lh]; exact h.nodup
  | enter p _ _ _ heq => rw [heq]; exact h.nodup
  | log p b _ hp heq =>
    rw [heq, logWrite]
    split
    · exact h.nodup
    · split
      · exact h.nodup
      · exact absorb_nodup h.nodup
  | leave p _ heq =>
    rw [heq, endOp]
    split
    · exact h.nodup
    · split
      · exact h.nodup
      · exact h.nodup
  | clear p _ heq => rw [heq]; exact List.nodup_nil
  | finish p _ heq => rw [heq]; exact h.nodup

/-- A step of a machine that is up leaves no sleeper behind without a commit or an operation. -/
theorem Group.asleep_step {e : Event} (h : Group s) (hs : stepUp c s e = some s') (q : Pid)
    (hq : s'.pc q = .sleeping) : s'.committing = true ∨ 0 < s'.outstanding := by
  have hbusy : s.committing = true ∨ 0 < s.outstanding := by
    rcases sleeping_cases hs hq with hold | hw
    · exact h.asleep q hold
    · exact h.toSpace.busy_of_mustWait hw
  cases stepUp_effect hs with
  | still hst =>
    rw [hst.committing, hst.outstanding]
    exact hbusy
  | enter p _ _ _ heq =>
    rw [heq]
    exact .inr (Nat.succ_pos _)
  | log p b _ hp heq =>
    rw [heq, logWrite]
    split
    · exact hbusy
    · split
      · exact hbusy
      · exact hbusy
  | leave p hp heq =>
    -- an operation that is not the last wakes everybody, the last one commits
    rw [heq, endOp] at hq ⊢
    split at hq
    · rename_i hcom
      rw [if_pos hcom]
      exact hbusy
    · rename_i hcom
      rw [if_neg hcom]
      split at hq
      · rename_i hlast
        rw [if_pos hlast]
        exact .inl rfl
      · exact absurd hq (not_sleeping_wakeup _ q)
  | clear p _ heq =>
    rw [heq]
    exact hbusy
  | finish p _ heq =>
    rw [heq] at hq
    exact absurd hq (not_sleeping_wakeup _ q)

theorem Group.step {e : Event} (hmode : s.mode = .up) (h : Group s) (hs : stepUp c s e = some s') :
    InMode Group s' s'.mode := by
  have hspace := h.toSpace.step hmode hs
  cases hm : s'.mode with
  | up =>
    rw [hm] at hspace
    exact ⟨hspace, h.nodup_step hs, h.asleep_step hs⟩
  | panicked msg => exact trivial
  | down | recovering tail => rwa [hm] at hspace

theorem group_of_booting (h : Booting s) (hlh : s.lh = []) : Group s := by
  refine ⟨space_of_booting h hlh, by rw [hlh]; exact List.nodup_nil, fun p hp => ?_⟩
  rw [h.1] at hp
  cases hp

/-! ### Whole runs -/

/-- **The protocol of group commit.** In every state of a machine that is up: `log.outstanding` is the number
of processes between `begin_op` and `end_op`; a process in `commit` is the only one there, with
`log.committing` set and no operation outstanding; no call of `log_write` is made during a commit; the header
has no block twice; and nobody sleeps on the log while it is idle. -/
theorem group_commit (c : Cfg) (disk : Image) {tr : List Event}
    (hrun : Run (step c) (fun _ _ => True) (initial disk) tr s) (hup : s.mode = .up) :
    {p | s.pc p = .running}.encard = s.outstanding ∧
    (∀ p, (s.pc p).InCommit → s.committing = true ∧ s.outstanding = 0 ∧ ∀ q, (s.pc q).InCommit → q = p) ∧
    (∀ p b s', step c s (.logWrite p b) = some s' → s.committing = false ∧ ∀ q, ¬(s.pc q).InCommit) ∧
    s.lh.Nodup ∧
    (s.outstanding = 0 → s.committing = false → ∀ p, s.pc p ≠ .sleeping) := by
  have hinv : InMode Group s s.mode :=
    hrun.invariant (P := fun s => InMode Group s s.mode) ⟨rfl, rfl, rfl, rfl⟩ fun _ _ _ ha _ hs =>
      inMode_step ha hs group_of_booting fun hmode hg hs => hg.step hmode hs
  rw [hup] at hinv
  have hg : Group s := hinv
  refine ⟨?_, fun p hp => ?_, fun p b s' hs => ?_, hg.nodup, fun hout hcom p hp => ?_⟩
  · obtain ⟨F, hF, hcard⟩ := hg.running
    have hset : {p | s.pc p = .running} = (F : Set Pid) := by
      ext p
      exact (hF p).symm
    rw [hset, Set.encard_coe_eq_coe_finsetCard, hcard]
  · have hcom := hg.toSync.committing_of_inCommit hp
    exact ⟨hcom, hg.quiet hcom, fun q hq => hg.one q p hq hp⟩
  · have hs' : stepUp c s (.logWrite p b) = some s' := by
      simpa only [step, hup, if_true] using hs
    obtain ⟨⟨hp, -⟩, -⟩ := Option.ite_none_right_eq_some.mp hs'
    have hcom := (hg.toSync.not_committing hp).1
    exact ⟨hcom, hg.idle hcom⟩
  · rcases hg.asleep p hp with h | h
    · rw [hcom] at h
      cases h
    · omega

/-- Four operations start, of which the fourth has to wait, and the first ends. -/
def crowdedBegin : List Event :=
  [.readHead, .recoverClear, .beginOp 0, .beginTest 0, .beginOp 1, .beginTest 1, .beginOp 2, .beginTest 2,
    .beginOp 3, .beginTest 3, .endOp 0]

theorem crowdedBegin_group_commit : ∃ s,
    Run (step mkfsLog) (fun _ _ => True) (initial fun _ _ => 0) crowdedBegin s ∧
      s.pc 3 = .beginning ∧ {p | s.pc p = .running}.encard = 2 := by
  have hsome : (exec (step mkfsLog) (fun _ _ => True) (initial fun _ _ => 0) crowdedBegin).isSome := by
    decide
  have hrun := run_get hsome
  exact ⟨_, hrun, rfl, (group_commit mkfsLog _ hrun rfl).1⟩

end Xv6Armv8.Log
