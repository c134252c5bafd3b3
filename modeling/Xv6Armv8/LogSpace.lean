import Mathlib
import Xv6Armv8.LogInvariant

/-! The space `begin_op` reserves in the log. The log area `mkfs` makes has `LOGSIZE` blocks and one
of them is the header, so that `log_write` gives up at `LOGSIZE - 1` logged blocks while `begin_op`
admits operations up to `LOGSIZE`; and it gives up before it looks for the block among those that
are logged already. The results say exactly which calls panic, and that operations which keep one
block below `MAXOPBLOCKS` never do. -/

namespace Xv6Armv8.Log

open Function List Finset StepRun

variable {c : Cfg} {s s' : State}

/-! ### What one step does to the reservation -/

/-- A step that neither starts nor ends an operation, nor touches the header in memory. -/
structure Still (s s' : State) : Prop where
  lh : s'.lh = s.lh
  outstanding : s'.outstanding = s.outstanding
  committing : s'.committing = s.committing
  group : s'.group = s.group
  wrote : s'.wrote = s.wrote
  mode : s'.mode = s.mode
  running : ∀ p, s'.pc p = .running ↔ s.pc p = .running
  inCommit : ∀ p, (s'.pc p).InCommit ↔ (s.pc p).InCommit
  committed : ∀ p, s'.pc p = .committed → s.pc p = .committed

variable {e : Event} {p : Pid}

theorem still_setPc (t : State) {x : Pc} (hlh : t.lh = s.lh)
    (hout : t.outstanding = s.outstanding) (hcom : t.committing = s.committing)
    (hgroup : t.group = s.group) (hwrote : t.wrote = s.wrote) (hmode : t.mode = s.mode)
    (hpc : t.pc = s.pc) (hp : s.pc p ≠ .running) (hx : x ≠ .running)
    (hin : x.InCommit ↔ (s.pc p).InCommit) (hdone : x ≠ .committed) : Still s (t.setPc p x) := by
  refine ⟨hlh, hout, hcom, hgroup, hwrote, hmode, fun q => ?_, fun q => ?_, fun q => ?_⟩ <;>
    by_cases hqp : q = p
  · subst hqp
    simp [State.setPc, hp, hx]
  · simp [State.setPc, hqp, hpc]
  · subst hqp
    simpa [State.setPc] using hin
  · simp [State.setPc, hqp, hpc]
  · subst hqp
    simp [State.setPc, hdone]
  · simp [State.setPc, hqp, hpc]

theorem still_of_pc (hlh : s'.lh = s.lh) (hout : s'.outstanding = s.outstanding)
    (hcom : s'.committing = s.committing) (hgroup : s'.group = s.group) (hwrote : s'.wrote = s.wrote)
    (hmode : s'.mode = s.mode) (hpc : s'.pc = s.pc) : Still s s' :=
  ⟨hlh, hout, hcom, hgroup, hwrote, hmode, fun _ => by rw [hpc], fun _ => by rw [hpc],
    fun _ => by rw [hpc]; exact id⟩

/-- All that a step of a running machine can do to the reservation. -/
inductive Effect (c : Cfg) (s : State) (e : Event) (s' : State) : Prop
  | still (h : Still s s')
  | enter (p : Pid) (hp : s.pc p = .beginning) (hcom : s.committing = false)
      (hroom : s.lh.length + (s.outstanding + 1) * maxOpBlocks ≤ logSize)
      (h : s' = { s.setPc p .running with
        outstanding := s.outstanding + 1, wrote := update s.wrote p ∅ })
  | log (p : Pid) (b : Nat) (he : e = .logWrite p b) (hp : s.pc p = .running) (h : s' = logWrite c s p b)
  | leave (p : Pid) (hp : s.pc p = .running) (h : s' = endOp s p)
  | clear (p : Pid) (hp : s.pc p = .clearHead) (h : s' = (clearHead c s).setPc p .committed)
  | finish (p : Pid) (hp : s.pc p = .committed) (h : s' = finish s p)

theorem stepUp_effect (hs : stepUp c s e = some s') : Effect c s e s' := by
  cases e with
  | beginOp p =>
    obtain ⟨hp, rfl⟩ := guarded hs
    exact .still (still_setPc s rfl rfl rfl rfl rfl rfl rfl (by simp [hp]) (by simp)
      (by simp [hp, Pc.InCommit]) (by simp))
  | beginTest p =>
    obtain ⟨hp, rfl⟩ := guarded hs
    have hsleep : Still s (s.setPc p .sleeping) :=
      still_setPc s rfl rfl rfl rfl rfl rfl rfl (by simp [hp]) (by simp) (by simp [hp, Pc.InCommit]) (by simp)
    by_cases hcom : s.committing = true
    · rw [beginOp, if_pos hcom]
      exact .still hsleep
    · by_cases hroom : s.lh.length + (s.outstanding + 1) * maxOpBlocks > logSize
      · rw [beginOp, if_neg hcom, if_pos hroom]
        exact .still hsleep
      · rw [beginOp, if_neg hcom, if_neg hroom]
        exact .enter p hp (by simpa using hcom) (by omega) rfl
  | logWrite p b =>
    obtain ⟨⟨hp, -⟩, rfl⟩ := guarded hs
    exact .log p b rfl hp rfl
  | endOp p =>
    obtain ⟨hp, rfl⟩ := guarded hs
    exact .leave p hp rfl
  | writeLog p =>
    simp only [stepUp] at hs
    split at hs
    · next tail hp =>
        obtain ⟨-, rfl⟩ := guarded hs
        refine .still (still_setPc (writeLog c s tail) rfl rfl rfl rfl rfl rfl rfl (by simp [hp])
          ?_ ?_ ?_) <;> split <;> simp [hp, Pc.InCommit]
    · simp at hs
  | writeHead p =>
    obtain ⟨⟨hp, -⟩, rfl⟩ := guarded hs
    exact .still (still_setPc { writeHead c s with images := s.pending :: s.images } rfl rfl rfl
      rfl rfl rfl rfl (by simp [hp]) (by simp) (by simp [hp, Pc.InCommit]) (by simp))
  | install p =>
    simp only [stepUp] at hs
    split at hs
    · next tail hp =>
        obtain ⟨-, rfl⟩ := guarded hs
        refine .still (still_setPc (unpin (installTrans c s tail) tail) rfl rfl rfl rfl rfl rfl rfl
          (by simp [hp]) ?_ ?_ ?_) <;> split <;> simp [hp, Pc.InCommit]
    · simp at hs
  | clearHead p =>
    obtain ⟨⟨hp, -⟩, rfl⟩ := guarded hs
    exact .clear p hp rfl
  | finish p =>
    obtain ⟨hp, rfl⟩ := guarded hs
    exact .finish p hp rfl
  | bread p b | modify p b d | brelse p b | evict b =>
    obtain ⟨-, rfl⟩ := guarded hs
    exact .still (still_of_pc rfl rfl rfl rfl rfl rfl rfl)
  | crash | readHead | recoverInstall | recoverClear => simp [stepUp] at hs

/-! ### The header in memory is the set of blocks logged since the last commit -/

structure Space (s : State) : Prop extends Sync s where
  done : ∀ p, s.pc p = .committed → s.lh = []
  logged : s.committing = false → s.lh.Nodup ∧ s.lh.toFinset = s.group
  fresh : s.outstanding = 0 → s.committing = false → s.lh = []

theorem absorb_nodup {lh : List Nat} {b : Nat} (h : lh.Nodup) : (absorb lh b).Nodup := by
  rw [absorb_eq]
  split
  · exact h
  · next hb =>
      refine nodup_append.mpr ⟨h, by simp, fun x hx y hy => ?_⟩
      rintro rfl
      exact hb (List.mem_singleton.mp hy ▸ hx)

theorem absorb_toFinset (lh : List Nat) (b : Nat) : (absorb lh b).toFinset = insert b lh.toFinset := by
  rw [absorb_eq]
  split
  · next hb => exact (insert_eq_of_mem (mem_toFinset.mpr hb)).symm
  · ext x
    simp

theorem Space.length (h : Space s) (hc : s.committing = false) : s.lh.length = s.group.card := by
  obtain ⟨h1, h2⟩ := h.logged hc
  rw [← h2, toFinset_card_of_nodup h1]

theorem Sync.still (h : Sync s) (hs : Still s s') : Sync s' := by
  obtain ⟨⟨F, hF, hcard⟩, hone, hidle, hquiet⟩ := h
  refine ⟨⟨F, fun p => ?_, by rw [hcard, hs.outstanding]⟩, fun p q hp hq => ?_, fun hc p hp => ?_, ?_⟩
  · rw [hF, hs.running]
  · exact hone p q ((hs.inCommit p).mp hp) ((hs.inCommit q).mp hq)
  · rw [hs.committing] at hc
    exact hidle hc p ((hs.inCommit p).mp hp)
  · rw [hs.committing, hs.outstanding]
    exact hquiet

theorem Space.still (h : Space s) (hs : Still s s') : Space s' where
  toSync := h.toSync.still hs
  done p hp := by
    rw [hs.lh]
    exact h.done p (hs.committed p hp)
  logged hc := by
    rw [hs.committing] at hc
    rw [hs.lh, hs.group]
    exact h.logged hc
  fresh ho hc := by
    rw [hs.outstanding] at ho
    rw [hs.committing] at hc
    rw [hs.lh]
    exact h.fresh ho hc

theorem Sync.not_committed (h : Sync s) (hc : s.committing = false) (p : Pid) : s.pc p ≠ .committed := by
  intro hp
  exact h.idle hc p (by simp [hp, Pc.InCommit])

theorem Space.enter (h : Space s) (hp : s.pc p = .beginning) (hc : s.committing = false) :
    Space { s.setPc p .running with
      outstanding := s.outstanding + 1, wrote := update s.wrote p ∅ } := by
  have hsync := h.toSync.enter hp hc
  refine ⟨hsync.congr rfl rfl rfl, fun q hq => ?_, fun _ => h.logged hc, fun ho => ?_⟩
  · exact absurd hq (hsync.not_committed hc q)
  · exact absurd ho (Nat.succ_ne_zero _)

/-- A call of `log_write` in an operation either panics or enters the block into the group. -/
theorem logWrite_cases (h : Space s) (hp : s.pc p = .running) (b : Nat) :
    (logSize ≤ s.group.card ∨ c.size - 1 ≤ s.group.card) ∧
      logWrite c s p b = { s with mode := .panicked "too big a transaction" } ∨
    (s.group.card < logSize ∧ s.group.card < c.size - 1) ∧ logWrite c s p b = { s with
        lh := absorb s.lh b
        pin := if s.lh.idxOf b = s.lh.length then update s.pin b (s.pin b + 1) else s.pin
        wrote := update s.wrote p (insert b (s.wrote p))
        group := insert b s.group } := by
  obtain ⟨hc, hout⟩ := h.toSync.not_committing hp
  have hlen := h.length hc
  by_cases hbig : s.lh.length ≥ logSize ∨ s.lh.length ≥ c.size - 1
  · left
    rw [logWrite, if_pos hbig]
    exact ⟨by omega, rfl⟩
  · right
    rw [logWrite, if_neg hbig, if_neg (by omega)]
    exact ⟨by omega, rfl⟩

theorem Space.logWrite (h : Space s) {p : Pid} (hp : s.pc p = .running) (b : Nat)
    (hup : (logWrite c s p b).mode = .up) : Space (logWrite c s p b) := by
  obtain ⟨hc, hout⟩ := h.toSync.not_committing hp
  obtain ⟨hnodup, hset⟩ := h.logged hc
  rcases logWrite_cases (c := c) h hp b with ⟨-, heq⟩ | ⟨-, heq⟩
  · rw [heq] at hup
    simp at hup
  · rw [heq]
    refine ⟨h.toSync.congr rfl rfl rfl, fun q hq => ?_, fun _ => ⟨absorb_nodup hnodup, ?_⟩, fun ho => ?_⟩
    · exact absurd hq (h.toSync.not_committed hc q)
    · show (absorb s.lh b).toFinset = insert b s.group
      rw [absorb_toFinset, hset]
    · have : s.outstanding = 0 := ho
      omega

theorem Space.endOp (h : Space s) {p : Pid} (hp : s.pc p = .running) : Space (endOp s p) := by
  obtain ⟨hc, hout⟩ := h.toSync.not_committing hp
  unfold Log.endOp
  rw [if_neg (by simp [hc])]
  split
  · next hlast =>
      have hsync := h.toSync.leave (x := if s.lh.length > 0 then .writeLog 0 else .committed)
        (k := true) hp (by split <;> simp) (fun _ => hlast) (fun _ => rfl)
      refine ⟨hsync.congr rfl rfl rfl, fun q hq => ?_, fun hcom => by simp at hcom,
        fun _ hcom => by simp at hcom⟩
      by_cases hqp : q = p
      · subst hqp
        have hpc : (if s.lh.length > 0 then Pc.writeLog 0 else .committed) = .committed := by
          simpa [State.setPc] using hq
        split at hpc
        · simp at hpc
        · next hlen =>
            show s.lh = []
            exact eq_nil_of_length_eq_zero (by omega)
      · exact absurd (by simpa [State.setPc, hqp] using hq) (h.toSync.not_committed hc q)
  · next hlast =>
      have hsync := h.toSync.leave (x := .idle) (k := false) hp (by simp) (by simp) (fun h => h.elim)
      refine ⟨hsync.wakeup.congr rfl rfl hc, fun q hq => ?_, fun _ => h.logged hc, fun ho => ?_⟩
      · exact absurd hq (hsync.wakeup.not_committed rfl q)
      · exact absurd ho hlast

theorem Space.clearHead (h : Space s) {p : Pid} (hp : s.pc p = .clearHead) :
    Space ((clearHead c s).setPc p .committed) := by
  have hin : (s.pc p).InCommit := by simp [hp, Pc.InCommit]
  have hcom := h.toSync.committing_of_inCommit hin
  have hs : Sync (Log.clearHead c s) := h.toSync.congr rfl rfl rfl
  refine ⟨hs.setPc ?_ (by simp) (fun _ => hin), fun _ _ => rfl, fun hc => ?_, fun _ _ => rfl⟩
  · show s.pc p ≠ .running
    simp [hp]
  · have : s.committing = false := hc
    simp [hcom] at this

theorem Space.finish (h : Space s) {p : Pid} (hp : s.pc p = .committed) : Space (finish s p) := by
  have hlh := h.done p hp
  refine ⟨h.toSync.finish hp, fun _ _ => hlh, fun _ => ?_, fun _ _ => hlh⟩
  simp [Log.finish, State.wakeup, State.setPc, hlh]

/-! ### Operations that keep one block below their reservation -/

/-- The distinct blocks an operation logs, this call included, are at most `n`. -/
def OpWrites (n : Nat) (s : State) : Event → Prop
  | .logWrite p b => (insert b (s.wrote p)).card ≤ n
  | _ => True

instance (n : Nat) (s : State) (e : Event) : Decidable (OpWrites n s e) := by
  apply e.casesOn (motive := fun e => Decidable (OpWrites n s e)) <;> intros <;> dsimp only [OpWrites] <;> infer_instance

/-- What is logged and what the operations may still log leaves two entries of the header free. -/
def Fits (s : State) : Prop :=
  ∃ F : Finset Pid, (∀ p, p ∈ F ↔ s.pc p = .running) ∧
    (∀ p ∈ F, s.wrote p ⊆ s.group ∧ (s.wrote p).card ≤ maxOpBlocks - 1) ∧
    s.group.card + ∑ p ∈ F, (maxOpBlocks - 1 - (s.wrote p).card) ≤ logSize - 2

theorem Fits.card_le (h : Fits s) : s.group.card ≤ logSize - 2 := by
  obtain ⟨F, -, -, hsum⟩ := h
  omega

theorem Fits.still (h : Fits s) (hs : Still s s') : Fits s' := by
  obtain ⟨F, hF, hsub, hsum⟩ := h
  refine ⟨F, fun p => ?_, ?_, ?_⟩
  · rw [hF, hs.running]
  · rw [hs.wrote, hs.group]
    exact hsub
  · rw [hs.wrote, hs.group]
    exact hsum

theorem Fits.enter (h : Fits s) (hsp : Space s) (hp : s.pc p = .beginning) (hc : s.committing = false)
    (hroom : s.lh.length + (s.outstanding + 1) * maxOpBlocks ≤ logSize) :
    Fits { s.setPc p .running with
      outstanding := s.outstanding + 1, wrote := update s.wrote p ∅ } := by
  obtain ⟨F, hF, hsub, -⟩ := h
  obtain ⟨F', hF', hcard⟩ := hsp.running
  have hFF : F = F' := by
    ext q
    rw [hF, hF']
  subst hFF
  have hpF : p ∉ F := by simp [hF, hp]
  have hwrote : ∀ q ∈ F, update s.wrote p ∅ q = s.wrote q := by
    intro q hq
    have : q ≠ p := by
      rintro rfl
      exact hpF hq
    exact update_of_ne this _ _
  refine ⟨insert p F, fun q => ?_, fun q hq => ?_, ?_⟩
  · by_cases hqp : q = p
    · subst hqp
      simp [State.setPc]
    · simp [State.setPc, hqp, hF]
  · rcases mem_insert.mp hq with rfl | hq
    · simp [State.setPc]
    · show update s.wrote p ∅ q ⊆ s.group ∧ (update s.wrote p ∅ q).card ≤ maxOpBlocks - 1
      rw [hwrote q hq]
      exact hsub q hq
  · show s.group.card + ∑ q ∈ insert p F, (maxOpBlocks - 1 - (update s.wrote p ∅ q).card) ≤ _
    have hsum : ∑ q ∈ F, (maxOpBlocks - 1 - (update s.wrote p ∅ q).card) ≤ F.card * (maxOpBlocks - 1) :=
      Finset.sum_le_card_nsmul _ _ _ fun q _ => Nat.sub_le _ _
    rw [sum_insert hpF, update_self, card_empty]
    have hlen := hsp.length hc
    rw [hcard] at hsum
    simp only [maxOpBlocks, logSize] at hsum hroom ⊢
    -- the first operation of a group finds the log empty; the others count one free entry each
    by_cases hout : s.outstanding = 0
    · have := hsp.fresh hout hc
      simp only [this, length_nil] at hlen
      omega
    · omega

theorem Fits.logWrite (h : Fits s) {b : Nat} (hp : s.pc p = .running)
    (hb : (insert b (s.wrote p)).card ≤ maxOpBlocks - 1) {lh : List Nat} {pin : Nat → Nat} :
    Fits { s with
      lh := lh
      pin := pin
      wrote := update s.wrote p (insert b (s.wrote p))
      group := insert b s.group } := by
  obtain ⟨F, hF, hsub, hsum⟩ := h
  have hpF : p ∈ F := (hF p).mpr hp
  have hother : ∀ q ∈ F.erase p, update s.wrote p (insert b (s.wrote p)) q = s.wrote q :=
    fun q hq => update_of_ne (ne_of_mem_erase hq) _ _
  refine ⟨F, hF, fun q hq => ?_, ?_⟩
  · show update s.wrote p (insert b (s.wrote p)) q ⊆ insert b s.group ∧
      (update s.wrote p (insert b (s.wrote p)) q).card ≤ maxOpBlocks - 1
    by_cases hqp : q = p
    · subst hqp
      rw [update_self]
      exact ⟨insert_subset_insert b (hsub q hq).1, hb⟩
    · rw [update_of_ne hqp]
      exact ⟨(hsub q hq).1.trans (Finset.subset_insert b s.group), (hsub q hq).2⟩
  · show (insert b s.group).card + ∑ q ∈ F, (maxOpBlocks - 1 -
        (update s.wrote p (insert b (s.wrote p)) q).card) ≤ _
    have hsum' : ∑ q ∈ F.erase p, (maxOpBlocks - 1 - (update s.wrote p (insert b (s.wrote p)) q).card) =
        ∑ q ∈ F.erase p, (maxOpBlocks - 1 - (s.wrote q).card) :=
      sum_congr rfl fun q hq => by rw [hother q hq]
    rw [← add_sum_erase F _ hpF] at hsum ⊢
    rw [hsum', update_self]
    by_cases hmem : b ∈ s.wrote p
    · rw [insert_eq_of_mem hmem, insert_eq_of_mem ((hsub p hpF).1 hmem)]
      exact hsum
    · have h1 := card_insert_le b s.group
      rw [card_insert_of_notMem hmem] at hb ⊢
      omega

theorem Fits.shrink (h : Fits s) (hrun : ∀ p, s'.pc p = .running → s.pc p = .running)
    (hwrote : s'.wrote = s.wrote) (hgroup : s'.group = s.group) : Fits s' := by
  classical
  obtain ⟨F, hF, hsub, hsum⟩ := h
  have hle : ∑ p ∈ F.filter (fun p => s'.pc p = .running), (maxOpBlocks - 1 - (s.wrote p).card) ≤
      ∑ p ∈ F, (maxOpBlocks - 1 - (s.wrote p).card) :=
    sum_le_sum_of_subset (Finset.filter_subset _ _)
  refine ⟨F.filter (fun p => s'.pc p = .running), fun p => ?_, fun p hp => ?_, ?_⟩
  · rw [Finset.mem_filter, hF]
    exact ⟨fun h => h.2, fun h => ⟨hrun p h, h⟩⟩
  · rw [hwrote, hgroup]
    exact hsub p (Finset.mem_filter.mp hp).1
  · rw [hwrote, hgroup]
    omega

/-! ### Whole runs -/

/-- No process has started yet. -/
def Booting (s : State) : Prop :=
  s.pc = (fun _ => .idle) ∧ s.outstanding = 0 ∧ s.committing = false ∧ s.group = ∅

/-- `P` while the machine is up; before, no process has started. -/
def InMode (P : State → Prop) (s : State) : Mode → Prop
  | .up => P s
  | .panicked _ => True
  | .down | .recovering _ => Booting s

theorem stepRecover_booting (h : Booting s) (hs : stepRecover c s e = some s') :
    Booting s' ∧ (s'.mode = .up ∧ s'.lh = [] ∨ ∃ tail, s'.mode = .recovering tail) := by
  cases e with
  | readHead =>
    obtain ⟨-, rfl⟩ := guarded hs
    exact ⟨h, Or.inr ⟨0, rfl⟩⟩
  | recoverInstall =>
    simp only [stepRecover] at hs
    split at hs
    · next tail hmode =>
        obtain ⟨-, rfl⟩ := guarded hs
        exact ⟨h, Or.inr ⟨tail + 1, rfl⟩⟩
    · simp at hs
  | recoverClear =>
    obtain ⟨-, rfl⟩ := guarded hs
    exact ⟨h, Or.inl ⟨rfl, rfl⟩⟩
  | _ => simp [stepRecover] at hs

theorem stepRecover_of_panicked {msg : String} (h : s.mode = .panicked msg) : stepRecover c s e = none := by
  cases e <;> simp [stepRecover, h]

/-- The rule for properties of a running machine: a boot establishes them, every step keeps them. -/
theorem inMode_step {P : State → Prop} (h : InMode P s s.mode)
    (hs : step c s e = some s') (hboot : Booting s' → s'.lh = [] → P s')
    (hup : s.mode = .up → P s → stepUp c s e = some s' → InMode P s' s'.mode) :
    InMode P s' s'.mode := by
  by_cases he : e = .crash
  · subst he
    cases Option.some.inj hs
    exact ⟨rfl, rfl, rfl, rfl⟩
  · have hs' : (if s.mode = .up then stepUp c s e else stepRecover c s e) = some s' := by
      rw [← hs]
      cases e <;> first | rfl | exact absurd rfl he
    split at hs'
    · next hmode =>
        rw [hmode] at h
        exact hup hmode h hs'
    · next hmode =>
        have hb : Booting s := by
          cases hm : s.mode with
          | up => exact absurd hm hmode
          | panicked msg =>
            rw [stepRecover_of_panicked hm] at hs'
            cases hs'
          | down | recovering tail => rwa [hm] at h
        obtain ⟨hb', ⟨hm, hlh⟩ | ⟨tail, hm⟩⟩ := stepRecover_booting hb hs'
        · rw [hm]
          exact hboot hb' hlh
        · rw [hm]
          exact hb'

theorem space_of_booting (h : Booting s) (hlh : s.lh = []) : Space s := by
  obtain ⟨hpc, hout, hcom, hgroup⟩ := h
  refine ⟨⟨⟨∅, by simp [hpc], hout.symm⟩, ?_, ?_, fun _ => hout⟩, fun _ _ => hlh, ?_, fun _ _ => hlh⟩
  · intro p q hp
    rw [hpc] at hp
    exact hp.elim
  · intro _ p hp
    rw [hpc] at hp
    exact hp
  · intro _
    simp [hlh, hgroup]

theorem mode_endOp (h : Sync s) (hp : s.pc p = .running) : (endOp s p).mode = s.mode := by
  obtain ⟨hc, -⟩ := h.not_committing hp
  unfold endOp
  rw [if_neg (by simp [hc])]
  split <;> rfl

theorem inMode_of_up {P : State → Prop} {s : State} (hmode : s.mode = .up) (h : P s) : InMode P s s.mode := by
  rw [hmode]
  exact h

theorem Space.step (hmode : s.mode = .up) (h : Space s) (hs : stepUp c s e = some s') :
    InMode Space s' s'.mode := by
  cases stepUp_effect hs with
  | still hst => exact inMode_of_up (hst.mode.trans hmode) (h.still hst)
  | enter p hp hcom _ heq =>
    subst heq
    exact inMode_of_up hmode (h.enter hp hcom)
  | log p b _ hp heq =>
    subst heq
    have hcases := logWrite_cases (c := c) h hp b
    rcases hcases with ⟨-, heq⟩ | ⟨-, heq⟩
    · rw [heq]
      trivial
    · have hm : (Log.logWrite c s p b).mode = .up := by
        rw [heq]
        exact hmode
      exact inMode_of_up hm (h.logWrite hp b hm)
  | leave p hp heq =>
    subst heq
    exact inMode_of_up ((mode_endOp h.toSync hp).trans hmode) (h.endOp hp)
  | clear p hp heq =>
    subst heq
    exact inMode_of_up hmode (h.clearHead hp)
  | finish p hp heq =>
    subst heq
    exact inMode_of_up hmode (h.finish hp)

theorem space_step (h : InMode Space s s.mode) (hs : step c s e = some s') : InMode Space s' s'.mode :=
  inMode_step h hs space_of_booting fun hmode hsp hup => hsp.step hmode hup

theorem space_initial (disk : Image) : InMode Space (initial disk) (initial disk).mode :=
  ⟨rfl, rfl, rfl, rfl⟩

/-- A call of `log_write` made when the group has as many blocks as the log area has room for. -/
def Crowded (s : State) : Event → Prop
  | .logWrite _ _ => logSize - 1 ≤ s.group.card
  | _ => False

/-- The panic of `log_write` about space. -/
def TooBig (s : State) : Prop := s.mode = .panicked "too big a transaction"

/-- On the log area `mkfs` makes, the calls that panic about space are the crowded ones. -/
theorem tooBig_step (h : InMode Space s s.mode) (hs : step mkfsLog s e = some s') :
    TooBig s' ↔ Crowded s e := by
  unfold TooBig
  by_cases he : e = .crash
  · subst he
    cases Option.some.inj hs
    simp [State.reset, Crowded]
  · have hs' : (if s.mode = .up then stepUp mkfsLog s e else stepRecover mkfsLog s e) = some s' := by
      rw [← hs]
      cases e <;> first | rfl | exact absurd rfl he
    split at hs'
    · next hmode =>
        rw [hmode] at h
        have hsp : Space s := h
        have hnot : s'.mode = .up → (∀ p b, e ≠ .logWrite p b) →
            (s'.mode = .panicked "too big a transaction" ↔ Crowded s e) := by
          intro hm hne
          rw [hm]
          cases e <;> first | exact absurd rfl (hne _ _) | simp [Crowded]
        cases e with
        | logWrite p b =>
          obtain ⟨⟨hp, -⟩, rfl⟩ := guarded hs'
          have hcrowd : Crowded s (.logWrite p b) ↔ logSize - 1 ≤ s.group.card := Iff.rfl
          have hsize : mkfsLog.size - 1 = logSize - 1 := rfl
          rcases logWrite_cases (c := mkfsLog) hsp hp b with ⟨hbig, heq⟩ | ⟨hroom, heq⟩
          · rw [heq, hcrowd]
            exact ⟨fun _ => by omega, fun _ => rfl⟩
          · rw [heq, hcrowd]
            constructor
            · intro hm
              have : s.mode = .panicked "too big a transaction" := hm
              simp [hmode] at this
            · omega
        | _ =>
          refine hnot ?_ (fun _ _ => by simp)
          cases stepUp_effect hs' with
          | still hst => exact hst.mode.trans hmode
          | enter p hp hcom _ heq => rw [heq]; exact hmode
          | log p b he' => cases he'
          | leave p hp heq => rw [heq]; exact (mode_endOp hsp.toSync hp).trans hmode
          | clear p hp heq => rw [heq]; exact hmode
          | finish p hp heq => rw [heq]; exact hmode
    · next hmode =>
        cases e with
        | readHead | recoverClear =>
          obtain ⟨-, rfl⟩ := guarded hs'
          simp [Crowded]
        | recoverInstall =>
          simp only [stepRecover] at hs'
          split at hs'
          · obtain ⟨-, rfl⟩ := guarded hs'
            simp [Crowded]
          · simp at hs'
        | _ => simp [stepRecover] at hs'

theorem Fits.step (hmode : s.mode = .up) (h : Space s ∧ Fits s)
    (hC : OpWrites (maxOpBlocks - 1) s e) (hs : stepUp c s e = some s') :
    InMode (fun s => Space s ∧ Fits s) s' s'.mode := by
  have hspace := h.1.step hmode hs
  have hjoin : Fits s' → InMode (fun s => Space s ∧ Fits s) s' s'.mode := by
    intro hfits
    cases hm : s'.mode with
    | up =>
      rw [hm] at hspace
      exact ⟨hspace, hfits⟩
    | panicked msg => trivial
    | down | recovering tail => rwa [hm] at hspace
  cases stepUp_effect hs with
  | still hst => exact hjoin (h.2.still hst)
  | enter p hp hcom hroom heq =>
    subst heq
    exact hjoin (h.2.enter h.1 hp hcom hroom)
  | log p b he hp heq =>
    subst he
    rcases logWrite_cases (c := c) h.1 hp b with ⟨-, hlog⟩ | ⟨-, hlog⟩
    · rw [heq, hlog]
      trivial
    · apply hjoin
      rw [heq, hlog]
      exact h.2.logWrite hp hC
  | leave p hp heq =>
    subst heq
    obtain ⟨hc, -⟩ := h.1.toSync.not_committing hp
    apply hjoin
    unfold Log.endOp
    rw [if_neg (by simp [hc])]
    split
    · refine h.2.shrink (fun q hq => ?_) rfl rfl
      by_cases hqp : q = p
      · rw [hqp]
        exact hp
      · simpa [State.setPc, hqp] using hq
    · refine h.2.shrink (fun q hq => ?_) rfl rfl
      have hq' : (if (s.setPc p .idle).pc q = .sleeping then Pc.beginning else
        (s.setPc p .idle).pc q) = .running := hq
      split at hq'
      · simp at hq'
      · by_cases hqp : q = p
        · rw [hqp]
          exact hp
        · simpa [State.setPc, hqp] using hq'
  | clear p hp heq =>
    subst heq
    apply hjoin
    refine h.2.shrink (fun q hq => ?_) rfl rfl
    by_cases hqp : q = p
    · subst hqp
      simp [State.setPc] at hq
    · simpa [State.setPc, hqp, Log.clearHead, writeHead, State.bwrite] using hq
  | finish p hp heq =>
    subst heq
    apply hjoin
    obtain ⟨F, hF, -, -⟩ := h.2
    -- nobody is in an operation while a commit is running
    have hnone : ∀ q, (Log.finish s p).pc q ≠ .running := by
      intro q hq
      have hin : (s.pc p).InCommit := by simp [hp, Pc.InCommit]
      have hcom := h.1.toSync.committing_of_inCommit hin
      have hq' : (if (s.setPc p .idle).pc q = .sleeping then Pc.beginning else
        (s.setPc p .idle).pc q) = .running := hq
      split at hq'
      · simp at hq'
      · by_cases hqp : q = p
        · subst hqp
          simp [State.setPc] at hq'
        · have hrun : s.pc q = .running := by simpa [State.setPc, hqp] using hq'
          simp [(h.1.toSync.not_committing hrun).1] at hcom
    exact ⟨∅, fun q => by simp [hnone q], by simp, by simp [Log.finish]⟩

theorem fits_of_booting (h : Booting s) (hlh : s.lh = []) : Space s ∧ Fits s := by
  refine ⟨space_of_booting h hlh, ∅, ?_, by simp, ?_⟩
  · simp [h.1]
  · simp [h.2.2.2]

/-- **When the reservation of `begin_op` suffices.** On the log area `mkfs` makes, a run panics
about space at exactly those calls of `log_write` that find `LOGSIZE - 1` distinct blocks logged in
the current group: a run without such a call never does, and such a call always does. Operations
that log at most `MAXOPBLOCKS - 1` distinct blocks each never make one. -/
theorem log_write_fits (disk : Image) :
    (∀ tr s, Run (step mkfsLog) (fun s e => ¬Crowded s e) (initial disk) tr s → ¬TooBig s) ∧
    (∀ tr s, Run (step mkfsLog) (fun _ _ => True) (initial disk) tr s →
      ∀ e s', Crowded s e → step mkfsLog s e = some s' → TooBig s') ∧
    (∀ tr s, Run (step mkfsLog) (OpWrites (maxOpBlocks - 1)) (initial disk) tr s → ¬TooBig s) := by
  have hspace : ∀ {C : State → Event → Prop} {tr s},
      Run (step mkfsLog) C (initial disk) tr s → InMode Space s s.mode :=
    fun h => h.invariant (space_initial disk) fun _ _ _ ha _ hs => space_step ha hs
  refine ⟨fun tr s h => ?_, fun tr s h e s' hcr hs => (tooBig_step (hspace h) hs).mpr hcr, fun tr s h => ?_⟩
  · cases h with
    | nil => simp [TooBig, initial]
    | snoc hrun hC hs => exact fun hbig => hC ((tooBig_step (hspace hrun) hs).mp hbig)
  · have hfits : ∀ {tr s}, Run (step mkfsLog) (OpWrites (maxOpBlocks - 1)) (initial disk) tr s →
        InMode (fun s => Space s ∧ Fits s) s s.mode :=
      fun h => h.invariant (P := fun s => InMode (fun s => Space s ∧ Fits s) s s.mode)
        ⟨rfl, rfl, rfl, rfl⟩ fun _ _ _ ha hC hs =>
          inMode_step ha hs fits_of_booting fun hmode hp hup => Fits.step hmode hp hC hup
    cases h with
    | nil => simp [TooBig, initial]
    | @snoc tr t _ e hrun hC hs =>
      intro hbig
      have hcr := (tooBig_step (hspace hrun) hs).mp hbig
      cases e with
      | logWrite p b =>
        have hle : logSize - 1 ≤ t.group.card := hcr
        have hmode : t.mode = .up := by
          by_contra hm
          simp [step, hm, stepRecover] at hs
        have h := hfits hrun
        rw [hmode] at h
        have := h.2.card_le
        simp only [logSize, maxOpBlocks] at hle this
        omega
      | _ => exact hcr

/-- Three operations, each of which logs ten blocks of its own. -/
def threeFullOps : List Event :=
  [.readHead, .recoverClear, .beginOp 0, .beginTest 0, .beginOp 1, .beginTest 1, .beginOp 2, .beginTest 2] ++
  (List.range 30).flatMap fun i => [.bread (i / 10) (100 + i), .logWrite (i / 10) (100 + i)]

/-- Operations within `MAXOPBLOCKS` that `begin_op` let in make `log_write` panic. -/
theorem threeFullOps_panics : ∃ s,
    Run (step mkfsLog) (OpWrites maxOpBlocks) (initial fun _ _ => 0) threeFullOps s ∧ TooBig s := by
  have hsome : (exec (step mkfsLog) (OpWrites maxOpBlocks) (initial fun _ _ => 0)
      threeFullOps).isSome := by decide
  exact ⟨_, run_get hsome, rfl⟩

end Xv6Armv8.Log
