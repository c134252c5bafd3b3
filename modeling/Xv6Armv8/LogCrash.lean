import Xv6Armv8.LogInvariant

/-! Crash atomicity of the redo log: every event keeps the invariant, so that whatever the
interleaving and wherever the crashes fall, recovery leaves the image of the commit groups whose
header reached the disk, and nothing of any other. -/

namespace Xv6Armv8.Log

open Function StepRun

variable {c : Cfg} {s s' : State} {tail : Nat}

/-! ### One step of a machine that is up -/

theorem phase_of_not_inCommit {pc : Pc} (h : ¬pc.InCommit) : Phase c s pc := by
  cases pc <;> first | exact absurd trivial h | exact trivial

/-- Reading or recycling buffers does not disturb a commit: a buffer changes its data only where
it is not pinned, and then to what is on the disk. -/
theorem Phase.frame {pc : Pc} (h : Phase c s pc) (hdisk : s'.disk = s.disk) (hlh : s'.lh = s.lh)
    (hpending : s'.pending = s.pending) (himages : s'.images = s.images)
    (hlogged : Logged s → Logged s')
    (hdata : ∀ b, s'.data b = s.data b ∨ s'.data b = s.disk b ∧ s.pin b = 0) : Phase c s' pc := by
  have himage : s'.image = s.image := by rw [State.image, State.image, himages]
  have hpend : Logged s → Pend c s → Pend c s' := by
    intro hl hp b hb
    rw [hpending, hp b hb, hlh, himage]
    by_cases hmem : b ∈ s.lh
    · rw [if_pos hmem, if_pos hmem]
      rcases hdata b with hd | ⟨-, hpin⟩
      · exact hd.symm
      · exact absurd hpin (hl b hmem).2
    · rw [if_neg hmem, if_neg hmem]
  have hcopy : ∀ i d, LogCopy c s i d → LogCopy c s' i d := by
    rintro i d ⟨h1, h2⟩
    refine ⟨by rw [hdisk, h1], ?_⟩
    rcases hdata (c.start + i + 1) with hd | ⟨hd, -⟩
    · rw [hd, h2]
    · rw [hd, h1]
  cases pc with
  | writeLog tail =>
    obtain ⟨h1, h2, h3, h4, h5⟩ := h
    refine ⟨by rwa [hlh], by rwa [hdisk], hlogged h3, hpend h3 h4, ?_⟩
    intro i hi
    rw [hpending, hlh]
    exact hcopy i _ (h5 i hi)
  | writeHead =>
    obtain ⟨h1, h2, h3, h4, h5⟩ := h
    refine ⟨by rwa [hlh], by rwa [hdisk], hlogged h3, hpend h3 h4, ?_⟩
    intro i hi
    rw [hlh] at hi
    rw [hpending, hlh]
    exact hcopy i _ (h5 i hi)
  | install tail =>
    obtain ⟨h1, h2, h3, h4⟩ := h
    refine ⟨by rwa [hlh], by rw [hdisk, hlh, h2], ?_, ?_⟩
    · intro i hi
      rw [hlh] at hi
      rw [hdisk]
      rcases hdata (c.start + i + 1) with hd | ⟨hd, -⟩
      · rw [hd, h3 i hi]
      · exact hd
    · rw [hdisk, hlh, himage]
      exact h4
  | clearHead =>
    obtain ⟨h1, h2⟩ := h
    refine ⟨by rw [hdisk, hlh, h1], ?_⟩
    rw [hdisk, hlh, himage]
    exact h2
  | committed =>
    obtain ⟨h1, h2⟩ := h
    exact ⟨by rwa [hdisk], by rwa [hlh]⟩
  | idle | beginning | sleeping | running => trivial

/-- The part of `Up` that is not about the processes, for steps that leave the disk alone. -/
theorem Up.frame (h : Up c s) (hsync : Sync s') (hdisk : s'.disk = s.disk) (hlh : s'.lh = s.lh)
    (hpending : s'.pending = s.pending) (himages : s'.images = s.images)
    (hcom : s'.committing = s.committing)
    (hheld : ∀ b p, s'.holder b = some p → (s'.cache b).isSome ∧ b < 2 ^ 32)
    (hlogged : Logged s → Logged s')
    (hdata : ∀ b, s'.data b = s.data b ∨ s'.data b = s.disk b ∧ s.pin b = 0)
    (hphase : ∀ p, Phase c s (s'.pc p)) : Up c s' where
  toSync := hsync
  lhHome := by rw [hlh]; exact h.lhHome
  lhRoom := by rw [hlh]; exact h.lhRoom
  lhSmall := by rw [hlh]; exact h.lhSmall
  held := hheld
  open_ := by
    intro hc
    rw [hcom] at hc
    obtain ⟨h1, h2⟩ := h.open_ hc
    exact ⟨by rwa [hdisk], hlogged h2⟩
  phase := fun p => (hphase p).frame hdisk hlh hpending himages hlogged hdata

variable {b : Nat} {e : Event} {p : Pid}

theorem Up.phase_setPc (h : Up c s) {x : Pc} (hx : ¬x.InCommit) (q : Pid) :
    Phase c s ((s.setPc p x).pc q) := by
  by_cases hqp : q = p
  · subst hqp
    exact phase_of_not_inCommit (by simpa [State.setPc] using hx)
  · simpa [State.setPc, hqp] using h.phase q

theorem Up.setPc (h : Up c s) {x : Pc} (hp : s.pc p ≠ .running) (hx : x ≠ .running)
    (hxc : ¬x.InCommit) : Up c (s.setPc p x) :=
  h.frame (h.toSync.setPc hp hx fun hin => absurd hin hxc) rfl rfl rfl rfl rfl h.held id
    (fun _ => Or.inl rfl) (h.phase_setPc hxc)

theorem Up.beginTest (h : Up c s) (hp : s.pc p = .beginning) : Up c (beginOp s p) := by
  have hne : s.pc p ≠ .running := by simp [hp]
  unfold beginOp
  split
  · exact h.setPc hne (by simp) id
  · next hcom =>
      split
      · exact h.setPc hne (by simp) id
      · have hsync := h.toSync.enter hp (by simpa using hcom)
        exact h.frame (hsync.congr rfl rfl rfl) rfl rfl rfl rfl rfl h.held id
          (fun _ => Or.inl rfl) (h.phase_setPc (p := p) (x := .running) id)

theorem Up.bread (h : Up c s) (hb : b < 2 ^ 32) :
    Up c { s.bread b with holder := update s.holder b (some p) } := by
  refine h.frame (h.toSync.congr rfl rfl rfl) rfl rfl rfl rfl rfl ?_ ?_
    (fun x => Or.inl (data_bread s b x)) h.phase
  · intro x q hq
    by_cases hx : x = b
    · subst hx
      exact ⟨by simp [State.bread], hb⟩
    · obtain ⟨h1, h2⟩ := h.held x q (by simpa [hx] using hq)
      exact ⟨isSome_bread h1, h2⟩
  · intro hl x hx
    exact ⟨isSome_bread (hl x hx).1, (hl x hx).2⟩

theorem Up.brelse (h : Up c s) : Up c { s with holder := update s.holder b none } := by
  refine h.frame (h.toSync.congr rfl rfl rfl) rfl rfl rfl rfl rfl ?_ id (fun x => Or.inl rfl) h.phase
  intro x q hq
  by_cases hx : x = b
  · subst hx
    simp at hq
  · exact h.held x q (by simpa [hx] using hq)

theorem Up.evict (h : Up c s) (hb : s.holder b = none) (hpin : s.pin b = 0) :
    Up c { s with cache := update s.cache b none } := by
  have hcache : ∀ x, x ≠ b → update s.cache b none x = s.cache x :=
    fun x hx => update_of_ne hx _ _
  refine h.frame (h.toSync.congr rfl rfl rfl) rfl rfl rfl rfl rfl ?_ ?_ ?_ h.phase
  · intro x q hq
    have hx : x ≠ b := by
      rintro rfl
      simp [hb] at hq
    obtain ⟨h1, h2⟩ := h.held x q hq
    exact ⟨by simpa [hcache x hx] using h1, h2⟩
  · intro hl x hx
    have hxb : x ≠ b := by
      rintro rfl
      exact (hl x hx).2 hpin
    exact ⟨by simpa [hcache x hxb] using (hl x hx).1, (hl x hx).2⟩
  · intro x
    by_cases hx : x = b
    · subst hx
      exact Or.inr ⟨by simp [State.data], hpin⟩
    · exact Or.inl (by simp [State.data, hx])

theorem Up.modify (h : Up c s) {d : Block} (hp : s.pc p = .running) :
    Up c { s with cache := update s.cache b (some d) } := by
  obtain ⟨hc, -⟩ := h.toSync.not_committing hp
  have hsome : ∀ x, (s.cache x).isSome → (update s.cache b (some d) x).isSome := by
    intro x hx
    by_cases hxb : x = b
    · subst hxb
      simp
    · simpa [hxb] using hx
  obtain ⟨hhead, hlogged⟩ := h.open_ hc
  exact {
    toSync := h.toSync.congr rfl rfl rfl
    lhHome := h.lhHome
    lhRoom := h.lhRoom
    lhSmall := h.lhSmall
    held := fun x q hq => ⟨hsome x (h.held x q hq).1, (h.held x q hq).2⟩
    open_ := fun _ => ⟨hhead, fun x hx => ⟨hsome x (hlogged x hx).1, (hlogged x hx).2⟩⟩
    phase := fun q => phase_of_not_inCommit (h.toSync.idle hc q) }

theorem Inv.panic (h : Durable c s.disk s.image) (msg : String) : Inv c { s with mode := .panicked msg } :=
  ⟨h, trivial⟩

theorem Inv.up (h : Durable c s.disk s.image) (hmode : s.mode = .up) (hup : Up c s) : Inv c s :=
  ⟨h, by rw [hmode]; exact hup⟩

theorem length_absorb_le (lh : List Nat) (b : Nat) : (absorb lh b).length ≤ lh.length + 1 := by
  rw [absorb_eq]
  split <;> simp

theorem Up.logWrite (h : Up c s) (hd : Durable c s.disk s.image) (hmode : s.mode = .up) {p : Pid}
    {b : Nat} (hp : s.pc p = .running) (hheld : s.holder b = some p) (hhome : c.IsHome b) :
    Inv c (logWrite c s p b) := by
  obtain ⟨hc, -⟩ := h.toSync.not_committing hp
  obtain ⟨hhead, hlogged⟩ := h.open_ hc
  unfold Log.logWrite
  split
  · exact .panic hd _
  · next hroom =>
      split
      · exact .panic hd _
      · have hlen := length_absorb_le s.lh b
        refine .up hd hmode {
          toSync := h.toSync.congr rfl rfl rfl
          lhHome := ?_
          lhRoom := by show (absorb s.lh b).length < c.size; omega
          lhSmall := by show (absorb s.lh b).length ≤ logSize; omega
          held := h.held
          open_ := fun _ => ⟨hhead, ?_⟩
          phase := fun q => phase_of_not_inCommit (h.toSync.idle hc q) }
        · intro x hx
          rcases mem_absorb.mp hx with hx | rfl
          · exact h.lhHome x hx
          · exact ⟨hhome, (h.held x p hheld).2⟩
        · intro x hx
          rcases mem_absorb.mp hx with hx | rfl
          · refine ⟨(hlogged x hx).1, ?_⟩
            show (if s.lh.idxOf b = s.lh.length then _ else s.pin) x ≠ 0
            split
            · by_cases hxb : x = b
              · subst hxb
                simp
              · simpa [hxb] using (hlogged x hx).2
            · exact (hlogged x hx).2
          · refine ⟨(h.held x p hheld).1, ?_⟩
            show (if s.lh.idxOf x = s.lh.length then _ else s.pin) x ≠ 0
            split
            · simp
            · next hi =>
                have hmem : x ∈ s.lh := by
                  by_contra hx'
                  exact hi (List.idxOf_eq_length_iff.mpr hx')
                exact (hlogged x hmem).2

theorem Up.phase_of_committer (h : Up c s) (hp : (s.pc p).InCommit) {x : Pc} (s' : State)
    (hx : Phase c s' x) (q : Pid) : Phase c s' (update s.pc p x q) := by
  by_cases hqp : q = p
  · subst hqp
    simpa using hx
  · rw [update_of_ne hqp]
    refine phase_of_not_inCommit fun hq => hqp ?_
    exact h.toSync.one q p hq hp

theorem Up.endOp (h : Up c s) (hd : Durable c s.disk s.image) (hmode : s.mode = .up) {p : Pid}
    (hp : s.pc p = .running) : Inv c (endOp s p) := by
  obtain ⟨hc, -⟩ := h.toSync.not_committing hp
  obtain ⟨hhead, hlogged⟩ := h.open_ hc
  unfold Log.endOp
  rw [if_neg (by simp [hc])]
  split
  · next hout =>
      have hphase : ∀ t : State, t.disk = s.disk → t.lh = s.lh → t.pin = s.pin → t.cache = s.cache →
          t.images = s.images → t.pending = s.grouped →
          Phase c t (if s.lh.length > 0 then .writeLog 0 else .committed) := by
        intro t h1 h2 h3 h4 h5 h6
        split
        · next hlen =>
            refine ⟨by rwa [h2], by rwa [h1], ?_, ?_, by simp⟩
            · intro b hb
              rw [h2] at hb
              rw [h3, h4]
              exact hlogged b hb
            · intro b _
              rw [h6, h2]
              simp only [State.grouped, State.data, State.image, h1, h4, h5]
        · next hlen =>
            refine ⟨by rwa [h1], ?_⟩
            rw [h2]
            exact List.eq_nil_of_length_eq_zero (by omega)
      refine .up hd hmode {
        toSync := ?_
        lhHome := h.lhHome
        lhRoom := h.lhRoom
        lhSmall := h.lhSmall
        held := h.held
        open_ := fun hcom => by simp at hcom
        phase := fun q => ?_ }
      · have := h.toSync.leave (x := if s.lh.length > 0 then .writeLog 0 else .committed)
          (k := true) hp (by split <;> simp) (fun _ => hout) (fun _ => rfl)
        exact this.congr rfl rfl rfl
      · by_cases hqp : q = p
        · subst hqp
          have := hphase { s.setPc q (if s.lh.length > 0 then .writeLog 0 else .committed) with
            outstanding := s.outstanding - 1, committing := true, pending := s.grouped }
            rfl rfl rfl rfl rfl rfl
          simpa [State.setPc] using this
        · refine phase_of_not_inCommit ?_
          simpa [State.setPc, hqp] using h.toSync.idle hc q
  · next hout =>
      have hsync := h.toSync.leave (x := .idle) (k := false) hp (by simp) (by simp) (fun h => h.elim)
      refine .up hd hmode {
        toSync := hsync.wakeup.congr rfl rfl hc
        lhHome := h.lhHome
        lhRoom := h.lhRoom
        lhSmall := h.lhSmall
        held := h.held
        open_ := fun _ => ⟨hhead, hlogged⟩
        phase := fun q => phase_of_not_inCommit ?_ }
      exact hsync.wakeup.idle rfl q

/-! ### The block writes of `commit` -/

theorem Durable.write_log {disk I : Image} (h : Durable c disk I) (hempty : getHead (disk c.start) = [])
    {x : Nat} (hx : ¬c.IsHome x) (hne : x ≠ c.start) (d : Block) :
    Durable c (update disk x d) I := by
  have hstart : update disk x d c.start = disk c.start := update_of_ne hne.symm _ _
  refine ⟨?_, ?_, ?_, ?_⟩
  · rw [hstart]
    exact h.room
  · rw [hstart]
    exact h.home
  · rw [hstart, hempty]
    simp
  · rw [hstart]
    intro b hb hmem
    rw [update_of_ne (hb.ne hx)]
    exact h.rest b hb hmem

theorem Up.writeLog (h : Up c s) (hd : Durable c s.disk s.image) (hmode : s.mode = .up) {p : Pid}
    {tail : Nat} (hp : s.pc p = .writeLog tail) :
    Inv c ((writeLog c s tail).setPc p
      (if tail + 1 < s.lh.length then .writeLog (tail + 1) else .writeHead)) := by
  have hin : (s.pc p).InCommit := by simp [hp, Pc.InCommit]
  have hcom := h.toSync.committing_of_inCommit hin
  obtain ⟨htail, hhead, hlogged, hpend, hcopies⟩ : Phase c s (.writeLog tail) := hp ▸ h.phase p
  have hroom := h.lhRoom
  have hlog : ¬c.IsHome (c.start + tail + 1) := Cfg.not_isHome_log (by omega)
  have hhome : ∀ i, i < s.lh.length → c.IsHome (s.lh.getD i 0) :=
    fun i hi => (h.lhHome _ (getD_mem hi)).1
  set t := Log.writeLog c s tail with ht
  have hdisk : t.disk = update s.disk (c.start + tail + 1) (s.data (s.lh.getD tail 0)) := rfl
  have hdata : ∀ x, t.data x = if x = c.start + tail + 1 then s.data (s.lh.getD tail 0) else s.data x := by
    intro x
    rw [ht, Log.writeLog, data_bwrite, data_bread]
  have hdataHome : ∀ b, c.IsHome b → t.data b = s.data b := by
    intro b hb
    rw [hdata, if_neg (hb.ne hlog)]
  have hheadt : getHead (t.disk c.start) = [] := by
    rw [hdisk, update_of_ne (by omega)]
    exact hhead
  have hloggedt : Logged t := fun b hb =>
    ⟨isSome_bwrite (isSome_bread (hlogged b hb).1), (hlogged b hb).2⟩
  have hpendt : Pend c t := by
    intro b hb
    rw [hdataHome b hb]
    exact hpend b hb
  have hcopiest : ∀ i, i < tail + 1 → LogCopy c t i (s.pending (s.lh.getD i 0)) := by
    intro i hi
    by_cases hit : i = tail
    · subst hit
      have hpi : s.pending (s.lh.getD i 0) = s.data (s.lh.getD i 0) := by
        rw [hpend _ (hhome i htail), if_pos (getD_mem htail)]
      refine ⟨?_, ?_⟩
      · rw [hdisk, update_self, hpi]
      · rw [hdata, if_pos rfl, hpi]
    · have hne : c.start + i + 1 ≠ c.start + tail + 1 := by omega
      obtain ⟨h1, h2⟩ := hcopies i (by omega)
      refine ⟨?_, ?_⟩
      · rw [hdisk, update_of_ne hne, h1]
      · rw [hdata, if_neg hne, h2]
  have hphase : Phase c t (if tail + 1 < s.lh.length then .writeLog (tail + 1) else .writeHead) := by
    split
    · next hlt => exact ⟨hlt, hheadt, hloggedt, hpendt, hcopiest⟩
    · next hlt =>
        refine ⟨by show 0 < s.lh.length; omega, hheadt, hloggedt, hpendt, ?_⟩
        intro i hi
        have hi' : i < s.lh.length := hi
        exact hcopiest i (by omega)
  refine .up (hd.write_log hhead hlog (by omega) _) hmode {
    toSync := ?_
    lhHome := h.lhHome
    lhRoom := h.lhRoom
    lhSmall := h.lhSmall
    held := fun b q hq => ⟨isSome_bwrite (isSome_bread (h.held b q hq).1), (h.held b q hq).2⟩
    open_ := fun hc => ?_
    phase := fun q => ?_ }
  · have hs : Sync t := h.toSync.congr rfl rfl rfl
    refine hs.setPc ?_ (by split <;> simp) (fun _ => hin)
    show s.pc p ≠ .running
    simp [hp]
  · have : s.committing = false := hc
    simp [hcom] at this
  · exact h.phase_of_committer hin t hphase q

theorem Up.writeHead (h : Up c s) (hd : Durable c s.disk s.image) (hmode : s.mode = .up) {p : Pid}
    (hp : s.pc p = .writeHead) :
    Inv c { (writeHead c s).setPc p (.install 0) with images := s.pending :: s.images } := by
  have hin : (s.pc p).InCommit := by simp [hp, Pc.InCommit]
  have hcom := h.toSync.committing_of_inCommit hin
  obtain ⟨hlen, hhead, hlogged, hpend, hcopies⟩ : Phase c s .writeHead := hp ▸ h.phase p
  have hroom := h.lhRoom
  have hsmall := h.lhSmall
  have hlog : ∀ i, i < s.lh.length → ¬c.IsHome (c.start + i + 1) :=
    fun i hi => Cfg.not_isHome_log (by omega)
  set t := Log.writeHead c s with ht
  have hdisk : t.disk = update s.disk c.start (putHead (s.data c.start) s.lh) := rfl
  have hheadt : getHead (t.disk c.start) = s.lh := by
    rw [hdisk, update_self]
    refine getHead_putHead _ _ ?_ fun b hb => (h.lhHome b hb).2
    exact lt_of_le_of_lt hsmall (by decide)
  have hne : ∀ i, c.start + i + 1 ≠ c.start := fun i => by omega
  have hdurable : Durable c t.disk s.pending := by
    refine ⟨?_, ?_, ?_, ?_⟩
    · rw [hheadt]
      exact hroom
    · rw [hheadt]
      exact fun b hb => (h.lhHome b hb).1
    · rw [hheadt]
      intro i hi
      rw [hdisk, update_of_ne (hne i)]
      exact (hcopies i hi).1
    · rw [hheadt]
      intro b hb hmem
      rw [hdisk, update_of_ne (hb.ne c.not_isHome_start), hpend b hb, if_neg hmem]
      exact hd.rest b hb (by simp [hhead])
  have hphase : Phase c { t with images := s.pending :: s.images } (.install 0) := by
    refine ⟨hlen, hheadt, ?_, by simp⟩
    intro i hi
    show t.data (c.start + i + 1) = t.disk (c.start + i + 1)
    rw [hdisk, update_of_ne (hne i), ht, Log.writeHead, data_bwrite, if_neg (hne i)]
    rw [(hcopies i hi).1, (hcopies i hi).2]
  refine .up hdurable hmode {
    toSync := ?_
    lhHome := h.lhHome
    lhRoom := h.lhRoom
    lhSmall := h.lhSmall
    held := fun b q hq => ⟨isSome_bwrite (h.held b q hq).1, (h.held b q hq).2⟩
    open_ := fun hc => ?_
    phase := fun q => h.phase_of_committer hin { t with images := s.pending :: s.images } hphase q }
  · have hs : Sync t := h.toSync.congr rfl rfl rfl
    refine (hs.setPc (p := p) (x := .install 0) ?_ (by simp) (fun _ => hin)).congr rfl rfl rfl
    show s.pc p ≠ .running
    simp [hp]
  · have : s.committing = false := hc
    simp [hcom] at this

/-- One turn of `install_trans` on a disk whose header is `log.lh`, read through the cache. -/
theorem installTrans_disk {tail : Nat} (hhead : getHead (s.disk c.start) = s.lh)
    (hcoh : s.data (c.start + tail + 1) = s.disk (c.start + tail + 1)) :
    (installTrans c s tail).disk = update s.disk ((getHead (s.disk c.start)).getD tail 0)
      (s.disk (c.start + tail + 1)) := by
  rw [hhead, ← hcoh]
  rfl

theorem data_installTrans (tail x : Nat) : (installTrans c s tail).data x =
    if x = s.lh.getD tail 0 then s.data (c.start + tail + 1) else s.data x := by
  rw [installTrans, data_bwrite, data_bread]

theorem installTrans_done (hd : Durable c s.disk s.image) {tail : Nat}
    (hhead : getHead (s.disk c.start) = s.lh) (htail : tail < s.lh.length)
    (hcoh : s.data (c.start + tail + 1) = s.disk (c.start + tail + 1))
    (hdone : ∀ i, i < tail → s.disk (s.lh.getD i 0) = s.image (s.lh.getD i 0)) :
    ∀ i, i < tail + 1 → (installTrans c s tail).disk (s.lh.getD i 0) = s.image (s.lh.getD i 0) := by
  intro i hi
  rw [installTrans_disk hhead hcoh, hhead]
  by_cases heq : s.lh.getD i 0 = s.lh.getD tail 0
  · rw [heq, update_self]
    have := hd.copies tail (by rw [hhead]; exact htail)
    rwa [hhead] at this
  · rw [update_of_ne heq]
    have hne : i ≠ tail := by
      rintro rfl
      exact heq rfl
    exact hdone i (by omega)

theorem installTrans_start (hd : Durable c s.disk s.image) {tail : Nat}
    (hhead : getHead (s.disk c.start) = s.lh) (htail : tail < s.lh.length) :
    (installTrans c s tail).disk c.start = s.disk c.start := by
  have hhome : c.IsHome (s.lh.getD tail 0) := hd.home _ (by rw [hhead]; exact getD_mem htail)
  exact update_of_ne (hhome.ne c.not_isHome_start).symm _ _

section

variable (h : Up c s) (hd : Durable c s.disk s.image) (hmode : s.mode = .up)
include h hd hmode

theorem Up.install
    {tail : Nat} (hp : s.pc p = .install tail) :
    Inv c ((unpin (installTrans c s tail) tail).setPc p
      (if tail + 1 < s.lh.length then .install (tail + 1) else .clearHead)) := by
  have hin : (s.pc p).InCommit := by simp [hp, Pc.InCommit]
  have hcom := h.toSync.committing_of_inCommit hin
  obtain ⟨htail, hhead, hcoh, hdone⟩ : Phase c s (.install tail) := hp ▸ h.phase p
  have hroom := h.lhRoom
  have hhome : c.IsHome (s.lh.getD tail 0) := (h.lhHome _ (getD_mem htail)).1
  have hdisk := installTrans_disk hhead (hcoh tail htail)
  have hdonet := installTrans_done hd hhead htail (hcoh tail htail) hdone
  set t := unpin (installTrans c s tail) tail with ht
  have htdisk : t.disk = (installTrans c s tail).disk := rfl
  have hheadt : getHead (t.disk c.start) = s.lh := by
    rw [htdisk, installTrans_start hd hhead htail, hhead]
  have hcoht : ∀ i, i < s.lh.length → t.data (c.start + i + 1) = t.disk (c.start + i + 1) := by
    intro i hi
    have hlog : ¬c.IsHome (c.start + i + 1) := Cfg.not_isHome_log (by omega)
    have hne : c.start + i + 1 ≠ s.lh.getD tail 0 := (hhome.ne hlog).symm
    have hdata : t.data (c.start + i + 1) = s.data (c.start + i + 1) := by
      show (installTrans c s tail).data (c.start + i + 1) = _
      rw [data_installTrans, if_neg hne]
    rw [hdata, htdisk, hdisk, hhead, update_of_ne hne]
    exact hcoh i hi
  have hphase : Phase c t (if tail + 1 < s.lh.length then .install (tail + 1) else .clearHead) := by
    split
    · next hlt => exact ⟨hlt, hheadt, hcoht, hdonet⟩
    · next hlt =>
        refine ⟨hheadt, ?_⟩
        intro i hi
        have hi' : i < s.lh.length := hi
        exact hdonet i (by omega)
  have hdurable : Durable c t.disk s.image := by
    rw [htdisk, hdisk]
    exact hd.install (by rw [hhead]; exact htail)
  refine .up hdurable hmode {
    toSync := ?_
    lhHome := h.lhHome
    lhRoom := h.lhRoom
    lhSmall := h.lhSmall
    held := fun b q hq => ⟨isSome_bwrite (isSome_bread (h.held b q hq).1), (h.held b q hq).2⟩
    open_ := fun hc => ?_
    phase := fun q => h.phase_of_committer hin t hphase q }
  · have hs : Sync t := h.toSync.congr rfl rfl rfl
    refine hs.setPc ?_ (by split <;> simp) (fun _ => hin)
    show s.pc p ≠ .running
    simp [hp]
  · have : s.committing = false := hc
    simp [hcom] at this

theorem Up.clearHead {p : Pid}
    (hp : s.pc p = .clearHead) : Inv c ((clearHead c s).setPc p .committed) := by
  have hin : (s.pc p).InCommit := by simp [hp, Pc.InCommit]
  have hcom := h.toSync.committing_of_inCommit hin
  obtain ⟨hhead, hdone⟩ : Phase c s .clearHead := hp ▸ h.phase p
  have hhome : ∀ b, c.IsHome b → s.disk b = s.image b :=
    hd.home_eq (by rw [hhead]; exact hdone)
  have hphase : Phase c (Log.clearHead c s) .committed := by
    refine ⟨?_, rfl⟩
    show getHead (update s.disk c.start (putHead (s.data c.start) []) c.start) = []
    rw [update_self]
    exact getHead_putHead_nil _
  refine .up (Durable.clear _ hhome) hmode {
    toSync := ?_
    lhHome := by simp [Log.clearHead, Log.writeHead, State.bwrite, State.setPc]
    lhRoom := c.size_pos
    lhSmall := Nat.zero_le _
    held := fun b q hq => ⟨isSome_bwrite (s := { s with lh := [] }) (h.held b q hq).1, (h.held b q hq).2⟩
    open_ := fun hc => ?_
    phase := fun q => h.phase_of_committer hin (Log.clearHead c s) hphase q }
  · have hs : Sync (Log.clearHead c s) := h.toSync.congr rfl rfl rfl
    refine hs.setPc ?_ (by simp) (fun _ => hin)
    show s.pc p ≠ .running
    simp [hp]
  · have : s.committing = false := hc
    simp [hcom] at this

theorem Up.finish {p : Pid}
    (hp : s.pc p = .committed) : Inv c (finish s p) := by
  obtain ⟨hhead, hlh⟩ : Phase c s .committed := hp ▸ h.phase p
  have hsync := h.toSync.finish hp
  refine .up hd hmode {
    toSync := hsync
    lhHome := h.lhHome
    lhRoom := h.lhRoom
    lhSmall := h.lhSmall
    held := h.held
    open_ := fun _ => ⟨hhead, ?_⟩
    phase := fun q => phase_of_not_inCommit (hsync.idle rfl q) }
  intro b hb
  have : b ∈ s.lh := hb
  simp [hlh] at this

end

/-- What is assumed of the users of the log: logged blocks are home blocks. -/
def HomeWrites (c : Cfg) (_ : State) : Event → Prop
  | .logWrite _ b => c.IsHome b
  | _ => True

instance (c : Cfg) (s : State) (e : Event) : Decidable (HomeWrites c s e) := by
  unfold HomeWrites
  split <;> infer_instance

/-- Every event of a running machine keeps the invariant, provided logged blocks are home blocks. -/
theorem Inv.stepUp (h : Inv c s) (hmode : s.mode = .up) (hC : HomeWrites c s e)
    (hs : stepUp c s e = some s') : Inv c s' := by
  obtain ⟨hd, hm⟩ := h
  have hu : Up c s := by rwa [hmode] at hm
  cases e with
  | beginOp p =>
    obtain ⟨hp, rfl⟩ := guarded hs
    exact .up hd hmode (hu.setPc (by simp [hp]) (by simp) id)
  | beginTest p =>
    obtain ⟨hp, rfl⟩ := guarded hs
    have hmode' : (Log.beginOp s p).mode = .up := by
      unfold Log.beginOp
      split
      · exact hmode
      · split <;> exact hmode
    have hd' : Durable c (Log.beginOp s p).disk (Log.beginOp s p).image := by
      unfold Log.beginOp
      split
      · exact hd
      · split <;> exact hd
    exact .up hd' hmode' (hu.beginTest hp)
  | bread p b =>
    obtain ⟨⟨-, -, hb⟩, rfl⟩ := guarded hs
    exact .up hd hmode (hu.bread hb)
  | modify p b d =>
    obtain ⟨⟨hp, -⟩, rfl⟩ := guarded hs
    exact .up hd hmode (hu.modify hp)
  | logWrite p b =>
    obtain ⟨⟨hp, hheld⟩, rfl⟩ := guarded hs
    exact hu.logWrite hd hmode hp hheld hC
  | brelse p b =>
    obtain ⟨-, rfl⟩ := guarded hs
    exact .up hd hmode hu.brelse
  | endOp p =>
    obtain ⟨hp, rfl⟩ := guarded hs
    exact hu.endOp hd hmode hp
  | writeLog p =>
    simp only [Log.stepUp] at hs
    split at hs
    · next tail hp =>
        obtain ⟨-, rfl⟩ := guarded hs
        exact hu.writeLog hd hmode hp
    · simp at hs
  | writeHead p =>
    obtain ⟨⟨hp, -⟩, rfl⟩ := guarded hs
    exact hu.writeHead hd hmode hp
  | install p =>
    simp only [Log.stepUp] at hs
    split at hs
    · next tail hp =>
        obtain ⟨-, rfl⟩ := guarded hs
        exact hu.install hd hmode hp
    · simp at hs
  | clearHead p =>
    obtain ⟨⟨hp, -⟩, rfl⟩ := guarded hs
    exact hu.clearHead hd hmode hp
  | finish p =>
    obtain ⟨hp, rfl⟩ := guarded hs
    exact hu.finish hd hmode hp
  | evict b =>
    obtain ⟨⟨hb, hpin⟩, rfl⟩ := guarded hs
    exact .up hd hmode (hu.evict hb hpin)
  | crash | readHead | recoverInstall | recoverClear => simp [Log.stepUp] at hs

/-! ### Recovery and whole runs -/

theorem Recovering.install (h : Recovering c s tail) (hd : Durable c s.disk s.image)
    (htail : tail < s.lh.length) :
    Durable c (installTrans c s tail).disk s.image ∧
      Recovering c { installTrans c s tail with mode := .recovering (tail + 1) } (tail + 1) := by
  have hhead := h.lh.symm
  have hcoh := h.cache (c.start + tail + 1)
  have hdisk := installTrans_disk hhead hcoh
  refine ⟨?_, ?_, ?_, ?_, h.fresh⟩
  · rw [hdisk]
    exact hd.install (by rw [hhead]; exact htail)
  · show s.lh = getHead ((installTrans c s tail).disk c.start)
    rw [installTrans_start hd hhead htail, hhead]
  · intro b
    show (installTrans c s tail).data b = (installTrans c s tail).disk b
    rw [data_installTrans, hdisk, hhead, hcoh, h.cache b, update_apply]
  · exact installTrans_done hd hhead htail hcoh h.done

theorem Recovering.clear (h : Recovering c s s.lh.length) (hd : Durable c s.disk s.image) :
    Inv c { clearHead c s with mode := .up } ∧ ∀ b, c.IsHome b → (clearHead c s).disk b = s.image b := by
  obtain ⟨hpc, hholder, hout, hcom⟩ := h.fresh
  have hhome : ∀ b, c.IsHome b → s.disk b = s.image b :=
    hd.home_eq (by rw [← h.lh]; exact h.done)
  have hidle : ∀ p, ¬(s.pc p).InCommit := by
    intro p
    rw [hpc]
    exact id
  refine ⟨.up (Durable.clear _ hhome) rfl {
    running := ⟨∅, ?_, hout.symm⟩
    one := fun p q hp _ => absurd hp (hidle p)
    idle := fun _ => hidle
    quiet := fun _ => hout
    lhHome := by simp [Log.clearHead, Log.writeHead, State.bwrite]
    lhRoom := c.size_pos
    lhSmall := Nat.zero_le _
    held := fun b p hp => ?_
    open_ := fun _ => ⟨?_, fun b hb => by simp [Log.clearHead, Log.writeHead, State.bwrite] at hb⟩
    phase := fun p => phase_of_not_inCommit (hidle p) }, ?_⟩
  · intro p
    show p ∈ ∅ ↔ s.pc p = .running
    simp [hpc]
  · have : s.holder b = some p := hp
    simp [hholder] at this
  · show getHead (update s.disk c.start (putHead (s.data c.start) []) c.start) = []
    rw [update_self]
    exact getHead_putHead_nil _
  · intro b hb
    show update s.disk c.start _ b = s.image b
    rw [update_of_ne (hb.ne c.not_isHome_start)]
    exact hhome b hb

theorem Inv.crash (h : Durable c s.disk s.image) : Inv c s.reset :=
  ⟨h, rfl, rfl, rfl, rfl, rfl⟩

/-- Every step of `recover_from_log` keeps the invariant, and the last one leaves the image. -/
theorem Inv.stepRecover (h : Inv c s) (hs : stepRecover c s e = some s') :
    Inv c s' ∧ (e = .recoverClear → ∀ b, c.IsHome b → s'.disk b = s'.image b) := by
  obtain ⟨hd, hm⟩ := h
  cases e with
  | readHead =>
    obtain ⟨hmode, rfl⟩ := guarded hs
    rw [hmode] at hm
    obtain ⟨hcache, hpc, hholder, hout, hcom⟩ := hm
    have hdata : ∀ b, s.data b = s.disk b := by simp [State.data, hcache]
    refine ⟨⟨hd, Nat.zero_le _, ?_, ?_, by simp, hpc, hholder, hout, hcom⟩, by simp⟩
    · show getHead (s.data c.start) = getHead (s.disk c.start)
      rw [hdata]
    · intro b
      exact (data_bread s c.start b).trans (hdata b)
  | recoverInstall =>
    simp only [Log.stepRecover] at hs
    split at hs
    · next tail hmode =>
        obtain ⟨htail, rfl⟩ := guarded hs
        rw [hmode] at hm
        obtain ⟨h1, h2⟩ := hm.2.install hd htail
        exact ⟨⟨h1, htail, h2⟩, by simp⟩
    · simp at hs
  | recoverClear =>
    obtain ⟨hmode, rfl⟩ := guarded hs
    rw [hmode] at hm
    obtain ⟨h1, h2⟩ := hm.2.clear hd
    exact ⟨h1, fun _ => h2⟩
  | _ => simp [Log.stepRecover] at hs

theorem Inv.step (h : Inv c s) (hC : HomeWrites c s e) (hs : step c s e = some s') :
    Inv c s' ∧ (e = .recoverClear → ∀ b, c.IsHome b → s'.disk b = s'.image b) := by
  by_cases he : e = .crash
  · subst he
    cases Option.some.inj hs
    exact ⟨.crash h.durable, by simp⟩
  · have hs' : (if s.mode = .up then Log.stepUp c s e else Log.stepRecover c s e) = some s' := by
      rw [← hs]
      cases e <;> first | rfl | exact absurd rfl he
    split at hs'
    · next hmode =>
        refine ⟨h.stepUp hmode hC hs', ?_⟩
        rintro rfl
        simp [Log.stepUp] at hs'
    · exact h.stepRecover hs'

/-- The events that write the header of a commit group to the disk. -/
def Event.isCommit : Event → Bool
  | .writeHead _ => true
  | _ => false

theorem stepUp_images (hs : stepUp c s e = some s') :
    s'.images.length = s.images.length + if e.isCommit then 1 else 0 := by
  cases e with
  | beginTest p =>
    obtain ⟨-, rfl⟩ := guarded hs
    unfold Log.beginOp
    split
    · rfl
    · split <;> rfl
  | logWrite p b =>
    obtain ⟨-, rfl⟩ := guarded hs
    unfold Log.logWrite
    split
    · rfl
    · split <;> rfl
  | endOp p =>
    obtain ⟨-, rfl⟩ := guarded hs
    unfold Log.endOp
    split
    · rfl
    · split <;> rfl
  | writeLog p | install p =>
    simp only [Log.stepUp] at hs
    split at hs
    · obtain ⟨-, rfl⟩ := guarded hs
      rfl
    · simp at hs
  | writeHead p =>
    obtain ⟨-, rfl⟩ := guarded hs
    simp [Event.isCommit]
  | beginOp p | bread p b | modify p b d | brelse p b | clearHead p | finish p | evict b =>
    obtain ⟨-, rfl⟩ := guarded hs
    rfl
  | crash | readHead | recoverInstall | recoverClear => simp [Log.stepUp] at hs

theorem step_images (hs : step c s e = some s') :
    s'.images.length = s.images.length + if e.isCommit then 1 else 0 := by
  by_cases he : e = .crash
  · subst he
    cases Option.some.inj hs
    rfl
  · have hs' : (if s.mode = .up then Log.stepUp c s e else Log.stepRecover c s e) = some s' := by
      rw [← hs]
      cases e <;> first | rfl | exact absurd rfl he
    split at hs'
    · exact stepUp_images hs'
    · cases e with
      | readHead | recoverClear =>
        obtain ⟨-, rfl⟩ := guarded hs'
        rfl
      | recoverInstall =>
        simp only [Log.stepRecover] at hs'
        split at hs'
        · obtain ⟨-, rfl⟩ := guarded hs'
          rfl
        · simp at hs'
      | _ => simp [Log.stepRecover] at hs'

theorem Inv.initial {disk : Image} (h : getHead (disk c.start) = []) : Inv c (initial disk) := by
  refine ⟨⟨?_, ?_, ?_, fun _ _ _ => rfl⟩, rfl, rfl, rfl, rfl, rfl⟩
  · show (getHead (disk c.start)).length < c.size
    rw [h]
    exact c.size_pos
  · show ∀ b ∈ getHead (disk c.start), c.IsHome b
    simp [h]
  · show ∀ i, i < (getHead (disk c.start)).length → _
    simp [h]

/-- **Crash atomicity.** In every run from a disk with an empty log, with any number of processes,
crashes and interrupted recoveries, one image is recorded for each commit group whose header
reached the disk. A crash in the state reached, followed by an uninterrupted recovery, leaves every
home block as the newest of them has it, and so does a recovery that ends in the run itself. -/
theorem recover_from_any_crash (c : Cfg) (disk : Image) (hempty : getHead (disk c.start) = [])
    (tr : List Event) (s : State)
    (hrun : Run (step c) (HomeWrites c) (initial disk) tr s) :
    s.images.length = tr.countP Event.isCommit + 1 ∧
    (∀ b, c.IsHome b → recoverFromLog c s.disk b = s.image b) ∧
    (tr.getLast? = some .recoverClear → ∀ b, c.IsHome b → s.disk b = s.image b) := by
  have h := hrun.invariant_trace (P := fun l s => Inv c s ∧ s.images.length = l.countP Event.isCommit + 1 ∧
      (l.getLast? = some .recoverClear → ∀ b, c.IsHome b → s.disk b = s.image b))
    ⟨.initial hempty, rfl, by simp⟩ ?_
  · exact ⟨h.2.1, h.1.durable.recoverFromLog, h.2.2⟩
  · rintro l a e b ⟨hinv, hlen, -⟩ hC hs
    obtain ⟨hinv', hclear⟩ := hinv.step hC hs
    refine ⟨hinv', ?_, ?_⟩
    · rw [step_images hs, hlen, List.countP_append, List.countP_singleton]
      omega
    · intro hlast
      exact hclear (by simpa using hlast)

/-- One group of one block, cut off after its header was written, and then again in the middle of
the recovery. -/
def interruptedCommit : List Event :=
  [.readHead, .recoverClear, .beginOp 0, .beginTest 0, .bread 0 50, .modify 0 50 (fun _ => 7),
    .logWrite 0 50, .brelse 0 50, .endOp 0, .writeLog 0, .writeHead 0, .crash, .readHead,
    .recoverInstall, .crash]

theorem interruptedCommit_recovers : ∃ s,
    Run (step mkfsLog) (HomeWrites mkfsLog) (initial fun _ _ => 0) interruptedCommit s ∧
      s.images.length = 2 ∧ recoverFromLog mkfsLog s.disk 50 0 = 7 := by
  have hsome : (exec (step mkfsLog) (HomeWrites mkfsLog) (initial fun _ _ => 0)
      interruptedCommit).isSome := by decide
  obtain ⟨h1, h2, -⟩ := recover_from_any_crash mkfsLog (fun _ _ => 0) (by decide) _ _ (run_get hsome)
  refine ⟨_, run_get hsome, h1, ?_⟩
  rw [h2 50 (by decide)]
  rfl

end Xv6Armv8.Log
