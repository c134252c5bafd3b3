import Xv6Armv8.PipeModel

/-! The pipe is a queue. In every state the ring holds what was taken from writers and not yet taken by readers, in
that order. The rest is bookkeeping about who is where: a process in one of the loops has the lock, a writer has put
as many bytes as it has counted, and a reader that comes out of the first loop sees a byte or a closed write end. -/

namespace Xv6Armv8.Pipe

open Function StepRun

variable {s s' : State} {p : Pid} {n : Int} {i : Nat} {io : Option UInt8}

/-- Whether a process that is there has the lock. -/
def Pc.inside : Pc → Bool
  | .wLoop _ _ | .rTest _ | .rCopy _ _ => true
  | _ => false

/-- What the place of a writer says about the bytes taken from it. -/
def Tally (mine : List UInt8) : Pc → Prop
  | .wEnter _ i | .wLoop _ i | .wAsleep _ i => mine.length = i
  | .wrote _ r => 0 ≤ r → r = mine.length
  | _ => True

structure Inv (s : State) : Prop where
  queue : ∃ q, Ring.Holds pipeSize uintMod s.data s.nread s.nwrite q ∧ s.accepted = s.removed ++ q
  lock : ∀ p, (s.pc p).inside → s.lock = some p
  tally : ∀ p, Tally (s.mine p) (s.pc p)
  first : ∀ p n, s.pc p = .rCopy n 0 → s.nread ≠ s.nwrite ∨ s.writeopen = false

theorem dvd_uintMod : pipeSize ∣ uintMod := by decide

theorem pipeSize_lt : pipeSize < uintMod := by decide

/-! ### Waking up -/

theorem inside_wake (ch : Chan) (pc : Pc) : (pc.wake ch).inside = pc.inside := by
  cases pc with
  | wAsleep n i => cases ch <;> rfl
  | rAsleep n => cases ch <;> rfl
  | _ => rfl

variable {pc : Pc} {q : Pid}

theorem tally_wake {mine : List UInt8} (ch : Chan) (h : Tally mine pc) : Tally mine (pc.wake ch) := by
  cases pc with
  | wAsleep n i => cases ch <;> exact h
  | rAsleep n => cases ch <;> trivial
  | _ => exact h

theorem wake_of_inside {ch : Chan} (h : (pc.wake ch).inside) : pc.wake ch = pc := by
  rw [inside_wake] at h
  cases pc with
  | wAsleep n i => cases h
  | rAsleep n => cases h
  | _ => rfl

/-! ### One step -/

/-- A process that the step of another one leaves where it was, or wakes. -/
def Left (s s' : State) (q : Pid) : Prop :=
  (s'.pc q = s.pc q ∨ ∃ ch, s'.pc q = (s.pc q).wake ch) ∧ s'.mine q = s.mine q

theorem Left.tally (hl : Left s s' q) (h : Tally (s.mine q) (s.pc q)) : Tally (s'.mine q) (s'.pc q) := by
  rw [hl.2]
  rcases hl.1 with he | ⟨ch, he⟩
  · rw [he]
    exact h
  · rw [he]
    exact tally_wake ch h

theorem Left.pc_eq (hl : Left s s' q) (h : (s'.pc q).inside) : s'.pc q = s.pc q := by
  rcases hl.1 with he | ⟨ch, he⟩
  · exact he
  · rw [he] at h ⊢
    exact wake_of_inside h

/-- A step of `p` that has the lock or finds it free, or that does not touch the pipe. -/
def Allowed (s s' : State) (p : Pid) : Prop :=
  s.lock = none ∨ s.lock = some p ∨
    (s'.lock = s.lock ∧ s'.nread = s.nread ∧ s'.nwrite = s.nwrite ∧ s'.writeopen = s.writeopen)

theorem Inv.change (h : Inv s) (ha : Allowed s s' p)
    (hq : ∃ q, Ring.Holds pipeSize uintMod s'.data s'.nread s'.nwrite q ∧ s'.accepted = s'.removed ++ q)
    (hleft : ∀ q, q ≠ p → Left s s' q) (hlock : (s'.pc p).inside → s'.lock = some p)
    (htally : Tally (s'.mine p) (s'.pc p))
    (hfirst : ∀ n, s'.pc p = .rCopy n 0 → s'.nread ≠ s'.nwrite ∨ s'.writeopen = false) : Inv s' := by
  -- another process in a loop has the lock, so the step is none on the pipe
  have hother : ∀ q, q ≠ p → (s'.pc q).inside → s'.pc q = s.pc q ∧ s.lock = some q ∧
      s'.lock = s.lock ∧ s'.nread = s.nread ∧ s'.nwrite = s.nwrite ∧ s'.writeopen = s.writeopen := by
    intro q hne hin
    have hpc := (hleft q hne).pc_eq hin
    have hl : s.lock = some q := h.lock q (hpc ▸ hin)
    refine ⟨hpc, hl, ?_⟩
    rcases ha with hnone | hp | hsame
    · exact nomatch hnone.symm.trans hl
    · exact absurd (Option.some.inj (hl.symm.trans hp)) hne
    · exact hsame
  refine ⟨hq, fun q hin => ?_, fun q => ?_, fun q n hpc => ?_⟩
  · by_cases hqp : q = p
    · rw [hqp] at hin ⊢
      exact hlock hin
    · obtain ⟨-, hl, hkeep, -⟩ := hother q hqp hin
      exact hkeep.trans hl
  · by_cases hqp : q = p
    · rw [hqp]
      exact htally
    · exact (hleft q hqp).tally (h.tally q)
  · by_cases hqp : q = p
    · exact hfirst n (hqp ▸ hpc)
    · obtain ⟨hpc', -, -, hr, hw, hopen⟩ := hother q hqp (by rw [hpc]; rfl)
      rw [hr, hw, hopen]
      exact h.first q n (hpc'.symm.trans hpc)

theorem left_goto (s : State) (pc : Pc) (hne : q ≠ p) : Left s (s.goto p pc) q :=
  ⟨.inl (update_of_ne hne ..), rfl⟩

theorem left_leave (s : State) (ch : Chan) (pc : Pc) (hne : q ≠ p) : Left s (s.leave p ch pc) q :=
  ⟨.inr ⟨ch, update_of_ne hne ..⟩, rfl⟩

theorem goto_pc (s : State) (p : Pid) (pc : Pc) : (s.goto p pc).pc p = pc := update_self ..

theorem leave_pc (s : State) (p : Pid) (ch : Chan) (pc : Pc) : (s.leave p ch pc).pc p = pc :=
  update_self ..

section

variable (h : Inv s)
include h

/-- The process that has the lock gives it back and goes on where it does not need it. -/
theorem Inv.leave (hl : s.lock = some p) (ch : Chan) (hout : pc.inside = false)
    (ht : Tally (s.mine p) pc) : Inv (s.leave p ch pc) := by
  refine h.change (.inr (.inl hl)) h.queue (fun q hne => left_leave s ch pc hne) ?_ ?_ ?_
  · rw [leave_pc, hout]
    exact nofun
  · rw [leave_pc]
    exact ht
  · intro n hpc
    rw [leave_pc] at hpc
    rw [hpc] at hout
    cases hout

theorem Inv.release (hl : s.lock = some p) (hout : pc.inside = false)
    (ht : Tally (s.mine p) pc) : Inv { s.goto p pc with lock := none } := by
  refine h.change (.inr (.inl hl)) h.queue (fun q hne => left_goto s pc hne) ?_ ?_ ?_
  · change (update s.pc p pc p).inside → _
    rw [update_self, hout]
    exact nofun
  · change Tally (s.mine p) (update s.pc p pc p)
    rw [update_self]
    exact ht
  · intro n hpc
    have hpc : update s.pc p pc p = _ := hpc
    rw [update_self] at hpc
    rw [hpc] at hout
    cases hout

theorem Inv.put (hl : s.lock = some p) (hpc : s.pc p = .wLoop n i)
    (hroom : s.nwrite ≠ (s.nread + pipeSize) % uintMod) (ch : UInt8) :
    Inv ((s.put p ch).goto p (.wLoop n (i + 1))) := by
  obtain ⟨q, hq, hacc⟩ := h.queue
  have hlen : q.length < pipeSize :=
    Nat.lt_of_le_of_ne hq.room fun he => hroom ((hq.full_iff pipeSize_lt).mpr he)
  have hmine : (s.mine p).length = i := by
    have := h.tally p
    rwa [hpc] at this
  refine h.change (.inr (.inl hl)) ⟨q ++ [ch], hq.push dvd_uintMod pipeSize_lt hlen ch, ?_⟩ ?_ ?_ ?_ ?_
  · change s.accepted ++ [ch] = s.removed ++ (q ++ [ch])
    rw [hacc, List.append_assoc]
  · intro r hne
    exact ⟨.inl (update_of_ne hne ..), update_of_ne hne ..⟩
  · exact fun _ => hl
  · rw [goto_pc]
    change (update s.mine p (s.mine p ++ [ch]) p).length = i + 1
    rw [update_self, List.length_append, hmine]
    rfl
  · intro m hm
    rw [goto_pc] at hm
    cases hm

theorem take_queue (hne : s.nread ≠ s.nwrite) :
    ∃ q, Ring.Holds pipeSize uintMod s.take.data s.take.nread s.take.nwrite q ∧
      s.take.accepted = s.take.removed ++ q := by
  obtain ⟨q, hq, hacc⟩ := h.queue
  cases q with
  | nil => exact absurd (hq.empty_iff.mpr rfl) hne
  | cons x q =>
    obtain ⟨hx, hpop⟩ := hq.pop dvd_uintMod
    refine ⟨q, hpop, ?_⟩
    calc s.accepted = s.removed ++ (x :: q) := hacc
      _ = (s.removed ++ [x]) ++ q := by rw [List.append_assoc]; rfl
      _ = (s.removed ++ [s.data (s.nread % pipeSize)]) ++ q := by rw [hx]

theorem Inv.pipewrite (hpc : s.pc p = .wLoop n i) (io : Option UInt8) :
    Inv (pipewrite s p n i io) := by
  have hl : s.lock = some p := h.lock p (by rw [hpc]; rfl)
  have hmine : (s.mine p).length = i := by
    have := h.tally p
    rwa [hpc] at this
  unfold Pipe.pipewrite
  split
  · split
    · exact h.release hl rfl nofun
    · split
      · exact h.leave hl .nread rfl hmine
      · next hroom =>
          cases io with
          | none => exact h.leave hl .nread rfl fun _ => congrArg Int.ofNat hmine.symm
          | some ch => exact h.put hl hpc hroom ch
  · exact h.leave hl .nread rfl fun _ => congrArg Int.ofNat hmine.symm

theorem Inv.pipereadTest (hpc : s.pc p = .rTest n) : Inv (pipereadTest s p n) := by
  have hl : s.lock = some p := h.lock p (by rw [hpc]; rfl)
  rw [Pipe.pipereadTest]
  split
  · split
    · exact h.release hl rfl trivial
    · exact h.release hl rfl trivial
  · next hgo =>
      refine h.change (.inr (.inl hl)) h.queue (fun q hne => left_goto s _ hne) (fun _ => hl) ?_ ?_
      · rw [goto_pc]
        trivial
      · intro m _
        rw [not_and_or, Bool.not_eq_true] at hgo
        exact hgo

theorem Inv.pipereadCopy (hpc : s.pc p = .rCopy n i) (io : Option UInt8) :
    Inv (pipereadCopy s p n i io) := by
  have hl : s.lock = some p := h.lock p (by rw [hpc]; rfl)
  unfold Pipe.pipereadCopy
  split
  · split
    · exact h.leave hl .nwrite rfl trivial
    · next hne =>
        have hqueue := take_queue h hne
        cases io with
        | none =>
          refine h.change (.inr (.inl hl)) hqueue (fun q hne => left_leave s.take .nwrite _ hne) ?_ ?_ ?_
          · rw [leave_pc]
            exact nofun
          · rw [leave_pc]
            trivial
          · intro m hm
            rw [leave_pc] at hm
            cases hm
        | some b =>
          refine h.change (.inr (.inl hl)) hqueue (fun q hne => left_goto s.take _ hne) (fun _ => hl) ?_ ?_
          · rw [goto_pc]
            trivial
          · intro m hm
            rw [goto_pc] at hm
            cases hm
  · exact h.leave hl .nwrite rfl trivial

theorem Inv.enter (hout : pc.inside = false) (bytes : List UInt8) (ht : Tally bytes pc) :
    Inv { s.goto p pc with mine := update s.mine p bytes } := by
  refine h.change (p := p) (.inr (.inr ⟨rfl, rfl, rfl, rfl⟩)) h.queue ?_ ?_ ?_ ?_
  · intro q hne
    exact ⟨.inl (update_of_ne hne ..), update_of_ne hne ..⟩
  · change (update s.pc p pc p).inside → _
    rw [update_self, hout]
    exact nofun
  · change Tally (update s.mine p bytes p) (update s.pc p pc p)
    rw [update_self, update_self]
    exact ht
  · intro n hpc
    have hpc : update s.pc p pc p = _ := hpc
    rw [update_self] at hpc
    rw [hpc] at hout
    cases hout

theorem Inv.acquire (hl : s.lock = none) (ht : Tally (s.mine p) pc)
    (hpc : ∀ n, pc ≠ .rCopy n 0) : Inv { s.goto p pc with lock := some p } := by
  refine h.change (p := p) (.inl hl) h.queue (fun q hne => left_goto s pc hne) (fun _ => rfl) ?_ ?_
  · change Tally (s.mine p) (update s.pc p pc p)
    rw [update_self]
    exact ht
  · intro n hn
    have hn : update s.pc p pc p = _ := hn
    rw [update_self] at hn
    exact absurd hn (hpc n)

theorem Inv.kill (p : Pid) : Inv { s with
    killed := update s.killed p true
    pc := update s.pc p (((s.pc p).wake .nread).wake .nwrite) } := by
  refine h.change (p := p) (.inr (.inr ⟨rfl, rfl, rfl, rfl⟩)) h.queue ?_ ?_ ?_ ?_
  · intro q hne
    exact ⟨.inl (update_of_ne hne ..), rfl⟩
  · change (update s.pc p _ p).inside → _
    rw [update_self, inside_wake, inside_wake]
    exact h.lock p
  · change Tally (s.mine p) (update s.pc p _ p)
    rw [update_self]
    exact tally_wake _ (tally_wake _ (h.tally p))
  · intro n hn
    have hn : update s.pc p _ p = _ := hn
    rw [update_self] at hn
    have hin : ((s.pc p).wake .nread).wake .nwrite = s.pc p := by
      rw [wake_of_inside (by rw [hn]; rfl), wake_of_inside]
      rw [← inside_wake .nwrite, hn]
      rfl
    exact h.first p n (hin.symm.trans hn)

theorem Inv.pipeclose (hl : s.lock = none) (writable : Bool) : Inv (pipeclose s writable) := by
  have hout : ∀ p, ¬ (s.pc p).inside := fun p hin => nomatch hl.symm.trans (h.lock p hin)
  have hwake : ∀ ch p n, (s.pc p).wake ch ≠ .rCopy n 0 := fun ch p n he => hout p (by
    rw [← inside_wake ch, he]
    rfl)
  rw [Pipe.pipeclose]
  split
  · refine ⟨h.queue, fun p hin => ?_, fun p => tally_wake .nread (h.tally p), fun p n he => absurd he (hwake _ p n)⟩
    exact absurd (inside_wake .nread (s.pc p) ▸ hin) (hout p)
  · refine ⟨h.queue, fun p hin => ?_, fun p => tally_wake .nwrite (h.tally p), fun p n he => absurd he (hwake _ p n)⟩
    exact absurd (inside_wake .nwrite (s.pc p) ▸ hin) (hout p)

theorem Inv.step {e : Event} (hs : step s e = some s') : Inv s' := by
  cases e with
  | write p n =>
    simp only [Pipe.step] at hs
    split at hs <;> cases hs
    all_goals exact h.enter rfl [] rfl
  | read p n =>
    have hread : Inv { s.goto p (.rEnter n) with mine := update s.mine p (s.mine p) } :=
      h.enter rfl (s.mine p) trivial
    rw [update_eq_self] at hread
    simp only [Pipe.step] at hs
    split at hs <;> cases hs
    all_goals exact hread
  | acquire p =>
    obtain ⟨hl, hs⟩ := Option.ite_none_right_eq_some.mp hs
    have ht := h.tally p
    split at hs
    · next n i hpc =>
        cases hs
        rw [hpc] at ht
        exact h.acquire hl ht nofun
    · cases hs
      exact h.acquire hl trivial nofun
    · cases hs
  | run p io =>
    simp only [Pipe.step] at hs
    split at hs
    · next hpc =>
        cases hs
        exact h.pipewrite hpc io
    · next hpc =>
        cases hs
        exact h.pipereadTest hpc
    · next hpc =>
        cases hs
        exact h.pipereadCopy hpc io
    · cases hs
  | kill p =>
    cases hs
    exact h.kill p
  | close writable =>
    obtain ⟨hl, rfl⟩ := guarded hs
    exact h.pipeclose hl writable

end

theorem inv_init (data : Nat → UInt8) : Inv (init data) :=
  ⟨⟨[], Ring.holds_nil (show 0 < uintMod by decide), rfl⟩, nofun, fun _ => trivial, nofun⟩

/-! ### The results -/

theorem Inv.read_zero (h : Inv s) (hs : Pipe.step s (.run p io) = some s') (hpc : s'.pc p = .read n 0) (hn : 0 < n) :
    (s.nread = s.nwrite ∧ s.writeopen = false) ∨ (s.pc p = .rCopy n 0 ∧ s.nread ≠ s.nwrite ∧ io = none) := by
  simp only [Pipe.step] at hs
  split at hs
  · next m i _ =>
      -- a turn of `pipewrite` does not lead there
      cases hs
      unfold Pipe.pipewrite at hpc
      split_ifs at hpc
      · have hpc : update s.pc p _ p = _ := hpc
        rw [update_self] at hpc
        cases hpc
      · rw [leave_pc] at hpc
        cases hpc
      · cases io with
        | none =>
          rw [leave_pc] at hpc
          cases hpc
        | some ch =>
          rw [goto_pc] at hpc
          cases hpc
      · rw [leave_pc] at hpc
        cases hpc
  · cases hs
    rw [Pipe.pipereadTest] at hpc
    split_ifs at hpc
    · have hpc : update s.pc p _ p = _ := hpc
      rw [update_self] at hpc
      cases hpc
    · have hpc : update s.pc p _ p = _ := hpc
      rw [update_self] at hpc
      cases hpc
    · rw [goto_pc] at hpc
      cases hpc
  · next m i hcopy =>
      cases hs
      unfold Pipe.pipereadCopy at hpc
      split_ifs at hpc with hlt hempty
      · rw [leave_pc] at hpc
        obtain ⟨rfl, hi⟩ := Pc.read.inj hpc
        obtain rfl : i = 0 := Int.ofNat_eq_zero.mp hi
        exact .inl ⟨hempty, (h.first p m hcopy).resolve_left fun hne => hne hempty⟩
      · cases io with
        | none =>
          rw [leave_pc] at hpc
          obtain ⟨rfl, hi⟩ := Pc.read.inj hpc
          obtain rfl : i = 0 := Int.ofNat_eq_zero.mp hi
          exact .inr ⟨hcopy, hempty, rfl⟩
        | some b =>
          rw [goto_pc] at hpc
          cases hpc
      · rw [leave_pc] at hpc
        obtain ⟨rfl, hi⟩ := Pc.read.inj hpc
        rw [hi] at hlt
        exact absurd hn hlt
  · cases hs

/-- **A pipe is a first-in first-out queue in every interleaving of its readers and writers.** The ring never holds
more than `PIPESIZE` bytes; what was taken from the writers is what the readers have taken followed by what is in the
ring; a writer that returns a count returns that of its bytes that were taken; and a reader that asked for bytes
returns 0 only at the end of the data, or when its first byte could not be stored. -/
theorem pipe_fifo {data : Nat → UInt8} {tr : List Event} (h : Run step (fun _ _ => True) (init data) tr s) :
    Ring.count uintMod s.nread s.nwrite ≤ pipeSize ∧
    s.removed <+: s.accepted ∧
    s.accepted = s.removed ++ Ring.entries pipeSize uintMod s.data s.nread s.nwrite ∧
    (∀ p n r, s.pc p = .wrote n r → 0 ≤ r → r = (s.mine p).length) ∧
    ∀ p io n s', step s (.run p io) = some s' → s'.pc p = .read n 0 → 0 < n →
      (s.nread = s.nwrite ∧ s.writeopen = false) ∨ (s.pc p = .rCopy n 0 ∧ s.nread ≠ s.nwrite ∧ io = none) := by
  have hinv : Inv s := h.invariant (inv_init data) fun _ _ _ hi _ hs => hi.step hs
  obtain ⟨q, hq, hacc⟩ := hinv.queue
  refine ⟨?_, ?_, ?_, ?_, ?_⟩
  · rw [hq.count_eq_length]
    exact hq.room
  · rw [hacc]
    exact List.prefix_append ..
  · rw [hq.eq, hacc]
  · intro p n r hpc
    have ht := hinv.tally p
    rwa [hpc] at ht
  · intro p io n s' hs hpc hn
    exact hinv.read_zero hs hpc hn

/-- A reader waits, a writer puts two bytes, and the reader takes one of them. -/
def oneByte : List Event :=
  [.read 1 1, .acquire 1, .run 1 none, .write 0 2, .acquire 0, .run 0 (some 7), .run 0 (some 9), .run 0 none,
    .acquire 1, .run 1 none, .run 1 (some 7), .run 1 none]

theorem oneByte_fifo : ∃ s, Run step (fun _ _ => True) (init fun _ => 0) oneByte s ∧
    s.removed = [7] ∧ s.accepted = [7, 9] ∧ s.pc 1 = .read 1 1 ∧ s.pc 0 = .wrote 2 2 ∧
    s.accepted = s.removed ++ Ring.entries pipeSize uintMod s.data s.nread s.nwrite := by
  have hend : (exec step (fun _ _ => True) (init fun _ => 0) oneByte).map
      (fun s => (s.removed, s.accepted, s.pc 1, s.pc 0)) = some ([7], [7, 9], .read 1 1, .wrote 2 2) := by
    decide +kernel
  obtain ⟨s, hs, hfacts⟩ := Option.map_eq_some_iff.mp hend
  simp only [Prod.mk.injEq] at hfacts
  obtain ⟨hr, ha, h1, h0⟩ := hfacts
  have hrun := run_of_exec hs
  exact ⟨s, hrun, hr, ha, h1, h0, (pipe_fifo hrun).2.2.1⟩

end Xv6Armv8.Pipe
