import Xv6Armv8.ConsoleModel

/-! The console is the line editor. The ring from `r` to `e` holds the bytes that may be read, up to `w`, followed by
the line that is being typed. Each event keeps this relation between the two, and with it what the readers get. -/

namespace Xv6Armv8.Console

open Function List StepRun

variable {s s' : State} {a : Reference} {ed : Editor}

/-- The ring holds what the editor has, and `w` is between the two parts of it. -/
structure Edits (s : State) (ed : Editor) : Prop where
  ring : Ring.Holds inputBufSize uintMod s.buf s.r s.e (ed.queue ++ ed.line)
  w : s.w = (s.r + ed.queue.length) % uintMod
  /-- A newline ends the line, so there is none in it. -/
  line : newline ∉ ed.line

/-- The place of a process and the reader it is. -/
def Serves : Pc → Reader → Prop
  | .idle, .none => True
  | .enter target n, .wants asked got | .loop target n, .wants asked got | .asleep target n, .wants asked got =>
    asked = target ∧ n = target - got
  | .done r, .returned r' => r = r'
  | _, _ => False

structure Refines (s : State) (a : Reference) : Prop where
  edits : Edits s a.editor
  reader : ∀ p, Serves (s.pc p) (a.reader p)
  killed : s.killed = a.killed
  delivered : s.delivered = a.delivered

theorem dvd_uintMod : inputBufSize ∣ uintMod := by decide

theorem inputBufSize_lt : inputBufSize < uintMod := by decide

/-! ### The indices -/

theorem Edits.size_eq (h : Edits s ed) : (s.e + uintMod - s.r) % uintMod = ed.size := by
  have hcount := h.ring.count_eq_length
  rwa [length_append] at hcount

theorem Edits.size_le (h : Edits s ed) : ed.size ≤ inputBufSize := by
  have hroom := h.ring.room
  rwa [length_append] at hroom

theorem Edits.queue_lt (h : Edits s ed) : ed.queue.length < uintMod := by
  have hsize := h.size_le
  have hlt := inputBufSize_lt
  unfold Editor.size at hsize
  omega

theorem Edits.r_eq_w (h : Edits s ed) : s.r = s.w ↔ ed.queue = [] := by
  have hcount : Ring.count uintMod s.r s.w = ed.queue.length := by
    rw [h.w, Ring.count_add h.ring.lo_lt h.queue_lt]
  have hw : s.w < uintMod := h.w ▸ Nat.mod_lt _ (by decide)
  rw [← Ring.count_eq_zero h.ring.lo_lt hw, hcount, length_eq_zero_iff]

theorem Edits.e_eq_w (h : Edits s ed) : s.e = s.w ↔ ed.line = [] := by
  have he : Ring.count uintMod s.r s.e = ed.queue.length + ed.line.length := by
    rw [h.ring.count_eq_length, length_append]
  have hw : Ring.count uintMod s.r s.w = ed.queue.length := by rw [h.w, Ring.count_add h.ring.lo_lt h.queue_lt]
  constructor
  · intro heq
    rw [heq, hw] at he
    exact length_eq_zero_iff.mp (by omega)
  · intro hline
    rw [h.w, h.ring.hi_eq, hline, append_nil]

/-! ### Typing -/

theorem Edits.back {q l : List UInt8} {x : UInt8} (h : Edits s ⟨q, l ++ [x]⟩) :
    s.buf (pred s.e % inputBufSize) = x ∧ Edits { s with e := pred s.e } ⟨q, l⟩ := by
  have hring := h.ring
  rw [← append_assoc] at hring
  obtain ⟨hx, hback⟩ := hring.unpush dvd_uintMod inputBufSize_lt
  refine ⟨hx, hback, h.w, fun hmem => h.line ?_⟩
  exact mem_append_left [x] hmem

theorem Edits.killLine (h : Edits s ed) {fuel : Nat} (hfuel : ed.line.length ≤ fuel) :
    ∃ e, killLine s fuel = { s with e := e } ∧ Edits { s with e := e } ⟨ed.queue, []⟩ := by
  obtain ⟨queue, line⟩ := ed
  induction fuel generalizing s line with
  | zero =>
    obtain rfl := length_eq_zero_iff.mp (Nat.le_zero.mp hfuel)
    exact ⟨s.e, rfl, h⟩
  | succ fuel ih =>
    rw [Console.killLine]
    rcases eq_nil_or_concat line with rfl | ⟨l, x, rfl⟩
    · rw [if_neg (fun hne => hne.1 (h.e_eq_w.mpr rfl))]
      exact ⟨s.e, rfl, h⟩
    · rw [concat_eq_append] at h hfuel
      obtain ⟨hx, hback⟩ := h.back
      have hne : s.e ≠ s.w := fun he => append_ne_nil_of_right_ne_nil l (cons_ne_nil x []) (h.e_eq_w.mp he)
      have hnl : s.buf (pred s.e % inputBufSize) ≠ newline := by
        rw [hx]
        rintro rfl
        exact h.line (mem_append_right l (mem_singleton_self _))
      rw [if_pos ⟨hne, hnl⟩]
      have hlen : l.length ≤ fuel := by
        rw [length_append, length_singleton] at hfuel
        omega
      obtain ⟨e, heq, hed⟩ := ih l hback hlen
      exact ⟨e, heq, hed⟩

theorem Edits.append (h : Edits s ed) (hroom : ed.size < inputBufSize) {c : UInt8} :
    let s₁ : State := { s with buf := update s.buf (s.e % inputBufSize) c, e := (s.e + 1) % uintMod }
    Ring.Holds inputBufSize uintMod s₁.buf s₁.r s₁.e (ed.queue ++ (ed.line ++ [c])) ∧
      s₁.w = (s₁.r + ed.queue.length) % uintMod := by
  have hlen : (ed.queue ++ ed.line).length < inputBufSize := by rwa [length_append]
  have hpush := h.ring.push dvd_uintMod inputBufSize_lt hlen c
  rw [append_assoc] at hpush
  exact ⟨hpush, h.w⟩

theorem Edits.congr (h : Edits s ed) (hb : s'.buf = s.buf) (hr : s'.r = s.r) (hw : s'.w = s.w) (he : s'.e = s.e) :
    Edits s' ed :=
  ⟨by rw [hb, hr, he]; exact h.ring, by rw [hw, hr]; exact h.w, h.line⟩

/-- What is in the buffer after a character, and that only waiting readers are touched. -/
structure Typed (s s' : State) (ed : Editor) : Prop where
  edits : Edits s' ed
  pc : ∀ p, s'.pc p = s.pc p ∨ s'.pc p = (s.pc p).wake
  killed : s'.killed = s.killed
  delivered : s'.delivered = s.delivered

theorem Edits.store (h : Edits s ed) (hroom : ed.size < inputBufSize) (c : UInt8) : Typed s (store s c)
      (let c := if c = carriageReturn then newline else c
       let ed := ed.append c
       if c = newline ∨ c = ctrl 'D' ∨ ed.size = inputBufSize then ed.commit else ed) := by
  unfold Console.store
  generalize (if c = carriageReturn then newline else c) = c
  obtain ⟨hring, hw⟩ := h.append hroom (c := c)
  have hsize : ((s.e + 1) % uintMod + uintMod - s.r) % uintMod = (ed.append c).size := by
    have hcount := hring.count_eq_length
    rwa [length_append] at hcount
  dsimp only
  rw [hsize]
  split
  · -- the line is committed: `w` goes to the end
    refine ⟨⟨?_, ?_, nofun⟩, fun p => .inr rfl, rfl, rfl⟩
    · rw [Editor.commit, append_nil]
      exact hring
    · exact hring.hi_eq
  · next hstay =>
      refine ⟨⟨hring, hw, ?_⟩, fun p => .inl rfl, rfl, rfl⟩
      intro hmem
      rcases mem_append.mp hmem with hmem | hmem
      · exact h.line hmem
      · exact hstay (.inl (mem_singleton.mp hmem).symm)

theorem Edits.consoleintr (h : Edits s ed) (c : UInt8) : Typed s (consoleintr s c) (ed.type c) := by
  have hsame : Typed s s ed := ⟨h, fun _ => .inl rfl, rfl, rfl⟩
  rw [Console.consoleintr, Editor.type, h.size_eq]
  split
  · exact hsame
  split
  · have hlen : ed.line.length ≤ inputBufSize := Nat.le_trans (Nat.le_add_left ..) h.size_le
    obtain ⟨e, heq, hed⟩ := h.killLine hlen
    rw [heq]
    exact ⟨hed, fun _ => .inl rfl, rfl, rfl⟩
  split
  · split
    · next hne =>
        rcases eq_nil_or_concat ed.line with hnil | ⟨l, x, hline⟩
        · exact absurd (h.e_eq_w.mpr hnil) hne
        · rw [concat_eq_append] at hline
          have hed : Edits s ⟨ed.queue, l ++ [x]⟩ := hline ▸ h
          rw [hline, dropLast_concat]
          exact ⟨hed.back.2, fun _ => .inl rfl, rfl, rfl⟩
    · next heq =>
        have hnil := h.e_eq_w.mp (Decidable.not_not.mp heq)
        have hed : (⟨ed.queue, ed.line.dropLast⟩ : Editor) = ed := by rw [hnil, dropLast_nil, ← hnil]
        rw [hed]
        exact hsame
  split
  · next hroom => exact h.store hroom.2 c
  · exact hsame

/-! ### Reading -/

theorem serves_wake {pc : Pc} {r : Reader} (h : Serves pc r) : Serves pc.wake r := by
  cases pc with
  | asleep target n =>
    cases r with
    | wants asked got => exact h
    | _ => exact h
  | _ => exact h

theorem Edits.take {c : UInt8} {q : List UInt8} (h : Edits s ed) (hq : ed.queue = c :: q) :
    s.buf (s.r % inputBufSize) = c ∧ Edits { s with r := (s.r + 1) % uintMod } ⟨q, ed.line⟩ := by
  have hring := h.ring
  rw [hq, cons_append] at hring
  obtain ⟨hc, hpop⟩ := hring.pop dvd_uintMod
  refine ⟨hc, hpop, ?_, h.line⟩
  change s.w = ((s.r + 1) % uintMod + q.length) % uintMod
  rw [h.w, hq, length_cons, Nat.mod_add_mod, Nat.add_right_comm, Nat.add_assoc]

theorem pred_succ {x : Nat} (hx : x < uintMod) : pred ((x + 1) % uintMod) = x := by
  have hback : pred ((x + 1) % uintMod) = (x + 0) % uintMod := Ring.pred_mod (show 0 < uintMod by decide)
  rw [hback, Nat.add_zero, Nat.mod_eq_of_lt hx]

theorem Refines.goto (h : Refines s a) {p : Pid} {pc : Pc} {r : Reader} (hpc : Serves pc r) (q : Pid) :
    Serves (update s.pc p pc q) (update a.reader p r q) := by
  by_cases hq : q = p
  · rw [hq, update_self, update_self]
    exact hpc
  · rw [update_of_ne hq, update_of_ne hq]
    exact h.reader q

theorem Refines.turn (h : Refines s a) {p : Pid} {target n : Int} {got : Nat}
    (hn : n = target - got) (hr : a.reader p = .wants target got) :
    Refines (turn s p target n) (a.read p target got) := by
  have hlt : n > 0 ↔ (got : Int) < target := by omega
  unfold Console.turn Reference.read
  by_cases hgo : (got : Int) < target
  · rw [if_pos (hlt.mpr hgo), if_pos hgo]
    cases hq : a.editor.queue with
    | nil =>
      rw [if_pos (h.edits.r_eq_w.mpr hq), h.killed]
      dsimp only
      split
      · exact ⟨h.edits.congr rfl rfl rfl rfl, h.goto rfl, h.killed, h.delivered⟩
      · refine ⟨h.edits.congr rfl rfl rfl rfl, fun q => ?_, h.killed, h.delivered⟩
        have hsleep : Serves (.asleep target n) (.wants target got) := ⟨rfl, hn⟩
        have hgoto := h.goto (p := p) hsleep q
        rwa [← hr, update_eq_self] at hgoto
    | cons c q =>
      have hne : s.r ≠ s.w := fun he => cons_ne_nil c q (hq.symm.trans (h.edits.r_eq_w.mp he))
      obtain ⟨hc, htake⟩ := h.edits.take hq
      rw [if_neg hne, hc]
      dsimp only
      by_cases hd : c = ctrl 'D'
      · rw [if_pos hd, if_pos hd]
        by_cases hgot : got = 0
        · -- nothing was returned yet, so the mark is taken away
          rw [if_neg (by omega), if_pos hgot]
          exact ⟨htake.congr rfl rfl rfl rfl, h.goto (show target - n = got by omega), h.killed, h.delivered⟩
        · rw [if_pos (by omega), if_neg hgot, pred_succ h.edits.ring.lo_lt]
          exact ⟨h.edits.congr rfl rfl rfl rfl, h.goto (show target - n = got by omega), h.killed, h.delivered⟩
      · rw [if_neg hd, if_neg hd]
        have hdel : s.delivered ++ [(p, c)] = a.delivered ++ [(p, c)] := by rw [h.delivered]
        by_cases hnl : c = newline
        · rw [if_pos hnl, if_pos hnl]
          have hret : Serves (.done (target - (n - 1))) (.returned (got + 1)) := by
            change target - (n - 1) = got + 1
            omega
          exact ⟨htake.congr rfl rfl rfl rfl, h.goto hret, h.killed, hdel⟩
        · rw [if_neg hnl, if_neg hnl]
          have hloop : Serves (.loop target (n - 1)) (.wants target (got + 1)) := ⟨rfl, by omega⟩
          exact ⟨htake.congr rfl rfl rfl rfl, h.goto hloop, h.killed, hdel⟩
  · rw [if_neg (fun hpos => hgo (hlt.mp hpos)), if_neg hgo]
    exact ⟨h.edits.congr rfl rfl rfl rfl, h.goto (show target - n = got by omega), h.killed, h.delivered⟩

theorem Refines.step (h : Refines s a) {e : Event} (hs : step s e = some s') : Refines s' (a.step e) := by
  cases e with
  | consoleintr c =>
    obtain ⟨-, rfl⟩ := guarded hs
    have htyped := h.edits.consoleintr c
    refine ⟨htyped.edits, fun p => ?_, htyped.killed.trans h.killed, htyped.delivered.trans h.delivered⟩
    rcases htyped.pc p with hpc | hpc
    · rw [hpc]
      exact h.reader p
    · rw [hpc]
      exact serves_wake (h.reader p)
  | consoleread p n =>
    have henter : Serves (.enter n n) (.wants n 0) := ⟨rfl, (Int.sub_zero n).symm⟩
    have hgoto : Refines (s.goto p (.enter n n)) (a.setReader p (.wants n 0)) :=
      ⟨h.edits.congr rfl rfl rfl rfl, h.goto henter, h.killed, h.delivered⟩
    simp only [Console.step] at hs
    split at hs <;> cases hs
    all_goals exact hgoto
  | acquire p =>
    obtain ⟨-, hs⟩ := Option.ite_none_right_eq_some.mp hs
    split at hs
    · next target n hpc =>
        cases hs
        refine ⟨h.edits.congr rfl rfl rfl rfl, fun q => ?_, h.killed, h.delivered⟩
        have hreader := h.reader p
        rw [hpc] at hreader
        have hloop : Serves (.loop target n) (a.reader p) := by
          cases hr : a.reader p with
          | wants asked got =>
            rw [hr] at hreader
            exact hreader
          | none =>
            rw [hr] at hreader
            exact hreader
          | returned r =>
            rw [hr] at hreader
            exact hreader
        have hgoto := h.goto (p := p) hloop q
        rwa [update_eq_self] at hgoto
    · cases hs
  | run p =>
    simp only [Console.step] at hs
    split at hs
    · next target n hpc =>
        cases hs
        have hreader := h.reader p
        rw [hpc] at hreader
        cases hr : a.reader p with
        | wants asked got =>
          rw [hr] at hreader
          obtain ⟨rfl, hn⟩ := hreader
          have hturn := h.turn hn hr
          simp only [Reference.step, hr]
          exact hturn
        | none =>
          rw [hr] at hreader
          exact hreader.elim
        | returned r =>
          rw [hr] at hreader
          exact hreader.elim
    · cases hs
  | kill p =>
    cases hs
    refine ⟨h.edits.congr rfl rfl rfl rfl, fun q => ?_, ?_, h.delivered⟩
    · have hgoto := h.goto (p := p) (serves_wake (h.reader p)) q
      rwa [update_eq_self] at hgoto
    · exact congrArg (update · p true) h.killed

theorem refines_init (buf : Nat → UInt8) : Refines (init buf) Reference.init :=
  ⟨⟨Ring.holds_nil (show 0 < uintMod by decide), rfl, nofun⟩, fun _ => trivial, rfl, rfl⟩

/-- **The console is the reference line editor.** In every run the indices are in order and no more than the size of
the buffer apart, the buffer holds the editor's two parts, and what was delivered to the readers and returned to them
is what the reference delivers and returns on the same events. -/
theorem console_refines_editor {buf : Nat → UInt8} {tr : List Event}
    (h : Run step (fun _ _ => True) (init buf) tr s) :
    (∃ i j, i ≤ j ∧ j ≤ inputBufSize ∧ s.w = (s.r + i) % uintMod ∧ s.e = (s.r + j) % uintMod) ∧
    Ring.entries inputBufSize uintMod s.buf s.r s.e =
      (tr.foldl Reference.step Reference.init).editor.queue ++ (tr.foldl Reference.step Reference.init).editor.line ∧
    s.delivered = (tr.foldl Reference.step Reference.init).delivered ∧
    ∀ p r, s.pc p = .done r → (tr.foldl Reference.step Reference.init).reader p = .returned r := by
  have href : Refines s (tr.foldl Reference.step Reference.init) := by
    induction h with
    | nil => exact refines_init buf
    | snoc _ _ hs ih =>
      rw [foldl_append]
      exact ih.step hs
  generalize tr.foldl Reference.step Reference.init = a at href
  refine ⟨⟨a.editor.queue.length, a.editor.size, Nat.le_add_right .., href.edits.size_le, href.edits.w, ?_⟩,
    href.edits.ring.eq, href.delivered, ?_⟩
  · rw [href.edits.ring.hi_eq, length_append]
    rfl
  · intro p r hpc
    have hserves := href.reader p
    rw [hpc] at hserves
    cases hr : a.reader p with
    | returned r' =>
      rw [hr] at hserves
      exact congrArg Reader.returned hserves.symm
    | none =>
      rw [hr] at hserves
      exact hserves.elim
    | wants asked got =>
      rw [hr] at hserves
      exact hserves.elim

/-- `ab`, a backspace, `c` and a return are typed while a reader waits for three bytes. -/
def typedLine : List Event :=
  [.consoleread 0 3, .acquire 0, .run 0, .consoleintr 97, .consoleintr 98, .consoleintr 8, .consoleintr 99,
    .consoleintr 13, .acquire 0, .run 0, .run 0, .run 0]

theorem typedLine_delivered : ∃ s, Run step (fun _ _ => True) (init fun _ => 0) typedLine s ∧
    s.delivered = [(0, 97), (0, 99), (0, 10)] ∧
    s.delivered = (typedLine.foldl Reference.step Reference.init).delivered := by
  have hend : (exec step (fun _ _ => True) (init fun _ => 0) typedLine).map
      (fun s => s.delivered) = some [(0, 97), (0, 99), (0, 10)] := by decide +kernel
  obtain ⟨s, hs, hd⟩ := Option.map_eq_some_iff.mp hend
  have hrun := run_of_exec hs
  exact ⟨s, hrun, hd, (console_refines_editor hrun).2.2.1⟩

end Xv6Armv8.Console
