import Mathlib
import Xv6Armv8.TrapModel

/-! Registers come back from a trap and from a switch. A run of `stp` instructions leaves the words of a
structure in memory and a run of `ldp` instructions loads them, so storing a frame makes it hold the registers,
whatever the stack pointer is, and loading one sets the registers to what it holds. -/

namespace Xv6Armv8.Trap

open WordMem Function List

variable {s u : Cpu} {m : WordMem} {a v : Word64} {base : Reg} {β : Fin 31} {ps : List (Fin 31 × Fin 31)}
  {x : Fin 31 → Word64}

-- Symbolic runs never look inside a word of the memory.
attribute [local irreducible] word off put

theorem run_append (c d : List Instr) : run (c ++ d) s = run d (run c s) := foldl_append ..

theorem run_cons (i : Instr) (c : List Instr) : run (i :: c) s = run c (step s i) := rfl

/-! ### Pushing pairs -/

def pushes (base : Reg) (ps : List (Fin 31 × Fin 31)) : List Instr := ps.map fun p => .stpPre p.1 p.2 base 16

/-- Where pushing the pairs leaves the registers, at offsets from the last address. -/
def layout : List (Fin 31 × Fin 31) → List (Nat × Fin 31)
  | [] => []
  | p :: ps => layout ps ++ [(16 * ps.length + 8, p.2), (16 * ps.length, p.1)]

/-- The words of registers that stand in a structure. -/
def words (x : Fin 31 → Word64) (l : List (Nat × Fin 31)) : List (Nat × Word64) := l.map fun q => (q.1, x q.2)

theorem map_fst_words (l : List (Nat × Fin 31)) : (words x l).map Prod.fst = l.map Prod.fst := map_map ..

variable {m' : WordMem} {r : Fin 31} {rs : List (Fin 31)}

theorem mem_words {l : List (Nat × Fin 31)} {o : Nat} (h : (o, r) ∈ l) : (o, x r) ∈ words x l :=
  mem_map_of_mem h

/-- The words that pushing the pairs leaves. -/
def pushed (x : Fin 31 → Word64) (ps : List (Fin 31 × Fin 31)) : List (Nat × Word64) := words x (layout ps)

theorem pushed_cons (p : Fin 31 × Fin 31) (ps : List (Fin 31 × Fin 31)) :
    pushed x (p :: ps) = pushed x ps ++ [(16 * ps.length + 8, x p.2), (16 * ps.length, x p.1)] := map_append ..

theorem pushed_update (h : ∀ p ∈ ps, p.1 ≠ β ∧ p.2 ≠ β) : pushed (update x β v) ps = pushed x ps := by
  induction ps with
  | nil => rfl
  | cons p ps ih =>
    obtain ⟨h1, h2⟩ := h p mem_cons_self
    rw [pushed_cons, pushed_cons, ih fun q hq => h q (mem_cons_of_mem p hq), update_of_ne h1, update_of_ne h2]

/-- The processor after the base register and the memory have changed. -/
def Cpu.based (s : Cpu) (base : Reg) (v : Word64) (m : WordMem) : Cpu := { s.set base v with mem := m }

theorem get_based : (s.based base v m).get base = v := by
  cases base with
  | x i => exact update_self ..
  | sp => rfl

theorem based_based {v' : Word64} : (s.based base v m).based base v' m' = s.based base v' m' := by
  cases base with
  | x i =>
    unfold Cpu.based Cpu.set
    dsimp only
    rw [update_idem]
  | sp => rfl

theorem pushed_based (h : ∀ p ∈ ps, base ≠ .x p.1 ∧ base ≠ .x p.2) :
    pushed (s.based base v m).x ps = pushed s.x ps := by
  cases base with
  | x i =>
    apply pushed_update
    intro p hp
    obtain ⟨h1, h2⟩ := h p hp
    exact ⟨fun heq => h1 (by rw [heq]), fun heq => h2 (by rw [heq])⟩
  | sp => rfl

/-- **The pairs are in memory below the old base**, the last of them first. -/
theorem run_pushes (h : ∀ p ∈ ps, base ≠ .x p.1 ∧ base ≠ .x p.2) :
    run (pushes base ps) s = s.based base (s.get base - BitVec.ofNat 64 (16 * ps.length))
      (s.mem.puts (s.get base - BitVec.ofNat 64 (16 * ps.length)) (pushed s.x ps)) := by
  induction ps generalizing s with
  | nil =>
    cases base with
    | x i =>
      show s = _
      simp [Cpu.based, Cpu.set, Cpu.get, pushed, words, layout, puts]
    | sp =>
      show s = _
      simp [Cpu.based, Cpu.set, Cpu.get, pushed, words, layout, puts]
  | cons p ps ih =>
    have htail : ∀ q ∈ ps, base ≠ .x q.1 ∧ base ≠ .x q.2 := fun q hq => h q (mem_cons_of_mem p hq)
    generalize haddr : s.get base - BitVec.ofNat 64 16 = addr
    have hstep : step s (.stpPre p.1 p.2 base 16) =
        s.based base addr ((s.mem.put addr (s.x p.1)).put (off addr 8) (s.x p.2)) := by
      rw [← haddr]
      cases base with
      | x i => rfl
      | sp => rfl
    have hlast : addr - BitVec.ofNat 64 (16 * ps.length) = s.get base - BitVec.ofNat 64 (16 * (p :: ps).length) := by
      rw [← haddr, length_cons, Nat.mul_succ, Nat.add_comm, BitVec.ofNat_add]
      bv_omega
    have haddr' : off (addr - BitVec.ofNat 64 (16 * ps.length)) (16 * ps.length) = addr :=
      off_sub ..
    show run (pushes base ps) (step s (.stpPre p.1 p.2 base 16)) = _
    have hwords : s.mem.puts (addr - BitVec.ofNat 64 (16 * ps.length))
        [(16 * ps.length + 8, s.x p.2), (16 * ps.length, s.x p.1)] =
        (s.mem.put addr (s.x p.1)).put (off addr 8) (s.x p.2) := by
      simp only [puts]
      rw [← off_off, haddr']
    rw [hstep, ih htail, get_based, based_based, pushed_based htail, ← hlast]
    rw [pushed_cons, puts_append, hwords]
    rfl

/-! ### Popping pairs -/

def pops (β : Fin 31) (ps : List (Fin 31 × Fin 31)) : List Instr := ps.map fun p => .ldpPost p.1 p.2 (.x β) 16

/-- The registers after those of a list have been loaded from the words at `a`. -/
def loads (m : WordMem) (a : Word64) : List (Fin 31) → (Fin 31 → Word64) → Fin 31 → Word64
  | [], x => x
  | r :: rs, x => loads m (off a 8) rs (update x r (m.word a))

theorem loads_pair {q : Fin 31} : loads m a (r :: q :: rs) x =
    loads m (off a 16) rs (update (update x r (m.word a)) q (m.word (off a 8))) := by
  have hoff : off (off a 8) 8 = off a 16 := off_off
  rw [← hoff]
  rfl

theorem loads_update (h : β ∉ rs) : loads m a rs (update x β v) = update (loads m a rs x) β v := by
  induction rs generalizing a x with
  | nil => rfl
  | cons r rs ih =>
    obtain ⟨hne, hrest⟩ := ne_and_not_mem_of_not_mem_cons h
    unfold loads
    rw [update_comm hne, ih hrest]

theorem loads_of_not_mem (h : r ∉ rs) : loads m a rs x r = x r := by
  induction rs generalizing a x with
  | nil => rfl
  | cons q rs ih =>
    obtain ⟨hne, hrest⟩ := ne_and_not_mem_of_not_mem_cons h
    unfold loads
    rw [ih hrest, update_of_ne hne]

theorem loads_of_get (hnd : rs.Nodup) {j : Nat} (h : rs[j]? = some r) :
    loads m a rs x r = m.word (off a (8 * j)) := by
  induction rs generalizing a x j with
  | nil => exact absurd h (by simp)
  | cons q rs ih =>
    obtain ⟨hnot, hrest⟩ := nodup_cons.mp hnd
    unfold loads
    cases j with
    | zero =>
      obtain rfl : q = r := by simpa using h
      rw [loads_of_not_mem hnot, update_self, Nat.mul_zero, off_zero]
    | succ j =>
      rw [List.getElem?_cons_succ] at h
      rw [ih hrest h, off_off, Nat.mul_succ, Nat.add_comm]

/-- The registers of the pairs. -/
def flat (ps : List (Fin 31 × Fin 31)) : List (Fin 31) := ps.flatMap fun p => [p.1, p.2]

/-- **The registers of the pairs have the words at the base**, which stands behind them. -/
theorem run_pops (h : β ∉ flat ps) : run (pops β ps) s = { s with
      x := update (loads s.mem (s.x β) (flat ps) s.x) β (off (s.x β) (16 * ps.length)) } := by
  induction ps generalizing s with
  | nil =>
    show s = _
    simp [flat, loads]
  | cons p ps ih =>
    have hflat : flat (p :: ps) = p.1 :: p.2 :: flat ps := rfl
    rw [hflat] at h ⊢
    obtain ⟨h1, h⟩ := ne_and_not_mem_of_not_mem_cons h
    obtain ⟨h2, h⟩ := ne_and_not_mem_of_not_mem_cons h
    generalize hx : update (update s.x p.1 (s.mem.word (s.x β))) p.2 (s.mem.word (off (s.x β) 8)) = y
    have hstep : step s (.ldpPost p.1 p.2 (.x β) 16) = { s with x := update y β (off (s.x β) 16) } := by
      rw [← hx]
      rfl
    show run (pops β ps) (step s (.ldpPost p.1 p.2 (.x β) 16)) = _
    rw [hstep, ih h]
    dsimp only
    have hloads : loads s.mem (s.x β) (p.1 :: p.2 :: flat ps) s.x = loads s.mem (off (s.x β) 16) (flat ps) y := by
      rw [loads_pair, hx]
    rw [update_self, loads_update h, update_idem, off_off, hloads, length_cons, Nat.mul_succ, Nat.add_comm 16]

/-! ### Trap frames -/

/-- The pairs of registers in the order in which they are stored. -/
def storedPairs : List (Fin 31 × Fin 31) :=
  [(28, 29), (26, 27), (24, 25), (22, 23), (20, 21), (18, 19), (16, 17), (14, 15), (12, 13), (10, 11), (8, 9), (6, 7),
    (4, 5), (2, 3), (0, 1)]

/-- Where a trap frame holds the general registers. -/
def frameLayout : List (Nat × Fin 31) := (0xf0, 30) :: layout storedPairs

theorem mem_frameLayout (i : Fin 31) : (8 * (i : Nat), i) ∈ frameLayout := by
  revert i
  decide

/-- The words of a trap frame. -/
def frame (x : Fin 31 → Word64) (sp elr spsr : Word64) : List (Nat × Word64) :=
  [(0x108, spsr), (0x100, elr), (0xf8, sp)] ++ words x frameLayout

theorem frame_laid {sp elr spsr : Word64} : Laid ((frame x sp elr spsr).map Prod.fst) := by
  unfold frame
  rw [map_append, map_fst_words]
  show Laid ([0x108, 0x100, 0xf8] ++ frameLayout.map Prod.fst)
  decide

theorem read_frame {sp elr spsr : Word64} :
    readTrapframe (m.puts a (frame x sp elr spsr)) a = ⟨x, sp, elr, spsr⟩ := by
  have hword : ∀ o w, (o, w) ∈ frame x sp elr spsr → (m.puts a (frame x sp elr spsr)).word (off a o) = w :=
    fun _ _ hmem => word_puts frame_laid hmem
  have hx : (fun i : Fin 31 => (m.puts a (frame x sp elr spsr)).word (off a (8 * i))) = x := by
    funext i
    apply hword
    exact mem_append_right _ (mem_words (mem_frameLayout i))
  unfold readTrapframe
  rw [hx, hword (8 * 31) sp (by simp [frame]), hword (8 * 32) elr (by simp [frame]),
    hword (8 * 33) spsr (by simp [frame])]

/-- The processor with the general registers of `s` in the frame, and `v` in `x9`. -/
def Cpu.pushedFrame (s : Cpu) (x : Fin 31 → Word64) : Cpu :=
  { s with
    x := x
    sp := s.sp - 0x110
    mem := s.mem.puts (s.sp - 0x110) (pushed s.x storedPairs) }

theorem run_storeGeneral : run storeGeneral s = s.pushedFrame s.x := by
  have hcode : storeGeneral = .sub .sp .sp 0x20 :: pushes .sp storedPairs := rfl
  have hsp : s.sp - BitVec.ofNat 64 0x20 - BitVec.ofNat 64 (16 * storedPairs.length) = s.sp - 0x110 := by
    show s.sp - BitVec.ofNat 64 0x20 - BitVec.ofNat 64 240 = s.sp - 0x110
    bv_omega
  rw [hcode, run_cons, run_pushes fun p _ => ⟨Reg.noConfusion, Reg.noConfusion⟩]
  unfold Cpu.pushedFrame
  rw [← hsp]
  rfl

theorem run_storeSpecial (t : Cpu) : (run storeSpecial t).sp = t.sp ∧
    (run storeSpecial t).mem = t.mem.puts t.sp [(0x108, t.spsr), (0x100, t.elr), (0xf8, t.x 9), (0xf0, t.x 30)] := by
  refine ⟨rfl, ?_⟩
  simp only [puts]
  rw [show (0x108 : Nat) = 0x100 + 8 from rfl, show (0xf8 : Nat) = 0xf0 + 8 from rfl, ← off_off, ← off_off]
  rfl

/-- The frame is complete after the rest of the macro, with what `x9` holds for the stack pointer. -/
theorem run_store_frame (v : Word64) : (run storeSpecial (s.pushedFrame (update s.x 9 v))).sp = s.sp - 0x110 ∧
      (run storeSpecial (s.pushedFrame (update s.x 9 v))).mem =
        s.mem.puts (s.sp - 0x110) (frame s.x v s.elr s.spsr) := by
  obtain ⟨hsp, hmem⟩ := run_storeSpecial (s.pushedFrame (update s.x 9 v))
  have h9 : update s.x 9 v 9 = v := update_self ..
  have h30 : update s.x 9 v 30 = s.x 30 := update_of_ne (by decide) ..
  have hframe : frame s.x v s.elr s.spsr =
      [(0x108, s.spsr), (0x100, s.elr), (0xf8, v), (0xf0, s.x 30)] ++ pushed s.x storedPairs := rfl
  refine ⟨hsp, ?_⟩
  rw [hmem, hframe]
  unfold Cpu.pushedFrame
  dsimp only
  rw [h9, h30, ← puts_append]

/-- **A stored frame holds the registers** of the trap. -/
theorem el0_store_spec : (run el0StoreTrapFrame s).sp = s.sp - 0x110 ∧
    readTrapframe (run el0StoreTrapFrame s).mem (s.sp - 0x110) = ⟨s.x, s.spEl0, s.elr, s.spsr⟩ := by
  have hcode : run el0StoreTrapFrame s = run storeSpecial (s.pushedFrame (update s.x 9 s.spEl0)) := by
    unfold el0StoreTrapFrame
    rw [run_append, run_cons, run_storeGeneral]
    unfold Cpu.pushedFrame
    rfl
  obtain ⟨hsp, hmem⟩ := run_store_frame (s := s) s.spEl0
  rw [hcode]
  refine ⟨hsp, ?_⟩
  rw [hmem, read_frame]

theorem el1_store_spec : (run el1StoreTrapFrame s).sp = s.sp - 0x110 ∧
    readTrapframe (run el1StoreTrapFrame s).mem (s.sp - 0x110) = ⟨s.x, s.sp, s.elr, s.spsr⟩ := by
  have hx9 : off (s.sp - 0x110) 0x110 = s.sp := off_sub ..
  have hcode : run el1StoreTrapFrame s =
      run storeSpecial (s.pushedFrame (update s.x 9 (off (s.sp - 0x110) 0x110))) := by
    unfold el1StoreTrapFrame
    rw [run_append, run_cons, run_storeGeneral]
    unfold Cpu.pushedFrame
    rfl
  obtain ⟨hsp, hmem⟩ := run_store_frame (s := s) (off (s.sp - 0x110) 0x110)
  rw [hcode]
  refine ⟨hsp, ?_⟩
  rw [hmem, read_frame, hx9]

/-- The pairs of registers in the order in which they are loaded. -/
def loadedPairs : List (Fin 31 × Fin 31) :=
  [(0, 1), (2, 3), (4, 5), (6, 7), (8, 9), (10, 11), (12, 13), (14, 15), (16, 17), (18, 19), (20, 21), (22, 23),
    (24, 25), (26, 27)]

theorem flat_loadedPairs (i : Fin 31) (hi : i < 28) : (flat loadedPairs)[(i : Nat)]? = some i := by
  revert i
  decide

theorem not_mem_flat_loadedPairs (i : Fin 31) (hi : 28 ≤ i) : i ∉ flat loadedPairs := by
  revert i
  decide

theorem run_loadGeneral (h30 : s.x 30 = s.mem.word (off (s.x 29) (8 * 30))) : run loadGeneral s = { s with
      x := (readTrapframe s.mem (s.x 29)).x
      pc := s.elr
      pstate := s.spsr } := by
  have hcode : loadGeneral = pops 29 loadedPairs ++ [.ldrPost 28 (.x 29) 8, .ldr 29 (.x 29), .eret] := rfl
  have hend : ∀ t : Cpu, run [.ldrPost 28 (.x 29) 8, .ldr 29 (.x 29), .eret] t = { t with
      x := update (update t.x 28 (t.mem.word (t.x 29))) 29 (t.mem.word (off (t.x 29) 8))
      pc := t.elr
      pstate := t.spsr } := by
    intro t
    show ({ t with
      x := update (update (update t.x 28 (t.mem.word (t.x 29))) 29 (off (t.x 29) 8)) 29 _
      pc := t.elr
      pstate := t.spsr } : Cpu) = _
    rw [update_idem]
    rfl
  rw [hcode, run_append, run_pops (not_mem_flat_loadedPairs 29 (by decide)), hend]
  dsimp only
  rw [update_self, off_off]
  congr 1
  funext i
  by_cases hi : i < 28
  · have hne : i ≠ 28 ∧ i ≠ 29 := ⟨fun h => absurd hi (by rw [h]; decide), fun h => absurd hi (by rw [h]; decide)⟩
    rw [update_of_ne hne.2, update_of_ne hne.1, update_of_ne hne.2,
      loads_of_get (by decide) (flat_loadedPairs i hi)]
    rfl
  · have hcases : i = 28 ∨ i = 29 ∨ i = 30 := by omega
    rcases hcases with rfl | rfl | rfl
    · rw [update_of_ne (by decide), update_self]
      rfl
    · rw [update_self]
      rfl
    · rw [update_of_ne (by decide), update_of_ne (by decide), update_of_ne (by decide),
        loads_of_not_mem (not_mem_flat_loadedPairs 30 (by decide)), h30]
      rfl

/-- The processor after the start of both sequences, with the stack pointer that it has then. -/
def Cpu.opened (u : Cpu) (sp spEl0 : Word64) : Cpu :=
  { u with
    x := update (update (update (update (update u.x
      10 (readTrapframe u.mem u.sp).pc) 11 (readTrapframe u.mem u.sp).spsr) 30 ((readTrapframe u.mem u.sp).x 30))
      9 (readTrapframe u.mem u.sp).sp) 29 u.sp
    sp := sp
    spEl0 := spEl0
    elr := (readTrapframe u.mem u.sp).pc
    spsr := (readTrapframe u.mem u.sp).spsr }

theorem run_el0_head : run [.ldp 10 11 .sp 0x100, .ldp 30 9 .sp 0xf0, .msr .elrEl1 10, .msr .spsrEl1 11, .msr .spEl0 9,
    .mov (.x 29) .sp, .add .sp .sp 0x110] u = u.opened (off u.sp 0x110) (readTrapframe u.mem u.sp).sp := by
  have hpc : off (off u.sp 0x100) 8 = off u.sp (8 * 33) := off_off
  have hsp : off (off u.sp 0xf0) 8 = off u.sp (8 * 31) := off_off
  unfold Cpu.opened readTrapframe
  dsimp only
  rw [← hpc, ← hsp]
  rfl

theorem run_el1_head : run [.ldp 10 11 .sp 0x100, .ldp 30 9 .sp 0xf0, .msr .elrEl1 10, .msr .spsrEl1 11,
    .mov (.x 29) .sp, .mov .sp (.x 9)] u = u.opened (readTrapframe u.mem u.sp).sp u.spEl0 := by
  have hpc : off (off u.sp 0x100) 8 = off u.sp (8 * 33) := off_off
  have hsp : off (off u.sp 0xf0) 8 = off u.sp (8 * 31) := off_off
  unfold Cpu.opened readTrapframe
  dsimp only
  rw [← hpc, ← hsp]
  rfl

/-- The processor with the registers that the frame holds. -/
def Cpu.restored (u : Cpu) (f : Trapframe) (sp spEl0 : Word64) : Cpu :=
  { u with x := f.x, sp := sp, spEl0 := spEl0, elr := f.pc, spsr := f.spsr, pc := f.pc, pstate := f.spsr }

theorem run_load_opened {sp spEl0 : Word64} :
    run loadGeneral (u.opened sp spEl0) = u.restored (readTrapframe u.mem u.sp) sp spEl0 := by
  have h29 : (u.opened sp spEl0).x 29 = u.sp := rfl
  have h30 : (u.opened sp spEl0).x 30 = (readTrapframe u.mem u.sp).x 30 := rfl
  rw [run_loadGeneral (by rw [h29, h30]; rfl), h29]
  rfl

/-- **Loading a frame sets the registers to what it holds.** -/
theorem el0_load_spec : run el0LoadTrapFrameAndRet u =
    u.restored (readTrapframe u.mem u.sp) (off u.sp 0x110) (readTrapframe u.mem u.sp).sp := by
  unfold el0LoadTrapFrameAndRet
  rw [run_append, run_el0_head, run_load_opened]

theorem el1_load_spec : run el1LoadTrapFrameAndRet u =
    u.restored (readTrapframe u.mem u.sp) (readTrapframe u.mem u.sp).sp u.spEl0 := by
  unfold el1LoadTrapFrameAndRet
  rw [run_append, run_el1_head, run_load_opened]

/-! ### Contexts -/

/-- The registers that a context keeps. -/
def Cpu.context (s : Cpu) : Context := ⟨fun i => s.x ⟨i + 16, by omega⟩, s.x 30, s.sp⟩

/-- The pairs that `swtch` stores. -/
def savedPairs : List (Fin 31 × Fin 31) :=
  [(30, 10), (28, 29), (26, 27), (24, 25), (22, 23), (20, 21), (18, 19), (16, 17)]

/-- The pairs that `swtch` loads. -/
def switchedPairs : List (Fin 31 × Fin 31) :=
  [(16, 17), (18, 19), (20, 21), (22, 23), (24, 25), (26, 27), (28, 29), (30, 10)]

/-- The words of a context. -/
def Cpu.saved (s : Cpu) : List (Nat × Word64) := pushed (update s.x 10 s.sp) savedPairs

theorem saved_offsets : s.saved.map Prod.fst = (layout savedPairs).map Prod.fst := map_fst_words _

theorem mem_savedLayout (i : Fin 14) : (8 * (i : Nat), (⟨i + 16, by omega⟩ : Fin 31)) ∈ layout savedPairs := by
  revert i
  decide

theorem read_saved : readContext (m.puts a s.saved) a = s.context := by
  have hlaid : Laid (s.saved.map Prod.fst) := by
    rw [saved_offsets]
    decide
  have hword : ∀ (o : Nat) (r : Fin 31), (o, r) ∈ layout savedPairs →
      (m.puts a s.saved).word (off a o) = update s.x 10 s.sp r :=
    fun _ _ hmem => word_puts hlaid (mem_words hmem)
  have hx : (fun i : Fin 14 => (m.puts a s.saved).word (off a (8 * i))) = s.context.x := by
    funext i
    rw [hword _ _ (mem_savedLayout i)]
    exact update_of_ne (fun h => absurd (congrArg Fin.val h) (by simp)) ..
  unfold readContext
  rw [hx, hword (8 * 14) 30 (by decide), hword (8 * 15) 10 (by decide), update_self, update_of_ne (by decide)]
  rfl

theorem flat_switchedPairs (i : Fin 14) : (flat switchedPairs)[(i : Nat)]? = some ⟨i + 16, by omega⟩ := by
  revert i
  decide

/-- **`swtch` saves the context and takes the other one.** -/
theorem swtch_spec : (run swtch s).mem = s.mem.puts (s.x 0) s.saved ∧
    (run swtch s).context = readContext (run swtch s).mem (s.x 1) ∧
    (run swtch s).pc = (readContext (run swtch s).mem (s.x 1)).lr := by
  have hcode : swtch = [.add (.x 9) (.x 0) 0x80, .mov (.x 10) .sp] ++ (pushes (.x 9) savedPairs ++
      (.mov (.x 9) (.x 1) :: (pops 9 switchedPairs ++ [.mov .sp (.x 10), .br 30]))) := rfl
  generalize hm : s.mem.puts (s.x 0) s.saved = m
  generalize hx : update (update s.x 10 s.sp) 9 (off (s.x 0) 0x80) = x
  have hhead : run [.add (.x 9) (.x 0) 0x80, .mov (.x 10) .sp] s = { s with x := x } := by
    rw [← hx, update_comm (by decide)]
    rfl
  have hold : off (s.x 0) 0x80 - BitVec.ofNat 64 (16 * savedPairs.length) = s.x 0 := by
    exact sub_off ..
  have hstores : run (pushes (.x 9) savedPairs) { s with x := x } =
      { s with x := update x 9 (s.x 0), mem := m } := by
    have h9 : ({ s with x := x } : Cpu).get (.x 9) = off (s.x 0) 0x80 := by
      show x 9 = _
      rw [← hx, update_self]
    have hwords : pushed x savedPairs = s.saved := by
      rw [← hx]
      exact pushed_update (by simp [savedPairs])
    rw [run_pushes (by simp [savedPairs]), h9, hold, ← hm, ← hwords]
    rfl
  have hnew : step { s with x := update x 9 (s.x 0), mem := m } (.mov (.x 9) (.x 1)) =
      { s with x := update x 9 (s.x 1), mem := m } := by
    have h1 : x 1 = s.x 1 := by
      rw [← hx, update_of_ne (by decide), update_of_ne (by decide)]
    show ({ s with x := update (update x 9 (s.x 0)) 9 (update x 9 (s.x 0) 1), mem := m } : Cpu) = _
    rw [update_of_ne (by decide), h1, update_idem]
  generalize hy : update (loads m (s.x 1) (flat switchedPairs) (update x 9 (s.x 1))) 9
    (off (s.x 1) (16 * switchedPairs.length)) = y
  have hloads : run (pops 9 switchedPairs) { s with x := update x 9 (s.x 1), mem := m } =
      { s with x := y, mem := m } := by
    rw [run_pops (by decide), ← hy]
    dsimp only
    rw [update_self]
  have hload : ∀ (j : Nat) (r : Fin 31), r ≠ 9 → (flat switchedPairs)[j]? = some r →
      y r = m.word (off (s.x 1) (8 * j)) := by
    intro j r hr hget
    rw [← hy, update_of_ne hr, loads_of_get (by decide) hget]
  have hrun : run swtch s = { s with x := y, sp := y 10, pc := y 30, mem := m } := by
    rw [hcode, run_append, hhead, run_append, hstores, run_cons, hnew, run_append, hloads]
    rfl
  rw [hrun]
  refine ⟨rfl, ?_, hload 14 30 (by decide) rfl⟩
  unfold Cpu.context readContext
  dsimp only
  rw [hload 14 30 (by decide) rfl, hload 15 10 (by decide) rfl]
  congr 1
  funext i
  exact hload i _ (fun h => absurd (congrArg Fin.val h) (by simp)) (flat_switchedPairs i)

/-! ### What is saved comes back -/

/-- Two structures of `n` bytes do not overlap. -/
def NoOverlap (a b : Word64) (n : Nat) : Prop := ∀ i j, i < n → j < n → off a i ≠ off b j

theorem NoOverlap.apart {a b : Word64} {n i j : Nat} (h : NoOverlap a b n) (hi : i + 8 ≤ n) (hj : j + 8 ≤ n) :
    Apart (off a i) (off b j) := by
  constructor
  · by_contra hlt
    apply h i (j + (off a i - off b j).toNat) (by omega) (by omega)
    rw [← off_off]
    unfold off
    rw [BitVec.ofNat_toNat, BitVec.setWidth_eq]
    bv_omega
  · by_contra hlt
    apply h (i + (off b j - off a i).toNat) j (by omega) (by omega)
    rw [← off_off]
    unfold off
    rw [BitVec.ofNat_toNat, BitVec.setWidth_eq]
    bv_omega

theorem readTrapframe_same (h : Same m m' a sizeofTrapframe) : readTrapframe m' a = readTrapframe m a := by
  have hword : ∀ o, o + 8 ≤ 8 * 34 → m'.word (off a o) = m.word (off a o) := fun o ho => h.word ho
  have hx : (fun i : Fin 31 => m'.word (off a (8 * i))) = fun i : Fin 31 => m.word (off a (8 * i)) := by
    funext i
    exact hword _ (by omega)
  unfold readTrapframe
  rw [hx, hword (8 * 31) (by decide), hword (8 * 32) (by decide), hword (8 * 33) (by decide)]

theorem readContext_congr (h : ∀ o, o + 8 ≤ 8 * 16 → m'.word (off a o) = m.word (off a o)) :
    readContext m' a = readContext m a := by
  have hx : (fun i : Fin 14 => m'.word (off a (8 * i))) = fun i : Fin 14 => m.word (off a (8 * i)) := by
    funext i
    exact h _ (by omega)
  unfold readContext
  rw [hx, h (8 * 14) (by decide), h (8 * 15) (by decide)]

theorem el0_frame_kept (hsp : u.sp = (run el0StoreTrapFrame s).sp)
    (hsame : Same (run el0StoreTrapFrame s).mem u.mem u.sp sizeofTrapframe) :
    readTrapframe u.mem u.sp = ⟨s.x, s.spEl0, s.elr, s.spsr⟩ := by
  obtain ⟨hstore, hframe⟩ := el0_store_spec (s := s)
  rw [readTrapframe_same hsame, hsp, hstore, hframe]

theorem el1_frame_kept (hsp : u.sp = (run el1StoreTrapFrame s).sp)
    (hsame : Same (run el1StoreTrapFrame s).mem u.mem u.sp sizeofTrapframe) :
    readTrapframe u.mem u.sp = ⟨s.x, s.sp, s.elr, s.spsr⟩ := by
  obtain ⟨hstore, hframe⟩ := el1_store_spec (s := s)
  rw [readTrapframe_same hsame, hsp, hstore, hframe]

theorem context_kept (hsame : Same (run swtch s).mem u.mem (s.x 0) sizeofContext) :
    readContext u.mem (s.x 0) = s.context := by
  obtain ⟨hmem, -, -⟩ := swtch_spec (s := s)
  rw [readContext_congr fun o ho => hsame.word ho, hmem, read_saved]

theorem swtch_back (hold : u.x 0 = s.x 1) (hnew : u.x 1 = s.x 0) (hdisj : NoOverlap (s.x 1) (s.x 0) sizeofContext)
    (hsaved : readContext u.mem (s.x 0) = s.context) :
    (run swtch u).context = s.context ∧ (run swtch u).pc = s.x 30 := by
  obtain ⟨hmem, hcontext, hpc⟩ := swtch_spec (s := u)
  have hkept : readContext (run swtch u).mem (s.x 0) = readContext u.mem (s.x 0) := by
    apply readContext_congr
    intro o ho
    rw [hmem, hold]
    apply word_puts_of_apart
    intro p hp
    have hoff : p.1 ∈ u.saved.map Prod.fst := mem_map_of_mem hp
    rw [saved_offsets] at hoff
    apply hdisj.apart _ ho
    revert hoff
    generalize p.1 = q
    revert q
    decide
  rw [hcontext, hpc, hnew, hkept, hsaved]
  exact ⟨rfl, rfl⟩

/-- **Registers survive traps and switches.** A trap from either level ends with the registers of its start,
its frame is the `struct trapframe` of the C code, and switching away and back keeps the registers of a
context. -/
theorem registers_survive : (∀ s u : Cpu, u.sp = (run el0StoreTrapFrame s).sp →
      Same (run el0StoreTrapFrame s).mem u.mem u.sp sizeofTrapframe →
      readTrapframe u.mem u.sp = ⟨s.x, s.spEl0, s.elr, s.spsr⟩ ∧
        run el0LoadTrapFrameAndRet u = { s with pc := s.elr, pstate := s.spsr, mem := u.mem }) ∧
    (∀ s u : Cpu, u.sp = (run el1StoreTrapFrame s).sp →
      Same (run el1StoreTrapFrame s).mem u.mem u.sp sizeofTrapframe →
      readTrapframe u.mem u.sp = ⟨s.x, s.sp, s.elr, s.spsr⟩ ∧
        run el1LoadTrapFrameAndRet u = { s with pc := s.elr, pstate := s.spsr, mem := u.mem, spEl0 := u.spEl0 }) ∧
    (∀ s u : Cpu, u.x 0 = s.x 1 → u.x 1 = s.x 0 → NoOverlap (s.x 1) (s.x 0) sizeofContext →
      Same (run swtch s).mem u.mem (s.x 0) sizeofContext →
      readContext u.mem (s.x 0) = s.context ∧ (run swtch u).context = s.context ∧ (run swtch u).pc = s.x 30) := by
  refine ⟨fun s u hsp hsame => ?_, fun s u hsp hsame => ?_, fun s u hold hnew hdisj hsame => ?_⟩
  · rw [el0_frame_kept hsp hsame, el0_load_spec, el0_frame_kept hsp hsame, hsp, el0_store_spec.1]
    refine ⟨rfl, ?_⟩
    rw [show off (s.sp - 0x110) 0x110 = s.sp from off_sub ..]
    rfl
  · rw [el1_frame_kept hsp hsame, el1_load_spec, el1_frame_kept hsp hsame]
    exact ⟨rfl, rfl⟩
  · exact ⟨context_kept hsame, swtch_back hold hnew hdisj (context_kept hsame)⟩

/-- A processor with two contexts of one page at hand. -/
def idle : Cpu := ⟨fun i => if i = 0 then 0x1000 else if i = 1 then 0x1080 else 0, 0x2000, 0, 0, 0, 0, 0, fun _ => 0⟩

/-- The same page, seen from the other context. -/
def idleBack (m : WordMem) : Cpu := ⟨fun i => if i = 0 then 0x1080 else 0x1000, 0, 0, 0, 0, 0, 0, m⟩

theorem idle_contexts : NoOverlap (idle.x 1) (idle.x 0) sizeofContext := by
  intro i j hi hj
  unfold sizeofContext at hi hj
  show off 0x1080 i ≠ off 0x1000 j
  unfold off
  bv_omega

section

attribute [local irreducible] run

/-- A trap that nothing happens in, and a switch there and back. -/
theorem idle_survives : ∃ u v w : Cpu,
    run el0LoadTrapFrameAndRet u = { idle with pc := idle.elr, pstate := idle.spsr, mem := u.mem } ∧
    run el1LoadTrapFrameAndRet v =
      { idle with pc := idle.elr, pstate := idle.spsr, mem := v.mem, spEl0 := v.spEl0 } ∧
    (run swtch w).context = idle.context := by
  obtain ⟨hel0, hel1, hswtch⟩ := registers_survive
  have h0 := hel0 idle (run el0StoreTrapFrame idle) rfl (Same.refl _ _ _)
  have h1 := hel1 idle (run el1StoreTrapFrame idle) rfl (Same.refl _ _ _)
  have h2 := hswtch idle (idleBack (run swtch idle).mem) rfl rfl idle_contexts (Same.refl _ _ _)
  exact ⟨_, _, _, h0.2, h1.2, h2.2.1⟩

end

end Xv6Armv8.Trap
