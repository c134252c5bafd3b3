import Xv6Armv8.ConsoleEditor
import Xv6Armv8.FsConsistent
import Xv6Armv8.PipeFifo

/-! Reads of pipes, of the console and of files, into a destination of which any byte may be out of reach. The loops
of `piperead` and `consoleread` take a byte from the ring before they try to store it, so the byte at which the
destination ends is gone. `fileread` hands the count to the three of them, and `readi` takes it for an unsigned
number. -/

namespace Xv6Armv8.FileRead

open Function List StepRun

/-! ### Destinations -/

/-- How many of the bytes `w` a destination takes, from its byte `i` on. -/
def taken (dst : Nat → Bool) : Nat → List UInt8 → Nat
  | _, [] => 0
  | i, _ :: w => if dst i then taken dst (i + 1) w + 1 else 0

theorem taken_le (dst : Nat → Bool) : ∀ (i : Nat) (w : List UInt8), taken dst i w ≤ w.length
  | _, [] => Nat.le_refl 0
  | i, _ :: w => by
    unfold taken
    split
    · exact Nat.succ_le_succ (taken_le dst (i + 1) w)
    · exact Nat.zero_le _

theorem taken_eq_iff (dst : Nat → Bool) : ∀ (i : Nat) (w : List UInt8),
    taken dst i w = w.length ↔ ∀ j, j < w.length → dst (i + j) = true
  | _, [] => by simp [taken]
  | i, c :: w => by
    unfold taken
    by_cases hi : dst i = true
    · rw [if_pos hi, length_cons, Nat.succ_inj, taken_eq_iff dst (i + 1) w]
      refine ⟨fun h j hj => ?_, fun h j hj => ?_⟩
      · cases j with
        | zero => exact hi
        | succ j =>
          rw [show i + (j + 1) = i + 1 + j by omega]
          exact h j (by omega)
      · rw [show i + 1 + j = i + (j + 1) by omega]
        exact h (j + 1) (by omega)
    · rw [if_neg hi]
      refine iff_of_false (fun h => ?_) fun h => hi (h 0 (Nat.succ_pos _))
      rw [length_cons] at h
      omega

/-! ### Pipes -/

section Pipe

open Pipe

variable {p : Pid} {dst : Nat → Bool} {n : Int} {s : Pipe.State} {q : List UInt8}

/-- The second loop of `piperead` from turn `i` on: the pipe, the value and the bytes stored. -/
def pipereadLoop (p : Pid) (dst : Nat → Bool) (n : Int) : Nat → Nat → Pipe.State → Pipe.State × Int × List UInt8
  | 0, i, s => (pipereadCopy s p n i none, i, [])
  | turns + 1, i, s =>
    let ch := s.data (s.nread % pipeSize)
    let t := pipereadCopy s p n i (if dst i then some ch else none)
    match t.pc p with
    | .rCopy _ _ =>
      let (u, r, bs) := pipereadLoop p dst n turns (i + 1) t
      (u, r, ch :: bs)
    | _ => (t, i, [])

/-- `piperead`, which gets the lock in the states listed, one after the other, as long as it goes to sleep. -/
def piperead (p : Pid) (dst : Nat → Bool) (n : Int) : List Pipe.State → Option (Pipe.State × Int × List UInt8)
  | [] => none
  | s :: wakes =>
    let t := pipereadTest s p n
    match t.pc p with
    | .rCopy _ _ => some (pipereadLoop p dst n n.toNat 0 t)
    | .read _ r => some (t, r, [])
    | _ => piperead p dst n wakes

/-- The ring of a pipe holds `q`. -/
abbrev PipeHolds (s : Pipe.State) (q : List UInt8) : Prop :=
  Ring.Holds pipeSize Pipe.uintMod s.data s.nread s.nwrite q

theorem pipereadLoop_spec (p : Pid) (dst : Nat → Bool) : ∀ (turns i : Nat) (s : Pipe.State) (q : List UInt8),
    PipeHolds s q → (n - i).toNat = turns →
    let w := q.take turns
    let g := taken dst i w
    ∃ t, pipereadLoop p dst n turns i s = (t, ((i + g : Nat) : Int), w.take g) ∧
      PipeHolds t (q.drop (if g = w.length then g else g + 1))
  | 0, i, s, q, h, hn => by
    have hstop : ¬(i : Int) < n := by omega
    have hcopy : pipereadCopy s p n i none = s.leave p .nwrite (.read n i) := by
      unfold pipereadCopy
      rw [if_neg hstop]
    refine ⟨_, rfl, ?_⟩
    rw [hcopy]
    exact h
  | turns + 1, i, s, q, h, hn => by
    have hgo : (i : Int) < n := by omega
    unfold pipereadLoop
    dsimp only
    unfold pipereadCopy
    rw [if_pos hgo]
    cases q with
    | nil =>
      rw [if_pos (h.empty_iff.mpr rfl), leave_pc]
      exact ⟨_, rfl, h⟩
    | cons c q =>
      obtain ⟨hc, hpop⟩ := h.pop Pipe.dvd_uintMod
      rw [if_neg fun he => cons_ne_nil c q (h.empty_iff.mp he), hc]
      by_cases hd : dst i = true
      · rw [if_pos hd]
        dsimp only
        rw [goto_pc]
        obtain ⟨t, ht, hq⟩ := pipereadLoop_spec p dst turns (i + 1) (s.take.goto p (.rCopy n (i + 1))) q hpop (by omega)
        dsimp only
        rw [ht, take_succ_cons, taken, if_pos hd]
        refine ⟨t, ?_, ?_⟩
        · rw [take_succ_cons, Nat.add_right_comm, Nat.add_assoc]
        · rw [length_cons]
          split_ifs at hq ⊢ <;> first | exact hq | omega
      · rw [if_neg hd]
        dsimp only
        rw [leave_pc, take_succ_cons, taken, if_neg hd]
        refine ⟨_, rfl, ?_⟩
        rw [if_neg (by simp)]
        exact hpop

theorem pipereadTest_pc (s : Pipe.State) (p : Pid) (n : Int) :
    ((pipereadTest s p n).pc p = .rCopy n 0 ∧ pipereadTest s p n = s.goto p (.rCopy n 0)) ∨
      (pipereadTest s p n).pc p = .read n (-1) ∨ (pipereadTest s p n).pc p = .rAsleep n := by
  unfold pipereadTest
  split_ifs
  · exact .inr (.inl (goto_pc ..))
  · exact .inr (.inr (goto_pc ..))
  · exact .inl ⟨goto_pc .., rfl⟩

theorem piperead_spec {wakes : List Pipe.State} {t : Pipe.State} {r : Int} {bs : List UInt8}
    (h : piperead p dst n wakes = some (t, r, bs)) :
    (∃ s ∈ wakes, (t, r, bs) = pipereadLoop p dst n n.toNat 0 (s.goto p (.rCopy n 0))) ∨ r = -1 ∧ bs = [] := by
  induction wakes with
  | nil => cases h
  | cons s wakes ih =>
    unfold piperead at h
    dsimp only at h
    rcases pipereadTest_pc s p n with ⟨hpc, heq⟩ | hpc | hpc
    · rw [hpc, heq] at h
      exact .inl ⟨s, mem_cons_self, (Option.some.inj h).symm⟩
    · rw [hpc] at h
      cases h
      exact .inr ⟨rfl, rfl⟩
    · rw [hpc] at h
      refine (ih h).imp ?_ id
      rintro ⟨s', hs', heq⟩
      exact ⟨s', mem_cons_of_mem _ hs', heq⟩

theorem piperead_append {wakes : List Pipe.State} (h : piperead p dst n wakes = none) :
    piperead p dst n (wakes ++ [s]) = piperead p dst n [s] := by
  induction wakes with
  | nil => rfl
  | cons s' wakes ih =>
    unfold piperead at h
    rw [cons_append, piperead]
    dsimp only at h ⊢
    rcases pipereadTest_pc s' p n with ⟨hpc, -⟩ | hpc | hpc
    · rw [hpc] at h
      cases h
    · rw [hpc] at h
      cases h
    · rw [hpc] at h ⊢
      exact ih h

end Pipe

/-! ### The console -/

section Console

open Console

variable {p : Pid} {dst : Nat → Bool} {target n : Int} {s : Console.State} {ed : Editor}

/-- A turn of the loop of `consoleread` whose copy may fail. -/
def turnTo (s : Console.State) (p : Pid) (target n : Int) (ok : Bool) : Console.State :=
  if n > 0 then
    if s.r = s.w then if s.killed p then s.release p (.done (-1)) else s.release p (.asleep target n)
    else
      let c := s.buf (s.r % inputBufSize)
      let s := { s with r := (s.r + 1) % Console.uintMod }
      if c = ctrl 'D' then
        (if n < target then { s with r := pred s.r } else s).release p (.done (target - n))
      else if ok = false then s.release p (.done (target - n))
      else
        let s := { s with delivered := s.delivered ++ [(p, c)] }
        if c = newline then s.release p (.done (target - (n - 1))) else s.goto p (.loop target (n - 1))
  else s.release p (.done (target - n))

theorem turnTo_true (s : Console.State) (p : Pid) (target n : Int) : turnTo s p target n true = turn s p target n := by
  unfold turnTo turn
  simp only [Bool.true_eq_false, if_false]

/-- The loop of `consoleread` while it has the lock, with `n` bytes left of `target`. -/
def consolereadLoop (p : Pid) (dst : Nat → Bool) (target : Int) : Nat → Int → Console.State → Console.State
  | 0, n, s => turnTo s p target n false
  | turns + 1, n, s =>
    let t := turnTo s p target n (dst (target - n).toNat)
    match t.pc p with
    | .loop _ m => consolereadLoop p dst target turns m t
    | _ => t

/-- The bytes delivered from one state to a later one. -/
def stored (s t : Console.State) : List UInt8 := (t.delivered.drop s.delivered.length).map Prod.snd

/-- The bytes that a read of `n` wants of the queue: it stops after a newline and before `^D`. -/
def wanted : Nat → List UInt8 → List UInt8
  | 0, _ => []
  | _ + 1, [] => []
  | n + 1, c :: q => if c = ctrl 'D' then [] else if c = newline then [c] else c :: wanted n q

theorem wanted_eq_take : ∀ (n : Nat) (q : List UInt8), wanted n q = q.take (wanted n q).length
  | 0, _ => rfl
  | _ + 1, [] => rfl
  | n + 1, c :: q => by
    unfold wanted
    split_ifs
    · rfl
    · rfl
    · rw [length_cons, take_succ_cons, ← wanted_eq_take n q]

theorem length_wanted_le : ∀ (n : Nat) (q : List UInt8), (wanted n q).length ≤ n
  | 0, _ => Nat.le_refl 0
  | _ + 1, [] => Nat.zero_le _
  | n + 1, c :: q => by
    unfold wanted
    split_ifs
    · exact Nat.zero_le _
    · exact Nat.succ_le_succ (Nat.zero_le n)
    · exact Nat.succ_le_succ (length_wanted_le n q)

/-- What the queue is after a read that has delivered `g` of the bytes `w` it wants. -/
def Leaves (q w q' : List UInt8) (g : Nat) : Prop :=
  if g = w.length then q' = q.drop g ∨ q[g]? = some (ctrl 'D') ∧ q' = q.drop (g + 1)
  else q' = q.drop (g + 1) ∧ q[g]? ≠ some (ctrl 'D')

/-- The end of the loop: `g` bytes more are delivered, and the value counts them, or the reader sleeps or is killed. -/
structure LoopEnd (s t : Console.State) (p : Pid) (ed : Editor) (w : List UInt8) (g : Nat) (target n : Int) : Prop where
  delivered : t.delivered = s.delivered ++ (w.take g).map (p, ·)
  edits : ∃ q', Edits t ⟨q', ed.line⟩ ∧ Leaves ed.queue w q' g
  pc : t.pc p = .done (target - n + g) ∨ t.pc p = .done (-1) ∨ t.pc p = .asleep target (n - g)

theorem release_pc (s : Console.State) (p : Pid) (pc : Pc) : (s.release p pc).pc p = pc := update_self ..

theorem goto_loop_pc (s : Console.State) (p : Pid) (pc : Pc) : (s.goto p pc).pc p = pc := update_self ..

theorem LoopEnd.nil {t : Console.State} {q' : List UInt8} (hdel : t.delivered = s.delivered)
    (hed : Edits t ⟨q', ed.line⟩) (hq : q' = ed.queue ∨ ed.queue[0]? = some (ctrl 'D') ∧ q' = ed.queue.drop 1)
    (hpc : t.pc p = .done (target - n) ∨ t.pc p = .done (-1) ∨ t.pc p = .asleep target n) :
    LoopEnd s t p ed [] 0 target n := by
  refine ⟨hdel.trans (append_nil _).symm, ⟨q', hed, ?_⟩, ?_⟩
  · rw [Leaves, if_pos length_nil.symm]
    exact hq
  · simpa using hpc

theorem LoopEnd.cons {s₁ t : Console.State} {c : UInt8} {q line w : List UInt8} {g : Nat}
    (h : LoopEnd s₁ t p ⟨q, line⟩ w g target (n - 1)) (hdel : s₁.delivered = s.delivered ++ [(p, c)]) :
    LoopEnd s t p ⟨c :: q, line⟩ (c :: w) (g + 1) target n := by
  obtain ⟨q', hed, hq⟩ := h.edits
  refine ⟨?_, ⟨q', hed, ?_⟩, ?_⟩
  · rw [h.delivered, hdel, take_succ_cons, map_cons, append_assoc, singleton_append]
  · unfold Leaves at hq ⊢
    rw [length_cons]
    split_ifs at hq ⊢ <;> first | exact hq | omega
  · have h1 : target - (n - 1) + (g : Int) = target - n + ((g + 1 : Nat) : Int) := by omega
    have h2 : n - 1 - (g : Int) = n - ((g + 1 : Nat) : Int) := by omega
    rw [← h1, ← h2]
    exact h.pc

theorem consolereadLoop_spec (p : Pid) (dst : Nat → Bool) : ∀ (turns : Nat) (n : Int) (s : Console.State)
    (ed : Editor), Edits s ed → n.toNat = turns → 0 ≤ target - n →
    LoopEnd s (consolereadLoop p dst target turns n s) p ed (wanted turns ed.queue)
      (taken dst (target - n).toNat (wanted turns ed.queue)) target n
  | 0, n, s, ed, h, hn, _ => by
    have hturn : consolereadLoop p dst target 0 n s = s.release p (.done (target - n)) := by
      rw [consolereadLoop, turnTo, if_neg (by omega)]
    rw [hturn]
    exact .nil rfl (h.congr rfl rfl rfl rfl) (.inl rfl) (.inl (release_pc ..))
  | turns + 1, n, s, ⟨[], line⟩, h, hn, ht => by
    unfold consolereadLoop turnTo
    rw [if_pos (by omega), if_pos (h.r_eq_w.mpr rfl)]
    by_cases hk : s.killed p = true
    · simp only [if_pos hk, release_pc]
      exact .nil rfl (h.congr rfl rfl rfl rfl) (.inl rfl) (.inr (.inl (release_pc ..)))
    · simp only [if_neg hk, release_pc]
      exact .nil rfl (h.congr rfl rfl rfl rfl) (.inl rfl) (.inr (.inr (release_pc ..)))
  | turns + 1, n, s, ⟨c :: q, line⟩, h, hn, ht => by
    have hne : s.r ≠ s.w := fun he => cons_ne_nil c q (h.r_eq_w.mp he)
    obtain ⟨hc, htake⟩ := h.take rfl
    unfold consolereadLoop turnTo
    rw [if_pos (by omega), if_neg hne, hc]
    dsimp only
    unfold wanted
    by_cases hD : c = ctrl 'D'
    · rw [if_pos hD, if_pos hD, release_pc]
      by_cases hlt : n < target
      · rw [if_pos hlt, pred_succ h.ring.lo_lt]
        exact .nil rfl (h.congr rfl rfl rfl rfl) (.inl rfl) (.inl (release_pc ..))
      · rw [if_neg hlt]
        exact .nil rfl (htake.congr rfl rfl rfl rfl) (.inr ⟨congrArg some hD, rfl⟩) (.inl (release_pc ..))
    · rw [if_neg hD, if_neg hD]
      by_cases hd : dst (target - n).toNat = true
      · rw [hd, if_neg (by decide)]
        by_cases hnl : c = newline
        · rw [if_pos hnl, if_pos hnl, release_pc, taken, if_pos hd]
          refine LoopEnd.cons (.nil rfl (htake.congr rfl rfl rfl rfl) (.inl rfl) (.inl (release_pc ..))) rfl
        · rw [if_neg hnl, if_neg hnl, goto_loop_pc, taken, if_pos hd]
          have hnext : (target - (n - 1)).toNat = (target - n).toNat + 1 := by omega
          rw [← hnext]
          have hed : Edits ({ s with r := (s.r + 1) % Console.uintMod, delivered := s.delivered ++ [(p, c)] }.goto p
              (.loop target (n - 1))) ⟨q, line⟩ := htake.congr rfl rfl rfl rfl
          exact (consolereadLoop_spec p dst turns (n - 1) _ _ hed (by omega) (by omega)).cons rfl
      · rw [Bool.not_eq_true] at hd
        rw [hd, if_pos rfl, release_pc]
        have hw : (if c = newline then [c] else c :: wanted turns q) = c :: if c = newline then [] else wanted turns q := by
          split_ifs <;> rfl
        rw [hw, taken, hd, if_neg Bool.false_ne_true]
        refine ⟨(append_nil _).symm, ⟨q, htake.congr rfl rfl rfl rfl, ?_⟩, .inl ?_⟩
        · rw [Leaves, if_neg (by simp)]
          exact ⟨rfl, fun he => hD (Option.some.inj he)⟩
        · rw [release_pc]
          simp

theorem Edits.queue_unique {q q' line : List UInt8} (h : Edits s ⟨q, line⟩) (h' : Edits s ⟨q', line⟩) : q = q' :=
  append_cancel_right (h.ring.eq.symm.trans h'.ring.eq)

/-- `consoleread`, which gets the lock in the states listed, one after the other, as long as it goes to sleep: the
value, if it returns, and the bytes stored. -/
def consoleread (p : Pid) (dst : Nat → Bool) (target : Int) : Int → List Console.State → Option Int × List UInt8
  | _, [] => (none, [])
  | n, s :: wakes =>
    let t := consolereadLoop p dst target n.toNat n s
    match t.pc p with
    | .done r => (some r, stored s t)
    | .asleep _ m =>
      let (r, bs) := consoleread p dst target m wakes
      (r, stored s t ++ bs)
    | _ => (none, stored s t)

theorem LoopEnd.stored {t : Console.State} {w : List UInt8} {g : Nat} (h : LoopEnd s t p ed w g target n) :
    FileRead.stored s t = w.take g := by
  rw [FileRead.stored, h.delivered, drop_left, map_map]
  simp

end Console

/-! ### Bytes that are not delivered -/

section Lost

variable {q q' bs : List UInt8} {g : Nat}

/-- The bytes stored are the first of the queue, and those are what the queue has lost, apart from a mark `^D`. -/
def Delivers (q q' bs : List UInt8) : Prop :=
  bs = q.take bs.length ∧
    (q' = q.drop bs.length ∨ q[bs.length]? = some (Console.ctrl 'D') ∧ q' = q.drop (bs.length + 1))

theorem not_delivers (hlen : bs.length < q.length) (hD : q[bs.length]? ≠ some (Console.ctrl 'D'))
    (hq' : q' = q.drop (bs.length + 1)) : ¬Delivers q q' bs := by
  rintro ⟨-, hd | ⟨hd, -⟩⟩
  · have hlen' := congrArg List.length (hq'.symm.trans hd)
    rw [length_drop, length_drop] at hlen'
    omega
  · exact hD hd

theorem pipe_delivers_iff {p : Nat} {dst : Nat → Bool} {s t : Pipe.State} {n k : Int} (hq : PipeHolds s q)
    (hrun : piperead p dst n [s] = some (t, k, bs)) (hk : 0 ≤ k) :
    ((bs.length : Int) = k ∧ bs = q.take bs.length ∧ PipeHolds t (q.drop bs.length)) ↔
      ∀ j, j < (q.take n.toNat).length → dst j = true := by
  have hloop : (t, k, bs) = pipereadLoop p dst n n.toNat 0 (s.goto p (.rCopy n 0)) := by
    rcases piperead_spec hrun with ⟨s', hs', heq⟩ | ⟨rfl, -⟩
    · rwa [mem_singleton.mp hs'] at heq
    · omega
  obtain ⟨u, hu, hrest⟩ := pipereadLoop_spec (n := n) p dst n.toNat 0 (s.goto p (.rCopy n 0)) q hq (by omega)
  obtain ⟨ht, hend⟩ := Prod.mk.inj (hloop.trans hu)
  obtain ⟨hcount, hbs⟩ := Prod.mk.inj hend
  rw [ht, hcount, hbs]
  have hle := taken_le dst 0 (q.take n.toNat)
  have hiff := taken_eq_iff dst 0 (q.take n.toNat)
  simp only [Nat.zero_add] at hiff
  generalize taken dst 0 (q.take n.toNat) = g at hrest hle hiff ⊢
  have hlen : ((q.take n.toNat).take g).length = g := by rw [length_take, Nat.min_eq_left hle]
  rw [length_take] at hle
  rw [hlen, ← hiff]
  refine ⟨fun ⟨_, _, hdrop⟩ => ?_, fun hg => ?_⟩
  · by_contra hne
    rw [if_neg hne] at hrest
    have hl := congrArg List.length (hdrop.eq.symm.trans hrest.eq)
    rw [length_drop, length_drop] at hl
    rw [length_take] at hne
    omega
  · rw [if_pos hg] at hrest
    refine ⟨by omega, ?_, hrest⟩
    rw [take_take, Nat.min_eq_left (by omega)]

theorem console_delivers_iff {p : Nat} {dst : Nat → Bool} {s : Console.State} {ed : Console.Editor} {target n : Int}
    (hed : Console.Edits s ed) (hn : 0 ≤ target - n) :
    let t := consolereadLoop p dst target n.toNat n s
    (∀ k, t.pc p = .done k → 0 ≤ k → k = target - n + (stored s t).length) ∧
      ((∃ q', Console.Edits t ⟨q', ed.line⟩ ∧ Delivers ed.queue q' (stored s t)) ↔
        ∀ j, j < (wanted n.toNat ed.queue).length → dst ((target - n).toNat + j) = true) := by
  have hend := consolereadLoop_spec p dst n.toNat n s ed hed rfl hn
  dsimp only
  rw [← taken_eq_iff]
  have hle := taken_le dst (target - n).toNat (wanted n.toNat ed.queue)
  have hw := wanted_eq_take n.toNat ed.queue
  generalize wanted n.toNat ed.queue = w at hend hle hw ⊢
  generalize taken dst (target - n).toNat w = g at hend hle ⊢
  have hlen : (w.take g).length = g := by rw [length_take, Nat.min_eq_left hle]
  obtain ⟨q', hed', hleaves⟩ := hend.edits
  rw [hend.stored]
  refine ⟨fun k hk h0 => ?_, fun ⟨q'', hed'', hdel⟩ => ?_, fun hg => ⟨q', hed', ?_⟩⟩
  · rw [hlen]
    rcases hend.pc with h | h | h
    · exact Console.Pc.done.inj (hk.symm.trans h)
    · have := Console.Pc.done.inj (hk.symm.trans h)
      omega
    · cases hk.symm.trans h
  · by_contra hne
    rw [Leaves, if_neg hne] at hleaves
    have hwq : w.length ≤ ed.queue.length := by
      rw [hw]
      exact length_take_le' ..
    refine not_delivers ?_ ?_ ?_ hdel
    · omega
    · rw [hlen]
      exact hleaves.2
    · rw [hlen, ← Edits.queue_unique hed' hed'']
      exact hleaves.1
  · rw [Leaves, if_pos hg] at hleaves
    have hpre : w.take g = ed.queue.take g := by rw [hw, take_take, Nat.min_eq_left hle]
    unfold Delivers
    rw [hlen]
    exact ⟨hpre, hleaves⟩

/-- **A read delivers what it consumes just when the destination takes every byte the call gets to**: of a pipe those
up to the count, of the console those up to the count, a newline or `^D`. The call on the pipe may have slept in the
states `wakes`; that on the console is in any turn, with `n` bytes left of `target`. -/
theorem reads_deliver_iff (p : Nat) (dst : Nat → Bool) :
    (∀ (wakes : List Pipe.State) (s t : Pipe.State) (q bs : List UInt8) (n k : Int), PipeHolds s q →
      piperead p dst n wakes = none → piperead p dst n (wakes ++ [s]) = some (t, k, bs) → 0 ≤ k →
      (((bs.length : Int) = k ∧ bs = q.take bs.length ∧ PipeHolds t (q.drop bs.length)) ↔
        ∀ j, j < (q.take n.toNat).length → dst j = true)) ∧
    ∀ (s : Console.State) (ed : Console.Editor) (target n : Int), Console.Edits s ed → 0 ≤ target - n →
      let t := consolereadLoop p dst target n.toNat n s
      (∀ k, t.pc p = .done k → 0 ≤ k → k = target - n + (stored s t).length) ∧
      ((∃ q', Console.Edits t ⟨q', ed.line⟩ ∧ Delivers ed.queue q' (stored s t)) ↔
        ∀ j, j < (wanted n.toNat ed.queue).length → dst ((target - n).toNat + j) = true) := by
  refine ⟨fun wakes s t q bs n k hq hwait hrun hk => ?_, fun s ed target n hed hn => console_delivers_iff hed hn⟩
  rw [piperead_append hwait] at hrun
  exact pipe_delivers_iff hq hrun hk

/-- A pipe with one byte in it. -/
def oneByte : Pipe.State := { Pipe.init fun _ => 97 with nwrite := 1 }

theorem oneByte_holds : PipeHolds oneByte [97] := ⟨by decide, by decide, by decide, by decide⟩

/-- The console after a line of its newline alone. -/
def oneLine : Console.State := { Console.init fun _ => Console.newline with w := 1, e := 1 }

theorem oneLine_edits : Console.Edits oneLine ⟨[Console.newline], []⟩ :=
  ⟨⟨by decide, by decide, by decide, by decide⟩, by decide, not_mem_nil⟩

theorem one_byte_delivered :
    (∃ t, piperead 0 (fun _ => true) 1 [oneByte] = some (t, 1, [97]) ∧ PipeHolds t []) ∧
      ∃ q', Console.Edits (consolereadLoop 0 (fun _ => true) 1 1 1 oneLine) ⟨q', []⟩ ∧
        Delivers [Console.newline] q' (stored oneLine (consolereadLoop 0 (fun _ => true) 1 1 1 oneLine)) := by
  obtain ⟨hpipe, hconsole⟩ := reads_deliver_iff 0 fun _ => true
  refine ⟨⟨_, rfl, ?_⟩, ((hconsole oneLine _ 1 1 oneLine_edits (by decide)).2.mpr fun _ _ => rfl)⟩
  exact ((hpipe [] oneByte _ [97] [97] 1 1 oneByte_holds rfl rfl (by decide)).mpr fun _ _ => rfl).2.2

/-- Neither address can be written: both calls return `0`, and the byte is gone from the ring. -/
theorem undelivered_byte_lost :
    (∃ t, piperead 0 (fun _ => false) 1 [oneByte] = some (t, 0, []) ∧ PipeHolds oneByte [97] ∧ PipeHolds t []) ∧
      let t := consolereadLoop 0 (fun _ => false) 1 1 1 oneLine
      t.pc 0 = .done 0 ∧ stored oneLine t = [] ∧ Console.Edits oneLine ⟨[Console.newline], []⟩ ∧
        Console.Edits t ⟨[], []⟩ := by
  refine ⟨⟨_, rfl, oneByte_holds, Ring.holds_nil (by decide)⟩, by decide, by decide, oneLine_edits, ?_⟩
  exact ⟨Ring.holds_nil (by decide), by decide, not_mem_nil⟩

end Lost

/-! ### Reads of every type of file -/

section Count

open Spec Fs

variable {p f : Nat} {dst : Nat → Bool} {n : Int} {s t : Fs.State} {r : Option Int} {bs : List UInt8}
  {pwakes : List Pipe.State} {cwakes : List Console.State}

/-- `CONSOLE`, the one entry of `devsw` that is set. -/
def console : Int := 1

/-- `fileread`: the value, if the call does not sleep for good, and the bytes stored. The lock of the pipe or of the
console is got in the states listed. -/
def fileread (p f : Nat) (dst : Nat → Bool) (n : Int) (pwakes : List Pipe.State) (cwakes : List Console.State) :
    FsM (Option Int × List UInt8) := do
  let ff := (← get).ftable f
  if ff.readable = false then return (some (-1), [])
  else
    match ff.type with
    | .pipe =>
      match piperead p dst n pwakes with
      | some (_, r, bs) => return (some r, bs)
      | none => return (none, [])
    | .device =>
      if ff.major < 0 ∨ (ndev : Int) ≤ ff.major ∨ ff.major ≠ console then return (some (-1), [])
      else return consoleread p dst n n cwakes
    | .inode =>
      let (r, bs) ← Fs.fileread f dst n 0
      return (some r, bs)
    | .none => throw "fileread"

/-- At most `n` bytes are stored, the value is in range, and the offset of a file on the disk goes up by it. -/
def Bounded (s : Fs.State) (f : Nat) (n : Int) (r : Option Int) (bs : List UInt8) (t : Fs.State) : Prop :=
  bs.length ≤ n.toNat ∧ ∀ v, r = some v → -1 ≤ v ∧ v ≤ max n 0 ∧
    ((s.ftable f).type = .inode → (t.ftable f).off = (s.ftable f).off + v.toNat)

/-- A count below zero that `readi` takes for one of more than the file: the offset is too small for the sum to
wrap. -/
def TakenAsHuge (s : Fs.State) (f : Nat) (dst : Nat → Bool) (n : Int) : Prop :=
  (s.ftable f).readable = true ∧ (s.ftable f).type = .inode ∧ (s.ftable f).off + n < 0 ∧
    (s.ftable f).off < (s.dinode (s.itable (s.ftable f).ip).inum).size ∧ dst 0 = true

theorem bounded_fail : Bounded s f n (some (-1)) [] s :=
  ⟨Nat.zero_le _, fun v hv => Option.some.inj hv ▸ ⟨by decide, by omega, fun _ => rfl⟩⟩

theorem bounded_other (htype : (s.ftable f).type ≠ .inode) (hlen : bs.length ≤ n.toNat)
    (hv : ∀ v, r = some v → -1 ≤ v ∧ v ≤ max n 0) : Bounded s f n r bs t :=
  ⟨hlen, fun v he => ⟨(hv v he).1, (hv v he).2, fun h => absurd h htype⟩⟩

theorem piperead_bounded {u : Pipe.State} {v : Int} (hq : ∀ s ∈ pwakes, ∃ q, PipeHolds s q)
    (h : piperead p dst n pwakes = some (u, v, bs)) : bs.length ≤ n.toNat ∧ -1 ≤ v ∧ v ≤ max n 0 := by
  rcases piperead_spec h with ⟨s, hs, hend⟩ | ⟨rfl, rfl⟩
  · obtain ⟨q, hq⟩ := hq s hs
    obtain ⟨u', hu', -⟩ := pipereadLoop_spec (n := n) p dst n.toNat 0 (s.goto p (.rCopy n 0)) q hq (by omega)
    obtain ⟨-, hend⟩ := Prod.mk.inj (hend.trans hu')
    obtain ⟨rfl, rfl⟩ := Prod.mk.inj hend
    have hle := taken_le dst 0 (q.take n.toNat)
    have hn := length_take_le n.toNat q
    refine ⟨?_, ?_, ?_⟩
    · rw [length_take]
      omega
    · omega
    · omega
  · simp

theorem consoleread_bounded (p : Nat) (dst : Nat → Bool) (target : Int) : ∀ (wakes : List Console.State) (n : Int), 0 ≤ target - n →
    (∀ s ∈ wakes, ∃ ed, Console.Edits s ed) →
    (consoleread p dst target n wakes).2.length ≤ n.toNat ∧ ∀ v, (consoleread p dst target n wakes).1 = some v →
      v = -1 ∨ v = target - n + (consoleread p dst target n wakes).2.length
  | [], _, _, _ => ⟨Nat.zero_le _, fun _ hv => nomatch hv⟩
  | s :: wakes, n, hn, hw => by
    obtain ⟨ed, hed⟩ := hw s mem_cons_self
    have hend := consolereadLoop_spec p dst n.toNat n s ed hed rfl hn
    unfold consoleread
    dsimp only
    rw [hend.stored]
    have hle := taken_le dst (target - n).toNat (wanted n.toNat ed.queue)
    have hlen := length_wanted_le n.toNat ed.queue
    generalize wanted n.toNat ed.queue = w at hend hle hlen ⊢
    generalize taken dst (target - n).toNat w = g at hend hle ⊢
    have hg : (w.take g).length = g := by rw [length_take, Nat.min_eq_left hle]
    rcases hend.pc with hpc | hpc | hpc <;> rw [hpc] <;> dsimp only
    · rw [hg]
      exact ⟨by omega, fun v hv => .inr (Option.some.inj hv).symm⟩
    · rw [hg]
      exact ⟨by omega, fun v hv => .inl (Option.some.inj hv).symm⟩
    · obtain ⟨hlen', hval⟩ := consoleread_bounded p dst target wakes (n - g) (by omega) fun s hs =>
        hw s (mem_cons_of_mem _ hs)
      rw [length_append, hg]
      refine ⟨by omega, fun v hv => (hval v hv).imp id fun h => ?_⟩
      omega

theorem readCount_of_int {size : Nat} (off : Nat) (hsize : size < 2 ^ 31) (hn : -2 ^ 31 ≤ n ∧ n < 2 ^ 31) :
    (readCount size off (n % 2 ^ 32).toNat ≤ n.toNat ∧ ¬(off + n < 0 ∧ off < size)) ∨
      (off + n < 0 ∧ off < size ∧ readCount size off (n % 2 ^ 32).toNat = size - off) := by
  unfold readCount u32
  split_ifs <;> omega

theorem ilock_kept {k : Nat} : Sat (ilock k) s
    (fun _ t => t.ftable = s.ftable ∧ t.dinode = s.dinode ∧ (t.itable k).inum = (s.itable k).inum)
    fun _ => True := by
  unfold ilock acquiresleep loadInode setInode
  rw [sat_bind, sat_get, sat_ite]
  refine ⟨fun _ => trivial, fun _ => ?_⟩
  rw [sat_bind, sat_bind, sat_get, sat_ite]
  refine ⟨fun _ => trivial, fun _ => ?_⟩
  rw [sat_modify, sat_bind, sat_get, sat_ite]
  refine ⟨fun _ => ⟨rfl, rfl, ?_⟩, fun _ => ?_⟩
  · rw [inode_self]
  rw [sat_bind, sat_modify, sat_ite]
  refine ⟨fun _ => trivial, fun _ => ⟨rfl, rfl, ?_⟩⟩
  rw [inode_inode, inode_self]

theorem iunlock_kept {k : Nat} : Sat (iunlock k) s (fun _ t => t.ftable = s.ftable) fun _ => True := by
  unfold iunlock releasesleep setInode
  rw [sat_bind, sat_get]
  dsimp only
  rw [sat_ite]
  exact ⟨fun _ => trivial, fun _ => rfl⟩

theorem inode_read (h : Inv True s) (hread : (s.ftable f).readable = true) (htype : (s.ftable f).type = .inode) :
    Sat (Fs.fileread f dst n 0) s (fun r t => (t.ftable f).off = (s.ftable f).off + r.1.toNat ∧
      (s.dinode (s.itable (s.ftable f).ip).inum).size ≤ maxfile * bsize ∧ ∃ u, ReadEnd u (s.itable (s.ftable f).ip).inum dst
        (readCount (s.dinode (s.itable (s.ftable f).ip).inum).size (s.ftable f).off (n % 2 ^ 32).toNat)
        0 (s.ftable f).off r.1 r.2) fun _ => True := by
  have href : (s.ftable f).ref ≠ 0 := fun h0 => by
    rw [h.files.free f h0] at htype
    cases htype
  unfold Fs.fileread
  rw [sat_bind, sat_get]
  dsimp only
  rw [hread, if_neg (by decide), htype]
  dsimp only
  rw [sat_bind]
  refine (ilock_kept.and (ilock_one h.ok (h.held href (.inl htype)))).mono (fun _ t ⟨hkept, ht⟩ => ?_) fun _ _ => trivial
  obtain ⟨hfiles, hdinode, hinum⟩ := hkept
  have hdisk := ht.disk trivial
  have hlive := ht.live (Finset.mem_singleton_self _)
  obtain ⟨hd, hused⟩ := hdisk.sync _ hlive.1 hlive.2
  have hsmall := hdisk.small _ hused
  rw [hinum, hdinode] at hd hsmall
  refine ((readi_spec hdisk hlive).err False.elim).bind fun r u ⟨hu, hend⟩ => ?_
  rw [hd, hinum] at hend
  obtain ⟨v, bs⟩ := r
  dsimp only at hend ⊢
  unfold setFile
  rw [sat_bind, sat_modify, sat_bind]
  refine iunlock_kept.imp fun _ w hw => ?_
  refine ⟨?_, hsmall, t, hend⟩
  rw [hw, hu, hfiles]
  simp only [update_self]
  split <;> omega

theorem inode_bounded_iff {u : Fs.State} {i size off : Nat} {v : Int} (hsize : size < 2 ^ 31)
    (hn : -2 ^ 31 ≤ n ∧ n < 2 ^ 31) (hend : ReadEnd u i dst (readCount size off (n % 2 ^ 32).toNat) 0 off v bs) :
    (bs.length ≤ n.toNat ∧ -1 ≤ v ∧ v ≤ max n 0) ↔ ¬(off + n < 0 ∧ off < size ∧ dst 0 = true) := by
  have hcount := readCount_of_int off hsize hn
  generalize readCount size off (n % 2 ^ 32).toNat = c at hend hcount
  rcases hcount with ⟨hle, hnot⟩ | ⟨hneg, hlt, rfl⟩
  · refine iff_of_true ?_ fun hhuge => hnot ⟨hhuge.1, hhuge.2.1⟩
    cases hend with
    | all => exact ⟨by rw [length_bytesOf]; omega, by omega, by omega⟩
    | fault m => exact ⟨by rw [length_bytesOf]; omega, by omega, by omega⟩
  · -- the count is below zero, so one byte is too many
    cases hend with
    | all hdst =>
      have h0 := hdst 0 (Nat.le_refl 0) (by omega)
      refine iff_of_false (fun hbound => ?_) fun hnot => hnot ⟨hneg, hlt, h0⟩
      rw [length_bytesOf] at hbound
      omega
    | fault m _ hm hfalse hdst =>
      rw [length_bytesOf]
      rcases Nat.eq_zero_or_pos m with rfl | hpos
      · refine iff_of_true ⟨Nat.zero_le _, by omega, by omega⟩ fun hhuge => ?_
        rw [hfalse] at hhuge
        exact absurd hhuge.2.2 (by decide)
      · refine iff_of_false (fun hbound => ?_) fun hnot => hnot ⟨hneg, hlt, hdst 0 (Nat.le_refl 0) hpos⟩
        omega

/-- **A read stores no more than it is asked for**, returns a value from `-1` up to the count and moves the offset of a
file on the disk by it, for a file of every type, just when `readi` does not take a count below zero for a huge
one. -/
theorem read_bounded_iff {img : Image} {tr : List (Nat × Call)} (h : img.Consistent)
    (hrun : Run step (fun _ _ => True) (boot img) tr s) (hpipe : ∀ s ∈ pwakes, ∃ q, PipeHolds s q)
    (hconsole : ∀ s ∈ cwakes, ∃ ed, Console.Edits s ed) (hn : -2 ^ 31 ≤ n ∧ n < 2 ^ 31)
    (hret : fileread p f dst n pwakes cwakes s = .ok ((r, bs), t)) :
    Bounded s f n r bs t ↔ ¬TakenAsHuge s f dst n := by
  have hinv := h.run hrun
  have hsat : Sat (fileread p f dst n pwakes cwakes) s
      (fun r t => Bounded s f n r.1 r.2 t ↔ ¬TakenAsHuge s f dst n) fun _ => True := by
    unfold fileread
    rw [sat_bind, sat_get]
    dsimp only
    rw [sat_ite]
    refine ⟨fun hread => ?_, fun hread => ?_⟩
    · exact iff_of_true bounded_fail fun hhuge => Bool.noConfusion (hread.symm.trans hhuge.1)
    have hother : (s.ftable f).type ≠ .inode → ¬TakenAsHuge s f dst n := fun hne hhuge => hne hhuge.2.1
    cases htype : (s.ftable f).type with
    | none => trivial
    | pipe =>
      have hne : (s.ftable f).type ≠ .inode := by simp [htype]
      dsimp only
      cases hend : piperead p dst n pwakes with
      | none => exact iff_of_true (bounded_other hne (Nat.zero_le _) fun _ hv => nomatch hv) (hother hne)
      | some e =>
        obtain ⟨u, v, bs⟩ := e
        obtain ⟨hlen, hv⟩ := piperead_bounded hpipe hend
        exact iff_of_true (bounded_other hne hlen fun _ he => Option.some.inj he ▸ hv) (hother hne)
    | device =>
      have hne : (s.ftable f).type ≠ .inode := by simp [htype]
      dsimp only
      rw [sat_ite]
      refine ⟨fun _ => iff_of_true bounded_fail (hother hne), fun _ => ?_⟩
      obtain ⟨hlen, hv⟩ := consoleread_bounded p dst n cwakes n (by omega) hconsole
      refine iff_of_true (bounded_other hne hlen fun v he => ?_) (hother hne)
      have := hv v he
      omega
    | inode =>
      have hr : (s.ftable f).readable = true := by simpa using hread
      dsimp only
      refine (inode_read hinv hr htype).bind fun e t ⟨hoff, hsmall, u, hend⟩ => ?_
      have hiff := inode_bounded_iff (Nat.lt_of_le_of_lt hsmall (by decide)) hn hend
      refine ⟨fun hbound hhuge => ?_, fun hnot => ?_⟩
      · obtain ⟨hv, hv', -⟩ := hbound.2 e.1 rfl
        exact hiff.mp ⟨hbound.1, hv, hv'⟩ hhuge.2.2
      · obtain ⟨hlen, hv, hv'⟩ := hiff.mpr fun hhuge => hnot ⟨hr, htype, hhuge⟩
        exact ⟨hlen, fun v he => Option.some.inj he ▸ ⟨hv, hv', fun _ => hoff⟩⟩
  exact hsat.of_ok hret

/-- The length of what a read of the open directory stores, and the value. -/
def readsDir (n : Int) (s : Fs.State) : Option (Option Int × Nat) :=
  match fileread 0 0 (fun _ => true) n [] [] s with
  | .ok ((r, bs), _) => some (r, bs.length)
  | .error _ => none

theorem dir_opened : ∃ s, Run step (fun _ _ => True) (boot chainImage) [(0, .open down 0)] s ∧
    readsDir 48 s = some (some 48, 48) ∧ readsDir (-1) s = some (some 48, 48) := by
  have hexec : (StepRun.exec step (fun _ _ => True) (boot chainImage) [(0, .open down 0)]).map
      (fun s => decide (readsDir 48 s = some (some 48, 48) ∧ readsDir (-1) s = some (some 48, 48))) = some true := by
    decide +kernel
  obtain ⟨s, hs, hend⟩ := Option.map_eq_some_iff.mp hexec
  exact ⟨s, run_of_exec hs, of_decide_eq_true hend⟩

theorem readsDir_ok {n : Int} {e : Option Int × Nat} (h : readsDir n s = some e) :
    ∃ bs t, fileread 0 0 (fun _ => true) n [] [] s = .ok ((e.1, bs), t) ∧ bs.length = e.2 := by
  unfold readsDir at h
  cases hread : fileread 0 0 (fun _ => true) n [] [] s with
  | ok res =>
    rw [hread] at h
    obtain ⟨⟨r, bs⟩, t⟩ := res
    obtain rfl := Option.some.inj h
    exact ⟨bs, t, rfl, rfl⟩
  | error e =>
    rw [hread] at h
    cases h

/-- A directory of 48 bytes is read to its end. -/
theorem dir_read_bounded : ∃ s bs t, Run step (fun _ _ => True) (boot chainImage) [(0, .open down 0)] s ∧
    fileread 0 0 (fun _ => true) 48 [] [] s = .ok ((some 48, bs), t) ∧ Bounded s 0 48 (some 48) bs t := by
  obtain ⟨s, hrun, hread, -⟩ := dir_opened
  obtain ⟨bs, t, hret, -⟩ := readsDir_ok hread
  refine ⟨s, bs, t, hrun, hret, ?_⟩
  refine (read_bounded_iff chainImage_consistent hrun (fun _ h => absurd h not_mem_nil)
    (fun _ h => absurd h not_mem_nil) (by decide) hret).mpr fun hhuge => ?_
  have := hhuge.2.2.1
  omega

/-- The same read with the count `-1` stores all 48 bytes too. -/
theorem negative_count_reads_all : ∃ s bs t,
    Run step (fun _ _ => True) (boot chainImage) [(0, .open down 0)] s ∧
      fileread 0 0 (fun _ => true) (-1) [] [] s = .ok ((some 48, bs), t) ∧ bs.length = 48 ∧
        ¬Bounded s 0 (-1) (some 48) bs t := by
  obtain ⟨s, hrun, -, hread⟩ := dir_opened
  obtain ⟨bs, t, hret, hlen⟩ := readsDir_ok hread
  refine ⟨s, bs, t, hrun, hret, hlen, fun hbound => ?_⟩
  have hle := hbound.1
  rw [hlen] at hle
  exact absurd hle (by decide)

end Count

end Xv6Armv8.FileRead
