import Xv6Armv8.LibRing
import Xv6Armv8.LibRun

/-! The transmitter of `kernel/uart.c`: the ring `uart_tx_buf`, the writers that wait for room in it, and `uartstart`,
which is called with `uart_tx_lock` by `uartputc` and by the interrupt handler. One event is one turn of a loop by the
thread that has the lock; whether the transmit FIFO is full at a check is a part of the event. A CPU that finds the
kernel in `panic` does not go on and is not in the model. -/

namespace Xv6Armv8.Uart

open List StepRun

abbrev Tid := Nat

def txBufSize : Nat := 32

/-- `uart_tx_w` and `uart_tx_r` are of type `uint64`. -/
def uint64Mod : Nat := 2 ^ 64

/-- `UART_RXI` and `UART_TXI`. -/
def rxi : Nat := 1 <<< 4
def txi : Nat := 1 <<< 5

inductive Pc where
  | idle
  /-- In `uartputc`, in want of the lock. -/
  | putc (c : Nat)
  /-- In `uartputc` with the lock, at the test of the loop. -/
  | test (c : Nat)
  | asleep (c : Nat)
  /-- In `uartintr`, in want of the lock. -/
  | intr
  /-- In `uartstart`. -/
  | start
  deriving DecidableEq

structure State where
  buf : Nat → UInt8
  w : Nat
  r : Nat
  /-- The interrupt mask register `UART_IMSC`. -/
  imsc : Nat
  lock : Option Tid
  pc : Tid → Pc
  /-- History: the bytes `uartputc` put into the buffer. -/
  passed : List UInt8
  /-- History: the bytes `uartstart` wrote to `UART_DR`. -/
  sent : List UInt8
  /-- History: the interrupt mask at each return of `uartstart` that left bytes in the buffer because the FIFO was
  full, the last first. -/
  stuck : List Nat

inductive Event where
  | uartsti
  | uartputc (t : Tid) (c : Nat)
  | uartintr (t : Tid)
  | acquire (t : Tid)
  /-- A turn of a loop; `full` is `UART_FR_TXFF` as `uartstart` reads it. -/
  | run (t : Tid) (full : Bool)

def Pc.wake : Pc → Pc
  | .asleep c => .putc c
  | pc => pc

def State.goto (s : State) (t : Tid) (pc : Pc) : State := { s with pc := Function.update s.pc t pc }

/-- The thread gives the lock back. -/
def State.release (s : State) (t : Tid) (pc : Pc) : State := { s.goto t pc with lock := none }

/-- `uart_tx_buf[uart_tx_w % UART_TX_BUF_SIZE] = c; uart_tx_w += 1`. -/
def State.put (s : State) (c : UInt8) : State :=
  { s with
    buf := Function.update s.buf (s.w % txBufSize) c, w := (s.w + 1) % uint64Mod, passed := s.passed ++ [c] }

/-- The byte at `uart_tx_r` goes to `UART_DR`, and a writer that waits for room is woken. -/
def State.send (s : State) : State :=
  { s with
    r := (s.r + 1) % uint64Mod, sent := s.sent ++ [s.buf (s.r % txBufSize)], pc := fun t => (s.pc t).wake }

/-- A turn of the loop of `uartstart`. -/
def uartstart (s : State) (t : Tid) (full : Bool) : State :=
  if s.w = s.r then s.release t .idle
  else if full then { s.release t .idle with stuck := s.imsc :: s.stuck }
  else s.send

/-- A turn of the loop of `uartputc`; the buffer is one of bytes. -/
def uartputc (s : State) (t : Tid) (c : Nat) : State :=
  if s.w = (s.r + txBufSize) % uint64Mod then s.release t (.asleep c)
  else (s.put (UInt8.ofNat c)).goto t .start

def step (s : State) : Event → Option State
  | .uartsti => some { s with imsc := rxi }
  | .uartputc t c => if s.pc t = .idle then some (s.goto t (.putc c)) else none
  | .uartintr t => if s.pc t = .idle then some (s.goto t .intr) else none
  | .acquire t =>
    if s.lock = none then
      match s.pc t with
      | .putc c => some { s.goto t (.test c) with lock := some t }
      | .intr => some { s.goto t .start with lock := some t }
      | _ => none
    else none
  | .run t full =>
    match s.pc t with
    | .test c => some (uartputc s t c)
    | .start => some (uartstart s t full)
    | _ => none

/-- The UART before `uartsti`: no interrupt is unmasked. -/
def init (buf : Nat → UInt8) : State where
  buf := buf
  w := 0
  r := 0
  imsc := 0
  lock := none
  pc := fun _ => .idle
  passed := []
  sent := []
  stuck := []

/-- The FIFO takes a byte whenever `uartstart` has one for it. -/
def FifoTakes (s : State) : Event → Prop
  | .run t full => s.pc t = .start → s.w ≠ s.r → full = false
  | _ => True

/-! ### The order of the bytes -/

variable {s s' : State} {t : Tid}

theorem dvd_uint64Mod : txBufSize ∣ uint64Mod := by decide

theorem txBufSize_lt : txBufSize < uint64Mod := by decide

structure Inv (s : State) : Prop where
  queue : ∃ q, Ring.Holds txBufSize uint64Mod s.buf s.r s.w q ∧ s.passed = s.sent ++ q
  /-- The transmit interrupt is never unmasked. -/
  mask : s.imsc = 0 ∨ s.imsc = rxi
  stuck : ∀ m ∈ s.stuck, m = 0 ∨ m = rxi

theorem inv_init (buf : Nat → UInt8) : Inv (init buf) :=
  ⟨⟨[], Ring.holds_nil (show 0 < uint64Mod by decide), rfl⟩, .inl rfl, nofun⟩

theorem Inv.uartstart (h : Inv s) (t : Tid) (full : Bool) : Inv (uartstart s t full) := by
  rw [Uart.uartstart]
  split
  · exact ⟨h.queue, h.mask, h.stuck⟩
  · next hne =>
      split
      · refine ⟨h.queue, h.mask, ?_⟩
        intro m hm
        rcases mem_cons.mp hm with rfl | hm
        · exact h.mask
        · exact h.stuck m hm
      · obtain ⟨q, hq, hpassed⟩ := h.queue
        cases q with
        | nil => exact absurd (hq.empty_iff.mpr rfl).symm hne
        | cons x q =>
          obtain ⟨hx, hpop⟩ := hq.pop dvd_uint64Mod
          refine ⟨⟨q, hpop, ?_⟩, h.mask, h.stuck⟩
          calc s.passed = s.sent ++ (x :: q) := hpassed
            _ = (s.sent ++ [x]) ++ q := by rw [append_assoc]; rfl
            _ = (s.sent ++ [s.buf (s.r % txBufSize)]) ++ q := by rw [hx]

theorem Inv.uartputc (h : Inv s) (t : Tid) (c : Nat) : Inv (uartputc s t c) := by
  rw [Uart.uartputc]
  split
  · exact ⟨h.queue, h.mask, h.stuck⟩
  · next hroom =>
      obtain ⟨q, hq, hpassed⟩ := h.queue
      have hlen : q.length < txBufSize :=
        Nat.lt_of_le_of_ne hq.room fun he => hroom ((hq.full_iff txBufSize_lt).mpr he)
      refine ⟨⟨_, hq.push dvd_uint64Mod txBufSize_lt hlen (UInt8.ofNat c), ?_⟩, h.mask, h.stuck⟩
      change s.passed ++ [UInt8.ofNat c] = s.sent ++ (q ++ [UInt8.ofNat c])
      rw [hpassed, append_assoc]

theorem Inv.step (h : Inv s) {e : Event} (hs : step s e = some s') : Inv s' := by
  cases e with
  | uartsti =>
    cases hs
    exact ⟨h.queue, .inr rfl, h.stuck⟩
  | uartputc t c =>
    obtain ⟨-, rfl⟩ := guarded hs
    exact ⟨h.queue, h.mask, h.stuck⟩
  | uartintr t =>
    obtain ⟨-, rfl⟩ := guarded hs
    exact ⟨h.queue, h.mask, h.stuck⟩
  | acquire t =>
    obtain ⟨-, hs⟩ := Option.ite_none_right_eq_some.mp hs
    split at hs <;> cases hs
    all_goals exact ⟨h.queue, h.mask, h.stuck⟩
  | run t full =>
    simp only [Uart.step] at hs
    split at hs
    · cases hs
      exact h.uartputc t _
    · cases hs
      exact h.uartstart t full
    · cases hs

theorem inv_run {buf : Nat → UInt8} {tr : List Event}
    (h : Run step (fun _ _ => True) (init buf) tr s) : Inv s :=
  h.invariant (inv_init buf) fun _ _ _ hi _ hs => hi.step hs

/-! ### The interrupt mask -/

theorem Inv.no_txi (h : Inv s) : ∀ m ∈ s.stuck, m &&& txi = 0 := by
  intro m hm
  rcases h.stuck m hm with rfl | rfl
  · rfl
  · rfl

theorem stuck_step {e : Event} (hs : step s e = some s') :
    (FifoTakes s e ∧ s'.stuck = s.stuck) ∨ (¬ FifoTakes s e ∧ s'.stuck ≠ []) := by
  cases e with
  | uartsti =>
    cases hs
    exact .inl ⟨trivial, rfl⟩
  | uartputc t c =>
    obtain ⟨-, rfl⟩ := guarded hs
    exact .inl ⟨trivial, rfl⟩
  | uartintr t =>
    obtain ⟨-, rfl⟩ := guarded hs
    exact .inl ⟨trivial, rfl⟩
  | acquire t =>
    obtain ⟨-, hs⟩ := Option.ite_none_right_eq_some.mp hs
    split at hs <;> cases hs
    all_goals exact .inl ⟨trivial, rfl⟩
  | run t full =>
    simp only [step] at hs
    split at hs
    · next hpc =>
        cases hs
        left
        constructor
        · intro hstart
          rw [hpc] at hstart
          cases hstart
        · rw [uartputc]
          split <;> rfl
    · next hpc =>
        cases hs
        rw [uartstart]
        by_cases hempty : s.w = s.r
        · rw [if_pos hempty]
          exact .inl ⟨fun _ hne => absurd hempty hne, rfl⟩
        · rw [if_neg hempty]
          cases full with
          | true =>
            refine .inr ⟨fun htakes => ?_, cons_ne_nil _ _⟩
            cases htakes hpc hempty
          | false => exact .inl ⟨fun _ _ => rfl, rfl⟩
    · cases hs

/-- No return with bytes left is recorded just when the FIFO took every byte it was offered. -/
theorem stuck_iff {buf : Nat → UInt8} {tr : List Event} (h : Run step (fun _ _ => True) (init buf) tr s) :
    s.stuck = [] ↔ Run step FifoTakes (init buf) tr s := by
  constructor
  · induction h with
    | nil => exact fun _ => .nil
    | snoc _ _ hs ih =>
      intro hempty
      rcases stuck_step hs with ⟨htakes, hsame⟩ | ⟨-, hne⟩
      · exact .snoc (ih (hsame.symm.trans hempty)) htakes hs
      · exact absurd hempty hne
  · intro hrun
    refine hrun.invariant (P := fun a => a.stuck = []) rfl ?_
    intro a e b ha htakes hs
    rcases stuck_step hs with ⟨-, hsame⟩ | ⟨hnot, -⟩
    · exact hsame.trans ha
    · exact absurd htakes hnot

/-- **Output is not stranded just in the runs in which the FIFO takes every byte it is offered.** The transmit
interrupt stays masked, so that whenever `uartstart` leaves bytes behind for a full FIFO no interrupt will fetch them.
The bytes it does send are sent in the order in which they were put into the buffer. -/
theorem tx_never_strands_iff {buf : Nat → UInt8} {tr : List Event}
    (h : Run step (fun _ _ => True) (init buf) tr s) :
    ((∀ m ∈ s.stuck, m &&& txi ≠ 0) ∧ s.sent <+: s.passed) ↔ Run step FifoTakes (init buf) tr s := by
  have hinv := inv_run h
  obtain ⟨q, -, hpassed⟩ := hinv.queue
  have hsent : s.sent <+: s.passed := hpassed ▸ prefix_append ..
  rw [← stuck_iff h]
  constructor
  · rintro ⟨htxi, -⟩
    apply eq_nil_iff_forall_not_mem.mpr
    intro m hm
    exact htxi m hm (hinv.no_txi m hm)
  · intro hempty
    refine ⟨?_, hsent⟩
    rw [hempty]
    exact nofun

/-- A byte is written while the FIFO is full. -/
def fifoFull : List Event := [.uartsti, .uartputc 0 65, .acquire 0, .run 0 true, .run 0 true]

theorem fifoFull_strands : ∃ s, Run step (fun _ _ => True) (init fun _ => 0) fifoFull s ∧
    s.stuck = [rxi] ∧ rxi &&& txi = 0 ∧ s.passed = [65] ∧ s.sent = [] := by
  have hend : (exec step (fun _ _ => True) (init fun _ => 0) fifoFull).map
      (fun s => (s.stuck, s.passed, s.sent)) = some ([rxi], [65], []) := by decide +kernel
  obtain ⟨s, hs, hfacts⟩ := Option.map_eq_some_iff.mp hend
  simp only [Prod.mk.injEq] at hfacts
  exact ⟨s, run_of_exec hs, hfacts.1, rfl, hfacts.2⟩

/-- The same with a FIFO that has room. -/
def fifoFree : List Event := [.uartsti, .uartputc 0 65, .acquire 0, .run 0 false, .run 0 false, .run 0 false]

theorem fifoFree_sends : ∃ s, Run step FifoTakes (init fun _ => 0) fifoFree s ∧ s.sent = [65] := by
  have hend : (exec step (fun _ _ => True) (init fun _ => 0) fifoFree).map
      (fun s => (s.stuck, s.sent)) = some ([], [65]) := by decide +kernel
  obtain ⟨s, hs, hfacts⟩ := Option.map_eq_some_iff.mp hend
  simp only [Prod.mk.injEq] at hfacts
  have hrun := run_of_exec hs
  refine ⟨s, (tx_never_strands_iff hrun).mp ⟨?_, ?_⟩, hfacts.2⟩
  · rw [hfacts.1]
    exact nofun
  · obtain ⟨q, -, hpassed⟩ := (inv_run hrun).queue
    exact hpassed ▸ prefix_append ..

/-- **The ring loses no byte.** At every point of every run the bytes accepted by `uartputc` are those that were sent
and those between the two indices, in this order, at most as many as the ring has room for; the indices meet just
when everything has been sent. -/
theorem tx_ring_exact {buf : Nat → UInt8} {tr : List Event}
    (h : Run step (fun _ _ => True) (init buf) tr s) :
    s.passed = s.sent ++ Ring.entries txBufSize uint64Mod s.buf s.r s.w ∧
    s.passed.length - s.sent.length ≤ txBufSize ∧ (s.r = s.w ↔ s.sent = s.passed) := by
  obtain ⟨q, hq, hpassed⟩ := (inv_run h).queue
  rw [hq.eq, hq.empty_iff, hpassed]
  refine ⟨rfl, ?_, ?_⟩
  · rw [length_append, Nat.add_sub_cancel_left]
    exact hq.room
  · rw [self_eq_append_right]

theorem fifoFull_waits : ∃ s, Run step (fun _ _ => True) (init fun _ => 0) fifoFull s ∧
    [65] = s.sent ++ Ring.entries txBufSize uint64Mod s.buf s.r s.w := by
  have hend : (exec step (fun _ _ => True) (init fun _ => 0) fifoFull).map State.passed = some [65] := by
    decide +kernel
  obtain ⟨s, hs, hpassed⟩ := Option.map_eq_some_iff.mp hend
  exact ⟨s, run_of_exec hs, hpassed ▸ (tx_ring_exact (run_of_exec hs)).1⟩

end Xv6Armv8.Uart
