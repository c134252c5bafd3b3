import Mathlib.Logic.Function.Basic
import Mathlib.Tactic

/-! The set-up of the interrupt controller (`gic.c`). The distributor is an array of 32-bit registers, named by
their offset divided by four; the set-enable registers take a one as "set" and keep what they had under a zero,
all others are plain storage. The macros of the source make every access 64 bits wide, so that a store of a
32-bit value clears the register after it. The results say when a call keeps to the bits of its interrupt, and
what the CPUs find after each of them has run `gichartinit`. -/

namespace Xv6Armv8.Gic

open Function List

abbrev Regs := Nat → BitVec 32

/-! ### The registers -/

def gicdCtlr : Nat := 0x000 / 4
def gicdIsenabler : Nat := 0x100 / 4
def gicdIcenabler : Nat := 0x180 / 4
def gicdItargetsr : Nat := 0x800 / 4
def gicdIcfgr : Nat := 0xc00 / 4

def giccCtlr : Nat := 0x000 / 4
def giccPmr : Nat := 0x004 / 4

structure State where
  /-- The distributor, one for all CPUs. -/
  gicd : Regs
  /-- The interface of each CPU. -/
  gicc : Nat → Regs

/-- What a store of a 32-bit value leaves in a register of the distributor. -/
def stored (o : Nat) (old v : BitVec 32) : BitVec 32 :=
  if gicdIsenabler ≤ o ∧ o < gicdIcenabler then old ||| v else v

/-- A 64-bit load. -/
def load64 (d : Regs) (o : Nat) : BitVec 64 := d (o + 1) ++ d o

/-- A 64-bit store to the distributor. -/
def store64 (d : Regs) (o : Nat) (v : BitVec 64) : Regs :=
  update (update d o (stored o (d o) (v.setWidth 32)))
    (o + 1) (stored (o + 1) (d (o + 1)) ((v >>> 32).setWidth 32))

/-- A 64-bit store to a CPU interface. -/
def store64c (d : Regs) (o : Nat) (v : BitVec 64) : Regs :=
  update (update d o (v.setWidth 32)) (o + 1) ((v >>> 32).setWidth 32)

/-! ### gic.c -/

def cfgset (id : Nat) (isedge : Bool) (d : Regs) : Regs :=
  let offset := id / 16
  let bitpos := id % 16 * 2
  let val : BitVec 32 := (load64 d (gicdIcfgr + offset)).setWidth 32
  let mask : BitVec 32 := 0x03
  let val := val &&& ~~~(mask <<< bitpos)
  let val := if isedge then val ||| 0x02#32 <<< bitpos else val
  store64 d (gicdIcfgr + offset) (val.setWidth 64)

def enbset (id : Nat) (d : Regs) : Regs :=
  let offset := id / 32
  let bitpos := id % 32
  let val : BitVec 32 := (load64 d (gicdIsenabler + offset)).setWidth 32
  let val := val ||| 1#32 <<< bitpos
  store64 d (gicdIsenabler + offset) (val.setWidth 64)

def cpuset (id : Nat) (cpu : BitVec 32) (d : Regs) : Regs :=
  let offset := id / 4
  let bitpos := id % 4 * 8
  let val : BitVec 32 := (load64 d (gicdItargetsr + offset)).setWidth 32
  let val := val ||| cpu <<< bitpos
  store64 d (gicdItargetsr + offset) (val.setWidth 64)

def irqTimer0 : Nat := 14
def irqUart : Nat := 1
def irqMmio : Nat := 16

def ppi2id (x : Nat) : Nat := x + 16
def spi2id (x : Nat) : Nat := x + 32

def spiset (spi : Nat) (isedge : Bool) (cpu : BitVec 32) (d : Regs) : Regs :=
  cpuset (spi2id spi) cpu (enbset (spi2id spi) (cfgset (spi2id spi) isedge d))

def ppiset (ppi : Nat) (isedge : Bool) (cpu : BitVec 32) (d : Regs) : Regs :=
  cpuset (ppi2id ppi) cpu (enbset (ppi2id ppi) (cfgset (ppi2id ppi) isedge d))

def group0enb (c : Nat) (s : State) : State where
  gicd := store64 s.gicd gicdCtlr (load64 s.gicd gicdCtlr ||| 1)
  gicc := update s.gicc c (store64c (s.gicc c) giccCtlr (load64 (s.gicc c) giccCtlr ||| 1))

/-- 16 priority levels. -/
def cpuinit (c : Nat) (s : State) : State :=
  { s with gicc := update s.gicc c (store64c (s.gicc c) giccPmr 0x0f) }

/-- `gichartinit` on the CPU `c`. -/
def gichartinit (s : State) (c : Nat) : State :=
  let s := cpuinit c s
  let cpu := 1#32 <<< c
  let d := ppiset irqTimer0 false cpu s.gicd
  let d := spiset irqUart false cpu d
  let d := spiset irqMmio true cpu d
  group0enb c { s with gicd := d }

/-! ### The bits of an interrupt -/

/-- A bit of a register. -/
def bit (d : Regs) (o b : Nat) : Bool := (d o).getLsbD b

/-- The two bits of an interrupt in `GICD_ICFGR`. -/
def CfgBit (id o b : Nat) : Prop := o = gicdIcfgr + id / 16 ∧ b / 2 = id % 16

/-- The bit of an interrupt in `GICD_ISENABLER`. -/
def EnbBit (id o b : Nat) : Prop := o = gicdIsenabler + id / 32 ∧ b = id % 32

/-- The eight bits of an interrupt in `GICD_ITARGETSR`. -/
def CpuBit (id o b : Nat) : Prop := o = gicdItargetsr + id / 4 ∧ b / 8 = id % 4

/-- Only the bits `F` have changed. -/
def Only (F : Nat → Nat → Prop) (d d' : Regs) : Prop := ∀ o b, ¬F o b → bit d' o b = bit d o b

/-- An interrupt is forwarded to the CPU interfaces. -/
def Enabled (d : Regs) (id : Nat) : Prop := bit d (gicdIsenabler + id / 32) (id % 32) = true

/-- An interrupt is targeted at the CPU `c`. -/
def Targeted (d : Regs) (id c : Nat) : Prop := bit d (gicdItargetsr + id / 4) (id % 4 * 8 + c) = true

variable {d : Regs} {o b id c : Nat} {v : BitVec 32}

/-! ### Wide stores -/

theorem load64_low (d : Regs) (o : Nat) : (load64 d o).setWidth 32 = d o := by
  apply BitVec.eq_of_getLsbD_eq
  intro i hi
  rw [load64, BitVec.getLsbD_setWidth, BitVec.getLsbD_append]
  simp [hi]

theorem setWidth_low (v : BitVec 32) : (v.setWidth 64).setWidth 32 = v := by
  apply BitVec.eq_of_getLsbD_eq
  intro i hi
  simp only [BitVec.getLsbD_setWidth, hi, decide_true, Bool.true_and, show i < 64 by omega]

theorem setWidth_high (v : BitVec 32) : ((v.setWidth 64) >>> 32).setWidth 32 = 0#32 := by
  apply BitVec.eq_of_getLsbD_eq
  intro i hi
  simp

theorem store64_plain (ho : gicdIcenabler ≤ o) (v : BitVec 32) :
    store64 d o (v.setWidth 64) = update (update d o v) (o + 1) 0 := by
  unfold store64 stored
  rw [setWidth_low, setWidth_high, if_neg (by omega), if_neg (by omega)]
  rfl

/-- In the set-enable registers it sets its ones, and the zero after it does nothing. -/
theorem store64_set (hlo : gicdIsenabler ≤ o) (hhi : o + 1 < gicdIcenabler) (v : BitVec 32) :
    store64 d o (v.setWidth 64) = update d o (d o ||| v) := by
  unfold store64 stored
  rw [setWidth_low, setWidth_high, if_pos (by omega), if_pos (by omega), BitVec.or_zero]
  funext x
  by_cases hx : x = o + 1
  · subst hx
    rw [update_self, update_of_ne (by omega)]
  · rw [update_of_ne hx]

/-- What `cfgset` makes of the register of its interrupt. -/
def cfgVal (id : Nat) (isedge : Bool) (v : BitVec 32) : BitVec 32 :=
  if isedge then (v &&& ~~~(0x03#32 <<< (id % 16 * 2))) ||| 0x02#32 <<< (id % 16 * 2)
  else v &&& ~~~(0x03#32 <<< (id % 16 * 2))

theorem cfgset_eq (id : Nat) (isedge : Bool) (d : Regs) : cfgset id isedge d =
    update (update d (gicdIcfgr + id / 16) (cfgVal id isedge (d (gicdIcfgr + id / 16))))
      (gicdIcfgr + id / 16 + 1) 0 := by
  unfold cfgset
  dsimp only
  rw [load64_low, store64_plain (by unfold gicdIcenabler gicdIcfgr; omega)]
  rfl

theorem enbset_eq (hid : id < 992) (d : Regs) : enbset id d =
    update d (gicdIsenabler + id / 32) (d (gicdIsenabler + id / 32) ||| 1#32 <<< (id % 32)) := by
  unfold enbset
  dsimp only
  rw [load64_low, store64_set (by omega) (by unfold gicdIcenabler gicdIsenabler; omega)]
  rw [← BitVec.or_assoc, BitVec.or_self]

theorem cpuset_eq (id : Nat) (cpu : BitVec 32) (d : Regs) : cpuset id cpu d =
    update (update d (gicdItargetsr + id / 4)
      (d (gicdItargetsr + id / 4) ||| cpu <<< (id % 4 * 8))) (gicdItargetsr + id / 4 + 1) 0 := by
  unfold cpuset
  dsimp only
  rw [load64_low, store64_plain (by unfold gicdIcenabler gicdItargetsr; omega)]

/-! ### One call -/

theorem shift_bit_outside {x : BitVec 32} {w p : Nat} (hx : x.toNat < 2 ^ w) (h : b < p ∨ p + w ≤ b) :
    (x <<< p).getLsbD b = false := by
  rw [BitVec.getLsbD_shiftLeft]
  rcases h with h | h
  · simp [h]
  · have hbit : x.getLsbD (b - p) = false := by
      apply Nat.testBit_lt_two_pow
      exact lt_of_lt_of_le hx (Nat.pow_le_pow_right (by decide) (by omega))
    simp [hbit]

/-- A call that stores `v` to one register and clears the next changes only bits `F` of the one if `v` does and
the next was clear. -/
theorem only_pair {F : Nat → Nat → Prop} (hnext : ∀ b, ¬F (o + 1) b)
    (hv : ∀ b, ¬F o b → v.getLsbD b = (d o).getLsbD b) :
    Only F d (update (update d o v) (o + 1) 0) ↔ d (o + 1) = 0 := by
  constructor
  · intro h
    apply BitVec.eq_of_getLsbD_eq
    intro i _
    have hbit := h (o + 1) i (hnext i)
    rw [bit, bit, update_self] at hbit
    exact hbit.symm
  · intro h x b hxb
    by_cases hx : x = o + 1
    · subst hx
      rw [bit, bit, update_self, h]
    · rw [bit, bit, update_of_ne hx]
      by_cases hxo : x = o
      · subst hxo
        rw [update_self]
        exact hv b hxb
      · rw [update_of_ne hxo]

theorem cfgset_only (id : Nat) (isedge : Bool) (d : Regs) :
    Only (CfgBit id) d (cfgset id isedge d) ↔ d (gicdIcfgr + id / 16 + 1) = 0 := by
  rw [cfgset_eq]
  refine only_pair (fun b h => ?_) fun b hb => ?_
  · have := h.1
    omega
  · have hout : b < id % 16 * 2 ∨ id % 16 * 2 + 2 ≤ b := by
      by_contra hin
      exact hb ⟨rfl, by omega⟩
    have h3 : (0x03#32 <<< (id % 16 * 2)).getLsbD b = false := shift_bit_outside (by decide) hout
    have h2 : (0x02#32 <<< (id % 16 * 2)).getLsbD b = false := shift_bit_outside (by decide) hout
    by_cases hb32 : b < 32
    · unfold cfgVal
      split
      · rw [BitVec.getLsbD_or, h2, Bool.or_false, BitVec.getLsbD_and, BitVec.getLsbD_not, h3]
        simp [hb32]
      · rw [BitVec.getLsbD_and, BitVec.getLsbD_not, h3]
        simp [hb32]
    · rw [BitVec.getLsbD_of_ge _ _ (by omega), BitVec.getLsbD_of_ge _ _ (by omega)]

theorem enbset_only (hid : id < 992) (d : Regs) : Only (EnbBit id) d (enbset id d) := by
  intro o b hb
  rw [enbset_eq hid, bit, bit]
  by_cases ho : o = gicdIsenabler + id / 32
  · have hout : b < id % 32 ∨ id % 32 + 1 ≤ b := by
      by_contra hin
      exact hb ⟨ho, by omega⟩
    rw [ho, update_self, BitVec.getLsbD_or, shift_bit_outside (by decide) hout, Bool.or_false]
  · rw [update_of_ne ho]

theorem cpuset_only (id : Nat) {cpu : BitVec 32} (hcpu : cpu.toNat < 2 ^ 8) (d : Regs) :
    Only (CpuBit id) d (cpuset id cpu d) ↔ d (gicdItargetsr + id / 4 + 1) = 0 := by
  rw [cpuset_eq]
  refine only_pair (fun b h => ?_) fun b hb => ?_
  · have := h.1
    omega
  · have hout : b < id % 4 * 8 ∨ id % 4 * 8 + 8 ≤ b := by
      by_contra hin
      exact hb ⟨rfl, by omega⟩
    rw [BitVec.getLsbD_or, shift_bit_outside hcpu hout, Bool.or_false]

/-! ### The CPUs start -/

/-- `gichartinit` on one CPU after the other. -/
def starts (s : State) (cs : List Nat) : State := cs.foldl gichartinit s

/-- The distributor after `gichartinit`, as far as the interrupts of the UART and the disk go: the enable bits
add up, and so do the targets of the disk, but the targets of the UART are those of this CPU alone. -/
theorem gichartinit_spis (s : State) (c : Nat) : (gichartinit s c).gicd (gicdIsenabler + 1) =
      s.gicd (gicdIsenabler + 1) ||| 1#32 <<< 1 ||| 1#32 <<< 16 ∧
    (gichartinit s c).gicd (gicdItargetsr + 8) = (1#32 <<< c) <<< 8 ∧
    (gichartinit s c).gicd (gicdItargetsr + 12) = s.gicd (gicdItargetsr + 12) ||| 1#32 <<< c := by
  simp only [gichartinit, cpuinit, group0enb, spiset, ppiset, cfgset_eq, cpuset_eq,
    enbset_eq (show spi2id irqUart < 992 by decide), enbset_eq (show spi2id irqMmio < 992 by decide),
    enbset_eq (show ppi2id irqTimer0 < 992 by decide), store64]
  refine ⟨?_, ?_, ?_⟩ <;>
    simp [update, spi2id, ppi2id, irqUart, irqMmio, irqTimer0, gicdIsenabler, gicdItargetsr,
      gicdIcfgr, gicdCtlr]

theorem starts_concat (s : State) (cs : List Nat) (c : Nat) :
    starts s (cs ++ [c]) = gichartinit (starts s cs) c := by
  rw [starts, foldl_append]
  rfl

theorem starts_enabled (s : State) {cs : List Nat} (hcs : cs ≠ []) :
    Enabled (starts s cs).gicd (spi2id irqUart) ∧ Enabled (starts s cs).gicd (spi2id irqMmio) := by
  obtain ⟨cs, c, rfl⟩ : ∃ cs' c, cs = cs' ++ [c] := ⟨_, _, (dropLast_append_getLast hcs).symm⟩
  obtain ⟨h, -, -⟩ := gichartinit_spis (starts s cs) c
  rw [starts_concat]
  constructor
  · show ((gichartinit (starts s cs) c).gicd (gicdIsenabler + 1)).getLsbD 1 = true
    rw [h]
    simp
  · show ((gichartinit (starts s cs) c).gicd (gicdIsenabler + 1)).getLsbD 16 = true
    rw [h]
    simp

theorem one_shift_bit {c c' : Nat} (hc : c < 8) : (1#32 <<< c).getLsbD c' = true ↔ c' = c := by
  rw [BitVec.getLsbD_shiftLeft, BitVec.getLsbD_one]
  simp only [Bool.and_eq_true, decide_eq_true_eq, Bool.not_eq_true', decide_eq_false_iff_not]
  omega

theorem starts_mmio (s : State) {c : Nat} (hc : c < 8) (cs : List Nat) (hmem : c ∈ cs) :
    Targeted (starts s cs).gicd (spi2id irqMmio) c := by
  induction cs using List.reverseRecOn with
  | nil => cases hmem
  | append_singleton cs c' ih =>
    obtain ⟨-, -, h⟩ := gichartinit_spis (starts s cs) c'
    rw [starts_concat]
    show ((gichartinit (starts s cs) c').gicd (gicdItargetsr + 12)).getLsbD (0 + c) = true
    rw [h, BitVec.getLsbD_or, Bool.or_eq_true, Nat.zero_add]
    rcases mem_append.mp hmem with hold | hnew
    · have hbit := ih hold
      left
      change ((starts s cs).gicd (gicdItargetsr + 12)).getLsbD (0 + c) = true at hbit
      rwa [Nat.zero_add] at hbit
    · right
      rw [mem_singleton] at hnew
      rw [hnew, one_shift_bit (hnew ▸ hc)]

theorem starts_uart (s : State) {c c' : Nat} (hc : c < 8) (hc' : c' < 8) (cs : List Nat) :
    Targeted (starts s (cs ++ [c])).gicd (spi2id irqUart) c' ↔ c' = c := by
  obtain ⟨-, h, -⟩ := gichartinit_spis (starts s cs) c
  rw [starts_concat]
  show ((gichartinit (starts s cs) c).gicd (gicdItargetsr + 8)).getLsbD (8 + c') = true ↔ c' = c
  rw [h, ← one_shift_bit hc, BitVec.getLsbD_shiftLeft]
  simp only [show 8 + c' < 32 by omega, show ¬8 + c' < 8 by omega, decide_true, decide_false, Bool.not_false,
    Bool.true_and, Nat.add_sub_cancel_left]

theorem starts_targeted (s : State) {cs : List Nat} (hcs : ∀ c ∈ cs, c < 8) :
    (∀ c ∈ cs, ∀ spi ∈ [irqUart, irqMmio], Enabled (starts s cs).gicd (spi2id spi) ∧
      Targeted (starts s cs).gicd (spi2id spi) c) ↔ ∀ c ∈ cs, ∀ c' ∈ cs, c = c' := by
  constructor
  · intro h c hc c' hc'
    have hne : cs ≠ [] := ne_nil_of_mem hc
    obtain ⟨cs, last, rfl⟩ : ∃ cs' c, cs = cs' ++ [c] := ⟨_, _, (dropLast_append_getLast hne).symm⟩
    have hlast : ∀ x ∈ cs ++ [last], x = last := fun x hx =>
      (starts_uart s (hcs last (by simp)) (hcs x hx) cs).mp (h x hx irqUart (by simp)).2
    rw [hlast c hc, hlast c' hc']
  · intro h c hc spi hspi
    have hne : cs ≠ [] := ne_nil_of_mem hc
    obtain ⟨huart, hmmio⟩ := starts_enabled s hne
    rcases mem_cons.mp hspi with rfl | hspi
    · obtain ⟨cs, last, rfl⟩ : ∃ cs' c, cs = cs' ++ [c] := ⟨_, _, (dropLast_append_getLast hne).symm⟩
      exact ⟨huart, (starts_uart s (hcs last (by simp)) (hcs c hc) cs).mpr (h c hc last (by simp))⟩
    · rw [mem_singleton.mp hspi]
      exact ⟨hmmio, starts_mmio s (hcs c hc) cs hc⟩

/-- A call keeps to the bits of its interrupt exactly when the register after it is clear, which the wide store
clears; the enable bits are safe. The UART's interrupt is targeted at every CPU that ran `gichartinit` exactly when
only one did, because the timer's `cpuset` clears the targets of the UART. -/
theorem set_up_per_interrupt (d : Regs) (s : State) : (∀ id, id < 64 →
      (∀ isedge, Only (CfgBit id) d (cfgset id isedge d) ↔ d (gicdIcfgr + id / 16 + 1) = 0) ∧
      Only (EnbBit id) d (enbset id d) ∧
      ∀ c, c < 8 → (Only (CpuBit id) d (cpuset id (1#32 <<< c) d) ↔ d (gicdItargetsr + id / 4 + 1) = 0)) ∧
    ∀ cs : List Nat, (∀ c ∈ cs, c < 8) →
      ((∀ c ∈ cs, ∀ spi ∈ [irqUart, irqMmio], Enabled (starts s cs).gicd (spi2id spi) ∧
        Targeted (starts s cs).gicd (spi2id spi) c) ↔ ∀ c ∈ cs, ∀ c' ∈ cs, c = c') := by
  refine ⟨fun id hid => ⟨fun isedge => cfgset_only id isedge d, enbset_only (by omega) d, fun c hc => ?_⟩,
    fun cs hcs => starts_targeted s hcs⟩
  apply cpuset_only
  interval_cases c <;> decide

/-- The distributor after reset. -/
def reset : State := ⟨fun _ => 0, fun _ _ => 0⟩

/-- One CPU: its two interrupts are enabled and reach it. -/
theorem set_up_per_interrupt_one_cpu :
    (∀ c ∈ [0], ∀ spi ∈ [irqUart, irqMmio], Enabled (starts reset [0]).gicd (spi2id spi) ∧
      Targeted (starts reset [0]).gicd (spi2id spi) c) ∧
    Only (CfgBit 33) reset.gicd (cfgset 33 true reset.gicd) :=
  ⟨((set_up_per_interrupt reset.gicd reset).2 [0] (by decide)).mpr (by decide),
    (((set_up_per_interrupt reset.gicd reset).1 33 (by decide)).1 true).mpr rfl⟩

/-- Two CPUs: the second takes the interrupt of the UART away from the first, and the configuration of the
disk's interrupt is lost when the one of the UART is set. -/
theorem second_cpu_takes_uart : ¬Targeted (starts reset [0, 1]).gicd (spi2id irqUart) 0 ∧
    ¬Only (CfgBit (spi2id irqUart)) (starts reset [0]).gicd
      (cfgset (spi2id irqUart) false (starts reset [0]).gicd) := by
  constructor
  · show ¬bit (starts reset [0, 1]).gicd (gicdItargetsr + 8) 8 = true
    decide
  · intro h
    have hbit := h (gicdIcfgr + 3) 1 (by simp [CfgBit, gicdIcfgr, spi2id, irqUart])
    revert hbit
    decide

end Xv6Armv8.Gic
