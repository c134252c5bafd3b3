import Mathlib.Logic.Function.Basic
import Xv6Armv8.LibWords

/-! The code that saves and restores registers: the trap frames of `trapasm.S` and the contexts of `swtch.S`.
The instructions that they use run on a processor whose memory is addressed by 64-bit words that wrap around,
and the C structures are read from that memory at the offsets that the compiler gives their fields. -/

namespace Xv6Armv8.Trap

open WordMem

/-- The general registers are `x0` to `x30`. -/
instance generalRegs : NeZero 31 := ⟨by decide⟩

/-- A general register or the stack pointer. -/
inductive Reg
  | x (i : Fin 31)
  | sp
  deriving DecidableEq

inductive SysReg
  | spEl0 | elrEl1 | spsrEl1
  deriving DecidableEq

inductive Instr
  /-- `stp xa, xb, [base, #-imm]!` -/
  | stpPre (a b : Fin 31) (base : Reg) (imm : Nat)
  /-- `stp xa, xb, [base, #imm]` -/
  | stp (a b : Fin 31) (base : Reg) (imm : Nat)
  /-- `ldp xa, xb, [base], #imm` -/
  | ldpPost (a b : Fin 31) (base : Reg) (imm : Nat)
  /-- `ldp xa, xb, [base, #imm]` -/
  | ldp (a b : Fin 31) (base : Reg) (imm : Nat)
  /-- `ldr xa, [base], #imm` -/
  | ldrPost (a : Fin 31) (base : Reg) (imm : Nat)
  /-- `ldr xa, [base]` -/
  | ldr (a : Fin 31) (base : Reg)
  | add (d s : Reg) (imm : Nat)
  | sub (d s : Reg) (imm : Nat)
  | mov (d s : Reg)
  | mrs (a : Fin 31) (r : SysReg)
  | msr (r : SysReg) (a : Fin 31)
  | br (a : Fin 31)
  | eret

/-- The processor at EL1. `sp` is its stack pointer there. -/
structure Cpu where
  x : Fin 31 → Word64
  sp : Word64
  spEl0 : Word64
  elr : Word64
  spsr : Word64
  pc : Word64
  pstate : Word64
  mem : WordMem

namespace Cpu

def get (s : Cpu) : Reg → Word64
  | .x i => s.x i
  | .sp => s.sp

def set (s : Cpu) (r : Reg) (v : Word64) : Cpu :=
  match r with
  | .x i => { s with x := Function.update s.x i v }
  | .sp => { s with sp := v }

def getSys (s : Cpu) : SysReg → Word64
  | .spEl0 => s.spEl0
  | .elrEl1 => s.elr
  | .spsrEl1 => s.spsr

def setSys (s : Cpu) (r : SysReg) (v : Word64) : Cpu :=
  match r with
  | .spEl0 => { s with spEl0 := v }
  | .elrEl1 => { s with elr := v }
  | .spsrEl1 => { s with spsr := v }

/-- Two registers stored at `addr`. -/
def storePair (s : Cpu) (a b : Fin 31) (addr : Word64) : Cpu :=
  { s with mem := (s.mem.put addr (s.x a)).put (off addr 8) (s.x b) }

/-- Two registers loaded from `addr`. -/
def loadPair (s : Cpu) (a b : Fin 31) (addr : Word64) : Cpu :=
  { s with x := Function.update (Function.update s.x a (s.mem.word addr)) b (s.mem.word (off addr 8)) }

end Cpu

/-- One instruction. -/
def step (s : Cpu) : Instr → Cpu
  | .stpPre a b base imm =>
    let addr := s.get base - BitVec.ofNat 64 imm
    (s.storePair a b addr).set base addr
  | .stp a b base imm => s.storePair a b (off (s.get base) imm)
  | .ldpPost a b base imm => (s.loadPair a b (s.get base)).set base (off (s.get base) imm)
  | .ldp a b base imm => s.loadPair a b (off (s.get base) imm)
  | .ldrPost a base imm => (s.set (.x a) (s.mem.word (s.get base))).set base (off (s.get base) imm)
  | .ldr a base => s.set (.x a) (s.mem.word (s.get base))
  | .add d r imm => s.set d (off (s.get r) imm)
  | .sub d r imm => s.set d (s.get r - BitVec.ofNat 64 imm)
  | .mov d r => s.set d (s.get r)
  | .mrs a r => s.set (.x a) (s.getSys r)
  | .msr r a => s.setSys r (s.x a)
  | .br a => { s with pc := s.x a }
  | .eret => { s with pc := s.elr, pstate := s.spsr }

/-- A sequence that nothing interrupts. -/
def run (code : List Instr) (s : Cpu) : Cpu := code.foldl step s

/-! ### trapasm.S -/

def storeGeneral : List Instr :=
  [.sub .sp .sp 0x20, .stpPre 28 29 .sp 16, .stpPre 26 27 .sp 16, .stpPre 24 25 .sp 16, .stpPre 22 23 .sp 16,
    .stpPre 20 21 .sp 16,
    .stpPre 18 19 .sp 16,
    .stpPre 16 17 .sp 16,
    .stpPre 14 15 .sp 16,
    .stpPre 12 13 .sp 16,
    .stpPre 10 11 .sp 16,
    .stpPre 8 9 .sp 16,
    .stpPre 6 7 .sp 16,
    .stpPre 4 5 .sp 16,
    .stpPre 2 3 .sp 16,
    .stpPre 0 1 .sp 16]

/-- The rest of both macros: what stands in `x9` goes to the field `sp`. -/
def storeSpecial : List Instr :=
  [.mrs 10 .elrEl1, .mrs 11 .spsrEl1, .stp 30 9 .sp 0xf0, .stp 10 11 .sp 0x100]

def el0StoreTrapFrame : List Instr := storeGeneral ++ .mrs 9 .spEl0 :: storeSpecial

def el1StoreTrapFrame : List Instr := storeGeneral ++ .add (.x 9) .sp 0x110 :: storeSpecial

def loadGeneral : List Instr :=
  [.ldpPost 0 1 (.x 29) 16, .ldpPost 2 3 (.x 29) 16, .ldpPost 4 5 (.x 29) 16, .ldpPost 6 7 (.x 29) 16,
    .ldpPost 8 9 (.x 29) 16,
    .ldpPost 10 11 (.x 29) 16,
    .ldpPost 12 13 (.x 29) 16,
    .ldpPost 14 15 (.x 29) 16,
    .ldpPost 16 17 (.x 29) 16,
    .ldpPost 18 19 (.x 29) 16,
    .ldpPost 20 21 (.x 29) 16,
    .ldpPost 22 23 (.x 29) 16,
    .ldpPost 24 25 (.x 29) 16,
    .ldpPost 26 27 (.x 29) 16,
    .ldrPost 28 (.x 29) 8,
    .ldr 29 (.x 29),
    .eret]

def el0LoadTrapFrameAndRet : List Instr :=
  [.ldp 10 11 .sp 0x100, .ldp 30 9 .sp 0xf0, .msr .elrEl1 10, .msr .spsrEl1 11, .msr .spEl0 9,
    .mov (.x 29) .sp,
    .add .sp .sp 0x110] ++ loadGeneral

def el1LoadTrapFrameAndRet : List Instr :=
  [.ldp 10 11 .sp 0x100, .ldp 30 9 .sp 0xf0, .msr .elrEl1 10, .msr .spsrEl1 11, .mov (.x 29) .sp,
    .mov .sp (.x 9)] ++ loadGeneral

/-! ### swtch.S -/

/-- `swtch(old, new)`: the arguments are in `x0` and `x1`. -/
def swtch : List Instr :=
  [.add (.x 9) (.x 0) 0x80, .mov (.x 10) .sp, .stpPre 30 10 (.x 9) 16, .stpPre 28 29 (.x 9) 16,
    .stpPre 26 27 (.x 9) 16,
    .stpPre 24 25 (.x 9) 16,
    .stpPre 22 23 (.x 9) 16,
    .stpPre 20 21 (.x 9) 16,
    .stpPre 18 19 (.x 9) 16,
    .stpPre 16 17 (.x 9) 16,
    .mov (.x 9) (.x 1),
    .ldpPost 16 17 (.x 9) 16,
    .ldpPost 18 19 (.x 9) 16,
    .ldpPost 20 21 (.x 9) 16,
    .ldpPost 22 23 (.x 9) 16,
    .ldpPost 24 25 (.x 9) 16,
    .ldpPost 26 27 (.x 9) 16,
    .ldpPost 28 29 (.x 9) 16,
    .ldpPost 30 10 (.x 9) 16,
    .mov .sp (.x 10),
    .br 30]

/-! ### proc.h -/

/-- `struct trapframe`: the fields `x0` to `x30`, and the rest. -/
structure Trapframe where
  x : Fin 31 → Word64
  sp : Word64
  pc : Word64
  spsr : Word64

def sizeofTrapframe : Nat := 8 * 34

/-- The trap frame at `a`, as the C code reads it. -/
def readTrapframe (m : WordMem) (a : Word64) : Trapframe where
  x i := m.word (off a (8 * i))
  sp := m.word (off a (8 * 31))
  pc := m.word (off a (8 * 32))
  spsr := m.word (off a (8 * 33))

/-- `struct context`: the fields `x16` to `x29`, and the rest. -/
structure Context where
  x : Fin 14 → Word64
  lr : Word64
  sp : Word64

def sizeofContext : Nat := 8 * 16

/-- The context at `a`, as the C code reads it. -/
def readContext (m : WordMem) (a : Word64) : Context where
  x i := m.word (off a (8 * i))
  lr := m.word (off a (8 * 14))
  sp := m.word (off a (8 * 15))

end Xv6Armv8.Trap
