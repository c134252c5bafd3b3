import Xv6Armv8.LibRing
import Xv6Armv8.LibRun

/-! The input side of `kernel/console.c`, and the line editor it is meant to be. The interrupt handler puts one
character at a time into the ring `cons.buf`, and any number of processes read from it. One event is one call of
`consoleintr`, or one turn of the loop of `consoleread` by the process that has `cons.lock`. What is echoed is left
out. The reference keeps two lists, the bytes that may be read and the line that is being typed. -/

namespace Xv6Armv8.Console

open Function

abbrev Pid := Nat

def inputBufSize : Nat := 128

/-- The indices are of type `uint`. -/
def uintMod : Nat := 2 ^ 32

/-- `C('D')` and its like. -/
def ctrl (c : Char) : UInt8 := UInt8.ofNat (c.toNat - 64)

def newline : UInt8 := 10
def carriageReturn : UInt8 := 13
def delete : UInt8 := 127

/-- Where a process is in `consoleread`: `target` is the size it was called with, `n` what is left of it. -/
inductive Pc where
  | idle
  /-- In want of the lock. -/
  | enter (target n : Int)
  /-- With the lock, at the test of the loop. -/
  | loop (target n : Int)
  | asleep (target n : Int)
  | done (r : Int)
  deriving DecidableEq

structure State where
  buf : Nat → UInt8
  r : Nat
  w : Nat
  e : Nat
  lock : Option Pid
  pc : Pid → Pc
  killed : Pid → Bool
  /-- History: the bytes copied out, each with the process that got it. -/
  delivered : List (Pid × UInt8)

inductive Event where
  | consoleintr (c : UInt8)
  | consoleread (p : Pid) (n : Int)
  | acquire (p : Pid)
  | run (p : Pid)
  | kill (p : Pid)

/-- `x - 1` for an index. -/
def pred (x : Nat) : Nat := (x + uintMod - 1) % uintMod

/-- The loop of `^U`; there are at most `INPUT_BUF_SIZE` turns of it. -/
def killLine (s : State) : Nat → State
  | 0 => s
  | fuel + 1 =>
    if s.e ≠ s.w ∧ s.buf (pred s.e % inputBufSize) ≠ newline then killLine { s with e := pred s.e } fuel else s

def Pc.wake : Pc → Pc
  | .asleep target n => .enter target n
  | pc => pc

/-- The default case of `consoleintr`. -/
def store (s : State) (c : UInt8) : State :=
  let c := if c = carriageReturn then newline else c
  let s := { s with buf := update s.buf (s.e % inputBufSize) c, e := (s.e + 1) % uintMod }
  if c = newline ∨ c = ctrl 'D' ∨ (s.e + uintMod - s.r) % uintMod = inputBufSize then
    { s with w := s.e, pc := fun p => (s.pc p).wake }
  else s

def consoleintr (s : State) (c : UInt8) : State :=
  if c = ctrl 'P' then s
  else if c = ctrl 'U' then killLine s inputBufSize
  else if c = ctrl 'H' ∨ c = delete then if s.e ≠ s.w then { s with e := pred s.e } else s
  else if c ≠ 0 ∧ (s.e + uintMod - s.r) % uintMod < inputBufSize then store s c
  else s

def State.goto (s : State) (p : Pid) (pc : Pc) : State := { s with pc := update s.pc p pc }

/-- The process gives the lock back. -/
def State.release (s : State) (p : Pid) (pc : Pc) : State := { s.goto p pc with lock := none }

/-- A turn of the loop of `consoleread`. The destination is valid, so that the copy does not fail. -/
def turn (s : State) (p : Pid) (target n : Int) : State :=
  if n > 0 then
    if s.r = s.w then if s.killed p then s.release p (.done (-1)) else s.release p (.asleep target n)
    else
      let c := s.buf (s.r % inputBufSize)
      let s := { s with r := (s.r + 1) % uintMod }
      if c = ctrl 'D' then
        (if n < target then { s with r := pred s.r } else s).release p (.done (target - n))
      else
        let s := { s with delivered := s.delivered ++ [(p, c)] }
        if c = newline then s.release p (.done (target - (n - 1))) else s.goto p (.loop target (n - 1))
  else s.release p (.done (target - n))

def step (s : State) : Event → Option State
  | .consoleintr c => if s.lock = none then some (consoleintr s c) else none
  | .consoleread p n =>
    match s.pc p with
    | .idle | .done _ => some (s.goto p (.enter n n))
    | _ => none
  | .acquire p =>
    if s.lock = none then
      match s.pc p with
      | .enter target n => some { s.goto p (.loop target n) with lock := some p }
      | _ => none
    else none
  | .run p =>
    match s.pc p with
    | .loop target n => some (turn s p target n)
    | _ => none
  | .kill p =>
    some { s with killed := update s.killed p true, pc := update s.pc p (s.pc p).wake }

def init (buf : Nat → UInt8) : State where
  buf := buf
  r := 0
  w := 0
  e := 0
  lock := none
  pc := fun _ => .idle
  killed := fun _ => false
  delivered := []

/-! ### The reference -/

/-- The bytes that may be read, and the line that is being typed. -/
structure Editor where
  queue : List UInt8
  line : List UInt8

def Editor.commit (ed : Editor) : Editor := ⟨ed.queue ++ ed.line, []⟩

def Editor.append (ed : Editor) (c : UInt8) : Editor := ⟨ed.queue, ed.line ++ [c]⟩

def Editor.size (ed : Editor) : Nat := ed.queue.length + ed.line.length

/-- What a character that is typed does. -/
def Editor.type (ed : Editor) (c : UInt8) : Editor :=
  if c = ctrl 'P' then ed
  else if c = ctrl 'U' then ⟨ed.queue, []⟩
  else if c = ctrl 'H' ∨ c = delete then ⟨ed.queue, ed.line.dropLast⟩
  else if c ≠ 0 ∧ ed.size < inputBufSize then
    let c := if c = carriageReturn then newline else c
    let ed := ed.append c
    if c = newline ∨ c = ctrl 'D' ∨ ed.size = inputBufSize then ed.commit else ed
  else ed

/-- A reader of the reference: how many bytes it wants, how many it has, and what it returned. -/
inductive Reader where
  | none
  | wants (asked : Int) (got : Nat)
  | returned (r : Int)
  deriving DecidableEq

structure Reference where
  editor : Editor
  reader : Pid → Reader
  killed : Pid → Bool
  delivered : List (Pid × UInt8)

def Reference.setReader (a : Reference) (p : Pid) (r : Reader) : Reference :=
  { a with reader := update a.reader p r }

/-- A reader takes the next byte, if it wants one and there is one: it stops at `n` bytes, after a newline, and at
`^D`, which it takes away only if it has no byte yet. A killed reader does not wait. -/
def Reference.read (a : Reference) (p : Pid) (asked : Int) (got : Nat) : Reference :=
  if (got : Int) < asked then
    match a.editor.queue with
    | [] => if a.killed p then a.setReader p (.returned (-1)) else a
    | c :: q =>
      if c = ctrl 'D' then
        let a := if got = 0 then { a with editor := ⟨q, a.editor.line⟩ } else a
        a.setReader p (.returned got)
      else
        let a := { a with editor := ⟨q, a.editor.line⟩, delivered := a.delivered ++ [(p, c)] }
        if c = newline then a.setReader p (.returned (got + 1)) else a.setReader p (.wants asked (got + 1))
  else a.setReader p (.returned got)

/-- The reference follows the events; taking the lock means nothing to it. -/
def Reference.step (a : Reference) : Event → Reference
  | .consoleintr c => { a with editor := a.editor.type c }
  | .consoleread p n => a.setReader p (.wants n 0)
  | .acquire _ => a
  | .run p =>
    match a.reader p with
    | .wants asked got => a.read p asked got
    | _ => a
  | .kill p => { a with killed := update a.killed p true }

def Reference.init : Reference where
  editor := ⟨[], []⟩
  reader := fun _ => .none
  killed := fun _ => false
  delivered := []

end Xv6Armv8.Console
