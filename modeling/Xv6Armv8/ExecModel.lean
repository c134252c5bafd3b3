import Xv6Armv8.VmModel

/-! Building a program image (`exec.c`). A file is a store of bytes with a size, `readi` returns the
bytes it has, and the fields of the ELF headers are words at their offsets. `image` is `exec` from the
check of the header to the point where the new image is committed; each `goto bad` frees the new table
up to the size reached. The headers are data of the caller, so their 64-bit fields are added, rounded and
cut to 32 bits as the code does. -/

namespace Xv6Armv8.Exec

open Vm

def u32 (n : Nat) : Nat := n % 2 ^ 32

def maxFile : Nat := 12 + 1024 / 4
def bSize : Nat := 1024
def maxArg : Nat := 32

/-- The contents of an inode. -/
structure Content where
  bytes : ByteStore
  size : Nat
  size_le : size ≤ maxFile * bSize

/-- The bytes `readi` copies; the length is its result. -/
def Content.readi (c : Content) (off n : Nat) : List UInt8 :=
  if c.size < off ∨ u32 (off + n) < off then []
  else c.bytes.bytes off (if c.size < off + n then c.size - off else n)

/-! ### elf.h -/

def elfMagic : Nat := 0x464C457F
def elfProgLoad : Nat := 1
def sizeofElfhdr : Nat := 64
def sizeofProghdr : Nat := 56

def Content.magic (c : Content) : Nat := c.bytes.ld 0 4
def Content.entry (c : Content) : Nat := c.bytes.ld 24 8
def Content.phoff (c : Content) : Nat := c.bytes.ld 32 8
def Content.phnum (c : Content) : Nat := c.bytes.ld 56 2

structure Proghdr where
  type : Nat
  flags : Nat
  off : Nat
  vaddr : Nat
  filesz : Nat
  memsz : Nat

def Content.proghdr (c : Content) (off : Nat) : Proghdr where
  type := c.bytes.ld off 4
  flags := c.bytes.ld (off + 4) 4
  off := c.bytes.ld (off + 8) 8
  vaddr := c.bytes.ld (off + 16) 8
  filesz := c.bytes.ld (off + 32) 8
  memsz := c.bytes.ld (off + 40) 8

/-! ### Loading -/

def getflags (flags : Nat) : Nat :=
  if flags &&& 0x1 ≠ 0 ∧ flags &&& 0x2 ≠ 0 then user4kPageRw
  else if flags &&& 0x1 ≠ 0 then user4kPageRo
  else if flags &&& 0x2 ≠ 0 then user4kPageRwXn
  else user4kPageRoXn

def loadsegLoop (pde vaddr : Nat) (c : Content) (offset size : Nat) : Nat → Nat → VmM Int
  | 0, _ => throw "loadseg: bound"
  | k + 1, i =>
    if i < size then do
      let paddr ← walkaddr pde (u64 (vaddr + i))
      if paddr = 0 then throw "loadseg: address should exist"
      else
        let n := if size - i < pgSize then size - i else pgSize
        let bs := c.readi (u32 (offset + i)) n
        modify fun m => m.setPage paddr ((m.ram paddr).put 0 bs)
        if bs.length ≠ n then return -1
        else loadsegLoop pde vaddr c offset size k (u32 (i + pgSize))
    else return 0

/-- Every turn of the loop but the last reads a page of the file, so its size bounds their number. -/
def loadseg (pde vaddr : Nat) (c : Content) (offset size : Nat) : VmM Int :=
  loadsegLoop pde vaddr c offset size (c.size / pgSize + 2) 0

/-- The loop over the program headers from the file offset `off` on: the size reached, and whether
every header was loaded. -/
def loadHeaders (pde : Nat) (c : Content) : Nat → Nat → Nat → VmM (Nat × Bool)
  | 0, _, sz => return (sz, true)
  | n + 1, off, sz =>
    let ph := c.proghdr off
    if (c.readi off sizeofProghdr).length ≠ sizeofProghdr then return (sz, false)
    else if ph.type ≠ elfProgLoad then loadHeaders pde c n (u32 (off + sizeofProghdr)) sz
    else if ph.memsz < ph.filesz then return (sz, false)
    else if ph.vaddr % pgSize ≠ 0 then return (sz, false)
    else do
      let sz1 ← uvmalloc pde sz (u64 (ph.vaddr + ph.memsz)) (getflags ph.flags)
      if sz1 = 0 then return (sz, false)
      else if (← loadseg pde ph.vaddr c (u32 ph.off) (u32 ph.filesz)) < 0 then return (sz1, false)
      else loadHeaders pde c n (u32 (off + sizeofProghdr)) sz1

/-! ### The stack -/

/-- The addresses of the strings pushed so far are `ustack`. -/
def pushArgs (pde stackbase : Nat) : List (List UInt8) → Nat → List Nat → VmM (Option (Nat × List Nat))
  | [], sp, ustack => return some (sp, ustack)
  | s :: argv, sp, ustack =>
    if maxArg ≤ ustack.length then return none
    else
      let sp1 := u64 (sp + (2 ^ 64 - (s.length + 1)))
      let sp2 := sp1 - sp1 % 16
      if sp2 < stackbase then return none
      else do
        if (← copyout pde sp2 (s ++ [0])) < 0 then return none
        else pushArgs pde stackbase argv sp2 (ustack ++ [sp2])

def leBytes (v n : Nat) : List UInt8 := (List.range n).map fun i => UInt8.ofNat (v / 256 ^ i)

/-! ### exec -/

/-- A new address space, ready to be committed. -/
structure Image where
  pde : Nat
  size : Nat
  entry : Nat
  sp : Nat
  argc : Nat

def bad (pde sz : Nat) : VmM (Option Image) := do
  uvmfree pde sz
  return none

def image (c : Content) (argv : List (List UInt8)) : VmM (Option Image) :=
  if (c.readi 0 sizeofElfhdr).length ≠ sizeofElfhdr then return none
  else if c.magic ≠ elfMagic then return none
  else do
    match ← uvmcreate with
    | none => return none
    | some pde =>
      let (sz, ok) ← loadHeaders pde c c.phnum (u32 c.phoff) 0
      if ok = false then bad pde sz
      else
        let sz := pgRoundUp sz
        let sz1 ← uvmalloc pde sz (u64 (sz + 2 * pgSize)) user4kPageRwXn
        if sz1 = 0 then bad pde sz
        else
          uvmclear pde (sz1 - 2 * pgSize)
          match ← pushArgs pde (sz1 - pgSize) argv sz1 [] with
          | none => bad pde sz1
          | some (sp0, ustack) =>
            let sp1 := u64 (sp0 + (2 ^ 64 - (ustack.length + 1) * 8))
            let sp := sp1 - sp1 % 16
            if sp < sz1 - pgSize then bad pde sz1
            else if (← copyout pde sp ((ustack ++ [0]).flatMap (leBytes · 8))) < 0 then bad pde sz1
            else return some ⟨pde, sz1, c.entry, sp, ustack.length⟩

end Xv6Armv8.Exec
