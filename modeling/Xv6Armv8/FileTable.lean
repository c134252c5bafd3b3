import Mathlib.Logic.Function.Basic
import Mathlib.Tactic

/-! The table of open files (`file.c`) and the descriptor table of a process (`fdalloc`). Closing the
last reference of an entry clears it and hands the old entry back: what it refers to, a pipe or an inode,
is closed by the caller. -/

namespace Xv6Armv8.FileTable

open Function

def nofile : Nat := 16
def nfile : Nat := 100

inductive FdType
  | none | pipe | inode | device
  deriving DecidableEq

structure File where
  type : FdType
  ref : Nat
  readable : Bool
  writable : Bool
  /-- The page of the pipe. -/
  pipe : Nat
  /-- The slot of the inode in the inode table. -/
  ip : Nat
  off : Nat
  major : Int

abbrev Ftable := Nat → File

def filealloc (ft : Ftable) : Option (Nat × Ftable) :=
  ((List.range nfile).find? fun f => (ft f).ref = 0).map fun f =>
    (f, update ft f { ft f with ref := 1 })

def filedup (ft : Ftable) (f : Nat) : Except String Ftable :=
  if (ft f).ref < 1 then throw "filedup"
  else return update ft f { ft f with ref := (ft f).ref + 1 }

/-- The part of `fileclose` under the lock of the table: the entry to close, if the reference was the
last one. -/
def filedrop (ft : Ftable) (f : Nat) : Except String (Option File × Ftable) :=
  if (ft f).ref < 1 then throw "fileclose"
  else if 0 < (ft f).ref - 1 then return (none, update ft f { ft f with ref := (ft f).ref - 1 })
  else return (some (ft f), update ft f { ft f with ref := 0, type := .none })

abbrev Ofile := Nat → Option Nat

def fdalloc (ofile : Ofile) (f : Nat) : Option (Nat × Ofile) :=
  ((List.range nofile).find? fun fd => ofile fd = none).map fun fd =>
    (fd, update ofile fd (some f))

/-- The descriptor check of `argfd`. -/
def argfd (ofile : Ofile) (fd : Int) : Option (Nat × Nat) :=
  if fd < 0 ∨ (nofile : Int) ≤ fd then none else (ofile fd.toNat).map fun f => (fd.toNat, f)

end Xv6Armv8.FileTable
