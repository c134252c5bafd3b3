import Xv6Armv8.FsCalls

/-! The program that makes the disk image (`mkfs/mkfs.c`). It writes an empty image, then the root directory,
then the files one after the other, each by appending to it what `read` returns; blocks and inode numbers are
counted up and never checked. The image is a file of the host: writing behind its end makes it longer, and
reading there ends the program, as a failed assertion does. -/

namespace Xv6Armv8.Mkfs

open Fs Function

def ninodes : Nat := 200
def fssize : Nat := 2000
def nbitmap : Nat := fssize / (bsize * 8) + 1
def ninodeblocks : Nat := ninodes / ipb + 1
def nlog : Nat := logsize
def nmeta : Nat := 2 + nlog + ninodeblocks + nbitmap
def nblocks : Nat := fssize - nmeta

/-- The superblock. -/
def sb : Superblock := ⟨fssize, nblocks, ninodes, nlog, 2, 2 + nlog, 2 + nlog + ninodeblocks⟩

structure State where
  /-- The sectors of the image. -/
  sect : Nat → ByteStore
  /-- The number of sectors in the file. -/
  length : Nat
  freeinode : Nat
  freeblock : Nat

abbrev MkM := StateT State (Except String)

/-- The sector that an `lseek` to `sec * BSIZE` finds. -/
def sector (sec : Nat) : Nat := u32 (sec * bsize) / bsize

def wsect (sec : Nat) (buf : ByteStore) : MkM Unit :=
  modify fun s => { s with
    sect := update s.sect (sector sec) buf
    length := max s.length (sector sec + 1) }

def rsect (sec : Nat) : MkM ByteStore := do
  let s ← get
  if s.length ≤ sector sec then throw "read" else return s.sect (sector sec)

/-! ### The layout of structures -/

/-- The bytes of a `short`. -/
def short (x : Int) : Nat := (x % 2 ^ 16).toNat

/-- The words from `a` on. -/
def putWords (m : ByteStore) (a : Nat) (v : Nat → Nat) : Nat → ByteStore
  | 0 => m
  | n + 1 => (putWords m a v n).st (a + 4 * n) 4 (v n)

def sizeofDinode : Nat := 64

/-- A `struct dinode` written at `a`. -/
def putDinode (m : ByteStore) (a : Nat) (d : Dinode) : ByteStore :=
  putWords (((((m.st a 2 d.type).st (a + 2) 2 (short d.major)).st (a + 4) 2 (short d.minor)).st (a + 6) 2
    (short d.nlink)).st (a + 8) 4 d.size) (a + 12) d.addrs (ndirect + 1)

/-- The `struct dinode` at `a`. -/
def getDinode (m : ByteStore) (a : Nat) : Dinode where
  type := m.ld a 2
  major := toShort (m.ld (a + 2) 2)
  minor := toShort (m.ld (a + 4) 2)
  nlink := toShort (m.ld (a + 6) 2)
  size := m.ld (a + 8) 4
  addrs k := if k ≤ ndirect then m.ld (a + 12 + 4 * k) 4 else 0

def zeroes : ByteStore := fun _ => 0

def fsmagic : Nat := 0x10203040

/-- The block with the `struct superblock`. -/
def sbBlock : ByteStore :=
  putWords zeroes 0 (fun i => [fsmagic, sb.size, sb.nblocks, sb.ninodes, sb.nlog, sb.logstart, sb.inodestart,
    sb.bmapstart].getD i 0) 8

/-! ### Inodes and blocks -/

def rinode (inum : Nat) : MkM Dinode := do
  return getDinode (← rsect (sb.iblock inum)) (inum % ipb * sizeofDinode)

def winode (inum : Nat) (d : Dinode) : MkM Unit := do
  let buf ← rsect (sb.iblock inum)
  wsect (sb.iblock inum) (putDinode buf (inum % ipb * sizeofDinode) d)

def newInode (type : Nat) : Dinode := ⟨type, 0, 0, 1, 0, fun _ => 0⟩

def ialloc (type : Nat) : MkM Nat := do
  let inum := (← get).freeinode
  modify fun s => { s with freeinode := u32 (s.freeinode + 1) }
  winode inum (newInode type)
  return inum

/-- `freeblock++`. -/
def newBlock : MkM Nat := do
  let b := (← get).freeblock
  modify fun s => { s with freeblock := u32 (s.freeblock + 1) }
  return b

/-- The map with the bits below `used` set. -/
def bitmapBlock : Nat → ByteStore
  | 0 => zeroes
  | i + 1 => update (bitmapBlock i) (i / 8) (bitmapBlock i (i / 8) ||| UInt8.ofNat (2 ^ (i % 8)))

def balloc (used : Nat) : MkM Unit :=
  if used < bsize * 8 then wsect sb.bmapstart (bitmapBlock used) else throw "assert: used < BSIZE * 8"

/-- Entry `j` of the indirect block `ind`, with a new block where it has none. -/
def entryFor (ind j : Nat) : MkM Nat := do
  let indirect ← rsect ind
  if indirect.ld (4 * j) 4 = 0 then
    let b ← newBlock
    wsect ind (indirect.st (4 * j) 4 b)
    return b
  else return indirect.ld (4 * j) 4

/-- An entry of `addrs`, with a new block where it has none. -/
def addrFor (din : Dinode) (i : Nat) : MkM Dinode := do
  if din.addrs i = 0 then
    let b ← newBlock
    return { din with addrs := update din.addrs i b }
  else return din

/-- The block of the file that `iappend` writes to. -/
def blockFor (din : Dinode) (fbn : Nat) : MkM (Dinode × Nat) := do
  if fbn < ndirect then
    let din ← addrFor din fbn
    return (din, din.addrs fbn)
  else
    let din ← addrFor din ndirect
    let x ← entryFor (din.addrs ndirect) (fbn - ndirect)
    return (din, x)

/-- The loop of `iappend` over the bytes left, each turn of which appends some. -/
def iappendLoop : Nat → Dinode → Nat → List UInt8 → MkM (Dinode × Nat)
  | 0, din, off, _ => return (din, off)
  | turns + 1, din, off, p =>
    if p = [] then return (din, off)
    else
      let fbn := off / bsize
      if fbn < maxfile then do
        let (din, x) ← blockFor din fbn
        let n1 := min p.length ((fbn + 1) * bsize - off)
        let buf ← rsect x
        wsect x (buf.put (off - fbn * bsize) (p.take n1))
        iappendLoop turns din (off + n1) (p.drop n1)
      else throw "assert: fbn < MAXFILE"

def iappend (inum : Nat) (p : List UInt8) : MkM Unit := do
  let din ← rinode inum
  let (din, off) ← iappendLoop p.length din din.size p
  winode inum { din with size := off }

/-! ### main -/

/-- What a call of `read` returns before the end of the file. -/
structure Chunk where
  bytes : List UInt8
  pos : bytes ≠ []
  le : bytes.length ≤ bsize

/-- An argument: its name, and what `read` returns if it can be opened. -/
structure InFile where
  argv : List UInt8
  nonzero : ∀ b ∈ argv, b ≠ 0
  reads : Option (List Chunk)

/-- The contents of the file. -/
def InFile.content (f : InFile) : List UInt8 := ((f.reads.getD []).map (·.bytes)).flatten

/-- The name without `user/`. -/
def InFile.shortname (f : InFile) : List UInt8 :=
  if [117, 115, 101, 114, 47].isPrefixOf f.argv then f.argv.drop 5 else f.argv

/-- The name without a leading `_`. -/
def InFile.name (f : InFile) : Name := if f.shortname.head? = some 95 then f.shortname.drop 1 else f.shortname

def appendEntry (inum : Nat) (name : Name) : MkM Unit := iappend rootino (Dirent.toBytes ⟨inum, strncpy name⟩)

/-- One turn of the loop over the arguments. -/
def addFile (f : InFile) : MkM Unit :=
  if slash ∈ f.shortname then throw "assert: index(shortname, '/') == 0"
  else
    match f.reads with
    | none => throw "open"
    | some chunks => do
      let inum ← ialloc tFile
      appendEntry inum f.name
      chunks.forM fun c => iappend inum c.bytes

/-- The size of the root directory is rounded up to a block. -/
def fixRoot : MkM Unit := do
  let din ← rinode rootino
  winode rootino { din with size := (din.size / bsize + 1) * bsize }

def makeRoot : MkM Unit := do
  let root ← ialloc tDir
  if root ≠ rootino then throw "assert: rootino == ROOTINO"
  else
    appendEntry root dot
    appendEntry root dotdot

/-- The arguments of `main`; `argc` is an `int`. -/
structure Args where
  files : List InFile
  argc_lt : files.length + 2 < 2 ^ 31

def writeMeta : MkM Unit := do
  (List.range fssize).forM fun i => wsect i zeroes
  wsect 1 sbBlock

def main (args : Args) : MkM Unit := do
  writeMeta
  makeRoot
  args.files.forM addFile
  fixRoot
  balloc (← get).freeblock

/-- The image file is empty at first. -/
def start : State := ⟨fun _ => zeroes, 0, 1, nmeta⟩

/-! ### The image as the kernel reads it -/

/-- The inodes in the inode area. -/
def State.dinode (s : State) (i : Nat) : Dinode :=
  if i < ninodeblocks * ipb then getDinode (s.sect (sb.iblock i)) (i % ipb * sizeofDinode) else noDinode

def getSuperblock (m : ByteStore) : Superblock :=
  ⟨m.ld 4 4, m.ld 8 4, m.ld 12 4, m.ld 16 4, m.ld 20 4, m.ld 24 4, m.ld 28 4⟩

/-- Bit `b` of the free map. -/
def State.bit (s : State) (b : Nat) : Bool :=
  (s.sect (sb.bblock b) (b % bpb / 8)).toNat.testBit (b % bpb % 8)

def State.image (s : State) : Image := ⟨getSuperblock (s.sect 1), s.dinode, s.bit, s.sect⟩

end Xv6Armv8.Mkfs
