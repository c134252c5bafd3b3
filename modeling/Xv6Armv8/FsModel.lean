import Xv6Armv8.FileTable
import Xv6Armv8.LibBytes
import Xv6Armv8.LibSpec

/-! The file system (`fs.c`): the block allocator, inodes and their contents, directories and paths. The
calls run one after the other, so an operation is a program over the state that panics with a message or
returns; one that would wait for a lock or for the log is stopped with `asleep`, since nobody is left to wake
it. The disk is kept in its three areas (the on-disk inodes, the bits of the free map, the other blocks) as
the buffer cache shows it, and `log_write` records the block that the code hands to it. Pointers into the
inode table are indices. -/

namespace Xv6Armv8.Fs

open FileTable Function

/-! ### param.h, fs.h and stat.h -/

def bsize : Nat := 1024
def ndirect : Nat := 12
def nindirect : Nat := 256
def maxfile : Nat := ndirect + nindirect
def bpb : Nat := bsize * 8
def ipb : Nat := 16
def dirsiz : Nat := 14
def sizeofDirent : Nat := 16
def rootino : Nat := 1
def rootdev : Nat := 1
def ninode : Nat := 50
def ndev : Nat := 10
def maxopblocks : Nat := 10
def logsize : Nat := maxopblocks * 3
def maxPath : Nat := 128
def nproc : Nat := 64

def tDir : Nat := 1
def tFile : Nat := 2
def tDevice : Nat := 3

def u32 (n : Nat) : Nat := n % 2 ^ 32

/-- An `int` stored in a `short`. -/
def toShort (x : Int) : Int := (x + 2 ^ 15) % 2 ^ 16 - 2 ^ 15

structure Superblock where
  size : Nat
  nblocks : Nat
  ninodes : Nat
  nlog : Nat
  logstart : Nat
  inodestart : Nat
  bmapstart : Nat

/-- The fields that an inode has on the disk; `addrs` has `NDIRECT + 1` entries. -/
structure Dinode where
  type : Nat
  major : Int
  minor : Int
  nlink : Int
  size : Nat
  addrs : Nat → Nat

structure Inode where
  dev : Nat
  inum : Nat
  ref : Int
  /-- The sleep lock is held. -/
  locked : Bool
  valid : Bool
  d : Dinode

inductive ProcState
  | unused | running | zombie
  deriving DecidableEq

structure Proc where
  state : ProcState
  ofile : Ofile
  cwd : Option Nat

structure State where
  sb : Superblock
  dinode : Nat → Dinode
  bitmap : Nat → Bool
  data : Nat → ByteStore
  itable : Nat → Inode
  ftable : Ftable
  proc : Nat → Proc
  /-- `log.outstanding`. -/
  outstanding : Nat
  /-- `log.lh.block`. -/
  logged : List Nat

abbrev FsM := StateT State (Except String)

/-- What a process that goes to sleep ends with. -/
def asleep : String := "sleep"

def Superblock.iblock (sb : Superblock) (i : Nat) : Nat := i / ipb + sb.inodestart
def Superblock.bblock (sb : Superblock) (b : Nat) : Nat := b / bpb + sb.bmapstart

def State.inode (s : State) (k : Nat) (f : Inode → Inode) : State :=
  { s with itable := update s.itable k (f (s.itable k)) }

def setInode (k : Nat) (f : Inode → Inode) : FsM Unit := modify fun s => s.inode k f

/-- A change to the fields of an inode in memory that live on the disk. -/
def setFields (k : Nat) (f : Dinode → Dinode) : FsM Unit := setInode k fun ip => { ip with d := f ip.d }

/-! ### log.c -/

def logWrite (b : Nat) : FsM Unit := do
  let s ← get
  if logsize ≤ s.logged.length ∨ s.sb.nlog - 1 ≤ s.logged.length then throw "too big a transaction"
  else if s.outstanding < 1 then throw "log_write outside of trans"
  else set { s with logged := if b ∈ s.logged then s.logged else b :: s.logged }

def beginOp : FsM Unit := do
  let s ← get
  if logsize < s.logged.length + (s.outstanding + 1) * maxopblocks then throw asleep
  else set { s with outstanding := s.outstanding + 1 }

/-- The last operation commits the log. -/
def endOp : FsM Unit := do
  let s ← get
  if s.outstanding - 1 = 0 then set { s with outstanding := 0, logged := [] }
  else set { s with outstanding := s.outstanding - 1 }

/-! ### Blocks -/

def setBlock (b : Nat) (f : ByteStore → ByteStore) : FsM Unit :=
  modify fun s => { s with data := update s.data b (f (s.data b)) }

def setBit (b : Nat) (v : Bool) : FsM Unit :=
  modify fun s => { s with bitmap := update s.bitmap b v }

def bzero (b : Nat) : FsM Unit := do
  setBlock b fun m => m.fill 0 bsize 0
  logWrite b

/-- A zeroed block; 0 if there is none. -/
def balloc : FsM Nat := do
  let s ← get
  match (List.range s.sb.size).find? fun b => s.bitmap b = false with
  | none => return 0
  | some b =>
    setBit b true
    logWrite (s.sb.bblock b)
    bzero b
    return b

def bfree (b : Nat) : FsM Unit := do
  let s ← get
  if s.bitmap b = false then throw "freeing free block"
  else
    setBit b false
    logWrite (s.sb.bblock b)

/-! ### Inodes -/

def iget (dev inum : Nat) : FsM Nat := do
  let s ← get
  match (List.range ninode).find? fun k =>
      0 < (s.itable k).ref ∧ (s.itable k).dev = dev ∧ (s.itable k).inum = inum with
  | some k =>
    setInode k fun ip => { ip with ref := ip.ref + 1 }
    return k
  | none =>
    match (List.range ninode).find? fun k => (s.itable k).ref = 0 with
    | none => throw "iget: no inodes"
    | some k =>
      setInode k fun ip => { ip with dev := dev, inum := inum, ref := 1, valid := false }
      return k

def ialloc (dev type : Nat) : FsM (Option Nat) := do
  let s ← get
  match (List.range s.sb.ninodes).find? fun i => 1 ≤ i ∧ (s.dinode i).type = 0 with
  | none => return none
  | some i =>
    modify fun s => { s with dinode := update s.dinode i ⟨type, 0, 0, 0, 0, fun _ => 0⟩ }
    logWrite (s.sb.iblock i)
    some <$> iget dev i

def iupdate (k : Nat) : FsM Unit := do
  let s ← get
  let ip := s.itable k
  modify fun s => { s with dinode := update s.dinode ip.inum ip.d }
  logWrite (s.sb.iblock ip.inum)

def idup (k : Nat) : FsM Unit := setInode k fun ip => { ip with ref := ip.ref + 1 }

def acquiresleep (k : Nat) : FsM Unit := do
  if ((← get).itable k).locked then throw asleep
  else setInode k fun ip => { ip with locked := true }

def releasesleep (k : Nat) : FsM Unit := setInode k fun ip => { ip with locked := false }

/-- The part of `ilock` that reads the inode from the disk. -/
def loadInode (k : Nat) : FsM Unit := do
  let s ← get
  if (s.itable k).valid then pure ()
  else
    let d := s.dinode (s.itable k).inum
    setInode k fun ip => { ip with d := d, valid := true }
    if d.type = 0 then throw "ilock: no type" else pure ()

def ilock (k : Nat) : FsM Unit := do
  if ((← get).itable k).ref < 1 then throw "ilock"
  else
    acquiresleep k
    loadInode k

def iunlock (k : Nat) : FsM Unit := do
  let ip := (← get).itable k
  if ip.locked = false ∨ ip.ref < 1 then throw "iunlock" else releasesleep k

/-! ### Inode content -/

def setAddr (k i b : Nat) : FsM Unit := setFields k fun d => { d with addrs := update d.addrs i b }

/-- Entry `i` of `addrs`, with a new block where it has none. -/
def addrsEntry (k i : Nat) : FsM Nat := do
  let addr := ((← get).itable k).d.addrs i
  if addr = 0 then
    let b ← balloc
    if b = 0 then return 0
    else
      setAddr k i b
      return b
  else return addr

/-- Entry `j` of the indirect block `ind`, with a new block where it has none. -/
def indirectEntry (ind j : Nat) : FsM Nat := do
  let addr := ((← get).data ind).ld (4 * j) 4
  if addr = 0 then
    let b ← balloc
    if b = 0 then return 0
    else
      setBlock ind fun a => a.st (4 * j) 4 b
      logWrite ind
      return b
  else return addr

def bmap (k bn : Nat) : FsM Nat :=
  if bn < ndirect then addrsEntry k bn
  else if bn - ndirect < nindirect then do
    let ind ← addrsEntry k ndirect
    if ind = 0 then return 0 else indirectEntry ind (bn - ndirect)
  else throw "bmap: out of range"

/-- Frees the block of entry `i` of `addrs`. -/
def freeEntry (k i : Nat) : FsM Unit := do
  let addr := ((← get).itable k).d.addrs i
  if addr = 0 then pure ()
  else
    bfree addr
    setAddr k i 0

/-- Frees the blocks that the indirect block names, and then the block. -/
def freeIndirect (k : Nat) : FsM Unit := do
  let ind := ((← get).itable k).d.addrs ndirect
  if ind = 0 then pure ()
  else
    (List.range nindirect).forM fun j => do
      let addr := ((← get).data ind).ld (4 * j) 4
      if addr = 0 then pure () else bfree addr
    bfree ind
    setAddr k ndirect 0

def itrunc (k : Nat) : FsM Unit := do
  (List.range ndirect).forM fun i => freeEntry k i
  freeIndirect k
  setFields k fun d => { d with size := 0 }
  iupdate k

/-- The part of `iput` that frees an inode without links. -/
def freeInode (k : Nat) : FsM Unit := do
  acquiresleep k
  itrunc k
  setFields k fun d => { d with type := 0 }
  iupdate k
  setInode k fun ip => { ip with valid := false }
  releasesleep k

/-- What `iput` does before it drops the reference. -/
def putLast (k : Nat) : FsM Unit := do
  let ip := (← get).itable k
  if ip.ref = 1 ∧ ip.valid = true ∧ ip.d.nlink = 0 then freeInode k else pure ()

def iput (k : Nat) : FsM Unit := do
  putLast k
  setInode k fun ip => { ip with ref := ip.ref - 1 }

def iunlockput (k : Nat) : FsM Unit := do
  iunlock k
  iput k

/-- The loop of `readi`, with a bound on the number of turns: the value returned and the bytes stored. The
destination says which of its bytes can be written. -/
def readiLoop (k : Nat) (dst : Nat → Bool) (n : Nat) : Nat → Nat → Nat → FsM (Int × List UInt8)
  | 0, tot, _ => return (tot, [])
  | turns + 1, tot, off =>
    if tot < n then do
      let addr ← bmap k (off / bsize)
      if addr = 0 then return (tot, [])
      else
        let m := min (n - tot) (bsize - off % bsize)
        let bs := ((← get).data addr).bytes (off % bsize) m
        if (List.range m).all fun i => dst (tot + i) then
          let (r, rest) ← readiLoop k dst n turns (tot + m) (off + m)
          return (r, bs ++ rest)
        else return (-1, bs.take ((List.range m).takeWhile fun i => dst (tot + i)).length)
    else return (tot, [])

/-- Every turn copies a byte at least, so `n` turns are enough. -/
def readi (k : Nat) (dst : Nat → Bool) (off n : Nat) : FsM (Int × List UInt8) := do
  let size := ((← get).itable k).d.size
  if size < off ∨ u32 (off + n) < off then return (0, [])
  else
    let n := if size < off + n then size - off else n
    readiLoop k dst n n 0 off

/-- The bytes of the source from `tot` on, up to `m` of them, before one that cannot be read. -/
def srcBytes (src : Nat → Option UInt8) (tot m : Nat) : List UInt8 :=
  ((List.range m).map fun i => src (tot + i)).takeWhile (·.isSome) |>.map (·.getD 0)

/-- The loop of `writei`: how far it got, and the offset there. A chunk that fails midway has been copied in
part to the buffer. -/
def writeiLoop (k : Nat) (src : Nat → Option UInt8) (n : Nat) : Nat → Nat → Nat → FsM (Nat × Nat)
  | 0, tot, off => return (tot, off)
  | turns + 1, tot, off =>
    if tot < n then do
      let addr ← bmap k (off / bsize)
      if addr = 0 then return (tot, off)
      else
        let m := min (n - tot) (bsize - off % bsize)
        let bs := srcBytes src tot m
        setBlock addr fun a => a.put (off % bsize) bs
        if bs.length < m then return (tot, off)
        else
          logWrite addr
          writeiLoop k src n turns (tot + m) (off + m)
    else return (tot, off)

def writei (k : Nat) (src : Nat → Option UInt8) (off n : Nat) : FsM Int := do
  let size := ((← get).itable k).d.size
  if size < off ∨ u32 (off + n) < off then return -1
  else if maxfile * bsize < off + n then return -1
  else
    let (tot, off) ← writeiLoop k src n n 0 off
    setFields k fun d => { d with size := if d.size < off then off else d.size }
    iupdate k
    return tot

/-! ### Directories -/

abbrev Name := List UInt8

structure Dirent where
  inum : Nat
  name : List UInt8

def Dirent.ofBytes (bs : List UInt8) : Dirent :=
  ⟨(bs.getD 0 0).toNat + 256 * (bs.getD 1 0).toNat, bs.drop 2⟩

def Dirent.toBytes (de : Dirent) : List UInt8 := UInt8.ofNat de.inum :: UInt8.ofNat (de.inum / 256) :: de.name

/-- The C string in a field of `DIRSIZ` bytes. -/
def cstr (bs : List UInt8) : Name := (bs.take dirsiz).takeWhile (· ≠ 0)

/-- `namecmp(s, t) == 0`. -/
def namecmp (s t : List UInt8) : Prop := cstr s = cstr t

instance (s t : List UInt8) : Decidable (namecmp s t) := inferInstanceAs (Decidable (_ = _))

/-- `strncpy(de.name, name, DIRSIZ)`. -/
def strncpy (name : Name) : List UInt8 := cstr name ++ List.replicate (dirsiz - (cstr name).length) 0

/-- The entry at an offset of the directory; the caller says how it panics. -/
def readDirent (k off : Nat) (msg : String) : FsM Dirent := do
  let (r, bs) ← readi k (fun _ => true) off sizeofDirent
  if r = sizeofDirent then return Dirent.ofBytes bs else throw msg

/-- The number of entries that the loops over a directory look at. -/
def direntCount (size : Nat) : Nat := (size + sizeofDirent - 1) / sizeofDirent

/-- The loop of `dirlookup` over the entries left: the inode and the offset of its entry. -/
def dirlookupLoop (dp : Nat) (name : Name) : Nat → Nat → FsM (Option (Nat × Nat))
  | 0, _ => return none
  | n + 1, off => do
    let de ← readDirent dp off "dirlookup read"
    if de.inum ≠ 0 ∧ namecmp name de.name then
      let ip ← iget ((← get).itable dp).dev de.inum
      return some (ip, off)
    else dirlookupLoop dp name n (off + sizeofDirent)

def dirlookup (dp : Nat) (name : Name) : FsM (Option (Nat × Nat)) := do
  let d := ((← get).itable dp).d
  if d.type ≠ tDir then throw "dirlookup not DIR" else dirlookupLoop dp name (direntCount d.size) 0

/-- The loop of `dirlink` that looks for an entry to use. -/
def freeDirent (dp : Nat) : Nat → Nat → FsM Nat
  | 0, off => return off
  | n + 1, off => do
    let de ← readDirent dp off "dirlink read"
    if de.inum = 0 then return off else freeDirent dp n (off + sizeofDirent)

/-- `writei` of an entry, from kernel memory. -/
def writeDirent (dp off : Nat) (de : Dirent) : FsM Int := writei dp (fun i => de.toBytes[i]?) off sizeofDirent

def dirlink (dp : Nat) (name : Name) (inum : Nat) : FsM Int := do
  match ← dirlookup dp name with
  | some (ip, _) =>
    iput ip
    return -1
  | none =>
    let off ← freeDirent dp (direntCount ((← get).itable dp).d.size) 0
    if (← writeDirent dp off ⟨inum, strncpy name⟩) ≠ sizeofDirent then return -1 else return 0

/-! ### Paths -/

def slash : UInt8 := 47

/-- A string that `argstr` has fetched. -/
structure Path where
  bytes : List UInt8
  nonzero : ∀ b ∈ bytes, b ≠ 0
  len : bytes.length < maxPath

/-- The next element, cut to `DIRSIZ` bytes, and what follows it. -/
def skipelem (path : List UInt8) : Option (Name × List UInt8) :=
  let s := path.dropWhile (· = slash)
  if s = [] then none
  else some ((s.takeWhile (· ≠ slash)).take dirsiz, (s.dropWhile (· ≠ slash)).dropWhile (· = slash))

/-- The loop of `namex` from the inode `ip` on; every turn takes an element from the path. -/
def namexLoop (parent : Bool) : Nat → Nat → Name → List UInt8 → FsM (Option (Nat × Name))
  | 0, _, _, _ => throw "namex: bound"
  | turns + 1, ip, name, path =>
    match skipelem path with
    | none =>
      if parent then do
        iput ip
        return none
      else return some (ip, name)
    | some (name, rest) => do
      ilock ip
      if ((← get).itable ip).d.type ≠ tDir then
        iunlockput ip
        return none
      else if parent = true ∧ rest = [] then
        iunlock ip
        return some (ip, name)
      else
        match ← dirlookup ip name with
        | none =>
          iunlockput ip
          return none
        | some (next, _) =>
          iunlockput ip
          namexLoop parent turns next name rest

/-- The current directory; a process that makes calls has one. -/
def cwd (p : Nat) : FsM Nat := do
  match ((← get).proc p).cwd with
  | none => throw "null pointer"
  | some k => return k

def namexStart (p : Nat) (path : List UInt8) : FsM Nat :=
  if path.head? = some slash then iget rootdev rootino
  else do
    let k ← cwd p
    idup k
    return k

/-- `namex` for the process `p`: the inode, and the last element of the path. -/
def namex (p : Nat) (path : List UInt8) (parent : Bool) : FsM (Option (Nat × Name)) := do
  let ip ← namexStart p path
  namexLoop parent (path.length + 1) ip [] path

def namei (p : Nat) (path : List UInt8) : FsM (Option Nat) := do
  return (← namex p path false).map Prod.fst

def nameiparent (p : Nat) (path : List UInt8) : FsM (Option (Nat × Name)) := namex p path true

end Xv6Armv8.Fs
