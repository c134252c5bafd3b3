import Xv6Armv8.FsModel
import Xv6Armv8.LibRun

/-! The system calls on files (`file.c`, `sysfile.c`, and what `fork`, `exec` and `exit` do with files) and
their runs. A call comes with what the rest of the kernel decides: the strings and buffers that the user
memory holds, whether memory runs out, and what a pipe or a device transfers. -/

namespace Xv6Armv8.Fs

open FileTable Function

def oWronly : Nat := 0x001
def oRdwr : Nat := 0x002
def oCreate : Nat := 0x200
def oTrunc : Nat := 0x400

/-! ### file.c -/

def allocFile : FsM (Option Nat) := do
  match filealloc (← get).ftable with
  | none => return none
  | some (f, ft) =>
    modify fun s => { s with ftable := ft }
    return some f

def dupFile (f : Nat) : FsM Unit := do
  match filedup (← get).ftable f with
  | .error e => throw e
  | .ok ft => modify fun s => { s with ftable := ft }

def setFile (f : Nat) (g : File → File) : FsM Unit :=
  modify fun s => { s with ftable := update s.ftable f (g (s.ftable f)) }

/-- `iput` in an operation of its own. -/
def putOp (k : Nat) : FsM Unit := do
  beginOp
  iput k
  endOp

/-- Closing a pipe does nothing to the file system. -/
def closeLast (ff : File) : FsM Unit :=
  if ff.type = .inode ∨ ff.type = .device then putOp ff.ip else pure ()

def fileclose (f : Nat) : FsM Unit := do
  match filedrop (← get).ftable f with
  | .error e => throw e
  | .ok (last, ft) =>
    modify fun s => { s with ftable := ft }
    match last with
    | some ff => closeLast ff
    | none => pure ()

/-- The value of `filestat`; `stored` says whether the user memory could take the result. -/
def filestat (f : Nat) (stored : Bool) : FsM Int := do
  let ff := (← get).ftable f
  if ff.type = .inode ∨ ff.type = .device then
    ilock ff.ip
    iunlock ff.ip
    return if stored then 0 else -1
  else return -1

/-- The value of `fileread` and the bytes stored; `other` is what a pipe or a device returns. -/
def fileread (f : Nat) (dst : Nat → Bool) (n : Int) (other : Int) : FsM (Int × List UInt8) := do
  let ff := (← get).ftable f
  if ff.readable = false then return (-1, [])
  else
    match ff.type with
    | .pipe => return (other, [])
    | .device => return (other, [])
    | .inode =>
      ilock ff.ip
      let (r, bs) ← readi ff.ip dst ff.off (n % 2 ^ 32).toNat
      setFile f fun ff => { ff with off := if 0 < r then ff.off + r.toNat else ff.off }
      iunlock ff.ip
      return (r, bs)
    | .none => throw "fileread"

/-- The most that `filewrite` writes in one operation. -/
def maxWrite : Nat := (maxopblocks - 1 - 1 - 2) / 2 * bsize

/-- One turn of the loop of `filewrite`. -/
def writeChunk (f ip : Nat) (src : Nat → Option UInt8) (n : Nat) : FsM Int := do
  beginOp
  ilock ip
  let r ← writei ip src ((← get).ftable f).off n
  setFile f fun ff => { ff with off := if 0 < r then ff.off + r.toNat else ff.off }
  iunlock ip
  endOp
  return r

/-- The loop of `filewrite` after `i` bytes of `n`; every turn but the last writes a byte at least. -/
def filewriteLoop (f ip : Nat) (src : Nat → Option UInt8) (n : Nat) : Nat → Nat → FsM Nat
  | 0, i => return i
  | turns + 1, i =>
    if i < n then do
      let n1 := min (n - i) maxWrite
      let r ← writeChunk f ip (fun j => src (i + j)) n1
      if r ≠ n1 then return i else filewriteLoop f ip src n turns (i + n1)
    else return i

def filewrite (f : Nat) (src : Nat → Option UInt8) (n : Int) (other : Int) : FsM Int := do
  let ff := (← get).ftable f
  if ff.writable = false then return -1
  else
    match ff.type with
    | .pipe => return other
    | .device => return other
    | .inode =>
      let i ← filewriteLoop f ff.ip src n.toNat n.toNat 0
      return if (i : Int) = n then n else -1
    | .none => throw "filewrite"

/-! ### sysfile.c -/

def setProc (p : Nat) (g : Proc → Proc) : FsM Unit :=
  modify fun s => { s with proc := update s.proc p (g (s.proc p)) }

def setOfile (p : Nat) (ofile : Ofile) : FsM Unit := setProc p fun q => { q with ofile := ofile }

def dot : Name := [46]
def dotdot : Name := [46, 46]

/-- The entries `.` and `..` of a new directory. -/
def linkDots (dp ip : Nat) : FsM Int := do
  let s ← get
  if (← dirlink ip dot (s.itable ip).inum) < 0 then return -1 else dirlink ip dotdot (s.itable dp).inum

/-- The entries that `create` makes for a new inode. -/
def linkNew (dp ip : Nat) (name : Name) (type : Nat) : FsM Int := do
  let s ← get
  if type = tDir then
    if (← linkDots dp ip) < 0 then return -1 else dirlink dp name (s.itable ip).inum
  else dirlink dp name (s.itable ip).inum

/-- The link of `..` to the parent. -/
def linkParent (dp type : Nat) : FsM Unit :=
  if type = tDir then do
    setFields dp fun d => { d with nlink := toShort (d.nlink + 1) }
    iupdate dp
  else pure ()

/-- `create` where the name is new. -/
def createNew (dp : Nat) (name : Name) (type : Nat) (major minor : Int) : FsM (Option Nat) := do
  match ← ialloc ((← get).itable dp).dev type with
  | none =>
    iunlockput dp
    return none
  | some ip =>
    ilock ip
    setFields ip fun d => { d with major := toShort major, minor := toShort minor, nlink := 1 }
    iupdate ip
    if (← linkNew dp ip name type) < 0 then
      setFields ip fun d => { d with nlink := 0 }
      iupdate ip
      iunlockput ip
      iunlockput dp
      return none
    else
      linkParent dp type
      iunlockput dp
      return some ip

/-- `create` where the name is there already. -/
def createOld (dp ip : Nat) (type : Nat) : FsM (Option Nat) := do
  iunlockput dp
  ilock ip
  let t := ((← get).itable ip).d.type
  if type = tFile ∧ (t = tFile ∨ t = tDevice) then return some ip
  else
    iunlockput ip
    return none

/-- The inode is returned locked. -/
def create (p : Nat) (path : Path) (type : Nat) (major minor : Int) : FsM (Option Nat) := do
  match ← nameiparent p path.bytes with
  | none => return none
  | some (dp, name) =>
    ilock dp
    match ← dirlookup dp name with
    | some (ip, _) => createOld dp ip type
    | none => createNew dp name type major minor

/-- The inode that `sys_open` opens, locked. -/
def openInode (p : Nat) (path : Path) (omode : Nat) : FsM (Option Nat) :=
  if omode &&& oCreate ≠ 0 then create p path tFile 0 0
  else do
    match ← namei p path.bytes with
    | none => return none
    | some ip =>
      ilock ip
      if ((← get).itable ip).d.type = tDir ∧ omode ≠ 0 then
        iunlockput ip
        return none
      else return some ip

/-- The end of an operation that has failed with `ip` locked. -/
def bail (ip : Nat) : FsM Int := do
  iunlockput ip
  endOp
  return -1

/-- The fields of the file that `sys_open` fills in. -/
def openedFile (d : Dinode) (ip omode : Nat) (f : File) : File :=
  { f with
    type := if d.type = tDevice then .device else .inode
    major := if d.type = tDevice then d.major else f.major
    off := if d.type = tDevice then f.off else 0
    ip := ip
    readable := decide (omode &&& oWronly = 0)
    writable := decide (omode &&& oWronly ≠ 0 ∨ omode &&& oRdwr ≠ 0) }

/-- `O_TRUNC`. -/
def truncOpened (ip omode : Nat) : FsM Unit := do
  if omode &&& oTrunc ≠ 0 ∧ ((← get).itable ip).d.type = tFile then itrunc ip else pure ()

/-- `sys_open` once it has the inode. -/
def openFile (p ip omode : Nat) : FsM Int := do
  match ← allocFile with
  | none => bail ip
  | some f =>
    match fdalloc ((← get).proc p).ofile f with
    | none =>
      fileclose f
      bail ip
    | some (fd, ofile) =>
      setOfile p ofile
      let d := ((← get).itable ip).d
      setFile f (openedFile d ip omode)
      truncOpened ip omode
      iunlock ip
      endOp
      return fd

def sysOpen (p : Nat) (path : Option Path) (omode : Nat) : FsM Int := do
  match path with
  | none => return -1
  | some path =>
    beginOp
    match ← openInode p path omode with
    | none =>
      endOp
      return -1
    | some ip =>
      let d := ((← get).itable ip).d
      if d.type = tDevice ∧ (d.major < 0 ∨ (ndev : Int) ≤ d.major) then bail ip
      else openFile p ip omode

/-- `sys_mkdir` and `sys_mknod`. -/
def makeNode (p : Nat) (path : Option Path) (type : Nat) (major minor : Int) : FsM Int := do
  beginOp
  match path with
  | none =>
    endOp
    return -1
  | some path =>
    match ← create p path type major minor with
    | none =>
      endOp
      return -1
    | some ip =>
      iunlockput ip
      endOp
      return 0

def sysMkdir (p : Nat) (path : Option Path) : FsM Int := makeNode p path tDir 0 0

def sysMknod (p : Nat) (path : Option Path) (major minor : Int) : FsM Int :=
  makeNode p path tDevice major minor

def sysDup (p : Nat) (fd : Int) : FsM Int := do
  match argfd ((← get).proc p).ofile fd with
  | none => return -1
  | some (_, f) =>
    match fdalloc ((← get).proc p).ofile f with
    | none => return -1
    | some (n, ofile) =>
      setOfile p ofile
      dupFile f
      return n

/-- `sys_chdir` once it has the inode. -/
def changeDir (p ip : Nat) : FsM Int := do
  ilock ip
  if ((← get).itable ip).d.type ≠ tDir then bail ip
  else
    iunlock ip
    iput (← cwd p)
    endOp
    setProc p fun q => { q with cwd := some ip }
    return 0

def sysChdir (p : Nat) (path : Option Path) : FsM Int := do
  beginOp
  match path with
  | none =>
    endOp
    return -1
  | some path =>
    match ← namei p path.bytes with
    | none =>
      endOp
      return -1
    | some ip => changeDir p ip

def sysClose (p : Nat) (fd : Int) : FsM Int := do
  match argfd ((← get).proc p).ofile fd with
  | none => return -1
  | some (n, f) =>
    setProc p fun q => { q with ofile := update q.ofile n none }
    fileclose f
    return 0

def sysFstat (p : Nat) (fd : Int) (stored : Bool) : FsM Int := do
  match argfd ((← get).proc p).ofile fd with
  | none => return -1
  | some (_, f) => filestat f stored

def sysRead (p : Nat) (fd : Int) (dst : Nat → Bool) (n other : Int) : FsM Int := do
  match argfd ((← get).proc p).ofile fd with
  | none => return -1
  | some (_, f) => return (← fileread f dst n other).1

def sysWrite (p : Nat) (fd : Int) (src : Nat → Option UInt8) (n other : Int) : FsM Int := do
  match argfd ((← get).proc p).ofile fd with
  | none => return -1
  | some (_, f) => filewrite f src n other

/-- The loop of `isdirempty` over the entries left. -/
def isdiremptyLoop (dp : Nat) : Nat → Nat → FsM Bool
  | 0, _ => return true
  | n + 1, off => do
    let de ← readDirent dp off "isdirempty: readi"
    if de.inum ≠ 0 then return false else isdiremptyLoop dp n (off + sizeofDirent)

def isdirempty (dp : Nat) : FsM Bool := do
  isdiremptyLoop dp (direntCount ((← get).itable dp).d.size - 2) (2 * sizeofDirent)

/-- Whether the inode is a directory that has names. -/
def isFullDir (ip : Nat) : FsM Bool := do
  if ((← get).itable ip).d.type = tDir then return !(← isdirempty ip) else return false

/-- The link of `..` that goes with a directory. -/
def unlinkParent (dp type : Nat) : FsM Unit :=
  if type = tDir then do
    setFields dp fun d => { d with nlink := toShort (d.nlink - 1) }
    iupdate dp
  else pure ()

/-- `sys_unlink` once it has the entry at `off` of `dp`, both locked. -/
def removeEntry (dp ip off : Nat) : FsM Int := do
  if (← writeDirent dp off ⟨0, List.replicate dirsiz 0⟩) ≠ sizeofDirent then throw "unlink: writei"
  else
    unlinkParent dp ((← get).itable ip).d.type
    iunlockput dp
    setFields ip fun d => { d with nlink := toShort (d.nlink - 1) }
    iupdate ip
    iunlockput ip
    endOp
    return 0

/-- `sys_unlink` once it has the inode of the entry. -/
def unlinkFound (dp ip off : Nat) : FsM Int := do
  ilock ip
  if ((← get).itable ip).d.nlink < 1 then throw "unlink: nlink < 1"
  else if ← isFullDir ip then
    iunlockput ip
    bail dp
  else removeEntry dp ip off

def sysUnlink (p : Nat) (path : Option Path) : FsM Int := do
  match path with
  | none => return -1
  | some path =>
    beginOp
    match ← nameiparent p path.bytes with
    | none =>
      endOp
      return -1
    | some (dp, name) =>
      ilock dp
      if namecmp name dot ∨ namecmp name dotdot then bail dp
      else
        match ← dirlookup dp name with
        | none => bail dp
        | some (ip, off) => unlinkFound dp ip off

/-- The label `bad` of `sys_link`. -/
def unlinkOld (ip : Nat) : FsM Int := do
  ilock ip
  setFields ip fun d => { d with nlink := toShort (d.nlink - 1) }
  iupdate ip
  bail ip

/-- `sys_link` in the directory `dp`. -/
def linkIn (dp ip : Nat) (name : Name) : FsM Int := do
  ilock dp
  let s ← get
  if (s.itable dp).dev ≠ (s.itable ip).dev then
    iunlockput dp
    unlinkOld ip
  else if (← dirlink dp name (s.itable ip).inum) < 0 then
    iunlockput dp
    unlinkOld ip
  else
    iunlockput dp
    iput ip
    endOp
    return 0

/-- `sys_link` once it has the inode. -/
def linkInode (p ip : Nat) (new : Path) : FsM Int := do
  ilock ip
  if ((← get).itable ip).d.type = tDir then bail ip
  else
    setFields ip fun d => { d with nlink := toShort (d.nlink + 1) }
    iupdate ip
    iunlock ip
    match ← nameiparent p new.bytes with
    | none => unlinkOld ip
    | some (dp, name) => linkIn dp ip name

def sysLink (p : Nat) (old new : Option Path) : FsM Int := do
  match old, new with
  | some old, some new =>
    beginOp
    match ← namei p old.bytes with
    | none =>
      endOp
      return -1
    | some ip => linkInode p ip new
  | _, _ => return -1

/-- The two ends of a pipe; `mem` says whether there is a page for it. -/
def pipealloc (mem : Bool) : FsM (Option (Nat × Nat)) := do
  match ← allocFile with
  | none => return none
  | some f0 =>
    match ← allocFile with
    | none =>
      fileclose f0
      return none
    | some f1 =>
      if mem then
        setFile f0 fun f => { f with type := .pipe, readable := true, writable := false }
        setFile f1 fun f => { f with type := .pipe, readable := false, writable := true }
        return some (f0, f1)
      else
        fileclose f0
        fileclose f1
        return none

def closeBoth (rf wf : Nat) : FsM Int := do
  fileclose rf
  fileclose wf
  return -1

/-- `stored` says whether the user memory could take the two descriptors. -/
def sysPipe (p : Nat) (mem stored : Bool) : FsM Int := do
  match ← pipealloc mem with
  | none => return -1
  | some (rf, wf) =>
    let ofile := ((← get).proc p).ofile
    match fdalloc ofile rf with
    | none => closeBoth rf wf
    | some (fd0, ofile₁) =>
      match fdalloc ofile₁ wf with
      | none => closeBoth rf wf
      | some (fd1, ofile₂) =>
        if stored then
          setOfile p ofile₂
          return 0
        else
          setOfile p (update (update ofile₂ fd0 none) fd1 none)
          closeBoth rf wf

/-! ### Processes -/

/-- The loop of `fork` over the descriptors. -/
def dupFiles (np : Nat) (ofile : Ofile) : FsM Unit :=
  (List.range nofile).forM fun fd =>
    match ofile fd with
    | none => pure ()
    | some f => do
      dupFile f
      setProc np fun q => { q with ofile := update q.ofile fd (some f) }

/-- `fork`; `mem` says whether there is memory for the child. -/
def fork (p : Nat) (mem : Bool) : FsM Int := do
  let s ← get
  match (List.range nproc).find? fun i => (s.proc i).state = .unused with
  | none => return -1
  | some np =>
    if mem = false then return -1
    else
      dupFiles np (s.proc p).ofile
      let k ← cwd p
      idup k
      setProc np fun q => { q with cwd := some k, state := .running }
      return np

/-- What `exec` does with the file: it reads any parts of it, as the headers say. -/
def exec (p : Nat) (path : Option Path) (parts : List (Nat × Nat)) : FsM Int := do
  match path with
  | none => return -1
  | some path =>
    beginOp
    match ← namei p path.bytes with
    | none =>
      endOp
      return -1
    | some ip =>
      ilock ip
      parts.forM fun part => do
        let _ ← readi ip (fun _ => true) (u32 part.1) (u32 part.2)
      iunlockput ip
      endOp
      return 0

/-- The loop of `exit` over the descriptors. -/
def closeFiles (p : Nat) : FsM Unit :=
  (List.range nofile).forM fun fd => do
    match ((← get).proc p).ofile fd with
    | none => pure ()
    | some f => do
      fileclose f
      setProc p fun q => { q with ofile := update q.ofile fd none }

def initproc : Nat := 0

def exit (p : Nat) : FsM Int := do
  if p = initproc then throw "init exiting"
  else
    closeFiles p
    putOp (← cwd p)
    setProc p fun q => { q with cwd := none, state := .zombie }
    return 0

/-- `wait` frees the slot of a child that has exited. -/
def wait (child : Nat) : FsM Int := do
  if ((← get).proc child).state = .zombie then
    setProc child fun q => { q with state := .unused }
    return child
  else return -1

inductive Call
  | open (path : Option Path) (omode : Nat)
  | read (fd : Int) (dst : Nat → Bool) (n other : Int)
  | write (fd : Int) (src : Nat → Option UInt8) (n other : Int)
  | mkdir (path : Option Path)
  | mknod (path : Option Path) (major minor : Int)
  | link (old new : Option Path)
  | unlink (path : Option Path)
  | chdir (path : Option Path)
  | close (fd : Int)
  | dup (fd : Int)
  | fstat (fd : Int) (stored : Bool)
  | pipe (mem stored : Bool)
  | fork (mem : Bool)
  | exec (path : Option Path) (parts : List (Nat × Nat))
  | exit
  | wait (child : Nat)

def syscall (p : Nat) : Call → FsM Int
  | .open path omode => sysOpen p path (u32 omode)
  | .read fd dst n other => sysRead p fd dst n other
  | .write fd src n other => sysWrite p fd src n other
  | .mkdir path => sysMkdir p path
  | .mknod path major minor => sysMknod p path major minor
  | .link old new => sysLink p old new
  | .unlink path => sysUnlink p path
  | .chdir path => sysChdir p path
  | .close fd => sysClose p fd
  | .dup fd => sysDup p fd
  | .fstat fd stored => sysFstat p fd stored
  | .pipe mem stored => sysPipe p mem stored
  | .fork mem => fork p mem
  | .exec path parts => exec p path parts
  | .exit => exit p
  | .wait child => wait child

/-! ### Runs -/

/-- What is on the disk. -/
structure Image where
  sb : Superblock
  dinode : Nat → Dinode
  bitmap : Nat → Bool
  data : Nat → ByteStore

def noDinode : Dinode := ⟨0, 0, 0, 0, 0, fun _ => 0⟩
def noInode : Inode := ⟨0, 0, 0, false, false, noDinode⟩
def noFile : File := ⟨.none, 0, false, false, 0, 0, 0, 0⟩
def noProc : Proc := ⟨.unused, fun _ => none, none⟩

/-- The state after `userinit`: the first process has the root as its directory, not yet read. -/
def boot (img : Image) : State where
  sb := img.sb
  dinode := img.dinode
  bitmap := img.bitmap
  data := img.data
  itable := update (fun _ => noInode) 0 { noInode with dev := rootdev, inum := rootino, ref := 1 }
  ftable := fun _ => noFile
  proc := update (fun _ => noProc) initproc ⟨.running, fun _ => none, some 0⟩
  outstanding := 0
  logged := []

/-- A call of a running process that completes. -/
def step (s : State) (e : Nat × Call) : Option State :=
  if e.1 < nproc ∧ (s.proc e.1).state = .running then
    match syscall e.1 e.2 s with
    | .ok (_, s') => some s'
    | .error _ => none
  else none

end Xv6Armv8.Fs
