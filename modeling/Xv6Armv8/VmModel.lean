import Mathlib.Logic.Function.Basic
import Xv6Armv8.LibBytes
import Xv6Armv8.LibSpec

/-! The physical page allocator (`kalloc.c`) and the user page tables (`vm.c`). Addresses are 64-bit
values; memory is kept by pages, each named by its kernel address, and a page-table entry is the word
of eight bytes at its place in a page. A panic stops the kernel with its message. The list of free
pages is kept as a list; the link words inside free pages are never read before the page is
overwritten. Loops whose counter the code adds to without a test for overflow carry a bound on the
number of turns, which the proofs show is never reached. -/

namespace Xv6Armv8.Vm

/-! ### mmu.h and memlayout.h -/

def u64 (n : Nat) : Nat := n % 2 ^ 64

def pgSize : Nat := 4096
def pgRoundUp (x : Nat) : Nat := u64 (x + pgSize - 1) / pgSize * pgSize
def pgRoundDown (x : Nat) : Nat := x / pgSize * pgSize
def pgAddrMask : Nat := 0xfffffffff000

def apUser : Nat := 1 <<< 6
def apRo : Nat := 1 <<< 7
def afUsed : Nat := 1 <<< 10
def pxn : Nat := 1 <<< 53
def uxn : Nat := 1 <<< 54
def mtNormalNc : Nat := 1

def mmTypeValid : Nat := 1
def mmTypeTable : Nat := 3
def mmTypePage : Nat := 3
def mmTypeMask : Nat := 3

def kernel4kPage : Nat := mmTypePage ||| (mtNormalNc <<< 2) ||| afUsed ||| uxn
def user4kPageRw : Nat := mmTypePage ||| (mtNormalNc <<< 2) ||| apUser ||| afUsed ||| pxn
def user4kPageRo : Nat := mmTypePage ||| (mtNormalNc <<< 2) ||| apUser ||| apRo ||| afUsed ||| pxn
def user4kPageRwXn : Nat := mmTypePage ||| (mtNormalNc <<< 2) ||| apUser ||| afUsed ||| pxn ||| uxn
def user4kPageRoXn : Nat :=
  mmTypePage ||| (mtNormalNc <<< 2) ||| apUser ||| apRo ||| afUsed ||| pxn ||| uxn
def mask4kPage : Nat := mmTypePage ||| (mtNormalNc <<< 2) ||| apUser ||| apRo ||| afUsed ||| pxn ||| uxn

/-- `PX(3 - n, vaddr)`: the index of an address in a table with `n` levels below it. -/
def px (n va : Nat) : Nat := (va >>> (12 + 9 * n)) &&& 0x1ff

@[irreducible] def pxEntryCnt : Nat := 512

def phyBase : Nat := 0x40000000
def phyStop : Nat := phyBase + 0x8000000
def kernBase : Nat := 0xffff000000000000
def maxVa : Nat := 0x0001000000000000

def v2p (x : Nat) : Nat := u64 (x + (2 ^ 64 - kernBase))
def p2v (x : Nat) : Nat := u64 (x + kernBase)

/-! ### Memory -/

structure Mem where
  /-- The contents of a page, by the kernel address of the page. -/
  ram : Nat → ByteStore
  /-- The pages on `kmem.freelist`. -/
  freelist : List Nat
  /-- The symbol `end` of the linker script. -/
  kend : Nat

abbrev VmM := StateT Mem (Except String)

def Mem.pte (m : Mem) (pde : Nat) (i : Nat) : Nat := (m.ram pde).ld (8 * i) 8

def Mem.setPte (m : Mem) (pde : Nat) (i e : Nat) : Mem :=
  { m with ram := Function.update m.ram pde ((m.ram pde).st (8 * i) 8 e) }

def Mem.setPage (m : Mem) (p : Nat) (b : ByteStore) : Mem :=
  { m with ram := Function.update m.ram p b }

/-- `memset` of a whole page. -/
def memset (p : Nat) (c : UInt8) : VmM Unit := modify fun m => m.setPage p fun _ => c

def getPte (pde : Nat) (i : Nat) : VmM Nat := do return (← get).pte pde i

def setPte (pde : Nat) (i e : Nat) : VmM Unit := modify fun m => m.setPte pde i e

/-! ### kalloc.c -/

def kfree (paddr : Nat) : VmM Unit := do
  let m ← get
  if paddr % pgSize ≠ 0 ∨ paddr < u64 (kernBase + m.kend) ∨ kernBase + phyStop ≤ paddr then
    throw "kfree"
  else set { m with freelist := paddr :: m.freelist }

def kalloc : VmM (Option Nat) := do
  let m ← get
  match m.freelist with
  | [] => return none
  | r :: rest =>
    set { m with freelist := rest }
    memset r 5
    return some r

/-! ### Tables -/

/-- `walk` in a table with `n` levels below it. -/
def walk : Nat → Nat → Nat → Bool → VmM (Option (Nat × Nat))
  | 0, pde, va, _ => return some (pde, px 0 va)
  | n + 1, pde, va, alloc => do
    let e ← getPte pde (px (n + 1) va)
    if e &&& mmTypeMask = mmTypeTable then walk n (p2v (e &&& pgAddrMask)) va alloc
    else if e &&& mmTypeValid ≠ 0 then return none
    else if alloc = false then return none
    else match ← kalloc with
      | none => return none
      | some q =>
        memset q 0
        setPte pde (px (n + 1) va) (v2p q ||| mmTypeTable)
        walk n q va alloc

/-- `mappages` from page `a` on, with `k` pages after it. -/
def mappagesLoop (pde : Nat) (flags : Nat) : Nat → Nat → Nat → VmM Int
  | k, a, paddr => do
    match ← walk 3 pde a true with
    | none => return -1
    | some (t, i) =>
      if (← getPte t i) &&& mmTypeValid ≠ 0 then throw "mappages: remap"
      else
        setPte t i ((paddr &&& pgAddrMask) ||| flags)
        match k with
        | 0 => return 0
        | k + 1 => mappagesLoop pde flags k (u64 (a + pgSize)) (u64 (paddr + pgSize))

def mappages (pde va paddr size flags : Nat) : VmM Int :=
  if size = 0 then throw "mappages: size"
  else
    let a := pgRoundDown va
    let last := pgRoundDown (u64 (va + size + (2 ^ 64 - 1)))
    mappagesLoop pde flags (u64 (last + (2 ^ 64 - a)) / pgSize) a paddr

def uvmunmapLoop (pde : Nat) (doFree : Bool) : Nat → Nat → VmM Unit
  | 0, _ => return ()
  | k + 1, a => do
    match ← walk 3 pde a false with
    | none => throw "uvmunmap: walk"
    | some (t, i) =>
      let e ← getPte t i
      if e &&& mmTypeValid = 0 then throw "uvmunmap: not mapped"
      else if e &&& mmTypeMask ≠ mmTypePage then throw "uvmunmap: not a leaf"
      else
        if doFree then kfree (p2v (e &&& pgAddrMask)) else pure ()
        setPte t i 0
        uvmunmapLoop pde doFree k (a + pgSize)

def uvmunmap (pde va npages : Nat) (doFree : Bool) : VmM Unit :=
  if va % pgSize ≠ 0 then throw "uvmunmap: not aligned"
  else uvmunmapLoop pde doFree ((u64 (va + u64 (npages * pgSize)) - va) / pgSize) va

/-- `freewalk` on a table with fewer than `d` levels below it. A leaf has the type of a table, so
the code would go on below the last level; here it stops. -/
def freewalk : Nat → Nat → VmM Unit
  | 0, _ => throw "freewalk: below the last level"
  | d + 1, pde => do
    (List.range pxEntryCnt).forM fun i => do
      let e ← getPte pde i
      if e &&& mmTypeMask = mmTypeTable then
        freewalk d (p2v (e &&& pgAddrMask))
        setPte pde i 0
      else if e &&& mmTypeValid ≠ 0 then throw "freewalk: leaf"
      else pure ()
    kfree pde

def uvmfree (pde size : Nat) : VmM Unit := do
  if 0 < size then uvmunmap pde 0 (pgRoundUp size / pgSize) true else pure ()
  freewalk 4 pde

def uvmcreate : VmM (Option Nat) := do
  match ← kalloc with
  | none => return none
  | some pde =>
    memset pde 0
    return some pde

/-- The result of `kalloc` and the one of `mappages` are not tested. -/
def uvmfirst (pde : Nat) (src : List UInt8) : VmM Unit :=
  if pgSize < src.length then throw "uvmfirst: more than a page"
  else do
    match ← kalloc with
    | none => throw "uvmfirst: null pointer"
    | some mem =>
      memset mem 0
      let _ ← mappages pde 0 (v2p mem) pgSize user4kPageRo
      modify fun m => m.setPage mem ((m.ram mem).put 0 src)

def walkaddr (pde va : Nat) : VmM Nat :=
  if maxVa ≤ va then return 0
  else do
    match ← walk 3 pde va false with
    | none => return 0
    | some (t, i) =>
      let e ← getPte t i
      if e &&& mmTypeMask ≠ mmTypePage then return 0
      else if e &&& apUser = 0 then return 0
      else return p2v (e &&& pgAddrMask)

/-! ### Copies between the kernel and user addresses -/

def copyinstrLoop (pde : Nat) : Nat → Nat → Nat → VmM (Option (List UInt8))
  | 0, _, _ => return none
  | k + 1, srcva, max =>
    if max = 0 then return none
    else do
      let va0 := pgRoundDown srcva
      let pa0 ← walkaddr pde va0
      if pa0 = 0 then return none
      else
        let n := min (pgSize - (srcva - va0)) max
        let bs := ((← get).ram pa0).bytes (srcva - va0) n
        let s := bs.takeWhile (· ≠ 0)
        if s.length < n then return some s
        else return (← copyinstrLoop pde k (u64 (va0 + pgSize)) (max - n)).map (s ++ ·)

/-- The string without its NUL. -/
def copyinstr (pde srcva max : Nat) : VmM (Option (List UInt8)) := copyinstrLoop pde max srcva max

def copyinLoop (pde : Nat) : Nat → Nat → Nat → VmM (Option (List UInt8))
  | 0, _, _ => return some []
  | k + 1, srcva, len =>
    if len = 0 then return some []
    else do
      let va0 := pgRoundDown srcva
      let pa0 ← walkaddr pde va0
      if pa0 = 0 then return none
      else
        let n := min (pgSize - (srcva - va0)) len
        let bs := ((← get).ram pa0).bytes (srcva - va0) n
        return (← copyinLoop pde k (u64 (va0 + pgSize)) (len - n)).map (bs ++ ·)

def copyin (pde srcva len : Nat) : VmM (Option (List UInt8)) := copyinLoop pde len srcva len

def copyoutLoop (pde : Nat) : Nat → Nat → List UInt8 → VmM Int
  | 0, _, _ => return 0
  | k + 1, dstva, src =>
    if src = [] then return 0
    else do
      let va0 := pgRoundDown dstva
      let pa0 ← walkaddr pde va0
      if pa0 = 0 then return -1
      else
        let n := min (pgSize - (dstva - va0)) src.length
        modify fun m => m.setPage pa0 ((m.ram pa0).put (dstva - va0) (src.take n))
        copyoutLoop pde k (u64 (va0 + pgSize)) (src.drop n)

def copyout (pde dstva : Nat) (src : List UInt8) : VmM Int := copyoutLoop pde src.length dstva src

/-! ### Address spaces -/

/-- A 64-bit value converted to `int` and back. -/
def viaInt (n : Nat) : Nat := if n % 2 ^ 32 < 2 ^ 31 then n % 2 ^ 32 else n % 2 ^ 32 + (2 ^ 64 - 2 ^ 32)

def uvmdealloc (pde oldsz newsz : Nat) : VmM Nat :=
  if oldsz ≤ newsz then return oldsz
  else do
    if pgRoundUp newsz < pgRoundUp oldsz then
      uvmunmap pde (pgRoundUp newsz) (viaInt ((pgRoundUp oldsz - pgRoundUp newsz) / pgSize)) true
    else pure ()
    return newsz

def uvmallocLoop (pde oldsz newsz flags : Nat) : Nat → Nat → VmM Nat
  | 0, _ => throw "uvmalloc: bound"
  | k + 1, a =>
    if a < newsz then do
      match ← kalloc with
      | none =>
        let _ ← uvmdealloc pde a oldsz
        return 0
      | some mem =>
        memset mem 0
        if (← mappages pde a mem pgSize flags) ≠ 0 then
          kfree mem
          let _ ← uvmdealloc pde a oldsz
          return 0
        else uvmallocLoop pde oldsz newsz flags k (u64 (a + pgSize))
    else return newsz

/-- Every turn of the loop takes a page, so the free pages bound their number. -/
def uvmalloc (pde oldsz newsz flags : Nat) : VmM Nat :=
  if newsz < oldsz then return oldsz
  else do
    uvmallocLoop pde (pgRoundUp oldsz) newsz flags ((← get).freelist.length + 1) (pgRoundUp oldsz)

def uvmclear (pde va : Nat) : VmM Unit := do
  match ← walk 3 pde va false with
  | none => throw "uvmclear"
  | some (t, i) => setPte t i (((← getPte t i) &&& ((2 ^ 64 - 1) ^^^ mask4kPage)) ||| kernel4kPage)

def uvmcopyLoop (old new size : Nat) : Nat → Nat → VmM Int
  | 0, _ => throw "uvmcopy: bound"
  | k + 1, i =>
    if i < size then do
      match ← walk 3 old i false with
      | none => throw "uvmcopy: pte should exist"
      | some (t, j) =>
        let e ← getPte t j
        if e &&& mmTypeValid = 0 then throw "uvmcopy: page not present"
        else
          match ← kalloc with
          | none =>
            uvmunmap new 0 (i / pgSize) true
            return -1
          | some mem =>
            modify fun m => m.setPage mem (m.ram (p2v (e &&& pgAddrMask)))
            if (← mappages new i mem pgSize (e &&& mask4kPage)) ≠ 0 then
              kfree mem
              uvmunmap new 0 (i / pgSize) true
              return -1
            else uvmcopyLoop old new size k (u64 (i + pgSize))
    else return 0

/-- Every turn of the loop takes a page, so the free pages bound their number. -/
def uvmcopy (old new size : Nat) : VmM Int := do
  uvmcopyLoop old new size ((← get).freelist.length + 1) 0

end Xv6Armv8.Vm
