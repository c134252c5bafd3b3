
import Xv6Armv8.FsBlocks
import Xv6Armv8.MkfsModel

/-! What `mkfs` puts in a sector, and what is read from it. A structure reads back as it was written, and the
inodes of a block do not overlap, so writing an inode changes that inode and no other. -/

namespace Xv6Armv8.Mkfs

open Fs Spec Function

variable {m : ByteStore} {a b n i : Nat} {v : Nat → Nat} {d : Dinode} {s t : State}

/-! ### Structures -/

theorem ld_putWords_of_disjoint {k : Nat} (h : b + k ≤ a ∨ a + 4 * n ≤ b) :
    (putWords m a v n).ld b k = m.ld b k := by
  induction n with
  | zero => rfl
  | succ n ih =>
    unfold putWords
    rw [ByteStore.ld_st_of_disjoint (by omega)]
    apply ih
    omega

theorem ld_putWords {j : Nat} (hj : j < n) : (putWords m a v n).ld (a + 4 * j) 4 = v j % 2 ^ 32 := by
  induction n with
  | zero => omega
  | succ n ih =>
    unfold putWords
    by_cases heq : j = n
    · rw [heq, ByteStore.ld_st_self]
      rfl
    · rw [ByteStore.ld_st_of_disjoint (by omega)]
      apply ih
      omega

/-- The fields have the sizes that they have on the disk. -/
structure Fits (d : Dinode) : Prop where
  type : d.type < 2 ^ 16
  major : toShort (short d.major) = d.major
  minor : toShort (short d.minor) = d.minor
  nlink : toShort (short d.nlink) = d.nlink
  size : d.size < 2 ^ 32
  addrs : ∀ k, k ≤ ndirect → d.addrs k < 2 ^ 32
  rest : ∀ k, ndirect < k → d.addrs k = 0

theorem short_lt (x : Int) : short x < 2 ^ 16 := by
  unfold short
  omega

theorem getDinode_putDinode (h : Fits d) : getDinode (putDinode m a d) a = d := by
  have hword : ∀ {m : ByteStore} {a v : Nat}, v < 2 ^ 16 → (m.st a 2 v).ld a 2 = v := fun hv => by
    rw [ByteStore.ld_st_self, Nat.mod_eq_of_lt (by omega)]
  have htype : (putDinode m a d).ld a 2 = d.type := by
    unfold putDinode
    rw [ld_putWords_of_disjoint (by omega), ByteStore.ld_st_of_disjoint (by omega),
      ByteStore.ld_st_of_disjoint (by omega), ByteStore.ld_st_of_disjoint (by omega),
      ByteStore.ld_st_of_disjoint (by omega), hword h.type]
  have hmajor : (putDinode m a d).ld (a + 2) 2 = short d.major := by
    unfold putDinode
    rw [ld_putWords_of_disjoint (by omega), ByteStore.ld_st_of_disjoint (by omega),
      ByteStore.ld_st_of_disjoint (by omega), ByteStore.ld_st_of_disjoint (by omega), hword (short_lt _)]
  have hminor : (putDinode m a d).ld (a + 4) 2 = short d.minor := by
    unfold putDinode
    rw [ld_putWords_of_disjoint (by omega), ByteStore.ld_st_of_disjoint (by omega),
      ByteStore.ld_st_of_disjoint (by omega), hword (short_lt _)]
  have hnlink : (putDinode m a d).ld (a + 6) 2 = short d.nlink := by
    unfold putDinode
    rw [ld_putWords_of_disjoint (by omega), ByteStore.ld_st_of_disjoint (by omega), hword (short_lt _)]
  have hsize : (putDinode m a d).ld (a + 8) 4 = d.size := by
    have hlt := h.size
    unfold putDinode
    rw [ld_putWords_of_disjoint (by omega), ByteStore.ld_st_self, Nat.mod_eq_of_lt (by omega)]
  have haddrs : (fun k => if k ≤ ndirect then (putDinode m a d).ld (a + 12 + 4 * k) 4 else 0) = d.addrs := by
    funext k
    by_cases hk : k ≤ ndirect
    · rw [if_pos hk]
      unfold putDinode
      rw [ld_putWords (by omega), Nat.mod_eq_of_lt (h.addrs k hk)]
    · rw [if_neg hk, h.rest k (by omega)]
  unfold getDinode
  rw [htype, hmajor, hminor, hnlink, hsize, haddrs, h.major, h.minor, h.nlink]

theorem getDinode_congr {m' : ByteStore} (h : ∀ o k, o + k ≤ sizeofDinode → m'.ld (a + o) k = m.ld (a + o) k) :
    getDinode m' a = getDinode m a := by
  have haddrs : (fun k => if k ≤ ndirect then m'.ld (a + 12 + 4 * k) 4 else 0) =
      fun k => if k ≤ ndirect then m.ld (a + 12 + 4 * k) 4 else 0 := by
    funext k
    by_cases hk : k ≤ ndirect
    · unfold ndirect at hk
      have hk' := h (12 + 4 * k) 4 (by unfold sizeofDinode; omega)
      rw [← Nat.add_assoc] at hk'
      rw [hk']
    · rw [if_neg hk, if_neg hk]
  unfold getDinode
  rw [haddrs, h 2 2 (by decide), h 4 2 (by decide), h 6 2 (by decide), h 8 4 (by decide),
    show m'.ld a 2 = m.ld a 2 from h 0 2 (by decide)]

theorem getDinode_putDinode_of_disjoint (h : b + sizeofDinode ≤ a ∨ a + sizeofDinode ≤ b) :
    getDinode (putDinode m a d) b = getDinode m b := by
  apply getDinode_congr
  intro o k hk
  unfold sizeofDinode at h hk
  unfold putDinode
  rw [ld_putWords_of_disjoint (by unfold ndirect; omega), ByteStore.ld_st_of_disjoint (by omega),
    ByteStore.ld_st_of_disjoint (by omega), ByteStore.ld_st_of_disjoint (by omega),
    ByteStore.ld_st_of_disjoint (by omega), ByteStore.ld_st_of_disjoint (by omega)]

theorem testBit_bitmapBlock (used x : Nat) {j : Nat} (hj : j < 8) :
    (bitmapBlock used x).toNat.testBit j = decide (8 * x + j < used) := by
  induction used with
  | zero => simp [bitmapBlock, zeroes]
  | succ i ih =>
    unfold bitmapBlock
    by_cases hx : x = i / 8
    · rw [← hx, update_self, UInt8.toNat_or, Nat.testBit_or, ih, UInt8.toNat_ofNat',
        Nat.mod_eq_of_lt (Nat.pow_lt_pow_right (by decide) (show i % 8 < 8 by omega)), Nat.testBit_two_pow]
      rw [← Bool.decide_or]
      exact decide_eq_decide.mpr (by omega)
    · rw [update_of_ne hx, ih]
      exact decide_eq_decide.mpr (by omega)

/-! ### Sectors -/

/-- The image with another sector `b`. -/
def State.put (s : State) (b : Nat) (m : ByteStore) : State := { s with sect := update s.sect b m }

theorem sector_of_lt (h : b ≤ fssize + 1) : sector b = b := by
  unfold sector u32 bsize
  unfold fssize at h
  omega

variable {E : String → Prop}

theorem sat_rsect {Q : ByteStore → State → Prop} (hl : s.length = fssize) (h : b < fssize) :
    Sat (rsect b) s Q E ↔ Q (s.sect b) s := by
  unfold rsect
  rw [sat_bind, sat_get, sector_of_lt (by omega), if_neg (by omega), sat_pure]

theorem rsect_spec {Q : ByteStore → State → Prop} (hl : s.length = fssize) (h : b ≤ fssize + 1)
    (hQ : b < fssize → Q (s.sect b) s) (hE : fssize ≤ b → E "read") : Sat (rsect b) s Q E := by
  unfold rsect
  rw [sat_bind, sat_get, sector_of_lt h, sat_ite]
  exact ⟨fun hle => hE (by omega), fun hlt => hQ (by omega)⟩

theorem sat_wsect {Q : Unit → State → Prop} (hl : s.length = fssize) (h : b < fssize) :
    Sat (wsect b m) s Q E ↔ Q () (s.put b m) := by
  unfold wsect
  rw [sat_modify, sector_of_lt (by omega), max_eq_left (by omega)]
  rfl

/-! ### Inodes -/

theorem iblock_lt (h : i < ninodeblocks * ipb) : sb.iblock i < fssize ∧ sb.iblock i < nmeta ∧ sb.iblock i ≠ 1 := by
  unfold Superblock.iblock
  have hstart : sb.inodestart = 32 := rfl
  have hmeta : nmeta = 46 := rfl
  have hend : ninodeblocks * ipb = 208 := rfl
  rw [hstart, hmeta]
  unfold ipb fssize
  omega

theorem sat_rinode {Q : Dinode → State → Prop} (hl : s.length = fssize)
    (h : i < ninodeblocks * ipb) : Sat (rinode i) s Q E ↔ Q (s.dinode i) s := by
  unfold rinode
  rw [sat_bind, sat_rsect hl (iblock_lt h).1, sat_pure]
  unfold State.dinode
  rw [if_pos h]

/-- The image with another inode `i`. -/
def State.putInode (s : State) (i : Nat) (d : Dinode) : State :=
  s.put (sb.iblock i) (putDinode (s.sect (sb.iblock i)) (i % ipb * sizeofDinode) d)

theorem sat_winode {Q : Unit → State → Prop} (hl : s.length = fssize)
    (h : i < ninodeblocks * ipb) : Sat (winode i d) s Q E ↔ Q () (s.putInode i d) := by
  unfold winode
  rw [sat_bind, sat_rsect hl (iblock_lt h).1, sat_wsect hl (iblock_lt h).1]
  rfl

theorem dinode_putInode (h : i < ninodeblocks * ipb) (hd : Fits d) :
    (s.putInode i d).dinode = update s.dinode i d := by
  funext j
  by_cases hj : j = i
  · rw [hj, update_self]
    unfold State.dinode State.putInode State.put
    rw [if_pos h]
    dsimp only
    rw [update_self, getDinode_putDinode hd]
  · rw [update_of_ne hj]
    unfold State.dinode State.putInode State.put
    dsimp only
    split
    · by_cases hblock : sb.iblock j = sb.iblock i
      · rw [hblock, update_self]
        apply getDinode_putDinode_of_disjoint
        unfold Superblock.iblock ipb at hblock
        unfold ipb sizeofDinode
        omega
      · rw [update_of_ne hblock]
    · rfl

theorem sect_putInode (h : i < ninodeblocks * ipb) (hb : nmeta ≤ b ∨ b = 1) : (s.putInode i d).sect b = s.sect b := by
  obtain ⟨-, hlt, hne⟩ := iblock_lt h
  unfold State.putInode State.put
  exact update_of_ne (by omega) ..

theorem dinode_congr (h : ∀ b, b < nmeta → t.sect b = s.sect b) : t.dinode = s.dinode := by
  funext i
  unfold State.dinode
  split
  next hi => rw [h _ (iblock_lt hi).2.1]
  next => rfl

end Xv6Armv8.Mkfs
