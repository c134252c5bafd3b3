
import Xv6Armv8.FsModel
import Xv6Armv8.LibAlloc

/-! The blocks of the inodes. An inode holds the blocks in its table of addresses and those that its indirect
block names; the free map marks just the blocks that some inode holds, and no block has two holders. The table
in memory is ahead of the one on the disk while an operation is under way, so the invariant is stated for any
table `E` of inodes and used with the table of the disk between operations. -/

namespace Xv6Armv8.Fs

open Spec Alloc FileTable Function

variable {s t u : State} {k j b bn : Nat} {E : Nat → Dinode} {d : Dinode}

/-! ### What the operations on blocks leave alone -/

def noInodes : String := "iget: no inodes"

/-- A panic that does not come from a full inode table. -/
def Low (e : String) : Prop := e ≠ noInodes

/-- The panics of `log_write`. -/
def LogErr (e : String) : Prop := e = "too big a transaction" ∨ e = "log_write outside of trans"

theorem LogErr.low {e : String} (h : LogErr e) : Low e := by
  rcases h with rfl | rfl <;> simp [Low, noInodes]

/-- Only the disk and the fields that inodes have on the disk may differ. -/
structure Frame (s t : State) : Prop where
  sb : t.sb = s.sb
  ftable : t.ftable = s.ftable
  proc : t.proc = s.proc
  outstanding : t.outstanding = s.outstanding
  table : ∀ k, ∃ d, t.itable k = { s.itable k with d := d }

instance : Std.Refl Frame where
  refl _ := ⟨rfl, rfl, rfl, rfl, fun _ => ⟨_, rfl⟩⟩

instance : IsTrans State Frame where
  trans s t u h h' := by
    refine ⟨h'.sb.trans h.sb, h'.ftable.trans h.ftable, h'.proc.trans h.proc,
      h'.outstanding.trans h.outstanding, fun k => ?_⟩
    obtain ⟨d, hd⟩ := h.table k
    obtain ⟨d', hd'⟩ := h'.table k
    exact ⟨d', by rw [hd', hd]⟩

theorem Frame.ref (h : Frame s t) (k : Nat) : (t.itable k).ref = (s.itable k).ref := by
  obtain ⟨d, hd⟩ := h.table k
  rw [hd]

theorem Frame.dev (h : Frame s t) (k : Nat) : (t.itable k).dev = (s.itable k).dev := by
  obtain ⟨d, hd⟩ := h.table k
  rw [hd]

theorem Frame.inum (h : Frame s t) (k : Nat) : (t.itable k).inum = (s.itable k).inum := by
  obtain ⟨d, hd⟩ := h.table k
  rw [hd]

theorem Frame.valid (h : Frame s t) (k : Nat) : (t.itable k).valid = (s.itable k).valid := by
  obtain ⟨d, hd⟩ := h.table k
  rw [hd]

theorem Frame.locked (h : Frame s t) (k : Nat) : (t.itable k).locked = (s.itable k).locked := by
  obtain ⟨d, hd⟩ := h.table k
  rw [hd]

theorem logWrite_spec : Sat (logWrite b) s (fun _ t => ∃ l, t = { s with logged := l }) LogErr := by
  unfold logWrite
  rw [sat_bind, sat_get]
  split
  · exact .inl rfl
  · split
    · exact .inr rfl
    · exact ⟨_, rfl⟩

theorem logWrite_frame : Keeps Frame Low (logWrite b) := fun s =>
  logWrite_spec.mono (fun _ t ht => by
    obtain ⟨l, rfl⟩ := ht
    exact ⟨rfl, rfl, rfl, rfl, fun _ => ⟨_, rfl⟩⟩) fun _ => LogErr.low

theorem setBlock_frame {f : ByteStore → ByteStore} : Keeps Frame Low (setBlock b f) :=
  .modify fun _ => ⟨rfl, rfl, rfl, rfl, fun _ => ⟨_, rfl⟩⟩

theorem setBit_frame {v : Bool} : Keeps Frame Low (setBit b v) :=
  .modify fun _ => ⟨rfl, rfl, rfl, rfl, fun _ => ⟨_, rfl⟩⟩

theorem setFields_frame {f : Dinode → Dinode} : Keeps Frame Low (setFields k f) :=
  .modify fun s => by
    refine ⟨rfl, rfl, rfl, rfl, fun j => ?_⟩
    by_cases hj : j = k
    · subst hj
      exact ⟨f (s.itable j).d, by simp [State.inode]⟩
    · exact ⟨(s.itable j).d, by simp [State.inode, hj]⟩

theorem bzero_frame : Keeps Frame Low (bzero b) := .bind setBlock_frame fun _ => logWrite_frame

theorem balloc_frame : Keeps Frame Low balloc := by
  refine .bind .get fun s => ?_
  split
  · exact .pure
  · exact .bind setBit_frame fun _ => .bind logWrite_frame fun _ =>
      .bind bzero_frame fun _ => .pure

theorem bfree_frame : Keeps Frame Low (bfree b) := by
  refine .bind .get fun s => .ite ?_ ?_
  · exact .throw (by simp [Low, noInodes])
  · exact .bind setBit_frame fun _ => logWrite_frame

theorem iupdate_frame : Keeps Frame Low (iupdate k) :=
  .bind .get fun _ =>
    .bind (.modify fun _ => ⟨rfl, rfl, rfl, rfl, fun _ => ⟨_, rfl⟩⟩) fun _ => logWrite_frame

variable {c i ind n : Nat} {data : Nat → ByteStore} {p : Nat × Nat}

theorem addrsEntry_frame : Keeps Frame Low (addrsEntry k i) := by
  refine .bind .get fun s => .ite ?_ .pure
  exact .bind balloc_frame fun b => .ite .pure (.bind setFields_frame fun _ => .pure)

theorem indirectEntry_frame {j : Nat} : Keeps Frame Low (indirectEntry ind j) := by
  refine .bind .get fun s => .ite ?_ .pure
  exact .bind balloc_frame fun b => .ite .pure
    (.bind setBlock_frame fun _ => .bind logWrite_frame fun _ => .pure)

theorem bmap_frame : Keeps Frame Low (bmap k bn) := by
  refine .ite addrsEntry_frame (.ite ?_ (.throw (by simp [Low, noInodes])))
  exact .bind addrsEntry_frame fun _ => .ite .pure indirectEntry_frame

theorem itrunc_frame : Keeps Frame Low (itrunc k) := by
  have hentry : ∀ i, Keeps Frame Low (freeEntry k i) := fun i =>
    .bind .get fun _ =>
      .ite .pure (.bind bfree_frame fun _ => setFields_frame)
  have hind : Keeps Frame Low (freeIndirect k) :=
    .bind .get fun _ => .ite .pure
      (.bind (.forM fun _ => .bind .get fun _ => .ite .pure bfree_frame) fun _ =>
        .bind bfree_frame fun _ => setFields_frame)
  exact .bind (.forM hentry) fun _ => .bind hind fun _ =>
    .bind setFields_frame fun _ => iupdate_frame

theorem readiLoop_frame {dst : Nat → Bool} {n : Nat} : ∀ turns tot off,
    Keeps Frame Low (readiLoop k dst n turns tot off)
  | 0, _, _ => .pure
  | turns + 1, tot, off => by
    refine .ite ?_ .pure
    refine .bind bmap_frame fun addr => .ite .pure (.bind .get fun _ => ?_)
    exact .ite (.bind (readiLoop_frame turns _ _) fun _ => .pure) .pure

theorem readi_frame {dst : Nat → Bool} {off : Nat} : Keeps Frame Low (readi k dst off n) :=
  .bind .get fun _ => .ite .pure (readiLoop_frame _ _ _)

theorem writeiLoop_frame {src : Nat → Option UInt8} {n : Nat} : ∀ turns tot off,
    Keeps Frame Low (writeiLoop k src n turns tot off)
  | 0, _, _ => .pure
  | turns + 1, tot, off => by
    refine .ite ?_ .pure
    refine .bind bmap_frame fun addr => .ite .pure (.bind setBlock_frame fun _ => ?_)
    exact .ite .pure (.bind logWrite_frame fun _ => writeiLoop_frame turns _ _)

theorem writei_frame {src : Nat → Option UInt8} {off : Nat} : Keeps Frame Low (writei k src off n) :=
  .bind .get fun _ => .ite .pure (.ite .pure
    (.bind (writeiLoop_frame _ _ _) fun _ => .bind setFields_frame fun _ =>
      .bind iupdate_frame fun _ => .pure))

/-! ### The blocks of an inode -/

/-- Block `k` of an inode: an entry of `addrs`, or one of the indirect block. -/
def slot (data : Nat → ByteStore) (d : Dinode) (k : Nat) : Nat :=
  if d.type = 0 then 0
  else if k ≤ ndirect then d.addrs k
  else if d.addrs ndirect = 0 ∨ ndirect + nindirect < k then 0
  else (data (d.addrs ndirect)).ld (4 * (k - ndirect - 1)) 4

def slots (E : Nat → Dinode) (data : Nat → ByteStore) (p : Nat × Nat) : Nat := slot data (E p.1) p.2

/-- The place of block `n` of the contents. -/
def place (n : Nat) : Nat := if n < ndirect then n else n + 1

/-- The first block after the free map. -/
def Superblock.datastart (sb : Superblock) : Nat := sb.bmapstart + sb.size / bpb + 1

def Superblock.inData (sb : Superblock) (b : Nat) : Prop := sb.datastart ≤ b ∧ b < sb.size

/-- The blocks of the inodes `E`, the free map and the table in memory agree. -/
structure Disk (E : Nat → Dinode) (s : State) : Prop where
  size_lt : s.sb.size < 2 ^ 32
  owns : Owns (slots E s.data) s.bitmap s.sb.inData
  reserved : ∀ b, b < s.sb.datastart → s.bitmap b = true
  small : ∀ i, (E i).type ≠ 0 → (E i).size ≤ maxfile * bsize
  filled : ∀ i n, (E i).type ≠ 0 → n * bsize < (E i).size → slots E s.data (i, place n) ≠ 0
  dev : ∀ k, 0 < (s.itable k).ref → (s.itable k).dev = rootdev
  uniq : ∀ j k, 0 < (s.itable j).ref → 0 < (s.itable k).ref → (s.itable j).inum = (s.itable k).inum → j = k
  sync : ∀ k, 0 < (s.itable k).ref → (s.itable k).valid = true →
    (s.itable k).d = E (s.itable k).inum ∧ (E (s.itable k).inum).type ≠ 0

/-- The entry of the table is in use and has been read from the disk. -/
def Live (s : State) (k : Nat) : Prop := 0 < (s.itable k).ref ∧ (s.itable k).valid = true

/-- The inodes of the disk, with entry `k` of the table in place of the one it stands for. -/
def State.eff (s : State) (k : Nat) : Nat → Dinode := update s.dinode (s.itable k).inum (s.itable k).d

@[simp] theorem eff_self : s.eff k (s.itable k).inum = (s.itable k).d := update_self ..

theorem eff_of_ne (h : i ≠ (s.itable k).inum) : s.eff k i = s.dinode i := update_of_ne h ..

theorem Disk.eff_eq (h : Disk s.dinode s) (hk : Live s k) : s.eff k = s.dinode := by
  unfold State.eff
  rw [(h.sync k hk.1 hk.2).1, update_eq_self]

theorem Live.frame (h : Live s k) (hf : Frame s t) : Live t k := by
  unfold Live
  rw [hf.ref, hf.valid]
  exact h

theorem slot_le {k : Nat} (ht : d.type ≠ 0) (hk : k ≤ ndirect) : slot data d k = d.addrs k := by
  unfold slot
  rw [if_neg ht, if_pos hk]

theorem slot_none {k : Nat} (h : d.addrs ndirect = 0) (hk : ndirect < k) : slot data d k = 0 := by
  unfold slot
  split
  · rfl
  · rw [if_neg (not_le.mpr hk), if_pos (.inl h)]

theorem slot_indirect {j : Nat} (ht : d.type ≠ 0) (h : d.addrs ndirect ≠ 0)
    (hj : j < nindirect) : slot data d (ndirect + 1 + j) = (data (d.addrs ndirect)).ld (4 * j) 4 := by
  unfold slot
  have hle : ¬ndirect + 1 + j ≤ ndirect := by omega
  have hor : ¬(d.addrs ndirect = 0 ∨ ndirect + nindirect < ndirect + 1 + j) := by omega
  rw [if_neg ht, if_neg hle, if_neg hor]
  congr 2
  omega

theorem slot_congr {data' : Nat → ByteStore} {k : Nat}
    (h : d.type ≠ 0 → d.addrs ndirect ≠ 0 → data' (d.addrs ndirect) = data (d.addrs ndirect)) :
    slot data' d k = slot data d k := by
  unfold slot
  split
  · rfl
  split
  · rfl
  split
  · rfl
  · next ht _ hor => rw [h ht fun h0 => hor (.inl h0)]

theorem slots_congr {data' : Nat → ByteStore} (h : ∀ i, (E i).type ≠ 0 → (E i).addrs ndirect ≠ 0 →
      data' ((E i).addrs ndirect) = data ((E i).addrs ndirect)) :
    slots E data' = slots E data := by
  funext p
  exact slot_congr fun ht h0 => h p.1 ht h0

theorem slots_update {m : ByteStore} (h : ∀ i, (E i).type ≠ 0 → (E i).addrs ndirect ≠ b) :
    slots E (update data b m) = slots E data :=
  slots_congr fun i ht _ => update_of_ne (h i ht) ..

theorem place_ne (n : Nat) : place n ≠ ndirect := by
  unfold place
  split <;> omega

theorem place_inj {m : Nat} (h : place n = place m) : n = m := by
  unfold place at h
  split at h <;> split at h <;> omega

theorem slots_indirect (ht : (E i).type ≠ 0) :
    slots E data (i, ndirect) = (E i).addrs ndirect := slot_le ht le_rfl

theorem Disk.not_indirect (h : Disk E s) (hp : p ≠ (i, ndirect))
    (hp0 : slots E s.data p ≠ 0) (ht : (E i).type ≠ 0) : (E i).addrs ndirect ≠ slots E s.data p := by
  rw [← slots_indirect ht]
  exact (h.owns.ne hp hp0).symm

theorem Disk.free_not_indirect (h : Disk E s) (hb : s.sb.inData b) (hm : s.bitmap b = false)
    (ht : (E i).type ≠ 0) : (E i).addrs ndirect ≠ b := by
  rw [← slots_indirect ht]
  exact h.owns.not_held hb hm _

/-! ### One block changes hands -/

def Dinode.setAddr (d : Dinode) (i b : Nat) : Dinode := { d with addrs := update d.addrs i b }

@[simp] theorem setAddr_type (i b : Nat) : (d.setAddr i b).type = d.type := rfl

@[simp] theorem setAddr_self (i b : Nat) : (d.setAddr i b).addrs i = b := by simp [Dinode.setAddr]

theorem setAddr_of_ne (h : c ≠ i) : (d.setAddr i b).addrs c = d.addrs c := by
  simp [Dinode.setAddr, h]

theorem slots_setDirect (ht : (E i).type ≠ 0) (hc : c < ndirect) :
    slots (update E i ((E i).setAddr c b)) data = update (slots E data) (i, c) b := by
  funext p
  obtain ⟨i', k⟩ := p
  unfold slots
  dsimp only
  by_cases hi : i' = i
  · subst hi
    rw [update_self]
    by_cases hk : k = c
    · subst hk
      rw [update_self]
      exact (slot_le (d := (E i').setAddr k b) ht hc.le).trans (setAddr_self k b)
    · rw [update_of_ne (by simpa using hk)]
      unfold slot
      rw [setAddr_of_ne (c := ndirect) (by omega), setAddr_of_ne hk, setAddr_type]
  · rw [update_of_ne hi, update_of_ne (by simp [hi])]

theorem slots_setIndirect (ht : (E i).type ≠ 0)
    (h0 : (E i).addrs ndirect = 0) (hz : ∀ j, j < nindirect → (data b).ld (4 * j) 4 = 0) :
    slots (update E i ((E i).setAddr ndirect b)) data = update (slots E data) (i, ndirect) b := by
  funext p
  obtain ⟨i', k⟩ := p
  unfold slots
  dsimp only
  by_cases hi : i' = i
  · subst hi
    rw [update_self]
    by_cases hk : k = ndirect
    · subst hk
      rw [update_self]
      exact (slot_le (d := (E i').setAddr ndirect b) ht le_rfl).trans (setAddr_self ndirect b)
    · rw [update_of_ne (by simpa using hk)]
      unfold slot
      rw [setAddr_self, setAddr_of_ne hk, setAddr_type, h0, if_neg ht, if_neg ht]
      split
      · rfl
      · simp only [true_or, if_true]
        split
        · rfl
        · exact hz _ (by omega)
  · rw [update_of_ne hi, update_of_ne (by simp [hi])]

theorem slots_st {j : Nat} (ht : (E i).type ≠ 0) (hind : (E i).addrs ndirect = ind)
    (h0 : ind ≠ 0) (hj : j < nindirect) (hb : b < 2 ^ 32)
    (hother : ∀ i', i' ≠ i → (E i').type ≠ 0 → (E i').addrs ndirect ≠ ind) :
    slots E (update data ind ((data ind).st (4 * j) 4 b)) = update (slots E data) (i, ndirect + 1 + j) b := by
  funext p
  obtain ⟨i', k⟩ := p
  by_cases hi : i' = i
  · subst hi
    by_cases hk : k = ndirect + 1 + j
    · subst hk
      rw [update_self, slots, slot_indirect ht (by rwa [hind]) hj, hind, update_self,
        ByteStore.ld_st_self, Nat.mod_eq_of_lt (by omega)]
    · rw [update_of_ne (by simpa using hk), slots, slots]
      unfold slot
      rw [hind, update_self]
      split
      · rfl
      split
      · rfl
      split
      · rfl
      · rw [ByteStore.ld_st_of_disjoint (by omega)]
  · rw [update_of_ne (by simp [hi])]
    exact slot_congr fun ht' _ => update_of_ne (hother i' hi ht') ..

/-! ### balloc -/

/-- The block `b` has been taken and zeroed. -/
structure Taken (b : Nat) (s t : State) : Prop where
  inData : s.sb.inData b
  free : s.bitmap b = false
  eq : ∃ l, t = { s with
    bitmap := update s.bitmap b true
    data := update s.data b ((s.data b).fill 0 bsize 0)
    logged := l }

theorem balloc_spec (h : Disk E s) :
    Sat balloc s (fun b t => (b = 0 ∧ t = s ∧ ∀ c, c < s.sb.size → s.bitmap c = true) ∨ b ≠ 0 ∧ Taken b s t)
      LogErr := by
  unfold balloc
  rw [sat_bind, sat_get]
  cases hfind : (List.range s.sb.size).find? fun b => s.bitmap b = false with
  | none =>
    refine .inl ⟨rfl, rfl, fun c hc => ?_⟩
    have hnone := List.find?_eq_none.mp hfind c (List.mem_range.mpr hc)
    simpa using hnone
  | some b =>
    have hfree : s.bitmap b = false := by simpa using List.find?_some hfind
    have hlt : b < s.sb.size := List.mem_range.mp (List.mem_of_find?_eq_some hfind)
    have hdata : s.sb.inData b := by
      refine ⟨not_lt.mp fun hb => ?_, hlt⟩
      rw [h.reserved b hb] at hfree
      cases hfree
    dsimp only
    unfold setBit bzero setBlock
    rw [sat_bind, sat_modify, sat_bind]
    refine logWrite_spec.imp fun _ t ht => ?_
    obtain ⟨l, rfl⟩ := ht
    rw [sat_bind, sat_bind, sat_modify]
    refine logWrite_spec.imp fun _ t ht => ?_
    obtain ⟨l', rfl⟩ := ht
    exact .inr ⟨h.owns.pos b hdata, hdata, hfree, l', rfl⟩

theorem Taken.frame (h : Taken b s t) : Frame s t := by
  obtain ⟨l, rfl⟩ := h.eq
  exact ⟨rfl, rfl, rfl, rfl, fun _ => ⟨_, rfl⟩⟩

theorem ld_fill {m : ByteStore} (hj : j < nindirect) : (m.fill 0 bsize 0).ld (4 * j) 4 = 0 :=
  ByteStore.ld_fill_zero (Nat.zero_le _) (by unfold bsize; unfold nindirect at hj; omega)

/-! ### bmap -/

/-- The blocks that the inodes hold while entry `k` of the table is changed. -/
def State.slotsAt (s : State) (k : Nat) : Nat × Nat → Nat := slots (s.eff k) s.data

/-- The inode of entry `k` may hold more blocks than before, with zeroes in those of the contents. Nothing
else changes. -/
structure Grown (k : Nat) (s t : State) : Prop where
  frame : Frame s t
  dinode : t.dinode = s.dinode
  others : ∀ j, j ≠ k → t.itable j = s.itable j
  fields : ∃ a, (t.itable k).d = { (s.itable k).d with addrs := a }
  keep : ∀ p, s.slotsAt k p ≠ 0 → t.slotsAt k p = s.slotsAt k p ∧
    (p.2 ≠ ndirect → t.data (s.slotsAt k p) = s.data (s.slotsAt k p))
  fresh : ∀ p, s.slotsAt k p = 0 → t.slotsAt k p ≠ 0 → p.2 ≠ ndirect → ∀ x, x < bsize →
    t.data (t.slotsAt k p) x = 0

theorem Grown.refl (k : Nat) (s : State) : Grown k s s where
  frame := refl_of Frame s
  dinode := rfl
  others := fun _ _ => rfl
  fields := ⟨_, rfl⟩
  keep := fun _ _ => ⟨rfl, fun _ => rfl⟩
  fresh := fun _ h h' => absurd h h'

theorem Grown.trans (h : Grown k s t) (h' : Grown k t u) : Grown k s u where
  frame := trans_of Frame h.frame h'.frame
  dinode := h'.dinode.trans h.dinode
  others := fun j hj => (h'.others j hj).trans (h.others j hj)
  fields := by
    obtain ⟨a, ha⟩ := h.fields
    obtain ⟨a', ha'⟩ := h'.fields
    exact ⟨a', by rw [ha', ha]⟩
  keep := by
    intro p hp
    obtain ⟨h1, h2⟩ := h.keep p hp
    obtain ⟨h1', h2'⟩ := h'.keep p (by rwa [h1])
    rw [h1] at h1' h2'
    exact ⟨h1', fun hne => (h2' hne).trans (h2 hne)⟩
  fresh := by
    intro p hs hu hne x hx
    by_cases ht : t.slotsAt k p = 0
    · exact h'.fresh p ht hu hne x hx
    · obtain ⟨h1, h2⟩ := h'.keep p ht
      rw [h1, h2 hne]
      exact h.fresh p hs ht hne x hx

/-- The state after entry `c` of `addrs` has got the block `b`. -/
def State.withAddr (s : State) (k c b : Nat) : State := s.inode k fun ip => { ip with d := ip.d.setAddr c b }

theorem eff_withAddr (c b : Nat) : (s.withAddr k c b).eff k =
    update (s.eff k) (s.itable k).inum ((s.itable k).d.setAddr c b) := by
  unfold State.eff State.withAddr State.inode
  simp only [update_self, update_idem]

theorem withAddr_frame (c b : Nat) : Frame s (s.withAddr k c b) := by
  refine ⟨rfl, rfl, rfl, rfl, fun j => ?_⟩
  by_cases hj : j = k
  · subst hj
    exact ⟨(s.itable j).d.setAddr c b, by simp [State.withAddr, State.inode]⟩
  · exact ⟨(s.itable j).d, by simp [State.withAddr, State.inode, hj]⟩

theorem withAddr_others (hj : j ≠ k) : (s.withAddr k c b).itable j = s.itable j :=
  update_of_ne hj ..

theorem withAddr_self (c : Nat) : ((s.withAddr k c b).itable k).d = (s.itable k).d.setAddr c b := by
  unfold State.withAddr State.inode
  simp only [update_self]

theorem Disk.type_ne (h : Disk (s.eff k) s) (hk : Live s k) : (s.itable k).d.type ≠ 0 := by
  have hsync := (h.sync k hk.1 hk.2).2
  rwa [eff_self] at hsync

theorem Disk.add {E' : Nat → Dinode} (h : Disk E s) (hb : s.sb.inData b) (hm : s.bitmap b = false)
    (hp : slots E s.data p = 0) (hslots : slots E' u.data = update (slots E s.data) p b)
    (hmap : u.bitmap = update s.bitmap b true) (hf : Frame s u)
    (hE : ∀ i, (E' i).type = (E i).type ∧ (E' i).size = (E i).size)
    (hsync : ∀ k, Live s k → (u.itable k).d = E' (s.itable k).inum) : Disk E' u where
  size_lt := by
    rw [hf.sb]
    exact h.size_lt
  owns := by
    rw [hslots, hmap, hf.sb]
    exact h.owns.add hp hb hm
  reserved := by
    intro c hc
    rw [hf.sb] at hc
    rw [hmap, update_of_ne (by have := hb.1; omega)]
    exact h.reserved c hc
  small := by
    intro i ht
    rw [(hE i).1] at ht
    rw [(hE i).2]
    exact h.small i ht
  filled := by
    intro i n ht hn
    rw [(hE i).1] at ht
    rw [(hE i).2] at hn
    have hold := h.filled i n ht hn
    rw [hslots, update_of_ne]
    · exact hold
    · rintro rfl
      exact hold hp
  dev := by
    intro j hj
    rw [hf.ref] at hj
    rw [hf.dev]
    exact h.dev j hj
  uniq := by
    intro j j' hj hj' heq
    rw [hf.ref] at hj hj'
    rw [hf.inum, hf.inum] at heq
    exact h.uniq j j' hj hj' heq
  sync := by
    intro j hj hv
    rw [hf.ref] at hj
    rw [hf.valid] at hv
    rw [hf.inum, (hE _).1]
    exact ⟨hsync j ⟨hj, hv⟩, (h.sync j hj hv).2⟩

theorem Grown.of_slots (hf : Frame s u) (hdi : u.dinode = s.dinode)
    (hothers : ∀ j, j ≠ k → u.itable j = s.itable j)
    (hfields : ∃ a, (u.itable k).d = { (s.itable k).d with addrs := a }) (hp : s.slotsAt k p = 0)
    (hslots : u.slotsAt k = update (s.slotsAt k) p b)
    (hdata : ∀ q, s.slotsAt k q ≠ 0 → q.2 ≠ ndirect → u.data (s.slotsAt k q) = s.data (s.slotsAt k q))
    (hzero : p.2 ≠ ndirect → ∀ x, x < bsize → u.data b x = 0) : Grown k s u where
  frame := hf
  dinode := hdi
  others := hothers
  fields := hfields
  keep := by
    intro q hq
    rw [hslots, update_of_ne]
    · exact ⟨rfl, hdata q hq⟩
    · rintro rfl
      exact hq hp
  fresh := by
    intro q hq hq' hne x hx
    have hqp : q = p := by
      by_contra hqp
      rw [hslots, update_of_ne hqp] at hq'
      exact hq' hq
    subst hqp
    rw [hslots, update_self]
    exact hzero hne x hx

/-- What the inode of entry `k` has at the place `c` after `bmap`: the block returned, or there was no block
left. -/
structure Mapped (k c : Nat) (s : State) (b : Nat) (t : State) : Prop where
  disk : Disk (t.eff k) t
  grown : Grown k s t
  held : b ≠ 0 → t.slotsAt k ((s.itable k).inum, c) = b
  full : b = 0 → (∀ x, x < t.sb.size → t.bitmap x = true) ∧ t.slotsAt k ((s.itable k).inum, c) = 0
  only : ∀ p, t.slotsAt k p ≠ 0 → s.slotsAt k p ≠ 0 ∨ p = ((s.itable k).inum, c) ∨ p.2 = ndirect

theorem only_of_slots (hslots : t.slotsAt k = update (s.slotsAt k) p b)
    (hp : p = ((s.itable k).inum, c)) (q : Nat × Nat) (hq : t.slotsAt k q ≠ 0) :
    s.slotsAt k q ≠ 0 ∨ q = ((s.itable k).inum, c) ∨ q.2 = ndirect := by
  by_cases hqp : q = p
  · exact .inr (.inl (hqp.trans hp))
  · rw [hslots, update_of_ne hqp] at hq
    exact .inl hq

theorem Taken.zero {x : Nat} (h : Taken b s t) (hx : x < bsize) : t.data b x = 0 := by
  obtain ⟨l, rfl⟩ := h.eq
  simp [ByteStore.fill, hx]

theorem Taken.data_of_ne (h : Taken b s t) (hc : c ≠ b) : t.data c = s.data c := by
  obtain ⟨l, rfl⟩ := h.eq
  exact update_of_ne hc ..

theorem Taken.eff_eq (h : Taken b s t) (k : Nat) : t.eff k = s.eff k := by
  obtain ⟨l, rfl⟩ := h.eq
  rfl

theorem Taken.slots_eq (h : Taken b s t) (hd : Disk E s) : slots E t.data = slots E s.data := by
  obtain ⟨l, rfl⟩ := h.eq
  exact slots_update fun i ht => hd.free_not_indirect h.inData h.free ht

theorem Taken.mapped (hT : Taken b s t) (hb : b ≠ 0) (h : Disk (s.eff k) s) (hk : Live s k)
    (hc : c ≤ ndirect) (h0 : (s.itable k).d.addrs c = 0) : Mapped k c s b (t.withAddr k c b) := by
  have htype : (s.eff k (s.itable k).inum).type ≠ 0 := by
    rw [eff_self]
    exact h.type_ne hk
  have hold : s.slotsAt k ((s.itable k).inum, c) = 0 := by
    unfold State.slotsAt slots
    rw [slot_le htype hc, eff_self, h0]
  have htab : t.itable = s.itable := by
    obtain ⟨l, rfl⟩ := hT.eq
    rfl
  have heff : (t.withAddr k c b).eff k =
      update (s.eff k) (s.itable k).inum ((s.eff k (s.itable k).inum).setAddr c b) := by
    rw [eff_withAddr, hT.eff_eq, htab, eff_self]
  have hslots : slots ((t.withAddr k c b).eff k) t.data =
      update (slots (s.eff k) s.data) ((s.itable k).inum, c) b := by
    rw [heff, ← hT.slots_eq h]
    rcases Nat.lt_or_eq_of_le hc with hlt | rfl
    · exact slots_setDirect htype hlt
    · refine slots_setIndirect htype (by rwa [eff_self]) fun j hj => ?_
      obtain ⟨l, rfl⟩ := hT.eq
      simp only [update_self]
      exact ld_fill hj
  have hf : Frame s (t.withAddr k c b) := trans_of Frame hT.frame (withAddr_frame c b)
  have hothers : ∀ j, j ≠ k → (t.withAddr k c b).itable j = s.itable j := fun j hj => by
    rw [withAddr_others hj, htab]
  have hfields : ((t.withAddr k c b).itable k).d = (s.itable k).d.setAddr c b := by rw [withAddr_self, htab]
  refine ⟨?_, ?_, fun _ => ?_, fun hz => absurd hz hb, only_of_slots hslots rfl⟩
  · refine h.add hT.inData hT.free hold hslots ?_ hf (fun i => ?_) fun j hj => ?_
    · obtain ⟨l, rfl⟩ := hT.eq
      rfl
    · rw [heff]
      by_cases hi : i = (s.itable k).inum
      · subst hi
        rw [update_self]
        exact ⟨rfl, rfl⟩
      · rw [update_of_ne hi]
        exact ⟨rfl, rfl⟩
    · rw [heff]
      by_cases hjk : j = k
      · subst hjk
        rw [update_self, hfields, eff_self]
      · have hne : (s.itable j).inum ≠ (s.itable k).inum := fun heq => hjk (h.uniq j k hj.1 hk.1 heq)
        rw [update_of_ne hne, hothers j hjk]
        exact (h.sync j hj.1 hj.2).1
  · refine Grown.of_slots (p := ((s.itable k).inum, c)) hf ?_ hothers ⟨_, hfields⟩ hold hslots (fun q hq _ => ?_)
      fun _ x hx => hT.zero hx
    · obtain ⟨l, rfl⟩ := hT.eq
      rfl
    · exact hT.data_of_ne (h.owns.not_held hT.inData hT.free q)
  · show slots ((t.withAddr k c b).eff k) t.data _ = b
    rw [hslots, update_self]

theorem addrsEntry_spec (h : Disk (s.eff k) s) (hk : Live s k) (hc : c ≤ ndirect) :
    Sat (addrsEntry k c) s (fun b t => Mapped k c s b t) LogErr := by
  have htype : (s.eff k (s.itable k).inum).type ≠ 0 := by
    rw [eff_self]
    exact h.type_ne hk
  have hslot : s.slotsAt k ((s.itable k).inum, c) = (s.itable k).d.addrs c := by
    unfold State.slotsAt slots
    rw [slot_le htype hc, eff_self]
  unfold addrsEntry
  rw [sat_bind, sat_get, sat_ite]
  refine ⟨fun h0 => ?_, fun h0 => ?_⟩
  · refine (balloc_spec h).bind fun b t ht => ?_
    rw [sat_ite]
    refine ⟨fun hb => ?_, fun hb => ?_⟩
    · obtain ⟨-, rfl, hfull⟩ | ⟨hne, -⟩ := ht
      · exact ⟨h, Grown.refl k t, fun hne => absurd rfl hne, fun _ => ⟨hfull, hslot.trans h0⟩, fun _ => .inl⟩
      · exact absurd hb hne
    · obtain ⟨h0', -⟩ | ⟨-, hT⟩ := ht
      · exact absurd h0' hb
      · exact hT.mapped hb h hk hc h0
  · exact ⟨h, Grown.refl k s, fun _ => hslot, fun hz => absurd hz h0, fun _ => .inl⟩

/-- The state after entry `j` of the block `ind` has got the block `b`. -/
def State.withEntry (s : State) (ind j b : Nat) (l : List Nat) : State :=
  { s with data := update s.data ind ((s.data ind).st (4 * j) 4 b), logged := l }

theorem Taken.mapped_indirect {l : List Nat} (hT : Taken b s t) (hb : b ≠ 0) (h : Disk (s.eff k) s)
    (hk : Live s k) (hind : (s.itable k).d.addrs ndirect = ind) (hi0 : ind ≠ 0) (hj : j < nindirect)
    (h0 : (s.data ind).ld (4 * j) 4 = 0) :
    Mapped k (ndirect + 1 + j) s b (t.withEntry ind j b l) := by
  have htype : (s.eff k (s.itable k).inum).type ≠ 0 := by
    rw [eff_self]
    exact h.type_ne hk
  have hind' : (s.eff k (s.itable k).inum).addrs ndirect = ind := by rw [eff_self, hind]
  have hindslot : slots (s.eff k) s.data ((s.itable k).inum, ndirect) = ind := by
    rw [slots_indirect htype, hind']
  have hold : s.slotsAt k ((s.itable k).inum, ndirect + 1 + j) = 0 := by
    unfold State.slotsAt slots
    rw [slot_indirect htype (by rwa [hind']) hj, hind', h0]
  have hlt : b < 2 ^ 32 := lt_trans hT.inData.2 h.size_lt
  have hslots : slots (s.eff k) (t.withEntry ind j b l).data =
      update (slots (s.eff k) s.data) ((s.itable k).inum, ndirect + 1 + j) b := by
    rw [← hT.slots_eq h]
    refine slots_st htype hind' hi0 hj hlt fun i hi ht => ?_
    rw [← hindslot]
    refine h.not_indirect (fun heq => hi (congrArg Prod.fst heq).symm) ?_ ht
    rwa [hindslot]
  have heff : (t.withEntry ind j b l).eff k = s.eff k := hT.eff_eq k
  have hwrite : Frame t (t.withEntry ind j b l) := ⟨rfl, rfl, rfl, rfl, fun _ => ⟨_, rfl⟩⟩
  have hf : Frame s (t.withEntry ind j b l) := trans_of Frame hT.frame hwrite
  have htab : t.itable = s.itable := by
    obtain ⟨l, rfl⟩ := hT.eq
    rfl
  have hslots' : (t.withEntry ind j b l).slotsAt k =
      update (s.slotsAt k) ((s.itable k).inum, ndirect + 1 + j) b := by
    unfold State.slotsAt
    rw [heff]
    exact hslots
  refine ⟨?_, ?_, fun _ => ?_, fun hz => absurd hz hb, only_of_slots hslots' rfl⟩
  · show Disk ((t.withEntry ind j b l).eff k) _
    rw [heff]
    refine h.add hT.inData hT.free hold hslots ?_ hf (fun i => ⟨rfl, rfl⟩) fun j hj => ?_
    · obtain ⟨l, rfl⟩ := hT.eq
      rfl
    · show (t.itable j).d = _
      rw [htab]
      exact (h.sync j hj.1 hj.2).1
  · refine Grown.of_slots (b := b) (p := ((s.itable k).inum, ndirect + 1 + j)) hf ?_ (fun j _ => ?_)
      ⟨(s.itable k).d.addrs, ?_⟩ hold ?_
      (fun q hq hne => ?_) fun _ x hx => ?_
    · obtain ⟨l, rfl⟩ := hT.eq
      rfl
    · exact congrFun htab j
    · exact congrArg Inode.d (congrFun htab k)
    · exact hslots'
    · show update t.data ind _ _ = _
      have hne' : s.slotsAt k q ≠ ind := by
        rw [← hindslot]
        exact h.owns.ne (fun heq => hne (congrArg Prod.snd heq)) hq
      rw [update_of_ne hne']
      exact hT.data_of_ne (h.owns.not_held hT.inData hT.free q)
    · show update t.data ind _ b x = 0
      have hne : b ≠ ind := by
        rw [← hindslot]
        exact (h.owns.not_held hT.inData hT.free _).symm
      rw [update_of_ne hne]
      exact hT.zero hx
  · rw [hslots', update_self]

theorem indirectEntry_spec (h : Disk (s.eff k) s) (hk : Live s k)
    (hind : (s.itable k).d.addrs ndirect = ind) (hi0 : ind ≠ 0) (hj : j < nindirect) :
    Sat (indirectEntry ind j) s (fun b t => Mapped k (ndirect + 1 + j) s b t) LogErr := by
  have hslot : s.slotsAt k ((s.itable k).inum, ndirect + 1 + j) = (s.data ind).ld (4 * j) 4 := by
    unfold State.slotsAt slots
    rw [slot_indirect (by rw [eff_self]; exact h.type_ne hk) (by rwa [eff_self, hind]) hj, eff_self, hind]
  unfold indirectEntry
  rw [sat_bind, sat_get, sat_ite]
  refine ⟨fun h0 => ?_, fun h0 => ?_⟩
  · refine (balloc_spec h).bind fun b t ht => ?_
    rw [sat_ite]
    refine ⟨fun hb => ?_, fun hb => ?_⟩
    · obtain ⟨-, rfl, hfull⟩ | ⟨hne, -⟩ := ht
      · exact ⟨h, Grown.refl k t, fun hne => absurd rfl hne, fun _ => ⟨hfull, hslot.trans h0⟩, fun _ => .inl⟩
      · exact absurd hb hne
    · obtain ⟨h0', -⟩ | ⟨-, hT⟩ := ht
      · exact absurd h0' hb
      · unfold setBlock
        rw [sat_bind, sat_modify, sat_bind]
        refine logWrite_spec.imp fun _ u hu => ?_
        obtain ⟨l, rfl⟩ := hu
        exact hT.mapped_indirect hb h hk hind hi0 hj h0
  · exact ⟨h, Grown.refl k s, fun _ => hslot, fun hz => absurd hz h0, fun _ => .inl⟩

theorem Grown.live (h : Grown k s t) (hk : Live s k) : Live t k := hk.frame h.frame

/-- **`bmap` gives the inode a block for the part of its contents it is asked for**, unless the disk is
full. -/
theorem bmap_spec (h : Disk (s.eff k) s) (hk : Live s k) (hbn : bn < maxfile) :
    Sat (bmap k bn) s (fun b t => Mapped k (place bn) s b t) LogErr := by
  unfold bmap place
  split
  · next hlt => exact addrsEntry_spec h hk hlt.le
  · next hge =>
      have hj : bn - ndirect < nindirect := by
        unfold maxfile at hbn
        omega
      rw [if_pos hj]
      refine (addrsEntry_spec h hk le_rfl).bind fun ind t ht => ?_
      have honly : ∀ p, t.slotsAt k p ≠ 0 → s.slotsAt k p ≠ 0 ∨ p = ((s.itable k).inum, bn + 1) ∨ p.2 = ndirect := by
        intro p hp
        rcases ht.only p hp with hs | hp | hp
        · exact .inl hs
        · exact .inr (.inr (congrArg Prod.snd hp))
        · exact .inr (.inr hp)
      rw [sat_ite]
      refine ⟨fun h0 => ?_, fun h0 => ?_⟩
      · obtain ⟨hfull, hmiss⟩ := ht.full h0
        refine ⟨ht.disk, ht.grown, fun hne => absurd rfl hne, fun _ => ⟨hfull, ?_⟩, honly⟩
        rw [← ht.grown.frame.inum k]
        rw [← ht.grown.frame.inum k] at hmiss
        have htype : (t.eff k (t.itable k).inum).type ≠ 0 := by
          rw [eff_self]
          exact ht.disk.type_ne (ht.grown.live hk)
        exact slot_none ((slots_indirect htype).symm.trans hmiss) (by omega)
      · have hlive : Live t k := ht.grown.live hk
        have hind : (t.itable k).d.addrs ndirect = ind := by
          have hheld := ht.held h0
          unfold State.slotsAt at hheld
          rw [← ht.grown.frame.inum k, slots_indirect (by rw [eff_self]; exact ht.disk.type_ne hlive), eff_self]
            at hheld
          exact hheld
        refine (indirectEntry_spec ht.disk hlive hind h0 hj).imp fun b u hu => ?_
        have hplace : ndirect + 1 + (bn - ndirect) = bn + 1 := by omega
        rw [hplace] at hu
        have hfull := hu.full
        rw [ht.grown.frame.inum k] at hfull
        refine ⟨hu.disk, ht.grown.trans hu.grown, fun hb => ?_, hfull, fun p hp => ?_⟩
        · rw [← ht.grown.frame.inum k]
          exact hu.held hb
        · rcases hu.only p hp with hs | hs
          · exact honly p hs
          · rw [ht.grown.frame.inum k] at hs
            exact .inr hs

theorem bmap_held (ht : (s.itable k).d.type ≠ 0) (hbn : bn < maxfile)
    (h0 : slot s.data (s.itable k).d (place bn) ≠ 0) :
    bmap k bn s = .ok (slot s.data (s.itable k).d (place bn), s) := by
  unfold bmap
  unfold place at h0 ⊢
  split
  · next hlt =>
      rw [if_pos hlt, slot_le ht hlt.le] at h0
      rw [slot_le ht hlt.le]
      show (if (s.itable k).d.addrs bn = 0 then _ else _ : FsM Nat) s = _
      rw [if_neg h0]
      rfl
  · next hge =>
      rw [if_neg hge] at h0
      have hj : bn - ndirect < nindirect := by
        unfold maxfile at hbn
        omega
      have hplace : ndirect + 1 + (bn - ndirect) = bn + 1 := by omega
      have hind : (s.itable k).d.addrs ndirect ≠ 0 := fun hz => h0 (slot_none hz (by omega))
      rw [← hplace, slot_indirect ht hind hj] at h0 ⊢
      rw [if_pos hj]
      have hentry : addrsEntry k ndirect s = .ok ((s.itable k).d.addrs ndirect, s) := by
        show (if (s.itable k).d.addrs ndirect = 0 then _ else _ : FsM Nat) s = _
        rw [if_neg hind]
        rfl
      have hindirect : indirectEntry ((s.itable k).d.addrs ndirect) (bn - ndirect) s =
          .ok ((s.data ((s.itable k).d.addrs ndirect)).ld (4 * (bn - ndirect)) 4, s) := by
        show (if (s.data ((s.itable k).d.addrs ndirect)).ld (4 * (bn - ndirect)) 4 = 0 then _ else _ : FsM Nat) s = _
        rw [if_neg h0]
        rfl
      show (addrsEntry k ndirect s).bind _ = _
      rw [hentry]
      show (if (s.itable k).d.addrs ndirect = 0 then _ else _ : FsM Nat) s = _
      rw [if_neg hind, hindirect]

end Xv6Armv8.Fs
