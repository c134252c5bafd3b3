import Xv6Armv8.FsRefs

/-! The disk over whole runs. A consistent disk is one where the inodes share no block, the free map marks the
blocks in use and no others, and every file has a block for each part of it below its size. A system started
on such a disk leaves it consistent after every sequence of calls, whatever fails in them; so a read finds all
its blocks and never has to allocate one. -/

namespace Xv6Armv8.Fs

open Spec Alloc FileTable StepRun

/-- The allocated inodes have blocks for all of their contents. -/
structure Backed (E : Nat → Dinode) (data : Nat → ByteStore) : Prop where
  small : ∀ i, (E i).type ≠ 0 → (E i).size ≤ maxfile * bsize
  filled : ∀ i n, (E i).type ≠ 0 → n * bsize < (E i).size → slots E data (i, place n) ≠ 0

/-- The inodes and the free map agree. -/
structure Image.Consistent (img : Image) : Prop where
  size_lt : img.sb.size < 2 ^ 32
  owns : Owns (slots img.dinode img.data) img.bitmap img.sb.inData
  reserved : ∀ b, b < img.sb.datastart → img.bitmap b = true
  backed : Backed img.dinode img.data

variable {img : Image} {tr : List (Nat × Call)} {s t : State} {k f : Nat}

theorem Image.Consistent.disk (h : img.Consistent) : Disk img.dinode (boot img) := by
  have hzero : ∀ k, 0 < ((boot img).itable k).ref → k = 0 := fun k hk => by
    by_contra hne
    simp [boot, Function.update_of_ne hne, noInode] at hk
  refine ⟨h.size_lt, h.owns, h.reserved, h.backed.small, h.backed.filled, fun k hk => ?_, fun j k hj hk _ => ?_,
    fun k hk hv => ?_⟩
  · rw [hzero k hk]
    rfl
  · rw [hzero j hj, hzero k hk]
  · rw [hzero k hk] at hv
    cases hv

theorem Image.Consistent.run (h : img.Consistent) (hrun : Run step (fun _ _ => True) (boot img) tr s) :
    Inv True s :=
  hrun.invariant (boot_inv fun _ => h.disk) fun _ _ _ ha _ hs => ha.step hs

/-- **No block is shared, none is both free and in use, and none is lost** after every sequence of calls on a
consistent disk. -/
theorem blocks_owned (h : img.Consistent) (hrun : Run step (fun _ _ => True) (boot img) tr s) :
    (∀ x y, slots s.dinode s.data x ≠ 0 → slots s.dinode s.data x = slots s.dinode s.data y → x = y) ∧
    (∀ x, slots s.dinode s.data x ≠ 0 → s.sb.inData (slots s.dinode s.data x)) ∧
    ∀ b, s.sb.inData b → (s.bitmap b = true ↔ ∃ x, slots s.dinode s.data x = b) := by
  have hdisk : Disk s.dinode s := (h.run hrun).ok.disk trivial
  exact ⟨fun x y hne heq => hdisk.owns.inj x y heq hne, hdisk.owns.area, hdisk.owns.mark_iff⟩

theorem slot_single {data : Nat → ByteStore} {d : Dinode} (ht : d.type ≠ 0) (ha : ∀ k, k ≠ 0 → d.addrs k = 0) :
    slot data d k = if k = 0 then d.addrs 0 else 0 := by
  unfold slot
  rw [if_neg ht, ha ndirect (by decide)]
  by_cases hk : k = 0
  · rw [if_pos hk, hk]
    exact if_pos (Nat.zero_le _)
  · rw [if_neg hk]
    simp [ha k hk]

theorem chainImage_slots (x : Nat × Nat) : slots chainImage.dinode chainImage.data x =
    if (1 ≤ x.1 ∧ x.1 ≤ 52) ∧ x.2 = 0 then 37 + x.1 else 0 := by
  unfold slots
  by_cases hi : 1 ≤ x.1 ∧ x.1 ≤ 52
  · have hd : chainImage.dinode x.1 = _ := if_pos hi
    rw [hd, slot_single (show tDir ≠ 0 by decide) fun k hk => if_neg hk]
    simp [hi]
  · have hd : chainImage.dinode x.1 = noDinode := if_neg hi
    rw [hd]
    simp [slot, noDinode, hi]

theorem chainImage_slots_ne {x : Nat × Nat} (h : slots chainImage.dinode chainImage.data x ≠ 0) :
    1 ≤ x.1 ∧ x.1 ≤ 52 ∧ x.2 = 0 ∧ slots chainImage.dinode chainImage.data x = 37 + x.1 := by
  rw [chainImage_slots] at h ⊢
  split at h
  next hx => exact ⟨hx.1.1, hx.1.2, hx.2, if_pos hx⟩
  next => exact absurd rfl h

theorem chainImage_consistent : chainImage.Consistent := by
  have hstart : chainImage.sb.datastart = 37 := rfl
  have hsize : chainImage.sb.size = 100 := rfl
  have hdata : ∀ b, chainImage.sb.inData b ↔ 37 ≤ b ∧ b < 100 := fun b => by
    rw [Superblock.inData, hstart, hsize]
  have hmap : ∀ b, chainImage.bitmap b = true ↔ b < 37 ∨ 38 ≤ b ∧ b ≤ 89 := fun b => by simp [chainImage]
  refine ⟨by rw [hsize]; decide, ⟨fun b hb => ?_, fun x y heq hne => ?_, fun x hne => ?_, fun b hb => ?_⟩,
    fun b hb => ?_, ⟨fun i hi => ?_, fun i n hi hn => ?_⟩⟩
  · rw [hdata] at hb
    omega
  · obtain ⟨-, -, hx, hxs⟩ := chainImage_slots_ne hne
    obtain ⟨-, -, hy, hys⟩ := chainImage_slots_ne (heq ▸ hne)
    exact Prod.ext (by omega) (by omega)
  · obtain ⟨h1, h2, -, hxs⟩ := chainImage_slots_ne hne
    rw [hdata]
    omega
  · rw [hdata] at hb
    rw [hmap]
    refine ⟨fun hm => ⟨(b - 37, 0), ?_⟩, fun ⟨x, hx⟩ => ?_⟩
    · rw [chainImage_slots, if_pos ⟨⟨by dsimp only; omega, by dsimp only; omega⟩, rfl⟩]
      dsimp only
      omega
    · obtain ⟨h1, h2, -, hxs⟩ := chainImage_slots_ne (x := x) (by omega)
      omega
  · rw [hstart] at hb
    rw [hmap]
    omega
  · unfold chainImage maxfile
    dsimp only
    split
    · dsimp only
      split <;> decide
    · exact Nat.zero_le _
  · have hrange : 1 ≤ i ∧ i ≤ 52 := by
      by_contra hout
      simp [chainImage, hout, noDinode] at hi
    have hn0 : n = 0 := by
      by_contra hne
      have hle : (chainImage.dinode i).size ≤ 48 := by
        simp only [chainImage, if_pos hrange]
        split <;> omega
      have hb : bsize ≤ n * bsize := Nat.le_mul_of_pos_left _ (Nat.pos_of_ne_zero hne)
      unfold bsize at hb hn
      omega
    rw [chainImage_slots, hn0, if_pos ⟨hrange, rfl⟩]
    dsimp only
    omega

/-- The path `b`. -/
def other : Option Path := some ⟨[98], by simp, by decide⟩

/-- A new directory takes the one free block before the others. -/
theorem mkdir_takes_block : ∃ s, Run step (fun _ _ => True) (boot chainImage) [(0, .mkdir other)] s ∧
    s.bitmap 37 = true ∧ ∃ x, slots s.dinode s.data x = 37 := by
  have hexec : (StepRun.exec step (fun _ _ => True) (boot chainImage) [(0, .mkdir other)]).map
      (fun s => decide (s.bitmap 37 = true ∧ s.sb.datastart ≤ 37 ∧ 37 < s.sb.size)) = some true := by decide +kernel
  obtain ⟨s, hs, hend⟩ := Option.map_eq_some_iff.mp hexec
  obtain ⟨hmap, harea⟩ := of_decide_eq_true hend
  have howned := blocks_owned chainImage_consistent (run_of_exec hs)
  exact ⟨s, run_of_exec hs, hmap, (howned.2.2 37 harea).mp hmap⟩

/-- **The inode table agrees with the disk between calls.** After every sequence of calls on a consistent disk, an
entry that is referred to is not locked and is the only one of its inode, and if it has been read, its copy is the
inode as it is on the disk, which is allocated. -/
theorem inode_table_coherent (h : img.Consistent) (hrun : Run step (fun _ _ => True) (boot img) tr s)
    (hk : 0 < (s.itable k).ref) :
    (s.itable k).locked = false ∧
    (∀ j, 0 < (s.itable j).ref → (s.itable j).inum = (s.itable k).inum → j = k) ∧
    ((s.itable k).valid = true →
      (s.itable k).d = s.dinode (s.itable k).inum ∧ (s.dinode (s.itable k).inum).type ≠ 0) := by
  have hok := (h.run hrun).ok
  have hdisk : Disk s.dinode s := hok.disk trivial
  refine ⟨?_, fun j hj hjk => hdisk.uniq j k hj hk hjk, hdisk.sync k hk⟩
  apply Bool.eq_false_iff.mpr
  intro hlocked
  exact absurd ((hok.locks k).mp hlocked) (Finset.notMem_empty k)

/-- The root directory after the call that has changed it. -/
theorem mkdir_coherent : ∃ s, Run step (fun _ _ => True) (boot chainImage) [(0, .mkdir other)] s ∧
    (s.itable 0).locked = false ∧ (s.itable 0).d = s.dinode (s.itable 0).inum := by
  have hexec : (StepRun.exec step (fun _ _ => True) (boot chainImage) [(0, .mkdir other)]).map
      (fun s => decide (0 < (s.itable 0).ref ∧ (s.itable 0).valid = true)) = some true := by decide +kernel
  obtain ⟨s, hs, hend⟩ := Option.map_eq_some_iff.mp hexec
  obtain ⟨href, hvalid⟩ := of_decide_eq_true hend
  obtain ⟨hfree, -, hcopy⟩ := inode_table_coherent chainImage_consistent (run_of_exec hs) href
  exact ⟨s, run_of_exec hs, hfree, (hcopy hvalid).1⟩

/-! ### Reads -/

/-- Nothing on the disk or in the log has changed. -/
structure SameDisk (s t : State) : Prop where
  dinode : t.dinode = s.dinode
  bitmap : t.bitmap = s.bitmap
  data : t.data = s.data
  logged : t.logged = s.logged

theorem SameDisk.trans {u : State} (h : SameDisk s t) (h' : SameDisk t u) : SameDisk s u :=
  ⟨h'.dinode.trans h.dinode, h'.bitmap.trans h.bitmap, h'.data.trans h.data, h'.logged.trans h.logged⟩

/-- The errors of a system that allocates in a read. -/
def Allocating (e : String) : Prop := e = "bmap: out of range" ∨ e = "log_write outside of trans"

theorem ilock_sameDisk : Sat (ilock k) s (fun _ t => SameDisk s t) fun e => ¬Allocating e := by
  unfold ilock acquiresleep loadInode setInode
  rw [sat_bind, sat_get, sat_ite]
  refine ⟨fun _ => by simp [Allocating], fun _ => ?_⟩
  rw [sat_bind, sat_bind, sat_get, sat_ite]
  refine ⟨fun _ => by simp [Allocating, asleep], fun _ => ?_⟩
  rw [sat_modify, sat_bind, sat_get, sat_ite]
  refine ⟨fun _ => ⟨rfl, rfl, rfl, rfl⟩, fun _ => ?_⟩
  rw [sat_bind, sat_modify, sat_ite]
  exact ⟨fun _ => by simp [Allocating], fun _ => ⟨rfl, rfl, rfl, rfl⟩⟩

theorem iunlock_sameDisk : Sat (iunlock k) s (fun _ t => SameDisk s t) fun e => ¬Allocating e := by
  unfold iunlock releasesleep setInode
  rw [sat_bind, sat_get]
  dsimp only
  rw [sat_ite]
  exact ⟨fun _ => by simp [Allocating], fun _ => ⟨rfl, rfl, rfl, rfl⟩⟩

/-- `fileread` leaves the disk and the log alone, and does not end in an error of an allocation. -/
theorem fileread_sameDisk {dst : Nat → Bool} {n o : Int} (h : Inv True s) :
    Sat (fileread f dst n o) s (fun _ t => SameDisk s t) fun e => ¬Allocating e := by
  unfold fileread
  rw [sat_bind, sat_get]
  dsimp only
  rw [sat_ite]
  refine ⟨fun _ => ⟨rfl, rfl, rfl, rfl⟩, fun _ => ?_⟩
  cases htype : (s.ftable f).type with
  | none => exact show ¬Allocating "fileread" by simp [Allocating]
  | pipe => exact ⟨rfl, rfl, rfl, rfl⟩
  | device => exact ⟨rfl, rfl, rfl, rfl⟩
  | inode =>
    have href : (s.ftable f).ref ≠ 0 := fun h0 => by
      rw [h.files.free f h0] at htype
      cases htype
    dsimp only
    rw [sat_bind]
    refine (ilock_sameDisk.and (ilock_one h.ok (h.held href (.inl htype)))).mono (fun _ t ⟨hsame, ht⟩ => ?_)
      fun _ he => he.1
    rw [sat_bind]
    refine (readi_spec (ht.disk trivial) (ht.live (Finset.mem_singleton_self _))).mono (fun r u ⟨hu, _⟩ => ?_)
      fun _ => False.elim
    obtain ⟨r, bs⟩ := r
    dsimp only
    unfold setFile
    rw [sat_bind, sat_modify, sat_bind]
    refine iunlock_sameDisk.imp fun _ w hw => ?_
    have hset : ∀ ft, SameDisk s { u with ftable := ft } := fun ft => by
      rw [hu]
      exact ⟨hsame.dinode, hsame.bitmap, hsame.data, hsame.logged⟩
    exact (hset _).trans hw

/-- **Reads never allocate** after any sequence of calls on a consistent disk: every file has its blocks, so
`bmap` finds a block for each part of it, `readi` returns without a change, and so does `fileread`. -/
theorem reads_never_allocate (h : img.Consistent) (hrun : Run step (fun _ _ => True) (boot img) tr s) :
    Backed s.dinode s.data ∧
    (∀ k off, 0 < (s.itable k).ref → (s.itable k).valid = true → off < (s.itable k).d.size →
      ∃ b, b ≠ 0 ∧ bmap k (off / bsize) s = .ok (b, s)) ∧
    (∀ k dst off n, 0 < (s.itable k).ref → (s.itable k).valid = true → ∃ r, readi k dst off n s = .ok (r, s)) ∧
    ∀ f dst n o, Sat (fileread f dst n o) s (fun _ t => SameDisk s t) fun e => ¬Allocating e := by
  have hinv := h.run hrun
  have hdisk : Disk s.dinode s := hinv.ok.disk trivial
  refine ⟨⟨hdisk.small, hdisk.filled⟩, fun k off hk hv hoff => ?_, fun k dst off n hk hv => ?_,
    fun f dst n o => fileread_sameDisk hinv⟩
  · obtain ⟨hmap, hne⟩ := bmap_below hdisk ⟨hk, hv⟩ hoff
    exact ⟨_, hne, hmap⟩
  · have hread : Sat (readi k dst off n) s (fun _ t => t = s) fun _ => False :=
      (readi_spec hdisk ⟨hk, hv⟩).imp fun _ _ hr => hr.1
    obtain ⟨r, t, hr, rfl⟩ := hread.ok
    exact ⟨r, hr⟩

/-- A directory that is open is read in place. -/
theorem opened_directory_read : ∃ s r, Run step (fun _ _ => True) (boot chainImage) [(0, .open down 0)] s ∧
    readi 1 (fun _ => true) 0 48 s = .ok (r, s) := by
  have hexec : (StepRun.exec step (fun _ _ => True) (boot chainImage) [(0, .open down 0)]).map
      (fun s => decide (0 < (s.itable 1).ref ∧ (s.itable 1).valid = true)) = some true := by decide +kernel
  obtain ⟨s, hs, hend⟩ := Option.map_eq_some_iff.mp hexec
  obtain ⟨href, hvalid⟩ := of_decide_eq_true hend
  have hreads := reads_never_allocate chainImage_consistent (run_of_exec hs)
  obtain ⟨r, hr⟩ := hreads.2.2.1 1 (fun _ => true) 0 48 href hvalid
  exact ⟨s, r, run_of_exec hs, hr⟩

/-- A disk whose free map does not mark block 35, the indirect block of inode 2. -/
def unmarkedImage : Image where
  sb := ⟨100, 65, 20, 30, 2, 32, 34⟩
  dinode i :=
    if i = 1 then ⟨tDir, 0, 0, 1, 48, fun k => if k = 0 then 36 else 0⟩
    else if i = 2 then ⟨tFile, 0, 0, 1, 13 * bsize, fun k => if k = ndirect then 35 else if k < ndirect then 40 + k else 0⟩
    else noDinode
  bitmap b := decide (b < 35 ∨ b = 36 ∨ 40 ≤ b ∧ b ≤ 52)
  data b := if b = 36 then chainBlock 1 else if b = 35 then fun x => if x = 0 then 52 else 0 else fun _ => 0

theorem unmarkedImage_backed : Backed unmarkedImage.dinode unmarkedImage.data := by
  have hsize : ∀ i, (unmarkedImage.dinode i).size = if i = 1 then 48 else if i = 2 then 13 * bsize else 0 :=
    fun i => by
      unfold unmarkedImage
      dsimp only
      split
      · rfl
      · split <;> rfl
  refine ⟨fun i _ => ?_, fun i n _ hn => ?_⟩
  · rw [hsize]
    split
    · decide
    · split <;> decide
  · rw [hsize] at hn
    unfold bsize at hn
    split at hn
    next hi =>
      obtain rfl : n = 0 := by omega
      rw [hi]
      decide
    next =>
      split at hn
      next hi =>
        have hlt : n < 13 := by omega
        have hall : ∀ n, n < 13 → slots unmarkedImage.dinode unmarkedImage.data (2, place n) ≠ 0 := by decide
        rw [hi]
        exact hall n hlt
      next => omega

/-- A new file is given the block, and the old one loses what it had behind it. -/
theorem unmarked_block_lost : ∃ img tr s, Backed img.dinode img.data ∧
    Run step (fun _ _ => True) (boot img) tr s ∧ ¬Backed s.dinode s.data := by
  have hexec : (StepRun.exec step (fun _ _ => True) (boot unmarkedImage)
      [(0, .open other 0x201), (0, .write 0 (fun _ => some 0) 1 0)]).map
      (fun s => decide ((s.dinode 2).type ≠ 0 ∧ 12 * bsize < (s.dinode 2).size ∧
        slots s.dinode s.data (2, place 12) = 0)) = some true := by decide +kernel
  obtain ⟨s, hs, hend⟩ := Option.map_eq_some_iff.mp hexec
  obtain ⟨htype, hsize, hslot⟩ := of_decide_eq_true hend
  exact ⟨unmarkedImage, _, s, unmarkedImage_backed, run_of_exec hs, fun h => h.filled 2 12 htype hsize hslot⟩

end Xv6Armv8.Fs
