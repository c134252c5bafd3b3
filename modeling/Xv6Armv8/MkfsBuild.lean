import Mathlib.Algebra.Order.BigOperators.Group.Finset
import Xv6Armv8.FsCounts
import Xv6Armv8.MkfsAppend

/-! The image that `mkfs` builds. As long as the inode numbers stay in the inode area, what it has written at
any time is a disk whose files have just the bytes that were appended to them. At the end the size of the root
directory is rounded up and the free map is written. Two things can go wrong: there is no check that the inode
area has room for the inodes, and a root directory that fills its blocks is given one more block than it has. -/

namespace Xv6Armv8.Mkfs

open Fs Spec Alloc Function List

variable {s t : State} {C C' : Nat → List UInt8} {E E' : Nat → Dinode} {W : Nat → Nat} {i n : Nat}
  {p : List UInt8} {d : Dinode}

/-! ### Changes that leave the blocks alone -/

theorem Blocks.congr (h : Blocks W E s) (hslots : slots E' t.sect = slots E s.sect)
    (htype : ∀ i, (E' i).type ≠ 0 → (E i).type ≠ 0 ∨ W i = 0 ∧ ∀ k, slots E s.sect (i, k) = 0)
    (hzero : ∀ i, (E' i).type = 0 → (E i).type = 0) (hl : t.length = s.length) (hfree : t.freeblock = s.freeblock)
    (hsect : ∀ b, nmeta ≤ b → t.sect b = s.sect b) : Blocks W E' t where
  area :=
    { length := hl.trans h.area.length
      lo := by
        rw [hfree]
        exact h.area.lo
      owns := by
        rw [hslots, hfree]
        exact h.area.owns
      zero := fun b hb => by
        have hlo := h.area.lo
        rw [hfree] at hb
        rw [hsect b (by omega)]
        exact h.area.zero b hb }
  hi := by
    rw [hfree]
    exact h.hi
  held := fun i k ht => by
    rw [hslots]
    rcases htype i ht with ht | ⟨hW, h0⟩
    · exact h.held i k ht
    · rw [h0 k, hW]
      simp [Wants]
  small := h.small
  free := fun i ht => h.free i (hzero i ht)

theorem Holds.congr (h : Holds C E s) (hb : Blocks (fun i => (C i).length) E s)
    (hslots : slots E' t.sect = slots E s.sect) (hsect : ∀ b, nmeta ≤ b → t.sect b = s.sect b) : Holds C E' t := by
  intro i x hx
  have ht : (E i).type ≠ 0 := by
    intro h0
    rw [hb.free i h0] at hx
    omega
  have hne : slots E s.sect (i, place (x / bsize)) ≠ 0 := by
    rw [hb.held i _ ht, Wants, index_place]
    exact lt_of_le_of_lt (Nat.div_mul_le_self x bsize) hx
  rw [h i x hx, hslots, hsect _ (hb.area.owns.area _ hne)]

theorem slots_resize {data : Nat → ByteStore} :
    slots (update E i { E i with size := n }) data = slots E data := by
  funext p
  unfold slots
  by_cases hp : p.1 = i
  · rw [hp, update_self]
    rfl
  · rw [update_of_ne hp]

theorem Area.slots_sect (h : Area E s) (hsect : ∀ b, nmeta ≤ b → t.sect b = s.sect b) :
    slots E t.sect = slots E s.sect := by
  apply slots_congr
  intro i ht h0
  apply hsect
  have hslot : slots E s.sect (i, ndirect) = (E i).addrs ndirect := slots_indirect ht
  rw [← hslot] at h0 ⊢
  exact h.owns.area _ h0

theorem toShort_short (x : Int) : toShort (short (toShort x)) = toShort x := by
  unfold toShort short
  omega

theorem fits_getDinode (m : ByteStore) (a : Nat) : Fits (getDinode m a) where
  type := ByteStore.ld_lt m a 2
  major := toShort_short _
  minor := toShort_short _
  nlink := toShort_short _
  size := ByteStore.ld_lt m (a + 8) 4
  addrs := fun k hk => by
    unfold getDinode
    dsimp only
    rw [if_pos hk]
    exact ByteStore.ld_lt m _ 4
  rest := fun k hk => if_neg (by omega)

theorem fits_dinode (i : Nat) : Fits (s.dinode i) := by
  unfold State.dinode
  split
  · exact fits_getDinode _ _
  · exact ⟨by decide, by decide, by decide, by decide, by decide, fun _ _ => show 0 < 2 ^ 32 by decide,
      fun _ _ => rfl⟩

/-! ### The image between the appends -/

/-- The type of inode `i` when the inodes below `n` are allocated. -/
def typeOf (n i : Nat) : Nat := if 1 ≤ i ∧ i < n then if i = rootino then tDir else tFile else 0

/-- The number of blocks of the files. -/
def total (C : Nat → List UInt8) : Nat := ∑ i ∈ Finset.range (ninodeblocks * ipb), need (C i).length

/-- The image holds the files `C`. -/
structure Built (C : Nat → List UInt8) (s : State) : Prop where
  blocks : Blocks (fun i => (C i).length) s.dinode s
  holds : Holds C s.dinode s
  size : ∀ i, (s.dinode i).size = (C i).length
  types : ∀ i, (s.dinode i).type = typeOf s.freeinode i
  super : s.sect 1 = sbBlock
  used : s.freeblock = nmeta + total C
  inodes : s.freeinode ≤ ninodeblocks * ipb

/-- The files do not fit in the image. -/
def TooBig (C : Nat → List UInt8) : Prop := (∃ i, maxfile * bsize < (C i).length) ∨ fssize < nmeta + total C

theorem TooBig.mono (h : TooBig C) (hle : ∀ i, (C i).length ≤ (C' i).length) : TooBig C' := by
  rcases h with ⟨i, hi⟩ | h
  · exact .inl ⟨i, lt_of_lt_of_le hi (hle i)⟩
  · have hsum : total C ≤ total C' := Finset.sum_le_sum fun i _ => need_mono (hle i)
    exact .inr (by omega)

theorem length_le_app (C : Nat → List UInt8) (i : Nat) (p : List UInt8) (j : Nat) :
    (C j).length ≤ (app C i p j).length := by
  by_cases hj : j = i
  · rw [hj, app_self, length_append]
    omega
  · rw [app_of_ne hj]

theorem total_app (hi : i < ninodeblocks * ipb) :
    total (app C i p) + need (C i).length = total C + need ((C i).length + p.length) := by
  have hsum := Fs.sum_update hi C (C i ++ p) fun l => (need l.length : Int)
  have hnew : (total (app C i p) : Int) =
      ∑ x ∈ Finset.range (ninodeblocks * ipb), (need (update C i (C i ++ p) x).length : Int) := by
    unfold total app
    push_cast
    rfl
  have hold : (total C : Int) = ∑ x ∈ Finset.range (ninodeblocks * ipb), (need (C x).length : Int) := by
    unfold total
    push_cast
    rfl
  rw [length_append] at hsum
  omega

theorem Built.tooBig (h : Built C s) (hi : i < ninodeblocks * ipb) (hlacks : Lacks i p C s) : TooBig (app C i p) := by
  rcases hlacks with hlen | hroom
  · refine .inl ⟨i, ?_⟩
    rw [app_self, length_append]
    exact hlen
  · have htotal := total_app (C := C) (p := p) hi
    have hused := h.used
    exact .inr (by omega)

theorem typeOf_ne {n i : Nat} : typeOf n i ≠ 0 ↔ 1 ≤ i ∧ i < n := by
  unfold typeOf tDir tFile
  split
  next h => simp [h]; split <;> decide
  next h => simp [h]

theorem iappend_built (h : Built C s) (h1 : 1 ≤ i) (hi : i < s.freeinode) :
    Sat (iappend i p) s (fun _ t => Built (app C i p) t ∧ t.freeinode = s.freeinode) fun _ => TooBig (app C i p) := by
  have hlt : i < ninodeblocks * ipb := lt_of_lt_of_le hi h.inodes
  have htype : (s.dinode i).type ≠ 0 := by
    rw [h.types, typeOf_ne]
    exact ⟨h1, hi⟩
  unfold iappend
  rw [sat_bind, sat_rinode h.blocks.area.length hlt, sat_bind, h.size]
  refine (iappendLoop_spec p.length le_rfl h.blocks h.holds htype).mono (fun r t ⟨hoff, E', hE', happ⟩ => ?_)
    fun _ hbad => h.tooBig hlt hbad
  obtain ⟨din, off⟩ := r
  obtain rfl : E' i = din := hE'
  obtain rfl : off = (C i).length + p.length := hoff
  have hdi : t.dinode = s.dinode := dinode_congr happ.low
  have hfits : Fits { E' i with size := (C i).length + p.length } := by
    obtain ⟨a, ha, hrest⟩ := happ.fields
    have hold : Fits (s.dinode i) := fits_dinode i
    have hsmall := happ.blocks.small i
    rw [app_self, length_append] at hsmall
    have hnew : (E' i).type ≠ 0 := by rwa [ha]
    refine ⟨?_, ?_, ?_, ?_, ?_, fun k hk => ?_, fun k hk => ?_⟩
    · rw [ha]
      exact hold.type
    · rw [ha]
      exact hold.major
    · rw [ha]
      exact hold.minor
    · rw [ha]
      exact hold.nlink
    · show (C i).length + p.length < 2 ^ 32
      have hmax : maxfile * bsize < 2 ^ 32 := by decide
      omega
    · show (E' i).addrs k < 2 ^ 32
      have hhi := happ.blocks.hi
      have hslot : slot t.sect (E' i) k = (E' i).addrs k := slot_le hnew hk
      rw [← hslot]
      by_cases h0 : slots E' t.sect (i, k) = 0
      · rw [show slot t.sect (E' i) k = 0 from h0]
        decide
      · have hlt' : slot t.sect (E' i) k < t.freeblock := happ.blocks.area.slot_lt h0
        unfold fssize at hhi
        omega
    · rw [ha]
      exact (hrest k hk).trans (hold.rest k hk)
  dsimp only
  rw [sat_winode happ.blocks.area.length hlt]
  have hsect : ∀ d b, nmeta ≤ b → (t.putInode i d).sect b = t.sect b := fun d b hb => sect_putInode hlt (.inl hb)
  have hE : (t.putInode i { E' i with size := (C i).length + p.length }).dinode =
      update E' i { E' i with size := (C i).length + p.length } := by
    rw [dinode_putInode hlt hfits, hdi]
    funext j
    by_cases hj : j = i
    · rw [hj, update_self, update_self]
    · rw [update_of_ne hj, update_of_ne hj, happ.others j hj]
  have hslots : slots (t.putInode i { E' i with size := (C i).length + p.length }).dinode
      (t.putInode i { E' i with size := (C i).length + p.length }).sect = slots E' t.sect := by
    rw [hE, slots_resize]
    exact happ.blocks.area.slots_sect (hsect _)
  have htypes : ∀ j, ((t.putInode i { E' i with size := (C i).length + p.length }).dinode j).type = (E' j).type := by
    intro j
    rw [hE]
    by_cases hj : j = i
    · rw [hj, update_self]
    · rw [update_of_ne hj]
  refine ⟨⟨happ.blocks.congr hslots (fun j ht => .inl (by rwa [← htypes])) (fun j ht => by rwa [← htypes]) rfl rfl
    (hsect _), happ.holds.congr happ.blocks hslots (hsect _), fun j => ?_, fun j => ?_, ?_, ?_, ?_⟩, happ.freeinode⟩
  · rw [hE]
    by_cases hj : j = i
    · rw [hj, update_self, app_self, length_append]
    · rw [update_of_ne hj, app_of_ne hj, happ.others j hj, h.size]
  · rw [htypes]
    show _ = typeOf t.freeinode j
    rw [happ.freeinode, ← h.types]
    by_cases hj : j = i
    · obtain ⟨a, ha, -⟩ := happ.fields
      rw [hj, ha]
    · rw [happ.others j hj]
  · rw [sect_putInode hlt (.inr rfl), happ.low 1 (by decide)]
    exact h.super
  · have htotal := total_app (C := C) (p := p) hlt
    have hcount := happ.count
    have hused := h.used
    show t.freeblock = _
    omega
  · show t.freeinode ≤ _
    rw [happ.freeinode]
    exact h.inodes

theorem slot_newInode {data : Nat → ByteStore} {type k : Nat} : slot data (newInode type) k = 0 := by
  unfold slot newInode
  simp

theorem ialloc_built {type : Nat} (h : Built C s) (h1 : 1 ≤ s.freeinode) (hlt : s.freeinode < ninodeblocks * ipb)
    (htype : type = if s.freeinode = rootino then tDir else tFile) :
    Sat (ialloc type) s (fun r t => r = s.freeinode ∧ Built C t ∧ t.freeinode = s.freeinode + 1) fun _ => False := by
  have hu : u32 (s.freeinode + 1) = s.freeinode + 1 := by
    have harea : ninodeblocks * ipb = 208 := rfl
    exact Nat.mod_eq_of_lt (by omega)
  have hne : type ≠ 0 := by
    rw [htype]
    split <;> decide
  have hfits : Fits (newInode type) := by
    have hlt : type < 2 ^ 16 := by
      rw [htype]
      split <;> decide
    exact ⟨hlt, show toShort (short 0) = 0 by decide, show toShort (short 0) = 0 by decide,
      show toShort (short 1) = 1 by decide, show 0 < 2 ^ 32 by decide, fun _ _ => show 0 < 2 ^ 32 by decide,
      fun _ _ => rfl⟩
  have hold : (s.dinode s.freeinode).type = 0 := by
    rw [h.types]
    exact if_neg (by omega)
  have hempty : (C s.freeinode).length = 0 := h.blocks.free _ hold
  unfold ialloc
  rw [sat_bind, sat_get, sat_bind, sat_modify, hu, sat_bind,
    sat_winode (s := { s with freeinode := s.freeinode + 1 }) h.blocks.area.length hlt, sat_pure]
  generalize ht : State.putInode { s with freeinode := s.freeinode + 1 } s.freeinode (newInode type) = t
  have hsect : ∀ b, nmeta ≤ b ∨ b = 1 → t.sect b = s.sect b := fun b hb => by
    rw [← ht]
    exact sect_putInode hlt hb
  have hE : t.dinode = update s.dinode s.freeinode (newInode type) := by
    rw [← ht, dinode_putInode hlt hfits]
    rfl
  have hnone : ∀ k, slots s.dinode s.sect (s.freeinode, k) = 0 := fun k => if_pos hold
  have hslots : slots t.dinode t.sect = slots s.dinode s.sect := by
    rw [← h.blocks.area.slots_sect fun b hb => hsect b (.inl hb), hE]
    funext q
    unfold slots
    by_cases hq : q.1 = s.freeinode
    · rw [hq, update_self, slot_newInode]
      exact (if_pos hold).symm
    · rw [update_of_ne hq]
  have hfreeinode : t.freeinode = s.freeinode + 1 := by rw [← ht]; rfl
  have hlength : t.length = s.length := by rw [← ht]; rfl
  have hfreeblock : t.freeblock = s.freeblock := by rw [← ht]; rfl
  refine ⟨rfl, ⟨h.blocks.congr hslots (fun i hi => ?_) (fun i hi => ?_) hlength hfreeblock
    fun b hb => hsect b (.inl hb), h.holds.congr h.blocks hslots fun b hb => hsect b (.inl hb), fun i => ?_,
    fun i => ?_, (hsect 1 (.inr rfl)).trans h.super, hfreeblock.trans h.used, ?_⟩, hfreeinode⟩
  · by_cases hn : i = s.freeinode
    · rw [hn]
      exact .inr ⟨hempty, hnone⟩
    · rw [hE, update_of_ne hn] at hi
      exact .inl hi
  · by_cases hn : i = s.freeinode
    · rwa [hn]
    · rwa [hE, update_of_ne hn] at hi
  · rw [hE]
    by_cases hn : i = s.freeinode
    · rw [hn, update_self, hempty]
      rfl
    · rw [update_of_ne hn, h.size]
  · rw [hE, hfreeinode]
    by_cases hn : i = s.freeinode
    · rw [hn, update_self]
      unfold typeOf
      rw [if_pos ⟨h1, Nat.lt_succ_self _⟩]
      exact htype
    · rw [update_of_ne hn, h.types]
      unfold typeOf
      exact if_congr (by omega) rfl rfl
  · rw [hfreeinode]
    exact hlt

/-! ### The files -/

theorem app_append_le (C : Nat → List UInt8) (i : Nat) (p q : List UInt8) (j : Nat) :
    (app C i p j).length ≤ (app C i (p ++ q) j).length := by
  rw [← app_app]
  exact length_le_app _ _ _ _

theorem chunks_built {cs : List Chunk} (h : Built C s) (h1 : 1 ≤ i) (hi : i < s.freeinode) :
    Sat (cs.forM fun c => iappend i c.bytes) s
      (fun _ t => Built (app C i (cs.map (·.bytes)).flatten) t ∧ t.freeinode = s.freeinode)
      fun _ => TooBig (app C i (cs.map (·.bytes)).flatten) := by
  induction cs generalizing C s with
  | nil =>
    rw [map_nil, flatten_nil, app_nil]
    exact ⟨h, rfl⟩
  | cons c cs ih =>
    rw [forM_eq_forM, forM_cons, sat_bind, map_cons, flatten_cons]
    refine (iappend_built h h1 hi).mono (fun _ t ⟨ht, hti⟩ => ?_) fun _ hbad => hbad.mono (app_append_le _ _ _ _)
    have hrest := ih ht (by rwa [hti])
    rw [app_app] at hrest
    exact hrest.imp fun _ u ⟨hu, hui⟩ => ⟨hu, hui.trans hti⟩

/-- An entry of the root directory. -/
def entry (inum : Nat) (name : Name) : List UInt8 := Dirent.toBytes ⟨inum, strncpy name⟩

/-- The contents of the files after file `n` has been added. -/
def withFile (C : Nat → List UInt8) (n : Nat) (f : InFile) : Nat → List UInt8 :=
  app (app C rootino (entry n f.name)) n f.content

theorem addFile_built {f : InFile} (h : Built C s) (h1 : rootino < s.freeinode)
    (hlt : s.freeinode < ninodeblocks * ipb) :
    Sat (addFile f) s (fun _ t => Built (withFile C s.freeinode f) t ∧ t.freeinode = s.freeinode + 1)
      fun _ => slash ∈ f.shortname ∨ f.reads = none ∨ TooBig (withFile C s.freeinode f) := by
  unfold rootino at h1
  unfold addFile
  rw [sat_ite]
  refine ⟨fun hslash => .inl hslash, fun _ => ?_⟩
  cases hreads : f.reads with
  | none => exact .inr (.inl rfl)
  | some cs =>
    have hcontent : f.content = (cs.map (·.bytes)).flatten := by
      unfold InFile.content
      rw [hreads]
      rfl
    dsimp only
    rw [sat_bind]
    refine (ialloc_built h (by omega) hlt (if_neg (by unfold rootino; omega)).symm).mono
      (fun r t ⟨hr, ht, hti⟩ => ?_) fun _ => False.elim
    subst hr
    unfold appendEntry
    rw [sat_bind]
    refine (iappend_built ht le_rfl (by omega)).mono (fun _ u ⟨hu, hui⟩ => ?_) fun _ hbad =>
      .inr (.inr (hbad.mono (length_le_app _ _ _)))
    have hrest : Sat (cs.forM fun c => iappend s.freeinode c.bytes) u _ _ := chunks_built hu (by omega) (by omega)
    rw [← hcontent] at hrest
    exact hrest.mono (fun _ w ⟨hw, hwi⟩ => ⟨hw, hwi.trans (hui.trans hti)⟩) fun _ hbad => .inr (.inr hbad)

/-- The contents of the files after the files `fs` have been added, the first of them as inode `n`. -/
def withFiles (C : Nat → List UInt8) : Nat → List InFile → Nat → List UInt8
  | _, [] => C
  | n, f :: fs => withFiles (withFile C n f) (n + 1) fs

theorem length_le_withFiles (fs : List InFile) (C : Nat → List UInt8) (n i : Nat) :
    (C i).length ≤ (withFiles C n fs i).length := by
  induction fs generalizing C n with
  | nil => rfl
  | cons f fs ih =>
    calc (C i).length ≤ (app C rootino (entry n f.name) i).length := length_le_app _ _ _ _
      _ ≤ (withFile C n f i).length := length_le_app _ _ _ _
      _ ≤ (withFiles (withFile C n f) (n + 1) fs i).length := ih _ _

/-- Why the program may end early. -/
def Fails (fs : List InFile) (C : Nat → List UInt8) : Prop :=
  (∃ f ∈ fs, slash ∈ f.shortname ∨ f.reads = none) ∨ TooBig C

theorem files_built {fs : List InFile} (h : Built C s) (h1 : rootino < s.freeinode)
    (hlt : s.freeinode + fs.length ≤ ninodeblocks * ipb) :
    Sat (fs.forM addFile) s
      (fun _ t => Built (withFiles C s.freeinode fs) t ∧ t.freeinode = s.freeinode + fs.length)
      fun _ => Fails fs (withFiles C s.freeinode fs) := by
  induction fs generalizing C s with
  | nil => exact ⟨h, rfl⟩
  | cons f fs ih =>
    rw [length_cons] at hlt
    rw [forM_eq_forM, forM_cons, sat_bind]
    refine (addFile_built h h1 (by omega)).mono (fun _ t ⟨ht, hti⟩ => ?_) fun _ hbad => ?_
    · have hrest := ih ht (by omega) (by omega)
      rw [hti] at hrest
      refine hrest.mono (fun _ u ⟨hu, hui⟩ => ⟨hu, ?_⟩) fun _ hbad => ?_
      · rw [hui, length_cons]
        omega
      · rcases hbad with ⟨g, hg, hbad⟩ | hbad
        · exact .inl ⟨g, mem_cons_of_mem _ hg, hbad⟩
        · exact .inr hbad
    · rcases hbad with hbad | hbad | hbad
      · exact .inl ⟨f, mem_cons_self .., .inl hbad⟩
      · exact .inl ⟨f, mem_cons_self .., .inr hbad⟩
      · exact .inr (hbad.mono (length_le_withFiles _ _ _))

/-! ### main -/

theorem one_lt_fssize : 1 < fssize := by decide

theorem wipe_spec (hn : n ≤ fssize) : Sat ((List.range n).forM fun i => wsect i zeroes) start
    (fun _ t => t = ⟨fun _ => zeroes, n, 1, nmeta⟩) fun _ => False := by
  refine sat_forM_range (I := fun i t => t = (⟨fun _ => zeroes, i, 1, nmeta⟩ : State)) rfl fun i hi t ht => ?_
  subst ht
  unfold wsect
  rw [sat_modify, sector_of_lt (by omega), max_eq_right (Nat.le_succ i)]
  congr 1
  exact update_eq_self i fun _ => zeroes

section

-- the loop over the sectors is not to be run
attribute [local irreducible] fssize

theorem writeMeta_spec :
    Sat writeMeta start (fun _ t => t = ⟨update (fun _ => zeroes) 1 sbBlock, fssize, 1, nmeta⟩)
      fun _ => False := by
  unfold writeMeta
  apply (wipe_spec le_rfl).bind
  intro _ t ht
  subst ht
  exact (sat_wsect rfl one_lt_fssize).mpr rfl

end

theorem blank_built : Built (fun _ => []) ⟨update (fun _ => zeroes) 1 sbBlock, fssize, 1, nmeta⟩ := by
  generalize hs : (⟨update (fun _ => zeroes) 1 sbBlock, fssize, 1, nmeta⟩ : State) = s
  have hsect : ∀ b, b ≠ 1 → s.sect b = zeroes := fun b hb => by
    rw [← hs]
    exact update_of_ne hb sbBlock fun _ => zeroes
  have hld : ∀ a k, zeroes.ld a k = 0 := fun a k => by
    have h := ByteStore.ld_fill_zero (m := zeroes) (a := a) (n := k) (b := a) (k := k) le_rfl le_rfl
    rw [← h]
    apply ByteStore.ld_congr
    intro i _
    unfold ByteStore.fill zeroes
    split <;> rfl
  have hdinode : ∀ i, (s.dinode i).type = 0 ∧ (s.dinode i).size = 0 := fun i => by
    unfold State.dinode
    split
    next hi =>
      rw [hsect _ (iblock_lt hi).2.2]
      exact ⟨hld _ _, hld _ _⟩
    next => exact ⟨rfl, rfl⟩
  have hslots : ∀ q, slots s.dinode s.sect q = 0 := fun q => if_pos (hdinode q.1).1
  have hfree : s.freeblock = nmeta := by rw [← hs]
  have htotal : total (fun _ => []) = 0 := Finset.sum_eq_zero fun _ _ => show need 0 = 0 by decide
  refine ⟨⟨⟨by rw [← hs], hfree.ge, ⟨fun b hb => ?_, fun q _ _ hne => absurd (hslots q) hne,
    fun q hne => absurd (hslots q) hne, fun b hb => ?_⟩, fun b hb => hsect b ?_⟩, ?_,
    fun i _ ht => absurd (hdinode i).1 ht, fun _ => Nat.zero_le _, fun _ _ => rfl⟩, fun _ _ hx => absurd hx (Nat.not_lt_zero _),
    fun i => (hdinode i).2, fun i => ?_, ?_, ?_, ?_⟩
  · have hmeta : nmeta = 46 := rfl
    omega
  · refine ⟨fun hm => ?_, fun ⟨q, hq⟩ => ?_⟩
    · have hlt := of_decide_eq_true hm
      omega
    · have hmeta : nmeta = 46 := rfl
      rw [hslots] at hq
      omega
  · have hmeta : nmeta = 46 := rfl
    omega
  · rw [hfree]
    decide
  · rw [(hdinode i).1, ← hs]
    exact (if_neg (by dsimp only; omega)).symm
  · rw [← hs]
    exact update_self 1 sbBlock fun _ => zeroes
  · rw [hfree, htotal, Nat.add_zero]
  · rw [← hs]
    decide

/-- The root directory with its first two entries. -/
def rootOnly : Nat → List UInt8 := app (app (fun _ => []) rootino (entry rootino dot)) rootino (entry rootino dotdot)

theorem makeRoot_built (h : Built (fun _ => []) s) (hi : s.freeinode = 1) :
    Sat makeRoot s (fun _ t => Built rootOnly t ∧ t.freeinode = 2) fun _ => TooBig rootOnly := by
  unfold makeRoot
  rw [sat_bind]
  refine (ialloc_built h hi.ge (by rw [hi]; decide) (by rw [hi]; rfl)).mono (fun r t ⟨hr, ht, hti⟩ => ?_)
    fun _ => False.elim
  rw [hi] at hr hti
  subst hr
  rw [if_neg (by decide)]
  unfold appendEntry
  rw [sat_bind]
  refine (iappend_built ht le_rfl (by omega)).mono (fun _ u ⟨hu, hui⟩ => ?_) fun _ hbad =>
    hbad.mono (length_le_app _ _ _)
  exact (iappend_built hu le_rfl (by omega)).imp fun _ w ⟨hw, hwi⟩ => ⟨hw, by omega⟩

/-- The contents of all files. -/
def contents (fs : List InFile) : Nat → List UInt8 := withFiles rootOnly 2 fs

/-- The size that the root directory gets. -/
def roundUp (n : Nat) : Nat := (n / bsize + 1) * bsize

/-- The image at the end: the files, the size of the root directory and the free map. -/
structure Made (fs : List InFile) (s : State) : Prop where
  blocks : Blocks (fun i => (contents fs i).length) s.dinode s
  holds : Holds (contents fs) s.dinode s
  size : ∀ i, (s.dinode i).size = if i = rootino then roundUp (contents fs i).length else (contents fs i).length
  types : ∀ i, (s.dinode i).type = typeOf s.freeinode i
  super : s.sect 1 = sbBlock
  map : s.sect sb.bmapstart = bitmapBlock s.freeblock
  freeinode : s.freeinode = fs.length + 2

theorem Fails.of_rootOnly {fs : List InFile} (h : TooBig rootOnly) : Fails fs (contents fs) :=
  .inr (h.mono (length_le_withFiles _ _ _))

theorem finish_made {fs : List InFile} (h : Built (contents fs) s) (hi : s.freeinode = fs.length + 2) :
    Sat (do fixRoot; balloc (← get).freeblock) s (fun _ t => Made fs t) fun _ => False := by
  have hroot : rootino < ninodeblocks * ipb := by decide
  have hhi := h.blocks.hi
  have hfits : Fits { s.dinode rootino with size := roundUp (contents fs rootino).length } := by
    have hold : Fits (s.dinode rootino) := fits_dinode rootino
    have hsmall := h.blocks.small rootino
    refine ⟨hold.type, hold.major, hold.minor, hold.nlink, ?_, hold.addrs, hold.rest⟩
    show (_ / bsize + 1) * bsize < 2 ^ 32
    have hmax : maxfile * bsize = 274432 := rfl
    unfold bsize
    omega
  unfold fixRoot
  rw [sat_bind, sat_bind, sat_rinode h.blocks.area.length hroot, h.size]
  show Sat (winode rootino { s.dinode rootino with size := roundUp (contents fs rootino).length }) s _ _
  rw [sat_winode h.blocks.area.length hroot, sat_bind, sat_get]
  generalize ht : s.putInode rootino { s.dinode rootino with size := roundUp (contents fs rootino).length } = t
  have hE : t.dinode = update s.dinode rootino
      { s.dinode rootino with size := roundUp (contents fs rootino).length } := by
    rw [← ht]
    exact dinode_putInode hroot hfits
  have hsect : ∀ b, nmeta ≤ b ∨ b = 1 → t.sect b = s.sect b := fun b hb => by
    rw [← ht]
    exact sect_putInode hroot hb
  have hlength : t.length = fssize := by
    rw [← ht]
    exact h.blocks.area.length
  have hfreeblock : t.freeblock = s.freeblock := by rw [← ht]; rfl
  have hfreeinode : t.freeinode = s.freeinode := by rw [← ht]; rfl
  unfold balloc
  rw [if_pos (by unfold fssize at hhi; unfold bsize; omega), sat_wsect hlength (by decide)]
  generalize hu : t.put sb.bmapstart (bitmapBlock t.freeblock) = u
  have husect : ∀ b, b ≠ sb.bmapstart → u.sect b = t.sect b := fun b hb => by
    rw [← hu]
    exact update_of_ne hb ..
  have hmap : u.sect sb.bmapstart = bitmapBlock t.freeblock := by
    rw [← hu]
    exact update_self sb.bmapstart _ t.sect
  have hufree : u.freeblock = t.freeblock := by rw [← hu]; rfl
  have huinode : u.freeinode = t.freeinode := by rw [← hu]; rfl
  have hulen : u.length = t.length := by rw [← hu]; rfl
  have hbm : sb.bmapstart = 45 := rfl
  have hmeta : nmeta = 46 := rfl
  have hdi : u.dinode = t.dinode := by
    funext i
    unfold State.dinode
    split
    next hlt =>
      rw [husect]
      unfold Superblock.iblock
      have harea : ninodeblocks * ipb = 208 := rfl
      have hstart : sb.inodestart = 32 := rfl
      unfold ipb
      omega
    next => rfl
  have hall : ∀ b, nmeta ≤ b → u.sect b = s.sect b := fun b hb =>
    (husect b (by omega)).trans (hsect b (.inl hb))
  have hslots : slots u.dinode u.sect = slots s.dinode s.sect := by
    rw [hdi, hE, slots_resize]
    exact h.blocks.area.slots_sect hall
  have htypes : ∀ j, (u.dinode j).type = (s.dinode j).type := by
    intro j
    rw [hdi, hE]
    by_cases hj : j = rootino
    · rw [hj, update_self]
    · rw [update_of_ne hj]
  refine ⟨h.blocks.congr hslots (fun j hj => .inl (by rwa [← htypes])) (fun j hj => by rwa [← htypes])
    (hulen.trans (hlength.trans h.blocks.area.length.symm)) (hufree.trans hfreeblock) hall,
    h.holds.congr h.blocks hslots hall, fun j => ?_, fun j => ?_, ?_, ?_, ?_⟩
  · rw [hdi, hE]
    by_cases hj : j = rootino
    · rw [hj, update_self, if_pos rfl]
    · rw [update_of_ne hj, if_neg hj, h.size]
  · rw [htypes, huinode, hfreeinode, h.types]
  · rw [husect 1 (by decide), hsect 1 (.inr rfl)]
    exact h.super
  · rw [hmap, hufree]
  · rw [huinode, hfreeinode, hi]

section

attribute [local irreducible] fssize

/-- **What `mkfs` makes of its arguments**, if their inodes fit in the inode area. -/
theorem main_made {args : Args} (hlt : args.files.length + 2 ≤ ninodeblocks * ipb) :
    Sat (main args) start (fun _ t => Made args.files t) fun _ => Fails args.files (contents args.files) := by
  unfold main
  rw [sat_bind]
  refine writeMeta_spec.mono (fun _ s hs => ?_) fun _ => False.elim
  subst hs
  refine ((makeRoot_built blank_built rfl).err fun hbad => .of_rootOnly hbad).bind fun _ s ⟨hs, hsi⟩ => ?_
  rw [sat_bind]
  have hfiles : Sat (args.files.forM addFile) s _ _ := files_built hs (by rw [hsi]; decide) (by omega)
  rw [hsi] at hfiles
  refine hfiles.imp fun _ t ⟨ht, hti⟩ => ?_
  exact (finish_made ht (by omega)).mono (fun _ _ hu => hu) fun _ => False.elim

end

end Xv6Armv8.Mkfs
