
import Xv6Armv8.FsCalls
import Xv6Armv8.FsContent

/-! What a call holds while it runs. Between calls the references to an entry of the inode table come from
open files and current directories; a call in progress has references of its own, and locks on some of these.
Every operation is followed with the exact references and locks it takes and gives back, on every path. Under
the assumption that the disk was consistent the same steps keep it so. -/

namespace Xv6Armv8.Fs

open Spec Alloc FileTable Function Multiset Finset

/-- What stays the same while a call looks at inodes: the references that files and directories have, and
whether the disk is known to be consistent. -/
structure Ctx where
  disk : Prop
  base : Nat → Int
  nonneg : ∀ k, 0 ≤ base k
  ftable : Ftable
  proc : Nat → Proc

/-- The call has a reference to the entry, or a file or a directory has. -/
def Held (c : Ctx) (T : Multiset Nat) (k : Nat) : Prop := k ∈ T ∨ 0 < c.base k

/-- The call has the references `T` and the locks `L`. -/
structure Ok (c : Ctx) (T : Multiset Nat) (L : Finset Nat) (s : State) : Prop where
  ftable : s.ftable = c.ftable
  proc : s.proc = c.proc
  refs : ∀ k, (s.itable k).ref = c.base k + T.count k
  out : ∀ k, ninode ≤ k → (s.itable k).ref = 0
  uniq : ∀ j k, 0 < (s.itable j).ref → 0 < (s.itable k).ref → (s.itable j).dev = (s.itable k).dev →
    (s.itable j).inum = (s.itable k).inum → j = k
  sub : ∀ k, k ∈ L → Held c T k
  locks : ∀ k, (s.itable k).locked = true ↔ k ∈ L
  valid : ∀ k, k ∈ L → (s.itable k).valid = true
  disk : c.disk → Disk s.dinode s

/-- The number of entries that files and directories refer to. -/
def Ctx.used (c : Ctx) : Nat := ((Finset.range ninode).filter fun k => c.base k ≠ 0).card

/-- If the table is full, there are not `n` entries besides those of files and directories. -/
def Full (c : Ctx) (n : Nat) (e : String) : Prop := e = noInodes → ninode ≤ c.used + n

variable {c : Ctx} {T : Multiset Nat} {L : Finset Nat} {s t : State} {k j dp ip n m : Nat}

theorem Low.full {e : String} (h : Low e) : Full c n e := fun he => absurd he h

theorem Full.mono {e : String} (h : Full c n e) (hnm : n ≤ m) : Full c m e := fun he => (h he).trans (by omega)

theorem Held.cons (h : Held c T k) (j : Nat) : Held c (j ::ₘ T) k := h.imp (Multiset.mem_cons_of_mem ·) id

theorem Ok.ref_pos (h : Ok c T L s) (hk : Held c T k) : 0 < (s.itable k).ref := by
  have hbase := c.nonneg k
  rw [h.refs]
  rcases hk with hk | hk
  · have hcount := one_le_count_iff_mem.mpr hk
    omega
  · omega

theorem Ok.live (h : Ok c T L s) (hk : k ∈ L) : Live s k := ⟨h.ref_pos (h.sub k hk), h.valid k hk⟩

theorem Ok.full (h : Ok c T L s) (hall : ∀ k, k < ninode → (s.itable k).ref ≠ 0) : ninode ≤ c.used + T.card := by
  have hsub : Finset.range ninode ⊆ ((Finset.range ninode).filter fun k => c.base k ≠ 0) ∪ T.toFinset := by
    intro k hk
    rw [Finset.mem_union, Finset.mem_filter, mem_toFinset]
    by_cases hT : k ∈ T
    · exact .inr hT
    · refine .inl ⟨hk, fun h0 => hall k (Finset.mem_range.mp hk) ?_⟩
      rw [h.refs, h0, count_eq_zero_of_notMem hT]
      rfl
  calc ninode = (Finset.range ninode).card := (Finset.card_range _).symm
    _ ≤ _ := Finset.card_le_card hsub
    _ ≤ c.used + T.toFinset.card := card_union_le _ _
    _ ≤ c.used + T.card := Nat.add_le_add_left (toFinset_card_le T) _

/-! ### Operations on blocks -/

theorem Ok.frame (h : Ok c T L s) (hf : Frame s t) (hd : c.disk → Disk t.dinode t) : Ok c T L t where
  ftable := hf.ftable.trans h.ftable
  proc := hf.proc.trans h.proc
  refs := fun k => (hf.ref k).trans (h.refs k)
  out := fun k hk => (hf.ref k).trans (h.out k hk)
  uniq := fun j k hj hk hdev hinum => by
    rw [hf.ref] at hj hk
    rw [hf.dev, hf.dev] at hdev
    rw [hf.inum, hf.inum] at hinum
    exact h.uniq j k hj hk hdev hinum
  sub := h.sub
  locks := fun k => by
    rw [hf.locked]
    exact h.locks k
  valid := fun k hk => (hf.valid k).trans (h.valid k hk)
  disk := hd

theorem Ok.low {α : Type} {x : FsM α} (h : Ok c T L s) (hx : Keeps Frame Low x)
    (hd : Disk s.dinode s → Sat x s (fun _ t => Disk t.dinode t) fun _ => True) :
    Sat x s (fun _ t => Ok c T L t) Low :=
  ((hx s).when fun hP => hd (h.disk hP)).imp fun _ _ ht => h.frame ht.1 ht.2

variable {dev inum off p type : Nat} {f : Dinode → Dinode} {name : Name}

section

variable (h : Ok c T L s) (hk : k ∈ L)
include h hk

theorem readi_ok {dst : Nat → Bool} {n : Nat} :
    Sat (readi k dst off n) s (fun _ t => Ok c T L t) Low := by
  refine h.low readi_frame fun hd => (readi_spec hd (h.live hk)).mono ?_ fun _ _ => trivial
  rintro _ t ⟨rfl, -⟩
  exact hd

theorem readDirent_ok {msg : String} (hmsg : Low msg) :
    Sat (readDirent k off msg) s (fun _ t => Ok c T L t) Low := by
  unfold readDirent
  refine (readi_ok h hk).bind fun r t ht => ?_
  rw [sat_ite]
  exact ⟨fun _ => ht, fun _ => hmsg⟩

theorem writei_ok {src : Nat → Option UInt8} {n : Nat} :
    Sat (writei k src off n) s (fun _ t => Ok c T L t) Low := by
  refine h.low writei_frame fun hd => (writei_spec hd (h.live hk)).mono ?_ fun _ _ => trivial
  rintro _ t (⟨-, rfl⟩ | ⟨m, -, hw⟩)
  · exact hd
  · exact hw.disk

theorem itrunc_ok : Sat (itrunc k) s (fun _ t => Ok c T L t) Low :=
  h.low itrunc_frame fun hd => (itrunc_spec hd (h.live hk)).mono (fun _ _ ht => ht.disk) fun _ _ => trivial

end

/-- The fields that `create`, `link` and `unlink` change say nothing about blocks. -/
def KeepsBlocks (f : Dinode → Dinode) : Prop := ∀ d, (f d).addrs = d.addrs ∧ (f d).type = d.type ∧ (f d).size = d.size

theorem update_disk (hf : KeepsBlocks f) (hd : Disk s.dinode s) (hk : Live s k) :
    Sat (do setFields k f; iupdate k) s (fun _ t => Disk t.dinode t) fun _ => True := by
  obtain ⟨ha, ht, hsz⟩ := hf (s.itable k).d
  have heff := hd.eff_eq hk
  obtain ⟨hsync, htype⟩ := hd.sync k hk.1 hk.2
  rw [sat_bind, sat_setFields]
  refine iupdate_spec.mono (fun _ u hu => ?_) fun _ _ => trivial
  obtain ⟨l, rfl⟩ := hu
  refine (Disk.fields (by rwa [heff]) hk ha ht ?_ fun x hx => ?_).1.flushed
  · rw [hsz, hsync]
    exact hd.small _ htype
  · rw [hsz, hsync] at hx
    unfold State.slotsAt
    rw [heff]
    exact hd.filled _ _ htype hx

theorem update_ok (hf : KeepsBlocks f) (h : Ok c T L s) (hk : k ∈ L) :
    Sat (do setFields k f; iupdate k) s (fun _ t => Ok c T L t) Low :=
  h.low (.bind setFields_frame fun _ => iupdate_frame) fun hd => update_disk hf hd (h.live hk)

/-! ### iget -/

theorem count_cons (k j : Nat) (T : Multiset Nat) : ((k ::ₘ T).count j : Int) = T.count j + if j = k then 1 else 0 := by
  rw [Multiset.count_cons]
  split <;> simp

theorem inode_self {f : Inode → Inode} : ((s.inode k f).itable k) = f (s.itable k) := update_self ..

theorem inode_of_ne {f : Inode → Inode} (h : j ≠ k) : ((s.inode k f).itable j) = s.itable j :=
  update_of_ne h ..

theorem Disk.revise (h : Disk s.dinode s) (hsb : t.sb = s.sb) (hmap : t.bitmap = s.bitmap)
    (hslots : slots t.dinode t.data = slots s.dinode s.data)
    (hnode : ∀ i, (t.dinode i).type ≠ 0 → (t.dinode i).size = 0 ∨ t.dinode i = s.dinode i)
    (htab : ∀ j, 0 < (t.itable j).ref → 0 < (s.itable j).ref ∧ (t.itable j).dev = (s.itable j).dev ∧
      (t.itable j).inum = (s.itable j).inum ∧ ((t.itable j).valid = true →
        (t.itable j).d = t.dinode (s.itable j).inum ∧ (t.dinode (s.itable j).inum).type ≠ 0)) : Disk t.dinode t := by
  refine ⟨hsb ▸ h.size_lt, ?_, ?_, fun i hi => ?_, fun i n hi hn => ?_, fun j hj => ?_, fun i j hi hj heq => ?_,
    fun j hj hv => ?_⟩
  · rw [hslots, hmap, hsb]
    exact h.owns
  · rw [hsb, hmap]
    exact h.reserved
  · rcases hnode i hi with h0 | heq
    · rw [h0]
      exact Nat.zero_le _
    · rw [heq] at hi ⊢
      exact h.small i hi
  · rcases hnode i hi with h0 | heq
    · rw [h0] at hn
      exact absurd hn (Nat.not_lt_zero _)
    · rw [heq] at hi hn
      rw [hslots]
      exact h.filled i n hi hn
  · obtain ⟨h1, h2, -, -⟩ := htab j hj
    rw [h2]
    exact h.dev j h1
  · obtain ⟨h1, -, h2, -⟩ := htab i hi
    obtain ⟨h1', -, h2', -⟩ := htab j hj
    rw [h2, h2'] at heq
    exact h.uniq i j h1 h1' heq
  · obtain ⟨-, -, h2, h3⟩ := htab j hj
    rw [h2]
    exact h3 hv

theorem Ok.entries {T' : Multiset Nat} {L' : Finset Nat} (h : Ok c T L s) (hft : t.ftable = s.ftable)
    (hpr : t.proc = s.proc)
    (hkey : ∀ j, (t.itable j).dev = (s.itable j).dev ∧ (t.itable j).inum = (s.itable j).inum)
    (hpos : ∀ j, 0 < (t.itable j).ref → 0 < (s.itable j).ref)
    (hrefs : ∀ j, (t.itable j).ref = c.base j + T'.count j) (hsub : ∀ j, j ∈ L' → Held c T' j)
    (hlocks : ∀ j, (t.itable j).locked = true ↔ j ∈ L') (hvalid : ∀ j, j ∈ L' → (t.itable j).valid = true)
    (hdisk : c.disk → Disk t.dinode t) : Ok c T' L' t := by
  refine ⟨hft.trans h.ftable, hpr.trans h.proc, hrefs, fun j hj => ?_, fun i j hi hj hdev hinum => ?_, hsub, hlocks,
    hvalid, hdisk⟩
  · have hbase := c.nonneg j
    have href := hrefs j
    have hzero := mt (hpos j) (by rw [h.out j hj]; exact lt_irrefl 0)
    omega
  · rw [(hkey i).1, (hkey j).1] at hdev
    rw [(hkey i).2, (hkey j).2] at hinum
    exact h.uniq i j (hpos i hi) (hpos j hj) hdev hinum

theorem Ok.addRef (h : Ok c T L s) (hk : 0 < (s.itable k).ref) :
    Ok c (k ::ₘ T) L (s.inode k fun ip => { ip with ref := ip.ref + 1 }) := by
  have hfield : ∀ j, (s.inode k fun ip => { ip with ref := ip.ref + 1 }).itable j =
      { s.itable j with ref := (s.itable j).ref + if j = k then 1 else 0 } := fun j => by
    by_cases hj : j = k
    · rw [hj, inode_self, if_pos rfl]
    · rw [inode_of_ne hj, if_neg hj, add_zero]
  have hpos : ∀ j, 0 < ((s.inode k fun ip => { ip with ref := ip.ref + 1 }).itable j).ref → 0 < (s.itable j).ref := by
    intro j hj
    by_cases hjk : j = k
    · rwa [hjk]
    · rwa [inode_of_ne hjk] at hj
  refine h.entries rfl rfl (fun j => ?_) hpos (fun j => ?_) (fun j hj => (h.sub j hj).cons k) (fun j => ?_)
    (fun j hj => ?_) fun hP => ?_
  · rw [hfield]
    exact ⟨rfl, rfl⟩
  · rw [hfield, count_cons, ← add_assoc, ← h.refs]
  · rw [hfield]
    exact h.locks j
  · rw [hfield]
    exact h.valid j hj
  · refine (h.disk hP).revise rfl rfl rfl (fun _ _ => .inr rfl) fun j hj => ⟨hpos j hj, ?_⟩
    rw [hfield]
    exact ⟨rfl, rfl, (h.disk hP).sync j (hpos j hj)⟩

/-- The state after an empty entry has been given to the inode `inum`. -/
def State.recycled (s : State) (k dev inum : Nat) : State :=
  s.inode k fun ip => { ip with dev := dev, inum := inum, ref := 1, valid := false }

theorem Ok.recycle (h : Ok c T L s) (hk : k < ninode) (h0 : (s.itable k).ref = 0)
    (hnew : ∀ j, j < ninode → 0 < (s.itable j).ref → (s.itable j).dev = dev → (s.itable j).inum ≠ inum)
    (hdev : c.disk → dev = rootdev) : Ok c (k ::ₘ T) L (s.recycled k dev inum) := by
  have hother : ∀ j, j ≠ k → (s.recycled k dev inum).itable j = s.itable j := fun j hj => inode_of_ne hj
  have hself : (s.recycled k dev inum).itable k =
      { s.itable k with dev := dev, inum := inum, ref := 1, valid := false } := inode_self
  have hkL : k ∉ L := fun hkL => by
    have := h.ref_pos (h.sub k hkL)
    omega
  have hlt : ∀ j, 0 < (s.itable j).ref → j < ninode := fun j hj => by
    by_contra hge
    have := h.out j (not_lt.mp hge)
    omega
  refine ⟨h.ftable, h.proc, fun j => ?_, fun j hj => ?_, fun i j hi hj hd hi' => ?_, fun j hj => ?_, fun j => ?_,
    fun j hj => ?_, fun hP => ?_⟩
  · by_cases hjk : j = k
    · subst hjk
      have := h.refs j
      rw [hself, count_cons, if_pos rfl, ← add_assoc, ← this, h0]
      rfl
    · rw [hother j hjk, count_cons, if_neg hjk, add_zero]
      exact h.refs j
  · rw [hother j (by omega)]
    exact h.out j hj
  · by_cases hik : i = k
    · by_cases hjk : j = k
      · rw [hik, hjk]
      · rw [hother j hjk] at hj hd hi'
        rw [hik, hself] at hd hi'
        exact absurd hi'.symm (hnew j (hlt j hj) hj hd.symm)
    · rw [hother i hik] at hi hd hi'
      by_cases hjk : j = k
      · rw [hjk, hself] at hd hi'
        exact absurd hi' (hnew i (hlt i hi) hi hd)
      · rw [hother j hjk] at hj hd hi'
        exact h.uniq i j hi hj hd hi'
  · exact (h.sub j hj).cons k
  · by_cases hjk : j = k
    · subst hjk
      rw [hself]
      exact h.locks j
    · rw [hother j hjk]
      exact h.locks j
  · rw [hother j fun hjk => hkL (hjk ▸ hj)]
    exact h.valid j hj
  · have hd := h.disk hP
    refine ⟨hd.size_lt, hd.owns, hd.reserved, hd.small, hd.filled, fun j hj => ?_, fun i j hi hj heq => ?_,
      fun j hj hv => ?_⟩
    · by_cases hjk : j = k
      · rw [hjk, hself]
        exact hdev hP
      · rw [hother j hjk] at hj ⊢
        exact hd.dev j hj
    · by_cases hik : i = k
      · by_cases hjk : j = k
        · rw [hik, hjk]
        · rw [hother j hjk] at hj heq
          rw [hik, hself] at heq
          exact absurd heq.symm (hnew j (hlt j hj) hj ((hd.dev j hj).trans (hdev hP).symm))
      · rw [hother i hik] at hi heq
        by_cases hjk : j = k
        · rw [hjk, hself] at heq
          exact absurd heq (hnew i (hlt i hi) hi ((hd.dev i hi).trans (hdev hP).symm))
        · rw [hother j hjk] at hj heq
          exact hd.uniq i j hi hj heq
    · by_cases hjk : j = k
      · rw [hjk, hself] at hv
        cases hv
      · rw [hother j hjk] at hj hv ⊢
        exact hd.sync j hj hv

theorem iget_ok (h : Ok c T L s) (hdev : c.disk → dev = rootdev) :
    Sat (iget dev inum) s (fun k t => Ok c (k ::ₘ T) L t) (Full c T.card) := by
  unfold iget
  rw [sat_bind, sat_get]
  cases hfind : (List.range ninode).find? fun k =>
      0 < (s.itable k).ref ∧ (s.itable k).dev = dev ∧ (s.itable k).inum = inum with
  | some k =>
    have hk : 0 < (s.itable k).ref ∧ (s.itable k).dev = dev ∧ (s.itable k).inum = inum := by
      simpa using List.find?_some hfind
    exact h.addRef hk.1
  | none =>
    have hnew : ∀ j, j < ninode → 0 < (s.itable j).ref → (s.itable j).dev = dev → (s.itable j).inum ≠ inum := by
      intro j hj href hdev hinum
      have hnone := List.find?_eq_none.mp hfind j (List.mem_range.mpr hj)
      simp [href, hdev, hinum] at hnone
    dsimp only
    cases hempty : (List.range ninode).find? fun k => (s.itable k).ref = 0 with
    | none =>
      refine fun _ => h.full fun k hk => ?_
      have hnone := List.find?_eq_none.mp hempty k (List.mem_range.mpr hk)
      simpa using hnone
    | some k =>
      have h0 : (s.itable k).ref = 0 := by simpa using List.find?_some hempty
      have hk : k < ninode := List.mem_range.mp (List.mem_of_find?_eq_some hempty)
      exact h.recycle hk h0 hnew hdev

/-! ### Locks -/

/-- The state after entry `k` has been locked with the fields `d`. -/
def State.lockedWith (s : State) (k : Nat) (d : Dinode) : State :=
  s.inode k fun ip => { ip with locked := true, valid := true, d := d }

theorem Ok.lock {d : Dinode} (h : Ok c T L s) (hk : Held c T k)
    (hd : c.disk → d = s.dinode (s.itable k).inum ∧ d.type ≠ 0) : Ok c T (insert k L) (s.lockedWith k d) := by
  have hother : ∀ j, j ≠ k → (s.lockedWith k d).itable j = s.itable j := fun j hj => inode_of_ne hj
  have hself : (s.lockedWith k d).itable k = { s.itable k with locked := true, valid := true, d := d } := inode_self
  have hfield : ∀ j, ((s.lockedWith k d).itable j).ref = (s.itable j).ref ∧
      ((s.lockedWith k d).itable j).dev = (s.itable j).dev ∧
      ((s.lockedWith k d).itable j).inum = (s.itable j).inum := fun j => by
    by_cases hj : j = k
    · rw [hj, hself]
      exact ⟨rfl, rfl, rfl⟩
    · rw [hother j hj]
      exact ⟨rfl, rfl, rfl⟩
  refine h.entries rfl rfl (fun j => (hfield j).2) (fun j hj => (hfield j).1 ▸ hj)
    (fun j => (hfield j).1.trans (h.refs j)) (fun j hj => ?_) (fun j => ?_) (fun j hj => ?_) fun hP => ?_
  · rcases mem_insert.mp hj with rfl | hj
    · exact hk
    · exact h.sub j hj
  · by_cases hjk : j = k
    · rw [hjk, hself]
      exact iff_of_true rfl (mem_insert_self ..)
    · rw [hother j hjk, h.locks, mem_insert]
      exact (or_iff_right hjk).symm
  · by_cases hjk : j = k
    · rw [hjk, hself]
    · rw [hother j hjk]
      exact h.valid j ((mem_insert.mp hj).resolve_left hjk)
  · obtain ⟨heq, ht⟩ := hd hP
    refine (h.disk hP).revise rfl rfl rfl (fun _ _ => .inr rfl) fun j hj => ?_
    rw [(hfield j).1] at hj
    refine ⟨hj, (hfield j).2.1, (hfield j).2.2, fun hv => ?_⟩
    by_cases hjk : j = k
    · subst hjk
      rw [hself]
      exact ⟨heq, heq ▸ ht⟩
    · rw [hother j hjk] at hv ⊢
      exact (h.disk hP).sync j hj hv

theorem inode_inode {f g : Inode → Inode} : (s.inode k f).inode k g = s.inode k fun ip => g (f ip) := by
  unfold State.inode
  simp only [update_self, update_idem]

theorem ilock_ok (h : Ok c T L s) (hk : Held c T k) :
    Sat (ilock k) s (fun _ t => k ∉ L ∧ Ok c T (insert k L) t) Low := by
  unfold ilock acquiresleep loadInode
  rw [sat_bind, sat_get, sat_ite]
  refine ⟨fun _ => by simp [Low, noInodes], fun _ => ?_⟩
  rw [sat_bind, sat_bind, sat_get, sat_ite]
  refine ⟨fun _ => by simp [Low, noInodes, asleep], fun hfree => ?_⟩
  have hkL : k ∉ L := fun hkL => hfree ((h.locks k).mpr hkL)
  show Sat _ (s.inode k fun ip => { ip with locked := true }) _ _
  rw [sat_bind, sat_get, sat_ite, inode_self]
  refine ⟨fun hv => ?_, fun hv => ?_⟩
  · have heq : (s.inode k fun ip => { ip with locked := true }) = s.lockedWith k (s.itable k).d := by
      have hv' : (s.itable k).valid = true := hv
      unfold State.lockedWith State.inode
      congr 2
      rw [← hv']
    rw [sat_pure, heq]
    refine ⟨hkL, h.lock hk fun hP => ?_⟩
    obtain ⟨hd, ht⟩ := (h.disk hP).sync k (h.ref_pos hk) hv
    exact ⟨hd, by rwa [hd]⟩
  · show Sat (if (s.dinode (s.itable k).inum).type = 0 then _ else _)
      ((s.inode k fun ip => { ip with locked := true }).inode k _) _ _
    rw [inode_inode, sat_ite]
    exact ⟨fun _ => by simp [Low, noInodes], fun ht => ⟨hkL, h.lock hk fun _ => ⟨rfl, ht⟩⟩⟩

theorem Ok.unlock (h : Ok c T L s) : Ok c T (L.erase k) (s.inode k fun ip => { ip with locked := false }) := by
  have hfield : ∀ j, ∃ b, (s.inode k fun ip => { ip with locked := false }).itable j = { s.itable j with locked := b } ∧
      (b = true ↔ j ∈ L.erase k) := fun j => by
    by_cases hj : j = k
    · subst hj
      exact ⟨false, inode_self, by simp⟩
    · exact ⟨_, inode_of_ne hj, by rw [h.locks, mem_erase]; exact (and_iff_right hj).symm⟩
  choose b hb hiff using hfield
  refine h.entries rfl rfl (fun j => ?_) (fun j hj => ?_) (fun j => ?_)
    (fun j hj => h.sub j (Finset.mem_of_mem_erase hj)) (fun j => ?_) (fun j hj => ?_) fun hP => ?_
  · rw [hb]
    exact ⟨rfl, rfl⟩
  · rwa [hb] at hj
  · rw [hb]
    exact h.refs j
  · rw [hb]
    exact hiff j
  · rw [hb]
    exact h.valid j (Finset.mem_of_mem_erase hj)
  · refine (h.disk hP).revise rfl rfl rfl (fun _ _ => .inr rfl) fun j hj => ?_
    rw [hb] at hj ⊢
    exact ⟨hj, rfl, rfl, (h.disk hP).sync j hj⟩

theorem iunlock_ok (h : Ok c T L s) : Sat (iunlock k) s (fun _ t => Ok c T (L.erase k) t) Low := by
  unfold iunlock
  rw [sat_bind, sat_get]
  dsimp only
  rw [sat_ite]
  exact ⟨fun _ => by simp [Low, noInodes], fun _ => h.unlock⟩

/-! ### iput -/

/-- Entry `k` of the table has been given up on the disk. -/
structure Freed (k : Nat) (s t : State) : Prop where
  ftable : t.ftable = s.ftable
  proc : t.proc = s.proc
  self : ∃ d, t.itable k = { s.itable k with locked := false, valid := false, d := d }
  others : ∀ j, j ≠ k → ∃ d, t.itable j = { s.itable j with d := d }

theorem Disk.freed {l : List Nat} (h : Disk s.dinode s) (hk : Live s k)
    (ha : ∀ i, i ≤ ndirect → (s.itable k).d.addrs i = 0) (hf : ∀ d, (f d).type = 0)
    (hdi : t.dinode = ((s.fields k f).flushed k l).dinode) (hsb : t.sb = s.sb) (hdata : t.data = s.data)
    (hmap : t.bitmap = s.bitmap) (hself : (t.itable k).valid = false)
    (hothers : ∀ j, j ≠ k → t.itable j = s.itable j) (hkeep : (t.itable k).ref = (s.itable k).ref ∧
      (t.itable k).dev = (s.itable k).dev ∧ (t.itable k).inum = (s.itable k).inum) : Disk t.dinode t := by
  have hdi' : t.dinode = update s.dinode (s.itable k).inum (f (s.itable k).d) := by
    rw [hdi]
    show (s.fields k f).eff k = _
    rw [eff_fields, h.eff_eq hk]
  obtain ⟨hsync, -⟩ := h.sync k hk.1 hk.2
  have hslots : slots t.dinode t.data = slots s.dinode s.data := by
    funext p
    unfold slots
    rw [hdi', hdata]
    by_cases hp : p.1 = (s.itable k).inum
    · rw [hp, update_self, ← hsync, slot_empty ha]
      exact if_pos (hf _)
    · rw [update_of_ne hp]
  have htype : ∀ i, (t.dinode i).type ≠ 0 → t.dinode i = s.dinode i := fun i hi => by
    by_cases hik : i = (s.itable k).inum
    · rw [hdi', hik, update_self] at hi
      exact absurd (hf _) hi
    · rw [hdi', update_of_ne hik]
  refine h.revise hsb hmap hslots (fun i hi => .inr (htype i hi)) fun j hj => ?_
  by_cases hjk : j = k
  · subst hjk
    exact ⟨hk.1, hkeep.2.1, hkeep.2.2, by rw [hself]; exact nofun⟩
  · rw [hothers j hjk] at hj ⊢
    have hne : (s.itable j).inum ≠ (s.itable k).inum := fun heq => hjk (h.uniq j k hj hk.1 heq)
    rw [hdi', update_of_ne hne]
    exact ⟨hj, rfl, rfl, h.sync j hj⟩

/-- The state after entry `k` has been marked as not read and unlocked. -/
def State.dropped (s : State) (k : Nat) : State :=
  s.inode k fun ip => { ip with valid := false, locked := false }

theorem Frame.freed {u : State} (hl : t = s.inode k fun ip => { ip with locked := true }) (hf : Frame t u) :
    Freed k s (u.dropped k) := by
  subst hl
  refine ⟨hf.ftable, hf.proc, ?_, fun j hj => ?_⟩
  · obtain ⟨d, hd⟩ := hf.table k
    refine ⟨d, ?_⟩
    unfold State.dropped
    rw [inode_self, hd, inode_self]
  · obtain ⟨d, hd⟩ := hf.table j
    refine ⟨d, ?_⟩
    unfold State.dropped
    rw [inode_of_ne hj, hd, inode_of_ne hj]

theorem freeInode_frame : Sat (freeInode k) s (fun _ t => Freed k s t) Low := by
  unfold freeInode acquiresleep releasesleep
  rw [sat_bind, sat_bind, sat_get, sat_ite]
  refine ⟨fun _ => by simp [Low, noInodes, asleep], fun _ => ?_⟩
  show Sat _ (s.inode k fun ip => { ip with locked := true }) _ _
  refine (itrunc_frame _).bind fun _ t ht => ?_
  refine (setFields_frame t).bind fun _ u hu => ?_
  refine (iupdate_frame u).bind fun _ w hw => ?_
  show Freed k s ((w.inode k _).inode k _)
  rw [inode_inode]
  exact Frame.freed rfl (trans_of Frame ht (trans_of Frame hu hw))

theorem Disk.lock (h : Disk s.dinode s) (b : Bool) :
    Disk s.dinode (s.inode k fun ip => { ip with locked := b }) := by
  refine h.revise (t := s.inode k fun ip => { ip with locked := b }) rfl rfl rfl (fun _ _ => .inr rfl) fun j hj => ?_
  by_cases hjk : j = k
  · rw [hjk] at hj ⊢
    rw [inode_self] at hj ⊢
    exact ⟨hj, rfl, rfl, h.sync k hj⟩
  · rw [inode_of_ne hjk] at hj ⊢
    exact ⟨hj, rfl, rfl, h.sync j hj⟩

theorem Live.lock (h : Live s k) (b : Bool) : Live (s.inode k fun ip => { ip with locked := b }) k := by
  unfold Live
  rw [inode_self]
  exact h

theorem freeInode_disk (h : Disk s.dinode s) (hk : Live s k) :
    Sat (freeInode k) s (fun _ t => Disk t.dinode t) fun _ => True := by
  unfold freeInode acquiresleep releasesleep
  rw [sat_bind, sat_bind, sat_get, sat_ite]
  refine ⟨fun _ => trivial, fun _ => ?_⟩
  show Sat _ (s.inode k fun ip => { ip with locked := true }) _ _
  have hd : Disk s.dinode (s.inode k fun ip => { ip with locked := true }) := h.lock true
  have hlive : Live (s.inode k fun ip => { ip with locked := true }) k := hk.lock true
  rw [sat_bind]
  refine (itrunc_spec hd hlive).mono (fun _ t ht => ?_) fun _ _ => trivial
  have htlive : Live t k := hlive.frame ht.frame
  rw [sat_bind, sat_setFields, sat_bind]
  refine iupdate_spec.mono (fun _ u hu => ?_) fun _ _ => trivial
  obtain ⟨l, rfl⟩ := hu
  show Disk (State.inode _ k _).dinode ((State.inode _ k _).inode k _)
  rw [inode_inode]
  obtain ⟨a, hdi, ha⟩ := ht.fields
  have haddrs : ∀ i, i ≤ ndirect → (t.itable k).d.addrs i = 0 := fun i hi => by
    rw [(ht.disk.sync k htlive.1 htlive.2).1, ht.frame.inum k, hdi]
    exact ha i hi
  refine ht.disk.freed (f := fun d => { d with type := 0 }) (l := l) htlive haddrs (fun _ => rfl) rfl rfl rfl rfl ?_
    (fun j hj => ?_) ?_
  · rw [inode_self]
  · rw [inode_of_ne hj]
    have hoth : (t.fields k fun d => { d with type := 0 }).itable j = t.itable j := fields_of_ne hj
    exact hoth
  · rw [inode_self]
    have hf : Frame t (t.fields k fun d => { d with type := 0 }) := fields_frame
    exact ⟨hf.ref k, hf.dev k, hf.inum k⟩

/-- The state after a reference to entry `k` has been dropped. -/
def State.unref (s : State) (k : Nat) : State := s.inode k fun ip => { ip with ref := ip.ref - 1 }

section

variable (h : Ok c (k ::ₘ T) L s) (hL : ∀ j, j ∈ L → Held c T j)
include h hL

theorem Ok.drop (hft : t.ftable = s.ftable) (hpr : t.proc = s.proc)
    (hself : ∃ d, t.itable k = { s.itable k with d := d } ∨
      ¬Held c T k ∧ t.itable k = { s.itable k with locked := false, valid := false, d := d })
    (hothers : ∀ j, j ≠ k → ∃ d, t.itable j = { s.itable j with d := d })
    (hd : c.disk → Disk t.dinode t) : Ok c T L (t.unref k) := by
  have hu : ∀ j, ∃ r, (t.unref k).itable j = { t.itable j with ref := r } ∧
      r = (s.itable j).ref - if j = k then 1 else 0 := fun j => by
    by_cases hj : j = k
    · subst hj
      refine ⟨_, inode_self, ?_⟩
      obtain ⟨d, hd | ⟨-, hd⟩⟩ := hself <;> rw [hd] <;> simp
    · refine ⟨(t.itable j).ref, inode_of_ne hj, ?_⟩
      obtain ⟨d, hd⟩ := hothers j hj
      rw [hd, if_neg hj, sub_zero]
  have hst : ∀ j, (t.itable j).ref = (s.itable j).ref ∧ (t.itable j).dev = (s.itable j).dev ∧
      (t.itable j).inum = (s.itable j).inum := fun j => by
    by_cases hj : j = k
    · subst hj
      obtain ⟨d, hd | ⟨-, hd⟩⟩ := hself <;> rw [hd] <;> exact ⟨rfl, rfl, rfl⟩
    · obtain ⟨d, hd⟩ := hothers j hj
      rw [hd]
      exact ⟨rfl, rfl, rfl⟩
  have hpos : ∀ j, 0 < ((t.unref k).itable j).ref → 0 < (s.itable j).ref := fun j hj => by
    obtain ⟨r, hr, hre⟩ := hu j
    rw [hr] at hj
    have hj' : 0 < r := hj
    rw [hre] at hj'
    split at hj' <;> omega
  refine h.entries hft hpr (fun j => ?_) hpos (fun j => ?_) hL (fun j => ?_) (fun j hj => ?_) fun hP => ?_
  · obtain ⟨r, hr, -⟩ := hu j
    rw [hr]
    exact (hst j).2
  · obtain ⟨r, hr, hre⟩ := hu j
    rw [hr]
    have hrefs := h.refs j
    rw [count_cons] at hrefs
    show r = _
    omega
  · obtain ⟨r, hr, -⟩ := hu j
    rw [hr, ← h.locks j]
    by_cases hjk : j = k
    · subst hjk
      obtain ⟨d, hd | ⟨hnot, hd⟩⟩ := hself
      · rw [hd]
      · rw [hd, h.locks]
        exact iff_of_false Bool.false_ne_true fun hjL => hnot (hL j hjL)
    · obtain ⟨d, hd⟩ := hothers j hjk
      rw [hd]
  · obtain ⟨r, hr, -⟩ := hu j
    rw [hr]
    by_cases hjk : j = k
    · subst hjk
      obtain ⟨d, hd | ⟨hnot, -⟩⟩ := hself
      · rw [hd]
        exact h.valid j hj
      · exact absurd (hL j hj) hnot
    · obtain ⟨d, hd⟩ := hothers j hjk
      rw [hd]
      exact h.valid j hj
  · refine (hd hP).revise rfl rfl rfl (fun _ _ => .inr rfl) fun j hj => ?_
    have hp := (hst j).1 ▸ hpos j hj
    obtain ⟨r, hr, -⟩ := hu j
    rw [hr]
    exact ⟨hp, rfl, rfl, (hd hP).sync j hp⟩

theorem putLast_spec :
    Sat (putLast k) s (fun _ t => Ok c T L (t.unref k)) Low := by
  unfold putLast
  rw [sat_bind, sat_get, sat_ite]
  refine ⟨fun hlast => ?_, fun _ => ?_⟩
  · have hk : ¬Held c T k := by
      have hrefs := h.refs k
      have hbase := c.nonneg k
      rw [count_cons, if_pos rfl, hlast.1] at hrefs
      rintro (hk | hk)
      · have hcount := one_le_count_iff_mem.mpr hk
        omega
      · omega
    have hlive : Live s k := ⟨by rw [hlast.1]; decide, hlast.2.1⟩
    refine (freeInode_frame.when fun hP => freeInode_disk (h.disk hP) hlive).imp fun _ t ht => ?_
    obtain ⟨d, hd⟩ := ht.1.self
    exact h.drop hL ht.1.ftable ht.1.proc ⟨d, .inr ⟨hk, hd⟩⟩ ht.1.others ht.2
  · exact h.drop hL rfl rfl ⟨_, .inl rfl⟩ (fun j _ => ⟨_, rfl⟩) h.disk

theorem iput_ok : Sat (iput k) s (fun _ t => Ok c T L t) Low := by
  unfold iput
  rw [sat_bind]
  exact putLast_spec h hL

end

theorem iunlockput_ok (h : Ok c (k ::ₘ T) L s) (hL : ∀ j, j ∈ L.erase k → Held c T j) :
    Sat (iunlockput k) s (fun _ t => Ok c T (L.erase k) t) Low := by
  unfold iunlockput
  rw [sat_bind]
  exact (iunlock_ok h).imp fun _ t ht => iput_ok ht hL

/-! ### ialloc -/

theorem Disk.allocated {i : Nat} {d : Dinode} (h : Disk s.dinode s) (h0 : (s.dinode i).type = 0) (hsize : d.size = 0)
    (ha : ∀ x, d.addrs x = 0) (hsb : t.sb = s.sb) (hdi : t.dinode = update s.dinode i d)
    (hdata : t.data = s.data) (hmap : t.bitmap = s.bitmap) (htab : t.itable = s.itable) : Disk t.dinode t := by
  have hslots : slots t.dinode t.data = slots s.dinode s.data := by
    funext p
    unfold slots
    rw [hdi, hdata]
    by_cases hp : p.1 = i
    · rw [hp, update_self, slot_empty fun x _ => ha x]
      exact (if_pos h0).symm
    · rw [update_of_ne hp]
  refine h.revise hsb hmap hslots (fun j _ => ?_) fun j hj => ?_
  · rw [hdi]
    by_cases hji : j = i
    · rw [hji, update_self]
      exact .inl hsize
    · exact .inr (update_of_ne hji ..)
  · rw [htab] at hj ⊢
    refine ⟨hj, rfl, rfl, fun hv => ?_⟩
    obtain ⟨hd, ht⟩ := h.sync j hj hv
    have hne : (s.itable j).inum ≠ i := fun heq => ht (by rw [heq]; exact h0)
    rw [hdi, update_of_ne hne]
    exact ⟨hd, ht⟩

/-- The references of a call that has got an entry, or not. -/
def withIp {α : Type} (r : Option (Nat × α)) (T : Multiset Nat) : Multiset Nat :=
  match r with
  | none => T
  | some x => x.1 ::ₘ T

def withIp' (r : Option Nat) (T : Multiset Nat) : Multiset Nat :=
  match r with
  | none => T
  | some k => k ::ₘ T

theorem ialloc_ok (h : Ok c T L s) (hdev : c.disk → dev = rootdev) :
    Sat (ialloc dev type) s (fun r t => Ok c (withIp' r T) L t) (Full c T.card) := by
  unfold ialloc
  rw [sat_bind, sat_get]
  cases hfind : (List.range s.sb.ninodes).find? fun i => 1 ≤ i ∧ (s.dinode i).type = 0 with
  | none => exact h
  | some i =>
    have hi : 1 ≤ i ∧ (s.dinode i).type = 0 := by simpa using List.find?_some hfind
    dsimp only
    rw [sat_bind, sat_modify, sat_bind]
    refine logWrite_spec.mono (fun _ t ht => ?_) fun _ he => he.low.full
    obtain ⟨l, rfl⟩ := ht
    rw [sat_map]
    refine iget_ok (h.frame ⟨rfl, rfl, rfl, rfl, fun _ => ⟨_, rfl⟩⟩ fun hP => ?_) hdev
    exact (h.disk hP).allocated hi.2 (d := ⟨type, 0, 0, 0, 0, fun _ => 0⟩) rfl (fun _ => rfl) rfl rfl rfl rfl rfl

/-! ### Directories -/

theorem Ok.dev_root (h : Ok c T L s) (hk : Held c T k) (hP : c.disk) : (s.itable k).dev = rootdev :=
  (h.disk hP).dev k (h.ref_pos hk)

theorem dirlookupLoop_ok {name : Name} (hdp : dp ∈ L) : ∀ n off s, Ok c T L s →
    Sat (dirlookupLoop dp name n off) s (fun r t => Ok c (withIp r T) L t) (Full c T.card)
  | 0, _, _, h => h
  | n + 1, off, s, h => by
    unfold dirlookupLoop
    refine ((readDirent_ok h hdp (by simp [Low, noInodes])).err Low.full).bind fun de t ht => ?_
    rw [sat_ite]
    refine ⟨fun _ => ?_, fun _ => dirlookupLoop_ok hdp n _ t ht⟩
    rw [sat_bind, sat_get, sat_bind]
    exact (iget_ok ht (ht.dev_root (ht.sub dp hdp))).imp fun k u hu => hu

theorem dirlookup_ok (h : Ok c T L s) (hdp : dp ∈ L) :
    Sat (dirlookup dp name) s (fun r t => Ok c (withIp r T) L t) (Full c T.card) := by
  unfold dirlookup
  rw [sat_bind, sat_get]
  dsimp only
  rw [sat_ite]
  exact ⟨fun _ => by simp [Full, noInodes], fun _ => dirlookupLoop_ok hdp _ _ s h⟩

theorem freeDirent_ok (hdp : dp ∈ L) : ∀ n off s, Ok c T L s → Sat (freeDirent dp n off) s (fun _ t => Ok c T L t) Low
  | 0, _, _, h => h
  | n + 1, off, s, h => by
    unfold freeDirent
    refine (readDirent_ok h hdp (by simp [Low, noInodes])).bind fun de t ht => ?_
    rw [sat_ite]
    exact ⟨fun _ => ht, fun _ => freeDirent_ok hdp n _ t ht⟩

theorem dirlink_ok (h : Ok c T L s) (hdp : dp ∈ L) :
    Sat (dirlink dp name inum) s (fun _ t => Ok c T L t) (Full c T.card) := by
  unfold dirlink
  refine (dirlookup_ok h hdp).bind fun r t ht => ?_
  cases r with
  | some x =>
    dsimp only
    exact ((iput_ok ht h.sub).err Low.full).bind fun _ u hu => hu
  | none =>
    have ht' : Ok c T L t := ht
    dsimp only
    rw [sat_bind, sat_get]
    refine ((freeDirent_ok hdp _ _ t ht').err Low.full).bind fun off u hu => ?_
    refine ((writei_ok hu hdp).err Low.full).bind fun r w hw => ?_
    rw [sat_ite]
    exact ⟨fun _ => hw, fun _ => hw⟩

/-! ### Paths -/

theorem iunlock_one (h : Ok c T {k} s) : Sat (iunlock k) s (fun _ t => Ok c T ∅ t) Low :=
  (iunlock_ok h).imp fun _ t ht => by rwa [Finset.erase_singleton] at ht

theorem ilock_one (h : Ok c T ∅ s) (hk : Held c T k) : Sat (ilock k) s (fun _ t => Ok c T {k} t) Low :=
  (ilock_ok h hk).imp fun _ _ ht => ht.2

theorem sub_empty : ∀ j, j ∈ (∅ : Finset Nat) → Held c T j := fun j hj => absurd hj (notMem_empty j)

theorem iunlockput_one (h : Ok c (k ::ₘ T) {k} s) : Sat (iunlockput k) s (fun _ t => Ok c T ∅ t) Low := by
  refine (iunlockput_ok h fun j hj => ?_).imp fun _ t ht => ?_
  · rw [Finset.erase_singleton] at hj
    exact sub_empty j hj
  · rwa [Finset.erase_singleton] at ht

theorem namexLoop_ok {parent : Bool} : ∀ turns ip name path s, Ok c (ip ::ₘ T) ∅ s →
    Sat (namexLoop parent turns ip name path) s (fun r t => Ok c (withIp r T) ∅ t) (Full c (T.card + 1))
  | 0, _, _, _, _, _ => by simp [namexLoop, Full, noInodes]
  | turns + 1, ip, name, path, s, h => by
    unfold namexLoop
    cases skipelem path with
    | none =>
      dsimp only
      rw [sat_ite]
      refine ⟨fun _ => ?_, fun _ => h⟩
      exact ((iput_ok h sub_empty).err Low.full).bind fun _ t ht => ht
    | some x =>
      dsimp only
      refine ((ilock_one h (.inl (Multiset.mem_cons_self ..))).err Low.full).bind fun _ t ht => ?_
      -- every way out of the turn gives the lock back, and all but one the reference
      have hput : ∀ {u : State}, Ok c (ip ::ₘ T) {ip} u →
          Sat (do iunlockput ip; return (none : Option (Nat × Name))) u (fun r t => Ok c (withIp r T) ∅ t) (Full c (T.card + 1)) :=
        fun hu => by
          exact ((iunlockput_one hu).err Low.full).bind fun _ w hw => hw
      rw [sat_bind, sat_get, sat_ite]
      refine ⟨fun _ => hput ht, fun _ => ?_⟩
      rw [sat_ite]
      refine ⟨fun _ => ?_, fun _ => ?_⟩
      · exact ((iunlock_one ht).err Low.full).bind fun _ u hu => hu
      · rw [sat_bind]
        refine (dirlookup_ok ht (Finset.mem_singleton_self ip)).mono (fun r u hu => ?_) fun _ he =>
          he.mono (by rw [Multiset.card_cons])
        cases r with
        | none => exact hput hu
        | some y =>
          dsimp only
          rw [sat_bind]
          have hu' : Ok c (ip ::ₘ y.1 ::ₘ T) {ip} u := by
            rw [Multiset.cons_swap]
            exact hu
          refine (iunlockput_one hu').mono (fun _ w hw => ?_) fun _ he => he.full
          exact namexLoop_ok turns _ _ _ w hw

/-- The current directory of the process is among the references of the table. -/
def Ctx.HasCwd (c : Ctx) (p : Nat) : Prop := ∀ k, (c.proc p).cwd = some k → 0 < c.base k

theorem namex_ok {path : List UInt8} {parent : Bool} (h : Ok c T ∅ s) (hp : c.HasCwd p) :
    Sat (namex p path parent) s (fun r t => Ok c (withIp r T) ∅ t) (Full c (T.card + 1)) := by
  unfold namex namexStart cwd idup
  rw [sat_bind, sat_ite]
  refine ⟨fun _ => ?_, fun _ => ?_⟩
  · refine (iget_ok h fun _ => rfl).mono (fun k t ht => ?_) fun _ he => he.mono (Nat.le_succ _)
    exact namexLoop_ok _ _ _ _ t ht
  · rw [sat_bind, sat_bind, sat_get]
    cases hcwd : (s.proc p).cwd with
    | none => simp [Full, noInodes]
    | some k =>
      have hk : 0 < (s.itable k).ref := by
        have hbase := hp k (by rw [← h.proc]; exact hcwd)
        rw [h.refs]
        omega
      exact namexLoop_ok _ _ _ _ _ (h.addRef hk)

theorem namei_ok {path : List UInt8} (h : Ok c T ∅ s) (hp : c.HasCwd p) :
    Sat (namei p path) s (fun r t => Ok c (withIp' r T) ∅ t) (Full c (T.card + 1)) := by
  unfold namei
  refine (namex_ok h hp).bind fun r t ht => ?_
  cases r with
  | none => exact ht
  | some x => exact ht

/-! ### create -/

/-- The lock on the entry that a call has got, if it has. -/
def lockOf (r : Option Nat) : Finset Nat :=
  match r with
  | none => ∅
  | some k => {k}

theorem sat_update {α : Type} {x : FsM α} {Q : α → State → Prop} {E : String → Prop} :
    Sat (do setFields k f; iupdate k; x) s Q E ↔
      Sat (do setFields k f; iupdate k) s (fun _ t => Sat x t Q E) E := by
  simp only [sat_bind]

theorem keepsBlocks_nlink {g : Dinode → Int} : KeepsBlocks fun d => { d with nlink := g d } :=
  fun _ => ⟨rfl, rfl, rfl⟩

theorem linkDots_ok (h : Ok c T L s) (hip : ip ∈ L) :
    Sat (linkDots dp ip) s (fun _ t => Ok c T L t) (Full c T.card) := by
  unfold linkDots
  rw [sat_bind, sat_get]
  refine (dirlink_ok h hip).bind fun r t ht => ?_
  rw [sat_ite]
  exact ⟨fun _ => ht, fun _ => dirlink_ok ht hip⟩

theorem linkNew_ok (h : Ok c T L s) (hdp : dp ∈ L) (hip : ip ∈ L) :
    Sat (linkNew dp ip name type) s (fun _ t => Ok c T L t) (Full c T.card) := by
  unfold linkNew
  rw [sat_bind, sat_get, sat_ite]
  refine ⟨fun _ => ?_, fun _ => dirlink_ok h hdp⟩
  refine (linkDots_ok h hip).bind fun r t ht => ?_
  rw [sat_ite]
  exact ⟨fun _ => ht, fun _ => dirlink_ok ht hdp⟩

theorem linkParent_ok (h : Ok c T L s) (hdp : dp ∈ L) :
    Sat (linkParent dp type) s (fun _ t => Ok c T L t) Low := by
  unfold linkParent
  rw [sat_ite]
  exact ⟨fun _ => update_ok keepsBlocks_nlink h hdp, fun _ => h⟩

theorem unlinkParent_ok (h : Ok c T L s) (hdp : dp ∈ L) :
    Sat (unlinkParent dp type) s (fun _ t => Ok c T L t) Low := by
  unfold unlinkParent
  rw [sat_ite]
  exact ⟨fun _ => update_ok keepsBlocks_nlink h hdp, fun _ => h⟩

theorem iunlockput_snd (h : Ok c (ip ::ₘ dp ::ₘ T) (insert ip {dp}) s) (hne : ip ∉ ({dp} : Finset Nat)) :
    Sat (iunlockput ip) s (fun _ t => Ok c (dp ::ₘ T) {dp} t) Low := by
  refine (iunlockput_ok h fun j hj => ?_).imp fun _ t ht => ?_
  · rw [erase_insert hne, Finset.mem_singleton] at hj
    rw [hj]
    exact .inl (Multiset.mem_cons_self ..)
  · rwa [erase_insert hne] at ht

theorem iunlockput_fst (h : Ok c (ip ::ₘ dp ::ₘ T) (insert ip {dp}) s) (hne : ip ∉ ({dp} : Finset Nat)) :
    Sat (iunlockput dp) s (fun _ t => Ok c (ip ::ₘ T) {ip} t) Low := by
  have hne' : dp ∉ ({ip} : Finset Nat) := by
    rw [Finset.mem_singleton] at hne ⊢
    exact fun h => hne h.symm
  rw [Multiset.cons_swap, Finset.pair_comm] at h
  exact iunlockput_snd h hne'

theorem createOld_ok (h : Ok c (ip ::ₘ dp ::ₘ T) {dp} s) :
    Sat (createOld dp ip type) s (fun r t => Ok c (withIp' r T) (lockOf r) t) Low := by
  rw [Multiset.cons_swap] at h
  unfold createOld
  refine (iunlockput_one h).bind fun _ t ht => ?_
  refine (ilock_one ht (.inl (Multiset.mem_cons_self ..))).bind fun _ u hu => ?_
  rw [sat_bind, sat_get]
  dsimp only
  rw [sat_ite]
  refine ⟨fun _ => hu, fun _ => ?_⟩
  rw [sat_bind]
  exact (iunlockput_one hu).imp fun _ w hw => hw

theorem createNew_ok {major minor : Int} (h : Ok c (dp ::ₘ T) {dp} s) :
    Sat (createNew dp name type major minor) s (fun r t => Ok c (withIp' r T) (lockOf r) t)
      (Full c (T.card + 2)) := by
  have hdp : dp ∈ ({dp} : Finset Nat) := Finset.mem_singleton_self dp
  unfold createNew
  rw [sat_bind, sat_get, sat_bind]
  refine (ialloc_ok h (h.dev_root (h.sub dp hdp))).mono (fun r t ht => ?_) fun _ he =>
    he.mono (by rw [Multiset.card_cons]; omega)
  cases r with
  | none =>
    dsimp only
    exact ((iunlockput_one ht).err Low.full).bind fun _ u hu => hu
  | some ip =>
    dsimp only
    refine ((ilock_ok ht (.inl (Multiset.mem_cons_self ..))).err Low.full).bind fun _ u hu => ?_
    obtain ⟨hne, hu⟩ := hu
    have hipL : ip ∈ insert ip ({dp} : Finset Nat) := mem_insert_self ..
    have hdpL : dp ∈ insert ip ({dp} : Finset Nat) := mem_insert_of_mem hdp
    rw [sat_update]
    have hkeep : KeepsBlocks fun d => { d with major := toShort major, minor := toShort minor, nlink := 1 } :=
      fun _ => ⟨rfl, rfl, rfl⟩
    refine (update_ok hkeep hu hipL).mono (fun _ w hw => ?_) fun _ he => he.full
    rw [sat_bind]
    refine (linkNew_ok hw hdpL hipL).mono (fun r v hv => ?_) fun _ he =>
      he.mono (by simp [withIp'])
    rw [sat_ite]
    refine ⟨fun _ => ?_, fun _ => ?_⟩
    · rw [sat_update]
      refine (update_ok keepsBlocks_nlink hv hipL).mono (fun _ x hx => ?_) fun _ he => he.full
      refine ((iunlockput_snd hx hne).err Low.full).bind fun _ y hy => ?_
      exact ((iunlockput_one hy).err Low.full).bind fun _ z hz => hz
    · refine ((linkParent_ok hv hdpL).err Low.full).bind fun _ x hx => ?_
      exact ((iunlockput_fst hx hne).err Low.full).bind fun _ y hy => hy

theorem create_ok {path : Path} {major minor : Int} (h : Ok c T ∅ s) (hp : c.HasCwd p) :
    Sat (create p path type major minor) s (fun r t => Ok c (withIp' r T) (lockOf r) t) (Full c (T.card + 2)) := by
  unfold create nameiparent
  refine ((namex_ok h hp).err fun he => he.mono (by omega)).bind fun r t ht => ?_
  cases r with
  | none => exact ht
  | some x =>
    obtain ⟨dp, name⟩ := x
    dsimp only
    refine ((ilock_one ht (.inl (Multiset.mem_cons_self ..))).err Low.full).bind fun _ u hu => ?_
    rw [sat_bind]
    refine (dirlookup_ok hu (Finset.mem_singleton_self dp)).mono (fun r w hw => ?_) fun _ he =>
      he.mono (by simp [withIp])
    cases r with
    | none => exact createNew_ok hw
    | some y => exact (createOld_ok hw).err Low.full

theorem openInode_ok {omode : Nat} {path : Path} (h : Ok c T ∅ s) (hp : c.HasCwd p) :
    Sat (openInode p path omode) s (fun r t => Ok c (withIp' r T) (lockOf r) t) (Full c (T.card + 2)) := by
  unfold openInode
  rw [sat_ite]
  refine ⟨fun _ => create_ok h hp, fun _ => ?_⟩
  refine ((namei_ok h hp).err fun he => he.mono (by omega)).bind fun r t ht => ?_
  cases r with
  | none => exact ht
  | some ip =>
    dsimp only
    refine ((ilock_one ht (.inl (Multiset.mem_cons_self ..))).err Low.full).bind fun _ u hu => ?_
    rw [sat_bind, sat_get, sat_ite]
    refine ⟨fun _ => ?_, fun _ => hu⟩
    exact ((iunlockput_one hu).err Low.full).bind fun _ w hw => hw

end Xv6Armv8.Fs
