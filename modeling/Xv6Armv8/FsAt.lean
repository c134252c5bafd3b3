
import Xv6Armv8.FsDir

/-! What a call knows of the file system while it runs: the references and locks it has, the inodes that these
stand for, and the nodes of all inodes. Every operation is followed with the exact nodes it leaves. An inode
without links is freed exactly when its last reference goes, because one that is allocated has a reference to an
entry that has been read. -/

namespace Xv6Armv8.Fs

open Spec Alloc FileTable Records Function Multiset Option

/-- What holds of the nodes: directories are tables of entries, and a number of links is a `short`. -/
structure Shape (N : Nat → Option Node) : Prop where
  dirs : ∀ i nd, N i = some nd → nd.type = tDir → sizeofDirent ∣ nd.contents.length
  short : ∀ i nd, N i = some nd → toShort nd.nlink = nd.nlink

/-- The call has the references `T` and the locks `L`; entry `k` of the table stands for inode `ν k`; and the nodes
are `N`. -/
structure At (c : Ctx) (T : Multiset Nat) (L : Finset Nat) (ν : Nat → Nat) (N : Nat → Option Node) (s : State) :
    Prop where
  ok : Ok c T L s
  known : c.disk
  inum : ∀ k, Held c T k → (s.itable k).inum = ν k
  node : s.node = N
  /-- An inode without links is in use, and has been read. -/
  alive : ∀ i nd, N i = some nd → nd.nlink = 0 → ∃ k, Held c T k ∧ ν k = i ∧ (s.itable k).valid = true
  /-- Files and directories in use are allocated. -/
  named : ∀ k, 0 < c.base k → N (ν k) ≠ none
  shape : Shape N

/-- How a call may stop: with a full table only if there are not `m` entries besides those of files and directories,
and in a tree `W` in no other way. -/
structure Stop (c : Ctx) (W : Prop) (m : Nat) (e : String) : Prop where
  full : e = noInodes → ninode ≤ c.used + m
  only : W → e = noInodes

variable {c : Ctx} {W : Prop} {T : Multiset Nat} {L : Finset Nat} {ν ν' : Nat → Nat} {N N' : Nat → Option Node}
  {n m : Nat} {s t u : State} {k dp ip i j : Nat} {nd : Node} {name : Name} {e : String}

theorem Stop.of_full (h : e = noInodes) (hm : ninode ≤ c.used + m) : Stop c W m e where
  full := fun _ => hm
  only := fun _ => h

theorem Stop.of_tree (hfull : e ≠ noInodes) (hW : ¬W) : Stop c W m e where
  full := fun he => absurd he hfull
  only := fun h => absurd h hW

theorem Stop.mono (h : Stop c W n e) (hnm : n ≤ m) : Stop c W m e where
  full := fun he => (h.full he).trans (by omega)
  only := h.only

/-! ### Entries and their nodes -/

section

variable (h : At c T L ν N s)
include h

theorem At.disk : Disk s.dinode s := h.ok.disk h.known

theorem At.live (hk : k ∈ L) : Live s k := h.ok.live hk

theorem At.inum_of_mem (hk : k ∈ L) : (s.itable k).inum = ν k := h.inum k (h.ok.sub k hk)

theorem At.nodeOf (hk : k ∈ L) : N (ν k) = some (s.nodeOf (ν k)) := by
  rw [← h.node, ← h.inum_of_mem hk]
  exact h.disk.node_eq (h.live hk)

theorem At.d_eq (hk : k ∈ L) : (s.itable k).d = s.dinode (ν k) := by
  rw [← h.inum_of_mem hk]
  exact (h.disk.sync k (h.live hk).1 (h.live hk).2).1

theorem At.fields (hk : k ∈ L) (hnd : N (ν k) = some nd) :
    (s.itable k).d.type = nd.type ∧ (s.itable k).d.major = nd.major ∧ (s.itable k).d.nlink = nd.nlink ∧
      (s.itable k).d.size = nd.contents.length := by
  rw [h.nodeOf hk] at hnd
  rw [h.d_eq hk, ← some_inj.mp hnd]
  exact ⟨rfl, rfl, rfl, length_contents.symm⟩

theorem At.dirAt (hk : dp ∈ L) (hnd : N (ν dp) = some nd) (hdir : nd.type = tDir) :
    DirAt s dp nd where
  disk := h.disk
  live := h.live hk
  node := by
    rw [h.node, h.inum_of_mem hk]
    exact hnd
  dir := hdir
  rows := h.shape.dirs _ _ hnd hdir

theorem At.renumber (hν : ∀ k, Held c T k → ν' k = ν k) : At c T L ν' N s :=
  { h with
    inum := fun k hk => (h.inum k hk).trans (hν k hk).symm
    alive := fun i nd hi h0 => by
      obtain ⟨k, hk, hki, hv⟩ := h.alive i nd hi h0
      exact ⟨k, hk, (hν k hk).trans hki, hv⟩
    named := fun k hk => by
      rw [hν k (.inr hk)]
      exact h.named k hk }

end

/-- Only the table of inodes has changed. -/
def Still (s t : State) : Prop := { t with itable := s.itable } = s

theorem Still.trans (h : Still s t) (h' : Still t u) : Still s u := by
  unfold Still at *
  rw [← h, ← h']

theorem Still.disk (h : Still s t) : t.sb = s.sb ∧ t.dinode = s.dinode ∧ t.bitmap = s.bitmap ∧ t.data = s.data := by
  unfold Still at h
  rw [← h]
  exact ⟨rfl, rfl, rfl, rfl⟩

theorem node_eq_of (hdi : t.dinode = s.dinode) (hdata : t.data = s.data) : t.node = s.node := by
  funext i
  refine node_congr (congrFun hdi i) fun _ x _ => ?_
  unfold State.byteOf
  rw [hdi, hdata]

theorem Still.node (h : Still s t) : t.node = s.node := node_eq_of h.disk.2.1 h.disk.2.2.2

/-! ### iget -/

theorem Borrowed.entry (h : Borrowed ip i s t) (hj : 0 < (s.itable j).ref) :
    ∃ r, t.itable j = { s.itable j with ref := r } := by
  have hused := h.back.used j hj
  unfold State.unref at hused
  by_cases hjk : j = ip
  · rw [hjk, inode_self] at hused
    refine ⟨(t.itable ip).ref, ?_⟩
    rw [hjk, ← hused]
  · rw [inode_of_ne hjk] at hused
    exact ⟨(s.itable j).ref, hused⟩

theorem Borrowed.still (h : Borrowed ip i s t) : Still s t := h.back.same

theorem held_cons (h : Held c (k ::ₘ T) j) : j = k ∨ Held c T j := by
  rcases h with hj | hj
  · rcases mem_cons.mp hj with rfl | hj
    · exact .inl rfl
    · exact .inr (.inl hj)
  · exact .inr (.inr hj)

theorem At.inj (h : At c T L ν N s) (hj : Held c T j) (hk : Held c T k) (heq : ν j = ν k) : j = k := by
  refine h.disk.uniq j k (h.ok.ref_pos hj) (h.ok.ref_pos hk) ?_
  rw [h.inum j hj, h.inum k hk, heq]

/-- The call has got a reference to entry `k`, for inode `i`. If the inode has no links, the reference is not
the only one. -/
structure Got (c : Ctx) (T : Multiset Nat) (L : Finset Nat) (ν : Nat → Nat) (N : Nat → Option Node) (s : State)
    (k i : Nat) (t : State) : Prop where
  now : At c (k ::ₘ T) L (update ν k i) N t
  still : Still s t
  same : Held c T k → ν k = i
  keep : ∀ nd, N i = some nd → nd.nlink = 0 → Held c T k

theorem Got.num (h : Got c T L ν N s k i t) (hj : Held c T j) : update ν k i j = ν j := by
  by_cases hjk : j = k
  · rw [hjk] at hj ⊢
    rw [update_self, h.same hj]
  · exact update_of_ne hjk ..

theorem Got.keep' (h : Got c T L ν N s k i t) (nd : Node) (hnd : N (update ν k i k) = some nd)
    (h0 : nd.nlink = 0) : Held c T k := by
  rw [update_self] at hnd
  exact h.keep nd hnd h0

/-- **A reference to an inode.** -/
theorem iget_at (h : At c T L ν N s) :
    Sat (iget rootdev i) s (fun k t => Got c T L ν N s k i t) (Stop c W T.card) := by
  have hok : Sat (iget rootdev i) s _ _ := (iget_ok h.ok fun _ => rfl).and iget_borrowed
  refine hok.mono (fun k t ht => ?_) fun e he => .of_full he.2 (he.1 he.2)
  obtain ⟨ht, hb⟩ := ht
  have hentry : ∀ j, Held c T j → (t.itable j).inum = (s.itable j).inum ∧ (t.itable j).valid = (s.itable j).valid := by
    intro j hj
    obtain ⟨r, hr⟩ := hb.entry (h.ok.ref_pos hj)
    rw [hr]
    exact ⟨rfl, rfl⟩
  have hsame : Held c T k → ν k = i := by
    intro hk
    rw [← h.inum k hk, ← (hentry k hk).1, hb.inum]
  have hnum : ∀ j, Held c T j → update ν k i j = ν j := by
    intro j hj
    by_cases hjk : j = k
    · rw [hjk] at hj ⊢
      rw [update_self, hsame hj]
    · exact update_of_ne hjk ..
  have hnow : At c (k ::ₘ T) L (update ν k i) N t := by
    refine ⟨ht, h.known, fun j hj => ?_, ?_, fun x nd hx h0 => ?_, fun j hj => ?_, h.shape⟩
    · rcases held_cons hj with rfl | hj
      · rw [update_self, hb.inum]
      · rw [hnum j hj, (hentry j hj).1]
        exact h.inum j hj
    · rw [hb.still.node]
      exact h.node
    · obtain ⟨j, hj, hji, hv⟩ := h.alive x nd hx h0
      refine ⟨j, hj.cons k, (hnum j hj).trans hji, ?_⟩
      rw [(hentry j hj).2]
      exact hv
    · rw [hnum j (.inr hj)]
      exact h.named j hj
  refine ⟨hnow, hb.still, hsame, fun nd hnd h0 => ?_⟩
  obtain ⟨j, hj, hji, -⟩ := h.alive i nd hnd h0
  have hjk : j = k := by
    refine hnow.inj (hj.cons k) (.inl (mem_cons_self k T)) ?_
    rw [hnum j hj, hji, update_self]
  rwa [hjk] at hj

theorem idup_at (h : At c T L ν N s) (hk : Held c T k) :
    Sat (idup k) s (fun _ t => Got c T L ν N s k (ν k) t) fun _ => False := by
  have hentry : ∀ j, ∃ r, (s.inode k fun ip => { ip with ref := ip.ref + 1 }).itable j = { s.itable j with ref := r } := by
    intro j
    by_cases hj : j = k
    · rw [hj]
      exact ⟨_, inode_self⟩
    · exact ⟨_, inode_of_ne hj⟩
  have hheld : ∀ j, Held c (k ::ₘ T) j → Held c T j := by
    intro j hj
    rcases held_cons hj with rfl | hj
    · exact hk
    · exact hj
  show Got c T L ν N s k (ν k) (s.inode k fun ip => { ip with ref := ip.ref + 1 })
  refine ⟨?_, rfl, fun _ => rfl, fun _ _ _ => hk⟩
  rw [update_eq_self]
  refine ⟨h.ok.addRef (h.ok.ref_pos hk), h.known, fun j hj => ?_, h.node, fun x nd hx h0 => ?_, h.named, h.shape⟩
  · obtain ⟨r, hr⟩ := hentry j
    rw [hr]
    exact h.inum j (hheld j hj)
  · obtain ⟨j, hj, hji, hv⟩ := h.alive x nd hx h0
    obtain ⟨r, hr⟩ := hentry j
    refine ⟨j, hj.cons k, hji, ?_⟩
    rw [hr]
    exact hv

/-! ### Locks -/

theorem ilock_exact (hd : Disk s.dinode s) (href : 0 < (s.itable k).ref) :
    Sat (ilock k) s (fun _ t => (s.itable k).locked = false ∧ (s.dinode (s.itable k).inum).type ≠ 0 ∧
        t = s.lockedWith k (s.dinode (s.itable k).inum))
      fun e => (e = asleep ∧ (s.itable k).locked = true) ∨
        (e = "ilock: no type" ∧ (s.dinode (s.itable k).inum).type = 0) := by
  unfold ilock acquiresleep loadInode
  rw [sat_bind, sat_get, if_neg (by omega), sat_bind, sat_bind, sat_get, sat_ite]
  refine ⟨fun hl => .inl ⟨rfl, hl⟩, fun hfree => ?_⟩
  have hunl : (s.itable k).locked = false := by simpa using hfree
  show Sat _ (s.inode k fun ip => { ip with locked := true }) _ _
  rw [sat_bind, sat_get, sat_ite, inode_self]
  constructor
  · intro hv
    have hv' : (s.itable k).valid = true := hv
    obtain ⟨hsync, ht⟩ := hd.sync k href hv'
    refine ⟨hunl, ht, ?_⟩
    unfold State.lockedWith State.inode
    congr 2
    rw [← hsync, ← hv']
  · intro hv
    show Sat (if (s.dinode (s.itable k).inum).type = 0 then _ else _)
      ((s.inode k fun ip => { ip with locked := true }).inode k _) _ _
    rw [inode_inode, sat_ite]
    exact ⟨fun h0 => .inr ⟨rfl, h0⟩, fun ht => ⟨hunl, ht, rfl⟩⟩

theorem lockedWith_of_ne {d : Dinode} (hj : j ≠ k) : (s.lockedWith k d).itable j = s.itable j := inode_of_ne hj

theorem lockedWith_self {d : Dinode} :
    (s.lockedWith k d).itable k = { s.itable k with locked := true, valid := true, d := d } := inode_self

/-- **An inode that is allocated and not locked is locked.** -/
theorem ilock_at (h : At c T L ν N s) (hk : Held c T k) (hW : W → N (ν k) ≠ none ∧ k ∉ L) :
    Sat (ilock k) s (fun _ t => k ∉ L ∧ N (ν k) ≠ none ∧ At c T (insert k L) ν N t ∧ Still s t)
      (Stop c W m) := by
  have hinum := h.inum k hk
  refine ((ilock_ok h.ok hk).and (ilock_exact h.disk (h.ok.ref_pos hk))).mono (fun _ t ht => ?_) fun e he => ?_
  · obtain ⟨⟨hkL, hok⟩, hunl, htype, rfl⟩ := ht
    rw [hinum] at htype hok ⊢
    have hnode : N (ν k) ≠ none := by
      rw [← h.node]
      unfold State.node
      rw [if_neg htype]
      exact some_ne_none _
    refine ⟨hkL, hnode, ⟨hok, h.known, fun j hj => ?_, ?_, fun x nd hx h0 => ?_, h.named, h.shape⟩, rfl⟩
    · by_cases hjk : j = k
      · rw [hjk, lockedWith_self]
        exact hinum
      · rw [lockedWith_of_ne hjk]
        exact h.inum j hj
    · exact h.node
    · obtain ⟨j, hj, hji, hv⟩ := h.alive x nd hx h0
      refine ⟨j, hj, hji, ?_⟩
      by_cases hjk : j = k
      · rw [hjk, lockedWith_self]
      · rwa [lockedWith_of_ne hjk]
  · rcases he.2 with ⟨rfl, hl⟩ | ⟨rfl, ht⟩
    · refine .of_tree (by simp [noInodes, asleep]) fun hw => ?_
      exact (hW hw).2 ((h.ok.locks k).mp hl)
    · refine .of_tree (by simp [noInodes]) fun hw => (hW hw).1 ?_
      rw [← h.node]
      unfold State.node
      rw [hinum] at ht
      exact if_pos ht

theorem iunlock_at (h : At c T L ν N s) (hk : k ∈ L) :
    Sat (iunlock k) s (fun _ t => At c T (L.erase k) ν N t ∧ Still s t) fun _ => False := by
  have hpos := h.ok.ref_pos (h.ok.sub k hk)
  have hlocked := (h.ok.locks k).mpr hk
  have hbad : ¬((s.itable k).locked = false ∨ (s.itable k).ref < 1) := by
    rw [hlocked]
    rintro (hf | hr)
    · cases hf
    · omega
  unfold iunlock
  rw [sat_bind, sat_get]
  dsimp only
  rw [if_neg hbad]
  show At c T (L.erase k) ν N (s.inode k fun ip => { ip with locked := false }) ∧ Still s _
  have hfield : ∀ j, ∃ b, (s.inode k fun ip => { ip with locked := false }).itable j = { s.itable j with locked := b } := by
    intro j
    by_cases hj : j = k
    · rw [hj]
      exact ⟨_, inode_self⟩
    · exact ⟨_, inode_of_ne hj⟩
  refine ⟨⟨h.ok.unlock, h.known, fun j hj => ?_, h.node, fun x nd hx h0 => ?_, h.named, h.shape⟩, rfl⟩
  · obtain ⟨b, hb⟩ := hfield j
    rw [hb]
    exact h.inum j hj
  · obtain ⟨j, hj, hji, hv⟩ := h.alive x nd hx h0
    obtain ⟨b, hb⟩ := hfield j
    refine ⟨j, hj, hji, ?_⟩
    rw [hb]
    exact hv

theorem ilock_only (h : At c T ∅ ν N s) (hk : Held c T k) (hW : W → N (ν k) ≠ none) :
    Sat (ilock k) s (fun _ t => N (ν k) ≠ none ∧ At c T {k} ν N t ∧ Still s t) (Stop c W m) :=
  (ilock_at h hk fun hw => ⟨hW hw, Finset.notMem_empty k⟩).imp fun _ _ ht => ht.2

theorem iunlock_only (h : At c T {k} ν N s) :
    Sat (iunlock k) s (fun _ t => At c T ∅ ν N t ∧ Still s t) fun _ => False := by
  refine (iunlock_at h (Finset.mem_singleton_self k)).imp fun _ t ht => ?_
  rwa [Finset.erase_singleton] at ht

/-! ### iput -/

instance : Decidable (Held c T k) := inferInstanceAs (Decidable (k ∈ T ∨ 0 < c.base k))

/-- The last reference, if no file or directory and nothing else of the call refers to the entry. -/
theorem Ok.ref_one (h : Ok c (k ::ₘ T) L s) (hk : ¬Held c T k) : (s.itable k).ref = 1 := by
  have hbase := c.nonneg k
  have hT : T.count k = 0 := count_eq_zero_of_notMem fun hT => hk (.inl hT)
  have hb : ¬0 < c.base k := fun hb => hk (.inr hb)
  rw [h.refs, count_cons, hT, if_pos rfl]
  omega

theorem Ok.not_held (h : Ok c (k ::ₘ T) L s) (h1 : (s.itable k).ref = 1) : ¬Held c T k := by
  have hrefs := h.refs k
  have hbase := c.nonneg k
  rw [count_cons, if_pos rfl, h1] at hrefs
  rintro (hk | hk)
  · have hcount := one_le_count_iff_mem.mpr hk
    omega
  · omega

section

variable (h : At c (k ::ₘ T) L ν N s)
include h

theorem At.unref (hok : Ok c T L (s.unref k))
    (hkeep : ∀ i nd, N i = some nd → nd.nlink = 0 → ν k = i → Held c T k) : At c T L ν N (s.unref k) := by
  have hentry : ∀ j, ∃ r, (s.unref k).itable j = { s.itable j with ref := r } := by
    intro j
    by_cases hj : j = k
    · rw [hj]
      exact ⟨_, inode_self⟩
    · exact ⟨_, inode_of_ne hj⟩
  refine ⟨hok, h.known, fun j hj => ?_, h.node, fun i nd hi h0 => ?_, h.named, h.shape⟩
  · obtain ⟨r, hr⟩ := hentry j
    rw [hr]
    exact h.inum j (hj.cons k)
  · obtain ⟨j, hj, hji, hv⟩ := h.alive i nd hi h0
    have hj' : Held c T j := by
      rcases held_cons hj with rfl | hj
      · exact hkeep i nd hi h0 hji
      · exact hj
    obtain ⟨r, hr⟩ := hentry j
    refine ⟨j, hj', hji, ?_⟩
    rw [hr]
    exact hv

theorem At.last_iff :
    ((s.itable k).ref = 1 ∧ (s.itable k).valid = true ∧ (s.itable k).d.nlink = 0) ↔
      ∃ nd, N (ν k) = some nd ∧ nd.nlink = 0 ∧ ¬Held c T k := by
  have hself : Held c (k ::ₘ T) k := .inl (mem_cons_self k T)
  have hpos := h.ok.ref_pos hself
  have hfields : (s.itable k).valid = true → N (ν k) = some (s.nodeOf (ν k)) ∧
      (s.nodeOf (ν k)).nlink = (s.itable k).d.nlink := by
    intro hv
    rw [(h.disk.sync k hpos hv).1, h.inum k hself, ← h.node, ← h.inum k hself]
    exact ⟨h.disk.node_eq ⟨hpos, hv⟩, rfl⟩
  constructor
  · rintro ⟨h1, hv, h0⟩
    obtain ⟨hnd, hlink⟩ := hfields hv
    exact ⟨_, hnd, hlink.trans h0, h.ok.not_held h1⟩
  · rintro ⟨nd, hnd, h0, hk⟩
    obtain ⟨j, hj, hji, hv⟩ := h.alive _ nd hnd h0
    rw [h.inj hj hself hji] at hv
    obtain ⟨hnd', hlink⟩ := hfields hv
    refine ⟨h.ok.ref_one hk, hv, ?_⟩
    rw [← hlink, ← some_inj.mp (hnd.symm.trans hnd')]
    exact h0

/-- **A reference is given back**, and the inode stays. -/
theorem iput_keep (hL : ∀ j, j ∈ L → Held c T j)
    (hkeep : ∀ nd, N (ν k) = some nd → nd.nlink = 0 → Held c T k) :
    Sat (iput k) s (fun _ t => At c T L ν N t ∧ Still s t) fun _ => False := by
  have hnot : ¬((s.itable k).ref = 1 ∧ (s.itable k).valid = true ∧ (s.itable k).d.nlink = 0) := by
    rw [h.last_iff]
    rintro ⟨nd, hnd, h0, hk⟩
    exact hk (hkeep nd hnd h0)
  unfold iput putLast
  rw [sat_bind, sat_bind, sat_get, if_neg hnot]
  refine ⟨h.unref (h.ok.drop hL rfl rfl ⟨_, .inl rfl⟩ (fun j _ => ⟨_, rfl⟩) h.ok.disk) ?_, rfl⟩
  rintro i nd hi h0 rfl
  exact hkeep nd hi h0

theorem iunlockput_keep (hk : k ∈ L) (hL : ∀ j, j ∈ L.erase k → Held c T j)
    (hkeep : ∀ nd, N (ν k) = some nd → nd.nlink = 0 → Held c T k) :
    Sat (iunlockput k) s (fun _ t => At c T (L.erase k) ν N t ∧ Still s t) fun _ => False := by
  unfold iunlockput
  refine (iunlock_at h hk).bind fun _ t ht => ?_
  exact (iput_keep ht.1 hL hkeep).imp fun _ u hu => ⟨hu.1, ht.2.trans hu.2⟩

end

theorem iunlockput_only (h : At c (k ::ₘ T) {k} ν N s)
    (hkeep : ∀ nd, N (ν k) = some nd → nd.nlink = 0 → Held c T k) :
    Sat (iunlockput k) s (fun _ t => At c T ∅ ν N t ∧ Still s t) fun _ => False := by
  have hsub : ∀ j, j ∈ ({k} : Finset Nat).erase k → Held c T j := by
    rw [Finset.erase_singleton]
    exact sub_empty
  refine (iunlockput_keep h (Finset.mem_singleton_self k) hsub hkeep).imp fun _ t ht => ?_
  rwa [Finset.erase_singleton] at ht

/-! ### Between calls -/

/-- What holds of the file system when no call is under way. -/
structure Settled (s : State) : Prop where
  inv : Inv True s
  alive : ∀ i nd, s.node i = some nd → nd.nlink = 0 →
    ∃ k, 0 < baseOf s.ftable s.proc k ∧ (s.itable k).inum = i ∧ (s.itable k).valid = true
  named : ∀ k, 0 < baseOf s.ftable s.proc k → s.node (s.itable k).inum ≠ none
  shape : Shape s.node
  /-- A directory is not written to through a file. -/
  readonly : ∀ f k nd, RefersTo (s.ftable f) k → (s.ftable f).writable = true → s.node (s.itable k).inum = some nd →
    nd.type ≠ tDir

theorem Settled.start (h : Settled s) :
    At (ctxOf True s.ftable s.proc) 0 ∅ (fun k => (s.itable k).inum) s.node s where
  ok := h.inv.ok
  known := trivial
  inum := fun _ _ => rfl
  node := rfl
  alive := fun i nd hi h0 => by
    obtain ⟨k, hk, hki, hv⟩ := h.alive i nd hi h0
    exact ⟨k, .inr hk, hki, hv⟩
  named := h.named
  shape := h.shape

/-- A disk to start from: its blocks are in order, its inodes have links, its directories are tables of
entries, and it has a root. -/
structure Image.Proper (img : Image) : Prop where
  consistent : img.Consistent
  linked : ∀ i, (img.dinode i).type ≠ 0 → (img.dinode i).nlink ≠ 0 ∧ toShort (img.dinode i).nlink = (img.dinode i).nlink
  dirs : ∀ i, (img.dinode i).type = tDir → sizeofDirent ∣ (img.dinode i).size
  root : (img.dinode rootino).type ≠ 0

theorem node_some (h : s.node i = some nd) : (s.dinode i).type ≠ 0 ∧ nd = s.nodeOf i := by
  unfold State.node at h
  split at h
  · cases h
  · next ht => exact ⟨ht, (some_inj.mp h).symm⟩

theorem Image.Proper.settled {img : Image} (h : img.Proper) : Settled (boot img) where
  inv := boot_inv fun _ => h.consistent.disk
  alive := fun i nd hi h0 => by
    obtain ⟨ht, rfl⟩ := node_some hi
    exact absurd h0 (h.linked i ht).1
  named := fun k hk => by
    have hk0 : k = 0 := by
      by_contra hne
      have hinv : Inv True (boot img) := boot_inv fun _ => h.consistent.disk
      have href := hinv.ok.refs k
      rw [count_zero] at href
      have hbase : ((boot img).itable k).ref = baseOf (boot img).ftable (boot img).proc k := by
        rw [href]
        exact add_zero _
      rw [← hbase] at hk
      simp [boot, update_of_ne hne, noInode] at hk
    rw [hk0]
    show (boot img).node rootino ≠ none
    unfold State.node
    rw [if_neg (show ((boot img).dinode rootino).type ≠ 0 from h.root)]
    exact some_ne_none _
  shape := by
    refine ⟨fun i nd hi hdir => ?_, fun i nd hi => ?_⟩
    · obtain ⟨-, rfl⟩ := node_some hi
      unfold State.nodeOf
      rw [length_contents]
      exact h.dirs i hdir
    · obtain ⟨ht, rfl⟩ := node_some hi
      exact (h.linked i ht).2
  readonly := fun f k nd hf _ _ => absurd hf.1 (Nat.lt_irrefl 0)

theorem chainImage_proper : chainImage.Proper := by
  have hout : ∀ i, ¬(1 ≤ i ∧ i ≤ 52) → (chainImage.dinode i).type = 0 := by
    intro i hi
    show (if 1 ≤ i ∧ i ≤ 52 then _ else noDinode).type = 0
    rw [if_neg hi]
    rfl
  have hall : ∀ i, i < 53 → ((chainImage.dinode i).type ≠ 0 → (chainImage.dinode i).nlink ≠ 0 ∧
      toShort (chainImage.dinode i).nlink = (chainImage.dinode i).nlink) ∧
      ((chainImage.dinode i).size % sizeofDirent = 0) := by decide +kernel
  refine ⟨chainImage_consistent, fun i hi => ?_, fun i hi => ?_, by decide⟩
  · have hlt : i < 53 := by
      by_contra hlt
      exact hi (hout i (by omega))
    exact (hall i hlt).1 hi
  · have hlt : i < 53 := by
      by_contra hlt
      rw [hout i (by omega)] at hi
      cases hi
    exact Nat.dvd_of_mod_eq_zero (hall i hlt).2

end Xv6Armv8.Fs
