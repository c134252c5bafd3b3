import Xv6Armv8.MkfsImage

/-! The kernel on an image that `mkfs` has made. The blocks of a file are where `bmap` looks for them, and the
entries of the root directory are what `dirlookup` reads, so a file is found under its name and read as it
was. -/

namespace Xv6Armv8.Mkfs

open Fs Spec Function List

variable {fs : List InFile} {s : State} {u : Fs.State} {k m off n : Nat} {name : Name}

/-! ### Reading a file -/

/-- The kernel runs on the image, and entry `k` of its inode table has been read from it. -/
structure Loaded (s : State) (k : Nat) (u : Fs.State) : Prop where
  dinode : u.dinode = s.dinode
  data : u.data = s.sect
  entry : (u.itable k).d = s.dinode (u.itable k).inum
  type : (u.itable k).d.type ≠ 0

theorem Made.readable (h : Made fs s) (hu : Loaded s k u) :
    Readable u k (contents fs (u.itable k).inum).length := by
  have htype : (s.dinode (u.itable k).inum).type ≠ 0 := by
    rw [← hu.entry]
    exact hu.type
  have hsmall := h.blocks.small (u.itable k).inum
  intro off hoff
  have hwants : Wants (contents fs (u.itable k).inum).length (place (off / bsize)) := by
    unfold Wants
    rw [index_place]
    exact lt_of_le_of_lt (Nat.div_mul_le_self off bsize) hoff
  have hheld : slots u.dinode u.data ((u.itable k).inum, place (off / bsize)) ≠ 0 := by
    rw [hu.dinode, hu.data]
    exact (h.blocks.held _ _ htype).mpr hwants
  have hslot : slots u.dinode u.data ((u.itable k).inum, place (off / bsize)) =
      slot u.data (u.itable k).d (place (off / bsize)) := by
    unfold slots
    rw [hu.dinode, hu.entry]
  refine ⟨?_, hheld⟩
  rw [hslot] at hheld ⊢
  apply bmap_held hu.type _ hheld
  apply Nat.div_lt_of_lt_mul
  rw [Nat.mul_comm]
  omega

theorem Made.bytesOf (h : Made fs s) (hu : Loaded s k u) {i : Nat} (hle : off + n ≤ (contents fs i).length) :
    u.bytesOf i off n = ((contents fs i).drop off).take n := by
  unfold State.bytesOf State.byteOf
  apply ext_getElem
  · rw [length_map, length_range, length_take, length_drop]
    omega
  · intro j hj hj'
    rw [length_map, length_range] at hj
    have hbyte := h.holds i (off + j) (by omega)
    rw [List.getElem?_eq_getElem (by omega), Option.some_inj] at hbyte
    rw [getElem_map, getElem_range, getElem_take, getElem_drop, hbyte, hu.dinode, hu.data]

theorem Made.readi (h : Made fs s) (hu : Loaded s k u) (off n : Nat)
    (hle : off + n ≤ (contents fs (u.itable k).inum).length)
    (hcount : readCount (u.itable k).d.size off n = n) :
    readi k (fun _ => true) off n u = .ok ((n, ((contents fs (u.itable k).inum).drop off).take n), u) := by
  have hread : Sat (Fs.readi k (fun _ => true) off n) u (fun r t => t = u ∧
      ReadEnd u (u.itable k).inum (fun _ => true) (readCount (u.itable k).d.size off n) 0 off r.1 r.2)
      fun _ => False := readi_readable (h.readable hu) (.inr (by rwa [hcount]))
  rw [hcount] at hread
  obtain ⟨⟨r, bs⟩, t, heq, rfl, hend⟩ := hread.ok
  rw [heq, ← h.bytesOf hu hle]
  cases hend with
  | all _ => rfl
  | fault m _ _ hbad _ => exact absurd hbad Bool.true_eq_false.mp

/-! ### Directory entries -/

theorem InFile.name_nonzero (f : InFile) : ∀ b ∈ f.name, b ≠ 0 := by
  have hshort : ∀ b ∈ f.shortname, b ≠ 0 := by
    intro b hb
    unfold InFile.shortname at hb
    split at hb
    · exact f.nonzero b (mem_of_mem_drop hb)
    · exact f.nonzero b hb
  intro b hb
  unfold InFile.name at hb
  split at hb
  · exact hshort b (mem_of_mem_drop hb)
  · exact hshort b hb

/-- The names in the root directory. -/
def names (fs : List InFile) : List Name := dot :: dotdot :: fs.map InFile.name

theorem entries_chunk (j : Nat) (hj : j < fs.length) :
    ((entries n fs).drop (sizeofDirent * j)).take sizeofDirent = entry (n + j) fs[j].name := by
  induction fs generalizing n j with
  | nil => exact absurd hj (Nat.not_lt_zero j)
  | cons f fs ih =>
    unfold entries
    cases j with
    | zero => exact take_left' (length_entry n f.name)
    | succ j =>
      rw [Nat.mul_succ, Nat.add_comm, ← drop_drop, drop_left' (length_entry n f.name)]
      rw [ih j (Nat.lt_of_succ_lt_succ hj), getElem_cons_succ, Nat.add_assoc, Nat.add_comm 1]

/-- Entry `m` of the root directory names inode `m`, but the first names the root as the second does. -/
theorem root_chunk (hm : m < (names fs).length) :
    ((contents fs rootino).drop (sizeofDirent * m)).take sizeofDirent = entry (max m 1) (names fs)[m] := by
  rw [contents_root, append_assoc]
  match m, hm with
  | 0, _ => exact take_left' (length_entry rootino dot)
  | 1, _ =>
    rw [Nat.mul_one, drop_left' (length_entry rootino dot)]
    exact take_left' (length_entry rootino dotdot)
  | j + 2, hm =>
    have hj : j < fs.length := by simpa [names] using hm
    have hoff : sizeofDirent * (j + 2) = sizeofDirent + (sizeofDirent + sizeofDirent * j) := by ring
    rw [hoff, ← drop_drop, drop_left' (length_entry rootino dot), ← drop_drop,
      drop_left' (length_entry rootino dotdot), entries_chunk j hj, max_eq_left (by omega), Nat.add_comm 2]
    simp [names]

/-! ### Looking a name up -/

theorem length_names : (names fs).length = fs.length + 2 := by simp [names]

section

variable (h : Made fs s) (hu : Loaded s k u) (hk : (u.itable k).inum = rootino) (hlt : fs.length + 2 ≤ ninodeblocks * ipb) (hm : m < (names fs).length)
include h hu hk hlt hm

theorem Made.readDirent {msg : String} :
    readDirent k (sizeofDirent * m) msg u = .ok (⟨max m 1, strncpy (names fs)[m]⟩, u) := by
  have harea : ninodeblocks * ipb = 208 := rfl
  have hlen := length_contents_root fs
  have hm' : m < fs.length + 2 := by rwa [← length_names]
  have hin : sizeofDirent * m + sizeofDirent ≤ (contents fs rootino).length := by
    rw [hlen]
    unfold sizeofDirent
    omega
  have hsize : (u.itable k).d.size = roundUp (contents fs rootino).length := by
    rw [hu.entry, h.size, hk, if_pos rfl]
  have hcount : readCount (u.itable k).d.size (sizeofDirent * m) sizeofDirent = sizeofDirent := by
    rw [hsize]
    have hround : (contents fs rootino).length ≤ roundUp (contents fs rootino).length := by
      unfold roundUp bsize
      omega
    unfold readCount u32
    unfold sizeofDirent at *
    rw [if_neg (by omega), if_neg (by omega)]
  have hread := h.readi hu (sizeofDirent * m) sizeofDirent (by rwa [hk]) hcount
  rw [hk, root_chunk hm] at hread
  have hbytes : Dirent.ofBytes (entry (max m 1) (names fs)[m]) = ⟨max m 1, strncpy (names fs)[m]⟩ :=
    ofBytes_toBytes (show max m 1 < 2 ^ 16 by omega)
  have hsat : Sat (Fs.readDirent k (sizeofDirent * m) msg) u
      (fun de t => de = ⟨max m 1, strncpy (names fs)[m]⟩ ∧ t = u) fun _ => False := by
    unfold Fs.readDirent
    rw [sat_bind, sat_of_eq hread]
    dsimp only
    rw [if_pos rfl, sat_pure, hbytes]
    exact ⟨rfl, rfl⟩
  obtain ⟨de, t, heq, rfl, rfl⟩ := hsat.ok
  exact heq

theorem Made.dirlookupLoop
    (hfirst : ∀ j (hj : j < m), ¬namecmp (names fs)[m] (names fs)[j])
    {Q : Option (Nat × Nat) → Fs.State → Prop} {e : String → Prop}
    (hget : Sat (iget (u.itable k).dev (max m 1)) u (fun ip t => Q (some (ip, sizeofDirent * m)) t) e) (turns j : Nat)
    (hj : j ≤ m) (hturns : m < j + turns) :
    Sat (dirlookupLoop k (names fs)[m] turns (sizeofDirent * j)) u Q e := by
  induction turns generalizing j with
  | zero => omega
  | succ turns ih =>
    have hname : namecmp (names fs)[m] (strncpy (names fs)[j]) ↔ namecmp (names fs)[m] (names fs)[j] := by
      unfold namecmp
      rw [cstr_strncpy]
    unfold Fs.dirlookupLoop
    rw [sat_bind, sat_of_eq (h.readDirent hu hk hlt (show j < (names fs).length by omega)), sat_ite]
    constructor
    · rintro ⟨-, hcmp⟩
      have heq : j = m := by
        by_contra hne
        exact hfirst j (by omega) (hname.mp hcmp)
      subst heq
      rw [sat_bind, sat_get, sat_bind]
      exact hget
    · intro hno
      have hne : j ≠ m := by
        rintro rfl
        exact hno ⟨by dsimp only; omega, hname.mpr rfl⟩
      rw [← Nat.mul_succ]
      exact ih (j + 1) (by omega) (by omega)

end

/-! ### The first lookup after the boot -/

/-- `dirlookup` in the root directory. -/
def lookupRoot (name : Name) : FsM (Option (Nat × Nat)) := do
  ilock 0
  dirlookup 0 name

/-- `readi` of a whole file. -/
def readWhole (ip : Nat) : FsM (Int × List UInt8) := do
  ilock ip
  let size := ((← get).itable ip).d.size
  readi ip (fun _ => true) 0 size

/-- The kernel after the boot, with this inode table. -/
def kernel (s : State) (tab : Nat → Inode) : Fs.State := { boot s.image with itable := tab }

/-- The entry of an inode that nobody has read yet. -/
def fresh (i : Nat) : Inode := { noInode with dev := rootdev, inum := i, ref := 1 }

/-- The entry of an inode that has been locked and read. -/
def held (s : State) (i : Nat) : Inode := ⟨rootdev, i, 1, true, true, s.dinode i⟩

variable {tab : Nat → Inode} {i : Nat}

theorem ilock_fresh (hk : tab k = fresh i) (htype : (s.dinode i).type ≠ 0) :
    ilock k (kernel s tab) = .ok ((), kernel s (update tab k (held s i))) := by
  have hsat : Sat (ilock k) (kernel s tab)
      (fun _ t => t = kernel s (update tab k (held s i))) fun _ => False := by
    have href : ((kernel s tab).itable k).ref = 1 := congrArg Inode.ref hk
    have hfree : ((kernel s tab).itable k).locked = false := congrArg Inode.locked hk
    unfold ilock acquiresleep loadInode setInode
    rw [sat_bind, sat_get, if_neg (by rw [href]; decide), sat_bind, sat_bind, sat_get, hfree]
    simp only [Bool.false_eq_true, if_false, sat_bind, sat_modify, sat_get]
    have hlocked : ((kernel s tab).inode k fun ip => { ip with locked := true }).itable k =
        { fresh i with locked := true } := by
      rw [← hk]
      exact update_self ..
    rw [hlocked]
    rw [sat_ite]
    refine ⟨fun hv => absurd hv Bool.false_ne_true, fun _ => ?_⟩
    rw [sat_bind, sat_modify, sat_ite]
    refine ⟨fun h0 => absurd h0 htype, fun _ => ?_⟩
    rw [sat_pure]
    unfold State.inode kernel
    dsimp only
    rw [update_idem, update_self, hk]
    rfl
  obtain ⟨_, t, heq, rfl⟩ := hsat.ok
  exact heq

theorem loaded_of_held (hk : tab k = held s i) (htype : (s.dinode i).type ≠ 0) : Loaded s k (kernel s tab) where
  dinode := rfl
  data := rfl
  entry := by
    show (tab k).d = s.dinode (tab k).inum
    rw [hk]
    rfl
  type := by
    show (tab k).d.type ≠ 0
    rw [hk]
    exact htype

theorem iget_second (hi : i ≠ rootino) :
    iget rootdev i (kernel s (update (fun _ => noInode) 0 (held s rootino))) =
      .ok (1, kernel s (update (update (fun _ => noInode) 0 (held s rootino)) 1 (fresh i))) := by
  generalize htab : update (fun _ => noInode) 0 (held s rootino) = tab
  have hzero : tab 0 = held s rootino := by
    rw [← htab]
    exact update_self ..
  have hothers : ∀ k, k ≠ 0 → tab k = noInode := by
    intro k hk
    rw [← htab]
    exact update_of_ne hk ..
  have hnone : ((List.range ninode).find? fun k => decide (0 < (tab k).ref ∧ (tab k).dev = rootdev ∧
      (tab k).inum = i)) = none := by
    apply List.find?_eq_none.mpr
    intro k _ hfound
    obtain ⟨href, -, hinum⟩ := of_decide_eq_true hfound
    by_cases hk : k = 0
    · rw [hk, hzero] at hinum
      exact hi hinum.symm
    · rw [hothers k hk] at href
      exact absurd href (by decide)
  have hsecond : ((List.range ninode).find? fun k => decide ((tab k).ref = 0)) = some 1 := by
    apply List.find?_range_eq_some.mpr
    refine ⟨?_, by decide, fun j hj => ?_⟩
    · rw [hothers 1 (by decide)]
      rfl
    · obtain rfl : j = 0 := by omega
      rw [hzero]
      rfl
  have hsat : Sat (iget rootdev i) (kernel s tab)
      (fun k t => k = 1 ∧ t = kernel s (update tab 1 (fresh i))) fun _ => False := by
    unfold iget setInode
    rw [sat_bind, sat_get]
    unfold kernel
    dsimp only
    rw [hnone, hsecond]
    dsimp only
    rw [sat_bind, sat_modify, sat_pure]
    unfold State.inode
    dsimp only
    rw [hothers 1 (by decide)]
    exact ⟨rfl, rfl⟩
  obtain ⟨_, t, heq, rfl, rfl⟩ := hsat.ok
  exact heq

theorem boot_kernel : boot s.image = kernel s (update (fun _ => noInode) 0 (fresh rootino)) := rfl

theorem Made.lookupRoot (h : Made fs s) (hlt : fs.length + 2 ≤ ninodeblocks * ipb) (hm : m < (names fs).length)
    (h2 : 2 ≤ m) (hfirst : ∀ j (hj : j < m), ¬namecmp (names fs)[m] (names fs)[j]) :
    lookupRoot (names fs)[m] (boot s.image) = .ok (some (1, sizeofDirent * m),
      kernel s (update (update (fun _ => noInode) 0 (held s rootino)) 1 (fresh m))) := by
  have htype : (s.dinode rootino).type = tDir := by
    rw [h.types, h.freeinode]
    unfold typeOf rootino
    rw [if_pos (by omega), if_pos rfl]
  have hne : (s.dinode rootino).type ≠ 0 := by
    rw [htype]
    decide
  have hself := update_self 0 (held s rootino) fun _ => noInode
  have hsat : Sat (Mkfs.lookupRoot (names fs)[m]) (boot s.image) (fun r t => r = some (1, sizeofDirent * m) ∧
      t = kernel s (update (update (fun _ => noInode) 0 (held s rootino)) 1 (fresh m)))
      fun _ => False := by
    unfold Mkfs.lookupRoot dirlookup
    rw [boot_kernel, sat_bind, sat_of_eq (ilock_fresh (update_self ..) hne), update_idem]
    generalize htab : update (fun _ => noInode) 0 (held s rootino) = tab at *
    have hloaded : Loaded s 0 (kernel s tab) := loaded_of_held hself hne
    have hroot : ((kernel s tab).itable 0).inum = rootino := congrArg Inode.inum hself
    have hdir : ((kernel s tab).itable 0).d.type = tDir := by
      rw [hloaded.entry, hroot]
      exact htype
    have hsize : ((kernel s tab).itable 0).d.size = roundUp (contents fs rootino).length := by
      rw [hloaded.entry, hroot]
      exact (h.size rootino).trans (if_pos rfl)
    rw [sat_bind, sat_get]
    dsimp only
    rw [if_neg (by rw [hdir]; exact fun hc => hc rfl)]
    apply h.dirlookupLoop hloaded hroot hlt hm hfirst _ _ 0 (Nat.zero_le m)
    · rw [hsize, length_contents_root, Nat.zero_add]
      rw [length_names] at hm
      unfold direntCount roundUp bsize sizeofDirent
      omega
    · have hdev : ((kernel s tab).itable 0).dev = rootdev := congrArg Inode.dev hself
      have hget := iget_second (s := s) (i := m) (by unfold rootino; omega)
      rw [htab] at hget
      rw [hdev, max_eq_left (by omega), sat_of_eq hget]
      exact ⟨rfl, rfl⟩
  obtain ⟨_, t, heq, rfl, rfl⟩ := hsat.ok
  exact heq

theorem Made.readWhole (h : Made fs s) (h2 : 2 ≤ i) (hi : i < fs.length + 2) (hk : tab k = fresh i) :
    readWhole k (kernel s tab) =
      .ok (((contents fs i).length, contents fs i), kernel s (update tab k (held s i))) := by
  have hne : (s.dinode i).type ≠ 0 := by
    rw [h.types, h.freeinode, typeOf_ne]
    omega
  have hsat : Sat (Mkfs.readWhole k) (kernel s tab) (fun r t => r = (((contents fs i).length : Int), contents fs i) ∧
      t = kernel s (update tab k (held s i))) fun _ => False := by
    unfold Mkfs.readWhole
    rw [sat_bind, sat_of_eq (ilock_fresh hk hne)]
    have hself := update_self k (held s i) tab
    generalize update tab k (held s i) = tab' at *
    have hloaded : Loaded s k (kernel s tab') := loaded_of_held hself hne
    have hinum : ((kernel s tab').itable k).inum = i := congrArg Inode.inum hself
    have hsize : ((kernel s tab').itable k).d.size = (contents fs i).length := by
      rw [hloaded.entry, hinum, h.size, if_neg (by unfold rootino; omega)]
    have hread := h.readi hloaded 0 (contents fs i).length (by rw [hinum, Nat.zero_add]) (by
      rw [hsize]
      unfold readCount
      rw [if_neg (by omega), if_neg (by omega)])
    rw [hinum, drop_zero, take_length] at hread
    rw [sat_bind, sat_get]
    dsimp only
    rw [hsize, sat_of_eq hread]
    exact ⟨rfl, rfl⟩
  obtain ⟨_, t, heq, rfl, rfl⟩ := hsat.ok
  exact heq

/-! ### mkfs and the kernel agree -/

theorem names_file (j : Nat) (hj : j < fs.length) : (names fs)[j + 2]? = some fs[j].name := by
  simp [names, hj]

theorem names_first (hnames : ∀ f ∈ fs, f.name ≠ dot ∧ f.name ≠ dotdot)
    (hdistinct : (fs.map fun f => f.name.take dirsiz).Nodup) {i : Nat} (hi : i < fs.length)
    (hm : i + 2 < (names fs).length) :
    ∀ j (hj : j < i + 2), ¬namecmp (names fs)[i + 2] (names fs)[j] := by
  have hcstr : ∀ j (hj : j < fs.length), cstr fs[j].name = fs[j].name.take dirsiz :=
    fun j hj => cstr_of_nonzero fs[j].name_nonzero
  have hfile : ∀ j (hj : j < fs.length) (hj' : j + 2 < (names fs).length), (names fs)[j + 2] = fs[j].name := by
    intro j hj hj'
    exact Option.some_inj.mp ((List.getElem?_eq_getElem hj').symm.trans (names_file j hj))
  -- a name of less than `DIRSIZ` bytes is not cut
  have hshort : ∀ q : Name, q.length < dirsiz → cstr q = q → fs[i].name ≠ q → cstr fs[i].name ≠ cstr q := by
    intro q hlen hq hne heq
    rw [hcstr i hi, hq] at heq
    apply hne
    have hlen' : min dirsiz fs[i].name.length = q.length := by
      rw [← length_take, heq]
    rw [take_of_length_le (by omega)] at heq
    exact heq
  obtain ⟨hdot, hdotdot⟩ := hnames fs[i] (getElem_mem hi)
  intro j hj
  rw [hfile i hi hm]
  match j, hj with
  | 0, _ => exact hshort dot (by decide) (by decide) hdot
  | 1, _ => exact hshort dotdot (by decide) (by decide) hdotdot
  | j + 2, hj =>
    have hj' : j < fs.length := by omega
    rw [hfile j hj']
    unfold namecmp
    rw [hcstr i hi, hcstr j hj']
    intro heq
    have hlen : (fs.map fun f => f.name.take dirsiz).length = fs.length := length_map ..
    have hij : i = j := by
      apply (List.getElem?_inj (by rwa [hlen]) hdistinct).mp
      rw [List.getElem?_map, List.getElem?_map, List.getElem?_eq_getElem hi, List.getElem?_eq_getElem hj']
      exact congrArg some heq
    omega

/-- **`mkfs` and the kernel agree.** Of files that fit, with names that can be told apart, an image is made;
in every image that is made of them `dirlookup` finds each file under its name, and `readi` returns its
bytes. -/
theorem kernel_reads_image (args : Args)
    (hnames : ∀ f ∈ args.files, f.name ≠ [] ∧ f.name ≠ dot ∧ f.name ≠ dotdot)
    (hdistinct : (args.files.map fun f => f.name.take dirsiz).Nodup) (hinodes : args.files.length + 1 < ninodes)
    (hfit : nmeta + blocksOf args.files ≤ fssize) (hmax : ∀ f ∈ args.files, f.content.length ≤ maxfile * bsize) :
    ((∀ f ∈ args.files, slash ∉ f.shortname ∧ f.reads ≠ none) → ∃ s, main args start = .ok ((), s)) ∧
      ∀ s, main args start = .ok ((), s) → ∀ (j : Nat) (hj : j < args.files.length),
        ∃ ip off u v, lookupRoot args.files[j].name (boot s.image) = .ok (some (ip, off), u) ∧
          (u.itable ip).inum = j + 2 ∧
          readWhole ip u = .ok ((args.files[j].content.length, args.files[j].content), v) := by
  have hlt : args.files.length + 2 ≤ ninodeblocks * ipb := by
    have harea : ninodeblocks * ipb = 208 := rfl
    unfold ninodes at hinodes
    omega
  constructor
  · intro hthere
    exact main_ok hlt (fun f hf => (hthere f hf).1) (fun f hf => (hthere f hf).2) hmax hfit
  · intro s hs j hj
    have hmade : Made args.files s := made_of_ok hs hlt
    have hm : j + 2 < (names args.files).length := by
      rw [length_names]
      omega
    have hfirst := names_first (fun f hf => (hnames f hf).2) hdistinct hj hm
    have hname : (names args.files)[j + 2] = args.files[j].name :=
      Option.some_inj.mp ((List.getElem?_eq_getElem hm).symm.trans (names_file j hj))
    have hlookup := hmade.lookupRoot hlt hm (by omega) hfirst
    rw [hname] at hlookup
    have hself := update_self 1 (fresh (j + 2)) (update (fun _ => noInode) 0 (held s rootino))
    have hread := hmade.readWhole (by omega) (by omega) hself
    have hcontent : contents args.files (j + 2) = args.files[j].content := by
      rw [Nat.add_comm]
      exact contents_file j hj
    rw [hcontent] at hread
    exact ⟨_, _, _, _, hlookup, congrArg Inode.inum hself, hread⟩

/-- `user/_a` with one byte in it. -/
def oneFile : Args := ⟨[⟨[117, 115, 101, 114, 47, 95, 97], by simp, some [⟨[104], by simp, by decide⟩]⟩], by decide⟩

/-- The file is found as `a`. -/
theorem kernel_reads_oneFile : ∃ s, main oneFile start = .ok ((), s) ∧
    ∃ ip off u v, lookupRoot [97] (boot s.image) = .ok (some (ip, off), u) ∧ (u.itable ip).inum = 2 ∧
      readWhole ip u = .ok ((1, [104]), v) := by
  have hagree := kernel_reads_image oneFile (by decide) (by decide) (by decide) (by decide) (by decide)
  obtain ⟨s, hs⟩ := hagree.1 (by decide)
  exact ⟨s, hs, hagree.2 s hs 0 (by decide)⟩

end Xv6Armv8.Mkfs
