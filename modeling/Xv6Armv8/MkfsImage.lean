import Mathlib
import Xv6Armv8.FsDir
import Xv6Armv8.MkfsBuild

/-! When the image is a consistent disk. The contents of the root directory are its entries one after the
other and those of a file are what was read, so the number of files decides whether the inodes stay in their
area and whether the root directory fills its last block. -/

namespace Xv6Armv8.Mkfs

open Fs Spec Alloc List

variable {s t : State} {C : Nat → List UInt8} {fs : List InFile} {n i : Nat}

/-! ### The contents -/

theorem length_entry (inum : Nat) (name : Name) : (entry inum name).length = sizeofDirent := by
  unfold entry Dirent.toBytes
  rw [length_cons, length_cons, length_strncpy]
  rfl

/-- The entries of the files, the first of which has inode `n`. -/
def entries : Nat → List InFile → List UInt8
  | _, [] => []
  | n, f :: fs => entry n f.name ++ entries (n + 1) fs

theorem length_entries (n : Nat) (fs : List InFile) : (entries n fs).length = sizeofDirent * fs.length := by
  induction fs generalizing n with
  | nil => rfl
  | cons f fs ih =>
    unfold entries
    rw [length_append, length_entry, ih, length_cons]
    ring

theorem withFile_root (hn : rootino < n) (f : InFile) :
    withFile C n f rootino = C rootino ++ entry n f.name := by
  unfold withFile
  rw [app_of_ne (by omega), app_self]

theorem withFiles_root (fs : List InFile) (hn : rootino < n) :
    withFiles C n fs rootino = C rootino ++ entries n fs := by
  induction fs generalizing C n with
  | nil => exact (append_nil _).symm
  | cons f fs ih =>
    unfold withFiles entries
    rw [ih (by omega), withFile_root hn, append_assoc]

variable {args : Args} {b : Nat} {d : Dinode} {f : InFile}

theorem withFile_of_ne (hi : i ≠ rootino) (hn : i ≠ n) : withFile C n f i = C i := by
  unfold withFile
  rw [app_of_ne hn, app_of_ne hi]

theorem withFile_self (hn : rootino < n) : withFile C n f n = C n ++ f.content := by
  unfold withFile
  rw [app_self, app_of_ne (by omega)]

theorem withFiles_of_lt (fs : List InFile) (hi : i ≠ rootino) (hn : i < n) : withFiles C n fs i = C i := by
  induction fs generalizing C n with
  | nil => rfl
  | cons f fs ih =>
    unfold withFiles
    rw [ih (by omega), withFile_of_ne hi (by omega)]

theorem withFiles_file (hn : rootino < n) (j : Nat) (hj : j < fs.length) :
    withFiles C n fs (n + j) = C (n + j) ++ fs[j].content := by
  induction fs generalizing C n j with
  | nil => exact absurd hj (Nat.not_lt_zero j)
  | cons f fs ih =>
    unfold withFiles
    cases j with
    | zero =>
      show withFiles (withFile C n f) (n + 1) fs n = C n ++ f.content
      rw [withFiles_of_lt fs (by omega) (Nat.lt_succ_self n), withFile_self hn]
    | succ j =>
      rw [length_cons] at hj
      have hrest := ih (C := withFile C n f) (n := n + 1) (by omega) j (by omega)
      rw [show n + 1 + j = n + (j + 1) by omega] at hrest
      rw [hrest, withFile_of_ne (by omega) (by omega), getElem_cons_succ]

theorem withFiles_of_ge (fs : List InFile) (hn : rootino < n) (hi : n + fs.length ≤ i) :
    withFiles C n fs i = C i := by
  induction fs generalizing C n with
  | nil => rfl
  | cons f fs ih =>
    rw [length_cons] at hi
    unfold withFiles
    rw [ih (by omega) (by omega), withFile_of_ne (by omega) (by omega)]

theorem contents_root (fs : List InFile) :
    contents fs rootino = entry rootino dot ++ entry rootino dotdot ++ entries 2 fs := by
  unfold contents rootOnly
  rw [withFiles_root fs (by decide), app_self, app_self, nil_append]

theorem rootOnly_of_ne (hi : i ≠ rootino) : rootOnly i = [] := by
  unfold rootOnly
  rw [app_of_ne hi, app_of_ne hi]

theorem contents_file (j : Nat) (hj : j < fs.length) : contents fs (2 + j) = fs[j].content := by
  unfold contents
  rw [withFiles_file (by decide) j hj, rootOnly_of_ne (by unfold rootino; omega), nil_append]

theorem contents_none (hi : i = 0 ∨ fs.length + 2 ≤ i) : contents fs i = [] := by
  have hne : i ≠ rootino := by
    unfold rootino
    omega
  unfold contents
  rcases hi with hi | hi
  · rw [withFiles_of_lt fs hne (by omega), rootOnly_of_ne hne]
  · rw [withFiles_of_ge fs (by decide) (by omega), rootOnly_of_ne hne]

theorem length_contents_root (fs : List InFile) : (contents fs rootino).length = sizeofDirent * (fs.length + 2) := by
  rw [contents_root, length_append, length_append, length_entry, length_entry, length_entries]
  ring

/-- The blocks that the files take. -/
def blocksOf (fs : List InFile) : Nat :=
  need (sizeofDirent * (fs.length + 2)) + (fs.map fun f => need f.content.length).sum

theorem total_withFiles (fs : List InFile) (hn : rootino < n) (hlt : n + fs.length ≤ ninodeblocks * ipb)
    (hC : ∀ i, n ≤ i → C i = []) :
    total (withFiles C n fs) + need (C rootino).length =
      total C + need ((C rootino).length + sizeofDirent * fs.length) + (fs.map fun f => need f.content.length).sum := by
  induction fs generalizing C n with
  | nil =>
    unfold withFiles
    rw [length_nil, Nat.mul_zero, Nat.add_zero, map_nil, sum_nil, Nat.add_zero]
  | cons f fs ih =>
    rw [length_cons] at hlt
    have hroot := total_app (C := C) (i := rootino) (p := entry n f.name) (by omega)
    have hfile := total_app (C := app C rootino (entry n f.name)) (i := n) (p := f.content) (by omega)
    rw [app_of_ne (show n ≠ rootino by omega), hC n le_rfl, length_nil, Nat.zero_add,
      show need 0 = 0 by decide, Nat.add_zero] at hfile
    have hrest := ih (C := withFile C n f) (n := n + 1) (by omega) (by omega) fun i hi => by
      rw [withFile_of_ne (by omega) (by omega)]
      exact hC i (by omega)
    rw [withFile_root hn, length_append, length_entry] at hrest
    rw [length_entry] at hroot
    unfold withFiles
    rw [length_cons, map_cons, sum_cons, show (C rootino).length + sizeofDirent * (fs.length + 1) =
        (C rootino).length + sizeofDirent + sizeofDirent * fs.length by ring]
    have htotal : total (withFile C n f) = total (app C rootino (entry n f.name)) + need f.content.length := hfile
    omega

theorem total_contents (hlt : fs.length + 2 ≤ ninodeblocks * ipb) : total (contents fs) = blocksOf fs := by
  have hempty : total (fun _ => []) = 0 := Finset.sum_eq_zero fun _ _ => show need 0 = 0 by decide
  have h1 := total_app (C := fun _ => []) (i := rootino) (p := entry rootino dot) (by decide)
  have h2 := total_app (C := app (fun _ => []) rootino (entry rootino dot)) (i := rootino)
    (p := entry rootino dotdot) (by decide)
  rw [app_self, nil_append, length_entry, length_entry] at h2
  rw [length_nil, length_entry, hempty, Nat.zero_add, Nat.zero_add] at h1
  have hfiles := total_withFiles (C := rootOnly) (n := 2) fs (by decide) (by omega) fun i hi =>
    rootOnly_of_ne (by unfold rootino; omega)
  have hroot : (rootOnly rootino).length = sizeofDirent + sizeofDirent := by
    unfold rootOnly
    rw [app_self, app_self, nil_append, length_append, length_entry, length_entry]
  rw [hroot] at hfiles
  have hzero : need 0 = 0 := by decide
  unfold contents blocksOf
  rw [show sizeofDirent * (fs.length + 2) = sizeofDirent + sizeofDirent + sizeofDirent * fs.length by ring]
  have hrootOnly : total rootOnly = total (app (app (fun _ => []) rootino (entry rootino dot)) rootino
    (entry rootino dotdot)) := rfl
  omega

theorem not_tooBig (hlt : fs.length + 2 ≤ ninodeblocks * ipb)
    (hmax : ∀ f ∈ fs, f.content.length ≤ maxfile * bsize) (hfit : nmeta + blocksOf fs ≤ fssize) :
    ¬TooBig (contents fs) := by
  have harea : ninodeblocks * ipb = 208 := rfl
  rintro (⟨i, hi⟩ | hbig)
  · by_cases hroot : i = rootino
    · have hbound : maxfile * bsize = 274432 := rfl
      rw [hroot, length_contents_root] at hi
      unfold sizeofDirent at hi
      omega
    · by_cases hfile : 2 ≤ i ∧ i < fs.length + 2
      · obtain ⟨j, rfl⟩ := Nat.exists_eq_add_of_le hfile.1
        have hj : j < fs.length := by omega
        rw [contents_file j hj] at hi
        have hle := hmax fs[j] (getElem_mem hj)
        omega
      · rw [contents_none (by unfold rootino at hroot; omega)] at hi
        exact absurd hi (Nat.not_lt_zero _)
  · rw [total_contents hlt] at hbig
    omega

/-! ### Consistency -/

/-- The image is a consistent disk: the inodes have blocks for all of their contents, the inode numbers in use
are those of inodes in the inode area, the blocks in use are blocks of the disk, and the free map marks them
and the metadata. -/
structure Sound (s : State) : Prop where
  backed : ∀ i n, (s.image.dinode i).type ≠ 0 → n * bsize < (s.image.dinode i).size →
    slots s.image.dinode s.image.data (i, place n) ≠ 0
  inodes : ∀ i, 1 ≤ i → i < s.freeinode →
    i < sb.ninodes ∧ sb.inodestart ≤ sb.iblock i ∧ sb.iblock i < sb.bmapstart
  inside : ∀ x, slots s.image.dinode s.image.data x < fssize
  marked : ∀ b, b < nbitmap * bpb →
    (s.image.bitmap b = true ↔ b < nmeta ∨ ∃ x, slots s.image.dinode s.image.data x = b)

theorem Made.bit (h : Made fs s) (hb : b < nbitmap * bpb) : s.bit b = decide (b < s.freeblock) := by
  replace hb : b < bpb := hb
  have hblock : sb.bblock b = sb.bmapstart := by
    unfold Superblock.bblock
    rw [Nat.div_eq_of_lt hb, Nat.zero_add]
  unfold State.bit
  rw [hblock, h.map, testBit_bitmapBlock _ _ (Nat.mod_lt _ (by decide))]
  have hmod : b % bpb = b := Nat.mod_eq_of_lt hb
  rw [hmod, Nat.div_add_mod]

/-- Below the rounded size the root directory has its blocks unless it fills the last one. -/
theorem Made.sound_iff (h : Made fs s) :
    Sound s ↔ fs.length + 1 < ninodes ∧ (fs.length + 2) % (bsize / sizeofDirent) ≠ 0 := by
  have hroot := length_contents_root fs
  have hper : bsize / sizeofDirent = 64 := rfl
  have hmeta : nmeta = 46 := rfl
  rw [hper]
  constructor
  · intro hs
    have hlast := (hs.inodes (fs.length + 1) (by omega) (by rw [h.freeinode]; omega)).1
    refine ⟨hlast, fun hfull => ?_⟩
    -- the block behind the last one that is full
    have htype : (s.dinode rootino).type ≠ 0 := by
      rw [h.types, typeOf_ne, h.freeinode]
      exact ⟨le_rfl, by unfold rootino; omega⟩
    have hwant := (h.blocks.held rootino _ htype).mp (hs.backed rootino ((fs.length + 2) / 64) htype ?_)
    · rw [Wants, index_place, hroot] at hwant
      unfold bsize sizeofDirent at hwant
      omega
    · show _ < (s.dinode rootino).size
      rw [h.size, if_pos rfl, hroot]
      unfold roundUp bsize sizeofDirent
      omega
  · rintro ⟨hlt, hfull⟩
    refine ⟨fun i n ht hn => ?_, fun i h1 hi => ?_, fun x => ?_, fun b hb => ?_⟩
    · refine (h.blocks.held i _ ht).mpr ?_
      replace hn : n * bsize < (s.dinode i).size := hn
      rw [h.size] at hn
      rw [Wants, index_place]
      split at hn
      next hi =>
        rw [hi] at hn ⊢
        rw [hroot] at hn ⊢
        unfold roundUp bsize sizeofDirent at hn
        unfold bsize sizeofDirent
        omega
      next => exact hn
    · rw [h.freeinode] at hi
      have hnin : sb.ninodes = ninodes := rfl
      have hstart : sb.inodestart = 32 := rfl
      have hend : sb.bmapstart = 45 := rfl
      unfold Superblock.iblock
      rw [hnin, hstart, hend]
      unfold ninodes at hlt ⊢
      unfold ipb
      omega
    · by_cases h0 : slots s.dinode s.sect x = 0
      · rw [show slots s.image.dinode s.image.data x = 0 from h0]
        decide
      · exact lt_of_lt_of_le (h.blocks.area.slot_lt h0) h.blocks.hi
    · rw [show s.image.bitmap b = s.bit b from rfl, h.bit hb, decide_eq_true_eq]
      have hlo := h.blocks.area.lo
      by_cases hb' : b < nmeta
      · exact ⟨fun _ => .inl hb', fun _ => by omega⟩
      · have hmark := h.blocks.area.owns.mark_iff b (by omega)
        rw [decide_eq_true_eq] at hmark
        rw [hmark]
        exact ⟨fun hx => .inr hx, fun hx => hx.resolve_left hb'⟩

/-! ### The number of inodes -/

/-- No inode is allocated. -/
def SameInodes (s t : State) : Prop := t.freeinode = s.freeinode

instance : Std.Refl SameInodes := ⟨fun _ => rfl⟩

instance : IsTrans State SameInodes := ⟨fun _ _ _ h h' => Eq.trans h' h⟩

theorem rsect_same : Keeps SameInodes (fun _ => True) (rsect b) :=
  .bind .get fun _ => .ite (.throw trivial) .pure

theorem wsect_same {m : ByteStore} : Keeps SameInodes (fun _ => True) (wsect b m) := .modify fun _ => rfl

theorem newBlock_same : Keeps SameInodes (fun _ => True) newBlock :=
  .bind .get fun _ => .bind (.modify fun _ => rfl) fun _ => .pure

theorem winode_same : Keeps SameInodes (fun _ => True) (winode i d) :=
  .bind rsect_same fun _ => wsect_same

theorem addrFor_same {c : Nat} : Keeps SameInodes (fun _ => True) (addrFor d c) :=
  .ite (.bind newBlock_same fun _ => .pure) .pure

theorem blockFor_same {c : Nat} : Keeps SameInodes (fun _ => True) (blockFor d c) :=
  .ite (.bind addrFor_same fun _ => .pure) (.bind addrFor_same fun _ =>
    .bind (.bind rsect_same fun _ => .ite
      (.bind newBlock_same fun _ => .bind wsect_same fun _ => .pure) .pure) fun _ => .pure)

theorem iappendLoop_same (turns : Nat) (d : Dinode) (off : Nat) (p : List UInt8) :
    Keeps SameInodes (fun _ => True) (iappendLoop turns d off p) := by
  induction turns generalizing d off p with
  | zero => exact .pure
  | succ turns ih =>
    unfold iappendLoop
    apply Keeps.ite .pure
    apply Keeps.ite _ (.throw trivial)
    apply Keeps.bind blockFor_same
    intro r
    apply Keeps.bind rsect_same
    intro buf
    apply Keeps.bind wsect_same
    intro _
    exact ih _ _ _

theorem iappend_same {p : List UInt8} : Keeps SameInodes (fun _ => True) (iappend i p) :=
  .bind (.bind rsect_same fun _ => .pure) fun _ =>
    .bind (iappendLoop_same _ _ _ _) fun _ => winode_same

theorem ialloc_counts {type : Nat} (h : s.freeinode + 1 < 2 ^ 32) :
    Sat (ialloc type) s (fun _ t => t.freeinode = s.freeinode + 1) fun _ => True := by
  unfold ialloc
  rw [sat_bind, sat_get, sat_bind, sat_modify]
  refine (winode_same _).bind fun _ t ht => ?_
  exact Eq.trans ht (Nat.mod_eq_of_lt h)

theorem addFile_counts (h : s.freeinode + 1 < 2 ^ 32) :
    Sat (addFile f) s (fun _ t => t.freeinode = s.freeinode + 1) fun _ => True := by
  unfold addFile
  rw [sat_ite]
  refine ⟨fun _ => trivial, fun _ => ?_⟩
  cases f.reads with
  | none => exact trivial
  | some cs =>
    dsimp only
    refine (ialloc_counts h).bind fun inum t ht => ?_
    refine (iappend_same t).bind fun _ u hu => ?_
    exact (Keeps.forM (fun _ => iappend_same) u).imp fun _ w hw => Eq.trans hw (Eq.trans hu ht)

theorem files_counts {fs : List InFile} (h : s.freeinode + fs.length < 2 ^ 32) :
    Sat (fs.forM addFile) s (fun _ t => t.freeinode = s.freeinode + fs.length) fun _ => True := by
  induction fs generalizing s with
  | nil => exact rfl
  | cons f fs ih =>
    rw [length_cons] at h
    rw [forM_eq_forM, forM_cons]
    refine (addFile_counts (by omega)).bind fun _ t ht => ?_
    refine (ih (by omega)).imp fun _ u hu => ?_
    rw [hu, ht, length_cons]
    omega

section

attribute [local irreducible] fssize

theorem main_counts :
    Sat (main args) start (fun _ t => t.freeinode = args.files.length + 2) fun _ => True := by
  have hargs := args.argc_lt
  unfold main
  rw [sat_bind]
  refine writeMeta_spec.mono (fun _ s hs => ?_) fun _ _ => trivial
  subst hs
  rw [sat_bind]
  refine (makeRoot_built blank_built rfl).mono (fun _ s ⟨_, hsi⟩ => ?_) fun _ _ => trivial
  refine (files_counts (by omega)).bind fun _ t ht => ?_
  rw [hsi] at ht
  have hfix : Keeps SameInodes (fun _ => True) fixRoot :=
    .bind (.bind rsect_same fun _ => .pure) fun _ => winode_same
  refine (hfix t).bind fun _ u hu => ?_
  rw [sat_bind, sat_get]
  unfold balloc
  rw [sat_ite]
  refine ⟨fun _ => (wsect_same u).imp fun _ w hw => ?_, fun _ => trivial⟩
  rw [Eq.trans hw (Eq.trans hu ht)]
  omega

theorem made_of_ok (h : main args start = .ok ((), s))
    (hlt : args.files.length + 2 ≤ ninodeblocks * ipb) : Made args.files s := (main_made hlt).of_ok h

theorem main_ok (hlt : args.files.length + 2 ≤ ninodeblocks * ipb)
    (hnames : ∀ f ∈ args.files, slash ∉ f.shortname) (hreads : ∀ f ∈ args.files, f.reads ≠ none)
    (hmax : ∀ f ∈ args.files, f.content.length ≤ maxfile * bsize) (hfit : nmeta + blocksOf args.files ≤ fssize) :
    ∃ s, main args start = .ok ((), s) := by
  have hok : Sat (main args) start (fun _ t => Made args.files t) fun _ => False := by
    refine (main_made hlt).mono (fun _ _ h => h) fun _ hbad => ?_
    rcases hbad with ⟨f, hf, hbad | hbad⟩ | hbad
    · exact hnames f hf hbad
    · exact hreads f hf hbad
    · exact not_tooBig hlt hmax hfit hbad
  obtain ⟨_, s, hs, -⟩ := hok.ok
  exact ⟨s, hs⟩

theorem counts_of_ok (h : main args start = .ok ((), s)) : s.freeinode = args.files.length + 2 :=
  main_counts.of_ok h

end

/-- **`mkfs` makes a consistent image** of every list of files on which it ends normally if and only if there
are fewer than 199 files and the root directory does not fill its last block. -/
theorem image_sound_iff {args : Args} (h : main args start = .ok ((), s)) :
    Sound s ↔ args.files.length + 1 < ninodes ∧ (args.files.length + 2) % (bsize / sizeofDirent) ≠ 0 := by
  have hcount : s.freeinode = args.files.length + 2 := counts_of_ok h
  have harea : ninodeblocks * ipb = 208 := rfl
  constructor
  · intro hs
    have hlt : args.files.length + 1 < ninodes :=
      (hs.inodes (args.files.length + 1) (by omega) (by rw [hcount]; omega)).1
    have hmade : Made args.files s := made_of_ok h (by unfold ninodes at hlt; omega)
    exact hmade.sound_iff.mp hs
  · intro hcond
    have hlt := hcond.1
    have hmade : Made args.files s := made_of_ok h (by unfold ninodes at hlt; omega)
    exact hmade.sound_iff.mpr hcond

theorem emptyFile_nonzero : ∀ b ∈ ([97] : List UInt8), b ≠ 0 := by
  simp

/-- An empty file. -/
def emptyFile : InFile := ⟨[97], emptyFile_nonzero, some []⟩

/-- Copies of the empty file. -/
def emptyFiles (n : Nat) (h : n + 2 < 2 ^ 31) : Args := ⟨List.replicate n emptyFile, by rwa [length_replicate]⟩

theorem emptyFiles_ok {h : n + 2 < 2 ^ 31} (hn : n ≤ 200) : ∃ s, main (emptyFiles n h) start = .ok ((), s) := by
  have hlen : (emptyFiles n h).files.length = n := length_replicate
  have hmem : ∀ f ∈ (emptyFiles n h).files, f = emptyFile := fun f hf => eq_of_mem_replicate hf
  have harea : ninodeblocks * ipb = 208 := rfl
  apply main_ok
  · omega
  · intro f hf
    rw [hmem f hf]
    decide
  · intro f hf
    rw [hmem f hf]
    decide
  · intro f hf
    rw [hmem f hf]
    exact Nat.zero_le _
  · have hsum : ((emptyFiles n h).files.map fun f => need f.content.length).sum = 0 := by
      apply sum_eq_zero
      intro x hx
      obtain ⟨f, hf, rfl⟩ := mem_map.mp hx
      rw [hmem f hf]
      decide
    unfold blocksOf
    rw [hsum, hlen]
    have hneed : need (sizeofDirent * (n + 2)) ≤ need (sizeofDirent * 202) := by
      apply need_mono
      unfold sizeofDirent
      omega
    have hmost : need (sizeofDirent * 202) = 4 := by decide
    have hmeta : nmeta = 46 := rfl
    unfold fssize
    omega

/-- An image without files is consistent. -/
theorem no_files_sound : ∃ s, main (emptyFiles 0 (by decide)) start = .ok ((), s) ∧ Sound s := by
  obtain ⟨s, hs⟩ := emptyFiles_ok (n := 0) (h := by decide) (by decide)
  exact ⟨s, hs, (image_sound_iff hs).mpr ⟨by decide, by decide⟩⟩

/-- With 62 files the root directory fills a block, and its size goes to the end of the next one. -/
theorem full_root_not_sound : ∃ args s, main args start = .ok ((), s) ∧ ¬Sound s := by
  obtain ⟨s, hs⟩ := emptyFiles_ok (n := 62) (h := by decide) (by decide)
  refine ⟨_, s, hs, fun hsound => ?_⟩
  exact ((made_of_ok hs (by decide)).sound_iff.mp hsound).2 (by decide)

end Xv6Armv8.Mkfs
